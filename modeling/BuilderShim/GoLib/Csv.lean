/-
  GoLib/Csv.lean --- the fields of one line of comma-separated values
  (vendor/github.com/tonistiigi/go-csvvalue).

  The parser looks for the next comma or quote from where it stands; here it is
  the same scan one byte at a time, with what it is in the middle of as its state.
-/
import BuilderShim.Foundation.Bytes

set_option autoImplicit false

namespace BuilderShim.Csv

/-- The errors, with the column they are reported for. -/
inductive Error where
  /-- `io.EOF`, for an empty line -/
  | eof
  /-- `csv.ErrBareQuote` -/
  | bareQuote (column : Nat)
  /-- `csv.ErrQuote` -/
  | quote (column : Nat)
  deriving DecidableEq, Repr

/-- What the parser is in the middle of. -/
inductive State where
  /-- a field that has not begun -/
  | start
  /-- a field without quotes -/
  | plain (field : Bytes)
  /-- a quoted field; its current piece began at `piece` -/
  | quoted (field : Bytes) (piece : Nat)
  /-- right after a quote in a quoted field -/
  | closed (field : Bytes)

def comma : UInt8 := 44

def quoteMark : UInt8 := 34

/-- The scan from position `pos`, with the fields so far in `dst`. -/
def scan : State → Nat → List Bytes → Bytes → Except Error (List Bytes)
  | .start, _, dst, [] => .ok (dst ++ [[]])
  | .plain field, _, dst, [] | .closed field, _, dst, [] => .ok (dst ++ [field])
  | .quoted _ piece, _, _, [] => .error (.quote (piece + 1))
  | .start, pos, dst, b :: line =>
      if b = quoteMark then scan (.quoted [] (pos + 1)) (pos + 1) dst line
      else if b = comma then scan .start (pos + 1) (dst ++ [[]]) line
      else scan (.plain [b]) (pos + 1) dst line
  | .plain field, pos, dst, b :: line =>
      if b = quoteMark then .error (.bareQuote (pos + 1))
      else if b = comma then scan .start (pos + 1) (dst ++ [field]) line
      else scan (.plain (field ++ [b])) (pos + 1) dst line
  | .quoted field piece, pos, dst, b :: line =>
      if b = quoteMark then scan (.closed field) (pos + 1) dst line
      else scan (.quoted (field ++ [b]) piece) (pos + 1) dst line
  | .closed field, pos, dst, b :: line =>
      if b = quoteMark then scan (.quoted (field ++ [b]) (pos + 1)) (pos + 1) dst line
      else if b = comma then scan .start (pos + 1) (dst ++ [field]) line
      else .error (.quote pos)

/-- A trailing newline is allowed. -/
def trimNewline (line : Bytes) : Bytes :=
  match line.reverse with
  | 10 :: 13 :: rest | 10 :: rest => rest.reverse
  | _ => line

/-- `csvvalue.Fields` -/
def fields (line : Bytes) : Except Error (List Bytes) :=
  let line := trimNewline line
  if line = [] then .error .eof else scan .start 0 [] line

example : fields (lit "type=oci,\"a,b\"") = .ok [lit "type=oci", lit "a,b"] := by decide

end BuilderShim.Csv
