/-
  Fssync/File.lean --- a file of the build context (pkg/fssync/file.go).

  Its data come from a read-seeker, from a buffer in memory or from the host, in
  that order of preference.  Each of the three has its own way of keeping the
  position: the read-seeker has one itself, the others use the index of the file.
-/
import Mathlib.Algebra.Group.Int.Defs
import Mathlib.Algebra.Group.Nat.Defs
import BuilderShim.Foundation.Bytes

set_option autoImplicit false

namespace BuilderShim.Fssync

/-- Addition of `int64`s. -/
def add64 (a b : Int) : Int := (a + b).bmod (2 ^ 64)

/-- At most `n` bytes of a content, from an offset on. -/
def bytesFrom (c : Bytes) (off : Int) (n : Nat) : Bytes := (c.drop off.toNat).take n

/-- `io.SeekStart` -/
def seekStart : Int := 0

/-- `io.SeekCurrent` -/
def seekCurrent : Int := 1

/-- `io.SeekEnd` -/
def seekEnd : Int := 2

inductive FileError where
  | eof
  /-- of the read-seeker -/
  | negativePosition
  | invalidWhence (whence : Int)
  | negativeSeekOffset (newIndex : Int)
  | seekBeyondEnd (newIndex : Int)
  /-- the request failed -/
  | request (code : Nat)
  /-- the host answered with an error -/
  | host (msg : Bytes)
  deriving DecidableEq

/-! ## The read-seeker -/

/-- A `bytes.Reader`. -/
structure Reader where
  content : Bytes
  pos : Int

def Reader.read (r : Reader) (n : Nat) : Reader × Bytes × Option FileError :=
  if (r.content.length : Int) ≤ r.pos then (r, [], some .eof)
  else
    let data := bytesFrom r.content r.pos n
    ({ r with pos := r.pos + data.length }, data, none)

def Reader.seek (r : Reader) (offset whence : Int) : Reader × Except FileError Int :=
  let abs :=
    if whence = seekStart then some offset
    else if whence = seekCurrent then some (add64 r.pos offset)
    else if whence = seekEnd then some (add64 r.content.length offset)
    else none
  match abs with
  | none => (r, .error (.invalidWhence whence))
  | some abs =>
      if abs < 0 then (r, .error .negativePosition) else ({ r with pos := abs }, .ok abs)

/-! ## The host -/

/-- What `packetReadAt` asks for; the two numbers are sent in decimal. -/
structure ReadRequest where
  source : Bytes
  offset : Int
  length : Int

structure ReadResponse where
  /-- the entry `"error"` of the metadata -/
  error : Option Bytes
  data : Bytes

/-- What is answered to each request. -/
abbrev Host : Type := ReadRequest → Except FileError ReadResponse

/-! ## The file -/

structure File where
  /-- `info.Name()` -/
  name : Bytes
  /-- `info.Size()` -/
  size : Int
  index : Int
  rs : Option Reader
  buf : Option Bytes

namespace File

def packetReadAt (f : File) (offset length : Int) : ReadRequest :=
  ⟨f.name, offset, length⟩

/-- `ReadAt` into a buffer of `n` bytes. -/
def readAt (host : Host) (f : File) (n : Nat) (off : Int) : File × Bytes × Option FileError :=
  match f.rs with
  | some rs =>
      match rs.seek off seekCurrent with
      | (rs, .error e) => ({ f with rs := some rs }, [], some e)
      | (rs, .ok _) =>
          let (rs, data, err) := rs.read n
          ({ f with rs := some rs, index := add64 f.index data.length }, data, err)
  | none =>
      match f.buf with
      | some buf =>
          if (buf.length : Int) ≤ off then (f, [], some .eof)
          else
            let data := bytesFrom buf off n
            (f, data, if data.length < n then some .eof else none)
      | none =>
          match host (f.packetReadAt off n) with
          | .error e => (f, [], some e)
          | .ok resp =>
              match resp.error with
              | some msg => (f, [], some (.host msg))
              | none =>
                  let data := resp.data.take n
                  if data.length = 0 then (f, [], some .eof)
                  else (f, data, if data.length < n then some .eof else none)

/-- The loop of `Read` over the buffer, with the number of rounds left. -/
def readLoop (buf : Bytes) : Nat → Int → Bytes
  | 0, _ => []
  | m + 1, i =>
      if (buf.length : Int) ≤ i then []
      else buf[i.toNat]?.toList ++ readLoop buf m (i + 1)

/-- `Read` into a buffer of `n` bytes. -/
def read (host : Host) (f : File) (n : Nat) : File × Bytes × Option FileError :=
  match f.rs with
  | some rs =>
      let (rs, data, err) := rs.read n
      ({ f with rs := some rs, index := add64 f.index data.length }, data, err)
  | none =>
      match f.buf with
      | some buf =>
          let data := readLoop buf n f.index
          -- the index stays where it is
          if data.length = 0 then (f, [], some .eof) else (f, data, none)
      | none =>
          match host (f.packetReadAt f.index n) with
          | .error e => (f, [], some e)
          | .ok resp =>
              match resp.error with
              | some msg => (f, [], some (.host msg))
              | none =>
                  let data := resp.data.take n
                  if data.length = 0 then (f, [], some .eof)
                  else ({ f with index := add64 f.index data.length }, data, none)

/-- Where `Seek` would place the index. -/
def newIndex (f : File) (offset whence : Int) : Option Int :=
  if whence = seekStart then some offset
  else if whence = seekCurrent then some (add64 f.index offset)
  else if whence = seekEnd then some (add64 f.size offset)
  else none

def seek (f : File) (offset whence : Int) : File × Except FileError Int :=
  match f.rs with
  | some rs =>
      -- whatever the caller means by the offset
      let (rs, res) := rs.seek offset seekCurrent
      ({ f with rs := some rs }, res)
  | none =>
      match f.newIndex offset whence with
      | none => (f, .error (.invalidWhence whence))
      | some newIndex =>
          if newIndex < 0 then (f, .error (.negativeSeekOffset newIndex))
          else if 0 < f.size ∧ f.size < newIndex then (f, .error (.seekBeyondEnd newIndex))
          else ({ f with index := newIndex }, .ok newIndex)

end File

end BuilderShim.Fssync
