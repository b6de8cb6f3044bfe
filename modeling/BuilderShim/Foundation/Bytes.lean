/-
  Foundation/Bytes.lean --- byte strings.

  A Go `string` and a `[]byte` are both finite byte sequences.  Literals of the
  source are ASCII, so `lit` reads a Lean string character by character.
-/
import Mathlib.Data.List.Basic

set_option autoImplicit false

namespace BuilderShim

/-- A Go string or byte slice. -/
abbrev Bytes : Type := List UInt8

instance instLawfulBEqBytes : LawfulBEq Bytes := inferInstance

/-- An ASCII literal of the source. -/
def lit (s : String) : Bytes := s.toList.map fun c => c.toNat.toUInt8

end BuilderShim
