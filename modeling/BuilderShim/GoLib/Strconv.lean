/-
  GoLib/Strconv.lean --- decimal numbers (package `strconv`).

  `parseInt` is `strconv.ParseInt` with base 10 and 64 bits, digit by digit with its
  two checks for overflow; `formatInt` is what the verb `%d` prints.  Every `int64`
  is read back as it was printed.
-/
import BuilderShim.Foundation.Bytes
import BuilderShim.Posix.Syscall

set_option autoImplicit false

namespace BuilderShim.Strconv

open Posix (digits)

inductive NumError where
  | errSyntax
  | errRange
  deriving DecidableEq, Repr

/-- The loop of `ParseUint`; a letter is no digit of base 10, and an underscore is allowed
only where the base is to be found out. -/
def parseUintLoop : Nat → Bytes → Except NumError Nat
  | n, [] => .ok n
  | n, c :: rest =>
      if 48 ≤ c ∧ c ≤ 57 then
        if (2 ^ 64 - 1) / 10 + 1 ≤ n then .error .errRange
        else if 2 ^ 64 ≤ n * 10 + (c.toNat - 48) then .error .errRange
        else parseUintLoop (n * 10 + (c.toNat - 48)) rest
      else .error .errSyntax

/-- `ParseUint(s, 10, 64)` -/
def parseUint (s : Bytes) : Except NumError Nat :=
  if s = [] then .error .errSyntax else parseUintLoop 0 s

/-- The part of `ParseInt` behind the sign. -/
def parseMagnitude (neg : Bool) (s : Bytes) : Except NumError Int64 :=
  match parseUint s with
  | .error e => .error e
  | .ok un =>
      if ¬ neg ∧ 2 ^ 63 ≤ un then .error .errRange
      else if neg ∧ 2 ^ 63 < un then .error .errRange
      else .ok (if neg then Int64.ofInt (-un) else Int64.ofInt un)

/-- `ParseInt(s, 10, 64)` -/
def parseInt (s : Bytes) : Except NumError Int64 :=
  match s with
  | [] => .error .errSyntax
  | c :: rest =>
      if c = 43 then parseMagnitude false rest
      else if c = 45 then parseMagnitude true rest
      else parseMagnitude false (c :: rest)

/-- `fmt.Sprintf("%d", i)` -/
def formatInt (i : Int64) : Bytes :=
  if i.toInt < 0 then 45 :: digits i.toInt.natAbs else digits i.toInt.natAbs

/-! ## Reading back -/

/-- The character of a digit. -/
def digitByte (k : Nat) : UInt8 := (48 + k).toUInt8

theorem digitByte_toNat {k : Nat} (h : k < 10) : (digitByte k).toNat = 48 + k := by
  unfold digitByte
  rw [Nat.toUInt8_eq, UInt8.toNat_ofNat']
  omega

theorem digitByte_isDigit {k : Nat} (h : k < 10) : 48 ≤ digitByte k ∧ digitByte k ≤ 57 := by
  have hval := digitByte_toNat h
  rw [UInt8.le_iff_toNat_le, UInt8.le_iff_toNat_le, hval]
  have hlow : (48 : UInt8).toNat = 48 := rfl
  have hhigh : (57 : UInt8).toNat = 57 := rfl
  omega

/-- What digits, the first one first, are worth behind `n`. -/
def valueFrom (n : Nat) (ds : List Nat) : Nat := ds.foldl (fun n d => n * 10 + d) n

theorem le_valueFrom (n : Nat) (ds : List Nat) : n ≤ valueFrom n ds := by
  induction ds generalizing n with
  | nil => exact Nat.le_refl n
  | cons d ds ih => exact Nat.le_trans (by omega) (ih (n * 10 + d))

theorem parseUintLoop_digits {n : Nat} {ds : List Nat} (hds : ∀ d ∈ ds, d < 10)
    (hlt : valueFrom n ds < 2 ^ 64) :
    parseUintLoop n (ds.map digitByte) = .ok (valueFrom n ds) := by
  induction ds generalizing n with
  | nil => rfl
  | cons d ds ih =>
      obtain ⟨hd, hds⟩ := List.forall_mem_cons.mp hds
      have hle : n * 10 + d ≤ valueFrom n (d :: ds) := le_valueFrom (n * 10 + d) ds
      have hval : (digitByte d).toNat - 48 = d := by
        rw [digitByte_toNat hd]
        omega
      rw [List.map_cons, parseUintLoop, if_pos (digitByte_isDigit hd), hval, if_neg (by omega),
        if_neg (by omega)]
      exact ih hds hlt

theorem valueFrom_digits (n : Nat) : valueFrom 0 (Nat.digits 10 n).reverse = n := by
  unfold valueFrom
  rw [List.foldl_reverse]
  have hfold := Nat.ofDigits_eq_foldr 10 (Nat.digits 10 n)
  rw [Nat.ofDigits_digits] at hfold
  conv => rhs; rw [hfold]
  congr 1
  funext d n
  simp only [Nat.cast_id]
  omega

theorem digits_eq (n : Nat) :
    ∃ ds : List Nat, ds ≠ [] ∧ (∀ d ∈ ds, d < 10) ∧ valueFrom 0 ds = n ∧
      digits n = ds.map digitByte := by
  by_cases hn : n = 0
  · refine ⟨[0], by simp, by simp, hn.symm, ?_⟩
    unfold digits
    rw [if_pos hn]
    rfl
  · refine ⟨(Nat.digits 10 n).reverse, ?_, fun d hd => ?_, valueFrom_digits n, ?_⟩
    · rw [ne_eq, List.reverse_eq_nil_iff]
      exact Nat.digits_ne_nil_iff_ne_zero.mpr hn
    · exact Nat.digits_lt_base (by decide) (List.mem_reverse.mp hd)
    · unfold digits
      rw [if_neg hn]
      rfl

theorem parseUint_digits {n : Nat} (h : n < 2 ^ 64) : parseUint (digits n) = .ok n := by
  obtain ⟨ds, hne, hlt, hval, heq⟩ := digits_eq n
  have hne' : ds.map digitByte ≠ [] := fun hnil => hne (List.map_eq_nil_iff.mp hnil)
  rw [heq, parseUint, if_neg hne', parseUintLoop_digits hlt (by rw [hval]; exact h), hval]

/-- The first character of a number without a sign is a digit. -/
theorem digits_head (n : Nat) : ∃ c rest, digits n = c :: rest ∧ c ≠ 43 ∧ c ≠ 45 := by
  obtain ⟨ds, hne, hlt, _, heq⟩ := digits_eq n
  cases ds with
  | nil => exact absurd rfl hne
  | cons d ds =>
      have hlow := (digitByte_isDigit (hlt d List.mem_cons_self)).1
      refine ⟨digitByte d, ds.map digitByte, heq, fun h => ?_, fun h => ?_⟩
      · rw [h] at hlow
        exact absurd hlow (by decide)
      · rw [h] at hlow
        exact absurd hlow (by decide)

theorem parseMagnitude_digits {n : Nat} {neg : Bool} (h : n < 2 ^ 63 ∨ (neg = true ∧ n = 2 ^ 63)) :
    parseMagnitude neg (digits n) = .ok (if neg then Int64.ofInt (-n) else Int64.ofInt n) := by
  unfold parseMagnitude
  rw [parseUint_digits (by omega)]
  dsimp only
  rw [if_neg fun hlarge => by
      rcases h with h | ⟨hneg, _⟩
      · omega
      · exact hlarge.1 hneg,
    if_neg fun hlarge => by omega]

/-- A number is read as it was printed. -/
theorem parseInt_formatInt (i : Int64) : parseInt (formatInt i) = .ok i := by
  have hlow := Int64.le_toInt i
  have hhigh := Int64.toInt_lt i
  unfold formatInt
  split
  case isTrue hneg =>
    have hsign : parseInt (45 :: digits i.toInt.natAbs) =
        parseMagnitude true (digits i.toInt.natAbs) := rfl
    have habs : -(i.toInt.natAbs : Int) = i.toInt := by omega
    have hfits : i.toInt.natAbs < 2 ^ 63 ∨ i.toInt.natAbs = 2 ^ 63 := by omega
    rw [hsign, parseMagnitude_digits (hfits.imp_right fun h => ⟨rfl, h⟩), if_pos rfl, habs,
      Int64.ofInt_toInt]
  case isFalse hnonneg =>
    obtain ⟨c, rest, heq, hplus, hminus⟩ := digits_head i.toInt.natAbs
    have hsign : parseInt (digits i.toInt.natAbs) =
        parseMagnitude false (digits i.toInt.natAbs) := by
      rw [heq, parseInt, if_neg hplus, if_neg hminus]
    have habs : (i.toInt.natAbs : Int) = i.toInt := by omega
    rw [hsign, parseMagnitude_digits (.inl (by omega)), if_neg Bool.false_ne_true, habs,
      Int64.ofInt_toInt]

example : parseInt (lit "-9223372036854775808") = .ok Int64.minValue := by decide

end BuilderShim.Strconv
