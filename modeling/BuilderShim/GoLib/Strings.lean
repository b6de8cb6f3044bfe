/-
  GoLib/Strings.lean --- functions of package `strings`.

  A Go string is a byte string that is UTF-8 by convention only.  White space
  beyond ASCII is recognised by its encoding.
-/
import BuilderShim.Foundation.Bytes

set_option autoImplicit false

namespace BuilderShim.Strings

/-- `strings.Cut` at a separator of one byte. -/
def cut (sep : UInt8) (s : Bytes) : Option (Bytes × Bytes) :=
  match s.dropWhile (· != sep) with
  | [] => none
  | _ :: after => some (s.takeWhile (· != sep), after)

/-- The encodings of the characters with the property `White_Space`. -/
def spaces : List Bytes :=
  [[9], [10], [11], [12], [13], [32], [0xC2, 0x85], [0xC2, 0xA0], [0xE1, 0x9A, 0x80],
    [0xE2, 0x80, 0x80], [0xE2, 0x80, 0x81], [0xE2, 0x80, 0x82], [0xE2, 0x80, 0x83],
    [0xE2, 0x80, 0x84], [0xE2, 0x80, 0x85], [0xE2, 0x80, 0x86], [0xE2, 0x80, 0x87],
    [0xE2, 0x80, 0x88], [0xE2, 0x80, 0x89], [0xE2, 0x80, 0x8A], [0xE2, 0x80, 0xA8],
    [0xE2, 0x80, 0xA9], [0xE2, 0x80, 0xAF], [0xE2, 0x81, 0x9F], [0xE3, 0x80, 0x80]]

/-- Take encodings from a list off the front, at most `fuel` times. -/
def trimFront (codes : List Bytes) : Nat → Bytes → Bytes
  | 0, s => s
  | fuel + 1, s =>
      match codes.find? (·.isPrefixOf s) with
      | some code => trimFront codes fuel (s.drop code.length)
      | none => s

/-- `strings.TrimSpace` -/
def trimSpace (s : Bytes) : Bytes :=
  let left := trimFront spaces s.length s
  (trimFront (spaces.map List.reverse) left.length left.reverse).reverse

/-- `strings.HasPrefix` -/
def hasPrefix (s start : Bytes) : Bool := start.isPrefixOf s

/-- `strings.TrimPrefix` -/
def trimPrefix (s start : Bytes) : Bytes := if hasPrefix s start then s.drop start.length else s

/-- `strings.HasSuffix` -/
def hasSuffix (s ending : Bytes) : Bool := ending.isSuffixOf s

/-- `strings.TrimSuffix` -/
def trimSuffix (s ending : Bytes) : Bytes :=
  if hasSuffix s ending then s.take (s.length - ending.length) else s

/-- `strings.Contains`, for a text of one byte. -/
def containsByte (s : Bytes) (b : UInt8) : Bool := decide (b ∈ s)

/-- `strings.Join` -/
def join (sep : Bytes) (elems : List Bytes) : Bytes := sep.intercalate elems

/-- `strings.SplitN` into two parts at a separator that is not empty, if it is there. -/
def splitTwo (sep : Bytes) : Bytes → Option (Bytes × Bytes)
  | [] => none
  | b :: rest =>
      if hasPrefix (b :: rest) sep then some ([], (b :: rest).drop sep.length)
      else (splitTwo sep rest).map fun parts => (b :: parts.1, parts.2)

/-- An ASCII letter in lower case. -/
def lowerByte (b : UInt8) : UInt8 := if 65 ≤ b ∧ b ≤ 90 then b + 32 else b

/-- `strings.EqualFold`, against an ASCII text.  Two letters have a further form beyond ASCII:
the long s, and the Kelvin sign. -/
def equalFold : Bytes → Bytes → Bool
  | [], [] => true
  | 0xC5 :: 0xBF :: s, c :: t => lowerByte c == 115 && equalFold s t
  | 0xE2 :: 0x84 :: 0xAA :: s, c :: t => lowerByte c == 107 && equalFold s t
  | b :: s, c :: t => lowerByte b == lowerByte c && equalFold s t
  | _, _ => false

/-- `strings.ToLower`; what it makes of a text beyond ASCII is given. -/
def toLower (lowerUnicode : Bytes → Bytes) (s : Bytes) : Bytes :=
  if s.all (· < 0x80) then s.map fun b => if 65 ≤ b ∧ b ≤ 90 then b + 32 else b
  else lowerUnicode s

example : trimSpace (lit " a b\t") = lit "a b" := by decide

/-! ## Cutting -/

theorem takeWhile_ne_append (sep : UInt8) {before : Bytes} (after : Bytes) (h : sep ∉ before) :
    (before ++ sep :: after).takeWhile (· != sep) = before ∧
      (before ++ sep :: after).dropWhile (· != sep) = sep :: after := by
  have hall : ∀ b ∈ before, (b != sep) = true := by
    intro b hb
    rw [bne_iff_ne]
    rintro rfl
    exact h hb
  rw [List.takeWhile_append_of_pos hall, List.dropWhile_append_of_pos hall]
  simp

theorem cut_append (sep : UInt8) {before : Bytes} (after : Bytes) (h : sep ∉ before) :
    cut sep (before ++ sep :: after) = some (before, after) := by
  obtain ⟨htake, hdrop⟩ := takeWhile_ne_append sep after h
  rw [cut, hdrop, htake]

/-- The text is cut at the first separator. -/
theorem cut_eq_some {sep : UInt8} {s before after : Bytes} (h : cut sep s = some (before, after)) :
    s = before ++ sep :: after ∧ sep ∉ before := by
  unfold cut at h
  split at h
  · cases h
  · rename_i x rest hdrop
    cases h
    have hx : x = sep := by
      have hnot := List.head?_dropWhile_not (· != sep) s
      rw [hdrop] at hnot
      simpa using hnot
    subst hx
    constructor
    · rw [← hdrop]
      exact List.takeWhile_append_dropWhile.symm
    · intro hmem
      have hall : (s.takeWhile (· != x)).all (· != x) = true := List.all_takeWhile
      exact absurd (List.all_eq_true.mp hall x hmem) (by simp)

/-! ## Joining and splitting -/

/-- `strings.Split` at a separator of one byte. -/
def split (sep : UInt8) (s : Bytes) : List Bytes := s.splitOn sep

theorem join_cons_cons (sep : Bytes) (a b : Bytes) (elems : List Bytes) :
    join sep (a :: b :: elems) = a ++ sep ++ join sep (b :: elems) := by
  unfold join
  rw [List.intercalate_cons_cons, List.append_assoc]

/-- Splitting what was joined also splits the elements. -/
theorem split_join (sep : UInt8) {elems : List Bytes} (h : elems ≠ []) :
    split sep (join [sep] elems) = elems.flatMap (split sep) := by
  induction elems with
  | nil => exact absurd rfl h
  | cons a elems ih =>
      cases elems with
      | nil =>
          rw [List.flatMap_singleton]
          exact congrArg (split sep) List.intercalate_singleton
      | cons b elems =>
          rw [join_cons_cons, List.append_assoc, List.singleton_append, List.flatMap_cons,
            ← ih (List.cons_ne_nil _ _)]
          exact List.splitOn_append_cons_self _ _

theorem split_injective (sep : UInt8) {s t : Bytes} (h : split sep s = split sep t) : s = t := by
  have hjoin := congrArg [sep].intercalate h
  rwa [split, split, List.intercalate_splitOn, List.intercalate_splitOn] at hjoin

theorem split_of_notMem {sep : UInt8} {s : Bytes} (h : sep ∉ s) : split sep s = [s] := by
  have hjoin : [sep].intercalate [s] = s := List.intercalate_singleton
  have hsplit := List.splitOn_intercalate sep (List.forall_mem_singleton.mpr h)
    (List.cons_ne_nil s [])
  rwa [hjoin] at hsplit

theorem splitTwo_eq {sep s before after : Bytes} (h : splitTwo sep s = some (before, after)) :
    s = before ++ sep ++ after := by
  induction s generalizing before with
  | nil => cases h
  | cons b rest ih =>
      unfold splitTwo at h
      split at h
      · rename_i hstart
        obtain ⟨tail, htail⟩ := List.isPrefixOf_iff_prefix.mp hstart
        cases h
        rw [← htail, List.drop_left, List.nil_append]
      · obtain ⟨⟨before', after'⟩, hrest, heq⟩ := Option.map_eq_some_iff.mp h
        cases heq
        rw [ih hrest]
        simp

/-- The separator is not in the first part. -/
theorem splitTwo_before {sep s before after : Bytes}
    (h : splitTwo sep s = some (before, after)) : splitTwo sep before = none := by
  induction s generalizing before with
  | nil => cases h
  | cons b rest ih =>
      unfold splitTwo at h
      split at h
      · cases h
        rfl
      · rename_i hstart
        obtain ⟨⟨before', after'⟩, hrest, heq⟩ := Option.map_eq_some_iff.mp h
        cases heq
        have hpre : before' <+: rest := by
          rw [splitTwo_eq hrest, List.append_assoc]
          exact List.prefix_append _ _
        have hnot : ¬ hasPrefix (b :: before') sep = true := fun hsep =>
          hstart (List.isPrefixOf_iff_prefix.mpr
            ((List.isPrefixOf_iff_prefix.mp hsep).trans (List.cons_prefix_cons.mpr ⟨rfl, hpre⟩)))
        rw [splitTwo, if_neg hnot, ih hrest]
        rfl

end BuilderShim.Strings
