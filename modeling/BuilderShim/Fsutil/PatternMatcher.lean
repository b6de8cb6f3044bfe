/-
  Fsutil/PatternMatcher.lean --- exclude patterns (moby/patternmatcher).

  Which paths the text of a pattern matches is left open: texts with `*`, `?`, brackets or
  a backslash become regular expressions, and only the others are compared as they are.
  A pattern that starts with `!` takes back what the patterns before it have matched.
-/
import BuilderShim.GoLib.Strings
import BuilderShim.GoLib.Filepath
import Mathlib.Data.List.Infix

set_option autoImplicit false

namespace BuilderShim.PatternMatcher

open BuilderShim.Filepath

/-! ## Texts and paths -/

/-- `path` lies below `a`. -/
def Below (a path : Bytes) : Prop := a ++ [slash] <+: path

/-- The bytes that mean something in a pattern: `*`, `?`, `[`, `\` and `]`. -/
def special : List UInt8 := [42, 63, 91, 92, 93]

def Plain (text : Bytes) : Prop := ∀ b ∈ text, b ∉ special

instance (text : Bytes) : Decidable (Plain text) :=
  List.decidableBAll (· ∉ special) text

/-- How the texts of patterns are read: which are well formed, and which paths one covers.  A
text covers all that lies below what it covers. -/
structure Matcher where
  wellFormed : Bytes → Bool
  covers : Bytes → Bytes → Bool
  below : ∀ {text path q : Bytes}, covers text path = true → Below path q → covers text q = true
  plain_wellFormed : ∀ {text : Bytes}, Plain text → wellFormed text = true
  plain_covers : ∀ {text : Bytes}, Plain text → ∀ path : Bytes,
    (covers text path = true ↔ path = text ∨ Below text path)

/-! ## `New` and `MatchesOrParentMatches` -/

structure Pattern where
  exclusion : Bool
  cleanedPattern : Bytes
  deriving DecidableEq

/-- The byte `!`. -/
def bang : UInt8 := 33

namespace Matcher

variable (m : Matcher)

/-- `New` for one pattern.  There is no pattern for a blank text, and `none` for one that is
not well formed. -/
def newPattern (p : Bytes) : Option (Option Pattern) :=
  if Strings.trimSpace p = [] then some none
  else
    match clean (Strings.trimSpace p) with
    | [] => some none
    | first :: rest =>
        if first = bang then
          if rest = [] then none
          else if m.wellFormed rest then some (some ⟨true, rest⟩) else none
        else if m.wellFormed (first :: rest) then some (some ⟨false, first :: rest⟩) else none

/-- `New` -/
def new : List Bytes → Option (List Pattern)
  | [] => some []
  | p :: rest => do
      let first ← m.newPattern p
      let others ← new rest
      return first.toList ++ others

/-- One round of the loop of `MatchesOrParentMatches`.  A pattern that could not change
`matched` is not looked at. -/
def matchRound (file : Bytes) (matched : Bool) (pattern : Pattern) : Bool :=
  if pattern.exclusion ≠ matched then matched
  else if m.covers pattern.cleanedPattern file then !pattern.exclusion
  else matched

def matchesOrParentMatches (patterns : List Pattern) (file : Bytes) : Bool :=
  patterns.foldl (m.matchRound file) false

/-- What a list of patterns says of a path, if all of them are well formed. -/
def excluded (patterns : List Bytes) (path : Bytes) : Option Bool :=
  (m.new patterns).map fun ps => m.matchesOrParentMatches ps path

end Matcher

/-! ## Exceptions at the end -/

section

variable {m : Matcher}

theorem matchRound_eq (file : Bytes) (matched : Bool) (pattern : Pattern) :
    m.matchRound file matched pattern =
      if m.covers pattern.cleanedPattern file then !pattern.exclusion else matched := by
  unfold Matcher.matchRound
  split
  · rename_i hskip
    -- the pattern would not change what is matched
    have hsame : (!pattern.exclusion) = matched := by
      cases hex : pattern.exclusion <;> cases matched <;> simp_all
    rw [hsame, ite_self]
  · rfl

theorem new_append (front back : List Bytes) :
    m.new (front ++ back) = (m.new front).bind fun ps => (m.new back).map (ps ++ ·) := by
  induction front with
  | nil =>
      rw [List.nil_append, Matcher.new, Option.bind_some]
      exact Option.map_id'.symm
  | cons p rest ih =>
      rw [List.cons_append, Matcher.new, Matcher.new, ih]
      cases m.newPattern p with
      | none => rfl
      | some first =>
          cases m.new rest with
          | none => rfl
          | some others =>
              cases m.new back with
              | none => rfl
              | some more => exact congrArg some (List.append_assoc _ _ _).symm

/-- Exceptions at the end take back what they cover, and nothing else. -/
theorem matches_append_exceptions (patterns : List Pattern) (texts : List Bytes) (path : Bytes) :
    m.matchesOrParentMatches (patterns ++ texts.map (⟨true, ·⟩)) path =
      (m.matchesOrParentMatches patterns path && !texts.any (m.covers · path)) := by
  unfold Matcher.matchesOrParentMatches
  rw [List.foldl_append]
  generalize patterns.foldl (m.matchRound path) false = matched
  induction texts generalizing matched with
  | nil =>
      rw [List.any_nil, Bool.not_false, Bool.and_true]
      rfl
  | cons text texts ih =>
      rw [List.map_cons, List.foldl_cons, matchRound_eq, ih, List.any_cons]
      cases m.covers text path with
      | true => rw [if_pos rfl, Bool.true_or, Bool.not_true, Bool.and_false, Bool.false_and]
      | false => rw [if_neg Bool.false_ne_true, Bool.false_or]

end

end BuilderShim.PatternMatcher
