/-
  Fileutils/Digests.lean --- what a digest is, and where its cache entry lies
  (validateContextDigest and the names of publishTar, pkg/fileutils/tarxfer.go).

  `validateContextDigest` compares the text with what `strings.ToLower` makes of it.
  What that is for a text beyond ASCII does not matter, since the decoder refuses
  such a text: the digests are the texts of 64 digits from 0-9a-f.  So a digest is a
  name, and the paths of the entries, of their locks and of the temporary files
  differ in their last elements.
-/
import BuilderShim.GoLib.Strings
import BuilderShim.Fileutils.Names

set_option autoImplicit false

namespace BuilderShim.Fileutils

open BuilderShim.Filepath
open BuilderShim.Posix

/-- `validateContextDigest`, with what `strings.ToLower` makes of a text beyond ASCII. -/
def validateContextDigestUnicode (lowerUnicode : Bytes → Bytes) (checksum : Bytes) :
    Except Err Unit :=
  if checksum.length ≠ 64 ∨ Strings.toLower lowerUnicode checksum ≠ checksum then
    .error .invalidContextDigest
  else
    match hexDecode checksum with
    | none => .error .invalidContextDigest
    | some decoded => if decoded.length ≠ 32 then .error .invalidContextDigest else .ok ()

/-! ## What is accepted -/

theorem isHexByte_cases {b : UInt8} (h : isHexByte b = true) :
    (48 ≤ b ∧ b ≤ 57) ∨ (97 ≤ b ∧ b ≤ 102) := by
  simpa only [isHexByte, Bool.or_eq_true, Bool.and_eq_true, decide_eq_true_eq] using h

theorem hexValue_of_isHexByte {b : UInt8} (h : isHexByte b = true) : ∃ v, hexValue b = some v := by
  unfold hexValue
  rcases isHexByte_cases h with hdigit | hletter
  · exact ⟨_, if_pos hdigit⟩
  · have hnot : ¬ (48 ≤ b ∧ b ≤ 57) := fun hdigit =>
      absurd (UInt8.le_trans hletter.1 hdigit.2) (by decide)
    rw [if_neg hnot, if_pos hletter]
    exact ⟨_, rfl⟩

theorem isHexByte_lower {b : UInt8} (h : isHexByte b = true) : ¬ (65 ≤ b ∧ b ≤ 90) := by
  rintro ⟨hlow, hhigh⟩
  rcases isHexByte_cases h with hdigit | hletter
  · exact absurd (UInt8.le_trans hlow hdigit.2) (by decide)
  · exact absurd (UInt8.le_trans hletter.1 hhigh) (by decide)

/-- The decoder takes every even number of digits. -/
theorem hexDecode_of_hex (n : Nat) {s : Bytes} (hlen : s.length = 2 * n)
    (hhex : ∀ b ∈ s, isHexByte b = true) :
    ∃ decoded, hexDecode s = some decoded ∧ decoded.length = n := by
  induction n generalizing s with
  | zero =>
      rw [List.length_eq_zero_iff.mp hlen]
      exact ⟨[], rfl, rfl⟩
  | succ n ih =>
      match s, hlen with
      | hi :: lo :: rest, hlen =>
          obtain ⟨hv, hhi⟩ := hexValue_of_isHexByte (hhex hi List.mem_cons_self)
          obtain ⟨lv, hlo⟩ := hexValue_of_isHexByte
            (hhex lo (List.mem_cons_of_mem _ List.mem_cons_self))
          have hrest : rest.length = 2 * n := by
            simp only [List.length_cons] at hlen
            omega
          obtain ⟨decoded, hdec, hdlen⟩ := ih hrest fun b hb =>
            hhex b (List.mem_cons_of_mem _ (List.mem_cons_of_mem _ hb))
          refine ⟨(hv * 16 + lv) :: decoded, ?_, ?_⟩
          · rw [hexDecode, hhi, hlo, hdec]
          · rw [List.length_cons, hdlen]

theorem isDigest_iff {s : Bytes} :
    IsDigest s ↔ s.length = 64 ∧ ∀ b ∈ s, isHexByte b = true := by
  constructor
  · exact IsDigest.spec
  · rintro ⟨hlen, hhex⟩
    obtain ⟨decoded, hdec, hdlen⟩ := hexDecode_of_hex 32 hlen hhex
    have hlower : toLower s = s := by
      refine (List.map_congr_left fun b hb => ?_).trans (List.map_id s)
      exact if_neg (isHexByte_lower (hhex b hb))
    unfold IsDigest validateContextDigest
    rw [if_neg (not_or.mpr ⟨not_not.mpr hlen, not_not.mpr hlower⟩), hdec]
    exact if_neg (not_not.mpr hdlen)

/-- A text beyond ASCII is no sequence of digits. -/
theorem hexDecode_beyond_ascii {s : Bytes} (h : s.all (· < 0x80) = false) :
    hexDecode s = none := by
  cases hdec : hexDecode s with
  | none => rfl
  | some decoded =>
      exfalso
      refine Bool.eq_false_iff.mp h (List.all_eq_true.mpr fun b hb => decide_eq_true ?_)
      rcases hexValue_isSome (hexDecode_some hdec b hb) with hhex | ⟨_, hupper⟩
      · rcases isHexByte_cases hhex with ⟨_, hdigit⟩ | ⟨_, hletter⟩
        · exact UInt8.lt_of_le_of_lt hdigit (by decide)
        · exact UInt8.lt_of_le_of_lt hletter (by decide)
      · exact UInt8.lt_of_le_of_lt hupper (by decide)

/-- It makes no difference what a text beyond ASCII is lowered to. -/
theorem validateContextDigestUnicode_eq (lowerUnicode : Bytes → Bytes) (s : Bytes) :
    validateContextDigestUnicode lowerUnicode s = validateContextDigest s := by
  unfold validateContextDigestUnicode validateContextDigest Strings.toLower
  cases hascii : s.all (· < 0x80) with
  | true => rfl
  | false =>
      rw [hexDecode_beyond_ascii hascii]
      dsimp only
      rw [ite_self, ite_self]

/-! ## Where the entries lie -/

/-- A temporary file or directory has the name it was given. -/
theorem base_tempPath (dir : Bytes) {name : Bytes} (hslash : slash ∉ name) (hne : name ≠ []) :
    base (tempPath dir name) = name := by
  unfold tempPath
  by_cases hlast : dir.getLast? = some slash
  · rw [if_pos hlast]
    obtain ⟨front, hfront⟩ := List.getLast?_eq_some_iff.mp hlast
    exact base_append (.inr ⟨front, hfront⟩) hslash hne
  · rw [if_neg hlast, ← List.singleton_append, ← List.append_assoc]
    exact base_append (.inr ⟨dir, rfl⟩) hslash hne

/-- The path of a lock is that of its name. -/
theorem IsDigest.lock_path {s : Bytes} (h : IsDigest s) (cacheBase : Bytes) :
    join cacheBase s ++ lockSuffix = join cacheBase (lockName s) := by
  obtain ⟨front, _, _, hjoin⟩ := join_name cacheBase
  rw [hjoin s h.name, hjoin (lockName s) h.lock_name, List.append_assoc]
  rfl

/-- The entry of a digest is a direct child of the cache directory, and no other path the
cache makes is the same. -/
structure EntryApart (accepts : Bytes → Prop) (cacheBase s : Bytes) : Prop where
  child : dir (join cacheBase s) = clean cacheBase ∧ base (join cacheBase s) = s
  distinct : ∀ s', accepts s' → s' ≠ s → join cacheBase s' ≠ join cacheBase s
  no_lock : ∀ s', accepts s' → join cacheBase s ≠ join cacheBase s' ++ lockSuffix
  no_temp : ∀ path, TempName (base path) → join cacheBase s ≠ path
  no_tempPath : ∀ name, TempName name → slash ∉ name → join cacheBase s ≠ tempPath cacheBase name

theorem IsDigest.entryApart {s : Bytes} (h : IsDigest s) (cacheBase : Bytes) :
    EntryApart IsDigest cacheBase s := by
  have hbase : ∀ {s'}, IsDigest s' → base (join cacheBase s') = s' := fun h' =>
    (join_child cacheBase h'.name).2
  have htemp : ∀ path, TempName (base path) → join cacheBase s ≠ path := by
    rintro path hpath rfl
    rw [hbase h] at hpath
    exact hpath.not_digest h
  refine ⟨join_child cacheBase h.name, fun s' h' hne heq => ?_, fun s' h' heq => ?_, htemp, ?_⟩
  · exact hne (by rw [← hbase h', heq, hbase h])
  · rw [h'.lock_path] at heq
    have hlock := congrArg base heq
    rw [hbase h, (join_child cacheBase h'.lock_name).2] at hlock
    exact h.ne_lockName h' hlock
  · intro name hname hslash
    have hne : name ≠ [] := by
      obtain ⟨rest, rfl⟩ := hname.head
      exact List.cons_ne_nil _ _
    refine htemp (tempPath cacheBase name) ?_
    rwa [base_tempPath cacheBase hslash hne]

/-- The digests are the texts of 64 digits from 0-9a-f, whatever `strings.ToLower` makes of a
text beyond ASCII, and the entry of each is a path of its own below the cache directory. -/
theorem validateContextDigest_names (lowerUnicode : Bytes → Bytes) (s : Bytes) :
    (validateContextDigestUnicode lowerUnicode s = .ok () ↔
      s.length = 64 ∧ ∀ b ∈ s, isHexByte b = true) ∧
    (validateContextDigestUnicode lowerUnicode s = .ok () →
      ∀ cacheBase,
        EntryApart (fun s' => validateContextDigestUnicode lowerUnicode s' = .ok ())
          cacheBase s) := by
  have hsame : ∀ s', validateContextDigestUnicode lowerUnicode s' = .ok () ↔ IsDigest s' := by
    intro s'
    rw [validateContextDigestUnicode_eq]
    rfl
  constructor
  · rw [hsame]
    exact isDigest_iff
  · intro h cacheBase
    have hpred : (fun s' => validateContextDigestUnicode lowerUnicode s' = .ok ()) = IsDigest :=
      funext fun s' => propext (hsame s')
    rw [hpred]
    exact ((hsame s).mp h).entryApart cacheBase

end BuilderShim.Fileutils
