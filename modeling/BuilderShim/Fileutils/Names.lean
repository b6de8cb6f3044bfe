/-
  Fileutils/Names.lean --- the names in the cache directory.

  A digest is 64 lower-case hexadecimal digits; its lock file has `.lock` after
  it; the temporary files and directories start with `.context-`.  The three
  kinds have no name in common.
-/
import BuilderShim.Fileutils.Cache

set_option autoImplicit false

namespace BuilderShim.Fileutils

open BuilderShim.Filepath
open BuilderShim.Posix

/-- A lower-case hexadecimal digit. -/
def isHexByte (b : UInt8) : Bool := (48 ≤ b && b ≤ 57) || (97 ≤ b && b ≤ 102)

/-- What `validateContextDigest` accepts. -/
def IsDigest (d : Bytes) : Prop := validateContextDigest d = .ok ()

theorem hexValue_isSome {b : UInt8} (h : (hexValue b).isSome = true) :
    isHexByte b = true ∨ (65 ≤ b ∧ b ≤ 70) := by
  unfold hexValue at h
  unfold isHexByte
  split at h
  · rename_i hb
    exact .inl (by simp [hb.1, hb.2])
  split at h
  · rename_i hb
    exact .inl (by simp [hb.1, hb.2])
  split at h
  · rename_i hb
    exact .inr hb
  · cases h

theorem hexDecode_some {s decoded : Bytes} (h : hexDecode s = some decoded) :
    ∀ b ∈ s, (hexValue b).isSome = true := by
  induction s using hexDecode.induct generalizing decoded with
  | case1 => simp
  | case2 b => cases h
  | case3 hi lo rest hv lv dv hrest hlo hhi ih =>
      intro b hb
      rcases List.mem_cons.mp hb with rfl | hb
      · simp [hhi]
      rcases List.mem_cons.mp hb with rfl | hb
      · simp [hlo]
      · exact ih hrest b hb
  | case4 hi lo rest hno ih =>
      unfold hexDecode at h
      split at h
      · rename_i h1 h2 h3
        exact absurd h3 (hno _ _ _ h1 h2)
      · cases h

/-- A digest is 64 lower-case hexadecimal digits. -/
theorem IsDigest.spec {d : Bytes} (h : IsDigest d) :
    d.length = 64 ∧ ∀ b ∈ d, isHexByte b = true := by
  unfold IsDigest validateContextDigest at h
  split at h
  · cases h
  rename_i hlen
  simp only [ne_eq, not_or, not_not] at hlen
  cases hdec : hexDecode d with
  | none =>
      rw [hdec] at h
      cases h
  | some decoded =>
      refine ⟨hlen.1, fun b hb => ?_⟩
      rcases hexValue_isSome (hexDecode_some hdec b hb) with hhex | ⟨hlo, hhi⟩
      · exact hhex
      · -- an upper-case digit is changed by `ToLower`
        obtain ⟨n, hn, rfl⟩ := List.mem_iff_getElem.mp hb
        have hlow := congrArg (fun l => l[n]?) hlen.2
        have hrange : (65 : UInt8) ≤ d[n] ∧ d[n] ≤ 90 :=
          ⟨hlo, UInt8.le_trans hhi (by decide)⟩
        simp only [toLower, List.getElem?_map, List.getElem?_eq_getElem hn, Option.map_some,
          hrange, and_self, if_true, Option.some.injEq] at hlow
        have := congrArg UInt8.toNat hlow
        have hle : d[n].toNat ≤ 70 := hhi
        simp only [UInt8.toNat_add] at this
        have h32 : (32 : UInt8).toNat = 32 := rfl
        rw [h32] at this
        omega

theorem IsDigest.length {d : Bytes} (h : IsDigest d) : d.length = 64 := h.spec.1

theorem IsDigest.hex {d : Bytes} (h : IsDigest d) : ∀ b ∈ d, isHexByte b = true := h.spec.2

/-! ## Encoded digests are accepted -/

theorem forall_byte {P : UInt8 → Prop} (h : ∀ n < 256, P (UInt8.ofNat n)) (b : UInt8) : P b := by
  have hb := h b.toNat b.toNat_lt
  rwa [UInt8.ofNat_toNat] at hb

theorem hexDigit_spec (b : UInt8) :
    (hexValue (hexDigit (b / 16))).isSome = true ∧ (hexValue (hexDigit (b % 16))).isSome = true ∧
      ¬ (65 ≤ hexDigit (b / 16) ∧ hexDigit (b / 16) ≤ 90) ∧
      ¬ (65 ≤ hexDigit (b % 16) ∧ hexDigit (b % 16) ≤ 90) := by
  revert b
  exact forall_byte (by decide +kernel)

theorem hexDecode_hexEncode (data : Bytes) :
    ∃ decoded, hexDecode (hexEncode data) = some decoded ∧ decoded.length = data.length := by
  induction data with
  | nil => exact ⟨[], rfl, rfl⟩
  | cons b data ih =>
      obtain ⟨decoded, hdec, hlen⟩ := ih
      obtain ⟨hi, lo, _, _⟩ := hexDigit_spec b
      obtain ⟨h, hh⟩ := Option.isSome_iff_exists.mp hi
      obtain ⟨l, hl⟩ := Option.isSome_iff_exists.mp lo
      refine ⟨(h * 16 + l) :: decoded, ?_, by simp [hlen]⟩
      have hcons : hexEncode (b :: data) =
          hexDigit (b / 16) :: hexDigit (b % 16) :: hexEncode data := rfl
      rw [hcons, hexDecode, hh, hl, hdec]

theorem length_hexEncode (data : Bytes) : (hexEncode data).length = 2 * data.length := by
  induction data with
  | nil => rfl
  | cons b data ih =>
      have hcons : hexEncode (b :: data) =
          hexDigit (b / 16) :: hexDigit (b % 16) :: hexEncode data := rfl
      rw [hcons, List.length_cons, List.length_cons, ih, List.length_cons]
      omega

theorem toLower_hexEncode (data : Bytes) : toLower (hexEncode data) = hexEncode data := by
  induction data with
  | nil => rfl
  | cons b data ih =>
      obtain ⟨_, _, hi, lo⟩ := hexDigit_spec b
      have hcons : hexEncode (b :: data) =
          hexDigit (b / 16) :: hexDigit (b % 16) :: hexEncode data := rfl
      rw [toLower] at ih ⊢
      rw [hcons, List.map_cons, List.map_cons, ih, if_neg hi, if_neg lo]

theorem isDigest_hexEncode {data : Bytes} (h : data.length = 32) : IsDigest (hexEncode data) := by
  obtain ⟨decoded, hdec, hlen⟩ := hexDecode_hexEncode data
  unfold IsDigest validateContextDigest
  rw [if_neg (by simp [length_hexEncode, h, toLower_hexEncode]), hdec]
  simp [hlen, h]

/-! ## Kinds of names -/

theorem IsDigest.head {d : Bytes} (h : IsDigest d) : ∃ b rest, d = b :: rest ∧ b ≠ 46 := by
  have hne : d ≠ [] := by
    rintro rfl
    exact absurd h.length (by decide)
  obtain ⟨b, rest, rfl⟩ := List.exists_cons_of_ne_nil hne
  refine ⟨b, rest, rfl, ?_⟩
  rintro rfl
  exact absurd (h.hex 46 List.mem_cons_self) (by decide)

theorem IsDigest.name {d : Bytes} (h : IsDigest d) : Name d where
  ne_nil := by
    rintro rfl
    exact absurd h.length (by decide)
  ne_dot := by
    rintro rfl
    exact absurd h.length (by decide)
  ne_dotdot := by
    rintro rfl
    exact absurd h.length (by decide)
  no_slash hm := absurd (h.hex slash hm) (by decide)

/-- The lock file of a digest. -/
def lockName (d : Bytes) : Bytes := d ++ lockSuffix

theorem IsDigest.lock_name {d : Bytes} (h : IsDigest d) : Name (lockName d) where
  ne_nil := by simp [lockName, lockSuffix, lit]
  ne_dot hd := by
    have := congrArg List.length hd
    simp [lockName, h.length, dot] at this
    omega
  ne_dotdot hd := by
    have := congrArg List.length hd
    simp [lockName, h.length, dotdot] at this
    omega
  no_slash hm := by
    rcases List.mem_append.mp hm with hm | hm
    · exact h.name.no_slash hm
    · exact absurd hm (by decide)

theorem IsDigest.ne_lockName {d d' : Bytes} (h : IsDigest d) (h' : IsDigest d') :
    d ≠ lockName d' := by
  intro he
  have hlen := congrArg List.length he
  have hsuf : lockSuffix.length = 5 := by decide
  rw [lockName, List.length_append, h.length, h'.length, hsuf] at hlen
  omega

/-- The name of a temporary file or directory. -/
def TempName (t : Bytes) : Prop := lit ".context-" <+: t

theorem TempName.head {t : Bytes} (h : TempName t) : ∃ rest, t = 46 :: rest := by
  obtain ⟨rest, rfl⟩ := h
  exact ⟨_, rfl⟩

theorem TempName.not_digest {t : Bytes} (h : TempName t) : ¬ IsDigest t := by
  intro hd
  obtain ⟨rest, rfl⟩ := h.head
  obtain ⟨b, rest', heq, hb⟩ := hd.head
  injection heq with hb'
  exact hb hb'.symm

theorem TempName.not_lock {t d : Bytes} (h : TempName t) (hd : IsDigest d) : t ≠ lockName d := by
  intro ht
  obtain ⟨rest, rfl⟩ := h.head
  obtain ⟨b, rest', rfl, hb⟩ := hd.head
  injection ht with hb'
  exact hb hb'.symm

theorem digits_bytes {n : Nat} {b : UInt8} (h : b ∈ digits n) : 48 ≤ b.toNat ∧ b.toNat ≤ 57 := by
  unfold digits at h
  split at h
  · rw [List.mem_singleton.mp h]
    decide
  · obtain ⟨k, hk, rfl⟩ := List.mem_map.mp h
    have hlt : k < 10 := Nat.digits_lt_base (by decide) (List.mem_reverse.mp hk)
    have : (48 + k).toUInt8.toNat = 48 + k := by
      simp only [Nat.toUInt8, UInt8.toNat_ofNat']
      omega
    omega

/-- The names `CreateTemp` and `MkdirTemp` make up here. -/
theorem temp_name (n : Nat) (suf : Bytes) (hsuf : slash ∉ suf) :
    Name (lit ".context-" ++ digits n ++ suf) ∧ TempName (lit ".context-" ++ digits n ++ suf) := by
  have hlen : (lit ".context-").length = 9 := by decide
  refine ⟨⟨?_, ?_, ?_, ?_⟩, ⟨digits n ++ suf, by rw [List.append_assoc]⟩⟩
  · intro h
    have := congrArg List.length h
    simp [hlen] at this
  · intro h
    have := congrArg List.length h
    simp [hlen, dot] at this
    omega
  · intro h
    have := congrArg List.length h
    simp [hlen, dotdot] at this
    omega
  · intro hm
    rcases List.mem_append.mp hm with hm | hm
    · rcases List.mem_append.mp hm with hm | hm
      · exact absurd hm (by decide)
      · have := digits_bytes hm
        exact absurd this.1 (by decide)
    · exact hsuf hm

end BuilderShim.Fileutils
