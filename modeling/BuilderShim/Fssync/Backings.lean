/-
  Fssync/Backings.lean --- the three backings of a file, call by call.

  Over one content, a file that is backed by the host is a cursor: `Read` goes on
  from where it is, `ReadAt` leaves it alone and `Seek` places it.  The buffer does
  not advance over what it has read, and the read-seeker is moved by `ReadAt` and
  takes every offset of `Seek` as one from where it is.  `InStep` says, in terms of
  the three positions, for which calls nobody can tell.
-/
import Mathlib.Data.List.Nodup
import BuilderShim.Fssync.File

set_option autoImplicit false

namespace BuilderShim.Fssync

/-! ## Calls, and what can be seen of them -/

inductive Call where
  | read (n : Nat)
  | readAt (n : Nat) (off : Int)
  | seek (offset whence : Int)
  deriving DecidableEq

/-- What a call returns: bytes, with the positions in the content they are from, or a
position. -/
inductive Outcome where
  | bytes (positions : List Int) (data : Bytes)
  | position (res : Except FileError Int)
  deriving DecidableEq

def positionsFrom (off : Int) (m : Nat) : List Int := (List.range m).map fun j : Nat => off + j

/-- Where `Read` takes its bytes from. -/
def File.readPlace (f : File) : Int :=
  match f.rs with
  | some rs => rs.pos
  | none => f.index

/-- Where `ReadAt` takes its bytes from. -/
def File.readAtPlace (f : File) (off : Int) : Int :=
  match f.rs with
  | some rs => add64 rs.pos off
  | none => off

def File.call (host : Host) (f : File) : Call → File × Outcome
  | .read n =>
      let res := f.read host n
      (res.1, .bytes (positionsFrom f.readPlace res.2.1.length) res.2.1)
  | .readAt n off =>
      let res := f.readAt host n off
      (res.1, .bytes (positionsFrom (f.readAtPlace off) res.2.1.length) res.2.1)
  | .seek offset whence =>
      let res := f.seek offset whence
      (res.1, .position res.2)

def File.run (host : Host) (f : File) : List Call → List Outcome
  | [] => []
  | call :: calls => (f.call host call).2 :: File.run host (f.call host call).1 calls

/-- The bytes of a content at one place. -/
def served (c : Bytes) (off : Int) (n : Nat) : Outcome :=
  .bytes (positionsFrom off (bytesFrom c off n).length) (bytesFrom c off n)

section

variable {c : Bytes} {n : Nat} {off off' k : Int}

theorem bytesFrom_length : (bytesFrom c off n).length = min n (c.length - off.toNat) := by
  rw [bytesFrom, List.length_take, List.length_drop]

theorem bytesFrom_eq_nil_iff (hn : 1 ≤ n) (hoff : 0 ≤ off) :
    bytesFrom c off n = [] ↔ (c.length : Int) ≤ off := by
  rw [← List.length_eq_zero_iff, bytesFrom_length]
  omega

theorem le_of_bytesFrom (hoff : 0 ≤ off) (hle : off ≤ c.length) :
    off + (bytesFrom c off n).length ≤ c.length := by
  rw [bytesFrom_length]
  omega

theorem positionsFrom_inj {m m' : Nat} (hm : 1 ≤ m)
    (h : positionsFrom off m = positionsFrom off' m') : off = off' := by
  have hlen : m = m' := by
    have := congrArg List.length h
    simpa only [positionsFrom, List.length_map, List.length_range] using this
  subst hlen
  have hhead := congrArg List.head? h
  obtain ⟨m, rfl⟩ : ∃ j, m = j + 1 := ⟨m - 1, by omega⟩
  simpa [positionsFrom, List.range_succ_eq_map] using hhead

theorem positionsFrom_append (off : Int) (m m' : Nat) :
    positionsFrom off (m + m') = positionsFrom off m ++ positionsFrom (off + m) m' := by
  simp only [positionsFrom, List.range_add, List.map_append, List.map_map]
  congr 1
  apply List.map_congr_left
  intro j _
  simp only [Function.comp_apply, Int.natCast_add]
  omega

theorem positionsFrom_nodup (off : Int) (m : Nat) : (positionsFrom off m).Nodup := by
  apply List.Nodup.map _ List.nodup_range
  intro i j h
  exact Int.ofNat.inj (Int.add_left_cancel h)

/-- Bytes are the same, in number, value and position, if they are from the same place or
there are none. -/
theorem served_eq_iff (hn : 1 ≤ n) (hoff : 0 ≤ off) (hoff' : 0 ≤ off') :
    served c off n = served c off' n ↔
      off = off' ∨ ((c.length : Int) ≤ off ∧ (c.length : Int) ≤ off') := by
  constructor
  · intro h
    obtain ⟨hpos, hdata⟩ := Outcome.bytes.inj h
    by_cases hnil : bytesFrom c off n = []
    · refine .inr ⟨(bytesFrom_eq_nil_iff hn hoff).mp hnil, ?_⟩
      exact (bytesFrom_eq_nil_iff hn hoff').mp (hdata ▸ hnil)
    · exact .inl (positionsFrom_inj (List.length_pos_iff.mpr hnil) hpos)
  · rintro (rfl | ⟨hle, hle'⟩)
    · rfl
    · rw [served, served, (bytesFrom_eq_nil_iff hn hoff).mpr hle,
        (bytesFrom_eq_nil_iff hn hoff').mpr hle']
      rfl

theorem served_of_nil (h : bytesFrom c off n = []) : served c off n = .bytes [] [] := by
  rw [served, h]
  rfl

end

/-! ## The backings, one call at a time -/

/-- The host answers with exactly the range that was asked for. -/
def exactHost (c : Bytes) : Host := fun req =>
  .ok ⟨none, bytesFrom c req.offset req.length.toNat⟩

inductive Backing where
  | buffer
  | seeker
  | host
  deriving DecidableEq

/-- A file over a content, as it is opened. -/
def File.over (c name : Bytes) (backing : Backing) : File where
  name := name
  size := c.length
  index := 0
  rs := if backing = .seeker then some ⟨c, 0⟩ else none
  buf := if backing = .buffer then some c else none

/-- A file that is backed by the host, at a position. -/
def hostFile (c name : Bytes) (k : Int) : File := ⟨name, c.length, k, none, none⟩

def bufferFile (c name : Bytes) (b : Int) : File := ⟨name, c.length, b, none, some c⟩

def seekerFile (c name : Bytes) (i r : Int) : File := ⟨name, c.length, i, some ⟨c, r⟩, none⟩

/-- Where a `Seek` leads to. -/
def target (c : Bytes) (k offset whence : Int) : Int :=
  if whence = seekStart then offset
  else if whence = seekCurrent then k + offset
  else c.length + offset

/-- A `Seek` into the content. -/
structure ValidSeek (c : Bytes) (k offset whence : Int) : Prop where
  known : whence = seekStart ∨ whence = seekCurrent ∨ whence = seekEnd
  nonneg : 0 ≤ target c k offset whence
  le : target c k offset whence ≤ c.length

section

variable {c name : Bytes} {n : Nat} {off k b r i : Int}

variable {a x t offset whence : Int} {f : File}

theorem add64_of_small (h : -2 ^ 63 ≤ a + x) (h' : a + x < 2 ^ 63) :
    add64 a x = a + x :=
  Int.bmod_eq_of_le (by omega) (by omega)

theorem add64_of_big (ha : a < 2 ^ 63) (hx : x < 2 ^ 63) (h : 2 ^ 63 ≤ a + x) :
    add64 a x < 0 := by
  have hwrap : add64 a x = a + x - 2 ^ 64 := by
    rw [add64, ← Int.sub_bmod_right]
    exact Int.bmod_eq_of_le (by omega) (by omega)
  omega

/-- Where no sum that is asked about overflows, the addition is the one of the integers. -/
theorem add64_eq_iff (ha : 0 ≤ a) (ha' : a < 2 ^ 63) (hx : -2 ^ 63 ≤ x) (hx' : x < 2 ^ 63)
    (ht : 0 ≤ t) (ht' : t < 2 ^ 63) : add64 a x = t ↔ a + x = t := by
  by_cases hsmall : a + x < 2 ^ 63
  · rw [add64_of_small (by omega) hsmall]
  · have := add64_of_big ha' hx' (by omega)
    omega

theorem bytesFrom_take : (bytesFrom c off n).take n = bytesFrom c off n := by
  rw [bytesFrom, List.take_take, Nat.min_self]

/-- Bytes, or the end of the file where there are none: the place is served either way. -/
theorem served_or_eof {f' : File} (err : Option FileError) (hsame : bytesFrom c off n = [] → f = f')
    {res : File × Bytes × Option FileError}
    (hres : res = if (bytesFrom c off n).length = 0 then (f, [], some .eof)
      else (f', bytesFrom c off n, err)) :
    (res.1, Outcome.bytes (positionsFrom off res.2.1.length) res.2.1) = (f', served c off n) := by
  subst hres
  by_cases hnil : bytesFrom c off n = []
  · rw [if_pos (List.length_eq_zero_iff.mpr hnil), served_of_nil hnil, hsame hnil]
    rfl
  · rw [if_neg fun h => hnil (List.length_eq_zero_iff.mp h)]
    rfl

theorem hostFile_read (hk : 0 ≤ k) (hle : k ≤ c.length) (hsize : (c.length : Int) < 2 ^ 63) :
    (hostFile c name k).call (exactHost c) (.read n) =
      (hostFile c name (k + (bytesFrom c k n).length), served c k n) := by
  have hbound := le_of_bytesFrom (n := n) hk hle
  simp only [File.call, File.read, hostFile, exactHost, File.packetReadAt, Int.toNat_natCast,
    bytesFrom_take, File.readPlace]
  rw [add64_of_small (by omega) (by omega)]
  refine served_or_eof none (fun hnil => ?_) rfl
  rw [hnil, List.length_nil, Int.natCast_zero, Int.add_zero]

theorem hostFile_readAt :
    (hostFile c name k).call (exactHost c) (.readAt n off) =
      (hostFile c name k, served c off n) := by
  simp only [File.call, File.readAt, hostFile, exactHost, File.packetReadAt, Int.toNat_natCast,
    bytesFrom_take, File.readAtPlace]
  exact served_or_eof _ (fun _ => rfl) rfl

/-- The loop over the buffer copies what is there. -/
theorem readLoop_eq (hb : 0 ≤ b) : File.readLoop c n b = bytesFrom c b n := by
  induction n generalizing b with
  | zero => simp [File.readLoop, bytesFrom]
  | succ n ih =>
      rw [File.readLoop, ih (by omega)]
      by_cases hle : (c.length : Int) ≤ b
      · rw [if_pos hle, (bytesFrom_eq_nil_iff (Nat.succ_pos n) hb).mpr hle]
      · have hlt : b.toNat < c.length := by omega
        have hnext : (b + 1).toNat = b.toNat + 1 := by omega
        rw [if_neg hle, List.getElem?_eq_getElem hlt, bytesFrom, bytesFrom, hnext,
          List.drop_eq_getElem_cons hlt]
        rfl

theorem bufferFile_read (host : Host) (hb : 0 ≤ b) :
    (bufferFile c name b).call host (.read n) = (bufferFile c name b, served c b n) := by
  simp only [File.call, File.read, bufferFile, File.readPlace, readLoop_eq hb]
  exact served_or_eof none (fun _ => rfl) rfl

theorem bufferFile_readAt (host : Host) (hn : 1 ≤ n) (hoff : 0 ≤ off) :
    (bufferFile c name b).call host (.readAt n off) = (bufferFile c name b, served c off n) := by
  simp only [File.call, File.readAt, bufferFile, File.readAtPlace]
  by_cases hle : (c.length : Int) ≤ off
  · rw [if_pos hle, served_of_nil ((bytesFrom_eq_nil_iff hn hoff).mpr hle)]
    rfl
  · rw [if_neg hle]
    rfl

theorem Reader.read_eq (hn : 1 ≤ n) (hr : 0 ≤ r) :
    ∃ err, Reader.read ⟨c, r⟩ n =
      (⟨c, r + (bytesFrom c r n).length⟩, bytesFrom c r n, err) := by
  rw [Reader.read]
  by_cases hle : (c.length : Int) ≤ r
  · rw [if_pos hle, (bytesFrom_eq_nil_iff hn hr).mpr hle]
    exact ⟨some .eof, by simp⟩
  · rw [if_neg hle]
    exact ⟨none, rfl⟩

theorem Reader.seek_current (hr : 0 ≤ r + off) (hsmall : r + off < 2 ^ 63) :
    Reader.seek ⟨c, r⟩ off seekCurrent = (⟨c, r + off⟩, .ok (r + off)) := by
  have hadd : add64 r off = r + off := add64_of_small (by omega) hsmall
  have hneg : ¬ r + off < 0 := by omega
  simp [Reader.seek, seekStart, seekCurrent, hadd, hneg]

theorem Reader.seek_negative (hneg : add64 r off < 0) :
    Reader.seek ⟨c, r⟩ off seekCurrent = (⟨c, r⟩, .error .negativePosition) := by
  simp [Reader.seek, seekStart, seekCurrent, hneg]

theorem seekerFile_read (c name : Bytes) (i : Int) (host : Host) (hn : 1 ≤ n) (hr : 0 ≤ r) :
    ∃ i', (seekerFile c name i r).call host (.read n) =
      (seekerFile c name i' (r + (bytesFrom c r n).length), served c r n) := by
  obtain ⟨err, hread⟩ := Reader.read_eq (c := c) hn hr
  exact ⟨_, by simp only [File.call, File.read, seekerFile, File.readPlace, hread]; rfl⟩

/-- Where `ReadAt` leaves a read-seeker. -/
def afterReadAt (c : Bytes) (r : Int) (n : Nat) (off : Int) : Int :=
  if r + off < 2 ^ 63 then r + off + (bytesFrom c (r + off) n).length else r

theorem seekerFile_readAt (c name : Bytes) (i : Int) (host : Host) (hn : 1 ≤ n) (hr : 0 ≤ r)
    (hr' : r < 2 ^ 63) (hoff : 0 ≤ off) (hoff' : off < 2 ^ 63) :
    ∃ i', (seekerFile c name i r).call host (.readAt n off) =
      (seekerFile c name i' (afterReadAt c r n off),
        if r + off < 2 ^ 63 then served c (r + off) n else .bytes [] []) := by
  simp only [File.call, File.readAt, seekerFile, File.readAtPlace, afterReadAt]
  by_cases hsmall : r + off < 2 ^ 63
  · obtain ⟨err, hread⟩ := Reader.read_eq (c := c) (r := r + off) hn (by omega)
    have hadd : add64 r off = r + off := add64_of_small (by omega) hsmall
    rw [Reader.seek_current (by omega) hsmall, if_pos hsmall, if_pos hsmall, hadd]
    exact ⟨_, by simp only [hread]; rfl⟩
  · rw [Reader.seek_negative (add64_of_big hr' hoff' (by omega)), if_neg hsmall, if_neg hsmall]
    exact ⟨i, rfl⟩

/-! ### Seeking -/

theorem newIndex_eq_iff (hi : 0 ≤ f.index) (hi' : f.index ≤ c.length) (hsize : f.size = c.length)
    (hbound : (c.length : Int) < 2 ^ 63) (hk : 0 ≤ k) (hk' : k ≤ c.length)
    (hv : ValidSeek c k offset whence) :
    f.newIndex offset whence = some (target c k offset whence) ↔
      target c f.index offset whence = target c k offset whence := by
  have hnonneg := hv.nonneg
  have hle := hv.le
  rcases hv.known with rfl | rfl | rfl
  · exact ⟨fun _ => rfl, fun _ => rfl⟩
  · change some (add64 f.index offset) = some (k + offset) ↔ f.index + offset = k + offset
    change 0 ≤ k + offset at hnonneg
    change k + offset ≤ _ at hle
    rw [Option.some.injEq]
    exact add64_eq_iff hi (by omega) (by omega) (by omega) hnonneg (by omega)
  · change some (add64 f.size offset) = some (c.length + offset) ↔ _ = _
    change 0 ≤ (c.length : Int) + offset at hnonneg
    change (c.length : Int) + offset ≤ _ at hle
    refine ⟨fun _ => rfl, fun _ => ?_⟩
    rw [hsize, add64_of_small (by omega) (by omega)]

/-- A `Seek` that places the index. -/
theorem seek_of_newIndex (hrs : f.rs = none) (hnew : f.newIndex offset whence = some t) (ht : 0 ≤ t)
    (ht' : t ≤ f.size) :
    f.seek offset whence = ({ f with index := t }, .ok t) := by
  have hneg : ¬ t < 0 := by omega
  have hpast : ¬ (0 < f.size ∧ f.size < t) := by omega
  simp only [File.seek, hrs, hnew, if_neg hneg, if_neg hpast]

theorem newIndex_of_seek (hrs : f.rs = none) (h : (f.seek offset whence).2 = .ok t) :
    f.newIndex offset whence = some t := by
  simp only [File.seek, hrs] at h
  cases hnew : f.newIndex offset whence with
  | none =>
      rw [hnew] at h
      cases h
  | some newIndex =>
      simp only [hnew] at h
      split at h
      · cases h
      split at h
      · cases h
      · rw [Except.ok.inj h]

theorem hostFile_seek (host : Host) (hk : 0 ≤ k) (hk' : k ≤ c.length)
    (hbound : (c.length : Int) < 2 ^ 63) (hv : ValidSeek c k offset whence) :
    (hostFile c name k).call host (.seek offset whence) =
      (hostFile c name (target c k offset whence), .position (.ok (target c k offset whence))) := by
  have hnew : (hostFile c name k).newIndex offset whence = some (target c k offset whence) :=
    (newIndex_eq_iff hk hk' rfl hbound hk hk' hv).mpr rfl
  rw [File.call, seek_of_newIndex rfl hnew hv.nonneg hv.le]
  rfl

/-- The buffer answers a `Seek` as the host does, and is then where the host is. -/
theorem bufferFile_seek (name : Bytes) (host : Host) (hb : 0 ≤ b) (hb' : b ≤ c.length) (hk : 0 ≤ k)
    (hk' : k ≤ c.length) (hbound : (c.length : Int) < 2 ^ 63) (hv : ValidSeek c k offset whence) :
    (target c b offset whence = target c k offset whence →
      (bufferFile c name b).call host (.seek offset whence) =
        (bufferFile c name (target c k offset whence),
          .position (.ok (target c k offset whence)))) ∧
    (((bufferFile c name b).call host (.seek offset whence)).2 =
        .position (.ok (target c k offset whence)) →
      target c b offset whence = target c k offset whence) := by
  have hiff := newIndex_eq_iff (f := bufferFile c name b) hb hb' rfl hbound hk hk' hv
  constructor
  · intro ht
    rw [File.call, seek_of_newIndex rfl (hiff.mpr ht) hv.nonneg hv.le]
    rfl
  · intro h
    exact hiff.mp (newIndex_of_seek rfl (Outcome.position.inj h))

theorem ValidSeek.offset_small (hv : ValidSeek c k offset whence) (hk : 0 ≤ k)
    (hk' : k ≤ c.length) : -c.length ≤ offset ∧ offset ≤ c.length := by
  have hnonneg := hv.nonneg
  have hle := hv.le
  rcases hv.known with rfl | rfl | rfl
  · change 0 ≤ offset at hnonneg
    change offset ≤ _ at hle
    omega
  · change 0 ≤ k + offset at hnonneg
    change k + offset ≤ _ at hle
    omega
  · change 0 ≤ (c.length : Int) + offset at hnonneg
    change (c.length : Int) + offset ≤ _ at hle
    omega

/-- The read-seeker does so only if the target is as far from where it is. -/
theorem seekerFile_seek (name : Bytes) (i : Int) (host : Host) (hr : 0 ≤ r) (hr' : r < 2 ^ 63)
    (hk : 0 ≤ k) (hk' : k ≤ c.length) (hbound : (c.length : Int) < 2 ^ 63)
    (hv : ValidSeek c k offset whence) :
    (r + offset = target c k offset whence →
      (seekerFile c name i r).call host (.seek offset whence) =
        (seekerFile c name i (target c k offset whence),
          .position (.ok (target c k offset whence)))) ∧
    (((seekerFile c name i r).call host (.seek offset whence)).2 =
        .position (.ok (target c k offset whence)) →
      r + offset = target c k offset whence) := by
  have hnonneg := hv.nonneg
  have hle := hv.le
  obtain ⟨hoff, hoff'⟩ := hv.offset_small hk hk'
  constructor
  · intro ht
    rw [File.call, File.seek, seekerFile]
    simp only [Reader.seek_current (c := c) (ht ▸ hnonneg) (by omega), ht]
    rfl
  · intro h
    have hseek := Outcome.position.inj h
    simp only [seekerFile, File.seek] at hseek
    by_cases hneg : add64 r offset < 0
    · rw [Reader.seek_negative hneg] at hseek
      cases hseek
    · by_cases hsmall : r + offset < 2 ^ 63
      · rw [add64_of_small (by omega) hsmall] at hneg
        rw [Reader.seek_current (by omega) hsmall] at hseek
        exact Except.ok.inj hseek
      · exact absurd (add64_of_big hr' (by omega) (by omega)) hneg

end

/-! ## Every sequence of calls -/

/-- The calls are ones that the content allows, from a position of the cursor on. -/
def ValidCalls (c : Bytes) : Int → List Call → Prop
  | _, [] => True
  | k, .read n :: calls => 1 ≤ n ∧ ValidCalls c (k + (bytesFrom c k n).length) calls
  | k, .readAt n off :: calls => 1 ≤ n ∧ 0 ≤ off ∧ off < 2 ^ 63 ∧ ValidCalls c k calls
  | k, .seek offset whence :: calls =>
      ValidSeek c k offset whence ∧ ValidCalls c (target c k offset whence) calls

/-- The three files cannot be told apart, with the cursor at `k`, the index of the buffer at
`b` and the read-seeker at `r`: a `Read` finds them at one place or all at the end; a
`ReadAt` finds the read-seeker at the start, or is past the end; and from all three the
target of a `Seek` is the same, that of the read-seeker being relative to where it is. -/
def InStep (c : Bytes) : Int → Int → Int → List Call → Prop
  | _, _, _, [] => True
  | k, b, r, .read n :: calls =>
      ((k = b ∧ k = r) ∨
          ((c.length : Int) ≤ k ∧ (c.length : Int) ≤ b ∧ (c.length : Int) ≤ r)) ∧
        InStep c (k + (bytesFrom c k n).length) b (r + (bytesFrom c r n).length) calls
  | k, b, r, .readAt n off :: calls =>
      (r = 0 ∨ (c.length : Int) ≤ off) ∧ InStep c k b (afterReadAt c r n off) calls
  | k, b, r, .seek offset whence :: calls =>
      let t := target c k offset whence
      target c b offset whence = t ∧ r + offset = t ∧ InStep c t t t calls

section

variable {c name : Bytes}

variable {n : Nat} {r : Int}

theorem bytesFrom_bound (hbound : (c.length : Int) < 2 ^ 63) (hr : 0 ≤ r) (hr' : r < 2 ^ 63) :
    r + (bytesFrom c r n).length < 2 ^ 63 := by
  rw [bytesFrom_length]
  omega

theorem afterReadAt_bound {off : Int} (hbound : (c.length : Int) < 2 ^ 63) (hr : 0 ≤ r)
    (hr' : r < 2 ^ 63) (hoff : 0 ≤ off) :
    0 ≤ afterReadAt c r n off ∧ afterReadAt c r n off < 2 ^ 63 := by
  rw [afterReadAt]
  split
  case isTrue hsmall =>
    have := bytesFrom_bound (n := n) hbound (show 0 ≤ r + off by omega) hsmall
    omega
  case isFalse => exact ⟨hr, hr'⟩

/-- What the read-seeker returns from `ReadAt` is what is at the offset, if it was at the
start or there is nothing there. -/
theorem readAt_eq_iff {off : Int} (hn : 1 ≤ n) (hr : 0 ≤ r) (hoff : 0 ≤ off)
    (hoff' : off < 2 ^ 63) :
    (served c off n = if r + off < 2 ^ 63 then served c (r + off) n else .bytes [] []) ↔
      r = 0 ∨ (c.length : Int) ≤ off := by
  split
  · rw [served_eq_iff hn hoff (by omega)]
    omega
  · constructor
    · intro h
      exact .inr ((bytesFrom_eq_nil_iff hn hoff).mp (Outcome.bytes.inj h).2)
    · rintro (rfl | hle)
      · omega
      · exact served_of_nil ((bytesFrom_eq_nil_iff hn hoff).mpr hle)

/-- Call by call, from any positions. -/
theorem run_eq_iff (name : Bytes) (hbound : (c.length : Int) < 2 ^ 63) (calls : List Call) :
    ∀ {k b r i : Int}, 0 ≤ k → k ≤ c.length → 0 ≤ b → b ≤ c.length → 0 ≤ r → r < 2 ^ 63 →
      ValidCalls c k calls →
      (((hostFile c name k).run (exactHost c) calls =
            (bufferFile c name b).run (exactHost c) calls ∧
          (hostFile c name k).run (exactHost c) calls =
            (seekerFile c name i r).run (exactHost c) calls) ↔
        InStep c k b r calls) := by
  induction calls with
  | nil =>
      intros
      exact ⟨fun _ => trivial, fun _ => ⟨rfl, rfl⟩⟩
  | cons call calls ih =>
      intro k b r i hk hk' hb hb' hr hr' hvalid
      cases call with
      | read n =>
          obtain ⟨hn, hvalid⟩ := hvalid
          obtain ⟨i', hseeker⟩ := seekerFile_read c name i (exactHost c) hn hr
          have hrest := ih (b := b) (i := i') (by omega) (le_of_bytesFrom (n := n) hk hk') hb hb'
            (by omega) (bytesFrom_bound (n := n) hbound hr hr') hvalid
          simp only [File.run, hostFile_read hk hk' hbound, bufferFile_read _ hb, hseeker,
            List.cons.injEq, InStep, ← hrest, served_eq_iff hn hk hb, served_eq_iff hn hk hr]
          constructor
          · rintro ⟨⟨hkb, h₁⟩, hkr, h₂⟩
            exact ⟨by omega, h₁, h₂⟩
          · rintro ⟨hplace, h₁, h₂⟩
            exact ⟨⟨by omega, h₁⟩, by omega, h₂⟩
      | readAt n off =>
          obtain ⟨hn, hoff, hoff', hvalid⟩ := hvalid
          obtain ⟨i', hseeker⟩ := seekerFile_readAt c name i (exactHost c) hn hr hr' hoff hoff'
          obtain ⟨hnext, hnext'⟩ := afterReadAt_bound (n := n) hbound hr hr' hoff
          have hrest := ih (i := i') hk hk' hb hb' hnext hnext' hvalid
          simp only [File.run, hostFile_readAt, bufferFile_readAt _ hn hoff, hseeker,
            List.cons.injEq, InStep, ← hrest, readAt_eq_iff hn hr hoff hoff']
          constructor
          · rintro ⟨⟨-, h₁⟩, hplace, h₂⟩
            exact ⟨hplace, h₁, h₂⟩
          · rintro ⟨hplace, h₁, h₂⟩
            exact ⟨⟨trivial, h₁⟩, hplace, h₂⟩
      | seek offset whence =>
          obtain ⟨hv, hvalid⟩ := hvalid
          have hrest := ih (i := i) hv.nonneg hv.le hv.nonneg hv.le hv.nonneg
            (Int.lt_of_le_of_lt hv.le hbound) hvalid
          obtain ⟨hbuf, hbuf'⟩ := bufferFile_seek name (exactHost c) hb hb' hk hk' hbound hv
          obtain ⟨hsk, hsk'⟩ := seekerFile_seek name i (exactHost c) hr hr' hk hk' hbound hv
          simp only [File.run, hostFile_seek _ hk hk' hbound hv, List.cons.injEq, InStep]
          constructor
          · rintro ⟨⟨hout, h₁⟩, hout', h₂⟩
            have ht := hbuf' hout.symm
            have ht' := hsk' hout'.symm
            rw [hbuf ht] at h₁
            rw [hsk ht'] at h₂
            exact ⟨ht, ht', hrest.mp ⟨h₁, h₂⟩⟩
          · rintro ⟨ht, ht', hin⟩
            obtain ⟨h₁, h₂⟩ := hrest.mpr hin
            rw [hbuf ht, hsk ht']
            exact ⟨⟨rfl, h₁⟩, rfl, h₂⟩

/-! ## No position twice -/

/-- The positions that the `Read`s return, up to the next `Seek`. -/
def readPositions : List Call → List Outcome → List Int
  | .read _ :: calls, .bytes positions _ :: outs => positions ++ readPositions calls outs
  | .readAt _ _ :: calls, _ :: outs => readPositions calls outs
  | _, _ => []

/-- From every call on, the `Read`s up to the next `Seek` return no position twice. -/
def Fresh (calls : List Call) (outs : List Outcome) : Prop :=
  ∀ m, (readPositions (calls.drop m) (outs.drop m)).Nodup

/-- Over the host, they return consecutive ones. -/
theorem readPositions_host (name : Bytes) (hbound : (c.length : Int) < 2 ^ 63) (calls : List Call) :
    ∀ {k : Int}, 0 ≤ k → k ≤ c.length → ValidCalls c k calls →
      ∃ m, readPositions calls ((hostFile c name k).run (exactHost c) calls) =
        positionsFrom k m := by
  induction calls with
  | nil =>
      intros
      exact ⟨0, rfl⟩
  | cons call calls ih =>
      intro k hk hk' hvalid
      cases call with
      | read n =>
          obtain ⟨m, hm⟩ := ih (by omega) (le_of_bytesFrom (n := n) hk hk') hvalid.2
          refine ⟨(bytesFrom c k n).length + m, ?_⟩
          rw [File.run, hostFile_read hk hk' hbound, positionsFrom_append, ← hm]
          rfl
      | readAt n off =>
          obtain ⟨m, hm⟩ := ih hk hk' hvalid.2.2.2
          refine ⟨m, ?_⟩
          rw [File.run, hostFile_readAt, ← hm]
          rfl
      | seek offset whence => exact ⟨0, rfl⟩

theorem fresh_host (name : Bytes) (hbound : (c.length : Int) < 2 ^ 63) (calls : List Call) :
    ∀ {k : Int}, 0 ≤ k → k ≤ c.length → ValidCalls c k calls →
      Fresh calls ((hostFile c name k).run (exactHost c) calls) := by
  induction calls with
  | nil =>
      intro k _ _ _ m
      simp [File.run, readPositions]
  | cons call calls ih =>
      intro k hk hk' hvalid m
      cases m with
      | zero =>
          obtain ⟨m, hm⟩ := readPositions_host name hbound _ hk hk' hvalid
          rw [List.drop_zero, List.drop_zero, hm]
          exact positionsFrom_nodup k m
      | succ m =>
          rw [File.run, List.drop_succ_cons, List.drop_succ_cons]
          cases call with
          | read n =>
              rw [hostFile_read hk hk' hbound]
              exact ih (by omega) (le_of_bytesFrom hk hk') hvalid.2 m
          | readAt n off =>
              rw [hostFile_readAt]
              exact ih hk hk' hvalid.2.2.2 m
          | seek offset whence =>
              obtain ⟨hv, hvalid⟩ := hvalid
              rw [hostFile_seek _ hk hk' hbound hv]
              exact ih hv.nonneg hv.le hvalid m

end

/-! ## Telling the backings apart -/

/-- What can be seen of the calls on a file over a content. -/
def outcomes (c name : Bytes) (backing : Backing) (calls : List Call) : List Outcome :=
  (File.over c name backing).run (exactHost c) calls

/-- A file behaves the same whatever backs it, and no `Read` returns what one before it has
returned, exactly for the calls that find the three positions in step. -/
theorem backings_agree_iff (c name : Bytes) (calls : List Call)
    (hsize : (c.length : Int) < 2 ^ 63) (hvalid : ValidCalls c 0 calls) :
    ((∀ backing, outcomes c name backing calls = outcomes c name .host calls) ∧
        ∀ backing, Fresh calls (outcomes c name backing calls)) ↔
      InStep c 0 0 0 calls := by
  have hiff := run_eq_iff name (i := 0) hsize calls (Int.le_refl 0)
    (Int.natCast_nonneg _) (Int.le_refl 0) (Int.natCast_nonneg _) (Int.le_refl 0) (by omega) hvalid
  have hfresh := fresh_host name hsize calls (Int.le_refl 0) (Int.natCast_nonneg _) hvalid
  rw [← hiff]
  constructor
  · rintro ⟨hall, -⟩
    exact ⟨(hall .buffer).symm, (hall .seeker).symm⟩
  · rintro ⟨hbuf, hseek⟩
    have hall : ∀ backing, outcomes c name backing calls = outcomes c name .host calls := by
      intro backing
      cases backing with
      | buffer => exact hbuf.symm
      | seeker => exact hseek.symm
      | host => rfl
    refine ⟨hall, fun backing => ?_⟩
    rw [hall backing]
    exact hfresh

/-- A `Seek` from where the file is, and one `Read`. -/
theorem backings_agree_seek_read :
    outcomes (lit "hello") [] .buffer [.seek 1 seekCurrent, .read 2] =
        outcomes (lit "hello") [] .host [.seek 1 seekCurrent, .read 2] ∧
      outcomes (lit "hello") [] .seeker [.seek 1 seekCurrent, .read 2] =
        outcomes (lit "hello") [] .host [.seek 1 seekCurrent, .read 2] ∧
      Fresh [.seek 1 seekCurrent, .read 2]
        (outcomes (lit "hello") [] .buffer [.seek 1 seekCurrent, .read 2]) := by
  have hvalid : ValidCalls (lit "hello") 0 [.seek 1 seekCurrent, .read 2] :=
    ⟨⟨.inr (.inl rfl), by decide, by decide⟩, by decide, trivial⟩
  have hin : InStep (lit "hello") 0 0 0 [.seek 1 seekCurrent, .read 2] :=
    ⟨rfl, rfl, .inl ⟨rfl, rfl⟩, trivial⟩
  obtain ⟨hsame, hfresh⟩ :=
    (backings_agree_iff (lit "hello") [] [.seek 1 seekCurrent, .read 2] (by decide) hvalid).mpr hin
  exact ⟨hsame .buffer, hsame .seeker, hfresh .buffer⟩

/-- Two `Read`s of a buffer return the same byte, and a read-seeker that has read one byte
is not taken back to the start. -/
theorem backings_differ :
    ValidCalls (lit "ab") 0 [.read 1, .read 1] ∧
      outcomes (lit "ab") [] .buffer [.read 1, .read 1] =
        [.bytes [0] (lit "a"), .bytes [0] (lit "a")] ∧
      outcomes (lit "ab") [] .host [.read 1, .read 1] =
        [.bytes [0] (lit "a"), .bytes [1] (lit "b")] ∧
      ValidCalls (lit "ab") 0 [.read 1, .seek 0 seekStart] ∧
      outcomes (lit "ab") [] .seeker [.read 1, .seek 0 seekStart] =
        [.bytes [0] (lit "a"), .position (.ok 1)] ∧
      outcomes (lit "ab") [] .host [.read 1, .seek 0 seekStart] =
        [.bytes [0] (lit "a"), .position (.ok 0)] := by
  refine ⟨⟨by decide, by decide, trivial⟩, by decide, by decide, ⟨by decide, ?_, trivial⟩,
    by decide, by decide⟩
  exact ⟨.inl rfl, by decide, by decide⟩

end BuilderShim.Fssync
