/-
  Fssync/Sequential.lean --- reading a file of the host from the front to the end.

  The host may answer a request with less than was asked for, and differently every
  time.  `Read` goes on behind what it got, so a history of `Read` and `Seek` calls is
  that of a cursor over the content: `position` is where the results of the calls put
  the cursor, and every call behaves as its position says.  `ReadAt` instead takes
  every short answer for the end of the file.
-/
import BuilderShim.Fssync.Backings

set_option autoImplicit false

namespace BuilderShim.Fssync

/-! ## Calls and their results -/

inductive SeqCall where
  | read (n : Nat)
  | seek (offset : Int64) (whence : Int)
  deriving DecidableEq

inductive SeqResult where
  | bytes (data : Bytes) (err : Option FileError)
  | position (res : Except FileError Int)

def File.seqCall (host : Host) (f : File) : SeqCall → File × SeqResult
  | .read n => ((f.read host n).1, .bytes (f.read host n).2.1 (f.read host n).2.2)
  | .seek offset whence =>
      ((f.seek offset.toInt whence).1, .position (f.seek offset.toInt whence).2)

theorem File.seqCall_read (host : Host) (f : File) (n : Nat) :
    f.seqCall host (.read n) =
      ((f.read host n).1, .bytes (f.read host n).2.1 (f.read host n).2.2) := rfl

theorem File.seqCall_seek (host : Host) (f : File) (offset : Int64) (whence : Int) :
    f.seqCall host (.seek offset whence) =
      ((f.seek offset.toInt whence).1, .position (f.seek offset.toInt whence).2) := rfl

/-- The results of calls, each with the host as it answers then. -/
def File.history (f : File) : List (Host × SeqCall) → List (SeqCall × SeqResult)
  | [] => []
  | (host, call) :: calls => (call, (f.seqCall host call).2) ::
    (f.seqCall host call).1.history calls

def File.after (f : File) : List (Host × SeqCall) → File
  | [] => f
  | (host, call) :: calls => (f.seqCall host call).1.after calls

/-- Where the result leaves a cursor. -/
def SeqResult.moves (k : Int) : SeqResult → Int
  | .bytes data _ => k + data.length
  | .position (.ok newIndex) => newIndex
  | .position (.error _) => k

def positionFrom (k : Int) (history : List (SeqCall × SeqResult)) : Int :=
  history.foldl (fun k e => e.2.moves k) k

/-- The position after a history. -/
def position (history : List (SeqCall × SeqResult)) : Int := positionFrom 0 history

def SeqResult.returned : SeqResult → Bytes
  | .bytes data _ => data
  | .position _ => []

/-- All bytes that were returned. -/
def returned (history : List (SeqCall × SeqResult)) : Bytes := history.flatMap fun e => e.2.returned

/-- No `Seek` has succeeded. -/
def Uninterrupted (history : List (SeqCall × SeqResult)) : Prop :=
  ∀ e ∈ history, ∀ newIndex, e.2 ≠ .position (.ok newIndex)

/-- The host answers every request in the content with some of what was asked for, and every
other with nothing. -/
def PrefixHost (c : Bytes) (host : Host) : Prop :=
  ∀ req : ReadRequest, 0 ≤ req.offset → 1 ≤ req.length →
    ∃ data, host req = .ok ⟨none, data⟩ ∧
      (req.offset < c.length → data ≠ [] ∧ data <+: bytesFrom c req.offset req.length.toNat) ∧
      (c.length ≤ req.offset → data = [])

/-! ## A cursor over the content -/

/-- The call and its result, for a cursor at `k`. -/
def StepOk (c : Bytes) (k : Int) : SeqCall × SeqResult → Prop
  | (.read _, .bytes data err) =>
      data = bytesFrom c k data.length ∧ (err = some .eof ↔ c.length ≤ k) ∧
        (err = some .eof ∨ err = none)
  | (.seek offset whence, .position res) =>
      ∀ newIndex, res = .ok newIndex → 0 ≤ newIndex ∧ newIndex = target c k offset.toInt whence
  | _ => False

def StepsOk (c : Bytes) : Int → List (SeqCall × SeqResult) → Prop
  | _, [] => True
  | k, e :: history => StepOk c k e ∧ StepsOk c (e.2.moves k) history

section

variable {c : Bytes} {k : Int} {history history' : List (SeqCall × SeqResult)}

theorem bytesFrom_add (hk : 0 ≤ k) (m n : Nat) :
    bytesFrom c k (m + n) = bytesFrom c k m ++ bytesFrom c (k + m) n := by
  have hnat : (k + m).toNat = k.toNat + m := by omega
  rw [bytesFrom, bytesFrom, bytesFrom, hnat, List.take_add, List.drop_drop]

theorem stepsOk_append :
    StepsOk c k (history ++ history') ↔
      StepsOk c k history ∧ StepsOk c (positionFrom k history) history' := by
  induction history generalizing k with
  | nil => exact ⟨fun h => ⟨trivial, h⟩, fun h => h.2⟩
  | cons e history ih =>
      rw [List.cons_append, StepsOk, StepsOk, ih, and_assoc]
      rfl

/-- Between two successful `Seek`s the bytes are consecutive. -/
theorem StepsOk.returned_eq (hk : 0 ≤ k) (h : StepsOk c k history) (hu : Uninterrupted history) :
    returned history = bytesFrom c k (returned history).length := by
  induction history generalizing k with
  | nil => simp [returned, bytesFrom]
  | cons e history ih =>
      obtain ⟨hstep, hrest⟩ := h
      have hu' : Uninterrupted history := fun e' he' => hu e' (List.mem_cons_of_mem _ he')
      have hsplit : returned (e :: history) = e.2.returned ++ returned history := List.flatMap_cons
      rw [hsplit]
      obtain ⟨call, result⟩ := e
      cases result with
      | bytes data err =>
          cases call with
          | seek offset whence => exact hstep.elim
          | read n =>
              have hdata : data = bytesFrom c k data.length := hstep.1
              have hrest' := ih (show 0 ≤ k + (data.length : Int) by omega) hrest hu'
              show data ++ returned history = bytesFrom c k (data ++ returned history).length
              rw [List.length_append, bytesFrom_add hk, ← hdata, ← hrest']
      | position res =>
          cases res with
          | error e => exact ih hk hrest hu'
          | ok newIndex => exact absurd rfl (hu _ List.mem_cons_self newIndex)

theorem StepsOk.position_nonneg (hk : 0 ≤ k) (h : StepsOk c k history) :
    0 ≤ positionFrom k history := by
  induction history generalizing k with
  | nil => exact hk
  | cons e history ih =>
      obtain ⟨hstep, hrest⟩ := h
      refine ih ?_ hrest
      match e, hstep with
      | (.read n, .bytes data err), _ => exact Int.add_nonneg hk (Int.natCast_nonneg _)
      | (.seek offset whence, .position (.error e)), _ => exact hk
      | (.seek offset whence, .position (.ok newIndex)), hok => exact (hok newIndex rfl).1

end

/-! ## The file is one -/

/-- A position the file can be at: only an empty one lets itself be sought beyond its end. -/
structure CursorAt (c : Bytes) (k : Int) : Prop where
  nonneg : 0 ≤ k
  le : 0 < c.length → k ≤ c.length
  lt : k < 2 ^ 63

section

variable {c name : Bytes} {k : Int}

theorem eq_bytesFrom_of_isPrefix {data : Bytes} {n : Nat} (h : data <+: bytesFrom c k n) :
    data = bytesFrom c k data.length ∧ data.length ≤ n := by
  have hlen : data.length ≤ n := by
    have := h.length_le
    rw [bytesFrom_length] at this
    omega
  refine ⟨?_, hlen⟩
  conv => lhs; rw [List.prefix_iff_eq_take.mp h]
  rw [bytesFrom, bytesFrom, List.take_take, Nat.min_eq_left hlen]

theorem hostFile_read_prefix (name : Bytes) {host : Host} (hhost : PrefixHost c host)
    (hc : (c.length : Int) < 2 ^ 63) (hk : CursorAt c k) {n : Nat} (hn : 1 ≤ n) :
    ∃ data err, (hostFile c name k).read host n = (hostFile c name (k + data.length), data, err) ∧
      StepOk c k (.read n, .bytes data err) ∧ CursorAt c (k + data.length) := by
  have hnonneg := hk.nonneg
  obtain ⟨data, hanswer, hinside, hbeyond⟩ :=
    hhost ((hostFile c name k).packetReadAt k n) hnonneg (by
      show (1 : Int) ≤ n
      omega)
  have hread : (hostFile c name k).read host n =
      if (data.take n).length = 0 then (hostFile c name k, [], some .eof)
      else (hostFile c name (add64 k (data.take n).length), data.take n, none) := by
    have hask : host ⟨name, k, n⟩ = .ok ⟨none, data⟩ := hanswer
    unfold File.read hostFile File.packetReadAt
    dsimp only
    rw [hask]
  by_cases hlt : k < c.length
  · obtain ⟨hne, hprefix⟩ := hinside hlt
    have hprefix' : data <+: bytesFrom c k n := hprefix
    obtain ⟨hdata, hlen⟩ := eq_bytesFrom_of_isPrefix hprefix'
    have hsome : data.length ≠ 0 := fun h => hne (List.length_eq_zero_iff.mp h)
    have hle : k + data.length ≤ c.length := by
      rw [hdata]
      exact le_of_bytesFrom hnonneg (Int.le_of_lt hlt)
    rw [List.take_of_length_le hlen, if_neg hsome, add64_of_small (by omega) (by omega)] at hread
    refine ⟨data, none, hread, ⟨hdata, ?_, .inr rfl⟩, by omega, fun _ => hle, by omega⟩
    exact ⟨fun h => (by cases h), fun h => absurd h (by omega)⟩
  · have hle : (c.length : Int) ≤ k := by omega
    have hnone : data = [] := hbeyond hle
    rw [hnone, List.take_nil, if_pos List.length_nil] at hread
    have hstay : k + (([] : Bytes).length : Int) = k := Int.add_zero k
    refine ⟨[], some .eof, ?_, ⟨rfl, ⟨fun _ => hle, fun _ => rfl⟩, .inl rfl⟩, ?_⟩
    · rw [hstay]
      exact hread
    · rw [hstay]
      exact hk

/-- A sum that has wrapped around is negative. -/
theorem add64_nonneg {a : Int} (ha : 0 ≤ a) (ha' : a < 2 ^ 63) (x : Int64)
    (h : 0 ≤ add64 a x.toInt) : add64 a x.toInt = a + x.toInt := by
  have hlow := Int64.le_toInt x
  have hhigh := Int64.toInt_lt x
  by_cases hsmall : a + x.toInt < 2 ^ 63
  · exact add64_of_small (by omega) hsmall
  · have := add64_of_big ha' hhigh (by omega)
    omega

theorem newIndex_eq_target (hc : (c.length : Int) < 2 ^ 63) (hk : CursorAt c k) {offset : Int64}
    {whence newIndex : Int} (h : (hostFile c name k).newIndex offset.toInt whence = some newIndex)
    (hnonneg : 0 ≤ newIndex) : newIndex = target c k offset.toInt whence ∧ newIndex < 2 ^ 63 := by
  have hhigh := Int64.toInt_lt offset
  unfold File.newIndex at h
  unfold target
  split at h
  case isTrue hstart =>
    cases h
    rw [if_pos hstart]
    exact ⟨rfl, by omega⟩
  case isFalse hstart =>
    rw [if_neg hstart]
    have hbound : ∀ a x : Int, add64 a x < 2 ^ 63 := fun a x => by
      have := Int.bmod_lt (x := a + x) (m := 2 ^ 64) (by decide)
      unfold add64
      omega
    split at h
    case isTrue hcurrent =>
      rw [if_pos hcurrent]
      cases h
      exact ⟨add64_nonneg hk.nonneg hk.lt offset hnonneg, hbound _ _⟩
    case isFalse hcurrent =>
      rw [if_neg hcurrent]
      split at h
      case isTrue hend =>
        cases h
        exact ⟨add64_nonneg (Int.natCast_nonneg _) hc offset hnonneg, hbound _ _⟩
      case isFalse => cases h

theorem hostFile_seek_placed (name : Bytes) (hc : (c.length : Int) < 2 ^ 63) (hk : CursorAt c k)
    (offset : Int64)
    (whence : Int) :
    ∃ res, (hostFile c name k).seek offset.toInt whence =
        (hostFile c name ((SeqResult.position res).moves k), res) ∧
      StepOk c k (.seek offset whence, .position res) ∧
      CursorAt c ((SeqResult.position res).moves k) := by
  have hfail : ∀ e, StepOk c k (.seek offset whence, .position (.error e)) :=
    fun e p h => by cases h
  cases hnew : (hostFile c name k).newIndex offset.toInt whence with
  | none =>
      have hseek : (hostFile c name k).seek offset.toInt whence =
          (hostFile c name k, .error (.invalidWhence whence)) := by
        unfold File.seek
        rw [hnew]
        rfl
      exact ⟨.error (.invalidWhence whence), hseek, hfail _, hk⟩
  | some newIndex =>
      have hseek : (hostFile c name k).seek offset.toInt whence =
          if newIndex < 0 then (hostFile c name k, .error (.negativeSeekOffset newIndex))
          else if 0 < (c.length : Int) ∧ (c.length : Int) < newIndex then
            (hostFile c name k, .error (.seekBeyondEnd newIndex))
          else (hostFile c name newIndex, .ok newIndex) := by
        unfold File.seek
        rw [hnew]
        rfl
      split at hseek
      case isTrue => exact ⟨.error (.negativeSeekOffset newIndex), hseek, hfail _, hk⟩
      case isFalse hneg =>
        split at hseek
        case isTrue => exact ⟨.error (.seekBeyondEnd newIndex), hseek, hfail _, hk⟩
        case isFalse hpast =>
          obtain ⟨htarget, hlt⟩ := newIndex_eq_target hc hk hnew (by omega)
          have hplaced : CursorAt c newIndex := ⟨by omega, fun hpos => by omega, hlt⟩
          refine ⟨.ok newIndex, hseek, fun p h => ?_, hplaced⟩
          cases h
          exact ⟨by omega, htarget⟩

/-- One call. -/
theorem hostFile_seqCall (name : Bytes) (hc : (c.length : Int) < 2 ^ 63) (hk : CursorAt c k)
    {host : Host} {call : SeqCall} (hhost : PrefixHost c host)
    (hbuf : ∀ n, call = .read n → 1 ≤ n) :
    ∃ res, (hostFile c name k).seqCall host call = (hostFile c name (res.moves k), res) ∧
      StepOk c k (call, res) ∧ CursorAt c (res.moves k) := by
  cases call with
  | read n =>
      obtain ⟨data, err, hread, hok, hplaced⟩ :=
        hostFile_read_prefix name hhost hc hk (hbuf n rfl)
      refine ⟨.bytes data err, ?_, hok, hplaced⟩
      rw [File.seqCall_read, hread]
      rfl
  | seek offset whence =>
      obtain ⟨res, hseek, hok, hplaced⟩ := hostFile_seek_placed name hc hk offset whence
      refine ⟨.position res, ?_, hok, hplaced⟩
      rw [File.seqCall_seek, hseek]

/-- All calls. -/
theorem hostFile_history (name : Bytes) (hc : (c.length : Int) < 2 ^ 63) (hk : CursorAt c k)
    (calls : List (Host × SeqCall)) (hhosts : ∀ x ∈ calls, PrefixHost c x.1)
    (hbuf : ∀ x ∈ calls, ∀ n, x.2 = .read n → 1 ≤ n) :
    StepsOk c k ((hostFile c name k).history calls) ∧
      (hostFile c name k).after calls =
        hostFile c name (positionFrom k ((hostFile c name k).history calls)) := by
  induction calls generalizing k with
  | nil => exact ⟨trivial, rfl⟩
  | cons x calls ih =>
      obtain ⟨host, call⟩ := x
      obtain ⟨res, hcall, hok, hplaced⟩ := hostFile_seqCall name hc hk (hhosts _ List.mem_cons_self)
        (hbuf _ List.mem_cons_self)
      obtain ⟨hsteps, hafter⟩ := ih hplaced (fun x hx => hhosts x (List.mem_cons_of_mem _ hx))
        (fun x hx => hbuf x (List.mem_cons_of_mem _ hx))
      unfold File.history File.after
      rw [hcall]
      exact ⟨⟨hok, hsteps⟩, hafter⟩

end

/-! ## Sequential reading -/

/-- The history is that of a file which is read in order: between two successful `Seek`s the
bytes are the consecutive ones from the position, the end is reported where the position is,
and a `Seek` that succeeds goes where it should. -/
structure Reconstructs (c : Bytes) (history : List (SeqCall × SeqResult)) : Prop where
  segments : ∀ before segment rest, history = before ++ segment ++ rest → Uninterrupted segment →
    returned segment = bytesFrom c (position before) (returned segment).length
  ends : ∀ before n data err rest, history = before ++ (.read n, .bytes data err) :: rest →
    (err = some .eof ↔ c.length ≤ position before) ∧ (err = some .eof ∨ err = none)
  seeks : ∀ before offset whence newIndex rest,
    history = before ++ (.seek offset whence, .position (.ok newIndex)) :: rest →
      0 ≤ newIndex ∧ newIndex = target c (position before) offset.toInt whence

/-- Whatever part of each request a host answers, a file that is backed by it reads as the
content; and its index is where the results say, so that a `Seek` that fails has not moved
it. -/
theorem hostFile_reconstructs (c name : Bytes) (calls : List (Host × SeqCall))
    (hc : (c.length : Int) < 2 ^ 63) (hhosts : ∀ x ∈ calls, PrefixHost c x.1)
    (hbuf : ∀ x ∈ calls, ∀ n, x.2 = .read n → 1 ≤ n) :
    Reconstructs c ((hostFile c name 0).history calls) ∧
      ((hostFile c name 0).after calls).index = position ((hostFile c name 0).history calls) := by
  have hstart : CursorAt c 0 := ⟨Int.le_refl 0, fun _ => Int.natCast_nonneg _, by decide⟩
  obtain ⟨hsteps, hafter⟩ := hostFile_history name hc hstart calls hhosts hbuf
  refine ⟨⟨fun before segment rest heq hu => ?_, fun before n data err rest heq => ?_,
    fun before offset whence newIndex rest heq => ?_⟩, by rw [hafter]; rfl⟩
  · rw [heq, List.append_assoc, stepsOk_append, stepsOk_append] at hsteps
    exact hsteps.2.1.returned_eq (hsteps.1.position_nonneg (Int.le_refl 0)) hu
  · rw [heq, stepsOk_append] at hsteps
    exact hsteps.2.1.2
  · rw [heq, stepsOk_append] at hsteps
    exact hsteps.2.1 newIndex rfl

/-- A host that answers with one byte at a time. -/
def bytewise (c : Bytes) : Host := fun req =>
  .ok ⟨none, bytesFrom c req.offset (min 1 req.length.toNat)⟩

theorem prefixHost_bytewise (c : Bytes) : PrefixHost c (bytewise c) := by
  intro req hoff hlen
  have hone : min 1 req.length.toNat = 1 := by omega
  refine ⟨_, rfl, fun hlt => ?_, fun hle => ?_⟩
  · rw [hone]
    refine ⟨fun hnil => ?_, ?_⟩
    · have := (bytesFrom_eq_nil_iff (Nat.le_refl 1) hoff).mp hnil
      omega
    · exact List.take_prefix_take_left (by omega)
  · rw [hone]
    exact (bytesFrom_eq_nil_iff (Nat.le_refl 1) hoff).mpr hle

/-- Two reads of two bytes each, a `Seek` that fails in between. -/
def twoReads (c : Bytes) : List (Host × SeqCall) :=
  [(bytewise c, .read 2), (bytewise c, .seek (-5) 1), (bytewise c, .read 2)]

theorem hostFile_reconstructs_two :
    Reconstructs [7, 8, 9] ((hostFile [7, 8, 9] [] 0).history (twoReads [7, 8, 9])) ∧
      returned ((hostFile [7, 8, 9] [] 0).history (twoReads [7, 8, 9])) = [7, 8] := by
  have hhosts : ∀ x ∈ twoReads [7, 8, 9], PrefixHost [7, 8, 9] x.1 := by
    simp [twoReads, prefixHost_bytewise]
  have hbuf : ∀ x ∈ twoReads [7, 8, 9], ∀ n, x.2 = .read n → 1 ≤ n := by
    simp [twoReads]
  exact ⟨(hostFile_reconstructs [7, 8, 9] [] (twoReads [7, 8, 9]) (by decide) hhosts hbuf).1,
    by decide⟩

/-! ## The end of the file as `ReadAt` reports it -/

/-- `io.EOF` comes only with the last bytes of the content. -/
def EofAtEnd (c : Bytes) (f : File) (host : Host) (n : Nat) (off : Int) : Prop :=
  (f.readAt host n off).2.2 = some .eof → off + (f.readAt host n off).2.1.length = c.length

/-- `ReadAt` reports the end of the file truthfully exactly if the host answers in full or up
to the end. -/
theorem readAt_eof_iff (c name : Bytes) (k : Int) (host : Host) (n : Nat) (off : Int)
    (hhost : PrefixHost c host) (hn : 1 ≤ n) (hoff : 0 ≤ off) (hlt : off < c.length) :
    EofAtEnd c (hostFile c name k) host n off ↔
      ∃ data, host ⟨name, off, n⟩ = .ok ⟨none, data⟩ ∧
        (data.length = n ∨ off + data.length = c.length) := by
  obtain ⟨data, hanswer, hinside, _⟩ := hhost ⟨name, off, n⟩ hoff (by
    show (1 : Int) ≤ n
    omega)
  obtain ⟨hne, hprefix⟩ := hinside hlt
  have hlen : data.length ≤ n := (eq_bytesFrom_of_isPrefix (k := off) hprefix).2
  have hread : (hostFile c name k).readAt host n off =
      (hostFile c name k, data, if data.length < n then some .eof else none) := by
    unfold File.readAt hostFile File.packetReadAt
    dsimp only
    rw [hanswer]
    dsimp only
    rw [List.take_of_length_le hlen, if_neg fun h => hne (List.length_eq_zero_iff.mp h)]
  have hsame : (∃ data', host ⟨name, off, n⟩ = .ok ⟨none, data'⟩ ∧
      (data'.length = n ∨ off + data'.length = c.length)) ↔
        data.length = n ∨ off + data.length = c.length := by
    constructor
    · rintro ⟨data', hanswer', h⟩
      rw [hanswer] at hanswer'
      cases hanswer'
      exact h
    · exact fun h => ⟨data, hanswer, h⟩
  rw [hsame]
  unfold EofAtEnd
  rw [hread]
  dsimp only
  split
  case isTrue hshort => exact ⟨fun h => .inr (h rfl), fun h _ => h.resolve_left (by omega)⟩
  case isFalse hfull => exact iff_of_true (fun h => by cases h) (.inl (by omega))

/-- One byte is asked for and answered. -/
theorem readAt_eof_one :
    EofAtEnd [7, 8, 9] (hostFile [7, 8, 9] [] 0) (bytewise [7, 8, 9]) 1 0 :=
  (readAt_eof_iff [7, 8, 9] [] 0 (bytewise [7, 8, 9]) 1 0 (prefixHost_bytewise _) (by decide)
    (by decide) (by decide)).mpr ⟨[7], rfl, .inl rfl⟩

/-- Two bytes are asked for, one is answered, and the file of three bytes seems to end. -/
theorem readAt_eof_early :
    PrefixHost [7, 8, 9] (bytewise [7, 8, 9]) ∧
      (hostFile [7, 8, 9] [] 0).readAt (bytewise [7, 8, 9]) 2 0 =
        (hostFile [7, 8, 9] [] 0, [7], some .eof) ∧
      ¬ EofAtEnd [7, 8, 9] (hostFile [7, 8, 9] [] 0) (bytewise [7, 8, 9]) 2 0 := by
  refine ⟨prefixHost_bytewise _, rfl, fun h => ?_⟩
  exact absurd (h rfl) (by decide)

end BuilderShim.Fssync
