import SecureWan.Lib.Bytes
import SecureWan.Lib.Runs
import Mathlib.Data.List.Flatten
import Mathlib.Data.PNat.Defs

/-!
# The chunker

`module1.c` cuts the bytes of a connection into chunks and has `module4` make a TLV of each.
The chunk pool, the boundaries that the CDC engine finds and what `module4` answers are
choices. A chunk is released in `process_chunk` whether or not there is a TLV of it: the bytes
of a connection are all there exactly when `module4` never answered NULL.
-/

namespace SecureWan.ByteCache

/-- `INACTIVITY_TICKS`. -/
def inactivityTicks : ℕ := 200

/-- `cdc_result_t`. -/
inductive CdcResult where
  | cont
  | boundary
  | boundaryStrong
  | boundaryMax

/-- A TLV of `module4`, by the chunk it stands for. -/
structure Tlv where
  payload : Bytes

/-- A call of `module4_lookup_and_build_tlv`: the chunk, and whether an mbuf came back. -/
structure Lookup where
  data : Bytes
  built : Bool

/-- `module1_state`, with the calls of `module4` made so far. `current` is the buffer of the
current chunk up to `bytes_used`, if there is one. -/
structure Module1State where
  current : Option Bytes
  chunkTo : ℕ
  tlvPending : List Tlv
  lookups : List Lookup

/-- An mbuf chain by its segments; `m_pkthdr.len` holds its length. -/
structure MbufChain where
  segs : List Bytes
  length_lt : segs.flatten.length < 2 ^ 32

/-- What is decided while a byte is added: the two calls of `chunk_alloc`, the answers of
`module4` for a chunk that was full before and for one that the byte ends, and the result
of `cdc_feed_byte`. -/
structure ByteChoice where
  alloc : Bool
  builtFull : Bool
  allocNext : Bool
  cdc : CdcResult
  built : Bool

namespace Module1State

variable (chunkSize : ℕ+) (s : Module1State)

/-- The bytes of the current chunk. -/
def used : Bytes := s.current.getD []

/-- `chunk_alloc`. -/
def chunkAlloc (available : Bool) : Option Module1State :=
  match s.current with
  | some _ => some s
  | none => if available then some { s with current := some [] } else none

/-- `process_chunk`. -/
def processChunk (built : Bool) : Module1State :=
  if s.used = [] then s
  else
    { current := none
      chunkTo := 0
      tlvPending := if built then s.tlvPending ++ [⟨s.used⟩] else s.tlvPending
      lookups := s.lookups ++ [⟨s.used, built⟩] }

/-- The byte is stored, and fed to the CDC engine. -/
def feed (b : UInt8) (c : ByteChoice) : Module1State :=
  let s := { s with current := some (s.used ++ [b]) }
  match c.cdc with
  | .boundary | .boundaryStrong | .boundaryMax => s.processChunk c.built
  | .cont => s

/-- The body of the inner loop of `module1_add_data`, and whether it went through. -/
def addByte (b : UInt8) (c : ByteChoice) : Module1State × Bool :=
  match s.chunkAlloc c.alloc with
  | none => (s, false)
  | some s =>
    if (chunkSize : ℕ) ≤ s.used.length then
      let s := s.processChunk c.builtFull
      match s.chunkAlloc c.allocNext with
      | none => (s, false)
      | some s => (s.feed b c, true)
    else (s.feed b c, true)

/-- The inner loop of `module1_add_data`, over the bytes of a segment. -/
def addBytes (choice : ℕ → ByteChoice) (s : Module1State) (total : ℕ) :
    Bytes → Module1State × ℕ × Bool
  | [] => (s, total, true)
  | b :: bs =>
    match s.addByte chunkSize b (choice total) with
    | (s, false) => (s, total, false)
    | (s, true) => addBytes choice s (total + 1) bs

/-- The outer loop of `module1_add_data`, over the segments. -/
def addSegs (choice : ℕ → ByteChoice) (s : Module1State) (total : ℕ) :
    List Bytes → Module1State × ℕ × Bool
  | [] => (s, total, true)
  | seg :: segs =>
    match addBytes chunkSize choice s total seg with
    | (s, total, false) => (s, total, false)
    | (s, total, true) => addSegs choice s total segs

/-- `module1_add_data`. -/
def addData (m : Option MbufChain) (choice : ℕ → ByteChoice) : Module1State × ℕ :=
  match m with
  | none => (s, 0)
  | some m =>
    match addSegs chunkSize choice s 0 m.segs with
    | (s, total, false) => (s, total % 2 ^ 32)
    | (s, total, true) =>
      if 0 < s.used.length ∧ s.chunkTo = 0 then
        ({ s with chunkTo := inactivityTicks }, total % 2 ^ 32)
      else (s, total % 2 ^ 32)

/-- `byte_caching_timer_check`. -/
def byteCachingTimerCheck (built : Bool) : Module1State :=
  if s.chunkTo = 0 then s
  else
    let s := { s with chunkTo := s.chunkTo - 1 }
    if s.chunkTo = 0 ∧ 0 < s.used.length then s.processChunk built else s

/-- `module1_flush`. -/
def flush (built : Bool) : Module1State :=
  if s.used.length ≠ 0 then s.processChunk built else s

/-- `module1_take_pending`. -/
def takePending : Module1State × List Tlv := ({ s with tlvPending := [] }, s.tlvPending)

/-- `module1_state_init`. -/
def init : Module1State := ⟨none, 0, [], []⟩

end Module1State

/-- A call on the state of a connection. -/
inductive Module1Call where
  | addData (m : Option MbufChain) (choice : ℕ → ByteChoice)
  | timerCheck (built : Bool)
  | flush (built : Bool)
  | takePending

/-- A connection: its state, the bytes that `module1_add_data` has counted, and the TLVs
taken. -/
structure Connection where
  state : Module1State
  received : Bytes
  taken : List Tlv

namespace Connection

/-- A connection after `module1_state_init`. -/
def start : Connection := ⟨.init, [], []⟩

/-- One call on the connection. -/
def step (chunkSize : ℕ+) (c : Connection) : Module1Call → Connection
  | .addData m choice =>
    let (s, total) := c.state.addData chunkSize m choice
    let bytes := match m with
      | none => []
      | some m => m.segs.flatten
    { c with state := s, received := c.received ++ bytes.take total }
  | .timerCheck built => { c with state := c.state.byteCachingTimerCheck built }
  | .flush built => { c with state := c.state.flush built }
  | .takePending =>
    let (s, tlvs) := c.state.takePending
    { c with state := s, taken := c.taken ++ tlvs }

/-- The counted bytes are those of the TLVs taken, of the TLVs pending and of the current
chunk, in order. -/
def NoByteLost (c : Connection) : Prop :=
  c.received = (c.taken ++ c.state.tlvPending).flatMap Tlv.payload ++ c.state.used

/-- Every chunk has between 1 and `CHUNK_SIZE` bytes. -/
def ChunksSized (chunkSize : ℕ+) (c : Connection) : Prop :=
  ∀ l ∈ c.state.lookups, 1 ≤ l.data.length ∧ l.data.length ≤ chunkSize

end Connection

namespace Module1State

variable {chunkSize : ℕ+} {s s' : Module1State}

/-- The bytes that went into chunks, and those of the current one. -/
def accepted (s : Module1State) : Bytes := s.lookups.flatMap Lookup.data ++ s.used

/-- The TLVs are those of the chunks that `module4` answered with one, and all chunks keep
to the size. -/
structure Accounted (chunkSize : ℕ+) (taken : List Tlv) (s : Module1State) : Prop where
  emitted : taken ++ s.tlvPending = (s.lookups.filter Lookup.built).map fun l => ⟨l.data⟩
  sized : ∀ l ∈ s.lookups, 1 ≤ l.data.length ∧ l.data.length ≤ chunkSize
  used_le : s.used.length ≤ chunkSize

variable {taken : List Tlv}

section ProcessChunk

@[simp] theorem used_processChunk (built : Bool) : (s.processChunk built).used = [] := by
  unfold processChunk
  split
  next h => exact h
  next => rfl

theorem accepted_processChunk (built : Bool) : (s.processChunk built).accepted = s.accepted := by
  unfold processChunk
  split
  · rfl
  · simp [accepted, used]

theorem Accounted.processChunk (h : s.Accounted chunkSize taken) (built : Bool) :
    (s.processChunk built).Accounted chunkSize taken := by
  unfold Module1State.processChunk
  split
  next => exact h
  next hused =>
    refine ⟨?_, ?_, Nat.zero_le _⟩
    · cases built <;> simp [← h.emitted, List.filter_append]
    · have hlength : 1 ≤ s.used.length := List.length_pos_iff.mpr hused
      rintro l hl
      rcases List.mem_append.mp hl with hl | hl
      · exact h.sized l hl
      · obtain rfl := List.mem_singleton.mp hl
        exact ⟨hlength, h.used_le⟩

end ProcessChunk

section AddByte

/-- An allocation gives an empty buffer, or keeps the one that is there. -/
theorem of_chunkAlloc {available : Bool} (h : s.chunkAlloc available = some s') :
    s'.used = s.used ∧ s'.lookups = s.lookups ∧ s'.tlvPending = s.tlvPending := by
  unfold chunkAlloc at h
  split at h
  · cases h
    exact ⟨rfl, rfl, rfl⟩
  next hcurrent =>
    split at h
    · cases h
      exact ⟨by simp [used, hcurrent], rfl, rfl⟩
    · cases h

theorem Accounted.congr (h : s.Accounted chunkSize taken)
    (hs : s'.used = s.used ∧ s'.lookups = s.lookups ∧ s'.tlvPending = s.tlvPending) :
    s'.Accounted chunkSize taken := by
  obtain ⟨hused, hlookups, hpending⟩ := hs
  exact ⟨by rw [hpending, hlookups, h.emitted], by rw [hlookups]; exact h.sized,
    by rw [hused]; exact h.used_le⟩

theorem accepted_congr
    (hs : s'.used = s.used ∧ s'.lookups = s.lookups ∧ s'.tlvPending = s.tlvPending) :
    s'.accepted = s.accepted := by
  rw [accepted, accepted, hs.1, hs.2.1]

theorem Accounted.feed (h : s.Accounted chunkSize taken) (hroom : s.used.length < chunkSize)
    (b : UInt8) (c : ByteChoice) : (s.feed b c).Accounted chunkSize taken := by
  have hstored : Accounted chunkSize taken { s with current := some (s.used ++ [b]) } := by
    refine ⟨h.emitted, h.sized, ?_⟩
    change (s.used ++ [b]).length ≤ _
    rw [List.length_append]
    exact hroom
  unfold Module1State.feed
  dsimp only
  split
  all_goals first | exact hstored.processChunk c.built | exact hstored

theorem accepted_feed (b : UInt8) (c : ByteChoice) :
    (s.feed b c).accepted = s.accepted ++ [b] := by
  have hstored : accepted { s with current := some (s.used ++ [b]) } = s.accepted ++ [b] := by
    simp [accepted, used]
  unfold feed
  dsimp only
  split
  all_goals first | rw [accepted_processChunk, hstored] | exact hstored

/-- **One byte.** It is accepted, or nothing is. -/
theorem Accounted.addByte (h : s.Accounted chunkSize taken) (b : UInt8) (c : ByteChoice) :
    (s.addByte chunkSize b c).1.Accounted chunkSize taken ∧
      (s.addByte chunkSize b c).1.accepted =
        s.accepted ++ if (s.addByte chunkSize b c).2 then [b] else [] := by
  unfold Module1State.addByte
  cases halloc : s.chunkAlloc c.alloc with
  | none => simpa using h
  | some s₁ =>
    have hsame := of_chunkAlloc halloc
    have h₁ := h.congr hsame
    have haccepted₁ := accepted_congr hsame
    dsimp only
    split
    next hfull =>
      have h₂ := h₁.processChunk c.builtFull
      have haccepted₂ := (accepted_processChunk (s := s₁) c.builtFull).trans haccepted₁
      cases hnext : (s₁.processChunk c.builtFull).chunkAlloc c.allocNext with
      | none => exact ⟨h₂, by simp [haccepted₂]⟩
      | some s₃ =>
        have hsame₃ := of_chunkAlloc hnext
        have hroom : s₃.used.length < chunkSize := by
          rw [hsame₃.1, used_processChunk]
          exact chunkSize.pos
        refine ⟨(h₂.congr hsame₃).feed hroom b c, ?_⟩
        rw [accepted_feed, accepted_congr hsame₃, haccepted₂]
        rfl
    next hroom =>
      refine ⟨h₁.feed (not_le.mp hroom) b c, ?_⟩
      rw [accepted_feed, haccepted₁]
      rfl

end AddByte

section AddData

variable (choice : ℕ → ByteChoice)

/-- **A segment.** The bytes counted are the first ones, all of them unless the loop stopped. -/
theorem Accounted.addBytes (h : s.Accounted chunkSize taken) (total : ℕ) (bs : Bytes) :
    (addBytes chunkSize choice s total bs).1.Accounted chunkSize taken ∧
      ∃ n ≤ bs.length, (addBytes chunkSize choice s total bs).2.1 = total + n ∧
        (addBytes chunkSize choice s total bs).1.accepted = s.accepted ++ bs.take n ∧
        ((addBytes chunkSize choice s total bs).2.2 = true → n = bs.length) := by
  induction bs generalizing s total with
  | nil => exact ⟨h, 0, Nat.le_refl 0, rfl, by simp [Module1State.addBytes], fun _ => rfl⟩
  | cons b bs ih =>
    obtain ⟨hbyte, haccepted⟩ := h.addByte b (choice total)
    unfold Module1State.addBytes
    cases hadd : s.addByte chunkSize b (choice total) with
    | mk s' went =>
      rw [hadd] at hbyte haccepted
      cases went with
      | false =>
        refine ⟨hbyte, 0, Nat.zero_le _, rfl, ?_, fun hfalse => nomatch hfalse⟩
        simpa using haccepted
      | true =>
        obtain ⟨hrest, n, hn, htotal, haccepted', hall⟩ := ih hbyte (total + 1)
        refine ⟨hrest, n + 1, Nat.succ_le_succ hn, by rw [htotal]; omega, ?_, fun hwent => ?_⟩
        · rw [haccepted', haccepted]
          simp
        · rw [hall hwent]
          rfl

/-- **A chain.** -/
theorem Accounted.addSegs (h : s.Accounted chunkSize taken) (total : ℕ) (segs : List Bytes) :
    (addSegs chunkSize choice s total segs).1.Accounted chunkSize taken ∧
      ∃ n ≤ segs.flatten.length, (addSegs chunkSize choice s total segs).2.1 = total + n ∧
        (addSegs chunkSize choice s total segs).1.accepted =
          s.accepted ++ segs.flatten.take n := by
  induction segs generalizing s total with
  | nil => exact ⟨h, 0, Nat.le_refl 0, rfl, by simp [Module1State.addSegs]⟩
  | cons seg segs ih =>
    obtain ⟨hseg, n, hn, htotal, haccepted, hall⟩ := h.addBytes choice total seg
    unfold Module1State.addSegs
    rw [List.flatten_cons, List.length_append]
    cases hadd : Module1State.addBytes chunkSize choice s total seg with
    | mk s' rest =>
      obtain ⟨total', went⟩ := rest
      rw [hadd] at hseg htotal haccepted hall
      cases went with
      | false =>
        refine ⟨hseg, n, Nat.le_add_right_of_le hn, htotal, ?_⟩
        rw [List.take_append_of_le_length hn]
        exact haccepted
      | true =>
        obtain rfl := hall rfl
        obtain ⟨hrest, k, hk, htotal', haccepted'⟩ := ih hseg total'
        refine ⟨hrest, seg.length + k, Nat.add_le_add_left hk _, ?_, ?_⟩
        · dsimp only at htotal
          rw [htotal', htotal]
          omega
        · rw [haccepted', haccepted, List.take_length_add_append]
          simp

/-- **`module1_add_data`.** What it counts is accepted, in order. -/
theorem Accounted.addData (h : s.Accounted chunkSize taken) (m : MbufChain) :
    (s.addData chunkSize (some m) choice).1.Accounted chunkSize taken ∧
      (s.addData chunkSize (some m) choice).1.accepted =
        s.accepted ++ m.segs.flatten.take (s.addData chunkSize (some m) choice).2 := by
  obtain ⟨hsegs, n, hn, htotal, haccepted⟩ := h.addSegs choice 0 m.segs
  have hmod : n % 2 ^ 32 = n := Nat.mod_eq_of_lt (Nat.lt_of_le_of_lt hn m.length_lt)
  unfold Module1State.addData
  dsimp only
  cases hadd : Module1State.addSegs chunkSize choice s 0 m.segs with
  | mk s' rest =>
    obtain ⟨total', went⟩ := rest
    rw [hadd] at hsegs htotal haccepted
    obtain rfl : total' = n := htotal.trans (Nat.zero_add n)
    cases went with
    | false =>
      dsimp only
      rw [hmod]
      exact ⟨hsegs, haccepted⟩
    | true =>
      dsimp only
      rw [hmod]
      split
      · exact ⟨hsegs.congr ⟨rfl, rfl, rfl⟩, haccepted⟩
      · exact ⟨hsegs, haccepted⟩

end AddData

theorem Accounted.byteCachingTimerCheck (h : s.Accounted chunkSize taken) (built : Bool) :
    (s.byteCachingTimerCheck built).Accounted chunkSize taken ∧
      (s.byteCachingTimerCheck built).accepted = s.accepted := by
  have hticked : Accounted chunkSize taken { s with chunkTo := s.chunkTo - 1 } :=
    h.congr ⟨rfl, rfl, rfl⟩
  unfold Module1State.byteCachingTimerCheck
  dsimp only
  split
  · exact ⟨h, rfl⟩
  split
  · exact ⟨hticked.processChunk built, accepted_processChunk built⟩
  · exact ⟨hticked, rfl⟩

theorem Accounted.flush (h : s.Accounted chunkSize taken) (built : Bool) :
    (s.flush built).Accounted chunkSize taken ∧ (s.flush built).accepted = s.accepted := by
  unfold Module1State.flush
  split
  · exact ⟨h.processChunk built, accepted_processChunk built⟩
  · exact ⟨h, rfl⟩

theorem Accounted.takePending (h : s.Accounted chunkSize taken) :
    s.takePending.1.Accounted chunkSize (taken ++ s.takePending.2) := by
  refine ⟨?_, h.sized, h.used_le⟩
  have htaken : taken ++ s.takePending.2 ++ s.takePending.1.tlvPending = taken ++ s.tlvPending :=
    List.append_nil _
  exact htaken.trans h.emitted

end Module1State

namespace Connection

variable {chunkSize : ℕ+}

/-- The account of a connection: what was counted was accepted. -/
structure Accounted (chunkSize : ℕ+) (c : Connection) : Prop where
  state : c.state.Accounted chunkSize c.taken
  received : c.received = c.state.accepted

theorem Accounted.start : start.Accounted chunkSize :=
  ⟨⟨rfl, by simp [Connection.start, Module1State.init], Nat.zero_le _⟩, rfl⟩

/-- **One call** keeps the account. -/
theorem Accounted.step {c : Connection} (h : c.Accounted chunkSize) (call : Module1Call) :
    (c.step chunkSize call).Accounted chunkSize := by
  obtain ⟨hstate, hreceived⟩ := h
  cases call with
  | addData m choice =>
    cases m with
    | none => exact ⟨hstate, by simpa [Connection.step, Module1State.addData] using hreceived⟩
    | some m =>
      obtain ⟨hadded, haccepted⟩ := hstate.addData choice m
      rw [← hreceived] at haccepted
      exact ⟨hadded, haccepted.symm⟩
  | timerCheck built =>
    obtain ⟨hchecked, haccepted⟩ := hstate.byteCachingTimerCheck built
    exact ⟨hchecked, hreceived.trans haccepted.symm⟩
  | flush built =>
    obtain ⟨hflushed, haccepted⟩ := hstate.flush built
    exact ⟨hflushed, hreceived.trans haccepted.symm⟩
  | takePending => exact ⟨hstate.takePending, hreceived⟩

/-- The bytes of the chunks that were answered are those of all chunks only if all were
answered: no chunk is empty. -/
theorem flatMap_filter_built_iff {ls : List Lookup} (hsized : ∀ l ∈ ls, 1 ≤ l.data.length) :
    (ls.filter Lookup.built).flatMap Lookup.data = ls.flatMap Lookup.data ↔
      ∀ l ∈ ls, l.built = true := by
  constructor
  · intro heq
    induction ls with
    | nil => simp
    | cons l ls ih =>
      obtain ⟨hl, hls⟩ := List.forall_mem_cons.mp hsized
      have hshorter : ((ls.filter Lookup.built).flatMap Lookup.data).length ≤
          (ls.flatMap Lookup.data).length :=
        ((List.filter_sublist).flatMap Lookup.data).length_le
      cases hbuilt : l.built with
      | false =>
        rw [List.filter_cons_of_neg (by simp [hbuilt]), List.flatMap_cons] at heq
        have hlength := congrArg List.length heq
        rw [List.length_append] at hlength
        omega
      | true =>
        rw [List.filter_cons_of_pos hbuilt, List.flatMap_cons, List.flatMap_cons] at heq
        exact List.forall_mem_cons.mpr ⟨hbuilt, ih hls (List.append_cancel_left heq)⟩
  · intro hall
    rw [List.filter_eq_self.mpr hall]

/-- In an account that is kept, nothing is lost exactly when every chunk was answered. -/
theorem Accounted.noByteLost_iff {c : Connection} (h : c.Accounted chunkSize) :
    c.NoByteLost ↔ ∀ l ∈ c.state.lookups, l.built = true := by
  rw [← flatMap_filter_built_iff fun l hl => (h.state.sized l hl).1, NoByteLost, h.received,
    h.state.emitted, Module1State.accepted, List.append_left_inj, List.flatMap_map]
  exact eq_comm

/-- **Every sequence of calls.** Every chunk keeps to the size, and no byte is lost, exactly
when every call of `module4_lookup_and_build_tlv` answered with an mbuf. -/
theorem chunker_conserves_iff (chunkSize : ℕ+) (calls : List Module1Call) :
    let c := Runs.run (step chunkSize) start calls
    c.NoByteLost ∧ c.ChunksSized chunkSize ↔ ∀ l ∈ c.state.lookups, l.built = true := by
  intro c
  have haccounted : c.Accounted chunkSize :=
    Runs.run_invariant (step chunkSize) (fun _ call h => h.step call) Accounted.start calls
  rw [haccounted.noByteLost_iff]
  exact and_iff_left haccounted.state.sized

/-- One byte arrives, is flushed, and `module4` has no mbuf for it. -/
theorem flushed_byte_lost :
    ¬∀ calls, let c := Runs.run (step 4096) start calls
      c.NoByteLost ∧ c.ChunksSized 4096 := by
  intro h
  have hlost := (h [.addData (some ⟨[[7]], by decide⟩) (fun _ => ⟨true, true, true, .cont, true⟩),
    .flush false]).1
  have hreceived : ([7] : Bytes) = [] := hlost
  exact absurd hreceived (by decide)

end Connection

end SecureWan.ByteCache
