import SecureWan.Lib.Runs
import Mathlib.Data.List.Range
import Mathlib.Logic.Function.Iterate

/-!
# Two lcores and one pending list

The timer of `app_thread.c` and the data path of a socket both drain `tlv_pending` of a
connection. The data path detaches the list under the lock of `module1.c`; the timer reads
the pointer, passes the chain to `tcp_usr_send` and clears the pointer, each without the lock.
The chunks made under the lock, and the order of all steps, are choices.
-/

namespace SecureWan.ByteCache

/-- Where the timer is in its drain of the connection. -/
inductive TimerPc where
  | idle
  /-- `byte_caching_timer_check` has returned. -/
  | checked
  /-- `tlv_pending` was not NULL. -/
  | tested
  /-- `tlv_pending` was read as the argument of `tcp_usr_send`. -/
  | loaded (head : Option ℕ)
  /-- The chain was passed, or freed, and `tlv_pending` is still to be cleared. -/
  | done (head : Option ℕ)

/-- Where the data path is. -/
inductive DataPc where
  | idle
  /-- `module1_add_data` has returned. -/
  | added
  /-- `module1_take_pending` has returned a chain. -/
  | taken (head : Option ℕ)

/-- A connection shared by two lcores. TLVs have the number of their production; `chain` is
what `m_next` links behind a TLV that heads a chain, with the TLV itself. -/
structure Shared where
  produced : ℕ
  tlvPending : Option ℕ
  chain : ℕ → List ℕ
  timer : TimerPc
  data : DataPc
  /-- The TLVs passed to `tcp_usr_send`. -/
  passed : List ℕ
  /-- The TLVs of the chains passed to `m_freem`. -/
  freed : List ℕ

/-- A step of one of the lcores, with what is decided in it. -/
inductive LcoreStep where
  /-- The timer: whether its check makes a TLV, and whether the peer has a socket. -/
  | timer (built peer : Bool)
  /-- The data path: how many TLVs its data makes. -/
  | data (chunks : ℕ)

namespace Shared

variable (s : Shared)

/-- The end of `process_chunk`: the new TLV is linked to the end of the pending chain. -/
def processChunk : Shared :=
  match s.tlvPending with
  | none =>
    { s with
      produced := s.produced + 1
      tlvPending := some s.produced
      chain := Function.update s.chain s.produced [s.produced] }
  | some head =>
    { s with
      produced := s.produced + 1
      chain := Function.update s.chain head (s.chain head ++ [s.produced]) }

/-- The chain behind a pointer. -/
def chainOf (head : Option ℕ) : List ℕ := head.elim [] s.chain

/-- `tcp_usr_send` of a chain. -/
def tcpUsrSend (head : Option ℕ) : Shared := { s with passed := s.passed ++ s.chainOf head }

/-- `m_freem` of a chain. -/
def mFreem (head : Option ℕ) : Shared := { s with freed := s.freed ++ s.chainOf head }

/-- One step: the timer drain and the data path, each going round in its own order. -/
def step : LcoreStep → Shared
  | .timer built peer =>
    match s.timer with
    | .idle => { (if built then s.processChunk else s) with timer := .checked }
    | .checked => { s with timer := if s.tlvPending = none then .idle else .tested }
    | .tested => { s with timer := .loaded s.tlvPending }
    | .loaded head =>
      { (if peer then s.tcpUsrSend head else s.mFreem head) with timer := .done head }
    | .done _ => { s with tlvPending := none, timer := .idle }
  | .data chunks =>
    match s.data with
    | .idle => { processChunk^[chunks] s with data := .added }
    | .added => { s with tlvPending := none, data := .taken s.tlvPending }
    | .taken head => { s.tcpUsrSend head with data := .idle }

/-- A connection before any data. -/
def start : Shared := ⟨0, none, fun _ => [], .idle, .idle, [], []⟩

/-- The chain that the timer has read. -/
def timerChain : List ℕ :=
  match s.timer with
  | .loaded head => s.chainOf head
  | _ => []

/-- The chain that the data path has taken. -/
def dataChain : List ℕ :=
  match s.data with
  | .taken head => s.chainOf head
  | _ => []

/-- The TLV is pending, or an lcore is about to pass it. -/
def OnTheWay (i : ℕ) : Prop :=
  i ∈ s.chainOf s.tlvPending ∨ i ∈ s.timerChain ∨ i ∈ s.dataChain

/-- The TLVs passed are the first ones produced, each once and in order, and the others
are on their way; the memory of none was given back. -/
structure InOrder : Prop where
  passed : s.passed = List.range s.passed.length
  way : ∀ i < s.produced, i ∈ s.passed ∨ s.OnTheWay i
  freed : s.freed = []

/-- The chain behind a pointer to it: a run of TLVs in the order of their production. -/
structure Chained (s : Shared) (head : ℕ) : Prop where
  eq_range' : s.chain head = List.range' head (s.chain head).length
  pos : 0 < (s.chain head).length
  le_produced : head + (s.chain head).length ≤ s.produced

/-- How the pointers and chains lie in any interleaving. -/
structure Linked (s : Shared) : Prop where
  pending : ∀ head, s.tlvPending = some head → s.Chained head
  timer : ∀ head, s.timer = .loaded (some head) → s.Chained head
  data : ∀ head, s.data = .taken (some head) → s.Chained head
  /-- The pending chain ends with the latest TLV. -/
  latest : ∀ head, s.tlvPending = some head → head + (s.chain head).length = s.produced
  /-- What the data path has taken is older than what is pending. -/
  older : ∀ head taken, s.tlvPending = some head → s.data = .taken (some taken) →
    taken + (s.chain taken).length ≤ head
  /-- What the timer has read is pending, or the data path has taken it, or passed it. -/
  read : ∀ head, s.timer = .loaded (some head) →
    s.tlvPending = some head ∨ s.data = .taken (some head) ∨ ∀ i ∈ s.chain head, i ∈ s.passed

variable {s : Shared}

theorem Chained.mem_iff {head i : ℕ} (h : s.Chained head) :
    i ∈ s.chain head ↔ head ≤ i ∧ i < head + (s.chain head).length := by
  rw [h.eq_range', List.mem_range'_1, List.length_range']

/-- A chain is behind its pointer as long as the memory stays. -/
theorem Chained.congr {s' : Shared} {head : ℕ} (h : s.Chained head) (hchain : s'.chain = s.chain)
    (hproduced : s'.produced = s.produced) : s'.Chained head := by
  refine ⟨?_, ?_, ?_⟩
  · rw [hchain]
    exact h.eq_range'
  · rw [hchain]
    exact h.pos
  · rw [hchain, hproduced]
    exact h.le_produced

/-- What the timer is about to pass is behind the pointer that it has read. -/
theorem mem_timerChain {i : ℕ} :
    i ∈ s.timerChain ↔ ∃ head, s.timer = .loaded (some head) ∧ i ∈ s.chain head := by
  constructor
  · intro hi
    unfold timerChain at hi
    split at hi
    next pointer hloaded =>
      cases pointer with
      | none => cases hi
      | some head => exact ⟨head, hloaded, hi⟩
    next => cases hi
  · rintro ⟨head, hloaded, hi⟩
    rw [timerChain, hloaded]
    exact hi

/-- What the data path is about to pass is behind the pointer that it has taken. -/
theorem mem_dataChain {i : ℕ} :
    i ∈ s.dataChain ↔ ∃ head, s.data = .taken (some head) ∧ i ∈ s.chain head := by
  constructor
  · intro hi
    unfold dataChain at hi
    split at hi
    next pointer htaken =>
      cases pointer with
      | none => cases hi
      | some head => exact ⟨head, htaken, hi⟩
    next => cases hi
  · rintro ⟨head, htaken, hi⟩
    rw [dataChain, htaken]
    exact hi

section ProcessChunk

/-- `process_chunk` appends to the pending chain, or starts one. -/
theorem processChunk_eq (s : Shared) :
    s.processChunk = { s with
      produced := s.produced + 1
      tlvPending := some (s.tlvPending.getD s.produced)
      chain := Function.update s.chain (s.tlvPending.getD s.produced)
        (s.chainOf s.tlvPending ++ [s.produced]) } := by
  unfold processChunk
  cases h : s.tlvPending <;> rfl

theorem produced_processChunk (s : Shared) : s.processChunk.produced = s.produced + 1 := by
  rw [processChunk_eq]

theorem tlvPending_processChunk (s : Shared) :
    s.processChunk.tlvPending = some (s.tlvPending.getD s.produced) := by
  rw [processChunk_eq]

/-- The pending chain after `process_chunk`. -/
theorem chain_processChunk_self (s : Shared) :
    s.processChunk.chain (s.tlvPending.getD s.produced) =
      s.chainOf s.tlvPending ++ [s.produced] := by
  rw [processChunk_eq]
  exact Function.update_self _ _ _

/-- `process_chunk` changes neither lcore, passes nothing and frees nothing. -/
theorem processChunk_frame (s : Shared) :
    s.processChunk.timer = s.timer ∧ s.processChunk.data = s.data ∧
      s.processChunk.passed = s.passed ∧ s.processChunk.freed = s.freed := by
  rw [processChunk_eq]
  exact ⟨rfl, rfl, rfl, rfl⟩

/-- The head of the pending chain after `process_chunk`. -/
theorem Linked.chain_processChunk (h : s.Linked) :
    s.chainOf s.tlvPending ++ [s.produced] =
      List.range' (s.tlvPending.getD s.produced)
        ((s.chainOf s.tlvPending).length + 1) ∧
    s.tlvPending.getD s.produced + ((s.chainOf s.tlvPending).length + 1) = s.produced + 1 := by
  cases hpending : s.tlvPending with
  | none => exact ⟨rfl, rfl⟩
  | some head =>
    have hchain := (h.pending head hpending).eq_range'
    have hlatest := h.latest head hpending
    change s.chain head ++ [s.produced] = List.range' head ((s.chain head).length + 1) ∧
      head + ((s.chain head).length + 1) = s.produced + 1
    rw [List.range'_1_concat, hlatest, ← hchain, ← Nat.add_assoc, hlatest]
    exact ⟨rfl, rfl⟩

/-- A chain that is not the pending one stays as it is. -/
theorem Chained.processChunk {head : ℕ} (h : s.Chained head)
    (hne : s.tlvPending ≠ some head) :
    s.processChunk.Chained head ∧ s.processChunk.chain head = s.chain head := by
  have hkept : s.processChunk.chain head = s.chain head := by
    rw [processChunk_eq]
    refine Function.update_of_ne ?_ _ _
    have hlt : head < s.produced := Nat.lt_of_lt_of_le (Nat.lt_add_of_pos_right h.pos) h.le_produced
    cases hpending : s.tlvPending with
    | none =>
      rw [Option.getD_none]
      omega
    | some head' =>
      rw [Option.getD_some]
      rintro rfl
      exact hne hpending
  have hproduced := s.produced_processChunk
  refine ⟨⟨?_, ?_, ?_⟩, hkept⟩
  · rw [hkept]
    exact h.eq_range'
  · rw [hkept]
    exact h.pos
  · rw [hkept, hproduced]
    exact Nat.le_succ_of_le h.le_produced

theorem Linked.processChunk (h : s.Linked) : s.processChunk.Linked := by
  obtain ⟨hrange, hend⟩ := h.chain_processChunk
  have hnew := s.chain_processChunk_self
  have hnewLength : (s.processChunk.chain (s.tlvPending.getD s.produced)).length =
      (s.chainOf s.tlvPending).length + 1 := by
    rw [hnew, List.length_append]
    rfl
  have hproduced := s.produced_processChunk
  have hpending := s.tlvPending_processChunk
  obtain ⟨htimer, hdata, hpassed, _⟩ := s.processChunk_frame
  have hhead : s.processChunk.Chained (s.tlvPending.getD s.produced) := by
    refine ⟨?_, ?_, ?_⟩
    · rw [hnewLength, hnew, hrange]
    · rw [hnewLength]
      exact Nat.succ_pos _
    · rw [hnewLength, hproduced, hend]
  have hchained (head : ℕ) (hold : s.Chained head) : s.processChunk.Chained head := by
    by_cases heq : s.tlvPending = some head
    · rw [heq] at hhead
      exact hhead
    · exact (hold.processChunk heq).1
  refine ⟨fun head hsome => ?_, fun head hloaded => ?_, fun head htaken => ?_, fun head hsome => ?_,
    fun head taken hsome htaken => ?_, fun head hloaded => ?_⟩
  · obtain rfl := Option.some.inj (hpending.symm.trans hsome)
    exact hhead
  · exact hchained head (h.timer head (htimer ▸ hloaded))
  · exact hchained head (h.data head (hdata ▸ htaken))
  · obtain rfl := Option.some.inj (hpending.symm.trans hsome)
    rw [hnewLength, hproduced, hend]
  · obtain rfl := Option.some.inj (hpending.symm.trans hsome)
    have hold := h.data taken (hdata ▸ htaken)
    cases hp : s.tlvPending with
    | none =>
      rw [(hold.processChunk (by simp [hp])).2, Option.getD_none]
      exact hold.le_produced
    | some head =>
      have holder := h.older head taken hp (hdata ▸ htaken)
      have hne : s.tlvPending ≠ some taken := by
        rw [hp]
        rintro heq
        obtain rfl := Option.some.inj heq
        have := hold.pos
        omega
      rw [(hold.processChunk hne).2, Option.getD_some]
      exact holder
  · rw [htimer] at hloaded
    rw [hdata, hpassed]
    by_cases heq : s.tlvPending = some head
    · left
      rw [hpending, heq]
      rfl
    · right
      rcases h.read head hloaded with hp | hd | hall
      · exact absurd hp heq
      · exact .inl hd
      · right
        rw [((h.timer head hloaded).processChunk heq).2]
        exact hall

end ProcessChunk

section Step

theorem Linked.start : start.Linked where
  pending := fun _ h => nomatch h
  timer := fun _ h => nomatch h
  data := fun _ h => nomatch h
  latest := fun _ h => nomatch h
  older := fun _ _ h => nomatch h
  read := fun _ h => nomatch h

/-- Several chunks in a row. -/
theorem Linked.processChunks (h : s.Linked) (chunks : ℕ) :
    (Shared.processChunk^[chunks] s).Linked := by
  induction chunks with
  | zero => exact h
  | succ chunks ih =>
    rw [Function.iterate_succ_apply']
    exact ih.processChunk

/-- Chunks change neither lcore, and pass and free nothing. -/
theorem processChunks_frame (s : Shared) (chunks : ℕ) :
    (processChunk^[chunks] s).timer = s.timer ∧ (processChunk^[chunks] s).data = s.data ∧
      (processChunk^[chunks] s).passed = s.passed ∧ (processChunk^[chunks] s).freed = s.freed := by
  induction chunks with
  | zero => exact ⟨rfl, rfl, rfl, rfl⟩
  | succ chunks ih =>
    obtain ⟨htimer, hdata, hpassed, hfreed⟩ := (processChunk^[chunks] s).processChunk_frame
    rw [Function.iterate_succ_apply', htimer, hdata, hpassed, hfreed]
    exact ih

/-- The timer goes on without a chain in hand. -/
theorem Linked.setTimer (h : s.Linked) {pc : TimerPc} (hpc : ∀ head, pc ≠ .loaded (some head))
    (passed freed : List ℕ) : Linked { s with timer := pc, passed := passed, freed := freed } where
  pending := fun head hp => (h.pending head hp).congr rfl rfl
  timer := fun head hloaded => absurd hloaded (hpc head)
  data := fun head hd => (h.data head hd).congr rfl rfl
  latest := h.latest
  older := h.older
  read := fun head hloaded => absurd hloaded (hpc head)

theorem Linked.stepTimer (h : s.Linked) (built peer : Bool) :
    (s.step (.timer built peer)).Linked := by
  unfold step
  dsimp only
  cases htimer : s.timer with
  | idle =>
    have hmade : (if built then s.processChunk else s).Linked := by
      cases built with
      | true => exact h.processChunk
      | false => exact h
    dsimp only
    exact hmade.setTimer (by simp) _ _
  | checked =>
    refine h.setTimer (fun head => ?_) s.passed s.freed
    split
    · exact fun h => nomatch h
    · exact fun h => nomatch h
  | tested =>
    refine ⟨?_, ?_, ?_, h.latest, h.older, ?_⟩
    · exact fun head hp => (h.pending head hp).congr rfl rfl
    · intro head hloaded
      have hp : s.tlvPending = some head := TimerPc.loaded.inj hloaded
      exact (h.pending head hp).congr rfl rfl
    · exact fun head hd => (h.data head hd).congr rfl rfl
    · exact fun head hloaded => .inl (TimerPc.loaded.inj hloaded)
  | loaded head =>
    cases peer with
    | true => exact h.setTimer (by simp) (s.passed ++ s.chainOf head) s.freed
    | false => exact h.setTimer (by simp) s.passed (s.freed ++ s.chainOf head)
  | done head =>
    dsimp only
    refine ⟨nofun, nofun, ?_, nofun, nofun, nofun⟩
    exact fun head hd => (h.data head hd).congr rfl rfl

theorem Linked.stepData (h : s.Linked) (chunks : ℕ) : (s.step (.data chunks)).Linked := by
  unfold step
  dsimp only
  cases hdata : s.data with
  | idle =>
    have hmade := h.processChunks chunks
    obtain ⟨_, hidle, _⟩ := processChunks_frame s chunks
    rw [hdata] at hidle
    dsimp only
    refine ⟨?_, ?_, nofun, hmade.latest, nofun, ?_⟩
    · exact fun head hp =>
        (hmade.pending head hp).congr rfl rfl
    · exact fun head hl =>
        (hmade.timer head hl).congr rfl rfl
    · intro head hloaded
      rcases hmade.read head hloaded with hp | hd | hall
      · exact .inl hp
      · rw [hidle] at hd
        cases hd
      · exact .inr (.inr hall)
  | added =>
    dsimp only
    refine ⟨nofun, ?_, ?_, nofun, nofun, ?_⟩
    · exact fun head hl => (h.timer head hl).congr rfl rfl
    · intro head htaken
      have hp : s.tlvPending = some head := DataPc.taken.inj htaken
      exact (h.pending head hp).congr rfl rfl
    · intro head hloaded
      rcases h.read head hloaded with hp | hd | hall
      · exact .inr (.inl (congrArg DataPc.taken hp))
      · rw [hdata] at hd
        cases hd
      · exact .inr (.inr hall)
  | taken head =>
    dsimp only
    refine ⟨?_, ?_, nofun, h.latest, nofun, ?_⟩
    · exact fun head hp => (h.pending head hp).congr rfl rfl
    · exact fun head hl => (h.timer head hl).congr rfl rfl
    · intro head' hloaded
      rcases h.read head' hloaded with hp | hd | hall
      · exact .inl hp
      · rw [hdata] at hd
        obtain rfl := DataPc.taken.inj hd
        exact .inr (.inr fun i hi => List.mem_append_right _ hi)
      · exact .inr (.inr fun i hi => List.mem_append_left _ (hall i hi))

/-- **One step** keeps the chains linked, in any interleaving. -/
theorem Linked.step (h : s.Linked) (e : LcoreStep) : (s.step e).Linked := by
  cases e with
  | timer built peer => exact h.stepTimer built peer
  | data chunks => exact h.stepData chunks

end Step

section Order

variable {s' : Shared}

theorem InOrder.mem_passed_iff (h : s.InOrder) {i : ℕ} : i ∈ s.passed ↔ i < s.passed.length := by
  have hmem : i ∈ s.passed ↔ i ∈ List.range s.passed.length := by rw [← h.passed]
  rw [hmem, List.mem_range]

/-- A run of numbers behind the first ones continues them only if it starts where they end. -/
theorem range_append_range'_iff {l n k : ℕ} (hk : 0 < k) :
    List.range l ++ List.range' n k = List.range (l + k) ↔ n = l := by
  constructor
  · intro h
    have hat : (List.range l ++ List.range' n k)[l]? = (List.range (l + k))[l]? := by rw [h]
    rw [List.getElem?_append_right (by simp), List.getElem?_range (by omega)] at hat
    simpa [List.getElem?_range', hk] using hat
  · rintro rfl
    have happend := List.range'_append_1 (s := 0) (m := n) (n := k)
    rwa [Nat.zero_add, ← List.range_eq_range', ← List.range_eq_range'] at happend

theorem InOrder.start : start.InOrder := ⟨rfl, fun _ hi => (nomatch hi), rfl⟩

/-- Nothing is passed or freed, and what is on the way stays there. -/
theorem InOrder.mono (h : s.InOrder) (hpassed : s'.passed = s.passed) (hfreed : s'.freed = s.freed)
    (hproduced : s'.produced = s.produced)
    (hway : ∀ i, s.OnTheWay i → i ∈ s.passed ∨ s'.OnTheWay i) : s'.InOrder := by
  refine ⟨by rw [hpassed]; exact h.passed, fun i hi => ?_, hfreed.trans h.freed⟩
  rw [hpassed]
  rcases h.way i (hproduced ▸ hi) with hp | hw
  · exact .inl hp
  · exact hway i hw

/-- A chain is passed: this keeps the order exactly when the chain is the next one. -/
theorem InOrder.pass_iff (h : s.InOrder) {head : ℕ} (hchain : s.Chained head)
    (hpassed : s'.passed = s.passed ++ s.chain head) (hfreed : s'.freed = s.freed)
    (hproduced : s'.produced = s.produced)
    (hway : ∀ i, s.OnTheWay i → i ∈ s.chain head ∨ s'.OnTheWay i) :
    s'.InOrder ↔ head = s.passed.length := by
  have hrange : s'.passed = List.range s'.passed.length ↔ head = s.passed.length := by
    rw [hpassed, List.length_append, ← range_append_range'_iff hchain.pos, ← hchain.eq_range',
      ← h.passed]
  constructor
  · intro hafter
    exact hrange.mp hafter.passed
  · intro hnext
    refine ⟨hrange.mpr hnext, fun i hi => ?_, hfreed.trans h.freed⟩
    rw [hpassed, List.mem_append]
    rcases h.way i (hproduced ▸ hi) with hp | hw
    · exact .inl (.inl hp)
    · rcases hway i hw with hc | hw'
      · exact .inl (.inr hc)
      · exact .inr hw'

theorem Chained.head_mem {head : ℕ} (h : s.Chained head) : head ∈ s.chain head :=
  h.mem_iff.mpr ⟨Nat.le_refl _, Nat.lt_add_of_pos_right h.pos⟩

/-- A TLV of the pending chain is not older than what the data path has taken. -/
theorem Linked.taken_lt_of_mem_pending (h : s.Linked) {taken i : ℕ}
    (hd : s.data = .taken (some taken)) (hi : i ∈ s.chainOf s.tlvPending) :
    taken + (s.chain taken).length ≤ i := by
  cases hp : s.tlvPending with
  | none =>
    rw [hp] at hi
    cases hi
  | some head =>
    rw [hp] at hi
    exact Nat.le_trans (h.older head taken hp hd) ((h.pending head hp).mem_iff.mp hi).1

/-- What is on its way starts with the oldest TLV that was not passed. -/
theorem InOrder.eq_next (h : s.InOrder) {head : ℕ} (hchain : s.Chained head)
    (hle : s.passed.length ≤ head) (hway : ∀ i, s.OnTheWay i → head ≤ i) :
    head = s.passed.length := by
  by_contra hne
  have hlt : s.passed.length < head := by omega
  have hproduced : head < s.produced :=
    Nat.lt_of_lt_of_le (Nat.lt_add_of_pos_right hchain.pos) hchain.le_produced
  rcases h.way s.passed.length (Nat.lt_trans hlt hproduced) with hp | hw
  · exact absurd (h.mem_passed_iff.mp hp) (Nat.lt_irrefl _)
  · exact absurd (hway _ hw) (Nat.not_le_of_lt hlt)

/-- A TLV that was passed is not passed again. -/
theorem not_inOrder_of_repass {head : ℕ} (hold : head ∈ s.passed) (hchain : s.Chained head)
    (hpassed : s'.passed = s.passed ++ s.chain head) : ¬s'.InOrder := by
  intro h
  have hnodup : s'.passed.Nodup := by
    rw [h.passed]
    exact List.nodup_range
  rw [hpassed] at hnodup
  exact (List.nodup_append.mp hnodup).2.2 head hold head hchain.head_mem rfl

/-- What `process_chunk` makes is pending. -/
theorem InOrder.processChunk (h : s.InOrder) (hl : s.Linked) : s.processChunk.InOrder := by
  obtain ⟨htimer, hdata, hpassed, hfreed⟩ := s.processChunk_frame
  have hpending : s.processChunk.chainOf s.processChunk.tlvPending =
      s.chainOf s.tlvPending ++ [s.produced] := by
    rw [s.tlvPending_processChunk]
    exact s.chain_processChunk_self
  have hkept {head i : ℕ} (hchain : s.Chained head) (hi : i ∈ s.chain head) :
      i ∈ s.chainOf s.tlvPending ∨ i ∈ s.processChunk.chain head := by
    by_cases heq : s.tlvPending = some head
    · left
      rw [heq]
      exact hi
    · right
      rw [(hchain.processChunk heq).2]
      exact hi
  refine ⟨by rw [hpassed]; exact h.passed, fun i hi => ?_, hfreed.trans h.freed⟩
  rw [hpassed]
  have hproduced := s.produced_processChunk
  rw [hproduced] at hi
  rcases Nat.lt_succ_iff_lt_or_eq.mp hi with hold | rfl
  · rcases h.way i hold with hp | hw | ht | hd
    · exact .inl hp
    · exact .inr (.inl (hpending ▸ List.mem_append_left _ hw))
    · obtain ⟨head, hloaded, hmem⟩ := mem_timerChain.mp ht
      rcases hkept (hl.timer head hloaded) hmem with hw | hw
      · exact .inr (.inl (hpending ▸ List.mem_append_left _ hw))
      · exact .inr (.inr (.inl (mem_timerChain.mpr ⟨head, htimer.trans hloaded, hw⟩)))
    · obtain ⟨head, htaken, hmem⟩ := mem_dataChain.mp hd
      rcases hkept (hl.data head htaken) hmem with hw | hw
      · exact .inr (.inl (hpending ▸ List.mem_append_left _ hw))
      · exact .inr (.inr (.inr (mem_dataChain.mpr ⟨head, hdata.trans htaken, hw⟩)))
  · exact .inr (.inl (hpending ▸ List.mem_append_right _ (List.mem_singleton_self _)))

theorem InOrder.processChunks (h : s.InOrder) (hl : s.Linked) (chunks : ℕ) :
    (Shared.processChunk^[chunks] s).InOrder := by
  induction chunks with
  | zero => exact h
  | succ chunks ih =>
    rw [Function.iterate_succ_apply']
    exact ih.processChunk (hl.processChunks chunks)

/-- The timer without a chain in hand goes on to another such point. -/
theorem InOrder.setTimer (h : s.InOrder) (hold : s.timerChain = []) (pc : TimerPc) :
    InOrder { s with timer := pc } := by
  refine h.mono rfl rfl rfl fun i hi => .inr ?_
  rcases hi with hp | ht | hd
  · exact .inl hp
  · rw [hold] at ht
    cases ht
  · exact .inr (.inr hd)

theorem InOrder.setData (h : s.InOrder) (hold : s.dataChain = []) (pc : DataPc) :
    InOrder { s with data := pc } := by
  refine h.mono rfl rfl rfl fun i hi => .inr ?_
  rcases hi with hp | ht | hd
  · exact .inl hp
  · exact .inr (.inl ht)
  · rw [hold] at hd
    cases hd

/-- The timer can clear a list of which every TLV has been passed. -/
theorem InOrder.clear_iff (h : s.InOrder) (hl : s.Linked) {sent : Option ℕ}
    (htimer : s.timer = .done sent) :
    InOrder { s with tlvPending := none, timer := .idle } ↔
      ∀ i ∈ s.chainOf s.tlvPending, i ∈ s.passed := by
  constructor
  · intro hafter i hi
    cases hp : s.tlvPending with
    | none =>
      rw [hp] at hi
      cases hi
    | some head =>
      rw [hp] at hi
      have hin := (hl.pending head hp).mem_iff.mp hi
      have hproduced : i < s.produced := Nat.lt_of_lt_of_le hin.2 (hl.pending head hp).le_produced
      rcases hafter.way i hproduced with hpassed | hway | ht | hd
      · exact hpassed
      · cases hway
      · cases ht
      · -- what the data path holds is older than the pending chain
        change i ∈ s.dataChain at hd
        obtain ⟨taken, htaken, hmem⟩ := mem_dataChain.mp hd
        have holder := hl.older head taken hp htaken
        have hlt := ((hl.data taken htaken).mem_iff.mp hmem).2
        omega
  · intro hall
    refine h.mono rfl rfl rfl fun i hi => ?_
    rcases hi with hp | ht | hd
    · exact .inl (hall i hp)
    · rw [timerChain, htimer] at ht
      cases ht
    · exact .inr (.inr (.inr hd))

/-- The timer passes the chain that it has read. -/
theorem InOrder.timerSend_iff (h : s.InOrder) (hl : s.Linked) {head : ℕ}
    (ht : s.timer = .loaded (some head)) :
    InOrder { s.tcpUsrSend (some head) with timer := .done (some head) } ↔
      head = s.passed.length := by
  refine h.pass_iff (hl.timer head ht) rfl rfl rfl ?_
  rintro i (hp | hw | hd)
  · exact .inr (.inl hp)
  · rw [timerChain, ht] at hw
    exact .inl hw
  · exact .inr (.inr (.inr hd))

/-- The data path passes the chain that it has taken. -/
theorem InOrder.dataSend_iff (h : s.InOrder) (hl : s.Linked) {head : ℕ}
    (hd : s.data = .taken (some head)) :
    InOrder { s.tcpUsrSend (some head) with data := .idle } ↔ head = s.passed.length := by
  refine h.pass_iff (hl.data head hd) rfl rfl rfl ?_
  rintro i (hp | hw | hd')
  · exact .inr (.inl hp)
  · exact .inr (.inr (.inl hw))
  · rw [dataChain, hd] at hd'
    exact .inl hd'

end Order

end Shared

end SecureWan.ByteCache
