import SecureWan.WanOptimizer.QosPipeline
import Mathlib.Data.Nat.ModEq

/-!
# Progress behind a port

The worker waits for room on the second ring, and the TX thread takes `qos_dequeue` frames from
this ring or none. So the threads can wait for each other, unless the ring is large enough; and
the last frames stay on the ring when no more come.
-/

namespace SecureWan.WanOptimizer

namespace Pipeline

variable {α κ : Type*} [DecidableEq κ] {key : α → κ} {conf : BurstConf} {s s' : Pipeline α κ}

/-! ### `m_table` and the sizes of the bursts -/

/-- What is bounded in every state. -/
structure Bounded (conf : BurstConf) (s : Pipeline α κ) : Prop where
  txRing_le : s.txRing.length ≤ conf.txRingSize
  pushing_le : s.pushing.length ≤ conf.qosDequeue
  mTable_lt : 0 < conf.txBurst → s.mTable.length < conf.txBurst

omit [DecidableEq κ] in
theorem bounded_start : Bounded conf (start : Pipeline α κ) where
  txRing_le := Nat.zero_le _
  pushing_le := Nat.zero_le _
  mTable_lt hpos := hpos

theorem Bounded.workerStep (h : Bounded conf s) (accepted : ℕ → Bool) (served : List κ) :
    Bounded conf (s.workerStep key conf accepted served) := by
  unfold Pipeline.workerStep
  split
  next =>
    refine ⟨h.txRing_le, ?_, h.mTable_lt⟩
    dsimp only
    split <;> exact Nat.zero_le _
  next => exact ⟨h.txRing_le, Nat.zero_le _, h.mTable_lt⟩
  next =>
    refine ⟨h.txRing_le, ?_, h.mTable_lt⟩
    dsimp only
    split
    · exact Nat.zero_le _
    · exact (Buckets.length_take_le _ _).trans (List.length_take_le _ _)
  next mbufs hat =>
    split
    next hfits =>
      refine ⟨?_, Nat.zero_le _, h.mTable_lt⟩
      rw [List.length_append]
      exact hfits
    next => exact h

omit [DecidableEq κ] in
theorem Bounded.txStep (h : Bounded conf s) (ret : ℕ) : Bounded conf (s.txStep conf ret) := by
  have hfront : SameFront s (s.txStep conf ret) := sameFront_txStep ret
  refine ⟨?_, ?_, ?_⟩
  · have hle := h.txRing_le
    unfold Pipeline.txStep
    split
    next =>
      split
      · simp only [List.length_drop]
        omega
      · exact hle
    all_goals
      try dsimp only
      repeat' split
      all_goals exact hle
  · rw [pushing, hfront.worker, ← pushing]
    exact h.pushing_le
  · intro hpos
    have hlt := h.mTable_lt hpos
    unfold Pipeline.txStep
    split
    next => split <;> exact hlt
    next => exact hlt
    next m mbufs _ =>
      dsimp only
      split
      · exact hpos
      next hne =>
        rw [List.length_append, List.length_singleton] at hne ⊢
        omega
    next => exact hlt
    next =>
      dsimp only
      repeat' split
      · exact hlt
      · exact hpos
      · exact hlt
    next =>
      dsimp only
      split <;> exact hlt

/-- **The table never overflows**: a frame is stored behind fewer than `tx_burst` others. -/
theorem bounded_after (key : α → κ) (conf : BurstConf) (es : List (PipelineEvent α κ)) :
    Bounded conf (after key conf es) := by
  refine Runs.run_invariant _ (fun s e h => ?_) bounded_start es
  cases e with
  | sendSchedulePkt m firewallProfileUpdate =>
    unfold step sendSchedulePkt
    dsimp only
    repeat' split
    all_goals exact ⟨h.txRing_le, h.pushing_le, h.mTable_lt⟩
  | worker accepted served => exact h.workerStep accepted served
  | tx ret => exact h.txStep ret

/-! ### The TX thread gets back to the ring -/

/-- The TX thread alone. -/
def txRun (conf : BurstConf) (s : Pipeline α κ) (rets : List ℕ) : Pipeline α κ :=
  Runs.run (txStep conf) s rets

theorem run_map_tx (rets : List ℕ) :
    Runs.run (step key conf) s (rets.map .tx) = txRun conf s rets := by
  induction rets generalizing s with
  | nil => rfl
  | cons ret rets ih => exact ih

omit [DecidableEq κ] in
theorem SameFront.trans {s'' : Pipeline α κ} (h : SameFront s s') (h' : SameFront s' s'') :
    SameFront s s'' where
  rxRing := h'.rxRing.trans h.rxRing
  rxStat := h'.rxStat.trans h.rxStat
  worker := h'.worker.trans h.worker
  workerStat := h'.workerStat.trans h.workerStat
  queues := h'.queues.trans h.queues
  freed := h'.freed.trans h.freed

omit [DecidableEq κ] in
theorem sameFront_txRun (rets : List ℕ) : SameFront s (txRun conf s rets) := by
  induction rets generalizing s with
  | nil => exact ⟨rfl, rfl, rfl, rfl, rfl, rfl⟩
  | cons ret rets ih => exact (sameFront_txStep ret).trans ih

/-- The TX thread can get to the ring with a property. -/
def CanReach (conf : BurstConf) (p : Pipeline α κ → Prop) (s : Pipeline α κ) : Prop :=
  ∃ rets, (txRun conf s rets).tx = .read ∧ p (txRun conf s rets)

variable {p r : Pipeline α κ → Prop}

omit [DecidableEq κ] in
theorem CanReach.here (htx : s.tx = .read) (hp : p s) : CanReach conf p s := ⟨[], htx, hp⟩

omit [DecidableEq κ] in
theorem CanReach.step (ret : ℕ) (h : CanReach conf p (s.txStep conf ret)) :
    CanReach conf p s := by
  obtain ⟨rets, htx, hp⟩ := h
  exact ⟨ret :: rets, htx, hp⟩

omit [DecidableEq κ] in
theorem CanReach.trans (h : CanReach conf p s)
    (hnext : ∀ s, s.tx = .read → p s → CanReach conf r s) : CanReach conf r s := by
  obtain ⟨rets, htx, hp⟩ := h
  obtain ⟨rets', htx', hr⟩ := hnext _ htx hp
  refine ⟨rets ++ rets', ?_, ?_⟩
  · rw [txRun, Runs.run_append]
    exact htx'
  · rw [txRun, Runs.run_append]
    exact hr

omit [DecidableEq κ] in
/-- A device that takes all frames lets the drain end. -/
theorem canReach_of_drain {mbufs : List α} (hat : s.tx = .drain mbufs)
    (hp : p { s with wire := s.wire ++ mbufs, counter := 0, tx := .read }) :
    CanReach conf p s := by
  refine .step mbufs.length (.here ?_ ?_)
  all_goals simp only [txStep, hat, List.drop_length, List.isEmpty_nil, List.take_length, if_true]
  exact hp

omit [DecidableEq κ] in
/-- The count, with or without a drain behind it. -/
theorem canReach_of_count (hat : s.tx = .count) (hp : ∀ s' : Pipeline α κ,
    s'.txRing = s.txRing → p s') : CanReach conf p s := by
  by_cases hdrain : conf.drainTsc < s.counter + 1
  · by_cases hempty : s.mTable.isEmpty = true
    · refine .step 0 (.here ?_ ?_)
      all_goals simp only [txStep, hat, if_pos hdrain, if_pos hempty]
      exact hp _ rfl
    · refine .step 0 ?_
      simp only [txStep, hat, if_pos hdrain, if_neg hempty]
      exact canReach_of_drain rfl (hp _ rfl)
  · refine .step 0 (.here ?_ ?_)
    all_goals simp only [txStep, hat, if_neg hdrain]
    exact hp _ rfl

omit [DecidableEq κ] in
/-- `app_send_packets` ends, when the device takes all frames. -/
theorem canReach_of_send {mbufs : List α} (hat : s.tx = .send mbufs) (hp : ∀ s' : Pipeline α κ,
    s'.txRing = s.txRing → p s') : CanReach conf p s := by
  induction mbufs generalizing s with
  | nil =>
    refine .step 0 ?_
    simp only [txStep, hat]
    exact canReach_of_count rfl hp
  | cons m mbufs ih =>
    refine .step 0 ?_
    simp only [txStep, hat]
    split
    · refine .step (s.mTable ++ [m]).length ?_
      simp only [txStep, List.drop_length, List.isEmpty_nil, if_true]
      exact ih rfl hp
    · exact ih rfl hp

omit [DecidableEq κ] in
/-- From everywhere in its loop the TX thread gets back, with the ring as it is. -/
theorem canReach_read (s : Pipeline α κ) :
    CanReach conf (fun s' => s'.txRing = s.txRing) s := by
  cases hat : s.tx with
  | read => exact .here hat rfl
  | send mbufs => exact canReach_of_send hat fun _ h => h
  | burst mbufs behind =>
    refine .step mbufs.length ?_
    simp only [txStep, hat, List.drop_length, List.isEmpty_nil, if_true]
    exact canReach_of_send rfl fun _ h => h
  | count => exact canReach_of_count hat fun _ h => h
  | drain mbufs => exact canReach_of_drain hat rfl

omit [DecidableEq κ] in
/-- A burst is taken from the ring. -/
theorem canReach_take (hat : s.tx = .read) (hpos : 0 < conf.qosDequeue)
    (hle : conf.qosDequeue ≤ s.txRing.length) :
    CanReach conf (fun s' => s'.txRing = s.txRing.drop conf.qosDequeue) s := by
  refine .step 0 ?_
  simp only [txStep, hat, if_pos (And.intro hpos hle)]
  exact canReach_of_send rfl fun _ h => h

/-! ### The worker gets back to the ring -/

/-- Both threads wait for room or frames on the second ring that never come. -/
def Blocked (conf : BurstConf) (s : Pipeline α κ) : Prop :=
  ∃ mbufs, s.worker = .push mbufs ∧ conf.txRingSize < s.txRing.length + mbufs.length ∧
    s.txRing.length < conf.qosDequeue

/-- **Threads that wait for each other wait forever**, whatever comes in. -/
theorem Blocked.step (h : Blocked conf s) (e : PipelineEvent α κ) :
    Blocked conf (s.step key conf e) := by
  obtain ⟨mbufs, hat, hroom, hfew⟩ := h
  cases e with
  | sendSchedulePkt m firewallProfileUpdate =>
    unfold Pipeline.step sendSchedulePkt
    dsimp only
    repeat' split
    all_goals exact ⟨mbufs, hat, hroom, hfew⟩
  | worker accepted served =>
    have hstay : s.workerStep key conf accepted served = s := by
      simp only [workerStep, hat]
      rw [if_neg (by omega)]
    rw [Pipeline.step, hstay]
    exact ⟨mbufs, hat, hroom, hfew⟩
  | tx ret =>
    have hring : (s.txStep conf ret).txRing = s.txRing := by
      unfold txStep
      split
      next => rw [if_neg (by omega)]
      all_goals
        try dsimp only
        repeat' split
        all_goals rfl
    rw [Pipeline.step]
    refine ⟨mbufs, (sameFront_txStep ret).worker.trans hat, ?_, ?_⟩
    · rwa [hring]
    · rwa [hring]

theorem Blocked.run (key : α → κ) (h : Blocked conf s) (es : List (PipelineEvent α κ)) :
    Blocked conf (Runs.run (Pipeline.step key conf) s es) :=
  Runs.run_invariant _ (fun _ e h => h.step e) h es

/-- With room for two bursts but one frame, the worker gets back. -/
theorem exists_worker_read (hsize : 2 * conf.qosDequeue ≤ conf.txRingSize + 1)
    (hs : Bounded conf s) : ∃ es, offered es = [] ∧
      (Runs.run (step key conf) s es).worker = .read := by
  cases hat : s.worker with
  | read => exact ⟨[], rfl, hat⟩
  | enqueue mbufs =>
    refine ⟨[.worker (fun _ => true) [], .worker (fun _ => true) []], rfl, ?_⟩
    simp [step, workerStep, hat, Buckets.take]
  | dequeue =>
    refine ⟨[.worker (fun _ => true) []], rfl, ?_⟩
    simp [step, workerStep, hat, Buckets.take]
  | push mbufs =>
    have hring := hs.txRing_le
    have hburst : mbufs.length ≤ conf.qosDequeue := by
      simpa only [pushing, hat] using hs.pushing_le
    by_cases hfits : s.txRing.length + mbufs.length ≤ conf.txRingSize
    · refine ⟨[.worker (fun _ => true) []], rfl, ?_⟩
      simp [step, workerStep, hat, hfits]
    · -- the ring holds a burst, which the TX thread takes
      have htake : CanReach conf (fun s' => s'.txRing = s.txRing.drop conf.qosDequeue) s :=
        (canReach_read s).trans fun s' htx hsame => by
          rw [← hsame]
          exact canReach_take htx (by omega) (by rw [hsame]; omega)
      obtain ⟨rets, _, hdrop⟩ := htake
      have hworker : (txRun conf s rets).worker = s.worker := (sameFront_txRun rets).worker
      have hroom : (txRun conf s rets).txRing.length + mbufs.length ≤ conf.txRingSize := by
        rw [hdrop, List.length_drop]
        omega
      refine ⟨rets.map .tx ++ [.worker (fun _ => true) []], ?_, ?_⟩
      · rw [offered, List.filterMap_append, List.filterMap_map]
        simp
      · rw [Runs.run_append, run_map_tx, Runs.run_cons, Runs.run_nil, step, workerStep,
          hworker, hat]
        dsimp only
        rw [if_pos hroom]

/-! ### How the threads come to wait for each other -/

section Blocking

variable [Inhabited α]

/-- So many frames in a queue of the scheduler and on the second ring, and nothing else. -/
structure Loaded (key : α → κ) (n c : ℕ) (s : Pipeline α κ) : Prop where
  rxRing : s.rxRing = []
  worker : s.worker = .read
  queues : s.queues (key default) = List.replicate n default
  txRing : s.txRing = List.replicate c default

/-- A frame gets to the scheduler. -/
def loadOne : List (PipelineEvent α κ) :=
  [.sendSchedulePkt default false, .worker (fun _ => true) [], .worker (fun _ => true) [],
    .worker (fun _ => true) []]

/-- A frame gets from the scheduler to the second ring. -/
def moveOne (key : α → κ) : List (PipelineEvent α κ) :=
  [.worker (fun _ => true) [], .worker (fun _ => true) [key default],
    .worker (fun _ => true) []]

variable {n c : ℕ}

theorem Loaded.loadOne (h : Loaded key n c s) (hburst : 0 < conf.ringBurst)
    (hring : 0 < conf.rxRingSize) : Loaded key (n + 1) c (Runs.run (step key conf) s loadOne) := by
  obtain ⟨hrx, hworker, hqueues, htx⟩ := h
  obtain ⟨k, hk⟩ := Nat.exists_eq_add_one_of_ne_zero hburst.ne'
  have hfits : 1 ≤ conf.rxRingSize := hring
  refine ⟨?_, ?_, ?_, ?_⟩
  all_goals
    simp [Pipeline.loadOne, step, sendSchedulePkt, workerStep, hrx, hworker, hk, hfits,
      Buckets.take, Buckets.letIn, Buckets.put_apply, hqueues, htx, List.replicate_succ',
      Buckets.ofKey_of_key]

theorem Loaded.loadMany (conf : BurstConf) (h : Loaded key n c s) (hburst : 0 < conf.ringBurst)
    (hring : 0 < conf.rxRingSize) (k : ℕ) :
    Loaded key (n + k) c
      (Runs.run (step key conf) s (List.replicate k Pipeline.loadOne).flatten) := by
  induction k generalizing n s with
  | zero => exact h
  | succ k ih =>
    rw [List.replicate_succ, List.flatten_cons, Runs.run_append, Nat.add_comm k, ← Nat.add_assoc]
    exact ih (h.loadOne hburst hring)

theorem Loaded.moveOne (h : Loaded key (n + 1) c s) (hpos : 0 < conf.qosDequeue)
    (hfits : c + 1 ≤ conf.txRingSize) :
    Loaded key n (c + 1) (Runs.run (step key conf) s (moveOne key)) := by
  obtain ⟨hrx, hworker, hqueues, htx⟩ := h
  obtain ⟨k, hk⟩ := Nat.exists_eq_add_one_of_ne_zero hpos.ne'
  rw [List.replicate_succ] at hqueues
  refine ⟨?_, ?_, ?_, ?_⟩
  all_goals
    simp [Pipeline.moveOne, step, workerStep, hrx, hworker, hk, hfits, Buckets.take, hqueues, htx,
      List.replicate_succ']

theorem Loaded.moveMany (conf : BurstConf) {k : ℕ} (h : Loaded key (n + k) c s)
    (hpos : 0 < conf.qosDequeue) (hfits : c + k ≤ conf.txRingSize) :
    Loaded key n (c + k)
      (Runs.run (step key conf) s (List.replicate k (Pipeline.moveOne key)).flatten) := by
  induction k generalizing c s with
  | zero => exact h
  | succ k ih =>
    rw [List.replicate_succ, List.flatten_cons, Runs.run_append, Nat.add_comm k, ← Nat.add_assoc]
    exact ih (h.moveOne hpos (by omega)) (by omega)

omit [Inhabited α] in
/-- The frames of one queue are taken out together. -/
theorem take_replicate {queues : κ → List α} {k : κ} {a : α}
    (h : queues k = List.replicate n a) :
    (Buckets.take queues (List.replicate n k)).1 = List.replicate n a := by
  induction n generalizing queues with
  | zero => rfl
  | succ n ih =>
    rw [List.replicate_succ] at h
    rw [List.replicate_succ, Buckets.take_cons_of_cons h, ih (Function.update_self ..),
      List.replicate_succ]

/-- Without room for two bursts but one frame, the threads can come to wait for each other. -/
theorem exists_blocked (hburst : 0 < conf.ringBurst) (hring : 0 < conf.rxRingSize)
    (hsize : conf.txRingSize + 1 < 2 * conf.qosDequeue) :
    ∃ es, Blocked conf (after key conf es) := by
  -- as many frames on the ring as the TX thread leaves there, and a burst behind them
  let c := min (conf.qosDequeue - 1) conf.txRingSize
  have hloaded : Loaded key 0 0 (start : Pipeline α κ) := ⟨rfl, rfl, rfl, rfl⟩
  have hmany := hloaded.loadMany conf hburst hring (conf.qosDequeue + c)
  rw [Nat.zero_add] at hmany
  have hmoved := hmany.moveMany conf (by omega) (by omega)
  rw [Nat.zero_add, ← Runs.run_append] at hmoved
  generalize (List.replicate (conf.qosDequeue + c) Pipeline.loadOne).flatten ++
    (List.replicate c (Pipeline.moveOne key)).flatten = es at hmoved
  refine ⟨es ++ [.worker (fun _ => true) [],
    .worker (fun _ => true) (List.replicate conf.qosDequeue (key default))], ?_⟩
  obtain ⟨hrx, hworker, hqueues, htx⟩ := hmoved
  have htake := take_replicate hqueues
  rw [after, Runs.run_append]
  refine ⟨List.replicate conf.qosDequeue default, ?_, ?_, ?_⟩
  · simp [step, workerStep, hrx, hworker, htake]
    omega
  · simp [step, workerStep, hrx, hworker, htx]
    omega
  · simp [step, workerStep, hrx, hworker, htx]
    omega

end Blocking

/-- **Rings that are large enough, exactly.** The worker gets back to its loop from every state,
whatever has happened before, exactly when the second ring has room for two bursts of
`qos_dequeue` frames but one frame. -/
theorem worker_returns_iff [Inhabited α] (hburst : 0 < conf.ringBurst)
    (hring : 0 < conf.rxRingSize) :
    (∀ es, ∃ fs, (after key conf (es ++ fs)).worker = .read) ↔
      2 * conf.qosDequeue ≤ conf.txRingSize + 1 := by
  constructor
  · intro h
    by_contra hsize
    have hwait : ∃ es, Blocked conf (after key conf es) :=
      exists_blocked hburst hring (Nat.lt_of_not_le hsize)
    obtain ⟨es, hblocked⟩ := hwait
    obtain ⟨fs, hread⟩ := h es
    obtain ⟨mbufs, hpush, _⟩ := hblocked.run key fs
    rw [after, Runs.run_append] at hread
    rw [after, hread] at hpush
    cases hpush
  · intro hsize es
    obtain ⟨fs, _, hread⟩ := exists_worker_read hsize (bounded_after key conf es)
    exact ⟨fs, by rwa [after, Runs.run_append]⟩

/-- Bursts of 32 frames and rings of 64. -/
theorem worker_returns_of_sixtyFour :
    (∀ es : List (PipelineEvent ℕ ℕ),
      ∃ fs, (after id ⟨32, 32, 32, 64, 64, 1000⟩ (es ++ fs)).worker = .read) ↔ 2 * 32 ≤ 64 + 1 :=
  worker_returns_iff (by decide) (by decide)

/-! ### The last frames -/

/-- Nothing is left before the second ring. -/
structure Drained (s : Pipeline α κ) : Prop where
  rxRing : s.rxRing = []
  batch : s.batch = []
  queues : ∀ k, s.queues k = []
  pushing : s.pushing = []

theorem Drained.workerStep (key : α → κ) (conf : BurstConf) (h : Drained s)
    (accepted : ℕ → Bool) (served : List κ) :
    Drained (s.workerStep key conf accepted served) ∧
      (s.workerStep key conf accepted served).back = s.back ∧
      (s.workerStep key conf accepted served).txRing = s.txRing := by
  obtain ⟨hrx, hbatch, hqueues, hpush⟩ := h
  unfold Pipeline.workerStep
  split
  next hat =>
    refine ⟨⟨by rw [hrx, List.drop_nil], ?_, hqueues, ?_⟩, rfl, rfl⟩
    all_goals simp [Pipeline.batch, Pipeline.pushing, hrx]
  next mbufs hat =>
    simp only [Pipeline.batch, hat] at hbatch
    subst hbatch
    refine ⟨⟨hrx, rfl, fun k => ?_, rfl⟩, rfl, rfl⟩
    dsimp only
    rw [Buckets.put_apply, hqueues]
    rfl
  next hat =>
    rw [Buckets.take_empty hqueues]
    exact ⟨⟨hrx, rfl, hqueues, rfl⟩, rfl, rfl⟩
  next mbufs hat =>
    simp only [Pipeline.pushing, hat] at hpush
    subst hpush
    split
    · refine ⟨⟨hrx, rfl, hqueues, rfl⟩, ?_, List.append_nil _⟩
      simp only [Pipeline.back, transmitting, sending, List.append_nil]
    · exact ⟨⟨hrx, hbatch, hqueues, by rw [Pipeline.pushing, hat]⟩, rfl, rfl⟩

omit [DecidableEq κ] in
theorem Drained.of_sameFront (h : Drained s) (hfront : SameFront s s') : Drained s' where
  rxRing := hfront.rxRing.trans h.rxRing
  batch := by
    rw [Pipeline.batch, hfront.worker]
    exact h.batch
  queues k := by
    rw [hfront.queues]
    exact h.queues k
  pushing := by
    rw [Pipeline.pushing, hfront.worker]
    exact h.pushing

/-- Without new frames, nothing comes to the second ring any more. -/
theorem Drained.run (key : α → κ) (conf : BurstConf) (h : Drained s)
    {fs : List (PipelineEvent α κ)} (hfs : offered fs = []) :
    Drained (Runs.run (step key conf) s fs) ∧
      (Runs.run (step key conf) s fs).back = s.back := by
  induction fs generalizing s with
  | nil => exact ⟨h, rfl⟩
  | cons e fs ih =>
    rw [offered, List.filterMap_cons] at hfs
    cases e with
    | sendSchedulePkt m firewallProfileUpdate => cases hfs
    | worker accepted served =>
      obtain ⟨hnext, hback, _⟩ := h.workerStep key conf accepted served
      obtain ⟨hlast, hsame⟩ := ih hnext hfs
      exact ⟨hlast, hsame.trans hback⟩
    | tx ret =>
      obtain ⟨hlast, hsame⟩ := ih (h.of_sameFront (sameFront_txStep ret)) hfs
      exact ⟨hlast, hsame.trans (back_txStep ret)⟩

/-- The TX thread takes whole bursts. -/
def WholeBursts (conf : BurstConf) (s : Pipeline α κ) : Prop :=
  s.txRing.length ≡ s.back.length [MOD conf.qosDequeue]

theorem wholeBursts_workerStep (h : WholeBursts conf s) (accepted : ℕ → Bool)
    (served : List κ) : WholeBursts conf (s.workerStep key conf accepted served) := by
  unfold Pipeline.workerStep
  split
  next => exact h
  next => exact h
  next => exact h
  next mbufs _ =>
    split
    · have hback : ({ s with txRing := s.txRing ++ mbufs, worker := .read } : Pipeline α κ).back =
          s.back ++ mbufs := by
        simp only [Pipeline.back, transmitting, sending, List.append_assoc]
      rw [WholeBursts, hback, List.length_append, List.length_append]
      exact h.add_right _
    · exact h

omit [DecidableEq κ] in
theorem wholeBursts_txStep (h : WholeBursts conf s) (ret : ℕ) :
    WholeBursts conf (s.txStep conf ret) := by
  rw [WholeBursts, back_txStep]
  refine Nat.ModEq.trans ?_ h
  unfold txStep
  split
  next =>
    split
    next htake =>
      have hlen : s.txRing.length = (s.txRing.length - conf.qosDequeue) + conf.qosDequeue := by
        omega
      simp only [List.length_drop]
      nth_rewrite 2 [hlen]
      exact (Nat.add_modEq_right).symm
    next => rfl
  all_goals
    try dsimp only
    repeat' split
    all_goals rfl

theorem wholeBursts_after (key : α → κ) (conf : BurstConf) (es : List (PipelineEvent α κ)) :
    WholeBursts conf (after key conf es) := by
  have hstart : WholeBursts conf (start : Pipeline α κ) := Nat.ModEq.refl 0
  refine Runs.run_invariant _ (fun s e h => ?_) hstart es
  cases e with
  | sendSchedulePkt m firewallProfileUpdate =>
    unfold step sendSchedulePkt
    dsimp only
    repeat' split
    all_goals exact h
  | worker accepted served => exact wholeBursts_workerStep h accepted served
  | tx ret => exact wholeBursts_txStep h ret

omit [DecidableEq κ] in
/-- The TX thread can take all bursts from the ring. -/
theorem canReach_few (hpos : 0 < conf.qosDequeue) (s : Pipeline α κ) :
    CanReach conf (fun s' => s'.txRing.length < conf.qosDequeue) s := by
  refine (canReach_read s).trans fun s hat hsame => ?_
  clear hsame
  induction hlen : s.txRing.length using Nat.strong_induction_on generalizing s with
  | _ n ih =>
    by_cases hfew : s.txRing.length < conf.qosDequeue
    · exact .here hat hfew
    · refine (canReach_take hat hpos (Nat.le_of_not_lt hfew)).trans fun s' hat' hdrop => ?_
      have hlen' : s'.txRing.length = s.txRing.length - conf.qosDequeue := by
        rw [hdrop, List.length_drop]
      exact ih s'.txRing.length (by omega) s' hat' rfl

omit [DecidableEq κ] in
/-- The counter gets to the drain, which empties the table. -/
theorem canReach_drained (hat : s.tx = .read) (hfew : s.txRing.length < conf.qosDequeue) :
    CanReach conf (fun s' => s'.txRing.length < conf.qosDequeue ∧ s'.mTable = []) s := by
  induction hleft : conf.drainTsc + 1 - s.counter generalizing s with
  | zero =>
    refine .step 0 ?_
    simp only [txStep, hat]
    rw [if_neg (by omega)]
    by_cases hempty : s.mTable.isEmpty = true
    · refine .step 0 ?_
      simp only [txStep]
      rw [if_pos (by omega), if_pos hempty]
      exact .here rfl ⟨hfew, List.isEmpty_iff.mp hempty⟩
    · refine .step 0 ?_
      simp only [txStep]
      rw [if_pos (by omega), if_neg hempty]
      exact canReach_of_drain rfl ⟨hfew, rfl⟩
  | succ left ih =>
    refine .step 0 ?_
    simp only [txStep, hat]
    rw [if_neg (by omega)]
    refine .step 0 ?_
    simp only [txStep]
    by_cases hdrain : conf.drainTsc < s.counter + 1
    · by_cases hempty : s.mTable.isEmpty = true
      · rw [if_pos hdrain, if_pos hempty]
        exact .here rfl ⟨hfew, List.isEmpty_iff.mp hempty⟩
      · rw [if_pos hdrain, if_neg hempty]
        exact canReach_of_drain rfl ⟨hfew, rfl⟩
    · rw [if_neg hdrain]
      refine ih rfl hfew ?_
      dsimp only
      omega

/-- The frames behind the scheduler are those given and not freed. -/
theorem length_back_of_drained {es : List (PipelineEvent α κ)}
    (h : Drained (after key conf es)) :
    (after key conf es).back.length + (after key conf es).freed.length = (offered es).length := by
  have hkeys (k : κ) : (Buckets.ofKey key k
      ((after key conf es).back ++ (after key conf es).freed)).Perm
      (Buckets.ofKey key k (offered es)) := by
    have hk := (sound_after key conf es).conserved k
    rwa [passage, scheduled, h.pushing, h.queues, h.batch, h.rxRing, List.append_nil,
      List.append_nil, Buckets.ofKey_nil, List.append_nil, List.append_nil,
      ← Buckets.ofKey_append] at hk
  rw [← List.length_append, (Buckets.perm_of_ofKey hkeys).length_eq]

omit [DecidableEq κ] in
/-- The second ring holds the latest of the frames that the worker gave away. -/
theorem txRing_suffix_back (s : Pipeline α κ) : s.txRing <:+ s.back := by
  refine ⟨s.wire ++ (s.transmitting ++ (s.mTable ++ s.sending)), ?_⟩
  simp only [back, List.append_assoc]

omit [DecidableEq κ] in
/-- The frames behind the last whole burst are on the ring. -/
theorem WholeBursts.rest_suffix (h : WholeBursts conf s) :
    s.back.drop (s.back.length - s.back.length % conf.qosDequeue) <:+ s.txRing := by
  refine List.suffix_of_suffix_length_le (List.drop_suffix _ _) (txRing_suffix_back s) ?_
  have hle := Nat.mod_le s.back.length conf.qosDequeue
  have hring := Nat.mod_le s.txRing.length conf.qosDequeue
  rw [show s.txRing.length % conf.qosDequeue = s.back.length % conf.qosDequeue from h] at hring
  rw [List.length_drop]
  omega

omit [DecidableEq κ] in
/-- The device has at most the whole bursts. -/
theorem WholeBursts.wire_prefix (h : WholeBursts conf s) :
    s.wire <+: s.back.take (s.back.length - s.back.length % conf.qosDequeue) := by
  have hrest := h.rest_suffix.length_le
  have hle := Nat.mod_le s.back.length conf.qosDequeue
  have hlength : s.wire.length + s.txRing.length ≤ s.back.length := by
    simp only [back, List.length_append]
    omega
  rw [List.length_drop] at hrest
  exact List.prefix_take_iff.mpr ⟨List.prefix_append _ _, by omega⟩

/-- **The last frames.** Once no more frames come and the scheduler is empty, the device gets, of
the frames that were given and not freed, the whole bursts of `qos_dequeue` in the order in which
they left the scheduler, and no more. The rest stays on the second ring for as long as no new ones
come. -/
theorem last_frames (hpos : 0 < conf.qosDequeue) (es : List (PipelineEvent α κ))
    (hdrained : Drained (after key conf es)) :
    let frames := (after key conf es).back
    let n := frames.length - frames.length % conf.qosDequeue
    frames.length + (after key conf es).freed.length = (offered es).length ∧
    (∀ fs, offered fs = [] →
      (after key conf (es ++ fs)).wire <+: frames.take n ∧
        frames.drop n <:+ (after key conf (es ++ fs)).txRing) ∧
    ∃ fs, offered fs = [] ∧
      (after key conf (es ++ fs)).wire = frames.take n ∧
        (after key conf (es ++ fs)).txRing = frames.drop n := by
  intro frames n
  have hback (fs : List (PipelineEvent α κ)) (hfs : offered fs = []) :
      (after key conf (es ++ fs)).back = frames := by
    rw [after, Runs.run_append]
    exact (hdrained.run key conf hfs).2
  refine ⟨length_back_of_drained hdrained, fun fs hfs => ?_, ?_⟩
  · have hbursts := wholeBursts_after key conf (es ++ fs)
    have hwire := hbursts.wire_prefix
    have hrest := hbursts.rest_suffix
    rw [hback fs hfs] at hwire hrest
    exact ⟨hwire, hrest⟩
  · obtain ⟨rets, hat, hfew, htable⟩ :=
      (canReach_few hpos (after key conf es)).trans fun _ hat hfew => canReach_drained hat hfew
    have hoffered : offered (rets.map .tx : List (PipelineEvent α κ)) = [] := by
      rw [offered, List.filterMap_map]
      simp
    have hrun : after key conf (es ++ rets.map .tx) = txRun conf (after key conf es) rets := by
      rw [after, Runs.run_append, run_map_tx, after]
    have hbursts := wholeBursts_after key conf (es ++ rets.map .tx)
    have hall := hback _ hoffered
    rw [hrun] at hbursts hall
    -- nothing is left between the device and the ring, which holds less than a burst
    rw [WholeBursts, Nat.ModEq, Nat.mod_eq_of_lt hfew, hall] at hbursts
    rw [back, transmitting, sending, hat, htable, List.nil_append, List.nil_append,
      List.nil_append] at hall
    have hsplit : (txRun conf (after key conf es) rets).wire.length = n := by
      have hlength := congrArg List.length hall
      rw [List.length_append] at hlength
      omega
    refine ⟨rets.map .tx, hoffered, ?_⟩
    rw [hrun, ← hsplit, ← hall]
    exact ⟨(List.take_left).symm, (List.drop_left).symm⟩

/-- Three frames of one queue get to the second ring. -/
def threeFrames : List (PipelineEvent ℕ Unit) :=
  [.sendSchedulePkt 1 false, .sendSchedulePkt 2 false, .sendSchedulePkt 3 false,
    .worker (fun _ => true) [], .worker (fun _ => true) [], .worker (fun _ => true) [(), ()],
    .worker (fun _ => true) [], .worker (fun _ => true) [], .worker (fun _ => true) [()],
    .worker (fun _ => true) []]

/-- The TX thread takes the first two of them. -/
theorem last_frames_three :
    3 + 0 = 3 ∧
    (∀ fs, offered fs = [] →
      (after (fun _ => ()) ⟨4, 2, 4, 4, 4, 10⟩ (threeFrames ++ fs)).wire <+: [1, 2] ∧
        [3] <:+ (after (fun _ => ()) ⟨4, 2, 4, 4, 4, 10⟩ (threeFrames ++ fs)).txRing) ∧
    ∃ fs, offered fs = [] ∧
      (after (fun _ => ()) ⟨4, 2, 4, 4, 4, 10⟩ (threeFrames ++ fs)).wire = [1, 2] ∧
        (after (fun _ => ()) ⟨4, 2, 4, 4, 4, 10⟩ (threeFrames ++ fs)).txRing = [3] :=
  @last_frames ℕ Unit _ (fun _ => ()) ⟨4, 2, 4, 4, 4, 10⟩ (by decide) threeFrames
    ⟨rfl, rfl, fun _ => rfl, rfl⟩

end Pipeline

end SecureWan.WanOptimizer
