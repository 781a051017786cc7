import SecureWan.Lib.Buckets
import SecureWan.Lib.Runs
import Mathlib.Tactic.Common

/-!
# The threads behind a port

`app_thread (1).c`: a receiving thread gives frames to `send_schedule_pkt`, which puts them on
a ring. `app_worker_thread` takes them from there to the scheduler, and from the scheduler to a
second ring; `app_tx_thread` collects them in `m_table` and gives them to the device. The
threads run at the same time, each one operation on a ring, on the scheduler or on the device
after the other.
-/

namespace SecureWan.WanOptimizer

/-- `burst_conf`, the sizes of the two rings, and `drain_tsc`. The frames of one dequeue go into
`mbufs[ring_burst]`, so that a configuration has `qos_dequeue <= ring_burst`. -/
structure BurstConf where
  ringBurst : ℕ
  qosDequeue : ℕ
  txBurst : ℕ
  rxRingSize : ℕ
  txRingSize : ℕ
  drainTsc : ℕ

/-- `struct thread_stat`. -/
structure ThreadStat where
  nbRx : ℕ
  nbDrop : ℕ

/-- Where `app_worker_thread` is in its loop, with the frames in `mbufs`. -/
inductive WorkerAt (α : Type*)
  | read
  | enqueue (mbufs : List α)
  | dequeue
  | push (mbufs : List α)

/-- Where `app_tx_thread` is in its loop. In `app_send_packets` and `app_send_burst`, `mbufs`
are the frames that these have still to do, and `behind` those to do afterwards. -/
inductive TxAt (α : Type*)
  | read
  | send (mbufs : List α)
  | burst (mbufs behind : List α)
  | count
  | drain (mbufs : List α)

/-- The state of a port. `mTable` holds the first entries of `m_table`, as many as `len`; `wire`
is what the device took, and `freed` what the threads and the scheduler freed. -/
structure Pipeline (α κ : Type*) where
  rxRing : List α
  rxStat : ThreadStat
  worker : WorkerAt α
  workerStat : ThreadStat
  queues : κ → List α
  txRing : List α
  tx : TxAt α
  mTable : List α
  counter : ℕ
  wire : List α
  freed : List α

/-- A call of `send_schedule_pkt`, with `firewall_profile_update`, or the next operation of one
of the other threads. The scheduler chooses which frames of a burst it refuses and which queues
it serves, and the device chooses how many frames it takes. -/
inductive PipelineEvent (α κ : Type*)
  | sendSchedulePkt (m : α) (firewallProfileUpdate : Bool)
  | worker (accepted : ℕ → Bool) (served : List κ)
  | tx (ret : ℕ)

namespace Pipeline

variable {α κ : Type*} [DecidableEq κ] (key : α → κ) (conf : BurstConf)

/-- The start. -/
def start : Pipeline α κ where
  rxRing := []
  rxStat := ⟨0, 0⟩
  worker := .read
  workerStat := ⟨0, 0⟩
  queues := fun _ => []
  txRing := []
  tx := .read
  mTable := []
  counter := 0
  wire := []
  freed := []

/-- `send_schedule_pkt`. -/
def sendSchedulePkt (s : Pipeline α κ) (m : α) (firewallProfileUpdate : Bool) : Pipeline α κ :=
  let nbRx := s.rxStat.nbRx + 1
  if firewallProfileUpdate then
    { s with rxStat := ⟨nbRx, s.rxStat.nbDrop + 1⟩, freed := s.freed ++ [m] }
  else if s.rxRing.length + 1 ≤ conf.rxRingSize then
    { s with rxStat := ⟨nbRx, s.rxStat.nbDrop⟩, rxRing := s.rxRing ++ [m] }
  else { s with rxStat := ⟨nbRx, s.rxStat.nbDrop + 1⟩, freed := s.freed ++ [m] }

/-- An operation of `app_worker_thread`. -/
def workerStep (s : Pipeline α κ) (accepted : ℕ → Bool) (served : List κ) : Pipeline α κ :=
  match s.worker with
  | .read =>
    let mbufs := s.rxRing.take conf.ringBurst
    { s with
      rxRing := s.rxRing.drop conf.ringBurst
      worker := if mbufs.isEmpty then .dequeue else .enqueue mbufs }
  | .enqueue mbufs =>
    let sent := Buckets.letIn accepted mbufs
    { s with
      queues := Buckets.put key s.queues sent
      freed := s.freed ++ Buckets.refused accepted mbufs
      workerStat :=
        ⟨s.workerStat.nbRx + mbufs.length, s.workerStat.nbDrop + (mbufs.length - sent.length)⟩
      worker := .dequeue }
  | .dequeue =>
    -- with `qos_dequeue <= ring_burst` they fit into `mbufs`
    let mbufs := Buckets.take s.queues (served.take conf.qosDequeue)
    { s with
      queues := mbufs.2
      worker := if mbufs.1.isEmpty then .read else .push mbufs.1 }
  | .push mbufs =>
    -- `rte_ring_sp_enqueue_bulk` takes all of the frames or none, and is called again for none
    if s.txRing.length + mbufs.length ≤ conf.txRingSize then
      { s with txRing := s.txRing ++ mbufs, worker := .read }
    else s

/-- An operation of `app_tx_thread`. -/
def txStep (s : Pipeline α κ) (ret : ℕ) : Pipeline α κ :=
  match s.tx with
  | .read =>
    -- `rte_ring_sc_dequeue_bulk` gives `qos_dequeue` frames or none
    if 0 < conf.qosDequeue ∧ conf.qosDequeue ≤ s.txRing.length then
      { s with
        txRing := s.txRing.drop conf.qosDequeue
        tx := .send (s.txRing.take conf.qosDequeue) }
    else { s with tx := .count }
  | .send [] => { s with counter := 0, tx := .count }
  | .send (m :: mbufs) =>
    let mTable := s.mTable ++ [m]
    if mTable.length = conf.txBurst then { s with mTable := [], tx := .burst mTable mbufs }
    else { s with mTable := mTable, tx := .send mbufs }
  | .burst mbufs behind =>
    let rest := mbufs.drop ret
    { s with
      wire := s.wire ++ mbufs.take ret
      tx := if rest.isEmpty then .send behind else .burst rest behind }
  | .count =>
    let counter := s.counter + 1
    if conf.drainTsc < counter then
      if s.mTable.isEmpty then { s with counter := 0, tx := .read }
      else { s with counter := counter, mTable := [], tx := .drain s.mTable }
    else { s with counter := counter, tx := .read }
  | .drain mbufs =>
    let rest := mbufs.drop ret
    let s := { s with wire := s.wire ++ mbufs.take ret }
    if rest.isEmpty then { s with counter := 0, tx := .read } else { s with tx := .drain rest }

/-- The next operation of some thread. -/
def step (s : Pipeline α κ) : PipelineEvent α κ → Pipeline α κ
  | .sendSchedulePkt m firewallProfileUpdate => s.sendSchedulePkt conf m firewallProfileUpdate
  | .worker accepted served => s.workerStep key conf accepted served
  | .tx ret => s.txStep conf ret

/-- The state after some operations, from the start. -/
def after (es : List (PipelineEvent α κ)) : Pipeline α κ := Runs.run (step key conf) start es

/-- The frames given to `send_schedule_pkt`. -/
def offered (es : List (PipelineEvent α κ)) : List α :=
  es.filterMap fun
    | .sendSchedulePkt m _ => some m
    | _ => none

/-! ### The way of a frame -/

/-- The frames between the device and `m_table`. -/
def transmitting (s : Pipeline α κ) : List α :=
  match s.tx with
  | .burst mbufs _ => mbufs
  | .drain mbufs => mbufs
  | _ => []

/-- The frames between `m_table` and the second ring. -/
def sending (s : Pipeline α κ) : List α :=
  match s.tx with
  | .send mbufs => mbufs
  | .burst _ behind => behind
  | _ => []

/-- The frames between the second ring and the scheduler. -/
def pushing (s : Pipeline α κ) : List α :=
  match s.worker with
  | .push mbufs => mbufs
  | _ => []

/-- The frames between the scheduler and the first ring. -/
def batch (s : Pipeline α κ) : List α :=
  match s.worker with
  | .enqueue mbufs => mbufs
  | _ => []

/-- What the worker gave away, the oldest frame first. -/
def back (s : Pipeline α κ) : List α :=
  s.wire ++ (s.transmitting ++ (s.mTable ++ (s.sending ++ s.txRing)))

/-- What has left the scheduler, the oldest frame first. -/
def scheduled (s : Pipeline α κ) : List α := s.back ++ s.pushing

/-- The frames of a queue that were not freed, the oldest one first. -/
def passage (s : Pipeline α κ) (k : κ) : List α :=
  Buckets.ofKey key k s.scheduled ++
    (s.queues k ++ Buckets.ofKey key k (s.batch ++ s.rxRing))

/-! ### Nothing is lost, doubled or overtaken -/

/-- The frames `given` are, by queue, in the pipeline or on the wire in their order, or freed. -/
structure Sound (given : List α) (s : Pipeline α κ) : Prop where
  sorted : Buckets.Sorted key s.queues
  order : ∀ k, (s.passage key k).Sublist (Buckets.ofKey key k given)
  conserved : ∀ k,
    (s.passage key k ++ Buckets.ofKey key k s.freed).Perm (Buckets.ofKey key k given)
  received : s.rxStat.nbRx = given.length
  dropped : s.rxStat.nbDrop + s.workerStat.nbDrop = s.freed.length

variable {key conf} {given : List α} {s s' : Pipeline α κ}

/-- A step that moves frames on along their way. -/
theorem Sound.move (h : Sound key given s) (hsorted : Buckets.Sorted key s'.queues)
    (hpassage : ∀ k, s'.passage key k = s.passage key k) (hfreed : s'.freed = s.freed)
    (hrx : s'.rxStat = s.rxStat) (hworker : s'.workerStat.nbDrop = s.workerStat.nbDrop) :
    Sound key given s' where
  sorted := hsorted
  order k := by
    rw [hpassage]
    exact h.order k
  conserved k := by
    rw [hpassage, hfreed]
    exact h.conserved k
  received := by rw [hrx, h.received]
  dropped := by rw [hrx, hworker, hfreed, h.dropped]

/-- A step that moves frames on between the two rings and the device. -/
theorem Sound.move_scheduled (h : Sound key given s) (hqueues : s'.queues = s.queues)
    (hscheduled : s'.scheduled = s.scheduled) (hfront : s'.batch ++ s'.rxRing = s.batch ++ s.rxRing)
    (hfreed : s'.freed = s.freed) (hrx : s'.rxStat = s.rxStat)
    (hworker : s'.workerStat = s.workerStat) : Sound key given s' := by
  refine h.move (by rw [hqueues]; exact h.sorted) (fun k => ?_) hfreed hrx (by rw [hworker])
  rw [passage, hqueues, hscheduled, hfront, passage]

theorem sound_start : Sound key [] (start : Pipeline α κ) where
  sorted := Buckets.sorted_empty
  order _ := List.Sublist.refl _
  conserved _ := List.Perm.refl _
  received := rfl
  dropped := rfl

/-- A frame that goes to the first ring. -/
theorem Sound.accept (h : Sound key given s) (m : α) (hqueues : s'.queues = s.queues)
    (hscheduled : s'.scheduled = s.scheduled)
    (hfront : s'.batch ++ s'.rxRing = s.batch ++ s.rxRing ++ [m]) (hfreed : s'.freed = s.freed)
    (hstat : s'.rxStat = ⟨s.rxStat.nbRx + 1, s.rxStat.nbDrop⟩)
    (hworker : s'.workerStat = s.workerStat) :
    Sound key (given ++ [m]) s' := by
  have hpassage (k : κ) :
      s'.passage key k = s.passage key k ++ Buckets.ofKey key k [m] := by
    rw [passage, hqueues, hscheduled, hfront, Buckets.ofKey_append, passage]
    simp only [List.append_assoc]
  refine ⟨by rw [hqueues]; exact h.sorted, fun k => ?_, fun k => ?_, ?_, ?_⟩
  · rw [hpassage, Buckets.ofKey_append]
    exact (h.order k).append (List.Sublist.refl _)
  · rw [hpassage, hfreed, Buckets.ofKey_append, List.append_assoc]
    refine List.Perm.trans ?_ ((h.conserved k).append_right _)
    rw [List.append_assoc]
    exact List.perm_append_comm.append_left _
  · rw [hstat, List.length_append, List.length_singleton, h.received]
  · rw [hstat, hworker, hfreed, h.dropped]

/-- A frame that is freed at once. -/
theorem Sound.refuse (h : Sound key given s) (m : α) (hqueues : s'.queues = s.queues)
    (hscheduled : s'.scheduled = s.scheduled) (hfront : s'.batch ++ s'.rxRing = s.batch ++ s.rxRing)
    (hfreed : s'.freed = s.freed ++ [m])
    (hstat : s'.rxStat = ⟨s.rxStat.nbRx + 1, s.rxStat.nbDrop + 1⟩)
    (hworker : s'.workerStat = s.workerStat) : Sound key (given ++ [m]) s' := by
  have hpassage (k : κ) : s'.passage key k = s.passage key k := by
    rw [passage, hqueues, hscheduled, hfront, passage]
  refine ⟨by rw [hqueues]; exact h.sorted, fun k => ?_, fun k => ?_, ?_, ?_⟩
  · rw [hpassage, Buckets.ofKey_append]
    exact (h.order k).trans (List.sublist_append_left _ _)
  · rw [hpassage, hfreed, Buckets.ofKey_append, Buckets.ofKey_append, ← List.append_assoc]
    exact (h.conserved k).append_right _
  · rw [hstat, List.length_append, List.length_singleton, h.received]
  · rw [hstat, hworker, hfreed, List.length_append, List.length_singleton, ← h.dropped]
    exact Nat.add_right_comm _ _ _

theorem Sound.sendSchedulePkt (h : Sound key given s) (m : α) (firewallProfileUpdate : Bool) :
    Sound key (given ++ [m]) (s.sendSchedulePkt conf m firewallProfileUpdate) := by
  unfold Pipeline.sendSchedulePkt
  dsimp only
  split
  · exact h.refuse m rfl rfl rfl rfl rfl rfl
  · split
    · exact h.accept m rfl rfl (List.append_assoc _ _ _).symm rfl rfl rfl
    · exact h.refuse m rfl rfl rfl rfl rfl rfl

/-- A burst that goes to the scheduler, which refuses some of its frames. -/
theorem Sound.enqueue (h : Sound key given s) (accepted : ℕ → Bool)
    (hqueues : s'.queues = Buckets.put key s.queues (Buckets.letIn accepted s.batch))
    (hscheduled : s'.scheduled = s.scheduled) (hbatch : s'.batch = [])
    (hring : s'.rxRing = s.rxRing) (hfreed : s'.freed = s.freed ++ Buckets.refused accepted s.batch)
    (hrx : s'.rxStat = s.rxStat)
    (hworker : s'.workerStat.nbDrop =
      s.workerStat.nbDrop + (s.batch.length - (Buckets.letIn accepted s.batch).length)) :
    Sound key given s' := by
  have hperm := Buckets.letIn_append_refused_perm accepted s.batch
  have hpassage (k : κ) : s'.passage key k = Buckets.ofKey key k s.scheduled ++
      (s.queues k ++ (Buckets.ofKey key k (Buckets.letIn accepted s.batch) ++
        Buckets.ofKey key k s.rxRing)) := by
    rw [passage, hqueues, hscheduled, hbatch, hring, Buckets.put_apply, List.nil_append,
      List.append_assoc]
  refine ⟨by rw [hqueues]; exact h.sorted.put _, fun k => ?_, fun k => ?_,
    by rw [hrx, h.received], ?_⟩
  · have hsub : (Buckets.ofKey key k (Buckets.letIn accepted s.batch)).Sublist
        (Buckets.ofKey key k s.batch) := Buckets.ofKey_sublist (Buckets.letIn_sublist ..)
    refine List.Sublist.trans ?_ (h.order k)
    rw [hpassage, passage, Buckets.ofKey_append (l := s.batch)]
    exact (List.Sublist.refl _).append ((List.Sublist.refl _).append
      (hsub.append (List.Sublist.refl _)))
  · have hkeyed : (Buckets.ofKey key k (Buckets.letIn accepted s.batch) ++
        Buckets.ofKey key k (Buckets.refused accepted s.batch)).Perm
        (Buckets.ofKey key k s.batch) := by
      rw [← Buckets.ofKey_append]
      exact Buckets.ofKey_perm hperm
    refine List.Perm.trans ?_ (h.conserved k)
    rw [hpassage, hfreed, passage, Buckets.ofKey_append (l := s.freed),
      Buckets.ofKey_append (l := s.batch)]
    simp only [List.append_assoc]
    refine List.Perm.append_left _ (List.Perm.append_left _ ?_)
    -- the refused frames move from the end to those let in
    refine List.Perm.trans ?_ (hkeyed.append_right _)
    rw [List.append_assoc]
    refine List.Perm.append_left _ ?_
    rw [← List.append_assoc]
    exact List.perm_append_comm
  · have hlen := hperm.length_eq
    have hdropped := h.dropped
    rw [List.length_append] at hlen
    rw [hrx, hworker, hfreed, List.length_append]
    omega

theorem Sound.workerStep (h : Sound key given s) (accepted : ℕ → Bool) (served : List κ) :
    Sound key given (s.workerStep key conf accepted served) := by
  unfold Pipeline.workerStep
  split
  next hat =>
    dsimp only
    split
    next hempty =>
      have hring : s.rxRing.drop conf.ringBurst = s.rxRing := by
        have hsplit := List.take_append_drop conf.ringBurst s.rxRing
        rwa [List.isEmpty_iff.mp hempty, List.nil_append] at hsplit
      refine h.move_scheduled rfl ?_ ?_ rfl rfl rfl
      · simp only [scheduled, back, transmitting, sending, pushing, hat]
      · simp only [batch, hat, hring]
    next =>
      refine h.move_scheduled rfl ?_ ?_ rfl rfl rfl
      · simp only [scheduled, back, transmitting, sending, pushing, hat]
      · simp only [batch, hat, List.take_append_drop, List.nil_append]
  next mbufs hat =>
    have hbatch : s.batch = mbufs := by rw [batch, hat]
    subst hbatch
    refine h.enqueue accepted rfl ?_ rfl rfl rfl rfl rfl
    simp only [scheduled, back, transmitting, sending, pushing, hat]
  next hat =>
    have htake := Buckets.ofKey_take h.sorted (served.take conf.qosDequeue)
    dsimp only
    split
    next hempty =>
      refine h.move (h.sorted.take _) (fun k => ?_) rfl rfl rfl
      have hk := htake k
      rw [List.isEmpty_iff.mp hempty, Buckets.ofKey_nil, List.nil_append] at hk
      simp only [passage, scheduled, back, transmitting, sending, pushing, batch, hat, hk]
    next =>
      refine h.move (h.sorted.take _) (fun k => ?_) rfl rfl rfl
      rw [passage, passage, ← htake k]
      simp only [scheduled, back, transmitting, sending, pushing, batch, hat, Buckets.ofKey_append,
        List.append_assoc, List.append_nil, List.nil_append]
  next mbufs hat =>
    split
    · refine h.move_scheduled rfl ?_ ?_ rfl rfl rfl
      · simp only [scheduled, back, transmitting, sending, pushing, hat, List.append_nil,
          List.append_assoc]
      · simp only [batch, hat]
    · exact h

/-- The states of everything but the TX thread agree. -/
structure SameFront (s s' : Pipeline α κ) : Prop where
  rxRing : s'.rxRing = s.rxRing
  rxStat : s'.rxStat = s.rxStat
  worker : s'.worker = s.worker
  workerStat : s'.workerStat = s.workerStat
  queues : s'.queues = s.queues
  freed : s'.freed = s.freed

omit [DecidableEq κ] in
theorem sameFront_txStep (ret : ℕ) : SameFront s (s.txStep conf ret) := by
  unfold Pipeline.txStep
  split
  all_goals
    try dsimp only
    repeat' split
    all_goals exact ⟨rfl, rfl, rfl, rfl, rfl, rfl⟩

omit [DecidableEq κ] in
/-- Where the device has taken all frames of a list. -/
theorem append_take_of_isEmpty_drop {mbufs : List α} {ret : ℕ}
    (h : (mbufs.drop ret).isEmpty = true) : mbufs.take ret = mbufs := by
  have hsplit := List.take_append_drop ret mbufs
  rwa [List.isEmpty_iff.mp h, List.append_nil] at hsplit

omit [DecidableEq κ] in
/-- The TX thread moves frames on without changing their order. -/
theorem back_txStep (ret : ℕ) : (s.txStep conf ret).back = s.back := by
  unfold Pipeline.txStep
  split
  next hat =>
    split
    · simp only [back, transmitting, sending, hat, List.take_append_drop, List.nil_append]
    · simp only [back, transmitting, sending, hat]
  next hat => simp only [back, transmitting, sending, hat]
  next m mbufs hat =>
    dsimp only
    split
    all_goals
      simp only [back, transmitting, sending, hat, List.append_assoc, List.cons_append,
        List.nil_append]
  next mbufs behind hat =>
    dsimp only
    split
    next hempty =>
      simp only [back, transmitting, sending, hat, append_take_of_isEmpty_drop hempty,
        List.append_assoc, List.nil_append]
    next =>
      simp only [back, transmitting, sending, hat, List.append_assoc]
      rw [← List.append_assoc (mbufs.take ret), List.take_append_drop]
  next hat =>
    dsimp only
    split
    · split
      · simp only [back, transmitting, sending, hat]
      · simp only [back, transmitting, sending, hat, List.nil_append]
    · simp only [back, transmitting, sending, hat]
  next mbufs hat =>
    dsimp only
    split
    next hempty =>
      simp only [back, transmitting, sending, hat, append_take_of_isEmpty_drop hempty,
        List.append_assoc, List.nil_append]
    next =>
      simp only [back, transmitting, sending, hat, List.append_assoc]
      rw [← List.append_assoc (mbufs.take ret), List.take_append_drop]

theorem Sound.txStep (h : Sound key given s) (ret : ℕ) :
    Sound key given (s.txStep conf ret) := by
  have hfront : SameFront s (s.txStep conf ret) := sameFront_txStep ret
  refine h.move_scheduled hfront.queues ?_ ?_ hfront.freed hfront.rxStat hfront.workerStat
  · rw [scheduled, back_txStep, pushing, hfront.worker, scheduled, pushing]
  · rw [batch, hfront.worker, hfront.rxRing, batch]

/-- **One operation** of any thread. -/
theorem Sound.step (h : Sound key given s) (e : PipelineEvent α κ) :
    Sound key (given ++ (offered [e])) (s.step key conf e) := by
  cases e with
  | sendSchedulePkt m firewallProfileUpdate => exact h.sendSchedulePkt m firewallProfileUpdate
  | worker accepted served =>
    change Sound key (given ++ []) _
    rw [List.append_nil]
    exact h.workerStep accepted served
  | tx ret =>
    change Sound key (given ++ []) _
    rw [List.append_nil]
    exact h.txStep ret

/-- **Any interleaving.** -/
theorem sound_after (key : α → κ) (conf : BurstConf) (es : List (PipelineEvent α κ)) :
    Sound key (offered es) (after key conf es) := by
  induction es using List.reverseRecOn with
  | nil => exact sound_start
  | append_singleton es e ih =>
    rw [after, Runs.run_append, offered, List.filterMap_append]
    exact ih.step e

/-- **Frames across the threads.** After any interleaving, the frames given for a queue are,
each of them once, on the wire, on their way or freed; those that are not freed are in the order
in which they were given, and the counters tell how many were given and freed. -/
theorem frames_after (es : List (PipelineEvent α κ)) :
    let s := after key conf es
    (∀ k, (s.passage key k ++ Buckets.ofKey key k s.freed).Perm
      (Buckets.ofKey key k (offered es))) ∧
    (∀ k, (s.passage key k).Sublist (Buckets.ofKey key k (offered es))) ∧
    (∀ k, Buckets.ofKey key k s.freed = [] →
      Buckets.ofKey key k s.wire <+: Buckets.ofKey key k (offered es)) ∧
    s.rxStat.nbRx = (offered es).length ∧
    s.rxStat.nbDrop + s.workerStat.nbDrop = s.freed.length := by
  have hsound : Sound key (offered es) (after key conf es) := sound_after key conf es
  refine ⟨hsound.conserved, hsound.order, fun k hfreed => ?_, hsound.received, hsound.dropped⟩
  have hlength := (hsound.conserved k).length_eq
  rw [hfreed, List.append_nil] at hlength
  rw [← (hsound.order k).eq_of_length hlength, passage, scheduled, back]
  simp only [Buckets.ofKey_append, List.append_assoc]
  exact List.prefix_append _ _

end Pipeline

end SecureWan.WanOptimizer
