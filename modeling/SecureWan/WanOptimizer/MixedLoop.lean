import SecureWan.WanOptimizer.MixedThread
import SecureWan.WanOptimizer.QosPipeline

/-!
# The loop of the mixed thread

`app_mixed_thread` does for some rings what the worker and the TX thread do: each iteration takes a
burst of frames from one ring, frees some of them, takes those to port 1 through the scheduler, and
gives what is left to `app_send_packets`. Frames have the number of their mbuf.
-/

namespace SecureWan.WanOptimizer

/-- A ring with what is behind it. The queues are those of the scheduler; the frames after
`valid` are what an iteration has done so far: those that it put in `mbufs_valid`, and those freed
before, by the scheduler, and behind it. -/
structure MixedRing where
  rxRing : List (Packet × ℕ)
  queues : BitVec 32 → List (ℕ × Packet)
  mTable : List (ℕ × Packet)
  wire : List (ℕ × Packet)
  stat : ThreadStat
  valid : List (ℕ × Packet)
  early : List (Packet × ℕ)
  refused : List (ℕ × Packet)
  late : List (ℕ × Packet)
  /-- The loop over the queue lengths has read a frame that the scheduler had freed. -/
  readFreed : Bool

/-- The rings, and `profile_change`. -/
structure Mixed (ι : Type*) where
  ring : ι → MixedRing
  profileChange : Bool

/-- What is decided outside of the thread in an iteration: the uninitialised `dscp`, the frames
that the scheduler lets in and the queues that it serves, for which queues it has statistics, and
whether the time of a drain has come. -/
structure MixedChoice where
  unset : ℕ → BitVec 8
  accepted : ℕ → Bool
  served : List (BitVec 32)
  hasStats : BitVec 32 → Bool
  drain : Bool

/-- A frame that comes to a ring, or an iteration for it. -/
inductive MixedEvent (ι : Type*)
  | arrive (c : ι) (y : Packet × ℕ)
  | iterate (c : ι) (choice : MixedChoice)

/-- The test on the length of a frame, before and behind the scheduler. -/
def lengthOk (m : Mbuf) : Bool :=
  if m.field16 12 = 0x0800 then
    let ipLen := m.field16 16
    !decide (1518 < m.pktLen ∨ (m.pktLen ≠ ipLen + 14 ∧ 46 < ipLen))
  else !decide (1518 < m.pktLen)

namespace MixedRing

variable (conf : MixedConf) (burst : BurstConf) (r : MixedRing) (choice : MixedChoice)

/-- The queue of a frame. -/
def key (z : ℕ × Packet) : BitVec 32 := z.2.queueId

/-- What a loop over a burst makes of one of its frames. -/
def keep (y : Packet × ℕ) : List (ℕ × Packet) :=
  (mixedFrame conf choice.unset ⟨[], false⟩ y).mbufsValid

/-- The loop over a burst. -/
def readBurst : MixedRing × Burst :=
  let mbufs := r.rxRing.take burst.ringBurst
  let read := mbufs.foldl (mixedFrame conf choice.unset) ⟨[], false⟩
  ({ r with
    rxRing := r.rxRing.drop burst.ringBurst
    valid := r.valid ++ read.mbufsValid
    early := r.early ++ mbufs.filter fun y => (keep conf choice y).isEmpty }, read)

/-- `rte_sched_port_enqueue`, with the loop over the queue lengths, which goes over the first
`nb_sent` frames of the burst. -/
def enqueue (mbufsValid : List (ℕ × Packet)) : MixedRing :=
  let sent := Buckets.letIn choice.accepted mbufsValid
  { r with
    queues := Buckets.put key r.queues sent
    refused := r.refused ++ Buckets.refused choice.accepted mbufsValid
    stat := ⟨r.stat.nbRx + mbufsValid.length,
      r.stat.nbDrop + (mbufsValid.length - sent.length)⟩
    readFreed := r.readFreed || (List.range sent.length).any fun i => !choice.accepted i }

/-- The tests behind the scheduler. -/
def passes (z : ℕ × Packet) : Bool :=
  !conf.schedMaxQueueIndex.ult z.2.queueId && choice.hasStats z.2.queueId && lengthOk z.2.mbuf

/-- `rte_sched_port_dequeue`, with the tests on each frame. -/
def dequeue : MixedRing × List (ℕ × Packet) :=
  -- with `qos_dequeue <= ring_burst` they fit into `mbufs`
  let mbufs := Buckets.take r.queues (choice.served.take burst.qosDequeue)
  ({ r with
    queues := mbufs.2
    late := r.late ++ mbufs.1.filter fun z => !passes conf choice z },
    mbufs.1.filter (passes conf choice))

/-- `app_send_burst`, which calls the device until it has taken all frames. -/
def sendBurst : MixedRing := { r with wire := r.wire ++ r.mTable, mTable := [] }

/-- `app_send_packets`. -/
def sendPackets (mbufs : List (ℕ × Packet)) : MixedRing :=
  mbufs.foldl (fun r z =>
    let r := { r with mTable := r.mTable ++ [z] }
    if r.mTable.length = burst.txBurst then r.sendBurst else r) r

/-- The body of the loop over the rings, where no profile change is pending. -/
def iterate : MixedRing × Bool :=
  let read := r.readBurst conf burst choice
  let scheduled :=
    if conf.txPort = 1 then (read.1.enqueue choice read.2.mbufsValid).dequeue conf burst choice
    else (read.1, read.2.mbufsValid)
  let r := scheduled.1.sendPackets burst scheduled.2
  (if choice.drain ∧ r.mTable ≠ [] then r.sendBurst else r, read.2.profileChange)

end MixedRing

namespace Mixed

variable {ι : Type*} [DecidableEq ι] (conf : ι → MixedConf) (burst : BurstConf) (s : Mixed ι)

/-- A frame that comes to a ring, or an iteration for it. -/
def step : MixedEvent ι → Mixed ι
  | .arrive c y =>
    let next := { s.ring c with rxRing := (s.ring c).rxRing ++ [y] }
    { s with ring := Function.update s.ring c next }
  | .iterate c choice =>
    if s.profileChange then s
    else
      let next := (s.ring c).iterate (conf c) burst choice
      ⟨Function.update s.ring c next.1, next.2⟩

/-- The start. -/
def start : Mixed ι where
  ring _ := ⟨[], fun _ => [], [], [], ⟨0, 0⟩, [], [], [], [], false⟩
  profileChange := false

/-- The state after some events. -/
def after (es : List (MixedEvent ι)) : Mixed ι := Runs.run (fun s e => step conf burst s e) start es

/-- The frames that came to a ring. -/
def arrived (c : ι) (es : List (MixedEvent ι)) : List (Packet × ℕ) :=
  es.flatMap fun
    | .arrive c' y => if c' = c then [y] else []
    | .iterate _ _ => []

end Mixed

/-! ### One frame -/

section Frame

variable {conf : MixedConf} {choice : MixedChoice} {y : Packet × ℕ} {z : ℕ × Packet}

/-- What `schedule` leaves alone, and what it has tested. -/
theorem schedule_eq_some {unset : BitVec 8} {p p' : Packet} {getPktSchedWritten : Bool}
    (h : schedule conf unset p getPktSchedWritten = some p') :
    p'.mbuf = p.mbuf ∧ (conf.txPort = 1 → conf.schedMaxQueueIndex.ult p'.queueId = false) := by
  unfold schedule at h
  by_cases hport : conf.txPort = 1
  · rw [if_pos hport, Option.filter_eq_some_iff] at h
    obtain ⟨hwritten, htest⟩ := h
    refine ⟨?_, fun _ => by simpa using htest⟩
    split at hwritten
    · cases hwritten
      rfl
    · dsimp only at hwritten
      split at hwritten
      · split at hwritten
        · cases hwritten
        · cases hwritten
          rfl
      · cases hwritten
        rfl
  · rw [if_neg hport] at h
    cases h
    exact ⟨rfl, fun hport' => absurd hport' hport⟩

/-- The checksums do not matter for the test on the length. -/
theorem lengthOk_calculateTcpChecksum {m : Mbuf} (h : lengthOk m = true) :
    lengthOk (calculateTcpChecksum m) = true := by
  have hlen : (calculateTcpChecksum m).pktLen = m.pktLen := by
    unfold calculateTcpChecksum
    dsimp only
    rw [Mbuf.pktLen_store, Mbuf.pktLen_store]
    split
    · exact Mbuf.pktLen_store
    · rw [Mbuf.pktLen_store, Mbuf.pktLen_store]
  have hfield {off : ℕ} (hoff : off < 23) :
      (calculateTcpChecksum m).field16 off = m.field16 off := by
    rw [Mbuf.field16_eq, byteAt_outer (by omega) (by omega), byteAt_outer (by omega) (by omega),
      ← Mbuf.field16_eq]
  rw [lengthOk, hlen, hfield (by omega), hfield (by omega)]
  exact h

theorem lengthOk_checkHeader {m m' : Mbuf} {getPktSchedWritten : Bool}
    (h : checkHeader m = .go m' getPktSchedWritten) : lengthOk m' = true := by
  unfold checkHeader at h
  dsimp only at h
  split at h
  next htype =>
    split at h
    · cases h
    next hlen =>
      have hok : lengthOk m = true := by
        rw [lengthOk, if_pos htype, Bool.not_eq_true', decide_eq_false_iff_not]
        exact hlen
      split at h
      · split at h
        · cases h
        · cases h
          exact hok
      · split at h
        · cases h
          exact lengthOk_calculateTcpChecksum hok
        · cases h
          exact hok
  next htype =>
    split at h
    · cases h
    next hlen =>
      cases h
      rw [lengthOk, if_neg htype, Bool.not_eq_true', decide_eq_false_iff_not]
      exact hlen

namespace MixedRing

/-- The loop over a burst makes nothing of a frame, or one frame with its number. -/
theorem keep_cases (conf : MixedConf) (choice : MixedChoice) (y : Packet × ℕ) :
    keep conf choice y = [] ∨ ∃ m' getPktSchedWritten p,
      checkHeader y.1.mbuf = .go m' getPktSchedWritten ∧
      schedule conf (choice.unset y.2) { y.1 with mbuf := m' } getPktSchedWritten = some p ∧
      keep conf choice y = [(y.2, p)] := by
  unfold keep mixedFrame
  cases hheader : checkHeader y.1.mbuf with
  | free => exact .inl rfl
  | profileUpdate => exact .inl rfl
  | go m' getPktSchedWritten =>
    dsimp only
    cases hsched : schedule conf (choice.unset y.2) { y.1 with mbuf := m' } getPktSchedWritten with
    | none => exact .inl rfl
    | some p => exact .inr ⟨m', getPktSchedWritten, p, rfl, hsched, rfl⟩

theorem fst_of_mem_keep (h : z ∈ keep conf choice y) : z.1 = y.2 := by
  rcases keep_cases conf choice y with hnil | ⟨m', written, p, hheader, hsched, hone⟩
  · rw [hnil] at h
    cases h
  · rw [hone, List.mem_singleton] at h
    rw [h]

theorem lengthOk_of_mem_keep (h : z ∈ keep conf choice y) : lengthOk z.2.mbuf = true := by
  rcases keep_cases conf choice y with hnil | ⟨m', written, p, hheader, hsched, hone⟩
  · rw [hnil] at h
    cases h
  · rw [hone, List.mem_singleton] at h
    rw [h, (schedule_eq_some hsched).1]
    exact lengthOk_checkHeader hheader

/-- A frame to port 1 that a rule denies is a packet of the tunnel. -/
theorem isTunnel_of_mem_keep (h : z ∈ keep conf choice y) (hport : conf.txPort = 1)
    (hdenied : Denied conf.fw (choice.unset y.2) y.1.mbuf) : IsTunnel y.1.mbuf := by
  by_contra htunnel
  rw [keep, mixedFrame_of_denied hport hdenied htunnel] at h
  cases h

theorem mbufsValid_mixedFrame (s : Burst) : (mixedFrame conf choice.unset s y).mbufsValid =
    s.mbufsValid ++ keep conf choice y := by
  unfold keep mixedFrame
  split
  · exact (List.append_nil _).symm
  · exact (List.append_nil _).symm
  · split
    · rfl
    · exact (List.append_nil _).symm

theorem mbufsValid_foldl (mbufs : List (Packet × ℕ)) (s : Burst) :
    (mbufs.foldl (mixedFrame conf choice.unset) s).mbufsValid =
      s.mbufsValid ++ mbufs.flatMap (keep conf choice) := by
  induction mbufs generalizing s with
  | nil => exact (List.append_nil _).symm
  | cons y mbufs ih =>
    rw [List.foldl_cons, ih, mbufsValid_mixedFrame, List.append_assoc, List.flatMap_cons]

/-- Each frame of a burst is kept or freed. -/
theorem numbers_perm (mbufs : List (Packet × ℕ)) :
    ((mbufs.flatMap (keep conf choice)).map Prod.fst ++
      (mbufs.filter fun y => (keep conf choice y).isEmpty).map Prod.snd).Perm
        (mbufs.map Prod.snd) := by
  induction mbufs with
  | nil => exact List.Perm.refl _
  | cons y mbufs ih =>
    rw [List.flatMap_cons, List.map_append, List.map_cons]
    rcases keep_cases conf choice y with hnil | ⟨m', written, p, hheader, hsched, hone⟩
    · rw [List.filter_cons_of_pos (by rw [hnil]; rfl), hnil]
      exact List.perm_middle.trans (ih.cons _)
    · rw [List.filter_cons_of_neg (by rw [hone]; exact Bool.false_ne_true), hone]
      exact ih.cons _

theorem numbers_sublist (mbufs : List (Packet × ℕ)) :
    ((mbufs.flatMap (keep conf choice)).map Prod.fst).Sublist (mbufs.map Prod.snd) := by
  induction mbufs with
  | nil => exact List.Sublist.refl _
  | cons y mbufs ih =>
    rw [List.flatMap_cons, List.map_append, List.map_cons]
    rcases keep_cases conf choice y with hnil | ⟨m', written, p, hheader, hsched, hone⟩
    · rw [hnil]
      exact ih.cons _
    · rw [hone]
      exact ih.cons_cons _

end MixedRing

end Frame

namespace MixedRing

/-! ### The way of a frame -/

/-- What has left the scheduler, the oldest frame first, with the frames `back` that the thread
has in hand. -/
def shipped (r : MixedRing) (back : List (ℕ × Packet)) : List (ℕ × Packet) :=
  r.wire ++ (r.mTable ++ back)

/-- The frames of a queue that were not freed, the oldest one first, with the frames `front` that
the thread has in hand before the scheduler. -/
def passage (r : MixedRing) (front back : List (ℕ × Packet)) (k : BitVec 32) :
    List (ℕ × Packet) :=
  Buckets.ofKey key k (r.shipped back) ++ (r.queues k ++ Buckets.ofKey key k front)

/-- A frame that may go to the device. -/
def Fit (conf : MixedConf) (z : ℕ × Packet) : Prop :=
  lengthOk z.2.mbuf = true ∧ (conf.txPort = 1 → conf.schedMaxQueueIndex.ult z.2.queueId = false)

/-- The frames that came to the ring are there, in `mbufs_valid` or freed, and those in
`mbufs_valid` are on their way by queue, or freed. -/
structure Sound (conf : MixedConf) (given : List (Packet × ℕ)) (r : MixedRing)
    (front back : List (ℕ × Packet)) : Prop where
  numbers : (r.valid.map Prod.fst ++ (r.early.map Prod.snd ++ r.rxRing.map Prod.snd)).Perm
    (given.map Prod.snd)
  ring : ∀ y ∈ r.rxRing, y ∈ given
  arrival : (r.valid.map Prod.fst ++ r.rxRing.map Prod.snd).Sublist (given.map Prod.snd)
  sorted : Buckets.Sorted key r.queues
  conserved : ∀ k, (r.passage front back k ++ Buckets.ofKey key k (r.refused ++ r.late)).Perm
    (Buckets.ofKey key k r.valid)
  order : ∀ k, (r.passage front back k).Sublist (Buckets.ofKey key k r.valid)
  direct : conf.txPort ≠ 1 → (∀ k, r.queues k = []) ∧ r.shipped back ++ front = r.valid
  counters : conf.txPort = 1 →
    r.stat.nbRx + front.length = r.valid.length ∧ r.stat.nbDrop = r.refused.length
  kept : ∀ z ∈ r.valid, ∃ y ∈ given, ∃ choice, z ∈ keep conf choice y
  hand : ∀ z ∈ front, z ∈ r.valid
  fit : ∀ z ∈ r.shipped back, Fit conf z

section

variable {conf : MixedConf} {burst : BurstConf} {given : List (Packet × ℕ)} {r : MixedRing}
  {choice : MixedChoice} {front back : List (ℕ × Packet)} {k : BitVec 32}

theorem fit_of_mem_keep {y : Packet × ℕ} {z : ℕ × Packet} (h : z ∈ keep conf choice y) :
    Fit conf z := by
  refine ⟨lengthOk_of_mem_keep h, ?_⟩
  rcases keep_cases conf choice y with hnil | ⟨m', written, p, hheader, hsched, hone⟩
  · rw [hnil] at h
    cases h
  · rw [hone, List.mem_singleton] at h
    rw [h]
    exact (schedule_eq_some hsched).2

theorem Sound.arrive (h : Sound conf given r [] []) (y : Packet × ℕ) :
    Sound conf (given ++ [y]) { r with rxRing := r.rxRing ++ [y] } [] [] where
  numbers := by
    rw [List.map_append, List.map_append, ← List.append_assoc, ← List.append_assoc]
    refine List.Perm.append_right _ ?_
    rw [List.append_assoc]
    exact h.numbers
  ring y' hy' := by
    rcases List.mem_append.mp hy' with hold | hnew
    · exact List.mem_append_left _ (h.ring y' hold)
    · exact List.mem_append_right _ hnew
  arrival := by
    rw [List.map_append, List.map_append, ← List.append_assoc]
    exact h.arrival.append (List.Sublist.refl _)
  sorted := h.sorted
  conserved := h.conserved
  order := h.order
  direct := h.direct
  counters := h.counters
  kept z hz := by
    obtain ⟨y', hy', hkeep⟩ := h.kept z hz
    exact ⟨y', List.mem_append_left _ hy', hkeep⟩
  hand := h.hand
  fit := h.fit

/-- The loop over a burst. -/
theorem Sound.readBurst (h : Sound conf given r [] []) :
    Sound conf given (r.readBurst conf burst choice).1
      (r.readBurst conf burst choice).2.mbufsValid [] := by
  have hvalid : (r.readBurst conf burst choice).2.mbufsValid =
      (r.rxRing.take burst.ringBurst).flatMap (keep conf choice) := mbufsValid_foldl _ _
  have hvalid' : (r.readBurst conf burst choice).1.valid =
      r.valid ++ (r.rxRing.take burst.ringBurst).flatMap (keep conf choice) := by
    rw [← hvalid]
    rfl
  have hpassage (k : BitVec 32) : (r.readBurst conf burst choice).1.passage
      ((r.rxRing.take burst.ringBurst).flatMap (keep conf choice)) [] k =
      r.passage [] [] k ++
        Buckets.ofKey key k ((r.rxRing.take burst.ringBurst).flatMap (keep conf choice)) := by
    simp only [passage, Buckets.ofKey_nil, List.append_nil, List.append_assoc]
    rfl
  have hring : r.rxRing.map Prod.snd = (r.rxRing.take burst.ringBurst).map Prod.snd ++
      (r.rxRing.drop burst.ringBurst).map Prod.snd := by
    rw [← List.map_append, List.take_append_drop]
  rw [hvalid]
  refine ⟨?_, fun y hy => h.ring y (List.mem_of_mem_drop hy), ?_, h.sorted, fun k => ?_,
    fun k => ?_, fun hport => ?_, fun hport => ?_, fun z hz => ?_, fun z hz => ?_, h.fit⟩
  · rw [hvalid', List.map_append]
    refine List.Perm.trans ?_ h.numbers
    change (_ ++ _ ++ ((r.early ++ _).map Prod.snd ++ _)).Perm _
    rw [List.map_append, hring, List.append_assoc, List.append_assoc]
    exact (Buckets.perm_append_split (numbers_perm _)).append_left _
  · rw [hvalid', List.map_append]
    refine List.Sublist.trans ?_ h.arrival
    rw [hring, List.append_assoc]
    exact (List.Sublist.refl _).append ((numbers_sublist _).append (List.Sublist.refl _))
  · rw [hpassage, hvalid', Buckets.ofKey_append (l := r.valid)]
    refine List.Perm.trans ?_ ((h.conserved k).append_right _)
    rw [List.append_assoc, List.append_assoc]
    exact List.perm_append_comm.append_left _
  · rw [hpassage, hvalid', Buckets.ofKey_append]
    exact (h.order k).append (List.Sublist.refl _)
  · obtain ⟨hidle, hdirect⟩ := h.direct hport
    refine ⟨hidle, ?_⟩
    rw [hvalid', ← hdirect, List.append_nil]
    rfl
  · obtain ⟨hrx, hdrop⟩ := h.counters hport
    refine ⟨?_, hdrop⟩
    rw [hvalid', List.length_append, ← hrx]
    rfl
  · rw [hvalid', List.mem_append] at hz
    rcases hz with hold | hnew
    · exact h.kept z hold
    · obtain ⟨y, hy, hkeep⟩ := List.mem_flatMap.mp hnew
      exact ⟨y, h.ring y (List.mem_of_mem_take hy), choice, hkeep⟩
  · rw [hvalid']
    exact List.mem_append_right _ hz

/-- A burst that goes to the scheduler, which refuses some of its frames. -/
theorem Sound.enqueue (h : Sound conf given r front []) (hport : conf.txPort = 1) :
    Sound conf given (r.enqueue choice front) [] [] := by
  have hperm := Buckets.letIn_append_refused_perm choice.accepted front
  have hpassage (k : BitVec 32) : (r.enqueue choice front).passage [] [] k =
      Buckets.ofKey key k (r.shipped []) ++ (r.queues k ++
        Buckets.ofKey key k (Buckets.letIn choice.accepted front)) := by
    rw [passage, Buckets.ofKey_nil, List.append_nil]
    change _ ++ Buckets.put key r.queues _ k = _
    rw [Buckets.put_apply]
    rfl
  have hsub (k : BitVec 32) : (Buckets.ofKey key k (Buckets.letIn choice.accepted front)).Sublist
      (Buckets.ofKey key k front) := Buckets.ofKey_sublist (Buckets.letIn_sublist ..)
  have hkeyed (k : BitVec 32) : (Buckets.ofKey key k (Buckets.letIn choice.accepted front) ++
      Buckets.ofKey key k (Buckets.refused choice.accepted front)).Perm
      (Buckets.ofKey key k front) := by
    rw [← Buckets.ofKey_append]
    exact Buckets.ofKey_perm hperm
  refine ⟨h.numbers, h.ring, h.arrival, h.sorted.put _, fun k => ?_, fun k => ?_,
    fun hne => absurd hport hne, fun _ => ?_, h.kept, fun z hz => (by cases hz), h.fit⟩
  · refine List.Perm.trans ?_ (h.conserved k)
    rw [hpassage, passage]
    change (_ ++ Buckets.ofKey key k (r.refused ++ _ ++ r.late)).Perm _
    simp only [Buckets.ofKey_append, List.append_assoc]
    refine List.Perm.append_left _ (List.Perm.append_left _ ?_)
    exact (Buckets.perm_append_split (hkeyed k)).trans (List.perm_append_comm_assoc _ _ _)
  · refine List.Sublist.trans ?_ (h.order k)
    rw [hpassage, passage]
    exact (List.Sublist.refl _).append ((List.Sublist.refl _).append (hsub k))
  · obtain ⟨hrx, hdrop⟩ := h.counters hport
    have hlen := hperm.length_eq
    rw [List.length_append] at hlen
    refine ⟨hrx, ?_⟩
    change r.stat.nbDrop + _ = (r.refused ++ _).length
    rw [List.length_append, hdrop]
    omega

theorem shipped_append (r : MixedRing) (back back' : List (ℕ × Packet)) :
    r.shipped (back ++ back') = r.shipped back ++ back' := by
  simp only [shipped, List.append_assoc]

/-- The frames that the scheduler gives back, with the tests on each of them. -/
theorem Sound.dequeue (h : Sound conf given r [] []) (hport : conf.txPort = 1) :
    Sound conf given (r.dequeue conf burst choice).1 [] (r.dequeue conf burst choice).2 := by
  have htake (k : BitVec 32) := Buckets.ofKey_take h.sorted (choice.served.take burst.qosDequeue) k
  unfold MixedRing.dequeue
  dsimp only
  generalize Buckets.take r.queues (choice.served.take burst.qosDequeue) = mbufs at htake ⊢
  have hsorted : Buckets.Sorted key mbufs.2 := by
    intro k z hz
    apply h.sorted k z
    rw [← htake k]
    exact List.mem_append_right _ hz
  have hsplit (k : BitVec 32) : (Buckets.ofKey key k (mbufs.1.filter (passes conf choice)) ++
      Buckets.ofKey key k (mbufs.1.filter fun z => !passes conf choice z)).Perm
      (Buckets.ofKey key k mbufs.1) := by
    rw [← Buckets.ofKey_append]
    exact Buckets.ofKey_perm (List.filter_append_perm (passes conf choice) mbufs.1)
  refine ⟨h.numbers, h.ring, h.arrival, hsorted, fun k => ?_, fun k => ?_,
    fun hne => absurd hport hne, h.counters, h.kept, fun z hz => (by cases hz), fun z hz => ?_⟩
  · refine List.Perm.trans ?_ (h.conserved k)
    rw [passage, passage, ← htake k, ← List.nil_append (mbufs.1.filter (passes conf choice)),
      shipped_append]
    simp only [Buckets.ofKey_append, Buckets.ofKey_nil, List.append_assoc, List.append_nil]
    refine List.Perm.append_left _ (List.Perm.trans ?_ ((hsplit k).append_right _))
    rw [List.append_assoc, ← List.append_assoc (Buckets.ofKey key k r.refused),
      ← List.append_assoc (mbufs.2 k)]
    exact List.perm_append_comm.append_left _
  · refine List.Sublist.trans ?_ (h.order k)
    rw [passage, passage, ← htake k, ← List.nil_append (mbufs.1.filter (passes conf choice)),
      shipped_append, Buckets.ofKey_append, List.append_assoc, List.append_assoc]
    refine (List.Sublist.refl _).append (List.Sublist.append ?_ (List.Sublist.refl _))
    exact Buckets.ofKey_sublist List.filter_sublist
  · rw [← List.nil_append (mbufs.1.filter (passes conf choice)), shipped_append,
      List.mem_append] at hz
    rcases hz with hold | hnew
    · exact h.fit z hold
    · have hpasses := (List.mem_filter.mp hnew).2
      simp only [passes, Bool.and_eq_true, Bool.not_eq_true'] at hpasses
      exact ⟨hpasses.2, fun _ => hpasses.1.1⟩

/-- A burst that does not go to the scheduler. -/
theorem Sound.skip (h : Sound conf given r front []) (hport : conf.txPort ≠ 1) :
    Sound conf given r [] front := by
  obtain ⟨hidle, hdirect⟩ := h.direct hport
  have hshipped : r.shipped front = r.shipped [] ++ front := by
    rw [← shipped_append, List.nil_append]
  have hpassage (k : BitVec 32) : r.passage [] front k = r.passage front [] k := by
    rw [passage, passage, hshipped, hidle, Buckets.ofKey_append, Buckets.ofKey_nil,
      List.append_nil, List.append_nil, List.nil_append]
  refine ⟨h.numbers, h.ring, h.arrival, h.sorted, fun k => ?_, fun k => ?_, fun _ => ⟨hidle, ?_⟩,
    fun heq => absurd heq hport, h.kept, fun z hz => (by cases hz), fun z hz => ?_⟩
  · rw [hpassage]
    exact h.conserved k
  · rw [hpassage]
    exact h.order k
  · rw [List.append_nil, hshipped, hdirect]
  · rw [hshipped, List.mem_append] at hz
    rcases hz with hold | hnew
    · exact h.fit z hold
    · obtain ⟨y, _, choice, hkeep⟩ := h.kept z (h.hand z hnew)
      exact fit_of_mem_keep hkeep

/-- What the thread has in hand goes on to `m_table` and the device. -/
theorem Sound.ship {r' : MixedRing} (h : Sound conf given r [] back)
    (hship : r'.shipped [] = r.shipped back)
    (hsame : r' = { r with wire := r'.wire, mTable := r'.mTable }) :
    Sound conf given r' [] [] := by
  generalize r'.wire = wire, r'.mTable = mTable at hsame
  subst hsame
  have hpassage (k : BitVec 32) :
      passage { r with wire := wire, mTable := mTable } [] [] k = r.passage [] back k := by
    rw [passage, hship, passage]
  refine ⟨h.numbers, h.ring, h.arrival, h.sorted, fun k => ?_, fun k => ?_, fun hport => ?_,
    h.counters, h.kept, h.hand, fun z hz => ?_⟩
  · rw [hpassage]
    exact h.conserved k
  · rw [hpassage]
    exact h.order k
  · rw [hship]
    exact h.direct hport
  · rw [hship] at hz
    exact h.fit z hz

theorem sendBurst_eq (r : MixedRing) :
    r.sendBurst.shipped [] = r.shipped [] ∧
      r.sendBurst = { r with wire := r.sendBurst.wire, mTable := r.sendBurst.mTable } := by
  refine ⟨?_, rfl⟩
  simp only [shipped, sendBurst, List.append_nil]

/-- `app_send_packets` moves frames on without changing their order. -/
theorem sendPackets_eq (r : MixedRing) (mbufs : List (ℕ × Packet)) :
    (r.sendPackets burst mbufs).shipped [] = r.shipped mbufs ∧
      r.sendPackets burst mbufs =
        { r with wire := (r.sendPackets burst mbufs).wire,
                 mTable := (r.sendPackets burst mbufs).mTable } := by
  induction mbufs generalizing r with
  | nil => exact ⟨rfl, rfl⟩
  | cons z mbufs ih =>
    have hput : ({ r with mTable := r.mTable ++ [z] } : MixedRing).shipped mbufs =
        r.shipped (z :: mbufs) := by
      simp only [shipped, List.append_assoc, List.singleton_append]
    rw [sendPackets, List.foldl_cons, ← sendPackets]
    dsimp only
    split
    · obtain ⟨hship, hsame⟩ := ih (sendBurst { r with mTable := r.mTable ++ [z] })
      refine ⟨?_, by rw [hsame]; rfl⟩
      rw [hship, ← hput]
      simp only [shipped, sendBurst, List.append_assoc, List.nil_append]
    · obtain ⟨hship, hsame⟩ := ih { r with mTable := r.mTable ++ [z] }
      exact ⟨by rw [hship, hput], by rw [hsame]⟩

/-- **One iteration.** -/
theorem Sound.iterate (h : Sound conf given r [] []) :
    Sound conf given (r.iterate conf burst choice).1 [] [] := by
  have hread : Sound conf given (r.readBurst conf burst choice).1
      (r.readBurst conf burst choice).2.mbufsValid [] := h.readBurst
  have hsend {r : MixedRing} {back : List (ℕ × Packet)} (h : Sound conf given r [] back) :
      Sound conf given (r.sendPackets burst back) [] [] :=
    h.ship (sendPackets_eq r back).1 (sendPackets_eq r back).2
  have hdrain {r : MixedRing} (h : Sound conf given r [] []) :
      Sound conf given (if choice.drain ∧ r.mTable ≠ [] then r.sendBurst else r) [] [] := by
    split
    · exact h.ship (sendBurst_eq r).1 (sendBurst_eq r).2
    · exact h
  unfold MixedRing.iterate
  dsimp only
  apply hdrain
  split
  next hport => exact hsend ((hread.enqueue hport).dequeue hport)
  next hport => exact hsend (hread.skip hport)

end

end MixedRing

namespace Mixed

open MixedRing

variable {ι : Type*} [DecidableEq ι] {conf : ι → MixedConf} {burst : BurstConf}

omit [DecidableEq ι] in
theorem sound_start (c : ι) : Sound (conf c) [] (start.ring c) [] [] where
  numbers := List.Perm.refl _
  ring _ hy := by cases hy
  arrival := List.Sublist.refl _
  sorted := Buckets.sorted_empty
  conserved _ := List.Perm.refl _
  order _ := List.Sublist.refl _
  direct _ := ⟨fun _ => rfl, rfl⟩
  counters _ := ⟨rfl, rfl⟩
  kept _ hz := by cases hz
  hand _ hz := by cases hz
  fit _ hz := by cases hz

/-- **One event**, seen from one of the rings. -/
theorem sound_step {s : Mixed ι} {c : ι} {given : List (Packet × ℕ)}
    (h : Sound (conf c) given (s.ring c) [] []) (e : MixedEvent ι) :
    Sound (conf c) (given ++ arrived c [e]) ((s.step conf burst e).ring c) [] [] := by
  cases e with
  | arrive c' y =>
    by_cases hc : c' = c
    · subst hc
      simp only [step, arrived, List.flatMap_cons, List.flatMap_nil, if_pos, List.append_nil,
        Function.update_self]
      exact h.arrive y
    · simp only [step, arrived, List.flatMap_cons, List.flatMap_nil, if_neg hc, List.append_nil,
        Function.update_of_ne (Ne.symm hc)]
      exact h
  | iterate c' choice =>
    rw [show arrived c [MixedEvent.iterate c' choice] = [] from rfl, List.append_nil]
    unfold step
    dsimp only
    split
    · exact h
    · by_cases hc : c' = c
      · subst hc
        simp only [Function.update_self]
        exact h.iterate
      · simp only [Function.update_of_ne (Ne.symm hc)]
        exact h

theorem sound_after (c : ι) (es : List (MixedEvent ι)) :
    Sound (conf c) (arrived c es) ((after conf burst es).ring c) [] [] := by
  induction es using List.reverseRecOn with
  | nil => exact sound_start c
  | append_singleton es e ih =>
    rw [after, Runs.run_append, arrived, List.flatMap_append]
    exact sound_step ih e

/-- **Frames across the rings.** After any iterations, each frame that came to a ring is, once, on
the ring, freed before `mbufs_valid` or put there; and what was put there for a queue is, once, on
the wire, in `m_table`, with the scheduler or freed. What is on the wire for a queue is in the order
in which it came to the ring. -/
theorem mixed_frames_after (c : ι) (es : List (MixedEvent ι)) :
    let r := (after conf burst es).ring c
    (r.valid.map Prod.fst ++ (r.early.map Prod.snd ++ r.rxRing.map Prod.snd)).Perm
      ((arrived c es).map Prod.snd) ∧
    (∀ k, (Buckets.ofKey key k (r.wire ++ r.mTable) ++ r.queues k ++
      Buckets.ofKey key k (r.refused ++ r.late)).Perm (Buckets.ofKey key k r.valid)) ∧
    (∀ k, ((Buckets.ofKey key k r.wire).map Prod.fst).Sublist
      ((arrived c es).map Prod.snd)) ∧
    ((conf c).txPort = 1 →
      r.stat.nbRx = r.valid.length ∧ r.stat.nbDrop = r.refused.length) := by
  have h : Sound (conf c) (arrived c es) ((after conf burst es).ring c) [] [] := sound_after c es
  refine ⟨h.numbers, fun k => ?_, fun k => ?_, h.counters⟩
  · have hk := h.conserved k
    rw [passage, shipped, Buckets.ofKey_nil, List.append_nil, List.append_nil] at hk
    exact hk
  · have hwire : (Buckets.ofKey key k ((after conf burst es).ring c).wire).Sublist
        (((after conf burst es).ring c).passage [] [] k) := by
      rw [passage, shipped, Buckets.ofKey_append, List.append_assoc]
      exact List.sublist_append_left _ _
    have hvalid : (Buckets.ofKey key k ((after conf burst es).ring c).valid).Sublist
        ((after conf burst es).ring c).valid := List.filter_sublist
    refine ((hwire.trans (h.order k)).trans hvalid |>.map Prod.fst).trans ?_
    exact (List.sublist_append_left _ _).trans h.arrival

/-- **What reaches the wire.** After any iterations, each frame on the wire has passed the test on
its length, and has the number of a frame that came to its ring; behind port 1, a rule that denied
that frame was not asked, because the frame was taken for a packet of the tunnel, and its queue is
one of the scheduler. -/
theorem wire_safe (c : ι) (es : List (MixedEvent ι)) :
    ∀ z ∈ ((after conf burst es).ring c).wire, lengthOk z.2.mbuf = true ∧
      ∃ y ∈ arrived c es, y.2 = z.1 ∧ ∃ unset, (conf c).txPort = 1 →
        (Denied (conf c).fw unset y.1.mbuf → IsTunnel y.1.mbuf) ∧
        (conf c).schedMaxQueueIndex.ult z.2.queueId = false := by
  intro z hz
  have h : Sound (conf c) (arrived c es) ((after conf burst es).ring c) [] [] := sound_after c es
  have hshipped : z ∈ ((after conf burst es).ring c).shipped [] := List.mem_append_left _ hz
  have hvalid : z ∈ ((after conf burst es).ring c).valid := by
    have hkey : z ∈ Buckets.ofKey key (key z) (((after conf burst es).ring c).shipped []) :=
      List.mem_filter.mpr ⟨hshipped, beq_self_eq_true _⟩
    have hmem := (h.order (key z)).subset (List.mem_append_left _ hkey)
    exact (List.mem_filter.mp hmem).1
  obtain ⟨y, hy, choice, hkeep⟩ := h.kept z hvalid
  refine ⟨(h.fit z hshipped).1, y, hy, (fst_of_mem_keep hkeep).symm, choice.unset y.2,
    fun hport => ⟨fun hdenied => isTunnel_of_mem_keep hkeep hport hdenied,
      (h.fit z hshipped).2 hport⟩⟩

/-- One ring, to port 1, with a table without rules. -/
def noRules : Unit → MixedConf := fun _ => { denyAll with fw := ⟨[], 0, 0, 12⟩ }

/-- A frame that comes to the ring, and an iteration that takes it to the device. -/
def oneFrame : List (MixedEvent Unit) :=
  [.arrive () (udpFrame 80, 7), .iterate () ⟨fun _ => 0, fun _ => true, [17], fun _ => true, true⟩]

/-- A frame on the wire. -/
theorem wire_safe_udp : lengthOk (udpFrame 80).mbuf = true ∧
    ∃ y ∈ arrived () oneFrame, y.2 = 7 ∧ ∃ unset, (1 : ℕ) = 1 →
      (Denied (noRules ()).fw unset y.1.mbuf → IsTunnel y.1.mbuf) ∧
      (31 : BitVec 32).ult 17 = false := by
  have hwire : ((after noRules ⟨1, 1, 4, 4, 4, 10⟩ oneFrame).ring ()).wire =
      [(7, ⟨(udpFrame 80).mbuf, 17⟩)] := rfl
  have hmem : (7, ⟨(udpFrame 80).mbuf, 17⟩) ∈
      ((after noRules ⟨1, 1, 4, 4, 4, 10⟩ oneFrame).ring ()).wire := by
    rw [hwire]
    exact List.mem_singleton_self _
  exact wire_safe () oneFrame (7, ⟨(udpFrame 80).mbuf, 17⟩) hmem

/-! ### Frames that the scheduler has freed -/

/-- Of the frames that the scheduler is given in this iteration, it refuses none before one that it
lets in. -/
def RefusesLast (conf : ι → MixedConf) (burst : BurstConf) (s : Mixed ι) : MixedEvent ι → Prop
  | .arrive _ _ => True
  | .iterate c choice => s.profileChange = false → (conf c).txPort = 1 →
    Buckets.RefusedLast choice.accepted
      (((s.ring c).rxRing.take burst.ringBurst).flatMap (keep (conf c) choice)).length

theorem readFreed_iterate {conf : MixedConf} {choice : MixedChoice} {r : MixedRing} :
    (r.iterate conf burst choice).1.readFreed = false ↔ r.readFreed = false ∧
      (conf.txPort = 1 → Buckets.RefusedLast choice.accepted
        ((r.rxRing.take burst.ringBurst).flatMap (keep conf choice)).length) := by
  have hvalid : (r.readBurst conf burst choice).2.mbufsValid =
      (r.rxRing.take burst.ringBurst).flatMap (keep conf choice) := mbufsValid_foldl _ _
  have hsend (r : MixedRing) (mbufs : List (ℕ × Packet)) :
      (r.sendPackets burst mbufs).readFreed = r.readFreed := by
    rw [(sendPackets_eq r mbufs).2]
  have hdrain (r : MixedRing) :
      (if choice.drain ∧ r.mTable ≠ [] then r.sendBurst else r).readFreed = r.readFreed := by
    split <;> rfl
  have henqueue (mbufsValid : List (ℕ × Packet)) :
      ((dequeue conf burst ((r.readBurst conf burst choice).1.enqueue choice mbufsValid)
        choice).1).readFreed = false ↔
      r.readFreed = false ∧ Buckets.RefusedLast choice.accepted mbufsValid.length := by
    rw [← Buckets.forall_lt_length_letIn_iff]
    simp [dequeue, enqueue, readBurst]
  unfold MixedRing.iterate
  dsimp only
  rw [hdrain, hsend]
  split
  next hport =>
    rw [henqueue, hvalid]
    exact and_congr_right fun _ => ⟨fun h _ => h, fun h => h hport⟩
  next hport =>
    exact (and_iff_left fun heq => absurd heq hport).symm

/-- **Where the loop reads what is gone.** `rte_sched_port_enqueue` returns how many frames it let
in and frees the others, wherever they stand; the loop over the queue lengths goes over the first
frames of the burst, as many as were let in. So it never reads a freed frame exactly as long as the
scheduler refuses no frame before one that it lets in. -/
theorem readFreed_iff (es : List (MixedEvent ι)) :
    Runs.Throughout (fun s e => step conf burst s e) (fun s => ∀ c, (s.ring c).readFreed = false)
      start es ↔
    Runs.StepsMeet (fun s e => step conf burst s e) (RefusesLast conf burst) start es := by
  have htrue (s : Mixed ι) (e : MixedEvent ι) (_ : True) (_ : ∀ c, (s.ring c).readFreed = false)
      (_ : RefusesLast conf burst s e) : True := trivial
  refine Runs.throughout_iff_stepsMeet htrue ?_ trivial (fun _ => rfl) es
  intro s e _ hs
  have hupdate {c : ι} {r : MixedRing} : (∀ c', (Function.update s.ring c r c').readFreed = false) ↔
      r.readFreed = false := by
    constructor
    · intro h
      have hc := h c
      rwa [Function.update_self] at hc
    · intro h c'
      by_cases hc : c' = c
      · rw [hc, Function.update_self, h]
      · rw [Function.update_of_ne hc, hs c']
  cases e with
  | arrive c y => exact iff_of_true (hupdate.mpr (hs c)) trivial
  | iterate c choice =>
    unfold step RefusesLast
    dsimp only
    split
    next hchange => exact iff_of_true hs fun hfalse => by rw [hchange] at hfalse; cases hfalse
    next hchange =>
      rw [hupdate, readFreed_iterate, and_iff_right (hs c)]
      constructor
      · exact fun h _ => h
      · exact fun h => h (eq_false_of_ne_true hchange)

end Mixed

end SecureWan.WanOptimizer
