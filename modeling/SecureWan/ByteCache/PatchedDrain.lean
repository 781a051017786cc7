import SecureWan.ByteCache.Drain
import Mathlib.Data.List.Perm.Basic

/-!
# Two lcores that take the pending list

The drain of `app_thread_patch (1).txt` and of `uipc_socket_patch (1).txt`: the timer and the data
path both detach `tlv_pending` with `module1_take_pending`, under the lock, and pass what they have
taken afterwards, without it. A chain that was taken has one owner, so that it is a list here.
-/

namespace SecureWan.ByteCache

/-- The lcore of the timer, and that of the data path. -/
inductive Lcore
  | timer
  | data
deriving DecidableEq

/-- The other lcore. -/
def Lcore.other : Lcore → Lcore
  | .timer => .data
  | .data => .timer

/-- Where an lcore is in its drain of the connection. -/
inductive DrainPc
  | idle
  /-- `byte_caching_timer_check` or `module1_add_data` has returned. -/
  | fed
  /-- `module1_take_pending` has returned. -/
  | taken (pending : List ℕ)

/-- A connection with the patched drain. TLVs have the number of their production. -/
structure Patched where
  produced : ℕ
  tlvPending : List ℕ
  lcore : Lcore → DrainPc
  /-- The TLVs passed to `tcp_usr_send`. -/
  passed : List ℕ
  /-- The TLVs of the chains passed to `m_freem`. -/
  freed : List ℕ

namespace Patched

variable (s : Patched)

/-- One step of an lcore, with the TLVs that its call makes, and whether there is a socket to pass
them to. -/
def drain (l : Lcore) (chunks : ℕ) (peer : Bool) : Patched :=
  match s.lcore l with
  | .idle =>
    { s with
      produced := s.produced + chunks
      tlvPending := s.tlvPending ++ List.range' s.produced chunks
      lcore := Function.update s.lcore l .fed }
  | .fed => { s with tlvPending := [], lcore := Function.update s.lcore l (.taken s.tlvPending) }
  | .taken pending =>
    if peer then
      { s with passed := s.passed ++ pending, lcore := Function.update s.lcore l .idle }
    else { s with freed := s.freed ++ pending, lcore := Function.update s.lcore l .idle }

/-- One step: the check of the timer makes one TLV at most, and the data path has its socket. -/
def step : LcoreStep → Patched
  | .timer built peer => s.drain .timer built.toNat peer
  | .data chunks => s.drain .data chunks true

/-- A connection before any data. -/
def start : Patched := ⟨0, [], fun _ => .idle, [], []⟩

/-- The connection after some steps. -/
def after (es : List LcoreStep) : Patched := Runs.run step start es

/-- What an lcore has taken. -/
def hand (l : Lcore) : List ℕ :=
  match s.lcore l with
  | .taken pending => pending
  | _ => []

/-- The TLVs that are still to be passed. -/
def waiting : List ℕ := s.hand .timer ++ (s.hand .data ++ s.tlvPending)

/-- The TLVs passed are in the order of their production, and older than what waits. -/
def InOrder : Prop := s.passed.Pairwise (· < ·) ∧ ∀ i ∈ s.passed, ∀ j ∈ s.waiting, i < j

/-- What the lcore does with a chain. -/
def passes : LcoreStep → Lcore × Bool
  | .timer _ peer => (.timer, peer)
  | .data _ => (.data, true)

/-- No lcore passes a chain while the other one has an older chain in hand. -/
def OldestFirst (e : LcoreStep) : Prop :=
  (passes e).2 = true → ∀ i ∈ s.hand (passes e).1, ∀ j ∈ s.hand (passes e).1.other, i < j

/-- How the chains lie: each TLV is in one place, each chain holds TLVs in a row, and the pending
one holds the latest. -/
structure Dealt : Prop where
  once : (s.passed ++ (s.freed ++ s.waiting)).Perm (List.range s.produced)
  row : ∀ l, (s.hand l).Pairwise (· < ·)
  pending : s.tlvPending.Pairwise (· < ·)
  latest : ∀ l, ∀ i ∈ s.hand l, ∀ j ∈ s.tlvPending, i < j

variable {s} {l : Lcore}

theorem step_eq (e : LcoreStep) :
    ∃ chunks, s.step e = s.drain (passes e).1 chunks (passes e).2 := by
  cases e with
  | timer built peer => exact ⟨built.toNat, rfl⟩
  | data chunks => exact ⟨chunks, rfl⟩

theorem hand_of_idle (h : s.lcore l = .idle) : s.hand l = [] := by rw [hand, h]

theorem hand_of_fed (h : s.lcore l = .fed) : s.hand l = [] := by rw [hand, h]

theorem hand_of_taken {pending : List ℕ} (h : s.lcore l = .taken pending) : s.hand l = pending := by
  rw [hand, h]

theorem other_ne (l : Lcore) : l.other ≠ l := by
  cases l <;> decide

theorem eq_or_eq_other (l k : Lcore) : k = l ∨ k = l.other := by
  cases l <;> cases k <;> decide

/-- What waits, seen from one lcore. -/
theorem waiting_perm (s : Patched) (l : Lcore) :
    s.waiting.Perm (s.hand l ++ (s.hand l.other ++ s.tlvPending)) := by
  cases l with
  | timer => exact List.Perm.refl _
  | data =>
    rw [waiting, ← List.append_assoc, ← List.append_assoc]
    exact List.perm_append_comm.append_right _

/-! ### One step -/

/-- The step made TLVs, which are pending. -/
structure Fed (s s' : Patched) (l : Lcore) (chunks : ℕ) : Prop where
  hand : s.hand l = []
  hand' : s'.hand l = []
  other : s'.hand l.other = s.hand l.other
  produced : s'.produced = s.produced + chunks
  pending : s'.tlvPending = s.tlvPending ++ List.range' s.produced chunks
  passed : s'.passed = s.passed
  freed : s'.freed = s.freed

/-- The step took what was pending. -/
structure Took (s s' : Patched) (l : Lcore) : Prop where
  hand : s.hand l = []
  hand' : s'.hand l = s.tlvPending
  other : s'.hand l.other = s.hand l.other
  produced : s'.produced = s.produced
  pending : s'.tlvPending = []
  passed : s'.passed = s.passed
  freed : s'.freed = s.freed

/-- The step gave away what was in hand. -/
structure Gave (s s' : Patched) (l : Lcore) (peer : Bool) : Prop where
  hand' : s'.hand l = []
  other : s'.hand l.other = s.hand l.other
  produced : s'.produced = s.produced
  pending : s'.tlvPending = s.tlvPending
  passed : s'.passed = s.passed ++ if peer then s.hand l else []
  freed : s'.freed = s.freed ++ if peer then [] else s.hand l

theorem hand_congr {s' : Patched} (h : s'.lcore l = s.lcore l) : s'.hand l = s.hand l := by
  rw [hand, h, hand]

/-- What a step of an lcore does. -/
theorem drain_cases (s : Patched) (l : Lcore) (chunks : ℕ) (peer : Bool) :
    Fed s (s.drain l chunks peer) l chunks ∨ Took s (s.drain l chunks peer) l ∨
      Gave s (s.drain l chunks peer) l peer := by
  have hself (pc : DrainPc) : Function.update s.lcore l pc l = pc := Function.update_self ..
  have hother (pc : DrainPc) : Function.update s.lcore l pc l.other = s.lcore l.other :=
    Function.update_of_ne (other_ne l) ..
  unfold drain
  cases hpc : s.lcore l with
  | idle =>
    left
    exact ⟨hand_of_idle hpc, hand_of_fed (hself _), hand_congr (hother _), rfl, rfl, rfl, rfl⟩
  | fed =>
    right
    left
    exact ⟨hand_of_fed hpc, hand_of_taken (hself _), hand_congr (hother _), rfl, rfl, rfl, rfl⟩
  | taken pending =>
    right
    right
    have hhand := hand_of_taken hpc
    cases peer with
    | true =>
      refine ⟨hand_of_idle (hself _), hand_congr (hother _), rfl, rfl, ?_, ?_⟩
      · rw [if_pos rfl, hhand]
        rfl
      · exact (List.append_nil _).symm
    | false =>
      refine ⟨hand_of_idle (hself _), hand_congr (hother _), rfl, rfl, ?_, ?_⟩
      · exact (List.append_nil _).symm
      · rw [if_neg Bool.false_ne_true, hhand]
        rfl

theorem dealt_start : start.Dealt where
  once := List.Perm.refl _
  row _ := List.Pairwise.nil
  pending := List.Pairwise.nil
  latest _ _ hi := by cases hi

theorem Dealt.lt_produced (h : s.Dealt) {i : ℕ} (hi : i ∈ s.passed ++ (s.freed ++ s.waiting)) :
    i < s.produced := List.mem_range.mp (h.once.mem_iff.mp hi)

theorem Dealt.waiting_lt (h : s.Dealt) {i : ℕ} (hi : i ∈ s.waiting) : i < s.produced :=
  h.lt_produced (List.mem_append_right _ (List.mem_append_right _ hi))

theorem mem_waiting_of_hand {i : ℕ} (hi : i ∈ s.hand l) : i ∈ s.waiting :=
  (waiting_perm s l).mem_iff.mpr (List.mem_append_left _ hi)

theorem mem_waiting_of_pending {i : ℕ} (hi : i ∈ s.tlvPending) : i ∈ s.waiting :=
  List.mem_append_right _ (List.mem_append_right _ hi)

section

variable {s' : Patched} {chunks : ℕ} {peer : Bool}

theorem Fed.waiting (h : Fed s s' l chunks) :
    s'.waiting.Perm (s.waiting ++ List.range' s.produced chunks) := by
  refine (waiting_perm s' l).trans (List.Perm.trans ?_ ((waiting_perm s l).append_right _).symm)
  rw [h.hand, h.hand', h.other, h.pending, List.nil_append, List.nil_append, List.append_assoc]

theorem Took.waiting (h : Took s s' l) : s'.waiting.Perm s.waiting := by
  refine (waiting_perm s' l).trans (List.Perm.trans ?_ (waiting_perm s l).symm)
  rw [h.hand, h.hand', h.other, h.pending, List.append_nil, List.nil_append]
  exact List.perm_append_comm

theorem Gave.waiting (h : Gave s s' l peer) : s.waiting.Perm (s.hand l ++ s'.waiting) := by
  refine (waiting_perm s l).trans (List.Perm.append_left _ ?_)
  refine List.Perm.trans ?_ (waiting_perm s' l).symm
  rw [h.hand', h.other, h.pending, List.nil_append]

theorem Dealt.feed (h : s.Dealt) (hs : Fed s s' l chunks) : s'.Dealt := by
  have hlater {i j : ℕ} (hi : i ∈ s.waiting) (hj : j ∈ List.range' s.produced chunks) :
      i < j := Nat.lt_of_lt_of_le (h.waiting_lt hi) (List.mem_range'_1.mp hj).1
  refine ⟨?_, fun k => ?_, ?_, fun k i hi j hj => ?_⟩
  · rw [hs.passed, hs.freed, hs.produced, List.range_add, ← List.range'_eq_map_range]
    refine List.Perm.trans ?_ (h.once.append_right _)
    rw [List.append_assoc, List.append_assoc]
    exact (hs.waiting.append_left _).append_left _
  · rcases eq_or_eq_other l k with rfl | rfl
    · rw [hs.hand']
      exact List.Pairwise.nil
    · rw [hs.other]
      exact h.row _
  · rw [hs.pending, List.pairwise_append]
    exact ⟨h.pending, List.pairwise_lt_range', fun i hi j hj =>
      hlater (mem_waiting_of_pending hi) hj⟩
  · rcases eq_or_eq_other l k with rfl | rfl
    · rw [hs.hand'] at hi
      cases hi
    · rw [hs.other] at hi
      rw [hs.pending, List.mem_append] at hj
      rcases hj with hj | hj
      · exact h.latest _ i hi j hj
      · exact hlater (mem_waiting_of_hand hi) hj

theorem Dealt.take (h : s.Dealt) (hs : Took s s' l) : s'.Dealt := by
  refine ⟨?_, fun k => ?_, ?_, fun k i hi j hj => ?_⟩
  · rw [hs.passed, hs.freed, hs.produced]
    exact ((hs.waiting.append_left _).append_left _).trans h.once
  · rcases eq_or_eq_other l k with rfl | rfl
    · rw [hs.hand']
      exact h.pending
    · rw [hs.other]
      exact h.row _
  · rw [hs.pending]
    exact List.Pairwise.nil
  · rw [hs.pending] at hj
    cases hj

theorem Dealt.give (h : s.Dealt) (hs : Gave s s' l peer) : s'.Dealt := by
  refine ⟨?_, fun k => ?_, ?_, fun k i hi j hj => ?_⟩
  · rw [hs.produced, hs.passed, hs.freed]
    refine List.Perm.trans ?_ h.once
    refine List.Perm.trans ?_ ((hs.waiting.symm.append_left _).append_left _)
    cases peer with
    | true =>
      rw [if_pos rfl, if_pos rfl, List.append_nil, List.append_assoc]
      refine List.Perm.append_left _ ?_
      rw [← List.append_assoc, ← List.append_assoc]
      exact List.perm_append_comm.append_right _
    | false =>
      rw [if_neg Bool.false_ne_true, if_neg Bool.false_ne_true, List.append_nil, List.append_assoc]
  · rcases eq_or_eq_other l k with rfl | rfl
    · rw [hs.hand']
      exact List.Pairwise.nil
    · rw [hs.other]
      exact h.row _
  · rw [hs.pending]
    exact h.pending
  · rw [hs.pending] at hj
    rcases eq_or_eq_other l k with rfl | rfl
    · rw [hs.hand'] at hi
      cases hi
    · rw [hs.other] at hi
      exact h.latest _ i hi j hj

end

/-- **One step.** -/
theorem Dealt.step (h : s.Dealt) (e : LcoreStep) : (s.step e).Dealt := by
  obtain ⟨chunks, hstep⟩ := s.step_eq e
  rw [hstep]
  rcases drain_cases s (passes e).1 chunks (passes e).2 with hs | hs | hs
  · exact h.feed hs
  · exact h.take hs
  · exact h.give hs

/-! ### Any interleaving -/

theorem dealt_after (es : List LcoreStep) : (after es).Dealt := by
  induction es using List.reverseRecOn with
  | nil => exact dealt_start
  | append_singleton es e ih =>
    rw [after, Runs.run_append]
    exact ih.step e

/-- **Each TLV once.** After any interleaving, each TLV is, once, passed, freed, in the hand of one
of the lcores or pending. -/
theorem once_after (es : List LcoreStep) :
    let s := after es
    (s.passed ++ (s.freed ++ (s.hand .timer ++ (s.hand .data ++ s.tlvPending)))).Perm
      (List.range s.produced) :=
  (dealt_after es).once

/-- A step keeps the order exactly when it passes the older chain first. -/
theorem InOrder.step_iff (h : s.InOrder) (hd : s.Dealt) (e : LcoreStep) :
    (s.step e).InOrder ↔ s.OldestFirst e := by
  obtain ⟨chunks, hstep⟩ := s.step_eq e
  rw [hstep, OldestFirst]
  rcases drain_cases s (passes e).1 chunks (passes e).2 with hs | hs | hs
  · refine iff_of_true ?_ fun _ i hi => by rw [hs.hand] at hi; cases hi
    refine ⟨by rw [hs.passed]; exact h.1, fun i hi j hj => ?_⟩
    rw [hs.passed] at hi
    rcases List.mem_append.mp (hs.waiting.mem_iff.mp hj) with hold | hnew
    · exact h.2 i hi j hold
    · exact Nat.lt_of_lt_of_le (hd.lt_produced (List.mem_append_left _ hi))
        (List.mem_range'_1.mp hnew).1
  · refine iff_of_true ?_ fun _ i hi => by rw [hs.hand] at hi; cases hi
    refine ⟨by rw [hs.passed]; exact h.1, fun i hi j hj => ?_⟩
    rw [hs.passed] at hi
    exact h.2 i hi j (hs.waiting.mem_iff.mp hj)
  · have hwaiting {j : ℕ} (hj : j ∈ (s.drain (passes e).1 chunks (passes e).2).waiting) :
        j ∈ s.waiting := hs.waiting.mem_iff.mpr (List.mem_append_right _ hj)
    cases hpeer : (passes e).2 with
    | false =>
      rw [hpeer] at hs hwaiting
      refine iff_of_true ⟨?_, fun i hi j hj => ?_⟩ fun hpeer => by cases hpeer
      · rw [hs.passed, if_neg Bool.false_ne_true, List.append_nil]
        exact h.1
      · rw [hs.passed, if_neg Bool.false_ne_true, List.append_nil] at hi
        exact h.2 i hi j (hwaiting hj)
    | true =>
      rw [hpeer] at hs hwaiting
      have hpassed := hs.passed
      rw [if_pos rfl] at hpassed
      constructor
      · intro hafter _ i hi j hj
        refine hafter.2 i (by rw [hpassed]; exact List.mem_append_right _ hi) j ?_
        exact mem_waiting_of_hand (by rw [hs.other]; exact hj)
      · intro holdest
        refine ⟨?_, fun i hi j hj => ?_⟩
        · rw [hpassed, List.pairwise_append]
          exact ⟨h.1, hd.row _, fun i hi j hj => h.2 i hi j (mem_waiting_of_hand hj)⟩
        · rw [hpassed, List.mem_append] at hi
          rcases hi with hi | hi
          · exact h.2 i hi j (hwaiting hj)
          · rw [(waiting_perm _ (passes e).1).mem_iff, hs.hand', hs.other, hs.pending,
              List.nil_append, List.mem_append] at hj
            rcases hj with hj | hj
            · exact holdest rfl i hi j hj
            · exact hd.latest _ i hi j hj

/-- **What the patch leaves open.** The TLVs are passed in the order of their production, and none
of them before an older one that is still to be passed, exactly as long as no lcore passes a chain
while the other one has an older chain in hand: the chains are taken under the lock, and passed
without it. -/
theorem inOrder_iff (es : List LcoreStep) :
    Runs.Throughout step InOrder start es ↔ Runs.StepsMeet step OldestFirst start es :=
  Runs.throughout_iff_stepsMeet (fun _ e hd _ _ => hd.step e)
    (fun _ e hd h => h.step_iff hd e) dealt_start
    ⟨List.Pairwise.nil, fun _ hi => by cases hi⟩ es

/-- The timer takes a TLV, and the data path takes the next one and passes it first. -/
example : (after [.timer true true, .timer false true, .data 1, .data 0, .data 0,
    .timer false true]).passed = [1, 0] := by decide

end Patched

end SecureWan.ByteCache
