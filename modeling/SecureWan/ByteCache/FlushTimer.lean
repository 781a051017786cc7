import SecureWan.ByteCache.Chunker

/-!
# The flush timer

`chunk_to` counts down while there are bytes in the current chunk. It is armed at the end of
`module1_add_data` and cleared in `process_chunk`; where `module1_add_data` stops early, the
current chunk is empty. So no byte stays in a connection for more than `INACTIVITY_TICKS` calls
of `byte_caching_timer_check`.
-/

namespace SecureWan.ByteCache

namespace Module1State

variable {chunkSize : ℕ+} {s s' : Module1State}

/-- The timer runs exactly while there are bytes in the current chunk. -/
structure Armed (s : Module1State) : Prop where
  running : 0 < s.chunkTo ↔ 0 < s.used.length
  chunkTo_le : s.chunkTo ≤ inactivityTicks

/-- Within `module1_add_data` there may be bytes while the timer does not run yet. -/
structure Arming (s : Module1State) : Prop where
  idle : s.used = [] → s.chunkTo = 0
  chunkTo_le : s.chunkTo ≤ inactivityTicks

/-- The bytes that have left the current chunk through `process_chunk`. -/
def processed (s : Module1State) : Bytes := s.lookups.flatMap Lookup.data

/-- All bytes of one state have been processed in another, or the current chunk has not been
processed since and the timer has come that much closer. -/
def Ages (ticks : ℕ) (s s' : Module1State) : Prop :=
  s.accepted <+: s'.processed ∨ s'.processed = s.processed ∧ s'.chunkTo + ticks = s.chunkTo

theorem Armed.arming (h : s.Armed) : s.Arming where
  idle hused := by
    have hnot : ¬ 0 < s.chunkTo := fun hpos => by
      have hlength := h.running.mp hpos
      rw [hused] at hlength
      exact absurd hlength (Nat.lt_irrefl 0)
    omega
  chunkTo_le := h.chunkTo_le

/-- A state without bytes in which the timer may only be off. -/
theorem Arming.armed_of_empty (h : s.Arming) (hused : s.used = []) : s.Armed where
  running := by
    rw [h.idle hused, hused]
    exact Iff.rfl
  chunkTo_le := h.chunkTo_le

theorem accepted_eq (s : Module1State) : s.accepted = s.processed ++ s.used := rfl

/-! ### One chunk -/

theorem processChunk_of_empty (hused : s.used = []) (built : Bool) : s.processChunk built = s :=
  if_pos hused

theorem processed_processChunk (built : Bool) :
    (s.processChunk built).processed = s.accepted := by
  have haccepted := accepted_processChunk (s := s) built
  rw [accepted_eq, used_processChunk, List.append_nil] at haccepted
  exact haccepted

theorem chunkTo_processChunk (h : s.Arming) (built : Bool) :
    (s.processChunk built).chunkTo = 0 := by
  by_cases hused : s.used = []
  · rw [processChunk_of_empty hused]
    exact h.idle hused
  · rw [processChunk, if_neg hused]

theorem Arming.processChunk (h : s.Arming) (built : Bool) : (s.processChunk built).Armed where
  running := by
    rw [chunkTo_processChunk h, used_processChunk]
    exact Iff.rfl
  chunkTo_le := by
    rw [chunkTo_processChunk h]
    exact Nat.zero_le _

theorem Ages.refl (s : Module1State) : Ages 0 s s := .inr ⟨rfl, rfl⟩

/-- What has left stays away, and what is kept grows older. -/
theorem Ages.trans {s₁ s₂ s₃ : Module1State} {m n : ℕ} (h₁ : Ages m s₁ s₂) (h₂ : Ages n s₂ s₃)
    (haccepted : s₁.accepted <+: s₂.accepted) : Ages (m + n) s₁ s₃ := by
  rcases h₂ with hleft | ⟨hprocessed, hchunkTo⟩
  · exact .inl (haccepted.trans hleft)
  · rcases h₁ with hleft | ⟨hprocessed₁, hchunkTo₁⟩
    · exact .inl (hprocessed ▸ hleft)
    · exact .inr ⟨hprocessed.trans hprocessed₁, by omega⟩

/-! ### `module1_add_data` -/

theorem chunkTo_chunkAlloc {available : Bool} (h : s.chunkAlloc available = some s') :
    s'.chunkTo = s.chunkTo := by
  unfold chunkAlloc at h
  split at h
  · cases h
    rfl
  · split at h
    · cases h
      rfl
    · cases h

/-- Without a buffer there are no bytes. -/
theorem used_of_chunkAlloc_none {available : Bool} (h : s.chunkAlloc available = none) :
    s.used = [] := by
  unfold chunkAlloc at h
  split at h
  · cases h
  next hcurrent => rw [used, hcurrent, Option.getD_none]

/-- What a step within `module1_add_data` keeps. -/
structure Advances (s s' : Module1State) : Prop where
  arming : s'.Arming
  ages : Ages 0 s s'
  accepted : s.accepted <+: s'.accepted

theorem Advances.trans {s₁ s₂ s₃ : Module1State} (h₁ : Advances s₁ s₂) (h₂ : Advances s₂ s₃) :
    Advances s₁ s₃ :=
  ⟨h₂.arming, h₁.ages.trans h₂.ages h₁.accepted, h₁.accepted.trans h₂.accepted⟩

theorem Arming.chunkAlloc (h : s.Arming) {available : Bool}
    (halloc : s.chunkAlloc available = some s') : Advances s s' := by
  obtain ⟨hused, hlookups, -⟩ := of_chunkAlloc halloc
  have hchunkTo := chunkTo_chunkAlloc halloc
  have hprocessed : s'.processed = s.processed := by rw [processed, hlookups, processed]
  refine ⟨⟨fun hempty => ?_, ?_⟩, .inr ⟨hprocessed, hchunkTo⟩, ?_⟩
  · rw [hchunkTo]
    exact h.idle (hused ▸ hempty)
  · rw [hchunkTo]
    exact h.chunkTo_le
  · rw [accepted_eq, accepted_eq, hprocessed, hused]

theorem Arming.advances_processChunk (h : s.Arming) (built : Bool) :
    Advances s (s.processChunk built) := by
  refine ⟨(h.processChunk built).arming, .inl ?_, ?_⟩
  · rw [processed_processChunk]
  · rw [accepted_processChunk]

theorem Arming.feed (h : s.Arming) (b : UInt8) (c : ByteChoice) : Advances s (s.feed b c) := by
  have hstored : Advances s { s with current := some (s.used ++ [b]) } := by
    refine ⟨⟨fun hempty => ?_, h.chunkTo_le⟩, .inr ⟨rfl, rfl⟩, ?_⟩
    · exact absurd hempty (List.append_ne_nil_of_right_ne_nil _ (List.cons_ne_nil _ _))
    · change s.processed ++ s.used <+: s.processed ++ (s.used ++ [b])
      rw [← List.append_assoc]
      exact List.prefix_append _ _
  have hprocessed := hstored.trans (hstored.arming.advances_processChunk c.built)
  unfold Module1State.feed
  dsimp only
  split
  · exact hprocessed
  · exact hprocessed
  · exact hprocessed
  · exact hstored

/-- **One byte.** Where the loop stops, the current chunk is empty. -/
theorem Arming.addByte (h : s.Arming) (b : UInt8) (c : ByteChoice) :
    Advances s (s.addByte chunkSize b c).1 ∧
      ((s.addByte chunkSize b c).2 = false → (s.addByte chunkSize b c).1.used = []) := by
  have hself : Advances s s := ⟨h, .refl s, List.prefix_rfl⟩
  unfold Module1State.addByte
  cases halloc : s.chunkAlloc c.alloc with
  | none => exact ⟨hself, fun _ => used_of_chunkAlloc_none halloc⟩
  | some s₁ =>
    have h₁ := h.chunkAlloc halloc
    dsimp only
    split
    next =>
      have h₂ := h₁.trans (h₁.arming.advances_processChunk c.builtFull)
      cases hnext : (s₁.processChunk c.builtFull).chunkAlloc c.allocNext with
      | none => exact ⟨h₂, fun _ => used_processChunk _⟩
      | some s₃ =>
        have h₃ := h₂.trans (h₂.arming.chunkAlloc hnext)
        exact ⟨h₃.trans (h₃.arming.feed b c), fun hstop => by cases hstop⟩
    next => exact ⟨h₁.trans (h₁.arming.feed b c), fun hstop => by cases hstop⟩

variable (choice : ℕ → ByteChoice)

/-- A segment. -/
theorem Arming.addBytes (h : s.Arming) (total : ℕ) (bs : Bytes) :
    Advances s (addBytes chunkSize choice s total bs).1 ∧
      ((addBytes chunkSize choice s total bs).2.2 = false →
        (addBytes chunkSize choice s total bs).1.used = []) := by
  induction bs generalizing s total with
  | nil => exact ⟨⟨h, .refl s, List.prefix_rfl⟩, fun hstop => by cases hstop⟩
  | cons b bs ih =>
    obtain ⟨hbyte, hstop⟩ := @Arming.addByte chunkSize s h b (choice total)
    unfold Module1State.addBytes
    cases hadd : s.addByte chunkSize b (choice total) with
    | mk s' went =>
      rw [hadd] at hbyte hstop
      cases went with
      | false => exact ⟨hbyte, hstop⟩
      | true =>
        obtain ⟨hrest, hstop'⟩ := ih hbyte.arming (total + 1)
        exact ⟨hbyte.trans hrest, hstop'⟩

/-- A chain. -/
theorem Arming.addSegs (h : s.Arming) (total : ℕ) (segs : List Bytes) :
    Advances s (addSegs chunkSize choice s total segs).1 ∧
      ((addSegs chunkSize choice s total segs).2.2 = false →
        (addSegs chunkSize choice s total segs).1.used = []) := by
  induction segs generalizing s total with
  | nil => exact ⟨⟨h, .refl s, List.prefix_rfl⟩, fun hstop => by cases hstop⟩
  | cons seg segs ih =>
    obtain ⟨hseg, hstop⟩ := @Arming.addBytes chunkSize s choice h total seg
    unfold Module1State.addSegs
    cases hadd : Module1State.addBytes chunkSize choice s total seg with
    | mk s' rest =>
      obtain ⟨total', went⟩ := rest
      rw [hadd] at hseg hstop
      cases went with
      | false => exact ⟨hseg, hstop⟩
      | true =>
        obtain ⟨hrest, hstop'⟩ := ih hseg.arming total'
        exact ⟨hseg.trans hrest, hstop'⟩

/-- At the end of `module1_add_data` the timer is armed if there are bytes and it is off. -/
theorem Arming.rearm (h : s.Arming) :
    (if 0 < s.used.length ∧ s.chunkTo = 0 then { s with chunkTo := inactivityTicks }
      else s).Armed := by
  split
  next hneeded => exact ⟨iff_of_true (Nat.succ_pos _) hneeded.1, Nat.le_refl _⟩
  next hnot =>
    refine ⟨⟨fun hpos => ?_, fun hpos => ?_⟩, h.chunkTo_le⟩
    · by_contra hempty
      rw [h.idle (List.eq_nil_of_length_eq_zero (by omega))] at hpos
      exact absurd hpos (Nat.lt_irrefl 0)
    · by_contra hoff
      exact hnot ⟨hpos, by omega⟩

/-- **`module1_add_data`.** Bytes that were there are kept with their timer, or have left. -/
theorem Armed.addData (h : s.Armed) (m : Option MbufChain) :
    (s.addData chunkSize m choice).1.Armed ∧ Ages 0 s (s.addData chunkSize m choice).1 := by
  cases m with
  | none => exact ⟨h, .refl s⟩
  | some m =>
    obtain ⟨hsegs, hstop⟩ := @Arming.addSegs chunkSize s choice h.arming 0 m.segs
    unfold Module1State.addData
    dsimp only
    cases hadd : Module1State.addSegs chunkSize choice s 0 m.segs with
    | mk t rest =>
      obtain ⟨total, went⟩ := rest
      rw [hadd] at hsegs hstop
      cases went with
      | false => exact ⟨hsegs.arming.armed_of_empty (hstop rfl), hsegs.ages⟩
      | true =>
        have harmed := hsegs.arming.rearm
        dsimp only
        split
        next hneeded =>
          rw [if_pos hneeded] at harmed
          refine ⟨harmed, ?_⟩
          rcases hsegs.ages with hleft | ⟨hprocessed, hchunkTo⟩
          · exact .inl hleft
          · -- the timer was off before: there were no bytes
            have hoff : ¬ 0 < s.chunkTo := by
              have hzero : t.chunkTo = 0 := hneeded.2
              dsimp only at hchunkTo
              omega
            have hempty : s.used = [] :=
              List.eq_nil_of_length_eq_zero (by have := h.running; omega)
            left
            rw [accepted_eq, hempty, List.append_nil]
            exact hprocessed ▸ List.prefix_rfl
        next hnot =>
          rw [if_neg hnot] at harmed
          exact ⟨harmed, hsegs.ages⟩

/-- **`byte_caching_timer_check`.** -/
theorem Armed.byteCachingTimerCheck (h : s.Armed) (built : Bool) :
    (s.byteCachingTimerCheck built).Armed ∧ Ages 1 s (s.byteCachingTimerCheck built) := by
  unfold Module1State.byteCachingTimerCheck
  dsimp only
  split
  next hoff =>
    have hempty : s.used = [] := List.eq_nil_of_length_eq_zero (by have := h.running; omega)
    refine ⟨h, .inl ?_⟩
    rw [accepted_eq, hempty, List.append_nil]
  next hon =>
    have hbytes : 0 < s.used.length := h.running.mp (by omega)
    have hle := h.chunkTo_le
    split
    next hlast =>
      have harming : Arming { s with chunkTo := s.chunkTo - 1 } :=
        ⟨fun _ => hlast.1, (Nat.sub_le _ _).trans hle⟩
      refine ⟨harming.processChunk built, .inl ?_⟩
      rw [processed_processChunk]
      exact List.prefix_rfl
    next hnot =>
      have hmore : 0 < s.chunkTo - 1 := by
        by_contra hzero
        exact hnot ⟨by omega, hbytes⟩
      refine ⟨⟨iff_of_true hmore hbytes, (Nat.sub_le _ _).trans hle⟩, .inr ⟨rfl, ?_⟩⟩
      dsimp only
      omega

/-- **`module1_flush`.** -/
theorem Armed.flush (h : s.Armed) (built : Bool) :
    (s.flush built).Armed ∧ Ages 0 s (s.flush built) := by
  unfold Module1State.flush
  split
  · exact ⟨h.arming.processChunk built, (h.arming.advances_processChunk built).ages⟩
  · exact ⟨h, .refl s⟩

end Module1State

/-- How many of the calls are calls of `byte_caching_timer_check`. -/
def ticks (calls : List Module1Call) : ℕ :=
  calls.countP fun call => match call with
    | .timerCheck _ => true
    | _ => false

namespace Connection

open Module1State

variable {chunkSize : ℕ+} {c : Connection}

/-- **One call.** -/
theorem armed_step (h : c.state.Armed) (call : Module1Call) :
    (c.step chunkSize call).state.Armed ∧
      Ages (ticks [call]) c.state (c.step chunkSize call).state := by
  cases call with
  | addData m choice => exact h.addData choice m
  | timerCheck built => exact h.byteCachingTimerCheck built
  | flush built => exact h.flush built
  | takePending => exact ⟨⟨h.running, h.chunkTo_le⟩, .inr ⟨rfl, rfl⟩⟩

/-- No call takes back a byte that has been accepted. -/
theorem accepted_prefix_step (h : c.Accounted chunkSize) (call : Module1Call) :
    c.state.accepted <+: (c.step chunkSize call).state.accepted := by
  rw [← h.received, ← (h.step call).received]
  cases call with
  | addData m choice => exact List.prefix_append _ _
  | timerCheck built => exact List.prefix_rfl
  | flush built => exact List.prefix_rfl
  | takePending => exact List.prefix_rfl

/-- **Any calls.** -/
theorem armed_run (harmed : c.state.Armed) (h : c.Accounted chunkSize)
    (calls : List Module1Call) :
    (Runs.run (step chunkSize) c calls).state.Armed ∧
      Ages (ticks calls) c.state (Runs.run (step chunkSize) c calls).state ∧
      c.state.accepted <+: (Runs.run (step chunkSize) c calls).state.accepted := by
  induction calls generalizing c with
  | nil => exact ⟨harmed, .refl _, List.prefix_rfl⟩
  | cons call calls ih =>
    obtain ⟨harmed', hages⟩ := @armed_step chunkSize c harmed call
    have hprefix := accepted_prefix_step h call
    obtain ⟨hrun, hrest, hrestPrefix⟩ := ih harmed' (h.step call)
    have hticks : ticks (call :: calls) = ticks [call] + ticks calls := by
      rw [← List.singleton_append, ticks, List.countP_append]
      rfl
    rw [hticks]
    exact ⟨hrun, hages.trans hrest hprefix, hprefix.trans hrestPrefix⟩

/-- Once the timer has been checked often enough, what was accepted has been processed. -/
theorem accepted_prefix_processed (harmed : c.state.Armed) (h : c.Accounted chunkSize)
    {later : List Module1Call} (hlater : inactivityTicks ≤ ticks later) :
    c.state.accepted <+: (Runs.run (step chunkSize) c later).state.processed := by
  obtain ⟨harmed', hages, hprefix⟩ := armed_run harmed h later
  rcases hages with hleft | ⟨-, hchunkTo⟩
  · exact hleft
  · -- the timer has run down to the end
    have hle := harmed.chunkTo_le
    have hrunning := harmed'.running
    have hempty : (Runs.run (step chunkSize) c later).state.used = [] :=
      List.eq_nil_of_length_eq_zero (by omega)
    rw [accepted_eq (Runs.run (step chunkSize) c later).state, hempty, List.append_nil] at hprefix
    exact hprefix

/-- **The flush timer.** After every sequence of calls the timer runs exactly while there are
bytes in the current chunk, and stands at `INACTIVITY_TICKS` at most; and whatever calls follow,
once as many checks are among them, all bytes counted so far have gone through
`process_chunk`. -/
theorem flushTimer_spec (chunkSize : ℕ+) (calls : List Module1Call) :
    let c := Runs.run (step chunkSize) start calls
    (0 < c.state.chunkTo ↔ 0 < c.state.used.length) ∧ c.state.chunkTo ≤ inactivityTicks ∧
      ∀ later, inactivityTicks ≤ ticks later →
        c.received <+: (Runs.run (step chunkSize) c later).state.processed := by
  intro c
  have hstart : start.state.Armed := ⟨Iff.rfl, Nat.zero_le _⟩
  obtain ⟨harmed, -, -⟩ := armed_run hstart (@Accounted.start chunkSize) calls
  have haccounted : c.Accounted chunkSize :=
    Runs.run_invariant (step chunkSize) (fun _ call h => h.step call) Accounted.start calls
  refine ⟨harmed.running, harmed.chunkTo_le, fun later hlater => ?_⟩
  rw [haccounted.received]
  exact accepted_prefix_processed harmed haccounted hlater

end Connection

end SecureWan.ByteCache
