import SecureWan.ByteCache.Drain

/-!
# Races between the two drains

The timer passes the pending list and clears it afterwards, while the data path takes it and
passes it afterwards. A TLV is passed once and in order as long as neither comes between these
steps of the other. A step that does come between may go unnoticed for a while; when both lcores
are back at the start of their rounds, a TLV is lost, freed or passed out of its turn.
-/

namespace SecureWan.ByteCache.Shared

variable (s : Shared)

/-- The lcores keep out of each other's way. The timer passes a chain while the data path holds
none, and frees none; where it has read NULL, nothing is pending when it clears the pointer. The
data path takes no list between the timer's read of it and its clear, and makes no TLV between
the timer's send and its clear. -/
def Unraced : LcoreStep → Prop
  | .timer _ peer =>
    match s.timer with
    | .loaded (some _) => peer = true ∧ ∀ head, s.data ≠ .taken (some head)
    | .done none => s.tlvPending = none
    | _ => True
  | .data chunks =>
    match s.data with
    | .idle => chunks ≠ 0 → ∀ head, s.timer ≠ .done (some head)
    | .added => ∀ head, s.timer ≠ .loaded (some head) ∧ s.timer ≠ .done (some head)
    | .taken _ => True

/-- Both lcores are at the start of their rounds. -/
def Rested : Prop := s.timer = .idle ∧ s.data = .idle

variable {s : Shared}

section Unraced

/-- How the lcores stand to each other as long as they keep out of each other's way. -/
structure Settled (s : Shared) : Prop where
  /-- What the timer has read is pending. -/
  loaded : ∀ head, s.timer = .loaded (some head) → s.tlvPending = some head
  /-- What the timer has passed is pending, without anything new. -/
  sent : ∀ head, s.timer = .done (some head) →
    s.tlvPending = some head ∧ ∀ i ∈ s.chain head, i ∈ s.passed
  /-- What is pending otherwise is still to be passed. -/
  pending : ∀ head, s.tlvPending = some head → s.timer ≠ .done (some head) →
    s.passed.length ≤ head
  /-- What the data path has taken is still to be passed. -/
  taken : ∀ head, s.data = .taken (some head) → s.passed.length ≤ head
  le_produced : s.passed.length ≤ s.produced

theorem Settled.start : start.Settled where
  loaded := fun _ h => nomatch h
  sent := fun _ h => nomatch h
  pending := fun _ h => nomatch h
  taken := fun _ h => nomatch h
  le_produced := Nat.le_refl 0

/-- The timer goes on to a point before its read. -/
theorem Settled.setTimer (h : s.Settled) {pc : TimerPc} (hloaded : ∀ head, pc ≠ .loaded (some head))
    (hdone : ∀ head, pc ≠ .done (some head)) (hold : ∀ head, s.timer ≠ .done (some head)) :
    Settled { s with timer := pc } where
  loaded := fun head ht => absurd ht (hloaded head)
  sent := fun head ht => absurd ht (hdone head)
  pending := fun head hp _ => h.pending head hp (hold head)
  taken := h.taken
  le_produced := h.le_produced

/-- What is made before the timer's send is still to be passed. -/
theorem Settled.processChunk (h : s.Settled) (hdone : ∀ head, s.timer ≠ .done (some head)) :
    s.processChunk.Settled := by
  obtain ⟨htimer, hdata, hpassed, _⟩ := s.processChunk_frame
  have hpending := s.tlvPending_processChunk
  refine ⟨fun head ht => ?_, fun head ht => ?_, fun head hp _ => ?_, fun head hd => ?_, ?_⟩
  · rw [hpending, h.loaded head (htimer ▸ ht)]
    rfl
  · exact absurd (htimer ▸ ht) (hdone head)
  · obtain rfl := Option.some.inj (hpending.symm.trans hp)
    rw [hpassed]
    cases hold : s.tlvPending with
    | none => exact h.le_produced
    | some head => exact h.pending head hold (hdone head)
  · rw [hpassed]
    exact h.taken head (hdata ▸ hd)
  · rw [hpassed, s.produced_processChunk]
    exact Nat.le_succ_of_le h.le_produced

theorem Settled.processChunks (h : s.Settled) (hdone : ∀ head, s.timer ≠ .done (some head))
    (chunks : ℕ) : (Shared.processChunk^[chunks] s).Settled := by
  induction chunks with
  | zero => exact h
  | succ chunks ih =>
    obtain ⟨htimer, _⟩ := processChunks_frame s chunks
    rw [Function.iterate_succ_apply']
    exact ih.processChunk fun head ht => hdone head (htimer ▸ ht)

/-- What the timer is about to pass is the next chain, unless the data path holds one. -/
theorem Settled.timer_next (h : s.Settled) (ho : s.InOrder) (hl : s.Linked) {head : ℕ}
    (ht : s.timer = .loaded (some head)) (hdata : ∀ taken, s.data ≠ .taken (some taken)) :
    head = s.passed.length := by
  have hpending := h.loaded head ht
  have hchain := hl.timer head ht
  have hle := h.pending head hpending (by rw [ht]; exact fun heq => nomatch heq)
  refine ho.eq_next hchain hle ?_
  rintro i (hp | hw | hd)
  · rw [hpending] at hp
    exact (hchain.mem_iff.mp hp).1
  · rw [timerChain, ht] at hw
    exact (hchain.mem_iff.mp hw).1
  · obtain ⟨taken, htaken, _⟩ := mem_dataChain.mp hd
    exact absurd htaken (hdata taken)

/-- What the data path has taken is the next chain. -/
theorem Settled.data_next (h : s.Settled) (ho : s.InOrder) (hl : s.Linked) {head : ℕ}
    (hd : s.data = .taken (some head)) : head = s.passed.length := by
  have hchain := hl.data head hd
  have hlater {i : ℕ} (hi : i ∈ s.chainOf s.tlvPending) : head ≤ i :=
    Nat.le_trans (Nat.le_add_right _ _) (hl.taken_lt_of_mem_pending hd hi)
  refine ho.eq_next hchain (h.taken head hd) ?_
  rintro i (hp | hw | hd')
  · exact hlater hp
  · obtain ⟨read, hloaded, hmem⟩ := mem_timerChain.mp hw
    exact hlater (by rw [h.loaded read hloaded]; exact hmem)
  · rw [dataChain, hd] at hd'
    exact (hchain.mem_iff.mp hd').1

/-- **The timer**, out of the way of the data path. -/
theorem Settled.stepTimer (h : s.Settled) (ho : s.InOrder) (hl : s.Linked) {built peer : Bool}
    (hc : s.Unraced (.timer built peer)) :
    (s.step (.timer built peer)).InOrder ∧ (s.step (.timer built peer)).Settled := by
  unfold step
  unfold Unraced at hc
  dsimp only at hc ⊢
  cases htimer : s.timer with
  | idle =>
    have hdone (head : ℕ) : s.timer ≠ .done (some head) := by
      rw [htimer]
      rintro ⟨⟩
    cases built with
    | true =>
      obtain ⟨hsame, _⟩ := s.processChunk_frame
      refine ⟨(ho.processChunk hl).setTimer ?_ .checked, (h.processChunk hdone).setTimer ?_ ?_ ?_⟩
      · rw [timerChain, hsame, htimer]
      · rintro head ⟨⟩
      · rintro head ⟨⟩
      · exact fun head heq => hdone head (hsame ▸ heq)
    | false =>
      refine ⟨ho.setTimer (by rw [timerChain, htimer]) .checked, h.setTimer ?_ ?_ hdone⟩
      · rintro head ⟨⟩
      · rintro head ⟨⟩
  | checked =>
    refine ⟨ho.setTimer (by rw [timerChain, htimer]) _, h.setTimer ?_ ?_ ?_⟩
    · intro head
      split <;> rintro ⟨⟩
    · intro head
      split <;> rintro ⟨⟩
    · intro head
      rw [htimer]
      rintro ⟨⟩
  | tested =>
    have hnew (head : ℕ) : s.timer ≠ .done (some head) := by
      rw [htimer]
      rintro ⟨⟩
    refine ⟨ho.setTimer (by rw [timerChain, htimer]) _, ?_, ?_, ?_, h.taken, h.le_produced⟩
    · exact fun head ht => TimerPc.loaded.inj ht
    · rintro head ⟨⟩
    · exact fun head hp _ => h.pending head hp (hnew head)
  | loaded pointer =>
    rw [htimer] at hc
    cases pointer with
    | none =>
      have hnothing : (if peer then s.tcpUsrSend none else s.mFreem none) = s := by
        cases peer <;> simp [tcpUsrSend, mFreem, chainOf]
      dsimp only
      rw [hnothing]
      refine ⟨ho.setTimer (by rw [timerChain, htimer]; rfl) _, h.setTimer ?_ ?_ ?_⟩
      · rintro head ⟨⟩
      · rintro head ⟨⟩
      · intro head
        rw [htimer]
        rintro ⟨⟩
    | some head =>
      obtain ⟨rfl, hdata⟩ := hc
      have hchain := hl.timer head htimer
      have hnext := h.timer_next ho hl htimer hdata
      refine ⟨(ho.timerSend_iff hl htimer).mpr hnext, ?_, ?_, ?_, ?_, ?_⟩
      · rintro head' ⟨⟩
      · intro head' ht
        obtain rfl := Option.some.inj (TimerPc.done.inj ht)
        exact ⟨h.loaded head htimer, fun i hi => List.mem_append_right _ hi⟩
      · intro head' hp hne
        have hsame : some head' = some head := hp.symm.trans (h.loaded head htimer)
        exact absurd (congrArg TimerPc.done hsame.symm) hne
      · exact fun taken hd => absurd hd (hdata taken)
      · change (s.passed ++ s.chain head).length ≤ s.produced
        rw [List.length_append, ← hnext]
        exact hchain.le_produced
  | done sent =>
    refine ⟨(ho.clear_iff hl htimer).mpr ?_, ?_, ?_, ?_, h.taken, h.le_produced⟩
    · cases sent with
      | none =>
        rw [htimer] at hc
        rw [hc]
        rintro i ⟨⟩
      | some head =>
        obtain ⟨hpending, hall⟩ := h.sent head htimer
        rw [hpending]
        exact hall
    · rintro head ⟨⟩
    · rintro head ⟨⟩
    · rintro head ⟨⟩

/-- **The data path**, out of the way of the timer. -/
theorem Settled.stepData (h : s.Settled) (ho : s.InOrder) (hl : s.Linked) {chunks : ℕ}
    (hc : s.Unraced (.data chunks)) :
    (s.step (.data chunks)).InOrder ∧ (s.step (.data chunks)).Settled := by
  unfold step
  unfold Unraced at hc
  dsimp only at hc ⊢
  cases hdata : s.data with
  | idle =>
    rw [hdata] at hc
    have hmade : (Shared.processChunk^[chunks] s).Settled := by
      rcases Nat.eq_zero_or_pos chunks with rfl | hpos
      · exact h
      · exact h.processChunks (hc (Nat.ne_of_gt hpos)) chunks
    obtain ⟨_, hidle, _⟩ := processChunks_frame s chunks
    rw [hdata] at hidle
    refine ⟨(ho.processChunks hl chunks).setData (by rw [dataChain, hidle]) _, ?_⟩
    refine ⟨hmade.loaded, hmade.sent, hmade.pending, ?_, hmade.le_produced⟩
    rintro head ⟨⟩
  | added =>
    rw [hdata] at hc
    refine ⟨ho.mono rfl rfl rfl fun i hi => .inr ?_, ?_, ?_, ?_, ?_, h.le_produced⟩
    · rcases hi with hp | ht | hd
      · exact .inr (.inr hp)
      · exact .inr (.inl ht)
      · rw [dataChain, hdata] at hd
        cases hd
    · exact fun head ht => absurd ht (hc head).1
    · exact fun head ht => absurd ht (hc head).2
    · rintro head ⟨⟩
    · exact fun head hd => h.pending head (DataPc.taken.inj hd) (hc head).2
  | taken pointer =>
    cases pointer with
    | none =>
      have hnothing : s.tcpUsrSend none = s := by simp [tcpUsrSend, chainOf]
      dsimp only
      rw [hnothing]
      refine ⟨ho.setData (by rw [dataChain, hdata]; rfl) .idle, h.loaded, h.sent, h.pending, ?_,
        h.le_produced⟩
      rintro head ⟨⟩
    | some head =>
      have hchain := hl.data head hdata
      have hnext := h.data_next ho hl hdata
      refine ⟨(ho.dataSend_iff hl hdata).mpr hnext, h.loaded, ?_, ?_, ?_, ?_⟩
      · intro sent ht
        obtain ⟨hpending, hall⟩ := h.sent sent ht
        exact ⟨hpending, fun i hi => List.mem_append_left _ (hall i hi)⟩
      · intro head' hp _
        change (s.passed ++ s.chain head).length ≤ head'
        rw [List.length_append, ← hnext]
        exact hl.older head' head hp hdata
      · rintro taken ⟨⟩
      · change (s.passed ++ s.chain head).length ≤ s.produced
        rw [List.length_append, ← hnext]
        exact hchain.le_produced

/-- **One step** out of the other lcore's way. -/
theorem Settled.step (h : s.Settled) (ho : s.InOrder) (hl : s.Linked) {e : LcoreStep}
    (hc : s.Unraced e) : (s.step e).InOrder ∧ (s.step e).Settled := by
  cases e with
  | timer built peer => exact h.stepTimer ho hl hc
  | data chunks => exact h.stepData ho hl hc

end Unraced

section Doomed

/-- What the lcores are about to do will break the order. -/
inductive Doomed (s : Shared) : Prop
  /-- The data path has taken a chain that was passed. -/
  | taken (head : ℕ) (htaken : s.data = .taken (some head)) (hpassed : head ∈ s.passed)
  /-- The timer has read a chain that was passed, or that the data path has taken. -/
  | loaded (head : ℕ) (hloaded : s.timer = .loaded (some head))
      (hother : head ∈ s.passed ∨ s.data = .taken (some head))
  /-- A TLV was linked behind those that the timer has passed. -/
  | sent (head i : ℕ) (hsent : s.timer = .done (some head)) (hpending : s.tlvPending = some head)
      (hpassed : head ∈ s.passed) (hlate : i ∈ s.chain head) (hnew : i ∉ s.passed)

/-- A doomed lcore is in the middle of its round. -/
theorem Doomed.not_rested (h : s.Doomed) : ¬s.Rested := by
  rintro ⟨htimer, hdata⟩
  cases h with
  | taken head htaken hpassed =>
    rw [hdata] at htaken
    cases htaken
  | loaded head hloaded hother =>
    rw [htimer] at hloaded
    cases hloaded
  | sent head i hsent hpending hpassed hlate hnew =>
    rw [htimer] at hsent
    cases hsent

/-- The timer leaves the data path where it is. -/
theorem data_stepTimer (s : Shared) (built peer : Bool) :
    (s.step (.timer built peer)).data = s.data := by
  obtain ⟨_, hdata, _⟩ := s.processChunk_frame
  unfold step
  dsimp only
  split
  · cases built with
    | true => exact hdata
    | false => rfl
  · rfl
  · rfl
  · cases peer <;> rfl
  · rfl

/-- The data path leaves the timer where it is. -/
theorem timer_stepData (s : Shared) (chunks : ℕ) : (s.step (.data chunks)).timer = s.timer := by
  obtain ⟨htimer, _⟩ := processChunks_frame s chunks
  unfold step
  dsimp only
  split
  · exact htimer
  · rfl
  · rfl

/-- What was passed stays so. -/
theorem passed_subset_step (s : Shared) (e : LcoreStep) : s.passed ⊆ (s.step e).passed := by
  intro i hi
  unfold step
  cases e with
  | timer built peer =>
    dsimp only
    split
    · cases built with
      | true =>
        obtain ⟨_, _, hpassed, _⟩ := s.processChunk_frame
        exact hpassed ▸ hi
      | false => exact hi
    · exact hi
    · exact hi
    · cases peer with
      | true => exact List.mem_append_left _ hi
      | false => exact hi
    · exact hi
  | data chunks =>
    dsimp only
    split
    · obtain ⟨_, _, hpassed, _⟩ := processChunks_frame s chunks
      exact hpassed ▸ hi
    · exact hi
    · exact List.mem_append_left _ hi

/-- A chain that is freed is missing. -/
theorem not_inOrder_mFreem {head : ℕ} (hchain : s.Chained head) (pc : TimerPc) :
    ¬InOrder { s.mFreem (some head) with timer := pc } := by
  intro h
  have hfreed : s.freed ++ s.chain head = [] := h.freed
  exact List.ne_nil_of_mem hchain.head_mem (List.append_eq_nil_iff.mp hfreed).2

/-- Chunks that are made go behind the pending chain. -/
theorem mem_chain_processChunks {head : ℕ} (hp : s.tlvPending = some head) (chunks : ℕ) :
    (processChunk^[chunks] s).tlvPending = some head ∧
      ∀ i ∈ s.chain head, i ∈ (processChunk^[chunks] s).chain head := by
  induction chunks with
  | zero => exact ⟨hp, fun i hi => hi⟩
  | succ chunks ih =>
    obtain ⟨hpending, hchain⟩ := ih
    have hnew := (processChunk^[chunks] s).chain_processChunk_self
    rw [hpending] at hnew
    rw [Function.iterate_succ_apply']
    refine ⟨by rw [tlvPending_processChunk, hpending]; rfl, fun i hi => ?_⟩
    exact hnew ▸ List.mem_append_left _ (hchain i hi)

/-- The latest TLV is the last one of the pending chain. -/
theorem mem_chain_of_processChunks {head chunks : ℕ} (hp : s.tlvPending = some head)
    (hpos : chunks ≠ 0) :
    ∃ i ∈ (processChunk^[chunks] s).chain head, s.produced ≤ i := by
  obtain ⟨chunks, rfl⟩ := Nat.exists_eq_succ_of_ne_zero hpos
  have hmade : s.processChunk.tlvPending = some head := by
    rw [tlvPending_processChunk, hp]
    rfl
  obtain ⟨hpending, hkept⟩ := mem_chain_processChunks hmade chunks
  have hnew := s.chain_processChunk_self
  rw [hp] at hnew
  rw [Function.iterate_succ_apply]
  exact ⟨s.produced, hkept _ (hnew ▸ List.mem_append_right _ (List.mem_singleton_self _)),
    Nat.le_refl _⟩

/-- **No way back.** -/
theorem Doomed.step (h : s.Doomed) (hl : s.Linked) (ho : s.InOrder) {e : LcoreStep}
    (ho' : (s.step e).InOrder) : (s.step e).Doomed := by
  cases h with
  | taken head htaken hpassed =>
    cases e with
    | timer built peer =>
      exact .taken head ((s.data_stepTimer built peer).trans htaken)
        (s.passed_subset_step _ hpassed)
    | data chunks =>
      refine absurd ho' (not_inOrder_of_repass hpassed (hl.data head htaken) ?_)
      simp only [Shared.step, htaken]
      rfl
  | loaded head hloaded hother =>
    cases e with
    | timer built peer =>
      have hchain := hl.timer head hloaded
      cases peer with
      | false =>
        refine absurd ho' ?_
        simp only [Shared.step, hloaded]
        exact not_inOrder_mFreem hchain _
      | true =>
        have hafter : (s.step (.timer built true)).passed = s.passed ++ s.chain head := by
          simp only [Shared.step, hloaded]
          rfl
        rcases hother with hpassed | htaken
        · exact absurd ho' (not_inOrder_of_repass hpassed hchain hafter)
        · refine .taken head ((s.data_stepTimer built true).trans htaken) ?_
          rw [hafter]
          exact List.mem_append_right _ hchain.head_mem
    | data chunks =>
      refine .loaded head ((s.timer_stepData chunks).trans hloaded) (.inl ?_)
      rcases hother with hpassed | htaken
      · exact s.passed_subset_step _ hpassed
      · have hafter : (s.step (.data chunks)).passed = s.passed ++ s.chain head := by
          simp only [Shared.step, htaken]
          rfl
        rw [hafter]
        exact List.mem_append_right _ (hl.data head htaken).head_mem
  | sent head i hsent hpending hpassed hlate hnew =>
    cases e with
    | timer built peer =>
      simp only [Shared.step, hsent] at ho'
      have hall := (ho.clear_iff hl hsent).mp ho'
      rw [hpending] at hall
      exact absurd (hall i hlate) hnew
    | data chunks =>
      have htimer := (s.timer_stepData chunks).trans hsent
      cases hdata : s.data with
      | idle =>
        obtain ⟨hpending', hkept⟩ := mem_chain_processChunks hpending chunks
        obtain ⟨_, _, hsame, _⟩ := processChunks_frame s chunks
        refine .sent head i htimer ?_ (s.passed_subset_step _ hpassed) ?_ ?_
        · simp only [Shared.step, hdata]
          exact hpending'
        · simp only [Shared.step, hdata]
          exact hkept i hlate
        · simp only [Shared.step, hdata, hsame]
          exact hnew
      | added =>
        refine .taken head ?_ (s.passed_subset_step _ hpassed)
        simp only [Shared.step, hdata, hpending]
      | taken pointer =>
        refine .sent head i htimer ?_ (s.passed_subset_step _ hpassed) ?_ ?_
        · simp only [Shared.step, hdata]
          exact hpending
        · simp only [Shared.step, hdata]
          exact hlate
        · -- the data path passes what is older than the pending chain
          simp only [Shared.step, hdata]
          change i ∉ s.passed ++ s.chainOf pointer
          rw [List.mem_append, not_or]
          refine ⟨hnew, fun hmem => ?_⟩
          cases pointer with
          | none => cases hmem
          | some taken =>
            have hlater := hl.taken_lt_of_mem_pending hdata (by rw [hpending]; exact hlate)
            have hlt := ((hl.data taken hdata).mem_iff.mp hmem).2
            omega

/-- A race of the timer breaks the order at once. -/
theorem Settled.timer_race (h : s.Settled) (ho : s.InOrder) (hl : s.Linked) {built peer : Bool}
    (hrace : ¬s.Unraced (.timer built peer)) : ¬(s.step (.timer built peer)).InOrder := by
  unfold Unraced at hrace
  dsimp only at hrace
  split at hrace
  next head hloaded =>
    have hchain := hl.timer head hloaded
    cases peer with
    | false =>
      simp only [Shared.step, hloaded]
      exact not_inOrder_mFreem hchain _
    | true =>
      have hholds : ∃ taken, s.data = .taken (some taken) := by
        by_contra hnone
        exact hrace ⟨rfl, fun taken htaken => hnone ⟨taken, htaken⟩⟩
      obtain ⟨taken, htaken⟩ := hholds
      -- the data path's chain is older, and was not passed
      have holder := hl.older head taken (h.loaded head hloaded) htaken
      have hnew := h.taken taken htaken
      have hpos := (hl.data taken htaken).pos
      simp only [Shared.step, hloaded, if_true]
      intro hafter
      have hnext := (ho.timerSend_iff hl hloaded).mp hafter
      omega
  next hdone =>
    obtain ⟨head, hpending⟩ := Option.ne_none_iff_exists'.mp hrace
    simp only [Shared.step, hdone]
    intro hafter
    have hall := (ho.clear_iff hl hdone).mp hafter
    rw [hpending] at hall
    have hpassed := ho.mem_passed_iff.mp (hall head (hl.pending head hpending).head_mem)
    have hle := h.pending head hpending (by rw [hdone]; exact fun heq => nomatch heq)
    omega
  next => exact absurd trivial hrace

/-- A race of the data path breaks the order later. -/
theorem Settled.data_race (h : s.Settled) (ho : s.InOrder) (hl : s.Linked) {chunks : ℕ}
    (hrace : ¬s.Unraced (.data chunks)) : (s.step (.data chunks)).Doomed := by
  unfold Unraced at hrace
  dsimp only at hrace
  have htimer := s.timer_stepData chunks
  split at hrace
  next hidle =>
    rw [Classical.not_imp] at hrace
    obtain ⟨hpos, hsent⟩ := hrace
    obtain ⟨head, hsent⟩ := not_forall_not.mp hsent
    obtain ⟨hpending, hall⟩ := h.sent head hsent
    obtain ⟨hpending', _⟩ := mem_chain_processChunks hpending chunks
    obtain ⟨i, hlate, hproduced⟩ := mem_chain_of_processChunks hpending hpos
    obtain ⟨_, _, hsame, _⟩ := processChunks_frame s chunks
    refine .sent head i (htimer.trans hsent) ?_ ?_ ?_ ?_
    · simp only [Shared.step, hidle]
      exact hpending'
    · exact s.passed_subset_step _ (hall head (hl.pending head hpending).head_mem)
    · simp only [Shared.step, hidle]
      exact hlate
    · simp only [Shared.step, hidle, hsame]
      intro hmem
      have hlt := ho.mem_passed_iff.mp hmem
      have hle := h.le_produced
      omega
  next hadded =>
    obtain ⟨head, hhead⟩ := not_forall.mp hrace
    rw [not_and_or, not_not, not_not] at hhead
    rcases hhead with hloaded | hsent
    · refine .loaded head (htimer.trans hloaded) (.inr ?_)
      simp only [Shared.step, hadded, h.loaded head hloaded]
    · obtain ⟨hpending, hall⟩ := h.sent head hsent
      refine .taken head ?_ ?_
      · simp only [Shared.step, hadded, hpending]
      · exact s.passed_subset_step _ (hall head (hl.pending head hpending).head_mem)
  next => exact absurd trivial hrace

/-- **A race** breaks the order, at once or later. -/
theorem Settled.doomed (h : s.Settled) (ho : s.InOrder) (hl : s.Linked) {e : LcoreStep}
    (hrace : ¬s.Unraced e) (ho' : (s.step e).InOrder) : (s.step e).Doomed := by
  cases e with
  | timer built peer => exact absurd ho' (h.timer_race ho hl hrace)
  | data chunks => exact h.data_race ho hl hrace

end Doomed

/-- **Every interleaving.** As long as the lcores keep out of each other's way, the TLVs are passed
once each and in the order of their production, and none is freed. In a run at whose end both are
at the start of their rounds, this is so only if they have. -/
theorem interleaving_inOrder_iff (es : List LcoreStep) :
    (Runs.StepsMeet step Unraced start es → Runs.Throughout step InOrder start es) ∧
      ((Runs.run step start es).Rested →
        (Runs.Throughout step InOrder start es ↔ Runs.StepsMeet step Unraced start es)) := by
  have hstart : start.Linked ∧ start.Settled ∧ start.InOrder :=
    ⟨Linked.start, Settled.start, InOrder.start⟩
  have hinv (s : Shared) (e : LcoreStep) (h : s.Linked ∧ s.Settled ∧ s.InOrder)
      (hc : s.Unraced e) : (s.step e).Linked ∧ (s.step e).Settled ∧ (s.step e).InOrder := by
    obtain ⟨hl, hs, ho⟩ := h
    obtain ⟨ho', hs'⟩ := hs.step ho hl hc
    exact ⟨hl.step e, hs', ho'⟩
  have hfail (s : Shared) (e : LcoreStep) (h : s.Linked ∧ s.Settled ∧ s.InOrder) (_ : s.InOrder)
      (hrace : ¬s.Unraced e) (ho' : (s.step e).InOrder) : (s.step e).Linked ∧ (s.step e).Doomed := by
    obtain ⟨hl, hs, ho⟩ := h
    exact ⟨hl.step e, hs.doomed ho hl hrace ho'⟩
  have hdoomed (s : Shared) (e : LcoreStep) (h : s.Linked ∧ s.Doomed) (ho : s.InOrder)
      (ho' : (s.step e).InOrder) : (s.step e).Linked ∧ (s.step e).Doomed := by
    obtain ⟨hl, hd⟩ := h
    exact ⟨hl.step e, hd.step hl ho ho'⟩
  have henough (h : Runs.StepsMeet step Unraced start es) :
      Runs.Throughout step InOrder start es :=
    h.throughout hinv (fun _ h => h.2.2) hstart
  refine ⟨henough, fun hrested => ⟨fun h => ?_, henough⟩⟩
  exact h.stepsMeet (fun s e hi _ hc => hinv s e hi hc) hfail hdoomed hstart
    fun hend => hend.2.not_rested hrested

/-- The timer passes a TLV, and the data path two more after it. -/
theorem interleaving_inOrder_alternating :
    Runs.Throughout step InOrder start [.timer true true, .timer true true, .timer true true,
      .timer true true, .timer true true, .data 2, .data 0, .data 0] := by
  refine (interleaving_inOrder_iff _).1 ⟨trivial, trivial, trivial, ?_, trivial, ?_, ?_, trivial,
    trivial⟩
  · exact ⟨rfl, fun head hd => nomatch hd⟩
  · exact fun _ head ht => nomatch ht
  · exact fun head => ⟨(nomatch ·), (nomatch ·)⟩

/-- The data path adds a TLV between the timer's send and its clear: it is lost. -/
theorem lateTlv_lost : ¬∀ es, Runs.Throughout step InOrder start es := by
  intro h
  have hafter := (Runs.throughout_iff.mp (h [.timer true true, .timer true true, .timer true true,
    .timer true true, .data 1, .timer true true])) _ (List.prefix_refl _)
  rcases hafter.way 1 (by decide) with hp | hw | ht | hd
  · exact absurd hp (by decide)
  · cases hw
  · cases ht
  · cases hd

end SecureWan.ByteCache.Shared
