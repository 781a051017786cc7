import SecureWan.Eth400g.TxProtocol

/-!
# What the TX protocol checker reports

The rule for the TX interface says that valid is ready delayed and that the whole bus is paused
while valid is low: data, inframe, eop_empty, error and skip_crc. The checker keeps data and
inframe of the last valid beat and compares these two. Its reports are compared here with the
rule, which is stated on what was on the interface from reset on.
-/

namespace SecureWan.Eth400g

namespace TxBeat

/-- `i_tx_mac_eop_empty`. -/
def eopEmpties (e : TxBeat) : List (BitVec 3) := e.map fun x => x.payload.eopEmpty

/-- `i_tx_mac_error`. -/
def errors (e : TxBeat) : List Bool := e.map TxSeg.error

/-- `i_tx_mac_skip_crc`. -/
def skipCrcs (e : TxBeat) : List Bool := e.map TxSeg.skipCrc

end TxBeat

/-- What is on the TX interface at a clock edge. -/
structure TxCycle where
  ready : Bool
  valid : Bool
  beat : TxBeat

namespace Checker

variable (readyLatency : ℕ)

/-- A clock edge of the checker with what is on the interface. -/
def edge (c : Checker) (t : TxCycle) : Checker := c.step readyLatency t.valid t.beat t.ready

/-- The registers after the cycles of the list, from reset on. -/
def after (past : List TxCycle) : Checker := Runs.run (edge readyLatency) reset past

/-- The ready signal of the cycle that lies `READY_LATENCY` before the next one. -/
def delayedReady (past : List TxCycle) : Bool :=
  ShiftRegister.ago (readyLatency - 1) (past.map TxCycle.ready)

/-- The last beat that was valid. -/
def lastValid (past : List TxCycle) : Option TxBeat :=
  ((past.filter TxCycle.valid).getLast?).map TxCycle.beat

/-- The first rule: valid differs from ready delayed. -/
def WrongValid (past : List TxCycle) (t : TxCycle) : Prop :=
  t.valid ≠ delayedReady readyLatency past

/-- The second rule: valid is low and something on the bus differs from the last valid beat. -/
def BusMoves (past : List TxCycle) (t : TxCycle) : Prop :=
  t.valid = false ∧ ∃ last, lastValid past = some last ∧
    (t.beat.data ≠ last.data ∨ t.beat.inframes ≠ last.inframes ∨
      t.beat.eopEmpties ≠ last.eopEmpties ∨ t.beat.errors ≠ last.errors ∨
      t.beat.skipCrcs ≠ last.skipCrcs)

/-- The violation count goes up at the edge exactly if one of the rules is broken there. -/
def Exact (past : List TxCycle) (t : TxCycle) : Prop :=
  ((WrongValid readyLatency past t ∨ BusMoves past t) ∧
      (edge readyLatency (after readyLatency past) t).protoViol =
        (after readyLatency past).protoViol + 1) ∨
    (¬ (WrongValid readyLatency past t ∨ BusMoves past t) ∧
      (edge readyLatency (after readyLatency past) t).protoViol =
        (after readyLatency past).protoViol)

/-- A change of the bus that the checker does not look at: valid is low as it has to be, data
and inframe are those of the last valid beat, and one of the sideband signals is not. -/
def OnlySidebandMoves (past : List TxCycle) (t : TxCycle) : Prop :=
  t.valid = false ∧ delayedReady readyLatency past = false ∧
    ∃ last, lastValid past = some last ∧
      t.beat.data = last.data ∧ t.beat.inframes = last.inframes ∧
      (t.beat.eopEmpties ≠ last.eopEmpties ∨ t.beat.errors ≠ last.errors ∨
        t.beat.skipCrcs ≠ last.skipCrcs)

variable {readyLatency} {past : List TxCycle} {t : TxCycle}

theorem after_concat (past : List TxCycle) (t : TxCycle) :
    after readyLatency (past ++ [t]) = edge readyLatency (after readyLatency past) t := by
  rw [after, Runs.run_append]
  rfl

theorem lastValid_concat (past : List TxCycle) (t : TxCycle) :
    lastValid (past ++ [t]) = if t.valid then some t.beat else lastValid past := by
  cases h : t.valid <;> simp [lastValid, List.filter_append, h]

/-- The pipe delays ready. -/
theorem expValid_after (hpos : 1 ≤ readyLatency) (hmax : readyLatency ≤ 7)
    (past : List TxCycle) :
    (after readyLatency past).expValid readyLatency = delayedReady readyLatency past := by
  have hpipe : (after readyLatency past).rdyPipe =
      Runs.run BitVec.shiftConcat 0#8 (past.map TxCycle.ready) :=
    Runs.run_part Checker.rdyPipe TxCycle.ready (fun _ _ => rfl) reset past
  rw [expValid, hpipe, ShiftRegister.getLsbD_run _ (by omega), delayedReady]

/-- The hold registers keep data and inframe of the last valid beat. -/
theorem hold_after (readyLatency : ℕ) (past : List TxCycle) :
    (after readyLatency past).haveHold = (lastValid past).isSome ∧
      ∀ last, lastValid past = some last →
        (after readyLatency past).txDHold = last.data ∧
          (after readyLatency past).txIfHold = last.inframes := by
  induction past using List.reverseRecOn with
  | nil => exact ⟨rfl, by simp [lastValid]⟩
  | append_singleton past t ih =>
    rw [after_concat, lastValid_concat]
    obtain ⟨hhave, hheld⟩ := ih
    cases hvalid : t.valid with
    | true =>
      refine ⟨by simp [edge, step, hvalid], ?_⟩
      rintro last h
      obtain rfl : t.beat = last := by simpa using h
      exact ⟨by simp [edge, step, hvalid], by simp [edge, step, hvalid]⟩
    | false =>
      refine ⟨by simp [edge, step, hvalid, hhave], fun last h => ?_⟩
      obtain ⟨hdata, hinframe⟩ := hheld last (by simpa using h)
      exact ⟨by simp [edge, step, hvalid, hdata], by simp [edge, step, hvalid, hinframe]⟩

/-- The first rule as the checker sees it. -/
theorem badValid_after (hpos : 1 ≤ readyLatency) (hmax : readyLatency ≤ 7)
    (past : List TxCycle) (t : TxCycle) :
    (after readyLatency past).badValid readyLatency t.valid = true ↔
      WrongValid readyLatency past t := by
  rw [badValid, expValid_after hpos hmax, bne_iff_ne, WrongValid]

/-- The second rule as the checker sees it: two of the five signals. -/
theorem busMoved_after (readyLatency : ℕ) (past : List TxCycle) (t : TxCycle) :
    (after readyLatency past).busMoved t.valid t.beat = true ↔
      t.valid = false ∧ ∃ last, lastValid past = some last ∧
        (t.beat.data ≠ last.data ∨ t.beat.inframes ≠ last.inframes) := by
  obtain ⟨hhave, hheld⟩ := hold_after readyLatency past
  rw [busMoved, hhave]
  cases hlast : lastValid past with
  | none => simp
  | some last =>
    obtain ⟨hdata, hinframe⟩ := hheld last hlast
    simp [hdata, hinframe]

theorem add_one_ne (v : BitVec 32) : v + 1 ≠ v := by
  intro h
  have hone : (1 : BitVec 32) = 0 :=
    calc (1 : BitVec 32) = v + 1 - v := by rw [BitVec.add_comm, BitVec.add_sub_cancel]
      _ = 0 := by rw [h]; exact BitVec.sub_self v
  exact absurd hone (by decide)

variable (readyLatency) in
/-- What the checker reports: the first rule, and the second one for two of the signals. -/
def Reported (past : List TxCycle) (t : TxCycle) : Prop :=
  WrongValid readyLatency past t ∨
    (t.valid = false ∧ ∃ last, lastValid past = some last ∧
      (t.beat.data ≠ last.data ∨ t.beat.inframes ≠ last.inframes))

/-- An edge at which something is reported adds one. -/
theorem protoViol_of_reported (hpos : 1 ≤ readyLatency) (hmax : readyLatency ≤ 7)
    (h : Reported readyLatency past t) :
    (edge readyLatency (after readyLatency past) t).protoViol =
      (after readyLatency past).protoViol + 1 := by
  rw [Reported, ← badValid_after hpos hmax, ← busMoved_after readyLatency,
    ← Bool.or_eq_true] at h
  simp only [edge, step, h, if_true]

/-- An edge at which nothing is reported adds nothing. -/
theorem protoViol_of_not_reported (hpos : 1 ≤ readyLatency) (hmax : readyLatency ≤ 7)
    (h : ¬ Reported readyLatency past t) :
    (edge readyLatency (after readyLatency past) t).protoViol =
      (after readyLatency past).protoViol := by
  rw [Reported, ← badValid_after hpos hmax, ← busMoved_after readyLatency,
    ← Bool.or_eq_true] at h
  simp [edge, step, h]

/-- What is reported breaks one of the rules. -/
theorem Reported.broken (h : Reported readyLatency past t) :
    WrongValid readyLatency past t ∨ BusMoves past t := by
  obtain hwrong | ⟨hvalid, last, hlast, hdata | hinframe⟩ := h
  · exact Or.inl hwrong
  · exact Or.inr ⟨hvalid, last, hlast, Or.inl hdata⟩
  · exact Or.inr ⟨hvalid, last, hlast, Or.inr (Or.inl hinframe)⟩

/-- What breaks a rule and is not reported is a change of the sideband alone. -/
theorem onlySidebandMoves_iff :
    OnlySidebandMoves readyLatency past t ↔
      (WrongValid readyLatency past t ∨ BusMoves past t) ∧ ¬ Reported readyLatency past t := by
  constructor
  · rintro ⟨hvalid, hdelayed, last, hlast, hdata, hinframe, hsideband⟩
    refine ⟨Or.inr ⟨hvalid, last, hlast, Or.inr (Or.inr hsideband)⟩, ?_⟩
    rintro (hwrong | ⟨_, other, hother, hmoved⟩)
    · exact hwrong (hvalid.trans hdelayed.symm)
    · obtain rfl : last = other := Option.some.inj (hlast.symm.trans hother)
      exact hmoved.elim (fun h => h hdata) fun h => h hinframe
  · rintro ⟨hwrong | ⟨hvalid, last, hlast, hmoved⟩, hnot⟩
    · exact absurd (Or.inl hwrong) hnot
    · have hright : t.valid = delayedReady readyLatency past :=
        not_not.mp fun hwrong => hnot (Or.inl hwrong)
      have hdata : t.beat.data = last.data :=
        not_not.mp fun h => hnot (Or.inr ⟨hvalid, last, hlast, Or.inl h⟩)
      have hinframe : t.beat.inframes = last.inframes :=
        not_not.mp fun h => hnot (Or.inr ⟨hvalid, last, hlast, Or.inr h⟩)
      refine ⟨hvalid, hright.symm.trans hvalid, last, hlast, hdata, hinframe, ?_⟩
      exact (hmoved.resolve_left fun h => h hdata).resolve_left fun h => h hinframe

/-- **One edge.** The count is exact unless a sideband signal alone moves. -/
theorem exact_iff (hpos : 1 ≤ readyLatency) (hmax : readyLatency ≤ 7)
    (past : List TxCycle) (t : TxCycle) :
    Exact readyLatency past t ↔ ¬ OnlySidebandMoves readyLatency past t := by
  rw [onlySidebandMoves_iff, not_and_not_right]
  by_cases h : Reported readyLatency past t
  · have hcount := protoViol_of_reported hpos hmax h
    exact iff_of_true (Or.inl ⟨h.broken, hcount⟩) fun _ => h
  · have hcount := protoViol_of_not_reported hpos hmax h
    constructor
    · rintro (⟨_, hadd⟩ | ⟨hkept, _⟩) hbroken
      · exact absurd (hadd.symm.trans hcount) (add_one_ne _)
      · exact absurd hbroken hkept
    · intro himp
      exact Or.inr ⟨fun hbroken => h (himp hbroken), hcount⟩

variable (readyLatency) in
/-- The count is exact at every edge of the run. -/
def Complete (ts : List TxCycle) : Prop :=
  ∀ past t rest, ts = past ++ t :: rest → Exact readyLatency past t

/-- **The checker is exact while no sideband signal moves alone.** -/
theorem complete_iff (readyLatency : ℕ) (hpos : 1 ≤ readyLatency) (hmax : readyLatency ≤ 7)
    (ts : List TxCycle) :
    Complete readyLatency ts ↔
      ∀ past t rest, ts = past ++ t :: rest → ¬ OnlySidebandMoves readyLatency past t := by
  constructor
  · intro h past t rest heq
    exact (exact_iff hpos hmax past t).mp (h past t rest heq)
  · intro h past t rest heq
    exact (exact_iff hpos hmax past t).mpr (h past t rest heq)

/-- A beat of idle segments with one error flag. -/
def flaggedBeat (flag : Bool) : TxBeat :=
  ⟨⟨0, 0⟩, false, flag, false⟩ :: List.replicate 15 ⟨⟨0, 0⟩, false, false, false⟩

/-- Ready for one cycle, a valid beat one cycle later, and then the error flag goes up while
valid is low. -/
def flagWhilePaused : List TxCycle :=
  [⟨true, false, flaggedBeat false⟩, ⟨false, true, flaggedBeat false⟩,
    ⟨false, false, flaggedBeat true⟩]

/-- The same with the bus frozen while valid is low. -/
def flagHeld : List TxCycle :=
  [⟨true, false, flaggedBeat false⟩, ⟨false, true, flaggedBeat false⟩,
    ⟨false, false, flaggedBeat false⟩]

/-- A valid beat that is held is counted exactly. -/
theorem complete_flagHeld : Complete 1 flagHeld := by
  refine (complete_iff 1 (by decide) (by decide) flagHeld).mpr ?_
  rintro past t rest heq ⟨-, -, last, hlast, -, -, hmoved⟩
  have hbeats : ∀ c ∈ flagHeld, c.beat = flaggedBeat false := by simp [flagHeld]
  obtain ⟨c, hc, rfl⟩ := Option.map_eq_some_iff.mp hlast
  have hpast : c ∈ past := List.mem_of_mem_filter (List.mem_of_getLast? hc)
  have hsame : t.beat = c.beat := by
    rw [hbeats t (heq ▸ List.mem_append_right past List.mem_cons_self),
      hbeats c (heq ▸ List.mem_append_left _ hpast)]
  rw [hsame] at hmoved
  obtain hmoved | hmoved | hmoved := hmoved <;> exact hmoved rfl

/-- The changed error flag is not counted. -/
theorem not_complete_flagWhilePaused : ¬ Complete 1 flagWhilePaused := by
  intro h
  have hexact := h [⟨true, false, flaggedBeat false⟩, ⟨false, true, flaggedBeat false⟩]
    ⟨false, false, flaggedBeat true⟩ [] rfl
  refine (exact_iff (by decide) (by decide) _ _).mp hexact ?_
  exact ⟨rfl, rfl, flaggedBeat false, rfl, rfl, rfl, Or.inr (Or.inl (by decide))⟩

end Checker

end SecureWan.Eth400g
