import SecureWan.Eth400g.FrameIntegrity
import SecureWan.Eth400g.TxProtocol

/-!
# The order of the tagging block and the delay line block

`seg_tag` is assigned within a clock edge by the tagging block and read at the same edge by the
delay line block. A simulator can evaluate either block first: the delay line gets the tags of
the beat that comes in, or those of the valid beat before. This file compares the runs of the
loopback when the order is chosen anew at each edge.
-/

namespace SecureWan.Eth400g

/-- Which of the two blocks is evaluated first. -/
inductive Order
  | tagFirst
  | lineFirst

/-- A clock edge of the drop stage. -/
def DropStage.stepIn (order : Order) (dropOnError : Bool) (s : DropStage) (b : RxBeat) :
    DropStage :=
  match order with
  | .tagFirst => (s.tagBeat dropOnError b).shiftLine b
  | .lineFirst => (s.shiftLine b).tagBeat dropOnError b

/-- The outputs of the loopback. -/
structure Outputs where
  txValid : Bool
  txBeat : TxBeat
  rxBeats : BitVec 32
  txBeats : BitVec 32
  ovfBeats : BitVec 32
  droppedFrames : BitVec 32
  fifoLevel : ℕ

namespace Loopback

variable {n : ℕ}

def outputs (s : Loopback n) : Outputs :=
  ⟨s.tx.valid, s.tx.beat, s.wr.rxBeats, s.tx.txBeats, s.wr.ovfBeats, s.drop.droppedFrames,
    s.level⟩

/-- A clock edge; the other blocks only read registers. -/
def stepIn (readyLatency : ℕ) (s : Loopback n) (e : Order × Inputs) : Loopback n :=
  ⟨s.drop.stepIn e.1 e.2.dropOnError e.2.rx, s.writeSide e.2, s.txSide readyLatency e.2⟩

/-- The registers after a run from reset, with an order for each edge. -/
def runIn (readyLatency : ℕ) (mem : BitVec n → TxBeat) (memQ : TxBeat) (order : ℕ → Order)
    (is : List Inputs) : Loopback n :=
  Runs.run (stepIn readyLatency) (reset mem memQ) (is.mapIdx fun k i => (order k, i))

theorem runIn_concat (readyLatency : ℕ) (mem : BitVec n → TxBeat) (memQ : TxBeat)
    (order : ℕ → Order) (is : List Inputs) (i : Inputs) :
    runIn readyLatency mem memQ order (is ++ [i]) =
      (runIn readyLatency mem memQ order is).stepIn readyLatency (order is.length, i) := by
  simp only [runIn, List.mapIdx_append, List.mapIdx_singleton, Runs.run_append, Runs.run_cons,
    Runs.run_nil, Nat.zero_add]

end Loopback

/-! ### Both tags of a segment -/

/-- A segment with its own tag and the tag at its place in the valid beat before. -/
structure RaceSeg where
  seg : Segment
  tag : Tag
  prevTag : Tag

/-- The tag that the delay line takes. -/
def RaceSeg.tagIn (x : RaceSeg) : Order → Tag
  | .tagFirst => x.tag
  | .lineFirst => x.prevTag

/-- A beat in the delay line with both tags. -/
structure RaceBeat where
  valid : Bool
  segs : List RaceSeg

/-- The entry of the delay line. -/
def RaceBeat.entry (y : RaceBeat) (order : Order) : LineBeat :=
  ⟨y.valid, y.segs.map fun x => x.seg.lineSeg (x.tagIn order)⟩

/-- The registers of the tagging block, which no order changes, and the beats in the delay
line. -/
structure Race where
  stage : DropStage
  recent : List RaceBeat
  sized : stage.segTag.length = numSeg

/-- An entry of the delay line after reset. -/
def RaceBeat.reset : RaceBeat := ⟨false, List.replicate numSeg ⟨⟨0, false, 0, false, 0⟩, 0, 0⟩⟩

theorem length_segTag_tagBeat {s : DropStage} (h : s.segTag.length = numSeg)
    (dropOnError : Bool) (b : RxBeat) : (s.tagBeat dropOnError b).segTag.length = numSeg := by
  unfold DropStage.tagBeat
  split
  · change (Runs.run TagVars.tagSegment s.tagVars b.segs).segTag.length = numSeg
    rw [length_segTag_run, b.length_eq]
    rfl
  · exact h

namespace Race

/-- The registers after reset. -/
def reset : Race := ⟨resetStage, List.replicate dropDelay RaceBeat.reset, rfl⟩

/-- A clock edge. -/
def step (r : Race) (i : Inputs) : Race where
  stage := r.stage.tagBeat i.dropOnError i.rx
  recent :=
    ⟨i.rx.valid, List.zipWith3 RaceSeg.mk i.rx.segs (r.stage.tagBeat i.dropOnError i.rx).segTag
      r.stage.segTag⟩ :: r.recent.take (dropDelay - 1)
  sized := length_segTag_tagBeat r.sized i.dropOnError i.rx

/-- The beat that leaves the delay line. -/
def out (r : Race) : RaceBeat := r.recent.getD (dropDelay - 1) RaceBeat.reset

/-- While drops are on, both tags of each segment in a frame that leaves the delay line in a valid
beat have the same drop flag. -/
def Agrees (r : Race) (i : Inputs) : Prop :=
  r.out.valid = true → i.dropOnError = true →
    ∀ x ∈ r.out.segs, x.seg.inframe = true → r.stage.dropSet x.tag = r.stage.dropSet x.prevTag

instance (r : Race) (i : Inputs) : Decidable (r.Agrees i) :=
  inferInstanceAs (Decidable (_ → _ → ∀ _ ∈ _, _))

end Race

/-- A drop stage whose delay line has been filled in the given orders, the last one first. -/
structure Ordered (r : Race) (orders : List Order) (s : DropStage) : Prop where
  stage : s = { r.stage with line := List.zipWith RaceBeat.entry r.recent orders }
  count : r.recent.length = dropDelay
  orders : orders.length = dropDelay

variable {r : Race} {orders : List Order} {s : DropStage} {i : Inputs}

theorem entry_reset (order : Order) : RaceBeat.reset.entry order = resetBeat := by
  cases order <;> rfl

theorem zipWith_entry_reset (orders : List Order) :
    List.zipWith RaceBeat.entry (List.replicate orders.length RaceBeat.reset) orders =
      List.replicate orders.length resetBeat := by
  induction orders with
  | nil => rfl
  | cons order orders ih =>
    rw [List.length_cons, List.replicate_succ, List.zipWith_cons_cons, ih, entry_reset,
      ← List.replicate_succ]

theorem ordered_reset (h : orders.length = dropDelay) :
    Ordered Race.reset orders resetStage where
  stage := by
    have hline := zipWith_entry_reset orders
    rw [h] at hline
    exact congrArg (fun line => { resetStage with line := line }) hline.symm
  count := List.length_replicate
  orders := h

theorem map_zipWith3 (order : Order) {xs : List Segment} {tags prevTags : List Tag}
    (htags : tags.length = xs.length) (hprevTags : prevTags.length = xs.length) :
    (List.zipWith3 RaceSeg.mk xs tags prevTags).map
        (fun x => x.seg.lineSeg (x.tagIn order)) =
      List.zipWith Segment.lineSeg xs
        (match order with
          | .tagFirst => tags
          | .lineFirst => prevTags) := by
  induction xs generalizing tags prevTags with
  | nil => simp [List.zipWith3]
  | cons x xs ih =>
    obtain ⟨tag, tags, rfl⟩ := List.exists_cons_of_length_eq_add_one htags
    obtain ⟨prevTag, prevTags, rfl⟩ := List.exists_cons_of_length_eq_add_one hprevTags
    have htail := ih (Nat.succ.inj htags) (Nat.succ.inj hprevTags)
    rw [List.zipWith3, List.map_cons, htail]
    cases order <;> rfl

/-- The tagging block does not look at the delay line. -/
theorem tagBeat_setLine (s : DropStage) (line : List LineBeat) (dropOnError : Bool)
    (b : RxBeat) :
    ({ s with line := line } : DropStage).tagBeat dropOnError b =
      { s.tagBeat dropOnError b with line := line } := by
  unfold DropStage.tagBeat
  split <;> rfl

/-- **One clock edge.** -/
theorem Ordered.step (h : Ordered r orders s) (order : Order) (i : Inputs) :
    Ordered (r.step i) (order :: orders.take (dropDelay - 1))
      (s.stepIn order i.dropOnError i.rx) where
  stage := by
    have hnew := map_zipWith3 order
      ((length_segTag_tagBeat r.sized i.dropOnError i.rx).trans i.rx.length_eq.symm)
      (r.sized.trans i.rx.length_eq.symm)
    have htake : (List.zipWith RaceBeat.entry r.recent orders).take (dropDelay - 1) =
        List.zipWith RaceBeat.entry (r.recent.take (dropDelay - 1))
          (orders.take (dropDelay - 1)) := List.take_zipWith
    rw [h.stage]
    cases order with
    | tagFirst =>
      rw [DropStage.stepIn, tagBeat_setLine, DropStage.shiftLine, htake, ← hnew]
      rfl
    | lineFirst =>
      rw [DropStage.stepIn, DropStage.shiftLine]
      dsimp only
      rw [htake, ← hnew]
      exact tagBeat_setLine r.stage _ i.dropOnError i.rx
  count := by rw [Race.step, List.length_cons, List.length_take, h.count]; rfl
  orders := by rw [List.length_cons, List.length_take, h.orders]; rfl

/-- What leaves the delay line. -/
theorem Ordered.lineOut (h : Ordered r orders s) :
    ∃ order, orders[dropDelay - 1]? = some order ∧ s.lineOut = r.out.entry order := by
  have hrecent : dropDelay - 1 < r.recent.length := by rw [h.count]; decide
  have horders : dropDelay - 1 < orders.length := by rw [h.orders]; decide
  refine ⟨orders[dropDelay - 1], List.getElem?_eq_getElem horders, ?_⟩
  rw [h.stage, DropStage.lineOut, Race.out, List.getD_eq_getElem?_getD, List.getElem?_zipWith,
    List.getElem?_eq_getElem hrecent, List.getElem?_eq_getElem horders,
    List.getD_eq_getElem?_getD, List.getElem?_eq_getElem hrecent]
  rfl

/-! ### The beat that is offered to the FIFO -/

/-- What the FIFO gets of a segment. -/
def RaceSeg.mark (x : RaceSeg) (stage : DropStage) (dropOnError : Bool) (order : Order) :
    Payload × Bool :=
  (x.seg.payload, stage.keep dropOnError (x.seg.lineSeg (x.tagIn order)))

/-- Both orders give the same marks exactly when the tags agree. -/
theorem marks_eq_iff {dropOnError : Bool} :
    r.out.segs.map (fun x => x.mark r.stage dropOnError .tagFirst) =
        r.out.segs.map (fun x => x.mark r.stage dropOnError .lineFirst) ↔
      (dropOnError = true → ∀ x ∈ r.out.segs, x.seg.inframe = true →
        r.stage.dropSet x.tag = r.stage.dropSet x.prevTag) := by
  rw [List.map_inj_left]
  constructor
  · rintro h rfl x hx hin
    have hkeep := congrArg Prod.snd (h x hx)
    simpa [RaceSeg.mark, DropStage.keep, Segment.lineSeg, RaceSeg.tagIn, hin] using hkeep
  · intro h x hx
    cases hdrop : dropOnError with
    | false => simp [RaceSeg.mark, DropStage.keep, Segment.lineSeg]
    | true =>
      cases hin : x.seg.inframe with
      | false => simp [RaceSeg.mark, DropStage.keep, Segment.lineSeg, hin]
      | true =>
        have hsame := h hdrop x hx hin
        simp [RaceSeg.mark, DropStage.keep, Segment.lineSeg, RaceSeg.tagIn, hin, hsame]

/-- Once the tags agree, the order in which the beat was taken does not matter. -/
theorem Race.Agrees.marks_eq (h : r.Agrees i) (hvalid : r.out.valid = true)
    (order₁ order₂ : Order) :
    r.out.segs.map (fun x => x.mark r.stage i.dropOnError order₁) =
      r.out.segs.map (fun x => x.mark r.stage i.dropOnError order₂) := by
  have hboth := marks_eq_iff.mpr (h hvalid)
  cases order₁ <;> cases order₂
  · rfl
  · exact hboth
  · exact hboth.symm
  · rfl

namespace Loopback

variable {n : ℕ} {t : Loopback n}

/-- A marked segment in the FIFO. -/
def txSegOf (i : Inputs) (k : ℕ) (m : Payload × Bool) : TxSeg :=
  ⟨m.1, m.2, i.txError.getLsbD k, i.txSkipCrc.getLsbD k⟩

theorem wrEntry_eq (h : Ordered r orders t.drop) {order : Order}
    (hout : t.drop.lineOut = r.out.entry order) :
    t.wrEntry i =
      (r.out.segs.map fun x => x.mark r.stage i.dropOnError order).mapIdx (txSegOf i) := by
  have hkeep : t.drop.keep i.dropOnError = r.stage.keep i.dropOnError := by
    rw [h.stage]
    rfl
  apply List.ext_getElem?
  intro k
  rw [wrEntry, hout, hkeep]
  simp only [RaceBeat.entry, List.getElem?_mapIdx, List.getElem?_map, Option.map_map]
  rfl

/-- The marks are in the entry. -/
theorem map_mapIdx_txSegOf (i : Inputs) (ms : List (Payload × Bool)) :
    (ms.mapIdx (txSegOf i)).map (fun x => (x.payload, x.inframe)) = ms := by
  apply List.ext_getElem?
  intro k
  simp [List.getElem?_mapIdx, txSegOf, Function.comp_def]

/-- **The offered beat.** Entries taken in both orders are the same exactly when the tags
agree. -/
theorem wrEntry_eq_iff {orders₁ orders₂ : List Order} {t₁ t₂ : Loopback n}
    (h₁ : Ordered r orders₁ t₁.drop) (h₂ : Ordered r orders₂ t₂.drop)
    (hout₁ : t₁.drop.lineOut = r.out.entry .tagFirst)
    (hout₂ : t₂.drop.lineOut = r.out.entry .lineFirst) :
    (r.out.valid = true → t₁.wrEntry i = t₂.wrEntry i) ↔ r.Agrees i := by
  rw [wrEntry_eq h₁ hout₁, wrEntry_eq h₂ hout₂, Race.Agrees]
  refine imp_congr_right fun _ => Iff.trans ?_ marks_eq_iff
  constructor
  · intro h
    have hmarks := congrArg (List.map fun x : TxSeg => (x.payload, x.inframe)) h
    rwa [map_mapIdx_txSegOf, map_mapIdx_txSegOf] at hmarks
  · intro h
    rw [h]

/-- Two loopbacks that differ in the orders only. -/
structure Alike (r : Race) (t₁ t₂ : Loopback n) : Prop where
  first : ∃ orders, Ordered r orders t₁.drop
  second : ∃ orders, Ordered r orders t₂.drop
  wr : t₁.wr = t₂.wr
  tx : t₁.tx = t₂.tx

variable {t₁ t₂ : Loopback n}

/-- The same beat is offered when the tags agree. -/
theorem Alike.sameEntry (h : Alike r t₁ t₂) (hagrees : r.Agrees i) :
    t₁.drop.lineOut.valid = t₂.drop.lineOut.valid ∧
      (t₁.drop.lineOut.valid = true → t₁.wrEntry i = t₂.wrEntry i) := by
  obtain ⟨orders₁, hordered₁⟩ := h.first
  obtain ⟨orders₂, hordered₂⟩ := h.second
  obtain ⟨order₁, -, hout₁⟩ := hordered₁.lineOut
  obtain ⟨order₂, -, hout₂⟩ := hordered₂.lineOut
  rw [hout₁, hout₂]
  refine ⟨rfl, fun hvalid => ?_⟩
  rw [wrEntry_eq hordered₁ hout₁, wrEntry_eq hordered₂ hout₂,
    hagrees.marks_eq hvalid order₁ order₂]

/-- **One clock edge** of two runs. -/
theorem Alike.step (h : Alike r t₁ t₂) (hagrees : r.Agrees i) (readyLatency : ℕ)
    (order₁ order₂ : Order) :
    Alike (r.step i) (t₁.stepIn readyLatency (order₁, i)) (t₂.stepIn readyLatency (order₂, i)) where
  first := by
    obtain ⟨orders, hordered⟩ := h.first
    exact ⟨_, hordered.step order₁ i⟩
  second := by
    obtain ⟨orders, hordered⟩ := h.second
    exact ⟨_, hordered.step order₂ i⟩
  wr := by
    obtain ⟨hvalid, hentry⟩ := h.sameEntry hagrees
    change t₁.writeSide i = t₂.writeSide i
    have hfull : t₁.full = t₂.full := by rw [full, full, level, level, h.wr, h.tx]
    unfold writeSide offered
    rw [← hvalid, hfull, h.wr]
    cases hout : t₁.drop.lineOut.valid with
    | false => rfl
    | true => rw [hentry hout]
  tx := by
    change t₁.txSide readyLatency i = t₂.txSide readyLatency i
    unfold txSide txEn empty
    rw [h.wr, h.tx]

/-- Loopbacks that differ in the orders only have the same outputs. -/
theorem Alike.outputs_eq (h : Alike r t₁ t₂) : t₁.outputs = t₂.outputs := by
  obtain ⟨orders₁, hordered₁⟩ := h.first
  obtain ⟨orders₂, hordered₂⟩ := h.second
  have hdropped : t₁.drop.droppedFrames = t₂.drop.droppedFrames := by
    rw [hordered₁.stage, hordered₂.stage]
  rw [outputs, outputs, level, level, h.wr, h.tx, hdropped]

/-! ### Runs -/

variable (readyLatency : ℕ) (mem : BitVec n → TxBeat) (memQ : TxBeat)

theorem alike_reset : Alike Race.reset (reset mem memQ) (reset mem memQ) :=
  have hordered : Ordered Race.reset (List.replicate dropDelay .tagFirst) resetStage :=
    ordered_reset List.length_replicate
  ⟨⟨_, hordered⟩, ⟨_, hordered⟩, rfl, rfl⟩

/-- Two runs on the same inputs, as long as the tags agree. -/
theorem alike_run {is : List Inputs} (h : Runs.StepsMeet Race.step Race.Agrees Race.reset is)
    (order₁ order₂ : ℕ → Order) :
    Alike (Runs.run Race.step Race.reset is) (runIn readyLatency mem memQ order₁ is)
      (runIn readyLatency mem memQ order₂ is) := by
  induction is using List.reverseRecOn with
  | nil => exact alike_reset mem memQ
  | append_singleton is i ih =>
    obtain ⟨hearlier, hlast⟩ := Runs.stepsMeet_concat.mp h
    rw [runIn_concat, runIn_concat, Runs.run_append]
    exact (ih hearlier).step hlast readyLatency _ _

/-- A run in which the order never changes. -/
theorem ordered_run (order : Order) (is : List Inputs) :
    Ordered (Runs.run Race.step Race.reset is) (List.replicate dropDelay order)
      (runIn readyLatency mem memQ (fun _ => order) is).drop := by
  induction is using List.reverseRecOn with
  | nil => exact ordered_reset List.length_replicate
  | append_singleton is i ih =>
    rw [runIn_concat, Runs.run_append]
    exact ih.step order i

/-- In every run the beats that are offered to the FIFO do not depend on the orders. -/
def OffersAlike (is : List Inputs) : Prop :=
  ∀ order₁ order₂ : ℕ → Order, ∀ past i rest, is = past ++ i :: rest →
    (runIn readyLatency mem memQ order₁ past).drop.lineOut.valid = true →
      (runIn readyLatency mem memQ order₁ past).wrEntry i =
        (runIn readyLatency mem memQ order₂ past).wrEntry i

/-- **Exactness for the offered beats.** -/
theorem offersAlike_iff (is : List Inputs) :
    OffersAlike readyLatency mem memQ is ↔
      Runs.StepsMeet Race.step Race.Agrees Race.reset is := by
  constructor
  · intro h
    rw [Runs.stepsMeet_iff]
    intro past i rest heq
    have hfirst := ordered_run readyLatency mem memQ .tagFirst past
    have hsecond := ordered_run readyLatency mem memQ .lineFirst past
    have hout : ∀ order, (runIn readyLatency mem memQ (fun _ => order) past).drop.lineOut =
        (Runs.run Race.step Race.reset past).out.entry order := by
      intro order
      obtain ⟨order', horder, hout⟩ := (ordered_run readyLatency mem memQ order past).lineOut
      rw [List.getElem?_replicate_of_lt (by decide)] at horder
      rw [hout, Option.some.inj horder]
    refine (wrEntry_eq_iff hfirst hsecond (hout .tagFirst) (hout .lineFirst)).mp fun hvalid => ?_
    refine h (fun _ => .tagFirst) (fun _ => .lineFirst) past i rest heq ?_
    rw [hout]
    exact hvalid
  · intro h order₁ order₂ past i rest heq
    have hprefix : Runs.StepsMeet Race.step Race.Agrees Race.reset past :=
      h.of_prefix (heq ▸ List.prefix_append past (i :: rest))
    have hagrees := Runs.stepsMeet_iff.mp h past i rest heq
    exact ((alike_run readyLatency mem memQ hprefix order₁ order₂).sameEntry hagrees).2

/-- **Independence of the evaluation order.** The beats offered to the FIFO are the same for all
orders exactly when the tags of what leaves the delay line agree in each cycle, and then all
outputs are the same in each state of the run. -/
theorem outputs_eq_of_agrees (is : List Inputs) :
    (OffersAlike readyLatency mem memQ is ↔
        Runs.StepsMeet Race.step Race.Agrees Race.reset is) ∧
      (Runs.StepsMeet Race.step Race.Agrees Race.reset is →
        ∀ order₁ order₂ : ℕ → Order, ∀ past, past <+: is →
          (runIn readyLatency mem memQ order₁ past).outputs =
            (runIn readyLatency mem memQ order₂ past).outputs) := by
  refine ⟨offersAlike_iff readyLatency mem memQ is, fun h order₁ order₂ past hpast => ?_⟩
  have hprefix : Runs.StepsMeet Race.step Race.Agrees Race.reset past :=
    h.of_prefix hpast
  exact (alike_run readyLatency mem memQ hprefix order₁ order₂).outputs_eq

/-- A beat with one frame of fifteen segments. -/
def oneFrame (fcsError : Bool) : Inputs where
  rx :=
    { valid := true
      segs := List.replicate 14 ⟨5, true, 0, false, 0⟩ ++
        [⟨6, true, 2, fcsError, 0⟩, ⟨0, false, 0, false, 0⟩]
      length_eq := rfl }
  txError := 0
  txSkipCrc := 0
  dropOnError := true
  txReady := true

/-- A cycle without traffic. -/
def noFrame : Inputs := { Bench.quiet true with dropOnError := true }

/-- Two frames without errors, through the delay line. -/
theorem outputs_eq_of_agrees_good :
    (runIn 3 (fun _ : BitVec 9 => idleBeat) idleBeat (fun _ => .tagFirst)
        ([oneFrame false, oneFrame false] ++ List.replicate 16 noFrame)).outputs =
      (runIn 3 (fun _ : BitVec 9 => idleBeat) idleBeat (fun _ => .lineFirst)
        ([oneFrame false, oneFrame false] ++ List.replicate 16 noFrame)).outputs :=
  (outputs_eq_of_agrees 3 (fun _ : BitVec 9 => idleBeat) idleBeat
    ([oneFrame false, oneFrame false] ++ List.replicate 16 noFrame)).2 (by decide +kernel)
    (fun _ => .tagFirst) (fun _ => .lineFirst) _ List.prefix_rfl

/-- A frame with an error and one without: with the delay line first, both are dropped. -/
theorem outputs_ne_after_error :
    ∃ order₁ order₂ : ℕ → Order,
      (runIn 3 (fun _ : BitVec 9 => idleBeat) idleBeat order₁
          ([oneFrame true, oneFrame false] ++ List.replicate 16 noFrame)).outputs ≠
        (runIn 3 (fun _ : BitVec 9 => idleBeat) idleBeat order₂
          ([oneFrame true, oneFrame false] ++ List.replicate 16 noFrame)).outputs := by
  refine ⟨fun _ => .tagFirst, fun _ => .lineFirst, fun h => ?_⟩
  have hbeats := congrArg Outputs.rxBeats h
  revert hbeats
  decide +kernel

end Loopback

end SecureWan.Eth400g
