import SecureWan.Eth400g.ElasticFifo
import SecureWan.Eth400g.FrameTags
import SecureWan.Lib.Framing

/-!
# Frames through the loopback

Without drops and overflow, the loopback takes the beats with segments in a frame from RX to
TX in order. Idle beats are not taken along: a beat without a segment in a frame is not
written to the FIFO, and an idle beat is driven when the FIFO is empty. The frames on TX are
those of RX as long as the two kinds of idle beats match within frames.
-/

namespace SecureWan.Eth400g

open Framing

/-! ### Lines of segments -/

/-- A segment of the RX interface, as a place of a line. -/
def Segment.place (x : Segment) : Option Payload := if x.inframe then some x.payload else none

/-- A segment in the delay line, as a place of a line. -/
def LineSeg.place (x : LineSeg) : Option Payload := if x.inframe then some x.payload else none

/-- A segment of the TX interface, as a place of a line. -/
def TxSeg.place (x : TxSeg) : Option Payload := if x.inframe then some x.payload else none

/-- The places of a beat at the RX interface. -/
def RxBeat.places (b : RxBeat) : Line Payload :=
  if b.valid then b.segs.map Segment.place else []

/-- The places of an entry of the delay line. -/
def LineBeat.places (l : LineBeat) : Line Payload :=
  if l.valid then l.segs.map LineSeg.place else []

/-- The places of a beat at the TX interface. -/
def TxBeat.places (e : TxBeat) : Line Payload := e.map TxSeg.place

/-- What is received in a run, over the valid beats. -/
def rxLine (is : List Inputs) : Line Payload := is.flatMap fun i => i.rx.places

/-- What is in the delay line, the oldest beat first. -/
def DropStage.pending (s : DropStage) : Line Payload := s.line.reverse.flatMap LineBeat.places

theorem places_idleBeat : idleBeat.places = List.replicate numSeg none := rfl

/-- A beat with no segment in a frame is idle all over. -/
theorem places_of_not_inframe {e : TxBeat} (h : ¬ TxBeat.inframe e = true) :
    e.places = List.replicate e.length none := by
  rw [TxBeat.inframe, List.any_eq_true, not_exists] at h
  apply List.eq_replicate_iff.mpr
  refine ⟨List.length_map _, fun y hy => ?_⟩
  obtain ⟨x, hx, rfl⟩ := List.mem_map.mp hy
  have hout : x.inframe = false := by simpa [hx] using h x
  simp [TxSeg.place, hout]

theorem places_ne_nil {e : TxBeat} (h : TxBeat.inframe e = true) : e.places ≠ [] := by
  intro hnil
  rw [List.map_eq_nil_iff.mp hnil] at h
  cases h

/-! ### The delay line -/

/-- The delay line and its entries have their lengths. -/
structure DropStage.Sized (s : DropStage) : Prop where
  line : s.line.length = dropDelay
  segs : ∀ l ∈ s.line, l.segs.length = numSeg
  segTag : s.segTag.length = numSeg

theorem sized_resetStage : resetStage.Sized where
  line := rfl
  segs := by
    intro l hl
    rw [List.eq_of_mem_replicate hl]
    rfl
  segTag := rfl

theorem length_segTag_run (v : TagVars) (xs : List Segment) :
    (Runs.run TagVars.tagSegment v xs).segTag.length = v.segTag.length + xs.length := by
  induction xs generalizing v with
  | nil => rfl
  | cons x xs ih =>
    have hone : (v.tagSegment x).segTag.length = v.segTag.length + 1 := by
      unfold TagVars.tagSegment
      split
      · rw [segTag_flag, List.length_append, List.length_singleton]
      · rw [List.length_append, List.length_singleton]
    rw [Runs.run_cons, ih, hone, List.length_cons]
    omega

/-- The tagging block gives a tag to each segment and leaves the delay line alone. -/
theorem tagBeat_spec {s : DropStage} (h : s.Sized) (dropOnError : Bool) (b : RxBeat) :
    (s.tagBeat dropOnError b).segTag.length = numSeg ∧
      (s.tagBeat dropOnError b).line = s.line := by
  unfold DropStage.tagBeat
  split
  · refine ⟨?_, rfl⟩
    change (Runs.run TagVars.tagSegment s.tagVars b.segs).segTag.length = numSeg
    rw [length_segTag_run, b.length_eq]
    rfl
  · exact ⟨h.segTag, rfl⟩

theorem map_place_zipWith {xs : List Segment} {tags : List Tag}
    (h : xs.length = tags.length) :
    (List.zipWith Segment.lineSeg xs tags).map LineSeg.place = xs.map Segment.place := by
  induction xs generalizing tags with
  | nil => rfl
  | cons x xs ih =>
    cases tags with
    | nil => cases h
    | cons tag tags =>
      rw [List.zipWith_cons_cons, List.map_cons, ih (Nat.succ.inj h), List.map_cons]
      rfl

/-- **The delay line.** A beat that comes in moves the oldest one out. -/
theorem DropStage.Sized.step {s : DropStage} (h : s.Sized) (dropOnError : Bool) (b : RxBeat) :
    (s.step dropOnError b).Sized ∧
      s.lineOut.places ++ (s.step dropOnError b).pending = s.pending ++ b.places := by
  obtain ⟨htag, hline⟩ := tagBeat_spec h dropOnError b
  obtain ⟨init, last, hs⟩ : ∃ init last, s.line = init ++ [last] := by
    rcases List.eq_nil_or_concat' s.line with hnil | hconcat
    · have hlen := h.line
      rw [hnil] at hlen
      cases hlen
    · exact hconcat
  have hinit : init.length = dropDelay - 1 := by
    have hlen := h.line
    rw [hs, List.length_append, List.length_singleton] at hlen
    omega
  have hnew : (s.step dropOnError b).line =
      ⟨b.valid, List.zipWith Segment.lineSeg b.segs (s.tagBeat dropOnError b).segTag⟩ :: init := by
    change _ :: (s.tagBeat dropOnError b).line.take (dropDelay - 1) = _
    rw [hline, hs, ← hinit, List.take_left]
  have hout : s.lineOut = last := by
    rw [DropStage.lineOut, hs, ← hinit, List.getD_eq_getElem?_getD, List.getElem?_concat_length]
    rfl
  constructor
  · constructor
    · rw [hnew, List.length_cons, hinit]
      rfl
    · rw [hnew]
      intro l hl
      rcases List.mem_cons.mp hl with rfl | hold
      · rw [List.length_zipWith, b.length_eq, htag, Nat.min_self]
      · exact h.segs l (by rw [hs]; exact List.mem_append_left _ hold)
    · exact htag
  · have hplaces : LineBeat.places ⟨b.valid,
        List.zipWith Segment.lineSeg b.segs (s.tagBeat dropOnError b).segTag⟩ = b.places := by
      rw [LineBeat.places, RxBeat.places, map_place_zipWith (b.length_eq.trans htag.symm)]
    rw [DropStage.pending, DropStage.pending, hnew, hs, hout, List.reverse_cons,
      List.reverse_append, List.flatMap_append, List.flatMap_singleton, hplaces,
      List.reverse_singleton, List.singleton_append, List.flatMap_cons, List.append_assoc]

theorem DropStage.Sized.lineOut {s : DropStage} (h : s.Sized) :
    s.lineOut.segs.length = numSeg := by
  have hlt : dropDelay - 1 < s.line.length := by
    rw [h.line]
    decide
  rw [DropStage.lineOut, List.getD_eq_getElem?_getD, List.getElem?_eq_getElem hlt,
    Option.getD_some]
  exact h.segs _ (List.getElem_mem hlt)

/-! ### Beats that arrive, are read and are sent -/

/-- The places of the beats of a log. -/
def lines (log : List (Option TxBeat)) : List (Option (Line Payload)) :=
  log.map (Option.map TxBeat.places)

/-- The places of the TX interface in a cycle in which it is valid. -/
def TxSide.places {n : ℕ} (tx : TxSide n) : Line Payload := if tx.valid then tx.beat.places else []

namespace Loopback

variable {n : ℕ} (readyLatency : ℕ) (s : Loopback n) (i : Inputs)

/-- The valid beat at the output of the delay line, if it has a segment in a frame. -/
def arrived : List (Option TxBeat) :=
  if s.drop.lineOut.valid then
    [if TxBeat.inframe (s.wrEntry i) then some (s.wrEntry i) else none]
  else []

/-- What the TX side reads while it is enabled: an entry, or nothing when the FIFO is empty. -/
def read : List (Option TxBeat) :=
  if s.txEn readyLatency i then
    [if s.empty then none else some (s.wr.mem (Ring.cell s.tx.rdPtr))]
  else []

/-- The entry in the read register. -/
def readReg : Option TxBeat := if s.tx.rdVldD then some s.tx.memQ else none

/-- What the TX side sends while it is enabled: the entry that it read before. -/
def sent : List (Option TxBeat) := if s.txEn readyLatency i then [s.readReg] else []

/-- What is sent in a run, over the cycles in which the TX interface is valid. -/
def txLine (readyLatency : ℕ) (s : Loopback n) : List Inputs → Line Payload :=
  Runs.trace (step readyLatency) (fun s i => (s.step readyLatency i).tx.places) s

/-- The beats that arrive in a run, none for idle ones. -/
def arrivedIn (readyLatency : ℕ) (s : Loopback n) : List Inputs → List (Option TxBeat) :=
  Runs.trace (step readyLatency) arrived s

/-- The entries that are read in a run, none where the FIFO was found empty. -/
def readIn (readyLatency : ℕ) (s : Loopback n) : List Inputs → List (Option TxBeat) :=
  Runs.trace (step readyLatency) (read readyLatency) s

/-- The entries that are sent in a run, none for idle beats. -/
def sentIn (readyLatency : ℕ) (s : Loopback n) : List Inputs → List (Option TxBeat) :=
  Runs.trace (step readyLatency) (sent readyLatency) s

variable {readyLatency s i} {q : List TxBeat}

/-- A beat that is not masked has the places of the received one. -/
theorem places_wrEntry (hdrop : i.dropOnError = false) :
    (s.wrEntry i).places = s.drop.lineOut.segs.map LineSeg.place := by
  apply List.ext_getElem
  · simp [wrEntry, TxBeat.places]
  · intro t ht ht'
    simp [wrEntry, TxBeat.places, TxSeg.place, LineSeg.place, DropStage.keep, hdrop]

/-- What arrives is what leaves the delay line. -/
theorem lineOf_arrived (h : s.drop.Sized) (hdrop : i.dropOnError = false) :
    lineOf numSeg (lines (s.arrived i)) = s.drop.lineOut.places := by
  unfold arrived LineBeat.places
  cases s.drop.lineOut.valid with
  | false => rfl
  | true =>
    rw [← places_wrEntry hdrop]
    by_cases hin : TxBeat.inframe (s.wrEntry i) = true
    · simp [hin, lines, lineOf]
    · have hlen : (s.wrEntry i).length = numSeg := by
        rw [wrEntry, List.length_mapIdx, h.lineOut]
      simp [hin, lines, lineOf, places_of_not_inframe hin, hlen]

/-- Every beat with a segment in a frame that arrives is written or lost. -/
theorem reduceOption_arrived : (s.arrived i).reduceOption = s.written i ++ s.lost i := by
  unfold arrived written lost offered
  cases s.drop.lineOut.valid <;> cases TxBeat.inframe (s.wrEntry i) <;> cases s.full <;> rfl

/-- The TX interface shows what is sent. -/
theorem lineOf_sent : lineOf numSeg (lines (s.sent readyLatency i)) =
    (s.step readyLatency i).tx.places := by
  change _ = (s.txSide readyLatency i).places
  unfold sent TxSide.places readReg
  by_cases hen : s.txEn readyLatency i = true
  · obtain ⟨hvalid, -, -, -, hbeat⟩ := txSide_of_en hen
    rw [hvalid, hbeat, if_pos hen, if_pos rfl]
    cases s.tx.rdVldD with
    | true => simp [lines, lineOf]
    | false => simp [lines, lineOf, places_idleBeat]
  · rw [(txSide_of_not_en hen).1, if_neg hen]
    rfl

/-- What is sent are the beats that are driven. -/
theorem Queues.reduceOption_sent (h : s.Queues q) :
    (s.sent readyLatency i).reduceOption = s.driven readyLatency i := by
  unfold sent readReg
  by_cases hen : s.txEn readyLatency i = true
  · rw [h.driven_of_en hen, if_pos hen]
    cases s.tx.rdVldD <;> rfl
  · rw [driven_of_not_en hen, if_neg hen]
    rfl

/-- The read register is one read behind. -/
theorem sent_append_readReg :
    s.sent readyLatency i ++ [(s.step readyLatency i).readReg] =
      s.readReg :: s.read readyLatency i := by
  have hreg : (s.step readyLatency i).readReg =
      if (s.txSide readyLatency i).rdVldD then some (s.txSide readyLatency i).memQ else none := rfl
  rw [hreg, sent, read]
  by_cases hen : s.txEn readyLatency i = true
  · obtain ⟨-, hread, hmemQ, -, -⟩ := txSide_of_en hen
    rw [hread, hmemQ, if_pos hen, if_pos hen]
    cases s.empty <;> rfl
  · obtain ⟨-, hread, hmemQ, -, -⟩ := txSide_of_not_en hen
    rw [hread, hmemQ, if_neg hen, if_neg hen]
    rfl

/-! ### Runs -/

theorem lines_append (a b : List (Option TxBeat)) : lines (a ++ b) = lines a ++ lines b :=
  List.map_append

theorem reduceOption_append (a b : List (Option TxBeat)) :
    (a ++ b).reduceOption = a.reduceOption ++ b.reduceOption := List.filterMap_append

/-- What the TX side has done: it shows what it sends, sends what it has read one read before,
and what it sends are the beats that are driven. -/
structure Sends (readyLatency : ℕ) (s₀ : Loopback n) (is : List Inputs) (s : Loopback n) :
    Prop where
  shown : txLine readyLatency s₀ is = lineOf numSeg (lines (sentIn readyLatency s₀ is))
  reads : sentIn readyLatency s₀ is ++ [s.readReg] = none :: readIn readyLatency s₀ is
  sent : (sentIn readyLatency s₀ is).reduceOption = drivenIn readyLatency s₀ is

theorem sends_run (readyLatency : ℕ) (mem : BitVec n → TxBeat) (memQ : TxBeat)
    (is : List Inputs) :
    Sends readyLatency (reset mem memQ) is
      (Runs.run (step readyLatency) (reset mem memQ) is) := by
  induction is using List.reverseRecOn with
  | nil => exact ⟨rfl, rfl, rfl⟩
  | append_singleton is i ih =>
    obtain ⟨⟨q, hq⟩, -⟩ := run_spec readyLatency mem memQ is
    obtain ⟨hshown, hreads, hsent⟩ := ih
    unfold txLine sentIn readIn drivenIn at *
    rw [Runs.run_append, Runs.run_cons, Runs.run_nil]
    constructor
    · unfold txLine sentIn
      rw [Runs.trace_concat, Runs.trace_concat, lines_append, lineOf_append, hshown, lineOf_sent]
    · unfold sentIn readIn
      rw [Runs.trace_concat, Runs.trace_concat, List.append_assoc, sent_append_readReg,
        ← List.cons_append, ← hreads, List.append_assoc, List.singleton_append]
    · unfold sentIn drivenIn
      rw [Runs.trace_concat, Runs.trace_concat, reduceOption_append, hsent,
        hq.reduceOption_sent]

/-- **The RX side.** Without drops, what is received has arrived at the FIFO or is in the delay
line. -/
theorem received_run (readyLatency : ℕ) (mem : BitVec n → TxBeat) (memQ : TxBeat)
    {is : List Inputs} (hdrop : ∀ i ∈ is, i.dropOnError = false) :
    let s := Runs.run (step readyLatency) (reset mem memQ) is
    s.drop.Sized ∧
      rxLine is =
        lineOf numSeg (lines (arrivedIn readyLatency (reset mem memQ) is)) ++ s.drop.pending := by
  induction is using List.reverseRecOn with
  | nil => exact ⟨sized_resetStage, rfl⟩
  | append_singleton is i ih =>
    obtain ⟨hinit, hlast⟩ := List.forall_mem_append.mp hdrop
    have hoff : i.dropOnError = false := hlast i (List.mem_singleton_self i)
    obtain ⟨hsized, hreceived⟩ := ih hinit
    obtain ⟨hsized', hline⟩ := hsized.step i.dropOnError i.rx
    have hbehind := lineOf_arrived hsized hoff
    unfold arrivedIn at *
    rw [Runs.run_append, Runs.run_cons, Runs.run_nil]
    refine ⟨hsized', ?_⟩
    rw [Runs.trace_concat, lines_append, lineOf_append, hbehind, List.append_assoc]
    change _ = _ ++ (_ ++ (DropStage.step _ _ _).pending)
    rw [hline, ← List.append_assoc, ← hreceived, rxLine, List.flatMap_append,
      List.flatMap_singleton]
    rfl

/-- Without overflow, all beats that arrive are written. -/
theorem arrived_run (readyLatency : ℕ) (s : Loopback n) {is : List Inputs}
    (hroom : lostIn readyLatency s is = []) :
    (arrivedIn readyLatency s is).reduceOption = writtenIn readyLatency s is := by
  unfold lostIn arrivedIn writtenIn at *
  induction is generalizing s with
  | nil => rfl
  | cons i is ih =>
    obtain ⟨hlost, hroom⟩ := List.append_eq_nil_iff.mp hroom
    rw [Runs.trace, Runs.trace, reduceOption_append, reduceOption_arrived, hlost,
      List.append_nil, ih _ hroom]

/-- Everything received has been sent. -/
def AllOut (s : Loopback n) : Prop := s.inFlight = [] ∧ ∀ x ∈ s.drop.pending, x = none

/-- The frames on TX are those of RX, segment for segment, as far as they have been sent. -/
structure FramesIntact (readyLatency : ℕ) (s₀ : Loopback n) (is : List Inputs) : Prop where
  sentSoFar : numbered (txLine readyLatency s₀ is) <+: numbered (rxLine is)
  allSent : AllOut (Runs.run (step readyLatency) s₀ is) →
    numbered (txLine readyLatency s₀ is) = numbered (rxLine is)

/-- Where a beat that ends in a frame is read before one that begins in a frame, the FIFO was
found empty in between exactly if an idle beat arrived between the two. -/
def JointsMatch (reads arrivals : List (Option TxBeat)) : Prop :=
  Aligned false (gaps false (lines reads)) (gaps false (lines arrivals))

theorem reduceOption_lines (log : List (Option TxBeat)) :
    (lines log).reduceOption = log.reduceOption.map TxBeat.places := by
  rw [lines, List.reduceOption_map]

/-- The symbols of a log are those of its beats. -/
theorem length_numbered_lines (log : List (Option TxBeat)) :
    (numbered (lineOf numSeg (lines log))).length =
      ((log.reduceOption.map TxBeat.places).flatten.filter Option.isSome).length := by
  rw [length_numbered, filter_lineOf, reduceOption_lines]

/-- **Frame integrity.** In a run without drops and overflow, the frames on TX are those of RX
exactly when the beats that have been driven match at their joints: the TX side has not run
out of beats within a frame, and no idle beat that separates two frames is missing. -/
theorem framesIntact_iff (readyLatency : ℕ) (mem : BitVec n → TxBeat) (memQ : TxBeat)
    {is : List Inputs} (hdrop : ∀ i ∈ is, i.dropOnError = false)
    (hroom : lostIn readyLatency (reset mem memQ) is = []) :
    FramesIntact readyLatency (reset mem memQ) is ↔
      JointsMatch (readIn readyLatency (reset mem memQ) is).dropLast
        (arrivedIn readyLatency (reset mem memQ) is) := by
  have h := sends_run readyLatency mem memQ is
  obtain ⟨-, hreceived⟩ := received_run readyLatency mem memQ hdrop
  have harrived := arrived_run readyLatency (reset mem memQ) hroom
  obtain ⟨⟨q, hq⟩, hflow, -⟩ := run_spec readyLatency mem memQ is
  let sent := sentIn readyLatency (reset mem memQ) is
  let arrivals := arrivedIn readyLatency (reset mem memQ) is
  have hblocks : (lines sent).reduceOption <+: (lines arrivals).reduceOption := by
    rw [reduceOption_lines, reduceOption_lines, h.sent, harrived, hflow, List.map_append]
    exact List.prefix_append _ _
  have hne : ∀ b ∈ (lines sent).reduceOption, b ≠ [] := by
    intro b hb
    rw [reduceOption_lines, h.sent] at hb
    obtain ⟨e, he, rfl⟩ := List.mem_map.mp hb
    exact places_ne_nil (inframe_of_mem_drivenIn he)
  have hsmall : (numbered (lineOf numSeg (lines sent))).length ≤
      (numbered (lineOf numSeg (lines arrivals))).length := by
    rw [length_numbered_lines, length_numbered_lines, h.sent, harrived, hflow, List.map_append,
      List.flatten_append, List.filter_append, List.length_append]
    exact Nat.le_add_right _ _
  have hcut : numbered (txLine readyLatency (reset mem memQ) is) <+: numbered (rxLine is) ↔
      numbered (lineOf numSeg (lines sent)) <+: numbered (lineOf numSeg (lines arrivals)) := by
    rw [h.shown, hreceived]
    constructor
    · intro hfirst
      exact List.prefix_of_prefix_length_le hfirst (numbered_prefix_append _ _) hsmall
    · intro hfirst
      exact hfirst.trans (numbered_prefix_append _ _)
  have hmatch : JointsMatch (readIn readyLatency (reset mem memQ) is).dropLast arrivals ↔
      Aligned false (gaps false (lines sent)) (gaps false (lines arrivals)) := by
    have hsent : sent = (none :: readIn readyLatency (reset mem memQ) is).dropLast := by
      rw [← h.reads, List.dropLast_concat]
    rw [hsent]
    cases readIn readyLatency (reset mem memQ) is with
    | nil => exact Iff.rfl
    | cons x reads =>
      rw [List.dropLast_cons_of_ne_nil (List.cons_ne_nil x reads)]
      exact aligned_gaps false true _ _
  have hiff := numbered_lineOf_prefix_iff (k := numSeg) (by decide) hblocks hne
  rw [hmatch, ← hiff, ← hcut]
  constructor
  · exact FramesIntact.sentSoFar
  · intro hfirst
    refine ⟨hfirst, fun hout => ?_⟩
    obtain ⟨hflight, hpending⟩ := hout
    have hnone : (Runs.run (step readyLatency) (reset mem memQ) is).drop.pending.filter
        Option.isSome = [] := by
      rw [List.filter_eq_nil_iff]
      intro x hx
      rw [hpending x hx]
      simp
    apply hfirst.eq_of_length
    rw [h.shown, length_numbered_lines, hreceived, length_numbered, List.filter_append, hnone,
      List.append_nil, filter_lineOf, reduceOption_lines, h.sent, harrived, hflow, hflight,
      List.append_nil]

/-- A cycle in which the first segments of a beat are in a frame. -/
def received (valid : Bool) (segs : ℕ) (txReady : Bool) : Inputs where
  rx := ⟨valid, (List.range numSeg).map fun t => ⟨5, t < segs, 0, false, 0⟩, rfl⟩
  txError := 0
  txSkipCrc := 0
  dropOnError := false
  txReady := txReady

/-- A frame of two beats, an idle beat and another frame, while TX is ready in every cycle. -/
def contiguousFrames : List Inputs :=
  [received true 16 true, received true 8 true, received true 0 true, received true 4 true] ++
    List.replicate 20 (received false 0 true)

/-- The frames of a run whose beats match at their joints. -/
theorem framesIntact_contiguousFrames :
    FramesIntact 1 (reset (fun _ : BitVec 9 => idleBeat) idleBeat) contiguousFrames := by
  refine (framesIntact_iff 1 _ _ (by decide) rfl).mpr ?_
  unfold JointsMatch
  decide +kernel

/-- A frame with a cycle in which RX is not valid, while TX is always ready. -/
def splitFrame : List Inputs :=
  [received true 16 true, received false 0 true, received true 8 true] ++
    List.replicate 20 (received false 0 true)

/-- Two frames with an idle beat between them that wait in the FIFO until TX is ready. -/
def twoFrames : List Inputs :=
  [received true 16 false, received true 0 false, received true 8 false] ++
    List.replicate 20 (received false 0 false) ++ List.replicate 10 (received false 0 true)

deriving instance DecidableEq for Payload

/-- One frame is sent as two, and two frames are sent as one. -/
theorem splitFrame_broken :
    (∀ is ∈ [splitFrame, twoFrames], (∀ i ∈ is, i.dropOnError = false) ∧
      lostIn 1 (reset (fun _ : BitVec 9 => idleBeat) idleBeat) is = []) ∧
    ¬ FramesIntact 1 (reset (fun _ : BitVec 9 => idleBeat) idleBeat) splitFrame ∧
    ¬ FramesIntact 1 (reset (fun _ : BitVec 9 => idleBeat) idleBeat) twoFrames := by
  refine ⟨?_, fun h => ?_, fun h => ?_⟩
  · simp only [List.forall_mem_cons]
    exact ⟨⟨by decide, rfl⟩, ⟨by decide, rfl⟩, by simp⟩
  · have hsent := h.sentSoFar
    revert hsent
    decide +kernel
  · have hsent := h.sentSoFar
    revert hsent
    decide +kernel

end Loopback

end SecureWan.Eth400g
