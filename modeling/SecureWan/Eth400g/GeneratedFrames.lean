import Mathlib.Data.List.Forall2
import SecureWan.Eth400g.RxGenerator
import SecureWan.Eth400g.DropExact

/-!
# The frames of the RX generator

The generator lays out one frame behind the other, segment by segment, and remembers between
two beats how far it has come. With at least one idle segment behind each frame, and with
lengths that fill eight segments and span no more cycles than the delay line of the loopback,
its stream consists of regular frames: those that it counts, with the bytes of `frame_byte`.
-/

namespace SecureWan.Eth400g

open Segmentation

/-- A frame that the generator has driven: its length in bytes, its sequence number, and
whether an error was injected. -/
structure GenFrame where
  len : ℕ
  seq : BitVec 32
  bad : Bool

/-- What the `j`th segment of a frame carries. -/
def framePayload (len : ℕ) (sq : BitVec 32) (j : ℕ) : Payload where
  data := (List.range 8).foldr (fun b acc => acc <<< 8 |||
    (if 8 * j + b < len then frameByte (8 * j + b) sq else 0).setWidth 64) 0
  eopEmpty := if len ≤ 8 * j + 8 then BitVec.ofNat 3 (8 - (len - 8 * j)) else 0

/-- The first segments of a frame. -/
def firstPayloads (len : ℕ) (sq : BitVec 32) (n : ℕ) : List Payload :=
  (List.range n).map (framePayload len sq)

/-- All segments of a frame. -/
def GenFrame.payloads (f : GenFrame) : List Payload := firstPayloads f.len f.seq ((f.len + 7) / 8)

/-- Frames from eight segments to as many as fit the delay line wherever they begin. -/
def Fitting (len : ℕ) : Prop := 57 ≤ len ∧ len ≤ 8 * ((dropDelay - 1) * numSeg + 1)

/-- Parameters for fitting frames. -/
def GenParams.Fits (p : GenParams) : Prop := Fitting p.minLen ∧ Fitting p.maxLen

/-- Controls for fitting frames with a gap behind them. -/
def GenControl.Fits (c : GenControl) : Prop :=
  c.gapSegs ≠ 0 ∧ (c.forceLen = 0 ∨ Fitting c.forceLen.toNat)

namespace GenVars

variable (p : GenParams) (c : GenControl) (lfsr : BitVec 32) (v : GenVars)

/-- The frame that ends in this segment, if there is one. -/
def ended : List GenFrame :=
  if v.gapCnt ≠ 0 then []
  else
    let v := v.beginFrame p c lfsr
    if v.rxActive && v.atEop then [⟨v.rxLen.toNat, v.rxSeq, injects c lfsr⟩] else []

/-- The frames that end in some segments. -/
def endedIn (places : List ℕ) : List GenFrame :=
  Runs.trace (fun v _ => v.buildSegment p c lfsr) (fun v _ => v.ended p c lfsr) v places

variable {p c lfsr v}

/-- The length that a frame begins with fits. -/
theorem fitting_nlen (hp : p.Fits) (hc : c.Fits) : Fitting (nlen p c lfsr).toNat := by
  obtain ⟨⟨hmin, _⟩, _, hmax⟩ := hp
  have hle := p.le
  unfold nlen
  by_cases hforce : c.forceLen ≠ 0
  · rw [if_pos hforce]
    exact hc.2.resolve_left hforce
  · rw [if_neg hforce, BitVec.toNat_ofNat]
    have hlt := Nat.mod_lt (lfsr.toNat % 2 ^ 16) (show 0 < p.maxLen - p.minLen + 1 by omega)
    simp only [dropDelay, numSeg] at hmax
    rw [Nat.mod_eq_of_lt (by omega)]
    simp only [Fitting, dropDelay, numSeg]
    omega

/-- The counters of a beat count the frames that end. -/
theorem count_buildSegment (v : GenVars) :
    (v.buildSegment p c lfsr).framesThisBeat = v.framesThisBeat + (v.ended p c lfsr).length ∧
      (v.buildSegment p c lfsr).badThisBeat =
        v.badThisBeat + (v.ended p c lfsr).countP GenFrame.bad := by
  have hbegin : (v.beginFrame p c lfsr).framesThisBeat = v.framesThisBeat ∧
      (v.beginFrame p c lfsr).badThisBeat = v.badThisBeat := by
    unfold beginFrame
    split <;> exact ⟨rfl, rfl⟩
  by_cases hgap : v.gapCnt ≠ 0
  · simp only [buildSegment, ended, if_pos hgap, List.length_nil, List.countP_nil, Nat.add_zero,
      and_self]
  · simp only [buildSegment, ended, if_neg hgap]
    cases hactive : (v.beginFrame p c lfsr).rxActive <;>
      cases heop : (v.beginFrame p c lfsr).atEop <;> cases hbad : injects c lfsr <;>
      simp [hbegin]

theorem count_run (v : GenVars) (places : List ℕ) :
    (Runs.run (fun v _ => v.buildSegment p c lfsr) v places).framesThisBeat =
        v.framesThisBeat + (v.endedIn p c lfsr places).length ∧
      (Runs.run (fun v _ => v.buildSegment p c lfsr) v places).badThisBeat =
        v.badThisBeat + (v.endedIn p c lfsr places).countP GenFrame.bad := by
  unfold endedIn
  induction places generalizing v with
  | nil => exact ⟨rfl, rfl⟩
  | cons place places ih =>
    obtain ⟨hframes, hbad⟩ := v.count_buildSegment (p := p) (c := c)
    obtain ⟨hframes', hbad'⟩ := ih (v.buildSegment p c lfsr)
    rw [Runs.run_cons, Runs.trace, List.length_append, List.countP_append, hframes', hbad',
      hframes, hbad, Nat.add_assoc, Nat.add_assoc]
    exact ⟨rfl, rfl⟩

end GenVars

/-! ### Segment by segment -/

/-- A group of segments is a frame of the generator, from its first segment to its last. -/
structure Carries (f : List RxSeg) (frame : GenFrame) : Prop where
  fitting : Fitting frame.len
  payloads : f.map (fun x => x.seg.payload) = frame.payloads
  bad : frameBad f = frame.bad
  span : ∀ x ∈ f, ∀ y ∈ f, y.cycle < x.cycle + dropDelay

/-- It is long enough for the drop stage. -/
theorem Carries.long {f : List RxSeg} {frame : GenFrame} (h : Carries f frame) : 8 ≤ f.length := by
  have hlen := congrArg List.length h.payloads
  have hfit := h.fitting.1
  simp only [List.length_map, GenFrame.payloads, firstPayloads, List.length_range] at hlen
  omega

/-- A frame is going on: its first `j` segments have come, the last of them just now, and
the next one has the place `i` in the beat of cycle `k`. -/
structure Underway (v : GenVars) (g : Segmentation RxSeg) (frames : List GenFrame) (k i j : ℕ) :
    Prop where
  fitting : Fitting v.rxLen.toNat
  off : v.rxOff.toNat = 8 * j
  lt : 8 * j < v.rxLen.toNat
  closed : List.Forall₂ Carries g.closed frames
  current : g.current.map (fun x => x.seg.payload) = firstPayloads v.rxLen.toNat v.rxSeq j
  good : frameBad g.current = false
  near : ∀ x ∈ g.current, x.cycle ≤ k ∧ numSeg * k + i ≤ numSeg * x.cycle + (numSeg - 1) + j

/-- The variables of the generator stand for the groups of segments so far. -/
structure Phase (v : GenVars) (g : Segmentation RxSeg) (frames : List GenFrame) (k i : ℕ) :
    Prop where
  seq : v.rxSeq = BitVec.ofNat 32 frames.length
  numbers : frames.map GenFrame.seq = (List.range frames.length).map (BitVec.ofNat 32)
  idle : v.rxActive = false →
    List.Forall₂ Carries g.groups frames ∧ (v.gapCnt = 0 → g.current = [])
  active : v.rxActive = true → v.gapCnt = 0 ∧ ∃ j, Underway v g frames k i j

variable {p : GenParams} {c : GenControl} {lfsr : BitVec 32} {v : GenVars}
  {g : Segmentation RxSeg} {frames : List GenFrame} {k i j : ℕ}

/-- The segment that the generator drives next, of the frame that is going on. -/
def GenVars.nextSeg (v : GenVars) (bad : Bool) : Segment where
  data := v.segData
  inframe := true
  eopEmpty := if v.atEop then BitVec.ofNat 3 (8 - (v.rxLen.toNat - v.rxOff.toNat)) else 0
  fcsError := bad
  error := if bad then 1 else 0

@[simp] theorem GenVars.bad_nextSeg (v : GenVars) (bad : Bool) : (v.nextSeg bad).bad = bad := by
  cases bad <;> rfl

/-- Its payload is the next one of the frame. -/
theorem Underway.payload_nextSeg (h : Underway v g frames k i j) (bad : Bool) :
    (v.nextSeg bad).payload = framePayload v.rxLen.toNat v.rxSeq j := by
  simp only [GenVars.nextSeg, Segment.payload, framePayload, GenVars.segData, GenVars.atEop, h.off,
    decide_eq_true_eq]

/-- One more segment of the frame that is going on. -/
theorem Underway.current_concat (h : Underway v g frames k i j) (bad : Bool) :
    (g.current ++ [RxSeg.mk k (v.nextSeg bad)]).map (fun x => x.seg.payload) =
        firstPayloads v.rxLen.toNat v.rxSeq (j + 1) ∧
      frameBad (g.current ++ [⟨k, v.nextSeg bad⟩]) = bad := by
  constructor
  · rw [List.map_append, h.current, List.map_singleton, h.payload_nextSeg, firstPayloads,
      firstPayloads, List.range_succ, List.map_append, List.map_singleton]
  · have hgood : (g.current.any fun x => x.seg.bad) = false := h.good
    rw [frameBad, List.any_append, hgood]
    simp

/-- It is near the segments in front of it. -/
theorem Underway.near_concat (h : Underway v g frames k i j) (hi : i < numSeg) (bad : Bool) :
    ∀ x ∈ g.current ++ [⟨k, v.nextSeg bad⟩], x.cycle ≤ k ∧
      numSeg * k + (i + 1) ≤ numSeg * x.cycle + (numSeg - 1) + (j + 1) := by
  rw [List.forall_mem_append]
  constructor
  · intro x hx
    obtain ⟨hle, hnear⟩ := h.near x hx
    exact ⟨hle, by omega⟩
  · rw [List.forall_mem_singleton]
    refine ⟨Nat.le_refl k, ?_⟩
    dsimp only
    omega

/-- **The end of a frame.** All of its segments have come, within the span of the delay
line. -/
theorem Underway.carries (h : Underway v g frames k i j) (hi : i < numSeg)
    (heop : v.atEop = true) (bad : Bool) :
    Carries (g.current ++ [⟨k, v.nextSeg bad⟩]) ⟨v.rxLen.toNat, v.rxSeq, bad⟩ := by
  obtain ⟨hpayloads, hbad⟩ := h.current_concat bad
  have hnear := h.near_concat hi bad
  have hfit := h.fitting
  have hlt := h.lt
  have hend : v.rxLen.toNat ≤ 8 * j + 8 := by
    rw [GenVars.atEop, decide_eq_true_eq, h.off] at heop
    exact heop
  have hcount : (v.rxLen.toNat + 7) / 8 = j + 1 := by omega
  refine ⟨hfit, ?_, hbad, ?_⟩
  · rw [hpayloads, GenFrame.payloads, hcount]
  · intro x hx y hy
    have hfirst := (hnear x hx).2
    have hlast := (hnear y hy).1
    simp only [Fitting, numSeg, dropDelay] at hfit hfirst ⊢
    omega

/-- The frame that is going on goes on. -/
theorem Underway.next (h : Underway v g frames k i j) (hi : i < numSeg) (heop : v.atEop = false) :
    Underway { v with rxOff := v.rxOff + 8 } (push RxSeg.inframe g ⟨k, v.nextSeg false⟩) frames
      k (i + 1) (j + 1) := by
  obtain ⟨hpayloads, hbad⟩ := h.current_concat false
  have hfit := h.fitting
  have hmore : 8 * j + 8 < v.rxLen.toNat := by
    rw [GenVars.atEop, decide_eq_false_iff_not, h.off] at heop
    omega
  have hpush : push RxSeg.inframe g ⟨k, v.nextSeg false⟩ =
      { g with current := g.current ++ [⟨k, v.nextSeg false⟩] } := push_of_pos rfl
  rw [hpush]
  refine ⟨hfit, ?_, hmore, h.closed, hpayloads, hbad, h.near_concat hi false⟩
  change (v.rxOff + 8).toNat = 8 * (j + 1)
  rw [BitVec.toNat_add, h.off]
  simp only [Fitting, numSeg, dropDelay] at hfit
  rw [show (8 : BitVec 16).toNat = 8 from rfl, Nat.mod_eq_of_lt (by omega), Nat.mul_add]

/-- Behind a segment that is not in a frame, the groups are as before. -/
theorem forall₂_push_idle (h : List.Forall₂ Carries g.groups frames) :
    List.Forall₂ Carries (push RxSeg.inframe g ⟨k, idleSegment⟩).groups frames ∧
      (push RxSeg.inframe g ⟨k, idleSegment⟩).current = [] := by
  have hneg : ¬ RxSeg.inframe ⟨k, idleSegment⟩ = true := by simp [RxSeg.inframe, idleSegment]
  rw [groups_push_of_neg hneg, push_of_neg hneg]
  exact ⟨h, rfl⟩

/-- A frame begins, or goes on. -/
theorem Phase.underway (h : Phase v g frames k i) (hp : p.Fits) (hc : c.Fits)
    (hgap : v.gapCnt = 0) (hactive : (v.beginFrame p c lfsr).rxActive = true) :
    ∃ j, Underway (v.beginFrame p c lfsr) g frames k i j := by
  cases hon : v.rxActive with
  | true =>
    have hsame : v.beginFrame p c lfsr = v := by
      unfold GenVars.beginFrame
      rw [hon]
      rfl
    rw [hsame]
    exact (h.active hon).2
  | false =>
    obtain ⟨hgroups, hcurrent⟩ := h.idle hon
    have hempty := hcurrent hgap
    have hen : c.genEnable = true := by
      unfold GenVars.beginFrame at hactive
      cases hen : c.genEnable with
      | true => rfl
      | false => simp [hon, hen] at hactive
    have hnew : v.beginFrame p c lfsr =
        { v with
          rxLen := GenVars.nlen p c lfsr
          rxOff := 0
          rxActive := true
          begun := v.begun + 1 } := by
      unfold GenVars.beginFrame
      rw [hon, hen]
      rfl
    have hfit : Fitting (GenVars.nlen p c lfsr).toNat := GenVars.fitting_nlen hp hc
    have hclosed : g.groups = g.closed := by rw [groups, hempty]
    rw [hnew]
    refine ⟨0, hfit, rfl, ?_, hclosed ▸ hgroups, by rw [hempty]; rfl, by rw [hempty]; rfl, ?_⟩
    · have := hfit.1
      dsimp only
      omega
    · rw [hempty]
      exact fun x hx => absurd hx List.not_mem_nil

/-- **One segment.** -/
theorem Phase.segment (h : Phase v g frames k i) (hp : p.Fits) (hc : c.Fits) (hi : i < numSeg)
    (lfsr : BitVec 32) :
    Phase (v.buildSegment p c lfsr) (push RxSeg.inframe g ⟨k, (v.emit p c lfsr).seg⟩)
      (frames ++ v.ended p c lfsr) k (i + 1) := by
  by_cases hgap : v.gapCnt ≠ 0
  · -- an idle segment behind a frame
    have hoff : v.rxActive = false :=
      Bool.eq_false_iff.mpr fun hon => hgap (h.active hon).1
    obtain ⟨hgroups, hcurrent⟩ := forall₂_push_idle (k := k) (h.idle hoff).1
    simp only [GenVars.buildSegment, GenVars.emit, GenVars.ended, if_pos hgap, List.append_nil]
    exact ⟨h.seq, h.numbers, fun _ => ⟨hgroups, fun _ => hcurrent⟩,
      fun hon => by rw [hoff] at hon; cases hon⟩
  simp only [GenVars.buildSegment, GenVars.emit, GenVars.ended, if_neg hgap]
  cases hactive : (v.beginFrame p c lfsr).rxActive with
  | false =>
    have hsame := GenVars.beginFrame_of_not_active hactive
    rw [hsame] at hactive ⊢
    obtain ⟨hgroups, hcurrent⟩ := forall₂_push_idle (k := k) (h.idle hactive).1
    simp only [Bool.false_eq_true, if_false, Bool.false_and, List.append_nil]
    exact ⟨h.seq, h.numbers, fun _ => ⟨hgroups, fun _ => hcurrent⟩,
      fun hon => by rw [hactive] at hon; cases hon⟩
  | true =>
    obtain ⟨j, hframe⟩ := h.underway hp hc (not_not.mp hgap) hactive
    have hseq : (v.beginFrame p c lfsr).rxSeq = BitVec.ofNat 32 frames.length := by
      rw [← h.seq]
      unfold GenVars.beginFrame
      split <;> rfl
    simp only [if_true, Bool.true_and]
    cases heop : (v.beginFrame p c lfsr).atEop with
    | true =>
      have hcarries := hframe.carries hi heop (GenVars.injects c lfsr)
      refine ⟨?_, ?_, fun _ => ⟨?_, fun hzero => absurd hzero hc.1⟩, fun hon => by cases hon⟩
      · rw [List.length_append, BitVec.ofNat_add, ← hseq]
        rfl
      · simp only [if_true, List.map_append, h.numbers, hseq, List.map_cons, List.map_nil,
          List.length_append, List.length_singleton, List.range_succ]
      · have hgroups := groups_push_of_pos (p := RxSeg.inframe) (g := g)
          (x := ⟨k, (v.beginFrame p c lfsr).nextSeg (GenVars.injects c lfsr)⟩) rfl
        simp only [GenVars.nextSeg, heop, if_true] at hgroups hcarries
        simp only [if_true, Bool.true_and, hgroups]
        exact List.rel_append hframe.closed (.cons hcarries .nil)
    | false =>
      have hnext := hframe.next hi heop
      simp only [GenVars.nextSeg, heop, Bool.false_eq_true, if_false] at hnext
      simp only [Bool.false_eq_true, if_false, Bool.false_and, List.append_nil]
      refine ⟨hseq, h.numbers, fun hidle => (by cases hidle), fun _ => ⟨?_, j + 1, ?_⟩⟩
      · exact GenVars.beginFrame_gapCnt.trans (not_not.mp hgap)
      · exact ⟨hnext.fitting, hnext.off, hnext.lt, hnext.closed, hnext.current, hnext.good,
          hnext.near⟩

/-- **Some segments.** -/
theorem Phase.segments (h : Phase v g frames k i) (hp : p.Fits) (hc : c.Fits) (lfsr : BitVec 32)
    (places : List ℕ) (hle : i + places.length ≤ numSeg) :
    Phase (Runs.run (fun v _ => v.buildSegment p c lfsr) v places)
      (Runs.run (push RxSeg.inframe) g
        ((v.emits p c lfsr places).map fun x => RxSeg.mk k x.seg))
      (frames ++ v.endedIn p c lfsr places) k (i + places.length) := by
  unfold GenVars.endedIn
  induction places generalizing v g frames i with
  | nil => simpa [Runs.trace] using h
  | cons place places ih =>
    rw [List.length_cons] at hle ⊢
    have hsegment := h.segment hp hc (by omega) lfsr
    have hrest := ih hsegment (by omega)
    rw [Runs.run_cons, GenVars.emits_cons, List.map_cons, Runs.run_cons, Runs.trace,
      ← List.append_assoc, Nat.add_comm places.length 1, ← Nat.add_assoc]
    exact hrest

/-- The counters of the beat do not matter. -/
theorem Phase.clear (h : Phase v g frames k i) :
    Phase { v with framesThisBeat := 0, badThisBeat := 0 } g frames k i where
  seq := h.seq
  numbers := h.numbers
  idle := h.idle
  active hon := by
    obtain ⟨hgap, j, hframe⟩ := h.active hon
    exact ⟨hgap, j, hframe.fitting, hframe.off, hframe.lt, hframe.closed, hframe.current,
      hframe.good, hframe.near⟩

/-- The end of a beat is the beginning of the next one. -/
theorem Phase.nextBeat (h : Phase v g frames k numSeg) : Phase v g frames (k + 1) 0 where
  seq := h.seq
  numbers := h.numbers
  idle := h.idle
  active hon := by
    obtain ⟨hgap, j, hframe⟩ := h.active hon
    refine ⟨hgap, j, hframe.fitting, hframe.off, hframe.lt, hframe.closed, hframe.current,
      hframe.good, fun x hx => ?_⟩
    obtain ⟨hle, hnear⟩ := hframe.near x hx
    refine ⟨Nat.le_succ_of_le hle, ?_⟩
    rw [Nat.mul_add, Nat.mul_one, Nat.add_zero]
    exact hnear

/-- While no frame is going on, time does not matter. -/
theorem Phase.pause (h : Phase v g frames k i) (hoff : v.rxActive = false) (k' i' : ℕ) :
    Phase v g frames k' i' where
  seq := h.seq
  numbers := h.numbers
  idle := h.idle
  active hon := by
    rw [hoff] at hon
    cases hon

/-- A beat that is built has a segment in a frame: the gap in front of it is shorter. -/
theorem any_inframe_emits (hgap : v.rxActive = true → v.gapCnt = 0)
    (hon : (c.genEnable || v.rxActive) = true) {places : List ℕ}
    (hlong : v.gapCnt.toNat < places.length) :
    ((v.emits p c lfsr places).any fun x => x.seg.inframe) = true := by
  induction places generalizing v with
  | nil => exact absurd hlong (Nat.not_lt_zero _)
  | cons place places ih =>
    rw [GenVars.emits_cons, List.any_cons]
    by_cases hzero : v.gapCnt = 0
    · have hactive : (v.beginFrame p c lfsr).rxActive = true := by
        unfold GenVars.beginFrame
        cases hact : v.rxActive with
        | true => simpa using hact
        | false =>
          rw [hact, Bool.or_false] at hon
          simp [hon]
      have hfirst : (v.emit p c lfsr).seg.inframe = true := by
        simp only [GenVars.emit, hzero, ne_eq, not_true_eq_false, if_false, hactive, if_true]
      rw [hfirst, Bool.true_or]
    · have hbuild : v.buildSegment p c lfsr = { v with gapCnt := v.gapCnt - 1 } := if_pos hzero
      have hoff : v.rxActive = false := Bool.eq_false_iff.mpr fun h => hzero (hgap h)
      have hnat : 0 < v.gapCnt.toNat := by
        rw [Nat.pos_iff_ne_zero]
        exact fun h => hzero (BitVec.eq_of_toNat_eq h)
      have hrest := ih (v := v.buildSegment p c lfsr)
        (fun hact => by rw [hbuild] at hact; rw [hoff] at hact; cases hact)
        (by rw [hbuild]; exact hon)
        (by
          have hsub : (v.gapCnt - 1).toNat = v.gapCnt.toNat - 1 :=
            BitVec.toNat_sub_of_le (by rw [BitVec.le_def]; exact hnat)
          rw [hbuild]
          dsimp only
          rw [hsub]
          rw [List.length_cons] at hlong
          omega)
      rw [hrest, Bool.or_true]

/-! ### Beat by beat -/

/-- The frames that end in the beat that a clock edge builds. -/
def RxGen.ended (p : GenParams) (c : GenControl) (g : RxGen) : List GenFrame :=
  if c.genEnable || g.rxActive then g.vars.endedIn p c g.lfsr (List.range numSeg) else []

/-- A beat is built over all places. -/
theorem RxGen.built_step {gen : RxGen} (hon : (c.genEnable || gen.rxActive) = true) :
    RxGen.Built p c (List.range numSeg) gen (gen.step p c) := by
  rw [RxGen.step, if_pos hon]
  exact RxGen.built_latch _ _

/-- The registers of the generator stand for the beats driven so far. -/
def Generated (gen : RxGen) (rx : List RxBeat) (frames : List GenFrame) : Prop :=
  Phase gen.vars (framing rx) frames rx.length 0

variable {gen : RxGen} {rx : List RxBeat}

/-- **One beat.** -/
theorem Generated.step (h : Generated gen rx frames) (hp : p.Fits) (hc : c.Fits) :
    Generated (gen.step p c) (rx ++ [(gen.step p c).out]) (frames ++ gen.ended p c) := by
  rw [Generated, framing_concat, List.length_append, List.length_singleton]
  by_cases hon : (c.genEnable || gen.rxActive) = true
  · have hbuilt := RxGen.built_step (p := p) hon
    have hgap : gen.vars.rxActive = true → gen.vars.gapCnt = 0 := fun hact => (h.active hact).1
    have hvalid : (gen.step p c).out.valid = true := by
      rw [hbuilt.valid]
      refine any_inframe_emits hgap hon ?_
      rw [List.length_range]
      exact Nat.lt_of_lt_of_le gen.vars.gapCnt.isLt (by decide)
    have hsegs : (gen.step p c).out.rxSegs rx.length =
        (gen.vars.emits p c gen.lfsr (List.range numSeg)).map
          fun x => RxSeg.mk rx.length x.seg := by
      rw [RxBeat.rxSegs, if_pos hvalid, hbuilt.segs, List.map_map]
      rfl
    have hended : gen.ended p c = gen.vars.endedIn p c gen.lfsr (List.range numSeg) := if_pos hon
    have hphase := Phase.segments h hp hc gen.lfsr (List.range numSeg) (by simp)
    rw [List.length_range, Nat.zero_add] at hphase
    rw [hbuilt.vars, hsegs, hended]
    exact hphase.nextBeat.clear
  · have hoff : gen.rxActive = false := by
      cases hact : gen.rxActive with
      | false => rfl
      | true => simp [hact] at hon
    have hsegs : (gen.step p c).out.rxSegs rx.length = [] := by
      rw [RxBeat.rxSegs, (RxGen.step_of_off hon).1]
      rfl
    have hvars : (gen.step p c).vars = gen.vars := by
      rw [RxGen.step, if_neg hon]
      rfl
    have hended : gen.ended p c = [] := if_neg hon
    rw [hsegs, hvars, hended, Runs.run_nil, List.append_nil]
    exact Phase.pause h hoff (rx.length + 1) 0

/-- Before the first beat. -/
theorem generated_reset (p : GenParams) : Generated (RxGen.reset p) [] [] where
  seq := rfl
  numbers := rfl
  idle _ := ⟨.nil, fun _ => rfl⟩
  active hon := by cases hon

/-- **The stream is made of regular frames.** -/
theorem Generated.regular (h : Generated gen rx frames) : Regular rx := by
  have hlong : ∀ {fs : List (List RxSeg)}, List.Forall₂ Carries fs frames →
      ∀ f ∈ fs, 8 ≤ f.length := fun hfs =>
    ((List.forall₂_and_left _ _).mp (hfs.imp fun f _ hf => ⟨hf.long, hf⟩)).1
  have hshort : ∀ {fs : List (List RxSeg)}, List.Forall₂ Carries fs frames →
      ∀ f ∈ fs, ∀ x ∈ f, ∀ y ∈ f, y.cycle < x.cycle + dropDelay := fun hfs =>
    ((List.forall₂_and_left _ _).mp (hfs.imp fun f _ hf => ⟨hf.span, hf⟩)).1
  cases hact : gen.vars.rxActive with
  | false =>
    obtain ⟨hgroups, -⟩ := h.idle hact
    refine ⟨fun f hf => hlong hgroups f ?_, hshort hgroups⟩
    rcases (framing rx).groups_of_current with ⟨-, heq⟩ | ⟨-, heq⟩
    · exact heq ▸ hf
    · exact heq ▸ List.mem_append_left _ hf
  | true =>
    obtain ⟨-, j, hframe⟩ := h.active hact
    have hcurrent : ∀ x ∈ (framing rx).current, ∀ y ∈ (framing rx).current,
        y.cycle < x.cycle + dropDelay := by
      intro x hx y hy
      have hfirst := (hframe.near x hx).2
      have hlast := (hframe.near y hy).1
      have hfit := hframe.fitting
      have hlt := hframe.lt
      simp only [Fitting, numSeg, dropDelay] at hfit hfirst ⊢
      omega
    refine ⟨hlong hframe.closed, fun f hf => ?_⟩
    rcases (framing rx).groups_of_current with ⟨-, heq⟩ | ⟨-, heq⟩
    · exact hshort hframe.closed f (heq ▸ hf)
    · rcases List.mem_append.mp (heq ▸ hf) with hclosed | hlast
      · exact hshort hframe.closed f hclosed
      · rw [List.mem_singleton.mp hlast]
        exact hcurrent

/-- Groups that are frames of the generator: as many of them have an error, and the segments of
the others are the clean ones. -/
theorem clean_of_carries {fs : List (List RxSeg)} (h : List.Forall₂ Carries fs frames) :
    fs.countP frameBad = frames.countP GenFrame.bad ∧
      ((fs.filter fun f => !frameBad f).flatten).map (fun x => x.seg.payload) =
        (frames.filter fun f => !f.bad).flatMap GenFrame.payloads := by
  induction h with
  | nil => exact ⟨rfl, rfl⟩
  | cons hcarries _ ih =>
    obtain ⟨hcount, hflat⟩ := ih
    rw [List.countP_cons, List.countP_cons, hcount, hcarries.bad, List.filter_cons,
      List.filter_cons, hcarries.bad]
    refine ⟨rfl, ?_⟩
    split
    · rw [List.flatten_cons, List.map_append, hcarries.payloads, hflat, List.flatMap_cons]
    · exact hflat

/-- The counters of the model count the frames that end. -/
theorem RxGen.count_step (gen : RxGen) (p : GenParams) (c : GenControl) :
    (gen.step p c).modelRxFrames =
        gen.modelRxFrames + BitVec.ofNat 32 (gen.ended p c).length ∧
      (gen.step p c).modelBadFrames =
        gen.modelBadFrames + BitVec.ofNat 32 ((gen.ended p c).countP GenFrame.bad) := by
  by_cases hon : (c.genEnable || gen.rxActive) = true
  · obtain ⟨hframes, hbad⟩ : _ ∧
        (Runs.run (fun v _ => v.buildSegment p c gen.lfsr) gen.vars
            (List.range numSeg)).badThisBeat =
          gen.vars.badThisBeat +
            (gen.vars.endedIn p c gen.lfsr (List.range numSeg)).countP GenFrame.bad :=
      gen.vars.count_run (List.range numSeg)
    have hzero : gen.vars.framesThisBeat = 0 ∧ gen.vars.badThisBeat = 0 := ⟨rfl, rfl⟩
    rw [hzero.1, Nat.zero_add] at hframes
    rw [hzero.2, Nat.zero_add] at hbad
    rw [RxGen.step, RxGen.ended, if_pos hon, if_pos hon, ← hframes, ← hbad]
    exact ⟨rfl, rfl⟩
  · rw [RxGen.step, RxGen.ended, if_neg hon, if_neg hon]
    simp

/-! ### Without new frames -/

/-- One segment of a frame that goes on while the generator is disabled. -/
theorem GenVars.buildSegment_disabled (hdisabled : c.genEnable = false)
    (hgap : v.rxActive = true → v.gapCnt = 0)
    (hact : (v.buildSegment p c lfsr).rxActive = true) :
    v.rxActive = true ∧ (v.buildSegment p c lfsr).gapCnt = 0 ∧
      (v.buildSegment p c lfsr).rxLen = v.rxLen ∧
      (v.buildSegment p c lfsr).rxOff.toNat = v.rxOff.toNat + 8 := by
  have hsame : v.beginFrame p c lfsr = v := by
    unfold beginFrame
    rw [hdisabled, Bool.and_false]
    rfl
  unfold buildSegment at hact ⊢
  by_cases hzero : v.gapCnt ≠ 0
  · rw [if_pos hzero] at hact
    exact absurd (hgap hact) hzero
  · rw [if_neg hzero, hsame] at hact ⊢
    cases hon : v.rxActive with
    | false => simp [hon] at hact
    | true =>
      cases heop : v.atEop with
      | true => simp [hon, heop] at hact
      | false =>
        have hmore : v.rxOff.toNat + 8 < v.rxLen.toNat := by
          rw [atEop, decide_eq_false_iff_not] at heop
          omega
        have hlt := v.rxLen.isLt
        simp only [hon, if_true, heop, Bool.false_eq_true, if_false]
        refine ⟨trivial, not_not.mp hzero, trivial, ?_⟩
        rw [BitVec.toNat_add, show (8 : BitVec 16).toNat = 8 from rfl, Nat.mod_eq_of_lt (by omega)]

/-- Some segments of a frame that goes on. -/
theorem GenVars.run_disabled (hdisabled : c.genEnable = false) (places : List ℕ)
    (hgap : v.rxActive = true → v.gapCnt = 0)
    (hact : (Runs.run (fun v _ => v.buildSegment p c lfsr) v places).rxActive = true) :
    v.rxActive = true ∧
      (Runs.run (fun v _ => v.buildSegment p c lfsr) v places).rxLen = v.rxLen ∧
      (Runs.run (fun v _ => v.buildSegment p c lfsr) v places).rxOff.toNat =
        v.rxOff.toNat + 8 * places.length := by
  induction places generalizing v with
  | nil => exact ⟨hact, rfl, rfl⟩
  | cons place places ih =>
    rw [Runs.run_cons] at hact ⊢
    obtain ⟨hfirst, hlen, hoff⟩ := ih
      (fun hnext => (GenVars.buildSegment_disabled hdisabled hgap hnext).2.1) hact
    obtain ⟨hon, -, hlen', hoff'⟩ := GenVars.buildSegment_disabled hdisabled hgap hfirst
    rw [hlen, hlen', hoff, hoff', List.length_cons]
    exact ⟨hon, rfl, by omega⟩

/-- A frame that goes on over the segments that are built. -/
theorem RxGen.Built.disabled {places : List ℕ} {gen' : RxGen} (h : Built p c places gen gen')
    (hdisabled : c.genEnable = false) (hgap : gen.vars.rxActive = true → gen.vars.gapCnt = 0)
    (hact : gen'.vars.rxActive = true) :
    gen.rxActive = true ∧ gen'.vars.rxLen = gen.rxLen ∧
      gen'.vars.rxOff.toNat = gen.rxOff.toNat + 8 * places.length := by
  rw [h.vars] at hact ⊢
  exact GenVars.run_disabled hdisabled places hgap hact

/-- A frame that goes on over a beat. -/
theorem Generated.step_disabled (h : Generated gen rx frames) (hdisabled : c.genEnable = false)
    (hact : (gen.step p c).rxActive = true) :
    gen.rxActive = true ∧ (gen.step p c).rxLen = gen.rxLen ∧
      (gen.step p c).rxOff.toNat = gen.rxOff.toNat + 8 * numSeg := by
  by_cases hon : (c.genEnable || gen.rxActive) = true
  · have hrun := (RxGen.built_step (p := p) hon).disabled hdisabled
      (fun hnow => (h.active hnow).1) hact
    rw [List.length_range] at hrun
    exact hrun
  · rw [(RxGen.step_of_off (p := p) hon).2.2] at hact
    cases hact

end SecureWan.Eth400g
