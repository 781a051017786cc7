import SecureWan.Eth400g.DropStage

/-!
# The RX generator of the 400G model

`ftile_eth_400g_model.v` drives the RX interface of the loopback with frames of its own. It
packs them without a gap, or with idle segments between them, and builds a beat in each cycle
in which it is enabled or a frame is going on. The beats that it drives carry the number of
the frame of each segment here; the source has no such number.
-/

namespace SecureWan.Eth400g

/-- The parameters of the generator. -/
structure GenParams where
  minLen : ℕ
  maxLen : ℕ
  seed : BitVec 32
  le : minLen ≤ maxLen

/-- The controls of the generator in one clock cycle. -/
structure GenControl where
  genEnable : Bool
  forceLen : BitVec 16
  injectError : Bool
  gapSegs : BitVec 3

/-- `frame_byte`. -/
def frameByte (idx : ℕ) (sq : BitVec 32) : BitVec 8 :=
  if idx < 6 then 0xFF
  else if idx = 6 then 0x00
  else if idx = 7 then 0x1A
  else if idx = 8 then 0x2B
  else if idx = 9 then 0x3C
  else if idx = 10 then 0x4D
  else if idx = 11 then 0x5E
  else if idx = 12 then 0x08
  else if idx = 13 then 0x00
  else if idx = 14 then sq.extractLsb' 24 8
  else if idx = 15 then sq.extractLsb' 16 8
  else if idx = 16 then sq.extractLsb' 8 8
  else if idx = 17 then sq.extractLsb' 0 8
  else BitVec.ofNat 8 idx ^^^ sq.extractLsb' 0 8

/-- A segment that the generator drives, with the number of its frame. -/
structure GenSeg where
  seg : Segment
  frame : Option ℕ

/-- A segment outside of frames. -/
def idleSegment : Segment := ⟨0, false, 0, false, 0⟩

/-- The variables of the generator within a clock edge, and how many frames have begun. -/
structure GenVars where
  rxSeq : BitVec 32
  rxLen : BitVec 16
  rxOff : BitVec 16
  rxActive : Bool
  gapCnt : BitVec 3
  framesThisBeat : ℕ
  badThisBeat : ℕ
  begun : ℕ

namespace GenVars

variable (p : GenParams) (c : GenControl) (lfsr : BitVec 32) (v : GenVars)

/-- `nlen`. -/
def nlen : BitVec 16 :=
  if c.forceLen ≠ 0 then c.forceLen
  else BitVec.ofNat 16 (p.minLen + lfsr.toNat % 2 ^ 16 % (p.maxLen - p.minLen + 1))

/-- A frame begins, when none is going on and the generator is enabled. -/
def beginFrame : GenVars :=
  if !v.rxActive && c.genEnable then
    { v with rxLen := nlen p c lfsr, rxOff := 0, rxActive := true, begun := v.begun + 1 }
  else v

/-- The frame ends in this segment. -/
def atEop : Bool := v.rxLen.toNat ≤ v.rxOff.toNat + 8

/-- The frame that ends is to have an error. -/
def injects : Bool := c.injectError && lfsr.extractLsb' 0 4 < 4

/-- The bytes of a segment. -/
def segData : BitVec 64 :=
  (List.range 8).foldr (fun b acc => acc <<< 8 |||
    (if v.rxOff.toNat + b < v.rxLen.toNat then frameByte (v.rxOff.toNat + b) v.rxSeq
      else 0).setWidth 64) 0

/-- What the loop puts in a segment of the beat. -/
def emit : GenSeg :=
  if v.gapCnt ≠ 0 then ⟨idleSegment, none⟩
  else
    let v := v.beginFrame p c lfsr
    if v.rxActive then
      let bad := v.atEop && injects c lfsr
      ⟨{ data := v.segData
         inframe := true
         eopEmpty :=
          if v.atEop then BitVec.ofNat 3 (8 - (v.rxLen.toNat - v.rxOff.toNat)) else 0
         fcsError := bad
         error := if bad then 1 else 0 }, some v.begun⟩
    else ⟨idleSegment, none⟩

/-- The body of the loop over the segments of a beat. -/
def buildSegment : GenVars :=
  if v.gapCnt ≠ 0 then { v with gapCnt := v.gapCnt - 1 }
  else
    let v := v.beginFrame p c lfsr
    if v.rxActive then
      if v.atEop then
        { v with
          rxSeq := v.rxSeq + 1
          framesThisBeat := v.framesThisBeat + 1
          badThisBeat := if injects c lfsr then v.badThisBeat + 1 else v.badThisBeat
          rxActive := false
          rxOff := 0
          gapCnt := c.gapSegs }
      else { v with rxOff := v.rxOff + 8 }
    else v

/-- The segments that the loop builds. -/
def emits (places : List ℕ) : List GenSeg :=
  Runs.trace (fun v _ => v.buildSegment p c lfsr) (fun v _ => [v.emit p c lfsr]) v places

@[simp] theorem length_emits (places : List ℕ) :
    (v.emits p c lfsr places).length = places.length := Runs.length_trace _ v places

@[simp] theorem emits_nil : v.emits p c lfsr [] = [] := rfl

@[simp] theorem emits_cons (place : ℕ) (places : List ℕ) :
    v.emits p c lfsr (place :: places) =
      v.emit p c lfsr :: (v.buildSegment p c lfsr).emits p c lfsr places := rfl

variable {p c lfsr v}

theorem beginFrame_gapCnt : (v.beginFrame p c lfsr).gapCnt = v.gapCnt := by
  unfold beginFrame
  split <;> rfl

theorem beginFrame_begun (h : (v.beginFrame p c lfsr).rxActive = true) :
    (v.beginFrame p c lfsr).begun = if v.rxActive then v.begun else v.begun + 1 := by
  unfold beginFrame at h ⊢
  cases hactive : v.rxActive <;> cases hen : c.genEnable <;> simp_all

theorem beginFrame_of_not_active (h : (v.beginFrame p c lfsr).rxActive = false) :
    v.beginFrame p c lfsr = v := by
  unfold beginFrame at h ⊢
  split at h
  · cases h
  · rename_i hnot
    rw [if_neg hnot]

/-- **One segment.** It is outside of frames and no frame is going on, or it belongs to the frame
that is going on, or to a new one. -/
theorem segment_cases (p : GenParams) (c : GenControl) (lfsr : BitVec 32) (v : GenVars)
    (hgap : v.rxActive = true → v.gapCnt = 0) :
    (v.rxActive = false ∧ v.emit p c lfsr = ⟨idleSegment, none⟩ ∧
      (v.buildSegment p c lfsr).begun = v.begun ∧
      (v.buildSegment p c lfsr).rxActive = false) ∨
    ((v.emit p c lfsr).seg.inframe = true ∧
      (v.emit p c lfsr).frame = some (v.buildSegment p c lfsr).begun ∧
      (v.buildSegment p c lfsr).begun = (if v.rxActive then v.begun else v.begun + 1) ∧
      ((v.buildSegment p c lfsr).rxActive = true → (v.buildSegment p c lfsr).gapCnt = 0)) := by
  by_cases hzero : v.gapCnt = 0
  · cases hactive : (v.beginFrame p c lfsr).rxActive with
    | false =>
      have hsame := beginFrame_of_not_active hactive
      rw [hsame] at hactive
      left
      rw [emit, buildSegment, if_neg (not_not.mpr hzero), if_neg (not_not.mpr hzero), hsame]
      simp only [hactive, Bool.false_eq_true, if_false, and_self]
    | true =>
      right
      have hbegun := beginFrame_begun hactive
      have hgapCnt : (v.beginFrame p c lfsr).gapCnt = 0 := beginFrame_gapCnt.trans hzero
      simp only [emit, buildSegment, hzero, ne_eq, not_true_eq_false, if_false, hactive, if_true]
      cases heop : (v.beginFrame p c lfsr).atEop with
      | true => simp [hbegun]
      | false => simp [hbegun, hgapCnt]
  · have hidle : v.rxActive = false := Bool.eq_false_iff.mpr fun h => hzero (hgap h)
    left
    rw [emit, buildSegment, if_pos hzero, if_pos hzero]
    exact ⟨hidle, rfl, rfl, hidle⟩

end GenVars

/-- The registers of the generator; `o_rx_mac_status_data`, which is always zero, is left out. -/
structure RxGen where
  lfsr : BitVec 32
  rxSeq : BitVec 32
  rxLen : BitVec 16
  rxOff : BitVec 16
  rxActive : Bool
  gapCnt : BitVec 3
  out : RxBeat
  frames : List (Option ℕ)
  begun : ℕ
  modelRxFrames : BitVec 32
  modelBadFrames : BitVec 32

namespace RxGen

/-- The registers after reset. -/
def reset (p : GenParams) : RxGen where
  lfsr := p.seed
  rxSeq := 0
  rxLen := BitVec.ofNat 16 p.minLen
  rxOff := 0
  rxActive := false
  gapCnt := 0
  out := ⟨false, List.replicate numSeg idleSegment, rfl⟩
  frames := List.replicate numSeg none
  begun := 0
  modelRxFrames := 0
  modelBadFrames := 0

variable (p : GenParams) (c : GenControl) (g : RxGen)

/-- The variables at the beginning of a clock edge. -/
def vars : GenVars := ⟨g.rxSeq, g.rxLen, g.rxOff, g.rxActive, g.gapCnt, 0, 0, g.begun⟩

/-- The pseudo-random source. -/
def nextLfsr : BitVec 32 :=
  g.lfsr.shiftConcat (g.lfsr.getLsbD 31 ^^ g.lfsr.getLsbD 21 ^^ g.lfsr.getLsbD 1 ^^
    g.lfsr.getLsbD 0)

/-- The registers behind the loop over the segments of a beat. -/
def latch (segs : List GenSeg) (hlen : segs.length = numSeg) (v : GenVars) : RxGen where
  lfsr := g.nextLfsr
  rxSeq := v.rxSeq
  rxLen := v.rxLen
  rxOff := v.rxOff
  rxActive := v.rxActive
  gapCnt := v.gapCnt
  out := ⟨segs.any fun x => x.seg.inframe, segs.map GenSeg.seg, by rw [List.length_map, hlen]⟩
  frames := segs.map GenSeg.frame
  begun := v.begun
  modelRxFrames := g.modelRxFrames + BitVec.ofNat 32 v.framesThisBeat
  modelBadFrames := g.modelBadFrames + BitVec.ofNat 32 v.badThisBeat

/-- A clock edge. -/
def step : RxGen :=
  if c.genEnable || g.rxActive then
    g.latch (g.vars.emits p c g.lfsr (List.range numSeg)) (by simp)
      (Runs.run (fun v _ => v.buildSegment p c g.lfsr) g.vars (List.range numSeg))
  else
    { g with
      lfsr := g.nextLfsr
      out := ⟨false, g.out.segs.map fun x => { x with inframe := false }, by
        rw [List.length_map, g.out.length_eq]⟩
      frames := List.replicate numSeg none }

variable {p c g}

/-- A cycle in which no beat is built. -/
theorem step_of_off (hoff : ¬ (c.genEnable || g.rxActive) = true) :
    (g.step p c).out.valid = false ∧ (g.step p c).begun = g.begun ∧
      (g.step p c).rxActive = false := by
  have hactive : g.rxActive = false := by
    cases h : g.rxActive with
    | false => rfl
    | true => simp [h] at hoff
  rw [step, if_neg hoff]
  exact ⟨rfl, rfl, hactive⟩

/-- The next registers hold the beat that is built over the places from the variables. -/
structure Built (p : GenParams) (c : GenControl) (places : List ℕ) (g g' : RxGen) : Prop where
  vars : g'.vars = { Runs.run (fun v _ => v.buildSegment p c g.lfsr) g.vars places with
    framesThisBeat := 0
    badThisBeat := 0 }
  valid : g'.out.valid = (g.vars.emits p c g.lfsr places).any fun x => x.seg.inframe
  segs : g'.out.segs = (g.vars.emits p c g.lfsr places).map GenSeg.seg
  frames : g'.frames = (g.vars.emits p c g.lfsr places).map GenSeg.frame

theorem built_latch (places : List ℕ)
    (hlen : (g.vars.emits p c g.lfsr places).length = numSeg) :
    Built p c places g (g.latch (g.vars.emits p c g.lfsr places) hlen
      (Runs.run (fun v _ => v.buildSegment p c g.lfsr) g.vars places)) where
  vars := rfl
  valid := rfl
  segs := rfl
  frames := rfl

/-- A cycle in which a beat is built. -/
theorem step_of_on (hon : (c.genEnable || g.rxActive) = true) :
    ∃ place places, Built p c (place :: places) g (g.step p c) := by
  have hbuilt : Built p c (List.range numSeg) g (g.step p c) := by
    rw [step, if_pos hon]
    exact built_latch _ _
  have hrange : List.range numSeg = 0 :: List.range' 1 15 := by decide
  rw [hrange] at hbuilt
  exact ⟨0, List.range' 1 15, hbuilt⟩

end RxGen

end SecureWan.Eth400g
