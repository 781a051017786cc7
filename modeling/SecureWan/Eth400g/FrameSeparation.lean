import SecureWan.Eth400g.RxGenerator
import SecureWan.Lib.Labelling

/-!
# Tags of the frames that the generator drives

The tagging block of the loopback goes by the valid beats alone: a frame is over for it when a
segment of a valid beat is not in a frame. The generator can also stop between two frames, so
that only cycles that are not valid lie between them.
-/

namespace SecureWan.Eth400g

open Labelling

/-- Segments with the numbers of their frames and their tags. -/
def tagged (frames : List (Option ℕ)) (tags : List Tag) : List (Item Tag) :=
  List.zipWith (fun frame tag => frame.map fun n => (n, tag)) frames tags

/-- The generator and the drop stage that it feeds. -/
structure GenBench where
  gen : RxGen
  stage : DropStage

namespace GenBench

variable (p : GenParams) (s : GenBench) (e : GenControl × Bool)

/-- The registers after reset. -/
def reset : GenBench := ⟨RxGen.reset p, resetStage⟩

/-- A clock edge of the generator, and the edge behind it, at which the drop stage takes the
beat. -/
def step : GenBench :=
  ⟨s.gen.step p e.1, s.stage.step e.2 (s.gen.step p e.1).out⟩

/-- The segments of the beat that came last with their frames and tags; a gap stands for a
segment outside of frames, and for a cycle that is not valid. -/
def items : List (Item Tag) :=
  if s.gen.out.valid then tagged s.gen.frames s.stage.segTag else [none]

/-- All segments and gaps of a run, in order. -/
def flow (es : List (GenControl × Bool)) : List (Item Tag) :=
  Runs.trace (step p) (fun s e => (s.step p e).items) (reset p) es

/-- The beats that the generator drives in a run. -/
def driven (es : List (GenControl × Bool)) : List RxBeat :=
  Runs.trace (step p) (fun s e => [(s.step p e).gen.out]) (reset p) es

end GenBench

/-- The last valid beat ends within a frame. -/
def endsInFrame (past : List RxBeat) : Bool :=
  ((past.filter RxBeat.valid).getLast?).any fun b => b.segs.getLast?.any Segment.inframe

/-- The last cycle is not valid. -/
def afterPause (past : List RxBeat) : Bool := past.getLast?.any fun b => !b.valid

/-- The beat is valid and begins within a frame. -/
def beginsInFrame (b : RxBeat) : Bool := b.valid && b.segs.head?.any Segment.inframe

/-- A frame begins in the first segment of a beat behind cycles that are not valid, and in front
of these cycles a frame ended in the last segment. -/
def Joins (past : List RxBeat) (b : RxBeat) : Prop :=
  endsInFrame past = true ∧ afterPause past = true ∧ beginsInFrame b = true

/-! ### The tagging block -/

namespace TagVars

variable {w : TagVars} {x : Segment}

theorem tagSegment_idle (hx : x.inframe = false) :
    w.tagSegment x = { w with vOpen := false, segTag := w.segTag ++ [0] } := by
  rw [tagSegment, hx]
  rfl

/-- A segment in a frame keeps the tag of the open frame, or takes the next one. -/
theorem tagSegment_inframe (hx : x.inframe = true) :
    (w.tagSegment x).vOpen = true ∧
      (w.tagSegment x).vCur = (if w.vOpen then w.vCur else w.vNext) ∧
      (w.tagSegment x).vNext = (if w.vOpen then w.vNext else w.vNext + 1) ∧
      (w.tagSegment x).segTag = w.segTag ++ [(w.tagSegment x).vCur] := by
  rw [tagSegment, if_pos hx]
  unfold flag openFrame
  cases hopen : w.vOpen <;> simp only [Bool.false_eq_true, if_false, if_true] <;> split <;>
    simp [hopen]

/-- Behind some segments a frame is open when the last one is in a frame. -/
theorem vOpen_run (w : TagVars) (xs : List Segment) :
    (Runs.run tagSegment w xs).vOpen =
      match xs.getLast? with
      | some x => x.inframe
      | none => w.vOpen := by
  induction xs using List.reverseRecOn with
  | nil => rfl
  | append_singleton xs x _ =>
    rw [Runs.run_append, Runs.run_cons, Runs.run_nil, List.getLast?_concat]
    cases hx : x.inframe with
    | false => rw [tagSegment_idle hx]; exact hx.symm
    | true => rw [(tagSegment_inframe hx).1]; exact hx.symm

end TagVars

/-! ### Segment by segment -/

/-- The generator and the tagging block agree on the frames so far; the last frame has the
current tag, and some gaps are behind it. -/
structure InPhase (v : GenVars) (w : TagVars) (items : List (Item Tag)) (gaps : ℕ) : Prop where
  gapCnt : v.rxActive = true → v.gapCnt = 0
  fresh : v.begun = 0 → (∀ m u, some (m, u) ∉ items) ∧ w.vOpen = false ∧ v.rxActive = false
  next : v.begun ≠ 0 → w.vNext = w.vCur + 1
  ends : v.begun ≠ 0 → Ends items v.begun w.vCur gaps
  active : v.rxActive = true → gaps = 0 ∧ w.vOpen = true

theorem tag_add_one_ne (t : Tag) : t ≠ t + 1 := by
  revert t
  decide

variable {p : GenParams} {c : GenControl} {lfsr : BitVec 32} {v : GenVars} {w : TagVars}
  {items : List (Item Tag)} {gaps : ℕ}

/-- The segments so far belong to the frames that have begun. -/
theorem InPhase.number_lt (h : InPhase v w items gaps) {m : ℕ} {u : Tag}
    (hmem : some (m, u) ∈ items) : m < v.begun + 1 := by
  by_cases hzero : v.begun = 0
  · exact absurd hmem ((h.fresh hzero).1 m u)
  · have hle := (h.ends hzero).le hmem
    omega

/-- A gap, at which no frame begins or goes on. -/
theorem InPhase.gap (h : InPhase v w items gaps) {v' : GenVars} {w' : TagVars}
    (hbegun : v'.begun = v.begun) (hactive : v'.rxActive = false) (hcur : w'.vCur = w.vCur)
    (hnext : w'.vNext = w.vNext) (hopen : w'.vOpen = true → w.vOpen = true) :
    InPhase v' w' (items ++ [none]) (gaps + 1) where
  gapCnt := fun hon => by rw [hactive] at hon; cases hon
  fresh := fun hzero => by
    obtain ⟨hnone, hshut, -⟩ := h.fresh (hbegun.symm.trans hzero)
    refine ⟨fun m u hmem => hnone m u (by simpa using hmem), ?_, hactive⟩
    exact Bool.eq_false_iff.mpr fun hon => Bool.eq_false_iff.mp hshut (hopen hon)
  next := fun hne => by rw [hnext, hcur, h.next fun hzero => hne (hbegun.trans hzero)]
  ends := fun hne => by
    rw [hbegun] at hne ⊢
    rw [hcur]
    exact (h.ends hne).gap
  active := fun hon => by rw [hactive] at hon; cases hon

/-- A segment of the frame that is going on. -/
theorem InPhase.same (h : InPhase v w items gaps) (hon : v.rxActive = true) {v' : GenVars}
    {w' : TagVars} (hbegun : v'.begun = v.begun)
    (hgapCnt : v'.rxActive = true → v'.gapCnt = 0) (hopen : w'.vOpen = true)
    (hcur : w'.vCur = w.vCur) (hnext : w'.vNext = w.vNext) :
    InPhase v' w' (items ++ [some (v'.begun, w'.vCur)]) 0 ∧
      (Separates (items ++ [some (v'.begun, w'.vCur)]) ↔ Separates items) := by
  obtain ⟨rfl, -⟩ := h.active hon
  have hne : v.begun ≠ 0 := fun hzero => by
    rw [(h.fresh hzero).2.2] at hon
    cases hon
  have hends := h.ends hne
  rw [hbegun, hcur]
  refine ⟨?_, hends.separates_same⟩
  exact
    { gapCnt := hgapCnt
      fresh := fun hzero => absurd (hbegun.symm.trans hzero) hne
      next := fun _ => by rw [hnext, hcur, h.next hne]
      ends := fun _ => by
        rw [hbegun, hcur]
        exact hends.same
      active := fun _ => ⟨rfl, hopen⟩ }

/-- The first segment of a frame: it takes the next tag, or that of the open frame. -/
theorem InPhase.first (h : InPhase v w items gaps) {v' : GenVars} {w' : TagVars}
    (hbegun : v'.begun = v.begun + 1) (hgapCnt : v'.rxActive = true → v'.gapCnt = 0)
    (hopen : w'.vOpen = true) (hcur : w'.vCur = if w.vOpen then w.vCur else w.vNext)
    (hnext : w'.vNext = if w.vOpen then w.vNext else w.vNext + 1) :
    InPhase v' w' (items ++ [some (v'.begun, w'.vCur)]) 0 ∧
      (Separates (items ++ [some (v'.begun, w'.vCur)]) ↔
        Separates items ∧ ¬ (w.vOpen = true ∧ 0 < gaps)) := by
  have hopened : w.vOpen = true → v.begun ≠ 0 := fun hon hzero => by
    rw [(h.fresh hzero).2.1] at hon
    cases hon
  constructor
  · exact
      { gapCnt := hgapCnt
        fresh := fun hzero => by omega
        next := fun _ => by
          rw [hnext, hcur]
          cases hon : w.vOpen with
          | false => rfl
          | true => exact h.next (hopened hon)
        ends := fun _ => ends_new (fun m u hmem => hbegun ▸ h.number_lt hmem) _
        active := fun _ => ⟨rfl, hopen⟩ }
  · rw [hbegun]
    by_cases hzero : v.begun = 0
    · obtain ⟨hnone, hshut, -⟩ := h.fresh hzero
      rw [separates_first hnone, hshut]
      simp
    · rw [(h.ends hzero).separates_new, hcur]
      cases hon : w.vOpen with
      | false =>
        have hother : w.vCur ≠ w.vNext := by
          rw [h.next hzero]
          exact tag_add_one_ne w.vCur
        simp [hother]
      | true => simp

/-- **One segment.** Frames stay told apart but for a frame that begins behind a gap while the
tagging block still has a frame open. -/
theorem InPhase.segment (h : InPhase v w items gaps) (p : GenParams) (c : GenControl)
    (lfsr : BitVec 32) :
    ∃ tag gaps', (w.tagSegment (v.emit p c lfsr).seg).segTag = w.segTag ++ [tag] ∧
      InPhase (v.buildSegment p c lfsr) (w.tagSegment (v.emit p c lfsr).seg)
        (items ++ [(v.emit p c lfsr).frame.map fun n => (n, tag)]) gaps' ∧
      ((w.tagSegment (v.emit p c lfsr).seg).vOpen = true → gaps' = 0) ∧
      (Separates (items ++ [(v.emit p c lfsr).frame.map fun n => (n, tag)]) ↔
        Separates items ∧
          ¬ (w.vOpen = true ∧ 0 < gaps ∧ (v.emit p c lfsr).seg.inframe = true)) := by
  rcases v.segment_cases p c lfsr h.gapCnt with
    ⟨-, hx, hbegun, hactive⟩ | ⟨hx, hframe, hbegun, hgapCnt⟩
  · have hw : w.tagSegment idleSegment = { w with vOpen := false, segTag := w.segTag ++ [0] } :=
      TagVars.tagSegment_idle rfl
    rw [hx, hw]
    refine ⟨0, gaps + 1, rfl, h.gap hbegun hactive rfl rfl nofun, nofun, ?_⟩
    rw [Option.map_none, separates_gap]
    simp [idleSegment]
  · obtain ⟨hopen, hcur, hnext, hsegTag⟩ := TagVars.tagSegment_inframe (w := w) hx
    refine ⟨_, 0, hsegTag, ?_⟩
    rw [hframe, Option.map_some]
    cases hon : v.rxActive with
    | true =>
      obtain ⟨rfl, hopened⟩ := h.active hon
      rw [hon, if_pos rfl] at hbegun
      rw [hopened, if_pos rfl] at hcur hnext
      obtain ⟨haligned, hseparates⟩ := h.same hon hbegun hgapCnt hopen hcur hnext
      refine ⟨haligned, fun _ => rfl, hseparates.trans ?_⟩
      simp
    | false =>
      rw [hon, if_neg Bool.false_ne_true] at hbegun
      obtain ⟨haligned, hseparates⟩ := h.first hbegun hgapCnt hopen hcur hnext
      refine ⟨haligned, fun _ => rfl, hseparates.trans ?_⟩
      rw [hx]
      simp

/-- Some segments behind each other: gaps count from the first one on. -/
theorem InPhase.segments (h : InPhase v w items gaps) (htight : w.vOpen = true → gaps = 0)
    (p : GenParams) (c : GenControl) (lfsr : BitVec 32) (places : List ℕ) :
    ∃ tags gaps',
      (Runs.run TagVars.tagSegment w ((v.emits p c lfsr places).map GenSeg.seg)).segTag =
        w.segTag ++ tags ∧
      InPhase (Runs.run (fun v _ => v.buildSegment p c lfsr) v places)
        (Runs.run TagVars.tagSegment w ((v.emits p c lfsr places).map GenSeg.seg))
        (items ++ tagged ((v.emits p c lfsr places).map GenSeg.frame) tags) gaps' ∧
      ((Runs.run TagVars.tagSegment w ((v.emits p c lfsr places).map GenSeg.seg)).vOpen = true →
        gaps' = 0) ∧
      (Separates (items ++ tagged ((v.emits p c lfsr places).map GenSeg.frame) tags) ↔
        Separates items) := by
  induction places generalizing v w items gaps with
  | nil =>
    refine ⟨[], gaps, by simp, ?_, htight, by simp [tagged]⟩
    simpa [tagged] using h
  | cons place places ih =>
    obtain ⟨tag, gaps', hsegTag, haligned, htight', hseparates⟩ := h.segment p c lfsr
    obtain ⟨tags, gaps'', hsegTags, haligned', htight'', hseparates'⟩ := ih haligned htight'
    have hnot : ¬ (w.vOpen = true ∧ 0 < gaps ∧ (v.emit p c lfsr).seg.inframe = true) := by
      rintro ⟨hopen, hpos, -⟩
      rw [htight hopen] at hpos
      cases hpos
    rw [and_iff_left hnot] at hseparates
    rw [hsegTag, List.append_assoc] at hsegTags
    rw [List.append_assoc] at haligned' hseparates'
    exact ⟨tag :: tags, gaps'', hsegTags, haligned', htight'', hseparates'.trans hseparates⟩

/-- The segments of a beat. The first one matters: it can begin a frame behind a pause. -/
theorem InPhase.beat (h : InPhase v w items gaps) (p : GenParams) (c : GenControl)
    (lfsr : BitVec 32) (place : ℕ) (places : List ℕ) :
    ∃ tags gaps',
      (Runs.run TagVars.tagSegment w ((v.emits p c lfsr (place :: places)).map GenSeg.seg)).segTag =
        w.segTag ++ tags ∧
      InPhase (Runs.run (fun v _ => v.buildSegment p c lfsr) v (place :: places))
        (Runs.run TagVars.tagSegment w ((v.emits p c lfsr (place :: places)).map GenSeg.seg))
        (items ++ tagged ((v.emits p c lfsr (place :: places)).map GenSeg.frame) tags) gaps' ∧
      ((Runs.run TagVars.tagSegment w
        ((v.emits p c lfsr (place :: places)).map GenSeg.seg)).vOpen = true → gaps' = 0) ∧
      (Separates (items ++ tagged ((v.emits p c lfsr (place :: places)).map GenSeg.frame) tags) ↔
        Separates items ∧
          ¬ (w.vOpen = true ∧ 0 < gaps ∧ (v.emit p c lfsr).seg.inframe = true)) := by
  obtain ⟨tag, gaps', hsegTag, haligned, htight, hseparates⟩ := h.segment p c lfsr
  obtain ⟨tags, gaps'', hsegTags, haligned', htight', hseparates'⟩ :=
    haligned.segments htight p c lfsr places
  rw [hsegTag, List.append_assoc] at hsegTags
  rw [List.append_assoc] at haligned' hseparates'
  exact ⟨tag :: tags, gaps'', hsegTags, haligned', htight', hseparates'.trans hseparates⟩

/-- A beat without a segment in a frame leaves the frames as they are. -/
theorem GenVars.run_idle (v : GenVars) (p : GenParams) (c : GenControl) (lfsr : BitVec 32)
    (hgap : v.rxActive = true → v.gapCnt = 0) (places : List ℕ)
    (hidle : ∀ x ∈ v.emits p c lfsr places, x.seg.inframe = false) (hoff : v.rxActive = false) :
    (Runs.run (fun v _ => v.buildSegment p c lfsr) v places).begun = v.begun ∧
      (Runs.run (fun v _ => v.buildSegment p c lfsr) v places).rxActive = false := by
  induction places generalizing v with
  | nil => exact ⟨rfl, hoff⟩
  | cons place places ih =>
    obtain ⟨hfirst, hrest⟩ := List.forall_mem_cons.mp hidle
    rcases v.segment_cases p c lfsr hgap with
      ⟨-, -, hbegun, hactive⟩ | ⟨hx, -⟩
    · obtain ⟨hbegun', hactive'⟩ := ih (v.buildSegment p c lfsr)
        (fun hon => by rw [hactive] at hon; cases hon) hrest hactive
      exact ⟨hbegun'.trans hbegun, hactive'⟩
    · rw [hfirst] at hx
      cases hx

/-- A frame that is going on is in the first segment of a beat. -/
theorem GenVars.emit_of_active (hgap : v.rxActive = true → v.gapCnt = 0)
    (hon : v.rxActive = true) : (v.emit p c lfsr).seg.inframe = true := by
  rcases v.segment_cases p c lfsr hgap with ⟨hoff, -⟩ | ⟨hx, -⟩
  · rw [hon] at hoff
    cases hoff
  · exact hx

/-! ### Cycle by cycle -/

theorem endsInFrame_concat (past : List RxBeat) (b : RxBeat) :
    endsInFrame (past ++ [b]) =
      if b.valid then b.segs.getLast?.any Segment.inframe else endsInFrame past := by
  cases h : b.valid <;> simp [endsInFrame, List.filter_append, h]

theorem afterPause_concat (past : List RxBeat) (b : RxBeat) :
    afterPause (past ++ [b]) = !b.valid := by
  simp [afterPause]

/-- The registers stand for the beats so far. -/
structure Watched (s : GenBench) (past : List RxBeat) (items : List (Item Tag)) (gaps : ℕ) :
    Prop where
  inPhase : InPhase s.gen.vars s.stage.tagVars items gaps
  isOpen : s.stage.frameOpen = endsInFrame past
  pause : s.stage.frameOpen = true → (0 < gaps ↔ afterPause past = true)

variable {s : GenBench} {past : List RxBeat}

theorem watched_reset (p : GenParams) : Watched (GenBench.reset p) [] [] 0 where
  inPhase :=
    { gapCnt := fun hon => by cases hon
      fresh := fun _ => ⟨fun _ _ => List.not_mem_nil, rfl, rfl⟩
      next := fun hne => absurd rfl hne
      ends := fun hne => absurd rfl hne
      active := fun hon => by cases hon }
  isOpen := rfl
  pause := fun hopen => by cases hopen

/-- A cycle that is not valid, in which no frame begins. -/
theorem Watched.pauseStep (h : Watched s past items gaps) {s' : GenBench}
    (hvalid : s'.gen.out.valid = false) (hstage : s'.stage.tagVars = s.stage.tagVars)
    (hbegun : s'.gen.begun = s.gen.begun) (hactive : s'.gen.rxActive = false) :
    Watched s' (past ++ [s'.gen.out]) (items ++ s'.items) (gaps + 1) ∧
      (Separates (items ++ s'.items) ↔ Separates items ∧ ¬ Joins past s'.gen.out) := by
  have hitems : s'.items = [none] := by rw [GenBench.items, hvalid]; rfl
  have hopen : s'.stage.frameOpen = s.stage.frameOpen := congrArg TagVars.vOpen hstage
  have hnot : ¬ Joins past s'.gen.out := by
    rintro ⟨-, -, hbegins⟩
    rw [beginsInFrame, hvalid] at hbegins
    cases hbegins
  rw [hitems, and_iff_left hnot]
  refine ⟨?_, separates_gap⟩
  exact
    { inPhase := h.inPhase.gap hbegun hactive (by rw [hstage]) (by rw [hstage])
        (by rw [hstage]; exact id)
      isOpen := by rw [hopen, h.isOpen, endsInFrame_concat, hvalid]; rfl
      pause := fun _ => by simp [afterPause_concat, hvalid] }

/-- The tagging block in a valid cycle. -/
theorem DropStage.step_of_valid (stage : DropStage) (dropOnError : Bool) {b : RxBeat}
    (hvalid : b.valid = true) :
    (stage.step dropOnError b).tagVars =
        { Runs.run TagVars.tagSegment stage.tagVars b.segs with vNdrop := 0, segTag := [] } ∧
      (stage.step dropOnError b).segTag =
        (Runs.run TagVars.tagSegment stage.tagVars b.segs).segTag := by
  rw [DropStage.step, DropStage.tagBeat, if_pos hvalid]
  exact ⟨rfl, rfl⟩

/-- The tagging block in a cycle that is not valid. -/
theorem DropStage.step_of_not_valid (stage : DropStage) (dropOnError : Bool) {b : RxBeat}
    (hvalid : b.valid = false) : (stage.step dropOnError b).tagVars = stage.tagVars := by
  rw [DropStage.step, DropStage.tagBeat, hvalid]
  rfl

/-- Behind a valid beat a frame is open when its last segment is in a frame. -/
theorem DropStage.frameOpen_of_valid (stage : DropStage) (dropOnError : Bool) {b : RxBeat}
    (hvalid : b.valid = true) :
    (stage.step dropOnError b).frameOpen = b.segs.getLast?.any Segment.inframe := by
  have htagVars := (stage.step_of_valid dropOnError hvalid).1
  have hrun := congrArg TagVars.vOpen htagVars
  refine hrun.trans ((TagVars.vOpen_run _ _).trans ?_)
  cases hlast : b.segs.getLast? with
  | none =>
    have hlen := b.length_eq
    rw [List.getLast?_eq_none_iff.mp hlast] at hlen
    cases hlen
  | some x => rfl

section Beat

variable {p : GenParams} {c : GenControl} {dropOnError : Bool} {place : ℕ} {places : List ℕ}
  {s' : GenBench}

/-- A valid cycle: its beat has been built from the variables. -/
theorem Watched.beatStep (h : Watched s past items gaps)
    (hbuilt : RxGen.Built p c (place :: places) s.gen s'.gen)
    (hstage : s'.stage = s.stage.step dropOnError s'.gen.out)
    (hvalid : s'.gen.out.valid = true) :
    ∃ gaps', Watched s' (past ++ [s'.gen.out]) (items ++ s'.items) gaps' ∧
      (Separates (items ++ s'.items) ↔ Separates items ∧ ¬ Joins past s'.gen.out) := by
  obtain ⟨tags, gaps', hsegTag, hinPhase, htight, hseparates⟩ :=
    h.inPhase.beat p c s.gen.lfsr place places
  obtain ⟨htagVars, hsegTags⟩ := s.stage.step_of_valid dropOnError hvalid
  have hopen := s.stage.frameOpen_of_valid dropOnError hvalid
  have hempty : s.stage.tagVars.segTag = [] := rfl
  rw [← hstage, hbuilt.segs] at htagVars hsegTags
  rw [← hstage] at hopen
  rw [hempty, List.nil_append] at hsegTag
  have hitems : s'.items = tagged
      ((s.gen.vars.emits p c s.gen.lfsr (place :: places)).map GenSeg.frame) tags := by
    rw [GenBench.items, hvalid, if_pos rfl, hbuilt.frames, hsegTags, hsegTag]
  refine ⟨gaps', ?_, ?_⟩
  · exact
      { inPhase := by
          rw [hitems, hbuilt.vars, htagVars]
          exact ⟨hinPhase.gapCnt, hinPhase.fresh, hinPhase.next, hinPhase.ends, hinPhase.active⟩
        isOpen := by rw [hopen, endsInFrame_concat, hvalid, if_pos rfl]
        pause := fun hon => by
          have hzero := htight ((congrArg TagVars.vOpen htagVars).symm.trans hon)
          simp [afterPause_concat, hvalid, hzero] }
  · have hfirst : beginsInFrame s'.gen.out = (s.gen.vars.emit p c s.gen.lfsr).seg.inframe := by
      rw [beginsInFrame, hvalid, hbuilt.segs]
      simp
    rw [hitems, hseparates, Joins, hfirst, ← h.isOpen]
    refine and_congr_right fun _ => not_congr ?_
    constructor
    · rintro ⟨hon, hpos, hin⟩
      exact ⟨hon, (h.pause hon).mp hpos, hin⟩
    · rintro ⟨hon, hafter, hin⟩
      exact ⟨hon, (h.pause hon).mpr hafter, hin⟩

/-- A beat without a segment in a frame, if there is one, is a pause as well. -/
theorem Watched.emptyStep (h : Watched s past items gaps)
    (hbuilt : RxGen.Built p c (place :: places) s.gen s'.gen)
    (hstage : s'.stage = s.stage.step dropOnError s'.gen.out)
    (hvalid : s'.gen.out.valid = false) :
    Watched s' (past ++ [s'.gen.out]) (items ++ s'.items) (gaps + 1) ∧
      (Separates (items ++ s'.items) ↔ Separates items ∧ ¬ Joins past s'.gen.out) := by
  have hidle : ∀ x ∈ s.gen.vars.emits p c s.gen.lfsr (place :: places),
      x.seg.inframe = false := by
    simpa using hbuilt.valid.symm.trans hvalid
  have hoff : s.gen.vars.rxActive = false := by
    refine Bool.eq_false_iff.mpr fun hactive => ?_
    have hfirst : (s.gen.vars.emit p c s.gen.lfsr).seg.inframe = true :=
      GenVars.emit_of_active h.inPhase.gapCnt hactive
    rw [hidle _ List.mem_cons_self] at hfirst
    cases hfirst
  obtain ⟨hbegun, hactive⟩ := s.gen.vars.run_idle p c s.gen.lfsr h.inPhase.gapCnt _ hidle hoff
  refine h.pauseStep hvalid ?_ ((congrArg GenVars.begun hbuilt.vars).trans hbegun)
    ((congrArg GenVars.rxActive hbuilt.vars).trans hactive)
  rw [hstage]
  exact s.stage.step_of_not_valid dropOnError hvalid

end Beat

/-- **One cycle.** -/
theorem Watched.step (h : Watched s past items gaps) (p : GenParams) (e : GenControl × Bool) :
    ∃ gaps', Watched (s.step p e) (past ++ [(s.step p e).gen.out])
        (items ++ (s.step p e).items) gaps' ∧
      (Separates (items ++ (s.step p e).items) ↔
        Separates items ∧ ¬ Joins past (s.step p e).gen.out) := by
  by_cases hon : (e.1.genEnable || s.gen.rxActive) = true
  · obtain ⟨place, places, hbuilt⟩ := RxGen.step_of_on (p := p) hon
    cases hvalid : (s.gen.step p e.1).out.valid with
    | false => exact ⟨gaps + 1, h.emptyStep hbuilt rfl hvalid⟩
    | true => exact h.beatStep hbuilt rfl hvalid
  · obtain ⟨hvalid, hbegun, hactive⟩ := RxGen.step_of_off (p := p) hon
    exact ⟨gaps + 1, h.pauseStep hvalid (s.stage.step_of_not_valid e.2 hvalid) hbegun hactive⟩

/-! ### Runs -/

theorem exists_watched (p : GenParams) (es : List (GenControl × Bool)) :
    ∃ gaps, Watched (Runs.run (GenBench.step p) (GenBench.reset p) es) (GenBench.driven p es)
      (GenBench.flow p es) gaps := by
  induction es using List.reverseRecOn with
  | nil => exact ⟨0, watched_reset p⟩
  | append_singleton es e ih =>
    obtain ⟨gaps, hwatched⟩ := ih
    obtain ⟨gaps', hnext, -⟩ := hwatched.step p e
    refine ⟨gaps', ?_⟩
    rw [GenBench.driven, GenBench.flow, Runs.trace_concat, Runs.trace_concat, Runs.run_append]
    exact hnext

/-- **Frame separation.** Whatever the controls are in each cycle, frames with an idle segment or
a cycle that is not valid between them have different tags, and each frame has one tag, exactly
when no frame begins in the first segment behind a pause in front of which the last frame ended
in the last segment of a beat. -/
theorem separates_flow_iff (p : GenParams) (es : List (GenControl × Bool)) :
    Separates (GenBench.flow p es) ↔
      ∀ past b rest, GenBench.driven p es = past ++ b :: rest → ¬ Joins past b := by
  induction es using List.reverseRecOn with
  | nil => exact iff_of_true separates_nil fun past b rest heq => by simp [GenBench.driven,
      Runs.trace] at heq
  | append_singleton es e ih =>
    obtain ⟨gaps, hwatched⟩ := exists_watched p es
    obtain ⟨gaps', -, hseparates⟩ := hwatched.step p e
    have hflow : GenBench.flow p (es ++ [e]) = GenBench.flow p es ++
        ((Runs.run (GenBench.step p) (GenBench.reset p) es).step p e).items :=
      Runs.trace_concat _ _ es e
    have hdriven : GenBench.driven p (es ++ [e]) = GenBench.driven p es ++
        [((Runs.run (GenBench.step p) (GenBench.reset p) es).step p e).gen.out] :=
      Runs.trace_concat _ _ es e
    rw [hflow, hdriven, hseparates, ih, Runs.forall_split_concat]

/-- The default parameters. -/
def defaultParams : GenParams := ⟨64, 1518, 0xACE12345, by decide⟩

/-- Frames of sixteen segments without a gap, while the generator is enabled. -/
def fullBeats (genEnable : Bool) : GenControl × Bool := (⟨genEnable, 128, false, 0⟩, true)

/-- A frame of one full beat, a cycle without traffic and another such frame: one tag. -/
theorem not_separates_fullBeats :
    ¬ Separates (GenBench.flow defaultParams
      [fullBeats true, fullBeats false, fullBeats true]) := by
  have hflow : GenBench.flow defaultParams [fullBeats true, fullBeats false, fullBeats true] =
      (List.replicate 15 (some (1, 0)) ++ some (1, 0) :: [none]) ++
        some (2, 0) :: List.replicate 15 (some (2, 0)) := by
    decide +kernel
  intro h
  have hfits := h _ _ _ _ hflow
  exact (hfits _ _ _ _ rfl).2 rfl List.mem_cons_self rfl

end SecureWan.Eth400g
