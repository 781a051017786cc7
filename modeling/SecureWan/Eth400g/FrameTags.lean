import SecureWan.Eth400g.DropStage
import Mathlib.Data.List.Count

/-!
# Tags of frames

The tag of a frame is its number modulo the number of tags, and the flag of a tag is that of
the last frame that has it: for the last 64 frames, `drop_set` says which of them have shown
an error.
-/

namespace SecureWan.Eth400g

open Segmentation

/-- The tag of the frame with a number. -/
def tagOf (j : ℕ) : Tag := BitVec.ofNat 6 j

theorem tagOf_succ (j : ℕ) : tagOf (j + 1) = tagOf j + 1 := BitVec.ofNat_add j 1

/-- Two of 64 consecutive frames have different tags. -/
theorem tagOf_ne {i j : ℕ} (hlt : i < j) (hwin : j < i + 64) : tagOf i ≠ tagOf j := by
  intro h
  have hval := congrArg BitVec.toNat h
  simp only [tagOf, BitVec.toNat_ofNat] at hval
  omega

/-- The variables of the tagging block stand for the frames seen so far. -/
structure Tracks (g : Segmentation RxSeg) (v : TagVars) : Prop where
  isOpen : v.vOpen = true ↔ g.current ≠ []
  next : v.vNext = tagOf g.groups.length
  cur : g.current ≠ [] → v.vCur = tagOf g.closed.length
  drop : ∀ j f, g.groups[j]? = some f → g.groups.length ≤ j + 64 → v.vDrop (tagOf j) = frameBad f

/-- The variables once the frame of the next segment is open. -/
structure Opened (g : Segmentation RxSeg) (v : TagVars) : Prop where
  isOpen : v.vOpen = true
  next : v.vNext = tagOf (g.closed.length + 1)
  cur : v.vCur = tagOf g.closed.length
  curDrop : v.vDrop (tagOf g.closed.length) = frameBad g.current
  drop : ∀ j f, g.closed[j]? = some f → g.closed.length + 1 ≤ j + 64 →
    v.vDrop (tagOf j) = frameBad f

variable {g : Segmentation RxSeg} {v : TagVars}

/-- Opening a frame only takes the flag of the frame 64 before. -/
theorem Tracks.openFrame (h : Tracks g v) : Opened g v.openFrame := by
  rcases g.groups_of_current with ⟨hcur, hgroups⟩ | ⟨hcur, hgroups⟩
  · have hclosed : ¬ v.vOpen = true := fun hopen => h.isOpen.mp hopen hcur
    have hnext : v.vNext = tagOf g.closed.length := by rw [h.next, hgroups]
    have hopen : v.openFrame = { v with
        vCur := v.vNext
        vNext := v.vNext + 1
        vDrop := Function.update v.vDrop v.vNext false
        vOpen := true } := by
      rw [TagVars.openFrame, if_neg hclosed]
    rw [hopen]
    exact
      { isOpen := rfl
        next := by rw [tagOf_succ, ← hnext]
        cur := hnext
        curDrop := by
          rw [← hnext, hcur]
          exact Function.update_self _ _ _
        drop := by
          intro j f hf hwin
          have hlt := (List.getElem?_eq_some_iff.mp hf).1
          have hne : tagOf j ≠ v.vNext := hnext ▸ tagOf_ne hlt (by omega)
          have hold := h.drop j f (by rw [hgroups]; exact hf) (by rw [hgroups]; omega)
          exact (Function.update_of_ne hne _ _).trans hold }
  · have hopen : v.openFrame = v := by rw [TagVars.openFrame, if_pos (h.isOpen.mpr hcur)]
    have hlen : g.groups.length = g.closed.length + 1 := by
      rw [hgroups, List.length_append, List.length_singleton]
    rw [hopen]
    exact
      { isOpen := h.isOpen.mpr hcur
        next := by rw [h.next, hlen]
        cur := h.cur hcur
        curDrop := h.drop _ _ (by rw [hgroups, List.getElem?_concat_length]) (by omega)
        drop := by
          intro j f hf hwin
          have hlt := (List.getElem?_eq_some_iff.mp hf).1
          exact h.drop j f (by rw [hgroups, List.getElem?_append_left hlt]; exact hf) (by omega) }

/-- A segment joins the open frame: at most the flag of its tag changes. -/
theorem Opened.tracks (h : Opened g v) {x : RxSeg} (hx : x.inframe = true) {v' : TagVars}
    (hopen : v'.vOpen = v.vOpen) (hnext : v'.vNext = v.vNext) (hcur : v'.vCur = v.vCur)
    (hflag : v'.vDrop v.vCur = (frameBad g.current || x.seg.bad))
    (hother : ∀ tag, tag ≠ v.vCur → v'.vDrop tag = v.vDrop tag) :
    Tracks (push RxSeg.inframe g x) v' := by
  have hgroups : (push RxSeg.inframe g x).groups = g.closed ++ [g.current ++ [x]] :=
    groups_push_of_pos hx
  have hlen : (push RxSeg.inframe g x).groups.length = g.closed.length + 1 := by
    rw [hgroups, List.length_append, List.length_singleton]
  exact
    { isOpen := by
        rw [hopen, push_of_pos hx]
        simp [h.isOpen]
      next := by rw [hnext, hlen, h.next]
      cur := fun _ => by rw [hcur, push_of_pos hx, h.cur]
      drop := by
        intro j f hf hwin
        rw [hlen] at hwin
        rw [hgroups] at hf
        rcases Nat.lt_trichotomy j g.closed.length with hlt | rfl | hgt
        · rw [List.getElem?_append_left hlt] at hf
          have hne : tagOf j ≠ v.vCur := h.cur ▸ tagOf_ne hlt (by omega)
          rw [hother _ hne, h.drop j f hf hwin]
        · rw [List.getElem?_concat_length] at hf
          obtain rfl := Option.some.inj hf
          rw [← h.cur, hflag]
          simp [frameBad]
        · have hlast := (List.getElem?_eq_some_iff.mp hf).1
          rw [List.length_append, List.length_singleton] at hlast
          omega }

/-- The number of frames with an error goes up with the first one in the open frame. -/
theorem countP_push {x : RxSeg} (hx : x.inframe = true) :
    (push RxSeg.inframe g x).groups.countP frameBad =
      g.groups.countP frameBad + (x.seg.bad && !frameBad g.current).toNat := by
  have hbad : frameBad (g.current ++ [x]) = (frameBad g.current || x.seg.bad) := by
    simp [frameBad]
  rw [groups_push_of_pos hx, List.countP_append, List.countP_singleton, hbad]
  rcases g.groups_of_current with ⟨hcur, hgroups⟩ | ⟨-, hgroups⟩
  · rw [hgroups, hcur]
    cases x.seg.bad <;> rfl
  · rw [hgroups, List.countP_append, List.countP_singleton]
    cases frameBad g.current <;> cases x.seg.bad <;> rfl

/-- A segment of the open frame marks its frame when it has an error. -/
theorem Opened.flag (h : Opened g v) {x : RxSeg} (hx : x.inframe = true) :
    Tracks (push RxSeg.inframe g x) (v.flag x.seg.bad) ∧
      (v.flag x.seg.bad).vNdrop = v.vNdrop + (x.seg.bad && !frameBad g.current).toNat := by
  have hcur : v.vDrop v.vCur = frameBad g.current := by rw [h.cur, h.curDrop]
  by_cases hmark : (x.seg.bad && !v.vDrop v.vCur) = true
  · have hflag : v.flag x.seg.bad = { v with
        vDrop := Function.update v.vDrop v.vCur true
        vNdrop := v.vNdrop + 1 } := by
      rw [TagVars.flag, if_pos hmark]
    rw [hcur] at hmark
    have hbad : x.seg.bad = true := (Bool.and_eq_true_iff.mp hmark).1
    rw [hflag, hmark]
    refine ⟨h.tracks hx rfl rfl rfl ?_ fun tag hne => Function.update_of_ne hne _ _, rfl⟩
    simp only [Function.update_self, hbad, Bool.or_true]
  · have hflag : v.flag x.seg.bad = v := by rw [TagVars.flag, if_neg hmark]
    rw [hcur, Bool.not_eq_true] at hmark
    rw [hflag, hmark]
    refine ⟨h.tracks hx rfl rfl rfl ?_ fun _ _ => rfl, rfl⟩
    rw [hcur]
    revert hmark
    cases frameBad g.current <;> cases x.seg.bad <;> simp

/-- An idle segment closes the open frame. -/
theorem Tracks.idle (h : Tracks g v) {x : RxSeg} (hx : ¬ x.inframe = true) (tags : List Tag) :
    Tracks (push RxSeg.inframe g x) { v with vOpen := false, segTag := tags } := by
  rw [push_of_neg hx]
  exact
    { isOpen := by simp
      next := h.next
      cur := fun hne => absurd rfl hne
      drop := h.drop }

/-- Tags do not depend on the tags given before. -/
theorem Opened.setSegTag (h : Opened g v) (tags : List Tag) :
    Opened g { v with segTag := tags } where
  isOpen := h.isOpen
  next := h.next
  cur := h.cur
  curDrop := h.curDrop
  drop := h.drop

theorem vNdrop_openFrame : v.openFrame.vNdrop = v.vNdrop := by
  unfold TagVars.openFrame
  split <;> rfl

theorem segTag_flag (bad : Bool) : (v.flag bad).segTag = v.segTag := by
  unfold TagVars.flag
  split <;> rfl

/-- **One segment.** The variables stand for the frames with it; it has the tag of its frame;
a frame is counted when its first error comes. -/
theorem Tracks.tagSegment (h : Tracks g v) (x : RxSeg) :
    Tracks (push RxSeg.inframe g x) (v.tagSegment x.seg) ∧
      (v.tagSegment x.seg).vNdrop + g.groups.countP frameBad =
        v.vNdrop + (push RxSeg.inframe g x).groups.countP frameBad ∧
      ∃ tag, (v.tagSegment x.seg).segTag = v.segTag ++ [tag] ∧
        (x.inframe = true → tag = tagOf g.closed.length) := by
  by_cases hx : x.inframe = true
  · have htag : v.tagSegment x.seg =
        { v.openFrame with segTag := v.segTag ++ [v.openFrame.vCur] }.flag x.seg.bad := if_pos hx
    obtain ⟨htracks, hcount⟩ :=
      (h.openFrame.setSegTag (v.segTag ++ [v.openFrame.vCur])).flag hx
    rw [htag]
    refine ⟨htracks, ?_, v.openFrame.vCur, segTag_flag _, fun _ => h.openFrame.cur⟩
    rw [hcount, countP_push hx, vNdrop_openFrame]
    omega
  · have htag : v.tagSegment x.seg = { v with vOpen := false, segTag := v.segTag ++ [0] } :=
      if_neg hx
    rw [htag, groups_push_of_neg hx]
    exact ⟨h.idle hx _, rfl, 0, rfl, fun hframe => absurd hframe hx⟩

/-- The segments of an entry of the delay line that are in a frame, with their tags. -/
def visible (segs : List LineSeg) : List (Payload × Tag) :=
  (segs.filter LineSeg.inframe).map fun y => (y.payload, y.tag)

/-- What is visible of some segments with the numbers of their frames. -/
def shown (block : List (RxSeg × ℕ)) : List (Payload × Tag) :=
  block.map fun y => (y.1.seg.payload, tagOf y.2)

/-- **A beat.** The segments in a frame are visible with the tags of their frames. -/
theorem Tracks.run (h : Tracks g v) (xs : List RxSeg) :
    Tracks (Runs.run (push RxSeg.inframe) g xs)
        (Runs.run TagVars.tagSegment v (xs.map RxSeg.seg)) ∧
      (Runs.run TagVars.tagSegment v (xs.map RxSeg.seg)).vNdrop + g.groups.countP frameBad =
        v.vNdrop + (Runs.run (push RxSeg.inframe) g xs).groups.countP frameBad ∧
      ∃ tags block,
        (Runs.run TagVars.tagSegment v (xs.map RxSeg.seg)).segTag = v.segTag ++ tags ∧
        (Runs.run (push RxSeg.inframe) g xs).numbered = g.numbered ++ block ∧
        visible (List.zipWith Segment.lineSeg (xs.map RxSeg.seg) tags) = shown block ∧
        ∀ y ∈ block, y.1 ∈ xs ∧ g.closed.length ≤ y.2 := by
  induction xs generalizing g v with
  | nil => exact ⟨h, rfl, [], [], by simp, by simp, rfl, by simp⟩
  | cons x xs ih =>
    obtain ⟨htracks, hcount, tag, hsegTag, htag⟩ := h.tagSegment x
    obtain ⟨hrun, hcounts, tags, block, hsegTags, hnumbered, hvisible, hblock⟩ := ih htracks
    have hclosed : g.closed.length ≤ (push RxSeg.inframe g x).closed.length :=
      (closed_prefix_push g x).length_le
    have hlater : ∀ y ∈ block, y.1 ∈ x :: xs ∧ g.closed.length ≤ y.2 := fun y hy =>
      ⟨List.mem_cons_of_mem x (hblock y hy).1, hclosed.trans (hblock y hy).2⟩
    rw [List.map_cons, Runs.run_cons, Runs.run_cons]
    refine ⟨hrun, by omega, tag :: tags, ?_⟩
    rw [hsegTags, hsegTag, List.append_assoc, List.singleton_append, hnumbered]
    by_cases hx : x.inframe = true
    · refine ⟨(x, g.closed.length) :: block, rfl, ?_, ?_, ?_⟩
      · rw [numbered_push_of_pos hx, List.append_assoc, List.singleton_append]
      · have hin : (x.seg.lineSeg tag).inframe = true := hx
        rw [List.zipWith_cons_cons, visible, List.filter_cons_of_pos hin, List.map_cons, shown,
          List.map_cons, ← htag hx]
        exact congrArg _ hvisible
      · intro y hy
        rcases List.mem_cons.mp hy with rfl | hy
        · exact ⟨List.mem_cons_self, le_rfl⟩
        · exact hlater y hy
    · refine ⟨block, rfl, by rw [numbered_push_of_neg hx], ?_, hlater⟩
      have hin : ¬ (x.seg.lineSeg tag).inframe = true := hx
      rw [List.zipWith_cons_cons, visible, List.filter_cons_of_neg hin]
      exact hvisible

end SecureWan.Eth400g
