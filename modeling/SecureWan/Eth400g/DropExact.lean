import SecureWan.Eth400g.FrameTags

/-!
# The drop stage drops exactly the frames with errors

A segment leaves the delay line when 16 beats have come, its own included. A frame that spans
at most 16 cycles has shown its error by then, and its tag has not been given to another
frame: frames of eight segments and more begin at least nine segments apart, so fewer than
64 begin in that time.
-/

namespace SecureWan.Eth400g

open Segmentation

/-- Frames that the drop stage is made for: long enough when they are over, and within the
span of the delay line. -/
structure Regular (rx : List RxBeat) : Prop where
  long : ∀ f ∈ (framing rx).closed, 8 ≤ f.length
  short : ∀ f ∈ (framing rx).groups, ∀ x ∈ f, ∀ y ∈ f, y.cycle < x.cycle + dropDelay

/-- The frame with a number has shown an error. -/
def errored (rx : List RxBeat) (j : ℕ) : Bool :=
  (framing rx).numbered.any fun y => y.2 == j && y.1.seg.bad

/-! ### One more beat -/

theorem framing_concat (rx : List RxBeat) (b : RxBeat) :
    framing (rx ++ [b]) =
      Runs.run (push RxSeg.inframe) (framing rx) (b.rxSegs rx.length) := by
  simp only [framing, stream, List.mapIdx_append, List.mapIdx_singleton, List.flatten_append,
    List.flatten_singleton, Runs.run_append, Nat.zero_add]

theorem Regular.of_concat {rx : List RxBeat} {b : RxBeat} (h : Regular (rx ++ [b])) :
    Regular rx where
  long f hf := by
    apply h.long
    rw [framing_concat]
    exact (closed_prefix_run _ _).subset hf
  short f hf x hx y hy := by
    obtain ⟨j, hj⟩ := List.mem_iff_getElem?.mp hf
    have hkeeps := numbered_prefix_run (p := RxSeg.inframe) (framing rx) (b.rxSegs rx.length)
    rw [← framing_concat] at hkeeps
    obtain ⟨f', hf', hx'⟩ := mem_numbered.mp (hkeeps.subset (mem_numbered.mpr ⟨f, hj, hx⟩))
    obtain ⟨f'', hf'', hy'⟩ := mem_numbered.mp (hkeeps.subset (mem_numbered.mpr ⟨f, hj, hy⟩))
    obtain rfl := Option.some.inj (hf'.symm.trans hf'')
    exact h.short f' (List.mem_of_getElem? hf') x hx' y hy'

/-- Two segments of one frame are within the span of the delay line. -/
theorem Regular.span {rx : List RxBeat} (h : Regular rx) {x y : RxSeg} {j : ℕ}
    (hx : (x, j) ∈ (framing rx).numbered) (hy : (y, j) ∈ (framing rx).numbered) :
    y.cycle < x.cycle + dropDelay := by
  obtain ⟨f, hf, hx'⟩ := mem_numbered.mp hx
  obtain ⟨f', hf', hy'⟩ := mem_numbered.mp hy
  obtain rfl := Option.some.inj (hf.symm.trans hf')
  exact h.short f (List.mem_of_getElem? hf) x hx' y hy'

theorem errored_eq {rx : List RxBeat} {j : ℕ} {f : List RxSeg}
    (hf : (framing rx).groups[j]? = some f) : errored rx j = frameBad f := by
  rw [Bool.eq_iff_iff, errored, frameBad, List.any_eq_true, List.any_eq_true]
  constructor
  · rintro ⟨⟨x, i⟩, hx, hbad⟩
    simp only [Bool.and_eq_true, beq_iff_eq] at hbad
    obtain ⟨rfl, hbad⟩ := hbad
    obtain ⟨f', hf', hx'⟩ := mem_numbered.mp hx
    obtain rfl := Option.some.inj (hf.symm.trans hf')
    exact ⟨x, hx', hbad⟩
  · rintro ⟨x, hx, hbad⟩
    exact ⟨(x, j), mem_numbered.mpr ⟨f, hf, hx⟩, by simpa using hbad⟩

/-! ### The delay line -/

/-- What is visible of an entry of the delay line. -/
def LineBeat.visible (l : LineBeat) : List (Payload × Tag) :=
  if l.valid then Eth400g.visible l.segs else []

theorem kept_eq (dropOnError : Bool) (s : DropStage) :
    s.kept dropOnError =
      (s.lineOut.visible.filter fun y => !(dropOnError && s.dropSet y.2)).map Prod.fst := by
  unfold DropStage.kept LineBeat.visible
  split
  · rw [Eth400g.visible, List.filter_map, List.map_map, List.filter_filter]
    congr 1
    apply List.filter_congr
    intro y _
    exact Bool.and_comm _ _
  · rfl

/-- The segments of a beat that are in a frame, with the numbers of their frames. -/
abbrev Block := List (RxSeg × ℕ)

/-- The drop stage has seen some beats, with these blocks. -/
structure Follows (rx : List RxBeat) (s : DropStage) (blocks : List Block) : Prop where
  tracks : Tracks (framing rx) s.tagVars
  dropped : s.droppedFrames = BitVec.ofNat 32 ((framing rx).groups.countP frameBad)
  count : blocks.length = rx.length
  flat : (framing rx).numbered = blocks.flatten
  cycles : ∀ k (block : Block), blocks[k]? = some block → ∀ y ∈ block, y.1.cycle = k
  recent : ∀ k (block : Block), blocks[k]? = some block → ∀ y ∈ block,
    (framing rx).weight 8 ≤ 9 * y.2 + 8 + numSeg * (rx.length - k)
  line : s.line.map LineBeat.visible =
    ((blocks.map shown).reverse ++ List.replicate dropDelay []).take dropDelay

theorem follows_reset : Follows [] resetStage [] where
  tracks :=
    { isOpen := by simp [DropStage.tagVars, resetStage, framing, stream, start]
      next := rfl
      cur := fun hne => absurd rfl hne
      drop := fun j f hf => by simp [framing, stream, start, groups] at hf }
  dropped := rfl
  count := rfl
  flat := rfl
  cycles k block hblock := by simp at hblock
  recent k block hblock := by simp at hblock
  line := rfl

/-- What the tagging block and the delay line block make of a beat. -/
theorem exists_block {rx : List RxBeat} {s : DropStage} (h : Tracks (framing rx) s.tagVars)
    (dropOnError : Bool) (b : RxBeat) :
    Tracks (framing (rx ++ [b])) (s.step dropOnError b).tagVars ∧
      (dropOnError = true →
        s.droppedFrames = BitVec.ofNat 32 ((framing rx).groups.countP frameBad) →
        (s.step dropOnError b).droppedFrames =
          BitVec.ofNat 32 ((framing (rx ++ [b])).groups.countP frameBad)) ∧
      ∃ block, (framing (rx ++ [b])).numbered = (framing rx).numbered ++ block ∧
        (s.step dropOnError b).line.map LineBeat.visible =
          shown block :: (s.line.map LineBeat.visible).take (dropDelay - 1) ∧
        ∀ y ∈ block, y.1.cycle = rx.length ∧ (framing rx).closed.length ≤ y.2 := by
  rw [framing_concat]
  cases hvalid : b.valid with
  | false =>
    have htag : s.tagBeat dropOnError b = s := by simp [DropStage.tagBeat, hvalid]
    have hsegs : b.rxSegs rx.length = [] := by simp [RxBeat.rxSegs, hvalid]
    rw [hsegs, Runs.run_nil, DropStage.step, htag]
    refine ⟨h, fun _ hdropped => hdropped, [], by simp, ?_, by simp⟩
    simp [DropStage.shiftLine, LineBeat.visible, hvalid, shown, List.map_take]
  | true =>
    have hsegs : b.rxSegs rx.length = b.segs.map (RxSeg.mk rx.length) := by
      simp [RxBeat.rxSegs, hvalid]
    have hback : (b.segs.map (RxSeg.mk rx.length)).map RxSeg.seg = b.segs := by
      simp [List.map_map, Function.comp_def]
    obtain ⟨htracks, hcount, tags, block, hsegTag, hnumbered, hvisible, hblock⟩ :=
      h.run (b.segs.map (RxSeg.mk rx.length))
    rw [hback] at htracks hcount hsegTag hvisible
    rw [hsegs]
    rw [DropStage.step, DropStage.tagBeat, if_pos hvalid]
    have hnew : LineBeat.visible ⟨b.valid, List.zipWith Segment.lineSeg b.segs
        (Runs.run TagVars.tagSegment s.tagVars b.segs).segTag⟩ = shown block := by
      rw [LineBeat.visible, if_pos hvalid, hsegTag]
      exact hvisible
    refine ⟨⟨htracks.isOpen, htracks.next, htracks.cur, htracks.drop⟩, ?_, block, hnumbered,
      ?_, fun y hy => ?_⟩
    · rintro rfl hdropped
      have hzero : s.tagVars.vNdrop = 0 := rfl
      rw [hzero, Nat.zero_add] at hcount
      change s.droppedFrames + BitVec.ofNat 32 _ = _
      rw [hdropped, ← hcount, BitVec.add_comm, BitVec.ofNat_add]
    · rw [DropStage.shiftLine, List.map_cons, List.map_take, hnew]
    · obtain ⟨hmem, hle⟩ := hblock y hy
      obtain ⟨x, -, hx⟩ := List.mem_map.mp hmem
      exact ⟨by rw [← hx], hle⟩

/-- The blocks with one more. -/
theorem getElem?_concat_cases {blocks : List Block} {block c : Block} {k : ℕ}
    (hc : (blocks ++ [block])[k]? = some c) :
    (k < blocks.length ∧ blocks[k]? = some c) ∨ (k = blocks.length ∧ c = block) := by
  rcases Nat.lt_trichotomy k blocks.length with hlt | rfl | hgt
  · rw [List.getElem?_append_left hlt] at hc
    exact .inl ⟨hlt, hc⟩
  · rw [List.getElem?_concat_length] at hc
    exact .inr ⟨rfl, (Option.some.inj hc).symm⟩
  · have hlast := (List.getElem?_eq_some_iff.mp hc).1
    rw [List.length_append, List.length_singleton] at hlast
    omega

/-- Each block holds the segments of its cycle, with one more block. -/
theorem cycles_concat {blocks : List Block} {block : Block}
    (hold : ∀ k (c : Block), blocks[k]? = some c → ∀ y ∈ c, y.1.cycle = k)
    (hnew : ∀ y ∈ block, y.1.cycle = blocks.length) :
    ∀ k (c : Block), (blocks ++ [block])[k]? = some c → ∀ y ∈ c, y.1.cycle = k := by
  intro k c hc y hy
  rcases getElem?_concat_cases hc with ⟨-, hc⟩ | ⟨rfl, rfl⟩
  · exact hold k c hc y hy
  · exact hnew y hy

/-- The delay line with one more block. -/
theorem line_concat {blocks : List Block} {block : Block} {line line' : List LineBeat}
    (hline : line.map LineBeat.visible =
      ((blocks.map shown).reverse ++ List.replicate dropDelay []).take dropDelay)
    (hnew : line'.map LineBeat.visible =
      shown block :: (line.map LineBeat.visible).take (dropDelay - 1)) :
    line'.map LineBeat.visible =
      (((blocks ++ [block]).map shown).reverse ++ List.replicate dropDelay []).take
        dropDelay := by
  rw [hnew, hline, List.take_take, List.map_append, List.reverse_append]
  rfl

/-- A beat has sixteen segments at most. -/
theorem length_rxSegs_le (k : ℕ) (b : RxBeat) : (b.rxSegs k).length ≤ numSeg := by
  unfold RxBeat.rxSegs
  split
  · rw [List.length_map, b.length_eq]
  · exact Nat.zero_le _

/-- **One beat.** -/
theorem Follows.step {rx : List RxBeat} {s : DropStage} {blocks : List Block}
    (h : Follows rx s blocks) {b : RxBeat} (hreg : Regular (rx ++ [b])) :
    ∃ block, Follows (rx ++ [b]) (s.step true b) (blocks ++ [block]) := by
  obtain ⟨htracks, hdropped, block, hnumbered, hline, hblock⟩ := exists_block h.tracks true b
  have hlen : (rx ++ [b]).length = rx.length + 1 := by simp
  have hweight : (framing (rx ++ [b])).weight 8 ≤ (framing rx).weight 8 + numSeg := by
    have hlong := hreg.long
    rw [framing_concat] at hlong ⊢
    exact (weight_run_le _ hlong).trans (Nat.add_le_add_left (length_rxSegs_le _ b) _)
  refine ⟨block, ?_⟩
  exact
    { tracks := htracks
      dropped := hdropped rfl h.dropped
      count := by rw [List.length_append, List.length_singleton, h.count, hlen]
      flat := by rw [hnumbered, h.flat, List.flatten_append, List.flatten_singleton]
      cycles := cycles_concat h.cycles fun y hy => (hblock y hy).1.trans h.count.symm
      recent := by
        intro k c hc y hy
        rw [hlen]
        rcases getElem?_concat_cases hc with ⟨hlt, hold⟩ | ⟨rfl, rfl⟩
        · have hprev := h.recent k c hold y hy
          rw [h.count] at hlt
          have hmore : numSeg * (rx.length + 1 - k) = numSeg * (rx.length - k) + numSeg := by
            rw [Nat.sub_add_comm (by omega), Nat.mul_add, Nat.mul_one]
          omega
        · have hclosed := (hblock y hy).2
          have hone : rx.length + 1 - rx.length = 1 := by omega
          have hstart : (framing rx).weight 8 ≤ 9 * (framing rx).closed.length + 8 := by
            unfold weight
            omega
          rw [h.count, hone, Nat.mul_one]
          omega
      line := line_concat h.line hline }

/-! ### What leaves the delay line -/

/-- The segments of a block whose frames have shown no error. -/
def Block.good (rx : List RxBeat) (block : Block) : List Payload :=
  (block.filter fun y => !errored rx y.2).map fun y => y.1.seg.payload

/-- A tag that leaves the delay line is still that of its frame. -/
theorem Follows.dropSet_eq {rx : List RxBeat} {s : DropStage} {blocks : List Block}
    (h : Follows rx s blocks) {k : ℕ} {block : Block} (hblock : blocks[k]? = some block)
    (hk : rx.length ≤ k + dropDelay) {y : RxSeg × ℕ} (hy : y ∈ block) :
    s.dropSet (tagOf y.2) = errored rx y.2 := by
  have hmem : (y.1, y.2) ∈ (framing rx).numbered := by
    rw [h.flat, List.mem_flatten]
    exact ⟨block, List.mem_of_getElem? hblock, hy⟩
  obtain ⟨f, hf, -⟩ := mem_numbered.mp hmem
  have hrecent := h.recent k block hblock y hy
  have hclosed : 9 * (framing rx).closed.length ≤ (framing rx).weight 8 := by
    unfold weight
    omega
  have hbeats : numSeg * (rx.length - k) ≤ 256 := by
    rw [dropDelay] at hk
    rw [numSeg]
    omega
  have hgroups := (framing rx).length_groups.2
  rw [errored_eq hf]
  exact h.tracks.drop y.2 f hf (by omega)

/-- After fewer beats than the delay line holds, nothing has left it. -/
theorem Follows.kept_early {rx : List RxBeat} {s : DropStage} {blocks : List Block}
    (h : Follows rx s blocks) (hlen : rx.length < dropDelay) : s.kept true = [] := by
  have hout : s.lineOut.visible = [] := by
    have hget : (s.line.map LineBeat.visible)[dropDelay - 1]? = some [] := by
      rw [h.line, List.getElem?_take_of_lt (by decide), List.getElem?_append_right
        (by rw [List.length_reverse, List.length_map, h.count]; omega),
        List.getElem?_replicate_of_lt (by
          rw [List.length_reverse, List.length_map, h.count]
          omega)]
    rw [List.getElem?_map] at hget
    obtain ⟨l, hl, hvisible⟩ := Option.map_eq_some_iff.mp hget
    rw [DropStage.lineOut, List.getD_eq_getElem?_getD, hl, Option.getD_some, hvisible]
  rw [kept_eq, hout]
  rfl

/-- **The output.** The block that leaves the delay line is kept but for the segments of
frames that have shown an error. -/
theorem Follows.kept {rx : List RxBeat} {s : DropStage} {blocks : List Block}
    (h : Follows rx s blocks) {k : ℕ} {block : Block} (hblock : blocks[k]? = some block)
    (hk : rx.length = k + dropDelay) : s.kept true = block.good rx := by
  have hlt := (List.getElem?_eq_some_iff.mp hblock).1
  have hout : s.lineOut.visible = shown block := by
    have hget : (s.line.map LineBeat.visible)[dropDelay - 1]? = some (shown block) := by
      have hidx : (blocks.map shown).length - 1 - (dropDelay - 1) = k := by
        rw [List.length_map, h.count, hk, dropDelay]
        omega
      have hin : dropDelay - 1 < (blocks.map shown).length := by
        rw [List.length_map, h.count, hk, dropDelay]
        omega
      rw [h.line, List.getElem?_take_of_lt (by decide), List.getElem?_append_left
        (by rw [List.length_reverse]; exact hin), List.getElem?_reverse hin, hidx,
        List.getElem?_map, hblock, Option.map_some]
    rw [List.getElem?_map] at hget
    obtain ⟨l, hl, hvisible⟩ := Option.map_eq_some_iff.mp hget
    rw [DropStage.lineOut, List.getD_eq_getElem?_getD, hl, Option.getD_some, hvisible]
  rw [kept_eq, hout, shown, List.filter_map, List.map_map, Block.good]
  congr 1
  apply List.filter_congr
  intro y hy
  rw [Function.comp_apply, Bool.true_and, h.dropSet_eq hblock (by omega) hy]

theorem keptFrom_concat (dropOnError : Bool) (s : DropStage) (rx : List RxBeat) (b : RxBeat) :
    s.keptFrom dropOnError (rx ++ [b]) = s.keptFrom dropOnError rx ++
      ((Runs.run (DropStage.step dropOnError) s rx).step dropOnError b).kept dropOnError := by
  induction rx generalizing s with
  | nil => simp [DropStage.keptFrom]
  | cons c rx ih =>
    rw [List.cons_append, DropStage.keptFrom, ih, DropStage.keptFrom, List.append_assoc]
    rfl

/-- A frame of which a segment has left the delay line shows no error later. -/
theorem errored_concat {rx : List RxBeat} {b : RxBeat} (hreg : Regular (rx ++ [b]))
    {y : RxSeg × ℕ} (hy : y ∈ (framing rx).numbered) (hleft : y.1.cycle + dropDelay ≤ rx.length)
    {block : Block} (hnumbered : (framing (rx ++ [b])).numbered = (framing rx).numbered ++ block)
    (hblock : ∀ z ∈ block, z.1.cycle = rx.length) :
    errored (rx ++ [b]) y.2 = errored rx y.2 := by
  have hnone : (block.any fun z => z.2 == y.2 && z.1.seg.bad) = false := by
    rw [List.any_eq_false]
    intro z hz
    have hne : z.2 ≠ y.2 := by
      intro heq
      have hz' : (z.1, y.2) ∈ (framing (rx ++ [b])).numbered := by
        rw [hnumbered, ← heq]
        exact List.mem_append_right _ hz
      have hy' : (y.1, y.2) ∈ (framing (rx ++ [b])).numbered := by
        rw [hnumbered]
        exact List.mem_append_left _ hy
      have hspan := hreg.span hy' hz'
      rw [hblock z hz] at hspan
      omega
    simp [hne]
  rw [errored, hnumbered, List.any_append, hnone, Bool.or_false, errored]

theorem exists_of_mem_take {blocks : List Block} {n : ℕ} {c : Block} (hc : c ∈ blocks.take n) :
    ∃ k < n, blocks[k]? = some c := by
  obtain ⟨k, hk⟩ := List.mem_iff_getElem?.mp hc
  rw [List.getElem?_take] at hk
  split at hk
  · rename_i hlt
    exact ⟨k, hlt, hk⟩
  · contradiction

/-- The good segments of the blocks that have left the delay line, in order. -/
def goodSoFar (rx : List RxBeat) (blocks : List Block) : List Payload :=
  ((blocks.take (rx.length - (dropDelay - 1))).map (Block.good rx)).flatten

/-- One more beat adds the block that leaves the delay line. -/
theorem Follows.goodSoFar_concat {rx : List RxBeat} {b : RxBeat} {s s' : DropStage}
    {blocks : List Block} {block : Block} (hreg : Regular (rx ++ [b]))
    (h : Follows rx s blocks) (h' : Follows (rx ++ [b]) s' (blocks ++ [block])) :
    goodSoFar (rx ++ [b]) (blocks ++ [block]) = goodSoFar rx blocks ++ s'.kept true := by
  have hlen : (rx ++ [b]).length = rx.length + 1 := by simp
  have hcount := h.count
  have hnumbered : (framing (rx ++ [b])).numbered = (framing rx).numbered ++ block := by
    rw [h'.flat, h.flat, List.flatten_append, List.flatten_singleton]
  have hcycle : ∀ z ∈ block, z.1.cycle = rx.length := by
    intro z hz
    exact h'.cycles rx.length block (by rw [← hcount, List.getElem?_concat_length]) z hz
  have hold : ((blocks.take (rx.length - (dropDelay - 1))).map (Block.good (rx ++ [b]))) =
      (blocks.take (rx.length - (dropDelay - 1))).map (Block.good rx) := by
    apply List.map_congr_left
    intro c hc
    obtain ⟨k, hkt, hkc⟩ := exists_of_mem_take hc
    unfold Block.good
    congr 1
    apply List.filter_congr
    intro y hy
    have hy' : y ∈ (framing rx).numbered := by
      rw [h.flat, List.mem_flatten]
      exact ⟨c, List.mem_of_getElem? hkc, hy⟩
    have hleft : y.1.cycle + dropDelay ≤ rx.length := by
      rw [h.cycles k c hkc y hy]
      rw [dropDelay] at *
      omega
    rw [errored_concat hreg hy' hleft hnumbered hcycle]
  unfold goodSoFar
  by_cases hearly : rx.length + 1 < dropDelay
  · have hzero : rx.length + 1 - (dropDelay - 1) = 0 := by omega
    have hzero' : rx.length - (dropDelay - 1) = 0 := by omega
    rw [h'.kept_early (by omega), hlen, hzero, hzero']
    simp
  · obtain ⟨k, hk⟩ : ∃ k, rx.length + 1 = k + dropDelay := Nat.exists_eq_add_of_le' (by omega)
    have hpos : 0 < dropDelay := by decide
    have hdelay : rx.length + 1 - (dropDelay - 1) = k + 1 := by omega
    have hdelay' : rx.length - (dropDelay - 1) = k := by omega
    have hin : k < (blocks ++ [block]).length := by
      rw [List.length_append, List.length_singleton]
      omega
    have hkept := h'.kept (List.getElem?_eq_getElem hin) (by omega)
    rw [hdelay'] at hold ⊢
    rw [hlen, hdelay, List.take_succ_eq_append_getElem hin, List.map_append, List.flatten_append,
      List.take_append_of_le_length (by omega), hold, hkept]
    simp

/-- What was kept so far. -/
theorem keptFrom_eq {rx : List RxBeat} (hreg : Regular rx) :
    ∃ blocks, Follows rx (Runs.run (DropStage.step true) resetStage rx) blocks ∧
      resetStage.keptFrom true rx = goodSoFar rx blocks := by
  induction rx using List.reverseRecOn with
  | nil => exact ⟨[], follows_reset, rfl⟩
  | append_singleton rx b ih =>
    obtain ⟨blocks, hfollows, hkept⟩ := ih hreg.of_concat
    obtain ⟨block, hnext⟩ := hfollows.step hreg
    refine ⟨blocks ++ [block], by rw [Runs.run_append]; exact hnext, ?_⟩
    rw [keptFrom_concat, hkept, hfollows.goodSoFar_concat hreg hnext]

/-! ### Frames with and without errors -/

/-- The segments of the frames without an error that came in early enough, in order. -/
def goodFrames (rx : List RxBeat) (last : ℕ) : List Payload :=
  (((framing rx).groups.filter fun f => !frameBad f).flatten.filter fun x =>
    x.cycle < last).map fun x => x.seg.payload

/-- The segments of the first cycles are those of the first blocks. -/
theorem Follows.filter_cycle {rx : List RxBeat} {s : DropStage} {blocks : List Block}
    (h : Follows rx s blocks) (n : ℕ) :
    (framing rx).numbered.filter (fun y => y.1.cycle < n) = (blocks.take n).flatten := by
  have hfirst : (blocks.take n).flatten.filter (fun y => y.1.cycle < n) =
      (blocks.take n).flatten := by
    apply List.filter_eq_self.mpr
    intro y hy
    obtain ⟨c, hc, hyc⟩ := List.mem_flatten.mp hy
    obtain ⟨k, hk, hkc⟩ := exists_of_mem_take hc
    simpa [h.cycles k c hkc y hyc] using hk
  have hrest : (blocks.drop n).flatten.filter (fun y => y.1.cycle < n) = [] := by
    apply List.filter_eq_nil_iff.mpr
    intro y hy
    obtain ⟨c, hc, hyc⟩ := List.mem_flatten.mp hy
    obtain ⟨k, hk⟩ := List.mem_iff_getElem?.mp hc
    rw [List.getElem?_drop] at hk
    simp [h.cycles (n + k) c hk y hyc]
  rw [h.flat]
  conv_lhs => rw [← List.take_append_drop n blocks, List.flatten_append, List.filter_append,
    hfirst, hrest, List.append_nil]

/-- The good segments of the blocks are those of the good frames. -/
theorem Follows.goodSoFar_eq {rx : List RxBeat} {s : DropStage} {blocks : List Block}
    (h : Follows rx s blocks) :
    goodSoFar rx blocks = goodFrames rx (rx.length - (dropDelay - 1)) := by
  have hgroups : ((framing rx).groups.filter fun f => !frameBad f).flatten =
      ((framing rx).numbered.filter fun y => !errored rx y.2).map Prod.fst := by
    apply flatten_filter (r := fun j => !errored rx j)
    intro i f hf
    rw [Nat.zero_add, errored_eq hf]
  have hcut := h.filter_cycle (rx.length - (dropDelay - 1))
  rw [goodFrames, hgroups, List.filter_map, List.map_map, List.filter_filter]
  have hswap : (framing rx).numbered.filter (fun y =>
        ((fun x : RxSeg => decide (x.cycle < rx.length - (dropDelay - 1))) ∘ Prod.fst) y &&
          !errored rx y.2) =
      ((framing rx).numbered.filter (fun y =>
        y.1.cycle < rx.length - (dropDelay - 1))).filter fun y => !errored rx y.2 := by
    rw [List.filter_filter]
    apply List.filter_congr
    intro y _
    exact Bool.and_comm _ _
  rw [hswap, hcut, goodSoFar, List.filter_flatten, List.map_flatten, List.map_map]
  rfl

/-! ### The drop stage -/

/-- Cycles in which nothing is valid do not change the frames. -/
theorem framing_idle (rx : List RxBeat) {idle : List RxBeat}
    (hidle : ∀ b ∈ idle, b.valid = false) : framing (rx ++ idle) = framing rx := by
  induction idle using List.reverseRecOn with
  | nil => rw [List.append_nil]
  | append_singleton idle b ih =>
    obtain ⟨hinit, hlast⟩ := List.forall_mem_append.mp hidle
    have hsegs : b.rxSegs (rx ++ idle).length = [] := by
      simp [RxBeat.rxSegs, hlast b (List.mem_singleton_self b)]
    rw [← List.append_assoc, framing_concat, hsegs, Runs.run_nil, ih hinit]

/-- All segments have come in. -/
theorem Follows.goodFrames_eq {rx : List RxBeat} {s : DropStage} {blocks : List Block}
    (h : Follows rx s blocks) {last : ℕ} (hlast : rx.length ≤ last) :
    goodFrames rx last = (((framing rx).groups.filter fun f => !frameBad f).flatten).map
      fun x => x.seg.payload := by
  rw [goodFrames]
  congr 1
  apply List.filter_eq_self.mpr
  intro x hx
  obtain ⟨f, hf, hxf⟩ := List.mem_flatten.mp hx
  obtain ⟨j, hj⟩ := List.mem_iff_getElem?.mp (List.mem_of_mem_filter hf)
  have hmem : (x, j) ∈ (framing rx).numbered := mem_numbered.mpr ⟨f, hj, hxf⟩
  rw [h.flat, List.mem_flatten] at hmem
  obtain ⟨c, hc, hxc⟩ := hmem
  obtain ⟨k, hk⟩ := List.mem_iff_getElem?.mp hc
  have hcycle : x.cycle = k := h.cycles k c hk _ hxc
  have hlt := (List.getElem?_eq_some_iff.mp hk).1
  have hcount := h.count
  exact decide_eq_true (by omega)

/-- **The drop stage is exact.** After any beats with regular frames, the segments kept so far
are those of the frames without an error, as far as they have left the delay line, and the
frames with an error are counted. Once the line has run empty, all of them are kept. -/
theorem dropStage_exact (rx : List RxBeat) (hreg : Regular rx) :
    resetStage.keptFrom true rx = goodFrames rx (rx.length - (dropDelay - 1)) ∧
      (Runs.run (DropStage.step true) resetStage rx).droppedFrames =
        BitVec.ofNat 32 ((framing rx).groups.countP frameBad) ∧
      ∀ idle : List RxBeat, (∀ b ∈ idle, b.valid = false) → idle.length = dropDelay - 1 →
        resetStage.keptFrom true (rx ++ idle) =
          (((framing rx).groups.filter fun f => !frameBad f).flatten).map fun x =>
            x.seg.payload := by
  obtain ⟨blocks, hfollows, hkept⟩ := keptFrom_eq hreg
  refine ⟨hkept.trans hfollows.goodSoFar_eq, hfollows.dropped, fun idle hidle hlen => ?_⟩
  have hframing := framing_idle rx hidle
  have hreg' : Regular (rx ++ idle) := by
    constructor
    · rw [hframing]
      exact hreg.long
    · rw [hframing]
      exact hreg.short
  obtain ⟨blocks', hfollows', hkept'⟩ := keptFrom_eq hreg'
  have hlast : (rx ++ idle).length - (dropDelay - 1) = rx.length := by
    rw [List.length_append, hlen, Nat.add_sub_cancel]
  have hall := hfollows.goodFrames_eq le_rfl
  rw [hkept', hfollows'.goodSoFar_eq, hlast, goodFrames, hframing]
  exact hall

/-- A beat with a frame of eight segments. -/
def shortBeat (fcsError : Bool) : RxBeat where
  valid := true
  segs := List.replicate 7 ⟨5, true, 0, false, 0⟩ ++ ⟨6, true, 2, fcsError, 0⟩ ::
    List.replicate 8 ⟨0, false, 0, false, 0⟩
  length_eq := rfl

/-- One frame without an error and one with an error. -/
theorem dropStage_exact_short :
    resetStage.keptFrom true [shortBeat false, shortBeat true] =
        goodFrames [shortBeat false, shortBeat true] 0 ∧
      (Runs.run (DropStage.step true) resetStage
          [shortBeat false, shortBeat true]).droppedFrames =
        BitVec.ofNat 32 ((framing [shortBeat false, shortBeat true]).groups.countP frameBad) ∧
      ∀ idle : List RxBeat, (∀ b ∈ idle, b.valid = false) → idle.length = dropDelay - 1 →
        resetStage.keptFrom true ([shortBeat false, shortBeat true] ++ idle) =
          (((framing [shortBeat false, shortBeat true]).groups.filter
            fun f => !frameBad f).flatten).map fun x => x.seg.payload :=
  dropStage_exact _ ⟨by decide, by decide⟩

end SecureWan.Eth400g
