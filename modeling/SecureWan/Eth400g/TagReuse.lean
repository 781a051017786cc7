import SecureWan.Eth400g.DropExact

/-!
# How long a tag stays in use

There are 64 tags, and the delay line holds 16 beats of up to eight frames each. A frame gets
the tag of the frame 64 before it, and clears its drop flag; this file says when a segment of
that frame can still be in the delay line.
-/

namespace SecureWan.Eth400g

open Segmentation

namespace TagVars

/-- The tag that the tagging block allocates at a segment, when a frame begins there. -/
def allocates (v : TagVars) (x : Segment) : List Tag :=
  if x.inframe && !v.vOpen then [v.vNext] else []

end TagVars

namespace DropStage

variable (entries : ℕ) (s : DropStage) (b : RxBeat)

/-- The tags that the tagging block allocates at a clock edge. -/
def allocated : List Tag :=
  if b.valid then Runs.trace TagVars.tagSegment TagVars.allocates s.tagVars b.segs else []

/-- The tags of the segments in a frame, in the first entries of the delay line. -/
def carried : List Tag := ((s.line.take entries).flatMap LineBeat.visible).map Prod.snd

/-- No tag is allocated that the first entries of the delay line carry. -/
def NoReuse : Prop := ∀ tag ∈ s.allocated b, tag ∉ s.carried entries

instance : Decidable (s.NoReuse entries b) := inferInstanceAs (Decidable (∀ _ ∈ _, _))

/-- A clock edge with the drop control of that cycle. -/
def edge (e : Bool × RxBeat) : DropStage := s.step e.1 e.2

end DropStage

/-- A frame begins more than some cycles after the last segment of the frame 64 before it. -/
def SpacedBy (entries : ℕ) (rx : List RxBeat) : Prop :=
  ∀ x y : RxSeg, ∀ i, (x, i) ∈ (framing rx).numbered → (y, i + 64) ∈ (framing rx).numbered →
    x.cycle + entries < y.cycle

theorem tagOf_eq_iff {i j : ℕ} : tagOf i = tagOf j ↔ i % 64 = j % 64 := by
  rw [← BitVec.toNat_inj]
  simp [tagOf]

/-! ### Allocation -/

variable {g : Segmentation RxSeg} {v : TagVars}

/-- One segment: a new frame takes the tag of its number. -/
theorem Tracks.allocates (h : Tracks g v) (x : RxSeg) :
    ∃ n ≤ 1, v.allocates x.seg = (List.range' g.groups.length n).map tagOf ∧
      (push RxSeg.inframe g x).groups.length = g.groups.length + n := by
  by_cases hx : x.inframe = true
  · have hlen : (push RxSeg.inframe g x).groups.length = g.closed.length + 1 := by
      rw [groups_push_of_pos hx, List.length_append, List.length_singleton]
    have hseg : x.seg.inframe = true := hx
    rcases g.groups_of_current with ⟨hcur, hgroups⟩ | ⟨hcur, hgroups⟩
    · have hclosed : v.vOpen = false :=
        Bool.eq_false_iff.mpr fun hopen => h.isOpen.mp hopen hcur
      refine ⟨1, le_rfl, ?_, by rw [hlen, hgroups]⟩
      rw [TagVars.allocates, hseg, hclosed, h.next]
      rfl
    · refine ⟨0, Nat.zero_le 1, ?_, by rw [hlen, hgroups]; simp⟩
      rw [TagVars.allocates, h.isOpen.mpr hcur, Bool.not_true, Bool.and_false]
      rfl
  · have hseg : x.seg.inframe = false := Bool.eq_false_iff.mpr hx
    refine ⟨0, Nat.zero_le 1, ?_, by rw [groups_push_of_neg hx, Nat.add_zero]⟩
    rw [TagVars.allocates, hseg, Bool.false_and]
    rfl

/-- The segments of a beat: the new frames take the tags of their numbers, in order. -/
theorem Tracks.trace_allocates (h : Tracks g v) (xs : List RxSeg) :
    ∃ n ≤ xs.length,
      Runs.trace TagVars.tagSegment TagVars.allocates v (xs.map RxSeg.seg) =
        (List.range' g.groups.length n).map tagOf ∧
      (Runs.run (push RxSeg.inframe) g xs).groups.length = g.groups.length + n := by
  induction xs generalizing g v with
  | nil => exact ⟨0, le_rfl, rfl, rfl⟩
  | cons x xs ih =>
    obtain ⟨n, hn, hfirst, hlen⟩ := h.allocates x
    obtain ⟨m, hm, hrest, hlens⟩ := ih (h.tagSegment x).1
    refine ⟨n + m, by rw [List.length_cons]; omega, ?_, ?_⟩
    · rw [List.map_cons, Runs.trace, hfirst, hrest, hlen, ← List.map_append]
      have hrange := List.range'_append_1 (s := g.groups.length) (m := n) (n := m)
      rw [hrange]
    · rw [Runs.run_cons, hlens, hlen, Nat.add_assoc]

/-! ### The beats seen so far -/

/-- The drop stage has seen some beats, with these blocks, whatever their frames are. -/
structure Seen (rx : List RxBeat) (s : DropStage) (blocks : List Block) : Prop where
  tracks : Tracks (framing rx) s.tagVars
  count : blocks.length = rx.length
  flat : (framing rx).numbered = blocks.flatten
  cycles : ∀ k (block : Block), blocks[k]? = some block → ∀ y ∈ block, y.1.cycle = k
  ordered : ∀ y ∈ (framing rx).numbered, ∀ z ∈ (framing rx).numbered, y.2 < z.2 →
    y.1.cycle ≤ z.1.cycle
  line : s.line.map LineBeat.visible =
    ((blocks.map shown).reverse ++ List.replicate dropDelay []).take dropDelay

theorem seen_reset : Seen [] resetStage [] where
  tracks := follows_reset.tracks
  count := rfl
  flat := rfl
  cycles k block hblock := by simp at hblock
  ordered y hy := by simp [framing, stream, start, numbered, groups, numberedFrom] at hy
  line := rfl

/-- Every frame has a segment. -/
theorem exists_segment {rx : List RxBeat} {j : ℕ} (hj : j < (framing rx).groups.length) :
    ∃ x, (x, j) ∈ (framing rx).numbered := by
  have hne : (framing rx).groups[j] ≠ [] :=
    ne_nil_of_mem_groups_run (by simp [start, groups]) (stream rx) _ (List.getElem_mem hj)
  obtain ⟨x, hx⟩ := List.exists_mem_of_ne_nil _ hne
  exact ⟨x, mem_numbered.mpr ⟨_, List.getElem?_eq_getElem hj, hx⟩⟩

/-- What the newest blocks hold, with the newest one in front. -/
theorem mem_flatten_recent {α : Type*} {blocks : List (List α)} {x : α} (pad entries : ℕ) :
    x ∈ ((blocks.reverse ++ List.replicate pad []).take entries).flatten ↔
      ∃ k block, blocks[k]? = some block ∧ blocks.length ≤ k + entries ∧ x ∈ block := by
  have hpad : ((List.replicate pad ([] : List α)).take
      (entries - blocks.reverse.length)).flatten = [] := by simp [List.take_replicate]
  rw [List.take_append, List.flatten_append, hpad, List.append_nil, List.mem_flatten]
  constructor
  · rintro ⟨block, hblock, hx⟩
    obtain ⟨q, hq⟩ := List.mem_iff_getElem?.mp hblock
    obtain ⟨hlt, -⟩ := List.getElem?_eq_some_iff.mp hq
    rw [List.length_take, List.length_reverse] at hlt
    rw [List.getElem?_take_of_lt (by omega), List.getElem?_reverse (by omega)] at hq
    exact ⟨_, block, hq, by omega, hx⟩
  · rintro ⟨k, block, hblock, hrecent, hx⟩
    obtain ⟨hk, -⟩ := List.getElem?_eq_some_iff.mp hblock
    have hidx : blocks.length - 1 - (blocks.length - 1 - k) = k := by omega
    refine ⟨block, List.mem_iff_getElem?.mpr ⟨blocks.length - 1 - k, ?_⟩, hx⟩
    rw [List.getElem?_take_of_lt (by omega), List.getElem?_reverse (by omega), hidx, hblock]

namespace Seen

variable {rx : List RxBeat} {s : DropStage} {blocks : List Block}

/-- A segment is in the block of its cycle. -/
theorem exists_block (h : Seen rx s blocks) {y : RxSeg × ℕ} (hy : y ∈ (framing rx).numbered) :
    ∃ block, blocks[y.1.cycle]? = some block ∧ y ∈ block := by
  rw [h.flat] at hy
  obtain ⟨block, hblock, hmem⟩ := List.mem_flatten.mp hy
  obtain ⟨k, hk⟩ := List.mem_iff_getElem?.mp hblock
  rw [h.cycles k block hk y hmem]
  exact ⟨block, hk, hmem⟩

theorem cycle_lt (h : Seen rx s blocks) {y : RxSeg × ℕ} (hy : y ∈ (framing rx).numbered) :
    y.1.cycle < rx.length := by
  obtain ⟨block, hblock, -⟩ := h.exists_block hy
  rw [← h.count]
  exact (List.getElem?_eq_some_iff.mp hblock).1

/-- **One beat.** -/
theorem step (h : Seen rx s blocks) (dropOnError : Bool) (b : RxBeat) :
    ∃ block, Seen (rx ++ [b]) (s.step dropOnError b) (blocks ++ [block]) ∧
      (framing (rx ++ [b])).numbered = (framing rx).numbered ++ block ∧
      ∀ y ∈ block, y.1.cycle = rx.length ∧ (framing rx).closed.length ≤ y.2 := by
  obtain ⟨htracks, -, block, hnumbered, hline, hblock⟩ :=
    Eth400g.exists_block h.tracks dropOnError b
  refine ⟨block, ?_, hnumbered, hblock⟩
  exact
    { tracks := htracks
      count := by
        rw [List.length_append, List.length_singleton, h.count, List.length_append,
          List.length_singleton]
      flat := by rw [hnumbered, h.flat, List.flatten_append, List.flatten_singleton]
      cycles := cycles_concat h.cycles fun y hy => (hblock y hy).1.trans h.count.symm
      ordered := by
        intro y hy z hz hlt
        rw [hnumbered, List.mem_append] at hy hz
        rcases hy with hy | hy <;> rcases hz with hz | hz
        · exact h.ordered y hy z hz hlt
        · rw [(hblock z hz).1]
          exact (h.cycle_lt hy).le
        · -- a frame that was there before has no later number than a segment of the beat
          have hle := (hblock y hy).2
          have hold := lt_of_mem_numbered hz
          have hgroups := (framing rx).length_groups.2
          omega
        · rw [(hblock y hy).1, (hblock z hz).1]
      line := line_concat h.line hline }

/-- The frames that begin in a beat take the tags of their numbers. -/
theorem exists_allocated (h : Seen rx s blocks) (b : RxBeat) :
    ∃ n ≤ numSeg, s.allocated b = (List.range' (framing rx).groups.length n).map tagOf ∧
      (framing (rx ++ [b])).groups.length = (framing rx).groups.length + n := by
  obtain ⟨n, hn, htrace, hlen⟩ := h.tracks.trace_allocates (b.rxSegs rx.length)
  refine ⟨n, hn.trans (length_rxSegs_le _ b), ?_, by rw [framing_concat, hlen]⟩
  rw [← htrace, DropStage.allocated, RxBeat.rxSegs]
  cases b.valid with
  | false => rfl
  | true => simp [List.map_map, Function.comp_def]

/-- What the first entries of the delay line carry. -/
theorem mem_carried (h : Seen rx s blocks) {entries : ℕ} (hentries : entries ≤ dropDelay)
    {tag : Tag} :
    tag ∈ s.carried entries ↔
      ∃ y ∈ (framing rx).numbered, rx.length ≤ y.1.cycle + entries ∧ tag = tagOf y.2 := by
  have hline : (s.line.take entries).flatMap LineBeat.visible =
      (((blocks.map shown).reverse ++ List.replicate dropDelay []).take entries).flatten := by
    rw [List.flatMap_def, List.map_take, h.line, List.take_take, Nat.min_eq_left hentries]
  rw [DropStage.carried, hline, List.mem_map]
  simp only [mem_flatten_recent, List.length_map, List.getElem?_map, h.count]
  constructor
  · rintro ⟨p, ⟨k, shownBlock, hk, hrecent, hp⟩, rfl⟩
    obtain ⟨block, hblock, rfl⟩ := Option.map_eq_some_iff.mp hk
    obtain ⟨y, hy, rfl⟩ := List.mem_map.mp hp
    refine ⟨y, ?_, ?_, rfl⟩
    · rw [h.flat, List.mem_flatten]
      exact ⟨block, List.mem_of_getElem? hblock, hy⟩
    · rw [h.cycles k block hblock y hy]
      exact hrecent
  · rintro ⟨y, hy, hrecent, rfl⟩
    obtain ⟨block, hblock, hmem⟩ := h.exists_block hy
    exact ⟨_, ⟨y.1.cycle, shown block, by rw [hblock]; rfl, hrecent,
      List.mem_map.mpr ⟨y, hmem, rfl⟩⟩, rfl⟩

/-- **One clock edge.** A tag in use is allocated exactly when a frame begins too early. -/
theorem noReuse_iff (h : Seen rx s blocks) {entries : ℕ} (hentries : entries ≤ dropDelay)
    (b : RxBeat) :
    s.NoReuse entries b ↔
      ∀ j, (framing rx).groups.length ≤ j → j < (framing (rx ++ [b])).groups.length →
        ∀ y ∈ (framing rx).numbered, rx.length ≤ y.1.cycle + entries → tagOf j ≠ tagOf y.2 := by
  obtain ⟨n, -, hallocated, hlen⟩ := h.exists_allocated b
  constructor
  · intro hfree j hle hlt y hy hrecent heq
    have hmem : tagOf j ∈ s.allocated b := by
      rw [hallocated]
      exact List.mem_map_of_mem (List.mem_range'_1.mpr ⟨hle, by omega⟩)
    exact hfree _ hmem ((h.mem_carried hentries).mpr ⟨y, hy, hrecent, heq⟩)
  · intro hfree tag htag hcarried
    rw [hallocated] at htag
    obtain ⟨j, hj, rfl⟩ := List.mem_map.mp htag
    obtain ⟨hle, hlt⟩ := List.mem_range'_1.mp hj
    obtain ⟨y, hy, hrecent, heq⟩ := (h.mem_carried hentries).mp hcarried
    exact hfree j hle (by omega) y hy hrecent heq

/-- Frames that stay apart with one more beat take no tag in use. -/
theorem noReuse_of_spacedBy (h : Seen rx s blocks) {entries : ℕ} (hentries : entries ≤ dropDelay)
    (b : RxBeat) (hspaced : SpacedBy entries (rx ++ [b])) : s.NoReuse entries b := by
  obtain ⟨block, -, hnumbered, hblock⟩ := h.step true b
  obtain ⟨n, hn, -, hlen⟩ := h.exists_allocated b
  have hsixteen : numSeg = 16 := rfl
  have hseen {y : RxSeg × ℕ} (hy : y ∈ (framing rx).numbered) :
      y ∈ (framing (rx ++ [b])).numbered := by
    rw [hnumbered]
    exact List.mem_append_left _ hy
  rw [h.noReuse_iff hentries]
  intro j hle hlt y hy hrecent heq
  -- a frame with that tag is the one 64 before, or an older one
  have hmod := tagOf_eq_iff.mp heq
  have hy2 := lt_of_mem_numbered hy
  obtain ⟨i, rfl⟩ : ∃ i, j = i + 64 := Nat.exists_eq_add_of_le' (by omega)
  obtain ⟨z, hz⟩ := exists_segment hlt
  have hzcycle : z.cycle = rx.length := by
    rw [hnumbered, List.mem_append] at hz
    rcases hz with hz | hz
    · have hearly := lt_of_mem_numbered hz
      dsimp only at hearly
      omega
    · exact (hblock _ hz).1
  have hsegment : ∃ x, (x, i) ∈ (framing rx).numbered := exists_segment (by omega)
  obtain ⟨x, hx⟩ := hsegment
  have hapart := hspaced x z i (hseen hx) hz
  rcases Nat.lt_or_ge y.2 i with hbefore | hsame
  · have horder := h.ordered y hy (x, i) hx hbefore
    dsimp only at horder
    omega
  · have hyi : y.2 = i := by omega
    have hthis := hspaced y.1 z i (hyi ▸ hseen hy) hz
    omega

/-- Frames that are apart and take no tag in use with one more beat stay apart. -/
theorem spacedBy_of_noReuse (h : Seen rx s blocks) {entries : ℕ} (hentries : entries ≤ dropDelay)
    (b : RxBeat) (hold : SpacedBy entries rx) (hfree : s.NoReuse entries b) :
    SpacedBy entries (rx ++ [b]) := by
  obtain ⟨block, -, hnumbered, hblock⟩ := h.step true b
  obtain ⟨n, hn, -, hlen⟩ := h.exists_allocated b
  have hgroups := (framing rx).length_groups.2
  have hsixteen : numSeg = 16 := rfl
  rw [h.noReuse_iff hentries] at hfree
  intro x z i hx hz
  have hlast := lt_of_mem_numbered hz
  dsimp only at hlast
  rw [hnumbered, List.mem_append] at hx hz
  rcases hx with hx | hx
  · rcases hz with hz | hz
    · exact hold x z i hx hz
    · have hzcycle : z.cycle = rx.length := (hblock _ hz).1
      rcases Nat.lt_or_ge (i + 64) (framing rx).groups.length with hopen | hnew
      · -- the frame goes on: it began before this beat
        obtain ⟨w, hw⟩ := exists_segment hopen
        have hapart := hold x w i hx hw
        have hearly := h.cycle_lt hw
        dsimp only at hearly
        omega
      · by_contra hnot
        exact hfree (i + 64) hnew hlast (x, i) hx (by dsimp only; omega)
          (tagOf_eq_iff.mpr (by omega))
  · have hxnumber := (hblock _ hx).2
    dsimp only at hxnumber
    omega

/-- **One more beat** keeps frames apart exactly when no tag in use is allocated. -/
theorem spacedBy_concat (h : Seen rx s blocks) {entries : ℕ} (hentries : entries ≤ dropDelay)
    (b : RxBeat) :
    SpacedBy entries (rx ++ [b]) ↔ SpacedBy entries rx ∧ s.NoReuse entries b := by
  obtain ⟨block, -, hnumbered, -⟩ := h.step true b
  constructor
  · intro hspaced
    refine ⟨fun x y i hx hy => hspaced x y i ?_ ?_, h.noReuse_of_spacedBy hentries b hspaced⟩
    · rw [hnumbered]
      exact List.mem_append_left _ hx
    · rw [hnumbered]
      exact List.mem_append_left _ hy
  · rintro ⟨hold, hfree⟩
    exact h.spacedBy_of_noReuse hentries b hold hfree

end Seen

/-! ### Runs -/

/-- The beats seen after a run. -/
theorem exists_seen (es : List (Bool × RxBeat)) :
    ∃ blocks, Seen (es.map Prod.snd) (Runs.run DropStage.edge resetStage es) blocks := by
  induction es using List.reverseRecOn with
  | nil => exact ⟨[], seen_reset⟩
  | append_singleton es e ih =>
    obtain ⟨blocks, hseen⟩ := ih
    obtain ⟨block, hnext, -⟩ := hseen.step e.1 e.2
    refine ⟨blocks ++ [block], ?_⟩
    rw [Runs.run_append, List.map_append]
    exact hnext

/-- No run allocates a tag in use exactly when its frames are far enough apart. -/
theorem stepsMeet_noReuse_iff {entries : ℕ} (hentries : entries ≤ dropDelay)
    (es : List (Bool × RxBeat)) :
    Runs.StepsMeet DropStage.edge (fun s e => s.NoReuse entries e.2) resetStage es ↔
      SpacedBy entries (es.map Prod.snd) := by
  induction es using List.reverseRecOn with
  | nil =>
    refine iff_of_true trivial fun x y i hx => ?_
    simp [framing, stream, start, numbered, groups, numberedFrom] at hx
  | append_singleton es e ih =>
    obtain ⟨blocks, hseen⟩ := exists_seen es
    rw [Runs.stepsMeet_concat, ih, List.map_append, List.map_singleton,
      hseen.spacedBy_concat hentries]

/-- **Tags in use.** From reset on, whatever is received and whether or not drops are on, no
clock edge allocates a tag that a segment in the delay line carries exactly when each frame
begins more than 16 cycles after the last segment of the frame 64 before it; and with 15
cycles, for the segments that stay in the delay line at that edge. -/
theorem noReuse_iff_spacedBy (es : List (Bool × RxBeat)) :
    (Runs.StepsMeet DropStage.edge (fun s e => s.NoReuse dropDelay e.2) resetStage es ↔
        SpacedBy dropDelay (es.map Prod.snd)) ∧
      (Runs.StepsMeet DropStage.edge (fun s e => s.NoReuse (dropDelay - 1) e.2) resetStage es ↔
        SpacedBy (dropDelay - 1) (es.map Prod.snd)) :=
  ⟨stepsMeet_noReuse_iff le_rfl es, stepsMeet_noReuse_iff (Nat.sub_le _ _) es⟩

/-- A beat with eight frames of one segment each. -/
def runtBeat : RxBeat where
  valid := true
  segs := (List.replicate 8
    [⟨5, true, 0, false, 0⟩, ⟨0, false, 0, false, 0⟩]).flatten
  length_eq := rfl

/-- The ninth such beat begins with the tag of the very first frame, eight cycles after it. -/
theorem not_noReuse_runtBeat :
    ¬ Runs.StepsMeet DropStage.edge (fun s e => s.NoReuse dropDelay e.2) resetStage
        (List.replicate 9 (true, runtBeat)) ∧
      ¬ Runs.StepsMeet DropStage.edge (fun s e => s.NoReuse (dropDelay - 1) e.2) resetStage
        (List.replicate 9 (true, runtBeat)) := by
  decide +kernel

end SecureWan.Eth400g
