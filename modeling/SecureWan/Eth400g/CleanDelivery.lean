import SecureWan.Eth400g.DropExact
import SecureWan.Eth400g.Overflow

/-!
# From the drop stage to TX

With `i_drop_on_error` at 1, the beats that the drop stage offers to the FIFO carry the segments
of the frames without an error, in order. Each of these beats is lost when it finds the FIFO
full, or driven. Once RX is quiet, the delay line runs empty, and the ready cycles of TX move
what is left in the FIFO and in its read register: afterwards the counters balance.
-/

namespace SecureWan.Eth400g

/-- The segments of the frames without an error, in order. -/
def cleanSegments (rx : List RxBeat) : List Payload :=
  (((framing rx).groups.filter fun f => !frameBad f).flatten).map fun x => x.seg.payload

/-- No beat is valid on RX. -/
def QuietRx (is : List Inputs) : Prop := ∀ i ∈ is, i.rx.valid = false

theorem QuietRx.invalid {js : List Inputs} (h : QuietRx js) :
    ∀ b ∈ js.map Inputs.rx, b.valid = false := by
  intro b hb
  obtain ⟨j, hj, rfl⟩ := List.mem_map.mp hb
  exact h j hj

theorem Regular.idle {rx idle : List RxBeat} (h : Regular rx)
    (hidle : ∀ b ∈ idle, b.valid = false) : Regular (rx ++ idle) := by
  have hframing := framing_idle rx hidle
  constructor
  · rw [hframing]
    exact h.long
  · rw [hframing]
    exact h.short

namespace Loopback

variable {n readyLatency : ℕ} {s : Loopback n} {i : Inputs} {q : List TxBeat}

/-! ### What the FIFO is offered -/

/-- A beat that is offered carries the segments that are kept. -/
theorem symbols_arrived (hdrop : i.dropOnError = true) :
    symbols (s.arrived i).reduceOption = (s.drop.kept true).map some := by
  have hplaces : (s.wrEntry i).places.filter Option.isSome =
      ((s.drop.lineOut.segs.filter (s.drop.keep true)).map LineSeg.payload).map some := by
    have hwords : (s.wrEntry i).places = s.drop.lineOut.segs.map fun x =>
        if s.drop.keep true x then some x.payload else none := by
      apply List.ext_getElem
      · simp [wrEntry, TxBeat.places]
      · intro t ht ht'
        simp [wrEntry, TxBeat.places, TxSeg.place, hdrop]
    rw [hwords]
    induction s.drop.lineOut.segs with
    | nil => rfl
    | cons x segs ih =>
      by_cases hx : s.drop.keep true x = true
      · simp [hx, ih]
      · simp [hx, ih]
  unfold arrived DropStage.kept
  cases s.drop.lineOut.valid with
  | false => rfl
  | true =>
    rw [if_pos rfl, if_pos rfl, ← hplaces]
    by_cases hin : TxBeat.inframe (s.wrEntry i) = true
    · rw [if_pos hin, symbols, List.reduceOption_cons_of_some, List.reduceOption_nil,
        List.map_singleton, List.flatten_singleton]
    · rw [if_neg hin, places_of_not_inframe hin, List.reduceOption_cons_of_none,
        List.reduceOption_nil]
      simp [symbols]

/-- The drop stage of the loopback is the drop stage on RX alone. -/
theorem drop_run (readyLatency : ℕ) (s : Loopback n) {is : List Inputs}
    (hdrop : ∀ i ∈ is, i.dropOnError = true) :
    (Runs.run (step readyLatency) s is).drop =
      Runs.run (DropStage.step true) s.drop (is.map Inputs.rx) := by
  induction is generalizing s with
  | nil => rfl
  | cons i is ih =>
    obtain ⟨hi, his⟩ := List.forall_mem_cons.mp hdrop
    rw [Runs.run_cons, ih _ his, List.map_cons, Runs.run_cons]
    congr 1
    change s.drop.step i.dropOnError i.rx = _
    rw [hi]

/-- **The offers of a run.** They carry what was kept before its last clock edge. -/
theorem symbols_arrivedIn (readyLatency : ℕ) (s : Loopback n) {is : List Inputs}
    (hdrop : ∀ i ∈ is, i.dropOnError = true) :
    symbols (arrivedIn readyLatency s is).reduceOption ++
        ((Runs.run (step readyLatency) s is).drop.kept true).map some =
      (s.drop.kept true ++ s.drop.keptFrom true (is.map Inputs.rx)).map some := by
  induction is generalizing s with
  | nil => simp [arrivedIn, Runs.trace, symbols, DropStage.keptFrom]
  | cons i is ih =>
    obtain ⟨hi, his⟩ := List.forall_mem_cons.mp hdrop
    have hnext : (s.step readyLatency i).drop = s.drop.step true i.rx := by
      change s.drop.step i.dropOnError i.rx = _
      rw [hi]
    have hrest := ih (s.step readyLatency i) his
    rw [hnext] at hrest
    unfold arrivedIn at *
    rw [Runs.trace, reduceOption_append, symbols_append, symbols_arrived hi, Runs.run_cons,
      List.append_assoc, hrest, List.map_cons, DropStage.keptFrom, ← List.map_append]

/-! ### The ready cycles -/

/-- The enables that the shift register of TX still has in it. -/
def enablesDue (readyLatency : ℕ) (s : Loopback n) : ℕ :=
  (List.range (readyLatency - 1)).countP fun j => s.tx.rdyPipe.getLsbD j

/-- The enabled cycles of a run. -/
def enablesIn (readyLatency : ℕ) (s : Loopback n) : List Inputs → List Bool :=
  Runs.trace (step readyLatency) (fun s i => if s.txEn readyLatency i then [true] else []) s

theorem rdyPipe_txSide :
    (s.txSide readyLatency i).rdyPipe = s.tx.rdyPipe.shiftConcat i.txReady := by
  unfold txSide
  split <;> rfl

/-- A ready cycle enables TX, once it is through the shift register. -/
theorem enablesDue_step (hpos : 1 ≤ readyLatency) (hmax : readyLatency ≤ 8) :
    (s.txEn readyLatency i).toNat + enablesDue readyLatency (s.step readyLatency i) =
      enablesDue readyLatency s + i.txReady.toNat := by
  obtain rfl | hlt := hpos.eq_or_lt
  · simp [enablesDue, txEn]
  · obtain ⟨k, rfl⟩ : ∃ k, readyLatency = k + 2 := ⟨readyLatency - 2, by omega⟩
    have hen : s.txEn (k + 2) i = s.tx.rdyPipe.getLsbD k := by
      rw [txEn, if_pos (by omega), Nat.add_sub_cancel]
    have hbit : ∀ j < k, (s.tx.rdyPipe.shiftConcat i.txReady).getLsbD (j + 1) =
        s.tx.rdyPipe.getLsbD j := by
      intro j hj
      rw [BitVec.getLsbD_shiftConcat, decide_eq_true (by omega : j + 1 < 8), Bool.true_and,
        if_neg (Nat.succ_ne_zero j), Nat.add_sub_cancel]
    have hfirst : (s.tx.rdyPipe.shiftConcat i.txReady).getLsbD 0 = i.txReady := by
      rw [BitVec.getLsbD_shiftConcat, if_pos rfl]
      rfl
    have hbefore : enablesDue (k + 2) s =
        (List.range k).countP (fun j => s.tx.rdyPipe.getLsbD j) +
          (s.tx.rdyPipe.getLsbD k).toNat := by
      rw [enablesDue, show k + 2 - 1 = k + 1 by omega, List.range_succ, List.countP_append]
      cases hbitk : s.tx.rdyPipe.getLsbD k <;> simp [hbitk]
    have hafter : enablesDue (k + 2) (s.step (k + 2) i) =
        i.txReady.toNat + (List.range k).countP fun j => s.tx.rdyPipe.getLsbD j := by
      have hpipe : (s.step (k + 2) i).tx.rdyPipe = s.tx.rdyPipe.shiftConcat i.txReady :=
        rdyPipe_txSide
      have hrest : (List.range k).countP (fun j =>
            (s.tx.rdyPipe.shiftConcat i.txReady).getLsbD (j + 1)) =
          (List.range k).countP fun j => s.tx.rdyPipe.getLsbD j := by
        apply List.countP_congr
        intro j hj
        rw [hbit j (List.mem_range.mp hj)]
      rw [enablesDue, hpipe, show k + 2 - 1 = k + 1 by omega, List.range_succ_eq_map,
        List.countP_cons, List.countP_map, hfirst, Nat.add_comm]
      change (if i.txReady then 1 else 0) + (List.range k).countP (fun j =>
        (s.tx.rdyPipe.shiftConcat i.txReady).getLsbD (j + 1)) = _
      rw [hrest]
      cases i.txReady <;> rfl
    rw [hbefore, hafter, hen]
    omega

/-- **The ready cycles of a run.** All but the last ones enable TX within it. -/
theorem enablesDue_run (hpos : 1 ≤ readyLatency) (hmax : readyLatency ≤ 8) (s : Loopback n)
    (is : List Inputs) :
    (enablesIn readyLatency s is).length +
        enablesDue readyLatency (Runs.run (step readyLatency) s is) =
      enablesDue readyLatency s + is.countP Inputs.txReady := by
  unfold enablesIn
  induction is generalizing s with
  | nil => rw [Runs.trace, List.length_nil, Runs.run_nil, List.countP_nil, Nat.zero_add,
      Nat.add_zero]
  | cons i is ih =>
    have hstep := enablesDue_step (s := s) (i := i) hpos hmax
    have hrest := ih (s.step readyLatency i)
    rw [Runs.trace, Runs.run_cons, List.length_append, List.countP_cons]
    cases hen : s.txEn readyLatency i <;> cases hready : i.txReady <;>
      simp only [hen, hready, Bool.toNat_true, Bool.toNat_false, if_pos, List.length_nil,
        List.length_singleton, Bool.false_eq_true, if_false] at hstep ⊢ <;> omega

theorem enablesDue_le (readyLatency : ℕ) (s : Loopback n) :
    enablesDue readyLatency s ≤ readyLatency - 1 := by
  rw [enablesDue]
  exact List.countP_le_length.trans_eq List.length_range

/-! ### The FIFO runs empty -/

/-- The enabled cycles that it takes to drive all that is in flight. -/
def left (s : Loopback n) (q : List TxBeat) : ℕ :=
  if q = [] then s.tx.rdVldD.toNat else q.length + 1

/-- **A cycle without an offer.** An enabled one brings the end closer. -/
theorem Queues.step_left (h : s.Queues q) (readyLatency : ℕ) (hwritten : s.written i = []) :
    ∃ q', (s.step readyLatency i).Queues q' ∧
      (s.step readyLatency i).left q' ≤ s.left q - (s.txEn readyLatency i).toNat := by
  by_cases hen : s.txEn readyLatency i = true
  · rw [hen, Bool.toNat_true]
    have hread : (s.step readyLatency i).tx.rdVldD = !s.empty := (txSide_of_en hen).2.1
    cases q with
    | nil =>
      obtain ⟨hnext, -⟩ := h.step_idle hen
      rw [hwritten] at hnext
      refine ⟨[], hnext, ?_⟩
      rw [left, if_pos rfl, hread, h.empty_iff.mpr rfl]
      exact Nat.zero_le _
    | cons e q =>
      obtain ⟨hnext, -⟩ := h.step_read hen
      rw [hwritten, List.append_nil] at hnext
      refine ⟨q, hnext, ?_⟩
      have hnow : s.left (e :: q) = q.length + 2 := if_neg (List.cons_ne_nil e q)
      rw [hnow, left]
      split
      · exact (Bool.toNat_le _).trans (by omega)
      · omega
  · obtain ⟨hnext, -⟩ := h.step_frozen hen
    rw [hwritten, List.append_nil] at hnext
    have hread : (s.step readyLatency i).tx.rdVldD = s.tx.rdVldD := (txSide_of_not_en hen).2.1
    rw [Bool.eq_false_of_not_eq_true hen, Bool.toNat_false, Nat.sub_zero]
    refine ⟨q, hnext, ?_⟩
    rw [left, left, hread]

/-- The FIFO and its read register need one cycle for each entry and one more. -/
theorem Queues.left_le (h : s.Queues q) : s.left q ≤ 2 ^ n + 1 := by
  have hle := h.holds.length_le
  have hread := Bool.toNat_le s.tx.rdVldD
  rw [left]
  split <;> omega

/-- Nothing is left in flight. -/
theorem Queues.inFlight_of_left (h : s.Queues q) (hleft : s.left q = 0) : s.inFlight = [] := by
  rw [left] at hleft
  split at hleft
  next hnil =>
    rw [h.inFlight_eq, hnil]
    cases hread : s.tx.rdVldD with
    | false => rfl
    | true => rw [hread] at hleft; cases hleft
  next => exact absurd hleft (Nat.succ_ne_zero _)

/-- Every entry of the delay line that has come in since a cycle is without a valid beat. -/
theorem invalid_take_run (readyLatency : ℕ) (s : Loopback n) {js : List Inputs}
    (hquiet : QuietRx js) {k : ℕ} (hline : ∀ l ∈ s.drop.line.take k, l.valid = false) :
    ∀ l ∈ (Runs.run (step readyLatency) s js).drop.line.take (k + js.length),
      l.valid = false := by
  induction js generalizing s k with
  | nil => exact hline
  | cons j js ih =>
    obtain ⟨hj, hjs⟩ := List.forall_mem_cons.mp hquiet
    rw [Runs.run_cons, List.length_cons, Nat.add_comm js.length 1, ← Nat.add_assoc]
    refine ih _ hjs fun l hl => ?_
    have htag : s.drop.tagBeat j.dropOnError j.rx = s.drop := by
      rw [DropStage.tagBeat, hj]
      rfl
    change l ∈ ((s.drop.tagBeat j.dropOnError j.rx).shiftLine j.rx).line.take (k + 1) at hl
    rw [htag, DropStage.shiftLine, List.take_succ_cons] at hl
    rcases List.mem_cons.mp hl with rfl | hold
    · exact hj
    · rw [List.take_take] at hold
      exact hline l (List.take_subset_take_left _ (Nat.min_le_left _ _) hold)

/-- With no valid entry in the delay line, nothing leaves it. -/
theorem lineOut_of_invalid {k : ℕ} (hk : dropDelay ≤ k)
    (hline : ∀ l ∈ s.drop.line.take k, l.valid = false) : s.drop.lineOut.valid = false := by
  rw [DropStage.lineOut, List.getD_eq_getElem?_getD]
  cases hout : s.drop.line[dropDelay - 1]? with
  | none => rfl
  | some l =>
    apply hline
    rw [List.mem_iff_getElem?]
    refine ⟨dropDelay - 1, ?_⟩
    rw [List.getElem?_take_of_lt (lt_of_lt_of_le (by decide) hk), hout]
    rfl

/-- **Quiet cycles.** The enabled ones take what is left. -/
theorem Queues.run_left (h : s.Queues q) (readyLatency : ℕ) {js : List Inputs}
    (hquiet : QuietRx js) {k : ℕ} (hk : dropDelay ≤ k)
    (hline : ∀ l ∈ s.drop.line.take k, l.valid = false) :
    ∃ q', (Runs.run (Loopback.step readyLatency) s js).Queues q' ∧
      (Runs.run (Loopback.step readyLatency) s js).left q' ≤
        s.left q - (enablesIn readyLatency s js).length := by
  unfold enablesIn
  induction js generalizing s q k with
  | nil => exact ⟨q, h, Nat.le_refl _⟩
  | cons j js ih =>
    obtain ⟨hj, hjs⟩ := List.forall_mem_cons.mp hquiet
    have hwritten : s.written j = [] := by
      rw [written, offered, lineOut_of_invalid hk hline]
      rfl
    obtain ⟨q₁, h₁, hleft₁⟩ := h.step_left readyLatency hwritten
    have hline₁ : ∀ l ∈ (s.step readyLatency j).drop.line.take (k + 1), l.valid = false :=
      invalid_take_run readyLatency s (List.forall_mem_singleton.mpr hj) hline
    obtain ⟨q₂, h₂, hleft₂⟩ := ih h₁ hjs (Nat.le_succ_of_le hk) hline₁
    refine ⟨q₂, h₂, hleft₂.trans ?_⟩
    rw [Runs.trace, List.length_append]
    cases hen : s.txEn readyLatency j <;> rw [hen] at hleft₁ <;>
      simp only [Bool.toNat_true, Bool.toNat_false, Bool.false_eq_true, if_false, if_pos,
        List.length_nil, List.length_singleton] at hleft₁ ⊢ <;> omega

/-! ### The counters -/

/-- Each beat that is driven is counted. -/
theorem Queues.txBeats (h : s.Queues q) :
    (s.step readyLatency i).tx.txBeats =
      s.tx.txBeats + BitVec.ofNat 32 (s.driven readyLatency i).length := by
  change (s.txSide readyLatency i).txBeats = _
  by_cases hen : s.txEn readyLatency i = true
  · rw [h.driven_of_en hen, txSide, if_pos hen]
    cases s.tx.rdVldD <;> simp
  · rw [driven_of_not_en hen, txSide, if_neg hen]
    simp

theorem txBeats_run (readyLatency : ℕ) (mem : BitVec n → TxBeat) (memQ : TxBeat)
    (is : List Inputs) :
    (Runs.run (step readyLatency) (reset mem memQ) is).tx.txBeats =
      BitVec.ofNat 32 (drivenIn readyLatency (reset mem memQ) is).length := by
  induction is using List.reverseRecOn with
  | nil => rfl
  | append_singleton is i ih =>
    obtain ⟨⟨q, hq⟩, -⟩ := run_spec readyLatency mem memQ is
    unfold drivenIn at *
    rw [Runs.run_append, Runs.run_cons, Runs.run_nil, hq.txBeats, ih, Runs.trace_concat,
      List.length_append, BitVec.ofNat_add]

/-! ### From reset on -/

/-- What the drop stage has offered once the delay line is empty: the frames without an
error. -/
theorem symbols_arrivedIn_quiet (readyLatency : ℕ) (mem : BitVec n → TxBeat) (memQ : TxBeat)
    {is js : List Inputs} (hdrop : ∀ i ∈ is ++ js, i.dropOnError = true)
    (hreg : Regular (is.map Inputs.rx)) (hquiet : QuietRx js) (hlong : dropDelay ≤ js.length) :
    symbols (arrivedIn readyLatency (reset mem memQ) (is ++ js)).reduceOption =
      (cleanSegments (is.map Inputs.rx)).map some := by
  obtain ⟨blocks, hfollows, -⟩ := keptFrom_eq hreg
  obtain ⟨blocks', hfollows', hkept⟩ := keptFrom_eq (hreg.idle hquiet.invalid)
  have hclean : goodFrames (is.map Inputs.rx ++ js.map Inputs.rx)
      ((is.map Inputs.rx ++ js.map Inputs.rx).length - (dropDelay - 1)) =
        cleanSegments (is.map Inputs.rx) := by
    rw [goodFrames, framing_idle _ hquiet.invalid]
    apply hfollows.goodFrames_eq
    rw [List.length_append, List.length_map, List.length_map]
    omega
  have hstart : (reset mem memQ).drop.kept true = [] := rfl
  have hend : (Runs.run (step readyLatency) (reset mem memQ) (is ++ js)).drop.kept true = [] := by
    have hline := invalid_take_run readyLatency (Runs.run (step readyLatency) (reset mem memQ) is)
      hquiet (k := 0) (by simp)
    rw [Nat.zero_add] at hline
    rw [Runs.run_append, DropStage.kept, lineOut_of_invalid hlong hline]
    rfl
  have hflow := symbols_arrivedIn readyLatency (reset mem memQ) hdrop
  rw [hstart, hend, List.map_nil, List.append_nil, List.nil_append, List.map_append] at hflow
  rw [hflow, ← hclean, ← hfollows'.goodSoFar_eq, ← hkept]
  rfl

/-- So many ready cycles are cycles enough for the delay line to run empty. -/
theorem dropDelay_le_length {js : List Inputs}
    (hready : 2 ^ n + dropDelay + readyLatency ≤ js.countP Inputs.txReady) :
    dropDelay ≤ js.length := by
  have hle : js.countP Inputs.txReady ≤ js.length := List.countP_le_length
  have hpos : 0 < 2 ^ n := Nat.two_pow_pos n
  omega

/-- Once RX is quiet, the ready cycles empty the FIFO and its read register. -/
theorem inFlight_quiet (hpos : 1 ≤ readyLatency) (hmax : readyLatency ≤ 8) (mem : BitVec n → TxBeat)
    (memQ : TxBeat) (is : List Inputs) {js : List Inputs} (hquiet : QuietRx js)
    (hready : 2 ^ n + dropDelay + readyLatency ≤ js.countP Inputs.txReady) :
    (Runs.run (step readyLatency) (reset mem memQ) (is ++ js)).inFlight = [] := by
  obtain ⟨hfirst, hrest⟩ : QuietRx (js.take dropDelay) ∧ QuietRx (js.drop dropDelay) := by
    rw [QuietRx, ← List.take_append_drop dropDelay js, List.forall_mem_append] at hquiet
    exact hquiet
  have hsplit : is ++ js = (is ++ js.take dropDelay) ++ js.drop dropDelay := by
    rw [List.append_assoc, List.take_append_drop]
  have hcount := congrArg (List.countP Inputs.txReady) (List.take_append_drop dropDelay js)
  rw [List.countP_append] at hcount
  have hshort : (js.take dropDelay).countP Inputs.txReady ≤ dropDelay :=
    List.countP_le_length.trans (List.length_take_le _ _)
  have hlong : (js.take dropDelay).length = dropDelay :=
    List.length_take_of_le (dropDelay_le_length hready)
  obtain ⟨⟨q, hq⟩, -⟩ := run_spec readyLatency mem memQ (is ++ js.take dropDelay)
  have hline : ∀ l ∈ (Runs.run (step readyLatency) (reset mem memQ)
      (is ++ js.take dropDelay)).drop.line.take dropDelay, l.valid = false := by
    have h := invalid_take_run readyLatency (Runs.run (step readyLatency) (reset mem memQ) is)
      hfirst (k := 0) (by simp)
    rwa [Nat.zero_add, hlong, ← Runs.run_append] at h
  obtain ⟨q', hq', hleft⟩ := hq.run_left readyLatency hrest le_rfl hline
  have henables := enablesDue_run hpos hmax
    (Runs.run (step readyLatency) (reset mem memQ) (is ++ js.take dropDelay)) (js.drop dropDelay)
  have hdue := enablesDue_le readyLatency
    (Runs.run (step readyLatency)
      (Runs.run (step readyLatency) (reset mem memQ) (is ++ js.take dropDelay)) (js.drop dropDelay))
  have hbound := hq.left_le
  rw [hsplit, Runs.run_append]
  exact hq'.inFlight_of_left (by omega)

/-- So all that has been written is driven. -/
theorem drivenIn_quiet (hpos : 1 ≤ readyLatency) (hmax : readyLatency ≤ 8) (mem : BitVec n → TxBeat)
    (memQ : TxBeat) (is : List Inputs) {js : List Inputs} (hquiet : QuietRx js)
    (hready : 2 ^ n + dropDelay + readyLatency ≤ js.countP Inputs.txReady) :
    drivenIn readyLatency (reset mem memQ) (is ++ js) =
      writtenIn readyLatency (reset mem memQ) (is ++ js) := by
  obtain ⟨-, hflow, -⟩ := run_spec readyLatency mem memQ (is ++ js)
  rw [hflow, inFlight_quiet hpos hmax mem memQ is hquiet hready, List.append_nil]

/-- The frames with an error are counted, once RX is quiet. -/
theorem droppedFrames_quiet (readyLatency : ℕ) (mem : BitVec n → TxBeat) (memQ : TxBeat)
    {is js : List Inputs} (hdrop : ∀ i ∈ is ++ js, i.dropOnError = true)
    (hreg : Regular (is.map Inputs.rx)) (hquiet : QuietRx js) :
    (Runs.run (step readyLatency) (reset mem memQ) (is ++ js)).drop.droppedFrames =
      BitVec.ofNat 32 ((framing (is.map Inputs.rx)).groups.countP frameBad) := by
  obtain ⟨blocks, hfollows, -⟩ := keptFrom_eq (hreg.idle hquiet.invalid)
  have hdropped := hfollows.dropped
  rw [framing_idle _ hquiet.invalid, ← List.map_append] at hdropped
  rw [drop_run readyLatency _ hdrop]
  exact hdropped

/-- **Errored frames are dropped, the others are sent.** With `i_drop_on_error` at 1 and regular
frames, the beats offered to the FIFO carry exactly the segments of the frames without an error,
in order. Once RX is quiet and TX was ready often enough, each of them is lost, because the FIFO
was full, or has been driven, in order; nothing is left, and the counters say how many frames
were dropped and how many beats were lost and driven. -/
theorem clean_delivery (hpos : 1 ≤ readyLatency) (hmax : readyLatency ≤ 8)
    (mem : BitVec n → TxBeat) (memQ : TxBeat) {is js : List Inputs}
    (hdrop : ∀ i ∈ is ++ js, i.dropOnError = true) (hreg : Regular (is.map Inputs.rx))
    (hquiet : QuietRx js)
    (hready : 2 ^ n + dropDelay + readyLatency ≤ js.countP Inputs.txReady) :
    let s := Runs.run (step readyLatency) (reset mem memQ) (is ++ js)
    let log := offeredIn readyLatency (reset mem memQ) (is ++ js)
    symbols (log.map Prod.fst).reduceOption = (cleanSegments (is.map Inputs.rx)).map some ∧
      drivenIn readyLatency (reset mem memQ) (is ++ js) = withMark false log ∧
      (withMark true log = [] → symbols (drivenIn readyLatency (reset mem memQ) (is ++ js)) =
        (cleanSegments (is.map Inputs.rx)).map some) ∧
      s.inFlight = [] ∧
      s.drop.droppedFrames =
        BitVec.ofNat 32 ((framing (is.map Inputs.rx)).groups.countP frameBad) ∧
      s.wr.ovfBeats = BitVec.ofNat 32 (withMark true log).length ∧
      s.wr.rxBeats = s.tx.txBeats + s.wr.ovfBeats := by
  intro s log
  have hlong : dropDelay ≤ js.length := dropDelay_le_length hready
  have hoffers := symbols_arrivedIn_quiet readyLatency mem memQ hdrop hreg hquiet hlong
  obtain ⟨-, -, hovf, hrx⟩ := run_spec readyLatency mem memQ (is ++ js)
  obtain ⟨hwritten, hlost⟩ := withMark_offeredIn readyLatency (reset mem memQ) (is ++ js)
  have hdriven := drivenIn_quiet hpos hmax mem memQ is hquiet hready
  refine ⟨?_, ?_, fun hnone => ?_, inFlight_quiet hpos hmax mem memQ is hquiet hready,
    droppedFrames_quiet readyLatency mem memQ hdrop hreg hquiet, ?_, ?_⟩
  · rw [map_fst_offeredIn, hoffers]
  · rw [hwritten, hdriven]
  · rw [hlost] at hnone
    rw [hdriven, ← arrived_run readyLatency (reset mem memQ) hnone, hoffers]
  · rw [hovf, hlost]
  · rw [txBeats_run, hdriven]
    exact hrx

/-- A beat on RX in drop mode, with TX ready. -/
def dropping (b : RxBeat) : Inputs := ⟨b, 0, 0, true, true⟩

/-- A beat that is not valid. -/
def noBeat : RxBeat where
  valid := false
  segs := List.replicate numSeg ⟨0, false, 0, false, 0⟩
  length_eq := rfl

/-- A frame without an error and one with an error, and a FIFO of two entries. -/
theorem clean_delivery_two :
    let s₀ := reset (fun _ : BitVec 1 => idleBeat) idleBeat
    let is := [dropping (shortBeat false), dropping (shortBeat true)]
    let js := List.replicate 19 (dropping noBeat)
    let s := Runs.run (step 1) s₀ (is ++ js)
    let log := offeredIn 1 s₀ (is ++ js)
    symbols (log.map Prod.fst).reduceOption = (cleanSegments (is.map Inputs.rx)).map some ∧
      drivenIn 1 s₀ (is ++ js) = withMark false log ∧
      (withMark true log = [] →
        symbols (drivenIn 1 s₀ (is ++ js)) = (cleanSegments (is.map Inputs.rx)).map some) ∧
      s.inFlight = [] ∧
      s.drop.droppedFrames =
        BitVec.ofNat 32 ((framing (is.map Inputs.rx)).groups.countP frameBad) ∧
      s.wr.ovfBeats = BitVec.ofNat 32 (withMark true log).length ∧
      s.wr.rxBeats = s.tx.txBeats + s.wr.ovfBeats :=
  clean_delivery le_rfl (by decide) _ _ (by decide) ⟨by decide, by decide⟩
    (fun j hj => by rw [List.eq_of_mem_replicate hj]; rfl) (by decide)

end Loopback

end SecureWan.Eth400g
