import SecureWan.Eth400g.TxProtocol
import SecureWan.Eth400g.CleanDelivery
import SecureWan.Eth400g.GeneratedFrames
import SecureWan.Eth400g.FrameSeparation

/-!
# The model drives the loopback

`ftile_eth_400g_model.v` and `eth400g_loopback.v` in drop mode on one clock, each with the
outputs of the other as its inputs. Whatever the controls of the model are within their ranges
and however it makes TX ready, the frames that it generates without an error come back to it,
as long as the FIFO never runs full, and the counters of the two sides agree.
-/

namespace SecureWan.Eth400g

/-- What is left open in a clock cycle: the controls of the model, the ready signal that it
generates, and the sideband inputs of the loopback. -/
structure ModelCycle where
  control : GenControl
  txReady : Bool
  txError : BitVec 16
  txSkipCrc : BitVec 16

/-- The model, with its generator and its checker, and the loopback. -/
structure ModelBench (n : ℕ) where
  gen : RxGen
  bench : Bench n

/-- The inputs of the loopback, with the beat that the generator drives. -/
def RxGen.feed (gen : RxGen) (e : ModelCycle) : Inputs :=
  ⟨gen.out, e.txError, e.txSkipCrc, true, e.txReady⟩

/-- The generator alone. -/
def RxGen.cycle (p : GenParams) (gen : RxGen) (e : ModelCycle) : RxGen := gen.step p e.control

/-- The inputs of the loopback in a run. -/
def RxGen.feeds (p : GenParams) (gen : RxGen) (es : List ModelCycle) : List Inputs :=
  Runs.trace (cycle p) (fun gen e => [gen.feed e]) gen es

/-- The frames that the generator ends in a run. -/
def RxGen.completed (p : GenParams) (gen : RxGen) (es : List ModelCycle) : List GenFrame :=
  Runs.trace (cycle p) (fun gen e => gen.ended p e.control) gen es

namespace ModelBench

variable {n : ℕ} (p : GenParams) (readyLatency : ℕ)

/-- The registers after reset. -/
def reset (mem : BitVec n → TxBeat) (memQ : TxBeat) : ModelBench n :=
  ⟨RxGen.reset p, Bench.reset mem memQ⟩

/-- A clock edge. -/
def step (b : ModelBench n) (e : ModelCycle) : ModelBench n :=
  ⟨b.gen.cycle p e, b.bench.step readyLatency (b.gen.feed e)⟩

/-- The generator takes no notice of the loopback, and the loopback takes what it drives. -/
theorem run_eq (b : ModelBench n) (es : List ModelCycle) :
    (Runs.run (step p readyLatency) b es).gen = Runs.run (RxGen.cycle p) b.gen es ∧
      (Runs.run (step p readyLatency) b es).bench =
        Runs.run (Bench.step readyLatency) b.bench (b.gen.feeds p es) := by
  unfold RxGen.feeds
  induction es generalizing b with
  | nil => exact ⟨rfl, rfl⟩
  | cons e es ih =>
    obtain ⟨hgen, hbench⟩ := ih (step p readyLatency b e)
    rw [Runs.run_cons, hgen, hbench, Runs.trace, Runs.run_append]
    exact ⟨rfl, rfl⟩

/-- The loopback of the bench is the loopback alone. -/
theorem loopback_run (b : Bench n) (is : List Inputs) :
    (Runs.run (Bench.step readyLatency) b is).loopback =
      Runs.run (Loopback.step readyLatency) b.loopback is := by
  have hpart := Runs.run_part Bench.loopback (fun i : Inputs => i)
    (fun (b : Bench n) i => show (b.step readyLatency i).loopback =
      b.loopback.step readyLatency i from rfl) b is
  rwa [List.map_id'] at hpart

end ModelBench

/-! ### The generator from reset on -/

variable {p : GenParams} {gen : RxGen} {es ds : List ModelCycle}

/-- The beats driven by the generator, up to the one that it drives now, are its frames. -/
theorem generated_run (hp : p.Fits) (hes : ∀ e ∈ es, e.control.Fits) :
    Generated (Runs.run (RxGen.cycle p) (RxGen.reset p) es)
      (((RxGen.reset p).feeds p es).map Inputs.rx ++
        [(Runs.run (RxGen.cycle p) (RxGen.reset p) es).out])
      ((RxGen.reset p).completed p es) := by
  unfold RxGen.feeds RxGen.completed
  induction es using List.reverseRecOn with
  | nil =>
    have hidle : ∀ b ∈ [(RxGen.reset p).out], b.valid = false :=
      List.forall_mem_singleton.mpr rfl
    have hstart := Phase.pause (generated_reset p) rfl 1 0
    rw [← framing_idle [] hidle] at hstart
    exact hstart
  | append_singleton es e ih =>
    rw [List.forall_mem_append, List.forall_mem_singleton] at hes
    have hnext := (ih hes.1).step hp hes.2
    rw [Runs.trace_concat, Runs.trace_concat, Runs.run_append, List.map_append]
    exact hnext

/-- The counters of the model. -/
theorem counts_run (p : GenParams) (es : List ModelCycle) :
    (Runs.run (RxGen.cycle p) (RxGen.reset p) es).modelRxFrames =
        BitVec.ofNat 32 ((RxGen.reset p).completed p es).length ∧
      (Runs.run (RxGen.cycle p) (RxGen.reset p) es).modelBadFrames =
        BitVec.ofNat 32 (((RxGen.reset p).completed p es).countP GenFrame.bad) := by
  unfold RxGen.completed
  induction es using List.reverseRecOn with
  | nil => exact ⟨rfl, rfl⟩
  | append_singleton es e ih =>
    obtain ⟨hframes, hbad⟩ := RxGen.count_step
      (Runs.run (RxGen.cycle p) (RxGen.reset p) es) p e.control
    rw [Runs.trace_concat, Runs.run_append, List.length_append, List.countP_append,
      BitVec.ofNat_add, BitVec.ofNat_add, ← ih.1, ← ih.2]
    exact ⟨hframes, hbad⟩

/-! ### Without new frames -/

/-- The generator begins no frame in these cycles. -/
def Disabled (ds : List ModelCycle) : Prop := ∀ e ∈ ds, e.control.genEnable = false

/-- A frame that goes on all the time while the generator is disabled. -/
theorem active_disabled (hp : p.Fits) (hes : ∀ e ∈ es ++ ds, e.control.Fits) (hds : Disabled ds)
    (hact : (Runs.run (RxGen.cycle p) (RxGen.reset p) (es ++ ds)).rxActive = true) :
    (Runs.run (RxGen.cycle p) (RxGen.reset p) (es ++ ds)).rxOff.toNat =
      (Runs.run (RxGen.cycle p) (RxGen.reset p) es).rxOff.toNat + 8 * numSeg * ds.length := by
  induction ds using List.reverseRecOn with
  | nil => rw [List.append_nil, List.length_nil, Nat.mul_zero, Nat.add_zero]
  | append_singleton ds e ih =>
    rw [← List.append_assoc] at hes hact ⊢
    rw [Disabled, List.forall_mem_append, List.forall_mem_singleton] at hds
    rw [List.forall_mem_append] at hes
    rw [Runs.run_append, Runs.run_cons, Runs.run_nil] at hact ⊢
    obtain ⟨hon, -, hoff⟩ := (generated_run hp hes.1).step_disabled hds.2 hact
    change (RxGen.step p e.control _).rxOff.toNat = _
    rw [hoff, ih hes.1 hds.1 hon, List.length_append, List.length_singleton, Nat.mul_add,
      Nat.mul_one, Nat.add_assoc]

/-- The last frame is over after as many cycles as the delay line has. -/
theorem not_active_disabled (hp : p.Fits) (hes : ∀ e ∈ es ++ ds, e.control.Fits)
    (hds : Disabled ds) (hlong : dropDelay ≤ ds.length) :
    (Runs.run (RxGen.cycle p) (RxGen.reset p) (es ++ ds)).rxActive = false := by
  by_contra hact
  rw [Bool.not_eq_false] at hact
  have hoff := active_disabled hp hes hds hact
  obtain ⟨-, j, hframe⟩ := (generated_run hp hes).active hact
  have hfit := hframe.fitting.2
  have hlt := hframe.lt
  have hplace := hframe.off
  change (Runs.run (RxGen.cycle p) (RxGen.reset p) (es ++ ds)).rxOff.toNat = 8 * j at hplace
  simp only [dropDelay, numSeg] at hfit hoff hlong
  omega

/-- Nothing comes from a generator that is disabled with no frame going on. -/
theorem RxGen.quiet_disabled (p : GenParams) (hds : Disabled ds) (hoff : gen.rxActive = false)
    (hout : gen.out.valid = false) :
    QuietRx (gen.feeds p ds) ∧ gen.completed p ds = [] := by
  unfold RxGen.feeds RxGen.completed
  induction ds generalizing gen with
  | nil => exact ⟨fun i hi => absurd hi List.not_mem_nil, rfl⟩
  | cons e ds ih =>
    obtain ⟨he, hds⟩ := List.forall_mem_cons.mp hds
    have hidle : ¬ (e.control.genEnable || gen.rxActive) = true := by
      rw [he, hoff]
      exact Bool.false_ne_true
    obtain ⟨hvalid, -, hactive⟩ := RxGen.step_of_off (p := p) hidle
    have hrest := ih hds hactive hvalid
    have hended : gen.ended p e.control = [] := if_neg hidle
    rw [Runs.trace, Runs.trace, hended]
    exact ⟨List.forall_mem_cons.mpr ⟨hout, hrest.1⟩, hrest.2⟩

/-- The inputs of the loopback, cycle by cycle. -/
theorem RxGen.feeds_spec (p : GenParams) (gen : RxGen) (es : List ModelCycle) :
    (∀ i ∈ gen.feeds p es, i.dropOnError = true) ∧
      (gen.feeds p es).countP Inputs.txReady = es.countP ModelCycle.txReady := by
  unfold RxGen.feeds
  induction es generalizing gen with
  | nil => exact ⟨fun i hi => absurd hi List.not_mem_nil, rfl⟩
  | cons e es ih =>
    obtain ⟨hdrop, hcount⟩ := ih (gen.cycle p e)
    rw [Runs.trace, List.singleton_append, List.countP_cons, List.countP_cons, hcount]
    exact ⟨List.forall_mem_cons.mpr ⟨rfl, hdrop⟩, rfl⟩

/-- **The run of the generator.** Once it is disabled for long enough, the beats that it has
driven are regular frames, which are those that it has ended, and no more beats come. -/
theorem generated_quiet (hp : p.Fits) (hes : ∀ e ∈ es ++ ds, e.control.Fits) (hds : Disabled ds)
    (hlong : dropDelay + 1 ≤ ds.length) :
    ∃ is js, (RxGen.reset p).feeds p (es ++ ds) = is ++ js ∧ QuietRx js ∧
      js.countP Inputs.txReady = (ds.drop (dropDelay + 1)).countP ModelCycle.txReady ∧
      Regular (is.map Inputs.rx) ∧
      List.Forall₂ Carries (framing (is.map Inputs.rx)).groups
        ((RxGen.reset p).completed p (es ++ ds)) := by
  have hsplit : es ++ ds = es ++ ds.take (dropDelay + 1) ++ ds.drop (dropDelay + 1) := by
    rw [List.append_assoc, List.take_append_drop]
  have htake : (ds.take (dropDelay + 1)).length = dropDelay + 1 := List.length_take_of_le hlong
  obtain ⟨ds₁, e, hds₁⟩ : ∃ ds₁ e, ds.take (dropDelay + 1) = ds₁ ++ [e] :=
    ⟨_, _, (List.dropLast_append_getLast (List.ne_nil_of_length_eq_add_one htake)).symm⟩
  have hlen₁ : ds₁.length = dropDelay := by
    rw [hds₁, List.length_append, List.length_singleton] at htake
    omega
  obtain ⟨hdis₁, hdis₂⟩ : Disabled (ds₁ ++ [e]) ∧ Disabled (ds.drop (dropDelay + 1)) := by
    rw [Disabled, ← List.take_append_drop (dropDelay + 1) ds, List.forall_mem_append, hds₁] at hds
    exact hds
  rw [Disabled, List.forall_mem_append, List.forall_mem_singleton] at hdis₁
  rw [hsplit, hds₁] at hes ⊢
  have hfit := (List.forall_mem_append.mp hes).1
  rw [← List.append_assoc] at hes hfit ⊢
  -- the last frame is over, and one more cycle clears the bus
  have hoff := not_active_disabled hp (List.forall_mem_append.mp hfit).1 hdis₁.1 hlen₁.ge
  have hidle : ¬ (e.control.genEnable ||
      (Runs.run (RxGen.cycle p) (RxGen.reset p) (es ++ ds₁)).rxActive) = true := by
    rw [hdis₁.2, hoff]
    exact Bool.false_ne_true
  obtain ⟨hvalid, -, hactive⟩ := RxGen.step_of_off (p := p) hidle
  have hgen := generated_run hp hfit
  rw [Runs.run_append, Runs.run_cons, Runs.run_nil, RxGen.cycle] at hgen
  have hlast : ∀ b ∈ [(RxGen.step p e.control
      (Runs.run (RxGen.cycle p) (RxGen.reset p) (es ++ ds₁))).out], b.valid = false :=
    List.forall_mem_singleton.mpr hvalid
  obtain ⟨hquiet, hnone⟩ := RxGen.quiet_disabled p hdis₂ hactive hvalid
  obtain ⟨hgroups, -⟩ := hgen.idle hactive
  rw [framing_idle _ hlast] at hgroups
  refine ⟨(RxGen.reset p).feeds p (es ++ ds₁ ++ [e]), _, Runs.trace_append _ _ _ _, ?_, ?_,
    hgen.regular.of_concat, ?_⟩
  · rw [Runs.run_append, Runs.run_cons, Runs.run_nil]
    exact hquiet
  · exact (RxGen.feeds_spec p _ _).2
  · rw [RxGen.completed, Runs.trace_append, Runs.run_append, Runs.run_cons, Runs.run_nil]
    rw [RxGen.completed] at hnone
    rw [RxGen.cycle, hnone, List.append_nil]
    exact hgroups

/-! ### Both sides -/

namespace ModelBench

open Loopback

variable {n readyLatency : ℕ}

/-- **The frames without an error come back.** The model generates frames that fit the delay
line, with a gap behind each of them, and the loopback drops on error. Once the generator is
disabled and TX was ready often enough, the beats offered to the FIFO carry exactly the frames
that were generated without an error, in order; each of these beats is lost, because the FIFO
was full, or driven; as many frames are dropped as were generated with an error; and the
checker of the model has seen no violation. -/
theorem delivered (hp : p.Fits) (hpos : 1 ≤ readyLatency) (hmax : readyLatency ≤ 7)
    (mem : BitVec n → TxBeat) (memQ : TxBeat) (hes : ∀ e ∈ es ++ ds, e.control.Fits)
    (hds : Disabled ds)
    (hready : 2 ^ n + 2 * dropDelay + 1 + readyLatency ≤ ds.countP ModelCycle.txReady) :
    let b := Runs.run (step p readyLatency) (reset p mem memQ) (es ++ ds)
    let frames := (RxGen.reset p).completed p (es ++ ds)
    let clean := (frames.filter fun f => !f.bad).flatMap GenFrame.payloads
    let is := (RxGen.reset p).feeds p (es ++ ds)
    let driven := drivenIn readyLatency (Loopback.reset mem memQ) is
    let log := offeredIn readyLatency (Loopback.reset mem memQ) is
    frames.map GenFrame.seq = (List.range frames.length).map (BitVec.ofNat 32) ∧
      symbols (log.map Prod.fst).reduceOption = clean.map some ∧
      driven = withMark false log ∧
      (b.bench.loopback.wr.ovfBeats = BitVec.ofNat 32 (withMark true log).length ∧
        (withMark true log = [] → symbols driven = clean.map some)) ∧
      b.bench.loopback.inFlight = [] ∧
      b.gen.modelRxFrames = BitVec.ofNat 32 frames.length ∧
      b.gen.modelBadFrames = BitVec.ofNat 32 (frames.countP GenFrame.bad) ∧
      b.bench.loopback.drop.droppedFrames = b.gen.modelBadFrames ∧
      b.bench.loopback.wr.rxBeats = b.bench.loopback.tx.txBeats + b.bench.loopback.wr.ovfBeats ∧
      b.bench.checker.protoViol = 0 := by
  intro b frames clean is driven log
  have hlong : dropDelay + 1 ≤ ds.length := by
    have hle : ds.countP ModelCycle.txReady ≤ ds.length := List.countP_le_length
    have hentries := Nat.two_pow_pos n
    omega
  obtain ⟨hgen, hbench⟩ := run_eq p readyLatency (reset p mem memQ) (es ++ ds)
  obtain ⟨hframes, hbad⟩ := counts_run p (es ++ ds)
  obtain ⟨is₁, js, hfeeds, hquiet, hcount, hreg, hgroups⟩ := generated_quiet hp hes hds hlong
  obtain ⟨hcarried, hclean⟩ := clean_of_carries hgroups
  have hdrop := (RxGen.feeds_spec p (RxGen.reset p) (es ++ ds)).1
  -- the ready cycles behind the last beat are enough for the loopback
  have hready' : 2 ^ n + dropDelay + readyLatency ≤ js.countP Inputs.txReady := by
    have hsplit := congrArg (List.countP ModelCycle.txReady)
      (List.take_append_drop (dropDelay + 1) ds)
    have hle : (ds.take (dropDelay + 1)).countP ModelCycle.txReady ≤ dropDelay + 1 :=
      List.countP_le_length.trans (List.length_take_le _ _)
    rw [List.countP_append] at hsplit
    omega
  have hloop : b.bench.loopback =
      Runs.run (Loopback.step readyLatency) (Loopback.reset mem memQ) is :=
    (congrArg Bench.loopback hbench).trans (loopback_run readyLatency _ _)
  have hloop' : b.bench.loopback =
      Runs.run (Loopback.step readyLatency) (Loopback.reset mem memQ) (is₁ ++ js) :=
    hfeeds ▸ hloop
  have hconforms := Runs.run_invariant (Bench.step readyLatency)
    (fun c i h => Bench.Conforms.step (b := c) h hpos hmax i) (Bench.conforms_reset mem memQ) is
  have hdriven : driven = writtenIn readyLatency (Loopback.reset mem memQ) is := by
    have hquiet' := drivenIn_quiet hpos (by omega) mem memQ is₁ hquiet hready'
    rwa [← hfeeds] at hquiet'
  have hoffers : symbols (arrivedIn readyLatency (Loopback.reset mem memQ) is).reduceOption =
      clean.map some := by
    have hquiet' := symbols_arrivedIn_quiet readyLatency mem memQ (hfeeds ▸ hdrop) hreg hquiet
      (dropDelay_le_length hready')
    rw [← hfeeds] at hquiet'
    exact hquiet'.trans (congrArg (List.map some) hclean)
  obtain ⟨-, -, hovf, hrx⟩ := run_spec readyLatency mem memQ is
  obtain ⟨hwritten, hlost⟩ := withMark_offeredIn readyLatency (Loopback.reset mem memQ) is
  refine ⟨?_, ?_, ?_, ⟨?_, fun hnone => ?_⟩, ?_, ?_, ?_, ?_, ?_, ?_⟩
  · exact (generated_run hp hes).numbers
  · rw [map_fst_offeredIn, hoffers]
  · rw [hwritten, hdriven]
  · rw [hloop, hovf, hlost]
  · rw [hlost] at hnone
    rw [hdriven, ← arrived_run readyLatency (Loopback.reset mem memQ) hnone, hoffers]
  · rw [hloop']
    exact inFlight_quiet hpos (by omega) mem memQ is₁ hquiet hready'
  · exact (congrArg RxGen.modelRxFrames hgen).trans hframes
  · exact (congrArg RxGen.modelBadFrames hgen).trans hbad
  · rw [hloop', droppedFrames_quiet readyLatency mem memQ (hfeeds ▸ hdrop) hreg hquiet, hcarried]
    exact ((congrArg RxGen.modelBadFrames hgen).trans hbad).symm
  · rw [hloop, txBeats_run]
    change _ = BitVec.ofNat 32 driven.length + _
    rw [hdriven]
    exact hrx
  · exact (congrArg (fun c : Bench n => c.checker.protoViol) hbench).trans hconforms.protoViol

/-- A cycle with TX ready, in which frames of 64 bytes with a gap of one segment may begin. -/
def minimumFrames (genEnable : Bool) : ModelCycle where
  control := ⟨genEnable, 64, true, 1⟩
  txReady := true
  txError := 0
  txSkipCrc := 0

/-- Seven enabled cycles, with three frames that have an error, and a FIFO of two entries. -/
theorem delivered_errored :
    let es := List.replicate 7 (minimumFrames true)
    let ds := List.replicate 36 (minimumFrames false)
    let mem := fun _ : BitVec 1 => idleBeat
    let b := Runs.run (step defaultParams 1) (reset defaultParams mem idleBeat) (es ++ ds)
    let frames := (RxGen.reset defaultParams).completed defaultParams (es ++ ds)
    let clean := (frames.filter fun f => !f.bad).flatMap GenFrame.payloads
    let is := (RxGen.reset defaultParams).feeds defaultParams (es ++ ds)
    let driven := drivenIn 1 (Loopback.reset mem idleBeat) is
    let log := offeredIn 1 (Loopback.reset mem idleBeat) is
    frames.map GenFrame.seq = (List.range frames.length).map (BitVec.ofNat 32) ∧
      symbols (log.map Prod.fst).reduceOption = clean.map some ∧
      driven = withMark false log ∧
      (b.bench.loopback.wr.ovfBeats = BitVec.ofNat 32 (withMark true log).length ∧
        (withMark true log = [] → symbols driven = clean.map some)) ∧
      b.bench.loopback.inFlight = [] ∧
      b.gen.modelRxFrames = BitVec.ofNat 32 frames.length ∧
      b.gen.modelBadFrames = BitVec.ofNat 32 (frames.countP GenFrame.bad) ∧
      b.bench.loopback.drop.droppedFrames = b.gen.modelBadFrames ∧
      b.bench.loopback.wr.rxBeats = b.bench.loopback.tx.txBeats + b.bench.loopback.wr.ovfBeats ∧
      b.bench.checker.protoViol = 0 := by
  have hfits : ∀ genEnable, (minimumFrames genEnable).control.Fits := fun _ =>
    ⟨show (1 : BitVec 3) ≠ 0 by decide, .inr ⟨show 57 ≤ (64 : BitVec 16).toNat by decide,
      show (64 : BitVec 16).toNat ≤ 8 * ((dropDelay - 1) * numSeg + 1) by decide⟩⟩
  have hes : ∀ e ∈ List.replicate 7 (minimumFrames true) ++
      List.replicate 36 (minimumFrames false), e.control.Fits := by
    rw [List.forall_mem_append]
    exact ⟨fun e he => List.eq_of_mem_replicate he ▸ hfits true,
      fun e he => List.eq_of_mem_replicate he ▸ hfits false⟩
  exact delivered ⟨⟨by decide, by decide⟩, by decide, by decide⟩ le_rfl (by decide) _ _ hes
    (fun e he => by rw [List.eq_of_mem_replicate he]; rfl) (by decide)

end ModelBench

end SecureWan.Eth400g
