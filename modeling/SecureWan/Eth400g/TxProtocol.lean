import SecureWan.Eth400g.ElasticFifo
import SecureWan.Lib.ShiftRegister

/-!
# The TX pause protocol

`ftile_eth_400g_model.v` checks the TX interface of the loopback: the valid signal has to be
the ready signal a fixed number of cycles before, and the bus has to stand still while valid
is low. The loopback delays ready by a shift register of its own, with one cycle less and its
output registers behind it.
-/

namespace SecureWan.Eth400g

/-- The registers of the protocol checker; `tx_midframe`, which nothing reads, is left out. -/
structure Checker where
  rdyPipe : BitVec 8
  txDHold : List (BitVec 64)
  txIfHold : List Bool
  haveHold : Bool
  protoViol : BitVec 32

namespace TxBeat

/-- `i_tx_mac_data`. -/
def data (e : TxBeat) : List (BitVec 64) := e.map fun x => x.payload.data

/-- `i_tx_mac_inframe`. -/
def inframes (e : TxBeat) : List Bool := e.map TxSeg.inframe

end TxBeat

namespace Checker

/-- The registers after reset. -/
def reset : Checker := ⟨0, List.replicate numSeg 0, List.replicate numSeg false, false, 0⟩

variable (readyLatency : ℕ) (c : Checker) (valid : Bool) (beat : TxBeat)

/-- `exp_valid`. -/
def expValid : Bool := c.rdyPipe.getLsbD (readyLatency - 1)

/-- Rule 1: valid is not ready delayed. -/
def badValid : Bool := valid != c.expValid readyLatency

/-- Rule 2: the bus changed while valid is low. -/
def busMoved : Bool :=
  (!valid && c.haveHold) && (beat.data != c.txDHold || beat.inframes != c.txIfHold)

/-- A clock edge. Both rules add one to the same old count. -/
def step (ready : Bool) : Checker where
  rdyPipe := c.rdyPipe.shiftConcat ready
  txDHold := if valid then beat.data else c.txDHold
  txIfHold := if valid then beat.inframes else c.txIfHold
  haveHold := valid || c.haveHold
  protoViol :=
    if c.badValid readyLatency valid || c.busMoved valid beat then c.protoViol + 1
    else c.protoViol

end Checker

/-- The loopback and the checker on one clock. -/
structure Bench (n : ℕ) where
  loopback : Loopback n
  checker : Checker

namespace Bench

variable {n : ℕ} (readyLatency : ℕ)

/-- The registers after reset. -/
def reset (mem : BitVec n → TxBeat) (memQ : TxBeat) : Bench n :=
  ⟨Loopback.reset mem memQ, Checker.reset⟩

/-- A clock edge. -/
def step (b : Bench n) (i : Inputs) : Bench n where
  loopback := b.loopback.step readyLatency i
  checker := b.checker.step readyLatency b.loopback.tx.valid b.loopback.tx.beat i.txReady

/-- The ready signal some cycles before the current one, low before the reset. -/
def readyAgo (cycles : ℕ) (is : List Inputs) : Bool :=
  (is.map Inputs.txReady).reverse.getD (cycles - 1) false

/-- The protocol is kept so far. -/
structure Conforms (b : Bench n) : Prop where
  rdyPipe : b.checker.rdyPipe = b.loopback.tx.rdyPipe
  valid : b.loopback.tx.valid = b.loopback.tx.rdyPipe.getLsbD (readyLatency - 1)
  held : b.checker.haveHold = true → b.loopback.tx.valid = false →
    b.checker.txDHold = b.loopback.tx.beat.data ∧
      b.checker.txIfHold = b.loopback.tx.beat.inframes
  protoViol : b.checker.protoViol = 0

variable {readyLatency} {b : Bench n} {i : Inputs}

/-- Both shift registers take the ready signal. -/
theorem rdyPipe_step :
    (b.step readyLatency i).loopback.tx.rdyPipe = b.loopback.tx.rdyPipe.shiftConcat i.txReady := by
  change (b.loopback.txSide readyLatency i).rdyPipe = _
  unfold Loopback.txSide
  split <;> rfl

/-- The bus stands still in a cycle in which valid is low. -/
theorem beat_step (hvalid : (b.step readyLatency i).loopback.tx.valid = false) :
    (b.step readyLatency i).loopback.tx.beat = b.loopback.tx.beat := by
  have hen : ¬ b.loopback.txEn readyLatency i = true := by
    intro hen
    have htrue := (Loopback.txSide_of_en hen).1
    change (b.loopback.txSide readyLatency i).valid = false at hvalid
    rw [htrue] at hvalid
    cases hvalid
  exact (Loopback.txSide_of_not_en hen).2.2.2.2

/-- Valid is the enable signal of the cycle before. -/
theorem valid_step :
    (b.step readyLatency i).loopback.tx.valid = b.loopback.txEn readyLatency i := by
  change (b.loopback.txSide readyLatency i).valid = _
  by_cases hen : b.loopback.txEn readyLatency i = true
  · rw [(Loopback.txSide_of_en hen).1, hen]
  · rw [(Loopback.txSide_of_not_en hen).1]
    exact (Bool.eq_false_of_not_eq_true hen).symm

theorem conforms_reset (mem : BitVec n → TxBeat) (memQ : TxBeat) :
    (reset mem memQ).Conforms readyLatency where
  rdyPipe := rfl
  valid := by simp [reset, Loopback.reset]
  held := by simp [reset, Checker.reset]
  protoViol := rfl

/-- **One clock edge.** Neither rule of the checker is broken. -/
theorem Conforms.step (h : b.Conforms readyLatency) (hpos : 1 ≤ readyLatency)
    (hmax : readyLatency ≤ 7) (i : Inputs) : (b.step readyLatency i).Conforms readyLatency where
  rdyPipe := by
    rw [rdyPipe_step, ← h.rdyPipe]
    rfl
  valid := by
    rw [valid_step, rdyPipe_step, BitVec.getLsbD_shiftConcat, Loopback.txEn]
    by_cases hone : readyLatency = 1
    · subst hone
      simp
    · have hlt : readyLatency - 1 < 8 := by omega
      have hne : readyLatency - 1 ≠ 0 := by omega
      have htap : readyLatency - 1 - 1 = readyLatency - 2 := by omega
      rw [if_pos (by omega), if_neg hne, htap, decide_eq_true hlt, Bool.true_and]
  held := by
    intro hhave hvalid
    rw [beat_step hvalid]
    change (b.loopback.tx.valid || b.checker.haveHold) = true at hhave
    change (if b.loopback.tx.valid then _ else _) = _ ∧ (if b.loopback.tx.valid then _ else _) = _
    cases hold : b.loopback.tx.valid with
    | true => exact ⟨rfl, rfl⟩
    | false =>
      rw [hold, Bool.false_or] at hhave
      exact h.held hhave hold
  protoViol := by
    have hvalid : b.checker.badValid readyLatency b.loopback.tx.valid = false := by
      rw [Checker.badValid, Checker.expValid, h.rdyPipe, ← h.valid, bne_self_eq_false]
    have hbus : b.checker.busMoved b.loopback.tx.valid b.loopback.tx.beat = false := by
      unfold Checker.busMoved
      cases hlow : b.loopback.tx.valid with
      | true => rfl
      | false =>
        cases hhave : b.checker.haveHold with
        | false => rfl
        | true =>
          obtain ⟨hdata, hinframe⟩ := h.held hhave hlow
          simp [hdata, hinframe]
    change (if _ then _ else b.checker.protoViol) = 0
    rw [hvalid, hbus]
    exact h.protoViol

/-- The shift register holds the last values of the ready signal. -/
theorem rdyPipe_run (readyLatency : ℕ) (mem : BitVec n → TxBeat) (memQ : TxBeat)
    (is : List Inputs) {j : ℕ} (hj : j < 8) :
    (Runs.run (Bench.step readyLatency) (reset mem memQ) is).loopback.tx.rdyPipe.getLsbD j =
      (is.map Inputs.txReady).reverse.getD j false := by
  have hpipe : (Runs.run (Bench.step readyLatency) (reset mem memQ) is).loopback.tx.rdyPipe =
      Runs.run BitVec.shiftConcat 0#8 (is.map Inputs.txReady) :=
    Runs.run_part (fun b => b.loopback.tx.rdyPipe) Inputs.txReady (fun _ _ => rdyPipe_step)
      (reset mem memQ) is
  rw [hpipe, ShiftRegister.getLsbD_run _ hj, ShiftRegister.ago]

/-- **The TX pause protocol.** With a latency from 1 to 7, in every cycle from reset on, valid
is ready delayed by that latency; the bus stands still while valid is low; and the checker
never counts a violation. -/
theorem protocol_kept (readyLatency : ℕ) (hpos : 1 ≤ readyLatency) (hmax : readyLatency ≤ 7)
    (mem : BitVec n → TxBeat) (memQ : TxBeat) (is : List Inputs) :
    let b := Runs.run (Bench.step readyLatency) (reset mem memQ) is
    b.loopback.tx.valid = readyAgo readyLatency is ∧
      (∀ i, (b.step readyLatency i).loopback.tx.valid = false →
        (b.step readyLatency i).loopback.tx.beat = b.loopback.tx.beat) ∧
      b.checker.protoViol = 0 := by
  have hconforms := Runs.run_invariant (Bench.step readyLatency)
    (fun b i h => Conforms.step (b := b) h hpos hmax i) (conforms_reset mem memQ) is
  refine ⟨?_, fun i hvalid => beat_step hvalid, hconforms.protoViol⟩
  rw [hconforms.valid, rdyPipe_run readyLatency mem memQ is (by omega), readyAgo]

/-- A cycle with nothing received. -/
def quiet (txReady : Bool) : Inputs where
  rx := ⟨false, List.replicate 16 ⟨0, false, 0, false, 0⟩, rfl⟩
  txError := 0
  txSkipCrc := 0
  dropOnError := false
  txReady := txReady

/-- Ready is high for one cycle, with a latency of one cycle. -/
theorem protocol_kept_one :
    let b := Runs.run (Bench.step 1) (reset (fun _ : BitVec 9 => idleBeat) idleBeat)
      [quiet true, quiet false]
    b.loopback.tx.valid = readyAgo 1 [quiet true, quiet false] ∧
      (∀ i, (b.step 1 i).loopback.tx.valid = false →
        (b.step 1 i).loopback.tx.beat = b.loopback.tx.beat) ∧
      b.checker.protoViol = 0 :=
  protocol_kept 1 (by decide) (by decide) (fun _ => idleBeat) idleBeat [quiet true, quiet false]

end Bench

end SecureWan.Eth400g
