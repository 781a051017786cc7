import SecureWan.Lib.Runs
import Mathlib.Tactic.Common

/-!
# Shift registers

A register that takes one bit at its lower end at every clock edge holds the last bits of the
stream: the bit at a position is the one taken that many edges before the last. Before that
many edges it is still the zero of the reset.
-/

namespace SecureWan.ShiftRegister

open Runs

/-- The bit that was put in some places before the last one, low before the first. -/
def ago (j : ℕ) (bits : List Bool) : Bool := bits.reverse.getD j false

@[simp] theorem ago_concat_zero (bits : List Bool) (b : Bool) : ago 0 (bits ++ [b]) = b := by
  simp [ago]

@[simp] theorem ago_concat_succ (j : ℕ) (bits : List Bool) (b : Bool) :
    ago (j + 1) (bits ++ [b]) = ago j bits := by
  simp [ago]

/-- **The register holds the end of the stream.** -/
theorem getLsbD_run {w : ℕ} (bits : List Bool) {j : ℕ} (hj : j < w) :
    (run BitVec.shiftConcat 0#w bits).getLsbD j = ago j bits := by
  induction bits using List.reverseRecOn generalizing j with
  | nil => simp [ago]
  | append_singleton bits b ih =>
    rw [run_append, run_cons, run_nil, BitVec.getLsbD_shiftConcat, decide_eq_true hj,
      Bool.true_and]
    cases j with
    | zero => rw [if_pos rfl, ago_concat_zero]
    | succ j => rw [if_neg (Nat.succ_ne_zero j), Nat.add_sub_cancel, ih (by omega), ago_concat_succ]

end SecureWan.ShiftRegister
