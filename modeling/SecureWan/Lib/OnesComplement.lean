import Mathlib.Data.List.Nodup
import Mathlib.Data.Nat.ModEq
import Mathlib.Tactic.Ring

/-!
# One's-complement sums

Sums of digits in a base `b` with the carry added back in. Folding keeps a sum
modulo `b - 1` and tells zero from the other multiples of `b - 1`, so a sum that
is closed with the complement of its fold checks, and replacing one term by one
that differs modulo `b - 1` is noticed.
-/

namespace SecureWan.OnesComplement

variable {b sum : ℕ}

/-- Add the carry back into the lowest digit until there is none. -/
def carryFold (hb : 1 < b) (sum : ℕ) : ℕ :=
  if sum / b = 0 then sum else carryFold hb (sum % b + sum / b)
termination_by sum
decreasing_by
  have hdiv : b * (sum / b) + sum % b = sum := Nat.div_add_mod sum b
  have hcarry : 0 < sum / b := Nat.pos_of_ne_zero ‹_›
  have hlt : 1 * (sum / b) < b * (sum / b) := Nat.mul_lt_mul_of_pos_right hb hcarry
  omega

/-- Adding the carry in keeps the sum modulo `b - 1`. -/
theorem mod_add_div_modEq (hb : 1 < b) (sum : ℕ) : sum % b + sum / b ≡ sum [MOD b - 1] := by
  obtain ⟨c, rfl⟩ : ∃ c, b = c + 1 := ⟨b - 1, by omega⟩
  have hsum : sum = sum % (c + 1) + sum / (c + 1) + c * (sum / (c + 1)) := by
    calc sum = (c + 1) * (sum / (c + 1)) + sum % (c + 1) := (Nat.div_add_mod sum (c + 1)).symm
      _ = sum % (c + 1) + sum / (c + 1) + c * (sum / (c + 1)) := by ring
  rw [Nat.add_sub_cancel]
  nth_rewrite 3 [hsum]
  rw [Nat.ModEq, Nat.add_mul_mod_self_left]

/-- A folded sum is a digit. -/
theorem carryFold_lt (hb : 1 < b) (sum : ℕ) : carryFold hb sum < b := by
  induction sum using carryFold.induct hb with
  | case1 sum hdone =>
    rw [carryFold, if_pos hdone]
    exact (Nat.div_eq_zero_iff_lt (by omega)).mp hdone
  | case2 sum hcarry ih =>
    rw [carryFold, if_neg hcarry]
    exact ih

/-- Folding keeps the sum modulo `b - 1`. -/
theorem carryFold_modEq (hb : 1 < b) (sum : ℕ) : carryFold hb sum ≡ sum [MOD b - 1] := by
  induction sum using carryFold.induct hb with
  | case1 sum hdone => rw [carryFold, if_pos hdone]
  | case2 sum hcarry ih =>
    rw [carryFold, if_neg hcarry]
    exact ih.trans (mod_add_div_modEq hb sum)

/-- Only the empty sum folds to zero. -/
theorem carryFold_pos (hb : 1 < b) (h : 0 < sum) : 0 < carryFold hb sum := by
  induction sum using carryFold.induct hb with
  | case1 sum hdone =>
    rw [carryFold, if_pos hdone]
    exact h
  | case2 sum hcarry ih =>
    rw [carryFold, if_neg hcarry]
    exact ih (Nat.add_pos_right _ (Nat.pos_of_ne_zero hcarry))

/-- A sum that is not empty folds to the last digit exactly when `b - 1` divides it. -/
theorem carryFold_eq_iff (hb : 1 < b) (h : 0 < sum) :
    carryFold hb sum = b - 1 ↔ b - 1 ∣ sum := by
  have hmod := (carryFold_modEq hb sum).dvd_iff (dvd_refl (b - 1))
  constructor
  · intro hlast
    rw [← hmod, hlast]
  · intro hdvd
    have hlt := carryFold_lt hb sum
    have hle : b - 1 ≤ carryFold hb sum := Nat.le_of_dvd (carryFold_pos hb h) (hmod.mpr hdvd)
    omega

/-- A sum closed with the complement of its fold. -/
theorem carryFold_add_complement (hb : 1 < b) (sum : ℕ) :
    carryFold hb (sum + (b - 1 - carryFold hb sum)) = b - 1 := by
  have hlt := carryFold_lt hb sum
  have hpos : 0 < sum + (b - 1 - carryFold hb sum) := by
    rcases Nat.eq_zero_or_pos sum with rfl | hsum
    · have hzero : carryFold hb 0 = 0 := by rw [carryFold, Nat.zero_div, if_pos rfl]
      omega
    · omega
  rw [carryFold_eq_iff hb hpos]
  have hmod : carryFold hb sum + (b - 1 - carryFold hb sum) ≡
      sum + (b - 1 - carryFold hb sum) [MOD b - 1] :=
    (carryFold_modEq hb sum).add_right _
  rw [Nat.add_sub_cancel' (by omega)] at hmod
  exact (hmod.dvd_iff (dvd_refl _)).mp (dvd_refl _)

/-- A sum that checks no longer does when a term is replaced by a different one. -/
theorem carryFold_ne_of_replaced (hb : 1 < b) {sum' old new : ℕ} (h : carryFold hb sum = b - 1)
    (hreplaced : sum' + old = sum + new) (hnew : ¬new ≡ old [MOD b - 1]) (hpos : 0 < sum)
    (hpos' : 0 < sum') : carryFold hb sum' ≠ b - 1 := by
  intro h'
  rw [carryFold_eq_iff hb hpos] at h
  rw [carryFold_eq_iff hb hpos'] at h'
  refine hnew ?_
  calc new ≡ sum + new [MOD b - 1] := by
        simpa using (Nat.modEq_zero_iff_dvd.mpr h).symm.add_right new
    _ ≡ sum' + old [MOD b - 1] := by rw [hreplaced]
    _ ≡ old [MOD b - 1] := by simpa using (Nat.modEq_zero_iff_dvd.mpr h').add_right old

/-- Sums over the same indices whose terms agree but at one of them. -/
theorem sum_replaced {ι : Type*} {l : List ι} {f g : ι → ℕ} {i : ι} (hnodup : l.Nodup)
    (hi : i ∈ l) (hagree : ∀ j ∈ l, j ≠ i → g j = f j) :
    (l.map g).sum + f i = (l.map f).sum + g i := by
  induction l with
  | nil => cases hi
  | cons j l ih =>
    obtain ⟨hj, hnodup⟩ := List.nodup_cons.mp hnodup
    simp only [List.map_cons, List.sum_cons]
    rcases List.mem_cons.mp hi with rfl | hi
    · have hrest : l.map g = l.map f := by
        refine List.map_congr_left fun k hk => ?_
        exact hagree k (List.mem_cons_of_mem i hk) fun h => hj (h ▸ hk)
      rw [hrest]
      omega
    · have hhead : g j = f j := hagree j List.mem_cons_self fun h => hj (h ▸ hi)
      have hrest := ih hnodup hi fun k hk => hagree k (List.mem_cons_of_mem j hk)
      omega

end SecureWan.OnesComplement
