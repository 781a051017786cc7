import SecureWan.Lib.Runs
import Mathlib.Algebra.BigOperators.Group.Finset.Basic
import Mathlib.Algebra.Order.Monoid.Canonical.Defs

/-!
# Custody of resources

A program takes resources from a pool and keeps each of them in some container of its
state. `held` is what the containers hold, `taken` what was ever taken. A part of the
program that runs with some resources in hand leaves some in hand; what the last part
leaves in hand is lost. The accounts of the parts add up, so that a run loses nothing
exactly when none of its steps does.
-/

namespace SecureWan.Custody

variable {σ ε ρ T : Type*} [AddCancelCommMonoid T] (held taken : σ → T)

/-- From `s` with `hand` in hand to `s'` with `out` in hand. -/
def Moves (s : σ) (hand : T) (s' : σ) (out : T) : Prop :=
  ∃ fresh, held s' + out = held s + hand + fresh ∧ taken s' = taken s + fresh

/-- From `s` with `hand` in hand to `s'`, with nothing left in hand exactly when `kept`. -/
def Leaves (s : σ) (hand : T) (s' : σ) (kept : Prop) : Prop :=
  ∃ out, Moves held taken s hand s' out ∧ (out = 0 ↔ kept)

/-- Everything taken is held. -/
def Balanced (s : σ) : Prop := held s = taken s

/-- Nothing is held that was not taken. -/
def Covered (s : σ) : Prop := ∃ missing, held s + missing = taken s

variable {held taken} {s s' s'' : σ} {a b c t : T}

/-- A step that takes nothing, described by what it holds afterwards. -/
theorem Moves.of_eq (hheld : held s' + b = held s + a) (htaken : taken s' = taken s) :
    Moves held taken s a s' b :=
  ⟨0, by rw [add_zero, hheld], by rw [add_zero, htaken]⟩

/-- A step that replaces the contents `x` of one container by `y`. -/
theorem Moves.exchange {x y : T} (hheld : held s' + x = held s + y) (hpart : y + b = x + a)
    (htaken : taken s' = taken s) : Moves held taken s a s' b := by
  refine .of_eq (add_right_cancel (b := x) ?_) htaken
  calc held s' + b + x = held s' + x + b := add_right_comm _ _ _
    _ = held s + (y + b) := by rw [hheld, add_assoc]
    _ = held s + a + x := by rw [hpart, add_comm x a, ← add_assoc]

theorem Moves.refl (s : σ) (a : T) : Moves held taken s a s a := .of_eq rfl rfl

/-- What one part leaves in hand, the next part takes over. -/
theorem Moves.trans (h : Moves held taken s a s' b) (h' : Moves held taken s' b s'' c) :
    Moves held taken s a s'' c := by
  obtain ⟨fresh, hheld, htaken⟩ := h
  obtain ⟨fresh', hheld', htaken'⟩ := h'
  refine ⟨fresh + fresh', ?_, ?_⟩
  · rw [hheld', hheld, add_assoc]
  · rw [htaken', htaken, add_assoc]

/-- What a part does not touch stays in hand. -/
theorem Moves.frame (h : Moves held taken s a s' b) (t : T) :
    Moves held taken s (a + t) s' (b + t) := by
  obtain ⟨fresh, hheld, htaken⟩ := h
  refine ⟨fresh, ?_, htaken⟩
  rw [← add_assoc, hheld, ← add_assoc, add_right_comm]

/-- A part that needs nothing runs with anything in hand. -/
theorem Moves.under (h : Moves held taken s 0 s' b) (t : T) :
    Moves held taken s t s' (b + t) := by
  simpa only [zero_add] using h.frame t

/-- A step with nothing in hand before and after keeps the account balanced. -/
theorem Moves.balanced (h : Moves held taken s 0 s' 0) (hs : Balanced held taken s) :
    Balanced held taken s' := by
  obtain ⟨fresh, hheld, htaken⟩ := h
  rw [add_zero, add_zero] at hheld
  rw [Balanced, hheld, htaken, hs]

section Leaves

variable {kept kept' : Prop}

theorem Moves.leaves (h : Moves held taken s a s' b) (hkept : b = 0 ↔ kept) :
    Leaves held taken s a s' kept := ⟨b, h, hkept⟩

/-- A part that leaves nothing. -/
theorem Moves.leaves_nothing (h : Moves held taken s a s' 0) :
    Leaves held taken s a s' True := h.leaves (iff_of_true rfl trivial)

theorem Leaves.congr (h : Leaves held taken s a s' kept) (hkept : kept ↔ kept') :
    Leaves held taken s a s' kept' := by
  obtain ⟨out, hmoves, hout⟩ := h
  exact ⟨out, hmoves, hout.trans hkept⟩

theorem Moves.trans_leaves (h : Moves held taken s a s' b)
    (h' : Leaves held taken s' b s'' kept) : Leaves held taken s a s'' kept := by
  obtain ⟨out, hmoves, hout⟩ := h'
  exact ⟨out, h.trans hmoves, hout⟩

/-- What the first part does not touch is put away by the second. -/
theorem Leaves.trans_moves (h : Leaves held taken s a s' kept)
    (h' : Moves held taken s' t s'' 0) : Leaves held taken s (a + t) s'' kept := by
  obtain ⟨out, hmoves, hout⟩ := h
  have hafter := h'.frame out
  rw [zero_add, add_comm] at hafter
  exact ⟨out, (hmoves.frame t).trans hafter, hout⟩

variable [Subsingleton (AddUnits T)]

/-- Two parts leave nothing when neither of them does. -/
theorem Leaves.trans (h : Leaves held taken s a s' kept) (h' : Leaves held taken s' 0 s'' kept') :
    Leaves held taken s a s'' (kept ∧ kept') := by
  obtain ⟨out, hmoves, hout⟩ := h
  obtain ⟨out', hmoves', hout'⟩ := h'
  refine ⟨out' + out, hmoves.trans (hmoves'.under out), ?_⟩
  rw [add_eq_zero, hout, hout', and_comm]

/-- **Iteration.** A loop whose body needs nothing in hand leaves in hand what its rounds
leave, which is nothing exactly when no round leaves anything. -/
theorem Leaves.foldl {body : σ → ρ → σ} {kept : ρ → Prop}
    (hbody : ∀ s r, Leaves held taken s 0 (body s r) (kept r)) (s : σ) (rs : List ρ) :
    Leaves held taken s 0 (rs.foldl body s) (∀ r ∈ rs, kept r) := by
  induction rs generalizing s with
  | nil => exact (Moves.refl s 0).leaves (by simp)
  | cons r rs ih =>
    rw [List.forall_mem_cons]
    exact (hbody s r).trans (ih (body s r))

end Leaves

section Sums

variable {ι β : Type*} [Fintype ι] [DecidableEq ι]

/-- Replacing the contents of one container. -/
theorem sum_update (f : ι → β) (i : ι) (x : β) (F : β → T) :
    ∑ j, F (Function.update f i x j) + F (f i) = ∑ j, F (f j) + F x := by
  have hsplit (g : ι → T) : ∑ j, g j = g i + ∑ j ∈ Finset.univ.erase i, g j :=
    (Finset.add_sum_erase _ g (Finset.mem_univ i)).symm
  have hrest : ∑ j ∈ Finset.univ.erase i, F (Function.update f i x j) =
      ∑ j ∈ Finset.univ.erase i, F (f j) :=
    Finset.sum_congr rfl fun j hj => by rw [Function.update_of_ne (Finset.ne_of_mem_erase hj)]
  rw [hsplit fun j => F (Function.update f i x j), hsplit fun j => F (f j), hrest,
    Function.update_self, add_right_comm, add_comm (F x), add_right_comm]

/-- Contents that are split stay the same in sum. -/
theorem sum_take_add_sum_drop (l : List β) (n : ℕ) (F : β → T) :
    ((l.take n).map F).sum + ((l.drop n).map F).sum = (l.map F).sum := by
  rw [← List.sum_append, ← List.map_append, List.take_append_drop]

theorem sum_filter_add_sum_filter_not (l : List β) (p : β → Bool) (F : β → T) :
    ((l.filter p).map F).sum + ((l.filter fun x => !p x).map F).sum = (l.map F).sum := by
  rw [← List.sum_append, ← List.map_append]
  exact ((List.filter_append_perm p l).map F).sum_eq

theorem add_sum_eraseIdx {l : List β} {n : ℕ} {x : β} (h : l[n]? = some x) (F : β → T) :
    F x + ((l.eraseIdx n).map F).sum = (l.map F).sum := by
  obtain ⟨hn, rfl⟩ := List.getElem?_eq_some_iff.mp h
  rw [← List.sum_cons, ← List.map_cons]
  exact ((List.getElem_cons_eraseIdx_perm hn).map F).sum_eq

end Sums

variable [Subsingleton (AddUnits T)]

/-- A step keeps the account covered, and balanced exactly when it was balanced and nothing
is left in hand. -/
theorem Moves.balanced_iff (h : Moves held taken s 0 s' b) (hs : Covered held taken s) :
    Covered held taken s' ∧ (Balanced held taken s' ↔ Balanced held taken s ∧ b = 0) := by
  obtain ⟨fresh, hheld, htaken⟩ := h
  obtain ⟨missing, hmissing⟩ := hs
  rw [add_zero] at hheld
  have hcover : held s' + (missing + b) = taken s' := by
    rw [htaken, ← hmissing, add_comm missing b, ← add_assoc, hheld, add_right_comm]
  refine ⟨⟨_, hcover⟩, ?_⟩
  have hbefore : Balanced held taken s ↔ missing = 0 := by
    rw [Balanced, ← hmissing, left_eq_add]
  have hafter : Balanced held taken s' ↔ missing + b = 0 := by
    rw [Balanced, ← hcover, left_eq_add]
  rw [hafter, hbefore, add_eq_zero]

/-- **Runs.** If every step leaves something in hand exactly when it fails to meet `c`, the
account is balanced after a run from a balanced one exactly when every step meets `c`. -/
theorem balanced_run_iff {step : σ → ε → σ} {c : σ → ε → Prop}
    (hstep : ∀ s e, Leaves held taken s 0 (step s e) (c s e))
    (hs : Balanced held taken s) (es : List ε) :
    Balanced held taken (Runs.run step s es) ↔ Runs.StepsMeet step c s es := by
  suffices hcovered : ∀ s, Covered held taken s →
      (Balanced held taken (Runs.run step s es) ↔
        Balanced held taken s ∧ Runs.StepsMeet step c s es) by
    rw [hcovered s ⟨0, by rw [add_zero]; exact hs⟩, and_iff_right hs]
  induction es with
  | nil => exact fun s _ => (and_iff_left trivial).symm
  | cons e es ih =>
    intro s hs
    obtain ⟨out, hmoves, hout⟩ := hstep s e
    obtain ⟨hcover, hbalanced⟩ := hmoves.balanced_iff hs
    rw [Runs.run_cons, ih _ hcover, hbalanced, hout, and_assoc]
    rfl

end SecureWan.Custody
