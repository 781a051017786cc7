import Mathlib.Data.List.Basic

/-!
# Programs that log their steps

A function that also lists the steps it took, in order. Dropping the list gives the
plain function back, and a condition on all steps splits along the program.
-/

namespace SecureWan

/-- A result with the steps that led to it. -/
structure Logged (ε α : Type) where
  value : α
  steps : List ε

namespace Logged

variable {ε α β : Type}

/-- One step that gives a value. -/
def step (e : ε) (a : α) : Logged ε α := ⟨a, [e]⟩

instance : Monad (Logged ε) where
  pure a := ⟨a, []⟩
  bind x f := ⟨(f x.value).value, x.steps ++ (f x.value).steps⟩

@[simp] theorem value_pure (a : α) : (pure a : Logged ε α).value = a := rfl

@[simp] theorem value_bind (x : Logged ε α) (f : α → Logged ε β) :
    (x >>= f).value = (f x.value).value := rfl

@[simp] theorem value_step (e : ε) (a : α) : (step e a).value = a := rfl

/-- Every step satisfies the condition. -/
def All (p : ε → Prop) (x : Logged ε α) : Prop := ∀ e ∈ x.steps, p e

variable {p : ε → Prop}

@[simp] theorem all_pure (a : α) : (pure a : Logged ε α).All p := fun _ he => by cases he

@[simp] theorem all_step {e : ε} {a : α} : (step e a).All p ↔ p e := by
  simp [All, step]

@[simp] theorem all_bind {x : Logged ε α} {f : α → Logged ε β} :
    (x >>= f).All p ↔ x.All p ∧ (f x.value).All p := by
  change (∀ e ∈ x.steps ++ (f x.value).steps, p e) ↔ _
  simp only [List.mem_append, or_imp, forall_and, All]

/-- **An early exit.** Where the program goes on, the test has failed. -/
theorem all_guard {c : Prop} [Decidable c] {a : α} {x : Logged ε α} :
    (if c then pure a else x).All p ↔ (¬c → x.All p) := by
  by_cases hc : c
  · rw [if_pos hc]
    exact iff_of_true (all_pure a) fun hnot => absurd hc hnot
  · rw [if_neg hc, forall_prop_of_true hc]

/-- The result satisfies the condition. -/
def Yields (q : α → Prop) (x : Logged ε α) : Prop := q x.value

theorem yields_pure {q : α → Prop} {a : α} (h : q a) : (pure a : Logged ε α).Yields q := h

/-- **Sequence.** What the first part yields, the second part can rely on. -/
theorem yields_bind {q : α → Prop} {r : β → Prop} {x : Logged ε α} {f : α → Logged ε β}
    (hx : x.Yields q) (hf : ∀ a, q a → (f a).Yields r) : (x >>= f).Yields r := hf x.value hx

/-- A first part whose result does not matter. -/
theorem yields_bind_any {r : β → Prop} {x : Logged ε α} {f : α → Logged ε β}
    (hf : ∀ a, (f a).Yields r) : (x >>= f).Yields r := hf x.value

end Logged

end SecureWan
