import Mathlib.Data.List.Basic

/-!
# Programs that may fail

A program goes from a state to a state and returns a value or fails with an error. What a
program does is described by a condition before it, one for the value and the state behind it,
and one for the error and the state in which it failed. The rules follow the program: they put
the descriptions of its parts together.
-/

namespace SecureWan

/-- A program on states `σ` that returns an `α` or fails with an `ε`. -/
structure Program (σ ε α : Type) where
  run : σ → Except ε α × σ

namespace Program

variable {σ τ ε α β : Type}

/-- One program behind the other. -/
def andThen (x : Program σ ε α) (f : α → Program σ ε β) : Program σ ε β where
  run s :=
    match x.run s with
    | (.ok a, s') => (f a).run s'
    | (.error e, s') => (.error e, s')

instance : Monad (Program σ ε) where
  pure a := ⟨fun s => (.ok a, s)⟩
  bind := andThen

/-- `raise`. -/
def fail (e : ε) : Program σ ε α := ⟨fun s => (.error e, s)⟩

/-- An operation that always returns. -/
def ofFun (f : σ → α × σ) : Program σ ε α := ⟨fun s => (.ok (f s).1, (f s).2)⟩

/-- `try`: the second program goes on in the state in which the first one failed. -/
def orElse (x y : Program σ ε α) : Program σ ε α where
  run s :=
    match x.run s with
    | (.ok a, s') => (.ok a, s')
    | (.error _, s') => y.run s'

/-- `try` with an `except` for some of the errors. -/
def catchIf (p : ε → Bool) (x y : Program σ ε α) : Program σ ε α where
  run s :=
    match x.run s with
    | (.ok a, s') => (.ok a, s')
    | (.error e, s') => if p e then y.run s' else (.error e, s')

/-- A program on the first of two states. -/
def onFst (x : Program σ ε α) : Program (σ × τ) ε α :=
  ⟨fun s => ((x.run s.1).1, ((x.run s.1).2, s.2))⟩

/-- A program on the second of two states. -/
def onSnd (x : Program τ ε α) : Program (σ × τ) ε α :=
  ⟨fun s => ((x.run s.2).1, (s.1, (x.run s.2).2))⟩

/-- A result that satisfies `Q`, or an error that satisfies `E`. -/
def Meets (Q : α → σ → Prop) (E : ε → σ → Prop) : Except ε α × σ → Prop
  | (.ok a, s) => Q a s
  | (.error e, s) => E e s

/-- From states that satisfy `P` the program returns with `Q` or fails with `E`. -/
def Triple (P : σ → Prop) (x : Program σ ε α) (Q : α → σ → Prop) (E : ε → σ → Prop) : Prop :=
  ∀ s, P s → Meets Q E (x.run s)

variable {P P' R : σ → Prop} {Q Q' : α → σ → Prop} {E E' : ε → σ → Prop} {x y : Program σ ε α}
  {s s' : σ} {a : α} {e : ε}

theorem bind_of_ok {f : α → Program σ ε β} (h : x.run s = (.ok a, s')) :
    (x >>= f).run s = (f a).run s' := by
  simp only [Bind.bind, andThen, h]

theorem bind_of_error {f : α → Program σ ε β} (h : x.run s = (.error e, s')) :
    (x >>= f).run s = (.error e, s') := by
  simp only [Bind.bind, andThen, h]

/-- Both programs of a sequence that returns return. -/
theorem bind_eq_ok_iff {f : α → Program σ ε β} {b : β} : (x >>= f).run s = (.ok b, s') ↔
    ∃ a s₁, x.run s = (.ok a, s₁) ∧ (f a).run s₁ = (.ok b, s') := by
  constructor
  · intro h
    rcases hx : x.run s with ⟨e | a, s₁⟩
    · rw [bind_of_error hx] at h
      cases h
    · rw [bind_of_ok hx] at h
      exact ⟨a, s₁, rfl, h⟩
  · rintro ⟨a, s₁, hx, hf⟩
    rwa [bind_of_ok hx]

theorem pure_eq_ok_iff {b : α} :
    (pure a : Program σ ε α).run s = (.ok b, s') ↔ a = b ∧ s = s' := by
  simp only [pure, Prod.mk.injEq, Except.ok.injEq]

theorem orElse_of_ok (h : x.run s = (.ok a, s')) : (orElse x y).run s = (.ok a, s') := by
  simp only [orElse, h]

theorem orElse_of_error (h : x.run s = (.error e, s')) : (orElse x y).run s = y.run s' := by
  simp only [orElse, h]

/-- What a program that returned has established. -/
theorem Triple.ok (h : Triple P x Q E) (hs : P s) (hx : x.run s = (.ok a, s')) : Q a s' := by
  have hspec := h s hs
  rwa [hx] at hspec

/-- What a program that failed has left. -/
theorem Triple.error (h : Triple P x Q E) (hs : P s) (hx : x.run s = (.error e, s')) : E e s' := by
  have hspec := h s hs
  rwa [hx] at hspec

theorem triple_pure (h : ∀ s, P s → Q a s) :
    Triple P (pure a : Program σ ε α) Q E := fun s hs => h s hs

theorem triple_fail (h : ∀ s, P s → E e s) :
    Triple P (fail e : Program σ ε α) Q E := fun s hs => h s hs

theorem triple_ofFun {f : σ → α × σ} (h : ∀ s, P s → Q (f s).1 (f s).2) :
    Triple P (ofFun f : Program σ ε α) Q E := fun s hs => h s hs

/-- **Sequence.** -/
theorem Triple.bind {f : α → Program σ ε β} {S : β → σ → Prop} (h : Triple P x Q E)
    (hf : ∀ a, Triple (Q a) (f a) S E) : Triple P (x >>= f) S E := by
  intro s hs
  rcases hx : x.run s with ⟨e | a, s'⟩
  · rw [bind_of_error hx]
    exact h.error hs hx
  · rw [bind_of_ok hx]
    exact hf a s' (h.ok hs hx)

/-- **Consequence.** -/
theorem Triple.weaken (h : Triple P x Q E) (hP : ∀ s, P' s → P s)
    (hQ : ∀ a s, Q a s → Q' a s) (hE : ∀ e s, E e s → E' e s) : Triple P' x Q' E' := by
  intro s hs
  rcases hx : x.run s with ⟨e | a, s'⟩
  · exact hE e s' (h.error (hP s hs) hx)
  · exact hQ a s' (h.ok (hP s hs) hx)

/-- A stronger condition before, a weaker one behind. -/
theorem Triple.conseq (h : Triple P x Q E) (hP : ∀ s, P' s → P s)
    (hQ : ∀ a s, Q a s → Q' a s) : Triple P' x Q' E := h.weaken hP hQ fun _ _ he => he

/-- A fact about the state before the program, for a value that is only known there. -/
theorem triple_exists {ι : Type} {P : ι → σ → Prop} (h : ∀ i, Triple (P i) x Q E) :
    Triple (fun s => ∃ i, P i s) x Q E := fun s ⟨i, hi⟩ => h i s hi

/-- A fact that does not depend on the state. -/
theorem triple_and {p : Prop} (h : p → Triple P x Q E) : Triple (fun s => p ∧ P s) x Q E :=
  fun s ⟨hp, hs⟩ => h hp s hs

theorem triple_ite {c : Prop} [Decidable c] (ht : c → Triple P x Q E)
    (hf : ¬c → Triple P y Q E) : Triple P (if c then x else y) Q E := by
  split
  next h => exact ht h
  next h => exact hf h

theorem Triple.orElse (h : Triple P x Q fun _ => R) (hy : Triple R y Q E) :
    Triple P (orElse x y) Q E := by
  intro s hs
  rcases hx : x.run s with ⟨e | a, s'⟩
  · rw [orElse_of_error hx]
    exact hy s' (h.error hs hx)
  · rw [orElse_of_ok hx]
    exact h.ok hs hx

theorem Triple.catchIf {p : ε → Bool} {F : ε → σ → Prop} (h : Triple P x Q F)
    (hy : Triple (fun s => ∃ e, p e = true ∧ F e s) y Q E)
    (hpass : ∀ e s, p e = false → F e s → E e s) : Triple P (catchIf p x y) Q E := by
  intro s hs
  rcases hx : x.run s with ⟨e | a, s'⟩
  · cases he : p e with
    | true =>
      have hrun : (Program.catchIf p x y).run s = y.run s' := by
        simp only [Program.catchIf, hx, he, if_true]
      rw [hrun]
      exact hy s' ⟨e, he, h.error hs hx⟩
    | false =>
      have hrun : (Program.catchIf p x y).run s = (.error e, s') := by
        simp only [Program.catchIf, hx, he, Bool.false_eq_true, if_false]
      rw [hrun]
      exact hpass e s' he (h.error hs hx)
  · have hrun : (Program.catchIf p x y).run s = (.ok a, s') := by
      simp only [Program.catchIf, hx]
    rw [hrun]
    exact h.ok hs hx

/-- Nothing is known. -/
theorem triple_true (P : σ → Prop) (x : Program σ ε α) :
    Triple P x (fun _ _ => True) fun _ _ => True := by
  intro s _
  rcases x.run s with ⟨e | a, s'⟩ <;> trivial

/-- **Frame.** The other state is left alone. -/
theorem Triple.onFst {T : τ → Prop} (h : Triple P x Q E) :
    Triple (fun s : σ × τ => P s.1 ∧ T s.2) (onFst x) (fun a s => Q a s.1 ∧ T s.2)
      fun e s => E e s.1 := by
  rintro ⟨s, t⟩ ⟨hs, ht⟩
  simp only [Program.onFst]
  rcases hx : x.run s with ⟨e | a, s'⟩
  · exact h.error hs hx
  · exact ⟨h.ok hs hx, ht⟩

theorem Triple.onSnd {T : τ → Prop} (h : Triple P x Q E) :
    Triple (fun s : τ × σ => T s.1 ∧ P s.2) (onSnd x) (fun a s => T s.1 ∧ Q a s.2)
      fun e s => E e s.2 := by
  rintro ⟨t, s⟩ ⟨ht, hs⟩
  simp only [Program.onSnd]
  rcases hx : x.run s with ⟨e | a, s'⟩
  · exact h.error hs hx
  · exact ⟨ht, h.ok hs hx⟩

end Program

end SecureWan
