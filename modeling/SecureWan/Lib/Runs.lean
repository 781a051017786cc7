import Mathlib.Data.List.Basic
import Mathlib.Data.List.Infix

/-!
# Runs of an event-driven program

A program that reacts to one event at a time is a function `step : σ → ε → σ`,
and a run is a finite list of events. This file packages the inductions that
every reachable-state argument needs: an invariant is kept by a run, and a
property holds in every state of a run exactly when each step is taken under
the condition that keeps it.
-/

namespace SecureWan.Runs

variable {σ ε : Type*} (step : σ → ε → σ)

/-- The state reached from `s` after the events of the list, in order. -/
def run (s : σ) (es : List ε) : σ := es.foldl step s

@[simp] theorem run_nil (s : σ) : run step s [] = s := rfl

@[simp] theorem run_cons (s : σ) (e : ε) (es : List ε) :
    run step s (e :: es) = run step (step s e) es := rfl

@[simp] theorem run_append (s : σ) (es fs : List ε) :
    run step s (es ++ fs) = run step (run step s es) fs := List.foldl_append

/-- An invariant of the start state that every step keeps holds after the run. -/
theorem run_invariant {inv : σ → Prop} (hstep : ∀ s e, inv s → inv (step s e))
    {s : σ} (hs : inv s) (es : List ε) : inv (run step s es) := by
  induction es generalizing s with
  | nil => exact hs
  | cons e es ih => exact ih (hstep s e hs)

/-- The property holds in the start state and after each event of the run. -/
def Throughout (p : σ → Prop) (s : σ) : List ε → Prop
  | [] => p s
  | e :: es => p s ∧ Throughout p (step s e) es

/-- Each step of the run is taken in a state, and on an event, that satisfy `c`. -/
def StepsMeet (c : σ → ε → Prop) (s : σ) : List ε → Prop
  | [] => True
  | e :: es => c s e ∧ StepsMeet c (step s e) es

variable {step}

/-- A part of the state whose next value is given by itself and a part of the event. -/
theorem run_part {τ φ : Type*} {sub : τ → φ → τ} (f : σ → τ) (g : ε → φ)
    (hstep : ∀ s e, f (step s e) = sub (f s) (g e)) (s : σ) (es : List ε) :
    f (run step s es) = run sub (f s) (es.map g) := by
  induction es generalizing s with
  | nil => rfl
  | cons e es ih => rw [run_cons, ih, hstep, List.map_cons, run_cons]

/-- A property that holds throughout a run holds in its start state. -/
theorem Throughout.head {p : σ → Prop} {s : σ} {es : List ε} (h : Throughout step p s es) :
    p s := by
  cases es with
  | nil => exact h
  | cons e es => exact h.1

/-- Holding throughout a run means holding after every prefix of its events. -/
theorem throughout_iff {p : σ → Prop} {s : σ} {es : List ε} :
    Throughout step p s es ↔ ∀ pre, pre <+: es → p (run step s pre) := by
  induction es generalizing s with
  | nil => simp [Throughout]
  | cons e es ih =>
    simp only [Throughout, ih]
    constructor
    · rintro ⟨hs, h⟩ pre hpre
      cases pre with
      | nil => exact hs
      | cons f pre =>
        obtain ⟨rfl, htail⟩ := List.cons_prefix_cons.mp hpre
        exact h pre htail
    · intro h
      refine ⟨h [] (List.nil_prefix), fun pre hpre => ?_⟩
      exact h (e :: pre) (List.cons_prefix_cons.mpr ⟨rfl, hpre⟩)

/-- Meeting a condition at every step means meeting it at every event, in the
state that the events before it lead to. -/
theorem stepsMeet_iff {c : σ → ε → Prop} {s : σ} {es : List ε} :
    StepsMeet step c s es ↔ ∀ pre e suf, es = pre ++ e :: suf → c (run step s pre) e := by
  induction es generalizing s with
  | nil => simp [StepsMeet]
  | cons e es ih =>
    simp only [StepsMeet, ih]
    constructor
    · rintro ⟨hs, h⟩ pre f suf heq
      cases pre with
      | nil =>
        obtain ⟨rfl, rfl⟩ := List.cons.inj heq
        exact hs
      | cons g pre =>
        obtain ⟨rfl, htail⟩ := List.cons.inj heq
        exact h pre f suf htail
    · intro h
      exact ⟨h [] e es rfl, fun pre f suf heq => h (e :: pre) f suf (by rw [heq]; rfl)⟩

/-- One more step. -/
theorem stepsMeet_concat {c : σ → ε → Prop} {s : σ} {es : List ε} {e : ε} :
    StepsMeet step c s (es ++ [e]) ↔ StepsMeet step c s es ∧ c (run step s es) e := by
  induction es generalizing s with
  | nil => exact and_comm
  | cons f es ih => rw [List.cons_append, StepsMeet, StepsMeet, ih, run_cons, and_assoc]

/-- The first steps of the run. -/
theorem StepsMeet.of_prefix {c : σ → ε → Prop} {s : σ} {es fs : List ε}
    (h : StepsMeet step c s es) (hpre : fs <+: es) : StepsMeet step c s fs := by
  obtain ⟨rest, rfl⟩ := hpre
  rw [stepsMeet_iff] at h ⊢
  intro pre e suf heq
  exact h pre e (suf ++ rest) (by rw [heq, List.append_assoc, List.cons_append])

instance decidableStepsMeet {c : σ → ε → Prop} [∀ s e, Decidable (c s e)] :
    (s : σ) → (es : List ε) → Decidable (StepsMeet step c s es)
  | _, [] => .isTrue trivial
  | s, e :: es => @instDecidableAnd _ _ _ (decidableStepsMeet (step s e) es)

/-- A condition on each element of a list and those before it, for one more element. -/
theorem forall_split_concat {α : Type*} {c : List α → α → Prop} {l : List α} {x : α} :
    (∀ pre y suf, l ++ [x] = pre ++ y :: suf → c pre y) ↔
      (∀ pre y suf, l = pre ++ y :: suf → c pre y) ∧ c l x := by
  constructor
  · intro h
    refine ⟨fun pre y suf heq => ?_, h l x [] rfl⟩
    exact h pre y (suf ++ [x]) (by rw [heq, List.append_assoc, List.cons_append])
  · rintro ⟨hold, hlast⟩ pre y suf heq
    rcases List.eq_nil_or_concat suf with rfl | ⟨suf, last, rfl⟩
    · obtain ⟨rfl, hsingle⟩ := List.append_inj' heq rfl
      rwa [← List.singleton_inj.mp hsingle]
    · have hsplit : l ++ [x] = (pre ++ y :: suf) ++ [last] := by
        rw [heq, List.append_assoc, List.cons_append, List.concat_eq_append]
      exact hold pre y suf (List.append_inj' hsplit rfl).1

/-- Two conditions are met by the same runs when they agree in the states of an invariant
that steps under the second one keep. -/
theorem stepsMeet_congr {inv : σ → Prop} {c d : σ → ε → Prop}
    (hiff : ∀ s e, inv s → (c s e ↔ d s e)) (hinv : ∀ s e, inv s → d s e → inv (step s e))
    {s : σ} (hs : inv s) (es : List ε) : StepsMeet step c s es ↔ StepsMeet step d s es := by
  induction es generalizing s with
  | nil => exact Iff.rfl
  | cons e es ih =>
    constructor
    · rintro ⟨hc, h⟩
      have hd := (hiff s e hs).mp hc
      exact ⟨hd, (ih (hinv s e hs hd)).mp h⟩
    · rintro ⟨hd, h⟩
      exact ⟨(hiff s e hs).mpr hd, (ih (hinv s e hs hd)).mpr h⟩

/-- What follows from an invariant holds throughout a run whose steps keep the invariant. -/
theorem StepsMeet.throughout {inv p : σ → Prop} {c : σ → ε → Prop}
    (hinv : ∀ s e, inv s → c s e → inv (step s e)) (himp : ∀ s, inv s → p s) {s : σ}
    (hs : inv s) {es : List ε} (h : StepsMeet step c s es) : Throughout step p s es := by
  induction es generalizing s with
  | nil => exact himp s hs
  | cons e es ih => exact ⟨himp s hs, ih (hinv s e hs h.1) h.2⟩

/-- **Exact step conditions.** Suppose that in the states of an invariant where
`p` holds, the next state satisfies `p` exactly when the step meets `c`, and that
such steps keep the invariant. Then `p` holds throughout a run exactly when each
of its steps meets `c`. It is enough to know this for the events of the run. -/
theorem throughout_iff_stepsMeet_of_forall {ok : ε → Prop} {inv p : σ → Prop} {c : σ → ε → Prop}
    (hinv : ∀ s e, ok e → inv s → p s → c s e → inv (step s e))
    (hstep : ∀ s e, ok e → inv s → p s → (p (step s e) ↔ c s e))
    {s : σ} (hs : inv s) (hp : p s) {es : List ε} (hes : ∀ e ∈ es, ok e) :
    Throughout step p s es ↔ StepsMeet step c s es := by
  induction es generalizing s with
  | nil => exact iff_of_true hp trivial
  | cons e es ih =>
    obtain ⟨he, hes⟩ := List.forall_mem_cons.mp hes
    constructor
    · rintro ⟨_, h⟩
      have hc := (hstep s e he hs hp).mp h.head
      exact ⟨hc, (ih (hinv s e he hs hp hc) h.head hes).mp h⟩
    · rintro ⟨hc, h⟩
      have hp' := (hstep s e he hs hp).mpr hc
      exact ⟨hp, (ih (hinv s e he hs hp hc) hp' hes).mpr h⟩

/-- Exact step conditions for every event. -/
theorem throughout_iff_stepsMeet {inv p : σ → Prop} {c : σ → ε → Prop}
    (hinv : ∀ s e, inv s → p s → c s e → inv (step s e))
    (hstep : ∀ s e, inv s → p s → (p (step s e) ↔ c s e))
    {s : σ} (hs : inv s) (hp : p s) (es : List ε) :
    Throughout step p s es ↔ StepsMeet step c s es :=
  throughout_iff_stepsMeet_of_forall (fun s e _ => hinv s e) (fun s e _ => hstep s e) hs hp
    fun _ _ => trivial

/-- A run that keeps `p` does not leave the states that are doomed. -/
theorem Throughout.doomed {p doomed : σ → Prop}
    (hstep : ∀ s e, doomed s → p s → p (step s e) → doomed (step s e)) {s : σ} (hs : doomed s)
    {es : List ε} (h : Throughout step p s es) : doomed (run step s es) := by
  induction es generalizing s with
  | nil => exact hs
  | cons e es ih => exact ih (hstep s e hs h.1 h.2.head) h.2

/-- **Delayed failures.** A step that does not meet `c` may leave `p` as it is for a while, but
leads to a state that is doomed, as all states after it are. Then a run that keeps `p` and does
not end in a doomed state meets `c` in every step. -/
theorem Throughout.stepsMeet {inv p doomed : σ → Prop} {c : σ → ε → Prop}
    (hinv : ∀ s e, inv s → p s → c s e → inv (step s e))
    (hfail : ∀ s e, inv s → p s → ¬c s e → p (step s e) → doomed (step s e))
    (hdoomed : ∀ s e, doomed s → p s → p (step s e) → doomed (step s e))
    {s : σ} (hs : inv s) {es : List ε} (h : Throughout step p s es)
    (hend : ¬doomed (run step s es)) : StepsMeet step c s es := by
  induction es generalizing s with
  | nil => trivial
  | cons e es ih =>
    have hc : c s e := by
      by_contra hnot
      exact hend (h.2.doomed hdoomed (hfail s e hs h.1 hnot h.2.head))
    exact ⟨hc, ih (hinv s e hs h.1 hc) h.2 hend⟩

/-- **Lasting properties.** Suppose that a step establishes `p` exactly when `p` held
before and the step meets `c`. Then `p` holds after a run exactly when it held before and
each step meets `c`. -/
theorem run_iff_stepsMeet {p : σ → Prop} {c : σ → ε → Prop}
    (hstep : ∀ s e, p (step s e) ↔ p s ∧ c s e) (s : σ) (es : List ε) :
    p (run step s es) ↔ p s ∧ StepsMeet step c s es := by
  induction es generalizing s with
  | nil => exact (and_iff_left trivial).symm
  | cons e es ih =>
    rw [run_cons, ih, hstep, and_assoc]
    rfl

/-! ### What a run puts out -/

/-- The outputs of the steps of a run, in order. -/
def trace {β : Type*} (step : σ → ε → σ) (out : σ → ε → List β) (s : σ) : List ε → List β
  | [] => []
  | e :: es => out s e ++ trace step out (step s e) es

theorem trace_append {β : Type*} (out : σ → ε → List β) (s : σ) (es fs : List ε) :
    trace step out s (es ++ fs) = trace step out s es ++ trace step out (run step s es) fs := by
  induction es generalizing s with
  | nil => rfl
  | cons f es ih => rw [List.cons_append, trace, ih, trace, List.append_assoc, run_cons]

theorem trace_concat {β : Type*} (out : σ → ε → List β) (s : σ) (es : List ε) (e : ε) :
    trace step out s (es ++ [e]) = trace step out s es ++ out (run step s es) e := by
  rw [trace_append, trace, trace, List.append_nil]

theorem length_trace {β : Type*} (out : σ → ε → β) (s : σ) (es : List ε) :
    (trace step (fun s e => [out s e]) s es).length = es.length := by
  induction es generalizing s with
  | nil => rfl
  | cons e es ih => rw [trace, List.length_append, ih, List.length_singleton, List.length_cons,
      Nat.add_comm]

end SecureWan.Runs
