import Mathlib.Data.List.Basic
import Mathlib.Data.List.Infix
import Mathlib.Logic.Function.Basic

/-!
# Dealing items to bins

A dealer takes the items of a list one after the other and appends each to the bin that a
rule chooses. The rule sees its own position and how much is in each bin, but not what; so
two lists of the same length are dealt in the same shape.
-/

namespace SecureWan.Dealing

variable {γ β ι κ ε : Type*}

/-- The position of the dealer and the bins. -/
structure Table (γ β ι : Type*) where
  pos : γ
  bins : β → List ι

/-- How much is in each bin. -/
def Table.load (t : Table γ β ι) (b : β) : ℕ := (t.bins b).length

variable [DecidableEq β] (choose : γ → (β → ℕ) → Except ε (γ × β))

/-- Deal one item. -/
def give (t : Table γ β ι) (x : ι) : Except ε (Table γ β ι) :=
  match choose t.pos t.load with
  | .error e => .error e
  | .ok (pos, b) => .ok ⟨pos, Function.update t.bins b (t.bins b ++ [x])⟩

/-- Deal the items of a list, in order. -/
def deal (t : Table γ β ι) : List ι → Except ε (Table γ β ι)
  | [] => .ok t
  | x :: xs =>
    match give choose t x with
    | .error e => .error e
    | .ok t' => deal t' xs

variable {choose} {t t' : Table γ β ι} {x : ι} {xs : List ι}

/-- What it means that one item was dealt. -/
theorem give_eq_ok_iff : give choose t x = .ok t' ↔
    ∃ pos b, choose t.pos t.load = .ok (pos, b) ∧
      t' = ⟨pos, Function.update t.bins b (t.bins b ++ [x])⟩ := by
  unfold give
  cases choose t.pos t.load with
  | error e => simp
  | ok c =>
    obtain ⟨pos, b⟩ := c
    simp [eq_comm]

/-- The same for a whole list that is not empty. -/
theorem deal_cons_eq_ok_iff {t'' : Table γ β ι} : deal choose t (x :: xs) = .ok t'' ↔
    ∃ t', give choose t x = .ok t' ∧ deal choose t' xs = .ok t'' := by
  rw [deal]
  cases give choose t x with
  | error e => simp
  | ok c => simp

/-- A rule that fails stops the dealer. -/
theorem give_eq_error_iff {e : ε} :
    give choose t x = .error e ↔ choose t.pos t.load = .error e := by
  unfold give
  cases choose t.pos t.load with
  | error e => simp
  | ok c => simp

theorem deal_cons_eq_error_iff {e : ε} : deal choose t (x :: xs) = .error e ↔
    give choose t x = .error e ∨
      ∃ t', give choose t x = .ok t' ∧ deal choose t' xs = .error e := by
  rw [deal]
  cases give choose t x with
  | error e => simp
  | ok c => simp

/-- What each item keeps, the whole list keeps. -/
theorem deal_invariant {inv : Table γ β ι → Prop}
    (hgive : ∀ t x t', inv t → give choose t x = .ok t' → inv t') (ht : inv t)
    (h : deal choose t xs = .ok t') : inv t' := by
  induction xs generalizing t with
  | nil =>
    cases h
    exact ht
  | cons x xs ih =>
    obtain ⟨t₁, hfirst, hrest⟩ := deal_cons_eq_ok_iff.mp h
    exact ih (hgive t x t₁ ht hfirst) hrest

/-- A bin keeps what it holds and gets some of the items behind it, in their order. -/
theorem deal_sublist (h : deal choose t xs = .ok t') (b : β) :
    ∃ got, List.Sublist got xs ∧ t'.bins b = t.bins b ++ got := by
  induction xs generalizing t with
  | nil =>
    cases h
    exact ⟨[], List.Sublist.refl _, (List.append_nil _).symm⟩
  | cons x xs ih =>
    obtain ⟨t₁, hfirst, hrest⟩ := deal_cons_eq_ok_iff.mp h
    obtain ⟨pos, c, _, rfl⟩ := give_eq_ok_iff.mp hfirst
    obtain ⟨got, hsub, hbins⟩ := ih hrest
    by_cases hb : b = c
    · subst hb
      refine ⟨x :: got, hsub.cons_cons x, ?_⟩
      rw [hbins]
      simp
    · exact ⟨got, hsub.cons x, by rw [hbins]; simp [Function.update_of_ne hb]⟩

/-! ### Shapes -/

/-- The dealer stands at the same place over equally filled bins. -/
structure SameShape (t : Table γ β ι) (u : Table γ β κ) : Prop where
  pos : t.pos = u.pos
  load : t.load = u.load

/-- One item more leaves the shapes equal. -/
theorem SameShape.give {u : Table γ β κ} {y : κ} (hshape : SameShape t u)
    (h : give choose t x = .ok t') : ∃ u', give choose u y = .ok u' ∧ SameShape t' u' := by
  obtain ⟨pos, b, hchoose, rfl⟩ := give_eq_ok_iff.mp h
  rw [hshape.pos, hshape.load] at hchoose
  refine ⟨_, give_eq_ok_iff.mpr ⟨pos, b, hchoose, rfl⟩, rfl, ?_⟩
  funext c
  have hload := congrFun hshape.load c
  by_cases hc : c = b
  · subst hc
    simpa [Table.load] using hload
  · simpa [Table.load, Function.update_of_ne hc] using hload

/-- **Equal lengths are dealt alike**, whatever the items are. -/
theorem SameShape.deal {u : Table γ β κ} {ys : List κ} (hshape : SameShape t u)
    (hlen : xs.length = ys.length) (h : deal choose t xs = .ok t') :
    ∃ u', deal choose u ys = .ok u' ∧ SameShape t' u' := by
  induction xs generalizing t u ys with
  | nil =>
    cases h
    cases List.length_eq_zero_iff.mp hlen.symm
    exact ⟨u, rfl, hshape⟩
  | cons x xs ih =>
    cases ys with
    | nil => cases hlen
    | cons y ys =>
      obtain ⟨t₁, hfirst, hrest⟩ := deal_cons_eq_ok_iff.mp h
      obtain ⟨u₁, hgive, hshape₁⟩ := hshape.give (y := y) hfirst
      obtain ⟨u', hdeal, hshape'⟩ := ih hshape₁ (Nat.succ.inj hlen) hrest
      exact ⟨u', deal_cons_eq_ok_iff.mpr ⟨u₁, hgive, hdeal⟩, hshape'⟩

end SecureWan.Dealing
