import SecureWan.Lib.Runs
import Mathlib.Tactic.Common

/-!
# Labels of numbered groups

The elements of a stream belong to groups that are numbered in order, and each element has a
label. Between groups there can be gaps. The labels tell the groups apart when all elements of
a group have one label and two groups with a gap between them have different ones.
-/

namespace SecureWan.Labelling

variable {τ : Type*}

/-- An element with the number of its group and its label, or a gap. -/
abbrev Item (τ : Type*) := Option (ℕ × τ)

/-- An element fits behind some others. -/
def Fits (items : List (Item τ)) (m : ℕ) (u : τ) : Prop :=
  ∀ before n t mid, items = before ++ some (n, t) :: mid →
    (n = m → t = u) ∧ (m = n + 1 → none ∈ mid → t ≠ u)

/-- The elements of a group have one label, and two groups in a row with a gap between them have
different ones. -/
def Separates (items : List (Item τ)) : Prop :=
  ∀ before m u behind, items = before ++ some (m, u) :: behind → Fits before m u

/-- The last group has a number and a label, with some gaps behind it. -/
def Ends (items : List (Item τ)) (n : ℕ) (t : τ) (gaps : ℕ) : Prop :=
  ∃ front k, items = front ++ List.replicate (k + 1) (some (n, t)) ++ List.replicate gaps none ∧
    ∀ m u, some (m, u) ∈ front → m < n

variable {items : List (Item τ)} {n m gaps : ℕ} {t u : τ}

theorem separates_nil : Separates ([] : List (Item τ)) := by
  intro before m u behind h
  simp at h

/-- One more item. -/
theorem separates_concat (item : Item τ) :
    Separates (items ++ [item]) ↔
      Separates items ∧ ∀ m u, item = some (m, u) → Fits items m u := by
  have hsplit : ∀ l : List (Item τ), Separates l ↔
      ∀ pre y suf, l = pre ++ y :: suf → ∀ m u, y = some (m, u) → Fits pre m u := by
    intro l
    constructor
    · rintro h pre y suf heq m u rfl
      exact h pre m u suf heq
    · intro h before m u behind heq
      exact h before _ behind heq m u rfl
  rw [hsplit, hsplit, Runs.forall_split_concat]

/-- A gap separates. -/
theorem separates_gap : Separates (items ++ [none]) ↔ Separates items := by
  rw [separates_concat]
  exact and_iff_left fun m u h => by cases h

/-- The first element of all fits. -/
theorem separates_first (h : ∀ m u, some (m, u) ∉ items) (item : Item τ) :
    Separates (items ++ [item]) ↔ Separates items := by
  rw [separates_concat]
  refine and_iff_left fun m u _ before n t mid heq => absurd ?_ (h n t)
  rw [heq]
  simp

/-! ### The last group -/

theorem Ends.le (h : Ends items n t gaps) (hmem : some (m, u) ∈ items) : m ≤ n := by
  obtain ⟨front, k, rfl, hfront⟩ := h
  rcases List.mem_append.mp hmem with hmem | hmem
  · rcases List.mem_append.mp hmem with hmem | hmem
    · exact Nat.le_of_lt (hfront m u hmem)
    · obtain ⟨rfl, -⟩ := Prod.mk.inj (Option.some.inj (List.eq_of_mem_replicate hmem))
      exact Nat.le_refl _
  · cases List.eq_of_mem_replicate hmem

theorem Ends.gap (h : Ends items n t gaps) : Ends (items ++ [none]) n t (gaps + 1) := by
  obtain ⟨front, k, rfl, hfront⟩ := h
  exact ⟨front, k, by rw [List.append_assoc, ← List.replicate_succ'], hfront⟩

theorem Ends.same (h : Ends items n t 0) : Ends (items ++ [some (n, t)]) n t 0 := by
  obtain ⟨front, k, rfl, hfront⟩ := h
  refine ⟨front, k + 1, ?_, hfront⟩
  rw [List.replicate_zero, List.append_nil, List.append_nil, List.append_assoc,
    ← List.replicate_succ']

theorem ends_new (h : ∀ m u, some (m, u) ∈ items → m < n) (t : τ) :
    Ends (items ++ [some (n, t)]) n t 0 := ⟨items, 0, by simp, h⟩

/-- An element of a group that is not the last one is in front of it. -/
theorem exists_front {front mid before : List (Item τ)} {k : ℕ} (hne : m ≠ n)
    (heq : front ++ List.replicate (k + 1) (some (n, t)) ++ List.replicate gaps none =
      before ++ some (m, u) :: mid) :
    ∃ between, front = before ++ some (m, u) :: between ∧
      mid = between ++ (List.replicate (k + 1) (some (n, t)) ++ List.replicate gaps none) := by
  rw [List.append_assoc, List.append_eq_append_iff] at heq
  rcases heq with ⟨rest, -, hrest⟩ | ⟨rest, hfront, hrest⟩
  · have hmem : some (m, u) ∈
        List.replicate (k + 1) (some (n, t)) ++ List.replicate gaps none := by
      rw [hrest]
      simp
    rcases List.mem_append.mp hmem with hmem | hmem
    · exact absurd (Prod.mk.inj (Option.some.inj (List.eq_of_mem_replicate hmem))).1 hne
    · cases List.eq_of_mem_replicate hmem
  · cases rest with
    | nil =>
      rw [List.nil_append, List.replicate_succ, List.cons_append] at hrest
      exact absurd (Prod.mk.inj (Option.some.inj (List.cons.inj hrest).1)).1 hne
    | cons y between =>
      rw [List.cons_append] at hrest
      obtain ⟨rfl, hmid⟩ := List.cons.inj hrest
      exact ⟨between, hfront, hmid⟩

/-- There is no gap within the last group. -/
theorem none_notMem_behind {front mid before : List (Item τ)} {k : ℕ}
    (hfront : ∀ m u, some (m, u) ∈ front → m < n)
    (heq : front ++ List.replicate (k + 1) (some (n, t)) = before ++ some (n, u) :: mid) :
    none ∉ mid := by
  intro hgap
  have hout : none ∉ List.replicate (k + 1) (some (n, t)) := fun h => by
    cases List.eq_of_mem_replicate h
  rw [List.append_eq_append_iff] at heq
  rcases heq with ⟨rest, -, hrest⟩ | ⟨rest, hbefore, hrest⟩
  · exact hout (by rw [hrest]; simp [hgap])
  · cases rest with
    | nil =>
      rw [List.nil_append] at hrest
      exact hout (by rw [← hrest]; simp [hgap])
    | cons y rest =>
      obtain ⟨rfl, -⟩ := List.cons.inj hrest
      exact absurd (hfront n u (by rw [hbefore]; simp)) (Nat.lt_irrefl n)

/-- **The last group goes on** with its label. -/
theorem Ends.separates_same (h : Ends items n t 0) :
    Separates (items ++ [some (n, t)]) ↔ Separates items := by
  rw [separates_concat]
  refine and_iff_left_of_imp fun hold m u heq => ?_
  obtain ⟨rfl, rfl⟩ := Prod.mk.inj (Option.some.inj heq)
  obtain ⟨front, k, rfl, hfront⟩ := h
  intro before m u mid heq
  by_cases hnumber : m = n
  · refine ⟨fun _ => ?_, fun hnext => by omega⟩
    have hmem : some (m, u) ∈
        front ++ List.replicate (k + 1) (some (n, t)) ++ List.replicate 0 none := by
      rw [heq]
      simp
    rw [List.replicate_zero, List.append_nil] at hmem
    rcases List.mem_append.mp hmem with hmem | hmem
    · exact absurd (hfront m u hmem) (by omega)
    · exact (Prod.mk.inj (Option.some.inj (List.eq_of_mem_replicate hmem))).2
  · refine ⟨fun hsame => absurd hsame hnumber, fun hnext hgap => ?_⟩
    obtain ⟨between, rfl, rfl⟩ := exists_front hnumber heq
    have hbetween : none ∈ between := by
      rcases List.mem_append.mp hgap with hgap | hgap
      · exact hgap
      · rw [List.replicate_zero, List.append_nil] at hgap
        cases List.eq_of_mem_replicate hgap
    -- the gap is in front of the first element of the last group
    have hfirst := hold (before ++ some (m, u) :: between) n t (List.replicate k (some (n, t)))
      (by rw [List.replicate_zero, List.append_nil, List.replicate_succ])
    exact (hfirst before m u between rfl).2 hnext hbetween

/-- **A new group** needs another label when there is a gap in front of it. -/
theorem Ends.separates_new (h : Ends items n t gaps) :
    Separates (items ++ [some (n + 1, u)]) ↔ Separates items ∧ (0 < gaps → t ≠ u) := by
  have hle : ∀ m u, some (m, u) ∈ items → m ≤ n := fun m u => h.le
  rw [separates_concat]
  refine and_congr_right fun hold => ?_
  obtain ⟨front, k, rfl, hfront⟩ := h
  constructor
  · intro hfits hgaps
    refine (hfits (n + 1) u rfl (front ++ List.replicate k (some (n, t))) n t
      (List.replicate gaps none) ?_).2 rfl (by simp; omega)
    rw [List.replicate_succ']
    simp
  · rintro hlabel m u heq before m' u' mid hsplit
    obtain ⟨rfl, rfl⟩ := Prod.mk.inj (Option.some.inj heq)
    have hmem : some (m', u') ∈
        front ++ List.replicate (k + 1) (some (n, t)) ++ List.replicate gaps none := by
      rw [hsplit]
      simp
    have hm' := hle m' u' hmem
    refine ⟨fun hsame => by omega, fun hnext hgap => ?_⟩
    obtain rfl : m' = n := by omega
    obtain rfl : u' = t := by
      rcases List.mem_append.mp hmem with hmem | hmem
      · rcases List.mem_append.mp hmem with hmem | hmem
        · exact absurd (hfront m' u' hmem) (Nat.lt_irrefl m')
        · exact (Prod.mk.inj (Option.some.inj (List.eq_of_mem_replicate hmem))).2
      · cases List.eq_of_mem_replicate hmem
    refine hlabel (Nat.pos_of_ne_zero fun hzero => ?_)
    rw [hzero, List.replicate_zero, List.append_nil] at hsplit
    exact none_notMem_behind hfront hsplit hgap

end SecureWan.Labelling
