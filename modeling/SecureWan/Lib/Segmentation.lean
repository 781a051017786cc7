import SecureWan.Lib.Runs
import Mathlib.Data.List.Basic
import Mathlib.Data.List.Flatten
import Mathlib.Tactic.Common

/-!
# Groups of consecutive elements

The elements of a stream that satisfy a predicate fall into groups of consecutive ones, with
at least one other element between two groups. A group is closed by the element behind it.
Groups are numbered in the order in which they begin; as the stream goes on, elements are
only added to the last one, or to a new one.
-/

namespace SecureWan

/-- The groups closed so far and the elements of the one that is open, if there is one. -/
structure Segmentation (α : Type*) where
  closed : List (List α)
  current : List α

namespace Segmentation

variable {α : Type*} (p : α → Bool)

/-- The state before the stream. -/
def start : Segmentation α := ⟨[], []⟩

/-- All groups so far. -/
def groups (g : Segmentation α) : List (List α) :=
  match g.current with
  | [] => g.closed
  | x :: xs => g.closed ++ [x :: xs]

/-- The next element of the stream. -/
def push (g : Segmentation α) (x : α) : Segmentation α :=
  if p x then { g with current := g.current ++ [x] } else ⟨g.groups, []⟩

/-- Groups of a list with the number of the first one: their elements with their numbers. -/
def numberedFrom (n : ℕ) : List (List α) → List (α × ℕ)
  | [] => []
  | f :: fs => f.map (fun x => (x, n)) ++ numberedFrom (n + 1) fs

/-- The elements of the groups with the numbers of their groups, in order. -/
def numbered (g : Segmentation α) : List (α × ℕ) := numberedFrom 0 g.groups

/-! ### Lists of groups -/

theorem numberedFrom_append (n : ℕ) (fs gs : List (List α)) :
    numberedFrom n (fs ++ gs) = numberedFrom n fs ++ numberedFrom (n + fs.length) gs := by
  induction fs generalizing n with
  | nil => rfl
  | cons f fs ih =>
    simp only [List.cons_append, numberedFrom, ih, List.append_assoc, List.length_cons]
    congr 3
    omega

theorem mem_numberedFrom {n : ℕ} {fs : List (List α)} {x : α} {j : ℕ} :
    (x, j) ∈ numberedFrom n fs ↔ ∃ i f, j = n + i ∧ fs[i]? = some f ∧ x ∈ f := by
  induction fs generalizing n with
  | nil => simp [numberedFrom]
  | cons f fs ih =>
    simp only [numberedFrom, List.mem_append, List.mem_map, Prod.mk.injEq, ih]
    constructor
    · rintro (⟨y, hy, rfl, rfl⟩ | ⟨i, f', rfl, hf', hx⟩)
      · exact ⟨0, f, rfl, rfl, hy⟩
      · exact ⟨i + 1, f', by omega, hf', hx⟩
    · rintro ⟨i, f', rfl, hf', hx⟩
      cases i with
      | zero =>
        obtain rfl := Option.some.inj hf'
        exact .inl ⟨x, hx, rfl, rfl⟩
      | succ i => exact .inr ⟨i, f', by omega, hf', hx⟩

/-- Picking groups is picking elements by the numbers of their groups. -/
theorem flatten_filter {n : ℕ} {fs : List (List α)} {q : List α → Bool} {r : ℕ → Bool}
    (h : ∀ i f, fs[i]? = some f → r (n + i) = q f) :
    (fs.filter q).flatten = ((numberedFrom n fs).filter fun y => r y.2).map Prod.fst := by
  induction fs generalizing n with
  | nil => rfl
  | cons f fs ih =>
    have hhead : r n = q f := h 0 f rfl
    have htail := ih (n := n + 1) fun i f' hf' => by
      have hf := h (i + 1) f' hf'
      rwa [Nat.add_assoc, Nat.add_comm 1 i]
    rw [numberedFrom, List.filter_append, List.map_append, ← htail, List.filter_map,
      List.map_map]
    cases hq : q f with
    | true => simp [hq, hhead, Function.comp_def]
    | false => simp [hq, hhead, Function.comp_def]

/-! ### The next element -/

variable {p} {g : Segmentation α} {x : α}

theorem groups_of_current (g : Segmentation α) :
    (g.current = [] ∧ g.groups = g.closed) ∨
      (g.current ≠ [] ∧ g.groups = g.closed ++ [g.current]) := by
  unfold groups
  cases hcur : g.current with
  | nil => exact .inl ⟨rfl, rfl⟩
  | cons y ys => exact .inr ⟨by simp, rfl⟩

theorem push_of_pos (h : p x) :
    push p g x = { g with current := g.current ++ [x] } := by rw [push, if_pos h]

theorem push_of_neg (h : ¬ p x) : push p g x = ⟨g.groups, []⟩ := by rw [push, if_neg h]

theorem groups_push_of_pos (h : p x) :
    (push p g x).groups = g.closed ++ [g.current ++ [x]] := by
  rw [push_of_pos h, groups]
  cases g.current <;> rfl

theorem groups_push_of_neg (h : ¬ p x) : (push p g x).groups = g.groups := by
  rw [push_of_neg h]
  rfl

/-- An element of a group goes to the open one, or to a new one. -/
theorem numbered_push_of_pos (h : p x) :
    (push p g x).numbered = g.numbered ++ [(x, g.closed.length)] := by
  rw [numbered, numbered, groups_push_of_pos h]
  rcases g.groups_of_current with ⟨hcur, hgroups⟩ | ⟨hcur, hgroups⟩
  · rw [hcur, hgroups, numberedFrom_append]
    simp [numberedFrom]
  · rw [hgroups, numberedFrom_append, numberedFrom_append]
    simp [numberedFrom]

theorem numbered_push_of_neg (h : ¬ p x) : (push p g x).numbered = g.numbered := by
  rw [numbered, groups_push_of_neg h]
  rfl

/-- Groups that are closed stay. -/
theorem closed_prefix_push (g : Segmentation α) (x : α) : g.closed <+: (push p g x).closed := by
  unfold push
  split
  · exact List.prefix_rfl
  · rcases g.groups_of_current with ⟨-, hgroups⟩ | ⟨-, hgroups⟩
    · rw [hgroups]
    · rw [hgroups]
      exact List.prefix_append _ _

theorem closed_prefix_run (g : Segmentation α) (xs : List α) :
    g.closed <+: (Runs.run (push p) g xs).closed := by
  induction xs generalizing g with
  | nil => exact List.prefix_rfl
  | cons x xs ih => exact (closed_prefix_push g x).trans (ih _)

/-- Elements stay in their groups. -/
theorem numbered_prefix_run (g : Segmentation α) (xs : List α) :
    g.numbered <+: (Runs.run (push p) g xs).numbered := by
  induction xs generalizing g with
  | nil => exact List.prefix_rfl
  | cons x xs ih =>
    apply List.IsPrefix.trans _ (ih (push p g x))
    by_cases hx : p x
    · rw [numbered_push_of_pos hx]
      exact List.prefix_append _ _
    · rw [numbered_push_of_neg hx]

/-- The elements with a number are those of the group with it. -/
theorem mem_numbered {j : ℕ} : (x, j) ∈ g.numbered ↔ ∃ f, g.groups[j]? = some f ∧ x ∈ f := by
  rw [numbered, mem_numberedFrom]
  constructor
  · rintro ⟨i, f, hj, hf, hx⟩
    rw [Nat.zero_add] at hj
    exact ⟨f, hj ▸ hf, hx⟩
  · rintro ⟨f, hf, hx⟩
    exact ⟨j, f, (Nat.zero_add j).symm, hf, hx⟩

theorem lt_of_mem_numbered {y : α × ℕ} (hy : y ∈ g.numbered) : y.2 < g.groups.length := by
  obtain ⟨f, hf, -⟩ := mem_numbered.mp hy
  exact (List.getElem?_eq_some_iff.mp hf).1

theorem length_groups (g : Segmentation α) :
    g.closed.length ≤ g.groups.length ∧ g.groups.length ≤ g.closed.length + 1 := by
  rcases g.groups_of_current with ⟨-, hgroups⟩ | ⟨-, hgroups⟩
  · rw [hgroups]
    omega
  · rw [hgroups, List.length_append, List.length_singleton]
    omega

/-- No group is empty. -/
theorem ne_nil_of_mem_groups_run {g : Segmentation α} (hg : ∀ f ∈ g.groups, f ≠ [])
    (xs : List α) : ∀ f ∈ (Runs.run (push p) g xs).groups, f ≠ [] := by
  induction xs generalizing g with
  | nil => exact hg
  | cons x xs ih =>
    apply ih
    by_cases hx : p x
    · rw [groups_push_of_pos hx]
      rcases g.groups_of_current with ⟨-, hgroups⟩ | ⟨-, hgroups⟩
      all_goals
        rw [hgroups] at hg
        intro f hf
        rcases List.mem_append.mp hf with hclosed | hlast
        · exact hg f (by simp [hclosed])
        · rw [List.mem_singleton.mp hlast]
          simp
    · rw [groups_push_of_neg hx]
      exact hg

/-! ### The elements of the groups -/

/-- The numbered elements are those of the groups. -/
theorem map_fst_numberedFrom (n : ℕ) (fs : List (List α)) :
    (numberedFrom n fs).map Prod.fst = fs.flatten := by
  induction fs generalizing n with
  | nil => rfl
  | cons f fs ih => simp [numberedFrom, ih, Function.comp_def]

theorem flatten_groups_push (g : Segmentation α) (x : α) :
    (push p g x).groups.flatten = g.groups.flatten ++ [x].filter p := by
  by_cases hx : p x
  · rw [groups_push_of_pos hx, List.filter_cons_of_pos hx]
    rcases g.groups_of_current with ⟨hcur, hgroups⟩ | ⟨-, hgroups⟩
    · simp [hcur, hgroups]
    · simp [hgroups]
  · rw [groups_push_of_neg hx, List.filter_cons_of_neg hx]
    simp

/-- The groups hold the elements of the stream that satisfy the predicate, in order. -/
theorem flatten_groups_run (g : Segmentation α) (xs : List α) :
    (Runs.run (push p) g xs).groups.flatten = g.groups.flatten ++ xs.filter p := by
  induction xs generalizing g with
  | nil => simp
  | cons x xs ih =>
    rw [Runs.run_cons, ih, flatten_groups_push, List.append_assoc, ← List.filter_append,
      List.singleton_append]

variable {β : Type*} {h : β → α}

/-- The groups of other elements. -/
def map (h : β → α) (g : Segmentation β) : Segmentation α :=
  ⟨g.closed.map (List.map h), g.current.map h⟩

theorem groups_map (g : Segmentation β) : (g.map h).groups = g.groups.map (List.map h) := by
  unfold groups map
  cases g.current with
  | nil => rfl
  | cons x xs => simp

theorem push_map (g : Segmentation β) (x : β) :
    push p (g.map h) (h x) = (push (fun y => p (h y)) g x).map h := by
  by_cases hx : p (h x)
  · rw [push_of_pos hx, push_of_pos (p := fun y => p (h y)) hx]
    simp [map]
  · rw [push_of_neg hx, push_of_neg (p := fun y => p (h y)) hx, groups_map]
    rfl

/-- What else the elements carry does not matter for the groups. -/
theorem run_map (g : Segmentation β) (xs : List β) :
    Runs.run (push p) (g.map h) (xs.map h) =
      (Runs.run (push fun y => p (h y)) g xs).map h := by
  induction xs generalizing g with
  | nil => rfl
  | cons x xs ih => rw [List.map_cons, Runs.run_cons, Runs.run_cons, push_map, ih]

/-! ### How fast groups come -/

/-- What has been seen of the groups, when each is `m` long at least and closed by one more
element. -/
def weight (m : ℕ) (g : Segmentation α) : ℕ := (m + 1) * g.closed.length + min g.current.length m

/-- One element adds at most one to the weight. -/
theorem weight_push_le {m : ℕ} (h : ∀ f ∈ (push p g x).closed, m ≤ f.length) :
    (push p g x).weight m ≤ g.weight m + 1 := by
  unfold weight
  by_cases hx : p x
  · rw [push_of_pos hx]
    simp only [List.length_append, List.length_singleton]
    omega
  · rw [push_of_neg hx] at h ⊢
    rcases g.groups_of_current with ⟨hcur, hgroups⟩ | ⟨hcur, hgroups⟩
    · rw [hgroups]
      simp [hcur]
    · rw [hgroups] at h ⊢
      have hlen : m ≤ g.current.length := h _ (by simp)
      simp only [List.length_append, List.length_singleton, List.length_nil, Nat.mul_add]
      omega

/-- Some elements add at most their number to the weight. -/
theorem weight_run_le {m : ℕ} {g : Segmentation α} (xs : List α)
    (h : ∀ f ∈ (Runs.run (push p) g xs).closed, m ≤ f.length) :
    (Runs.run (push p) g xs).weight m ≤ g.weight m + xs.length := by
  induction xs generalizing g with
  | nil => exact Nat.le_refl _
  | cons x xs ih =>
    rw [Runs.run_cons] at h ⊢
    have hrest := ih h
    have hpush : (push p g x).weight m ≤ g.weight m + 1 :=
      weight_push_le fun f hf => h f ((closed_prefix_run _ xs).subset hf)
    rw [List.length_cons]
    omega

end Segmentation

end SecureWan
