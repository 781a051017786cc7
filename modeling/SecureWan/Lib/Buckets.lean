import Mathlib.Data.List.Basic
import Mathlib.Data.List.Perm.Basic
import Mathlib.Logic.Function.Basic

/-!
# Queues by key

A family of first-in first-out queues, one for each key. Elements go to the queue of their key,
and a list of keys says from which queues elements are taken. Of a burst, some elements are let
in and the others are refused.
-/

namespace SecureWan.Buckets

variable {α κ : Type*} [DecidableEq κ] (key : α → κ)

/-- The elements of one key, in order. -/
def ofKey (k : κ) (l : List α) : List α := l.filter fun a => key a == k

/-- Elements go to the ends of the queues of their keys. -/
def put (queues : κ → List α) (l : List α) : κ → List α :=
  l.foldl (fun queues a => Function.update queues (key a) (queues (key a) ++ [a])) queues

/-- The first element of one queue after the other, where there is one. -/
def take (queues : κ → List α) : List κ → List α × (κ → List α)
  | [] => ([], queues)
  | k :: ks =>
    match queues k with
    | [] => take queues ks
    | a :: rest =>
      let later := take (Function.update queues k rest) ks
      (a :: later.1, later.2)

/-- The elements of a burst that are let in, by their places. -/
def letIn (accepted : ℕ → Bool) (l : List α) : List α :=
  (l.zipIdx.filter fun y => accepted y.2).map Prod.fst

/-- The elements of a burst that are refused. -/
def refused (accepted : ℕ → Bool) (l : List α) : List α := letIn (fun i => !accepted i) l

/-- Each queue holds elements of its key only. -/
def Sorted (queues : κ → List α) : Prop := ∀ k, ∀ a ∈ queues k, key a = k

variable {key} {k : κ} {l l' : List α} {queues : κ → List α}

@[simp] theorem ofKey_nil : ofKey key k [] = [] := rfl

@[simp] theorem ofKey_append : ofKey key k (l ++ l') = ofKey key k l ++ ofKey key k l' :=
  List.filter_append ..

theorem ofKey_cons (a : α) :
    ofKey key k (a :: l) = ofKey key k [a] ++ ofKey key k l := by
  rw [← List.singleton_append, ofKey_append]

theorem ofKey_sublist (h : l.Sublist l') : (ofKey key k l).Sublist (ofKey key k l') := h.filter _

theorem ofKey_perm (h : l.Perm l') : (ofKey key k l).Perm (ofKey key k l') := h.filter _

theorem ofKey_of_key {a : α} (h : key a = k) : ofKey key k [a] = [a] := by
  simp [ofKey, h]

theorem ofKey_of_ne {a : α} (h : key a ≠ k) : ofKey key k [a] = [] := by
  simp [ofKey, h]

/-- Lists that agree key by key agree but for the order. -/
theorem perm_of_ofKey (h : ∀ k, (ofKey key k l).Perm (ofKey key k l')) : l.Perm l' := by
  classical
  rw [List.perm_iff_count]
  intro a
  have hcount (m : List α) : (ofKey key (key a) m).count a = m.count a :=
    List.count_filter (beq_self_eq_true (key a))
  rw [← hcount l, ← hcount l', (h (key a)).count_eq]

/-! ### Putting in -/

theorem put_apply (queues : κ → List α) (l : List α) (k : κ) :
    put key queues l k = queues k ++ ofKey key k l := by
  induction l generalizing queues with
  | nil => exact (List.append_nil _).symm
  | cons a l ih =>
    have hrest := ih (Function.update queues (key a) (queues (key a) ++ [a]))
    rw [put, List.foldl_cons, ← put, hrest, ofKey_cons, ← List.append_assoc]
    by_cases hk : k = key a
    · rw [hk, Function.update_self, ofKey_of_key rfl]
    · rw [Function.update_of_ne hk, ofKey_of_ne (Ne.symm hk), List.append_nil]

theorem Sorted.put (h : Sorted key queues) (l : List α) : Sorted key (put key queues l) := by
  intro k a ha
  rw [put_apply, List.mem_append] at ha
  rcases ha with hold | hnew
  · exact h k a hold
  · exact eq_of_beq (List.mem_filter.mp hnew).2

omit [DecidableEq κ] in
theorem sorted_empty : Sorted key fun _ => [] := fun _ a ha => by cases ha

/-! ### Taking out -/

theorem take_cons_of_nil {ks : List κ} (h : queues k = []) :
    take queues (k :: ks) = take queues ks := by
  rw [take, h]

theorem take_cons_of_cons {a : α} {rest : List α} {ks : List κ} (h : queues k = a :: rest) :
    take queues (k :: ks) =
      (a :: (take (Function.update queues k rest) ks).1,
        (take (Function.update queues k rest) ks).2) := by
  rw [take, h]

theorem Sorted.update_tail {a : α} {rest : List α} (h : Sorted key queues)
    (hk : queues k = a :: rest) : Sorted key (Function.update queues k rest) := by
  intro j b hb
  by_cases hj : j = k
  · subst hj
    rw [Function.update_self] at hb
    exact h j b (by rw [hk]; exact List.mem_cons_of_mem _ hb)
  · rw [Function.update_of_ne hj] at hb
    exact h j b hb

/-- **Order by key.** What is taken out comes before what stays, for each key. -/
theorem ofKey_take (h : Sorted key queues) (ks : List κ) (k : κ) :
    ofKey key k (take queues ks).1 ++ (take queues ks).2 k = queues k := by
  induction ks generalizing queues with
  | nil => rfl
  | cons j ks ih =>
    cases hj : queues j with
    | nil => rw [take_cons_of_nil hj, ih h]
    | cons a rest =>
      have hkey : key a = j := h j a (by rw [hj]; exact List.mem_cons_self)
      rw [take_cons_of_cons hj, ofKey_cons, List.append_assoc, ih (h.update_tail hj)]
      by_cases hk : k = j
      · rw [hk, ofKey_of_key hkey, Function.update_self, hj, List.singleton_append]
      · rw [ofKey_of_ne (by rw [hkey]; exact Ne.symm hk), Function.update_of_ne hk,
          List.nil_append]

theorem Sorted.take (h : Sorted key queues) (ks : List κ) :
    Sorted key (take queues ks).2 := by
  intro k a ha
  apply h k a
  rw [← ofKey_take h ks k]
  exact List.mem_append_right _ ha

theorem length_take_le (queues : κ → List α) (ks : List κ) :
    (take queues ks).1.length ≤ ks.length := by
  induction ks generalizing queues with
  | nil => exact Nat.le_refl 0
  | cons j ks ih =>
    cases hj : queues j with
    | nil =>
      rw [take_cons_of_nil hj]
      exact Nat.le_trans (ih queues) (Nat.le_succ _)
    | cons a rest =>
      rw [take_cons_of_cons hj]
      exact Nat.succ_le_succ (ih _)

/-- Out of empty queues nothing is taken. -/
theorem take_empty (h : ∀ k, queues k = []) (ks : List κ) : take queues ks = ([], queues) := by
  induction ks with
  | nil => rfl
  | cons k ks ih => rw [take_cons_of_nil (h k), ih]

/-! ### Bursts -/

theorem letIn_sublist (accepted : ℕ → Bool) (l : List α) : (letIn accepted l).Sublist l := by
  have hsub := (List.filter_sublist (p := fun y : α × ℕ => accepted y.2) (l := l.zipIdx)).map
    Prod.fst
  rwa [List.zipIdx_map_fst] at hsub

/-- Each element is let in or refused. -/
theorem letIn_append_refused_perm (accepted : ℕ → Bool) (l : List α) :
    (letIn accepted l ++ refused accepted l).Perm l := by
  have hperm := (List.filter_append_perm (fun y : α × ℕ => accepted y.2) l.zipIdx).map Prod.fst
  rwa [List.map_append, List.zipIdx_map_fst] at hperm

/-- A part `a` of `c` moves past `b` to the rest of `c`. -/
theorem perm_append_split {a b c d e : List α} (h : (a ++ c).Perm d) :
    (a ++ (b ++ (c ++ e))).Perm (b ++ (d ++ e)) := by
  refine (List.perm_append_comm_assoc a b (c ++ e)).trans (List.Perm.append_left _ ?_)
  rw [← List.append_assoc]
  exact h.append_right _

/-- Nothing that is let in comes behind something refused. -/
def RefusedLast (accepted : ℕ → Bool) (n : ℕ) : Prop :=
  ∀ i j, i < j → j < n → accepted j = true → accepted i = true

theorem length_letIn (accepted : ℕ → Bool) (l : List α) :
    (letIn accepted l).length = (List.range l.length).countP accepted := by
  rw [letIn, List.length_map, ← List.countP_eq_length_filter, List.range_eq_range',
    ← List.zipIdx_map_snd 0 l, List.countP_map]
  rfl

theorem countP_range_add (p : ℕ → Bool) (i d : ℕ) :
    (List.range (i + d)).countP p = (List.range i).countP p + (List.range' i d).countP p := by
  rw [List.range_add, ← List.range'_eq_map_range, List.countP_append]

/-- The first places of a burst, as many as are let in, are those let in exactly where nothing
refused comes before. -/
theorem forall_lt_length_letIn_iff (accepted : ℕ → Bool) (l : List α) :
    (∀ i < (letIn accepted l).length, accepted i = true) ↔ RefusedLast accepted l.length := by
  rw [length_letIn]
  have hle : (List.range l.length).countP accepted ≤ l.length := by
    have hlength := List.countP_le_length (p := accepted) (l := List.range l.length)
    rwa [List.length_range] at hlength
  obtain ⟨d, hd⟩ := Nat.exists_eq_add_of_le hle
  constructor
  · intro hfirst i j hij hj haccepted
    -- the count is used up by the first places
    have hcount := countP_range_add accepted ((List.range l.length).countP accepted) d
    rw [← hd] at hcount
    have hall : (List.range ((List.range l.length).countP accepted)).countP accepted =
        (List.range l.length).countP accepted := by
      have hcountAll := List.countP_eq_length (p := accepted)
        (l := List.range ((List.range l.length).countP accepted)) |>.mpr
        fun i hi => hfirst i (List.mem_range.mp hi)
      rwa [List.length_range] at hcountAll
    have hrest : (List.range' ((List.range l.length).countP accepted) d).countP accepted = 0 := by
      omega
    apply hfirst
    by_contra hlt
    have hmem : j ∈ List.range' ((List.range l.length).countP accepted) d := by
      rw [List.mem_range'_1]
      omega
    exact List.countP_eq_zero.mp hrest j hmem haccepted
  · intro hlast i hi
    by_contra hrefused
    obtain ⟨e, he⟩ := Nat.exists_eq_add_of_lt (Nat.lt_of_lt_of_le hi hle)
    have hcount := countP_range_add accepted i (e + 1)
    rw [← Nat.add_assoc, ← he] at hcount
    have hbehind : (List.range' i (e + 1)).countP accepted = 0 := by
      rw [List.countP_eq_zero]
      intro j hj haccepted
      rw [List.mem_range'_1] at hj
      rcases Nat.eq_or_lt_of_le hj.1 with rfl | hlt
      · exact hrefused haccepted
      · exact hrefused (hlast i j hlt (by omega) haccepted)
    have hfew := List.countP_le_length (p := accepted) (l := List.range i)
    rw [List.length_range] at hfew
    omega

end SecureWan.Buckets
