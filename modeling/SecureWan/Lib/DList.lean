import Mathlib.Data.List.Nodup
import Mathlib.Logic.Function.Basic

/-!
# Doubly linked lists

Cells with two pointers in a memory, and the lists that run through them. The pointer
updates of the usual operations (push and pop at the head, and unlinking a cell anywhere)
are followed by what they do to the list.
-/

namespace SecureWan.DList

variable {α : Type*} [DecidableEq α]

/-- The two pointers of a cell. -/
structure Cell (α : Type*) where
  prev : Option α
  next : Option α

/-- `p->next = next`, unless `p` is null. -/
def setNext (m : α → Cell α) (p next : Option α) : α → Cell α :=
  match p with
  | none => m
  | some a => Function.update m a { m a with next := next }

/-- `p->prev = prev`, unless `p` is null. -/
def setPrev (m : α → Cell α) (p prev : Option α) : α → Cell α :=
  match p with
  | none => m
  | some a => Function.update m a { m a with prev := prev }

/-- The cells of `l` follow one another, between `before` and `after`. -/
def Seg (m : α → Cell α) : Option α → List α → Option α → Prop
  | _, [], _ => True
  | before, a :: l, after =>
    (m a).prev = before ∧ (m a).next = l.head?.or after ∧ Seg m (some a) l after

/-- From `head`, the next pointers go through the cells of `l`, each once, to null, and the
previous pointers go back the same way. -/
structure Linked (m : α → Cell α) (head : Option α) (l : List α) : Prop where
  head_eq : head = l.head?
  seg : Seg m none l none
  nodup : l.Nodup

variable {m m' : α → Cell α} {before after head : Option α} {l l₁ l₂ : List α} {a : α}

section Writes

theorem setNext_of_ne {p : Option α} (h : p ≠ some a) (next : Option α) :
    setNext m p next a = m a := by
  cases p with
  | none => rfl
  | some b => exact Function.update_of_ne (fun heq => h (congrArg some heq.symm)) _ _

theorem setPrev_of_ne {p : Option α} (h : p ≠ some a) (prev : Option α) :
    setPrev m p prev a = m a := by
  cases p with
  | none => rfl
  | some b => exact Function.update_of_ne (fun heq => h (congrArg some heq.symm)) _ _

omit [DecidableEq α] in
/-- A segment depends on its own cells only. -/
theorem Seg.congr (h : Seg m before l after) (hsame : ∀ a ∈ l, m' a = m a) :
    Seg m' before l after := by
  induction l generalizing before with
  | nil => trivial
  | cons a l ih =>
    obtain ⟨hprev, hnext, hrest⟩ := h
    rw [Seg, hsame a List.mem_cons_self]
    exact ⟨hprev, hnext, ih hrest fun b hb => hsame b (List.mem_cons_of_mem a hb)⟩

omit [DecidableEq α] in
theorem Linked.congr (h : Linked m head l) (hsame : ∀ a ∈ l, m' a = m a) : Linked m' head l :=
  ⟨h.head_eq, h.seg.congr hsame, h.nodup⟩

omit [DecidableEq α] in
theorem seg_append : Seg m before (l₁ ++ l₂) after ↔
    Seg m before l₁ (l₂.head?.or after) ∧ Seg m (l₁.getLast?.or before) l₂ after := by
  induction l₁ generalizing before with
  | nil => exact (and_iff_right trivial).symm
  | cons a l₁ ih =>
    have hhead : (l₁ ++ l₂).head?.or after = l₁.head?.or (l₂.head?.or after) := by
      rw [List.head?_append, Option.or_assoc]
    have hlast : (a :: l₁).getLast?.or before = l₁.getLast?.or (some a) := by
      cases l₁ with
      | nil => rfl
      | cons b l₁ => rw [List.getLast?_cons_cons, List.getLast?_cons]; rfl
    rw [List.cons_append, Seg, Seg, ih, hhead, hlast, and_assoc, and_assoc]

/-- Another cell behind a segment. -/
theorem Seg.setNext (h : Seg m before l after) (hl : l.Nodup) (after' : Option α) :
    Seg (setNext m l.getLast? after') before l after' := by
  rcases List.eq_nil_or_concat l with rfl | ⟨l, a, rfl⟩
  · trivial
  · rw [List.concat_eq_append] at h hl ⊢
    obtain ⟨hfront, hprev, _, _⟩ := seg_append.mp h
    have hnew : ∀ b ∈ l, DList.setNext m (some a) after' b = m b := by
      intro b hb
      refine setNext_of_ne (fun heq => ?_) after'
      obtain rfl := Option.some.inj heq
      exact (List.disjoint_of_nodup_append hl) hb (List.mem_singleton_self a)
    rw [List.getLast?_concat, seg_append]
    refine ⟨hfront.congr hnew, ?_, ?_, trivial⟩
    · exact (congrArg Cell.prev (Function.update_self a _ m)).trans hprev
    · exact congrArg Cell.next (Function.update_self a _ m)

/-- Another cell before a segment. -/
theorem Seg.setPrev (h : Seg m before l after) (hl : l.Nodup) (before' : Option α) :
    Seg (setPrev m l.head? before') before' l after := by
  cases l with
  | nil => trivial
  | cons a l =>
    obtain ⟨_, hnext, hrest⟩ := h
    have hnew : ∀ b ∈ l, DList.setPrev m (some a) before' b = m b := by
      intro b hb
      refine setPrev_of_ne (fun heq => ?_) before'
      obtain rfl := Option.some.inj heq
      exact (List.nodup_cons.mp hl).1 hb
    rw [List.head?_cons]
    refine ⟨?_, ?_, hrest.congr hnew⟩
    · exact congrArg Cell.prev (Function.update_self a _ m)
    · exact (congrArg Cell.next (Function.update_self a _ m)).trans hnext

end Writes

section Operations

/-- `a` becomes the head. -/
def push (m : α → Cell α) (head : Option α) (a : α) : α → Cell α :=
  setPrev (Function.update m a ⟨none, head⟩) head (some a)

/-- The memory after `a` is taken out, wherever it is. -/
def unlink (m : α → Cell α) (a : α) : α → Cell α :=
  let m := setNext m (m a).prev (m a).next
  setPrev m (m a).next (m a).prev

/-- The head after `a` is taken out. -/
def unlinkHead (m : α → Cell α) (head : Option α) (a : α) : Option α :=
  if (m a).prev = none then (m a).next else head

theorem push_of_ne {b : α} (hab : b ≠ a) (hb : head ≠ some b) : push m head a b = m b := by
  rw [push, setPrev_of_ne hb, Function.update_of_ne hab]

/-- **Push.** -/
theorem Linked.push (h : Linked m head l) (ha : a ∉ l) :
    Linked (push m head a) (some a) (a :: l) := by
  obtain ⟨rfl, hseg, hnodup⟩ := h
  have hother : l.head? ≠ some a := fun heq => ha (List.mem_of_head? heq)
  have hcell : DList.push m l.head? a a = ⟨none, l.head?⟩ := by
    rw [DList.push, setPrev_of_ne hother, Function.update_self]
  have hkept : Seg (Function.update m a ⟨none, l.head?⟩) none l none := by
    refine hseg.congr fun b hb => Function.update_of_ne (fun heq => ?_) _ m
    obtain rfl := heq
    exact ha hb
  refine ⟨rfl, ⟨?_, ?_, hkept.setPrev hnodup (some a)⟩, List.nodup_cons.mpr ⟨ha, hnodup⟩⟩
  · rw [hcell]
  · rw [hcell, Option.or_none]

/-- A list that shares no cell with another stays when something is pushed to that one. -/
theorem Linked.push_other {head' : Option α} {l' : List α} (h : Linked m head l)
    (h' : Linked m head' l') (ha : a ∉ l) (hdisjoint : l.Disjoint l') :
    Linked (DList.push m head' a) head l := by
  refine h.congr fun b hb => push_of_ne ?_ ?_
  · rintro rfl
    exact ha hb
  · intro heq
    rw [h'.head_eq] at heq
    exact hdisjoint hb (List.mem_of_head? heq)

/-- **Pop.** -/
theorem Linked.pop (h : Linked m (some a) (a :: l)) :
    Linked (setPrev m (m a).next none) (m a).next l := by
  obtain ⟨_, ⟨_, hnext, hrest⟩, hnodup⟩ := h
  rw [Option.or_none] at hnext
  rw [hnext]
  exact ⟨rfl, hrest.setPrev (List.nodup_cons.mp hnodup).2 none, (List.nodup_cons.mp hnodup).2⟩

theorem setPrev_next_of_notMem {b : α} (h : Linked m head (a :: l)) (hb : b ∉ a :: l)
    (prev : Option α) : setPrev m (m a).next prev b = m b := by
  obtain ⟨_, ⟨_, hnext, _⟩, _⟩ := h
  rw [Option.or_none] at hnext
  rw [hnext]
  exact setPrev_of_ne (fun heq => hb (List.mem_cons_of_mem a (List.mem_of_head? heq))) prev

omit [DecidableEq α] in
/-- A cell of the list, with its neighbours. -/
theorem Linked.cell_eq (h : Linked m head (l₁ ++ a :: l₂)) :
    m a = ⟨l₁.getLast?, l₂.head?⟩ := by
  obtain ⟨_, hprev, hnext, _⟩ := seg_append.mp h.seg
  rw [Option.or_none] at hprev hnext
  rw [← hprev, ← hnext]

theorem Linked.unlink_eq (h : Linked m head (l₁ ++ a :: l₂)) :
    unlink m a = setPrev (setNext m l₁.getLast? l₂.head?) l₂.head? l₁.getLast? := by
  have hself : setNext m l₁.getLast? l₂.head? a = m a := by
    refine setNext_of_ne (fun heq => ?_) _
    have hdisjoint := (List.nodup_append'.mp h.nodup).2.2
    exact hdisjoint (List.mem_of_getLast? heq) List.mem_cons_self
  unfold unlink
  rw [h.cell_eq]
  dsimp only
  rw [hself, h.cell_eq]

/-- **Unlink**, at the head, in the middle or at the end. -/
theorem Linked.unlink (h : Linked m head (l₁ ++ a :: l₂)) :
    Linked (unlink m a) (unlinkHead m head a) (l₁ ++ l₂) := by
  have hcell := h.cell_eq
  have hunlink := h.unlink_eq
  obtain ⟨hhead, hseg, hnodup⟩ := h
  obtain ⟨hfront, _, _, hback⟩ := seg_append.mp hseg
  obtain ⟨hnodup₁, hnodup₂, hdisjoint⟩ := List.nodup_append'.mp hnodup
  have hnodup₂' := (List.nodup_cons.mp hnodup₂).2
  have hsub : (l₁ ++ l₂).Sublist (l₁ ++ a :: l₂) := (List.sublist_cons_self a l₂).append_left l₁
  refine ⟨?_, ?_, hnodup.sublist hsub⟩
  · rw [unlinkHead, hcell, hhead]
    cases l₁ with
    | nil => rfl
    | cons b l₁ => simp [List.getLast?_cons]
  · have hlink₁ : Seg (setNext m l₁.getLast? l₂.head?) none l₁ l₂.head? :=
      hfront.setNext hnodup₁ l₂.head?
    have hlink₂ : Seg (setNext m l₁.getLast? l₂.head?) (some a) l₂ none := by
      refine hback.congr fun b hb => setNext_of_ne (fun heq => ?_) _
      exact hdisjoint (List.mem_of_getLast? heq) (List.mem_cons_of_mem a hb)
    rw [hunlink, seg_append, Option.or_none, Option.or_none]
    refine ⟨hlink₁.congr fun b hb => setPrev_of_ne (fun heq => ?_) _,
      hlink₂.setPrev hnodup₂' l₁.getLast?⟩
    exact hdisjoint hb (List.mem_cons_of_mem a (List.mem_of_head? heq))

/-- Unlinking leaves the cells of other lists, and the cell itself. -/
theorem Linked.unlink_of_notMem (h : Linked m head (l₁ ++ a :: l₂)) {b : α}
    (hb : b ∉ l₁ ++ l₂) : DList.unlink m a b = m b := by
  rw [List.mem_append, not_or] at hb
  rw [h.unlink_eq, setPrev_of_ne (fun heq => hb.2 (List.mem_of_head? heq)),
    setNext_of_ne (fun heq => hb.1 (List.mem_of_getLast? heq))]

end Operations

end SecureWan.DList
