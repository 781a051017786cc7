import SecureWan.Lib.Runs
import Mathlib.Data.List.Flatten
import Mathlib.Tactic.Common

/-!
# Packets of a stream

Some elements of a stream are marked as the last one of a packet. The stream is cut behind
each of them; what comes after the last cut belongs to a packet that is not complete yet.
-/

namespace SecureWan

/-- The packets that are complete and the elements of the one that is not. -/
structure Packets (α : Type*) where
  closed : List (List α)
  current : List α

namespace Packets

variable {α : Type*} (last : α → Bool)

/-- The state before the stream. -/
def start : Packets α := ⟨[], []⟩

/-- The next element of the stream. -/
def push (g : Packets α) (x : α) : Packets α :=
  if last x then ⟨g.closed ++ [g.current ++ [x]], []⟩ else { g with current := g.current ++ [x] }

/-- The number of packets that have begun. -/
def begun (g : Packets α) : ℕ := g.closed.length + if g.current.isEmpty then 0 else 1

/-- A packet: the last element is marked, and no other. -/
def IsPacket : List α → Prop
  | [] => False
  | x :: l => if last x then l = [] else IsPacket l

variable {last} {g : Packets α} {x : α} {l : List α}

theorem push_of_last (h : last x = true) :
    push last g x = ⟨g.closed ++ [g.current ++ [x]], []⟩ := if_pos h

theorem push_of_not_last (h : ¬ last x = true) :
    push last g x = { g with current := g.current ++ [x] } := if_neg h

/-- The first element of a packet is all of it, or the others are marked like a packet. -/
theorem IsPacket.cons (h : IsPacket last (x :: l)) :
    (last x = true ∧ l = []) ∨ (¬ last x = true ∧ IsPacket last l) := by
  unfold IsPacket at h
  split at h
  next hlast => exact .inl ⟨hlast, h⟩
  next hlast => exact .inr ⟨hlast, h⟩

theorem IsPacket.ne_nil (h : IsPacket last l) : l ≠ [] := by
  rintro rfl
  exact h

theorem isPacket_concat (hl : ∀ y ∈ l, ¬ last y = true) (hx : last x = true) :
    IsPacket last (l ++ [x]) := by
  induction l with
  | nil => simp [IsPacket, hx]
  | cons y l ih =>
    obtain ⟨hy, hl⟩ := List.forall_mem_cons.mp hl
    rw [List.cons_append, IsPacket, if_neg hy]
    exact ih hl

/-- Complete packets are packets, and the open one has no last element yet. -/
structure Sound (last : α → Bool) (g : Packets α) : Prop where
  closed : ∀ p ∈ g.closed, IsPacket last p
  current : ∀ y ∈ g.current, ¬ last y = true

theorem sound_start : (start : Packets α).Sound last := ⟨by simp [start], by simp [start]⟩

theorem Sound.push (h : g.Sound last) (x : α) : (push last g x).Sound last := by
  by_cases hx : last x = true
  · rw [push_of_last hx]
    refine ⟨?_, by simp⟩
    rw [List.forall_mem_append, List.forall_mem_singleton]
    exact ⟨h.closed, isPacket_concat h.current hx⟩
  · rw [push_of_not_last hx]
    refine ⟨h.closed, ?_⟩
    rw [List.forall_mem_append, List.forall_mem_singleton]
    exact ⟨h.current, hx⟩

theorem sound_run (xs : List α) : (Runs.run (Packets.push last) start xs).Sound last :=
  Runs.run_invariant _ (fun _ x h => h.push x) sound_start xs

/-- A packet in the stream is closed with what was open before. -/
theorem run_packet {p : List α} (hp : IsPacket last p) (g : Packets α) :
    Runs.run (Packets.push last) g p = ⟨g.closed ++ [g.current ++ p], []⟩ := by
  induction p generalizing g with
  | nil => cases hp
  | cons x p ih =>
    rw [Runs.run_cons]
    rcases hp.cons with ⟨hlast, rfl⟩ | ⟨hlast, hp⟩
    · rw [push_of_last hlast, Runs.run_nil]
    · rw [push_of_not_last hlast, ih hp, List.append_assoc, List.singleton_append]

/-- Packets one behind the other are told apart. -/
theorem run_flatten {ps : List (List α)} (hps : ∀ p ∈ ps, IsPacket last p)
    (closed : List (List α)) :
    Runs.run (Packets.push last) ⟨closed, []⟩ ps.flatten = ⟨closed ++ ps, []⟩ := by
  induction ps generalizing closed with
  | nil => simp
  | cons p ps ih =>
    obtain ⟨hp, hps⟩ := List.forall_mem_cons.mp hps
    rw [List.flatten_cons, Runs.run_append, run_packet hp, List.nil_append, ih hps,
      List.append_assoc, List.singleton_append]

theorem closed_prefix_run (g : Packets α) (xs : List α) :
    g.closed <+: (Runs.run (Packets.push last) g xs).closed := by
  induction xs generalizing g with
  | nil => exact List.prefix_rfl
  | cons x xs ih =>
    apply List.IsPrefix.trans _ (ih (Packets.push last g x))
    unfold Packets.push
    split
    · exact List.prefix_append _ _
    · exact List.prefix_rfl

/-- The first elements of some packets make up the first of these packets. -/
theorem closed_prefix_of_prefix {ps : List (List α)} (hps : ∀ p ∈ ps, IsPacket last p)
    (hl : l <+: ps.flatten) : (Runs.run (Packets.push last) start l).closed <+: ps := by
  obtain ⟨rest, hrest⟩ := hl
  have hall := run_flatten hps []
  rw [← hrest, Runs.run_append, List.nil_append] at hall
  calc (Runs.run (Packets.push last) start l).closed
      <+: (Runs.run (Packets.push last) (Runs.run (Packets.push last) start l) rest).closed :=
        closed_prefix_run _ rest
    _ = ps := congrArg Packets.closed hall

/-- The packets hold the elements of the stream. -/
theorem flatten_run (g : Packets α) (xs : List α) :
    (Runs.run (Packets.push last) g xs).closed.flatten ++
        (Runs.run (Packets.push last) g xs).current =
      g.closed.flatten ++ g.current ++ xs := by
  induction xs generalizing g with
  | nil => rw [Runs.run_nil, List.append_nil]
  | cons x xs ih =>
    rw [Runs.run_cons, ih]
    unfold Packets.push
    split <;> simp

/-- The first elements of some packets belong to no more packets than there are. -/
theorem begun_le_of_prefix {ps : List (List α)} (hps : ∀ p ∈ ps, IsPacket last p)
    (hl : l <+: ps.flatten) : (Runs.run (Packets.push last) start l).begun ≤ ps.length := by
  have hclosed := closed_prefix_of_prefix hps hl
  have hall : (Runs.run (Packets.push last) start l).closed.flatten ++
      (Runs.run (Packets.push last) start l).current = l := flatten_run start l
  unfold begun
  split
  next => exact hclosed.length_le
  next hopen =>
    have hlt : (Runs.run (Packets.push last) start l).closed.length < ps.length := by
      apply lt_of_le_of_ne hclosed.length_le
      intro hlength
      -- all packets are closed, and nothing is left for the open one
      rw [hclosed.eq_of_length hlength] at hall
      have hle := hl.length_le
      rw [← hall, List.length_append] at hle
      exact hopen (List.isEmpty_iff.mpr (List.eq_nil_of_length_eq_zero (by omega)))
    omega

/-- After whole packets none is open. -/
theorem current_run_flatten {ps : List (List α)} (hps : ∀ p ∈ ps, IsPacket last p) :
    (Runs.run (Packets.push last) start ps.flatten).current = [] := by
  have hall := run_flatten hps []
  exact congrArg Packets.current hall

theorem mem_of_mem_closed {xs : List α} {p : List α}
    (hp : p ∈ (Runs.run (Packets.push last) start xs).closed) (hx : x ∈ p) : x ∈ xs := by
  have hall : (Runs.run (Packets.push last) start xs).closed.flatten ++
      (Runs.run (Packets.push last) start xs).current = xs := flatten_run start xs
  rw [← hall]
  exact List.mem_append_left _ (List.mem_flatten_of_mem hp hx)

/-! ### What the elements carry besides -/

variable {β : Type*} {h : β → α}

/-- The packets of other elements. -/
def map (h : β → α) (g : Packets β) : Packets α := ⟨g.closed.map (List.map h), g.current.map h⟩

theorem push_map (g : Packets β) (x : β) :
    Packets.push last (g.map h) (h x) = (Packets.push (fun y => last (h y)) g x).map h := by
  unfold Packets.push
  split <;> simp [map]

theorem isPacket_map {p : List β} (hp : IsPacket (fun y => last (h y)) p) :
    IsPacket last (p.map h) := by
  induction p with
  | nil => cases hp
  | cons x p ih =>
    rw [List.map_cons, IsPacket]
    rcases hp.cons with ⟨hlast, rfl⟩ | ⟨hlast, hp⟩
    · rw [if_pos hlast, List.map_nil]
    · rw [if_neg hlast]
      exact ih hp

end Packets

end SecureWan
