import Mathlib.Data.BitVec
import Mathlib.Data.List.Basic
import Mathlib.Data.Nat.ModEq
import Mathlib.Logic.Function.Basic

/-!
# Ring buffers with wrapping pointers

A queue in a memory of `2 ^ n` cells. The two pointers have one bit more than an address, so
that a full ring and an empty one differ. A ring stands for the list of the elements between
its pointers; the cells outside may hold anything.
-/

namespace SecureWan.Ring

variable {n : ℕ} {α : Type*}

/-- The cell that a pointer addresses: its bits but for the highest one. -/
def cell (p : BitVec (n + 1)) : BitVec n := p.setWidth n

/-- A pointer some cells further. -/
def ahead (p : BitVec (n + 1)) (i : ℕ) : BitVec (n + 1) := p + BitVec.ofNat (n + 1) i

/-- The elements between the pointers. -/
def contents (mem : BitVec n → α) (rd wr : BitVec (n + 1)) : List α :=
  (List.range (wr - rd).toNat).map fun i => mem (cell (ahead rd i))

/-- The elements between the pointers are those of the list. -/
structure Holds (mem : BitVec n → α) (rd wr : BitVec (n + 1)) (q : List α) : Prop where
  length_le : q.length ≤ 2 ^ n
  wr_eq : wr = ahead rd q.length
  cells : ∀ i x, q[i]? = some x → mem (cell (ahead rd i)) = x

/-! ### Pointers -/

@[simp] theorem ahead_zero (p : BitVec (n + 1)) : ahead p 0 = p := BitVec.add_zero p

theorem ahead_ahead (p : BitVec (n + 1)) (i j : ℕ) : ahead (ahead p i) j = ahead p (i + j) := by
  rw [ahead, ahead, ahead, BitVec.ofNat_add, BitVec.add_assoc]

theorem add_one_eq_ahead (p : BitVec (n + 1)) : p + 1 = ahead p 1 := rfl

/-- A pointer goes round after twice as many cells as there are. -/
theorem ahead_inj {p : BitVec (n + 1)} {i j : ℕ} (hi : i ≤ 2 ^ n) (hj : j ≤ 2 ^ n) :
    ahead p i = ahead p j ↔ i = j := by
  have hpow : 2 ^ n < 2 ^ (n + 1) := Nat.pow_lt_pow_right (by omega) (by omega)
  unfold ahead
  rw [BitVec.add_right_inj]
  constructor
  · intro h
    have hval := congrArg BitVec.toNat h
    rwa [BitVec.toNat_ofNat, BitVec.toNat_ofNat, Nat.mod_eq_of_lt (by omega),
      Nat.mod_eq_of_lt (by omega)] at hval
  · rintro rfl
    rfl

theorem toNat_cell_ahead (p : BitVec (n + 1)) (i : ℕ) :
    (cell (ahead p i)).toNat = (p.toNat + i) % 2 ^ n := by
  have hdvd : 2 ^ n ∣ 2 ^ (n + 1) := Nat.pow_dvd_pow 2 (Nat.le_succ n)
  rw [cell, ahead, BitVec.toNat_setWidth, BitVec.toNat_add, BitVec.toNat_ofNat,
    Nat.mod_mod_of_dvd _ hdvd, Nat.add_mod, Nat.mod_mod_of_dvd _ hdvd, ← Nat.add_mod]

/-- A cell comes again after as many cells as there are. -/
theorem cell_ahead_eq_iff {p : BitVec (n + 1)} {i j : ℕ} :
    cell (ahead p i) = cell (ahead p j) ↔ i ≡ j [MOD 2 ^ n] := by
  rw [← BitVec.toNat_inj, toNat_cell_ahead, toNat_cell_ahead]
  constructor
  · exact Nat.ModEq.add_left_cancel' p.toNat
  · exact Nat.ModEq.add_left p.toNat

theorem cell_ahead_ne {p : BitVec (n + 1)} {i j : ℕ} (hlt : i < j) (hwin : j < i + 2 ^ n) :
    cell (ahead p i) ≠ cell (ahead p j) := by
  intro h
  have hmod := (Nat.modEq_iff_dvd' hlt.le).mp (cell_ahead_eq_iff.mp h)
  have hle := Nat.le_of_dvd (by omega) hmod
  omega

/-! ### What the pointers say about the list -/

section Holds

variable {mem : BitVec n → α} {rd wr : BitVec (n + 1)} {q : List α}

/-- The difference of the pointers is the number of elements. -/
theorem Holds.level (h : Holds mem rd wr q) : (wr - rd).toNat = q.length := by
  have hle := h.length_le
  have hpow : 2 ^ n < 2 ^ (n + 1) := Nat.pow_lt_pow_right (by omega) (by omega)
  rw [h.wr_eq, ahead, BitVec.add_comm, BitVec.add_sub_cancel, BitVec.toNat_ofNat,
    Nat.mod_eq_of_lt (by omega)]

theorem Holds.empty_iff (h : Holds mem rd wr q) : wr = rd ↔ q = [] := by
  have heq : wr = rd ↔ ahead rd q.length = ahead rd 0 := by rw [← h.wr_eq, ahead_zero]
  rw [heq, ahead_inj h.length_le (Nat.zero_le _), List.length_eq_zero_iff]

/-- A ring is full when its pointers differ and address the same cell. -/
theorem Holds.full_iff (h : Holds mem rd wr q) :
    wr ≠ rd ∧ cell wr = cell rd ↔ q.length = 2 ^ n := by
  have hle := h.length_le
  have hcell : cell wr = cell rd ↔ q.length ≡ 0 [MOD 2 ^ n] := by
    rw [← cell_ahead_eq_iff, ahead_zero, ← h.wr_eq]
  rw [Ne, h.empty_iff, hcell, ← List.length_eq_zero_iff, Nat.modEq_zero_iff_dvd]
  have hpos : 0 < 2 ^ n := Nat.two_pow_pos n
  constructor
  · rintro ⟨hne, hdvd⟩
    exact le_antisymm hle (Nat.le_of_dvd (by omega) hdvd)
  · intro heq
    exact ⟨by omega, dvd_of_eq heq.symm⟩

/-- The highest bits of the pointers tell a full ring from an empty one. -/
theorem msb_ne_and_cell_eq_iff :
    wr.msb ≠ rd.msb ∧ cell wr = cell rd ↔ wr ≠ rd ∧ cell wr = cell rd := by
  constructor
  · rintro ⟨hmsb, hcell⟩
    exact ⟨fun h => hmsb (congrArg BitVec.msb h), hcell⟩
  · rintro ⟨hne, hcell⟩
    refine ⟨fun hmsb => hne ?_, hcell⟩
    apply BitVec.eq_of_getElem_eq
    intro i hi
    rcases Nat.lt_succ_iff_lt_or_eq.mp hi with hlt | rfl
    · have hbit := congrArg (fun c => c.getLsbD i) hcell
      simpa [cell, BitVec.getLsbD_setWidth, hlt, BitVec.getLsbD_eq_getElem hi] using hbit
    · rw [BitVec.msb_eq_getLsbD_last, BitVec.msb_eq_getLsbD_last, Nat.add_sub_cancel,
        BitVec.getLsbD_eq_getElem hi, BitVec.getLsbD_eq_getElem hi] at hmsb
      exact hmsb

theorem Holds.contents_eq (h : Holds mem rd wr q) : contents mem rd wr = q := by
  rw [contents, h.level]
  apply List.ext_getElem
  · rw [List.length_map, List.length_range]
  · intro i hi hi'
    rw [List.getElem_map, List.getElem_range]
    exact h.cells i _ (List.getElem?_eq_getElem hi')

theorem holds_nil (mem : BitVec n → α) (p : BitVec (n + 1)) : Holds mem p p [] where
  length_le := Nat.zero_le _
  wr_eq := (ahead_zero p).symm
  cells i x hx := by simp at hx

/-! ### Writing, reading and rewinding -/

/-- The next element goes to the cell of the write pointer. -/
theorem Holds.push (h : Holds mem rd wr q) (hlt : q.length < 2 ^ n) (x : α) :
    Holds (Function.update mem (cell wr) x) rd (wr + 1) (q ++ [x]) where
  length_le := by
    rw [List.length_append, List.length_singleton]
    omega
  wr_eq := by
    rw [add_one_eq_ahead, h.wr_eq, ahead_ahead, List.length_append, List.length_singleton]
  cells i y hy := by
    rcases Nat.lt_trichotomy i q.length with hi | rfl | hi
    · rw [List.getElem?_append_left hi] at hy
      have hne : cell (ahead rd i) ≠ cell wr := by
        rw [h.wr_eq]
        exact cell_ahead_ne hi (by omega)
      rw [Function.update_of_ne hne]
      exact h.cells i y hy
    · rw [List.getElem?_concat_length] at hy
      rw [← h.wr_eq, Function.update_self]
      exact Option.some.inj hy
    · have hlast := (List.getElem?_eq_some_iff.mp hy).1
      rw [List.length_append, List.length_singleton] at hlast
      omega

/-- The first element is in the cell of the read pointer. -/
theorem Holds.head {x : α} (h : Holds mem rd wr (x :: q)) : mem (cell rd) = x := by
  rw [← ahead_zero rd]
  exact h.cells 0 x rfl

theorem Holds.pop {x : α} (h : Holds mem rd wr (x :: q)) : Holds mem (rd + 1) wr q where
  length_le := by
    have hle := h.length_le
    rw [List.length_cons] at hle
    omega
  wr_eq := by rw [h.wr_eq, add_one_eq_ahead, ahead_ahead, List.length_cons, Nat.add_comm 1]
  cells i y hy := by
    rw [add_one_eq_ahead, ahead_ahead, Nat.add_comm 1]
    exact h.cells (i + 1) y hy

/-- The first elements are taken out. -/
theorem Holds.advance {l : List α} (h : Holds mem rd wr (l ++ q)) :
    Holds mem (ahead rd l.length) wr q := by
  induction l generalizing rd with
  | nil => simpa using h
  | cons x l ih =>
    have hpop := ih h.pop
    rwa [add_one_eq_ahead, ahead_ahead, Nat.add_comm 1] at hpop

/-- The elements from a place on are taken back. -/
theorem Holds.rewind {l : List α} (h : Holds mem rd wr (q ++ l)) :
    Holds mem rd (ahead rd q.length) q where
  length_le := by
    have hle := h.length_le
    rw [List.length_append] at hle
    omega
  wr_eq := rfl
  cells i x hx := by
    have hi := (List.getElem?_eq_some_iff.mp hx).1
    exact h.cells i x (by rw [List.getElem?_append_left hi, hx])

/-- The cell that is written is not one of those that are read. -/
theorem Holds.cell_ne (h : Holds mem rd wr q) (hne : q ≠ []) (hlt : q.length < 2 ^ n) :
    cell rd ≠ cell wr := by
  have hpos := List.length_pos_iff.mpr hne
  rw [h.wr_eq, ← ahead_zero rd, ahead_ahead, Nat.zero_add]
  exact cell_ahead_ne hpos (by omega)

end Holds

end SecureWan.Ring
