import SecureWan.Lib.Bytes

/-!
# Flat memory

An address space of bytes with block reads and writes, and with copies that go
over their bytes one by one, upwards or downwards. Nothing is out of bounds here:
which addresses an access touches is read off its offset and length, and
separation of two accesses is a hypothesis about these.
-/

namespace SecureWan

/-- The contents of an address space. -/
abbrev Memory := ℕ → UInt8

namespace Memory

variable {mem : Memory} {off n : ℕ} {bs : Bytes}

/-- The `n` bytes from an address on. -/
def read (mem : Memory) (off n : ℕ) : Bytes := (List.range n).map fun i => mem (off + i)

/-- Overwrite the bytes from an address on. -/
def write (mem : Memory) (off : ℕ) (bs : Bytes) : Memory := fun i =>
  if off ≤ i ∧ i < off + bs.length then bs.byteAt (i - off) else mem i

@[simp] theorem length_read : (mem.read off n).length = n := by simp [read]

/-- Reading a prefix of a block just written gives a prefix of what was written. -/
theorem read_write (h : n ≤ bs.length) : (mem.write off bs).read off n = bs.take n := by
  apply List.ext_getElem
  · rw [length_read, List.length_take, Nat.min_eq_left h]
  · intro i hi _
    have hlt : i < bs.length := by
      rw [length_read] at hi
      omega
    simp [read, write, hlt, Bytes.byteAt]

/-- Reading back exactly the block just written. -/
theorem read_write_self (h : bs.length = n) : (mem.write off bs).read off n = bs := by
  rw [read_write (by omega), ← h, List.take_length]

/-- A write elsewhere does not change what a read sees. -/
theorem read_write_of_disjoint {off' : ℕ}
    (h : off' + n ≤ off ∨ off + bs.length ≤ off') :
    (mem.write off bs).read off' n = mem.read off' n := by
  apply List.map_congr_left
  intro i hi
  have hi' : i < n := List.mem_range.mp hi
  have hout : ¬(off ≤ off' + i ∧ off' + i < off + bs.length) := by omega
  simp [write, hout]

/-- A read of a read is a shorter read. -/
theorem take_read {k : ℕ} (h : k ≤ n) : (mem.read off n).take k = mem.read off k := by
  rw [read, ← List.map_take, List.take_range, Nat.min_eq_left h, read]

/-- A byte after a write. -/
theorem write_apply (mem : Memory) (off : ℕ) (bs : Bytes) (k : ℕ) :
    mem.write off bs k =
      if off ≤ k ∧ k < off + bs.length then bs.byteAt (k - off) else mem k := rfl

/-- A byte on one side of a write. -/
theorem write_of_outside {k : ℕ} (h : k < off ∨ off + bs.length ≤ k) :
    mem.write off bs k = mem k := by
  rw [write_apply, if_neg (by omega)]

/-- A byte of a block just written. -/
theorem write_add {i : ℕ} (h : i < bs.length) : mem.write off bs (off + i) = bs.byteAt i := by
  rw [write_apply, if_pos (by omega), Nat.add_sub_cancel_left]

theorem write_nil (mem : Memory) (off : ℕ) : mem.write off [] = mem := by
  funext k
  exact write_of_outside (by rw [List.length_nil]; omega)

/-- A block is written byte by byte. -/
theorem write_cons (mem : Memory) (off : ℕ) (b : UInt8) (bs : Bytes) :
    mem.write off (b :: bs) = (mem.write off [b]).write (off + 1) bs := by
  funext k
  rw [write_apply, write_apply (mem.write off [b]), write_apply mem, List.length_cons,
    List.length_singleton]
  by_cases hrest : off + 1 ≤ k ∧ k < off + 1 + bs.length
  · obtain ⟨i, rfl⟩ := Nat.exists_eq_add_of_le hrest.1
    rw [if_pos (by omega), if_pos hrest, show off + 1 + i - off = i + 1 by omega,
      Nat.add_sub_cancel_left]
    rfl
  · rw [if_neg hrest]
    by_cases hk : k = off
    · subst hk
      rw [if_pos (by omega), if_pos (by omega), Nat.sub_self]
      rfl
    · rw [if_neg (by omega), if_neg (by omega)]

/-- A block is read byte by byte. -/
theorem read_succ (mem : Memory) (off n : ℕ) :
    mem.read off (n + 1) = mem off :: mem.read (off + 1) n := by
  rw [read, List.range_succ_eq_map, List.map_cons, List.map_map, read]
  congr 1
  apply List.map_congr_left
  intro i _
  rw [Function.comp_apply, Nat.succ_eq_add_one, Nat.add_assoc, Nat.add_comm 1]

/-- Writing a block once more changes nothing. -/
theorem write_write_self (mem : Memory) (off : ℕ) (bs : Bytes) :
    (mem.write off bs).write off bs = mem.write off bs := by
  funext k
  rw [write_apply (mem.write off bs), write_apply mem]
  split <;> rfl

/-- A byte of a read. -/
theorem byteAt_read {i : ℕ} (h : i < n) : (mem.read off n).byteAt i = mem (off + i) := by
  simp [read, Bytes.byteAt, h]

/-- A read gives a sequence exactly when it gives its bytes. -/
theorem read_eq_iff (h : bs.length = n) :
    mem.read off n = bs ↔ ∀ i < n, mem (off + i) = bs.byteAt i := by
  constructor
  · rintro rfl i hi
    exact (byteAt_read hi).symm
  · intro hbytes
    apply List.ext_getElem
    · rw [length_read, h]
    · intro i hi hi'
      rw [length_read] at hi
      simpa [read, Bytes.byteAt, hi'] using hbytes i hi

/-- A read depends on the bytes it covers. -/
theorem read_congr {mem' : Memory} (h : ∀ i < n, mem (off + i) = mem' (off + i)) :
    mem.read off n = mem'.read off n :=
  List.map_congr_left fun i hi => h i (List.mem_range.mp hi)

/-! ### The memory from an address on -/

/-- The memory from an address on, counted from there. -/
def tail (mem : Memory) (start : ℕ) : Memory := fun k => mem (start + k)

/-- Other contents from an address on. -/
def setTail (mem : Memory) (start : ℕ) (rest : Memory) : Memory := fun k =>
  if start ≤ k then rest (k - start) else mem k

section Tail

variable {start : ℕ} {rest : Memory}

@[simp] theorem tail_setTail : (mem.setTail start rest).tail start = rest := by
  funext k
  simp [tail, setTail]

@[simp] theorem setTail_tail (mem : Memory) (start : ℕ) :
    mem.setTail start (mem.tail start) = mem := by
  funext k
  unfold setTail tail
  by_cases hstart : start ≤ k
  · rw [if_pos hstart, Nat.add_sub_cancel' hstart]
  · rw [if_neg hstart]

/-- **Frame.** New contents that agree with the old ones behind some length change nothing
outside that length. -/
theorem setTail_of_outside {len k : ℕ} (hrest : ∀ i, len ≤ i → rest i = mem.tail start i)
    (hk : k < start ∨ start + len ≤ k) : mem.setTail start rest k = mem k := by
  unfold setTail
  by_cases hstart : start ≤ k
  · rw [if_pos hstart, hrest (k - start) (by omega), tail, Nat.add_sub_cancel' hstart]
  · rw [if_neg hstart]

end Tail

/-! ### 16-bit fields -/

/-- The value of a 16-bit big-endian field at an address. -/
def field16 (mem : Memory) (off : ℕ) : ℕ := (mem off).toNat * 256 + (mem (off + 1)).toNat

theorem field16_lt (mem : Memory) (off : ℕ) : mem.field16 off < 2 ^ 16 := by
  have hhi := (mem off).toNat_lt
  have hlo := (mem (off + 1)).toNat_lt
  unfold field16
  omega

/-- A field that is written gets the bytes of its new value. -/
theorem byteAt_be16_field16 {k : ℕ} (hk : k < 2) :
    (be16 (mem.field16 off)).byteAt k = mem (off + k) := by
  have hpair : be16 (Bytes.field16 [mem off, mem (off + 1)] 0) = [mem off, mem (off + 1)] :=
    be16_field16 rfl
  have hvalue : Bytes.field16 [mem off, mem (off + 1)] 0 = mem.field16 off := rfl
  rw [hvalue] at hpair
  rw [hpair]
  rcases (by omega : k = 0 ∨ k = 1) with rfl | rfl <;> rfl

/-- A field whose bytes are those of a number. -/
theorem field16_of_be16 {m : ℕ} (h : ∀ j < 2, mem (off + j) = (be16 m).byteAt j) :
    mem.field16 off = m % 2 ^ 16 := by
  have hfirst := h 0 (by omega)
  rw [Nat.add_zero] at hfirst
  rw [← field16_be16 m]
  unfold field16 Bytes.field16
  rw [hfirst, h 1 (by omega), Nat.zero_add]

/-! ### Copies, byte by byte -/

/-- The orders in which a copy goes over its bytes. -/
inductive CopyOrder
  | ascending
  | descending
deriving DecidableEq

/-- The positions of a copy, as they are visited. -/
def CopyOrder.positions : CopyOrder → ℕ → List ℕ
  | .ascending, n => List.range n
  | .descending, n => (List.range n).reverse

/-- One byte of a copy. -/
def copyByte (dst src : ℕ) (mem : Memory) (i : ℕ) : Memory :=
  Function.update mem (dst + i) (mem (src + i))

/-- A copy of `n` bytes inside the memory, whose blocks can overlap. -/
def copy (order : CopyOrder) (dst src n : ℕ) (mem : Memory) : Memory :=
  (order.positions n).foldl (copyByte dst src) mem

theorem copy_ascending_succ (dst src n : ℕ) (mem : Memory) :
    mem.copy .ascending dst src (n + 1) = copyByte dst src (mem.copy .ascending dst src n) n := by
  simp only [copy, CopyOrder.positions, List.range_succ, List.foldl_append, List.foldl_cons,
    List.foldl_nil]

theorem copy_descending_succ (dst src n : ℕ) (mem : Memory) :
    mem.copy .descending dst src (n + 1) = (copyByte dst src mem n).copy .descending dst src n := by
  simp only [copy, CopyOrder.positions, List.range_succ, List.reverse_append,
    List.reverse_singleton, List.singleton_append, List.foldl_cons]

/-- **Downwards.** A copy to higher addresses that starts at the end moves the block. -/
theorem copy_descending_apply {dst src : ℕ} (h : src ≤ dst) (n : ℕ) (mem : Memory) (k : ℕ) :
    mem.copy .descending dst src n k =
      if dst ≤ k ∧ k < dst + n then mem (src + (k - dst)) else mem k := by
  induction n generalizing mem with
  | zero => rw [if_neg (by omega)]; rfl
  | succ n ih =>
    rw [copy_descending_succ, ih]
    -- the byte written first is above all bytes that are still to be read
    by_cases hin : dst ≤ k ∧ k < dst + n
    · have hread : src + (k - dst) ≠ dst + n := by omega
      rw [if_pos hin, if_pos (by omega), copyByte, Function.update_of_ne hread]
    · rw [if_neg hin]
      by_cases hlast : k = dst + n
      · subst hlast
        rw [if_pos (by omega), copyByte, Function.update_self, Nat.add_sub_cancel_left]
      · rw [if_neg (by omega), copyByte, Function.update_of_ne hlast]

/-- **Upwards.** A copy by `d` to higher addresses that starts at the front repeats the first
`d` bytes of the block. -/
theorem copy_ascending_apply {d : ℕ} (hd : 0 < d) (src n : ℕ) (mem : Memory) (k : ℕ) :
    mem.copy .ascending (src + d) src n k =
      if src + d ≤ k ∧ k < src + d + n then mem (src + (k - (src + d)) % d) else mem k := by
  induction n generalizing k with
  | zero => rw [if_neg (by omega)]; rfl
  | succ n ih =>
    rw [copy_ascending_succ]
    by_cases hlast : k = src + d + n
    · subst hlast
      have hin : src + d ≤ src + d + n ∧ src + d + n < src + d + (n + 1) := by omega
      rw [if_pos hin, Nat.add_sub_cancel_left, copyByte, Function.update_self, ih]
      -- a byte past the first `d` ones is read where the copy has written before
      by_cases hfirst : n < d
      · rw [if_neg (by omega), Nat.mod_eq_of_lt hfirst]
      · have hback : src + n - (src + d) = n - d := by omega
        rw [if_pos (by omega), hback, ← Nat.mod_eq_sub_mod (by omega)]
    · rw [copyByte, Function.update_of_ne hlast, ih]
      by_cases hin : src + d ≤ k ∧ k < src + d + n
      · rw [if_pos hin, if_pos (by omega)]
      · rw [if_neg hin, if_neg (by omega)]

end Memory

end SecureWan
