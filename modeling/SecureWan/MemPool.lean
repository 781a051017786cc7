import SecureWan.Lib.DList
import SecureWan.Lib.Runs
import Mathlib.Data.List.Perm.Subperm
import Mathlib.Algebra.Group.Nat.Defs

/-!
# The memory pool

`MemPool.c`: a block of units, each behind a header that is linked into the free list or the
alloc list. Pointers are addresses, and the headers are a memory of cells.
-/

namespace SecureWan

/-- `sizeof(struct _unit)`. -/
def sizeofUnit : ℕ := 16

/-- `a - b` in `unsigned long`. -/
def sub64 (a b : ℕ) : ℕ := (a + 2 ^ 64 - b) % 2 ^ 64

/-- `struct MemPool`, with the headers of the units in memory. -/
structure MemPool where
  memBlock : Option ℕ
  allocMemBlock : Option ℕ
  freeMemBlock : Option ℕ
  ulUnitSize : ℕ
  ulBlockSize : ℕ
  ulLenAllocmem : ℕ
  ulLenFreemem : ℕ
  unit : ℕ → DList.Cell ℕ

namespace MemPool

/-- A unit is linked to the front of the free list. -/
def linkFree (pool : MemPool) (cur : ℕ) : MemPool :=
  { pool with
    unit := DList.push pool.unit pool.freeMemBlock cur
    freeMemBlock := some cur }

/-- `mpool_alloc`, with what `malloc` returns and the memory as it is. -/
def mpoolAlloc (ulUnitSize ulUnitNum : ℕ) (block : Option ℕ) (memory : ℕ → DList.Cell ℕ) :
    MemPool :=
  let stride := (ulUnitSize + sizeofUnit) % 2 ^ 64
  let blockSize := ulUnitNum * stride % 2 ^ 64
  let pool : MemPool := ⟨block, none, none, ulUnitSize, blockSize, 0, 0, memory⟩
  match block with
  | none => pool
  | some base =>
    let pool := (List.range ulUnitNum).foldl
      (fun pool i => pool.linkFree (base + i * stride)) pool
    { pool with ulLenFreemem := blockSize, ulLenAllocmem := 0 }

/-- The list surgery of `mpool_get`: the head of the free list moves to the alloc list. -/
def takeFree (pool : MemPool) (cur : ℕ) : MemPool :=
  let freeMemBlock := (pool.unit cur).next
  let unit := DList.setPrev pool.unit freeMemBlock none
  { pool with
    unit := DList.push unit pool.allocMemBlock cur
    freeMemBlock := freeMemBlock
    allocMemBlock := some cur
    ulLenAllocmem := (pool.ulLenAllocmem + pool.ulUnitSize) % 2 ^ 64
    ulLenFreemem := sub64 pool.ulLenFreemem pool.ulUnitSize }

/-- `mpool_get`. -/
def mpoolGet (pool : MemPool) (iUseMemPool : Bool) : Option ℕ × MemPool :=
  if iUseMemPool = false ∨ pool.memBlock = none then (none, pool)
  else
    match pool.freeMemBlock with
    | none => (none, pool)
    | some cur => (some (cur + sizeofUnit), pool.takeFree cur)

/-- The list surgery of `mpool_put`: the unit is unlinked where it is, and moves to the front
of the free list. -/
def putBack (pool : MemPool) (cur : ℕ) : MemPool :=
  let pool := { pool with
    allocMemBlock := DList.unlinkHead pool.unit pool.allocMemBlock cur
    unit := DList.unlink pool.unit cur }
  let pool := pool.linkFree cur
  { pool with
    ulLenFreemem := (pool.ulLenFreemem + pool.ulUnitSize) % 2 ^ 64
    ulLenAllocmem := sub64 pool.ulLenAllocmem pool.ulUnitSize }

/-- `mpool_put`; no pool is returned when the pointer goes to `free`. -/
def mpoolPut (pool : MemPool) (p : ℕ) : Option MemPool :=
  match pool.memBlock with
  | none => none
  | some base =>
    if base < p ∧ p < base + pool.ulBlockSize then some (pool.putBack (p - sizeofUnit))
    else none

end MemPool

/-- A positive unit size and a unit count for which the block size does not overflow. -/
structure PoolSize where
  ulUnitSize : ℕ
  ulUnitNum : ℕ
  ulUnitSize_pos : 0 < ulUnitSize
  blockSize_lt : ulUnitNum * (ulUnitSize + sizeofUnit) < 2 ^ 64

namespace PoolSize

variable (size : PoolSize)

/-- The distance of two units. -/
def stride : ℕ := size.ulUnitSize + sizeofUnit

/-- The headers of the units of the block. -/
def units (base : ℕ) : List ℕ :=
  (List.range size.ulUnitNum).map fun i => base + i * size.stride

end PoolSize

/-- A call on the pool: `mpool_get`, or `mpool_put` of the `i`th pointer that is outstanding. -/
inductive PoolCall where
  | get
  | put (i : ℕ)

/-- A pool and the pointers that were got from it and not returned yet. -/
structure PoolUse where
  pool : MemPool
  outstanding : List ℕ

namespace PoolUse

/-- A successful `mpool_alloc`. -/
def start (size : PoolSize) (base : ℕ) (memory : ℕ → DList.Cell ℕ) : PoolUse :=
  ⟨MemPool.mpoolAlloc size.ulUnitSize size.ulUnitNum (some base) memory, []⟩

/-- One call. -/
def step (u : PoolUse) : PoolCall → PoolUse
  | .get =>
    match u.pool.mpoolGet true with
    | (none, pool) => { u with pool := pool }
    | (some p, pool) => ⟨pool, p :: u.outstanding⟩
  | .put i =>
    match u.outstanding[i]? with
    | none => u
    | some p =>
      match u.pool.mpoolPut p with
      | none => u
      | some pool => ⟨pool, u.outstanding.eraseIdx i⟩

/-- The two lists of the pool: they are linked both ways, no unit is twice on them, and they
hold exactly the units of the block. -/
def ListsSound (size : PoolSize) (base : ℕ) (u : PoolUse) : Prop :=
  ∃ free alloc, DList.Linked u.pool.unit u.pool.freeMemBlock free ∧
    DList.Linked u.pool.unit u.pool.allocMemBlock alloc ∧ free.Disjoint alloc ∧
    ∀ a, a ∈ free ∨ a ∈ alloc ↔ a ∈ size.units base

/-- What holds after each call. -/
structure Sound (size : PoolSize) (base : ℕ) (u : PoolUse) : Prop where
  lists : u.ListsSound size base
  /-- What `mpool_get` would return is a unit that is not outstanding. -/
  get_some : ∀ p, (u.pool.mpoolGet true).1 = some p →
    p ∉ u.outstanding ∧ ∃ a ∈ size.units base, p = a + sizeofUnit
  /-- It would return NULL only if all units are outstanding. -/
  get_none : (u.pool.mpoolGet true).1 = none →
    ∀ a ∈ size.units base, a + sizeofUnit ∈ u.outstanding
  allocmem : u.pool.ulLenAllocmem = u.outstanding.length * size.ulUnitSize
  freemem : u.pool.ulLenFreemem + u.pool.ulLenAllocmem = u.pool.ulBlockSize

end PoolUse

namespace PoolSize

variable {size : PoolSize} {base : ℕ}

theorem stride_pos (size : PoolSize) : 0 < size.stride := by
  unfold stride sizeofUnit
  omega

theorem mem_units {a : ℕ} :
    a ∈ size.units base ↔ ∃ i < size.ulUnitNum, base + i * size.stride = a := by
  simp [units]

/-- Units are apart. -/
theorem unit_injective (size : PoolSize) (base : ℕ) :
    Function.Injective fun i => base + i * size.stride := by
  intro i j h
  exact Nat.eq_of_mul_eq_mul_right size.stride_pos (Nat.add_left_cancel h)

theorem length_units (size : PoolSize) (base : ℕ) :
    (size.units base).length = size.ulUnitNum := by simp [units]

/-- No more memory is given out than the block has. -/
theorem length_mul_le {alloc : List ℕ} (hnodup : alloc.Nodup)
    (hunits : ∀ a ∈ alloc, a ∈ size.units base) :
    alloc.length * size.ulUnitSize ≤ size.ulUnitNum * size.stride := by
  have hcount : alloc.length ≤ size.ulUnitNum := by
    rw [← length_units size base]
    exact (hnodup.subperm hunits).length_le
  exact Nat.mul_le_mul hcount (Nat.le_add_right _ _)

end PoolSize

namespace PoolUse

variable {size : PoolSize} {base : ℕ} {u : PoolUse}

/-- The lists of a pool in use. -/
structure Holds (size : PoolSize) (base : ℕ) (u : PoolUse) (free alloc : List ℕ) : Prop where
  memBlock : u.pool.memBlock = some base
  ulUnitSize : u.pool.ulUnitSize = size.ulUnitSize
  ulBlockSize : u.pool.ulBlockSize = size.ulUnitNum * size.stride
  freeLinked : DList.Linked u.pool.unit u.pool.freeMemBlock free
  allocLinked : DList.Linked u.pool.unit u.pool.allocMemBlock alloc
  disjoint : free.Disjoint alloc
  units : ∀ a, a ∈ free ∨ a ∈ alloc ↔ a ∈ size.units base
  outstanding : u.outstanding = alloc.map (· + sizeofUnit)
  allocmem : u.pool.ulLenAllocmem = alloc.length * size.ulUnitSize
  freemem : u.pool.ulLenFreemem + alloc.length * size.ulUnitSize = size.ulUnitNum * size.stride

variable {free alloc : List ℕ}

section Alloc

/-- The loop of `mpool_alloc` links the units one by one, the last one at the front. -/
theorem linkFree_foldl (size : PoolSize) (base : ℕ) (pool : MemPool)
    (hempty : pool.freeMemBlock = none) (n : ℕ) :
    let filled := (List.range n).foldl (fun pool i => pool.linkFree (base + i * size.stride)) pool
    filled = { pool with unit := filled.unit, freeMemBlock := filled.freeMemBlock } ∧
      DList.Linked filled.unit filled.freeMemBlock
        ((List.range n).reverse.map fun i => base + i * size.stride) := by
  induction n with
  | zero => exact ⟨rfl, hempty, trivial, List.nodup_nil⟩
  | succ n ih =>
    obtain ⟨hsame, hlinked⟩ := ih
    rw [List.range_succ, List.foldl_append, List.foldl_cons, List.foldl_nil, List.reverse_append,
      List.reverse_singleton, List.singleton_append, List.map_cons]
    have hnew : base + n * size.stride ∉
        (List.range n).reverse.map fun i => base + i * size.stride := by
      intro hmem
      obtain ⟨i, hi, heq⟩ := List.mem_map.mp hmem
      obtain rfl := size.unit_injective base heq
      exact absurd (List.mem_range.mp (List.mem_reverse.mp hi)) (Nat.lt_irrefl _)
    refine ⟨?_, hlinked.push hnew⟩
    rw [hsame]
    rfl

theorem Holds.start (size : PoolSize) (base : ℕ) (memory : ℕ → DList.Cell ℕ) :
    (start size base memory).Holds size base
      ((List.range size.ulUnitNum).reverse.map fun i => base + i * size.stride) [] := by
  -- without units the stride is not used, and with one it does not overflow
  have hstride : 0 < size.ulUnitNum → (size.ulUnitSize + sizeofUnit) % 2 ^ 64 = size.stride := by
    intro hnum
    refine Nat.mod_eq_of_lt (Nat.lt_of_le_of_lt ?_ size.blockSize_lt)
    exact Nat.le_mul_of_pos_left _ hnum
  have hblock : size.ulUnitNum * ((size.ulUnitSize + sizeofUnit) % 2 ^ 64) % 2 ^ 64 =
      size.ulUnitNum * size.stride := by
    rcases Nat.eq_zero_or_pos size.ulUnitNum with hzero | hpos
    · rw [hzero, Nat.zero_mul, Nat.zero_mul, Nat.zero_mod]
    · rw [hstride hpos]
      exact Nat.mod_eq_of_lt size.blockSize_lt
  let pool : MemPool := ⟨some base, none, none, size.ulUnitSize, size.ulUnitNum * size.stride, 0, 0,
    memory⟩
  have hloop : (List.range size.ulUnitNum).foldl (fun pool i => pool.linkFree
      (base + i * ((size.ulUnitSize + sizeofUnit) % 2 ^ 64))) pool =
      (List.range size.ulUnitNum).foldl (fun pool i => pool.linkFree (base + i * size.stride))
        pool := by
    rcases Nat.eq_zero_or_pos size.ulUnitNum with hzero | hpos
    · rw [hzero]
      rfl
    · rw [hstride hpos]
  obtain ⟨hsame, hlinked⟩ := linkFree_foldl size base pool rfl size.ulUnitNum
  have hstart : PoolUse.start size base memory =
      ⟨{ (List.range size.ulUnitNum).foldl (fun pool i => pool.linkFree (base + i * size.stride))
          pool with ulLenFreemem := size.ulUnitNum * size.stride, ulLenAllocmem := 0 }, []⟩ := by
    rw [PoolUse.start, MemPool.mpoolAlloc]
    dsimp only
    rw [hblock, hloop]
  rw [hstart, hsame]
  exact {
    memBlock := rfl
    ulUnitSize := rfl
    ulBlockSize := rfl
    freeLinked := hlinked
    allocLinked := ⟨rfl, trivial, List.nodup_nil⟩
    disjoint := List.disjoint_nil_right _
    units := fun a => by simp [PoolSize.units]
    outstanding := rfl
    allocmem := by simp
    freemem := by simp }

end Alloc

section Get

/-- The accounts stay in range. -/
theorem Holds.alloc_le (h : u.Holds size base free alloc) :
    alloc.length * size.ulUnitSize ≤ size.ulUnitNum * size.stride :=
  PoolSize.length_mul_le h.allocLinked.nodup fun a ha => (h.units a).mp (.inr ha)

theorem Holds.mpoolGet_eq {cur : ℕ} (h : u.Holds size base (cur :: free) alloc) :
    u.pool.mpoolGet true = (some (cur + sizeofUnit), u.pool.takeFree cur) := by
  have hcur : u.pool.freeMemBlock = some cur := h.freeLinked.head_eq
  rw [MemPool.mpoolGet, if_neg (by simp [h.memBlock])]
  simp only [hcur]

theorem Holds.mpoolGet_eq_none (h : u.Holds size base [] alloc) :
    u.pool.mpoolGet true = (none, u.pool) := by
  have hcur : u.pool.freeMemBlock = none := h.freeLinked.head_eq
  rw [MemPool.mpoolGet, if_neg (by simp [h.memBlock])]
  simp only [hcur]

/-- **`mpool_get`** with a free unit. -/
theorem Holds.get {cur : ℕ} (h : u.Holds size base (cur :: free) alloc) :
    (u.step .get).Holds size base free (cur :: alloc) := by
  have hcur : u.pool.freeMemBlock = some cur := h.freeLinked.head_eq
  have hstep : u.step .get =
      ⟨u.pool.takeFree cur, (cur + sizeofUnit) :: u.outstanding⟩ := by
    rw [step, h.mpoolGet_eq]
  have hfree := h.freeLinked
  rw [hcur] at hfree
  have hnodup := List.nodup_cons.mp hfree.nodup
  have hnotAlloc : cur ∉ alloc := fun hmem => h.disjoint List.mem_cons_self hmem
  have hdisjoint : free.Disjoint alloc := fun a ha => h.disjoint (List.mem_cons_of_mem cur ha)
  -- the writes to the free list stay off the alloc list, and the other way round
  have halloc : DList.Linked (DList.setPrev u.pool.unit (u.pool.unit cur).next none)
      u.pool.allocMemBlock alloc := by
    refine h.allocLinked.congr fun a ha => DList.setPrev_next_of_notMem hfree ?_ none
    exact fun hmem => h.disjoint hmem ha
  have hfree' : DList.Linked (u.pool.takeFree cur).unit (u.pool.takeFree cur).freeMemBlock
      free := hfree.pop.push_other halloc hnodup.1 hdisjoint
  have hunits (a : ℕ) : a ∈ free ∨ a ∈ cur :: alloc ↔ a ∈ size.units base := by
    rw [← h.units a, List.mem_cons, List.mem_cons]
    tauto
  have hle : (alloc.length + 1) * size.ulUnitSize ≤ size.ulUnitNum * size.stride :=
    PoolSize.length_mul_le (List.nodup_cons.mpr ⟨hnotAlloc, h.allocLinked.nodup⟩)
      fun a ha => (hunits a).mp (.inr ha)
  have hlt := size.blockSize_lt
  change size.ulUnitNum * size.stride < _ at hlt
  have hfreemem := h.freemem
  rw [Nat.add_mul, Nat.one_mul] at hle
  rw [hstep]
  exact {
    memBlock := h.memBlock
    ulUnitSize := h.ulUnitSize
    ulBlockSize := h.ulBlockSize
    freeLinked := hfree'
    allocLinked := halloc.push hnotAlloc
    disjoint := List.disjoint_cons_right.mpr ⟨hnodup.1, hdisjoint⟩
    units := hunits
    outstanding := congrArg _ h.outstanding
    allocmem := by
      rw [MemPool.takeFree, List.length_cons, Nat.add_mul, Nat.one_mul]
      dsimp only
      rw [h.allocmem, h.ulUnitSize, Nat.mod_eq_of_lt (by omega)]
    freemem := by
      rw [MemPool.takeFree, List.length_cons, Nat.add_mul, Nat.one_mul]
      dsimp only
      rw [h.ulUnitSize, sub64]
      omega }

end Get

section Put

/-- A unit that is out lies in the block, and is put back. -/
theorem Holds.mpoolPut_eq {cur : ℕ} (h : u.Holds size base free alloc) (hcur : cur ∈ alloc) :
    u.pool.mpoolPut (cur + sizeofUnit) = some (u.pool.putBack cur) := by
  obtain ⟨k, hk, hunit⟩ := PoolSize.mem_units.mp ((h.units cur).mp (.inr hcur))
  have hin : base < cur + sizeofUnit ∧ cur + sizeofUnit < base + size.ulUnitNum * size.stride := by
    have hnext : (k + 1) * size.stride ≤ size.ulUnitNum * size.stride := Nat.mul_le_mul_right _ hk
    have hpos := size.ulUnitSize_pos
    rw [Nat.add_mul, Nat.one_mul] at hnext
    unfold PoolSize.stride at hnext hunit ⊢
    unfold sizeofUnit at *
    omega
  rw [MemPool.mpoolPut, h.memBlock]
  dsimp only
  rw [h.ulBlockSize, if_pos hin, Nat.add_sub_cancel]

/-- The step of putting back a unit that is out. -/
theorem Holds.step_put {cur i : ℕ} {alloc₁ alloc₂ : List ℕ}
    (h : u.Holds size base free (alloc₁ ++ cur :: alloc₂)) (hi : alloc₁.length = i) :
    u.step (.put i) = ⟨u.pool.putBack cur, (alloc₁ ++ alloc₂).map (· + sizeofUnit)⟩ := by
  have hp : u.outstanding[i]? = some (cur + sizeofUnit) := by
    rw [h.outstanding, List.getElem?_map, ← hi, List.getElem?_append_right (Nat.le_refl _)]
    simp
  have herase : u.outstanding.eraseIdx i = (alloc₁ ++ alloc₂).map (· + sizeofUnit) := by
    rw [h.outstanding, ← hi, List.map_append, List.map_cons,
      List.eraseIdx_append_of_length_le (by simp)]
    simp
  have hput : u.pool.mpoolPut (cur + sizeofUnit) = some (u.pool.putBack cur) :=
    h.mpoolPut_eq (by simp)
  rw [step, hp, ← herase]
  dsimp only
  rw [hput]

/-- **`mpool_put`** of a unit that is out, wherever it is in the alloc list. -/
theorem Holds.put {cur i : ℕ} {alloc₁ alloc₂ : List ℕ}
    (h : u.Holds size base free (alloc₁ ++ cur :: alloc₂)) (hi : alloc₁.length = i) :
    (u.step (.put i)).Holds size base (cur :: free) (alloc₁ ++ alloc₂) := by
  obtain ⟨_, hnodup₂, hdisjoint⟩ := List.nodup_append'.mp h.allocLinked.nodup
  have hnotAlloc : cur ∉ alloc₁ ++ alloc₂ := by
    rw [List.mem_append, not_or]
    exact ⟨fun hmem => hdisjoint hmem List.mem_cons_self, (List.nodup_cons.mp hnodup₂).1⟩
  have hnotFree : cur ∉ free := fun hmem => h.disjoint hmem (by simp)
  have hdisjoint' : free.Disjoint (alloc₁ ++ alloc₂) := by
    intro a ha hmem
    refine h.disjoint ha ?_
    rw [List.mem_append] at hmem ⊢
    exact hmem.imp_right (List.mem_cons_of_mem cur)
  -- the writes to the alloc list stay off the free list, and the other way round
  have hfree : DList.Linked (DList.unlink u.pool.unit cur) u.pool.freeMemBlock free :=
    h.freeLinked.congr fun a ha =>
      h.allocLinked.unlink_of_notMem fun hmem => hdisjoint' ha hmem
  have halloc : DList.Linked (u.pool.putBack cur).unit (u.pool.putBack cur).allocMemBlock
      (alloc₁ ++ alloc₂) :=
    h.allocLinked.unlink.push_other hfree hnotAlloc (List.disjoint_comm.mp hdisjoint')
  have hunits (a : ℕ) : a ∈ cur :: free ∨ a ∈ alloc₁ ++ alloc₂ ↔ a ∈ size.units base := by
    rw [← h.units a, List.mem_cons, List.mem_append, List.mem_append, List.mem_cons]
    tauto
  have hlength : (alloc₁ ++ cur :: alloc₂).length = (alloc₁ ++ alloc₂).length + 1 := by
    simp only [List.length_append, List.length_cons]
    omega
  have hle := h.alloc_le
  have hlt := size.blockSize_lt
  change size.ulUnitNum * size.stride < _ at hlt
  have hallocmem := h.allocmem
  have hfreemem := h.freemem
  rw [hlength, Nat.add_mul, Nat.one_mul] at hle hallocmem hfreemem
  rw [h.step_put hi]
  exact {
    memBlock := h.memBlock
    ulUnitSize := h.ulUnitSize
    ulBlockSize := h.ulBlockSize
    freeLinked := hfree.push hnotFree
    allocLinked := halloc
    disjoint := List.disjoint_cons_left.mpr ⟨hnotAlloc, hdisjoint'⟩
    units := hunits
    outstanding := rfl
    allocmem := by
      rw [MemPool.putBack, MemPool.linkFree]
      dsimp only
      rw [h.ulUnitSize, sub64]
      omega
    freemem := by
      rw [MemPool.putBack, MemPool.linkFree]
      dsimp only
      rw [h.ulUnitSize, Nat.mod_eq_of_lt (by omega)]
      omega }

end Put

/-- **One call** keeps the lists and the accounts. -/
theorem Holds.step (h : u.Holds size base free alloc) (call : PoolCall) :
    ∃ free' alloc', (u.step call).Holds size base free' alloc' := by
  cases call with
  | get =>
    cases free with
    | nil =>
      have hstep : u.step .get = u := by rw [PoolUse.step, h.mpoolGet_eq_none]
      exact ⟨[], alloc, by rwa [hstep]⟩
    | cons cur free => exact ⟨free, cur :: alloc, h.get⟩
  | put i =>
    rcases Nat.lt_or_ge i alloc.length with hi | hi
    · have hsplit : alloc = alloc.take i ++ alloc[i] :: alloc.drop (i + 1) := by
        rw [List.getElem_cons_drop, List.take_append_drop]
      rw [hsplit] at h
      exact ⟨_, _, h.put (List.length_take_of_le (Nat.le_of_lt hi))⟩
    · have hnone : u.outstanding[i]? = none := by
        rw [h.outstanding, List.getElem?_eq_none_iff, List.length_map]
        exact hi
      have hstep : u.step (.put i) = u := by rw [PoolUse.step, hnone]
      exact ⟨free, alloc, by rwa [hstep]⟩

end PoolUse

end SecureWan
