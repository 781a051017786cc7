import Mathlib.Data.List.Basic
import Mathlib.Data.List.TakeDrop
import Mathlib.Order.Basic
import Mathlib.Tactic.Common
import Mathlib.Algebra.GroupWithZero.Nat

/-!
# Byte buffers and integer fields

Reads and in-place writes of a byte sequence at an offset, the two-byte
big-endian fields of network headers and the four-byte little-endian fields of
records on disk. Reads are total: a position past the end reads as zero, and
callers that care about bounds say so.
-/

namespace SecureWan

/-- A sequence of bytes in memory order. -/
abbrev Bytes := List UInt8

namespace Bytes

variable {l bs : Bytes} {off n : ℕ}

/-- The byte at a position; zero past the end. -/
def byteAt (l : Bytes) (k : ℕ) : UInt8 := l.getD k 0

/-- `n` bytes from an offset on. -/
def readAt (l : Bytes) (off n : ℕ) : Bytes := (List.range n).map fun i => l.byteAt (off + i)

/-- Overwrite the bytes from an offset on. -/
def patch (l : Bytes) (off : ℕ) (bs : Bytes) : Bytes :=
  l.take off ++ bs ++ l.drop (off + bs.length)

@[simp] theorem length_readAt : (l.readAt off n).length = n := by simp [readAt]

/-- A read inside the sequence is the corresponding slice. -/
theorem readAt_eq (h : off + n ≤ l.length) : l.readAt off n = (l.drop off).take n := by
  apply List.ext_getElem
  · simp only [length_readAt, List.length_take, List.length_drop]
    omega
  · intro i hi _
    have hlt : off + i < l.length := by
      rw [length_readAt] at hi
      omega
    simp [readAt, byteAt, List.getElem_take, List.getElem_drop, List.getElem?_eq_getElem hlt]

/-- A read of exactly the middle part of a concatenation. -/
theorem readAt_middle {a b c : Bytes} (ha : a.length = off) (hb : b.length = n) :
    (a ++ (b ++ c)).readAt off n = b := by
  rw [readAt_eq (by simp only [List.length_append]; omega), ← ha, List.drop_left, ← hb,
    List.take_left]

/-- Bytes before the split point of a concatenation are read from its left part. -/
theorem byteAt_append_left {a b : Bytes} {k : ℕ} (h : k < a.length) :
    (a ++ b).byteAt k = a.byteAt k := by
  simp [byteAt, List.getElem?_append_left h]

/-- Bytes from the split point on are read from the right part. -/
theorem byteAt_append_right {a b : Bytes} {k : ℕ} (h : a.length ≤ k) :
    (a ++ b).byteAt k = b.byteAt (k - a.length) := by
  simp [byteAt, List.getElem?_append_right h]

/-- Splitting off a front of a given length. -/
theorem exists_front (h : n ≤ l.length) : ∃ a b : Bytes, l = a ++ b ∧ a.length = n :=
  ⟨l.take n, l.drop n, (List.take_append_drop n l).symm, by
    rw [List.length_take, Nat.min_eq_left h]⟩

/-- Writing inside the sequence keeps its length. -/
theorem length_patch (h : off + bs.length ≤ l.length) : (l.patch off bs).length = l.length := by
  simp only [patch, List.length_append, List.length_take, List.length_drop]
  omega

/-- A write at the front replaces a prefix of the same length. -/
theorem patch_zero {a b : Bytes} (h : bs.length = a.length) : (a ++ b).patch 0 bs = bs ++ b := by
  simp [patch, h]

/-- A write past a prefix leaves the prefix alone. -/
theorem patch_append_right {a b : Bytes} (k : ℕ) :
    (a ++ b).patch (a.length + k) bs = a ++ b.patch k bs := by
  have hdrop : (a ++ b).drop (a.length + k + bs.length) = b.drop (k + bs.length) := by
    rw [Nat.add_assoc, List.drop_length_add_append]
  simp only [patch, List.take_length_add_append, hdrop, List.append_assoc]

/-- A write that covers exactly the middle part of a concatenation. -/
theorem patch_middle {a b c : Bytes} (h : bs.length = b.length) :
    (a ++ (b ++ c)).patch a.length bs = a ++ (bs ++ c) := by
  have hright : (a ++ (b ++ c)).patch (a.length + 0) bs = a ++ (b ++ c).patch 0 bs :=
    patch_append_right 0
  rw [Nat.add_zero, patch_zero h] at hright
  exact hright

/-- After a write inside the sequence, a byte is a written one or the old one. -/
theorem byteAt_patch (h : off + bs.length ≤ l.length) (k : ℕ) :
    (l.patch off bs).byteAt k =
      if off ≤ k ∧ k < off + bs.length then bs.byteAt (k - off) else l.byteAt k := by
  have htake : (l.take off).length = off := by
    rw [List.length_take]
    omega
  rw [patch, List.append_assoc]
  by_cases hbefore : k < off
  · rw [if_neg (by omega), byteAt_append_left (by omega)]
    simp [byteAt, hbefore]
  · rw [byteAt_append_right (by omega), htake]
    by_cases hin : k < off + bs.length
    · rw [if_pos ⟨by omega, hin⟩, byteAt_append_left (by omega)]
    · rw [if_neg (by omega), byteAt_append_right (by omega), byteAt, byteAt,
        List.getD_eq_getElem?_getD, List.getElem?_drop, List.getD_eq_getElem?_getD]
      congr 2
      omega

/-- A byte of a read. -/
theorem byteAt_readAt {i : ℕ} (h : i < n) : (l.readAt off n).byteAt i = l.byteAt (off + i) := by
  simp [readAt, byteAt, h]

/-- A byte on one side of a write inside the sequence. -/
theorem byteAt_patch_outside (h : off + bs.length ≤ l.length) {k : ℕ}
    (hk : k < off ∨ off + bs.length ≤ k) : (l.patch off bs).byteAt k = l.byteAt k := by
  rw [byteAt_patch h, if_neg (by omega)]

/-- A byte of a sequence that starts later. -/
theorem byteAt_drop (l : Bytes) (off k : ℕ) :
    byteAt (l.drop off) k = l.byteAt (off + k) := by
  rw [byteAt, byteAt, List.getD_eq_getElem?_getD, List.getElem?_drop, List.getD_eq_getElem?_getD]

/-- Reads agree exactly when all their bytes do. -/
theorem readAt_eq_readAt_iff {a b : Bytes} {off' : ℕ} :
    a.readAt off n = b.readAt off' n ↔ ∀ i < n, a.byteAt (off + i) = b.byteAt (off' + i) := by
  simp only [readAt, List.map_inj_left, List.mem_range]

end Bytes

/-- The big-endian bytes of a 16-bit field, as `rte_cpu_to_be_16` stores it. -/
def be16 (n : ℕ) : Bytes := [UInt8.ofNat (n / 256), UInt8.ofNat n]

/-- A 16-bit field takes a number modulo its width. -/
theorem be16_congr {a b : ℕ} (h : a % 2 ^ 16 = b % 2 ^ 16) : be16 a = be16 b := by
  have hhi : UInt8.ofNat (a / 256) = UInt8.ofNat (b / 256) := by
    apply UInt8.toNat_inj.mp
    rw [UInt8.toNat_ofNat', UInt8.toNat_ofNat']
    omega
  have hlo : UInt8.ofNat a = UInt8.ofNat b := by
    apply UInt8.toNat_inj.mp
    rw [UInt8.toNat_ofNat', UInt8.toNat_ofNat']
    omega
  rw [be16, be16, hhi, hlo]

/-- The value of a 16-bit big-endian field at an offset. -/
def Bytes.field16 (l : Bytes) (off : ℕ) : ℕ :=
  (l.byteAt off).toNat * 256 + (l.byteAt (off + 1)).toNat

@[simp] theorem length_be16 (n : ℕ) : (be16 n).length = 2 := rfl

/-- A 16-bit field holds less than `2 ^ 16`. -/
theorem Bytes.field16_lt (l : Bytes) (off : ℕ) : l.field16 off < 2 ^ 16 := by
  have hhi := (l.byteAt off).toNat_lt
  have hlo := (l.byteAt (off + 1)).toNat_lt
  unfold Bytes.field16
  omega

/-- Storing and loading a field gives the value back, modulo its width. -/
theorem field16_be16 (n : ℕ) : (be16 n).field16 0 = n % 2 ^ 16 := by
  simp only [be16, Bytes.field16, Bytes.byteAt, List.getD_cons_zero, Nat.zero_add,
    List.getD_cons_succ, UInt8.toNat_ofNat']
  omega

/-- A field in the right part of a concatenation. -/
theorem Bytes.field16_append_right {a b : Bytes} {k : ℕ} (h : a.length ≤ k) :
    (a ++ b).field16 k = b.field16 (k - a.length) := by
  unfold Bytes.field16
  rw [byteAt_append_right h, byteAt_append_right (by omega), Nat.sub_add_comm h]

/-- A field in the left part of a concatenation. -/
theorem Bytes.field16_append_left {a b : Bytes} {k : ℕ} (h : k + 1 < a.length) :
    (a ++ b).field16 k = a.field16 k := by
  unfold Bytes.field16
  rw [byteAt_append_left (by omega), byteAt_append_left h]

/-- Two bytes are determined by the field they hold. -/
theorem be16_field16 {l : Bytes} (h : l.length = 2) : be16 (l.field16 0) = l := by
  obtain ⟨hi, lo, rfl⟩ := List.length_eq_two.mp h
  have hlo : lo.toNat < 256 := lo.toNat_lt
  have hfield : Bytes.field16 [hi, lo] 0 = hi.toNat * 256 + lo.toNat := rfl
  have hhi : (hi.toNat * 256 + lo.toNat) / 256 = hi.toNat := by omega
  have hmod : UInt8.ofNat (hi.toNat * 256 + lo.toNat) = lo := by
    apply UInt8.toNat_inj.mp
    rw [UInt8.toNat_ofNat']
    omega
  rw [hfield, be16, hhi, UInt8.ofNat_toNat, hmod]

/-- A field of a sequence that starts later. -/
theorem Bytes.field16_drop (l : Bytes) (off k : ℕ) :
    Bytes.field16 (l.drop off) k = l.field16 (off + k) := by
  unfold Bytes.field16
  rw [byteAt_drop, byteAt_drop, Nat.add_assoc]

/-- A field is determined by its two bytes. -/
theorem Bytes.field16_congr {a b : Bytes} {off : ℕ} (h : a.byteAt off = b.byteAt off)
    (h' : a.byteAt (off + 1) = b.byteAt (off + 1)) : a.field16 off = b.field16 off := by
  unfold Bytes.field16
  rw [h, h']

/-- A field that has just been written. -/
theorem Bytes.field16_patch_self {l : Bytes} {off : ℕ} (h : off + 2 ≤ l.length) (n : ℕ) :
    (l.patch off (be16 n)).field16 off = n % 2 ^ 16 := by
  have hbyte {k : ℕ} (hk : k < 2) :
      (l.patch off (be16 n)).byteAt (off + k) = (be16 n).byteAt k := by
    rw [byteAt_patch (by rwa [length_be16]), length_be16, if_pos (by omega),
      Nat.add_sub_cancel_left]
  have hfirst := hbyte (show 0 < 2 by omega)
  rw [Nat.add_zero] at hfirst
  rw [← field16_be16 n]
  unfold Bytes.field16
  rw [hfirst, hbyte (by omega), Nat.zero_add]

/-- The little-endian bytes of a 32-bit field, as the host stores a `uint32_t`. -/
def le32 (n : ℕ) : Bytes :=
  [UInt8.ofNat n, UInt8.ofNat (n / 2 ^ 8), UInt8.ofNat (n / 2 ^ 16), UInt8.ofNat (n / 2 ^ 24)]

/-- The value of a 32-bit little-endian field at an offset. -/
def Bytes.field32 (l : Bytes) (off : ℕ) : ℕ :=
  (l.byteAt off).toNat + (l.byteAt (off + 1)).toNat * 2 ^ 8 +
    (l.byteAt (off + 2)).toNat * 2 ^ 16 + (l.byteAt (off + 3)).toNat * 2 ^ 24

@[simp] theorem length_le32 (n : ℕ) : (le32 n).length = 4 := rfl

/-- Storing and loading a 32-bit field gives the value back, modulo its width. -/
theorem field32_le32 (n : ℕ) : (le32 n).field32 0 = n % 2 ^ 32 := by
  simp only [le32, Bytes.field32, Bytes.byteAt, List.getD_cons_zero, Nat.zero_add,
    List.getD_cons_succ, UInt8.toNat_ofNat']
  omega

/-- A 32-bit field in the right part of a concatenation. -/
theorem Bytes.field32_append_right {a b : Bytes} {k : ℕ} (h : a.length ≤ k) :
    (a ++ b).field32 k = b.field32 (k - a.length) := by
  unfold Bytes.field32
  rw [byteAt_append_right h, byteAt_append_right (by omega), byteAt_append_right (by omega),
    byteAt_append_right (by omega), Nat.sub_add_comm h, Nat.sub_add_comm h, Nat.sub_add_comm h]

/-- A 32-bit field in the left part of a concatenation. -/
theorem Bytes.field32_append_left {a b : Bytes} {k : ℕ} (h : k + 3 < a.length) :
    (a ++ b).field32 k = a.field32 k := by
  unfold Bytes.field32
  rw [byteAt_append_left (by omega), byteAt_append_left (by omega),
    byteAt_append_left (by omega), byteAt_append_left h]

end SecureWan
