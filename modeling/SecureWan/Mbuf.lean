import SecureWan.Lib.Bytes

/-!
# Packet buffers

A single-segment `rte_mbuf`: one buffer, split into the headroom before the
packet, the packet data, and the tailroom after it. All bytes of the buffer are
kept, so a prepend or append exposes whatever the buffer held. Reads and writes
through `rte_pktmbuf_mtod` reach past the data into the tailroom, as in C.
-/

namespace SecureWan

/-- An mbuf whose three regions fill a buffer of at most `UINT16_MAX` bytes, the
width of `buf_len`, `data_off` and `data_len`. -/
@[ext] structure Mbuf where
  /-- The bytes of the buffer before the packet. -/
  headroom : Bytes
  /-- The packet: `data_len` bytes from `data_off` on. -/
  data : Bytes
  /-- The bytes of the buffer after the packet. -/
  tailroom : Bytes
  /-- `buf_len` is a 16-bit field. -/
  bufLen_lt : headroom.length + data.length + tailroom.length < 2 ^ 16

namespace Mbuf

variable {m m' : Mbuf} {n off : ℕ} {bs : Bytes}

/-- `rte_pktmbuf_pkt_len`, which equals `rte_pktmbuf_data_len` for one segment. -/
def pktLen (m : Mbuf) : ℕ := m.data.length

/-- `rte_pktmbuf_adj`: drop bytes at the front of the packet, or fail. -/
def adj (m : Mbuf) (n : ℕ) : Option Mbuf :=
  if h : n ≤ m.data.length then
    some ⟨m.headroom ++ m.data.take n, m.data.drop n, m.tailroom, by
      have := m.bufLen_lt
      simp only [List.length_append, List.length_take, List.length_drop]
      omega⟩
  else none

/-- `rte_pktmbuf_prepend`: extend the packet into the headroom, or fail. -/
def prepend (m : Mbuf) (n : ℕ) : Option Mbuf :=
  if h : n ≤ m.headroom.length then
    some ⟨m.headroom.take (m.headroom.length - n),
      m.headroom.drop (m.headroom.length - n) ++ m.data, m.tailroom, by
      have := m.bufLen_lt
      simp only [List.length_append, List.length_take, List.length_drop]
      omega⟩
  else none

/-- `rte_pktmbuf_append`: extend the packet into the tailroom, or fail. The C
function returns the address of the first new byte, `mtod + data_len` before. -/
def append (m : Mbuf) (n : ℕ) : Option Mbuf :=
  if h : n ≤ m.tailroom.length then
    some ⟨m.headroom, m.data ++ m.tailroom.take n, m.tailroom.drop n, by
      have := m.bufLen_lt
      simp only [List.length_append, List.length_take, List.length_drop]
      omega⟩
  else none

/-- `rte_pktmbuf_trim`: drop bytes at the end of the packet. A request for more
than the packet holds changes nothing; no caller looks at the result. -/
def trim (m : Mbuf) (n : ℕ) : Mbuf :=
  if h : n ≤ m.data.length then
    ⟨m.headroom, m.data.take (m.data.length - n),
      m.data.drop (m.data.length - n) ++ m.tailroom, by
      have := m.bufLen_lt
      simp only [List.length_append, List.length_take, List.length_drop]
      omega⟩
  else m

/-- The memory from `mtod` to the end of the buffer. -/
def region (m : Mbuf) : Bytes := m.data ++ m.tailroom

/-- Read `n` bytes at `mtod + off`. -/
def load (m : Mbuf) (off n : ℕ) : Bytes := m.region.readAt off n

/-- The byte at `mtod + off`. -/
def byteAt (m : Mbuf) (off : ℕ) : UInt8 := m.region.byteAt off

/-- The 16-bit big-endian field at `mtod + off`. -/
def field16 (m : Mbuf) (off : ℕ) : ℕ := m.region.field16 off

/-- Write bytes at `mtod + off`; what would fall behind the buffer is not modelled. -/
def store (m : Mbuf) (off : ℕ) (bs : Bytes) : Mbuf :=
  ⟨m.headroom, ((m.region.patch off bs).take m.region.length).take m.data.length,
    ((m.region.patch off bs).take m.region.length).drop m.data.length, by
    have := m.bufLen_lt
    simp only [region, List.length_append, List.length_take, List.length_drop]
    omega⟩

/-- The length of a packet is below `2 ^ 16`. -/
theorem length_data_lt (m : Mbuf) : m.data.length < 2 ^ 16 := by
  have := m.bufLen_lt
  omega

/-- What a successful `adj` leaves. -/
theorem of_adj (h : m.adj n = some m') :
    n ≤ m.data.length ∧ m'.headroom.length = m.headroom.length + n ∧
      m'.data = m.data.drop n ∧ m'.tailroom = m.tailroom := by
  unfold adj at h
  split at h
  next hn =>
    obtain rfl := Option.some.inj h
    refine ⟨hn, ?_, rfl, rfl⟩
    simp only [List.length_append, List.length_take]
    omega
  next => cases h

/-- What a successful `prepend` leaves: the new front is old headroom. -/
theorem of_prepend (h : m.prepend n = some m') :
    n ≤ m.headroom.length ∧ m'.headroom.length = m.headroom.length - n ∧
      (∃ front : Bytes, front.length = n ∧ m'.data = front ++ m.data) ∧
      m'.tailroom = m.tailroom := by
  unfold prepend at h
  split at h
  next hn =>
    obtain rfl := Option.some.inj h
    refine ⟨hn, ?_, ⟨_, ?_, rfl⟩, rfl⟩
    · simp only [List.length_take]
      omega
    · simp only [List.length_drop]
      omega
  next => cases h

/-- A successful `prepend` at a known split of the headroom. -/
theorem of_prepend_append {a b : Bytes} (h : m.prepend n = some m')
    (hhead : m.headroom = a ++ b) (hb : b.length = n) :
    m'.headroom = a ∧ m'.data = b ++ m.data ∧ m'.tailroom = m.tailroom := by
  have hlen : m.headroom.length - n = a.length := by
    rw [hhead, List.length_append, hb, Nat.add_sub_cancel]
  unfold prepend at h
  split at h
  next =>
    obtain rfl := Option.some.inj h
    have htake : m.headroom.take (m.headroom.length - n) = a := by
      rw [hlen, hhead, List.take_left]
    have hdrop : m.headroom.drop (m.headroom.length - n) = b := by
      rw [hlen, hhead, List.drop_left]
    exact ⟨htake, congrArg (· ++ m.data) hdrop, rfl⟩
  next => cases h

/-- What a successful `append` leaves: the new end is old tailroom. -/
theorem of_append (h : m.append n = some m') :
    n ≤ m.tailroom.length ∧ m'.headroom = m.headroom ∧
      m'.data = m.data ++ m.tailroom.take n ∧ m'.tailroom = m.tailroom.drop n := by
  unfold append at h
  split at h
  next hn =>
    obtain rfl := Option.some.inj h
    exact ⟨hn, rfl, rfl, rfl⟩
  next => cases h

theorem adj_isSome (h : n ≤ m.data.length) : ∃ m', m.adj n = some m' :=
  ⟨_, dif_pos h⟩

theorem prepend_isSome (h : n ≤ m.headroom.length) : ∃ m', m.prepend n = some m' :=
  ⟨_, dif_pos h⟩

theorem append_isSome (h : n ≤ m.tailroom.length) : ∃ m', m.append n = some m' :=
  ⟨_, dif_pos h⟩

theorem append_eq_none (h : m.tailroom.length < n) : m.append n = none := dif_neg (by omega)

/-- Trimming no more than the packet holds cuts exactly its end. -/
theorem trim_data (h : n ≤ m.data.length) :
    (m.trim n).data = m.data.take (m.data.length - n) := by
  simp [trim, h]

/-- Trimming at a known split of the packet. -/
theorem trim_data_append {a b : Bytes} (h : m.data = a ++ b) (hn : b.length = n) :
    (m.trim n).data = a := by
  have hlen : m.data.length = a.length + n := by rw [h, List.length_append, hn]
  rw [trim_data (by omega), hlen, Nat.add_sub_cancel, h, List.take_left]

@[simp] theorem store_headroom : (m.store off bs).headroom = m.headroom := rfl

/-- A write inside the packet overwrites packet bytes. -/
theorem store_data (h : off + bs.length ≤ m.data.length) :
    (m.store off bs).data = m.data.patch off bs := by
  have hregion : m.region.patch off bs = m.data.patch off bs ++ m.tailroom := by
    simp only [region, Bytes.patch, List.append_assoc, List.take_append_of_le_length
      (show off ≤ m.data.length by omega), List.drop_append_of_le_length h]
  have hlen : (m.data.patch off bs).length = m.data.length := Bytes.length_patch h
  have htake : (m.region.patch off bs).take m.region.length = m.region.patch off bs := by
    refine List.take_of_length_le (Nat.le_of_eq ?_)
    rw [hregion, region, List.length_append, List.length_append, hlen]
  have hleft : (m.data.patch off bs ++ m.tailroom).take m.data.length = m.data.patch off bs := by
    rw [← hlen, List.take_left]
  change ((m.region.patch off bs).take m.region.length).take m.data.length = _
  rw [htake, hregion, hleft]

/-- A write that covers exactly a middle part of the packet, where the split is known. -/
theorem store_middle {a b c : Bytes} (h : m.data = a ++ (b ++ c)) (hoff : a.length = off)
    (hbs : bs.length = b.length) : (m.store off bs).data = a ++ (bs ++ c) := by
  have hlen : m.data.length = off + (b.length + c.length) := by
    rw [h, List.length_append, List.length_append, hoff]
  rw [store_data (by omega), h, ← hoff, Bytes.patch_middle hbs]

/-- A write that covers exactly the front of the packet, where the split is known. -/
theorem store_front {a b : Bytes} (h : m.data = a ++ b) (hbs : bs.length = a.length) :
    (m.store 0 bs).data = bs ++ b :=
  store_middle (a := []) h rfl hbs

/-- A write never changes how many bytes the packet has. -/
@[simp] theorem length_store_data : (m.store off bs).data.length = m.data.length := by
  simp only [store, region, Bytes.patch, List.length_take, List.length_append, List.length_drop]
  omega

/-- A write never changes how many bytes of tailroom there are. -/
@[simp] theorem length_store_tailroom : (m.store off bs).tailroom.length = m.tailroom.length := by
  simp only [store, region, Bytes.patch, List.length_take, List.length_append, List.length_drop]
  omega

/-- A read inside the packet is a slice of it. -/
theorem load_eq (h : off + n ≤ m.data.length) : m.load off n = (m.data.drop off).take n := by
  have hregion : off + n ≤ m.region.length := by
    rw [region, List.length_append]
    omega
  rw [load, Bytes.readAt_eq hregion, region, List.drop_append_of_le_length (by omega),
    List.take_append_of_le_length (by rw [List.length_drop]; omega)]

/-- A byte of the packet's first part, where the split is known. -/
theorem byteAt_left {a b : Bytes} (h : m.data = a ++ b) (hoff : off < a.length) :
    m.byteAt off = a.byteAt off := by
  rw [byteAt, region, h, List.append_assoc, Bytes.byteAt_append_left hoff]

/-- A byte behind the packet's first part, where the split is known. -/
theorem byteAt_right {a b : Bytes} (h : m.data = a ++ b) (hoff : a.length ≤ off)
    (hlt : off - a.length < b.length) : m.byteAt off = b.byteAt (off - a.length) := by
  rw [byteAt, region, h, List.append_assoc, Bytes.byteAt_append_right hoff,
    Bytes.byteAt_append_left hlt]

/-- A field of the packet's first part, where the split is known. -/
theorem field16_left {a b : Bytes} (h : m.data = a ++ b) (hoff : off + 1 < a.length) :
    m.field16 off = a.field16 off := by
  rw [field16, region, h, List.append_assoc, Bytes.field16_append_left hoff]

/-- A field behind the packet's first part, where the split is known. -/
theorem field16_right {a b : Bytes} (h : m.data = a ++ b) (hoff : a.length ≤ off)
    (hlt : off - a.length + 1 < b.length) : m.field16 off = b.field16 (off - a.length) := by
  rw [field16, region, h, List.append_assoc, Bytes.field16_append_right hoff,
    Bytes.field16_append_left hlt]

/-- A 16-bit field holds less than `2 ^ 16`. -/
theorem field16_lt (m : Mbuf) (off : ℕ) : m.field16 off < 2 ^ 16 := Bytes.field16_lt _ _

/-- A read of the packet's first part, where the split is known. -/
theorem load_zero {a b : Bytes} (h : m.data = a ++ b) (hn : a.length = n) :
    m.load 0 n = a := by
  have hlen : m.data.length = n + b.length := by rw [h, List.length_append, hn]
  rw [load_eq (by omega), h, List.drop_zero, List.take_left' hn]

/-- A read of a middle part of the packet, where the split is known. -/
theorem load_middle {a b c : Bytes} (h : m.data = a ++ (b ++ c)) (hoff : a.length = off)
    (hn : b.length = n) : m.load off n = b := by
  have hlen : m.data.length = off + (n + c.length) := by
    rw [h, List.length_append, List.length_append, hoff, hn]
  rw [load_eq (by omega), h, List.drop_left' hoff, List.take_left' hn]

section Region

/-! The buffer from `mtod` on, byte by byte: only a write changes it. -/

/-- A field is read byte by byte. -/
theorem field16_eq (m : Mbuf) (off : ℕ) :
    m.field16 off = (m.byteAt off).toNat * 256 + (m.byteAt (off + 1)).toNat := rfl

/-- Appending moves the end of the packet, not its bytes. -/
theorem byteAt_of_append (h : m.append n = some m') (k : ℕ) : m'.byteAt k = m.byteAt k := by
  obtain ⟨_, _, hdata, htail⟩ := of_append h
  rw [byteAt, byteAt, region, region, hdata, htail, List.append_assoc, List.take_append_drop]

/-- Trimming moves the end of the packet, not its bytes. -/
@[simp] theorem byteAt_trim (m : Mbuf) (n k : ℕ) : (m.trim n).byteAt k = m.byteAt k := by
  unfold trim
  split
  next => rw [byteAt, byteAt, region, region, ← List.append_assoc, List.take_append_drop]
  next => rfl

/-- Trimming no more than the packet holds. -/
theorem pktLen_trim (h : n ≤ m.pktLen) : (m.trim n).pktLen = m.pktLen - n := by
  rw [pktLen, trim_data h, List.length_take, pktLen]
  omega

/-- What is trimmed becomes tailroom. -/
theorem length_tailroom_trim (h : n ≤ m.pktLen) :
    (m.trim n).tailroom.length = m.tailroom.length + n := by
  have hle : n ≤ m.data.length := h
  rw [trim, dif_pos hle, List.length_append, List.length_drop]
  omega

@[simp] theorem pktLen_store : (m.store off bs).pktLen = m.pktLen := length_store_data

/-- The packet ends inside the buffer. -/
theorem pktLen_le_region (m : Mbuf) : m.pktLen ≤ m.region.length := by
  rw [region, List.length_append, pktLen]
  exact Nat.le_add_right _ _

@[simp] theorem length_region_store : (m.store off bs).region.length = m.region.length := by
  rw [region, region, List.length_append, List.length_append, length_store_data,
    length_store_tailroom]

/-- A write replaces the part of the buffer that it covers. -/
theorem region_store : (m.store off bs).region = (m.region.patch off bs).take m.region.length := by
  have hlen : m.data.length ≤ m.region.length := m.pktLen_le_region
  exact List.take_append_drop m.data.length ((m.region.patch off bs).take m.region.length)

/-- A byte of a read. -/
theorem byteAt_load {i : ℕ} (h : i < n) : (m.load off n).byteAt i = m.byteAt (off + i) :=
  Bytes.byteAt_readAt h

/-- After a write inside the buffer, a byte is a written one or the old one. -/
theorem byteAt_store (h : off + bs.length ≤ m.region.length) (k : ℕ) :
    (m.store off bs).byteAt k =
      if off ≤ k ∧ k < off + bs.length then bs.byteAt (k - off) else m.byteAt k := by
  rw [byteAt, region_store, List.take_of_length_le (Nat.le_of_eq (Bytes.length_patch h)),
    Bytes.byteAt_patch h, byteAt]

/-- The bytes on both sides of a write stay as they were. -/
theorem byteAt_store_outside {k : ℕ} (hk : k < off ∨ off + bs.length ≤ k) :
    (m.store off bs).byteAt k = m.byteAt k := by
  by_cases hin : k < m.region.length
  · rcases hk with hlt | hge
    · have hpatch : k < (m.region.take off).length := by
        rw [List.length_take]
        omega
      rw [byteAt, region_store, byteAt, Bytes.byteAt, Bytes.byteAt, List.getD_eq_getElem?_getD,
        List.getElem?_take_of_lt hin, Bytes.patch, List.append_assoc,
        List.getElem?_append_left hpatch, List.getElem?_take_of_lt hlt,
        List.getD_eq_getElem?_getD]
    · rw [byteAt_store (by omega), if_neg (by omega)]
  · have hlen : (m.store off bs).region.length ≤ k := by
      rw [length_region_store]
      omega
    rw [byteAt, byteAt, Bytes.byteAt, Bytes.byteAt, List.getD_eq_getElem?_getD,
      List.getElem?_eq_none hlen, List.getD_eq_getElem?_getD, List.getElem?_eq_none (by omega)]

/-- A read behind a write sees what was there. -/
theorem load_store_of_le {k : ℕ} (h : off + bs.length ≤ k) :
    (m.store off bs).load k n = m.load k n := by
  refine Bytes.readAt_eq_readAt_iff.mpr fun i _ => ?_
  exact byteAt_store_outside (m := m) (.inr (by omega))

end Region

end Mbuf

end SecureWan
