import SecureWan.WanOptimizer.MixedThread
import SecureWan.Lib.OnesComplement

/-!
# The checksums on a frame

`calculate_tcp_checksum` writes the checksums of the IPv4 headers and of the TCP segment of a
frame, `verify_tcp_checksum` checks the segment. Both get a pointer, so the model here is about
the bytes behind it; the frame in a packet buffer is a case of it.
-/

namespace SecureWan.WanOptimizer.Rxbuf

open OnesComplement

/-- `gre_len` of `calculate_tcp_checksum`: the GRE header and the inner IPv4 header. -/
def greLen (rxbuf : Bytes) : ℕ :=
  if rxbuf.byteAt 23 = 0x2f then
    24 + (if (rxbuf.byteAt 34).toBitVec.getLsbD 7 then 4 else 0) +
      (if (rxbuf.byteAt 34).toBitVec.getLsbD 5 then 4 else 0) +
      (if (rxbuf.byteAt 34).toBitVec.getLsbD 4 then 4 else 0)
  else 0

/-- The sum over the IPv4 header at an offset, but for its checksum. -/
def ipHeaderSum (rxbuf : Bytes) (off : ℕ) : ℕ :=
  ([0, 2, 4, 6, 8, 12, 14, 16, 18].map fun k => rxbuf.field16 (off + k)).sum

/-- The loop over the words of a TCP segment, with the odd last byte. -/
def segmentSum (rxbuf : Bytes) (off len : ℕ) : ℕ :=
  ((List.range (len / 2)).map fun i => rxbuf.field16 (off + 2 * i)).sum +
    if len % 2 = 1 then (rxbuf.byteAt (off + len - 1)).toNat * 2 ^ 8 else 0

/-- The addresses and the protocol of an IPv4 header. -/
def pseudoSum (ip : Bytes) : ℕ :=
  ([12, 14, 16, 18].map fun off => ip.field16 off).sum + (ip.byteAt 9).toNat

/-- The sum over a segment and its pseudo header; `sum` has 64 bits. -/
def tcpSum (segment : ℕ) (ip : Bytes) (iplen : ℕ) : ℕ :=
  (segment + pseudoSum ip + iplen + 2 ^ 64 - 20) % 2 ^ 64

/-- The checksum of the IPv4 header at an offset, computed and written. -/
def putIpChecksum (rxbuf : Bytes) (off : ℕ) : Bytes :=
  rxbuf.patch (off + 10) (complement (ipHeaderSum rxbuf off))

/-- The part of `calculate_tcp_checksum` about the IPv4 headers. -/
def putIpChecksums (rxbuf : Bytes) (greLen : ℕ) : Bytes :=
  if greLen = 0 then putIpChecksum rxbuf 14
  else putIpChecksum (putIpChecksum rxbuf 14) (14 + greLen)

/-- `calculate_tcp_checksum`. -/
def calculateTcpChecksum (rxbuf : Bytes) : Bytes :=
  let greLen := greLen rxbuf
  let innerIplen := rxbuf.field16 (greLen + 16)
  let tcplen := (innerIplen + 2 ^ 16 - 20) % 2 ^ 16
  let rxbuf := (putIpChecksums rxbuf greLen).patch (50 + greLen) [0, 0]
  rxbuf.patch (50 + greLen) (complement (tcpSum (segmentSum rxbuf (34 + greLen) tcplen)
    (rxbuf.drop (14 + greLen)) innerIplen))

/-- `verify_tcp_checksum`, for pointers to a TCP segment and to its IPv4 header. -/
def verifyTcpChecksum (rxbuf ip : Bytes) (iplen : ℕ) : ℕ :=
  let tcprxlen := (iplen + 2 ^ 16 - 20) % 2 ^ 16
  let tcpcs := 2 ^ 16 - 1 - foldSum (tcpSum (segmentSum rxbuf 0 tcprxlen) ip (ip.field16 2))
  if tcpcs = 0 then 1 else 0

/-- The total length of the inner IPv4 header. -/
def innerIplen (rxbuf : Bytes) : ℕ := rxbuf.field16 (greLen rxbuf + 16)

/-- `verify_tcp_checksum` called on the innermost TCP segment of a frame. -/
def verifyFrame (greLen iplen : ℕ) (rxbuf : Bytes) : ℕ :=
  verifyTcpChecksum (rxbuf.drop (34 + greLen)) (rxbuf.drop (14 + greLen)) iplen

/-- A byte of one of the checksums. -/
def IsChecksum (greLen k : ℕ) : Prop :=
  24 ≤ k ∧ k < 26 ∨ 24 + greLen ≤ k ∧ k < 26 + greLen ∨ 50 + greLen ≤ k ∧ k < 52 + greLen

/-- The one's-complement sum of the IPv4 header at an offset is valid. -/
def IpHeaderValid (rxbuf : Bytes) (off : ℕ) : Prop :=
  foldSum (ipHeaderSum rxbuf off + rxbuf.field16 (off + 10)) = 0xffff

/-- The aligned words of the segment, and the words of its addresses. -/
def IsWord (greLen iplen k : ℕ) : Prop :=
  (∃ i < (iplen - 20) / 2, k = 34 + greLen + 2 * i) ∨ ∃ i < 4, k = 26 + greLen + 2 * i

/-! ### Sums -/

theorem foldSum_eq (sum : ℕ) : foldSum sum = carryFold (b := 2 ^ 16) (by decide) sum := by
  induction sum using foldSum.induct with
  | case1 sum hdone =>
    rw [foldSum, if_pos hdone, carryFold, if_pos (Nat.div_eq_of_lt hdone)]
  | case2 sum hcarry ih =>
    have hdiv : sum / 2 ^ 16 ≠ 0 := by omega
    rw [foldSum, if_neg hcarry, carryFold, if_neg hdiv, ih]

theorem foldSum_lt (sum : ℕ) : foldSum sum < 2 ^ 16 := by
  rw [foldSum_eq]
  exact carryFold_lt _ sum

variable {f f' : Bytes} {off len g iplen k : ℕ}

/-- The checksum that has been written over a sum, read back. -/
theorem field16_complement (h : off + 2 ≤ f.length) (sum : ℕ) :
    (f.patch off (complement sum)).field16 off = 2 ^ 16 - 1 - foldSum sum := by
  rw [complement, Bytes.field16_patch_self h, Nat.mod_eq_of_lt (by omega)]

/-- A sum together with the checksum that was written over it. -/
theorem foldSum_add_complement (sum : ℕ) :
    foldSum (sum + (2 ^ 16 - 1 - foldSum sum)) = 0xffff := by
  rw [foldSum_eq, foldSum_eq]
  exact carryFold_add_complement _ sum

/-- A header sum is one over the bytes of the header but its checksum. -/
theorem ipHeaderSum_congr
    (h : ∀ k, off ≤ k → k < off + 20 → k ≠ off + 10 → k ≠ off + 11 → f'.byteAt k = f.byteAt k) :
    ipHeaderSum f' off = ipHeaderSum f off := by
  refine congrArg List.sum (List.map_congr_left fun k hk => ?_)
  have hk' : k < 19 ∧ k ≠ 9 ∧ k ≠ 10 ∧ k ≠ 11 := by
    revert k
    decide
  exact Bytes.field16_congr (h _ (by omega) (by omega) (by omega) (by omega))
    (h _ (by omega) (by omega) (by omega) (by omega))

/-- A segment sum is one over the bytes of the segment. -/
theorem segmentSum_congr (h : ∀ k, off ≤ k → k < off + len → f'.byteAt k = f.byteAt k) :
    segmentSum f' off len = segmentSum f off len := by
  have hwords : ∀ i ∈ List.range (len / 2), f'.field16 (off + 2 * i) = f.field16 (off + 2 * i) := by
    intro i hi
    rw [List.mem_range] at hi
    exact Bytes.field16_congr (h _ (by omega) (by omega)) (h _ (by omega) (by omega))
  unfold segmentSum
  rw [List.map_congr_left hwords]
  by_cases hodd : len % 2 = 1
  · rw [if_pos hodd, if_pos hodd, h _ (by omega) (by omega)]
  · rw [if_neg hodd, if_neg hodd]

/-- A segment at a later start. -/
theorem segmentSum_drop (f : Bytes) (off len : ℕ) :
    segmentSum (f.drop off) 0 len = segmentSum f off len := by
  unfold segmentSum
  simp only [Bytes.field16_drop, Bytes.byteAt_drop, Nat.zero_add]
  by_cases hodd : len % 2 = 1
  · rw [if_pos hodd, if_pos hodd, Nat.add_sub_assoc (by omega)]
  · rw [if_neg hodd, if_neg hodd]

/-- A pseudo header is part of the IPv4 header. -/
theorem pseudoSum_congr (h : ∀ k, 8 < k → k < 20 → k ≠ 10 → k ≠ 11 → f'.byteAt k = f.byteAt k) :
    pseudoSum f' = pseudoSum f := by
  have hwords : ∀ k ∈ [12, 14, 16, 18], f'.field16 k = f.field16 k := by
    intro k hk
    have hk' : 11 < k ∧ k < 19 := by
      revert k
      decide
    exact Bytes.field16_congr (h _ (by omega) (by omega) (by omega) (by omega))
      (h _ (by omega) (by omega) (by omega) (by omega))
  unfold pseudoSum
  rw [List.map_congr_left hwords, h 9 (by omega) (by omega) (by omega) (by omega)]

/-- A word of the segment is replaced. -/
theorem segmentSum_patch {i v : ℕ} (hi : i < len / 2) (hfit : off + len ≤ f.length) :
    segmentSum (f.patch (off + 2 * i) (be16 v)) off len + f.field16 (off + 2 * i) =
      segmentSum f off len + v % 2 ^ 16 := by
  have hin : off + 2 * i + (be16 v).length ≤ f.length := by
    rw [length_be16]
    omega
  have houtside {k : ℕ} (hk : k < off + 2 * i ∨ off + 2 * i + 2 ≤ k) :
      (f.patch (off + 2 * i) (be16 v)).byteAt k = f.byteAt k :=
    Bytes.byteAt_patch_outside hin (by rwa [length_be16])
  have hwords := sum_replaced (f := fun j => f.field16 (off + 2 * j))
    (g := fun j => (f.patch (off + 2 * i) (be16 v)).field16 (off + 2 * j)) List.nodup_range
    (List.mem_range.mpr hi) fun j _ hj =>
      Bytes.field16_congr (houtside (by omega)) (houtside (by omega))
  rw [Bytes.field16_patch_self (by omega)] at hwords
  unfold segmentSum
  by_cases hodd : len % 2 = 1
  · rw [if_pos hodd, if_pos hodd, houtside (by omega)]
    omega
  · rw [if_neg hodd, if_neg hodd]
    exact hwords

/-- The odd last byte of the segment is replaced. -/
theorem segmentSum_patch_last {x : UInt8} (hodd : len % 2 = 1) (hfit : off + len ≤ f.length) :
    segmentSum (f.patch (off + len - 1) [x]) off len +
        (f.byteAt (off + len - 1)).toNat * 2 ^ 8 =
      segmentSum f off len + x.toNat * 2 ^ 8 := by
  have hin : off + len - 1 + [x].length ≤ f.length := by
    rw [List.length_singleton]
    omega
  have hwords : ∀ i ∈ List.range (len / 2),
      (f.patch (off + len - 1) [x]).field16 (off + 2 * i) = f.field16 (off + 2 * i) := by
    intro i hi
    rw [List.mem_range] at hi
    exact Bytes.field16_congr (Bytes.byteAt_patch_outside hin (by omega))
      (Bytes.byteAt_patch_outside hin (by omega))
  have hlast : (f.patch (off + len - 1) [x]).byteAt (off + len - 1) = x := by
    rw [Bytes.byteAt_patch hin, if_pos (by rw [List.length_singleton]; omega), Nat.sub_self]
    exact List.getD_cons_zero
  unfold segmentSum
  rw [List.map_congr_left hwords, if_pos hodd, if_pos hodd, hlast]
  omega

/-- A word of the addresses is replaced. -/
theorem pseudoSum_patch {i v : ℕ} (hi : i < 4) (hfit : off + 20 ≤ f.length) :
    pseudoSum ((f.patch (off + 12 + 2 * i) (be16 v)).drop off) +
        f.field16 (off + 12 + 2 * i) =
      pseudoSum (f.drop off) + v % 2 ^ 16 := by
  have hin : off + 12 + 2 * i + (be16 v).length ≤ f.length := by
    rw [length_be16]
    omega
  have houtside {k : ℕ} (hk : k < off + 12 + 2 * i ∨ off + 12 + 2 * i + 2 ≤ k) :
      (f.patch (off + 12 + 2 * i) (be16 v)).byteAt k = f.byteAt k :=
    Bytes.byteAt_patch_outside hin (by rwa [length_be16])
  have hmem : ∀ i < 4, 12 + 2 * i ∈ [12, 14, 16, 18] := by decide
  have heven : ∀ j ∈ [12, 14, 16, 18], j % 2 = 0 := by decide
  have hwords := sum_replaced (f := fun j => f.field16 (off + j))
    (g := fun j => (f.patch (off + 12 + 2 * i) (be16 v)).field16 (off + j)) (by decide) (hmem i hi)
    fun j hj hne => by
      have := heven j hj
      exact Bytes.field16_congr (houtside (by omega)) (houtside (by omega))
  rw [← Nat.add_assoc, Bytes.field16_patch_self (by omega)] at hwords
  unfold pseudoSum
  simp only [Bytes.field16_drop, Bytes.byteAt_drop]
  rw [houtside (by omega)]
  omega

/-! ### The segment of a frame -/

/-- The sum over the innermost segment of a frame and its pseudo header. -/
def frameSum (greLen iplen : ℕ) (rxbuf : Bytes) : ℕ :=
  segmentSum rxbuf (34 + greLen) (iplen - 20) + pseudoSum (rxbuf.drop (14 + greLen)) +
    (iplen - 20)

/-- A segment of at most 65535 bytes does not fill the 64 bits of `sum`. -/
theorem segmentSum_lt (f : Bytes) (off : ℕ) (hlen : len < 2 ^ 16) :
    segmentSum f off len < 2 ^ 32 := by
  have hwords (n : ℕ) : ((List.range n).map fun i => f.field16 (off + 2 * i)).sum ≤ n * 2 ^ 16 := by
    induction n with
    | zero => simp
    | succ n ih =>
      have hlast := f.field16_lt (off + 2 * n)
      rw [List.range_succ, List.map_append, List.sum_append, List.map_singleton,
        List.sum_singleton]
      omega
  have hbyte := (f.byteAt (off + len - 1)).toNat_lt
  have hsum := hwords (len / 2)
  unfold segmentSum
  split <;> omega

theorem pseudoSum_lt (ip : Bytes) : pseudoSum ip < 2 ^ 32 := by
  have hwords (k : ℕ) := ip.field16_lt k
  have h12 := hwords 12
  have h14 := hwords 14
  have h16 := hwords 16
  have h18 := hwords 18
  have hproto := (ip.byteAt 9).toNat_lt
  simp only [pseudoSum, List.map_cons, List.map_nil, List.sum_cons, List.sum_nil]
  omega

/-- The sum of the code is the one over the frame. -/
theorem tcpSum_eq (hlen : 20 ≤ iplen) (hlt : iplen < 2 ^ 16) (f : Bytes) :
    tcpSum (segmentSum f (34 + g) ((iplen + 2 ^ 16 - 20) % 2 ^ 16)) (f.drop (14 + g)) iplen =
      frameSum g iplen f := by
  have htcplen : (iplen + 2 ^ 16 - 20) % 2 ^ 16 = iplen - 20 := by omega
  have hsegment := segmentSum_lt f (34 + g) (show iplen - 20 < 2 ^ 16 by omega)
  have hpseudo := pseudoSum_lt (f.drop (14 + g))
  rw [htcplen, tcpSum, frameSum]
  omega

/-- The segment of a frame checks when its sum folds to all ones. -/
theorem verifyFrame_eq (hlen : 20 ≤ iplen) (hlt : iplen < 2 ^ 16)
    (htotal : f.field16 (16 + g) = iplen) :
    verifyFrame g iplen f = if foldSum (frameSum g iplen f) = 0xffff then 1 else 0 := by
  have hfield : Bytes.field16 (f.drop (14 + g)) 2 = iplen := by
    rw [Bytes.field16_drop, ← htotal]
    congr 1
    omega
  have hfold := foldSum_lt (frameSum g iplen f)
  simp only [verifyFrame, verifyTcpChecksum, segmentSum_drop, hfield, tcpSum_eq hlen hlt]
  by_cases hones : foldSum (frameSum g iplen f) = 0xffff
  · rw [hones, if_pos rfl, if_pos (by decide)]
  · rw [if_neg hones, if_neg (by omega)]

/-- The sum of a frame is one over the segment, the addresses and the protocol. -/
theorem pseudoSum_drop_congr
    (h : ∀ k, 22 + g < k → k < 34 + g → k ≠ 24 + g → k ≠ 25 + g → f'.byteAt k = f.byteAt k) :
    pseudoSum (f'.drop (14 + g)) = pseudoSum (f.drop (14 + g)) := by
  refine pseudoSum_congr fun k hlo hhi hne hne' => ?_
  rw [Bytes.byteAt_drop, Bytes.byteAt_drop]
  exact h _ (by omega) (by omega) (by omega) (by omega)

/-- A word of the segment or of its addresses is replaced. -/
theorem frameSum_patch {v : ℕ} (hword : IsWord g iplen k) (hlen : 20 ≤ iplen)
    (hfit : 14 + g + iplen ≤ f.length) :
    frameSum g iplen (f.patch k (be16 v)) + f.field16 k = frameSum g iplen f + v % 2 ^ 16 := by
  have houtside (hin : k + 2 ≤ f.length) {j : ℕ} (hj : j < k ∨ k + 2 ≤ j) :
      (f.patch k (be16 v)).byteAt j = f.byteAt j :=
    Bytes.byteAt_patch_outside (by rwa [length_be16]) (by rwa [length_be16])
  unfold frameSum
  rcases hword with ⟨i, hi, rfl⟩ | ⟨i, hi, rfl⟩
  · have hsegment := segmentSum_patch (v := v) hi
      (show 34 + g + (iplen - 20) ≤ f.length by omega)
    have hpseudo : pseudoSum ((f.patch (34 + g + 2 * i) (be16 v)).drop (14 + g)) =
        pseudoSum (f.drop (14 + g)) :=
      pseudoSum_drop_congr fun j _ hj _ _ => houtside (by omega) (by omega)
    omega
  · have hpos : 26 + g + 2 * i = 14 + g + 12 + 2 * i := by omega
    have hpseudo := pseudoSum_patch (v := v) hi (show 14 + g + 20 ≤ f.length by omega)
    rw [← hpos] at hpseudo
    have hsegment : segmentSum (f.patch (26 + g + 2 * i) (be16 v)) (34 + g) (iplen - 20) =
        segmentSum f (34 + g) (iplen - 20) :=
      segmentSum_congr fun j hj _ => houtside (by omega) (by omega)
    omega

/-- The odd last byte of the segment is replaced. -/
theorem frameSum_patch_last {x : UInt8} (hodd : iplen % 2 = 1) (hlen : 40 ≤ iplen)
    (hfit : 14 + g + iplen ≤ f.length) :
    frameSum g iplen (f.patch (13 + g + iplen) [x]) + (f.byteAt (13 + g + iplen)).toNat * 2 ^ 8 =
      frameSum g iplen f + x.toNat * 2 ^ 8 := by
  have hpos : 13 + g + iplen = 34 + g + (iplen - 20) - 1 := by omega
  have hsegment := segmentSum_patch_last (x := x) (show (iplen - 20) % 2 = 1 by omega)
    (show 34 + g + (iplen - 20) ≤ f.length by omega)
  rw [← hpos] at hsegment
  have hpseudo : pseudoSum ((f.patch (13 + g + iplen) [x]).drop (14 + g)) =
      pseudoSum (f.drop (14 + g)) := by
    refine pseudoSum_drop_congr fun j _ hj _ _ => ?_
    exact Bytes.byteAt_patch_outside (by rw [List.length_singleton]; omega) (by omega)
  unfold frameSum
  omega

/-- The sum of a frame is not empty. -/
theorem frameSum_pos (hlen : 20 < iplen) (f : Bytes) : 0 < frameSum g iplen f := by
  unfold frameSum
  omega

/-- **A replaced word is noticed.** -/
theorem verifyFrame_of_replaced {old new : ℕ} (hlen : 20 < iplen) (hlt : iplen < 2 ^ 16)
    (htotal : f.field16 (16 + g) = iplen) (htotal' : f'.field16 (16 + g) = iplen)
    (hverify : verifyFrame g iplen f = 1)
    (hreplaced : frameSum g iplen f' + old = frameSum g iplen f + new)
    (hnew : ¬new ≡ old [MOD 65535]) : verifyFrame g iplen f' = 0 := by
  rw [verifyFrame_eq (Nat.le_of_lt hlen) hlt htotal] at hverify
  have hones : foldSum (frameSum g iplen f) = 0xffff := by
    by_contra hne
    rw [if_neg hne] at hverify
    cases hverify
  rw [foldSum_eq] at hones
  have hne : foldSum (frameSum g iplen f') ≠ 0xffff := by
    rw [foldSum_eq]
    exact carryFold_ne_of_replaced _ hones hreplaced hnew (frameSum_pos hlen f)
      (frameSum_pos hlen f')
  rw [verifyFrame_eq (Nat.le_of_lt hlen) hlt htotal', if_neg hne]

/-! ### The checksums of a frame -/

/-- The inner headers of a GRE frame lie behind the outer ones. -/
theorem greLen_cases (f : Bytes) : greLen f = 0 ∨ 24 ≤ greLen f := by
  unfold greLen
  split <;> omega

theorem length_complement (sum : ℕ) : (complement sum).length = 2 := length_be16 _

theorem length_putIpChecksum (h : off + 20 ≤ f.length) :
    (putIpChecksum f off).length = f.length :=
  Bytes.length_patch (by rw [length_complement]; omega)

/-- The bytes that the checksum of one header leaves alone. -/
theorem byteAt_putIpChecksum (h : off + 20 ≤ f.length) (hk : k < off + 10 ∨ off + 12 ≤ k) :
    (putIpChecksum f off).byteAt k = f.byteAt k := by
  have hlen := length_complement (ipHeaderSum f off)
  exact Bytes.byteAt_patch_outside (by omega) (by omega)

/-- A written checksum makes its header valid. -/
theorem ipHeaderValid_putIpChecksum (h : off + 20 ≤ f.length) :
    IpHeaderValid (putIpChecksum f off) off := by
  have hsum : ipHeaderSum (putIpChecksum f off) off = ipHeaderSum f off :=
    ipHeaderSum_congr fun k _ _ _ _ => byteAt_putIpChecksum h (by omega)
  rw [IpHeaderValid, hsum, putIpChecksum, field16_complement (by omega)]
  exact foldSum_add_complement _

/-- A header is valid by its own bytes. -/
theorem IpHeaderValid.congr (hvalid : IpHeaderValid f off)
    (h : ∀ k, off ≤ k → k < off + 20 → f'.byteAt k = f.byteAt k) : IpHeaderValid f' off := by
  have hsum : ipHeaderSum f' off = ipHeaderSum f off :=
    ipHeaderSum_congr fun k hlo hhi _ _ => h k hlo hhi
  have hfield : f'.field16 (off + 10) = f.field16 (off + 10) :=
    Bytes.field16_congr (h _ (by omega) (by omega)) (h _ (by omega) (by omega))
  rw [IpHeaderValid, hsum, hfield]
  exact hvalid

theorem length_putIpChecksums (h : 34 + g ≤ f.length) :
    (putIpChecksums f g).length = f.length := by
  have houter : (putIpChecksum f 14).length = f.length := length_putIpChecksum (by omega)
  unfold putIpChecksums
  split
  · exact houter
  · rw [length_putIpChecksum (by omega), houter]

/-- The bytes that the checksums of the headers leave alone. -/
theorem byteAt_putIpChecksums (h : 34 + g ≤ f.length) (hk : k < 24 ∨ 26 ≤ k)
    (hk' : k < 24 + g ∨ 26 + g ≤ k) : (putIpChecksums f g).byteAt k = f.byteAt k := by
  have houter : (putIpChecksum f 14).byteAt k = f.byteAt k :=
    byteAt_putIpChecksum (by omega) (by omega)
  unfold putIpChecksums
  split
  · exact houter
  · rw [byteAt_putIpChecksum (by rw [length_putIpChecksum] <;> omega) (by omega), houter]

/-- The checksums of the headers make the outer and the inner header valid. -/
theorem ipHeaderValid_putIpChecksums (h : 34 + g ≤ f.length) (hgre : g = 0 ∨ 24 ≤ g) :
    IpHeaderValid (putIpChecksums f g) 14 ∧ IpHeaderValid (putIpChecksums f g) (14 + g) := by
  have houter : IpHeaderValid (putIpChecksum f 14) 14 := ipHeaderValid_putIpChecksum (by omega)
  rcases hgre with rfl | hgre
  · exact ⟨houter, houter⟩
  · have hlen : (putIpChecksum f 14).length = f.length := length_putIpChecksum (by omega)
    have hinner : putIpChecksums f g = putIpChecksum (putIpChecksum f 14) (14 + g) :=
      if_neg (by omega)
    rw [hinner]
    refine ⟨houter.congr fun k _ hk => ?_, ?_⟩
    · exact byteAt_putIpChecksum (by omega) (by omega)
    · exact ipHeaderValid_putIpChecksum (by omega)

section Calculate

variable (hfit : 52 + greLen f ≤ f.length)
include hfit

theorem length_zeroed :
    ((putIpChecksums f (greLen f)).patch (50 + greLen f) [0, 0]).length = f.length := by
  have hlen : (putIpChecksums f (greLen f)).length = f.length := length_putIpChecksums (by omega)
  rw [Bytes.length_patch, hlen]
  rw [hlen, List.length_cons, List.length_singleton]
  omega

theorem length_calculateTcpChecksum : (calculateTcpChecksum f).length = f.length := by
  have hlen := length_zeroed hfit
  simp only [calculateTcpChecksum]
  rw [Bytes.length_patch, hlen]
  rw [hlen, length_complement]
  omega

/-- Behind the headers' checksums only the one of the segment is written. -/
theorem byteAt_tcpChecksum (hk : k < 50 + greLen f ∨ 52 + greLen f ≤ k) :
    (calculateTcpChecksum f).byteAt k = (putIpChecksums f (greLen f)).byteAt k := by
  have hlen : (putIpChecksums f (greLen f)).length = f.length := length_putIpChecksums (by omega)
  have hzeroed := length_zeroed hfit
  have hzeros : ([0, 0] : Bytes).length = 2 := length_be16 0
  simp only [calculateTcpChecksum]
  rw [Bytes.byteAt_patch_outside (by rw [hzeroed, length_complement]; omega)
      (by rw [length_complement]; omega),
    Bytes.byteAt_patch_outside (by rw [hlen, hzeros]; omega) (by rw [hzeros]; omega)]

/-- **Frame.** Only checksums change. -/
theorem byteAt_calculateTcpChecksum (hk : ¬IsChecksum (greLen f) k) :
    (calculateTcpChecksum f).byteAt k = f.byteAt k := by
  unfold IsChecksum at hk
  rw [byteAt_tcpChecksum hfit (by omega), byteAt_putIpChecksums] <;> omega

/-- The headers are valid in the end. -/
theorem ipHeaderValid_calculateTcpChecksum :
    IpHeaderValid (calculateTcpChecksum f) 14 ∧
      IpHeaderValid (calculateTcpChecksum f) (14 + greLen f) := by
  obtain ⟨houter, hinner⟩ := ipHeaderValid_putIpChecksums (f := f) (by omega) (greLen_cases f)
  exact ⟨houter.congr fun k _ _ => byteAt_tcpChecksum hfit (by omega),
    hinner.congr fun k _ _ => byteAt_tcpChecksum hfit (by omega)⟩

/-- The total length is not written. -/
theorem field16_calculateTcpChecksum :
    (calculateTcpChecksum f).field16 (16 + greLen f) = innerIplen f := by
  have hgre := greLen_cases f
  rw [innerIplen, Nat.add_comm]
  exact Bytes.field16_congr
    (byteAt_calculateTcpChecksum hfit (by unfold IsChecksum; omega))
    (byteAt_calculateTcpChecksum hfit (by unfold IsChecksum; omega))

/-- **The segment.** The written checksum closes the sum over it. -/
theorem foldSum_calculateTcpChecksum (hlen : 40 ≤ innerIplen f)
    (hiplen : 14 + greLen f + innerIplen f ≤ f.length) :
    foldSum (frameSum (greLen f) (innerIplen f) (calculateTcpChecksum f)) = 0xffff := by
  let g := greLen f
  let zeroed := (putIpChecksums f g).patch (50 + g) [0, 0]
  have hzeroed : zeroed.length = f.length := length_zeroed hfit
  have hcsum : zeroed.field16 (50 + g) = 0 :=
    Bytes.field16_patch_self (n := 0)
      (by rw [length_putIpChecksums (by omega)]; change 50 + greLen f + 2 ≤ _; omega)
  have hlt : innerIplen f < 2 ^ 16 := Bytes.field16_lt _ _
  have htcp : tcpSum (segmentSum zeroed (34 + g) ((innerIplen f + 2 ^ 16 - 20) % 2 ^ 16))
      (zeroed.drop (14 + g)) (innerIplen f) = frameSum g (innerIplen f) zeroed :=
    tcpSum_eq (by omega) hlt zeroed
  have hcalc : calculateTcpChecksum f =
      zeroed.patch (50 + g) (be16 (2 ^ 16 - 1 - foldSum (frameSum g (innerIplen f) zeroed))) := by
    rw [← htcp]
    rfl
  have hword : IsWord g (innerIplen f) (50 + g) := .inl ⟨8, by omega, by omega⟩
  have hreplaced := frameSum_patch (f := zeroed)
    (v := 2 ^ 16 - 1 - foldSum (frameSum g (innerIplen f) zeroed)) hword (by omega)
    (by rw [hzeroed]; exact hiplen)
  rw [← hcalc, hcsum, Nat.add_zero, Nat.mod_eq_of_lt (by omega)] at hreplaced
  rw [hreplaced]
  exact foldSum_add_complement _

end Calculate

/-- **The checksum pair.** For a frame with a TCP segment, plain or GRE, the computation writes
checksums only, makes the IPv4 headers valid, and its segment is accepted. With one word of the
segment or of its addresses replaced by one that differs modulo 65535 it is rejected; an odd last
byte is a word padded with zero. -/
theorem calculateTcpChecksum_verify (f : Bytes) (hlen : 40 ≤ innerIplen f)
    (hfit : 14 + greLen f + innerIplen f ≤ f.length) :
    (calculateTcpChecksum f).length = f.length ∧
    (∀ k, ¬IsChecksum (greLen f) k → (calculateTcpChecksum f).byteAt k = f.byteAt k) ∧
    IpHeaderValid (calculateTcpChecksum f) 14 ∧
    IpHeaderValid (calculateTcpChecksum f) (14 + greLen f) ∧
    verifyFrame (greLen f) (innerIplen f) (calculateTcpChecksum f) = 1 ∧
    (∀ k, IsWord (greLen f) (innerIplen f) k →
      ∀ v < 2 ^ 16, ¬v ≡ (calculateTcpChecksum f).field16 k [MOD 65535] →
        verifyFrame (greLen f) (innerIplen f) ((calculateTcpChecksum f).patch k (be16 v)) = 0) ∧
    (innerIplen f % 2 = 1 → ∀ x : UInt8,
      let last := 13 + greLen f + innerIplen f
      ¬x.toNat * 2 ^ 8 ≡ ((calculateTcpChecksum f).byteAt last).toNat * 2 ^ 8 [MOD 65535] →
        verifyFrame (greLen f) (innerIplen f) ((calculateTcpChecksum f).patch last [x]) = 0) := by
  have hcsum : 52 + greLen f ≤ f.length := by omega
  have hlt : innerIplen f < 2 ^ 16 := Bytes.field16_lt _ _
  have hcalcLen := length_calculateTcpChecksum hcsum
  have hcalcFit : 14 + greLen f + innerIplen f ≤ (calculateTcpChecksum f).length := by
    rwa [hcalcLen]
  obtain ⟨houter, hinner⟩ := ipHeaderValid_calculateTcpChecksum hcsum
  have htotal := field16_calculateTcpChecksum hcsum
  have hverify : verifyFrame (greLen f) (innerIplen f) (calculateTcpChecksum f) = 1 := by
    rw [verifyFrame_eq (by omega) hlt htotal,
      if_pos (foldSum_calculateTcpChecksum hcsum hlen hfit)]
  refine ⟨hcalcLen, fun k hk => byteAt_calculateTcpChecksum hcsum hk, houter, hinner, hverify,
    fun k hword v hv hnew => ?_, fun hodd x hnew => ?_⟩
  · have hbound : 26 + greLen f ≤ k ∧ k + 2 ≤ f.length := by
      rcases hword with ⟨i, hi, rfl⟩ | ⟨i, hi, rfl⟩ <;> omega
    have hreplaced := frameSum_patch (v := v) hword (by omega) hcalcFit
    rw [Nat.mod_eq_of_lt hv] at hreplaced
    refine verifyFrame_of_replaced (by omega) hlt htotal ?_ hverify hreplaced hnew
    rw [← htotal]
    exact Bytes.field16_congr
      (Bytes.byteAt_patch_outside (by rw [length_be16]; omega) (by omega))
      (Bytes.byteAt_patch_outside (by rw [length_be16]; omega) (by omega))
  · have hreplaced := frameSum_patch_last (x := x) hodd hlen hcalcFit
    refine verifyFrame_of_replaced (by omega) hlt htotal ?_ hverify hreplaced hnew
    rw [← htotal]
    exact Bytes.field16_congr
      (Bytes.byteAt_patch_outside (by rw [List.length_singleton]; omega) (by omega))
      (Bytes.byteAt_patch_outside (by rw [List.length_singleton]; omega) (by omega))

/-- A frame with one byte of payload. -/
def oneByteFrame : Bytes :=
  List.replicate 12 0 ++ [8, 0, 0x45, 0, 0, 41, 0, 0, 0x40, 0, 64, 6, 0, 0] ++
    [10, 0, 0, 1, 10, 0, 0, 2] ++ List.replicate 21 0x50

/-- An odd segment. -/
theorem calculateTcpChecksum_verify_odd : innerIplen oneByteFrame % 2 = 1 ∧
    verifyFrame (greLen oneByteFrame) (innerIplen oneByteFrame)
      (calculateTcpChecksum oneByteFrame) = 1 := by
  refine ⟨by decide, ?_⟩
  exact (calculateTcpChecksum_verify oneByteFrame (by decide) (by decide)).2.2.2.2.1

/-! ### The frame of a packet buffer -/

variable {m : Mbuf}

theorem greLen_region (m : Mbuf) : greLen m.region = greAndIpLen m := by
  unfold greLen greAndIpLen WanOptimizer.greLen Mbuf.byteAt
  split <;> omega

theorem ipHeaderSum_region (m : Mbuf) (g : ℕ) :
    ipHeaderSum m.region (14 + g) = WanOptimizer.ipHeaderSum m g := by
  have hwords (k : ℕ) : m.region.field16 (14 + g + k) = m.field16 (14 + k + g) := by
    rw [Mbuf.field16, Nat.add_right_comm]
  simp only [ipHeaderSum, WanOptimizer.ipHeaderSum, List.map_cons, List.map_nil, hwords,
    Nat.reduceAdd]

theorem tcpSum_region (m : Mbuf) (g : ℕ) :
    tcpSum (segmentSum m.region (34 + g) ((m.field16 (g + 16) + 2 ^ 16 - 20) % 2 ^ 16))
      (m.region.drop (14 + g)) (m.field16 (g + 16)) = WanOptimizer.tcpSum m g := by
  have hwords (i : ℕ) : m.region.field16 (34 + g + 2 * i) = m.field16 (2 * i + 34 + g) := by
    rw [Mbuf.field16]
    congr 1
    omega
  have haddrs (k : ℕ) : m.region.field16 (14 + g + k) = m.field16 (14 + k + g) := by
    rw [Mbuf.field16, Nat.add_right_comm]
  have hproto : m.region.byteAt (14 + g + 9) = m.byteAt (23 + g) := by
    rw [Mbuf.byteAt, Nat.add_right_comm]
  have hlast (len : ℕ) : m.region.byteAt (34 + g + len - 1) = m.byteAt (len + 33 + g) := by
    rw [Mbuf.byteAt]
    congr 1
    omega
  simp only [tcpSum, segmentSum, pseudoSum, WanOptimizer.tcpSum, Bytes.field16_drop,
    Bytes.byteAt_drop, hwords, haddrs, hproto, hlast, List.map_cons, List.map_nil, Nat.reduceAdd]
  rw [← Nat.add_assoc (_ + _) _ (UInt8.toNat _)]

/-- A write inside the buffer. -/
theorem region_store_inside {bs : Bytes} (h : off + bs.length ≤ m.region.length) :
    (m.store off bs).region = m.region.patch off bs := by
  rw [Mbuf.region_store, List.take_of_length_le (Nat.le_of_eq (Bytes.length_patch h))]

/-- **The code on a packet buffer.** The computation on a buffer that holds the headers is the
one on its bytes. -/
theorem region_calculateTcpChecksum (h : 52 + greAndIpLen m ≤ m.region.length) :
    (WanOptimizer.calculateTcpChecksum m).region = calculateTcpChecksum m.region := by
  have hheaders : ∀ {m : Mbuf} {g : ℕ}, 34 + g ≤ m.region.length →
      (m.store (24 + g) (complement (WanOptimizer.ipHeaderSum m g))).region =
        putIpChecksum m.region (14 + g) := by
    intro m g hg
    have hlen := length_complement (WanOptimizer.ipHeaderSum m g)
    rw [region_store_inside (by omega), putIpChecksum, ipHeaderSum_region, Nat.add_right_comm]
  let g := greAndIpLen m
  let m₁ := m.store 24 (complement (WanOptimizer.ipHeaderSum m 0))
  let m₂ := if g = 0 then m₁
    else m₁.store (24 + g) (complement (WanOptimizer.ipHeaderSum m₁ g))
  have hm₁ : m₁.region = putIpChecksum m.region 14 := hheaders (g := 0) (by omega)
  have hlen₁ : m₁.region.length = m.region.length := Mbuf.length_region_store
  have hm₂ : m₂.region = putIpChecksums m.region g := by
    by_cases hgre : g = 0
    · simp only [m₂, if_pos hgre, putIpChecksums, hm₁]
    · simp only [m₂, if_neg hgre, putIpChecksums]
      rw [hheaders (by omega), hm₁]
  have hlen₂ : m₂.region.length = m.region.length := by
    rw [hm₂, length_putIpChecksums (by omega)]
  let m₃ := m₂.store (50 + g) [0, 0]
  have hzeros : ([0, 0] : Bytes).length = 2 := length_be16 0
  have hm₃ : m₃.region = (putIpChecksums m.region g).patch (50 + g) [0, 0] := by
    rw [region_store_inside (by omega), hm₂]
  have hlen₃ : m₃.region.length = m₂.region.length := Mbuf.length_region_store
  have htotal : m₃.field16 (g + 16) = m.region.field16 (g + 16) := by
    have hgre := greLen_cases m.region
    rw [greLen_region] at hgre
    rw [Mbuf.field16, hm₃]
    have hbyte {k : ℕ} (hk : k = g + 16 ∨ k = g + 17) :
        ((putIpChecksums m.region g).patch (50 + g) [0, 0]).byteAt k = m.region.byteAt k := by
      rw [Bytes.byteAt_patch_outside (by rw [← hm₂]; omega) (by omega),
        byteAt_putIpChecksums (by omega) (by omega) (by omega)]
    exact Bytes.field16_congr (hbyte (.inl rfl)) (hbyte (.inr rfl))
  have hlen := length_complement (WanOptimizer.tcpSum m₃ g)
  have hstore : (WanOptimizer.calculateTcpChecksum m).region =
      (m₃.store (50 + g) (complement (WanOptimizer.tcpSum m₃ g))).region := by
    simp only [WanOptimizer.calculateTcpChecksum, m₃, m₂, m₁, g]
  rw [hstore, region_store_inside (by omega), ← tcpSum_region, htotal, hm₃]
  simp only [calculateTcpChecksum, greLen_region, g]

end SecureWan.WanOptimizer.Rxbuf
