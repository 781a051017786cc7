import SecureWan.Encryptor.Tunnel

/-!
# Transport mode

The transport program leaves the IP header of a packet in place and opens a gap
behind it, for a UDP header, the saved protocol and the IV. The gap is always put
behind twenty bytes of header, and the bytes moved to open and to close it are
counted by `total_length` and the IHL. Results about the headers are stated byte
by byte, since the same bytes are read at fixed offsets on the other side.
-/

namespace SecureWan.Transport

/-- `TRANSPORT_PROTO_META_LEN`. -/
def transportProtoMetaLen : ℕ := 2

/-- `TRANSPORT_OVERHEAD`. -/
def transportOverhead : ℕ := udpHdrLen + transportProtoMetaLen + ivInPacketSize

/-- `ip_end` and `udp_start`: the end of a header without options. -/
def ipEnd : ℕ := etherHdrLen + ipv4HdrLen

/-- Where the saved protocol is. -/
def protoMetaAt : ℕ := ipEnd + udpHdrLen

/-- Where the encrypt side writes the IV. -/
def wireIvAt : ℕ := protoMetaAt + transportProtoMetaLen

/-- Where the encrypted data begins. -/
def cipherAt : ℕ := ipEnd + transportOverhead

/-- The header length that the IHL states. -/
def ipHdrLen (m : Mbuf) : ℕ := (m.byteAt etherHdrLen).toNat % 16 * 4

/-- The field `total_length`. -/
def totalLength (m : Mbuf) : ℕ := m.field16 (etherHdrLen + 2)

/-- The field `next_proto_id`. -/
def nextProtoId (m : Mbuf) : UInt8 := m.byteAt (etherHdrLen + 9)

/-- New values for `next_proto_id` and `total_length`, and the checksum computed over
a zero checksum field. -/
def patchIpHdr (ipv4Cksum : Bytes → UInt16) (proto : UInt8) (total : ℕ) (m : Mbuf) : Mbuf :=
  let m := m.store (etherHdrLen + 9) [proto]
  let m := m.store (etherHdrLen + 2) (be16 total)
  let m := m.store (etherHdrLen + 10) (be16 0)
  m.store (etherHdrLen + 10) (be16 (ipv4Cksum (m.load etherHdrLen (ipHdrLen m))).toNat)

/-- The UDP header: ports 1701, the length, no checksum. -/
def udpHdr (transportLen : ℕ) : Bytes :=
  be16 1701 ++ be16 1701 ++
    be16 (udpHdrLen + transportProtoMetaLen + ivInPacketSize + transportLen) ++ be16 0

/-- `tunnel_encap`: open the gap and fill it, with zeros for the IV. -/
def tunnelEncap (ipv4Cksum : Bytes → UInt16) (m : Mbuf) : Option Mbuf :=
  let origProto := nextProtoId m
  let origTotalLen := totalLength m
  let transportLen := (origTotalLen + 2 ^ 16 - ipHdrLen m) % 2 ^ 16
  match m.append transportOverhead with
  | none => none
  | some m =>
    let m := m.store cipherAt (m.load ipEnd transportLen)
    let m := m.store ipEnd (udpHdr transportLen)
    let m := m.store protoMetaAt [origProto, 0]
    let m := m.store wireIvAt (List.replicate ivInPacketSize 0)
    some (patchIpHdr ipv4Cksum ipprotoUdp (origTotalLen + transportOverhead) m)

/-- `tunnel_decap`: close the gap and restore the protocol and the length. -/
def tunnelDecap (ipv4Cksum : Bytes → UInt16) (m : Mbuf) : Option Mbuf :=
  if nextProtoId m ≠ ipprotoUdp then none
  else
    let origTotalLen := totalLength m
    let origProto := m.byteAt protoMetaAt
    let hdrLen := ipHdrLen m
    if origTotalLen < hdrLen + transportOverhead then none
    else
      let encLen := origTotalLen - hdrLen - transportOverhead
      let m := m.store ipEnd (m.load cipherAt encLen)
      let m := m.trim transportOverhead
      some (patchIpHdr ipv4Cksum origProto (origTotalLen - transportOverhead) m)

/-- `l2fwd_simple_forward`: the decrypt side trims the digest and then less than one
block of padding. -/
def l2fwdSimpleForward (portid authDigestLength : ℕ) (m : Mbuf) : Mbuf :=
  if portid = 1 then
    let m := if 0 < authDigestLength then m.trim authDigestLength else m
    let padLen := sub32 (sub32 m.pktLen etherHdrLen) (totalLength m)
    if 0 < padLen ∧ padLen < 16 then m.trim padLen else m
  else m

/-- The lengths of the headers, for arithmetic. -/
theorem headerLengths : etherHdrLen = 14 ∧ ipv4HdrLen = 20 ∧ udpHdrLen = 8 ∧
    transportProtoMetaLen = 2 ∧ ivInPacketSize = 16 := ⟨rfl, rfl, rfl, rfl, rfl⟩

/-- The offsets of the gap and of the data behind it, for arithmetic. -/
theorem gapOffsets : ipEnd = 34 ∧ protoMetaAt = 42 ∧ wireIvAt = 44 ∧ cipherAt = 60 ∧
    transportOverhead = 26 := ⟨rfl, rfl, rfl, rfl, rfl⟩

variable {ipv4Cksum : Bytes → UInt16} {m m' : Mbuf}

theorem totalLength_lt (m : Mbuf) : totalLength m < 2 ^ 16 := m.field16_lt _

section PatchIpHdr

variable {proto : UInt8} {total : ℕ}

@[simp] theorem pktLen_patchIpHdr : (patchIpHdr ipv4Cksum proto total m).pktLen = m.pktLen := by
  simp only [patchIpHdr, Mbuf.pktLen_store]

@[simp] theorem length_tailroom_patchIpHdr :
    (patchIpHdr ipv4Cksum proto total m).tailroom.length = m.tailroom.length := by
  simp only [patchIpHdr, Mbuf.length_store_tailroom]

/-- The patched header, byte by byte up to the checksum. -/
private theorem byteAt_patchIpHdr_eq (h : ipEnd ≤ m.region.length) {k : ℕ}
    (hk : k ≠ etherHdrLen + 10 ∧ k ≠ etherHdrLen + 11) :
    (patchIpHdr ipv4Cksum proto total m).byteAt k =
      if etherHdrLen + 2 ≤ k ∧ k < etherHdrLen + 2 + 2 then
        (be16 total).byteAt (k - (etherHdrLen + 2))
      else if etherHdrLen + 9 ≤ k ∧ k < etherHdrLen + 9 + 1 then
        Bytes.byteAt [proto] (k - (etherHdrLen + 9))
      else m.byteAt k := by
  obtain ⟨heth, -⟩ := headerLengths
  obtain ⟨hend, -⟩ := gapOffsets
  have hcksum {n : ℕ} : ¬(etherHdrLen + 10 ≤ k ∧ k < etherHdrLen + 10 + (be16 n).length) := by
    rw [length_be16]
    omega
  unfold patchIpHdr
  rw [Mbuf.byteAt_store (by simp only [Mbuf.length_region_store, length_be16]; omega),
    if_neg hcksum, Mbuf.byteAt_store (by simp only [Mbuf.length_region_store, length_be16]; omega),
    if_neg hcksum, Mbuf.byteAt_store (by simp only [Mbuf.length_region_store, length_be16]; omega),
    Mbuf.byteAt_store (by simp only [List.length_singleton]; omega)]
  rfl

/-- The patch keeps everything up to the IHL and everything behind the header. -/
theorem byteAt_patchIpHdr (h : ipEnd ≤ m.region.length) {k : ℕ}
    (hk : k ≤ etherHdrLen ∨ ipEnd ≤ k) :
    (patchIpHdr ipv4Cksum proto total m).byteAt k = m.byteAt k := by
  obtain ⟨heth, -⟩ := headerLengths
  obtain ⟨hend, -⟩ := gapOffsets
  rw [byteAt_patchIpHdr_eq h (by omega), if_neg (by omega), if_neg (by omega)]

@[simp] theorem nextProtoId_patchIpHdr (h : ipEnd ≤ m.region.length) :
    nextProtoId (patchIpHdr ipv4Cksum proto total m) = proto := by
  rw [nextProtoId, byteAt_patchIpHdr_eq h (by decide), if_neg (by decide), if_pos (by decide)]
  rfl

@[simp] theorem totalLength_patchIpHdr (h : ipEnd ≤ m.region.length) :
    totalLength (patchIpHdr ipv4Cksum proto total m) = total % 2 ^ 16 := by
  have hfield : totalLength (patchIpHdr ipv4Cksum proto total m) = (be16 total).field16 0 := by
    rw [totalLength, Mbuf.field16_eq, byteAt_patchIpHdr_eq h (by decide), if_pos (by decide),
      byteAt_patchIpHdr_eq h (by decide), if_pos (by decide)]
    rfl
  rw [hfield, field16_be16]

end PatchIpHdr

/-- The writes into the gap save the protocol and touch nothing outside the gap. -/
private theorem byteAt_fillGap (h : cipherAt ≤ m.region.length) (transportLen : ℕ)
    (proto : UInt8) :
    let filled := ((m.store ipEnd (udpHdr transportLen)).store protoMetaAt [proto, 0]).store
      wireIvAt (List.replicate ivInPacketSize 0)
    filled.byteAt protoMetaAt = proto ∧
      ∀ k, k < ipEnd ∨ cipherAt ≤ k → filled.byteAt k = m.byteAt k := by
  intro filled
  obtain ⟨hend, hmeta, hiv, hdata, -⟩ := gapOffsets
  have hudp : (udpHdr transportLen).length = 8 := rfl
  have hsaved : ([proto, 0] : Bytes).length = 2 := rfl
  have hzero : (List.replicate ivInPacketSize (0 : UInt8)).length = 16 := rfl
  have hfilled (k : ℕ) (hk : k < wireIvAt ∨ cipherAt ≤ k) : filled.byteAt k =
      if protoMetaAt ≤ k ∧ k < protoMetaAt + 2 then Bytes.byteAt [proto, 0] (k - protoMetaAt)
      else if ipEnd ≤ k ∧ k < ipEnd + 8 then (udpHdr transportLen).byteAt (k - ipEnd)
      else m.byteAt k := by
    rw [Mbuf.byteAt_store (by simp only [Mbuf.length_region_store]; omega), if_neg (by omega),
      Mbuf.byteAt_store (by simp only [Mbuf.length_region_store]; omega),
      Mbuf.byteAt_store (by omega), hsaved, hudp]
  refine ⟨?_, fun k hk => ?_⟩
  · rw [hfilled _ (by omega), if_pos (by omega), Nat.sub_self]
    rfl
  · rw [hfilled k (by omega), if_neg (by omega), if_neg (by omega)]

/-- **Encapsulation.** With room for the overhead, a whole packet gets the protocol UDP,
its old protocol saved, and the bytes counted by the IHL moved behind the gap. -/
theorem tunnelEncap_isSome (ipv4Cksum : Bytes → UInt16) (hhdr : ipv4HdrLen ≤ ipHdrLen m)
    (hfits : ipHdrLen m ≤ totalLength m) (hwhole : etherHdrLen + totalLength m ≤ m.pktLen)
    (hroom : transportOverhead ≤ m.tailroom.length) :
    ∃ m', tunnelEncap ipv4Cksum m = some m' ∧ m'.pktLen = m.pktLen + transportOverhead ∧
      m'.tailroom.length = m.tailroom.length - transportOverhead ∧
      (∀ k, k ≤ etherHdrLen → m'.byteAt k = m.byteAt k) ∧ nextProtoId m' = ipprotoUdp ∧
      totalLength m' = totalLength m + transportOverhead ∧
      m'.byteAt protoMetaAt = nextProtoId m ∧
      ∀ i, i < totalLength m - ipHdrLen m → m'.byteAt (cipherAt + i) = m.byteAt (ipEnd + i) := by
  obtain ⟨heth, hip, -⟩ := headerLengths
  obtain ⟨hend, hmeta, hiv, hdata, hover⟩ := gapOffsets
  have htotal := totalLength_lt m
  have hlen : (totalLength m + 2 ^ 16 - ipHdrLen m) % 2 ^ 16 = totalLength m - ipHdrLen m := by
    omega
  obtain ⟨m₁, hm₁⟩ := Mbuf.append_isSome hroom
  obtain ⟨_, _, hdata₁, htail₁⟩ := Mbuf.of_append hm₁
  have hpkt₁ : m₁.pktLen = m.pktLen + transportOverhead := by
    rw [Mbuf.pktLen, hdata₁, List.length_append, List.length_take, Nat.min_eq_left hroom,
      Mbuf.pktLen]
  have hbound : m₁.pktLen < 2 ^ 16 := m₁.length_data_lt
  have hregion := m₁.pktLen_le_region
  have hsame (k : ℕ) : m₁.byteAt k = m.byteAt k := Mbuf.byteAt_of_append hm₁ k
  let moved := m₁.load ipEnd (totalLength m - ipHdrLen m)
  have hmoved : moved.length = totalLength m - ipHdrLen m := Bytes.length_readAt
  -- what each of the writes leaves
  let m₂ := m₁.store cipherAt moved
  have hbyte₂ (k : ℕ) : m₂.byteAt k = if cipherAt ≤ k ∧ k < cipherAt + moved.length then
      moved.byteAt (k - cipherAt) else m.byteAt k := by
    rw [← hsame k]
    exact Mbuf.byteAt_store (by omega) k
  have hregion₂ : cipherAt ≤ m₂.region.length := by
    rw [Mbuf.length_region_store]
    omega
  let m₃ := ((m₂.store ipEnd (udpHdr (totalLength m - ipHdrLen m))).store protoMetaAt
    [nextProtoId m, 0]).store wireIvAt (List.replicate ivInPacketSize 0)
  obtain ⟨hsaved₃, hbyte₃⟩ :=
    byteAt_fillGap hregion₂ (totalLength m - ipHdrLen m) (nextProtoId m)
  have hregion₃ : ipEnd ≤ m₃.region.length := by
    simp only [m₃, Mbuf.length_region_store]
    omega
  refine ⟨patchIpHdr ipv4Cksum ipprotoUdp (totalLength m + transportOverhead) m₃, ?_, ?_, ?_, ?_,
    nextProtoId_patchIpHdr hregion₃, ?_, ?_, ?_⟩
  · simp only [tunnelEncap, hlen, hm₁]
    rfl
  · simp only [pktLen_patchIpHdr, m₃, m₂, Mbuf.pktLen_store, hpkt₁]
  · simp only [length_tailroom_patchIpHdr, m₃, m₂, Mbuf.length_store_tailroom, htail₁,
      List.length_drop]
  · intro k hk
    rw [byteAt_patchIpHdr hregion₃ (by omega), hbyte₃ _ (by omega), hbyte₂, if_neg (by omega)]
  · rw [totalLength_patchIpHdr hregion₃]
    omega
  · rw [byteAt_patchIpHdr hregion₃ (by omega), hsaved₃]
  · intro i hi
    rw [byteAt_patchIpHdr hregion₃ (by omega), hbyte₃ _ (by omega), hbyte₂, if_pos (by omega),
      Nat.add_sub_cancel_left, Mbuf.byteAt_load hi, hsame]

/-- **Decapsulation.** A whole packet with the protocol UDP gets its protocol and length
back, and the bytes counted by the IHL move into the gap; those behind them stay where
they are. -/
theorem tunnelDecap_isSome (ipv4Cksum : Bytes → UInt16) (hproto : nextProtoId m = ipprotoUdp)
    (hhdr : ipv4HdrLen ≤ ipHdrLen m) (hfits : ipHdrLen m + transportOverhead ≤ totalLength m)
    (hwhole : etherHdrLen + totalLength m ≤ m.pktLen) :
    ∃ m', tunnelDecap ipv4Cksum m = some m' ∧ m'.pktLen = m.pktLen - transportOverhead ∧
      nextProtoId m' = m.byteAt protoMetaAt ∧
      totalLength m' = totalLength m - transportOverhead ∧
      ∀ i, m'.byteAt (ipEnd + i) = if i < totalLength m - ipHdrLen m - transportOverhead then
        m.byteAt (cipherAt + i) else m.byteAt (ipEnd + i) := by
  obtain ⟨heth, hip, -⟩ := headerLengths
  obtain ⟨hend, hmeta, hiv, hdata, hover⟩ := gapOffsets
  have htotal := totalLength_lt m
  have hregion := m.pktLen_le_region
  let encLen := totalLength m - ipHdrLen m - transportOverhead
  let moved := m.load cipherAt encLen
  have hmoved : moved.length = encLen := Bytes.length_readAt
  let m₁ := (m.store ipEnd moved).trim transportOverhead
  have hbyte (k : ℕ) : m₁.byteAt k = if ipEnd ≤ k ∧ k < ipEnd + encLen then
      moved.byteAt (k - ipEnd) else m.byteAt k := by
    rw [Mbuf.byteAt_trim, Mbuf.byteAt_store (by omega), hmoved]
  have hpkt : m₁.pktLen = m.pktLen - transportOverhead := by
    rw [Mbuf.pktLen_trim (by rw [Mbuf.pktLen_store]; omega), Mbuf.pktLen_store]
  have hregion₁ : ipEnd ≤ m₁.region.length := by
    have := m₁.pktLen_le_region
    omega
  refine ⟨patchIpHdr ipv4Cksum (m.byteAt protoMetaAt) (totalLength m - transportOverhead) m₁, ?_,
    by rw [pktLen_patchIpHdr, hpkt], nextProtoId_patchIpHdr hregion₁, ?_, fun i => ?_⟩
  · rw [tunnelDecap, if_neg (not_not.mpr hproto), if_neg (by omega)]
  · rw [totalLength_patchIpHdr hregion₁, Nat.mod_eq_of_lt (by omega)]
  · rw [byteAt_patchIpHdr hregion₁ (by omega), hbyte]
    by_cases hi : i < encLen
    · rw [if_pos (by omega), if_pos hi, Nat.add_sub_cancel_left, Mbuf.byteAt_load hi]
    · rw [if_neg (by omega), if_neg hi]

/-- Trimming the padding by `total_length` leaves the IP header in the packet. -/
private theorem trimPadding_keeps (hlen : ipEnd ≤ m.pktLen) (htotal : ipv4HdrLen ≤ totalLength m) :
    let padLen := sub32 (sub32 m.pktLen etherHdrLen) (totalLength m)
    let trimmed := if 0 < padLen ∧ padLen < 16 then m.trim padLen else m
    ipEnd ≤ trimmed.pktLen ∧ ∀ k, trimmed.byteAt k = m.byteAt k := by
  obtain ⟨heth, hip, -⟩ := headerLengths
  obtain ⟨hend, -⟩ := gapOffsets
  have hbound : m.pktLen < 2 ^ 16 := m.length_data_lt
  have htotal_lt := totalLength_lt m
  have hpayload : sub32 m.pktLen etherHdrLen = m.pktLen - etherHdrLen :=
    sub32_eq (by omega) (by omega)
  intro padLen trimmed
  by_cases htrim : 0 < padLen ∧ padLen < 16
  · have htrimmed : trimmed = m.trim padLen := if_pos htrim
    have hle : totalLength m ≤ m.pktLen - etherHdrLen := by
      by_contra hgt
      have hwrap : padLen = m.pktLen - etherHdrLen + 2 ^ 32 - totalLength m := by
        simp only [padLen, hpayload]
        exact sub32_of_lt (by omega) (by omega)
      omega
    have hpad : padLen = m.pktLen - etherHdrLen - totalLength m := by
      simp only [padLen, hpayload]
      exact sub32_eq hle (by omega)
    rw [htrimmed, Mbuf.pktLen_trim (by omega)]
    exact ⟨by omega, fun k => Mbuf.byteAt_trim m padLen k⟩
  · have htrimmed : trimmed = m := if_neg htrim
    rw [htrimmed]
    exact ⟨hlen, fun _ => rfl⟩

/-- **Forwarding on the decrypt side.** The trims do not touch the IP header. -/
theorem l2fwdSimpleForward_decrypt {digestLength : ℕ} (hlen : ipEnd + digestLength ≤ m.pktLen)
    (htotal : ipv4HdrLen ≤ totalLength m) :
    ipEnd ≤ (l2fwdSimpleForward 1 digestLength m).pktLen ∧
      ∀ k, (l2fwdSimpleForward 1 digestLength m).byteAt k = m.byteAt k := by
  -- the packet after the digest is trimmed
  obtain ⟨m₁, hm₁, hlen₁, hbyte₁⟩ : ∃ m₁, m₁ = (if 0 < digestLength then m.trim digestLength
      else m) ∧ ipEnd ≤ m₁.pktLen ∧ ∀ k, m₁.byteAt k = m.byteAt k := by
    by_cases hdigest : 0 < digestLength
    · refine ⟨m.trim digestLength, by rw [if_pos hdigest], ?_, Mbuf.byteAt_trim m digestLength⟩
      rw [Mbuf.pktLen_trim (by omega)]
      omega
    · exact ⟨m, by rw [if_neg hdigest], by omega, fun _ => rfl⟩
  have htotal₁ : totalLength m₁ = totalLength m := by
    rw [totalLength, Mbuf.field16_eq, hbyte₁, hbyte₁, totalLength, Mbuf.field16_eq]
  obtain ⟨hlen₂, hbyte₂⟩ := trimPadding_keeps hlen₁ (by rw [htotal₁]; exact htotal)
  rw [l2fwdSimpleForward, if_pos rfl, ← hm₁]
  exact ⟨hlen₂, fun k => (hbyte₂ k).trans (hbyte₁ k)⟩

end SecureWan.Transport
