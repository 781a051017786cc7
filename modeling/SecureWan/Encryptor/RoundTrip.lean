import SecureWan.Encryptor.Device
import SecureWan.Encryptor.Tunnel

/-!
# A frame through the tunnel

The LAN frame of one box is encrypted, encapsulated, received by the peer box,
decrypted and forwarded. Nothing here is fragmented, so the fragmentation layer
hands every packet through. What the peer forwards is the received frame with
its EtherType replaced by that of IPv4, cut at most behind the datagram.
-/

namespace SecureWan

variable {Key : Type}

/-- Two boxes with one configuration: one port encrypts and generates digests,
the other decrypts and verifies them. -/
structure TunnelPair (enc dec : CryptoParams Key) : Prop where
  chain_eq : dec.chain = enc.chain
  doCipher : enc.chain.doCipher = true
  digestLength_eq : dec.digestLength = enc.digestLength
  cipherAlgo_eq : dec.cipherAlgo = enc.cipherAlgo
  blockSize_eq : dec.blockSize = enc.blockSize
  cipherDataunitLen_eq : dec.cipherDataunitLen = enc.cipherDataunitLen
  cipherIvLength_eq : dec.cipherIvLength = enc.cipherIvLength
  cipherIvLength_le : enc.cipherIvLength ≤ ivInPacketSize
  isEncrypt : enc.isEncrypt = true
  isDecrypt : dec.isEncrypt = false
  generates : enc.hashVerify = false
  verifies : enc.chain.doHash = true → dec.hashVerify = true

/-- What the parameters leave open about one pass of a frame through a box: the
options' digest length, the random words, the digest the device computes, and the
stale private memory of the operation. -/
structure Pass where
  authDigestLength : ℕ
  rand : UInt64 × UInt64
  digest : Bytes
  priv : Memory

/-- The encrypting box for one LAN frame: enqueue under the current epoch,
device, dequeue with the saved IV, `l2fwd_simple_forward`. ARP frames are sent
on as they are. -/
def encryptAndForward (ipv4Cksum : Bytes → UInt16) (enc : CryptoParams Key)
    (encrypt : Key → Bytes → Bytes → Bytes) (p : Pass) (m : Mbuf) : Option Mbuf :=
  if m.field16 12 = etherTypeArp then some m
  else
    match l2fwdSimpleCryptoEnqueue enc p.rand [] enc.cs.epochCur m (CryptoOp.alloc p.priv) with
    | none => none
    | some op =>
      match enc.complete encrypt p.digest op with
      | none => none
      | some m =>
        l2fwdSimpleForward ipv4Cksum 0 (some enc.cs) p.authDigestLength
          (op.priv.read savedIvAt ivInPacketSize) m

/-- The decrypting box for one WAN frame. ARP frames are sent on as they are. -/
def decryptAndForward (ipv4Cksum : Bytes → UInt16) (dec : CryptoParams Key)
    (decrypt : Key → Bytes → Bytes → Bytes) (p : Pass) (m : Mbuf) : Option Mbuf :=
  match wanRx dec m with
  | .arp m => some m
  | .decrypt pktIv rxEpoch m =>
    match l2fwdSimpleCryptoEnqueue dec p.rand pktIv rxEpoch m (CryptoOp.alloc p.priv) with
    | none => none
    | some op =>
      match dec.complete decrypt p.digest op with
      | none => none
      | some m =>
        l2fwdSimpleForward ipv4Cksum 1 (none : Option (CsPort Key)) p.authDigestLength [] m
  | _ => none

/-- The blocks that are encrypted for a payload: the payload with its padding. -/
def CryptoParams.padded (cp : CryptoParams Key) (payload : Bytes) : Bytes :=
  payload ++ List.replicate (cp.padLen payload.length) 0

variable {enc dec : CryptoParams Key} {m rx : Mbuf} {addrs type payload : Bytes}

theorem CryptoParams.length_padded (cp : CryptoParams Key) (payload : Bytes) :
    (cp.padded payload).length = payload.length + cp.padLen payload.length := by
  rw [padded, List.length_append, List.length_replicate]

theorem CryptoParams.padLen_padded (cp : CryptoParams Key) (payload : Bytes) :
    cp.padLen (cp.padded payload).length = 0 := by
  rw [length_padded, padLen_add_padLen]

/-- A paired box pads as its peer does. -/
theorem TunnelPair.padLen_eq (hpair : TunnelPair enc dec) (dataLen : ℕ) :
    dec.padLen dataLen = enc.padLen dataLen := by
  simp only [CryptoParams.padLen, hpair.cipherAlgo_eq, hpair.blockSize_eq,
    hpair.cipherDataunitLen_eq]

/-- A paired box carries digests of the same length. -/
theorem TunnelPair.tagLength_eq (hpair : TunnelPair enc dec) : dec.tagLength = enc.tagLength := by
  simp only [CryptoParams.tagLength, hpair.chain_eq, hpair.digestLength_eq]

/-- The sending box carries no digest to verify. -/
theorem TunnelPair.verifies_eq_false (hpair : TunnelPair enc dec) : enc.verifies = false := by
  simp [CryptoParams.verifies, hpair.generates]

/-- The receiving box decrypts. -/
theorem TunnelPair.doCipher_dec (hpair : TunnelPair enc dec) : dec.chain.doCipher = true := by
  rw [hpair.chain_eq, hpair.doCipher]

/-- The receiving box verifies the digests of a chain with a hash. -/
theorem TunnelPair.hashVerify_dec (hpair : TunnelPair enc dec) (hhash : dec.chain.doHash = true) :
    dec.hashVerify = true :=
  hpair.verifies (by rw [← hpair.chain_eq, hhash])

/-- The encrypted payload of a packet under the current session. -/
def cipherText (cipher : DeviceCipher enc) (rand : UInt64 × UInt64) (payload : Bytes) : Bytes :=
  cipher.encrypt enc.cs.cur.key ((generatePerPktIv rand).take enc.cipherIvLength)
    (enc.padded payload)

theorem length_cipherText (cipher : DeviceCipher enc) (rand : UInt64 × UInt64) (payload : Bytes) :
    (cipherText cipher rand payload).length = (enc.padded payload).length :=
  cipher.length_encrypt _ _ _ (enc.padLen_padded payload)

/-- What `encryptAndForward` sends for a frame: the addresses, the outer headers
with the epoch, the IV, the ciphertext and a digest. -/
def wireFrame (ipv4Cksum : Bytes → UInt16) (cipher : DeviceCipher enc) (rand : UInt64 × UInt64)
    (addrs payload tag : Bytes) : Bytes :=
  let inner := cipherText cipher rand payload ++ tag
  addrs ++ (be16 etherTypeIpv4 ++ (outerIpHdr ipv4Cksum enc.cs.epochCur inner.length ++
    (outerUdpHdr inner.length ++ (generatePerPktIv rand ++ inner))))

/-- **Sending.** A frame that leaves room for the outer headers, the padding and
the digest is sent, in the layout of `wireFrame`. -/
theorem encryptAndForward_isSome (hpair : TunnelPair enc dec) (ipv4Cksum : Bytes → UInt16)
    (cipher : DeviceCipher enc) (p : Pass) (hdata : m.data = addrs ++ (type ++ payload))
    (haddrs : addrs.length = 12) (htype : type.length = 2) (harp : m.field16 12 ≠ etherTypeArp)
    (hdigest : p.digest.length = enc.tagLength)
    (hhead : ipv4HdrLen + udpHdrLen + ivInPacketSize ≤ m.headroom.length)
    (htail : enc.padLen payload.length + enc.tagLength ≤ m.tailroom.length) :
    ∃ wire, encryptAndForward ipv4Cksum enc cipher.encrypt p m = some wire ∧
      wire.data = wireFrame ipv4Cksum cipher p.rand addrs payload p.digest := by
  have hdata' : m.data = (addrs ++ type) ++ payload := by rw [hdata, List.append_assoc]
  have heth : (addrs ++ type).length = etherHdrLen := length_etherHdr haddrs htype
  obtain ⟨op, m₁, tag, hop, hsrc, hhead₁, hdata₁, htag, hsession, hrange, hpos, hiv, hsaved⟩ :=
    enqueue_encrypt p.rand [] enc.cs.epochCur (CryptoOp.alloc p.priv) hpair.doCipher
      hpair.isEncrypt hpair.verifies_eq_false hdata' heth htail
  rw [CryptoParams.sessionFor_epochCur] at hsession
  rw [← enc.length_padded] at hrange
  have hkey : op.priv.read 0 enc.cipherIvLength =
      (generatePerPktIv p.rand).take enc.cipherIvLength := by
    rw [← hiv, Memory.take_read hpair.cipherIvLength_le]
  have hlen := length_cipherText cipher p.rand payload
  rw [Nat.add_assoc, ← enc.length_padded] at hpos
  obtain ⟨m₂, hm₂, hhead₂, hdata₂⟩ := CryptoParams.complete_encrypt cipher.encrypt hsession hsrc
    hrange hkey hdata₁ heth hpair.generates hpos htag hdigest hlen
  rw [List.append_assoc] at hdata₂
  obtain ⟨wire, hwire, hlayout⟩ := tunnelEncap_isSome ipv4Cksum enc.cs.epochCur hdata₂ haddrs htype
    (length_generatePerPktIv p.rand) (by rw [hhead₂, hhead₁]; exact hhead)
  refine ⟨wire, ?_, hlayout⟩
  simp only [encryptAndForward, if_neg harp, hop, hm₂, l2fwdSimpleForward, if_true, hsaved, hwire]

/-- **Receiving.** A frame in the layout of `wireFrame` comes out with the
addresses, the EtherType of IPv4, and the blocks cut behind the datagram. -/
theorem decryptAndForward_isSome (hpair : TunnelPair enc dec) (ipv4Cksum : Bytes → UInt16)
    (cipher : DeviceCipher enc) (rand : UInt64 × UInt64) {digest : Bytes} (p : Pass)
    {sess : Session Key} (hsess : csSessionForEpoch dec.cs enc.cs.epochCur = some sess)
    (hkey : sess.key = enc.cs.cur.key) (haddrs : addrs.length = 12)
    (hdigest : digest.length = enc.tagLength) (hoptions : p.authDigestLength = enc.tagLength)
    (hwire : rx.data = wireFrame ipv4Cksum cipher rand addrs payload digest) :
    ∃ out k, decryptAndForward ipv4Cksum dec cipher.decrypt p rx = some out ∧
      out.data = (addrs ++ be16 etherTypeIpv4) ++ (enc.padded payload).take k ∧
      (ipv4HdrLen ≤ (enc.padded payload).length →
        (enc.padded payload).field16 2 ≤ (enc.padded payload).length →
        (enc.padded payload).field16 2 ≤ k) := by
  have hlen := length_cipherText cipher rand payload
  have heth : (addrs ++ be16 etherTypeIpv4).length = etherHdrLen :=
    length_etherHdr haddrs (length_be16 _)
  obtain ⟨m₁, hm₁, hdata₁⟩ := wanRx_decrypt hwire haddrs (length_outerIpHdr _ _ _)
    (length_outerUdpHdr _) (length_generatePerPktIv rand) (outerIpHdr_proto _ _ _) hsess
  rw [outerIpHdr_tos] at hm₁
  obtain ⟨op, hop, hsrc, hsession, hrange, hpos, hiv⟩ :=
    enqueue_decrypt p.rand (generatePerPktIv rand) enc.cs.epochCur (CryptoOp.alloc p.priv)
      hpair.doCipher_dec hpair.isDecrypt hpair.hashVerify_dec hdata₁ heth
      (hdigest.trans hpair.tagLength_eq.symm)
      (by rw [hpair.padLen_eq, hlen, enc.padLen_padded])
  rw [CryptoParams.sessionFor, hsess] at hsession
  have hivTake : op.priv.read 0 dec.cipherIvLength =
      (generatePerPktIv rand).take enc.cipherIvLength := by
    rw [hiv, hpair.cipherIvLength_eq, Bytes.readAt_eq, List.drop_zero]
    rw [length_generatePerPktIv, Nat.zero_add]
    exact hpair.cipherIvLength_le
  have hkeep : dec.hashVerify = true ∨ op.authDigest.data = none := by
    rcases hpos with hhash | hnone
    · exact Or.inl (hpair.hashVerify_dec hhash)
    · exact Or.inr (by rw [hnone]; rfl)
  have hplain : cipher.decrypt sess.key ((generatePerPktIv rand).take enc.cipherIvLength)
      (cipherText cipher rand payload) = enc.padded payload := by
    rw [hkey]
    exact cipher.decrypt_encrypt _ _ _ (enc.padLen_padded payload)
  obtain ⟨m₂, hm₂, _, hdata₂⟩ := CryptoParams.complete_keep cipher.decrypt p.digest hsession hsrc
    hrange hivTake hdata₁ heth hkeep (by rw [hplain, hlen])
  rw [hplain] at hdata₂
  obtain ⟨out, k, hout, hcut, htotal⟩ :=
    forward_decrypt ipv4Cksum (none : Option (CsPort Key)) [] hdata₂ heth
  refine ⟨out, k, ?_, hcut, htotal⟩
  rw [hdigest, ← hoptions] at hout
  simp only [decryptAndForward, hm₁, hop, hm₂, hout]

/-- The epoch and the IV of a frame in the layout of `wireFrame` are recovered. -/
theorem tunnelDecap_wireFrame (ipv4Cksum : Bytes → UInt16) (cipher : DeviceCipher enc)
    (rand : UInt64 × UInt64) {digest : Bytes} (haddrs : addrs.length = 12)
    (hwire : rx.data = wireFrame ipv4Cksum cipher rand addrs payload digest) :
    ∃ m₁, tunnelDecap rx = some (m₁, enc.cs.epochCur) ∧
      m₁.load etherHdrLen ivInPacketSize = generatePerPktIv rand := by
  have heth : (addrs ++ be16 etherTypeIpv4).length = etherHdrLen :=
    length_etherHdr haddrs (length_be16 _)
  rw [wireFrame, ← List.append_assoc] at hwire
  obtain ⟨m₁, hm₁, hdata₁⟩ := tunnelDecap_isSome hwire heth (length_outerIpHdr _ _ _)
    (length_outerUdpHdr _) (outerIpHdr_proto _ _ _)
  exact ⟨m₁, hm₁, Mbuf.load_middle hdata₁ heth (length_generatePerPktIv rand)⟩

/-- The length fields of the outer headers state the lengths that follow them. -/
theorem wireFrame_lengths (ipv4Cksum : Bytes → UInt16) (cipher : DeviceCipher enc)
    (rand : UInt64 × UInt64) {digest : Bytes} (haddrs : addrs.length = 12)
    (hwire : rx.data = wireFrame ipv4Cksum cipher rand addrs payload digest) :
    rx.field16 (etherHdrLen + 2) = rx.pktLen - etherHdrLen ∧
      rx.field16 (etherHdrLen + ipv4HdrLen + 4) = rx.pktLen - (etherHdrLen + ipv4HdrLen) := by
  let inner := cipherText cipher rand payload ++ digest
  let ip := outerIpHdr ipv4Cksum enc.cs.epochCur inner.length
  let udp := outerUdpHdr inner.length
  let rest := generatePerPktIv rand ++ inner
  have hip : rx.data = (addrs ++ be16 etherTypeIpv4) ++ (ip ++ (udp ++ rest)) := by
    rw [hwire, wireFrame, List.append_assoc]
  have hudp : rx.data = (addrs ++ be16 etherTypeIpv4 ++ ip) ++ (udp ++ rest) := by
    rw [hip]
    simp only [List.append_assoc]
  have heth : (addrs ++ be16 etherTypeIpv4).length = etherHdrLen :=
    length_etherHdr haddrs (length_be16 _)
  have hfront : (addrs ++ be16 etherTypeIpv4 ++ ip).length = etherHdrLen + ipv4HdrLen := by
    rw [List.length_append, heth]
    rfl
  have hrest : rest.length = ivInPacketSize + inner.length := by
    rw [List.length_append, length_generatePerPktIv]
  have hlen : rx.pktLen =
      etherHdrLen + ipv4HdrLen + (udpHdrLen + ivInPacketSize + inner.length) := by
    rw [Mbuf.pktLen, hudp, List.length_append, hfront, List.length_append, hrest,
      length_outerUdpHdr, Nat.add_assoc udpHdrLen]
  have hbound : rx.pktLen < 2 ^ 16 := rx.length_data_lt
  have hipLen : (ip ++ (udp ++ rest)).length = ipv4HdrLen + (udpHdrLen + rest.length) := by
    rw [List.length_append, List.length_append, length_outerIpHdr, length_outerUdpHdr]
  have hudpLen : (udp ++ rest).length = udpHdrLen + rest.length := by
    rw [List.length_append, length_outerUdpHdr]
  constructor
  · have hfield : rx.field16 (etherHdrLen + 2) = (ip ++ (udp ++ rest)).field16 2 := by
      rw [Mbuf.field16_right hip (by omega) (by rw [hipLen]; unfold ipv4HdrLen; omega), heth,
        Nat.add_sub_cancel_left]
    rw [hfield, Bytes.field16_append_left (by rw [length_outerIpHdr]; decide),
      outerIpHdr_totalLength, Nat.mod_eq_of_lt (by omega), hlen]
    omega
  · have hfield : rx.field16 (etherHdrLen + ipv4HdrLen + 4) = (udp ++ rest).field16 4 := by
      rw [Mbuf.field16_right hudp (by omega) (by rw [hudpLen]; unfold udpHdrLen; omega), hfront,
        Nat.add_sub_cancel_left]
    rw [hfield, Bytes.field16_append_left (by rw [length_outerUdpHdr]; decide),
      outerUdpHdr_dgramLen, Nat.mod_eq_of_lt (by omega), hlen]
    omega

section Sample

theorem aesCbcBox_pair : TunnelPair (aesCbcBox true) (aesCbcBox false) where
  chain_eq := rfl
  doCipher := rfl
  digestLength_eq := rfl
  cipherAlgo_eq := rfl
  blockSize_eq := rfl
  cipherDataunitLen_eq := rfl
  cipherIvLength_eq := rfl
  cipherIvLength_le := by decide
  isEncrypt := rfl
  isDecrypt := rfl
  generates := rfl
  verifies := by decide

/-- A received frame of a given EtherType in an mbuf of the usual headroom. -/
def lanFrame (etherType : ℕ) (payload : Bytes) (h : payload.length ≤ 1500) : Mbuf where
  headroom := List.replicate 128 0
  data := List.replicate 6 0x02 ++ List.replicate 6 0x04 ++ be16 etherType ++ payload
  tailroom := List.replicate 64 0
  bufLen_lt := by
    simp only [List.length_append, List.length_replicate, length_be16]
    omega

theorem lanFrame_headroom (etherType : ℕ) (payload : Bytes) (h : payload.length ≤ 1500) :
    (lanFrame etherType payload h).headroom.length = 128 := List.length_replicate

theorem lanFrame_tailroom (etherType : ℕ) (payload : Bytes) (h : payload.length ≤ 1500) :
    (lanFrame etherType payload h).tailroom.length = 64 := List.length_replicate

/-- A datagram that consists of its header only. -/
def emptyDatagram : Bytes :=
  [0x45, 0, 0, 20, 0, 0, 0, 0, 64, 17, 0, 0, 192, 168, 1, 1, 192, 168, 2, 2]

/-- An IPv6 packet that consists of its header only. -/
def emptyIpv6Packet : Bytes :=
  [0x60, 0, 0, 0, 0, 0, 59, 64] ++ ([0x20, 1] ++ List.replicate 13 0 ++ [1]) ++
    ([0x20, 1] ++ List.replicate 13 0 ++ [2])

/-- AES-128-CBC on the padded datagram, under the zero key and the zero IV. -/
def datagramCipher : DeviceCipher (aesCbcBox true) :=
  knownAnswer _ (emptyDatagram ++ List.replicate 12 0)
    [82, 231, 225, 134, 192, 140, 185, 3, 79, 25, 162, 172, 21, 245, 73, 64,
      6, 184, 26, 152, 88, 103, 12, 179, 27, 46, 138, 61, 229, 204, 213, 86] (by decide)

/-- AES-128-CBC on the padded IPv6 packet, under the zero key and the zero IV. -/
def ipv6Cipher : DeviceCipher (aesCbcBox true) :=
  knownAnswer _ (emptyIpv6Packet ++ List.replicate 8 0)
    [226, 104, 163, 60, 94, 133, 17, 13, 211, 153, 9, 128, 67, 32, 189, 98,
      182, 95, 238, 91, 42, 220, 51, 57, 107, 235, 160, 243, 40, 165, 124, 170,
      67, 253, 87, 211, 14, 182, 44, 48, 166, 191, 253, 75, 52, 113, 109, 0] (by decide)

/-- A pass with a zero IV and no digest. -/
def plainPass : Pass := ⟨0, (0, 0), [], fun _ => 0⟩

end Sample

/-- A frame's Ethernet header and datagram are in front of what the peer keeps of its
padded payload, if that is cut no shorter than the datagram. -/
private theorem datagram_prefix (cp : CryptoParams Key) {eth : Bytes}
    (hframe : m.data = eth ++ payload) (heth : eth.length = etherHdrLen)
    (hhdr : ipv4HdrLen ≤ payload.length) (hfits : m.field16 (etherHdrLen + 2) ≤ payload.length)
    {k : ℕ} (hkept : ipv4HdrLen ≤ (cp.padded payload).length →
      (cp.padded payload).field16 2 ≤ (cp.padded payload).length →
      (cp.padded payload).field16 2 ≤ k) :
    m.data.take (etherHdrLen + m.field16 (etherHdrLen + 2)) <+:
      eth ++ (cp.padded payload).take k := by
  have hinHeader : 2 + 1 < payload.length := by
    unfold ipv4HdrLen at hhdr
    omega
  -- the length field of the datagram is the one of the padded payload
  have hinner : m.field16 (etherHdrLen + 2) = (cp.padded payload).field16 2 := by
    have hright : m.field16 (etherHdrLen + 2) = payload.field16 (etherHdrLen + 2 - eth.length) :=
      Mbuf.field16_right hframe (by omega) (by omega)
    rw [hright, heth, Nat.add_sub_cancel_left, CryptoParams.padded,
      Bytes.field16_append_left hinHeader]
  have hpadded : payload.length ≤ (cp.padded payload).length := by
    rw [CryptoParams.length_padded]
    exact Nat.le_add_right _ _
  have hle : m.field16 (etherHdrLen + 2) ≤ k := by
    rw [hinner]
    exact hkept (Nat.le_trans hhdr hpadded) (by omega)
  have hprefix : payload.take (m.field16 (etherHdrLen + 2)) <+: (cp.padded payload).take k := by
    have hshort : (cp.padded payload).take (m.field16 (etherHdrLen + 2)) =
        payload.take (m.field16 (etherHdrLen + 2)) :=
      List.take_append_of_le_length (by omega)
    rw [← hshort]
    exact List.take_prefix_take_left hle
  have htake : m.data.take (etherHdrLen + m.field16 (etherHdrLen + 2)) =
      eth ++ payload.take (m.field16 (etherHdrLen + 2)) := by
    conv_lhs => rw [hframe]
    rw [← heth, List.take_length_add_append]
  rw [htake]
  exact (List.prefix_append_right_inj _).mpr hprefix

/-- **Round trip.** An IPv4 frame with room for the tunnel headers, the padding
and the digest is sent in the layout of `wireFrame`, with length fields that fit
it. The peer recovers the epoch and the IV, and forwards a frame that begins with
the Ethernet header and the datagram of the original one. -/
theorem tunnel_roundTrip (hpair : TunnelPair enc dec) (ipv4Cksum : Bytes → UInt16)
    (cipher : DeviceCipher enc) (p q : Pass) {sess : Session Key}
    (hsess : csSessionForEpoch dec.cs enc.cs.epochCur = some sess)
    (hkey : sess.key = enc.cs.cur.key) (htype : m.field16 12 = etherTypeIpv4)
    (hhdr : etherHdrLen + ipv4HdrLen ≤ m.pktLen)
    (htotal : etherHdrLen + m.field16 (etherHdrLen + 2) ≤ m.pktLen)
    (hdigest : p.digest.length = enc.tagLength) (hoptions : q.authDigestLength = enc.tagLength)
    (hhead : ipv4HdrLen + udpHdrLen + ivInPacketSize ≤ m.headroom.length)
    (htail : enc.padLen (m.pktLen - etherHdrLen) + enc.tagLength ≤ m.tailroom.length) :
    ∃ wire, encryptAndForward ipv4Cksum enc cipher.encrypt p m = some wire ∧
      wire.data = wireFrame ipv4Cksum cipher p.rand (m.data.take 12) (m.data.drop etherHdrLen)
        p.digest ∧
      wire.field16 (etherHdrLen + 2) = wire.pktLen - etherHdrLen ∧
      wire.field16 (etherHdrLen + ipv4HdrLen + 4) = wire.pktLen - (etherHdrLen + ipv4HdrLen) ∧
      ∀ rx : Mbuf, rx.data = wire.data →
        (∃ m₁, tunnelDecap rx = some (m₁, enc.cs.epochCur) ∧
          m₁.load etherHdrLen ivInPacketSize = generatePerPktIv p.rand) ∧
        ∃ out, decryptAndForward ipv4Cksum dec cipher.decrypt q rx = some out ∧
          m.data.take (etherHdrLen + m.field16 (etherHdrLen + 2)) <+: out.data := by
  obtain ⟨addrs, type, payload, hdata, haddrsEq, hpayloadEq, haddrs, htypeLen, hfield⟩ :=
    exists_frame (m := m) (by omega)
  have hpayload : payload.length = m.pktLen - etherHdrLen := by
    rw [hpayloadEq, List.length_drop, Mbuf.pktLen]
  rw [← haddrsEq, ← hpayloadEq]
  have hipv4 : type = be16 etherTypeIpv4 := by
    rw [← htype, hfield, be16_field16 htypeLen]
  have harp : m.field16 12 ≠ etherTypeArp := by
    rw [htype]
    decide
  obtain ⟨wire, hwire, hlayout⟩ := encryptAndForward_isSome hpair ipv4Cksum cipher p hdata haddrs
    htypeLen harp hdigest hhead (by rw [hpayload]; exact htail)
  obtain ⟨hipLength, hudpLength⟩ := wireFrame_lengths ipv4Cksum cipher p.rand haddrs hlayout
  refine ⟨wire, hwire, hlayout, hipLength, hudpLength, fun rx hrx => ?_⟩
  rw [hlayout] at hrx
  refine ⟨tunnelDecap_wireFrame ipv4Cksum cipher p.rand haddrs hrx, ?_⟩
  obtain ⟨out, k, hout, hcut, hkept⟩ := decryptAndForward_isSome hpair ipv4Cksum cipher p.rand q
    hsess hkey haddrs hdigest hoptions hrx
  refine ⟨out, hout, ?_⟩
  rw [hcut, ← hipv4]
  have hframe : m.data = (addrs ++ type) ++ payload := by rw [hdata, List.append_assoc]
  exact datagram_prefix enc hframe (length_etherHdr haddrs htypeLen) (by omega) (by omega) hkept

/-- The round trip of an empty datagram under AES-128-CBC. -/
theorem tunnel_roundTrip_emptyDatagram :
    ∃ wire, encryptAndForward (fun _ => 0) (aesCbcBox true) datagramCipher.encrypt plainPass
        (lanFrame etherTypeIpv4 emptyDatagram (by decide)) = some wire ∧
      ∃ out, decryptAndForward (fun _ => 0) (aesCbcBox false) datagramCipher.decrypt plainPass
          wire = some out ∧
        (lanFrame etherTypeIpv4 emptyDatagram (by decide)).data.take 34 <+: out.data := by
  obtain ⟨wire, hwire, _, _, _, hpeer⟩ := tunnel_roundTrip
    (m := lanFrame etherTypeIpv4 emptyDatagram (by decide)) aesCbcBox_pair (fun _ => 0)
    datagramCipher plainPass plainPass rfl rfl (by decide) (by decide) (by decide) rfl rfl
    (by rw [lanFrame_headroom]; decide) (by rw [lanFrame_tailroom]; decide)
  exact ⟨wire, hwire, (hpeer wire rfl).2⟩

/-- The header that comes out of the tunnel: the addresses of the received frame
and the EtherType that `tunnel_encap` writes. -/
theorem header_through_tunnel (hpair : TunnelPair enc dec) (ipv4Cksum : Bytes → UInt16)
    (cipher : DeviceCipher enc) (p q : Pass) {sess : Session Key}
    (hsess : csSessionForEpoch dec.cs enc.cs.epochCur = some sess)
    (hkey : sess.key = enc.cs.cur.key) (hframe : etherHdrLen ≤ m.pktLen)
    (harp : m.field16 12 ≠ etherTypeArp)
    (hdigest : p.digest.length = enc.tagLength) (hoptions : q.authDigestLength = enc.tagLength)
    (hhead : ipv4HdrLen + udpHdrLen + ivInPacketSize ≤ m.headroom.length)
    (htail : enc.padLen (m.pktLen - etherHdrLen) + enc.tagLength ≤ m.tailroom.length) :
    ∃ wire, encryptAndForward ipv4Cksum enc cipher.encrypt p m = some wire ∧
      ∀ rx : Mbuf, rx.data = wire.data →
        ∃ out, decryptAndForward ipv4Cksum dec cipher.decrypt q rx = some out ∧
          out.load 0 etherHdrLen = m.load 0 12 ++ be16 etherTypeIpv4 := by
  obtain ⟨addrs, type, payload, hdata, _, hpayloadEq, haddrs, htypeLen, _⟩ := exists_frame hframe
  have hpayload : payload.length = m.pktLen - etherHdrLen := by
    rw [hpayloadEq, List.length_drop, Mbuf.pktLen]
  obtain ⟨wire, hwire, hlayout⟩ := encryptAndForward_isSome hpair ipv4Cksum cipher p hdata haddrs
    htypeLen harp hdigest hhead (by rw [hpayload]; exact htail)
  refine ⟨wire, hwire, fun rx hrx => ?_⟩
  obtain ⟨out, k, hout, hcut, _⟩ := decryptAndForward_isSome hpair ipv4Cksum cipher p.rand q
    hsess hkey haddrs hdigest hoptions (hrx.trans hlayout)
  refine ⟨out, hout, ?_⟩
  have heth : (addrs ++ be16 etherTypeIpv4).length = etherHdrLen :=
    length_etherHdr haddrs (length_be16 _)
  rw [Mbuf.load_zero hcut heth, Mbuf.load_zero hdata haddrs]

/-- **The Ethernet header.** A frame that is not ARP comes out of the tunnel with
its Ethernet header exactly when its EtherType is that of IPv4: `tunnel_encap`
overwrites the type, and nothing on the peer restores it. -/
theorem ethernetHeader_roundTrip (hpair : TunnelPair enc dec) (ipv4Cksum : Bytes → UInt16)
    (cipher : DeviceCipher enc) (p q : Pass) {sess : Session Key}
    (hsess : csSessionForEpoch dec.cs enc.cs.epochCur = some sess)
    (hkey : sess.key = enc.cs.cur.key) (hframe : etherHdrLen ≤ m.pktLen)
    (harp : m.field16 12 ≠ etherTypeArp)
    (hdigest : p.digest.length = enc.tagLength) (hoptions : q.authDigestLength = enc.tagLength)
    (hhead : ipv4HdrLen + udpHdrLen + ivInPacketSize ≤ m.headroom.length)
    (htail : enc.padLen (m.pktLen - etherHdrLen) + enc.tagLength ≤ m.tailroom.length) :
    (∃ wire, encryptAndForward ipv4Cksum enc cipher.encrypt p m = some wire ∧
      ∀ rx : Mbuf, rx.data = wire.data →
        ∃ out, decryptAndForward ipv4Cksum dec cipher.decrypt q rx = some out ∧
          out.load 0 etherHdrLen = m.load 0 etherHdrLen) ↔
      m.field16 12 = etherTypeIpv4 := by
  obtain ⟨addrs, type, payload, hdata, _, _, haddrs, htypeLen, hfield⟩ := exists_frame hframe
  have hload : m.load 0 etherHdrLen = m.load 0 12 ++ type := by
    rw [Mbuf.load_zero hdata haddrs]
    rw [← List.append_assoc] at hdata
    exact Mbuf.load_zero hdata (length_etherHdr haddrs htypeLen)
  obtain ⟨wire, hwire, hpeer⟩ := header_through_tunnel hpair ipv4Cksum cipher p q hsess hkey hframe
    harp hdigest hoptions hhead htail
  constructor
  · rintro ⟨wire', hwire', hcarried⟩
    obtain rfl : wire = wire' := Option.some.inj (hwire.symm.trans hwire')
    obtain ⟨out', hout', hsame⟩ := hcarried wire rfl
    obtain ⟨out, hout, hheader⟩ := hpeer wire rfl
    obtain rfl : out = out' := Option.some.inj (hout.symm.trans hout')
    rw [hheader, hload] at hsame
    rw [hfield, ← List.append_cancel_left hsame, field16_be16]
    rfl
  · intro htype
    have hipv4 : type = be16 etherTypeIpv4 := by
      rw [← htype, hfield, be16_field16 htypeLen]
    refine ⟨wire, hwire, fun rx hrx => ?_⟩
    obtain ⟨out, hout, hheader⟩ := hpeer rx hrx
    exact ⟨out, hout, by rw [hheader, hload, hipv4]⟩

/-- The Ethernet header of an empty datagram's frame is carried. -/
theorem ethernetHeader_roundTrip_emptyDatagram :
    ∃ wire, encryptAndForward (fun _ => 0) (aesCbcBox true) datagramCipher.encrypt plainPass
        (lanFrame etherTypeIpv4 emptyDatagram (by decide)) = some wire ∧
      ∀ rx : Mbuf, rx.data = wire.data →
        ∃ out, decryptAndForward (fun _ => 0) (aesCbcBox false) datagramCipher.decrypt plainPass
            rx = some out ∧
          out.load 0 etherHdrLen =
            (lanFrame etherTypeIpv4 emptyDatagram (by decide)).load 0 etherHdrLen :=
  (ethernetHeader_roundTrip (m := lanFrame etherTypeIpv4 emptyDatagram (by decide))
    aesCbcBox_pair (fun _ => 0) datagramCipher plainPass plainPass rfl rfl (by decide) (by decide)
    rfl rfl (by rw [lanFrame_headroom]; decide) (by rw [lanFrame_tailroom]; decide)).mpr
    (by decide)

/-- The frame of an IPv6 packet loses its EtherType on the way. -/
theorem ethernetHeader_lost_ipv6 :
    ¬∃ wire, encryptAndForward (fun _ => 0) (aesCbcBox true) ipv6Cipher.encrypt plainPass
        (lanFrame 0x86DD emptyIpv6Packet (by decide)) = some wire ∧
      ∀ rx : Mbuf, rx.data = wire.data →
        ∃ out, decryptAndForward (fun _ => 0) (aesCbcBox false) ipv6Cipher.decrypt plainPass
            rx = some out ∧
          out.load 0 etherHdrLen =
            (lanFrame 0x86DD emptyIpv6Packet (by decide)).load 0 etherHdrLen := by
  rintro ⟨wire', hwire', hcarried⟩
  obtain ⟨wire, hwire, hpeer⟩ := header_through_tunnel
    (m := lanFrame 0x86DD emptyIpv6Packet (by decide)) aesCbcBox_pair (fun _ => 0) ipv6Cipher
    plainPass plainPass rfl rfl (by decide) (by decide) rfl rfl
    (by rw [lanFrame_headroom]; decide) (by rw [lanFrame_tailroom]; decide)
  obtain rfl : wire = wire' := Option.some.inj (hwire.symm.trans hwire')
  obtain ⟨out', hout', hsame⟩ := hcarried wire rfl
  obtain ⟨out, hout, hheader⟩ := hpeer wire rfl
  obtain rfl : out = out' := Option.some.inj (hout.symm.trans hout')
  rw [hheader] at hsame
  exact absurd hsame (by decide)

end SecureWan
