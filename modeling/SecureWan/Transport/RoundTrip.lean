import SecureWan.Encryptor.RoundTrip
import SecureWan.Transport.Enqueue

/-!
# A packet through the transport program

An IPv4 packet is taken apart and encrypted on one box, and put together and
decrypted on the other. The IP header comes back as it was. The peer's cipher is
given the bytes that the sender's cipher produced only where the bytes counted by
`total_length` and the IHL are all that was encrypted: a header without options, no
Ethernet trailer, and whole blocks.
-/

namespace SecureWan.Transport

variable {Key : Type}

/-- What the receive loop does with a frame. -/
inductive Rx (Key : Type) where
  /-- An ARP frame, forwarded without crypto. -/
  | arp (m : Mbuf)
  /-- The packet does not reach the device. -/
  | dropped
  /-- The operation that reaches the device. -/
  | enqueued (op : CryptoOp Key)

/-- The end of both branches of the receive loop. -/
def Rx.ofOp : Option (CryptoOp Key) → Rx Key
  | some op => .enqueued op
  | none => .dropped

/-- `pkt_iv`: the bytes behind the header that the IHL states, UDP and the saved protocol. -/
def pktIv (m : Mbuf) : Bytes :=
  m.load (etherHdrLen + ipHdrLen m + udpHdrLen + transportProtoMetaLen) ivInPacketSize

/-- The receive loop of `l2fwd_main_loop` for one frame, with the variables of a pass. -/
def mainLoopRx (ipv4Cksum : Bytes → UInt16) (cp : CryptoParams Key) (portid : ℕ) (p : Pass)
    (m : Mbuf) : Rx Key :=
  if m.field16 12 = etherTypeArp then .arp m
  else if portid = 0 then
    match tunnelEncap ipv4Cksum m with
    | none => .dropped
    | some m => .ofOp (l2fwdSimpleCryptoEnqueue cp p.rand [] m (CryptoOp.alloc p.priv))
  else
    match tunnelDecap ipv4Cksum m with
    | none => .dropped
    | some m' => .ofOp (l2fwdSimpleCryptoEnqueue cp p.rand (pktIv m) m' (CryptoOp.alloc p.priv))

/-- The bytes in the cipher range of an operation. -/
def cipherRange (cp : CryptoParams Key) (op : CryptoOp Key) (m : Mbuf) : Bytes :=
  m.load (cp.cipherBytes op).offset (cp.cipherBytes op).length

/-- A whole IPv4 packet, in an mbuf with room for all that the encrypt path appends. -/
structure Accepted (enc : CryptoParams Key) (m : Mbuf) : Prop where
  isIpv4 : m.field16 12 = etherTypeIpv4
  ihl : ipv4HdrLen ≤ ipHdrLen m
  header : ipHdrLen m ≤ totalLength m
  whole : etherHdrLen + totalLength m ≤ m.pktLen
  room : transportOverhead + enc.padLen (m.pktLen - ipEnd) + enc.tagLength ≤ m.tailroom.length

/-- The bytes that the encrypt path has encrypted. -/
def encryptedLen (enc : CryptoParams Key) (m : Mbuf) : ℕ :=
  m.pktLen - ipEnd + enc.padLen (m.pktLen - ipEnd)

/-- The bytes that `total_length` and the IHL count as transport data. -/
def transportLen (m : Mbuf) : ℕ := totalLength m - ipHdrLen m

/-- The peer's operation has the ciphertext and the IV of the sender's operation, and the
packet that the peer forwards has the protocol and the length of the received one. -/
def Carried (ipv4Cksum : Bytes → UInt16) (enc dec : CryptoParams Key) (cipher : DeviceCipher enc)
    (p q : Pass) (m : Mbuf) : Prop :=
  ∃ op wire, mainLoopRx ipv4Cksum enc 0 p m = .enqueued op ∧
    enc.complete cipher.encrypt p.digest op = some wire ∧
    ∀ rx : Mbuf, rx.data = (l2fwdSimpleForward 0 p.authDigestLength wire).data →
      ∃ op' m' plain, mainLoopRx ipv4Cksum dec 1 q rx = .enqueued op' ∧ op'.mSrc = some m' ∧
        cipherRange dec op' m' = cipherRange enc op wire ∧
        op'.priv.read 0 dec.cipherIvLength = op.priv.read 0 enc.cipherIvLength ∧
        dec.complete cipher.decrypt q.digest op' = some plain ∧
        ipEnd ≤ (l2fwdSimpleForward 1 q.authDigestLength plain).pktLen ∧
        nextProtoId (l2fwdSimpleForward 1 q.authDigestLength plain) = nextProtoId m ∧
        totalLength (l2fwdSimpleForward 1 q.authDigestLength plain) = totalLength m

variable {enc dec : CryptoParams Key} {m m' rx : Mbuf}

/-- The fields of the headers are those of the bytes before the IV. -/
structure SameHeaders (m m' : Mbuf) : Prop where
  byteAt : ∀ k, k < wireIvAt → m'.byteAt k = m.byteAt k

namespace SameHeaders

theorem field16 (h : SameHeaders m m') {off : ℕ} (hoff : off + 1 < wireIvAt) :
    m'.field16 off = m.field16 off := by
  rw [Mbuf.field16_eq, h.byteAt off (by omega), h.byteAt (off + 1) hoff, Mbuf.field16_eq]

theorem ipHdrLen_eq (h : SameHeaders m m') : ipHdrLen m' = ipHdrLen m := by
  rw [ipHdrLen, h.byteAt _ (by decide), ipHdrLen]

theorem nextProtoId_eq (h : SameHeaders m m') : nextProtoId m' = nextProtoId m :=
  h.byteAt _ (by decide)

theorem totalLength_eq (h : SameHeaders m m') : totalLength m' = totalLength m :=
  h.field16 (by decide)

end SameHeaders

/-- A packet on its way: the encrypted bytes and the digest behind the data offset, and the
headers as `tunnel_encap` leaves them. -/
structure Encapsulated (enc : CryptoParams Key) (m : Mbuf) (iv : Bytes) (m' : Mbuf) : Prop where
  pktLen : m'.pktLen = cipherAt + encryptedLen enc m + enc.tagLength
  isIpv4 : m'.field16 12 = etherTypeIpv4
  ihl : ipHdrLen m' = ipHdrLen m
  proto : nextProtoId m' = ipprotoUdp
  total : totalLength m' = totalLength m + transportOverhead
  saved : m'.byteAt protoMetaAt = nextProtoId m
  wireIv : m'.load wireIvAt ivInPacketSize = iv

/-- Only the bytes before the data offset and the length count. -/
theorem Encapsulated.congr {iv : Bytes} (h : Encapsulated enc m iv m')
    (hlen : rx.pktLen = m'.pktLen) (hbyte : ∀ k, k < cipherAt → rx.byteAt k = m'.byteAt k) :
    Encapsulated enc m iv rx := by
  have hheaders : SameHeaders m' rx := ⟨fun k hk => hbyte k (Nat.lt_trans hk (by decide))⟩
  refine ⟨hlen.trans h.pktLen, (hheaders.field16 (by decide)).trans h.isIpv4,
    hheaders.ipHdrLen_eq.trans h.ihl, hheaders.nextProtoId_eq.trans h.proto,
    hheaders.totalLength_eq.trans h.total, (hheaders.byteAt _ (by decide)).trans h.saved, ?_⟩
  rw [← h.wireIv]
  refine Bytes.readAt_eq_readAt_iff.mpr fun i hi => hbyte _ ?_
  have hsize : ivInPacketSize = 16 := rfl
  obtain ⟨-, -, hwire, hcipher, -⟩ := gapOffsets
  omega

/-- **Encrypt path.** An accepted packet reaches the device encapsulated, with the data
offset, the length and the IV of its operation. -/
theorem mainLoopRx_encrypt (hpair : TunnelPair enc dec) (ipv4Cksum : Bytes → UInt16) (p : Pass)
    (haccepted : Accepted enc m) :
    ∃ op m₁, mainLoopRx ipv4Cksum enc 0 p m = .enqueued op ∧ op.mSrc = some m₁ ∧
      op.session = some enc.session ∧
      op.cipher = CryptoParams.range enc.cipherAlgo.inBits cipherAt (encryptedLen enc m) ∧
      op.authDigest.data =
        (if enc.chain.doHash then some (cipherAt + encryptedLen enc m) else none) ∧
      op.priv.read 0 ivInPacketSize = generatePerPktIv p.rand ∧
      Encapsulated enc m (generatePerPktIv p.rand) m₁ := by
  obtain ⟨heth, hip, -⟩ := headerLengths
  obtain ⟨hend, hmeta, hwire, hcipher, hover⟩ := gapOffsets
  obtain ⟨hisIpv4, hihl, hheader, hwhole, hroom⟩ := haccepted
  obtain ⟨m₀, hm₀, hlen₀, htail₀, hfront₀, hproto₀, htotal₀, hsaved₀, _⟩ :=
    tunnelEncap_isSome ipv4Cksum hihl hheader hwhole (by omega)
  obtain ⟨op, m₁, hop, hsrc, hsession, hrange, hdigest, hiv, hlen₁, hwireIv, hbyte⟩ :=
    enqueue_encrypt p.rand [] (CryptoOp.alloc p.priv) hpair.doCipher hpair.isEncrypt
      hpair.verifies_eq_false (show m₀.pktLen = cipherAt + (m.pktLen - ipEnd) by omega)
      (n := encryptedLen enc m) rfl (by omega)
  have hheaders : SameHeaders m₀ m₁ := ⟨hbyte⟩
  refine ⟨op, m₁, ?_, hsrc, hsession, hrange, hdigest, hiv, hlen₁, ?_, ?_,
    hheaders.nextProtoId_eq.trans hproto₀, hheaders.totalLength_eq.trans htotal₀,
    (hheaders.byteAt _ (by decide)).trans hsaved₀, hwireIv⟩
  · have harp : m.field16 12 ≠ etherTypeArp := by
      rw [hisIpv4]
      decide
    simp only [mainLoopRx, if_neg harp, if_true, hm₀, hop, Rx.ofOp]
  · rw [hheaders.field16 (by decide), Mbuf.field16_eq, hfront₀ 12 (by decide),
      hfront₀ (12 + 1) (by decide), ← Mbuf.field16_eq, hisIpv4]
  · rw [hheaders.ipHdrLen_eq, ipHdrLen, hfront₀ _ (Nat.le_refl _), ipHdrLen]

/-- **Device.** The packet stays encapsulated, and its data is the ciphertext. -/
theorem complete_encapsulated (cipher : DeviceCipher enc) {p : Pass} {op : CryptoOp Key}
    (hgen : enc.hashVerify = false) (hsrc : op.mSrc = some m')
    (hsession : op.session = some enc.session)
    (hrange : op.cipher = CryptoParams.range enc.cipherAlgo.inBits cipherAt (encryptedLen enc m))
    (hpos : op.authDigest.data =
      if enc.chain.doHash then some (cipherAt + encryptedLen enc m) else none)
    (hdigest : p.digest.length = enc.tagLength) {iv : Bytes} (hm' : Encapsulated enc m iv m') :
    ∃ wire, enc.complete cipher.encrypt p.digest op = some wire ∧
      wire.pktLen = m'.pktLen ∧ (∀ k, k < cipherAt → wire.byteAt k = m'.byteAt k) ∧
      wire.load cipherAt (encryptedLen enc m) = cipher.encrypt enc.session.key
        (op.priv.read 0 enc.cipherIvLength) (m'.load cipherAt (encryptedLen enc m)) := by
  let n := encryptedLen enc m
  have hlen : m'.data.length = cipherAt + n + enc.tagLength := hm'.pktLen
  obtain ⟨eth, rest, hdata, heth⟩ :=
    Bytes.exists_front (l := m'.data) (n := cipherAt) (by omega)
  rw [hdata, List.length_append, heth] at hlen
  obtain ⟨blocks, tag, rfl, hblocks⟩ := Bytes.exists_front (l := rest) (n := n) (by omega)
  rw [List.length_append, hblocks] at hlen
  have hload : m'.load cipherAt n = blocks := Mbuf.load_middle hdata heth hblocks
  have hpad : enc.padLen blocks.length = 0 := by
    rw [hblocks]
    exact enc.padLen_add_padLen _
  have hcipher :=
    cipher.length_encrypt enc.session.key (op.priv.read 0 enc.cipherIvLength) blocks hpad
  obtain ⟨wire, hwire, _, hdata'⟩ := CryptoParams.complete_encrypt cipher.encrypt hsession hsrc
    (by rw [hblocks]; exact hrange) rfl hdata heth hgen (by rw [hblocks]; exact hpos) (by omega)
    hdigest hcipher
  refine ⟨wire, hwire, ?_, fun k hk => ?_, ?_⟩
  · have htag : tag.length = enc.tagLength := by omega
    rw [Mbuf.pktLen, Mbuf.pktLen, hdata, hdata']
    simp only [List.length_append, hcipher, htag, hdigest]
  · rw [Mbuf.byteAt_left hdata' (by omega), Mbuf.byteAt_left hdata (by omega)]
  · rw [hload]
    exact Mbuf.load_middle hdata' heth (hcipher.trans hblocks)

/-- **Receive path.** An encapsulated packet reaches the peer's device with its protocol and
length restored; of the encrypted bytes, those that count as transport data are moved. -/
theorem mainLoopRx_decrypt (hpair : TunnelPair enc dec) (ipv4Cksum : Bytes → UInt16) (q : Pass)
    (haccepted : Accepted enc m) {iv : Bytes} (hrx : Encapsulated enc m iv rx) :
    ∃ op m₁, mainLoopRx ipv4Cksum dec 1 q rx = .enqueued op ∧ op.mSrc = some m₁ ∧
      op.session = some dec.session ∧
      op.cipher = CryptoParams.range dec.cipherAlgo.inBits ipEnd (encryptedLen enc m) ∧
      (dec.hashVerify = true ∨ op.authDigest.data = none) ∧
      op.priv.read 0 dec.cipherIvLength = (pktIv rx).readAt 0 dec.cipherIvLength ∧
      m₁.pktLen = ipEnd + encryptedLen enc m + enc.tagLength ∧
      nextProtoId m₁ = nextProtoId m ∧ totalLength m₁ = totalLength m ∧
      ∀ i, m₁.byteAt (ipEnd + i) =
        if i < transportLen m then rx.byteAt (cipherAt + i) else rx.byteAt (ipEnd + i) := by
  obtain ⟨heth, hip, -⟩ := headerLengths
  obtain ⟨hend, hmeta, hwire, hcipher, hover⟩ := gapOffsets
  obtain ⟨hisIpv4, hihl, hheader, hwhole, hroom⟩ := haccepted
  have hlen : rx.pktLen = cipherAt + (m.pktLen - ipEnd + enc.padLen (m.pktLen - ipEnd)) +
    enc.tagLength := hrx.pktLen
  have hrxIhl := hrx.ihl
  have hrxTotal := hrx.total
  obtain ⟨m₁, hm₁, hlen₁, hproto₁, htotal₁, hbyte₁⟩ :=
    tunnelDecap_isSome ipv4Cksum hrx.proto (by omega) (by omega) (by omega)
  have hpad : dec.padLen (encryptedLen enc m) = 0 := by
    rw [hpair.padLen_eq]
    exact enc.padLen_add_padLen _
  have hpkt₁ : m₁.pktLen = ipEnd + encryptedLen enc m + enc.tagLength := by
    rw [hlen₁, hrx.pktLen]
    omega
  obtain ⟨op, hop, hsrc, hsession, hrange, hdigest, hiv⟩ :=
    enqueue_decrypt q.rand (pktIv rx) (CryptoOp.alloc q.priv) hpair.doCipher_dec hpair.isDecrypt
      hpair.hashVerify_dec (hpair.tagLength_eq ▸ hpkt₁) hpad
  have harp : rx.field16 12 ≠ etherTypeArp := by
    rw [hrx.isIpv4]
    decide
  refine ⟨op, m₁, ?_, hsrc, hsession, hrange, ?_, hiv, hpkt₁, hproto₁.trans hrx.saved, ?_,
    fun i => ?_⟩
  · simp only [mainLoopRx, if_neg harp, Nat.one_ne_zero, if_false, hm₁, hop, Rx.ofOp]
  · rcases hdigest with hhash | hnone
    · exact Or.inl (hpair.hashVerify_dec hhash)
    · exact Or.inr (by rw [hnone]; rfl)
  · rw [htotal₁, hrxTotal, Nat.add_sub_cancel]
  · rw [hbyte₁, hrxIhl, hrxTotal, transportLen]
    have hcount : totalLength m + transportOverhead - ipHdrLen m - transportOverhead =
        totalLength m - ipHdrLen m := by omega
    rw [hcount]

/-- **Peer's device and forwarding.** Whatever the device makes of the blocks, the packet
that is forwarded keeps its IP header. -/
theorem forward_keepsHeader (decrypt : Key → Bytes → Bytes → Bytes) {q : Pass} {op : CryptoOp Key}
    {n digestLength : ℕ} (hsession : op.session = some dec.session) (hsrc : op.mSrc = some m')
    (hrange : op.cipher = CryptoParams.range dec.cipherAlgo.inBits ipEnd n)
    (hkeep : dec.hashVerify = true ∨ op.authDigest.data = none)
    (hlen : m'.pktLen = ipEnd + n + digestLength) (htotal : ipv4HdrLen ≤ totalLength m') :
    ∃ plain, dec.complete decrypt q.digest op = some plain ∧
      ipEnd ≤ (l2fwdSimpleForward 1 digestLength plain).pktLen ∧
      nextProtoId (l2fwdSimpleForward 1 digestLength plain) = nextProtoId m' ∧
      totalLength (l2fwdSimpleForward 1 digestLength plain) = totalLength m' := by
  obtain ⟨hend, -⟩ := gapOffsets
  have hbound : m'.pktLen < 2 ^ 16 := m'.length_data_lt
  have hregion := m'.pktLen_le_region
  have hbytes : dec.cipherBytes op = ⟨ipEnd, n⟩ := by
    rw [CryptoParams.cipherBytes, hrange, CryptoParams.rangeBytes_range]
    exact fun _ => ⟨by omega, by omega⟩
  have hplain := CryptoParams.complete_of_keep decrypt q.digest hsession hsrc hkeep
  rw [hbytes] at hplain
  refine ⟨_, hplain, ?_⟩
  generalize decrypt _ _ _ = bs
  have hbyte (k : ℕ) (hk : k < ipEnd) : (m'.store ipEnd bs).byteAt k = m'.byteAt k :=
    Mbuf.byteAt_store_outside (.inl hk)
  have htotal' : totalLength (m'.store ipEnd bs) = totalLength m' := by
    rw [totalLength, Mbuf.field16_eq, hbyte _ (by decide), hbyte _ (by decide), totalLength,
      Mbuf.field16_eq]
  obtain ⟨hshort, hsame⟩ := l2fwdSimpleForward_decrypt
    (show ipEnd + digestLength ≤ (m'.store ipEnd bs).pktLen by rw [Mbuf.pktLen_store]; omega)
    (by rw [htotal']; exact htotal)
  refine ⟨hshort, ?_, ?_⟩
  · rw [nextProtoId, hsame, hbyte _ (by decide), nextProtoId]
  · rw [← htotal', totalLength, Mbuf.field16_eq, hsame, hsame, totalLength, Mbuf.field16_eq]

/-- The cipher range of an operation, where it lies in the packet. -/
theorem cipherRange_eq {cp : CryptoParams Key} {op : CryptoOp Key} {off n : ℕ}
    (hrange : op.cipher = CryptoParams.range cp.cipherAlgo.inBits off n)
    (hin : off + n ≤ m.pktLen) : cipherRange cp op m = m.load off n := by
  have hbound : m.pktLen < 2 ^ 16 := m.length_data_lt
  have hbytes : cp.cipherBytes op = ⟨off, n⟩ := by
    rw [CryptoParams.cipherBytes, hrange, CryptoParams.rangeBytes_range]
    exact fun _ => ⟨by omega, by omega⟩
  rw [cipherRange, hbytes]

/-- The transport data is among the encrypted bytes, and is all of them for a header without
options, no trailer and whole blocks. -/
theorem transportLen_eq_iff (haccepted : Accepted enc m) :
    transportLen m ≤ encryptedLen enc m ∧
      (transportLen m = encryptedLen enc m ↔ ipHdrLen m = ipv4HdrLen ∧
        m.pktLen = etherHdrLen + totalLength m ∧ enc.padLen (transportLen m) = 0) := by
  obtain ⟨heth, hip, -⟩ := headerLengths
  obtain ⟨hend, -⟩ := gapOffsets
  obtain ⟨-, hihl, hheader, hwhole, -⟩ := haccepted
  unfold transportLen encryptedLen
  refine ⟨by omega, fun h => ?_, fun ⟨hihl', hlen, hpad⟩ => ?_⟩
  · have hsame : totalLength m - ipHdrLen m = m.pktLen - ipEnd := by omega
    refine ⟨by omega, by omega, ?_⟩
    rw [hsame]
    omega
  · have hsame : totalLength m - ipHdrLen m = m.pktLen - ipEnd := by omega
    rw [hsame] at hpad ⊢
    omega

/-- The IV that the peer reads is the one in the gap when the header has no options. -/
theorem pktIv_of_noOptions {iv : Bytes} (hrx : Encapsulated enc m iv rx)
    (hihl : ipHdrLen m = ipv4HdrLen) : pktIv rx = iv := by
  rw [pktIv, hrx.ihl, hihl]
  exact hrx.wireIv

/-- A carried packet: where bytes are encrypted that do not count as transport data, each
equals the byte that lies one gap before it on the wire. -/
theorem Carried.ciphertext_eq (hpair : TunnelPair enc dec) {ipv4Cksum : Bytes → UInt16}
    {cipher : DeviceCipher enc} {p q : Pass} (haccepted : Accepted enc m)
    (hdigest : p.digest.length = enc.tagLength) {op : CryptoOp Key}
    (hop : mainLoopRx ipv4Cksum enc 0 p m = .enqueued op) (hsrc : op.mSrc = some m')
    {cipherText : Bytes} (htext : cipher.encrypt enc.session.key
      (op.priv.read 0 enc.cipherIvLength) (m'.load cipherAt (encryptedLen enc m)) = cipherText)
    (hcarried : Carried ipv4Cksum enc dec cipher p q m) {i : ℕ} (hi : transportLen m ≤ i)
    (hin : i < encryptedLen enc m) :
    (if i < transportOverhead then m'.byteAt (ipEnd + i)
      else cipherText.byteAt (i - transportOverhead)) = cipherText.byteAt i := by
  obtain ⟨hend, -, -, hcipher, hover⟩ := gapOffsets
  obtain ⟨op₀, m₀, hop₀, hsrc₀, hsession, hrange, hpos, hiv, hm'⟩ :=
    mainLoopRx_encrypt hpair ipv4Cksum p haccepted
  obtain rfl : op₀ = op := Rx.enqueued.inj (hop₀.symm.trans hop)
  obtain rfl : m₀ = m' := Option.some.inj (hsrc₀.symm.trans hsrc)
  obtain ⟨wire, hwire, hlen, hbyte, hload⟩ := complete_encapsulated cipher hpair.generates hsrc
    hsession hrange hpos hdigest hm'
  obtain ⟨op₁, wire₁, hop₁, hwire₁, hpeer⟩ := hcarried
  obtain rfl : op₁ = op₀ := Rx.enqueued.inj (hop₁.symm.trans hop)
  obtain rfl : wire₁ = wire := Option.some.inj (hwire₁.symm.trans hwire)
  obtain ⟨op₂, m₂, _, hop₂, hsrc₂, hranges, -⟩ := hpeer wire₁ rfl
  obtain ⟨op₃, m₃, hop₃, hsrc₃, _, hrange₃, _, _, hlen₃, _, _, hbyte₃⟩ :=
    mainLoopRx_decrypt hpair ipv4Cksum q haccepted (hm'.congr hlen hbyte)
  obtain rfl : op₂ = op₃ := Rx.enqueued.inj (hop₂.symm.trans hop₃)
  obtain rfl : m₂ = m₃ := Option.some.inj (hsrc₂.symm.trans hsrc₃)
  rw [cipherRange_eq hrange₃ (by omega), cipherRange_eq hrange (by rw [hlen, hm'.pktLen]; omega)]
    at hranges
  have hcipherText {j : ℕ} (hj : j < encryptedLen enc m) :
      wire₁.byteAt (cipherAt + j) = cipherText.byteAt j := by
    rw [← Mbuf.byteAt_load hj, hload, htext]
  have hlast := Bytes.readAt_eq_readAt_iff.mp hranges i hin
  change m₂.byteAt (ipEnd + i) = wire₁.byteAt (cipherAt + i) at hlast
  rw [hbyte₃, if_neg (by omega), hcipherText hin] at hlast
  rw [← hlast]
  by_cases hgap : i < transportOverhead
  · rw [if_pos hgap, hbyte _ (by omega)]
  · have hshift : ipEnd + i = cipherAt + (i - transportOverhead) := by omega
    rw [if_neg hgap, hshift, hcipherText (by omega)]

/-- A text whose last byte is not the byte one gap before it. -/
private theorem exists_lastNew {n : ℕ} (hn : 0 < n) (front : UInt8) :
    ∃ text : Bytes, text.length = n ∧
      (if n - 1 < transportOverhead then front else text.byteAt (n - 1 - transportOverhead)) ≠
        text.byteAt (n - 1) := by
  obtain ⟨last, rfl⟩ : ∃ last, n = last + 1 := ⟨n - 1, by omega⟩
  have hnew (new : UInt8) : Bytes.byteAt (List.replicate last 0 ++ [new]) last = new := by
    simp [Bytes.byteAt]
  rw [Nat.add_sub_cancel]
  by_cases hgap : last < transportOverhead
  · refine ⟨List.replicate last 0 ++ [front + 1], by simp, ?_⟩
    rw [if_pos hgap, hnew]
    simp
  · refine ⟨List.replicate last 0 ++ [1], by simp, ?_⟩
    have hpos : 0 < transportOverhead := by decide
    have hbefore : Bytes.byteAt (List.replicate last 0 ++ [1]) (last - transportOverhead) = 0 := by
      have hin : last - transportOverhead < last := by omega
      rw [Bytes.byteAt_append_left (by rw [List.length_replicate]; exact hin)]
      simp [Bytes.byteAt, hin]
    rw [if_neg hgap, hbefore, hnew]
    decide

/-- **Transport round trip.** An accepted packet is carried whatever the cipher makes of it
exactly when its header has no options, the frame ends with the packet, and the transport
data needs no padding. -/
theorem carried_iff (hpair : TunnelPair enc dec) (ipv4Cksum : Bytes → UInt16) (p q : Pass)
    (haccepted : Accepted enc m) (hdigest : p.digest.length = enc.tagLength)
    (hoptions : q.authDigestLength = enc.tagLength) :
    (∀ cipher : DeviceCipher enc, Carried ipv4Cksum enc dec cipher p q m) ↔
      ipHdrLen m = ipv4HdrLen ∧ m.pktLen = etherHdrLen + totalLength m ∧
        enc.padLen (transportLen m) = 0 := by
  obtain ⟨hend, -, -, hcipher, hover⟩ := gapOffsets
  obtain ⟨hle, hiff⟩ := transportLen_eq_iff haccepted
  obtain ⟨op, m', hop, hsrc, hsession, hrange, hpos, hiv, hm'⟩ :=
    mainLoopRx_encrypt hpair ipv4Cksum p haccepted
  constructor
  · intro h
    by_contra hcond
    have hlt : transportLen m < encryptedLen enc m := by
      have hne := fun heq => hcond (hiff.mp heq)
      omega
    obtain ⟨cipherText, hlen, hlast⟩ := exists_lastNew (n := encryptedLen enc m) (by omega)
      (m'.byteAt (ipEnd + (encryptedLen enc m - 1)))
    have hplain : (m'.load cipherAt (encryptedLen enc m)).length = cipherText.length :=
      Bytes.length_readAt.trans hlen.symm
    have htext := h (knownAnswer enc (m'.load cipherAt (encryptedLen enc m)) cipherText hplain)
    exact hlast (htext.ciphertext_eq hpair haccepted hdigest hop hsrc (if_pos rfl) (by omega)
      (by omega))
  · rintro hcond cipher
    have hall := hiff.mpr hcond
    obtain ⟨wire, hwire, hlen, hbyte, hload⟩ := complete_encapsulated cipher hpair.generates hsrc
      hsession hrange hpos hdigest hm'
    refine ⟨op, wire, hop, hwire, fun rx hrx => ?_⟩
    have hrxLen : rx.pktLen = wire.pktLen := congrArg List.length hrx
    have hrxByte (k : ℕ) (hk : k < wire.pktLen) : rx.byteAt k = wire.byteAt k := by
      rw [Mbuf.byteAt_left (hrx.trans (List.append_nil _).symm) hk,
        Mbuf.byteAt_left (List.append_nil wire.data).symm hk]
      rfl
    have hwireLen : wire.pktLen = cipherAt + encryptedLen enc m + enc.tagLength :=
      hlen.trans hm'.pktLen
    have hencapsulated : Encapsulated enc m (generatePerPktIv p.rand) rx := by
      refine hm'.congr (hrxLen.trans hlen) fun k hk => ?_
      rw [hrxByte k (by omega), hbyte k hk]
    obtain ⟨op', m₁, hop', hsrc', hsession', hrange', hkeep', hiv', hlen', hproto', htotal',
      hbyte'⟩ := mainLoopRx_decrypt hpair ipv4Cksum q haccepted hencapsulated
    obtain ⟨plain, hplain, hshort, hprotoOut, htotalOut⟩ :=
      forward_keepsHeader cipher.decrypt hsession' hsrc' hrange'
        hkeep' hlen' (by rw [htotal']; exact Nat.le_trans haccepted.ihl haccepted.header)
    rw [← hoptions] at hshort hprotoOut htotalOut
    refine ⟨op', m₁, plain, hop', hsrc', ?_, ?_, hplain, hshort, hprotoOut.trans hproto',
      htotalOut.trans htotal'⟩
    · rw [cipherRange_eq hrange' (by omega), cipherRange_eq hrange (by omega)]
      refine Bytes.readAt_eq_readAt_iff.mpr fun i hi => ?_
      change m₁.byteAt (ipEnd + i) = wire.byteAt (cipherAt + i)
      rw [hbyte', if_pos (by omega), hrxByte _ (by omega)]
    · rw [hiv', pktIv_of_noOptions hencapsulated hcond.1, hpair.cipherIvLength_eq,
        ← Memory.take_read hpair.cipherIvLength_le, hiv,
        Bytes.readAt_eq, List.drop_zero]
      rw [length_generatePerPktIv, Nat.zero_add]
      exact hpair.cipherIvLength_le

/-- A UDP packet with a header of twenty bytes and zeros for data. -/
def udpPacket (total : UInt8) (dataLen : ℕ) : Bytes :=
  [0x45, 0, 0, total, 0, 0, 0, 0, 64, 17, 0, 0, 192, 168, 1, 1, 192, 168, 2, 2] ++
    [0x13, 0x88, 0x13, 0x89, 0, total - 20, 0, 0] ++ List.replicate dataLen 0

/-- AES-128-CBC on a UDP header with eight bytes of data, under the zero key and the zero IV. -/
def oneBlockCipher : DeviceCipher (aesCbcBox true) :=
  knownAnswer _ ([0x13, 0x88, 0x13, 0x89, 0, 16, 0, 0] ++ List.replicate 8 0)
    [219, 34, 183, 126, 116, 123, 184, 141, 103, 181, 59, 101, 106, 17, 104, 120] (by decide)

/-- A packet with eight bytes of data, one block with its UDP header, is carried. -/
theorem carried_oneBlock :
    Carried (fun _ => 0) (aesCbcBox true) (aesCbcBox false) oneBlockCipher plainPass plainPass
      (lanFrame etherTypeIpv4 (udpPacket 36 8) (by decide)) := by
  refine (carried_iff aesCbcBox_pair (fun _ => 0) plainPass plainPass ?_ rfl rfl).mpr ?_ _
  · exact ⟨by decide, by decide, by decide, by decide, by decide⟩
  · decide

/-- The UDP header of a packet with eighteen bytes of data, the data and its padding. -/
def paddedText : Bytes := [0x13, 0x88, 0x13, 0x89, 0, 26, 0, 0] ++ List.replicate 24 0

/-- AES-128-CBC on the padded text, under the zero key and the zero IV. -/
def paddedCipherText : Bytes :=
  [54, 246, 216, 199, 132, 187, 114, 44, 101, 69, 136, 58, 89, 21, 129, 184,
    208, 235, 83, 78, 105, 12, 2, 221, 112, 112, 112, 203, 192, 65, 204, 176]

/-- The first bytes at the data offset of an operation's packet. -/
def Rx.textAt (n : ℕ) : Rx Key → Option Bytes
  | .enqueued op => op.mSrc.map fun m => m.load cipherAt n
  | _ => none

/-- A packet with eighteen bytes of data is not carried: the last six bytes of its
ciphertext, the block padding, are not moved into the gap. -/
theorem padding_notCarried :
    ¬Carried (fun _ => 0) (aesCbcBox true) (aesCbcBox false)
      (knownAnswer _ paddedText paddedCipherText (by decide)) plainPass plainPass
      (lanFrame etherTypeIpv4 (udpPacket 46 18) (by decide)) := by
  intro hcarried
  have haccepted : Accepted (aesCbcBox true)
      (lanFrame etherTypeIpv4 (udpPacket 46 18) (by decide)) :=
    ⟨by decide, by decide, by decide, by decide, by decide⟩
  obtain ⟨op, m', hop, hsrc, -⟩ :=
    mainLoopRx_encrypt aesCbcBox_pair (fun _ => 0) plainPass haccepted
  have hplain : (mainLoopRx (fun _ => 0) (aesCbcBox true) 0 plainPass
      (lanFrame etherTypeIpv4 (udpPacket 46 18) (by decide))).textAt 32 = some paddedText := by
    decide +kernel
  rw [hop, Rx.textAt, hsrc, Option.map_some] at hplain
  have htext : (knownAnswer (aesCbcBox true) paddedText paddedCipherText (by decide)).encrypt
      (aesCbcBox true).session.key (op.priv.read 0 (aesCbcBox true).cipherIvLength)
      (m'.load cipherAt 32) = paddedCipherText := if_pos (Option.some.inj hplain)
  have hequal := hcarried.ciphertext_eq aesCbcBox_pair haccepted rfl hop hsrc htext (i := 31)
    (by decide) (by decide)
  rw [if_neg (by decide)] at hequal
  exact absurd hequal (by decide)

end SecureWan.Transport
