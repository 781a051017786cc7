import SecureWan.Lib.Logged
import SecureWan.Encryptor.DecryptBounds
import SecureWan.Transport.RoundTrip

/-!
# What the decrypt path touches

The decrypt path of the transport program once more, now with the bytes it reads and
writes and the unsigned differences it takes. The frame is not trusted: the IHL, the
field `total_length` and the length of the frame may disagree. This file says exactly
for which frames every access stays inside the packet and no difference runs below zero.
-/

namespace SecureWan.Transport

/-- A step that can go wrong: `n` bytes from `mtod + off` on, in a packet of `pktLen` bytes,
or an unsigned difference. -/
inductive Step where
  | access (off n pktLen : ℕ)
  | sub (a b : ℕ)

/-- The bytes are bytes of the packet; the difference does not wrap. -/
def Step.Safe : Step → Prop
  | .access off n pktLen => n = 0 ∨ off + n ≤ pktLen
  | .sub a b => b ≤ a

/-- A logged read. -/
def read (m : Mbuf) (off n : ℕ) : Logged Step Bytes := .step (.access off n m.pktLen) (m.load off n)

/-- A logged read of one byte. -/
def readByte (m : Mbuf) (off : ℕ) : Logged Step UInt8 :=
  .step (.access off 1 m.pktLen) (m.byteAt off)

/-- A logged read of a 16-bit field. -/
def readField16 (m : Mbuf) (off : ℕ) : Logged Step ℕ :=
  .step (.access off 2 m.pktLen) (m.field16 off)

/-- A logged write. -/
def write (m : Mbuf) (off : ℕ) (bs : Bytes) : Logged Step Mbuf :=
  .step (.access off bs.length m.pktLen) (m.store off bs)

/-- A logged difference of 16-bit values; its callers check that it does not wrap. -/
def diff16 (a b : ℕ) : Logged Step ℕ := .step (.sub a b) (a - b)

/-- A logged difference of 32-bit values. -/
def diff32 (a b : ℕ) : Logged Step ℕ := .step (.sub a b) (sub32 a b)

/-- The IHL, as a length. -/
def readIpHdrLen (m : Mbuf) : Logged Step ℕ := do
  let versionIhl ← readByte m etherHdrLen
  pure (versionIhl.toNat % 16 * 4)

/-- The extraction of `pkt_iv` in the receive loop. -/
def readPktIv (m : Mbuf) : Logged Step Bytes := do
  let ipHl ← readIpHdrLen m
  read m (etherHdrLen + ipHl + udpHdrLen + transportProtoMetaLen) ivInPacketSize

/-- The end of `tunnel_decap`: the protocol, the length and the checksum. -/
def writeIpHdr (ipv4Cksum : Bytes → UInt16) (proto : UInt8) (total : ℕ) (m : Mbuf) :
    Logged Step Mbuf := do
  let m ← write m (etherHdrLen + 9) [proto]
  let m ← write m (etherHdrLen + 2) (be16 total)
  let m ← write m (etherHdrLen + 10) (be16 0)
  let hdrLen ← readIpHdrLen m
  let hdr ← read m etherHdrLen hdrLen
  write m (etherHdrLen + 10) (be16 (ipv4Cksum hdr).toNat)

/-- `tunnel_decap`, logged. -/
def tunnelDecapLogged (ipv4Cksum : Bytes → UInt16) (m : Mbuf) : Logged Step (Option Mbuf) := do
  let proto ← readByte m (etherHdrLen + 9)
  if proto ≠ ipprotoUdp then pure none
  else
    let origTotalLen ← readField16 m (etherHdrLen + 2)
    let origProto ← readByte m protoMetaAt
    let hdrLen ← readIpHdrLen m
    if origTotalLen < hdrLen + transportOverhead then pure none
    else
      let afterHdr ← diff16 origTotalLen hdrLen
      let encLen ← diff16 afterHdr transportOverhead
      let moved ← read m cipherAt encLen
      let m ← write m ipEnd moved
      let m := m.trim transportOverhead
      let total ← diff16 origTotalLen transportOverhead
      let m ← writeIpHdr ipv4Cksum origProto total m
      pure (some m)

section Enqueue

variable {Key : Type} (cp : CryptoParams Key)

/-- `data_len` before padding. -/
def dataLenLogged (m : Mbuf) : Logged Step ℕ := do
  let dataLen ← diff32 m.pktLen (ipdataOffset cp.isEncrypt)
  if cp.verifies then diff32 dataLen cp.digestLength else pure dataLen

/-- The padding: `memset` over what `rte_pktmbuf_append` returned. -/
def padLogged (m : Mbuf) (padLen : ℕ) : Logged Step (Option Mbuf) :=
  if padLen = 0 then pure (some m)
  else
    match m.append (padLen % 2 ^ 16) with
    | none => pure none
    | some m' => do
      let m' ← write m' m.data.length (List.replicate padLen 0)
      pure (some m')

/-- The offset that the bus address of a digest is computed from. -/
def physOffsetLogged (placed : Bool) (m : Mbuf) : Logged Step Unit := do
  if placed then
    let _ ← diff32 m.pktLen cp.digestLength
    pure ()
  else pure ()

/-- `l2fwd_simple_crypto_enqueue`, logged; the writes of the IV on the encrypt side are not. -/
def enqueueLogged (rand : UInt64 × UInt64) (pktIv : Bytes) (m : Mbuf) (op : CryptoOp Key) :
    Logged Step (Option (CryptoOp Key)) := do
  let offset := ipdataOffset cp.isEncrypt
  let dataLen ← dataLenLogged cp m
  let padLen := cp.cryptoPadLen dataLen
  match ← padLogged m padLen with
  | none => pure none
  | some m =>
    let dataLen := (dataLen + padLen) % 2 ^ 32
    let op := { op with session := some cp.session }
    let (m, op) := cp.fillAuth offset dataLen m op
    physOffsetLogged cp cp.chain.doHash m
    let (m, op) := fillCipher cp rand pktIv offset dataLen m op
    let (m, op) := cp.fillAead offset dataLen m op
    physOffsetLogged cp cp.chain.doAead m
    pure (some { op with mSrc := some m })

/-- The decrypt path of the receive loop, logged. -/
def mainLoopRxLogged (ipv4Cksum : Bytes → UInt16) (p : Pass) (m : Mbuf) :
    Logged Step (Rx Key) := do
  if m.field16 12 = etherTypeArp then pure (.arp m)
  else
    let pktIv ← readPktIv m
    match ← tunnelDecapLogged ipv4Cksum m with
    | none => pure .dropped
    | some m =>
      let op ← enqueueLogged cp p.rand pktIv m (CryptoOp.alloc p.priv)
      pure (.ofOp op)

/-- A payload of `carried` bytes behind the IP header that holds the digest to verify; and
where the tailroom takes the padding, the padding is what its 16-bit length argument says,
and a digest that is to be generated and finds no room is not longer than the packet. -/
structure PayloadHolds (carried tailroom : ℕ) : Prop where
  digest : cp.verifies = true → cp.digestLength ≤ carried
  padded : cp.cryptoPadLen (cp.coveredLen carried) % 2 ^ 16 ≤ tailroom →
    cp.cryptoPadLen (cp.coveredLen carried) < 2 ^ 16 ∧
      ((cp.chain.doHash || cp.chain.doAead) = true → cp.hashVerify = false →
        tailroom < cp.cryptoPadLen (cp.coveredLen carried) + cp.digestLength →
        cp.digestLength ≤ ipEnd + carried + cp.cryptoPadLen (cp.coveredLen carried))

/-- The frame holds the header that the IHL states with the IV behind it; a UDP packet
holds the saved protocol; and one that counts enough bytes for the overhead holds all the
bytes it counts, behind a header without options, and a payload for the device. -/
structure FrameHolds (m : Mbuf) : Prop where
  iv : etherHdrLen + ipHdrLen m + transportOverhead ≤ m.pktLen
  savedProto : nextProtoId m = ipprotoUdp → protoMetaAt < m.pktLen
  counted : nextProtoId m = ipprotoUdp → ipHdrLen m + transportOverhead ≤ totalLength m →
    cipherAt + (totalLength m - ipHdrLen m - transportOverhead) ≤ m.pktLen
  payload : nextProtoId m = ipprotoUdp → ipHdrLen m + transportOverhead ≤ totalLength m →
    PayloadHolds cp (m.pktLen - cipherAt) (m.tailroom.length + transportOverhead)

end Enqueue

variable {Key : Type} {cp : CryptoParams Key} {ipv4Cksum : Bytes → UInt16} {m m' : Mbuf}

section Value

/-! Without the log, the path is the one of the receive loop. -/

theorem value_writeIpHdr (proto : UInt8) (total : ℕ) :
    (writeIpHdr ipv4Cksum proto total m).value = patchIpHdr ipv4Cksum proto total m := rfl

theorem value_tunnelDecapLogged :
    (tunnelDecapLogged ipv4Cksum m).value = tunnelDecap ipv4Cksum m := by
  unfold tunnelDecapLogged tunnelDecap
  rw [Logged.value_bind]
  change Logged.value (if nextProtoId m ≠ ipprotoUdp then _ else _) = _
  by_cases hproto : nextProtoId m ≠ ipprotoUdp
  · rw [if_pos hproto, if_pos hproto]
    rfl
  rw [if_neg hproto, if_neg hproto, Logged.value_bind, Logged.value_bind, Logged.value_bind]
  change Logged.value (if totalLength m < ipHdrLen m + transportOverhead then _ else _) =
    if totalLength m < ipHdrLen m + transportOverhead then _ else _
  by_cases hshort : totalLength m < ipHdrLen m + transportOverhead
  · rw [if_pos hshort, if_pos hshort]
    rfl
  · rw [if_neg hshort, if_neg hshort]
    exact congrArg some (value_writeIpHdr _ _)

theorem value_dataLenLogged : (dataLenLogged cp m).value = cryptoDataLen cp m := by
  unfold dataLenLogged cryptoDataLen
  rw [Logged.value_bind]
  split <;> rfl

theorem value_padLogged (padLen : ℕ) :
    (padLogged m padLen).value = CryptoParams.appendPadding m padLen := by
  unfold padLogged CryptoParams.appendPadding
  by_cases hzero : padLen = 0
  · rw [if_pos hzero, if_pos hzero]
    rfl
  · rw [if_neg hzero, if_neg hzero]
    cases happend : m.append (padLen % 2 ^ 16) with
    | none => rfl
    | some m₁ => rfl

theorem value_enqueueLogged (rand : UInt64 × UInt64) (pktIv : Bytes) (op : CryptoOp Key) :
    (enqueueLogged cp rand pktIv m op).value = l2fwdSimpleCryptoEnqueue cp rand pktIv m op := by
  unfold enqueueLogged l2fwdSimpleCryptoEnqueue
  dsimp only
  rw [Logged.value_bind, Logged.value_bind, value_padLogged, value_dataLenLogged]
  cases CryptoParams.appendPadding m (cp.cryptoPadLen (cryptoDataLen cp m)) with
  | none => rfl
  | some m₁ => rfl

/-- **The logged path is the receive loop** for a frame of the WAN port. -/
theorem value_mainLoopRxLogged (p : Pass) :
    (mainLoopRxLogged cp ipv4Cksum p m).value = mainLoopRx ipv4Cksum cp 1 p m := by
  unfold mainLoopRxLogged mainLoopRx
  by_cases harp : m.field16 12 = etherTypeArp
  · rw [if_pos harp, if_pos harp]
    rfl
  · rw [if_neg harp, if_neg harp, if_neg Nat.one_ne_zero, Logged.value_bind, Logged.value_bind,
      value_tunnelDecapLogged]
    cases tunnelDecap ipv4Cksum m with
    | none => rfl
    | some m₁ => exact congrArg Rx.ofOp (value_enqueueLogged p.rand (pktIv m) _)

end Value

section Safe

@[simp] theorem value_write {off : ℕ} {bs : Bytes} : (write m off bs).value = m.store off bs := rfl

theorem safe_write {off : ℕ} {bs : Bytes} :
    (write m off bs).All Step.Safe ↔ bs.length = 0 ∨ off + bs.length ≤ m.pktLen := Logged.all_step

theorem safe_readByte {off : ℕ} :
    (readByte m off).All Step.Safe ↔ off + 1 ≤ m.pktLen := by
  rw [readByte, Logged.all_step, Step.Safe]
  omega

theorem safe_readField16 {off : ℕ} :
    (readField16 m off).All Step.Safe ↔ off + 2 ≤ m.pktLen := by
  rw [readField16, Logged.all_step, Step.Safe]
  omega

theorem safe_read {off n : ℕ} :
    (read m off n).All Step.Safe ↔ n = 0 ∨ off + n ≤ m.pktLen := Logged.all_step

theorem safe_readIpHdrLen : (readIpHdrLen m).All Step.Safe ↔ etherHdrLen + 1 ≤ m.pktLen := by
  unfold readIpHdrLen
  rw [Logged.all_bind, safe_readByte]
  exact and_iff_left (Logged.all_pure _)

theorem safe_diff16 {a b : ℕ} : (diff16 a b).All Step.Safe ↔ b ≤ a := Logged.all_step

theorem safe_diff32 {a b : ℕ} : (diff32 a b).All Step.Safe ↔ b ≤ a := Logged.all_step

/-- The IV lies behind the header that the IHL states. -/
theorem safe_readPktIv :
    (readPktIv m).All Step.Safe ↔ etherHdrLen + ipHdrLen m + transportOverhead ≤ m.pktLen := by
  have hvalue : (readIpHdrLen m).value = ipHdrLen m := rfl
  obtain ⟨heth, hip, hudp, hmeta, hiv⟩ := headerLengths
  obtain ⟨-, -, -, -, hover⟩ := gapOffsets
  unfold readPktIv
  rw [Logged.all_bind, safe_readIpHdrLen, hvalue, safe_read]
  omega

/-- The header is written up to the checksum and read up to its end. -/
theorem safe_writeIpHdr (proto : UInt8) (total : ℕ) :
    (writeIpHdr ipv4Cksum proto total m).All Step.Safe ↔
      etherHdrLen + 12 ≤ m.pktLen ∧ etherHdrLen + ipHdrLen m ≤ m.pktLen := by
  obtain ⟨heth, -⟩ := headerLengths
  obtain ⟨hend, -⟩ := gapOffsets
  let m₃ := ((m.store (etherHdrLen + 9) [proto]).store (etherHdrLen + 2) (be16 total)).store
    (etherHdrLen + 10) (be16 0)
  have hlen : m₃.pktLen = m.pktLen := by simp only [m₃, Mbuf.pktLen_store]
  have hihl : (readIpHdrLen m₃).value = ipHdrLen m := by
    have hbyte : m₃.byteAt etherHdrLen = m.byteAt etherHdrLen := by
      simp only [m₃]
      rw [Mbuf.byteAt_store_outside (.inl (by omega)),
        Mbuf.byteAt_store_outside (.inl (by omega)),
        Mbuf.byteAt_store_outside (.inl (by omega))]
    exact congrArg (fun b : UInt8 => b.toNat % 16 * 4) hbyte
  unfold writeIpHdr
  simp only [Logged.all_bind, safe_write, value_write, length_be16, List.length_singleton]
  change _ ∧ _ ∧ _ ∧ (readIpHdrLen m₃).All Step.Safe ∧
    (read m₃ etherHdrLen (readIpHdrLen m₃).value).All Step.Safe ∧ _ ↔ _
  rw [safe_readIpHdrLen, hihl, safe_read, hlen]
  simp only [Mbuf.pktLen_store]
  omega

/-- Once the header and the IV are there, `tunnel_decap` needs the saved protocol, and the
counted bytes behind twenty bytes of header. -/
theorem safe_tunnelDecapLogged
    (hiv : etherHdrLen + ipHdrLen m + transportOverhead ≤ m.pktLen) :
    (tunnelDecapLogged ipv4Cksum m).All Step.Safe ↔
      (nextProtoId m = ipprotoUdp → protoMetaAt < m.pktLen ∧
        (ipHdrLen m + transportOverhead ≤ totalLength m →
          etherHdrLen + 12 + transportOverhead ≤ m.pktLen ∧
          (totalLength m - ipHdrLen m - transportOverhead = 0 ∨
            cipherAt + (totalLength m - ipHdrLen m - transportOverhead) ≤ m.pktLen))) := by
  obtain ⟨heth, hip, hudp, hmeta, hsize⟩ := headerLengths
  obtain ⟨hend, hmetaAt, -, hcipher, hover⟩ := gapOffsets
  unfold tunnelDecapLogged
  rw [Logged.all_bind]
  change (readByte m (etherHdrLen + 9)).All Step.Safe ∧
    Logged.All Step.Safe (if nextProtoId m ≠ ipprotoUdp then _ else _) ↔ _
  by_cases hproto : nextProtoId m = ipprotoUdp
  · rw [if_neg (not_not.mpr hproto)]
    simp only [Logged.all_bind, hproto, forall_const]
    change (readByte m (etherHdrLen + 9)).All Step.Safe ∧ (readField16 m _).All Step.Safe ∧
      (readByte m protoMetaAt).All Step.Safe ∧ (readIpHdrLen m).All Step.Safe ∧
      Logged.All Step.Safe
        (if totalLength m < ipHdrLen m + transportOverhead then _ else _) ↔ _
    rw [safe_readByte, safe_readByte, safe_readField16, safe_readIpHdrLen]
    by_cases hshort : totalLength m < ipHdrLen m + transportOverhead
    · rw [if_pos hshort]
      simp only [Logged.all_pure, and_true]
      omega
    · rw [if_neg hshort]
      simp only [Logged.all_bind, Logged.all_pure, and_true]
      -- the packet whose gap is closed
      let encLen := totalLength m - ipHdrLen m - transportOverhead
      let m₁ := (m.store ipEnd (m.load cipherAt encLen)).trim transportOverhead
      have hlen₁ : m₁.pktLen = m.pktLen - transportOverhead := by
        rw [Mbuf.pktLen_trim (by rw [Mbuf.pktLen_store]; omega), Mbuf.pktLen_store]
      have hihl₁ : ipHdrLen m₁ = ipHdrLen m := by
        rw [ipHdrLen, Mbuf.byteAt_trim, Mbuf.byteAt_store_outside (.inl (by omega)), ipHdrLen]
      have hmoved : (m.load cipherAt encLen).length = encLen := Bytes.length_readAt
      change _ ∧ _ ∧ _ ∧ _ ∧ (diff16 (totalLength m) (ipHdrLen m)).All Step.Safe ∧
        (diff16 (totalLength m - ipHdrLen m) transportOverhead).All Step.Safe ∧
        (read m cipherAt encLen).All Step.Safe ∧
        (write m ipEnd (m.load cipherAt encLen)).All Step.Safe ∧
        (diff16 (totalLength m) transportOverhead).All Step.Safe ∧
        (writeIpHdr ipv4Cksum (m.byteAt protoMetaAt) (totalLength m - transportOverhead) m₁).All
          Step.Safe ↔ _
      rw [safe_diff16, safe_diff16, safe_diff16, safe_read, safe_write, hmoved]
      rw [safe_writeIpHdr, hlen₁, hihl₁]
      omega
  · rw [if_pos hproto]
    simp only [readByte, Logged.all_step, Logged.all_pure, Step.Safe, hproto, false_imp_iff,
      and_true, iff_true]
    omega

/-- What a successful `tunnel_decap` takes and leaves. -/
theorem of_tunnelDecap (h : tunnelDecap ipv4Cksum m = some m')
    (hlen : transportOverhead ≤ m.pktLen) :
    nextProtoId m = ipprotoUdp ∧ ipHdrLen m + transportOverhead ≤ totalLength m ∧
      m'.pktLen = m.pktLen - transportOverhead ∧
      m'.tailroom.length = m.tailroom.length + transportOverhead := by
  unfold tunnelDecap at h
  by_cases hproto : nextProtoId m ≠ ipprotoUdp
  · simp only [if_pos hproto, reduceCtorEq] at h
  by_cases hshort : totalLength m < ipHdrLen m + transportOverhead
  · simp only [if_neg hproto, if_pos hshort, reduceCtorEq] at h
  simp only [if_neg hproto, if_neg hshort, Option.some.injEq] at h
  subst h
  refine ⟨not_not.mp hproto, by omega, ?_, ?_⟩
  · rw [pktLen_patchIpHdr, Mbuf.pktLen_trim (by rw [Mbuf.pktLen_store]; exact hlen),
      Mbuf.pktLen_store]
  · rw [length_tailroom_patchIpHdr, Mbuf.length_tailroom_trim (by
      rw [Mbuf.pktLen_store]; exact hlen), Mbuf.length_store_tailroom]

/-- `tunnel_decap` succeeds on every UDP packet that counts enough bytes. -/
theorem tunnelDecap_eq_none_iff : tunnelDecap ipv4Cksum m = none ↔
    ¬(nextProtoId m = ipprotoUdp ∧ ipHdrLen m + transportOverhead ≤ totalLength m) := by
  unfold tunnelDecap
  by_cases hproto : nextProtoId m ≠ ipprotoUdp
  · rw [if_pos hproto]
    exact iff_of_true rfl fun h => hproto h.1
  by_cases hshort : totalLength m < ipHdrLen m + transportOverhead
  · rw [if_neg hproto, if_pos hshort]
    exact iff_of_true rfl fun h => by omega
  rw [if_neg hproto, if_neg hshort]
  refine iff_of_false (by simp only [reduceCtorEq, not_false_eq_true]) ?_
  exact not_not.mpr ⟨not_not.mp hproto, by omega⟩

/-- The data length is what is left of the packet. -/
theorem safe_dataLenLogged (hdec : cp.isEncrypt = false) :
    (dataLenLogged cp m).All Step.Safe ↔
      ipEnd ≤ m.pktLen ∧ (cp.verifies = true → cp.digestLength ≤ m.pktLen - ipEnd) := by
  have hbound : m.pktLen < 2 ^ 16 := m.length_data_lt
  have hoffset : ipdataOffset cp.isEncrypt = ipEnd := by rw [hdec]; rfl
  unfold dataLenLogged
  rw [Logged.all_bind, safe_diff32, hoffset]
  refine and_congr_right fun hle => ?_
  have hvalue : (diff32 m.pktLen ipEnd).value = m.pktLen - ipEnd := sub32_eq hle (by omega)
  rw [hvalue]
  by_cases hverifies : cp.verifies = true
  · rw [if_pos hverifies, safe_diff32]
    exact ⟨fun h _ => h, fun h => h hverifies⟩
  · rw [if_neg hverifies]
    exact iff_of_true (Logged.all_pure _) fun h => absurd h hverifies

/-- `memset` stays inside what was appended when the padding fits the length argument. -/
theorem safe_padLogged {padLen : ℕ} :
    (padLogged m padLen).All Step.Safe ↔
      (padLen % 2 ^ 16 ≤ m.tailroom.length → padLen < 2 ^ 16) := by
  unfold padLogged
  by_cases hzero : padLen = 0
  · rw [if_pos hzero]
    exact iff_of_true (Logged.all_pure _) fun _ => by omega
  rw [if_neg hzero]
  by_cases hroom : padLen % 2 ^ 16 ≤ m.tailroom.length
  · obtain ⟨m₁, hm₁⟩ := Mbuf.append_isSome hroom
    obtain ⟨_, _, hdata, _⟩ := Mbuf.of_append hm₁
    have hlen : m₁.pktLen = m.data.length + padLen % 2 ^ 16 := by
      rw [Mbuf.pktLen, hdata, List.length_append, List.length_take, Nat.min_eq_left hroom]
    rw [hm₁]
    change (write m₁ _ _ >>= _).All Step.Safe ↔ _
    rw [Logged.all_bind, safe_write, List.length_replicate, hlen]
    simp only [Logged.all_pure, and_true]
    omega
  · rw [Mbuf.append_eq_none (by omega)]
    exact iff_of_true (Logged.all_pure _) fun h => absurd h hroom

theorem safe_physOffsetLogged {placed : Bool} :
    (physOffsetLogged cp placed m).All Step.Safe ↔
      (placed = true → cp.digestLength ≤ m.pktLen) := by
  unfold physOffsetLogged
  cases placed with
  | false => exact iff_of_true (Logged.all_pure _) fun h => absurd h (by decide)
  | true =>
    rw [if_pos rfl, Logged.all_bind, safe_diff32]
    simp only [Logged.all_pure, and_true, forall_const]

/-- A packet is longer than its digest, unless the digest found no room. -/
theorem le_placeDigest_iff (offset dataLen : ℕ)
    (hverify : cp.hashVerify = true → cp.digestLength ≤ m.pktLen) :
    cp.digestLength ≤ (cp.placeDigest offset dataLen m).1.pktLen ↔
      (cp.hashVerify = false → m.tailroom.length < cp.digestLength →
        cp.digestLength ≤ m.pktLen) := by
  cases hflag : cp.hashVerify with
  | true =>
    rw [CryptoParams.placeDigest_verify offset dataLen hflag]
    exact iff_of_true (hverify hflag) fun h => absurd h (by decide)
  | false =>
    rcases Nat.lt_or_ge m.tailroom.length cp.digestLength with hfull | hroom
    · rw [CryptoParams.placeDigest_full offset dataLen hflag hfull]
      exact ⟨fun h _ _ => h, fun h => h rfl hfull⟩
    · obtain ⟨m₁, hm₁, hlen₁⟩ := CryptoParams.placeDigest_generate offset dataLen hflag hroom
      rw [hm₁]
      refine iff_of_true ?_ fun _ h => absurd h (by omega)
      change cp.digestLength ≤ m₁.pktLen
      omega

/-- Padding fails only for want of tailroom. -/
theorem appendPadding_eq_none {padLen : ℕ} (h : CryptoParams.appendPadding m padLen = none) :
    m.tailroom.length < padLen % 2 ^ 16 := by
  by_contra hroom
  obtain ⟨m₁, hm₁⟩ := Mbuf.append_isSome (m := m) (Nat.le_of_not_lt hroom)
  unfold CryptoParams.appendPadding at h
  split at h
  next => cases h
  next => simp only [hm₁, Option.map_some, reduceCtorEq] at h

/-- Without a wrap, the data length is what is left of the payload. -/
theorem cryptoDataLen_eq (hdec : cp.isEncrypt = false) (hle : ipEnd ≤ m.pktLen)
    (hdigest : cp.verifies = true → cp.digestLength ≤ m.pktLen - ipEnd) :
    cryptoDataLen cp m = cp.coveredLen (m.pktLen - ipEnd) := by
  have hbound : m.pktLen < 2 ^ 16 := m.length_data_lt
  have hoffset : ipdataOffset cp.isEncrypt = ipEnd := by rw [hdec]; rfl
  unfold cryptoDataLen CryptoParams.coveredLen
  rw [hoffset, sub32_eq hle (by omega)]
  by_cases hverifies : cp.verifies = true
  · rw [if_pos hverifies, if_pos hverifies, sub32_eq (hdigest hverifies) (by omega)]
  · rw [if_neg hverifies, if_neg hverifies, Nat.sub_zero]

/-- The decrypt branch leaves the packet alone. -/
theorem fillCipher_fst (hdec : cp.isEncrypt = false) (rand : UInt64 × UInt64) (pktIv : Bytes)
    (offset dataLen : ℕ) (op : CryptoOp Key) :
    (fillCipher cp rand pktIv offset dataLen m op).1 = m := by
  unfold fillCipher
  rw [hdec]
  split <;> rfl

/-- Behind the padding, only the bus address of a digest takes a difference. -/
theorem safe_physOffsets (hdec : cp.isEncrypt = false) (rand : UInt64 × UInt64)
    (pktIv : Bytes) (offset dataLen : ℕ) (op : CryptoOp Key) :
    let authed := cp.fillAuth offset dataLen m op
    let filled := fillCipher cp rand pktIv offset dataLen authed.1 authed.2
    (physOffsetLogged cp cp.chain.doHash authed.1).All Step.Safe ∧
        (physOffsetLogged cp cp.chain.doAead
          (cp.fillAead offset dataLen filled.1 filled.2).1).All Step.Safe ↔
      ((cp.chain.doHash || cp.chain.doAead) = true →
        cp.digestLength ≤ (cp.placeDigest offset dataLen m).1.pktLen) := by
  intro authed filled
  have hkeep : filled.1 = authed.1 := fillCipher_fst hdec rand pktIv offset dataLen authed.2
  rw [safe_physOffsetLogged, safe_physOffsetLogged]
  cases hhash : cp.chain.doHash with
  | true =>
    have haead : cp.chain.doAead = false := by
      cases hchain : cp.chain <;> simp_all [XformChain.doHash, XformChain.doAead]
    have hauthed : authed.1 = (cp.placeDigest offset dataLen m).1 := by
      simp only [authed, CryptoParams.fillAuth, hhash, if_true]
    simp only [haead, hauthed, Bool.true_or, Bool.false_eq_true, false_imp_iff, and_true]
  | false =>
    have hauthed : authed.1 = m := by
      simp only [authed, CryptoParams.fillAuth, hhash, Bool.false_eq_true, if_false]
    rw [hkeep, hauthed]
    cases haead : cp.chain.doAead with
    | true => simp only [CryptoParams.fillAead, haead, if_true, Bool.false_eq_true,
        false_imp_iff, true_and, Bool.or_true]
    | false => simp only [Bool.false_eq_true, false_imp_iff, Bool.or_false, true_and]

/-- **The device's ranges.** The enqueue function needs the IP header and a payload that
holds its digest and takes its padding. -/
theorem safe_enqueueLogged (hdec : cp.isEncrypt = false) (rand : UInt64 × UInt64)
    (pktIv : Bytes) (op : CryptoOp Key) :
    (enqueueLogged cp rand pktIv m op).All Step.Safe ↔
      ipEnd ≤ m.pktLen ∧ PayloadHolds cp (m.pktLen - ipEnd) m.tailroom.length := by
  unfold enqueueLogged
  dsimp only
  rw [Logged.all_bind, safe_dataLenLogged hdec, and_assoc]
  refine and_congr_right fun hle => ?_
  suffices hpadded : (cp.verifies = true → cp.digestLength ≤ m.pktLen - ipEnd) → 
    (_ ↔ _) from
    ⟨fun h => ⟨h.1, (hpadded h.1).mp h.2⟩, fun h => ⟨h.digest, (hpadded h.digest).mpr h.padded⟩⟩
  intro hdigest
  rw [Logged.all_bind, value_padLogged, value_dataLenLogged, cryptoDataLen_eq hdec hle hdigest,
    safe_padLogged]
  cases hpad : CryptoParams.appendPadding m
      (cp.cryptoPadLen (cp.coveredLen (m.pktLen - ipEnd))) with
  | none =>
    have hfull := appendPadding_eq_none hpad
    exact iff_of_true ⟨fun hroom => absurd hroom (by omega), Logged.all_pure _⟩
      fun hroom => absurd hroom (by omega)
  | some m₁ =>
    obtain ⟨hroom, hlen₁, htail₁⟩ := CryptoParams.of_appendPadding hpad
    let n := m.pktLen - ipEnd
    let pad := cp.cryptoPadLen (cp.coveredLen n)
    let opened : CryptoOp Key := { op with session := some cp.session }
    have hplaced := safe_physOffsets (m := m₁) hdec rand pktIv (ipdataOffset cp.isEncrypt)
      ((cp.coveredLen n + pad) % 2 ^ 32) opened
    have hverify : (cp.chain.doHash || cp.chain.doAead) = true → cp.hashVerify = true →
        cp.digestLength ≤ m₁.pktLen := by
      intro hchain hflag
      have := hdigest (by rw [CryptoParams.verifies, hchain, hflag]; rfl)
      unfold Mbuf.pktLen at *
      omega
    -- the padded packet, once the length argument takes the padding
    have hpadded (hfits : pad < 2 ^ 16) : m₁.pktLen = ipEnd + n + pad ∧
        m₁.tailroom.length = m.tailroom.length - pad := by
      rw [Nat.mod_eq_of_lt hfits] at hlen₁ htail₁
      refine ⟨?_, htail₁⟩
      unfold n Mbuf.pktLen at *
      omega
    change _ ∧ Logged.All Step.Safe (_ >>= fun _ => _ >>= fun _ => pure _) ↔ _
    rw [Logged.all_bind, Logged.all_bind, and_iff_left (Logged.all_pure _)]
    refine (and_congr_right' hplaced).trans ?_
    constructor
    · rintro ⟨hfits, hlong⟩ _
      refine ⟨hfits hroom, fun hchain hgen hfull => ?_⟩
      obtain ⟨hlen, htail⟩ := hpadded (hfits hroom)
      rw [← hlen]
      exact (le_placeDigest_iff _ _ (hverify hchain)).mp (hlong hchain) hgen (by omega)
    · intro h
      obtain ⟨hfits, hlong⟩ := h hroom
      refine ⟨fun _ => hfits, fun hchain => ?_⟩
      obtain ⟨hlen, htail⟩ := hpadded hfits
      refine (le_placeDigest_iff _ _ (hverify hchain)).mpr fun hgen hfull => ?_
      rw [hlen]
      exact hlong hchain hgen (by omega)

end Safe

/-- **Every frame.** On the decrypt side, for any bytes from the WAN port, every byte that
is touched is one of the packet and no difference wraps, exactly when the frame is an ARP
frame or holds what its fields say. -/
theorem decryptPath_safe_iff (hdec : cp.isEncrypt = false) (ipv4Cksum : Bytes → UInt16)
    (p : Pass) (m : Mbuf) :
    (mainLoopRxLogged cp ipv4Cksum p m).All Step.Safe ↔
      (m.field16 12 ≠ etherTypeArp → FrameHolds cp m) := by
  unfold mainLoopRxLogged
  by_cases harp : m.field16 12 = etherTypeArp
  · rw [if_pos harp]
    exact iff_of_true (Logged.all_pure _) fun h => absurd harp h
  rw [if_neg harp, Logged.all_bind, Logged.all_bind, safe_readPktIv, value_tunnelDecapLogged]
  simp only [ne_eq, harp, not_false_eq_true, forall_const]
  suffices hafter : etherHdrLen + ipHdrLen m + transportOverhead ≤ m.pktLen →
      (_ ↔ FrameHolds cp m) from
    ⟨fun h => (hafter h.1).mp h.2, fun h => ⟨h.iv, (hafter h.iv).mpr h⟩⟩
  intro hiv
  obtain ⟨heth, -⟩ := headerLengths
  obtain ⟨hend, hmetaAt, -, hcipher, hover⟩ := gapOffsets
  rw [safe_tunnelDecapLogged hiv]
  cases hdecap : tunnelDecap ipv4Cksum m with
  | none =>
    have hnot := tunnelDecap_eq_none_iff.mp hdecap
    constructor
    · rintro ⟨h, -⟩
      exact ⟨hiv, fun hudp => (h hudp).1, fun hudp hfits => absurd ⟨hudp, hfits⟩ hnot,
        fun hudp hfits => absurd ⟨hudp, hfits⟩ hnot⟩
    · intro h
      exact ⟨fun hudp => ⟨h.savedProto hudp, fun hfits => absurd ⟨hudp, hfits⟩ hnot⟩,
        Logged.all_pure _⟩
  | some m₁ =>
    obtain ⟨hudp, hfits, hlen₁, htail₁⟩ := of_tunnelDecap hdecap (by omega)
    have hcarried : m₁.pktLen - ipEnd = m.pktLen - cipherAt := by omega
    have henqueue := safe_enqueueLogged (m := m₁) hdec p.rand
      (readPktIv m).value (CryptoOp.alloc p.priv)
    rw [hcarried, htail₁] at henqueue
    change _ ∧ (enqueueLogged cp p.rand (readPktIv m).value m₁ (CryptoOp.alloc p.priv) >>=
      fun op => pure (Rx.ofOp op)).All Step.Safe ↔ _
    rw [Logged.all_bind, and_iff_left (Logged.all_pure _), henqueue]
    constructor
    · rintro ⟨h, hle, hpayload⟩
      obtain ⟨hsaved, hcounted⟩ := h hudp
      have hrange := (hcounted hfits).2
      exact ⟨hiv, fun _ => hsaved, fun _ _ => by omega, fun _ _ => hpayload⟩
    · intro h
      have hcounted := h.counted hudp hfits
      exact ⟨fun _ => ⟨by omega, fun _ => ⟨by omega, Or.inr hcounted⟩⟩, by omega,
        h.payload hudp hfits⟩

/-- A frame of sixty bytes whose `total_length` is given. -/
def sixtyBytes (total : UInt8) : Mbuf :=
  lanFrame etherTypeIpv4 (udpPacket total 18) (by simp [udpPacket])

/-- With the length it has, the frame is read up to its end and not further. -/
theorem decryptPath_safe_sixtyBytes :
    (mainLoopRxLogged (aesCbcBox false) (fun _ => 0) plainPass (sixtyBytes 46)).All Step.Safe :=
  (decryptPath_safe_iff rfl (fun _ => 0) plainPass (sixtyBytes 46)).mpr fun _ =>
    ⟨by decide, by decide, by decide, fun _ _ => ⟨by decide, by decide⟩⟩

/-- With a `total_length` of 255, `memmove` reads 209 bytes behind the end of the frame. -/
theorem longCount_reads_behind :
    ¬(mainLoopRxLogged (aesCbcBox false) (fun _ => 0) plainPass (sixtyBytes 255)).All
      Step.Safe := by
  unfold mainLoopRxLogged
  rw [if_neg (by decide), Logged.all_bind, Logged.all_bind,
    safe_tunnelDecapLogged (by decide)]
  rintro ⟨-, h, -⟩
  exact absurd ((h (by decide)).2 (by decide)).2 (by decide)

end SecureWan.Transport
