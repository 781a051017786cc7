import SecureWan.Encryptor.Enqueue
import SecureWan.Transport.Tunnel

/-!
# Handing a transport packet to the crypto device

`l2fwd_simple_crypto_enqueue` of the transport program. The two sides use their own
data offset: the encrypt side works behind the gap, the decrypt side on the packet
whose gap is closed. The encrypt side also writes the IV into the gap.
-/

namespace SecureWan.Transport

/-- The copy of the IV right before the packet; what would lie before the buffer is not
modelled. -/
def stashIv (m : Mbuf) (iv : Bytes) : Mbuf :=
  ⟨m.headroom.take (m.headroom.length - iv.length) ++ iv.drop (iv.length - m.headroom.length),
    m.data, m.tailroom, by
    have := m.bufLen_lt
    simp only [List.length_append, List.length_take, List.length_drop]
    omega⟩

/-- `ipdata_offset`. -/
def ipdataOffset (isEncrypt : Bool) : ℕ := if isEncrypt then cipherAt else ipEnd

variable {Key : Type} (cp : CryptoParams Key)

/-- The `do_cipher` part of the enqueue function: the IV, on the encrypt side also its
copies in the packet and before it, and the data range. -/
def fillCipher (rand : UInt64 × UInt64) (pktIv : Bytes) (offset dataLen : ℕ) (m : Mbuf)
    (op : CryptoOp Key) : Mbuf × CryptoOp Key :=
  if cp.chain.doCipher then
    let range := CryptoParams.range cp.cipherAlgo.inBits offset dataLen
    if cp.isEncrypt then
      let priv := op.priv.write 0 (generatePerPktIv rand)
      let iv := priv.read 0 ivInPacketSize
      (stashIv (m.store wireIvAt iv) iv, { op with priv := priv, cipher := range })
    else
      (m, { op with priv := op.priv.write 0 (pktIv.readAt 0 cp.cipherIvLength), cipher := range })
  else (m, op)

/-- `data_len` before padding. -/
def cryptoDataLen (m : Mbuf) : ℕ :=
  let dataLen := sub32 m.pktLen (ipdataOffset cp.isEncrypt)
  if cp.verifies then sub32 dataLen cp.digestLength else dataLen

/-- `l2fwd_simple_crypto_enqueue` up to the call of `l2fwd_crypto_enqueue`. -/
def l2fwdSimpleCryptoEnqueue (rand : UInt64 × UInt64) (pktIv : Bytes) (m : Mbuf)
    (op : CryptoOp Key) : Option (CryptoOp Key) :=
  let offset := ipdataOffset cp.isEncrypt
  let dataLen := cryptoDataLen cp m
  let padLen := cp.cryptoPadLen dataLen
  match CryptoParams.appendPadding m padLen with
  | none => none
  | some m =>
    let dataLen := (dataLen + padLen) % 2 ^ 32
    let op := { op with session := some cp.session }
    let (m, op) := cp.fillAuth offset dataLen m op
    let (m, op) := fillCipher cp rand pktIv offset dataLen m op
    let (m, op) := cp.fillAead offset dataLen m op
    some { op with mSrc := some m }

variable {cp} {m : Mbuf}

section FillCipher

variable (rand : UInt64 × UInt64) (pktIv : Bytes) (offset dataLen : ℕ) (op : CryptoOp Key)

/-- An encrypt operation uses the generated IV, which is also in the gap. -/
theorem fillCipher_encrypt (hchain : cp.chain.doCipher = true) (henc : cp.isEncrypt = true)
    (hlen : cipherAt ≤ m.pktLen) :
    let filled := fillCipher cp rand pktIv offset dataLen m op
    filled.2.session = op.session ∧ filled.2.authDigest = op.authDigest ∧
      filled.2.cipher = CryptoParams.range cp.cipherAlgo.inBits offset dataLen ∧
      filled.2.priv.read 0 ivInPacketSize = generatePerPktIv rand ∧
      filled.1.pktLen = m.pktLen ∧
      filled.1.load wireIvAt ivInPacketSize = generatePerPktIv rand ∧
      ∀ k, k < wireIvAt → filled.1.byteAt k = m.byteAt k := by
  obtain ⟨-, -, hwire, hcipher, -⟩ := gapOffsets
  have hsize : ivInPacketSize = 16 := rfl
  let iv := generatePerPktIv rand
  have hivLen : iv.length = ivInPacketSize := length_generatePerPktIv rand
  have hiv : (op.priv.write 0 iv).read 0 ivInPacketSize = iv := Memory.read_write_self hivLen
  let written := stashIv (m.store wireIvAt iv) iv
  have hfilled : fillCipher cp rand pktIv offset dataLen m op =
      (written, { op with
        priv := op.priv.write 0 iv
        cipher := CryptoParams.range cp.cipherAlgo.inBits offset dataLen }) := by
    simp only [fillCipher, hchain, henc, if_true, hiv, written, iv]
  have hbyte (k : ℕ) : written.byteAt k = if wireIvAt ≤ k ∧ k < wireIvAt + ivInPacketSize then
      iv.byteAt (k - wireIvAt) else m.byteAt k := by
    have hregion := m.pktLen_le_region
    rw [← hivLen]
    exact Mbuf.byteAt_store (by omega) k
  have hload : written.load wireIvAt ivInPacketSize = iv := by
    have hsame : written.load wireIvAt ivInPacketSize = iv.readAt 0 ivInPacketSize := by
      refine Bytes.readAt_eq_readAt_iff.mpr fun i hi => (hbyte (wireIvAt + i)).trans ?_
      rw [if_pos (by omega), Nat.add_sub_cancel_left, Nat.zero_add]
    rw [hsame, Bytes.readAt_eq (by omega), List.drop_zero, List.take_of_length_le (by omega)]
  rw [hfilled]
  refine ⟨rfl, rfl, rfl, hiv, Mbuf.pktLen_store, hload, fun k hk => ?_⟩
  rw [hbyte, if_neg (by omega)]

/-- A decrypt operation uses the IV it is given, and the packet is not touched. -/
theorem fillCipher_decrypt (hchain : cp.chain.doCipher = true) (hdec : cp.isEncrypt = false) :
    let filled := fillCipher cp rand pktIv offset dataLen m op
    filled.1 = m ∧ filled.2.session = op.session ∧ filled.2.authDigest = op.authDigest ∧
      filled.2.cipher = CryptoParams.range cp.cipherAlgo.inBits offset dataLen ∧
      filled.2.priv.read 0 cp.cipherIvLength = pktIv.readAt 0 cp.cipherIvLength := by
  simp only [fillCipher, hchain, hdec, if_true, Bool.false_eq_true, if_false, true_and]
  exact Memory.read_write_self Bytes.length_readAt

end FillCipher

/-- **Encrypt operations.** Everything behind the gap is padded and encrypted, there is
room for a digest, and the IV of the operation is in the gap. -/
theorem enqueue_encrypt (rand : UInt64 × UInt64) (pktIv : Bytes) (op : CryptoOp Key)
    {dataLen n : ℕ} (hchain : cp.chain.doCipher = true) (henc : cp.isEncrypt = true)
    (hgen : cp.verifies = false) (hlen : m.pktLen = cipherAt + dataLen)
    (hn : n = dataLen + cp.padLen dataLen)
    (hroom : cp.padLen dataLen + cp.tagLength ≤ m.tailroom.length) :
    ∃ op' m', l2fwdSimpleCryptoEnqueue cp rand pktIv m op = some op' ∧
      op'.mSrc = some m' ∧ op'.session = some cp.session ∧
      op'.cipher = CryptoParams.range cp.cipherAlgo.inBits cipherAt n ∧
      op'.authDigest.data =
        (if cp.chain.doHash then some (cipherAt + n) else op.authDigest.data) ∧
      op'.priv.read 0 ivInPacketSize = generatePerPktIv rand ∧
      m'.pktLen = cipherAt + n + cp.tagLength ∧
      m'.load wireIvAt ivInPacketSize = generatePerPktIv rand ∧
      ∀ k, k < wireIvAt → m'.byteAt k = m.byteAt k := by
  obtain ⟨-, -, hwire, hcipher, -⟩ := gapOffsets
  have hbound := m.bufLen_lt
  have hpkt : m.pktLen < 2 ^ 16 := m.length_data_lt
  have hdataLen : cryptoDataLen cp m = dataLen := by
    simp only [cryptoDataLen, hgen, Bool.false_eq_true, if_false, ipdataOffset, henc, if_true]
    rw [sub32_eq (by omega) (by omega)]
    omega
  obtain ⟨m₁, hm₁, _, hdata₁, htail₁⟩ :=
    CryptoParams.appendPadding_spec (show cp.padLen dataLen ≤ m.tailroom.length by omega)
  have htotal : (dataLen + cp.padLen dataLen) % 2 ^ 32 = n := by omega
  have hlen₁ : m₁.data.length = cipherAt + n := by
    rw [hdata₁, List.length_append, List.length_replicate, hn, ← Nat.add_assoc, ← hlen, Mbuf.pktLen]
  let opened : CryptoOp Key := { op with session := some cp.session }
  let authed := cp.fillAuth cipherAt n m₁ opened
  obtain ⟨_, ⟨tag, htag, hdata₂⟩, hdigest⟩ :=
    cp.fillAuth_generate m₁ opened cipherAt n hgen (by omega)
  have hlen₂ : authed.1.pktLen = cipherAt + n + cp.tagLength := by
    rw [Mbuf.pktLen, hdata₂, List.length_append, hlen₁, htag]
  let filled := fillCipher cp rand pktIv cipherAt n authed.1 authed.2
  obtain ⟨hsession, hkept, hrange, hiv, hlen₃, hload, hbyte⟩ :=
    fillCipher_encrypt rand pktIv cipherAt n authed.2 hchain henc
      (show cipherAt ≤ authed.1.pktLen by omega)
  refine ⟨{ filled.2 with mSrc := some filled.1 }, filled.1, ?_, rfl, ?_, hrange, ?_, hiv,
    hlen₃.trans hlen₂, hload, fun k hk => ?_⟩
  · simp only [l2fwdSimpleCryptoEnqueue, hdataLen, CryptoParams.cryptoPadLen, hchain, if_true,
      ipdataOffset, henc, hm₁, htotal, cp.fillAead_of_doCipher _ _ _ _ hchain]
    rfl
  · exact hsession.trans (cp.fillAuth_session m₁ opened cipherAt n)
  · rw [← hlen₁]
    exact (congrArg Digest.data hkept).trans hdigest
  · have hin : k < m.data.length := by
      change k < m.pktLen
      omega
    have hauthed : authed.1.data = m.data ++ (List.replicate (cp.padLen dataLen) 0 ++ tag) := by
      rw [hdata₂, hdata₁, List.append_assoc]
    rw [hbyte k hk, Mbuf.byteAt_left hauthed hin,
      Mbuf.byteAt_left (List.append_nil m.data).symm hin]

/-- **Decrypt operations.** A packet of whole blocks behind its IP header, with its digest,
is not touched, and its blocks are decrypted with the given IV. -/
theorem enqueue_decrypt (rand : UInt64 × UInt64) (pktIv : Bytes) (op : CryptoOp Key) {n : ℕ}
    (hchain : cp.chain.doCipher = true) (hdec : cp.isEncrypt = false)
    (hverify : cp.chain.doHash = true → cp.hashVerify = true)
    (hlen : m.pktLen = ipEnd + n + cp.tagLength) (hpad : cp.padLen n = 0) :
    ∃ op', l2fwdSimpleCryptoEnqueue cp rand pktIv m op = some op' ∧ op'.mSrc = some m ∧
      op'.session = some cp.session ∧
      op'.cipher = CryptoParams.range cp.cipherAlgo.inBits ipEnd n ∧
      (cp.chain.doHash = true ∨ op'.authDigest = op.authDigest) ∧
      op'.priv.read 0 cp.cipherIvLength = pktIv.readAt 0 cp.cipherIvLength := by
  obtain ⟨hend, -⟩ := gapOffsets
  have hpkt : m.pktLen < 2 ^ 16 := m.length_data_lt
  have hafter : sub32 m.pktLen ipEnd = n + cp.tagLength := by
    rw [sub32_eq (by omega) (by omega)]
    omega
  have hdataLen : cryptoDataLen cp m = n := by
    simp only [cryptoDataLen, ipdataOffset, hdec, Bool.false_eq_true, if_false, hafter]
    exact CryptoParams.sub_digest hchain hverify (by omega)
  have htotal : (n + 0) % 2 ^ 32 = n := by omega
  let opened : CryptoOp Key := { op with session := some cp.session }
  let authed := cp.fillAuth ipEnd n m opened
  have hsame : authed.1 = m := cp.fillAuth_verify m opened ipEnd n hverify
  let filled := fillCipher cp rand pktIv ipEnd n authed.1 authed.2
  obtain ⟨hkeep, hsession, hkept, hrange, hiv⟩ :=
    fillCipher_decrypt (m := authed.1) rand pktIv ipEnd n authed.2 hchain hdec
  refine ⟨{ filled.2 with mSrc := some filled.1 }, ?_, congrArg some (hkeep.trans hsame), ?_,
    hrange, ?_, hiv⟩
  · simp only [l2fwdSimpleCryptoEnqueue, hdataLen, CryptoParams.cryptoPadLen, hchain, if_true,
      hpad, CryptoParams.appendPadding, ipdataOffset, hdec, Bool.false_eq_true, if_false, htotal,
      cp.fillAead_of_doCipher _ _ _ _ hchain]
    rfl
  · exact hsession.trans (cp.fillAuth_session m opened ipEnd n)
  · exact (cp.fillAuth_authDigest m opened ipEnd n).imp_right hkept.trans

end SecureWan.Transport
