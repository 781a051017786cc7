import SecureWan.CryptoOp

/-!
# Handing a packet to the crypto device

`l2fwd_simple_crypto_enqueue` of the tunnel program. The function returns the
operation that reaches `l2fwd_crypto_enqueue`, or nothing where the C code
returns -1. Its two results used later are the shape of an encrypt operation
and that of a decrypt operation on whole blocks.
-/

namespace SecureWan

/-- `sizeof(struct rte_ether_hdr)`. -/
def etherHdrLen : ℕ := 14

/-- `IV_IN_PACKET_SIZE`. -/
def ivInPacketSize : ℕ := 16

/-- The bytes of a 64-bit word as they lie in memory. -/
def le64 (w : UInt64) : Bytes := (List.range 8).map fun i => UInt8.ofNat (w.toNat / 256 ^ i)

/-- `generate_per_pkt_iv`: two words from `rte_rand`. -/
def generatePerPktIv (rand : UInt64 × UInt64) : Bytes := le64 rand.1 ++ le64 rand.2

@[simp] theorem length_generatePerPktIv (rand : UInt64 × UInt64) :
    (generatePerPktIv rand).length = ivInPacketSize := by
  simp [generatePerPktIv, le64, ivInPacketSize]

/-- Where the copy of the IV is kept in the operation, from `IV_OFFSET` on. -/
def savedIvAt : ℕ := 32

namespace CryptoParams

variable {Key : Type} (cp : CryptoParams Key)

/-- The session for an epoch: the one of the table, else the static one. -/
def sessionFor (epoch : UInt8) : Session Key :=
  match csSessionForEpoch cp.cs epoch with
  | some sess => sess
  | none => cp.session

/-- The `do_cipher` part of the enqueue function: the IV, its saved copy on the
encrypt side, and the data range. -/
def fillCipher (rand : UInt64 × UInt64) (pktIv : Bytes) (ipdataOffset dataLen : ℕ)
    (op : CryptoOp Key) : CryptoOp Key :=
  if cp.chain.doCipher then
    let priv :=
      if cp.isEncrypt then
        let priv := op.priv.write 0 (generatePerPktIv rand)
        priv.write savedIvAt (priv.read 0 ivInPacketSize)
      else op.priv.write 0 (pktIv.readAt 0 cp.cipherIvLength)
    { op with priv := priv, cipher := range cp.cipherAlgo.inBits ipdataOffset dataLen }
  else op

/-- `data_len` before padding: the packet without Ethernet header and without
the digest that is to be verified. -/
def cryptoDataLen (m : Mbuf) : ℕ :=
  let dataLen := sub32 m.pktLen etherHdrLen
  if cp.verifies then sub32 dataLen cp.digestLength else dataLen

/-- `pad_len`: ciphers only. -/
def cryptoPadLen (dataLen : ℕ) : ℕ := if cp.chain.doCipher then cp.padLen dataLen else 0

end CryptoParams

open CryptoParams in
/-- `l2fwd_simple_crypto_enqueue` up to the call of `l2fwd_crypto_enqueue`. -/
def l2fwdSimpleCryptoEnqueue {Key : Type} (cp : CryptoParams Key) (rand : UInt64 × UInt64)
    (pktIv : Bytes) (epoch : UInt8) (m : Mbuf) (op : CryptoOp Key) : Option (CryptoOp Key) :=
  let ipdataOffset := etherHdrLen
  if m.pktLen < ipdataOffset then none
  else
    let dataLen := cp.cryptoDataLen m
    let padLen := cp.cryptoPadLen dataLen
    match appendPadding m padLen with
    | none => none
    | some m =>
      let dataLen := (dataLen + padLen) % 2 ^ 32
      let op := { op with session := some (cp.sessionFor epoch) }
      let (m, op) := cp.fillAuth ipdataOffset dataLen m op
      let op := cp.fillCipher rand pktIv ipdataOffset dataLen op
      let (m, op) := cp.fillAead ipdataOffset dataLen m op
      some { op with mSrc := some m }

variable {Key : Type} {cp : CryptoParams Key} {m m' : Mbuf} {op op' : CryptoOp Key}

/-- The current epoch always has a session: the current one. -/
@[simp] theorem CryptoParams.sessionFor_epochCur (cp : CryptoParams Key) :
    cp.sessionFor cp.cs.epochCur = cp.cs.cur := by
  simp [sessionFor]

/-- Padding needs no more than what it asks for, and zeroes what it appends. -/
theorem CryptoParams.appendPadding_spec {padLen : ℕ} (hroom : padLen ≤ m.tailroom.length) :
    ∃ m', appendPadding m padLen = some m' ∧ m'.headroom = m.headroom ∧
      m'.data = m.data ++ List.replicate padLen 0 ∧
      m'.tailroom.length = m.tailroom.length - padLen := by
  by_cases hzero : padLen = 0
  · subst hzero
    exact ⟨m, by simp [appendPadding], rfl, by simp, by simp⟩
  · obtain ⟨m₁, hm₁⟩ := Mbuf.append_isSome hroom
    obtain ⟨_, hhead, hdata, htail⟩ := Mbuf.of_append hm₁
    have hfresh : (m.tailroom.take padLen).length = padLen := by
      rw [List.length_take, Nat.min_eq_left hroom]
    have hpad : padLen < 2 ^ 16 := by
      have := m.bufLen_lt
      omega
    refine ⟨m₁.store m.data.length (List.replicate padLen 0), ?_, hhead, ?_, ?_⟩
    · rw [appendPadding, if_neg hzero, Nat.mod_eq_of_lt hpad, hm₁, Option.map_some]
    · have hin : m.data.length + (List.replicate padLen (0 : UInt8)).length ≤ m₁.data.length := by
        apply Nat.le_of_eq
        rw [hdata, List.length_append, hfresh, List.length_replicate]
      rw [Mbuf.store_data hin, hdata]
      have hcover := Bytes.patch_middle (a := m.data) (b := m.tailroom.take padLen) (c := [])
        (show (List.replicate padLen (0 : UInt8)).length = (m.tailroom.take padLen).length by
          rw [hfresh, List.length_replicate])
      simpa only [List.append_nil] using hcover
    · rw [Mbuf.length_store_tailroom, htail, List.length_drop]

/-- Padding that succeeds took what it asked for, modulo the width of the
length argument. -/
theorem CryptoParams.of_appendPadding {padLen : ℕ} (h : appendPadding m padLen = some m') :
    padLen % 2 ^ 16 ≤ m.tailroom.length ∧
      m'.data.length = m.data.length + padLen % 2 ^ 16 ∧
      m'.tailroom.length = m.tailroom.length - padLen % 2 ^ 16 := by
  unfold appendPadding at h
  split at h
  next hzero =>
    obtain rfl := Option.some.inj h
    subst hzero
    exact ⟨Nat.zero_le _, rfl, rfl⟩
  next =>
    obtain ⟨m₁, hm₁, rfl⟩ := Option.map_eq_some_iff.mp h
    obtain ⟨hroom, _, hdata, htail⟩ := Mbuf.of_append hm₁
    refine ⟨hroom, ?_, ?_⟩
    · rw [Mbuf.length_store_data, hdata, List.length_append, List.length_take,
        Nat.min_eq_left hroom]
    · rw [Mbuf.length_store_tailroom, htail, List.length_drop]

/-- The bytes of a packet that a digest occupies: none without a hash. -/
def CryptoParams.tagLength (cp : CryptoParams Key) : ℕ :=
  if cp.chain.doHash then cp.digestLength else 0

/-- A chain with a cipher transform is no AEAD chain. -/
theorem XformChain.doAead_of_doCipher {chain : XformChain} (h : chain.doCipher = true) :
    chain.doAead = false := by
  cases chain <;> simp_all [doCipher, doAead]

/-- The digest that is to be verified is taken off the data length. -/
theorem CryptoParams.sub_digest (hchain : cp.chain.doCipher = true)
    (hverify : cp.chain.doHash = true → cp.hashVerify = true) {n : ℕ}
    (hn : n + cp.tagLength < 2 ^ 32) :
    (if cp.verifies then sub32 (n + cp.tagLength) cp.digestLength else n + cp.tagLength) = n := by
  by_cases hhash : cp.chain.doHash = true
  · have hverifies : cp.verifies = true := by simp [verifies, hhash, hverify hhash]
    have htag : cp.tagLength = cp.digestLength := by rw [tagLength, if_pos hhash]
    rw [if_pos hverifies, ← htag, sub32_eq (by omega) hn]
    omega
  · have hverifies : ¬cp.verifies = true := by
      simp [verifies, hhash, XformChain.doAead_of_doCipher hchain]
    rw [if_neg hverifies, tagLength, if_neg hhash, Nat.add_zero]

section Parts

variable (cp) (rand : UInt64 × UInt64) (pktIv : Bytes) (ipdataOffset dataLen : ℕ) (m) (op)

@[simp] theorem CryptoParams.fillAuth_session :
    (cp.fillAuth ipdataOffset dataLen m op).2.session = op.session := by
  unfold fillAuth
  split <;> rfl

@[simp] theorem CryptoParams.fillCipher_session :
    (cp.fillCipher rand pktIv ipdataOffset dataLen op).session = op.session := by
  unfold fillCipher
  split <;> rfl

@[simp] theorem CryptoParams.fillCipher_authDigest :
    (cp.fillCipher rand pktIv ipdataOffset dataLen op).authDigest = op.authDigest := by
  unfold fillCipher
  split <;> rfl

/-- Without an AEAD transform the AEAD part does nothing. -/
theorem CryptoParams.fillAead_of_doCipher (hchain : cp.chain.doCipher = true) :
    cp.fillAead ipdataOffset dataLen m op = (m, op) := by
  simp [fillAead, XformChain.doAead_of_doCipher hchain]

/-- When digests are generated, the hash part only appends room for one, and
has the device write it there. -/
theorem CryptoParams.fillAuth_generate
    (hgen : cp.verifies = false) (hroom : cp.tagLength ≤ m.tailroom.length) :
    (cp.fillAuth ipdataOffset dataLen m op).1.headroom = m.headroom ∧
      (∃ tag : Bytes, tag.length = cp.tagLength ∧
        (cp.fillAuth ipdataOffset dataLen m op).1.data = m.data ++ tag) ∧
      (cp.fillAuth ipdataOffset dataLen m op).2.authDigest.data =
        if cp.chain.doHash then some m.data.length else op.authDigest.data := by
  by_cases hhash : cp.chain.doHash = true
  · have hverify : cp.hashVerify = false := by
      simpa [verifies, hhash] using hgen
    have htag : cp.tagLength = cp.digestLength := by simp [tagLength, hhash]
    rw [htag] at hroom ⊢
    obtain ⟨m₁, hm₁⟩ := Mbuf.append_isSome hroom
    obtain ⟨_, hhead, hdata, _⟩ := Mbuf.of_append hm₁
    have hresult : (cp.fillAuth ipdataOffset dataLen m op).1 = m₁ := by
      simp [fillAuth, hhash, placeDigest, hverify, hm₁]
    rw [hresult]
    refine ⟨hhead, ⟨_, by rw [List.length_take, Nat.min_eq_left hroom], hdata⟩, ?_⟩
    simp [fillAuth, hhash, placeDigest, hverify, hm₁]
  · have hresult : cp.fillAuth ipdataOffset dataLen m op = (m, op) := by
      simp [fillAuth, hhash]
    rw [hresult]
    refine ⟨rfl, ⟨[], by simp [tagLength, hhash], (List.append_nil _).symm⟩, ?_⟩
    simp [hhash]

/-- Without a hash there is no digest. -/
theorem CryptoParams.fillAuth_authDigest :
    cp.chain.doHash = true ∨
      (cp.fillAuth ipdataOffset dataLen m op).2.authDigest = op.authDigest := by
  by_cases hhash : cp.chain.doHash = true
  · exact Or.inl hhash
  · simp [fillAuth, hhash]

/-- When digests are verified, the hash part leaves the packet as it is. -/
theorem CryptoParams.fillAuth_verify (hverify : cp.chain.doHash = true → cp.hashVerify = true) :
    (cp.fillAuth ipdataOffset dataLen m op).1 = m := by
  by_cases hhash : cp.chain.doHash = true
  · simp [fillAuth, hhash, placeDigest, hverify hhash]
  · simp [fillAuth, hhash]

/-- The range of a cipher operation is what the enqueue function computed. -/
theorem CryptoParams.fillCipher_cipher (hchain : cp.chain.doCipher = true) :
    (cp.fillCipher rand pktIv ipdataOffset dataLen op).cipher =
      range cp.cipherAlgo.inBits ipdataOffset dataLen := by
  simp [fillCipher, hchain]

/-- An encrypt operation uses the generated IV and keeps a copy of it. -/
theorem CryptoParams.fillCipher_encrypt (hchain : cp.chain.doCipher = true)
    (henc : cp.isEncrypt = true) :
    let priv := (cp.fillCipher rand pktIv ipdataOffset dataLen op).priv
    priv.read 0 ivInPacketSize = generatePerPktIv rand ∧
      priv.read savedIvAt ivInPacketSize = generatePerPktIv rand := by
  have hlen := length_generatePerPktIv rand
  have hiv : (op.priv.write 0 (generatePerPktIv rand)).read 0 ivInPacketSize =
      generatePerPktIv rand := Memory.read_write_self hlen
  simp only [fillCipher, hchain, henc, if_true, hiv]
  refine ⟨?_, Memory.read_write_self hlen⟩
  rw [Memory.read_write_of_disjoint (Or.inl (by decide)), hiv]

/-- A decrypt operation uses the IV it is given, up to the configured length. -/
theorem CryptoParams.fillCipher_decrypt (hchain : cp.chain.doCipher = true)
    (hdec : cp.isEncrypt = false) :
    (cp.fillCipher rand pktIv ipdataOffset dataLen op).priv.read 0 cp.cipherIvLength =
      pktIv.readAt 0 cp.cipherIvLength := by
  simp only [fillCipher, hchain, hdec, if_true, Bool.false_eq_true, if_false]
  exact Memory.read_write_self Bytes.length_readAt

end Parts

/-- **Encrypt operations.** A packet of Ethernet header and payload is padded,
gets room for a digest, and is encrypted from the header on with the session of
the given epoch and a fresh IV that is also saved. -/
theorem enqueue_encrypt (rand : UInt64 × UInt64) (pktIv : Bytes) (epoch : UInt8)
    (op : CryptoOp Key) {eth payload : Bytes} (hchain : cp.chain.doCipher = true)
    (henc : cp.isEncrypt = true) (hgen : cp.verifies = false) (hdata : m.data = eth ++ payload)
    (heth : eth.length = etherHdrLen)
    (hroom : cp.padLen payload.length + cp.tagLength ≤ m.tailroom.length) :
    ∃ op' m' tag, l2fwdSimpleCryptoEnqueue cp rand pktIv epoch m op = some op' ∧
      op'.mSrc = some m' ∧ m'.headroom = m.headroom ∧
      m'.data = eth ++ (payload ++ List.replicate (cp.padLen payload.length) 0 ++ tag) ∧
      tag.length = cp.tagLength ∧ op'.session = some (cp.sessionFor epoch) ∧
      op'.cipher = CryptoParams.range cp.cipherAlgo.inBits etherHdrLen
        (payload.length + cp.padLen payload.length) ∧
      op'.authDigest.data = (if cp.chain.doHash then
        some (etherHdrLen + payload.length + cp.padLen payload.length) else op.authDigest.data) ∧
      op'.priv.read 0 ivInPacketSize = generatePerPktIv rand ∧
      op'.priv.read savedIvAt ivInPacketSize = generatePerPktIv rand := by
  have hlen : m.pktLen = etherHdrLen + payload.length := by
    rw [Mbuf.pktLen, hdata, List.length_append, heth]
  have hbound := m.bufLen_lt
  have hpkt : etherHdrLen + payload.length < 2 ^ 16 := hlen ▸ m.length_data_lt
  have hdataLen : cp.cryptoDataLen m = payload.length := by
    simp only [CryptoParams.cryptoDataLen, hgen, Bool.false_eq_true, if_false, hlen]
    rw [sub32_eq (by omega) (by omega)]
    omega
  obtain ⟨m₁, hm₁, hhead₁, hdata₁, htail₁⟩ :=
    CryptoParams.appendPadding_spec (show cp.padLen payload.length ≤ m.tailroom.length by omega)
  have htotal : (payload.length + cp.padLen payload.length) % 2 ^ 32 =
      payload.length + cp.padLen payload.length := Nat.mod_eq_of_lt (by omega)
  let total := payload.length + cp.padLen payload.length
  let opened : CryptoOp Key := { op with session := some (cp.sessionFor epoch) }
  let authed := cp.fillAuth etherHdrLen total m₁ opened
  let filled := cp.fillCipher rand pktIv etherHdrLen total authed.2
  obtain ⟨hhead₂, ⟨tag, htag, hdata₂⟩, hdigest⟩ :=
    cp.fillAuth_generate m₁ opened etherHdrLen total hgen (by omega)
  obtain ⟨hiv, hsaved⟩ :=
    cp.fillCipher_encrypt authed.2 rand pktIv etherHdrLen total hchain henc
  refine ⟨{ filled with mSrc := some authed.1 }, authed.1, tag, ?_, rfl, hhead₂.trans hhead₁, ?_,
    htag, ?_, cp.fillCipher_cipher authed.2 rand pktIv etherHdrLen total hchain, ?_, hiv, hsaved⟩
  · unfold l2fwdSimpleCryptoEnqueue
    rw [if_neg (by omega)]
    simp only [hdataLen, CryptoParams.cryptoPadLen, hchain, if_true, hm₁, htotal,
      cp.fillAead_of_doCipher _ _ _ _ hchain]
    rfl
  · rw [hdata₂, hdata₁, hdata]
    simp only [List.append_assoc]
  · simp only [filled, authed, CryptoParams.fillCipher_session, CryptoParams.fillAuth_session,
      opened]
  · have hplace : m₁.data.length = etherHdrLen + payload.length + cp.padLen payload.length := by
      rw [hdata₁, hdata, List.length_append, List.length_append, List.length_replicate, heth]
    simp only [filled, authed, CryptoParams.fillCipher_authDigest, hdigest, hplace, opened]

/-- **Decrypt operations.** A packet of Ethernet header, whole cipher blocks and
the digest, if there is one, is not touched; its blocks are decrypted from the
header on with the session of the packet's epoch and the packet's IV. -/
theorem enqueue_decrypt (rand : UInt64 × UInt64) (pktIv : Bytes) (epoch : UInt8)
    (op : CryptoOp Key) {eth blocks tag : Bytes} (hchain : cp.chain.doCipher = true)
    (hdec : cp.isEncrypt = false) (hverify : cp.chain.doHash = true → cp.hashVerify = true)
    (hdata : m.data = eth ++ (blocks ++ tag)) (heth : eth.length = etherHdrLen)
    (htag : tag.length = cp.tagLength) (hpad : cp.padLen blocks.length = 0) :
    ∃ op', l2fwdSimpleCryptoEnqueue cp rand pktIv epoch m op = some op' ∧ op'.mSrc = some m ∧
      op'.session = some (cp.sessionFor epoch) ∧
      op'.cipher = CryptoParams.range cp.cipherAlgo.inBits etherHdrLen blocks.length ∧
      (cp.chain.doHash = true ∨ op'.authDigest = op.authDigest) ∧
      op'.priv.read 0 cp.cipherIvLength = pktIv.readAt 0 cp.cipherIvLength := by
  have hlen : m.pktLen = etherHdrLen + (blocks.length + tag.length) := by
    rw [Mbuf.pktLen, hdata, List.length_append, List.length_append, heth]
  have hpkt : etherHdrLen + (blocks.length + tag.length) < 2 ^ 16 := hlen ▸ m.length_data_lt
  have hafter : sub32 m.pktLen etherHdrLen = blocks.length + cp.tagLength := by
    rw [hlen, sub32_eq (by omega) (by omega)]
    omega
  have hdataLen : cp.cryptoDataLen m = blocks.length := by
    simp only [CryptoParams.cryptoDataLen, hafter]
    exact CryptoParams.sub_digest hchain hverify (by omega)
  have htotal : (blocks.length + 0) % 2 ^ 32 = blocks.length := by omega
  let opened : CryptoOp Key := { op with session := some (cp.sessionFor epoch) }
  let authed := cp.fillAuth etherHdrLen blocks.length m opened
  let filled := cp.fillCipher rand pktIv etherHdrLen blocks.length authed.2
  have hsame : authed.1 = m := cp.fillAuth_verify m opened etherHdrLen blocks.length hverify
  refine ⟨{ filled with mSrc := some authed.1 }, ?_, congrArg some hsame, ?_,
    cp.fillCipher_cipher authed.2 rand pktIv etherHdrLen blocks.length hchain, ?_,
    cp.fillCipher_decrypt authed.2 rand pktIv etherHdrLen blocks.length hchain hdec⟩
  · unfold l2fwdSimpleCryptoEnqueue
    rw [if_neg (by omega)]
    simp only [hdataLen, CryptoParams.cryptoPadLen, hchain, if_true, hpad,
      CryptoParams.appendPadding, htotal, cp.fillAead_of_doCipher _ _ _ _ hchain]
    rfl
  · simp only [filled, authed, CryptoParams.fillCipher_session, CryptoParams.fillAuth_session,
      opened]
  · simpa only [filled, CryptoParams.fillCipher_authDigest] using
      cp.fillAuth_authDigest m opened etherHdrLen blocks.length

/-- **All operations.** What reaches the device was long enough, could be padded,
and carries the ranges and digests computed from the padded length. -/
theorem of_enqueue {rand : UInt64 × UInt64} {pktIv : Bytes} {epoch : UInt8}
    (h : l2fwdSimpleCryptoEnqueue cp rand pktIv epoch m op = some op') :
    let dataLen := cp.cryptoDataLen m
    let total := (dataLen + cp.cryptoPadLen dataLen) % 2 ^ 32
    etherHdrLen ≤ m.pktLen ∧
      op'.session = some (cp.sessionFor epoch) ∧
      ∃ m₁, CryptoParams.appendPadding m (cp.cryptoPadLen dataLen) = some m₁ ∧
        op'.mSrc = some (if cp.chain.doHash || cp.chain.doAead then
          (cp.placeDigest etherHdrLen total m₁).1 else m₁) ∧
        (cp.chain.doCipher = true →
          op'.cipher = CryptoParams.range cp.cipherAlgo.inBits etherHdrLen total) ∧
        (cp.chain.doHash = true →
          op'.auth = CryptoParams.range cp.authAlgo.inBits etherHdrLen total ∧
            op'.authDigest = (cp.placeDigest etherHdrLen total m₁).2) ∧
        (cp.chain.doAead = true →
          op'.aead = ⟨etherHdrLen, total⟩ ∧
            op'.aeadDigest = (cp.placeDigest etherHdrLen total m₁).2) := by
  intro dataLen total
  unfold l2fwdSimpleCryptoEnqueue at h
  by_cases hshort : m.pktLen < etherHdrLen
  · simp only [if_pos hshort, reduceCtorEq] at h
  refine ⟨by omega, ?_⟩
  cases hpad : CryptoParams.appendPadding m (cp.cryptoPadLen dataLen) with
  | none => simp only [if_neg hshort, hpad, dataLen, reduceCtorEq] at h
  | some m₁ =>
    simp only [if_neg hshort, hpad, dataLen, Option.some.injEq] at h
    subst h
    refine ⟨?_, m₁, rfl, ?_⟩ <;> cases hchain : cp.chain <;>
      simp [CryptoParams.fillAuth, CryptoParams.fillCipher, CryptoParams.fillAead, hchain,
        XformChain.doCipher, XformChain.doHash, XformChain.doAead, total, dataLen]

/-- A packet with an Ethernet header that can be padded reaches the device. -/
theorem enqueue_isSome (rand : UInt64 × UInt64) (pktIv : Bytes) (epoch : UInt8)
    (op : CryptoOp Key) (hlen : etherHdrLen ≤ m.pktLen)
    (hpad : cp.cryptoPadLen (cp.cryptoDataLen m) % 2 ^ 16 ≤ m.tailroom.length) :
    ∃ op', l2fwdSimpleCryptoEnqueue cp rand pktIv epoch m op = some op' := by
  unfold l2fwdSimpleCryptoEnqueue
  rw [if_neg (by omega)]
  by_cases hzero : cp.cryptoPadLen (cp.cryptoDataLen m) = 0
  · simp [CryptoParams.appendPadding, hzero]
  · obtain ⟨m₁, hm₁⟩ := Mbuf.append_isSome hpad
    have hpadded : CryptoParams.appendPadding m (cp.cryptoPadLen (cp.cryptoDataLen m)) =
        some (m₁.store m.data.length
          (List.replicate (cp.cryptoPadLen (cp.cryptoDataLen m)) 0)) := by
      rw [CryptoParams.appendPadding, if_neg hzero, hm₁, Option.map_some]
    simp only [hpadded]
    exact ⟨_, rfl⟩

end SecureWan
