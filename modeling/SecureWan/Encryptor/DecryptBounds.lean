import SecureWan.Encryptor.Device
import SecureWan.Encryptor.Tunnel

/-!
# Bounds of decrypt operations

Any bytes may arrive on the WAN port. This file says exactly which frames make
an operation whose ranges leave the packet buffer, or a length that runs below
zero: the digest length is subtracted before anything checks that the packet
holds a digest, and the padding is appended whether or not it makes whole blocks.
-/

namespace SecureWan

variable {Key : Type} {cp : CryptoParams Key} {m m₁ : Mbuf} {op op' : CryptoOp Key}

/-- A byte range inside the packet. -/
def DataRange.Inside (r : DataRange) (m : Mbuf) : Prop := r.offset + r.length ≤ m.pktLen

/-- A digest of a given length inside the packet, by address and by bus address. -/
def Digest.Inside (d : Digest) (digestLength : ℕ) (m : Mbuf) : Prop :=
  (∃ pos, d.data = some pos ∧ pos + digestLength ≤ m.pktLen) ∧
    d.physOffset + digestLength ≤ m.pktLen

/-- The authentication range of an operation in bytes. -/
def CryptoParams.authBytes (cp : CryptoParams Key) (op : CryptoOp Key) : DataRange :=
  rangeBytes cp.authAlgo.inBits op.auth

/-- The ranges and digests of an operation lie in its packet, and its cipher
range consists of whole blocks. -/
structure OpInBounds (cp : CryptoParams Key) (op : CryptoOp Key) (m : Mbuf) : Prop where
  cipher : cp.chain.doCipher = true → (cp.cipherBytes op).Inside m
  blocks : cp.chain.doCipher = true → cp.blockSize ∣ (cp.cipherBytes op).length
  auth : cp.chain.doHash = true → (cp.authBytes op).Inside m
  authDigest : cp.chain.doHash = true → op.authDigest.Inside cp.digestLength m
  aead : cp.chain.doAead = true → op.aead.Inside m
  aeadDigest : cp.chain.doAead = true → op.aeadDigest.Inside cp.digestLength m

/-- No length that the enqueue function computes for a packet wraps. -/
structure NoWrap (cp : CryptoParams Key) (m : Mbuf) : Prop where
  header : etherHdrLen ≤ m.pktLen
  digest : cp.verifies = true → cp.digestLength ≤ m.pktLen - etherHdrLen
  padding : cp.cryptoDataLen m + cp.cryptoPadLen (cp.cryptoDataLen m) < 2 ^ 32

/-- The bytes of outer headers and IV in a WAN frame. -/
def wanOverhead : ℕ := etherHdrLen + ipv4HdrLen + udpHdrLen + ivInPacketSize

/-- The receive path hands the frame to the enqueue function: it is neither ARP
nor control, its protocol is UDP, its epoch is known, and it holds an IV. -/
structure WanAccepts (cp : CryptoParams Key) (m : Mbuf) : Prop where
  notArp : m.field16 12 ≠ etherTypeArp
  notControl : m.field16 12 ≠ cbCtrlEtherType
  udp : m.byteAt (etherHdrLen + 9) = ipprotoUdp
  epoch : (csSessionForEpoch cp.cs (m.byteAt (etherHdrLen + 1))).isSome = true
  length : wanOverhead ≤ m.pktLen

/-- The length left for the cipher when a payload ends in the digest to verify. -/
def CryptoParams.coveredLen (cp : CryptoParams Key) (carried : ℕ) : ℕ :=
  carried - if cp.verifies then cp.digestLength else 0

/-- A payload that holds the digest that is to be verified; and where the
tailroom takes the padding, the padding is what its 16-bit length argument says,
makes whole blocks, and leaves room for a digest that is to be generated. -/
structure PayloadFits (cp : CryptoParams Key) (carried tailroom : ℕ) : Prop where
  holdsDigest : cp.verifies = true → cp.digestLength ≤ carried
  padded : cp.cryptoPadLen (cp.coveredLen carried) % 2 ^ 16 ≤ tailroom →
    cp.cryptoPadLen (cp.coveredLen carried) < 2 ^ 16 ∧
      (cp.chain.doCipher = true →
        cp.blockSize ∣ cp.coveredLen carried + cp.cryptoPadLen (cp.coveredLen carried)) ∧
      ((cp.chain.doHash || cp.chain.doAead) = true → cp.hashVerify = false →
        cp.cryptoPadLen (cp.coveredLen carried) + cp.digestLength ≤ tailroom)

section ReceivePath

/-- Stripping works on every frame that holds what is to be stripped. -/
theorem stripKeepingEth_of_le {eth : Bytes} {strip : ℕ} (heth : eth.length = etherHdrLen)
    (hstrip : etherHdrLen ≤ strip) (hlen : strip ≤ m.pktLen) :
    ∃ m', stripKeepingEth m eth strip = some m' := by
  have hfront : (m.data.take strip).length = strip := by
    rw [List.length_take]
    exact Nat.min_eq_left hlen
  obtain ⟨m', hm', _⟩ :=
    stripKeepingEth_isSome (List.take_append_drop strip m.data).symm hfront heth hstrip
  exact ⟨m', hm'⟩

/-- A frame that `tunnel_decap` takes: its protocol, its epoch and its length. -/
theorem of_tunnelDecap {rxEpoch : UInt8} (h : tunnelDecap m = some (m₁, rxEpoch)) :
    m.byteAt (etherHdrLen + 9) = ipprotoUdp ∧ rxEpoch = m.byteAt (etherHdrLen + 1) ∧
      etherHdrLen + ipv4HdrLen + udpHdrLen ≤ m.pktLen ∧
      m₁.pktLen + ipv4HdrLen + udpHdrLen = m.pktLen ∧
      m₁.tailroom.length = m.tailroom.length := by
  unfold tunnelDecap at h
  by_cases hproto : m.byteAt (etherHdrLen + 9) ≠ ipprotoUdp
  · simp only [if_pos hproto, reduceCtorEq] at h
  · rw [if_neg hproto] at h
    cases hstrip : stripKeepingEth m (m.load 0 etherHdrLen)
        (etherHdrLen + ipv4HdrLen + udpHdrLen) with
    | none => simp only [hstrip, reduceCtorEq] at h
    | some m₂ =>
      simp only [hstrip, Option.some.injEq, Prod.mk.injEq] at h
      obtain ⟨rfl, hepoch⟩ := h
      obtain ⟨hle, hlen, htail⟩ := of_stripKeepingEth hstrip
      refine ⟨not_not.mp hproto, hepoch.symm, hle, ?_, htail⟩
      unfold Mbuf.pktLen
      omega

/-- What the receive path hands on was accepted, and lost exactly the outer
headers and the IV. -/
theorem of_wanRx_decrypt {pktIv : Bytes} {rxEpoch : UInt8}
    (h : wanRx cp m = .decrypt pktIv rxEpoch m₁) :
    WanAccepts cp m ∧ m₁.pktLen = etherHdrLen + (m.pktLen - wanOverhead) ∧
      m₁.tailroom.length = m.tailroom.length := by
  unfold wanRx at h
  by_cases harp : m.field16 12 = etherTypeArp
  · simp only [if_pos harp, reduceCtorEq] at h
  by_cases hcontrol : etherHdrLen ≤ m.pktLen ∧ m.field16 12 = cbCtrlEtherType
  · simp only [if_neg harp, if_pos hcontrol, reduceCtorEq] at h
  rw [if_neg harp, if_neg hcontrol] at h
  cases hdecap : tunnelDecap m with
  | none => simp only [hdecap, reduceCtorEq] at h
  | some decapped =>
    obtain ⟨m₂, epoch⟩ := decapped
    obtain ⟨hudp, hepoch, hle₂, hlen₂, htail₂⟩ := of_tunnelDecap hdecap
    simp only [hdecap] at h
    by_cases hunknown : (csSessionForEpoch cp.cs epoch).isNone = true ∧ cp.cs.epochCur ≠ epoch
    · simp only [if_pos hunknown, reduceCtorEq] at h
    rw [if_neg hunknown] at h
    cases hstrip : stripKeepingEth m₂ (m₂.load 0 etherHdrLen) (etherHdrLen + ivInPacketSize) with
    | none => simp only [hstrip, reduceCtorEq] at h
    | some m₃ =>
      simp only [hstrip, WanRx.decrypt.injEq] at h
      obtain ⟨_, _, rfl⟩ := h
      obtain ⟨hle₃, hlen₃, htail₃⟩ := of_stripKeepingEth hstrip
      have hover : wanOverhead ≤ m.pktLen := by
        unfold Mbuf.pktLen at *
        unfold wanOverhead
        omega
      refine ⟨⟨harp, fun htype => hcontrol ⟨by omega, htype⟩, hudp, ?_, hover⟩, ?_,
        htail₃.trans htail₂⟩
      · rw [← hepoch]
        by_contra hnone
        have hisNone : (csSessionForEpoch cp.cs epoch).isNone = true := by
          simpa using hnone
        refine hunknown ⟨hisNone, fun hcur => ?_⟩
        rw [← hcur, csSessionForEpoch_epochCur] at hisNone
        exact absurd hisNone (by simp)
      · unfold Mbuf.pktLen at *
        unfold wanOverhead at *
        omega

/-- Every accepted frame is handed on. -/
theorem wanRx_of_accepts (h : WanAccepts cp m) :
    ∃ pktIv rxEpoch m₁, wanRx cp m = .decrypt pktIv rxEpoch m₁ := by
  have hlength := h.length
  unfold wanOverhead at hlength
  have heth (m : Mbuf) : (m.load 0 etherHdrLen).length = etherHdrLen := Bytes.length_readAt
  have hle₂ : etherHdrLen + ipv4HdrLen + udpHdrLen ≤ m.pktLen := by omega
  obtain ⟨m₂, hm₂⟩ := stripKeepingEth_of_le (heth m) (by decide) hle₂
  obtain ⟨_, hlen₂, _⟩ := of_stripKeepingEth hm₂
  have hle₃ : etherHdrLen + ivInPacketSize ≤ m₂.pktLen := by
    unfold Mbuf.pktLen at *
    omega
  obtain ⟨m₃, hm₃⟩ := stripKeepingEth_of_le (heth m₂) (by decide) hle₃
  have hdecap : tunnelDecap m = some (m₂, m.byteAt (etherHdrLen + 1)) := by
    simp only [tunnelDecap, h.udp, ne_eq, not_true_eq_false, if_false, hm₂]
  have hcontrol : ¬(etherHdrLen ≤ m.pktLen ∧ m.field16 12 = cbCtrlEtherType) :=
    fun hcontrol => h.notControl hcontrol.2
  have hknown : ¬((csSessionForEpoch cp.cs (m.byteAt (etherHdrLen + 1))).isNone = true ∧
      cp.cs.epochCur ≠ m.byteAt (etherHdrLen + 1)) := by
    rintro ⟨hnone, _⟩
    rw [Option.isNone_iff_eq_none] at hnone
    simpa [hnone] using h.epoch
  refine ⟨m₂.load etherHdrLen ivInPacketSize, m.byteAt (etherHdrLen + 1), m₃, ?_⟩
  simp only [wanRx, if_neg h.notArp, if_neg hcontrol, hdecap, if_neg hknown, hm₃]

end ReceivePath

section Enqueue

/-- A padded length stays far below the width of the length fields. -/
theorem add_padTo_lt {unit dataLen : ℕ} (hunit : unit < 2 ^ 32) (hdata : dataLen < 2 ^ 16) :
    dataLen + padTo unit dataLen < 2 ^ 32 := by
  unfold padTo
  split
  next =>
    rcases Nat.lt_or_ge dataLen unit with hlt | hge
    · rw [Nat.mod_eq_of_lt hlt]
      omega
    · omega
  next => omega

theorem add_cryptoPadLen_lt (cp : CryptoParams Key) {dataLen : ℕ} (hdata : dataLen < 2 ^ 16) :
    dataLen + cp.cryptoPadLen dataLen < 2 ^ 32 := by
  have hblock := cp.blockSize_lt
  have hunit := cp.cipherDataunitLen_lt
  have hplain : dataLen + 0 < 2 ^ 32 := by omega
  unfold CryptoParams.cryptoPadLen CryptoParams.padLen
  split
  · cases cp.cipherAlgo with
    | aesXts =>
      dsimp only
      split
      · exact add_padTo_lt hunit hdata
      · exact hplain
    | aesCbc | aesEcb | desCbc | tripleDesCbc | tripleDesEcb =>
      exact add_padTo_lt (by omega) hdata
    | _ => exact hplain
  · exact hplain

/-- Ciphers with ranges in bits are not padded. -/
theorem cryptoPadLen_of_inBits (cp : CryptoParams Key) (h : cp.cipherAlgo.inBits = true)
    (dataLen : ℕ) : cp.cryptoPadLen dataLen = 0 := by
  unfold CryptoParams.cryptoPadLen CryptoParams.padLen
  cases halgo : cp.cipherAlgo <;> simp_all [CipherAlgo.inBits]

variable {carried : ℕ}

/-- Without a wrap, the data length is what is left of the payload. -/
theorem cryptoDataLen_eq (hlen : m.pktLen = etherHdrLen + carried)
    (hdigest : cp.verifies = true → cp.digestLength ≤ carried) :
    cp.cryptoDataLen m = cp.coveredLen carried := by
  have hbound : m.pktLen < 2 ^ 16 := m.length_data_lt
  have hpayload : sub32 m.pktLen etherHdrLen = carried := by
    rw [hlen, sub32_eq (by omega) (by omega), Nat.add_sub_cancel_left]
  unfold CryptoParams.cryptoDataLen CryptoParams.coveredLen
  rw [hpayload]
  by_cases hverifies : cp.verifies = true
  · rw [if_pos hverifies, if_pos hverifies, sub32_eq (hdigest hverifies) (by omega)]
  · rw [if_neg hverifies, if_neg hverifies, Nat.sub_zero]

/-- Without a wrap, the data and the digest to verify make up the payload. -/
theorem coveredLen_add (hdigest : cp.verifies = true → cp.digestLength ≤ carried) :
    cp.coveredLen carried + (if cp.verifies then cp.digestLength else 0) = carried := by
  unfold CryptoParams.coveredLen
  by_cases hverifies : cp.verifies = true
  · have := hdigest hverifies
    simp only [if_pos hverifies]
    omega
  · simp only [if_neg hverifies]
    omega

/-- What the enqueue function does with a packet whose lengths do not wrap: the
padded packet, the padded length, and the fields of the operation. -/
private theorem of_enqueue_noWrap {rand : UInt64 × UInt64} {pktIv : Bytes} {epoch : UInt8}
    (hlen : m.pktLen = etherHdrLen + carried)
    (hdigest : cp.verifies = true → cp.digestLength ≤ carried)
    (h : l2fwdSimpleCryptoEnqueue cp rand pktIv epoch m op = some op') :
    let pad := cp.cryptoPadLen (cp.coveredLen carried)
    let total := cp.coveredLen carried + pad
    ∃ m₁, m₁.pktLen = etherHdrLen + carried + pad % 2 ^ 16 ∧ pad % 2 ^ 16 ≤ m.tailroom.length ∧
      m₁.tailroom.length = m.tailroom.length - pad % 2 ^ 16 ∧
      op'.mSrc = some (if cp.chain.doHash || cp.chain.doAead then
        (cp.placeDigest etherHdrLen total m₁).1 else m₁) ∧
      (cp.chain.doCipher = true → cp.cipherBytes op' = ⟨etherHdrLen, total⟩) ∧
      (cp.chain.doHash = true →
        op'.auth = CryptoParams.range cp.authAlgo.inBits etherHdrLen total ∧
          op'.authDigest = (cp.placeDigest etherHdrLen total m₁).2) ∧
      (cp.chain.doAead = true →
        op'.aead = ⟨etherHdrLen, total⟩ ∧
          op'.aeadDigest = (cp.placeDigest etherHdrLen total m₁).2) := by
  intro pad total
  have hbound : m.pktLen < 2 ^ 16 := m.length_data_lt
  have hcovered := coveredLen_add hdigest
  have htotal : total < 2 ^ 32 := add_cryptoPadLen_lt cp (by omega)
  obtain ⟨_, _, m₁, hm₁, hsrc, hcipher, hauth, haead⟩ := of_enqueue h
  rw [cryptoDataLen_eq hlen hdigest] at hm₁
  rw [cryptoDataLen_eq hlen hdigest, Nat.mod_eq_of_lt htotal] at hsrc hcipher hauth haead
  obtain ⟨hroom, hdata₁, htail₁⟩ := CryptoParams.of_appendPadding hm₁
  refine ⟨m₁, ?_, hroom, htail₁, hsrc, fun hchain => ?_, hauth, haead⟩
  · rw [Mbuf.pktLen, hdata₁, ← hlen, Mbuf.pktLen]
  · rw [CryptoParams.cipherBytes, hcipher hchain, CryptoParams.rangeBytes_range]
    intro hbits
    have hpad : pad = 0 := cryptoPadLen_of_inBits cp hbits _
    exact ⟨by decide, by omega⟩

/-- The digest part keeps the packet or makes it longer by the digest. -/
private theorem placeDigest_pktLen (ipdataOffset dataLen : ℕ) :
    (cp.placeDigest ipdataOffset dataLen m).1.pktLen ≤
      m.pktLen + (if cp.hashVerify then 0 else cp.digestLength) := by
  cases hverify : cp.hashVerify with
  | true => simp [CryptoParams.placeDigest_verify ipdataOffset dataLen hverify]
  | false =>
    rcases Nat.lt_or_ge m.tailroom.length cp.digestLength with hfull | hroom
    · simp [CryptoParams.placeDigest_full ipdataOffset dataLen hverify hfull]
    · obtain ⟨m', hm', hlen'⟩ :=
        CryptoParams.placeDigest_generate ipdataOffset dataLen hverify hroom
      simp [hm', hlen']

/-- The digest part never makes the packet shorter. -/
private theorem le_placeDigest_pktLen (ipdataOffset dataLen : ℕ) :
    m.pktLen ≤ (cp.placeDigest ipdataOffset dataLen m).1.pktLen := by
  cases hverify : cp.hashVerify with
  | true => simp [CryptoParams.placeDigest_verify ipdataOffset dataLen hverify]
  | false =>
    rcases Nat.lt_or_ge m.tailroom.length cp.digestLength with hfull | hroom
    · simp [CryptoParams.placeDigest_full ipdataOffset dataLen hverify hfull]
    · obtain ⟨m', hm', hlen'⟩ :=
        CryptoParams.placeDigest_generate ipdataOffset dataLen hverify hroom
      simp [hm', hlen']

/-- A digest the device can reach needs room when it is to be generated. -/
private theorem room_of_inside {ipdataOffset dataLen : ℕ} (hgen : cp.hashVerify = false)
    (hinside : (cp.placeDigest ipdataOffset dataLen m).2.Inside cp.digestLength m₁) :
    cp.digestLength ≤ m.tailroom.length := by
  by_contra hfull
  rw [CryptoParams.placeDigest_full ipdataOffset dataLen hgen (by omega)] at hinside
  obtain ⟨⟨pos, hpos, _⟩, _⟩ := hinside
  exact absurd hpos (by simp)

/-- A digest behind the data is inside a packet that ends with it, or that has
room for it. -/
private theorem placeDigest_inside {dataLen : ℕ} (hbound : m.pktLen < 2 ^ 16)
    (hverify : cp.hashVerify = true → etherHdrLen + dataLen + cp.digestLength ≤ m.pktLen)
    (hgen : cp.hashVerify = false → cp.digestLength ≤ m.tailroom.length) :
    (cp.placeDigest etherHdrLen dataLen m).2.Inside cp.digestLength
      (cp.placeDigest etherHdrLen dataLen m).1 := by
  have hdigest := cp.digestLength_lt
  cases hflag : cp.hashVerify with
  | true =>
    have hfits := hverify hflag
    rw [CryptoParams.placeDigest_verify etherHdrLen dataLen hflag]
    refine ⟨⟨_, rfl, hfits⟩, ?_⟩
    dsimp only
    rw [sub32_eq (by omega) (by omega)]
    omega
  | false =>
    obtain ⟨m', hm', hlen'⟩ :=
      CryptoParams.placeDigest_generate etherHdrLen dataLen hflag (hgen hflag)
    rw [hm']
    refine ⟨⟨_, rfl, Nat.le_of_eq hlen'.symm⟩, ?_⟩
    dsimp only
    rw [sub32_eq (by omega) (by omega)]
    omega

/-- The packet of an operation holds the data, one digest at most, and the padding
as far as it was appended. -/
private theorem pktLen_le (pad : ℕ) {padded : ℕ}
    (hdigest : cp.verifies = true → cp.digestLength ≤ carried)
    (hlen : m.pktLen = etherHdrLen + carried + padded) (ipdataOffset dataLen : ℕ) :
    (if cp.chain.doHash || cp.chain.doAead then
      (cp.placeDigest ipdataOffset dataLen m).1 else m).pktLen + pad ≤
      etherHdrLen + (cp.coveredLen carried + pad) + cp.digestLength + padded := by
  have hcovered := coveredLen_add hdigest
  have hplaced : (cp.placeDigest ipdataOffset dataLen m).1.pktLen ≤
      m.pktLen + (if cp.hashVerify then 0 else cp.digestLength) :=
    placeDigest_pktLen ipdataOffset dataLen
  cases hchain : (cp.chain.doHash || cp.chain.doAead) <;> cases hverify : cp.hashVerify <;>
    simp only [CryptoParams.verifies, hchain, hverify, Bool.and_true, Bool.and_false,
      Bool.false_eq_true, if_true, if_false] at hcovered hplaced ⊢ <;> omega

/-- Padding that lies inside the packet was not cut off by the length argument. -/
private theorem pad_lt_of_inside {pad : ℕ}
    (hdigest : cp.verifies = true → cp.digestLength ≤ carried)
    (hlen : m.pktLen = etherHdrLen + carried + pad % 2 ^ 16)
    (hinside : etherHdrLen + (cp.coveredLen carried + pad) ≤
      (if cp.chain.doHash || cp.chain.doAead then
        (cp.placeDigest etherHdrLen (cp.coveredLen carried + pad) m).1 else m).pktLen) :
    pad < 2 ^ 16 := by
  have hdigestLt := cp.digestLength_lt
  have hle := pktLen_le pad hdigest hlen etherHdrLen (cp.coveredLen carried + pad)
  have hstep : pad ≤ cp.digestLength + pad % 2 ^ 16 := by omega
  omega

/-- **Necessity.** An operation in bounds had room for its padding and its digest. -/
private theorem padded_of_opInBounds {rand : UInt64 × UInt64} {pktIv : Bytes} {epoch : UInt8}
    (hlen : m.pktLen = etherHdrLen + carried)
    (hdigest : cp.verifies = true → cp.digestLength ≤ carried)
    (hop : l2fwdSimpleCryptoEnqueue cp rand pktIv epoch m op = some op')
    (hbounds : ∃ m₁, op'.mSrc = some m₁ ∧ OpInBounds cp op' m₁) :
    let pad := cp.cryptoPadLen (cp.coveredLen carried)
    pad < 2 ^ 16 ∧
      (cp.chain.doCipher = true → cp.blockSize ∣ cp.coveredLen carried + pad) ∧
      ((cp.chain.doHash || cp.chain.doAead) = true → cp.hashVerify = false →
        pad + cp.digestLength ≤ m.tailroom.length) := by
  intro pad
  obtain ⟨m₂, hm₂, hin⟩ := hbounds
  obtain ⟨m₁, hlen₁, hroom₁, htail₁, hsrc, hcipher, hauth, haead⟩ :=
    of_enqueue_noWrap hlen hdigest hop
  obtain rfl := Option.some.inj (hm₂.symm.trans hsrc)
  have hpad : pad < 2 ^ 16 := by
    by_cases hchain : cp.chain.doCipher = true
    · have hinside := hin.cipher hchain
      rw [hcipher hchain] at hinside
      exact pad_lt_of_inside hdigest hlen₁ hinside
    · have hzero : pad = 0 := if_neg hchain
      omega
  refine ⟨hpad, fun hchain => ?_, fun hchain hgen => ?_⟩
  · have hblocks := hin.blocks hchain
    rwa [hcipher hchain] at hblocks
  · have hroom₂ : cp.digestLength ≤ m₁.tailroom.length := by
      rcases Bool.or_eq_true_iff.mp hchain with hhash | haeadChain
      · have hinside := hin.authDigest hhash
        rw [(hauth hhash).2] at hinside
        exact room_of_inside hgen hinside
      · have hinside := hin.aeadDigest haeadChain
        rw [(haead haeadChain).2] at hinside
        exact room_of_inside hgen hinside
    change pad % 2 ^ 16 ≤ _ at hroom₁
    change _ = _ - pad % 2 ^ 16 at htail₁
    omega

/-- **Sufficiency.** When the payload fits, the operation is in bounds. -/
private theorem opInBounds_of_payloadFits {rand : UInt64 × UInt64} {pktIv : Bytes} {epoch : UInt8}
    (hlen : m.pktLen = etherHdrLen + carried) (hfits : PayloadFits cp carried m.tailroom.length)
    (hop : l2fwdSimpleCryptoEnqueue cp rand pktIv epoch m op = some op') :
    ∃ m₁, op'.mSrc = some m₁ ∧ OpInBounds cp op' m₁ := by
  have hcovered := coveredLen_add hfits.holdsDigest
  obtain ⟨m₁, hlen₁, hroom₁, htail₁, hsrc, hcipher, hauth, haead⟩ :=
    of_enqueue_noWrap hlen hfits.holdsDigest hop
  obtain ⟨hpad, hblocks, hgenRoom⟩ := hfits.padded hroom₁
  let pad := cp.cryptoPadLen (cp.coveredLen carried)
  let total := cp.coveredLen carried + pad
  rw [Nat.mod_eq_of_lt hpad] at hlen₁ hroom₁ htail₁
  have hbound₁ : m₁.pktLen < 2 ^ 16 := m₁.length_data_lt
  let out := if cp.chain.doHash || cp.chain.doAead then
    (cp.placeDigest etherHdrLen total m₁).1 else m₁
  have htotal : etherHdrLen + total ≤ m₁.pktLen := by
    change _ + (_ + pad) ≤ _
    change _ = _ + pad at hlen₁
    omega
  have hgrow : m₁.pktLen ≤ out.pktLen := by
    by_cases hchain : (cp.chain.doHash || cp.chain.doAead) = true
    · simp only [out, if_pos hchain]
      exact le_placeDigest_pktLen etherHdrLen total
    · simp only [out, if_neg hchain]
      exact Nat.le_refl _
  have hdigestIn (hchain : (cp.chain.doHash || cp.chain.doAead) = true) :
      (cp.placeDigest etherHdrLen total m₁).2.Inside cp.digestLength out := by
    simp only [out, if_pos hchain]
    refine placeDigest_inside hbound₁ (fun hverify => ?_) (fun hgen => ?_)
    · have hverifies : cp.verifies = true := by
        simp only [CryptoParams.verifies, hchain, hverify, Bool.and_true]
      rw [if_pos hverifies] at hcovered
      change _ = _ + pad at hlen₁
      omega
    · have hroom := hgenRoom hchain hgen
      change pad + _ ≤ _ at hroom
      change _ = _ - pad at htail₁
      omega
  refine ⟨out, hsrc, ⟨fun hchain => ?_, fun hchain => ?_, fun hchain => ?_, fun hchain => ?_,
    fun hchain => ?_, fun hchain => ?_⟩⟩
  · rw [hcipher hchain]
    exact Nat.le_trans htotal hgrow
  · rw [hcipher hchain]
    exact hblocks hchain
  · rw [CryptoParams.authBytes, (hauth hchain).1, CryptoParams.rangeBytes_range]
    · exact Nat.le_trans htotal hgrow
    · exact fun _ => ⟨by decide, by omega⟩
  · rw [(hauth hchain).2]
    exact hdigestIn (by rw [hchain]; rfl)
  · rw [(haead hchain).1]
    exact Nat.le_trans htotal hgrow
  · rw [(haead hchain).2]
    exact hdigestIn (by rw [hchain, Bool.or_true])

/-- **One packet.** The enqueue function keeps its lengths from wrapping and its
operation inside the packet exactly when the payload fits. -/
theorem enqueue_bounds_iff (rand : UInt64 × UInt64) (pktIv : Bytes) (epoch : UInt8)
    (op : CryptoOp Key) (hlen : m.pktLen = etherHdrLen + carried) :
    (NoWrap cp m ∧ ∀ op', l2fwdSimpleCryptoEnqueue cp rand pktIv epoch m op = some op' →
        ∃ m₁, op'.mSrc = some m₁ ∧ OpInBounds cp op' m₁) ↔
      PayloadFits cp carried m.tailroom.length := by
  have hbound : m.pktLen < 2 ^ 16 := m.length_data_lt
  constructor
  · rintro ⟨hwrap, hbounds⟩
    have hdigest : cp.verifies = true → cp.digestLength ≤ carried := by
      intro hverifies
      have := hwrap.digest hverifies
      omega
    refine ⟨hdigest, fun hroom => ?_⟩
    rw [← cryptoDataLen_eq hlen hdigest] at hroom
    obtain ⟨op', hop'⟩ := enqueue_isSome rand pktIv epoch op hwrap.header hroom
    exact padded_of_opInBounds hlen hdigest hop' (hbounds op' hop')
  · intro hfits
    have hcovered := coveredLen_add hfits.holdsDigest
    have hdataLen := cryptoDataLen_eq hlen hfits.holdsDigest
    refine ⟨⟨by omega, fun hverifies => ?_, ?_⟩, fun op' hop' =>
      opInBounds_of_payloadFits hlen hfits hop'⟩
    · have := hfits.holdsDigest hverifies
      omega
    · rw [hdataLen]
      exact add_cryptoPadLen_lt cp (by omega)

end Enqueue

/-- **Every frame.** For any bytes on the WAN port, no length wraps and whatever
reaches the device stays inside its packet, exactly when an accepted frame holds
its digest and takes its padding. -/
theorem decrypt_bounds_iff (cp : CryptoParams Key) (rand : UInt64 × UInt64) (op : CryptoOp Key)
    (m : Mbuf) :
    (∀ pktIv rxEpoch m₁, wanRx cp m = .decrypt pktIv rxEpoch m₁ →
      NoWrap cp m₁ ∧ ∀ op', l2fwdSimpleCryptoEnqueue cp rand pktIv rxEpoch m₁ op = some op' →
        ∃ m₂, op'.mSrc = some m₂ ∧ OpInBounds cp op' m₂) ↔
      (WanAccepts cp m → PayloadFits cp (m.pktLen - wanOverhead) m.tailroom.length) := by
  constructor
  · intro h haccepts
    obtain ⟨pktIv, rxEpoch, m₁, hm₁⟩ := wanRx_of_accepts haccepts
    obtain ⟨_, hlen, htail⟩ := of_wanRx_decrypt hm₁
    rw [← htail]
    exact (enqueue_bounds_iff rand pktIv rxEpoch op hlen).mp (h pktIv rxEpoch m₁ hm₁)
  · intro h pktIv rxEpoch m₁ hm₁
    obtain ⟨haccepts, hlen, htail⟩ := of_wanRx_decrypt hm₁
    have hfits := h haccepts
    rw [← htail] at hfits
    exact (enqueue_bounds_iff rand pktIv rxEpoch op hlen).mpr hfits

/-- A decrypting box that verifies digests of 20 bytes. -/
def verifyingBox : CryptoParams Bytes :=
  { aesCbcBox false with
    chain := .cipherHash
    digestLength := 20
    hashVerify := true
    digestLength_lt := by decide }

/-- A tunnel frame of minimum Ethernet size: two bytes follow the IV. -/
def shortFrame : Mbuf where
  headroom := List.replicate 128 0
  data := List.replicate 12 0 ++ be16 etherTypeIpv4 ++ List.replicate 9 0 ++ [17] ++
    List.replicate 36 0
  tailroom := List.replicate 64 0
  bufLen_lt := by simp

/-- The frame of minimum size is accepted, and its data length runs below zero. -/
theorem shortFrame_wraps :
    ¬∀ pktIv rxEpoch m₁, wanRx verifyingBox shortFrame = .decrypt pktIv rxEpoch m₁ →
      NoWrap verifyingBox m₁ ∧
        ∀ op', l2fwdSimpleCryptoEnqueue verifyingBox (0, 0) pktIv rxEpoch m₁
            (CryptoOp.alloc fun _ => 0) = some op' →
          ∃ m₂, op'.mSrc = some m₂ ∧ OpInBounds verifyingBox op' m₂ := by
  intro h
  have haccepts : WanAccepts verifyingBox shortFrame :=
    ⟨by decide, by decide, by decide, by decide, by decide⟩
  obtain ⟨pktIv, rxEpoch, m₁, hm₁⟩ := wanRx_of_accepts haccepts
  obtain ⟨_, hlen, _⟩ := of_wanRx_decrypt hm₁
  have hdigest : verifyingBox.digestLength ≤ m₁.pktLen - etherHdrLen :=
    (h pktIv rxEpoch m₁ hm₁).1.digest rfl
  rw [hlen] at hdigest
  exact absurd hdigest (by decide)

end SecureWan
