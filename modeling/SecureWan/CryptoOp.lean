import SecureWan.Lib.Memory
import SecureWan.Lib.TwoSlot
import SecureWan.Mbuf

/-!
# Crypto operations of the encryptor

The per-device parameters, the symmetric crypto operation and the parts of
`l2fwd_simple_crypto_enqueue` that the tunnel and the transport program share:
block padding, digest placement and the data ranges. Unsigned 32-bit lengths
are naturals with an explicit wrap, so that a length that runs below zero shows
as the huge value the device is given.
-/

namespace SecureWan

/-- Unsigned 32-bit subtraction; both operands fit 32 bits. -/
def sub32 (a b : ℕ) : ℕ := (a + (2 ^ 32 - b)) % 2 ^ 32

/-- A difference that does not run below zero is the ordinary one. -/
theorem sub32_eq {a b : ℕ} (h : b ≤ a) (ha : a < 2 ^ 32) : sub32 a b = a - b := by
  unfold sub32
  omega

/-- A difference that runs below zero is a large length. -/
theorem sub32_of_lt {a b : ℕ} (h : a < b) (hb : b < 2 ^ 32) : sub32 a b = a + 2 ^ 32 - b := by
  unfold sub32
  omega

/-- The bytes missing to the next multiple of a unit. -/
def padTo (unit dataLen : ℕ) : ℕ := if dataLen % unit ≠ 0 then unit - dataLen % unit else 0

/-- With its padding, a length is a multiple of the unit. -/
theorem dvd_add_padTo {unit : ℕ} (hunit : 0 < unit) (dataLen : ℕ) :
    unit ∣ dataLen + padTo unit dataLen := by
  have hsplit := Nat.div_add_mod dataLen unit
  unfold padTo
  split
  next =>
    have hlt := Nat.mod_lt dataLen hunit
    have hsum : dataLen + (unit - dataLen % unit) = unit * (dataLen / unit + 1) := by
      rw [Nat.mul_add, Nat.mul_one]
      omega
    exact hsum ▸ Nat.dvd_mul_right _ _
  next h =>
    exact Nat.dvd_of_mod_eq_zero (not_not.mp h)

/-- A multiple of the unit needs no padding. -/
theorem padTo_eq_zero {unit dataLen : ℕ} (h : unit ∣ dataLen) : padTo unit dataLen = 0 :=
  if_neg (not_not.mpr (Nat.mod_eq_zero_of_dvd h))

/-- Padding a length makes it one that needs no padding. -/
theorem padTo_add_padTo (unit dataLen : ℕ) : padTo unit (dataLen + padTo unit dataLen) = 0 := by
  rcases Nat.eq_zero_or_pos unit with hzero | hpos
  · subst hzero
    simp [padTo]
  · exact padTo_eq_zero (dvd_add_padTo hpos dataLen)

/-- A device session, built for a key and filed under the epoch of that key. -/
structure Session (Key : Type) where
  /-- The epoch byte the key was installed with. -/
  epoch : UInt8
  /-- The key the session encrypts and decrypts with. -/
  key : Key
  deriving DecidableEq

/-- `struct cs_port`: the current session and the previous one. -/
abbrev CsPort (Key : Type) := TwoSlot (Session Key)

section SessionTable

variable {Key : Type}

/-- The field `epoch_cur`. -/
def CsPort.epochCur (cs : CsPort Key) : UInt8 := cs.cur.epoch

/-- `cs_rotate`: the current session becomes the previous one. -/
def csRotate (cs : CsPort Key) (key : Key) (epoch : UInt8) : CsPort Key := cs.rotate ⟨epoch, key⟩

/-- `cs_session_for_epoch`: the current session first, then the previous one. -/
def csSessionForEpoch (cs : CsPort Key) (epoch : UInt8) : Option (Session Key) :=
  cs.lookup Session.epoch epoch

@[simp] theorem csSessionForEpoch_epochCur (cs : CsPort Key) :
    csSessionForEpoch cs cs.epochCur = some cs.cur := cs.lookup_cur Session.epoch

@[simp] theorem csRotate_cur (cs : CsPort Key) (key : Key) (epoch : UInt8) :
    (csRotate cs key epoch).cur = ⟨epoch, key⟩ := rfl

end SessionTable

/-- `enum l2fwd_crypto_xform_chain`. -/
inductive XformChain where
  | cipherHash | hashCipher | cipherOnly | hashOnly | aead
  deriving DecidableEq

/-- The flag `do_cipher` that `l2fwd_main_loop` sets for a chain. -/
def XformChain.doCipher : XformChain → Bool
  | .cipherHash | .hashCipher | .cipherOnly => true
  | .hashOnly | .aead => false

/-- The flag `do_hash` that `l2fwd_main_loop` sets for a chain. -/
def XformChain.doHash : XformChain → Bool
  | .cipherHash | .hashCipher | .hashOnly => true
  | .cipherOnly | .aead => false

/-- The flag `do_aead` that `l2fwd_main_loop` sets for a chain. -/
def XformChain.doAead : XformChain → Bool
  | .aead => true
  | _ => false

/-- The cipher algorithms the enqueue code tells apart. -/
inductive CipherAlgo where
  | aesCbc | aesEcb | desCbc | tripleDesCbc | tripleDesEcb | aesXts
  | snow3gUea2 | kasumiF8 | zucEea3 | other
  deriving DecidableEq

/-- Ciphers whose offsets and lengths are given to the device in bits. -/
def CipherAlgo.inBits : CipherAlgo → Bool
  | .snow3gUea2 | .kasumiF8 | .zucEea3 => true
  | _ => false

/-- The authentication algorithms the enqueue code tells apart. -/
inductive AuthAlgo where
  | snow3gUia2 | kasumiF9 | zucEia3 | other
  deriving DecidableEq

/-- Authentication algorithms whose ranges are given to the device in bits. -/
def AuthAlgo.inBits : AuthAlgo → Bool
  | .snow3gUia2 | .kasumiF9 | .zucEia3 => true
  | .other => false

/-- The AEAD algorithms the enqueue code tells apart. -/
inductive AeadAlgo where
  | aesCcm | other
  deriving DecidableEq

/-- `struct l2fwd_crypto_params`: what one lcore knows about one device. -/
structure CryptoParams (Key : Type) where
  /-- The chain whose flags `do_cipher`, `do_hash` and `do_aead` are derived from. -/
  chain : XformChain
  digestLength : ℕ
  blockSize : ℕ
  cipherDataunitLen : ℕ
  /-- `cipher_iv.length`; the IV bytes themselves are fresh for every packet. -/
  cipherIvLength : ℕ
  authIv : Bytes
  aeadIv : Bytes
  aad : Bytes
  /-- The per-epoch session table. -/
  cs : CsPort Key
  /-- The session used when the table has none for an epoch. -/
  session : Session Key
  hashVerify : Bool
  isEncrypt : Bool
  cipherAlgo : CipherAlgo
  authAlgo : AuthAlgo
  aeadAlgo : AeadAlgo
  /-- The digest length comes from a 16-bit field of the transform. -/
  digestLength_lt : digestLength < 2 ^ 16
  /-- The block size comes from a 16-bit field of the options. -/
  blockSize_lt : blockSize < 2 ^ 16
  /-- The data unit length is a 32-bit field. -/
  cipherDataunitLen_lt : cipherDataunitLen < 2 ^ 32

/-- A data range of an operation, in the unit of its algorithm. -/
structure DataRange where
  offset : ℕ
  length : ℕ
  deriving DecidableEq

/-- Where an operation's digest is: the address as an offset from `mtod`, or
`none` for a null pointer, and the offset its bus address is computed from. -/
structure Digest where
  data : Option ℕ
  physOffset : ℕ
  deriving DecidableEq

/-- `struct rte_crypto_op` with its symmetric part. -/
structure CryptoOp (Key : Type) where
  /-- The memory of the operation from `IV_OFFSET` on. -/
  priv : Memory
  session : Option (Session Key)
  cipher : DataRange
  auth : DataRange
  authDigest : Digest
  aead : DataRange
  aeadDigest : Digest
  aeadAad : Option Bytes
  mSrc : Option Mbuf

/-- An operation as `rte_crypto_op_bulk_alloc` hands it out, over stale private memory. -/
def CryptoOp.alloc {Key : Type} (priv : Memory) : CryptoOp Key where
  priv := priv
  session := none
  cipher := ⟨0, 0⟩
  auth := ⟨0, 0⟩
  authDigest := ⟨none, 0⟩
  aead := ⟨0, 0⟩
  aeadDigest := ⟨none, 0⟩
  aeadAad := none
  mSrc := none

namespace CryptoParams

variable {Key : Type} (cp : CryptoParams Key)

/-- A key install on one device: where there is a cipher, `cs_rotate`, and the
session in use becomes the current one. -/
def installKey (epoch : UInt8) (key : Key) : CryptoParams Key :=
  if cp.chain.doCipher then
    { cp with cs := csRotate cp.cs key epoch, session := ⟨epoch, key⟩ }
  else cp

/-- The operation checks a digest that the packet already carries. -/
def verifies : Bool := (cp.chain.doHash || cp.chain.doAead) && cp.hashVerify

/-- `pad_len` for a given `data_len`: up to the next block for the block modes,
up to the next data unit for XTS, nothing otherwise. -/
def padLen (dataLen : ℕ) : ℕ :=
  match cp.cipherAlgo with
  | .aesCbc | .aesEcb | .desCbc | .tripleDesCbc | .tripleDesEcb => padTo cp.blockSize dataLen
  | .aesXts => if cp.cipherDataunitLen ≠ 0 then padTo cp.cipherDataunitLen dataLen else 0
  | _ => 0

/-- Padding a length makes it one that needs no padding. -/
theorem padLen_add_padLen (dataLen : ℕ) : cp.padLen (dataLen + cp.padLen dataLen) = 0 := by
  unfold padLen
  cases cp.cipherAlgo with
  | aesXts =>
    by_cases hunit : cp.cipherDataunitLen ≠ 0
    · simp only [if_pos hunit, padTo_add_padTo]
    · simp only [if_neg hunit]
  | _ => simp only [padTo_add_padTo]

/-- Append `pad_len` zero bytes. The length argument of `rte_pktmbuf_append` has
16 bits, that of `memset` does not. -/
def appendPadding (m : Mbuf) (padLen : ℕ) : Option Mbuf :=
  if padLen = 0 then some m
  else (m.append (padLen % 2 ^ 16)).map fun m' =>
    m'.store m.data.length (List.replicate padLen 0)

/-- The digest part of an operation: room is appended when a digest is to be
generated, and the carried digest is located when one is to be verified. -/
def placeDigest (ipdataOffset dataLen : ℕ) (m : Mbuf) : Mbuf × Digest :=
  if cp.hashVerify then
    (m, ⟨some (ipdataOffset + dataLen), sub32 m.pktLen cp.digestLength⟩)
  else
    match m.append cp.digestLength with
    | some m' => (m', ⟨some m.data.length, sub32 m'.pktLen cp.digestLength⟩)
    | none => (m, ⟨none, sub32 m.pktLen cp.digestLength⟩)

section PlaceDigest

variable {cp} {m : Mbuf} (ipdataOffset dataLen : ℕ)

/-- A digest that is to be verified is looked for behind the data. -/
theorem placeDigest_verify (hverify : cp.hashVerify = true) :
    cp.placeDigest ipdataOffset dataLen m =
      (m, ⟨some (ipdataOffset + dataLen), sub32 m.pktLen cp.digestLength⟩) := by
  simp [placeDigest, hverify]

/-- With room in the tailroom, a digest that is to be generated is put there. -/
theorem placeDigest_generate (hgen : cp.hashVerify = false)
    (hroom : cp.digestLength ≤ m.tailroom.length) :
    ∃ m', cp.placeDigest ipdataOffset dataLen m =
        (m', ⟨some m.pktLen, sub32 m'.pktLen cp.digestLength⟩) ∧
      m'.pktLen = m.pktLen + cp.digestLength := by
  obtain ⟨m', hm'⟩ := Mbuf.append_isSome hroom
  obtain ⟨_, _, hdata, _⟩ := Mbuf.of_append hm'
  refine ⟨m', by simp [placeDigest, hgen, hm', Mbuf.pktLen], ?_⟩
  rw [Mbuf.pktLen, hdata, List.length_append, List.length_take, Nat.min_eq_left hroom, Mbuf.pktLen]

/-- Without room, a digest that is to be generated has a null address. -/
theorem placeDigest_full (hgen : cp.hashVerify = false)
    (hfull : m.tailroom.length < cp.digestLength) :
    cp.placeDigest ipdataOffset dataLen m = (m, ⟨none, sub32 m.pktLen cp.digestLength⟩) := by
  simp [placeDigest, hgen, Mbuf.append_eq_none hfull]

end PlaceDigest

/-- A range in the unit of the algorithm: bits are bytes shifted left by three. -/
def range (inBits : Bool) (ipdataOffset dataLen : ℕ) : DataRange :=
  if inBits then ⟨ipdataOffset * 8 % 2 ^ 32, dataLen * 8 % 2 ^ 32⟩ else ⟨ipdataOffset, dataLen⟩

/-- A range in bytes, read back from the unit of the algorithm. -/
def rangeBytes (inBits : Bool) (r : DataRange) : DataRange :=
  if inBits then ⟨r.offset / 8, r.length / 8⟩ else r

/-- A range in bits that does not wrap stands for the byte range it was computed from. -/
theorem rangeBytes_range {inBits : Bool} {ipdataOffset dataLen : ℕ}
    (h : inBits = true → ipdataOffset < 2 ^ 29 ∧ dataLen < 2 ^ 29) :
    rangeBytes inBits (range inBits ipdataOffset dataLen) = ⟨ipdataOffset, dataLen⟩ := by
  cases inBits with
  | false => rfl
  | true =>
    obtain ⟨hoffset, hlength⟩ := h rfl
    have ho : ipdataOffset * 8 % 2 ^ 32 / 8 = ipdataOffset := by omega
    have hl : dataLen * 8 % 2 ^ 32 / 8 = dataLen := by omega
    simp only [rangeBytes, range, if_true, ho, hl]

/-- The `do_hash` part of the enqueue function. -/
def fillAuth (ipdataOffset dataLen : ℕ) (m : Mbuf) (op : CryptoOp Key) : Mbuf × CryptoOp Key :=
  if cp.chain.doHash then
    let priv := if cp.authIv.length ≠ 0 then op.priv.write cp.cipherIvLength cp.authIv else op.priv
    let (m', digest) := cp.placeDigest ipdataOffset dataLen m
    (m', { op with
      priv := priv
      authDigest := digest
      auth := range cp.authAlgo.inBits ipdataOffset dataLen })
  else (m, op)

/-- The `do_aead` part of the enqueue function. -/
def fillAead (ipdataOffset dataLen : ℕ) (m : Mbuf) (op : CryptoOp Key) : Mbuf × CryptoOp Key :=
  if cp.chain.doAead then
    let ivAt := if cp.aeadAlgo = .aesCcm then 1 else 0
    let (m', digest) := cp.placeDigest ipdataOffset dataLen m
    (m', { op with
      priv := op.priv.write ivAt cp.aeadIv
      aead := ⟨ipdataOffset, dataLen⟩
      aeadDigest := digest
      aeadAad := if cp.aad.length ≠ 0 then some cp.aad else none })
  else (m, op)

end CryptoParams

/-- A box with AES-CBC, no digest, and the all-zero bootstrap key. -/
def aesCbcBox (isEncrypt : Bool) : CryptoParams Bytes where
  chain := .cipherOnly
  digestLength := 0
  blockSize := 16
  cipherDataunitLen := 0
  cipherIvLength := 16
  authIv := []
  aeadIv := []
  aad := []
  cs := TwoSlot.init ⟨0, List.replicate 16 0⟩
  session := ⟨0, List.replicate 16 0⟩
  hashVerify := false
  isEncrypt := isEncrypt
  cipherAlgo := .aesCbc
  authAlgo := .other
  aeadAlgo := .other
  digestLength_lt := by decide
  blockSize_lt := by decide
  cipherDataunitLen_lt := by decide

end SecureWan
