import SecureWan.Encryptor.Enqueue

/-!
# The crypto device

The device works on an operation as the enqueue function filled it in: it runs
the session's cipher over the data range of the packet, and on the sending side
writes a digest where the operation says. The cipher itself is not part of the
program; its laws are carried by `DeviceCipher`, and the value of a digest is
left open.
-/

namespace SecureWan

/-- The cipher of a device: on the lengths that need no padding it keeps the
length, and decryption undoes encryption under one key and IV. -/
structure DeviceCipher {Key : Type} (cp : CryptoParams Key) where
  encrypt : Key → Bytes → Bytes → Bytes
  decrypt : Key → Bytes → Bytes → Bytes
  length_encrypt (key : Key) (iv blocks : Bytes) (hpad : cp.padLen blocks.length = 0) :
    (encrypt key iv blocks).length = blocks.length
  decrypt_encrypt (key : Key) (iv blocks : Bytes) (hpad : cp.padLen blocks.length = 0) :
    decrypt key iv (encrypt key iv blocks) = blocks

/-- A cipher known on one plaintext: it exchanges the plaintext and its ciphertext. -/
def knownAnswer {Key : Type} (cp : CryptoParams Key) (plain cipherText : Bytes)
    (h : plain.length = cipherText.length) : DeviceCipher cp where
  encrypt _ _ blocks :=
    if blocks = plain then cipherText else if blocks = cipherText then plain else blocks
  decrypt _ _ blocks :=
    if blocks = plain then cipherText else if blocks = cipherText then plain else blocks
  length_encrypt _ _ blocks _ := by
    by_cases hplain : blocks = plain
    · rw [if_pos hplain, hplain, h]
    · by_cases hcipher : blocks = cipherText
      · rw [if_neg hplain, if_pos hcipher, hcipher, h]
      · rw [if_neg hplain, if_neg hcipher]
  decrypt_encrypt _ _ blocks _ := by
    by_cases hplain : blocks = plain
    · by_cases hfixed : cipherText = plain <;> simp [hplain, hfixed]
    · by_cases hcipher : blocks = cipherText <;> simp [hplain, hcipher]

namespace CryptoParams

variable {Key : Type} (cp : CryptoParams Key)

/-- The cipher range of an operation in bytes, whatever unit it is given in. -/
def cipherBytes (op : CryptoOp Key) : DataRange := rangeBytes cp.cipherAlgo.inBits op.cipher

/-- The packet of an operation after the device: the cipher range is replaced,
and a digest that is to be generated is stored. -/
def complete (cipher : Key → Bytes → Bytes → Bytes) (digest : Bytes) (op : CryptoOp Key) :
    Option Mbuf :=
  match op.session, op.mSrc with
  | some sess, some m =>
    let range := cp.cipherBytes op
    let iv := op.priv.read 0 cp.cipherIvLength
    let m := m.store range.offset (cipher sess.key iv (m.load range.offset range.length))
    match op.authDigest.data with
    | some pos => if cp.hashVerify then some m else some (m.store pos digest)
    | none => some m
  | _, _ => none

variable {cp} {op : CryptoOp Key} {sess : Session Key} {m : Mbuf} {eth blocks tag iv : Bytes}
  {off : ℕ}

/-- The device runs the cipher over the blocks behind the headers. -/
private theorem store_blocks (cipher : Key → Bytes → Bytes → Bytes) (sess : Session Key)
    (hrange : op.cipher = range cp.cipherAlgo.inBits off blocks.length)
    (hiv : op.priv.read 0 cp.cipherIvLength = iv) (hdata : m.data = eth ++ (blocks ++ tag))
    (heth : eth.length = off)
    (hcipher : (cipher sess.key iv blocks).length = blocks.length) :
    (m.store (cp.cipherBytes op).offset (cipher sess.key (op.priv.read 0 cp.cipherIvLength)
      (m.load (cp.cipherBytes op).offset (cp.cipherBytes op).length))).data =
      eth ++ (cipher sess.key iv blocks ++ tag) := by
  have hlen : m.data.length = off + (blocks.length + tag.length) := by
    rw [hdata, List.length_append, List.length_append, heth]
  have hbound := m.length_data_lt
  have hbytes : cp.cipherBytes op = ⟨off, blocks.length⟩ := by
    rw [cipherBytes, hrange, rangeBytes_range]
    exact fun _ => ⟨by omega, by omega⟩
  rw [hbytes, hiv]
  dsimp only
  rw [Mbuf.load_middle hdata heth rfl]
  exact Mbuf.store_middle hdata heth hcipher

/-- When no digest is to be generated, the device only runs the cipher. -/
theorem complete_of_keep (cipher : Key → Bytes → Bytes → Bytes) (digest : Bytes)
    (hsess : op.session = some sess) (hsrc : op.mSrc = some m)
    (hkeep : cp.hashVerify = true ∨ op.authDigest.data = none) :
    cp.complete cipher digest op =
      some (m.store (cp.cipherBytes op).offset (cipher sess.key (op.priv.read 0 cp.cipherIvLength)
        (m.load (cp.cipherBytes op).offset (cp.cipherBytes op).length))) := by
  cases hdigest : op.authDigest.data with
  | none => simp only [complete, hsess, hsrc, hdigest]
  | some pos =>
    have hverify : cp.hashVerify = true := by simpa [hdigest] using hkeep
    simp only [complete, hsess, hsrc, hdigest, hverify, if_true]

/-- Without a digest to generate, the blocks are replaced in the packet. -/
theorem complete_keep (cipher : Key → Bytes → Bytes → Bytes) (digest : Bytes)
    (hsess : op.session = some sess) (hsrc : op.mSrc = some m)
    (hrange : op.cipher = range cp.cipherAlgo.inBits off blocks.length)
    (hiv : op.priv.read 0 cp.cipherIvLength = iv) (hdata : m.data = eth ++ (blocks ++ tag))
    (heth : eth.length = off) (hkeep : cp.hashVerify = true ∨ op.authDigest.data = none)
    (hcipher : (cipher sess.key iv blocks).length = blocks.length) :
    ∃ m', cp.complete cipher digest op = some m' ∧ m'.headroom = m.headroom ∧
      m'.data = eth ++ (cipher sess.key iv blocks ++ tag) :=
  ⟨_, complete_of_keep cipher digest hsess hsrc hkeep, Mbuf.store_headroom,
    store_blocks cipher sess hrange hiv hdata heth hcipher⟩

/-- When a digest is to be generated, the device stores it in the room for it. -/
theorem complete_generate (cipher : Key → Bytes → Bytes → Bytes) {digest : Bytes}
    (hsess : op.session = some sess) (hsrc : op.mSrc = some m)
    (hrange : op.cipher = range cp.cipherAlgo.inBits off blocks.length)
    (hiv : op.priv.read 0 cp.cipherIvLength = iv) (hdata : m.data = eth ++ (blocks ++ tag))
    (heth : eth.length = off) (hgenerate : cp.hashVerify = false)
    (hpos : op.authDigest.data = some (off + blocks.length))
    (htag : digest.length = tag.length)
    (hcipher : (cipher sess.key iv blocks).length = blocks.length) :
    ∃ m', cp.complete cipher digest op = some m' ∧ m'.headroom = m.headroom ∧
      m'.data = eth ++ (cipher sess.key iv blocks ++ digest) := by
  have hblocks := store_blocks cipher sess hrange hiv hdata heth hcipher
  have hfront : (eth ++ cipher sess.key iv blocks).length = off + blocks.length := by
    rw [List.length_append, heth, hcipher]
  rw [← List.append_assoc, ← List.append_nil tag] at hblocks
  have hstore := Mbuf.store_middle hblocks hfront htag
  rw [List.append_nil, List.append_assoc] at hstore
  refine ⟨_, ?_, ?_, hstore⟩
  · simp only [complete, hsess, hsrc, hpos, hgenerate, Bool.false_eq_true, if_false]
  · rw [Mbuf.store_headroom, Mbuf.store_headroom]

/-- On the encrypt side the blocks are encrypted, and a chain with a hash leaves its
digest behind them. -/
theorem complete_encrypt (cipher : Key → Bytes → Bytes → Bytes) {digest : Bytes}
    (hsess : op.session = some sess) (hsrc : op.mSrc = some m)
    (hrange : op.cipher = range cp.cipherAlgo.inBits off blocks.length)
    (hiv : op.priv.read 0 cp.cipherIvLength = iv) (hdata : m.data = eth ++ (blocks ++ tag))
    (heth : eth.length = off) (hgenerate : cp.hashVerify = false)
    (hpos : op.authDigest.data = if cp.chain.doHash then some (off + blocks.length) else none)
    (htag : tag.length = cp.tagLength) (hdigest : digest.length = cp.tagLength)
    (hcipher : (cipher sess.key iv blocks).length = blocks.length) :
    ∃ m', cp.complete cipher digest op = some m' ∧ m'.headroom = m.headroom ∧
      m'.data = eth ++ (cipher sess.key iv blocks ++ digest) := by
  by_cases hhash : cp.chain.doHash = true
  · rw [if_pos hhash] at hpos
    exact complete_generate cipher hsess hsrc hrange hiv hdata heth hgenerate hpos
      (hdigest.trans htag.symm) hcipher
  · have hnil {bs : Bytes} (h : bs.length = cp.tagLength) : bs = [] := by
      rw [tagLength, if_neg hhash] at h
      exact List.eq_nil_of_length_eq_zero h
    rw [if_neg hhash] at hpos
    rw [hnil hdigest]
    rw [hnil htag] at hdata
    exact complete_keep cipher [] hsess hsrc hrange hiv hdata heth (Or.inr hpos) hcipher

end CryptoParams

end SecureWan
