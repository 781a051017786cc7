import SecureWan.Encryptor.Ownership
import SecureWan.Lib.Logged
import SecureWan.Lib.Runs

/-!
# Where the IVs of an operation are kept

`main` gives every operation of `l2fwd_crypto_op_pool` private bytes for one IV. The enqueue
function once more, now with the bytes from `IV_OFFSET` on that it reads and writes, and the
pool with its operations in flight, all in one memory. This file says for which runs the IVs
stay in the private bytes; the copy for the wire, which the encrypt side keeps, never does.
-/

namespace SecureWan

/-- `MAXIMUM_IV_LENGTH`: how many private bytes an operation has, from `IV_OFFSET` on. -/
def maximumIvLength : ℕ := 16

namespace IvStorage

/-- `n` bytes that are read or written, counted from `IV_OFFSET`. -/
structure IvAccess where
  off : ℕ
  n : ℕ

/-- The bytes are private bytes of the operation. -/
def IvAccess.Inside (a : IvAccess) : Prop := a.n = 0 ∨ a.off + a.n ≤ maximumIvLength

/-- A logged read. -/
def readIv (priv : Memory) (off n : ℕ) : Logged IvAccess Bytes := .step ⟨off, n⟩ (priv.read off n)

/-- A logged write. -/
def writeIv (priv : Memory) (off : ℕ) (bs : Bytes) : Logged IvAccess Memory :=
  .step ⟨off, bs.length⟩ (priv.write off bs)

section Enqueue

variable {Key : Type} (cp : CryptoParams Key)

/-- The IV of the `do_hash` part, behind the place of the cipher IV. -/
def authIvLogged (priv : Memory) : Logged IvAccess Memory :=
  if cp.chain.doHash then
    if cp.authIv.length ≠ 0 then writeIv priv cp.cipherIvLength cp.authIv else pure priv
  else pure priv

/-- The IV of the `do_cipher` part, with its copy on the encrypt side. -/
def cipherIvLogged (rand : UInt64 × UInt64) (pktIv : Bytes) (priv : Memory) :
    Logged IvAccess Memory :=
  if cp.chain.doCipher then
    if cp.isEncrypt then do
      let priv ← writeIv priv 0 (generatePerPktIv rand)
      let iv ← readIv priv 0 ivInPacketSize
      writeIv priv savedIvAt iv
    else writeIv priv 0 (pktIv.readAt 0 cp.cipherIvLength)
  else pure priv

/-- The IV of the `do_aead` part. -/
def aeadIvLogged (priv : Memory) : Logged IvAccess Memory :=
  if cp.chain.doAead then
    writeIv priv (if cp.aeadAlgo = .aesCcm then 1 else 0) cp.aeadIv
  else pure priv

/-- `l2fwd_simple_crypto_enqueue`, logged. -/
def enqueueLogged (rand : UInt64 × UInt64) (pktIv : Bytes) (epoch : UInt8) (m : Mbuf)
    (op : CryptoOp Key) : Logged IvAccess (Option (CryptoOp Key)) :=
  match l2fwdSimpleCryptoEnqueue cp rand pktIv epoch m op with
  | none => pure none
  | some filled => do
    let priv ← authIvLogged cp op.priv
    let priv ← cipherIvLogged cp rand pktIv priv
    let priv ← aeadIvLogged cp priv
    pure (some { filled with priv := priv })

/-- The IVs that the enqueue function keeps in an operation fit the private bytes. On the
encrypt side the copy does not. -/
structure IvFits : Prop where
  auth : cp.chain.doHash = true →
    cp.authIv.length = 0 ∨ cp.cipherIvLength + cp.authIv.length ≤ maximumIvLength
  cipher : cp.chain.doCipher = true → cp.isEncrypt = false ∧ cp.cipherIvLength ≤ maximumIvLength
  aead : cp.chain.doAead = true → cp.aeadIv.length = 0 ∨
    (if cp.aeadAlgo = .aesCcm then 1 else 0) + cp.aeadIv.length ≤ maximumIvLength

end Enqueue

variable {Key : Type} {cp : CryptoParams Key}

section Accesses

variable {priv : Memory} {m : Mbuf} {op op' : CryptoOp Key} (rand : UInt64 × UInt64)
  (pktIv : Bytes) (epoch : UInt8)

theorem fillAuth_priv (ipdataOffset dataLen : ℕ) :
    (cp.fillAuth ipdataOffset dataLen m op).2.priv = (authIvLogged cp op.priv).value := by
  unfold CryptoParams.fillAuth authIvLogged
  by_cases hhash : cp.chain.doHash = true
  · rw [if_pos hhash, if_pos hhash]
    by_cases hiv : cp.authIv.length ≠ 0
    · simp only [if_pos hiv]
      rfl
    · simp only [if_neg hiv]
      rfl
  · rw [if_neg hhash, if_neg hhash]
    rfl

theorem fillCipher_priv (ipdataOffset dataLen : ℕ) :
    (cp.fillCipher rand pktIv ipdataOffset dataLen op).priv =
      (cipherIvLogged cp rand pktIv op.priv).value := by
  unfold CryptoParams.fillCipher cipherIvLogged
  by_cases hcipher : cp.chain.doCipher = true
  · rw [if_pos hcipher, if_pos hcipher]
    by_cases henc : cp.isEncrypt = true
    · simp only [if_pos henc]
      rfl
    · simp only [if_neg henc]
      rfl
  · rw [if_neg hcipher, if_neg hcipher]
    rfl

theorem fillAead_priv (ipdataOffset dataLen : ℕ) :
    (cp.fillAead ipdataOffset dataLen m op).2.priv = (aeadIvLogged cp op.priv).value := by
  unfold CryptoParams.fillAead aeadIvLogged
  by_cases haead : cp.chain.doAead = true
  · rw [if_pos haead, if_pos haead]
    rfl
  · rw [if_neg haead, if_neg haead]
    rfl

/-- The private memory after the enqueue function is what its three parts make of it. -/
theorem priv_of_enqueue (h : l2fwdSimpleCryptoEnqueue cp rand pktIv epoch m op = some op') :
    op'.priv = (aeadIvLogged cp (cipherIvLogged cp rand pktIv
      (authIvLogged cp op.priv).value).value).value := by
  unfold l2fwdSimpleCryptoEnqueue at h
  by_cases hshort : m.pktLen < etherHdrLen
  · simp only [if_pos hshort, reduceCtorEq] at h
  cases hpad : CryptoParams.appendPadding m (cp.cryptoPadLen (cp.cryptoDataLen m)) with
  | none => simp only [if_neg hshort, hpad, reduceCtorEq] at h
  | some m₁ =>
    simp only [if_neg hshort, hpad, Option.some.injEq] at h
    subst h
    simp only [fillAead_priv, fillCipher_priv, fillAuth_priv]

/-- **The logged function is the enqueue function.** -/
theorem value_enqueueLogged :
    (enqueueLogged cp rand pktIv epoch m op).value =
      l2fwdSimpleCryptoEnqueue cp rand pktIv epoch m op := by
  unfold enqueueLogged
  cases henqueue : l2fwdSimpleCryptoEnqueue cp rand pktIv epoch m op with
  | none => rfl
  | some filled =>
    refine congrArg some ?_
    rw [← priv_of_enqueue rand pktIv epoch henqueue]

theorem all_authIvLogged :
    (authIvLogged cp priv).All IvAccess.Inside ↔ (cp.chain.doHash = true →
      cp.authIv.length = 0 ∨ cp.cipherIvLength + cp.authIv.length ≤ maximumIvLength) := by
  unfold authIvLogged
  by_cases hhash : cp.chain.doHash = true
  · rw [if_pos hhash, forall_prop_of_true hhash]
    by_cases hiv : cp.authIv.length ≠ 0
    · rw [if_pos hiv]
      exact Logged.all_step
    · rw [if_neg hiv]
      exact iff_of_true (Logged.all_pure _) (.inl (not_not.mp hiv))
  · rw [if_neg hhash]
    exact iff_of_true (Logged.all_pure _) fun h => absurd h hhash

/-- On the encrypt side the copy is outside. -/
theorem all_cipherIvLogged :
    (cipherIvLogged cp rand pktIv priv).All IvAccess.Inside ↔ (cp.chain.doCipher = true →
      cp.isEncrypt = false ∧ cp.cipherIvLength ≤ maximumIvLength) := by
  unfold cipherIvLogged
  by_cases hcipher : cp.chain.doCipher = true
  · rw [if_pos hcipher, forall_prop_of_true hcipher]
    by_cases henc : cp.isEncrypt = true
    · rw [if_pos henc, henc]
      simp [writeIv, readIv, IvAccess.Inside, ivInPacketSize, savedIvAt, maximumIvLength]
    · rw [if_neg henc]
      simp only [Bool.not_eq_true] at henc
      simp [writeIv, IvAccess.Inside, henc]
      omega
  · rw [if_neg hcipher]
    exact iff_of_true (Logged.all_pure _) fun h => absurd h hcipher

theorem all_aeadIvLogged :
    (aeadIvLogged cp priv).All IvAccess.Inside ↔ (cp.chain.doAead = true →
      cp.aeadIv.length = 0 ∨
        (if cp.aeadAlgo = .aesCcm then 1 else 0) + cp.aeadIv.length ≤ maximumIvLength) := by
  unfold aeadIvLogged
  by_cases haead : cp.chain.doAead = true
  · rw [if_pos haead, forall_prop_of_true haead]
    exact Logged.all_step
  · rw [if_neg haead]
    exact iff_of_true (Logged.all_pure _) fun h => absurd h haead

/-- **The enqueue function stays in the private bytes** when it does not take the packet, or
the IVs it keeps fit. -/
theorem all_enqueueLogged :
    (enqueueLogged cp rand pktIv epoch m op).All IvAccess.Inside ↔
      (QueueConf.CanEnqueue cp m.pktLen m.tailroom.length → IvFits cp) := by
  rw [← QueueConf.enqueue_isSome_iff cp rand pktIv epoch m op]
  unfold enqueueLogged
  cases l2fwdSimpleCryptoEnqueue cp rand pktIv epoch m op with
  | none =>
    refine iff_of_true (Logged.all_pure _) fun h => ?_
    obtain ⟨_, hnone⟩ := h
    cases hnone
  | some filled =>
    simp only [Logged.all_bind, Logged.all_pure, all_authIvLogged, all_cipherIvLogged,
      all_aeadIvLogged, and_true, Option.some.injEq, exists_eq', forall_const]
    constructor
    · rintro ⟨hauth, hcipher, haead⟩
      exact ⟨hauth, hcipher, haead⟩
    · intro h
      exact ⟨h.auth, h.cipher, h.aead⟩

/-- A program on the private memory that stays in the private bytes leaves what is behind. -/
def Frames (priv : Memory) (x : Logged IvAccess Memory) : Prop :=
  x.All IvAccess.Inside → ∀ k, maximumIvLength ≤ k → x.value k = priv k

theorem frames_pure : Frames priv (pure priv) := fun _ _ _ => rfl

theorem frames_writeIv (off : ℕ) (bs : Bytes) : Frames priv (writeIv priv off bs) := by
  intro hin k hk
  rcases Logged.all_step.mp hin with hzero | hend
  · have hzero : bs.length = 0 := hzero
    exact Memory.write_of_outside (by omega)
  · have hend : off + bs.length ≤ maximumIvLength := hend
    exact Memory.write_of_outside (by omega)

theorem frames_authIvLogged : Frames priv (authIvLogged cp priv) := by
  unfold authIvLogged
  split
  · split
    · exact frames_writeIv _ _
    · exact frames_pure
  · exact frames_pure

theorem frames_cipherIvLogged : Frames priv (cipherIvLogged cp rand pktIv priv) := by
  intro hin
  have hfits := (all_cipherIvLogged rand pktIv).mp hin
  revert hin
  unfold cipherIvLogged
  by_cases hcipher : cp.chain.doCipher = true
  · have hdec : ¬cp.isEncrypt = true := by simp [(hfits hcipher).1]
    rw [if_pos hcipher, if_neg hdec]
    exact frames_writeIv _ _
  · rw [if_neg hcipher]
    exact frames_pure

theorem frames_aeadIvLogged : Frames priv (aeadIvLogged cp priv) := by
  unfold aeadIvLogged
  split
  · exact frames_writeIv _ _
  · exact frames_pure

/-- An enqueue function that stays in the private bytes leaves what is behind them. -/
theorem behind_of_enqueue (h : l2fwdSimpleCryptoEnqueue cp rand pktIv epoch m op = some op')
    (hin : (enqueueLogged cp rand pktIv epoch m op).All IvAccess.Inside) {k : ℕ}
    (hk : maximumIvLength ≤ k) : op'.priv k = op.priv k := by
  unfold enqueueLogged at hin
  rw [h] at hin
  simp only [Logged.all_bind, Logged.all_pure, and_true] at hin
  obtain ⟨hauth, hcipher, haead⟩ := hin
  rw [priv_of_enqueue rand pktIv epoch h, frames_aeadIvLogged haead k hk,
    frames_cipherIvLogged rand pktIv hcipher k hk, frames_authIvLogged hauth k hk]

end Accesses

/-- Where the elements of `l2fwd_crypto_op_pool` lie: each has its structures up to `IV_OFFSET`
and its private bytes, and they do not overlap. -/
structure PoolLayout where
  /-- `IV_OFFSET`. -/
  ivOffset : ℕ
  opAt : ℕ → ℕ
  disjoint (i j : ℕ) (hne : i ≠ j) : opAt i + ivOffset + maximumIvLength ≤ opAt j ∨
    opAt j + ivOffset + maximumIvLength ≤ opAt i

/-- The address of the private bytes of an operation. -/
def PoolLayout.privAt (layout : PoolLayout) (opId : ℕ) : ℕ := layout.opAt opId + layout.ivOffset

/-- What is known of an operation in flight. -/
structure IvFlight where
  /-- What the enqueue function read and wrote. -/
  accesses : List IvAccess
  /-- The memory from `IV_OFFSET` on, as the enqueue function left it. -/
  left : Memory
  /-- `cipher_iv.length` of the device. -/
  ivLength : ℕ
  /-- The IV that the device used, once it has. -/
  used : Option Bytes

/-- What an operation of the pool is doing. -/
inductive OpState where
  | free
  /-- Nobody has the operation, as after a failure of the enqueue function. -/
  | lost
  | inFlight (f : IvFlight)

/-- An IV passed to `tunnel_encap`, with the IV that the device used. -/
structure WireIv where
  iv : Bytes
  ivLength : ℕ
  used : Bytes

/-- The operations and the memory they lie in, and the IVs that went to the wire. -/
structure OpPool where
  memory : Memory
  ops : ℕ → OpState
  sent : List WireIv

/-- What happens to one operation. -/
inductive PoolEvent (Key : Type) where
  /-- A free operation is allocated for a packet and goes to `l2fwd_simple_crypto_enqueue`. -/
  | enqueue (opId : ℕ) (cp : CryptoParams Key) (rand : UInt64 × UInt64) (pktIv : Bytes)
      (epoch : UInt8) (m : Mbuf)
  /-- The device does not take the operation, and it is freed. -/
  | reject (opId : ℕ)
  /-- The device works on the operation. -/
  | use (opId : ℕ)
  /-- The dequeue loop takes the operation from the device, for the port in turn, and frees
  it. -/
  | dequeue (opId portid : ℕ) (doCipher : Bool)

/-- The operation of an event. -/
def PoolEvent.opId : PoolEvent Key → ℕ
  | .enqueue opId .. | .reject opId | .use opId | .dequeue opId .. => opId

/-- `deq_iv` of the dequeue loop, logged. -/
def deqIvLogged (portid : ℕ) (doCipher : Bool) (priv : Memory) :
    Logged IvAccess (Option Bytes) := do
  if portid = 0 ∧ doCipher then
    let iv ← readIv priv savedIvAt ivInPacketSize
    pure (some iv)
  else pure none

namespace OpPool

variable (layout : PoolLayout) (s : OpPool)

/-- A pool of `n` operations, all free. -/
def start (n : ℕ) (memory : Memory) : OpPool where
  memory := memory
  ops := fun opId => if opId < n then .free else .lost
  sent := []

/-- The memory from the private bytes of an operation on. -/
def priv (opId : ℕ) : Memory := s.memory.tail (layout.privAt opId)

/-- Another state of one operation. -/
def setOp (opId : ℕ) (state : OpState) : OpPool :=
  { s with ops := Function.update s.ops opId state }

/-- Another memory from the private bytes of an operation on, and another state of it. -/
def fill (opId : ℕ) (rest : Memory) (state : OpState) : OpPool :=
  { s with memory := s.memory.setTail (layout.privAt opId) rest }.setOp opId state

/-- One event, with what the program reads and writes of the IVs. -/
def stepLogged : PoolEvent Key → Logged IvAccess OpPool
  | .enqueue opId cp rand pktIv epoch m =>
    match s.ops opId with
    | .free =>
      let filled := enqueueLogged cp rand pktIv epoch m (CryptoOp.alloc (s.priv layout opId))
      do
        match ← filled with
        | none => pure (s.setOp opId .lost)
        | some op =>
          pure (s.fill layout opId op.priv
            (.inFlight ⟨filled.steps, op.priv, cp.cipherIvLength, none⟩))
    | _ => pure s
  | .reject opId =>
    match s.ops opId with
    | .inFlight ⟨_, _, _, none⟩ => pure (s.setOp opId .free)
    | _ => pure s
  | .use opId =>
    match s.ops opId with
    | .inFlight ⟨accesses, left, ivLength, none⟩ =>
      let used := (s.priv layout opId).read 0 ivLength
      pure (s.setOp opId (.inFlight ⟨accesses, left, ivLength, some used⟩))
    | _ => pure s
  | .dequeue opId portid doCipher =>
    match s.ops opId with
    | .inFlight ⟨_, _, ivLength, some used⟩ => do
      match ← deqIvLogged portid doCipher (s.priv layout opId) with
      | none => pure (s.setOp opId .free)
      | some iv =>
        let sent := s.sent ++ [WireIv.mk iv ivLength used]
        pure ({ s with sent := sent }.setOp opId .free)
    | _ => pure s

/-- One event. -/
def step (e : PoolEvent Key) : OpPool := (s.stepLogged layout e).value

/-- What the enqueue function read and wrote for an operation in flight is as it left it. -/
def Kept : Prop :=
  ∀ opId f, s.ops opId = .inFlight f → ∀ a ∈ f.accesses,
    (s.priv layout opId).read a.off a.n = f.left.read a.off a.n

/-- The wire got the IVs that the device used. -/
def WireIvsUsed : Prop := ∀ w ∈ s.sent, w.iv.take w.ivLength = w.used

/-- A step that reads and writes only private bytes of its operation. -/
structure Contained (e : PoolEvent Key) : Prop where
  inside : (s.stepLogged layout e).All IvAccess.Inside
  untouched : ∀ k, k < layout.privAt e.opId ∨ layout.privAt e.opId + maximumIvLength ≤ k →
    (s.step layout e).memory k = s.memory k

/-- The IVs of the operation fit, when the enqueue function gets an operation and takes the
packet; and the dequeue loop returns no operation of a cipher on port 0. -/
def Fits : PoolEvent Key → Prop
  | .enqueue opId cp _ _ _ m =>
    s.ops opId = .free → QueueConf.CanEnqueue cp m.pktLen m.tailroom.length → IvFits cp
  | .dequeue opId portid doCipher =>
    match s.ops opId with
    | .inFlight ⟨_, _, _, some _⟩ => ¬(portid = 0 ∧ doCipher = true)
    | _ => True
  | .reject _ | .use _ => True

end OpPool

/-- **The IVs are stored safely** in a run: what the program reads and writes of them lies in
the private bytes of the operation and changes nothing else, so that every operation in flight
keeps them, and the wire gets those that the device used. -/
structure StoredSafely (layout : PoolLayout) (s : OpPool) (es : List (PoolEvent Key)) :
    Prop where
  contained : Runs.StepsMeet (OpPool.step layout) (OpPool.Contained layout) s es
  kept : Runs.Throughout (OpPool.step layout) (OpPool.Kept layout) s es
  wire : Runs.Throughout (OpPool.step layout) OpPool.WireIvsUsed s es

namespace OpPool

variable {layout : PoolLayout} {s : OpPool} {e : PoolEvent Key}

/-- The read of `deq_iv` is behind the private bytes. -/
theorem all_deqIvLogged {portid : ℕ} {doCipher : Bool} {priv : Memory} :
    (deqIvLogged portid doCipher priv).All IvAccess.Inside ↔
      ¬(portid = 0 ∧ doCipher = true) := by
  unfold deqIvLogged
  by_cases hcopy : portid = 0 ∧ doCipher = true
  · rw [if_pos hcopy]
    simp [readIv, IvAccess.Inside, ivInPacketSize, savedIvAt, maximumIvLength, hcopy]
  · rw [if_neg hcopy]
    exact iff_of_true (Logged.all_pure _) hcopy

/-- **What a step reads and writes** is inside the private bytes exactly when the IVs fit. -/
theorem all_stepLogged : (s.stepLogged layout e).All IvAccess.Inside ↔ s.Fits e := by
  cases e with
  | enqueue opId cp rand pktIv epoch m =>
    simp only [stepLogged, Fits]
    cases s.ops opId with
    | free =>
      simp only [Logged.all_bind, all_enqueueLogged, forall_const]
      refine and_iff_left ?_
      split <;> exact Logged.all_pure _
    | _ => exact iff_of_true (Logged.all_pure _) fun h => by cases h
  | reject opId =>
    simp only [stepLogged, Fits, iff_true]
    split <;> exact Logged.all_pure _
  | use opId =>
    simp only [stepLogged, Fits, iff_true]
    split <;> exact Logged.all_pure _
  | dequeue opId portid doCipher =>
    simp only [stepLogged, Fits]
    split
    next =>
      rw [Logged.all_bind, all_deqIvLogged]
      refine and_iff_left ?_
      split <;> exact Logged.all_pure _
    next => exact iff_of_true (Logged.all_pure _) trivial

/-- An operation in flight of which the enqueue function touched only private bytes, and
these are as it left them. -/
def Holds (layout : PoolLayout) (s : OpPool) (opId : ℕ) : Prop :=
  ∀ f, s.ops opId = .inFlight f → ∀ a ∈ f.accesses,
    a.Inside ∧ (s.priv layout opId).read a.off a.n = f.left.read a.off a.n

/-- Memory and state that an operation can get from a step whose IVs fit: nothing is changed
behind the private bytes. -/
structure OwnStep (layout : PoolLayout) (s : OpPool) (opId : ℕ) (rest : Memory)
    (state : OpState) : Prop where
  behind : ∀ k, maximumIvLength ≤ k → rest k = s.priv layout opId k
  holds : ∀ f, state = .inFlight f → ∀ a ∈ f.accesses,
    a.Inside ∧ rest.read a.off a.n = f.left.read a.off a.n

theorem fill_priv (opId : ℕ) (state : OpState) :
    s.fill layout opId (s.priv layout opId) state = s.setOp opId state := by
  simp only [fill, priv, Memory.setTail_tail]

theorem fill_self (opId : ℕ) :
    s.fill layout opId (s.priv layout opId) (s.ops opId) = s := by
  simp only [fill_priv, setOp, Function.update_eq_self]

/-- **One event whose IVs fit** changes its operation only, and sends no IV. -/
theorem step_of_fits (hfits : s.Fits e) (hholds : s.Holds layout e.opId) :
    ∃ rest state, s.step layout e = s.fill layout e.opId rest state ∧
      OwnStep layout s e.opId rest state := by
  have hidle : ∃ rest state, s = s.fill layout e.opId rest state ∧
      OwnStep layout s e.opId rest state :=
    ⟨_, _, (fill_self e.opId).symm, fun _ _ => rfl, hholds⟩
  have hgone (state : OpState) (hstate : ∀ f, state ≠ .inFlight f) :
      ∃ rest state', s.setOp e.opId state = s.fill layout e.opId rest state' ∧
        OwnStep layout s e.opId rest state' :=
    ⟨_, _, (fill_priv e.opId state).symm, fun _ _ => rfl, fun f hf => absurd hf (hstate f)⟩
  unfold step
  cases e with
  | enqueue opId cp rand pktIv epoch m =>
    have hin : (s.stepLogged layout (.enqueue opId cp rand pktIv epoch m)).All
      IvAccess.Inside := all_stepLogged.mpr hfits
    simp only [stepLogged] at hin ⊢
    cases hop : s.ops opId with
    | free =>
      simp only [hop, Logged.all_bind, Logged.value_bind, value_enqueueLogged] at hin ⊢
      cases henqueue : l2fwdSimpleCryptoEnqueue cp rand pktIv epoch m
          (CryptoOp.alloc (s.priv layout opId)) with
      | none => exact hgone .lost fun _ h => by cases h
      | some op =>
        refine ⟨op.priv, _, rfl, fun k hk => ?_, ?_⟩
        · exact behind_of_enqueue rand pktIv epoch henqueue hin.1 hk
        · rintro f ⟨⟩ a ha
          exact ⟨hin.1 a ha, rfl⟩
    | _ => exact hidle
  | reject opId =>
    simp only [stepLogged]
    split
    · exact hgone .free fun _ h => by cases h
    · exact hidle
  | use opId =>
    simp only [stepLogged]
    split
    next hop =>
      refine ⟨_, _, (fill_priv opId _).symm, fun _ _ => rfl, ?_⟩
      rintro f ⟨⟩ a ha
      exact hholds _ hop a ha
    next => exact hidle
  | dequeue opId portid doCipher =>
    simp only [stepLogged]
    split
    next hop =>
      have hside : ¬(portid = 0 ∧ doCipher = true) := by simpa only [Fits, hop] using hfits
      simp only [deqIvLogged, if_neg hside]
      exact hgone .free fun _ h => by cases h
    next => exact hidle

/-- An event whose IVs fit changes no byte outside the private bytes of its operation. -/
theorem memory_step (hfits : s.Fits e) (hholds : s.Holds layout e.opId) {k : ℕ}
    (hk : k < layout.privAt e.opId ∨ layout.privAt e.opId + maximumIvLength ≤ k) :
    (s.step layout e).memory k = s.memory k := by
  obtain ⟨rest, state, hstep, hown⟩ := step_of_fits hfits hholds
  rw [hstep]
  exact Memory.setTail_of_outside hown.behind hk

/-- An event whose IVs fit sends none. -/
theorem sent_step (hfits : s.Fits e) (hholds : s.Holds layout e.opId) :
    (s.step layout e).sent = s.sent := by
  obtain ⟨rest, state, hstep, -⟩ := step_of_fits hfits hholds
  rw [hstep]
  rfl

/-- **Step.** An event whose IVs fit keeps the private bytes of all operations in flight: its
own operation gets what the enqueue function left, and the others lie elsewhere. -/
theorem holds_step (hfits : s.Fits e) (hholds : ∀ i, s.Holds layout i) (i : ℕ) :
    (s.step layout e).Holds layout i := by
  have houtside (k : ℕ)
      (hk : k < layout.privAt e.opId ∨ layout.privAt e.opId + maximumIvLength ≤ k) :
      (s.step layout e).memory k = s.memory k := memory_step hfits (hholds e.opId) hk
  obtain ⟨rest, state, hstep, hown⟩ := step_of_fits hfits (hholds e.opId)
  intro f hf a ha
  by_cases hi : i = e.opId
  · subst hi
    have hstate : state = .inFlight f := by
      rw [← hf, hstep]
      exact (Function.update_self e.opId state s.ops).symm
    have hpriv : (s.step layout e).priv layout e.opId = rest := by
      rw [hstep]
      exact Memory.tail_setTail
    rw [hpriv]
    exact hown.holds f hstate a ha
  · have hops : s.ops i = .inFlight f := by
      rw [← hf, hstep]
      exact (Function.update_of_ne hi state s.ops).symm
    obtain ⟨hin, hread⟩ := hholds i f hops a ha
    refine ⟨hin, Eq.trans (Memory.read_congr fun j hj => ?_) hread⟩
    refine houtside (layout.privAt i + (a.off + j)) ?_
    have hapart := layout.disjoint i e.opId hi
    have hend : a.off + j < maximumIvLength := by
      unfold IvAccess.Inside at hin
      omega
    unfold PoolLayout.privAt
    omega

end OpPool

/-- In a pool without operations in flight the private bytes are as they should be. -/
theorem OpPool.holds_start (layout : PoolLayout) (n : ℕ) (memory : Memory) (i : ℕ) :
    (OpPool.start n memory).Holds layout i := by
  intro f hf
  have hidle : (if i < n then OpState.free else .lost) = .inFlight f := hf
  split at hidle <;> cases hidle

/-- **IV storage.** For every number of operations and every order of enqueues and dequeues,
the IVs are stored safely exactly when they fit the private bytes wherever the enqueue
function takes a packet, which they never do on the encrypt side, and when no operation of a
cipher comes back on port 0. -/
theorem storedSafely_iff_fits (layout : PoolLayout) (n : ℕ) (memory : Memory)
    (es : List (PoolEvent Key)) :
    StoredSafely layout (OpPool.start n memory) es ↔
      Runs.StepsMeet (OpPool.step layout) OpPool.Fits (OpPool.start n memory) es := by
  have hstart := OpPool.holds_start layout n memory
  have hiff (s : OpPool) (e : PoolEvent Key) (hs : ∀ i, s.Holds layout i) :
      s.Contained layout e ↔ s.Fits e := by
    constructor
    · intro h
      exact OpPool.all_stepLogged.mp h.inside
    · intro h
      exact ⟨OpPool.all_stepLogged.mpr h, fun k hk => OpPool.memory_step h (hs e.opId) hk⟩
  have hkeep (s : OpPool) (e : PoolEvent Key) (hs : ∀ i, s.Holds layout i) (h : s.Fits e) :
      ∀ i, (s.step layout e).Holds layout i := OpPool.holds_step h hs
  have hcontained := Runs.stepsMeet_congr hiff hkeep hstart es
  constructor
  · intro h
    exact hcontained.mp h.contained
  · intro h
    refine ⟨hcontained.mpr h, ?_, ?_⟩
    · refine h.throughout hkeep (fun s hs opId f hf a ha => ?_) hstart
      exact (hs opId f hf a ha).2
    · have hsent (s : OpPool) (e : PoolEvent Key)
          (hs : (∀ i, s.Holds layout i) ∧ s.WireIvsUsed) (h : s.Fits e) :
          (∀ i, (s.step layout e).Holds layout i) ∧ (s.step layout e).WireIvsUsed := by
        refine ⟨hkeep s e hs.1 h, ?_⟩
        unfold OpPool.WireIvsUsed
        rw [OpPool.sent_step h (hs.1 e.opId)]
        exact hs.2
      have hnone : (OpPool.start n memory).WireIvsUsed := fun w hw => absurd hw List.not_mem_nil
      exact h.throughout hsent (fun s hs => hs.2) ⟨hstart, hnone⟩

/-- A pool of elements of 104 bytes, each behind a header of 64 bytes and on a cache line. -/
def cacheAlignedPool : PoolLayout where
  ivOffset := 88
  opAt := fun opId => 192 * opId + 64
  disjoint := by
    intro i j hne
    simp only [maximumIvLength]
    omega

/-- The copy of the IV of a first packet overwrites the header of the next element. -/
theorem copy_not_storedSafely :
    ¬StoredSafely cacheAlignedPool (OpPool.start 2 fun _ => 0)
        [.enqueue 0 (aesCbcBox true) (0, 1) [] 0 EncryptLcore.datagramFrame] ∧
      ((OpPool.start 2 fun _ => 0).step cacheAlignedPool
        (.enqueue 0 (aesCbcBox true) (0, 1) [] 0 EncryptLcore.datagramFrame)).memory 192 ≠ 0 := by
  have hchanged : ((OpPool.start 2 fun _ => 0).step cacheAlignedPool
      (.enqueue 0 (aesCbcBox true) (0, 1) [] 0 EncryptLcore.datagramFrame)).memory 192 ≠ 0 := by
    decide
  refine ⟨fun h => hchanged ?_, hchanged⟩
  exact h.contained.1.untouched 192 (by decide)

end IvStorage

end SecureWan
