import SecureWan.Encryptor.EpochStamp
import SecureWan.KeyAgreement.KeyFreshness

/-!
# Rotating keys under traffic

Both boxes apply the keys of one TLS session, each in its own time, while packets
pass the sender's device, the network and the receiver in any order, some of them
never and some again. A packet meets three tables on its way: the sender's when it is
enqueued and when it is stamped, and the receiver's when it arrives. It is opened with
its own key exactly when the first two agree, and the third has not gone further than
the overlap window allows.
-/

namespace SecureWan

variable {Secret Key : Type}

/-- `kr_retire_cb`, for one device. -/
def CryptoParams.retirePrev (cp : CryptoParams Key) : CryptoParams Key :=
  if cp.chain.doCipher then { cp with cs := cp.cs.retirePrev } else cp

/-- A key install leaves the chain alone. -/
theorem CryptoParams.installKey_chain (cp : CryptoParams Key) (epoch : UInt8) (key : Key) :
    (cp.installKey epoch key).chain = cp.chain := by
  unfold installKey
  split <;> rfl

/-- The session that the receive path attaches to the operation for a frame, if the
frame comes that far. -/
def rxSession (cp : CryptoParams Key) (wire : Mbuf) : Option (Session Key) :=
  match wanRx cp wire with
  | .decrypt _ rxEpoch _ => some (cp.sessionFor rxEpoch)
  | _ => none

namespace Rotation

/-- The session for the key of an epoch. -/
def sessionOf (exporter : Exporter Secret Key) (secret : Secret) (epoch : UInt8) : Session Key :=
  ⟨epoch, exportTrafficKey exporter secret epoch⟩

/-- The epoch in force on a box that has applied this many keys of the session. -/
def epochAfter (count : ℕ) : UInt8 := UInt8.ofNat (count - 1)

/-- The two boxes, in one direction of the tunnel. -/
structure State (Key : Type) where
  /-- The lcore that encrypts. -/
  sender : EncryptLcore Key
  /-- How many keys of the session the sender has applied. -/
  sent : ℕ
  /-- For each packet on the wire, how many keys the sender had applied when it was
  stamped. -/
  stampedAt : List ℕ
  /-- The device of the other box that decrypts. -/
  receiver : CryptoParams Key
  /-- How many keys of the session the receiver has applied. -/
  received : ℕ
  /-- For each frame that has come in, the session that it was sealed with, and the
  one it was opened with. -/
  opened : List (Option (Session Key) × Option (Session Key))

/-- What happens on the boxes, or between them. -/
inductive Event where
  /-- A LAN frame is enqueued on the sender. -/
  | enqueue (m : Mbuf) (rand : UInt64 × UInt64) (priv : Memory) (accepted : ℕ)
  /-- The sender's drain timer flushes `op_buf`. -/
  | drain (accepted : ℕ)
  /-- The sender's device returns an operation with this packet. -/
  | dequeue (i : ℕ) (m : Mbuf)
  /-- The sender applies the next key. -/
  | senderInstall
  /-- The receiver applies the next key. -/
  | receiverInstall
  /-- The receiver's overlap window ends. -/
  | retire
  /-- The `k`th packet that was ever sent comes in. -/
  | receive (k : ℕ)

/-- One event. -/
def step (ipv4Cksum : Bytes → UInt16) (exporter : Exporter Secret Key) (secret : Secret)
    (s : State Key) : Event → State Key
  | .enqueue m rand priv accepted =>
    { s with sender := s.sender.step ipv4Cksum (.enqueue m rand priv accepted) }
  | .drain accepted => { s with sender := s.sender.step ipv4Cksum (.drain accepted) }
  | .dequeue i m =>
    let sender := s.sender.step ipv4Cksum (.dequeue i m)
    { s with
      sender := sender
      stampedAt := s.stampedAt ++
        List.replicate (sender.wan.length - s.sender.wan.length) s.sent }
  | .senderInstall =>
    let msg := rotationMsg exporter secret s.sent
    { s with sender := s.sender.step ipv4Cksum (.install msg.1 msg.2), sent := s.sent + 1 }
  | .receiverInstall =>
    let msg := rotationMsg exporter secret s.received
    { s with receiver := s.receiver.installKey msg.1 msg.2, received := s.received + 1 }
  | .retire => { s with receiver := s.receiver.retirePrev }
  | .receive k =>
    match s.sender.wan[k]? with
    | none => s
    | some (sealedWith, wire) =>
      { s with opened := s.opened ++ [(sealedWith, rxSession s.receiver wire)] }

/-- Both boxes have just applied the first key of the session, and nothing is on its way. -/
def start (exporter : Exporter Secret Key) (secret : Secret) (enc dec : CryptoParams Key)
    (henc : enc.chain.doCipher = true) : State Key where
  sender := .start (enc.installKey 0 (exportTrafficKey exporter secret 0))
    (by rw [CryptoParams.installKey_chain]; exact henc)
  sent := 1
  stampedAt := []
  receiver := dec.installKey 0 (exportTrafficKey exporter secret 0)
  received := 1
  opened := []

section Frame

variable {ipv4Cksum : Bytes → UInt16} {iv : Bytes} {epoch : UInt8} {m wire : Mbuf}

end Frame

/-! ### The receiver's table -/

section Receiver

variable {exporter : Exporter Secret Key} {secret : Secret} {cp : CryptoParams Key}
  {count stamped : ℕ}

/-- A session from before the TLS session: its key was under the first epoch, or it is none of
the keys that the TLS session exports. -/
def Earlier (exporter : Exporter Secret Key) (secret : Secret) (sess : Session Key) : Prop :=
  sess.epoch = 0 ∨ ∀ epoch, sess.key ≠ exportTrafficKey exporter secret epoch

/-- The table of a receiver that has applied so many keys of the session: the last of
them is in force, and before it comes the one before. Before the first comes an earlier one. -/
structure ReceiverOk (exporter : Exporter Secret Key) (secret : Secret) (cp : CryptoParams Key)
    (count : ℕ) : Prop where
  doCipher : cp.chain.doCipher = true
  one_le : 1 ≤ count
  cur : cp.cs.cur = sessionOf exporter secret (epochAfter count)
  prev : ∀ sess, cp.cs.prev = some sess →
    (2 ≤ count ∧ sess = sessionOf exporter secret (epochAfter (count - 1))) ∨
      (count = 1 ∧ Earlier exporter secret sess)

/-- The next key comes under the next epoch. -/
theorem receiverOk_install (h : ReceiverOk exporter secret cp count) :
    ReceiverOk exporter secret
      (cp.installKey (rotationMsg exporter secret count).1 (rotationMsg exporter secret count).2)
      (count + 1) := by
  have hone := h.one_le
  rw [CryptoParams.installKey, if_pos h.doCipher]
  refine ⟨h.doCipher, Nat.le_add_left 1 count, rfl, ?_⟩
  intro sess hsess
  obtain rfl : cp.cs.cur = sess := Option.some.inj hsess
  exact Or.inl ⟨by omega, h.cur⟩

/-- The end of the window forgets the key before. -/
theorem receiverOk_retirePrev (h : ReceiverOk exporter secret cp count) :
    ReceiverOk exporter secret cp.retirePrev count := by
  rw [CryptoParams.retirePrev, if_pos h.doCipher]
  refine ⟨h.doCipher, h.one_le, h.cur, ?_⟩
  intro sess hsess
  cases hsess

end Receiver

/-! ### The sender -/

section Sender

variable (ipv4Cksum : Bytes → UInt16) (a : EncryptLcore Key)

/-- The operations of an lcore. -/
def flights (a : EncryptLcore Key) : List (Flight Key) := a.opBuf ++ a.device

/-- Flushing makes no operations. -/
theorem flights_sendBurst (accepted : ℕ) :
    ∀ f ∈ flights (a.sendBurst accepted), f ∈ flights a := by
  intro f hf
  simp only [flights, EncryptLcore.sendBurst, List.nil_append, List.mem_append] at hf ⊢
  exact hf.elim Or.inr fun hbuf => Or.inl (List.mem_of_mem_take hbuf)

/-- An enqueue adds at most an operation with the current session. -/
theorem step_enqueue (m : Mbuf) (rand : UInt64 × UInt64) (priv : Memory) (accepted : ℕ) :
    let a' := a.step ipv4Cksum (.enqueue m rand priv accepted)
    a'.cparams = a.cparams ∧ a'.wan = a.wan ∧
      ∀ f ∈ flights a', f ∈ flights a ∨ f.op.session = some a.cparams.cs.cur := by
  simp only [EncryptLcore.step]
  cases hop : l2fwdSimpleCryptoEnqueue a.cparams rand [] a.cparams.cs.epochCur m
      (CryptoOp.alloc priv) with
  | none => exact ⟨rfl, rfl, fun f hf => Or.inl hf⟩
  | some op =>
    have hsession : op.session = some a.cparams.cs.cur := by
      rw [(of_enqueue hop).2.1, CryptoParams.sessionFor_epochCur]
    have hadded : ∀ f ∈ flights { a with
          opBuf := a.opBuf ++ [⟨op, a.cparams.cs.epochCur, none⟩] },
        f ∈ flights a ∨ f.op.session = some a.cparams.cs.cur := by
      intro f hf
      simp only [flights, List.mem_append, List.mem_singleton] at hf ⊢
      rcases hf with (hbuf | rfl) | hdevice
      · exact Or.inl (Or.inl hbuf)
      · exact Or.inr hsession
      · exact Or.inl (Or.inr hdevice)
    unfold EncryptLcore.cryptoEnqueue
    dsimp only
    split
    · exact ⟨rfl, rfl, fun f hf => hadded f (flights_sendBurst _ accepted f hf)⟩
    · exact ⟨rfl, rfl, hadded⟩

/-- The sender stamps its current epoch. -/
theorem forward_sender (cs : CsPort Key) (iv : Bytes) (m : Mbuf) :
    l2fwdSimpleForward ipv4Cksum 0 (some cs) 0 iv m =
      tunnelEncap ipv4Cksum iv cs.epochCur m := rfl

/-- A dequeue sends nothing, or one packet of the device, with the current stamp. -/
theorem step_dequeue (i : ℕ) (m : Mbuf) :
    let a' := a.step ipv4Cksum (.dequeue i m)
    a'.cparams = a.cparams ∧ (∀ f ∈ flights a', f ∈ flights a) ∧
      (a'.wan = a.wan ∨ ∃ f ∈ flights a, ∃ iv wire, iv.length = ivInPacketSize ∧
        tunnelEncap ipv4Cksum iv a.cparams.cs.epochCur m = some wire ∧
        a'.wan = a.wan ++ [(f.op.session, wire)]) := by
  simp only [EncryptLcore.step]
  cases hflight : a.device[i]? with
  | none => exact ⟨rfl, fun f hf => hf, Or.inl rfl⟩
  | some f =>
    have herase : ∀ g ∈ flights { a with device := a.device.eraseIdx i }, g ∈ flights a := by
      intro g hg
      simp only [flights, List.mem_append] at hg ⊢
      exact hg.imp_right List.mem_of_mem_eraseIdx
    have hmem : f ∈ flights a := List.mem_append_right _ (List.mem_of_getElem? hflight)
    dsimp only
    rw [forward_sender]
    cases hwire : tunnelEncap ipv4Cksum (f.op.priv.read savedIvAt ivInPacketSize)
        a.cparams.cs.epochCur m with
    | none => exact ⟨rfl, herase, Or.inl rfl⟩
    | some wire =>
      exact ⟨rfl, herase, Or.inr ⟨f, hmem, _, wire, Memory.length_read, hwire, rfl⟩⟩

/-- An install changes the table, and leaves the operations their sessions. -/
theorem step_install (epoch : UInt8) (key : Key) :
    let a' := a.step ipv4Cksum (.install epoch key)
    a'.cparams.cs.cur = ⟨epoch, key⟩ ∧ a'.wan = a.wan ∧
      ∀ f ∈ flights a', ∃ g ∈ flights a, f.op = g.op := by
  refine ⟨?_, rfl, ?_⟩
  · simp only [EncryptLcore.step, CryptoParams.installKey, if_pos a.doCipher, csRotate_cur]
  · intro f hf
    simp only [flights, EncryptLcore.step, ← List.map_append, List.mem_map] at hf
    obtain ⟨g, hg, rfl⟩ := hf
    exact ⟨g, hg, rfl⟩

end Sender

/-! ### Runs -/

variable {ipv4Cksum : Bytes → UInt16} {exporter : Exporter Secret Key} {secret : Secret}

/-- A packet on the wire: the session it was sealed with is one of the TLS session's, and
its stamp is the epoch after so many keys. -/
structure OnWire (ipv4Cksum : Bytes → UInt16) (exporter : Exporter Secret Key) (secret : Secret)
    (frame : Option (Session Key) × Mbuf) (stamped : ℕ) : Prop where
  one_le : 1 ≤ stamped
  sealedWith : ∃ epoch, frame.1 = some (sessionOf exporter secret epoch)
  encap : ∃ iv m, iv.length = ivInPacketSize ∧
    tunnelEncap ipv4Cksum iv (epochAfter stamped) m = some frame.2

/-- Both tables are those of the keys applied so far, and all operations and packets have
sessions of the TLS session. -/
structure Inv (ipv4Cksum : Bytes → UInt16) (exporter : Exporter Secret Key) (secret : Secret)
    (s : State Key) : Prop where
  one_le : 1 ≤ s.sent
  cur : s.sender.cparams.cs.cur = sessionOf exporter secret (epochAfter s.sent)
  inFlight : ∀ f ∈ flights s.sender, ∃ epoch,
    f.op.session = some (sessionOf exporter secret epoch)
  wire : List.Forall₂ (OnWire ipv4Cksum exporter secret) s.sender.wan s.stampedAt
  receiver : ReceiverOk exporter secret s.receiver s.received

/-- **Step lemma.** Every event keeps the tables, the operations and the packets. -/
theorem inv_step (s : State Key) (e : Event) (h : Inv ipv4Cksum exporter secret s) :
    Inv ipv4Cksum exporter secret (step ipv4Cksum exporter secret s e) := by
  cases e with
  | enqueue m rand priv accepted =>
    obtain ⟨hcparams, hwan, hflights⟩ := step_enqueue ipv4Cksum s.sender m rand priv accepted
    refine ⟨h.one_le, ?_, ?_, ?_, h.receiver⟩
    · simp only [step, hcparams]
      exact h.cur
    · intro f hf
      rcases hflights f hf with hold | hnew
      · exact h.inFlight f hold
      · exact ⟨_, hnew.trans (congrArg some h.cur)⟩
    · simp only [step, hwan]
      exact h.wire
  | drain accepted =>
    exact ⟨h.one_le, h.cur, fun f hf => h.inFlight f (flights_sendBurst s.sender accepted f hf),
      h.wire, h.receiver⟩
  | dequeue i m =>
    obtain ⟨hcparams, hflights, hwan⟩ := step_dequeue ipv4Cksum s.sender i m
    refine ⟨h.one_le, ?_, fun f hf => h.inFlight f (hflights f hf), ?_, h.receiver⟩
    · simp only [step, hcparams]
      exact h.cur
    · simp only [step]
      rcases hwan with hsame | ⟨f, hf, iv, wire, hiv, hwire, hmore⟩
      · rw [hsame, Nat.sub_self, List.replicate_zero, List.append_nil]
        exact h.wire
      · rw [hmore, List.length_append, List.length_singleton, Nat.add_sub_cancel_left]
        refine List.rel_append h.wire (List.Forall₂.cons ⟨h.one_le, h.inFlight f hf, ?_⟩ .nil)
        refine ⟨iv, m, hiv, ?_⟩
        rw [← hwire, CsPort.epochCur, h.cur]
        rfl
  | senderInstall =>
    obtain ⟨hcur, hwan, hflights⟩ := step_install ipv4Cksum s.sender
      (rotationMsg exporter secret s.sent).1 (rotationMsg exporter secret s.sent).2
    refine ⟨Nat.le_add_left 1 s.sent, hcur, ?_, ?_, h.receiver⟩
    · intro f hf
      obtain ⟨g, hg, hop⟩ := hflights f hf
      obtain ⟨epoch, hsession⟩ := h.inFlight g hg
      exact ⟨epoch, by rw [hop, hsession]⟩
    · simp only [step, hwan]
      exact h.wire
  | receiverInstall =>
    exact ⟨h.one_le, h.cur, h.inFlight, h.wire, receiverOk_install h.receiver⟩
  | retire => exact ⟨h.one_le, h.cur, h.inFlight, h.wire, receiverOk_retirePrev h.receiver⟩
  | receive k =>
    unfold step
    dsimp only
    split
    · exact h
    · exact ⟨h.one_le, h.cur, h.inFlight, h.wire, h.receiver⟩

section Sample

end Sample

end Rotation

end SecureWan
