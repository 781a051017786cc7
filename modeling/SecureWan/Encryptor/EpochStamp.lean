import SecureWan.Encryptor.RoundTrip
import SecureWan.Lib.Runs

/-!
# The epoch stamped on a packet

One lcore with one encrypting device. Operations wait in `op_buf`, then in the
device, and come back in any order; keys are installed at any time between. The
session is attached when a packet is enqueued, but the epoch in the TOS byte is
read when it is dequeued, so the two agree exactly when no install in between
leaves another epoch in force.
-/

namespace SecureWan

/-- An operation on its way, with its history: the epoch that was current when
it was enqueued, and the epoch of the last key installed since. -/
structure Flight (Key : Type) where
  op : CryptoOp Key
  txEpoch : UInt8
  lastInstall : Option UInt8

/-- A key install, as a flight sees it. -/
def Flight.install {Key : Type} (f : Flight Key) (epoch : UInt8) : Flight Key :=
  { f with lastInstall := some epoch }

/-- What `l2fwd_main_loop` keeps on an lcore that encrypts. -/
structure EncryptLcore (Key : Type) where
  cparams : CryptoParams Key
  /-- `op_buf`: operations that the device has not been given yet. -/
  opBuf : List (Flight Key)
  /-- Operations that the device has accepted and not yet returned. -/
  device : List (Flight Key)
  /-- The packets sent to the WAN, with the session attached to their operation. -/
  wan : List (Option (Session Key) × Mbuf)
  /-- The device has a cipher. -/
  doCipher : cparams.chain.doCipher = true

namespace EncryptLcore

variable {Key : Type}

/-- An lcore before its first packet. -/
def start (cp : CryptoParams Key) (hchain : cp.chain.doCipher = true) : EncryptLcore Key :=
  ⟨cp, [], [], [], hchain⟩

/-- What happens on the lcore. -/
inductive Event (Key : Type) where
  /-- A LAN frame is enqueued; if this fills `op_buf`, the device accepts the
  given number of operations. -/
  | enqueue (m : Mbuf) (rand : UInt64 × UInt64) (priv : Memory) (accepted : ℕ)
  /-- The drain timer flushes `op_buf`. -/
  | drain (accepted : ℕ)
  /-- A key is installed, by `kr_install_cb` or from the shared key. -/
  | install (epoch : UInt8) (key : Key)
  /-- The device returns the `i`th of its operations, with this packet. -/
  | dequeue (i : ℕ) (m : Mbuf)

/-- `l2fwd_crypto_send_burst`: what the device does not accept is freed. -/
def sendBurst (s : EncryptLcore Key) (accepted : ℕ) : EncryptLcore Key :=
  { s with opBuf := [], device := s.device ++ s.opBuf.take accepted }

/-- `MAX_PKT_BURST`. -/
def maxPktBurst : ℕ := 32

/-- `l2fwd_crypto_enqueue`. -/
def cryptoEnqueue (s : EncryptLcore Key) (f : Flight Key) (accepted : ℕ) : EncryptLcore Key :=
  let s := { s with opBuf := s.opBuf ++ [f] }
  if s.opBuf.length = maxPktBurst then s.sendBurst accepted else s

/-- One event. -/
def step (ipv4Cksum : Bytes → UInt16) (s : EncryptLcore Key) : Event Key → EncryptLcore Key
  | .enqueue m rand priv accepted =>
    let txEpoch := s.cparams.cs.epochCur
    match l2fwdSimpleCryptoEnqueue s.cparams rand [] txEpoch m (CryptoOp.alloc priv) with
    | none => s
    | some op => s.cryptoEnqueue ⟨op, txEpoch, none⟩ accepted
  | .drain accepted => s.sendBurst accepted
  | .install epoch key =>
    { s with
      cparams := s.cparams.installKey epoch key
      opBuf := s.opBuf.map (Flight.install · epoch)
      device := s.device.map (Flight.install · epoch)
      doCipher := by
        unfold CryptoParams.installKey
        split
        · exact s.doCipher
        · exact s.doCipher }
  | .dequeue i m =>
    match s.device[i]? with
    | none => s
    | some f =>
      let s := { s with device := s.device.eraseIdx i }
      let iv := f.op.priv.read savedIvAt ivInPacketSize
      match l2fwdSimpleForward ipv4Cksum 0 (some s.cparams.cs) 0 iv m with
      | none => s
      | some wire => { s with wan := s.wan ++ [(f.op.session, wire)] }

/-- A sent packet carries the epoch of the session attached to its operation, so
that any peer looks up the session of that epoch. -/
def StampedWith (sess : Session Key) (wire : Mbuf) : Prop :=
  wire.byteAt (etherHdrLen + 1) = sess.epoch ∧
    ∀ peer : CsPort Key,
      csSessionForEpoch peer (wire.byteAt (etherHdrLen + 1)) = csSessionForEpoch peer sess.epoch

/-- Every sent packet had a session and is stamped with its epoch. -/
def Stamped (s : EncryptLcore Key) : Prop :=
  ∀ sent ∈ s.wan, ∃ sess, sent.1 = some sess ∧ StampedWith sess sent.2

/-- The dequeue of a packet that can be encapsulated finds that no key with
another epoch was the last to be installed since its enqueue. -/
def KeepsEpoch (s : EncryptLcore Key) : Event Key → Prop
  | .dequeue i m =>
    ∀ f, s.device[i]? = some f → CanEncap m → ∀ epoch, f.lastInstall = some epoch →
      epoch = f.txEpoch
  | _ => True

/-- A flight in order: its session is the one of its epoch, and the current epoch
is the one installed last, or still its own. -/
structure FlightOk (cp : CryptoParams Key) (f : Flight Key) : Prop where
  session : ∃ sess, f.op.session = some sess ∧ sess.epoch = f.txEpoch
  current : cp.cs.epochCur = f.lastInstall.getD f.txEpoch

/-- All operations of the lcore are in order. -/
def Inv (s : EncryptLcore Key) : Prop :=
  ∀ f ∈ s.opBuf ++ s.device, FlightOk s.cparams f

variable {ipv4Cksum : Bytes → UInt16} {s : EncryptLcore Key}

/-- A fresh flight is in order. -/
theorem flightOk_fresh {cp : CryptoParams Key} {rand : UInt64 × UInt64} {m : Mbuf} {priv : Memory}
    {op : CryptoOp Key}
    (h : l2fwdSimpleCryptoEnqueue cp rand [] cp.cs.epochCur m (CryptoOp.alloc priv) = some op) :
    FlightOk cp ⟨op, cp.cs.epochCur, none⟩ := by
  obtain ⟨_, hsession, _⟩ := of_enqueue h
  rw [CryptoParams.sessionFor_epochCur] at hsession
  exact ⟨⟨cp.cs.cur, hsession, rfl⟩, rfl⟩

/-- An install keeps flights in order: its epoch is the current one from now on. -/
theorem flightOk_install {cp : CryptoParams Key} {f : Flight Key} (h : FlightOk cp f)
    (hchain : cp.chain.doCipher = true) (epoch : UInt8) (key : Key) :
    FlightOk (cp.installKey epoch key) (f.install epoch) := by
  refine ⟨h.session, ?_⟩
  rw [CryptoParams.installKey, if_pos hchain]
  rfl

/-- Flushing loses operations or moves them on, and makes no new ones. -/
theorem inv_sendBurst (h : Inv s) (accepted : ℕ) : Inv (s.sendBurst accepted) := by
  intro f hf
  simp only [sendBurst, List.nil_append, List.mem_append] at hf
  rcases hf with hdevice | hbuf
  · exact h f (List.mem_append_right _ hdevice)
  · exact h f (List.mem_append_left _ (List.mem_of_mem_take hbuf))

theorem inv_cryptoEnqueue (h : Inv s) {f : Flight Key} (hf : FlightOk s.cparams f)
    (accepted : ℕ) : Inv (s.cryptoEnqueue f accepted) := by
  have happend : Inv { s with opBuf := s.opBuf ++ [f] } := by
    intro g hg
    simp only [List.mem_append, List.mem_singleton] at hg
    rcases hg with (hbuf | rfl) | hdevice
    · exact h g (List.mem_append_left _ hbuf)
    · exact hf
    · exact h g (List.mem_append_right _ hdevice)
  unfold cryptoEnqueue
  dsimp only
  split
  · exact inv_sendBurst happend accepted
  · exact happend

/-- **Step lemma.** Every event keeps the operations in order. -/
theorem inv_step (s : EncryptLcore Key) (e : Event Key) (h : Inv s) :
    Inv (step ipv4Cksum s e) := by
  cases e with
  | enqueue m rand priv accepted =>
    cases hop : l2fwdSimpleCryptoEnqueue s.cparams rand [] s.cparams.cs.epochCur m
        (CryptoOp.alloc priv) with
    | none => simpa only [step, hop] using h
    | some op =>
      simp only [step, hop]
      exact inv_cryptoEnqueue h (flightOk_fresh hop) accepted
  | drain accepted => exact inv_sendBurst h accepted
  | install epoch key =>
    intro f hf
    simp only [step, ← List.map_append, List.mem_map] at hf
    obtain ⟨g, hg, rfl⟩ := hf
    exact flightOk_install (h g hg) s.doCipher epoch key
  | dequeue i m =>
    have herase : Inv { s with device := s.device.eraseIdx i } := by
      intro f hf
      rcases List.mem_append.mp hf with hbuf | hdevice
      · exact h f (List.mem_append_left _ hbuf)
      · exact h f (List.mem_append_right _ (List.mem_of_mem_eraseIdx hdevice))
    unfold step
    dsimp only
    split
    · exact h
    · split
      · exact herase
      · exact herase

/-- Which packet a dequeue sends: one that can be encapsulated, with the epoch
that is current now. -/
theorem forward_encrypt (ipv4Cksum : Bytes → UInt16) {iv : Bytes}
    (hiv : iv.length = ivInPacketSize) (cs : CsPort Key) (m : Mbuf) :
    (¬CanEncap m ∧ l2fwdSimpleForward ipv4Cksum 0 (some cs) 0 iv m = none) ∨
      (CanEncap m ∧ ∃ wire, l2fwdSimpleForward ipv4Cksum 0 (some cs) 0 iv m = some wire ∧
        wire.byteAt (etherHdrLen + 1) = cs.epochCur) := by
  have hencap : l2fwdSimpleForward ipv4Cksum 0 (some cs) 0 iv m =
      tunnelEncap ipv4Cksum iv cs.epochCur m := rfl
  rw [hencap]
  cases hwire : tunnelEncap ipv4Cksum iv cs.epochCur m with
  | none =>
    refine Or.inl ⟨fun hroom => ?_, rfl⟩
    obtain ⟨wire, hsome⟩ := tunnelEncap_of_canEncap ipv4Cksum cs.epochCur hiv hroom
    rw [hwire] at hsome
    cases hsome
  | some wire =>
    obtain ⟨hroom, htos⟩ := of_tunnelEncap hiv hwire
    exact Or.inr ⟨hroom, wire, rfl, htos⟩

/-- The stamp fits a flight in order exactly when the last install since its
enqueue, if any, has its epoch. -/
theorem stampedWith_iff {cp : CryptoParams Key} {f : Flight Key} (h : FlightOk cp f) {wire : Mbuf}
    (htos : wire.byteAt (etherHdrLen + 1) = cp.cs.epochCur) :
    (∃ sess, f.op.session = some sess ∧ StampedWith sess wire) ↔
      ∀ epoch, f.lastInstall = some epoch → epoch = f.txEpoch := by
  obtain ⟨sess, hsess, hepoch⟩ := h.session
  have hcurrent := h.current
  constructor
  · rintro ⟨sess', hsess', hstamp, _⟩ epoch hlast
    obtain rfl : sess = sess' := Option.some.inj (hsess.symm.trans hsess')
    rw [hlast, Option.getD_some] at hcurrent
    rw [← hcurrent, ← htos, hstamp, hepoch]
  · intro hkeeps
    have hstamp : wire.byteAt (etherHdrLen + 1) = sess.epoch := by
      rw [htos, hcurrent, hepoch]
      cases hlast : f.lastInstall with
      | none => rfl
      | some epoch => exact hkeeps epoch hlast
    exact ⟨sess, hsess, hstamp, fun peer => by rw [hstamp]⟩

/-- **Step lemma.** An event keeps all sent packets stamped exactly when it keeps
the epoch of what it sends. -/
theorem stamped_step_iff (s : EncryptLcore Key) (e : Event Key) (hinv : Inv s) (hs : Stamped s) :
    Stamped (step ipv4Cksum s e) ↔ KeepsEpoch s e := by
  cases e with
  | enqueue m rand priv accepted =>
    refine iff_of_true ?_ trivial
    unfold step
    dsimp only
    split
    · exact hs
    · unfold cryptoEnqueue
      dsimp only
      split
      · exact hs
      · exact hs
  | drain accepted => exact iff_of_true hs trivial
  | install epoch key => exact iff_of_true hs trivial
  | dequeue i m =>
    cases hflight : s.device[i]? with
    | none =>
      refine iff_of_true ?_ ?_
      · simpa only [step, hflight] using hs
      · intro f hf
        rw [hflight] at hf
        cases hf
    | some f =>
      have hok : FlightOk s.cparams f :=
        hinv f (List.mem_append_right _ (List.mem_of_getElem? hflight))
      have hkeeps : KeepsEpoch s (.dequeue i m) ↔
          (CanEncap m → ∀ epoch, f.lastInstall = some epoch → epoch = f.txEpoch) := by
        simp only [KeepsEpoch, hflight, Option.some.injEq, forall_eq']
      have hiv : (f.op.priv.read savedIvAt ivInPacketSize).length = ivInPacketSize :=
        Memory.length_read
      rw [hkeeps]
      rcases forward_encrypt ipv4Cksum hiv s.cparams.cs m with
        ⟨hroom, hnone⟩ | ⟨hroom, wire, hwire, htos⟩
      · refine iff_of_true ?_ (fun h => absurd h hroom)
        simp only [step, hflight, hnone]
        exact hs
      · have hsent : Stamped (step ipv4Cksum s (.dequeue i m)) ↔
            ∃ sess, f.op.session = some sess ∧ StampedWith sess wire := by
          simp only [step, hflight, hwire, Stamped, List.mem_append, List.mem_singleton]
          constructor
          · intro h
            exact h (f.op.session, wire) (Or.inr rfl)
          · rintro h sent (hold | rfl)
            · exact hs sent hold
            · exact h
        rw [hsent, stampedWith_iff hok htos]
        exact ⟨fun h _ => h, fun h => h hroom⟩

section Sample

/-- The frame of an empty datagram. -/
def datagramFrame : Mbuf := lanFrame etherTypeIpv4 emptyDatagram (by decide)

/-- One packet passes the lcore, under the bootstrap key and then under a new one. -/
def straddlingRun (epoch : UInt8) : List (Event Bytes) :=
  [.enqueue datagramFrame (0, 0) (fun _ => 0) 0, .drain 1, .install epoch (List.replicate 16 1),
    .dequeue 0 datagramFrame]

/-- In the straddling run, the packet is in the device when the key is installed. -/
theorem straddlingRun_stepsMeet (epoch : UInt8) :
    Runs.StepsMeet (step fun _ => 0) KeepsEpoch (start (aesCbcBox true) rfl)
      (straddlingRun epoch) ↔ epoch = 0 := by
  have henqueue : ∃ op, l2fwdSimpleCryptoEnqueue (aesCbcBox true) (0, 0) [] 0 datagramFrame
      (CryptoOp.alloc fun _ => 0) = some op :=
    enqueue_isSome (0, 0) [] 0 _ (by decide) (by rw [datagramFrame, lanFrame_tailroom]; decide)
  obtain ⟨op, hop⟩ := henqueue
  have hroom : CanEncap datagramFrame := by
    refine ⟨by decide, ?_⟩
    rw [datagramFrame, lanFrame_headroom]
    decide
  have hepoch : (aesCbcBox true).cs.epochCur = 0 := rfl
  simp [straddlingRun, Runs.StepsMeet, KeepsEpoch, step, start, hepoch, hop, cryptoEnqueue,
    sendBurst, maxPktBurst, Flight.install, hroom]

end Sample

/-- **Runs.** In a run from an lcore without packets, every sent packet carries
the epoch of its session exactly when no dequeue that sends comes after an
install that left another epoch in force. -/
theorem epochStamp_iff (ipv4Cksum : Bytes → UInt16) (cp : CryptoParams Key)
    (hchain : cp.chain.doCipher = true) (es : List (Event Key)) :
    Runs.Throughout (step ipv4Cksum) Stamped (start cp hchain) es ↔
      Runs.StepsMeet (step ipv4Cksum) KeepsEpoch (start cp hchain) es :=
  Runs.throughout_iff_stepsMeet (fun s e hinv _ _ => inv_step s e hinv) stamped_step_iff
    (by simp [Inv, start]) (by simp [Stamped, start]) es

/-- A key that continues the epoch of the bootstrap key straddles without harm. -/
theorem epochStamp_sameEpoch :
    Runs.Throughout (step fun _ => 0) Stamped (start (aesCbcBox true) rfl) (straddlingRun 0) :=
  (epochStamp_iff (fun _ => 0) (aesCbcBox true) rfl (straddlingRun 0)).mpr
    ((straddlingRun_stepsMeet 0).mpr rfl)

/-- A key of the next epoch, installed while a packet is in the device, makes the
packet carry an epoch that is not the one of its session. -/
theorem epochStamp_straddled :
    ¬Runs.Throughout (step fun _ => 0) Stamped (start (aesCbcBox true) rfl) (straddlingRun 1) := by
  intro h
  have hsteps := (Runs.throughout_iff_stepsMeet (fun s e hinv _ _ => inv_step s e hinv)
    stamped_step_iff (by simp [Inv, start]) (by simp [Stamped, start]) (straddlingRun 1)).mp h
  exact absurd ((straddlingRun_stepsMeet 1).mp hsteps) (by decide)

end EncryptLcore

end SecureWan
