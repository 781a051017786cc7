import SecureWan.Encryptor.Ownership

/-!
# What the device says about a packet

The device writes into `op->status` whether the digest of a packet was right. The dequeue
loop does not read it: a packet whose operation failed goes the way of all packets.
-/

namespace SecureWan

namespace QueueConf

variable {Key : Type} {s : QueueConf Key}

/-- No packet that was passed to `l2fwd_send_packet` toward the LAN port is of an operation
that came back with a status other than success. -/
def OnlyGenuine (cfg : LoopConfig) (s : QueueConf Key) : Prop :=
  ∀ h ∈ s.handed, h.1 = cfg.dstPorts wanPort → h.2.opFailed = false

/-- The operation succeeded, and so did those of the fragments that it completes, if the
packet is now complete. -/
def Genuine (s : QueueConf Key) (d : Dequeued) : Prop :=
  match d.reassembled with
  | .whole => d.success = true
  | .held => True
  | .complete others _ =>
    d.success = true ∧ ∀ p ∈ s.decapTable, others p = true → p.opFailed = false

/-- The step completes no packet of an operation that failed on the WAN port. -/
def Verified (s : QueueConf Key) : LoopEvent Key → Prop
  | .egress _ _ | .drain _ | .noOps _ | .frame _ _ => True
  | .dequeued i d => ∀ port, s.rxPorts[i]? = some port → port.portid = wanPort →
    d.index < (s.device port.devId).length → Genuine s d

section Handed

@[simp] theorem handed_freePkt (p : Packet) : (s.freePkt p).handed = s.handed := rfl

@[simp] theorem handed_freeOp (opId : ℕ) : (s.freeOp opId).handed = s.handed := rfl

@[simp] theorem handed_takeMbufs (c : Chain) : (s.takeMbufs c).handed = s.handed := rfl

@[simp] theorem handed_takeOp : s.takeOp.handed = s.handed := rfl

@[simp] theorem handed_txBurst (accepted : ℕ) (ps : List Packet) :
    (s.txBurst accepted ps).handed = s.handed := rfl

@[simp] theorem handed_l2fwdSendBurst (port : Port) (accepted : ℕ) :
    (s.l2fwdSendBurst port accepted).handed = s.handed := rfl

@[simp] theorem handed_l2fwdCryptoSendBurst (dev : Dev) (accepted : ℕ) :
    (s.l2fwdCryptoSendBurst dev accepted).handed = s.handed := rfl

@[simp] theorem handed_installKey (epoch : UInt8) (key : Key) :
    (s.installKey epoch key).handed = s.handed := rfl

@[simp] theorem handed_tfDrainDeathRow (staleRx staleDecap : Packet → Bool) :
    (s.tfDrainDeathRow staleRx staleDecap).handed = s.handed := rfl

@[simp] theorem handed_dropFrame (c : Chain) : (dropFrame s c).handed = s.handed := rfl

@[simp] theorem handed_l2fwdSendPacket (p : Packet) (port : Port) (accepted : ℕ) :
    (s.l2fwdSendPacket p port accepted).handed = s.handed ++ [(port, p)] := by
  unfold l2fwdSendPacket
  dsimp only
  split
  · exact handed_l2fwdSendBurst port accepted
  · rfl

@[simp] theorem handed_l2fwdCryptoEnqueue (f : InFlight Key) (dev : Dev) (accepted : ℕ) :
    (s.l2fwdCryptoEnqueue f dev accepted).handed = s.handed := by
  unfold l2fwdCryptoEnqueue
  dsimp only
  split
  · exact handed_l2fwdCryptoSendBurst dev accepted
  · rfl

@[simp] theorem handed_simpleCryptoEnqueue (port : RxPort Key) (p : Packet) (opId : ℕ)
    (pktIv : Bytes) (epoch : UInt8) (choice : EnqueueChoice) :
    (s.simpleCryptoEnqueue port p opId pktIv epoch choice).handed = s.handed := by
  unfold simpleCryptoEnqueue
  split
  · rfl
  · exact handed_l2fwdCryptoEnqueue _ port.devId choice.accepted

@[simp] theorem handed_cbPuntToKernel (cfg : LoopConfig) (p : Packet) (punted : Bool) :
    (s.cbPuntToKernel cfg p punted).handed = s.handed := by
  unfold cbPuntToKernel
  split
  · rfl
  split
  · rfl
  dsimp only
  split <;> rfl

/-- A loop whose body hands nothing on hands nothing on. -/
theorem handed_foldl {ρ : Type} {body : QueueConf Key → ρ → QueueConf Key}
    (hbody : ∀ s r, (body s r).handed = s.handed) (rs : List ρ) (s : QueueConf Key) :
    (rs.foldl body s).handed = s.handed := by
  induction rs generalizing s with
  | nil => rfl
  | cons r rs ih => rw [List.foldl_cons, ih, hbody]

theorem handed_cbPumpFrames (frames : List Chain) (st : QueueConf Key × List Packet) :
    (frames.foldl cbPumpFrame st).1.handed = st.1.handed := by
  induction frames generalizing st with
  | nil => rfl
  | cons c frames ih =>
    rw [List.foldl_cons, ih]
    unfold cbPumpFrame
    dsimp only
    split <;> rfl

@[simp] theorem handed_cbPumpEgress (cfg : LoopConfig) (frames : List Chain) (accepted : ℕ) :
    (s.cbPumpEgress cfg frames accepted).handed = s.handed := by
  unfold cbPumpEgress
  split
  · rfl
  · exact handed_cbPumpFrames frames (s, [])

@[simp] theorem handed_drain (d : Drain Key) : (s.drain d).handed = s.handed := by
  have hsend (s : QueueConf Key) (port : Port) :
      (if s.pktBuf port = [] then s else s.l2fwdSendBurst port (d.txAccepted port)).handed =
        s.handed := by
    split <;> rfl
  have hcrypto (s : QueueConf Key) (port : RxPort Key) :
      (s.l2fwdCryptoSendBurst port.devId (d.cryptoAccepted port.devId)).handed = s.handed := rfl
  have hinstall (s : QueueConf Key) (i : UInt8 × Key) :
      (s.installKey i.1 i.2).handed = s.handed := rfl
  unfold drain
  dsimp only
  rw [handed_foldl hsend, handed_foldl hcrypto, handed_tfDrainDeathRow, handed_foldl hinstall]

theorem handed_enqueueFragment (port : RxPort Key) (epoch : UInt8) (s : QueueConf Key)
    (f : Fragment) : (enqueueFragment port epoch s f).handed = s.handed := by
  unfold enqueueFragment
  dsimp only
  split
  · rfl
  · simp

@[simp] theorem handed_encryptPath (port : RxPort Key) (p : Packet) (opId : ℕ) (f : RxFrame) :
    (s.encryptPath port p opId f).handed = s.handed := by
  unfold encryptPath
  dsimp only
  split
  · simp
  · rfl
  · rw [handed_foldl (handed_enqueueFragment port _)]
    simp

/-- A received frame is handed on only if it is ARP. -/
theorem handed_rxFrame (cfg : LoopConfig) (port : RxPort Key) (f : RxFrame) :
    (s.rxFrame cfg port f).handed = s.handed ∨ (s.rxFrame cfg port f).handed =
      s.handed ++ [(cfg.dstPorts port.portid, s.freshPkt f.chain)] := by
  unfold rxFrame
  dsimp only
  split
  · split <;> simp
  split
  · simp
  · split <;> simp

/-- A packet that `l2fwd_simple_forward` takes on the WAN port is handed on. -/
theorem handed_simpleForward_wan (cfg : LoopConfig) {port : RxPort Key}
    (hwan : port.portid = wanPort) (p : Packet) (iv : Bytes) (txAccepted : ℕ) :
    ∃ data, (s.simpleForward cfg port p iv txAccepted).handed =
      s.handed ++ [(cfg.dstPorts wanPort, { p with data := data })] := by
  have hforward : ∃ m, l2fwdSimpleForward cfg.ipv4Cksum port.portid.val s.encCs
      cfg.authDigestLength iv p.data = some m := by
    rw [hwan]
    exact ⟨_, rfl⟩
  obtain ⟨m, hm⟩ := hforward
  refine ⟨m, ?_⟩
  simp only [simpleForward, hm]
  rw [handed_l2fwdSendPacket, hwan]

/-- On another port it is handed on, or not. -/
theorem handed_simpleForward (cfg : LoopConfig) (port : RxPort Key) (p : Packet) (iv : Bytes)
    (txAccepted : ℕ) :
    (s.simpleForward cfg port p iv txAccepted).handed = s.handed ∨
      ∃ data, (s.simpleForward cfg port p iv txAccepted).handed =
        s.handed ++ [(cfg.dstPorts port.portid, { p with data := data })] := by
  unfold simpleForward
  split
  · exact .inl rfl
  · exact .inr ⟨_, handed_l2fwdSendPacket _ _ txAccepted⟩

end Handed

variable {s' : QueueConf Key} {cfg : LoopConfig}

theorem onlyGenuine_congr (h : s'.handed = s.handed) : OnlyGenuine cfg s' ↔ OnlyGenuine cfg s := by
  rw [OnlyGenuine, OnlyGenuine, h]

/-- One more packet is passed on. -/
theorem onlyGenuine_append {port : Port} {p : Packet} (h : s'.handed = s.handed ++ [(port, p)]) :
    OnlyGenuine cfg s' ↔
      OnlyGenuine cfg s ∧ (port = cfg.dstPorts wanPort → p.opFailed = false) := by
  simp only [OnlyGenuine, h, List.forall_mem_append, List.forall_mem_singleton]

/-- The packets of other ports are of no operation that failed. -/
theorem onlyGenuine_append_of_genuine {port : Port} {p : Packet}
    (h : s'.handed = s.handed ++ [(port, p)]) (hp : p.opFailed = false) :
    OnlyGenuine cfg s' ↔ OnlyGenuine cfg s := by
  rw [onlyGenuine_append h]
  exact and_iff_left fun _ => hp

theorem onlyGenuine_rxFrame (port : RxPort Key) (f : RxFrame) :
    OnlyGenuine cfg (s.rxFrame cfg port f) ↔ OnlyGenuine cfg s := by
  rcases handed_rxFrame cfg port f with hsame | harp
  · exact onlyGenuine_congr hsame
  · exact onlyGenuine_append_of_genuine harp rfl

/-- What the WAN port completes is genuine or not as its operations are. -/
theorem genuine_iff {port : RxPort Key} (hwan : port.portid = wanPort) (f : InFlight Key)
    (d : Dequeued) : Genuine s d ↔
      ∀ p ∈ (reassemble s.decapTable (returnedPkt port f d) d.reassembled).1,
        p.opFailed = false := by
  have hfailed : (returnedPkt port f d).opFailed = !d.success := by
    simp [returnedPkt, hwan, wanPort]
  unfold Genuine
  cases d.reassembled with
  | whole => simp [reassemble, hfailed]
  | held => simp [reassemble]
  | complete others data => simp [reassemble, hfailed]

theorem onlyGenuine_dequeue (port : RxPort Key) (d : Dequeued) :
    OnlyGenuine cfg (s.dequeue cfg port d) ↔ OnlyGenuine cfg s ∧ (port.portid = wanPort →
      d.index < (s.device port.devId).length → Genuine s d) := by
  unfold dequeue
  cases hf : (s.device port.devId)[d.index]? with
  | none =>
    have hout : ¬d.index < (s.device port.devId).length := by
      rw [List.getElem?_eq_none_iff] at hf
      omega
    exact (and_iff_left fun _ h => absurd h hout).symm
  | some f =>
    obtain ⟨hin, _⟩ := List.getElem?_eq_some_iff.mp hf
    dsimp only
    by_cases hwan : port.portid = wanPort
    · have hgenuine := genuine_iff (s := s) hwan f d
      have hone : port.portid.val = 1 := by rw [hwan]; rfl
      rw [if_pos hone, hgenuine]
      cases hr : reassemble s.decapTable (returnedPkt port f d) d.reassembled with
      | mk whole table =>
        cases whole with
        | none => simp [OnlyGenuine]
        | some p =>
          obtain ⟨data, hhanded⟩ := handed_simpleForward_wan (s := { s with
            device := Function.update s.device port.devId ((s.device port.devId).eraseIdx d.index)
            decapTable := table }) cfg hwan p
            (if port.cparams.chain.doCipher then f.op.priv.read savedIvAt ivInPacketSize else [])
            d.txAccepted
          refine (onlyGenuine_append (s := s) hhanded).trans ?_
          simp [hwan, hin]
    · have hone : ¬port.portid.val = 1 := fun h => hwan (Fin.ext h)
      have hsuccess : (returnedPkt port f d).opFailed = false := by simp [returnedPkt, hone]
      rw [if_neg hone, and_iff_left fun h => absurd h hwan]
      rcases handed_simpleForward (s := { s with
        device := Function.update s.device port.devId ((s.device port.devId).eraseIdx d.index) })
        cfg port (returnedPkt port f d)
        (if port.cparams.chain.doCipher then f.op.priv.read savedIvAt ivInPacketSize else [])
        d.txAccepted with hsame | ⟨data, hhanded⟩
      · exact onlyGenuine_congr hsame
      · exact onlyGenuine_append_of_genuine hhanded hsuccess

/-- **One step.** -/
theorem onlyGenuine_step (cfg : LoopConfig) (s : QueueConf Key) (e : LoopEvent Key) :
    OnlyGenuine cfg (s.step cfg e) ↔ OnlyGenuine cfg s ∧ Verified s e := by
  cases e with
  | egress frames accepted =>
    simp only [step, Verified, and_true]
    exact onlyGenuine_congr (handed_cbPumpEgress cfg frames accepted)
  | drain d =>
    simp only [step, Verified, and_true]
    exact onlyGenuine_congr (handed_drain d)
  | noOps frames =>
    simp only [step, Verified, and_true]
    exact onlyGenuine_congr (handed_foldl (fun s c => handed_dropFrame c) frames s)
  | frame i f =>
    simp only [step, Verified, and_true]
    split
    · exact Iff.rfl
    · exact onlyGenuine_rxFrame _ f
  | dequeued i d =>
    simp only [step, Verified]
    cases s.rxPorts[i]? with
    | none => exact (and_iff_left fun _ h => by cases h).symm
    | some port =>
      refine (onlyGenuine_dequeue port d).trans (and_congr_right fun _ => ?_)
      exact ⟨fun h port' hport => Option.some.inj hport ▸ h, fun h => h port rfl⟩

/-- **Every run.** No packet of a failed operation is passed on toward the LAN port, exactly
when the steps complete no such packet. -/
theorem mainLoop_onlyGenuine_iff (cfg : LoopConfig) (rxPorts : List (RxPort Key))
    (its : List (LoopIteration Key)) :
    Runs.Throughout (iterate cfg) (OnlyGenuine cfg) (start rxPorts) its ↔
      Runs.StepsMeet (iterate cfg) (fun s it =>
        Runs.StepsMeet (step cfg) Verified s (it.events s.hasWan)) (start rxPorts) its := by
  have hiteration (s : QueueConf Key) (it : LoopIteration Key) (_ : True)
      (hs : OnlyGenuine cfg s) : OnlyGenuine cfg (s.iterate cfg it) ↔
        Runs.StepsMeet (step cfg) Verified s (it.events s.hasWan) :=
    (Runs.run_iff_stepsMeet (onlyGenuine_step cfg) s _).trans (and_iff_right hs)
  have hstart : OnlyGenuine cfg (start rxPorts) := by simp [OnlyGenuine, start]
  exact Runs.throughout_iff_stepsMeet (fun _ _ _ _ _ => trivial) hiteration trivial hstart its

end QueueConf

/-- A tunnel frame with one block and a digest. -/
def tunnelFrame : RxFrame :=
  { strayFrame with
    chain := ⟨0, { shortFrame with
      data := List.replicate 12 0 ++ be16 etherTypeIpv4 ++ List.replicate 9 0 ++ [17] ++
        List.replicate 70 0
      bufLen_lt := by simp [shortFrame] }⟩ }

/-- A drain that sends what waits for the devices. -/
def sendAll : Drain Bytes := ⟨[], fun _ => false, fun _ => false, fun _ => 32, fun _ => 32⟩

/-- The device returns the operation with a digest that was wrong. -/
def wrongDigest : Dequeued where
  index := 0
  data := tunnelFrame.chain.data
  success := false
  reassembled := .whole
  txAccepted := 0

/-- The packet with the wrong digest is passed on. -/
theorem wrongDigest_passed :
    ¬∀ its, Runs.Throughout (QueueConf.iterate plainLoop) (QueueConf.OnlyGenuine plainLoop)
      (QueueConf.start [wanBox]) its := by
  intro h
  let arrive : LoopIteration Bytes := ⟨([], 0), none, [⟨true, [tunnelFrame], []⟩]⟩
  let giveBack : LoopIteration Bytes := ⟨([], 0), some sendAll, [⟨true, [], [wrongDigest]⟩]⟩
  have hafter : QueueConf.OnlyGenuine plainLoop (((QueueConf.start [wanBox]).iterate plainLoop
    arrive).iterate plainLoop giveBack) := (h [arrive, giveBack]).2.2
  have hhanded : (lanPort, true) ∈ (((QueueConf.start [wanBox]).iterate plainLoop
      arrive).iterate plainLoop giveBack).handed.map fun h => (h.1, h.2.opFailed) := by
    decide +kernel
  obtain ⟨passed, hpassed, heq⟩ := List.mem_map.mp hhanded
  obtain ⟨hport, hfailed⟩ := Prod.mk.inj heq
  exact absurd (hafter passed hpassed hport) (by simp [hfailed])

end SecureWan
