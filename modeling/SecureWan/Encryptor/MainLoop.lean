import SecureWan.Encryptor.EpochStamp
import Mathlib.Algebra.BigOperators.Group.Finset.Basic

/-!
# The main loop of an lcore

`l2fwd_main_loop` with every buffer that a packet or an operation can be in: `op_buf`, the
crypto device, `pkt_buf`, the two reassembly tables, the wire, and the pools they are freed
to. Mbufs and operations have numbers, handed out when they are taken from their pools.
What the hardware and the fragmentation code decide is part of the events.
-/

namespace SecureWan

/-- `RTE_MAX_ETHPORTS`. -/
def rteMaxEthports : ℕ := 32

/-- `RTE_CRYPTO_MAX_DEVS`. -/
def rteCryptoMaxDevs : ℕ := 64

/-- A port number. -/
abbrev Port := Fin rteMaxEthports

/-- A crypto device number. -/
abbrev Dev := Fin rteCryptoMaxDevs

/-- A packet: the mbufs of its chain and the bytes. -/
structure Packet where
  mbufs : List ℕ
  mbufs_ne : mbufs ≠ []
  data : Mbuf
  /-- The operation of the packet, or of a fragment of it, came back from the decrypt side
  with a status other than success. -/
  opFailed : Bool

/-- An operation with the mbufs of its `m_src`. -/
structure InFlight (Key : Type) where
  opId : ℕ
  op : CryptoOp Key
  mbufs : List ℕ
  mbufs_ne : mbufs ≠ []

/-- An entry of `rx_port_list` with its `port_cparams`. -/
structure RxPort (Key : Type) where
  portid : Port
  devId : Dev
  cparams : CryptoParams Key

/-- What does not change while the loop runs. -/
structure LoopConfig where
  ipv4Cksum : Bytes → UInt16
  /-- `l2fwd_dst_ports`. -/
  dstPorts : Port → Port
  /-- `options->auth_xform.auth.digest_length`. -/
  authDigestLength : ℕ
  /-- `g_ready` of the control bridge. -/
  ctrlReady : Bool

/-- `lcore_queue_conf`, with the containers around it, between two steps of the loop. -/
structure QueueConf (Key : Type) where
  rxPorts : List (RxPort Key)
  opBuf : Dev → List (InFlight Key)
  /-- Operations that a device has accepted and not yet returned. -/
  device : Dev → List (InFlight Key)
  pktBuf : Port → List Packet
  /-- Fragments that wait for others, before encryption and after decryption. -/
  rxTable : List Packet
  decapTable : List Packet
  /-- Everything the ports have accepted. -/
  wire : List Packet
  freedMbufs : List ℕ
  freedOps : List ℕ
  nextMbuf : ℕ
  nextOp : ℕ
  /-- The packets passed to `l2fwd_send_packet`, with the port. -/
  handed : List (Port × Packet)

/-- A chain of `more + 1` mbufs. -/
structure Chain where
  more : ℕ
  data : Mbuf

/-- What a reassembly function does with a packet: it is no fragment, or it is kept, or it
completes a packet with some of those that are kept. -/
inductive Reassembled where
  | whole
  | held
  | complete (others : Packet → Bool) (data : Mbuf)

/-- What `tf_fragment_inner` does with a packet: it is returned, or it is freed and its
fragments are returned, none if it failed. Each fragment says whether an operation can be
allocated for it, where one is, and how `l2fwd_crypto_enqueue` goes. -/
inductive Fragmented (α : Type) where
  | whole
  | split (frags : List α)

/-- The free choices of one enqueue: the random IV, the stale memory of the operation, and
how many operations the device accepts if `op_buf` is full. -/
structure EnqueueChoice where
  rand : UInt64 × UInt64
  priv : Memory
  accepted : ℕ

/-- A fragment with its choices. -/
structure Fragment where
  chain : Chain
  opAllocated : Bool
  choice : EnqueueChoice

/-- A received frame with all that is decided while it is processed. -/
structure RxFrame where
  chain : Chain
  choice : EnqueueChoice
  /-- How many packets the port accepts if `pkt_buf` is full. -/
  txAccepted : ℕ
  /-- The control port accepts a punted frame. -/
  punted : Bool
  reassembled : Reassembled
  fragmented : Fragmented Fragment

/-- An operation that the device returns. -/
structure Dequeued where
  /-- Which of the operations in the device. -/
  index : ℕ
  /-- The packet as the device leaves it. -/
  data : Mbuf
  /-- `op->status` is `RTE_CRYPTO_OP_STATUS_SUCCESS`. -/
  success : Bool
  reassembled : Reassembled
  txAccepted : ℕ

/-- The choices of a drain: the keys installed, the fragments evicted, and what the devices
and ports accept. -/
structure Drain (Key : Type) where
  installs : List (UInt8 × Key)
  staleRx : Packet → Bool
  staleDecap : Packet → Bool
  cryptoAccepted : Dev → ℕ
  txAccepted : Port → ℕ

namespace QueueConf

variable {Key : Type} (s : QueueConf Key)

/-- `rte_pktmbuf_free`: the whole chain. -/
def freePkt (p : Packet) : QueueConf Key := { s with freedMbufs := s.freedMbufs ++ p.mbufs }

/-- `rte_crypto_op_free`. -/
def freeOp (opId : ℕ) : QueueConf Key := { s with freedOps := s.freedOps ++ [opId] }

/-- A packet in fresh mbufs. -/
def freshPkt (c : Chain) : Packet where
  mbufs := List.range' s.nextMbuf (c.more + 1)
  mbufs_ne := by simp
  data := c.data
  opFailed := false

/-- The mbufs of a fresh packet are taken from their pool. -/
def takeMbufs (c : Chain) : QueueConf Key := { s with nextMbuf := s.nextMbuf + (c.more + 1) }

/-- An operation is taken from its pool. -/
def takeOp : QueueConf Key := { s with nextOp := s.nextOp + 1 }

/-- `rte_eth_tx_burst` on a list of packets, with the rest freed. -/
def txBurst (accepted : ℕ) (ps : List Packet) : QueueConf Key :=
  { s with
    wire := s.wire ++ ps.take accepted
    freedMbufs := s.freedMbufs ++ (ps.drop accepted).flatMap Packet.mbufs }

/-- `l2fwd_send_burst` of all that is in `pkt_buf`, which is then empty. -/
def l2fwdSendBurst (port : Port) (accepted : ℕ) : QueueConf Key :=
  { s.txBurst accepted (s.pktBuf port) with pktBuf := Function.update s.pktBuf port [] }

/-- `l2fwd_send_packet`. -/
def l2fwdSendPacket (p : Packet) (port : Port) (accepted : ℕ) : QueueConf Key :=
  let s := { s with
    pktBuf := Function.update s.pktBuf port (s.pktBuf port ++ [p])
    handed := s.handed ++ [(port, p)] }
  if (s.pktBuf port).length = EncryptLcore.maxPktBurst then s.l2fwdSendBurst port accepted else s

/-- `l2fwd_crypto_send_burst` of all that is in `op_buf`, which is then empty. -/
def l2fwdCryptoSendBurst (dev : Dev) (accepted : ℕ) : QueueConf Key :=
  let rest := (s.opBuf dev).drop accepted
  { s with
    opBuf := Function.update s.opBuf dev []
    device := Function.update s.device dev (s.device dev ++ (s.opBuf dev).take accepted)
    freedMbufs := s.freedMbufs ++ rest.flatMap InFlight.mbufs
    freedOps := s.freedOps ++ rest.map InFlight.opId }

/-- `l2fwd_crypto_enqueue`. -/
def l2fwdCryptoEnqueue (f : InFlight Key) (dev : Dev) (accepted : ℕ) : QueueConf Key :=
  let s := { s with opBuf := Function.update s.opBuf dev (s.opBuf dev ++ [f]) }
  if (s.opBuf dev).length = EncryptLcore.maxPktBurst then s.l2fwdCryptoSendBurst dev accepted
  else s

/-- `l2fwd_simple_crypto_enqueue`, whose result the loop does not look at. -/
def simpleCryptoEnqueue (port : RxPort Key) (p : Packet) (opId : ℕ) (pktIv : Bytes)
    (epoch : UInt8) (choice : EnqueueChoice) : QueueConf Key :=
  match l2fwdSimpleCryptoEnqueue port.cparams choice.rand pktIv epoch p.data
      (CryptoOp.alloc choice.priv) with
  | none => s
  | some op => s.l2fwdCryptoEnqueue ⟨opId, op, p.mbufs, p.mbufs_ne⟩ port.devId choice.accepted

/-- `cb_punt_to_kernel`: the carried EtherType is restored, and the frame goes to the
control port. -/
def cbPuntToKernel (cfg : LoopConfig) (p : Packet) (punted : Bool) : QueueConf Key :=
  if ¬cfg.ctrlReady then s.freePkt p
  else if p.data.pktLen < etherHdrLen + 2 then s.freePkt p
  else
    let eth := p.data.load 0 12 ++ p.data.load etherHdrLen 2
    match p.data.adj 2 with
    | none => s.freePkt p
    | some m => s.txBurst (if punted then 1 else 0) [{ p with data := m.store 0 eth }]

/-- The frame of the control port as `cb_pump_egress` sends it, if it has a header and
there is room for the tag. -/
def cbTagged (p : Packet) : Option Packet :=
  if p.data.pktLen < etherHdrLen then none
  else
    let eth := p.data.load 0 etherHdrLen
    match p.data.prepend 2 with
    | none => none
    | some m =>
      let m := m.store 0 eth
      let m := m.store etherHdrLen (eth.drop 12)
      some { p with data := m.store 12 (be16 cbCtrlEtherType) }

/-- One frame of `cb_pump_egress`, collected in `txq` or freed. -/
def cbPumpFrame (st : QueueConf Key × List Packet) (c : Chain) : QueueConf Key × List Packet :=
  let p := st.1.freshPkt c
  let s := st.1.takeMbufs c
  match cbTagged p with
  | none => (s.freePkt p, st.2)
  | some p => (s, st.2 ++ [p])

/-- `cb_pump_egress`. -/
def cbPumpEgress (cfg : LoopConfig) (frames : List Chain) (accepted : ℕ) : QueueConf Key :=
  if ¬cfg.ctrlReady then s
  else
    let st := frames.foldl cbPumpFrame (s, [])
    st.1.txBurst accepted st.2

/-- A key install on every device of the lcore. -/
def installKey (epoch : UInt8) (key : Key) : QueueConf Key :=
  { s with rxPorts := s.rxPorts.map fun port =>
      { port with cparams := port.cparams.installKey epoch key } }

/-- `tf_drain_death_row`: what is stale in the tables is freed. -/
def tfDrainDeathRow (staleRx staleDecap : Packet → Bool) : QueueConf Key :=
  { s with
    rxTable := s.rxTable.filter fun p => !staleRx p
    decapTable := s.decapTable.filter fun p => !staleDecap p
    freedMbufs := s.freedMbufs ++ (s.rxTable.filter staleRx).flatMap Packet.mbufs ++
      (s.decapTable.filter staleDecap).flatMap Packet.mbufs }

/-- The drain of the loop. -/
def drain (d : Drain Key) : QueueConf Key :=
  let s := d.installs.foldl (fun s i => s.installKey i.1 i.2) s
  let s := s.tfDrainDeathRow d.staleRx d.staleDecap
  let s := s.rxPorts.foldl
    (fun s port => s.l2fwdCryptoSendBurst port.devId (d.cryptoAccepted port.devId)) s
  (List.finRange rteMaxEthports).foldl
    (fun s port => if s.pktBuf port = [] then s else s.l2fwdSendBurst port (d.txAccepted port)) s

/-- A reassembly function on its table: the packet it returns, if any, and the table left. -/
def reassemble (table : List Packet) (p : Packet) : Reassembled → Option Packet × List Packet
  | .whole => (some p, table)
  | .held => (none, table ++ [p])
  | .complete others data =>
    (some {
      mbufs := p.mbufs ++ (table.filter others).flatMap Packet.mbufs
      mbufs_ne := List.append_ne_nil_of_left_ne_nil p.mbufs_ne _
      data := data
      opFailed := p.opFailed || (table.filter others).any Packet.opFailed },
      table.filter fun q => !others q)

/-- The fragments behind the first one: each needs an operation of its own. -/
def enqueueFragment (port : RxPort Key) (epoch : UInt8) (s : QueueConf Key) (f : Fragment) :
    QueueConf Key :=
  let p := s.freshPkt f.chain
  let s := s.takeMbufs f.chain
  if ¬f.opAllocated then s.freePkt p
  else s.takeOp.simpleCryptoEnqueue port p s.nextOp [] epoch f.choice

/-- The encrypt path behind the reassembly. -/
def encryptPath (port : RxPort Key) (p : Packet) (opId : ℕ) (f : RxFrame) : QueueConf Key :=
  let txEpoch := port.cparams.cs.epochCur
  match f.fragmented with
  | .whole => s.simpleCryptoEnqueue port p opId [] txEpoch f.choice
  | .split [] => (s.freePkt p).freeOp opId
  | .split (frag :: frags) =>
    let s := s.freePkt p
    let first := s.freshPkt frag.chain
    let s := (s.takeMbufs frag.chain).simpleCryptoEnqueue port first opId [] txEpoch frag.choice
    frags.foldl (enqueueFragment port txEpoch) s

/-- The receive loop for one frame, with the operation allocated for it. -/
def rxFrame (cfg : LoopConfig) (port : RxPort Key) (f : RxFrame) : QueueConf Key :=
  let p := s.freshPkt f.chain
  let opId := s.nextOp
  let s := (s.takeMbufs f.chain).takeOp
  if port.portid.val = 1 then
    match wanRx port.cparams p.data with
    | .arp _ => (s.freeOp opId).l2fwdSendPacket p (cfg.dstPorts port.portid) f.txAccepted
    | .control _ => (s.freeOp opId).cbPuntToKernel cfg p f.punted
    | .decapFailed => s.freeOp opId
    | .badEpoch | .stripFailed => (s.freePkt p).freeOp opId
    | .decrypt pktIv rxEpoch m =>
      s.simpleCryptoEnqueue port { p with data := m } opId pktIv rxEpoch f.choice
  else if p.data.field16 12 = etherTypeArp then
    (s.freeOp opId).l2fwdSendPacket p (cfg.dstPorts port.portid) f.txAccepted
  else
    let (whole, rxTable) := reassemble s.rxTable p f.reassembled
    let s := { s with rxTable := rxTable }
    match whole with
    | none => s.freeOp opId
    | some p => s.encryptPath port p opId f

/-- A burst for which no operations can be allocated. -/
def dropFrame (s : QueueConf Key) (c : Chain) : QueueConf Key :=
  (s.takeMbufs c).freePkt (s.freshPkt c)

/-- `g_enc_cs`: the session table of the device that encrypts. -/
def encCs : Option (CsPort Key) :=
  (s.rxPorts.reverse.find? fun port => port.cparams.isEncrypt && port.cparams.chain.doCipher).map
    fun port => port.cparams.cs

/-- `l2fwd_simple_forward`. -/
def simpleForward (cfg : LoopConfig) (port : RxPort Key) (p : Packet) (iv : Bytes)
    (txAccepted : ℕ) : QueueConf Key :=
  match l2fwdSimpleForward cfg.ipv4Cksum port.portid.val s.encCs cfg.authDigestLength iv p.data with
  | none => s
  | some m => s.l2fwdSendPacket { p with data := m } (cfg.dstPorts port.portid) txAccepted

/-- The packet of a returned operation. -/
def returnedPkt (port : RxPort Key) (f : InFlight Key) (d : Dequeued) : Packet where
  mbufs := f.mbufs
  mbufs_ne := f.mbufs_ne
  data := d.data
  opFailed := port.portid.val = 1 && !d.success

/-- The dequeue loop for one operation. -/
def dequeue (cfg : LoopConfig) (port : RxPort Key) (d : Dequeued) : QueueConf Key :=
  match (s.device port.devId)[d.index]? with
  | none => s
  | some f =>
    let device := (s.device port.devId).eraseIdx d.index
    let s := { s with device := Function.update s.device port.devId device }
    let p := returnedPkt port f d
    let iv := if port.cparams.chain.doCipher then f.op.priv.read savedIvAt ivInPacketSize else []
    if port.portid.val = 1 then
      let (whole, decapTable) := reassemble s.decapTable p d.reassembled
      let s := { s with decapTable := decapTable }
      match whole with
      | none => s.freeOp f.opId
      | some p => (s.simpleForward cfg port p iv d.txAccepted).freeOp f.opId
    else (s.simpleForward cfg port p iv d.txAccepted).freeOp f.opId

end QueueConf

/-- One step of the loop. -/
inductive LoopEvent (Key : Type) where
  /-- `cb_pump_egress`. -/
  | egress (frames : List Chain) (accepted : ℕ)
  /-- The drain timer has expired. -/
  | drain (d : Drain Key)
  /-- A burst from the `i`th port for which no operations can be allocated. -/
  | noOps (frames : List Chain)
  /-- A frame from the `i`th port. -/
  | frame (i : ℕ) (f : RxFrame)
  /-- The device of the `i`th port returns an operation. -/
  | dequeued (i : ℕ) (d : Dequeued)

/-- One step of the loop on the state of the lcore. -/
def QueueConf.step {Key : Type} (cfg : LoopConfig) (s : QueueConf Key) :
    LoopEvent Key → QueueConf Key
  | .egress frames accepted => s.cbPumpEgress cfg frames accepted
  | .drain d => s.drain d
  | .noOps frames => frames.foldl QueueConf.dropFrame s
  | .frame i f =>
    match s.rxPorts[i]? with
    | none => s
    | some port => s.rxFrame cfg port f
  | .dequeued i d =>
    match s.rxPorts[i]? with
    | none => s
    | some port => s.dequeue cfg port d

/-- What an iteration does for one port: a burst, with operations for it or not, and then
the operations that its device returns. -/
structure PortRound where
  opsAllocated : Bool
  frames : List RxFrame
  returned : List Dequeued

/-- An iteration of the loop: the control port, on the lcore with the WAN port; the drain,
when its timer has expired; and a round for each port. -/
structure LoopIteration (Key : Type) where
  egress : List Chain × ℕ
  drain : Option (Drain Key)
  rounds : List PortRound

/-- The steps of a round of the `i`th port. -/
def PortRound.events {Key : Type} (i : ℕ) (r : PortRound) : List (LoopEvent Key) :=
  (if r.opsAllocated then r.frames.map (.frame i) else [.noOps (r.frames.map RxFrame.chain)]) ++
    r.returned.map (.dequeued i)

/-- The steps of an iteration. -/
def LoopIteration.events {Key : Type} (hasWan : Bool) (it : LoopIteration Key) :
    List (LoopEvent Key) :=
  (if hasWan then [.egress it.egress.1 it.egress.2] else []) ++
    (it.drain.map .drain).toList ++
    (it.rounds.zipIdx.flatMap fun r => r.1.events r.2)

/-- The lcore owns the WAN port. -/
def QueueConf.hasWan {Key : Type} (s : QueueConf Key) : Bool :=
  s.rxPorts.any fun port => port.portid.val == 1

/-- One iteration of `l2fwd_main_loop`. -/
def QueueConf.iterate {Key : Type} (cfg : LoopConfig) (s : QueueConf Key) (it : LoopIteration Key) :
    QueueConf Key :=
  Runs.run (QueueConf.step cfg) s (it.events s.hasWan)

/-- An lcore before its first iteration. -/
def QueueConf.start {Key : Type} (rxPorts : List (RxPort Key)) : QueueConf Key where
  rxPorts := rxPorts
  opBuf := fun _ => []
  device := fun _ => []
  pktBuf := fun _ => []
  rxTable := []
  decapTable := []
  wire := []
  freedMbufs := []
  freedOps := []
  nextMbuf := 0
  nextOp := 0
  handed := []

end SecureWan
