import SecureWan.Encryptor.DecryptBounds
import SecureWan.Encryptor.MainLoop
import SecureWan.Lib.Custody
import Mathlib.Algebra.Order.Group.Multiset
import Mathlib.Data.Multiset.OrderedMonoid
import Mathlib.Data.Fintype.Basic
import Mathlib.Data.Multiset.Range
import Mathlib.Tactic.Abel

/-!
# Who owns a buffer

Every mbuf that the loop has received and every operation that it has allocated should be
in exactly one place: a buffer, a device, a table, the wire or its pool. The loop forgets
some of them, on the exits that ignore a result: a frame that `tunnel_decap` rejects, a
packet that `l2fwd_simple_crypto_enqueue` does not take, and one that cannot be
encapsulated. All other exits keep the account.
-/

namespace SecureWan

namespace QueueConf

variable {Key : Type}

/-- Mbufs and operations, counted by their numbers. -/
abbrev Tokens := Multiset ℕ × Multiset ℕ

/-- A bag of mbufs and operations. -/
def bag (mbufs ops : List ℕ) : Tokens := (mbufs, ops)

/-- The mbufs of a packet. -/
def pkt (p : Packet) : Tokens := bag p.mbufs []

/-- An operation. -/
def opToken (opId : ℕ) : Tokens := bag [] [opId]

/-- An operation with the mbufs of its packet. -/
def flight (f : InFlight Key) : Tokens := bag f.mbufs [f.opId]

/-- What the containers of the lcore hold. -/
def held (s : QueueConf Key) : Tokens :=
  ∑ dev, ((s.opBuf dev).map flight).sum + ∑ dev, ((s.device dev).map flight).sum +
    ∑ port, ((s.pktBuf port).map pkt).sum + (s.rxTable.map pkt).sum +
    (s.decapTable.map pkt).sum + (s.wire.map pkt).sum + bag s.freedMbufs s.freedOps

/-- What was taken from the pools. -/
def taken (s : QueueConf Key) : Tokens := (Multiset.range s.nextMbuf, Multiset.range s.nextOp)

/-- Every mbuf and every operation that was taken is in exactly one place. -/
def Conserved (s : QueueConf Key) : Prop := Custody.Balanced held taken s

/-- A part of the loop, with what it has in hand before and after. -/
abbrev Moves (s : QueueConf Key) (hand : Tokens) (s' : QueueConf Key) (out : Tokens) : Prop :=
  Custody.Moves held taken s hand s' out

/-- The same, with nothing left in hand exactly when `kept`. -/
abbrev Leaves (s : QueueConf Key) (hand : Tokens) (s' : QueueConf Key) (kept : Prop) : Prop :=
  Custody.Leaves held taken s hand s' kept

variable {s : QueueConf Key}

/-- Two bags together. -/
theorem bag_append (mbufs mbufs' ops ops' : List ℕ) :
    bag (mbufs ++ mbufs') (ops ++ ops') = bag mbufs ops + bag mbufs' ops' := by
  rw [bag, ← Multiset.coe_add, ← Multiset.coe_add]
  rfl

/-- The packets of a list, chain by chain. -/
theorem sum_pkt (ps : List Packet) : (ps.map pkt).sum = bag (ps.flatMap Packet.mbufs) [] := by
  induction ps with
  | nil => rfl
  | cons p ps ih => rw [List.map_cons, List.sum_cons, ih, List.flatMap_cons, pkt, ← bag_append]; rfl

/-- The operations of a list with their packets. -/
theorem sum_flight (fs : List (InFlight Key)) :
    (fs.map flight).sum = bag (fs.flatMap InFlight.mbufs) (fs.map InFlight.opId) := by
  induction fs with
  | nil => rfl
  | cons f fs ih =>
    rw [List.map_cons, List.sum_cons, ih, List.flatMap_cons, List.map_cons, flight, ← bag_append]
    rfl

section Containers

theorem moves_freePkt (p : Packet) : Moves s (pkt p) (s.freePkt p) 0 := by
  refine .of_eq ?_ rfl
  have hfreed := bag_append s.freedMbufs p.mbufs s.freedOps []
  rw [List.append_nil] at hfreed
  simp only [held, freePkt, hfreed, pkt, add_zero, add_assoc]

theorem moves_freeOp (opId : ℕ) : Moves s (opToken opId) (s.freeOp opId) 0 := by
  refine .of_eq ?_ rfl
  have hfreed := bag_append s.freedMbufs [] s.freedOps [opId]
  rw [List.append_nil] at hfreed
  simp only [held, freeOp, hfreed, opToken, add_zero, add_assoc]

/-- Of a packet and an operation in hand, the operation is freed. -/
theorem moves_freeOp_keep (p : Packet) (opId : ℕ) :
    Moves s (pkt p + opToken opId) (s.freeOp opId) (pkt p) := by
  have hfree := (moves_freeOp (s := s) opId).frame (pkt p)
  rwa [zero_add, add_comm] at hfree

/-- Of a packet and an operation in hand, the packet is freed. -/
theorem moves_freePkt_keep (p : Packet) (opId : ℕ) :
    Moves s (pkt p + opToken opId) (s.freePkt p) (opToken opId) := by
  have hfree := (moves_freePkt (s := s) p).frame (opToken opId)
  rwa [zero_add] at hfree

/-- The numbers that are handed out next. -/
private theorem range_add (n k : ℕ) :
    Multiset.range (n + k) = Multiset.range n + (List.range' n k : List ℕ) := by
  have hlist : List.range (n + k) = List.range n ++ List.range' n k := by
    rw [List.range_eq_range', List.range_eq_range', ← List.range'_append_1, Nat.zero_add]
  change ((List.range (n + k) : List ℕ) : Multiset ℕ) = (List.range n : List ℕ) + _
  rw [hlist, Multiset.coe_add]

theorem moves_takeMbufs (c : Chain) : Moves s 0 (s.takeMbufs c) (pkt (s.freshPkt c)) := by
  refine ⟨pkt (s.freshPkt c), by rw [add_zero]; rfl, ?_⟩
  exact Prod.ext (range_add s.nextMbuf (c.more + 1)) (add_zero _).symm

theorem moves_takeOp : Moves s 0 s.takeOp (opToken s.nextOp) := by
  refine ⟨opToken s.nextOp, by rw [add_zero]; rfl, ?_⟩
  exact Prod.ext (add_zero _).symm (range_add s.nextOp 1)

theorem moves_txBurst (accepted : ℕ) (ps : List Packet) :
    Moves s (ps.map pkt).sum (s.txBurst accepted ps) 0 := by
  refine .of_eq ?_ rfl
  have hfreed := bag_append s.freedMbufs ((ps.drop accepted).flatMap Packet.mbufs) s.freedOps []
  rw [List.append_nil, ← sum_pkt] at hfreed
  have hsplit := Custody.sum_take_add_sum_drop ps accepted pkt
  simp only [held, txBurst, hfreed, List.map_append, List.sum_append, ← hsplit, add_zero]
  abel

/-- Replacing what waits for a port. -/
private theorem sum_pktBuf_update (port : Port) (ps : List Packet) :
    ∑ q, ((Function.update s.pktBuf port ps q).map pkt).sum + ((s.pktBuf port).map pkt).sum =
      ∑ q, ((s.pktBuf q).map pkt).sum + (ps.map pkt).sum :=
  Custody.sum_update s.pktBuf port ps fun ps => (ps.map pkt).sum

theorem moves_l2fwdSendBurst (port : Port) (accepted : ℕ) :
    Moves s 0 (s.l2fwdSendBurst port accepted) 0 := by
  have hempty : Moves s 0 { s with pktBuf := Function.update s.pktBuf port [] }
      ((s.pktBuf port).map pkt).sum := by
    refine .of_eq ?_ rfl
    have hbuf := sum_pktBuf_update (s := s) port []
    simp only [List.map_nil, List.sum_nil, add_zero] at hbuf
    simp only [held, ← hbuf, add_zero]
    abel
  exact hempty.trans (moves_txBurst (s := { s with pktBuf := Function.update s.pktBuf port [] })
    accepted (s.pktBuf port))

theorem moves_l2fwdSendPacket (p : Packet) (port : Port) (accepted : ℕ) :
    Moves s (pkt p) (s.l2fwdSendPacket p port accepted) 0 := by
  have hput : Moves s (pkt p) { s with
      pktBuf := Function.update s.pktBuf port (s.pktBuf port ++ [p])
      handed := s.handed ++ [(port, p)] } 0 := by
    refine .of_eq ?_ rfl
    have hbuf := sum_pktBuf_update (s := s) port (s.pktBuf port ++ [p])
    rw [List.map_append, List.sum_append, List.map_singleton, List.sum_singleton,
      ← add_assoc, add_right_comm, add_left_inj] at hbuf
    simp only [held, hbuf, add_zero]
    abel
  unfold l2fwdSendPacket
  dsimp only
  split
  · exact hput.trans (moves_l2fwdSendBurst port accepted)
  · exact hput

/-- Replacing what waits for a device. -/
private theorem sum_flights_update (bufs : Dev → List (InFlight Key)) (dev : Dev)
    (fs : List (InFlight Key)) :
    ∑ d, ((Function.update bufs dev fs d).map flight).sum + ((bufs dev).map flight).sum =
      ∑ d, ((bufs d).map flight).sum + (fs.map flight).sum :=
  Custody.sum_update bufs dev fs fun fs => (fs.map flight).sum

/-- Adding to what waits for a device. -/
private theorem sum_flights_append (bufs : Dev → List (InFlight Key)) (dev : Dev)
    (fs : List (InFlight Key)) :
    ∑ d, ((Function.update bufs dev (bufs dev ++ fs) d).map flight).sum =
      ∑ d, ((bufs d).map flight).sum + (fs.map flight).sum := by
  have hbuf := sum_flights_update bufs dev (bufs dev ++ fs)
  rwa [List.map_append, List.sum_append, ← add_assoc, add_right_comm, add_left_inj] at hbuf

theorem moves_l2fwdCryptoSendBurst (dev : Dev) (accepted : ℕ) :
    Moves s 0 (s.l2fwdCryptoSendBurst dev accepted) 0 := by
  refine .of_eq ?_ rfl
  have hbuf := sum_flights_update s.opBuf dev []
  simp only [List.map_nil, List.sum_nil, add_zero] at hbuf
  have hdevice := sum_flights_append s.device dev ((s.opBuf dev).take accepted)
  have hsplit := Custody.sum_take_add_sum_drop (s.opBuf dev) accepted flight
  simp only [held, l2fwdCryptoSendBurst, hdevice, bag_append, ← sum_flight, ← hbuf, ← hsplit,
    add_zero]
  abel

theorem moves_l2fwdCryptoEnqueue (f : InFlight Key) (dev : Dev) (accepted : ℕ) :
    Moves s (flight f) (s.l2fwdCryptoEnqueue f dev accepted) 0 := by
  have hput : Moves s (flight f)
      { s with opBuf := Function.update s.opBuf dev (s.opBuf dev ++ [f]) } 0 := by
    refine .of_eq ?_ rfl
    have hbuf := sum_flights_append s.opBuf dev [f]
    rw [List.map_singleton, List.sum_singleton] at hbuf
    simp only [held, hbuf, add_zero]
    abel
  unfold l2fwdCryptoEnqueue
  dsimp only
  split
  · exact hput.trans (moves_l2fwdCryptoSendBurst dev accepted)
  · exact hput

/-- A returned operation leaves its device. -/
theorem moves_eraseDevice {dev : Dev} {i : ℕ} {f : InFlight Key}
    (hf : (s.device dev)[i]? = some f) :
    Moves s 0 { s with device := Function.update s.device dev ((s.device dev).eraseIdx i) }
      (flight f) := by
  refine .of_eq ?_ rfl
  have hbuf := sum_flights_update s.device dev ((s.device dev).eraseIdx i)
  rw [← Custody.add_sum_eraseIdx hf flight, add_comm (flight f), ← add_assoc,
    add_right_comm, add_left_inj] at hbuf
  simp only [held, ← hbuf, add_zero]
  abel

/-- A reassembly function returns what it takes from its table. -/
theorem sum_reassemble (table : List Packet) (p : Packet) (r : Reassembled) :
    ((reassemble table p r).2.map pkt).sum + ((reassemble table p r).1.toList.map pkt).sum =
      (table.map pkt).sum + pkt p := by
  cases r with
  | whole => rw [reassemble, Option.toList_some, List.map_singleton, List.sum_singleton]
  | held =>
    rw [reassemble, Option.toList_none, List.map_nil, List.sum_nil, add_zero, List.map_append,
      List.sum_append, List.map_singleton, List.sum_singleton]
  | complete others data =>
    have hsplit := Custody.sum_filter_add_sum_filter_not table others pkt
    have hwhole := bag_append p.mbufs ((table.filter others).flatMap Packet.mbufs) [] []
    rw [← sum_pkt] at hwhole
    rw [reassemble, Option.toList_some, List.map_singleton, List.sum_singleton, ← hsplit]
    change _ + bag _ ([] ++ []) = _
    rw [hwhole, pkt]
    abel

end Containers

section Control

theorem moves_cbPuntToKernel (cfg : LoopConfig) (p : Packet) (punted : Bool) :
    Moves s (pkt p) (s.cbPuntToKernel cfg p punted) 0 := by
  unfold cbPuntToKernel
  split
  · exact moves_freePkt p
  split
  · exact moves_freePkt p
  dsimp only
  split
  next => exact moves_freePkt p
  next m _ =>
    have hsent := moves_txBurst (s := s) (if punted then 1 else 0)
      [{ p with data := m.store 0 (p.data.load 0 12 ++ p.data.load etherHdrLen 2) }]
    rwa [List.map_singleton, List.sum_singleton] at hsent

/-- A tagged frame is in the mbufs of the frame. -/
theorem pkt_of_cbTagged {p q : Packet} (h : cbTagged p = some q) : pkt q = pkt p := by
  unfold cbTagged at h
  split at h
  next => cases h
  dsimp only at h
  split at h
  next => cases h
  next => exact Option.some.inj h ▸ rfl

/-- What `cb_pump_egress` has collected is in hand. -/
theorem moves_cbPumpFrames (frames : List Chain) (st : QueueConf Key × List Packet) :
    Moves st.1 (st.2.map pkt).sum (frames.foldl cbPumpFrame st).1
      ((frames.foldl cbPumpFrame st).2.map pkt).sum := by
  induction frames generalizing st with
  | nil => exact .refl _ _
  | cons c frames ih =>
    refine Custody.Moves.trans ?_ (ih (cbPumpFrame st c))
    have htake := (moves_takeMbufs (s := st.1) c).under (st.2.map pkt).sum
    cases htag : cbTagged (st.1.freshPkt c) with
    | none =>
      simp only [cbPumpFrame, htag]
      have hfree := (moves_freePkt (s := st.1.takeMbufs c) (st.1.freshPkt c)).frame
        (st.2.map pkt).sum
      rw [zero_add] at hfree
      exact htake.trans hfree
    | some p =>
      simp only [cbPumpFrame, htag, List.map_append, List.sum_append, List.map_singleton,
        List.sum_singleton, pkt_of_cbTagged htag]
      rwa [add_comm] at htake

theorem moves_cbPumpEgress (cfg : LoopConfig) (frames : List Chain) (accepted : ℕ) :
    Moves s 0 (s.cbPumpEgress cfg frames accepted) 0 := by
  unfold cbPumpEgress
  split
  · exact .refl s 0
  · exact (moves_cbPumpFrames frames (s, [])).trans (moves_txBurst accepted _)

theorem moves_dropFrame (c : Chain) : Moves s 0 (dropFrame s c) 0 :=
  (moves_takeMbufs c).trans (moves_freePkt _)

theorem moves_tfDrainDeathRow (staleRx staleDecap : Packet → Bool) :
    Moves s 0 (s.tfDrainDeathRow staleRx staleDecap) 0 := by
  refine .of_eq ?_ rfl
  have hrx := Custody.sum_filter_add_sum_filter_not s.rxTable staleRx pkt
  have hdecap := Custody.sum_filter_add_sum_filter_not s.decapTable staleDecap pkt
  have hfreedRx := bag_append s.freedMbufs ((s.rxTable.filter staleRx).flatMap Packet.mbufs)
    s.freedOps []
  have hfreed := bag_append (s.freedMbufs ++ (s.rxTable.filter staleRx).flatMap Packet.mbufs)
    ((s.decapTable.filter staleDecap).flatMap Packet.mbufs) s.freedOps []
  rw [List.append_nil, ← sum_pkt] at hfreedRx
  rw [List.append_nil, hfreedRx, ← sum_pkt] at hfreed
  simp only [held, tfDrainDeathRow, hfreed, ← hrx, ← hdecap, add_zero]
  abel

/-- A loop whose body loses nothing loses nothing. -/
theorem moves_foldl {ρ : Type} {body : QueueConf Key → ρ → QueueConf Key}
    (hbody : ∀ s r, Moves s 0 (body s r) 0) (s : QueueConf Key) (rs : List ρ) :
    Moves s 0 (rs.foldl body s) 0 := by
  obtain ⟨out, hmoves, hout⟩ :=
    Custody.Leaves.foldl (fun s r => (hbody s r).leaves_nothing) s rs
  rwa [hout.mpr fun _ _ => trivial] at hmoves

/-- The loop over the ports in a drain. -/
theorem moves_sendPending (accepted : Port → ℕ) (ports : List Port) (s : QueueConf Key) :
    Moves s 0 (ports.foldl
      (fun s port => if s.pktBuf port = [] then s else s.l2fwdSendBurst port (accepted port)) s)
      0 := by
  refine moves_foldl (fun s port => ?_) s ports
  split
  · exact .refl s 0
  · exact moves_l2fwdSendBurst port (accepted port)

theorem moves_installKey (epoch : UInt8) (key : Key) : Moves s 0 (s.installKey epoch key) 0 := by
  have hheld : (s.installKey epoch key).held = s.held := rfl
  exact .of_eq (by rw [hheld]) rfl

theorem moves_drain (d : Drain Key) : Moves s 0 (s.drain d) 0 := by
  have hinstalls := moves_foldl (fun s (i : UInt8 × Key) => moves_installKey (s := s) i.1 i.2)
    s d.installs
  have hstale := hinstalls.trans (moves_tfDrainDeathRow d.staleRx d.staleDecap)
  have hcrypto (s : QueueConf Key) := moves_foldl (fun s (port : RxPort Key) =>
    moves_l2fwdCryptoSendBurst (s := s) port.devId (d.cryptoAccepted port.devId)) s s.rxPorts
  exact (hstale.trans (hcrypto _)).trans
    (moves_sendPending d.txAccepted (List.finRange rteMaxEthports) _)

end Control

section Exits

/-- `l2fwd_simple_crypto_enqueue` takes a packet of this length and tailroom. -/
def CanEnqueue (cp : CryptoParams Key) (pktLen tailroom : ℕ) : Prop :=
  etherHdrLen ≤ pktLen ∧
    let dataLen := sub32 pktLen etherHdrLen
    let dataLen := if cp.verifies then sub32 dataLen cp.digestLength else dataLen
    cp.cryptoPadLen dataLen % 2 ^ 16 ≤ tailroom

theorem enqueue_isSome_iff (cp : CryptoParams Key) (rand : UInt64 × UInt64) (pktIv : Bytes)
    (epoch : UInt8) (m : Mbuf) (op : CryptoOp Key) :
    (∃ op', l2fwdSimpleCryptoEnqueue cp rand pktIv epoch m op = some op') ↔
      CanEnqueue cp m.pktLen m.tailroom.length := by
  constructor
  · rintro ⟨op', hop'⟩
    obtain ⟨hlen, _, m₁, hm₁, _⟩ := of_enqueue hop'
    exact ⟨hlen, (CryptoParams.of_appendPadding hm₁).1⟩
  · rintro ⟨hlen, hpad⟩
    exact enqueue_isSome rand pktIv epoch op hlen hpad

/-- An operation in hand is not nothing. -/
theorem add_opToken_ne_zero (t : Tokens) (opId : ℕ) : t + opToken opId ≠ 0 := by
  intro h
  have hop : t.2 + {opId} = 0 := congrArg Prod.snd h
  exact Multiset.singleton_ne_zero opId (add_eq_zero.mp hop).2

/-- A packet in hand is not nothing. -/
theorem pkt_ne_zero (p : Packet) : pkt p ≠ 0 := by
  intro h
  have hmbufs : (p.mbufs : Multiset ℕ) = 0 := congrArg Prod.fst h
  exact p.mbufs_ne (Multiset.coe_eq_zero p.mbufs |>.mp hmbufs)

/-- The packet and the operation are lost when the enqueue function fails. -/
theorem leaves_simpleCryptoEnqueue (port : RxPort Key) (p : Packet) (opId : ℕ) (pktIv : Bytes)
    (epoch : UInt8) (choice : EnqueueChoice) :
    Leaves s (pkt p + opToken opId) (s.simpleCryptoEnqueue port p opId pktIv epoch choice)
      (CanEnqueue port.cparams p.data.pktLen p.data.tailroom.length) := by
  rw [← enqueue_isSome_iff port.cparams choice.rand pktIv epoch p.data (CryptoOp.alloc choice.priv)]
  unfold simpleCryptoEnqueue
  cases henqueue : l2fwdSimpleCryptoEnqueue port.cparams choice.rand pktIv epoch p.data
      (CryptoOp.alloc choice.priv) with
  | none =>
    refine (Custody.Moves.refl s _).leaves (iff_of_false (add_opToken_ne_zero _ opId) ?_)
    simp
  | some op =>
    have hflight : pkt p + opToken opId = flight ⟨opId, op, p.mbufs, p.mbufs_ne⟩ := by
      have hbag := bag_append p.mbufs [] [] [opId]
      rw [List.append_nil, List.nil_append] at hbag
      exact hbag.symm
    rw [hflight]
    exact (moves_l2fwdCryptoEnqueue _ port.devId choice.accepted).leaves (by simp)

theorem tunnelEncap_isSome_iff {ipv4Cksum : Bytes → UInt16} {iv : Bytes} {epoch : UInt8}
    {m : Mbuf} : (∃ wire, tunnelEncap ipv4Cksum iv epoch m = some wire) ↔ CanEncap m := by
  unfold tunnelEncap CanEncap
  constructor
  · rintro ⟨wire, hwire⟩
    cases hadj : m.adj etherHdrLen with
    | none => simp only [hadj, reduceCtorEq] at hwire
    | some m₁ =>
      obtain ⟨hle, hhead, _, _⟩ := Mbuf.of_adj hadj
      cases hprepend : m₁.prepend (etherHdrLen + ipv4HdrLen + udpHdrLen + ivInPacketSize) with
      | none => simp only [hadj, hprepend, reduceCtorEq] at hwire
      | some m₂ =>
        obtain ⟨hle₂, _⟩ := Mbuf.of_prepend hprepend
        exact ⟨hle, by omega⟩
  · rintro ⟨hlen, hroom⟩
    obtain ⟨m₁, hm₁⟩ := Mbuf.adj_isSome hlen
    obtain ⟨_, hhead₁, _, _⟩ := Mbuf.of_adj hm₁
    have hroom₁ : etherHdrLen + ipv4HdrLen + udpHdrLen + ivInPacketSize ≤ m₁.headroom.length := by
      omega
    obtain ⟨m₂, hm₂⟩ := Mbuf.prepend_isSome hroom₁
    simp only [hm₁, hm₂, Option.some.injEq, exists_eq']

/-- Only encapsulation fails. -/
theorem leaves_simpleForward (cfg : LoopConfig) (port : RxPort Key) (p : Packet) (iv : Bytes)
    (txAccepted : ℕ) :
    Leaves s (pkt p) (s.simpleForward cfg port p iv txAccepted)
      (port.portid.val = 0 → CanEncap p.data) := by
  have hforward : (port.portid.val = 0 → CanEncap p.data) ↔
      ∃ m, l2fwdSimpleForward cfg.ipv4Cksum port.portid.val s.encCs cfg.authDigestLength iv
        p.data = some m := by
    unfold l2fwdSimpleForward
    by_cases hlan : port.portid.val = 0
    · simp only [hlan, true_imp_iff]
      exact tunnelEncap_isSome_iff.symm
    · refine iff_of_true (fun h => absurd h hlan) ?_
      rw [if_neg hlan]
      by_cases hwan : port.portid.val = 1
      · exact ⟨_, if_pos hwan⟩
      · exact ⟨_, if_neg hwan⟩
  rw [hforward]
  unfold simpleForward
  cases l2fwdSimpleForward cfg.ipv4Cksum port.portid.val s.encCs cfg.authDigestLength iv
      p.data with
  | none => exact (Custody.Moves.refl s _).leaves (iff_of_false (pkt_ne_zero p) (by simp))
  | some m =>
    exact (moves_l2fwdSendPacket { p with data := m } (cfg.dstPorts port.portid)
      txAccepted).leaves (by simp)

end Exits

section Steps

/-- The receive path of the WAN port keeps the account for this frame. -/
def KeepsWan (cp : CryptoParams Key) (m : Mbuf) : Prop :=
  m.field16 12 = etherTypeArp ∨ etherHdrLen ≤ m.pktLen ∧ m.field16 12 = cbCtrlEtherType ∨
    m.byteAt (etherHdrLen + 9) = ipprotoUdp ∧ etherHdrLen + ipv4HdrLen + udpHdrLen ≤ m.pktLen ∧
      (WanAccepts cp m →
        CanEnqueue cp (etherHdrLen + (m.pktLen - wanOverhead)) m.tailroom.length)

/-- A fragment is dropped for want of an operation, or it is taken. -/
def KeepsFragment (cp : CryptoParams Key) (f : Fragment) : Prop :=
  f.opAllocated = true → CanEnqueue cp f.chain.data.pktLen f.chain.data.tailroom.length

/-- The encrypt path keeps the account for a packet that is complete. -/
def KeepsEncrypt (cp : CryptoParams Key) (m : Mbuf) : Fragmented Fragment → Prop
  | .whole => CanEnqueue cp m.pktLen m.tailroom.length
  | .split [] => True
  | .split (frag :: frags) =>
    CanEnqueue cp frag.chain.data.pktLen frag.chain.data.tailroom.length ∧
      ∀ f ∈ frags, KeepsFragment cp f

/-- The receive path of another port keeps the account for this frame. -/
def KeepsLan (cp : CryptoParams Key) (f : RxFrame) : Prop :=
  f.chain.data.field16 12 = etherTypeArp ∨
    match f.reassembled with
    | .whole => KeepsEncrypt cp f.chain.data f.fragmented
    | .held => True
    | .complete _ data => KeepsEncrypt cp data f.fragmented

/-- The step takes none of the exits that forget a buffer. -/
def Keeps (s : QueueConf Key) : LoopEvent Key → Prop
  | .egress _ _ | .drain _ | .noOps _ => True
  | .frame i f => ∀ port, s.rxPorts[i]? = some port →
    if port.portid.val = 1 then KeepsWan port.cparams f.chain.data else KeepsLan port.cparams f
  | .dequeued i d => ∀ port, s.rxPorts[i]? = some port → port.portid.val = 0 →
    d.index < (s.device port.devId).length → CanEncap d.data

theorem leaves_enqueueFragment (port : RxPort Key) (epoch : UInt8) (f : Fragment) :
    Leaves s 0 (enqueueFragment port epoch s f) (KeepsFragment port.cparams f) := by
  have htake := moves_takeMbufs (s := s) f.chain
  unfold enqueueFragment KeepsFragment
  dsimp only
  cases hop : f.opAllocated with
  | false =>
    simp only [Bool.false_eq_true, not_false_eq_true, if_true, false_imp_iff]
    exact (htake.trans (moves_freePkt _)).leaves_nothing
  | true =>
    simp only [not_true_eq_false, if_false, true_imp_iff]
    have htakeOp := (moves_takeOp (s := s.takeMbufs f.chain)).under (pkt (s.freshPkt f.chain))
    rw [add_comm] at htakeOp
    exact (htake.trans htakeOp).trans_leaves
      (leaves_simpleCryptoEnqueue port (s.freshPkt f.chain) _ [] epoch f.choice)

theorem leaves_encryptPath (port : RxPort Key) (p : Packet) (opId : ℕ) (f : RxFrame) :
    Leaves s (pkt p + opToken opId) (s.encryptPath port p opId f)
      (KeepsEncrypt port.cparams p.data f.fragmented) := by
  have hfree := moves_freePkt_keep (s := s) p opId
  unfold encryptPath
  match f.fragmented with
  | .whole => exact leaves_simpleCryptoEnqueue port p opId [] _ f.choice
  | .split [] => exact (hfree.trans (moves_freeOp opId)).leaves_nothing
  | .split (frag :: frags) =>
    have htake := (moves_takeMbufs (s := s.freePkt p) frag.chain).under (opToken opId)
    have hfirst := (hfree.trans htake).trans_leaves
      (leaves_simpleCryptoEnqueue port ((s.freePkt p).freshPkt frag.chain) opId []
        port.cparams.cs.epochCur frag.choice)
    exact hfirst.trans (Custody.Leaves.foldl
      (fun s f => leaves_enqueueFragment (s := s) port port.cparams.cs.epochCur f) _ frags)

theorem tunnelDecap_isSome_iff {m : Mbuf} :
    (∃ r, tunnelDecap m = some r) ↔
      m.byteAt (etherHdrLen + 9) = ipprotoUdp ∧
        etherHdrLen + ipv4HdrLen + udpHdrLen ≤ m.pktLen := by
  constructor
  · rintro ⟨⟨m', rxEpoch⟩, h⟩
    obtain ⟨hproto, _, hlen, _⟩ := of_tunnelDecap h
    exact ⟨hproto, hlen⟩
  · rintro ⟨hproto, hlen⟩
    have heth : (m.load 0 etherHdrLen).length = etherHdrLen := Bytes.length_readAt
    obtain ⟨m', hm'⟩ := stripKeepingEth_of_le heth (by decide) hlen
    exact ⟨(m', m.byteAt (etherHdrLen + 1)), by simp [tunnelDecap, hproto, hm']⟩

/-- The frames that `tunnel_decap` does not reject. -/
theorem wanRx_ne_decapFailed {cp : CryptoParams Key} {m : Mbuf} :
    wanRx cp m ≠ .decapFailed ↔ m.field16 12 = etherTypeArp ∨
      (etherHdrLen ≤ m.pktLen ∧ m.field16 12 = cbCtrlEtherType) ∨
      ∃ r, tunnelDecap m = some r := by
  unfold wanRx
  by_cases harp : m.field16 12 = etherTypeArp
  · simp [harp]
  rw [if_neg harp, or_iff_right harp]
  by_cases hcontrol : etherHdrLen ≤ m.pktLen ∧ m.field16 12 = cbCtrlEtherType
  · simp [hcontrol]
  rw [if_neg hcontrol, or_iff_right hcontrol]
  cases tunnelDecap m with
  | none => simp
  | some decapped =>
    refine iff_of_true ?_ ⟨decapped, rfl⟩
    dsimp only
    split
    · simp
    · split <;> simp

/-- The room for an accepted frame is the room for the packet that is handed on. -/
theorem accepts_canEnqueue_iff {cp : CryptoParams Key} {m : Mbuf} :
    (WanAccepts cp m → CanEnqueue cp (etherHdrLen + (m.pktLen - wanOverhead)) m.tailroom.length) ↔
      ∀ pktIv rxEpoch m₁, wanRx cp m = .decrypt pktIv rxEpoch m₁ →
        CanEnqueue cp m₁.pktLen m₁.tailroom.length := by
  constructor
  · intro h pktIv rxEpoch m₁ hm₁
    obtain ⟨haccepts, hlen, htail⟩ := of_wanRx_decrypt hm₁
    rw [hlen, htail]
    exact h haccepts
  · intro h haccepts
    obtain ⟨pktIv, rxEpoch, m₁, hm₁⟩ := wanRx_of_accepts haccepts
    obtain ⟨_, hlen, htail⟩ := of_wanRx_decrypt hm₁
    rw [← hlen, ← htail]
    exact h pktIv rxEpoch m₁ hm₁

/-- The condition on a WAN frame, by what the receive path does with it. -/
theorem keepsWan_iff {cp : CryptoParams Key} {m : Mbuf} :
    KeepsWan cp m ↔ wanRx cp m ≠ .decapFailed ∧ ∀ pktIv rxEpoch m₁,
      wanRx cp m = .decrypt pktIv rxEpoch m₁ → CanEnqueue cp m₁.pktLen m₁.tailroom.length := by
  rw [wanRx_ne_decapFailed, ← accepts_canEnqueue_iff, tunnelDecap_isSome_iff, KeepsWan]
  have hnotArp : WanAccepts cp m → m.field16 12 ≠ etherTypeArp := WanAccepts.notArp
  have hnotControl : WanAccepts cp m → m.field16 12 ≠ cbCtrlEtherType := WanAccepts.notControl
  tauto

theorem moves_rxTable (p : Packet) (r : Reassembled) :
    Moves s (pkt p) { s with rxTable := (reassemble s.rxTable p r).2 }
      ((reassemble s.rxTable p r).1.toList.map pkt).sum := by
  refine .exchange ?_ (sum_reassemble s.rxTable p r) rfl
  simp only [held]
  abel

theorem moves_decapTable (p : Packet) (r : Reassembled) :
    Moves s (pkt p) { s with decapTable := (reassemble s.decapTable p r).2 }
      ((reassemble s.decapTable p r).1.toList.map pkt).sum := by
  refine .exchange ?_ (sum_reassemble s.decapTable p r) rfl
  simp only [held]
  abel

/-- The frame of the WAN port, with its operation in hand. -/
theorem leaves_wanFrame (cfg : LoopConfig) (port : RxPort Key) (p : Packet) (opId : ℕ)
    (f : RxFrame) :
    Leaves s (pkt p + opToken opId)
      (match wanRx port.cparams p.data with
      | .arp _ => (s.freeOp opId).l2fwdSendPacket p (cfg.dstPorts port.portid) f.txAccepted
      | .control _ => (s.freeOp opId).cbPuntToKernel cfg p f.punted
      | .decapFailed => s.freeOp opId
      | .badEpoch | .stripFailed => (s.freePkt p).freeOp opId
      | .decrypt pktIv rxEpoch m =>
        s.simpleCryptoEnqueue port { p with data := m } opId pktIv rxEpoch f.choice)
      (KeepsWan port.cparams p.data) := by
  have hfreeOp := moves_freeOp_keep (s := s) p opId
  have hdrop := moves_freePkt_keep (s := s) p opId
  rw [keepsWan_iff]
  cases wanRx port.cparams p.data with
  | arp m =>
    exact (hfreeOp.trans (moves_l2fwdSendPacket p _ f.txAccepted)).leaves (by simp)
  | control m => exact (hfreeOp.trans (moves_cbPuntToKernel cfg p f.punted)).leaves (by simp)
  | decapFailed => exact hfreeOp.leaves (iff_of_false (pkt_ne_zero p) (by simp))
  | badEpoch | stripFailed => exact (hdrop.trans (moves_freeOp opId)).leaves (by simp)
  | decrypt pktIv rxEpoch m =>
    refine (leaves_simpleCryptoEnqueue port { p with data := m } opId pktIv rxEpoch
      f.choice).congr ?_
    simp

/-- The frame of another port, with its operation in hand. -/
theorem leaves_lanFrame (cfg : LoopConfig) (port : RxPort Key) (p : Packet) (opId : ℕ)
    (f : RxFrame) (hdata : p.data = f.chain.data) :
    Leaves s (pkt p + opToken opId)
      (if p.data.field16 12 = etherTypeArp then
        (s.freeOp opId).l2fwdSendPacket p (cfg.dstPorts port.portid) f.txAccepted
      else
        let (whole, rxTable) := reassemble s.rxTable p f.reassembled
        let s := { s with rxTable := rxTable }
        match whole with
        | none => s.freeOp opId
        | some p => s.encryptPath port p opId f)
      (KeepsLan port.cparams f) := by
  by_cases harp : p.data.field16 12 = etherTypeArp
  · rw [if_pos harp]
    exact ((moves_freeOp_keep p opId).trans (moves_l2fwdSendPacket p _ f.txAccepted)).leaves
      (iff_of_true rfl (.inl (hdata ▸ harp)))
  · have hkeeps : KeepsLan port.cparams f ↔
        match f.reassembled with
        | .whole => KeepsEncrypt port.cparams p.data f.fragmented
        | .held => True
        | .complete _ data => KeepsEncrypt port.cparams data f.fragmented := by
      rw [hdata] at harp ⊢
      exact or_iff_right harp
    have htable := (moves_rxTable (s := s) p f.reassembled).frame (opToken opId)
    rw [if_neg harp, hkeeps]
    cases hr : f.reassembled with
    | whole =>
      simp only [hr, reassemble, Option.toList_some, List.map_singleton, List.sum_singleton]
        at htable
      exact htable.trans_leaves (leaves_encryptPath port p opId f)
    | held =>
      simp only [hr, reassemble, Option.toList_none, List.map_nil, List.sum_nil, zero_add]
        at htable
      exact (htable.trans (moves_freeOp opId)).leaves_nothing
    | complete others data =>
      simp only [hr, reassemble, Option.toList_some, List.map_singleton, List.sum_singleton]
        at htable
      exact htable.trans_leaves (leaves_encryptPath port _ opId f)

theorem leaves_rxFrame (cfg : LoopConfig) (port : RxPort Key) (f : RxFrame) :
    Leaves s 0 (s.rxFrame cfg port f)
      (if port.portid.val = 1 then KeepsWan port.cparams f.chain.data
        else KeepsLan port.cparams f) := by
  have htake := (moves_takeMbufs (s := s) f.chain).trans
    ((moves_takeOp (s := s.takeMbufs f.chain)).under (pkt (s.freshPkt f.chain)))
  rw [add_comm] at htake
  refine htake.trans_leaves ?_
  by_cases hwan : port.portid.val = 1
  · simp only [rxFrame, if_pos hwan]
    exact leaves_wanFrame cfg port (s.freshPkt f.chain) s.nextOp f
  · simp only [rxFrame, if_neg hwan]
    exact leaves_lanFrame cfg port (s.freshPkt f.chain) s.nextOp f rfl

/-- A returned packet with its operation in hand. -/
theorem leaves_returned (cfg : LoopConfig) (port : RxPort Key) (p : Packet) (opId : ℕ) (iv : Bytes)
    (txAccepted : ℕ) :
    Leaves s (pkt p + opToken opId) ((s.simpleForward cfg port p iv txAccepted).freeOp opId)
      (port.portid.val = 0 → CanEncap p.data) :=
  (leaves_simpleForward cfg port p iv txAccepted).trans_moves (moves_freeOp opId)

theorem leaves_dequeue (cfg : LoopConfig) (port : RxPort Key) (d : Dequeued) :
    Leaves s 0 (s.dequeue cfg port d) (port.portid.val = 0 →
      d.index < (s.device port.devId).length → CanEncap d.data) := by
  unfold dequeue
  cases hf : (s.device port.devId)[d.index]? with
  | none =>
    have hout : ¬d.index < (s.device port.devId).length := by
      rw [List.getElem?_eq_none_iff] at hf
      omega
    exact (Custody.Moves.refl s 0).leaves (iff_of_true rfl fun _ h => absurd h hout)
  | some f =>
    obtain ⟨hin, _⟩ := List.getElem?_eq_some_iff.mp hf
    have herase := moves_eraseDevice hf
    have hhand : flight f = pkt (returnedPkt port f d) + opToken f.opId := by
      have hbag := bag_append f.mbufs [] [] [f.opId]
      rwa [List.append_nil, List.nil_append] at hbag
    rw [hhand] at herase
    dsimp only
    by_cases hwan : port.portid.val = 1
    · have htable := herase.trans
        ((moves_decapTable (returnedPkt port f d) d.reassembled).frame (opToken f.opId))
      have hlan : ¬port.portid.val = 0 := by omega
      rw [if_pos hwan]
      cases hreassemble : reassemble s.decapTable (returnedPkt port f d) d.reassembled with
      | mk whole table =>
        rw [hreassemble] at htable
        cases whole with
        | none =>
          simp only [Option.toList_none, List.map_nil, List.sum_nil, zero_add] at htable
          exact (htable.trans (moves_freeOp f.opId)).leaves
            (iff_of_true rfl fun h => absurd h hlan)
        | some p =>
          simp only [Option.toList_some, List.map_singleton, List.sum_singleton] at htable
          refine (htable.trans_leaves (leaves_returned cfg port p f.opId _ d.txAccepted)).congr ?_
          exact iff_of_true (fun h => absurd h hlan) (fun h => absurd h hlan)
    · rw [if_neg hwan]
      refine (herase.trans_leaves (leaves_returned cfg port _ f.opId _ d.txAccepted)).congr ?_
      exact ⟨fun h hlan _ => h hlan, fun h hlan => h hlan hin⟩

/-- **One step.** What the step forgets, and when. -/
theorem leaves_step (cfg : LoopConfig) (s : QueueConf Key) (e : LoopEvent Key) :
    Leaves s 0 (s.step cfg e) (Keeps s e) := by
  cases e with
  | egress frames accepted => exact (moves_cbPumpEgress cfg frames accepted).leaves_nothing
  | drain d => exact (moves_drain d).leaves_nothing
  | noOps frames => exact (moves_foldl (fun s c => moves_dropFrame c) s frames).leaves_nothing
  | frame i f =>
    simp only [step, Keeps]
    cases s.rxPorts[i]? with
    | none => exact (Custody.Moves.refl s 0).leaves (iff_of_true rfl fun _ h => by cases h)
    | some port =>
      apply (leaves_rxFrame cfg port f).congr
      simp only [Option.some.injEq, forall_eq']
  | dequeued i d =>
    simp only [step, Keeps]
    cases s.rxPorts[i]? with
    | none => exact (Custody.Moves.refl s 0).leaves (iff_of_true rfl fun _ h => by cases h)
    | some port =>
      apply (leaves_dequeue cfg port d).congr
      simp only [Option.some.injEq, forall_eq']

end Steps

/-- Nothing is held and nothing was taken before the first iteration. -/
theorem conserved_start (rxPorts : List (RxPort Key)) : Conserved (start rxPorts) := by
  have hheld : (start rxPorts).held = 0 + bag [] [] := by
    simp only [held, start, List.map_nil, List.sum_nil, Finset.sum_const_zero, add_zero]
  rw [Conserved, Custody.Balanced, hheld, zero_add]
  rfl

/-- The iteration takes none of the exits that forget a buffer. -/
def IterationKeeps (cfg : LoopConfig) (s : QueueConf Key) (it : LoopIteration Key) : Prop :=
  Runs.StepsMeet (step cfg) Keeps s (it.events s.hasWan)

/-- **One iteration.** The account is kept exactly when no step forgets anything. -/
theorem conserved_iterate_iff (cfg : LoopConfig) {s : QueueConf Key} (hs : Conserved s)
    (it : LoopIteration Key) : Conserved (s.iterate cfg it) ↔ IterationKeeps cfg s it := by
  unfold Conserved iterate IterationKeeps
  exact Custody.balanced_run_iff (leaves_step cfg) hs (it.events s.hasWan)

/-- **Every run.** After every iteration of the loop each mbuf and each operation is in
exactly one place, exactly when no step takes an exit that forgets one. -/
theorem mainLoop_conserved_iff (cfg : LoopConfig) (rxPorts : List (RxPort Key))
    (its : List (LoopIteration Key)) :
    Runs.Throughout (iterate cfg) Conserved (start rxPorts) its ↔
      Runs.StepsMeet (iterate cfg) (IterationKeeps cfg) (start rxPorts) its := by
  have hiteration (s : QueueConf Key) (it : LoopIteration Key) (_ : True) (hs : Conserved s) :
      Conserved (s.iterate cfg it) ↔ IterationKeeps cfg s it := conserved_iterate_iff cfg hs it
  exact Runs.throughout_iff_stepsMeet (fun _ _ _ _ _ => trivial) hiteration trivial
    (conserved_start rxPorts) its

end QueueConf

/-- The two ports of the box. -/
def lanPort : Port := ⟨0, by decide⟩

@[inherit_doc lanPort]
def wanPort : Port := ⟨1, by decide⟩

/-- A loop that forwards between the two ports, without a control port. -/
def plainLoop : LoopConfig where
  ipv4Cksum := fun _ => 0
  dstPorts := fun port => if port = lanPort then wanPort else lanPort
  authDigestLength := 20
  ctrlReady := false

/-- The receive port of a box that decrypts. -/
def wanBox : RxPort Bytes := ⟨wanPort, ⟨0, by decide⟩, verifyingBox⟩

/-- A frame of minimum size that carries no UDP. -/
def strayFrame : RxFrame where
  chain := ⟨0, { shortFrame with data := List.replicate 60 0, bufLen_lt := by simp [shortFrame] }⟩
  choice := ⟨(0, 0), fun _ => 0, 0⟩
  txAccepted := 0
  punted := false
  reassembled := .whole
  fragmented := .whole

/-- The mbuf of the stray frame is in no place after the iteration. -/
theorem strayFrame_leaks :
    ¬∀ its, Runs.Throughout (QueueConf.iterate plainLoop) QueueConf.Conserved
      (QueueConf.start [wanBox]) its := by
  intro h
  let it : LoopIteration Bytes := ⟨([], 0), none, [⟨true, [strayFrame], []⟩]⟩
  have hafter : QueueConf.Conserved ((QueueConf.start [wanBox]).iterate plainLoop it) := (h [it]).2
  have hkeeps := (QueueConf.conserved_iterate_iff plainLoop
    (QueueConf.conserved_start [wanBox]) it).mp hafter
  have hevents : it.events (QueueConf.start [wanBox]).hasWan =
      [.egress [] 0, .frame 0 strayFrame] := rfl
  rw [QueueConf.IterationKeeps, hevents] at hkeeps
  have hwan : QueueConf.KeepsWan verifyingBox strayFrame.chain.data := hkeeps.2.1 wanBox rfl
  rcases hwan with harp | ⟨_, hcontrol⟩ | ⟨hudp, _⟩
  · exact absurd harp (by decide)
  · exact absurd hcontrol (by decide)
  · exact absurd hudp (by decide)

end SecureWan
