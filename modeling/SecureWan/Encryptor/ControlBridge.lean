import SecureWan.Encryptor.Tunnel
import Mathlib.Data.List.Forall2

/-!
# The control bridge

`cb_pump_egress` carries frames of the kernel port to the WAN port, and
`cb_punt_to_kernel` carries them back up on the peer. On the wire a control
frame is the frame of the kernel with `CB_CTRL_ETHERTYPE` pushed in front of its
EtherType; both ends get there by moving a copy of the Ethernet header over the
two bytes.
-/

namespace SecureWan

/-- `cb_is_ctrl_frame`. -/
def cbIsCtrlFrame (m : Mbuf) : Prop :=
  etherHdrLen ≤ m.pktLen ∧ m.field16 12 = cbCtrlEtherType

instance (m : Mbuf) : Decidable (cbIsCtrlFrame m) := inferInstanceAs (Decidable (_ ∧ _))

/-- One turn of the loop of `cb_pump_egress`: the frame put on the transmit
queue, or `none` when it is freed. -/
def cbTagFrame (m : Mbuf) : Option Mbuf :=
  if m.pktLen < etherHdrLen then none
  else
    let ethCopy := m.load 0 etherHdrLen
    let origTypeBe := ethCopy.readAt 12 2
    match m.prepend 2 with
    | none => none
    | some m =>
      let m := m.store 0 ethCopy
      let m := m.store etherHdrLen origTypeBe
      some (m.store 12 (be16 cbCtrlEtherType))

/-- `cb_pump_egress` for the frames of one receive burst, of which the WAN port
accepts the first `sent`: the frames it transmits, and the number it returns. -/
def cbPumpEgress (gReady : Bool) (bufs : List Mbuf) (sent : ℕ) : List Mbuf × ℕ :=
  if !gReady then ([], 0)
  else
    let txq := bufs.filterMap cbTagFrame
    (txq.take sent, txq.length)

/-- `cb_punt_to_kernel`: the frame transmitted to the kernel port, or `none`
when it is freed before. -/
def cbPuntToKernel (gReady : Bool) (m : Mbuf) : Option Mbuf :=
  if !gReady then none
  else if m.pktLen < etherHdrLen + 2 then none
  else
    let origTypeBe := m.load etherHdrLen 2
    let ethCopy := (m.load 0 etherHdrLen).patch 12 origTypeBe
    match m.adj 2 with
    | none => none
    | some m => some (m.store 0 ethCopy)

/-- A control frame on the wire: an EtherType pushed behind the addresses. -/
def pushType (frame : Bytes) : Bytes :=
  frame.take 12 ++ (be16 cbCtrlEtherType ++ frame.drop 12)

/-- The EtherType behind the addresses taken off again. -/
def popType (wire : Bytes) : Bytes := wire.take 12 ++ wire.drop etherHdrLen

/-- Popping takes off what was pushed. -/
theorem popType_pushType {frame : Bytes} (h : 12 ≤ frame.length) :
    popType (pushType frame) = frame := by
  have haddrs : (frame.take 12).length = 12 := by
    rw [List.length_take, Nat.min_eq_left h]
  have heth : (frame.take 12 ++ be16 cbCtrlEtherType).length = etherHdrLen :=
    length_etherHdr haddrs (length_be16 _)
  have htake : (pushType frame).take 12 = frame.take 12 := List.take_left' haddrs
  have hdrop : (pushType frame).drop etherHdrLen = frame.drop 12 := by
    rw [pushType, ← List.append_assoc]
    exact List.drop_left' heth
  rw [popType, htake, hdrop, List.take_append_drop]

/-- A frame with an Ethernet header and room for the tag is put on the queue,
with the control EtherType pushed. -/
theorem cbTagFrame_isSome {m : Mbuf} (hlen : etherHdrLen ≤ m.pktLen)
    (hroom : 2 ≤ m.headroom.length) :
    ∃ m', cbTagFrame m = some m' ∧ m'.data = pushType m.data := by
  obtain ⟨addrs, type, payload, hdata, haddrsEq, _, haddrs, htype, _⟩ := exists_frame hlen
  have hcopy : m.load 0 etherHdrLen = addrs ++ type := by
    refine Mbuf.load_zero (b := payload) ?_ (length_etherHdr haddrs htype)
    rw [hdata, List.append_assoc]
  have horig : (addrs ++ type).readAt 12 2 = type := by
    have hmiddle : (addrs ++ (type ++ [])).readAt 12 2 = type := Bytes.readAt_middle haddrs htype
    rwa [List.append_nil] at hmiddle
  obtain ⟨m₁, hm₁⟩ := Mbuf.prepend_isSome (m := m) hroom
  obtain ⟨_, _, ⟨front, hfront, hdata₁⟩, _⟩ := Mbuf.of_prepend hm₁
  -- the old EtherType stays where it is: the tag goes there
  have h₁ : m₁.data = (front ++ addrs) ++ (type ++ payload) := by
    rw [hdata₁, hdata, List.append_assoc]
  have h₂ : (m₁.store 0 (addrs ++ type)).data = addrs ++ (type ++ (type ++ payload)) := by
    rw [Mbuf.store_front h₁
      (by rw [List.length_append, List.length_append, hfront, haddrs, htype]), List.append_assoc]
  have h₂' : (m₁.store 0 (addrs ++ type)).data = (addrs ++ type) ++ (type ++ payload) := by
    rw [h₂, List.append_assoc]
  have h₃ : ((m₁.store 0 (addrs ++ type)).store etherHdrLen type).data =
      addrs ++ (type ++ (type ++ payload)) := by
    rw [Mbuf.store_middle h₂' (length_etherHdr haddrs htype) rfl, List.append_assoc]
  refine ⟨((m₁.store 0 (addrs ++ type)).store etherHdrLen type).store 12
    (be16 cbCtrlEtherType), ?_, ?_⟩
  · simp only [cbTagFrame, if_neg (Nat.not_lt.mpr hlen), hcopy, horig, hm₁]
  · have hpush : pushType m.data = addrs ++ (be16 cbCtrlEtherType ++ (type ++ payload)) := by
      rw [pushType, ← haddrsEq, hdata, List.drop_left' haddrs]
    rw [hpush]
    exact Mbuf.store_middle h₃ haddrs (by rw [length_be16, htype])

/-- Without an Ethernet header, or without room for the tag, a frame is freed. -/
theorem of_cbTagFrame {m m' : Mbuf} (h : cbTagFrame m = some m') :
    etherHdrLen ≤ m.pktLen ∧ 2 ≤ m.headroom.length := by
  unfold cbTagFrame at h
  split at h
  next => cases h
  next hlen =>
    cases hprepend : m.prepend 2 with
    | none => simp only [hprepend, reduceCtorEq] at h
    | some m₁ => exact ⟨Nat.not_lt.mp hlen, (Mbuf.of_prepend hprepend).1⟩

/-- A bridge that is up passes a frame that holds a tag to the kernel, with the
EtherType in front of the tag popped. -/
theorem cbPuntToKernel_isSome {m : Mbuf} (hlen : etherHdrLen + 2 ≤ m.pktLen) :
    ∃ m', cbPuntToKernel true m = some m' ∧ m'.data = popType m.data := by
  obtain ⟨addrs, type, rest, hdata, haddrsEq, hrest, haddrs, htype, _⟩ :=
    exists_frame (m := m) (by omega)
  have hrestLen : 2 ≤ rest.length := by
    rw [hrest, List.length_drop]
    exact Nat.le_sub_of_add_le' hlen
  obtain ⟨tag, payload, rfl, htag⟩ := Bytes.exists_front hrestLen
  have heth : (addrs ++ type).length = etherHdrLen := length_etherHdr haddrs htype
  have hframe : m.data = (addrs ++ type) ++ (tag ++ payload) := by rw [hdata, List.append_assoc]
  have hload : m.load 0 etherHdrLen = addrs ++ type := Mbuf.load_zero hframe heth
  have htagLoad : m.load etherHdrLen 2 = tag := Mbuf.load_middle hframe heth htag
  have hpatch : (addrs ++ type).patch 12 tag = addrs ++ tag := by
    have hmiddle : (addrs ++ (type ++ [])).patch addrs.length tag = addrs ++ (tag ++ []) :=
      Bytes.patch_middle (by rw [htag, htype])
    rwa [List.append_nil, List.append_nil, haddrs] at hmiddle
  obtain ⟨m₁, hm₁⟩ := Mbuf.adj_isSome (m := m) (n := 2) (Nat.le_trans (by decide) hlen)
  obtain ⟨_, _, hdata₁, _⟩ := Mbuf.of_adj hm₁
  -- what the saved header is written over: all that is left of the old one, and the tag
  have hfront : ((addrs ++ (type ++ tag)).drop 2).length = (addrs ++ tag).length := by
    simp only [List.length_drop, List.length_append, haddrs, htype, htag]
  have hdata₁' : m₁.data = (addrs ++ (type ++ tag)).drop 2 ++ payload := by
    rw [hdata₁, hdata, ← List.drop_append_of_le_length
      (by simp only [List.length_append, haddrs]; omega)]
    simp only [List.append_assoc]
  refine ⟨m₁.store 0 (addrs ++ tag), ?_, ?_⟩
  · simp only [cbPuntToKernel, Bool.not_true, Bool.false_eq_true, if_false,
      if_neg (Nat.not_lt.mpr hlen), htagLoad, hload, hpatch, hm₁]
  · rw [Mbuf.store_front hdata₁' hfront.symm, popType, ← haddrsEq, ← hrest, List.append_assoc]

/-- The EtherType of a frame depends on its bytes only. -/
theorem field16_etherType {m : Mbuf} {addrs rest : Bytes} {n : ℕ}
    (hdata : m.data = addrs ++ (be16 n ++ rest)) (haddrs : addrs.length = 12) :
    m.field16 12 = n % 2 ^ 16 := by
  have hright : m.field16 12 = (be16 n ++ rest).field16 (12 - addrs.length) := by
    apply Mbuf.field16_right hdata (by omega)
    rw [List.length_append, length_be16]
    omega
  rw [hright, haddrs, Bytes.field16_append_left (by rw [length_be16]; decide), field16_be16]

/-- A frame with a pushed EtherType is a control frame to the receive loop. -/
theorem wanRx_pushType {m : Mbuf} {frame : Bytes} (hdata : m.data = pushType frame)
    (hlen : 12 ≤ frame.length) :
    cbIsCtrlFrame m ∧ m.field16 12 ≠ etherTypeArp ∧
      ∀ {Key : Type} (cp : CryptoParams Key), wanRx cp m = .control m := by
  have haddrs : (frame.take 12).length = 12 := by
    rw [List.length_take, Nat.min_eq_left hlen]
  have htype : m.field16 12 = cbCtrlEtherType := field16_etherType hdata haddrs
  have hpkt : etherHdrLen ≤ m.pktLen := by
    rw [Mbuf.pktLen, hdata, pushType, List.length_append, List.length_append, haddrs, length_be16]
    unfold etherHdrLen
    omega
  have hctrl : cbIsCtrlFrame m := ⟨hpkt, htype⟩
  have hnotArp : m.field16 12 ≠ etherTypeArp := by
    rw [htype]
    decide
  exact ⟨hctrl, hnotArp, fun _ => (if_neg hnotArp).trans (if_pos ⟨hpkt, htype⟩)⟩

/-- A tunnel frame carries the EtherType of IPv4. -/
theorem tunnelEncap_etherType {ipv4Cksum : Bytes → UInt16} {ivData : Bytes} {epoch : UInt8}
    {m wire peer : Mbuf} (h : tunnelEncap ipv4Cksum ivData epoch m = some wire)
    (hpeer : peer.data = wire.data) : peer.field16 12 = etherTypeIpv4 := by
  -- only the first bytes of the IV are looked at
  have hread : (ivData.readAt 0 ivInPacketSize).readAt 0 ivInPacketSize =
      ivData.readAt 0 ivInPacketSize := by
    refine Bytes.readAt_eq_readAt_iff.mpr fun i hi => ?_
    rw [Nat.zero_add, Bytes.byteAt_readAt hi, Nat.zero_add]
  have h' : tunnelEncap ipv4Cksum (ivData.readAt 0 ivInPacketSize) epoch m = some wire := by
    rw [← h]
    simp only [tunnelEncap, hread]
  have hiv : (ivData.readAt 0 ivInPacketSize).length = ivInPacketSize := Bytes.length_readAt
  obtain ⟨hroom, _⟩ := of_tunnelEncap hiv h'
  obtain ⟨addrs, type, payload, hdata, _, _, haddrs, htype, _⟩ := exists_frame hroom.1
  obtain ⟨wire', hwire', hlayout⟩ :=
    tunnelEncap_isSome ipv4Cksum epoch hdata haddrs htype hiv hroom.2
  obtain rfl : wire = wire' := Option.some.inj (h'.symm.trans hwire')
  rw [← hpeer] at hlayout
  exact field16_etherType hlayout haddrs

/-- What arrives on the peer for a frame of the kernel: the receive loop takes
it for control and not for ARP, and its bridge passes up the same bytes. -/
def PassedUp (m wire : Mbuf) : Prop :=
  ∀ peer : Mbuf, peer.data = wire.data →
    cbIsCtrlFrame peer ∧ peer.field16 12 ≠ etherTypeArp ∧
      (∀ {Key : Type} (cp : CryptoParams Key), wanRx cp peer = .control peer) ∧
        ∃ out, cbPuntToKernel true peer = some out ∧ out.data = m.data

/-- What `cb_pump_egress` puts on its queue is passed up by the peer. -/
theorem passedUp_of_cbTagFrame {m wire : Mbuf} (h : cbTagFrame m = some wire) :
    PassedUp m wire := by
  intro peer hpeer
  obtain ⟨hlen, hroom⟩ := of_cbTagFrame h
  obtain ⟨wire', hwire', hdata⟩ := cbTagFrame_isSome hlen hroom
  obtain rfl : wire = wire' := Option.some.inj (h.symm.trans hwire')
  have hframe : 12 ≤ m.data.length := Nat.le_trans (by decide) hlen
  rw [hdata] at hpeer
  obtain ⟨hctrl, hnotArp, hwan⟩ := wanRx_pushType hpeer hframe
  have htagged : etherHdrLen + 2 ≤ peer.pktLen := by
    rw [Mbuf.pktLen, hpeer, pushType, List.length_append, List.length_append, List.length_take,
      List.length_drop, length_be16, Nat.min_eq_left hframe]
    have : etherHdrLen ≤ m.data.length := hlen
    unfold etherHdrLen at this ⊢
    omega
  obtain ⟨out, hout, houtData⟩ := cbPuntToKernel_isSome htagged
  refine ⟨hctrl, hnotArp, hwan, out, hout, ?_⟩
  rw [houtData, hpeer, popType_pushType hframe]

/-- The frames of the kernel that `cb_pump_egress` passes on. -/
def CanTag (m : Mbuf) : Prop := etherHdrLen ≤ m.pktLen ∧ 2 ≤ m.headroom.length

instance (m : Mbuf) : Decidable (CanTag m) := inferInstanceAs (Decidable (_ ∧ _))

/-- The queue holds one frame for each frame that can be tagged, in order. -/
theorem forall₂_txq (bufs : List Mbuf) :
    List.Forall₂ PassedUp (bufs.filter (CanTag ·)) (bufs.filterMap cbTagFrame) := by
  induction bufs with
  | nil => exact .nil
  | cons m bufs ih =>
    by_cases htag : CanTag m
    · obtain ⟨wire, hwire, _⟩ := cbTagFrame_isSome htag.1 htag.2
      rw [List.filter_cons_of_pos (by simpa using htag), List.filterMap_cons_some hwire]
      exact .cons (passedUp_of_cbTagFrame hwire) ih
    · have hnone : cbTagFrame m = none := by
        cases hwire : cbTagFrame m with
        | none => rfl
        | some wire => exact absurd (of_cbTagFrame hwire) htag
      rw [List.filter_cons_of_neg (by simpa using htag), List.filterMap_cons_none hnone]
      exact ih

/-- **The control bridge.** Every frame of the kernel with an Ethernet header
and room for the tag goes out in order, up to what the port accepts; the peer
takes it for control and not for ARP, and hands its own kernel the same bytes.
No tunnel frame is taken for either. -/
theorem cbPumpEgress_passedUp :
    (∀ (bufs : List Mbuf) (sent : ℕ),
      List.Forall₂ PassedUp ((bufs.filter (CanTag ·)).take sent)
        (cbPumpEgress true bufs sent).1) ∧
    ∀ (ipv4Cksum : Bytes → UInt16) (ivData : Bytes) (epoch : UInt8) (m wire peer : Mbuf),
      tunnelEncap ipv4Cksum ivData epoch m = some wire → peer.data = wire.data →
        ¬cbIsCtrlFrame peer ∧ peer.field16 12 ≠ etherTypeArp := by
  refine ⟨fun bufs sent => List.forall₂_take sent (forall₂_txq bufs), ?_⟩
  intro ipv4Cksum ivData epoch m wire peer hwire hpeer
  have htype := tunnelEncap_etherType hwire hpeer
  refine ⟨fun hctrl => ?_, ?_⟩
  · exact absurd (htype.symm.trans hctrl.2) (by decide)
  · rw [htype]
    decide

/-- A bare Ethernet header with room for the outer headers. -/
theorem cbPumpEgress_passedUp_bare :
    ∃ wire, tunnelEncap (fun _ => 0) (List.replicate 16 0) 0
        ⟨List.replicate 44 0, List.replicate 14 0, [], by decide⟩ = some wire ∧
      ¬cbIsCtrlFrame wire ∧ wire.field16 12 ≠ etherTypeArp := by
  have hiv : (List.replicate 16 (0 : UInt8)).length = ivInPacketSize := rfl
  have hroom : CanEncap ⟨List.replicate 44 0, List.replicate 14 0, [], by decide⟩ :=
    ⟨by decide, by decide⟩
  obtain ⟨wire, hwire⟩ := tunnelEncap_of_canEncap (fun _ => 0) 0 hiv hroom
  exact ⟨wire, hwire, cbPumpEgress_passedUp.2 _ _ _ _ _ _ hwire rfl⟩

end SecureWan
