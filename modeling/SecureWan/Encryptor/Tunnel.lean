import SecureWan.Encryptor.Enqueue

/-!
# The tunnel

The four pieces of the tunnel program around the crypto device: `tunnel_encap`
and `tunnel_decap`, the receive path of the WAN port, and
`l2fwd_simple_forward`. The IPv4 header checksum of DPDK is a parameter.
-/

namespace SecureWan

/-- `RTE_ETHER_TYPE_IPV4`. -/
def etherTypeIpv4 : ℕ := 0x0800

/-- `RTE_ETHER_TYPE_ARP`. -/
def etherTypeArp : ℕ := 0x0806

/-- `CB_CTRL_ETHERTYPE`. -/
def cbCtrlEtherType : ℕ := 0x88B5

/-- `sizeof(struct rte_ipv4_hdr)`. -/
def ipv4HdrLen : ℕ := 20

/-- `sizeof(struct rte_udp_hdr)`. -/
def udpHdrLen : ℕ := 8

/-- `IPPROTO_UDP`. -/
def ipprotoUdp : UInt8 := 17

/-- The outer IPv4 header, as `tunnel_encap` fills it in, with a given checksum. -/
def outerIpFields (epoch : UInt8) (innerLen : ℕ) (cksum : UInt16) : Bytes :=
  [0x45, epoch] ++ be16 (ipv4HdrLen + udpHdrLen + ivInPacketSize + innerLen) ++ be16 0 ++
    be16 0x4000 ++ [64, ipprotoUdp] ++ be16 cksum.toNat ++ [10, 0, 0, 1] ++ [10, 0, 0, 2]

/-- The outer IPv4 header with its checksum, computed over a zero checksum field. -/
def outerIpHdr (ipv4Cksum : Bytes → UInt16) (epoch : UInt8) (innerLen : ℕ) : Bytes :=
  outerIpFields epoch innerLen (ipv4Cksum (outerIpFields epoch innerLen 0))

/-- The outer UDP header: `TUNNEL_UDP_SRC`, `TUNNEL_UDP_DST`, length, no checksum. -/
def outerUdpHdr (innerLen : ℕ) : Bytes :=
  be16 1701 ++ be16 1701 ++ be16 (udpHdrLen + ivInPacketSize + innerLen) ++ be16 0

/-- `tunnel_encap`: the Ethernet header is lifted off, and Ethernet, IPv4, UDP
and the IV are put in front of the encrypted payload. -/
def tunnelEncap (ipv4Cksum : Bytes → UInt16) (ivData : Bytes) (epoch : UInt8) (m : Mbuf) :
    Option Mbuf :=
  let ethCopy := m.load 0 etherHdrLen
  match m.adj etherHdrLen with
  | none => none
  | some m =>
    let innerLen := m.pktLen % 2 ^ 16
    match m.prepend (etherHdrLen + ipv4HdrLen + udpHdrLen + ivInPacketSize) with
    | none => none
    | some m =>
      let m := m.store 0 ethCopy
      let m := m.store 12 (be16 etherTypeIpv4)
      let m := m.store etherHdrLen (outerIpHdr ipv4Cksum epoch innerLen)
      let m := m.store (etherHdrLen + ipv4HdrLen) (outerUdpHdr innerLen)
      some (m.store (etherHdrLen + ipv4HdrLen + udpHdrLen) (ivData.readAt 0 ivInPacketSize))

/-- Drop a front that begins with the Ethernet header, and put the header back. -/
def stripKeepingEth (m : Mbuf) (eth : Bytes) (strip : ℕ) : Option Mbuf :=
  match m.adj strip with
  | none => none
  | some m =>
    match m.prepend etherHdrLen with
    | none => none
    | some m => some (m.store 0 eth)

/-- `tunnel_decap`: check the protocol, read the epoch from the TOS byte, and
strip the outer IPv4 and UDP headers. -/
def tunnelDecap (m : Mbuf) : Option (Mbuf × UInt8) :=
  if m.byteAt (etherHdrLen + 9) ≠ ipprotoUdp then none
  else
    let epoch := m.byteAt (etherHdrLen + 1)
    match stripKeepingEth m (m.load 0 etherHdrLen) (etherHdrLen + ipv4HdrLen + udpHdrLen) with
    | none => none
    | some m => some (m, epoch)

/-- What the receive loop of port 1 does with a frame. -/
inductive WanRx where
  /-- An ARP frame, forwarded without crypto. -/
  | arp (m : Mbuf)
  /-- A control frame, punted to the kernel. -/
  | control (m : Mbuf)
  /-- `tunnel_decap` rejected the frame. -/
  | decapFailed
  /-- No session for the frame's epoch. -/
  | badEpoch
  /-- The frame has no room for an IV. -/
  | stripFailed
  /-- The packet is handed to `l2fwd_simple_crypto_enqueue` with its IV and epoch. -/
  | decrypt (pktIv : Bytes) (rxEpoch : UInt8) (m : Mbuf)

/-- The receive path of port 1 for one frame, up to the enqueue function. -/
def wanRx {Key : Type} (cp : CryptoParams Key) (m : Mbuf) : WanRx :=
  if m.field16 12 = etherTypeArp then .arp m
  else if etherHdrLen ≤ m.pktLen ∧ m.field16 12 = cbCtrlEtherType then .control m
  else
    match tunnelDecap m with
    | none => .decapFailed
    | some (m, rxEpoch) =>
      if (csSessionForEpoch cp.cs rxEpoch).isNone ∧ cp.cs.epochCur ≠ rxEpoch then .badEpoch
      else
        let pktIv := m.load etherHdrLen ivInPacketSize
        match stripKeepingEth m (m.load 0 etherHdrLen) (etherHdrLen + ivInPacketSize) with
        | none => .stripFailed
        | some m => .decrypt pktIv rxEpoch m

/-- `l2fwd_simple_forward` up to the call of `l2fwd_send_packet`. The encrypt
side stamps the epoch that is current on the lcore now; the decrypt side trims
the digest and then less than one block of padding. -/
def l2fwdSimpleForward {Key : Type} (ipv4Cksum : Bytes → UInt16) (portid : ℕ)
    (encs : Option (CsPort Key)) (authDigestLength : ℕ) (iv : Bytes) (m : Mbuf) : Option Mbuf :=
  if portid = 0 then
    let encEpoch := match encs with
      | some cs => cs.epochCur
      | none => 0
    tunnelEncap ipv4Cksum iv encEpoch m
  else if portid = 1 then
    let m := if 0 < authDigestLength then m.trim authDigestLength else m
    let padLen := sub32 (sub32 m.pktLen etherHdrLen) (m.field16 (etherHdrLen + 2))
    some (if 0 < padLen ∧ padLen < 16 then m.trim padLen else m)
  else some m

@[simp] theorem length_outerIpHdr (ipv4Cksum : Bytes → UInt16) (epoch : UInt8) (innerLen : ℕ) :
    (outerIpHdr ipv4Cksum epoch innerLen).length = ipv4HdrLen := rfl

@[simp] theorem length_outerUdpHdr (innerLen : ℕ) : (outerUdpHdr innerLen).length = udpHdrLen := rfl

/-- The epoch is the TOS byte of the outer header. -/
theorem outerIpHdr_tos (ipv4Cksum : Bytes → UInt16) (epoch : UInt8) (innerLen : ℕ) :
    (outerIpHdr ipv4Cksum epoch innerLen).byteAt 1 = epoch := rfl

/-- The protocol of the outer header is UDP. -/
theorem outerIpHdr_proto (ipv4Cksum : Bytes → UInt16) (epoch : UInt8) (innerLen : ℕ) :
    (outerIpHdr ipv4Cksum epoch innerLen).byteAt 9 = ipprotoUdp := rfl

/-- Stripping a known front puts the Ethernet header before the rest. -/
theorem stripKeepingEth_isSome {m : Mbuf} {eth front rest : Bytes} {strip : ℕ}
    (hdata : m.data = front ++ rest) (hfront : front.length = strip)
    (heth : eth.length = etherHdrLen) (hstrip : etherHdrLen ≤ strip) :
    ∃ m', stripKeepingEth m eth strip = some m' ∧ m'.data = eth ++ rest := by
  have hlen : m.data.length = strip + rest.length := by
    rw [hdata, List.length_append, hfront]
  obtain ⟨m₁, hm₁⟩ := Mbuf.adj_isSome (m := m) (n := strip) (by omega)
  obtain ⟨_, hhead₁, hdata₁, _⟩ := Mbuf.of_adj hm₁
  obtain ⟨m₂, hm₂⟩ := Mbuf.prepend_isSome (m := m₁) (n := etherHdrLen) (by omega)
  obtain ⟨_, _, ⟨gap, hgap, hdata₂⟩, _⟩ := Mbuf.of_prepend hm₂
  refine ⟨m₂.store 0 eth, by simp only [stripKeepingEth, hm₁, hm₂], ?_⟩
  rw [hdata₁, hdata, List.drop_left' hfront] at hdata₂
  exact Mbuf.store_front hdata₂ (by rw [heth, hgap])

/-- A successful strip had the bytes to strip; nothing else changes in length. -/
theorem of_stripKeepingEth {m m' : Mbuf} {eth : Bytes} {strip : ℕ}
    (h : stripKeepingEth m eth strip = some m') :
    strip ≤ m.data.length ∧ m'.data.length = m.data.length - strip + etherHdrLen ∧
      m'.tailroom.length = m.tailroom.length := by
  unfold stripKeepingEth at h
  cases hadj : m.adj strip with
  | none => simp only [hadj, reduceCtorEq] at h
  | some m₁ =>
    obtain ⟨hle, _, hdata₁, htail₁⟩ := Mbuf.of_adj hadj
    cases hprepend : m₁.prepend etherHdrLen with
    | none => simp only [hadj, hprepend, reduceCtorEq] at h
    | some m₂ =>
      obtain ⟨_, _, ⟨gap, hgap, hdata₂⟩, htail₂⟩ := Mbuf.of_prepend hprepend
      simp only [hadj, hprepend, Option.some.injEq] at h
      subst h
      refine ⟨hle, ?_, ?_⟩
      · rw [Mbuf.length_store_data, hdata₂, List.length_append, hgap, hdata₁, List.length_drop]
        omega
      · rw [Mbuf.length_store_tailroom, htail₂, htail₁]

/-- The addresses and the EtherType make an Ethernet header. -/
theorem length_etherHdr {addrs type : Bytes} (haddrs : addrs.length = 12)
    (htype : type.length = 2) : (addrs ++ type).length = etherHdrLen := by
  rw [List.length_append, haddrs, htype]
  rfl

/-- The writes of `tunnel_encap` fill a fresh front of the packet completely. -/
private theorem store_outerHeaders {m : Mbuf} {front addrs type iv inner : Bytes}
    (ip udp : Bytes) (hdata : m.data = front ++ inner) (hfront : front.length = 58)
    (haddrs : addrs.length = 12) (htype : type.length = 2) (hip : ip.length = 20)
    (hudp : udp.length = 8) (hiv : iv.length = 16) :
    (((((m.store 0 (addrs ++ type)).store 12 (be16 etherTypeIpv4)).store 14 ip).store 34
      udp).store 42 iv).data =
      addrs ++ (be16 etherTypeIpv4 ++ (ip ++ (udp ++ (iv ++ inner)))) := by
  -- the front, cut where the fields begin
  obtain ⟨gapEth, front₁, rfl, hgapEth⟩ := Bytes.exists_front (l := front) (n := 14) (by omega)
  rw [List.length_append, hgapEth] at hfront
  obtain ⟨gapIp, front₂, rfl, hgapIp⟩ := Bytes.exists_front (l := front₁) (n := 20) (by omega)
  rw [List.length_append, hgapIp] at hfront
  obtain ⟨gapUdp, gapIv, rfl, hgapUdp⟩ := Bytes.exists_front (l := front₂) (n := 8) (by omega)
  rw [List.length_append, hgapUdp] at hfront
  let m₀ := m.store 0 (addrs ++ type)
  have h₀ : m₀.data = addrs ++ (type ++ (gapIp ++ (gapUdp ++ (gapIv ++ inner)))) := by
    have hbefore : m.data = gapEth ++ (gapIp ++ (gapUdp ++ (gapIv ++ inner))) := by
      rw [hdata]
      simp only [List.append_assoc]
    rw [Mbuf.store_front hbefore (by rw [List.length_append, haddrs, htype, hgapEth]),
      List.append_assoc]
  let m₁ := m₀.store 12 (be16 etherTypeIpv4)
  have h₁ : m₁.data = (addrs ++ be16 etherTypeIpv4) ++ (gapIp ++ (gapUdp ++ (gapIv ++ inner))) := by
    rw [Mbuf.store_middle h₀ haddrs (by rw [length_be16, htype]), List.append_assoc]
  have hlen₁ : (addrs ++ be16 etherTypeIpv4).length = 14 := by
    rw [List.length_append, haddrs, length_be16]
  let m₂ := m₁.store 14 ip
  have h₂ : m₂.data = (addrs ++ be16 etherTypeIpv4 ++ ip) ++ (gapUdp ++ (gapIv ++ inner)) := by
    rw [Mbuf.store_middle h₁ hlen₁ (by rw [hip, hgapIp])]
    simp only [List.append_assoc]
  have hlen₂ : (addrs ++ be16 etherTypeIpv4 ++ ip).length = 34 := by
    rw [List.length_append, hlen₁, hip]
  let m₃ := m₂.store 34 udp
  have h₃ : m₃.data = (addrs ++ be16 etherTypeIpv4 ++ ip ++ udp) ++ (gapIv ++ inner) := by
    rw [Mbuf.store_middle h₂ hlen₂ (by rw [hudp, hgapUdp])]
    simp only [List.append_assoc]
  have hlen₃ : (addrs ++ be16 etherTypeIpv4 ++ ip ++ udp).length = 42 := by
    rw [List.length_append, hlen₂, hudp]
  have h₄ := Mbuf.store_middle h₃ hlen₃ (show iv.length = gapIv.length by omega)
  simpa only [List.append_assoc] using h₄

/-- The length field of the outer header. -/
theorem outerIpHdr_totalLength (ipv4Cksum : Bytes → UInt16) (epoch : UInt8) (innerLen : ℕ) :
    (outerIpHdr ipv4Cksum epoch innerLen).field16 2 =
      (ipv4HdrLen + udpHdrLen + ivInPacketSize + innerLen) % 2 ^ 16 :=
  field16_be16 (ipv4HdrLen + udpHdrLen + ivInPacketSize + innerLen)

/-- The length field of the UDP header. -/
theorem outerUdpHdr_dgramLen (innerLen : ℕ) :
    (outerUdpHdr innerLen).field16 4 = (udpHdrLen + ivInPacketSize + innerLen) % 2 ^ 16 :=
  field16_be16 (udpHdrLen + ivInPacketSize + innerLen)

/-- **Encapsulation.** With room for the outer headers, the wire frame is the
Ethernet header retyped to IPv4, the outer headers, the IV and the payload. -/
theorem tunnelEncap_isSome (ipv4Cksum : Bytes → UInt16) (epoch : UInt8) {m : Mbuf}
    {addrs type inner iv : Bytes} (hdata : m.data = addrs ++ (type ++ inner))
    (haddrs : addrs.length = 12) (htype : type.length = 2) (hiv : iv.length = ivInPacketSize)
    (hroom : ipv4HdrLen + udpHdrLen + ivInPacketSize ≤ m.headroom.length) :
    ∃ m', tunnelEncap ipv4Cksum iv epoch m = some m' ∧
      m'.data = addrs ++ (be16 etherTypeIpv4 ++ (outerIpHdr ipv4Cksum epoch inner.length ++
        (outerUdpHdr inner.length ++ (iv ++ inner)))) := by
  have hdata' : m.data = (addrs ++ type) ++ inner := by rw [hdata, List.append_assoc]
  have heth : (addrs ++ type).length = etherHdrLen := length_etherHdr haddrs htype
  have hlen : m.data.length = etherHdrLen + inner.length := by
    rw [hdata', List.length_append, heth]
  have hcopy : m.load 0 etherHdrLen = addrs ++ type := Mbuf.load_zero hdata' heth
  obtain ⟨m₁, hm₁⟩ := Mbuf.adj_isSome (m := m) (n := etherHdrLen) (by omega)
  obtain ⟨_, hhead₁, hdata₁, _⟩ := Mbuf.of_adj hm₁
  rw [hdata', List.drop_left' heth] at hdata₁
  obtain ⟨m₂, hm₂⟩ := Mbuf.prepend_isSome (m := m₁)
    (n := etherHdrLen + ipv4HdrLen + udpHdrLen + ivInPacketSize) (by omega)
  obtain ⟨_, _, ⟨front, hfront, hdata₂⟩, _⟩ := Mbuf.of_prepend hm₂
  have hinner : m₁.pktLen % 2 ^ 16 = inner.length := by
    rw [Mbuf.pktLen, Nat.mod_eq_of_lt m₁.length_data_lt, hdata₁]
  have hivRead : iv.readAt 0 ivInPacketSize = iv := by
    rw [Bytes.readAt_eq (by omega), List.drop_zero, ← hiv, List.take_length]
  rw [hdata₁] at hdata₂
  refine ⟨_, ?_, store_outerHeaders (outerIpHdr ipv4Cksum epoch inner.length)
    (outerUdpHdr inner.length) hdata₂ hfront haddrs htype rfl rfl hiv⟩
  simp only [tunnelEncap, hcopy, hm₁, hm₂, hinner, hivRead]
  rfl

/-- A frame with an Ethernet header, cut into addresses, EtherType and payload. -/
theorem exists_frame {m : Mbuf} (h : etherHdrLen ≤ m.pktLen) :
    ∃ addrs type payload : Bytes, m.data = addrs ++ (type ++ payload) ∧
      addrs = m.data.take 12 ∧ payload = m.data.drop etherHdrLen ∧ addrs.length = 12 ∧
      type.length = 2 ∧ m.field16 12 = type.field16 0 := by
  have hlen : 14 ≤ m.data.length := h
  have haddrs : (m.data.take 12).length = 12 := by
    rw [List.length_take, Nat.min_eq_left (by omega)]
  have htype : ((m.data.drop 12).take 2).length = 2 := by
    rw [List.length_take, List.length_drop, Nat.min_eq_left (by omega)]
  have hdrop : m.data.drop etherHdrLen = (m.data.drop 12).drop 2 := by
    rw [List.drop_drop]
    rfl
  have hsplit : m.data =
      m.data.take 12 ++ ((m.data.drop 12).take 2 ++ m.data.drop etherHdrLen) := by
    rw [hdrop, List.take_append_drop, List.take_append_drop]
  refine ⟨m.data.take 12, (m.data.drop 12).take 2, _, hsplit, rfl, rfl, haddrs, htype, ?_⟩
  have hright := Mbuf.field16_right hsplit (Nat.le_of_eq haddrs)
    (by rw [haddrs, List.length_append, htype]; omega)
  rw [hright, haddrs, Bytes.field16_append_left (by rw [htype]; decide)]

/-- The room `tunnel_encap` needs: an Ethernet header to lift off, and headroom
for what is put in front besides it. -/
def CanEncap (m : Mbuf) : Prop :=
  etherHdrLen ≤ m.pktLen ∧ ipv4HdrLen + udpHdrLen + ivInPacketSize ≤ m.headroom.length

/-- A successful encapsulation had the room, and carries the epoch in the TOS byte. -/
theorem of_tunnelEncap {ipv4Cksum : Bytes → UInt16} {iv : Bytes} {epoch : UInt8} {m wire : Mbuf}
    (hiv : iv.length = ivInPacketSize) (h : tunnelEncap ipv4Cksum iv epoch m = some wire) :
    CanEncap m ∧ wire.byteAt (etherHdrLen + 1) = epoch := by
  have hroom : CanEncap m := by
    unfold tunnelEncap at h
    cases hadj : m.adj etherHdrLen with
    | none => simp only [hadj, reduceCtorEq] at h
    | some m₁ =>
      obtain ⟨hle, hhead, _, _⟩ := Mbuf.of_adj hadj
      cases hprepend : m₁.prepend (etherHdrLen + ipv4HdrLen + udpHdrLen + ivInPacketSize) with
      | none => simp only [hadj, hprepend, reduceCtorEq] at h
      | some m₂ =>
        obtain ⟨hle₂, _⟩ := Mbuf.of_prepend hprepend
        exact ⟨hle, by omega⟩
  obtain ⟨addrs, type, payload, hdata, _, _, haddrs, htype, _⟩ := exists_frame hroom.1
  obtain ⟨wire', hwire', hlayout⟩ :=
    tunnelEncap_isSome ipv4Cksum epoch hdata haddrs htype hiv hroom.2
  obtain rfl : wire = wire' := Option.some.inj (h.symm.trans hwire')
  refine ⟨hroom, ?_⟩
  rw [← List.append_assoc] at hlayout
  have heth : (addrs ++ be16 etherTypeIpv4).length = etherHdrLen :=
    length_etherHdr haddrs (length_be16 _)
  rw [Mbuf.byteAt_right hlayout (by omega)
    (by rw [heth, List.length_append, length_outerIpHdr]; unfold ipv4HdrLen; omega), heth,
    Nat.add_sub_cancel_left, Bytes.byteAt_append_left (by rw [length_outerIpHdr]; decide),
    outerIpHdr_tos]

/-- With the room, encapsulation succeeds. -/
theorem tunnelEncap_of_canEncap (ipv4Cksum : Bytes → UInt16) {iv : Bytes} (epoch : UInt8) {m : Mbuf}
    (hiv : iv.length = ivInPacketSize) (h : CanEncap m) :
    ∃ wire, tunnelEncap ipv4Cksum iv epoch m = some wire := by
  obtain ⟨addrs, type, payload, hdata, _, _, haddrs, htype, _⟩ := exists_frame h.1
  obtain ⟨wire, hwire, _⟩ := tunnelEncap_isSome ipv4Cksum epoch hdata haddrs htype hiv h.2
  exact ⟨wire, hwire⟩

/-- **Decapsulation.** A frame with outer IPv4 and UDP headers loses both, and
yields the TOS byte as its epoch. -/
theorem tunnelDecap_isSome {m : Mbuf} {eth ip udp rest : Bytes}
    (hdata : m.data = eth ++ (ip ++ (udp ++ rest))) (heth : eth.length = etherHdrLen)
    (hip : ip.length = ipv4HdrLen) (hudp : udp.length = udpHdrLen)
    (hproto : ip.byteAt 9 = ipprotoUdp) :
    ∃ m', tunnelDecap m = some (m', ip.byteAt 1) ∧ m'.data = eth ++ rest := by
  have hat {k : ℕ} (hk : k < ipv4HdrLen) : m.byteAt (etherHdrLen + k) = ip.byteAt k := by
    have hright : m.byteAt (etherHdrLen + k) = (ip ++ (udp ++ rest)).byteAt (etherHdrLen + k -
        eth.length) := by
      apply Mbuf.byteAt_right hdata (by omega)
      rw [List.length_append]
      omega
    rw [hright, heth, Nat.add_sub_cancel_left, Bytes.byteAt_append_left (by omega)]
  have hload : m.load 0 etherHdrLen = eth := Mbuf.load_zero hdata heth
  have hfront : (eth ++ (ip ++ udp)).length = etherHdrLen + ipv4HdrLen + udpHdrLen := by
    simp only [List.length_append, heth, hip, hudp, Nat.add_assoc]
  have hsplit : m.data = (eth ++ (ip ++ udp)) ++ rest := by
    rw [hdata]
    simp only [List.append_assoc]
  obtain ⟨m', hm', hdata'⟩ := stripKeepingEth_isSome hsplit hfront heth (by decide)
  refine ⟨m', ?_, hdata'⟩
  simp only [tunnelDecap, hat (show 9 < ipv4HdrLen by decide), hproto, ne_eq, not_true_eq_false,
    if_false, hat (show 1 < ipv4HdrLen by decide), hload, hm']

/-- **Receive path.** A tunnel frame of an epoch the box has a session for is
handed on with its IV and epoch, stripped down to Ethernet header and blocks. -/
theorem wanRx_decrypt {Key : Type} {cp : CryptoParams Key} {sess : Session Key} {m : Mbuf}
    {addrs ip udp iv inner : Bytes}
    (hdata : m.data = addrs ++ (be16 etherTypeIpv4 ++ (ip ++ (udp ++ (iv ++ inner)))))
    (haddrs : addrs.length = 12) (hip : ip.length = ipv4HdrLen) (hudp : udp.length = udpHdrLen)
    (hiv : iv.length = ivInPacketSize) (hproto : ip.byteAt 9 = ipprotoUdp)
    (hsess : csSessionForEpoch cp.cs (ip.byteAt 1) = some sess) :
    ∃ m', wanRx cp m = .decrypt iv (ip.byteAt 1) m' ∧
      m'.data = (addrs ++ be16 etherTypeIpv4) ++ inner := by
  have heth : (addrs ++ be16 etherTypeIpv4).length = etherHdrLen :=
    length_etherHdr haddrs (length_be16 _)
  have hframe : m.data =
      (addrs ++ be16 etherTypeIpv4) ++ (ip ++ (udp ++ (iv ++ inner))) := by
    rw [hdata, List.append_assoc]
  have htype : m.field16 12 = etherTypeIpv4 := by
    have hleft : m.field16 12 = (addrs ++ be16 etherTypeIpv4).field16 12 :=
      Mbuf.field16_left hframe (by rw [heth]; decide)
    rw [hleft, Bytes.field16_append_right (by omega), haddrs, field16_be16]
    rfl
  obtain ⟨m₁, hm₁, hdata₁⟩ := tunnelDecap_isSome hframe heth hip hudp hproto
  have hsplit₁ : m₁.data = ((addrs ++ be16 etherTypeIpv4) ++ iv) ++ inner := by
    rw [hdata₁]
    simp only [List.append_assoc]
  have hloadEth : m₁.load 0 etherHdrLen = addrs ++ be16 etherTypeIpv4 :=
    Mbuf.load_zero hdata₁ heth
  have hloadIv : m₁.load etherHdrLen ivInPacketSize = iv := Mbuf.load_middle hdata₁ heth hiv
  have hfront : ((addrs ++ be16 etherTypeIpv4) ++ iv).length = etherHdrLen + ivInPacketSize := by
    rw [List.length_append, heth, hiv]
  obtain ⟨m₂, hm₂, hdata₂⟩ := stripKeepingEth_isSome hsplit₁ hfront heth (by decide)
  refine ⟨m₂, ?_, hdata₂⟩
  have hnotArp : etherTypeIpv4 ≠ etherTypeArp := by decide
  have hnotControl : ¬(etherHdrLen ≤ m.pktLen ∧ etherTypeIpv4 = cbCtrlEtherType) := by
    rintro ⟨_, h⟩
    exact absurd h (by decide)
  have hknown : ¬((csSessionForEpoch cp.cs (ip.byteAt 1)).isNone = true ∧
      cp.cs.epochCur ≠ ip.byteAt 1) := by
    simp [hsess]
  simp only [wanRx, htype, if_neg hnotArp, if_neg hnotControl, hm₁, if_neg hknown, hloadEth,
    hloadIv, hm₂]

/-- **Forwarding on the decrypt side.** The digest is cut off, and then at most
what lies behind the length that the inner header states. -/
theorem forward_decrypt {Key : Type} (ipv4Cksum : Bytes → UInt16) (encs : Option (CsPort Key))
    (iv : Bytes) {m : Mbuf} {eth plain tag : Bytes} (hdata : m.data = eth ++ (plain ++ tag))
    (heth : eth.length = etherHdrLen) :
    ∃ m' k, l2fwdSimpleForward ipv4Cksum 1 encs tag.length iv m = some m' ∧
      m'.data = eth ++ plain.take k ∧
      (ipv4HdrLen ≤ plain.length → plain.field16 2 ≤ plain.length → plain.field16 2 ≤ k) := by
  have hsplit : m.data = (eth ++ plain) ++ tag := by rw [hdata, List.append_assoc]
  -- the packet after the digest is trimmed
  let m₁ := if 0 < tag.length then m.trim tag.length else m
  have hdata₁ : m₁.data = eth ++ plain := by
    by_cases htag : 0 < tag.length
    · simp only [m₁, if_pos htag]
      exact Mbuf.trim_data_append hsplit rfl
    · have hnil : tag = [] := List.eq_nil_of_length_eq_zero (by omega)
      simp only [m₁, if_neg htag]
      rw [hsplit, hnil, List.append_nil]
  have hlen : m₁.pktLen = etherHdrLen + plain.length := by
    rw [Mbuf.pktLen, hdata₁, List.length_append, heth]
  have hbound : etherHdrLen + plain.length < 2 ^ 16 := hlen ▸ m₁.length_data_lt
  let total := m₁.field16 (etherHdrLen + 2)
  have htotal_lt : total < 2 ^ 16 := m₁.field16_lt _
  let padLen := sub32 (sub32 m₁.pktLen etherHdrLen) total
  have hpayload : sub32 m₁.pktLen etherHdrLen = plain.length := by
    rw [hlen, sub32_eq (by omega) (by omega)]
    omega
  have htotal (hhdr : ipv4HdrLen ≤ plain.length) : total = plain.field16 2 := by
    have hright : total = plain.field16 (etherHdrLen + 2 - eth.length) := by
      apply Mbuf.field16_right hdata₁ (by omega)
      unfold ipv4HdrLen at hhdr
      omega
    rw [heth, Nat.add_sub_cancel_left] at hright
    exact hright
  by_cases htrim : 0 < padLen ∧ padLen < 16
  · have hle : total ≤ plain.length := by
      by_contra hgt
      have hwrap : padLen = plain.length + 2 ^ 32 - total := by
        simp only [padLen, hpayload]
        exact sub32_of_lt (by omega) (by omega)
      omega
    have hpad : padLen = plain.length - total := by
      simp only [padLen, hpayload]
      exact sub32_eq hle (by omega)
    refine ⟨m₁.trim padLen, plain.length - padLen, ?_, ?_, ?_⟩
    · change some (if 0 < padLen ∧ padLen < 16 then m₁.trim padLen else m₁) = _
      rw [if_pos htrim]
    · have hcut : m₁.data = (eth ++ plain.take (plain.length - padLen)) ++
          plain.drop (plain.length - padLen) := by
        rw [hdata₁, List.append_assoc, List.take_append_drop]
      refine Mbuf.trim_data_append hcut ?_
      rw [List.length_drop]
      omega
    · intro hhdr hfits
      rw [htotal hhdr] at hpad hle
      omega
  · refine ⟨m₁, plain.length, ?_, ?_, fun _ hfits => hfits⟩
    · change some (if 0 < padLen ∧ padLen < 16 then m₁.trim padLen else m₁) = _
      rw [if_neg htrim]
    · rw [hdata₁, List.take_length]

end SecureWan
