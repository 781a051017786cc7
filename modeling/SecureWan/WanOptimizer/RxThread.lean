import SecureWan.WanOptimizer.TcpChecksum
import SecureWan.Lib.Logged

/-!
# The receive thread

The loop of `app_rx_thread` over a burst: ARP frames, reassembly of outer and inner fragments,
and the branches for the protocols of the innermost header. A frame is not trusted, and its
bytes are read through pointers, so the model lists what is read, the unsigned differences that
are taken and the pointers that are dereferenced. The functions of other files that are called
here are told by what they do with the buffer: what is free to them is in an `Outcome`.
-/

namespace SecureWan.WanOptimizer.AppRx

/-! ### Steps -/

/-- The parts of the receive path that read a frame. -/
inductive Part
  | outerHeader
  | arp
  | innerHeader
  | checksum
  | payload
  | rtp
deriving DecidableEq

/-- A step that can go wrong: `n` bytes are read from `mtod + off` on, in a packet of `pktLen`
bytes; an unsigned difference; a pointer is dereferenced. -/
inductive Step
  | access (part : Part) (off n pktLen : ℕ)
  | sub (a b : ℕ)
  | deref (isNull : Bool)

/-- The mbufs of a packet, the bytes of it and those behind it. -/
structure RxPacket where
  mbufs : List ℕ
  data : Bytes
  behind : ℕ → UInt8

namespace RxPacket

variable (m : RxPacket)

/-- `m->pkt_len`. -/
def pktLen : ℕ := m.data.length

/-- The byte at `mtod + off`. -/
def byteAt (off : ℕ) : UInt8 :=
  if off < m.pktLen then m.data.byteAt off else m.behind (off - m.pktLen)

/-- The 16-bit field at `mtod + off`. -/
def field16 (off : ℕ) : ℕ := (m.byteAt off).toNat * 256 + (m.byteAt (off + 1)).toNat

/-- `n` bytes from `mtod + off` on. -/
def load (off n : ℕ) : Bytes := (List.range n).map fun i => m.byteAt (off + i)

end RxPacket

/-- A logged read of one byte. -/
def readByte (part : Part) (m : RxPacket) (off : ℕ) : Logged Step UInt8 :=
  .step (.access part off 1 m.pktLen) (m.byteAt off)

/-- A logged read of a 16-bit field. -/
def readField16 (part : Part) (m : RxPacket) (off : ℕ) : Logged Step ℕ :=
  .step (.access part off 2 m.pktLen) (m.field16 off)

/-- A logged read of some bytes. -/
def read (part : Part) (m : RxPacket) (off n : ℕ) : Logged Step Bytes :=
  .step (.access part off n m.pktLen) (m.load off n)

/-- A logged difference of unsigned numbers of a width. -/
def diff (width a b : ℕ) : Logged Step ℕ := .step (.sub a b) ((a + 2 ^ width - b) % 2 ^ width)

@[simp] theorem value_readByte (part : Part) (m : RxPacket) (off : ℕ) :
    (readByte part m off).value = m.byteAt off := Logged.value_step _ _

@[simp] theorem value_readField16 (part : Part) (m : RxPacket) (off : ℕ) :
    (readField16 part m off).value = m.field16 off := Logged.value_step _ _

@[simp] theorem value_read (part : Part) (m : RxPacket) (off n : ℕ) :
    (read part m off n).value = m.load off n := Logged.value_step _ _

/-- A logged use of a pointer. -/
def deref (isNull : Bool) : Logged Step Unit := .step (.deref isNull) ()

/-! ### What is free -/

/-- Constants, settings and addresses from other files. -/
structure RxConfig where
  minclsize : ℕ
  /-- `sizeof(struct rtphdr1)`. -/
  rtpHdrLen : ℕ
  enableHeaderComp : Bool
  tunnelEnable : Bool
  lanIfId : ℕ
  wanIfId : ℕ
  lanIpaddr : Bytes
  tunnelIpaddr : Bytes
  ipv4Cksum : Bytes → UInt16

/-- The two fragment tables of a port. -/
inductive Layer
  | outer
  | inner
deriving DecidableEq

/-- What `rte_ipv4_frag_reassemble_packet` does: it keeps the fragment, or it completes a packet
of given bytes with others that were kept, the mbufs of the new fragment first or last. -/
inductive Reassembled
  | held
  | complete (others : RxPacket → Bool) (first : Bool) (data : Bytes) (behind : ℕ → UInt8)

/-- A reassembly with the calls around it; `expired` says what is freed with the death row. -/
structure Reassembly where
  adjFails : Bool
  result : Reassembled
  expired : RxPacket → Bool
  linearizeFails : Bool
  prependFails : Bool

/-- All that is decided outside of the loop while a frame is processed. `m_devget` copies all
the bytes it is asked for, or it returns `NULL` after some of them. -/
structure Outcome where
  outer : Reassembly
  inner : Reassembly
  devget : Option ℕ
  allocFails : Bool
  profileUpdate : Bool
  ringRefuses : Bool

/-- What the thread holds: fragments, freed mbufs, what is on the ring, and the number of the
next mbuf that is taken from a pool. -/
structure RxLcore where
  table : Layer → List RxPacket
  freed : List ℕ
  rxRing : List ℕ
  nextMbuf : ℕ

namespace RxLcore

variable (s : RxLcore)

/-- `rte_pktmbuf_free`. -/
def free (mbufs : List ℕ) : RxLcore := { s with freed := s.freed ++ mbufs }

/-- `send_schedule_pkt`. -/
def sendSchedulePkt (o : Outcome) (mbufs : List ℕ) : RxLcore :=
  if o.profileUpdate then s.free mbufs
  else if o.ringRefuses then s.free mbufs
  else { s with rxRing := s.rxRing ++ mbufs }

/-- `l2fwd_simple_forward`. -/
def l2fwdSimpleForward (o : Outcome) (mbufs : List ℕ) : RxLcore := s.sendSchedulePkt o mbufs

/-- `rte_pktmbuf_alloc`. -/
def alloc : RxLcore := { s with nextMbuf := s.nextMbuf + 1 }

/-- `send_etherpkt`. -/
def sendEtherpkt (o : Outcome) : Logged Step RxLcore :=
  if o.allocFails then pure s
  else do
    deref false
    pure (s.alloc.sendSchedulePkt o [s.nextMbuf])

/-- `rte_ipv4_frag_reassemble_packet` on a table. -/
def reassemble (table : List RxPacket) (m : RxPacket) :
    Reassembled → Option RxPacket × List RxPacket
  | .held => (none, table ++ [m])
  | .complete others first data behind =>
    let kept := (table.filter others).flatMap RxPacket.mbufs
    let mbufs := if first then m.mbufs ++ kept else kept ++ m.mbufs
    (some ⟨mbufs, data, behind⟩, table.filter fun p => !others p)

/-- `rte_ip_frag_free_death_row`. -/
def freeDeathRow (layer : Layer) (expired : RxPacket → Bool) : RxLcore :=
  { s with
    table := Function.update s.table layer ((s.table layer).filter fun p => !expired p)
    freed := s.freed ++ ((s.table layer).filter expired).flatMap RxPacket.mbufs }

/-- `rte_pktmbuf_linearize`: the bytes move to the first mbuf, and the others are freed. -/
def linearize (m : RxPacket) : RxLcore := s.free m.mbufs.tail

/-- A reassembly, of a packet whose first `front` bytes are saved and cut off before, and put back
in front of the result. -/
def reassembly (layer : Layer) (part : Part) (r : Reassembly) (front : ℕ) (m : RxPacket) :
    Logged Step (RxLcore × Option RxPacket) := do
  let saved ← read part m 0 front
  if r.adjFails then pure (s.free m.mbufs, none)
  else
    let _ ← readByte part m front
    let (whole, table) := reassemble (s.table layer) { m with data := m.data.drop front } r.result
    let s := { s with table := Function.update s.table layer table }
    let s := s.freeDeathRow layer r.expired
    match whole with
    | none => pure (s, none)
    | some m =>
      deref false
      if 1 < m.mbufs.length ∧ r.linearizeFails then pure (s.free m.mbufs, none)
      else
        let s := s.linearize m
        let m := { m with mbufs := m.mbufs.take 1 }
        if r.prependFails then pure (s.free m.mbufs, none)
        else pure (s, some { m with data := saved ++ m.data })

end RxLcore

/-! ### The branches -/

variable (cfg : RxConfig) (portid : ℕ) (o : Outcome)

/-- `arptipmatch`. -/
def arptipmatch (arpTip : Bytes) : Bool :=
  if portid = cfg.lanIfId then arpTip == cfg.lanIpaddr else arpTip == cfg.tunnelIpaddr

/-- `ProcessArpPkt`; `SendArpReplyPkt` sends the received mbuf. -/
def processArpPkt (s : RxLcore) (m : RxPacket) : Logged Step RxLcore :=
  let bypassArppkt : Logged Step RxLcore := do
    let s ← s.sendEtherpkt o
    pure (s.free m.mbufs)
  if !cfg.tunnelEnable then bypassArppkt
  else do
    let arpTip ← read .arp m 38 4
    if arptipmatch cfg portid arpTip then
      let arpOpcode ← readField16 .arp m 20
      if arpOpcode = 2 then pure (s.free m.mbufs)
      else if arpOpcode = 1 then pure (s.sendSchedulePkt o m.mbufs)
      else pure (s.free m.mbufs)
    else bypassArppkt

/-- `verify_tcp_checksum` on the segment and its IPv4 header, as it reads them. -/
def verifyTcp (m : RxPacket) (greLen : ℕ) : Logged Step Bool := do
  let iplen ← readField16 .checksum m (16 + greLen)
  let tcprxlen ← diff 16 iplen 20
  let segment ← read .checksum m (34 + greLen) tcprxlen
  let _ ← read .checksum m (26 + greLen) 8
  let _ ← readByte .checksum m (23 + greLen)
  pure (Rxbuf.verifyTcpChecksum segment (m.load (14 + greLen) 20) iplen == 1)

/-- `m_devget(apprxbuf + gre_len + 14, len, 0, portid)`: whether it returns `NULL`. -/
def mDevget (m : RxPacket) (greLen len : ℕ) : Logged Step Bool := do
  let copied := match o.devget with
    | none => len
    | some k => min k len
  let _ ← read .payload m (14 + greLen) copied
  pure o.devget.isSome

/-- The length of the TCP header: `tcphlen`. -/
def readTcphlen (m : RxPacket) (greLen : ℕ) : Logged Step ℕ := do
  let offset ← readByte .payload m (46 + greLen)
  pure (offset.toNat / 16 * 4)

/-- The copy for `tcp_input`: room for a cluster if there is payload. -/
def rxDevget (m : RxPacket) (greLen totalLength tcpPayloadLen : ℕ) : Logged Step Bool :=
  if tcpPayloadLen = 0 then mDevget o m greLen totalLength
  else if totalLength < cfg.minclsize then do
    let isNull ← mDevget o m greLen cfg.minclsize
    deref isNull
    pure isNull
  else mDevget o m greLen totalLength

/-- The TCP branch behind the checksum: `tcp_input` gets the copy, if there is one. -/
def rxTcpInput (m : RxPacket) (greLen : ℕ) : Logged Step Unit := do
  let totalLength ← readField16 .payload m (16 + greLen)
  let tcplen ← diff 32 totalLength 20
  let tcphlen ← readTcphlen m greLen
  let tcpPayloadLen ← diff 32 tcplen tcphlen
  let isNull ← rxDevget cfg o m greLen totalLength tcpPayloadLen
  if isNull then pure ()
  else
    let _ ← readByte .innerHeader m (14 + greLen)
    pure ()

/-- The TCP branch. -/
def rxTcp (s : RxLcore) (m : RxPacket) (greLen : ℕ) : Logged Step RxLcore := do
  let isMatch ← verifyTcp m greLen
  if isMatch then
    rxTcpInput cfg o m greLen
    pure (s.free m.mbufs)
  else pure (s.free m.mbufs)

/-- The payload types that `is_rtp_hdr` accepts. -/
def rtpTypes : List ℕ := [0x03, 0x04, 0x12, 0x61, 0x65, 0x72, 0x7d]

/-- The end of `is_rtp_hdr`: the RTP header at an offset. -/
def isRtpVersion (m : RxPacket) (off : ℕ) : Logged Step Bool := do
  let first ← readByte .rtp m off
  if first.toNat / 64 ≠ 2 then pure false
  else
    let second ← readByte .rtp m (off + 1)
    if second.toNat % 128 ∉ rtpTypes then pure false
    else pure (first.toNat % 16 == 0)

/-- `is_rtp_hdr`, for the UDP header at an offset. -/
def isRtpHdr (m : RxPacket) (off : ℕ) : Logged Step Bool := do
  let udpSport ← readField16 .rtp m off
  let udpDport ← readField16 .rtp m (off + 2)
  let udpLen ← readField16 .rtp m (off + 4)
  if udpSport ≤ 1024 ∨ udpDport ≤ 1024 then pure false
  else if udpSport = 5060 ∧ udpDport = 5060 then pure false
  else if udpDport % 2 ≠ 0 then pure false
  else if 200 < udpLen then pure false
  else
    let udpPayloadlen ← diff 16 udpLen 8
    if udpPayloadlen < cfg.rtpHdrLen then pure false
    else isRtpVersion m (off + 8)

/-- The UDP branch; the functions for coalesced packets and for header compression get pointers
to the bytes, not the mbuf. -/
def rxUdp (s : RxLcore) (m : RxPacket) (greLen : ℕ) : Logged Step RxLcore := do
  let dstPort ← readField16 .innerHeader m (36 + greLen)
  if cfg.enableHeaderComp then
    if portid = cfg.wanIfId then
      if dstPort = 1194 then pure (s.free m.mbufs) else pure (s.l2fwdSimpleForward o m.mbufs)
    else if m.pktLen < 200 then
      let isRtp ← isRtpHdr cfg m (34 + greLen)
      if isRtp then pure (s.free m.mbufs) else pure (s.l2fwdSimpleForward o m.mbufs)
    else pure (s.l2fwdSimpleForward o m.mbufs)
  else pure (s.l2fwdSimpleForward o m.mbufs)

/-- The branches on the protocol of the innermost IPv4 header. -/
def rxProto (s : RxLcore) (m : RxPacket) (greLen : ℕ) : Logged Step RxLcore := do
  let _ ← read .innerHeader m (30 + greLen) 4
  let proto ← readByte .innerHeader m (23 + greLen)
  if proto = 0x01 then
    let s ← s.sendEtherpkt o
    pure (s.free m.mbufs)
  else if proto = 0x04 then pure (s.free m.mbufs)
  else if proto = 0x06 then rxTcp cfg o s m greLen
  else if proto = 0x11 then rxUdp cfg portid o s m greLen
  else pure (s.l2fwdSimpleForward o m.mbufs)

/-- The outer total length and checksum, written after an inner reassembly. -/
def rewriteOuter (m : RxPacket) (greLen innerLen : ℕ) : RxPacket :=
  let data := m.data.patch 16 (be16 (greLen + innerLen))
  let data := data.patch 24 [0, 0]
  { m with data := data.patch 24 (be16 (cfg.ipv4Cksum (data.readAt 14 20)).toNat) }

/-- `fragment_offset` is that of a fragment: the flag MF, or an offset. -/
def isFragment (fragmentOffset : ℕ) : Bool := fragmentOffset % 2 ^ 14 != 0

/-- A GRE frame: fragments of the inner datagram are reassembled. -/
def rxGre (s : RxLcore) (m : RxPacket) (greLen : ℕ) : Logged Step RxLcore := do
  let fragmentOffset ← readField16 .innerHeader m (20 + greLen)
  if isFragment fragmentOffset then
    match ← s.reassembly .inner .innerHeader o.inner (14 + greLen) m with
    | (s, none) => pure s
    | (s, some m) =>
      let innerLen ← readField16 .innerHeader m (16 + greLen)
      rxProto cfg portid o s (rewriteOuter cfg m greLen innerLen) greLen
  else rxProto cfg portid o s m greLen

/-- `gre_len` of the thread: the GRE header and the inner IPv4 header. -/
def greLenOf (flags : UInt8) : ℕ :=
  4 + (if flags.toBitVec.getLsbD 7 then 4 else 0) + (if flags.toBitVec.getLsbD 5 then 4 else 0) +
    (if flags.toBitVec.getLsbD 4 then 4 else 0) + 20

/-- The thread behind the outer header. -/
def rxInner (s : RxLcore) (m : RxPacket) : Logged Step RxLcore := do
  let proto ← readByte .innerHeader m 23
  if proto = 0x2f then
    let flags ← readByte .innerHeader m 34
    rxGre cfg portid o s m (greLenOf flags)
  else rxProto cfg portid o s m 0

/-- An IPv4 frame: the length check, which leaves out fragments, and their reassembly. -/
def rxIpv4 (s : RxLcore) (m : RxPacket) : Logged Step RxLcore := do
  let ipLen ← readField16 .outerHeader m 16
  let fragmentOffset ← readField16 .outerHeader m 20
  if isFragment fragmentOffset then
    match ← s.reassembly .outer .outerHeader o.outer 14 m with
    | (s, none) => pure s
    | (s, some m) => rxInner cfg portid o s m
  else if m.pktLen ≠ ipLen + 14 ∧ 46 < ipLen then pure (s.free m.mbufs)
  else rxInner cfg portid o s m

/-- The body of the loop of `app_rx_thread`, for a frame in one mbuf. -/
def rxPacket (s : RxLcore) (m : RxPacket) : Logged Step RxLcore := do
  deref false
  let etherType ← readField16 .outerHeader m 12
  if etherType = 0x0806 then processArpPkt cfg portid o s m
  else if etherType = 0x0800 then rxIpv4 cfg portid o s m
  else pure (s.l2fwdSimpleForward o m.mbufs)

/-- Some settings. -/
def someConfig : RxConfig where
  minclsize := 209
  rtpHdrLen := 12
  enableHeaderComp := true
  tunnelEnable := true
  lanIfId := 0
  wanIfId := 1
  lanIpaddr := [192, 168, 1, 1]
  tunnelIpaddr := [10, 0, 0, 1]
  ipv4Cksum := fun _ => 0

/-- A reassembly that keeps the fragment. -/
def heldReassembly : Reassembly := ⟨false, .held, fun _ => false, false, false⟩

/-- Nothing fails. -/
def noFailure : Outcome := ⟨heldReassembly, heldReassembly, none, false, false, false⟩

/-! ### What decides on the way -/

/-- The total length of the innermost IPv4 header. -/
def totalLength (m : RxPacket) (greLen : ℕ) : ℕ := m.field16 (16 + greLen)

/-- `tcphlen`. -/
def tcphlen (m : RxPacket) (greLen : ℕ) : ℕ := (m.byteAt (46 + greLen)).toNat / 16 * 4

/-- The length check drops a frame. -/
def LengthMismatch (m : RxPacket) : Prop := m.pktLen ≠ m.field16 16 + 14 ∧ 46 < m.field16 16

instance (m : RxPacket) : Decidable (LengthMismatch m) := inferInstanceAs (Decidable (_ ∧ _))

/-- The packet that a reassembly gives back, if there is one. -/
def RxLcore.reassembled (s : RxLcore) (layer : Layer) (part : Part) (r : Reassembly) (front : ℕ)
    (m : RxPacket) : Option RxPacket :=
  (s.reassembly layer part r front m).value.2

theorem RxPacket.field16_lt (m : RxPacket) (off : ℕ) : m.field16 off < 2 ^ 16 := by
  have hhi := (m.byteAt off).toNat_lt
  have hlo := (m.byteAt (off + 1)).toNat_lt
  unfold RxPacket.field16
  omega

theorem totalLength_lt (m : RxPacket) (greLen : ℕ) : totalLength m greLen < 2 ^ 16 :=
  m.field16_lt _

section Logs

variable {cfg portid o}

/-- What `send_etherpkt` logs. -/
theorem all_sendEtherpkt {p : Step → Prop} (s : RxLcore) (hderef : p (.deref false)) :
    (s.sendEtherpkt o).All p := by
  unfold RxLcore.sendEtherpkt
  exact Logged.all_guard.mpr fun _ =>
    Logged.all_bind.mpr ⟨Logged.all_step.mpr hderef, Logged.all_pure _⟩

/-- What an ARP frame logs. -/
theorem all_processArpPkt {p : Step → Prop} (s : RxLcore) {m : RxPacket}
    (harpTip : (read .arp m 38 4).All p) (harpOpcode : (readField16 .arp m 20).All p)
    (hderef : p (.deref false)) : (processArpPkt cfg portid o s m).All p := by
  have hbypass : Logged.All p (do
      let s ← s.sendEtherpkt o
      pure (s.free m.mbufs)) :=
    Logged.all_bind.mpr ⟨all_sendEtherpkt s hderef, Logged.all_pure _⟩
  unfold processArpPkt
  split
  · exact hbypass
  refine Logged.all_bind.mpr ⟨harpTip, ?_⟩
  split
  · refine Logged.all_bind.mpr ⟨harpOpcode, ?_⟩
    exact Logged.all_guard.mpr fun _ => Logged.all_guard.mpr fun _ => Logged.all_pure _
  · exact hbypass

end Logs

/-- What a reassembly logs. -/
theorem all_reassembly {p : Step → Prop} (s : RxLcore) (layer : Layer) {part : Part}
    (r : Reassembly) {front : ℕ} {m : RxPacket} (hsaved : (read part m 0 front).All p)
    (hihl : (readByte part m front).All p) (hderef : p (.deref false)) :
    (s.reassembly layer part r front m).All p := by
  unfold RxLcore.reassembly
  refine Logged.all_bind.mpr ⟨hsaved, Logged.all_guard.mpr fun _ => ?_⟩
  refine Logged.all_bind.mpr ⟨hihl, ?_⟩
  dsimp only
  split
  · exact Logged.all_pure _
  refine Logged.all_bind.mpr ⟨Logged.all_step.mpr hderef, ?_⟩
  exact Logged.all_guard.mpr fun _ => Logged.all_guard.mpr fun _ => Logged.all_pure _

end SecureWan.WanOptimizer.AppRx
