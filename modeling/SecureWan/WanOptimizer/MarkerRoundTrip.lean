import SecureWan.WanOptimizer.PayloadMarker

/-!
# The marker of an uncompressed payload, there and back

A frame that `fillheaders_send` sends with the byte `0x56` is given to `check_tcp_decompressable`
on the other side. The payload is moved inside of `apptxbuf` by a `memcpy` over overlapping
blocks, so what comes back depends on the order of that copy.
-/

namespace SecureWan.WanOptimizer.Plc

open Memory (CopyOrder)

/-- A TCP frame in `apptxbuf`, with IP headers of 20 bytes: those of a plain frame, or the outer
and the inner one of a GRE frame. The bytes behind the IP packet, if there are any, are padding. -/
structure TcpFrame where
  bytes : Bytes
  fits : bytes.length ≤ apptxbufSize
  outerIhl : bytes.byteAt 14 = 0x45
  innerIhl : bytes.byteAt (Rxbuf.greLen bytes + 14) = 0x45
  tcp : bytes.byteAt (Rxbuf.greLen bytes + 23) = 6
  complete : 14 + bytes.field16 16 ≤ bytes.length
  nested : Rxbuf.greLen bytes + Rxbuf.innerIplen bytes = bytes.field16 16
  dataOffset : 20 ≤ tcphlenOf (bytes.byteAt (Rxbuf.greLen bytes + 46))
  hasPayload : 20 + tcphlenOf (bytes.byteAt (Rxbuf.greLen bytes + 46)) < Rxbuf.innerIplen bytes

namespace TcpFrame

variable (frame : TcpFrame)

/-- The length of the GRE header and the inner IP header. -/
def greLen : ℕ := Rxbuf.greLen frame.bytes

/-- The length of the TCP header. -/
def tcphlen : ℕ := tcphlenOf (frame.bytes.byteAt (frame.greLen + 46))

/-- The offset of the payload. -/
def payloadOff : ℕ := frame.greLen + 34 + frame.tcphlen

/-- The length of the frame without padding. -/
def packetEnd : ℕ := 14 + frame.bytes.field16 16

end TcpFrame

/-- Two boxes with the marker turned on: their settings, the order of `memcpy` in the first one,
the status of the failed compression, the interfaces, and what the memories hold besides. -/
structure Link where
  sender : PlcConfig
  receiver : PlcConfig
  order : CopyOrder
  compStatus : ℤ
  txLanif : ℕ
  rxLanif : ℕ
  txApptxbuf : Memory
  behindPacket : Memory
  rxApptxbuf : Memory
  senderInserts : sender.insertPlcByte ≠ 0
  receiverInserts : receiver.insertPlcByte ≠ 0
  receiverEnabled : receiver.enablePayloadComp ≠ 0
  compFails : compStatus < 0
  fromWan : rxLanif ≠ 0

namespace Link

variable (k : Link) (frame : TcpFrame)

/-- `fillheaders_send` for the frame at the front of `apptxbuf`. -/
def send : Logged Step (AppTx × Sent) :=
  AppTx.fillheadersSend k.sender k.order k.compStatus k.txLanif
    ⟨k.txApptxbuf.write 0 frame.bytes, frame.bytes.length⟩

/-- The packet that the receiver gets. -/
def rxbuf : Memory := k.behindPacket.write 0 (k.send frame).value.2.frame

/-- `check_tcp_decompressable` for that packet. -/
def receive : Logged Step (ℕ × AppTx) :=
  checkTcpDecompressable k.receiver (k.rxbuf frame) k.rxLanif frame.greLen
    ⟨k.rxApptxbuf, (k.send frame).value.2.frame.length⟩

/-- No store leaves `apptxbuf`, and the receiver has the frame and its length. -/
structure RoundTrips : Prop where
  sendInBounds : (k.send frame).All Step.InBounds
  receiveInBounds : (k.receive frame).All Step.InBounds
  restored : (k.receive frame).value.2.apptxbuf.read 0 frame.bytes.length = frame.bytes
  apptxlen : (k.receive frame).value.2.apptxlen = frame.bytes.length

end Link

/-! ### Total lengths -/

/-- The total lengths stand at these offsets. -/
def IsIplen (ip greLen off : ℕ) : Prop := off = ip + 2 ∨ off = greLen + ip + 2

variable {ip greLen delta off j : ℕ} {tx : AppTx}

/-- In a plain packet the same field is written once instead of twice. -/
theorem AppTx.addIplen_apptxbuf (ip greLen delta : ℕ) (tx : AppTx) :
    (tx.addIplen ip greLen delta).value.apptxbuf =
      (tx.apptxbuf.write (ip + 2) (be16 (tx.apptxbuf.field16 (ip + 2) + delta))).write
        (greLen + ip + 2) (be16 (tx.apptxbuf.field16 (greLen + ip + 2) + delta)) := by
  unfold AppTx.addIplen
  dsimp only
  split
  · rename_i hplain
    rw [hplain, Nat.zero_add, Memory.write_write_self]
    rfl
  · rfl

/-- The total lengths are changed by `delta`. -/
theorem AppTx.addIplen_iplen (hgre : greLen = 0 ∨ 2 ≤ greLen) (hoff : IsIplen ip greLen off)
    (hj : j < 2) :
    (tx.addIplen ip greLen delta).value.apptxbuf (off + j) =
      (be16 (tx.apptxbuf.field16 off + delta)).byteAt j := by
  rw [addIplen_apptxbuf]
  by_cases hinner : off = greLen + ip + 2
  · rw [hinner, Memory.write_add (by rwa [length_be16])]
  · rcases hoff with houter | hoff
    · rw [Memory.write_of_outside (by omega), houter,
        Memory.write_add (by rwa [length_be16])]
    · exact absurd hoff hinner

/-- Everything but the total lengths is left alone. -/
theorem AppTx.addIplen_outside {i : ℕ} (hi : ∀ off, IsIplen ip greLen off → i < off ∨ off + 2 ≤ i) :
    (tx.addIplen ip greLen delta).value.apptxbuf i = tx.apptxbuf i := by
  rw [addIplen_apptxbuf, Memory.write_of_outside (hi _ (Or.inr rfl)),
    Memory.write_of_outside (hi _ (Or.inl rfl))]

/-- A total length that is raised and lowered again. -/
theorem be16_raise_lower (n : ℕ) : be16 ((n + 1) % 2 ^ 16 + (2 ^ 16 - 1)) = be16 n :=
  be16_congr (by omega)

/-- The headers in a copy that leaves out the byte behind them. -/
theorem copied_header {buf src : Memory} {headers n i : ℕ} (hi : i < headers) :
    (buf.write 0 (src.read 0 headers)).write headers (src.read (headers + 1) n) i = src i := by
  have hbyte : (buf.write 0 (src.read 0 headers)) (0 + i) = (src.read 0 headers).byteAt i :=
    Memory.write_add (by rwa [Memory.length_read])
  rw [Nat.zero_add] at hbyte
  rw [Memory.write_of_outside (Or.inl hi), hbyte, Memory.byteAt_read hi, Nat.zero_add]

/-! ### The frame -/

namespace TcpFrame

variable (frame : TcpFrame)

/-- The two total lengths of a GRE frame do not overlap. -/
theorem greLen_cases : frame.greLen = 0 ∨ 2 ≤ frame.greLen :=
  (Rxbuf.greLen_cases _).imp_right fun hgre => le_trans (by decide) hgre

theorem packetEnd_eq : frame.packetEnd = frame.greLen + 14 + Rxbuf.innerIplen frame.bytes := by
  have hnested := frame.nested
  unfold packetEnd greLen
  omega

/-- The headers, the payload and the padding follow each other in the buffer. -/
theorem bounds :
    frame.greLen + 54 ≤ frame.payloadOff ∧ frame.payloadOff < frame.packetEnd ∧
      frame.packetEnd ≤ frame.bytes.length ∧ frame.bytes.length ≤ apptxbufSize := by
  have hoffset := frame.dataOffset
  have hpayload := frame.hasPayload
  have hpacket := frame.packetEnd_eq
  have hheaders : frame.payloadOff = frame.greLen + 34 + frame.tcphlen := rfl
  have htcphlen :
      frame.tcphlen = tcphlenOf (frame.bytes.byteAt (Rxbuf.greLen frame.bytes + 46)) := rfl
  exact ⟨by omega, by omega, frame.complete, frame.fits⟩

/-- A total length is in the headers. -/
theorem iplen_add_le {off : ℕ} (hoff : IsIplen 14 frame.greLen off) :
    off + 2 ≤ frame.payloadOff := by
  obtain ⟨hheaders, hlt, hend, hfits⟩ := frame.bounds
  rcases hoff with hoff | hoff <;> omega

/-- The bytes of the frame in a buffer. -/
theorem held_apply {i : ℕ} (mem : Memory) (hi : i < frame.bytes.length) :
    mem.write 0 frame.bytes i = frame.bytes.byteAt i := by
  have hbyte : mem.write 0 frame.bytes (0 + i) = frame.bytes.byteAt i := Memory.write_add hi
  rwa [Nat.zero_add] at hbyte

/-- `gre_len` is read from the buffer. -/
theorem greLen_held (mem : Memory) :
    Rxbuf.greLen ((mem.write 0 frame.bytes).read 0 35) = frame.greLen := by
  obtain ⟨hheaders, hlt, hend, hfits⟩ := frame.bounds
  have hbyte {i : ℕ} (hi : i < 35) :
      ((mem.write 0 frame.bytes).read 0 35).byteAt i = frame.bytes.byteAt i := by
    rw [Memory.byteAt_read hi, Nat.zero_add, frame.held_apply mem (by omega)]
  unfold greLen Rxbuf.greLen
  rw [hbyte (by omega), hbyte (by omega)]

/-- `tcp_payload_len` of `fillheaders_send`, with the padding. -/
theorem tcpPayloadLen_send :
    (((frame.bytes.length : ℤ) - (frame.greLen + 34 + frame.tcphlen : ℕ)) % 2 ^ 32).toNat =
      frame.bytes.length - frame.payloadOff := by
  obtain ⟨hheaders, hlt, hend, hfits⟩ := frame.bounds
  unfold apptxbufSize at hfits
  have hoff : frame.greLen + 34 + frame.tcphlen = frame.payloadOff := rfl
  rw [hoff, Int.emod_eq_of_lt (by omega) (by omega)]
  omega

end TcpFrame

/-! ### The sender -/

namespace Link

variable (k : Link) (frame : TcpFrame) {i : ℕ}

/-- The buffer after the payload has been moved and the marker has been put. -/
def moved : Memory :=
  ((k.txApptxbuf.write 0 frame.bytes).copy k.order (frame.payloadOff + 1) frame.payloadOff
    (frame.bytes.length - frame.payloadOff)).write frame.payloadOff [0x56]

/-- A byte of the payload after the copy: upwards, the first byte is written everywhere. -/
def movedByte (i : ℕ) : UInt8 :=
  match k.order with
  | .ascending => frame.bytes.byteAt frame.payloadOff
  | .descending => frame.bytes.byteAt (frame.payloadOff + i)

theorem moved_header (hi : i < frame.payloadOff) : k.moved frame i = frame.bytes.byteAt i := by
  obtain ⟨hheaders, hlt, hend, hfits⟩ := frame.bounds
  rw [moved, Memory.write_of_outside (Or.inl hi)]
  cases k.order with
  | ascending =>
    rw [Memory.copy_ascending_apply Nat.one_pos, if_neg (by omega), frame.held_apply _ (by omega)]
  | descending =>
    rw [Memory.copy_descending_apply (by omega), if_neg (by omega), frame.held_apply _ (by omega)]

theorem moved_marker : k.moved frame frame.payloadOff = 0x56 := by
  have hbyte : k.moved frame (frame.payloadOff + 0) = Bytes.byteAt [0x56] 0 :=
    Memory.write_add Nat.one_pos
  rwa [Nat.add_zero] at hbyte

theorem moved_payload (hi : i < frame.bytes.length - frame.payloadOff) :
    k.moved frame (frame.payloadOff + 1 + i) = k.movedByte frame i := by
  have hoff : frame.payloadOff + 1 + i - (frame.payloadOff + 1) = i := by omega
  have hinside : [(0x56 : UInt8)].length = 1 := rfl
  rw [moved, Memory.write_of_outside (by omega), movedByte]
  cases k.order with
  | ascending =>
    rw [Memory.copy_ascending_apply Nat.one_pos, if_pos (by omega), hoff, Nat.mod_one,
      Nat.add_zero, frame.held_apply _ (by omega)]
  | descending =>
    rw [Memory.copy_descending_apply (by omega), if_pos (by omega), hoff,
      frame.held_apply _ (by omega)]

/-- `fillheaders_send` on the frame. -/
theorem send_eq :
    k.send frame = (do
      let tx ← (AppTx.mk (k.txApptxbuf.write 0 frame.bytes) frame.bytes.length).memcpy k.order
        (frame.payloadOff + 1) frame.payloadOff (frame.bytes.length - frame.payloadOff)
      let tx ← tx.store frame.payloadOff [0x56]
      let tx ← { tx with apptxlen := tx.apptxlen + 1 }.addIplen 14 frame.greLen 1
      pure (tx, tx.sendEtherpkt k.sender k.txLanif)) := by
  have htcphlen : tcphlenOf ((k.txApptxbuf.write 0 frame.bytes) (frame.greLen + 46)) =
      frame.tcphlen := by
    obtain ⟨hheaders, hlt, hend, hfits⟩ := frame.bounds
    rw [frame.held_apply _ (by omega), TcpFrame.tcphlen]
  unfold send AppTx.fillheadersSend
  dsimp only
  rw [frame.greLen_held, htcphlen, frame.tcpPayloadLen_send,
    if_pos ⟨k.senderInserts, k.compFails⟩]
  rfl

/-- The buffer and the length that `fillheaders_send` leaves. -/
theorem send_tx :
    (k.send frame).value.1 =
      ((AppTx.mk (k.moved frame) (frame.bytes.length + 1)).addIplen 14 frame.greLen 1).value := by
  rw [send_eq]
  rfl

/-- The frame is sent with one byte more. -/
theorem send_frame :
    (k.send frame).value.2.frame =
      (k.send frame).value.1.apptxbuf.read 0 (frame.bytes.length + 1) := by
  have hlen : (k.send frame).value.1.apptxlen = frame.bytes.length + 1 := by
    rw [send_tx, AppTx.addIplen_apptxlen]
  have hsent : (k.send frame).value.2.frame =
      (k.send frame).value.1.apptxbuf.read 0 (k.send frame).value.1.apptxlen.toNat := by
    rw [send_eq]
    rfl
  rw [hsent, hlen]
  rfl

/-- The stores of the sender stay in the buffer if there is room for the marker. -/
theorem send_inBounds_iff :
    (k.send frame).All Step.InBounds ↔ frame.bytes.length < apptxbufSize := by
  obtain ⟨hheaders, hlt, hend, hfits⟩ := frame.bounds
  have hmarker : [(0x56 : UInt8)].length = 1 := rfl
  rw [send_eq, Logged.all_bind, Logged.all_bind]
  constructor
  · rintro ⟨hcopy, _⟩
    have hroom : Step.InBounds
        (.store (frame.payloadOff + 1) (frame.bytes.length - frame.payloadOff)) :=
      Logged.all_step.mp hcopy
    unfold Step.InBounds at hroom
    omega
  · intro hroom
    refine ⟨Logged.all_step.mpr ?_, Logged.all_step.mpr ?_,
      Logged.all_bind.mpr ⟨AppTx.all_addIplen ?_ ?_, Logged.all_pure _⟩⟩
    all_goals
      unfold Step.InBounds
      omega

/-! ### The packet on the way -/

/-- The receiver reads what the sender has left in its buffer. -/
theorem rxbuf_apply (hi : i ≤ frame.bytes.length) :
    k.rxbuf frame i =
      ((AppTx.mk (k.moved frame) (frame.bytes.length + 1)).addIplen 14 frame.greLen
        1).value.apptxbuf i := by
  have hbyte : k.rxbuf frame (0 + i) = (k.send frame).value.2.frame.byteAt i := by
    refine Memory.write_add ?_
    rw [send_frame, Memory.length_read]
    omega
  rw [Nat.zero_add] at hbyte
  rw [hbyte, send_frame, Memory.byteAt_read (by omega), Nat.zero_add, send_tx]

/-- A total length has one more. -/
theorem rxbuf_iplen {off j : ℕ} (hoff : IsIplen 14 frame.greLen off) (hj : j < 2) :
    k.rxbuf frame (off + j) = (be16 (frame.bytes.field16 off + 1)).byteAt j := by
  obtain ⟨hheaders, hlt, hend, hfits⟩ := frame.bounds
  have hfield := frame.iplen_add_le hoff
  have hold : (k.moved frame).field16 off = frame.bytes.field16 off := by
    unfold Memory.field16 Bytes.field16
    rw [k.moved_header frame (by omega), k.moved_header frame (by omega)]
  rw [rxbuf_apply _ _ (by omega), AppTx.addIplen_iplen frame.greLen_cases hoff hj, hold]

/-- A byte that is in no total length. -/
theorem rxbuf_outside (hi : i ≤ frame.bytes.length)
    (hout : ∀ off, IsIplen 14 frame.greLen off → i < off ∨ off + 2 ≤ i) :
    k.rxbuf frame i = k.moved frame i := by
  rw [rxbuf_apply _ _ hi, AppTx.addIplen_outside hout]

/-- From the payload on there is no total length. -/
theorem rxbuf_payload (hi : i ≤ frame.bytes.length) (hpayload : frame.payloadOff ≤ i) :
    k.rxbuf frame i = k.moved frame i := by
  refine k.rxbuf_outside frame hi fun off hoff => ?_
  have hfield := frame.iplen_add_le hoff
  omega

/-! ### The receiver -/

theorem rxbuf_tcphlen : etherLayout.tcphlen (k.rxbuf frame) frame.greLen = frame.tcphlen := by
  obtain ⟨hheaders, hlt, hend, hfits⟩ := frame.bounds
  have hbyte : k.rxbuf frame (frame.greLen + 46) = frame.bytes.byteAt (frame.greLen + 46) := by
    rw [k.rxbuf_outside frame (by omega), k.moved_header frame (by omega)]
    rintro off (hoff | hoff) <;> omega
  rw [TcpFrame.tcphlen, ← hbyte]
  rfl

theorem rxbuf_payloadOff :
    etherLayout.payloadOff (k.rxbuf frame) frame.greLen = frame.payloadOff := by
  rw [Layout.payloadOff, rxbuf_tcphlen]
  rfl

theorem rxbuf_marker : etherLayout.marker (k.rxbuf frame) frame.greLen = 0x56 := by
  obtain ⟨hheaders, hlt, hend, hfits⟩ := frame.bounds
  rw [Layout.marker, rxbuf_payloadOff, k.rxbuf_payload frame (by omega) (le_refl _), moved_marker]

/-- `tcp_payload_len` of `check_tcp_decompressable`: the payload with the marker. -/
theorem rxbuf_tcpPayloadLen :
    etherLayout.tcpPayloadLen (k.rxbuf frame) frame.greLen =
      frame.packetEnd - frame.payloadOff + 1 := by
  obtain ⟨hheaders, hlt, hend, hfits⟩ := frame.bounds
  have hpacket := frame.packetEnd_eq
  have hoff : frame.greLen + 34 + frame.tcphlen = frame.payloadOff := rfl
  unfold apptxbufSize at hfits
  have hinner : frame.bytes.field16 (frame.greLen + 16) = Rxbuf.innerIplen frame.bytes := rfl
  have hiplen : (k.rxbuf frame).field16 (frame.greLen + 16) =
      Rxbuf.innerIplen frame.bytes + 1 := by
    rw [Memory.field16_of_be16 fun _ hj => k.rxbuf_iplen frame (Or.inr rfl) hj, hinner,
      Nat.mod_eq_of_lt (by omega)]
  have hread : etherLayout.tcpPayloadLen (k.rxbuf frame) frame.greLen =
      sub32 (sub32 ((k.rxbuf frame).field16 (frame.greLen + 16)) 20)
        (etherLayout.tcphlen (k.rxbuf frame) frame.greLen) := rfl
  rw [hread, hiplen, rxbuf_tcphlen, sub32_of_le (b := 20) (by omega) (by omega),
    sub32_of_le (by omega) (by omega)]
  omega

/-- `check_tcp_decompressable` on the packet. -/
theorem receive_eq :
    k.receive frame = (do
      let tx ← (AppTx.mk k.rxApptxbuf (frame.bytes.length + 1)).strip 14 frame.greLen
        frame.tcphlen (frame.packetEnd - frame.payloadOff + 1) (k.rxbuf frame)
      pure (1, tx)) := by
  have hlen : (((k.send frame).value.2.frame.length : ℕ) : ℤ) = frame.bytes.length + 1 := by
    rw [send_frame, Memory.length_read]
    rfl
  have hmarker := k.rxbuf_marker frame
  have hplain : etherLayout.decompEn (k.rxbuf frame) frame.greLen k.receiver = false := by
    rw [Layout.decompEn, if_neg k.receiverInserts, if_pos hmarker]
  unfold receive checkTcpDecompressable Layout.checkDecompressable
  rw [if_neg k.fromWan, if_neg k.receiverEnabled, rxbuf_tcpPayloadLen,
    if_neg (Nat.succ_ne_zero _), hplain, if_neg Bool.false_ne_true, rxbuf_tcphlen, hlen]
  rfl

/-- The stores of the receiver stay in the buffer. -/
theorem receive_inBounds : (k.receive frame).All Step.InBounds := by
  obtain ⟨hheaders, hlt, hend, hfits⟩ := frame.bounds
  have hoff : frame.greLen + 34 + frame.tcphlen = frame.payloadOff := rfl
  rw [receive_eq]
  refine Logged.all_bind.mpr ⟨AppTx.all_strip ?_ ?_ ?_ ?_, Logged.all_pure _⟩
  all_goals
    unfold Step.InBounds
    omega

theorem receive_apptxlen : (k.receive frame).value.2.apptxlen = frame.bytes.length := by
  have hstrip : (k.receive frame).value.2.apptxlen = (frame.bytes.length : ℤ) + 1 - 1 := by
    rw [receive_eq]
    exact AppTx.strip_apptxlen _ _ _ _ _ _
  omega

/-- The receiver's buffer before the total lengths are lowered. -/
def stripped : Memory :=
  (k.rxApptxbuf.write 0 ((k.rxbuf frame).read 0 frame.payloadOff)).write frame.payloadOff
    ((k.rxbuf frame).read (frame.payloadOff + 1) (frame.packetEnd - frame.payloadOff))

theorem receive_apptxbuf :
    (k.receive frame).value.2.apptxbuf =
      ((AppTx.mk (k.stripped frame) (frame.bytes.length + 1 - 1)).addIplen 14 frame.greLen
        (2 ^ 16 - 1)).value.apptxbuf := by
  rw [receive_eq]
  rfl

theorem stripped_header (hi : i < frame.payloadOff) : k.stripped frame i = k.rxbuf frame i :=
  copied_header hi

theorem stripped_payload (hi : i < frame.packetEnd - frame.payloadOff) :
    k.stripped frame (frame.payloadOff + i) = k.movedByte frame i := by
  obtain ⟨hheaders, hlt, hend, hfits⟩ := frame.bounds
  rw [stripped, Memory.write_add (by rwa [Memory.length_read]), Memory.byteAt_read hi,
    k.rxbuf_payload frame (by omega) (by omega), k.moved_payload frame (by omega)]

theorem stripped_behind (hi : frame.packetEnd ≤ i) : k.stripped frame i = k.rxApptxbuf i := by
  obtain ⟨hheaders, hlt, hend, hfits⟩ := frame.bounds
  rw [stripped, Memory.write_of_outside (by rw [Memory.length_read]; omega),
    Memory.write_of_outside (by rw [Memory.length_read]; omega)]

/-- From the payload on the lowering of the total lengths does not matter. -/
theorem receive_payload (hi : frame.payloadOff ≤ i) :
    (k.receive frame).value.2.apptxbuf i = k.stripped frame i := by
  rw [receive_apptxbuf]
  refine AppTx.addIplen_outside fun off hoff => ?_
  have hfield := frame.iplen_add_le hoff
  omega

/-- A total length is the one of the frame again. -/
theorem receive_iplen {off j : ℕ} (hoff : IsIplen 14 frame.greLen off) (hj : j < 2) :
    (k.receive frame).value.2.apptxbuf (off + j) = frame.bytes.byteAt (off + j) := by
  obtain ⟨hheaders, hlt, hend, hfits⟩ := frame.bounds
  have hfield := frame.iplen_add_le hoff
  have hraised : (k.stripped frame).field16 off = (frame.bytes.field16 off + 1) % 2 ^ 16 := by
    refine Memory.field16_of_be16 fun i hi => ?_
    rw [k.stripped_header frame (by omega), k.rxbuf_iplen frame hoff hi]
  have hheld : (k.txApptxbuf.write 0 frame.bytes).field16 off = frame.bytes.field16 off := by
    unfold Memory.field16 Bytes.field16
    rw [frame.held_apply _ (by omega), frame.held_apply _ (by omega)]
  rw [receive_apptxbuf, AppTx.addIplen_iplen frame.greLen_cases hoff hj]
  dsimp only
  rw [hraised, be16_raise_lower, ← hheld, Memory.byteAt_be16_field16 hj,
    frame.held_apply _ (by omega)]

/-- The headers come back. -/
theorem receive_header (hi : i < frame.payloadOff) :
    (k.receive frame).value.2.apptxbuf i = frame.bytes.byteAt i := by
  obtain ⟨hheaders, hlt, hend, hfits⟩ := frame.bounds
  by_cases hin : ∃ off, IsIplen 14 frame.greLen off ∧ off ≤ i ∧ i < off + 2
  · obtain ⟨off, hoff, hle, hin⟩ := hin
    have hbyte := k.receive_iplen frame hoff (j := i - off) (by omega)
    rwa [Nat.add_sub_cancel' hle] at hbyte
  · have hout : ∀ off, IsIplen 14 frame.greLen off → i < off ∨ off + 2 ≤ i := by
      intro off hoff
      by_contra hnot
      exact hin ⟨off, hoff, by omega, by omega⟩
    rw [receive_apptxbuf, AppTx.addIplen_outside hout]
    dsimp only
    rw [k.stripped_header frame hi, k.rxbuf_outside frame (by omega) hout,
      k.moved_header frame hi]

/-- What the receiver has, byte by byte. -/
theorem restored_iff :
    (k.receive frame).value.2.apptxbuf.read 0 frame.bytes.length = frame.bytes ↔
      (∀ i < frame.packetEnd - frame.payloadOff,
        k.movedByte frame i = frame.bytes.byteAt (frame.payloadOff + i)) ∧
      ∀ i, frame.packetEnd ≤ i → i < frame.bytes.length →
        k.rxApptxbuf i = frame.bytes.byteAt i := by
  obtain ⟨hheaders, hlt, hend, hfits⟩ := frame.bounds
  rw [Memory.read_eq_iff rfl]
  simp only [Nat.zero_add]
  constructor
  · intro hbytes
    constructor
    · intro i hi
      rw [← k.stripped_payload frame hi, ← k.receive_payload frame (by omega),
        hbytes _ (by omega)]
    · intro i hle hi
      rw [← k.stripped_behind frame hle, ← k.receive_payload frame (by omega), hbytes i hi]
  · rintro ⟨hpayload, hpadding⟩ i hi
    by_cases hheader : i < frame.payloadOff
    · exact k.receive_header frame hheader
    · rw [k.receive_payload frame (by omega)]
      by_cases hin : i < frame.packetEnd
      · have hbyte := k.stripped_payload frame (i := i - frame.payloadOff) (by omega)
        rw [hpayload _ (by omega), Nat.add_sub_cancel' (by omega)] at hbyte
        exact hbyte
      · rw [k.stripped_behind frame (by omega), hpadding i (by omega) hi]

/-- The payload survives the copy downwards; upwards, if all its bytes are the same. -/
theorem movedByte_iff {n : ℕ} :
    (∀ i < n, k.movedByte frame i = frame.bytes.byteAt (frame.payloadOff + i)) ↔
      k.order = .descending ∨
        ∀ i < n, frame.bytes.byteAt (frame.payloadOff + i) =
          frame.bytes.byteAt frame.payloadOff := by
  unfold movedByte
  cases k.order with
  | ascending => simp only [reduceCtorEq, false_or, eq_comm]
  | descending => simp only [implies_true, true_or]

/-- **There and back.** -/
theorem roundTrips_iff :
    k.RoundTrips frame ↔
      frame.bytes.length < apptxbufSize ∧
      (k.order = .descending ∨ ∀ i < frame.packetEnd - frame.payloadOff,
        frame.bytes.byteAt (frame.payloadOff + i) = frame.bytes.byteAt frame.payloadOff) ∧
      ∀ i, frame.packetEnd ≤ i → i < frame.bytes.length →
        k.rxApptxbuf i = frame.bytes.byteAt i := by
  constructor
  · rintro ⟨hsend, _, hrestored, _⟩
    obtain ⟨hpayload, hpadding⟩ := (k.restored_iff frame).mp hrestored
    exact ⟨(k.send_inBounds_iff frame).mp hsend, (k.movedByte_iff frame).mp hpayload, hpadding⟩
  · rintro ⟨hroom, hpayload, hpadding⟩
    exact {
      sendInBounds := (k.send_inBounds_iff frame).mpr hroom
      receiveInBounds := k.receive_inBounds frame
      restored := (k.restored_iff frame).mpr ⟨(k.movedByte_iff frame).mpr hpayload, hpadding⟩
      apptxlen := k.receive_apptxlen frame }

end Link

/-- A frame with two bytes of payload. -/
def twoByteFrame : TcpFrame where
  bytes := etherHeader ++ segmentHeaders 42 ++ [1, 2]
  fits := by decide
  outerIhl := by decide
  innerIhl := by decide
  tcp := by decide
  complete := by decide
  nested := by decide
  dataOffset := by decide
  hasPayload := by decide

/-- A link whose sender copies upwards. -/
def upwardsLink : Link where
  sender := failingConfig
  receiver := failingConfig
  order := .ascending
  compStatus := -1
  txLanif := 1
  rxLanif := 1
  txApptxbuf := fun _ => 0
  behindPacket := fun _ => 0
  rxApptxbuf := fun _ => 0
  senderInserts := by decide
  receiverInserts := by decide
  receiverEnabled := by decide
  compFails := by decide
  fromWan := by decide

/-- The second byte of the payload comes back as the first one. -/
theorem not_roundTrips_upwards : ¬upwardsLink.RoundTrips twoByteFrame := by
  intro h
  have hpayload := ((upwardsLink.restored_iff twoByteFrame).mp h.restored).1 1 (by decide)
  exact absurd hpayload (by decide)

end SecureWan.WanOptimizer.Plc
