import SecureWan.WanOptimizer.TcpChecksum
import SecureWan.Lib.Logged
import SecureWan.Lib.Memory

/-!
# The byte in front of a TCP payload

`fillheaders_send` puts `0x56` in front of a payload that was not compressed, and
`check_tcp_decompressable` and `check_tcp_decompressable_ip` look at the first byte of a payload
to take that byte out or to decompress. They work on the global buffer `apptxbuf`. A store that
leaves the buffer is no failure here, so the model lists the stores, and it lists the results of
the decompressor, which is not part of the source.
-/

namespace SecureWan.WanOptimizer.Plc

open Memory (CopyOrder)

/-- The buffer `apptxbuf` with what lies behind it, and `apptxlen`. -/
@[ext] structure AppTx where
  apptxbuf : Memory
  apptxlen : ℤ

/-- `sizeof(apptxbuf)`. -/
def apptxbufSize : ℕ := 2100

/-- A step that a caller has to know of: `n` bytes are stored from `apptxbuf + off` on; the
decompressor reports a status. -/
inductive Step
  | store (off n : ℕ)
  | decompress (status : ℤ)

/-- A store stays inside of `apptxbuf`. -/
def Step.InBounds : Step → Prop
  | .store off n => off + n ≤ apptxbufSize
  | .decompress _ => True

/-- The settings, and `test_compressdev_deflate_stateless_fixed` when it decompresses: it gets the
packet, `apptxlen`, the offset of the payload and the interface, and it can change the buffer. -/
structure PlcConfig where
  enablePayloadComp : ℕ
  insertPlcByte : ℕ
  l2fwdDstPorts : ℕ → ℕ
  decompress : Memory → ℤ → ℕ → ℕ → AppTx → ℤ × AppTx

/-- A frame that is handed to `send_schedule_pkt`. -/
structure Sent where
  portid : ℕ
  frame : Bytes

/-- The difference of two `unsigned int`. -/
def sub32 (a b : ℕ) : ℕ := (a + 2 ^ 32 - b) % 2 ^ 32

theorem sub32_of_le {a b : ℕ} (h : b ≤ a) (ha : a < 2 ^ 32) : sub32 a b = a - b := by
  unfold sub32
  omega

/-- `tcphlen`, from the byte with the data offset. -/
def tcphlenOf (offset : UInt8) : ℕ := offset.toNat / 16 * 4

namespace AppTx

/-- Bytes stored from `apptxbuf + off` on. -/
def store (off : ℕ) (bs : Bytes) (tx : AppTx) : Logged Step AppTx :=
  .step (.store off bs.length) { tx with apptxbuf := tx.apptxbuf.write off bs }

/-- `memcpy(apptxbuf + dst, apptxbuf + src, n)`. -/
def memcpy (order : CopyOrder) (dst src n : ℕ) (tx : AppTx) : Logged Step AppTx :=
  .step (.store dst n) { tx with apptxbuf := tx.apptxbuf.copy order dst src n }

/-- The IP total lengths, changed by `delta` in 16 bits: that of a packet whose header is at `ip`,
and in a GRE packet also that of the inner header. -/
def addIplen (ip greLen delta : ℕ) (tx : AppTx) : Logged Step AppTx :=
  let outerIplen := tx.apptxbuf.field16 (ip + 2)
  let innerIplen := tx.apptxbuf.field16 (greLen + ip + 2)
  if greLen = 0 then tx.store (ip + 2) (be16 (outerIplen + delta))
  else do
    let tx ← tx.store (ip + 2) (be16 (outerIplen + delta))
    tx.store (greLen + ip + 2) (be16 (innerIplen + delta))

/-- `send_etherpkt`, when it gets an mbuf. -/
def sendEtherpkt (cfg : PlcConfig) (lanif : ℕ) (tx : AppTx) : Sent :=
  ⟨cfg.l2fwdDstPorts lanif, tx.apptxbuf.read 0 tx.apptxlen.toNat⟩

/-- `fillheaders_send`. -/
def fillheadersSend (cfg : PlcConfig) (order : CopyOrder) (compStatus : ℤ) (lanif : ℕ)
    (tx : AppTx) : Logged Step (AppTx × Sent) :=
  let greLen := Rxbuf.greLen (tx.apptxbuf.read 0 35)
  let tcphlen := tcphlenOf (tx.apptxbuf (greLen + 46))
  let tcpPayloadLen := ((tx.apptxlen - (greLen + 34 + tcphlen : ℕ)) % 2 ^ 32).toNat
  if cfg.insertPlcByte ≠ 0 ∧ compStatus < 0 then do
    let tx ← tx.memcpy order (greLen + 34 + tcphlen + 1) (greLen + 34 + tcphlen) tcpPayloadLen
    let tx ← tx.store (greLen + 34 + tcphlen) [0x56]
    let tx ← { tx with apptxlen := tx.apptxlen + 1 }.addIplen 14 greLen 1
    pure (tx, tx.sendEtherpkt cfg lanif)
  else pure (tx, tx.sendEtherpkt cfg lanif)

/-- A packet is copied to `apptxbuf` without the first byte of its payload. -/
def strip (ip greLen tcphlen tcpPayloadLen : ℕ) (rxbuf : Memory) (tx : AppTx) :
    Logged Step AppTx := do
  let tx ← tx.store 0 (rxbuf.read 0 (greLen + (ip + 20) + tcphlen))
  let tx ← tx.store (greLen + (ip + 20) + tcphlen)
    (rxbuf.read (greLen + (ip + 20) + tcphlen + 1) (tcpPayloadLen - 1))
  { tx with apptxlen := tx.apptxlen - 1 }.addIplen ip greLen (2 ^ 16 - 1)

end AppTx

/-- Where a packet has its IP header, and the bytes that are read as the high and the low byte of
the total length. -/
structure Layout where
  ip : ℕ
  iplenHigh : ℕ
  iplenLow : ℕ

namespace Layout

variable (l : Layout) (rxbuf : Memory) (greLen : ℕ)

/-- `tcphlen`. -/
def tcphlen : ℕ := tcphlenOf (rxbuf (greLen + (l.ip + 32)))

/-- `tcp_payload_len`. -/
def tcpPayloadLen : ℕ :=
  let iplen := (rxbuf (greLen + l.iplenHigh)).toNat * 256 + (rxbuf (greLen + l.iplenLow)).toNat
  sub32 (sub32 iplen 20) (l.tcphlen rxbuf greLen)

/-- The offset of the payload. -/
def payloadOff : ℕ := greLen + (l.ip + 20) + l.tcphlen rxbuf greLen

/-- The first byte of the payload. -/
def marker : UInt8 := rxbuf (l.payloadOff rxbuf greLen)

/-- `decomp_en`. -/
def decompEn (cfg : PlcConfig) : Bool :=
  if cfg.insertPlcByte = 0 then true
  else if l.marker rxbuf greLen = 0x56 then false
  else l.marker rxbuf greLen == 0x65

/-- The call of the decompressor, whose status is kept in a `uint8_t`. -/
def decompress (cfg : PlcConfig) (lanif : ℕ) (tx : AppTx) : Logged Step (ℕ × AppTx) :=
  let (status, tx) := cfg.decompress rxbuf tx.apptxlen (l.payloadOff rxbuf greLen + 1) lanif tx
  let decompStatus := UInt8.ofInt status
  .step (.decompress status) (if (decompStatus.toNat : ℤ) < 0 then (2, tx) else (1, tx))

/-- The body that `check_tcp_decompressable` and `check_tcp_decompressable_ip` have in common. -/
def checkDecompressable (enabled : ℕ) (cfg : PlcConfig) (lanif : ℕ) (tx : AppTx) :
    Logged Step (ℕ × AppTx) :=
  if lanif = 0 then pure (0, tx)
  else if enabled = 0 then pure (0, tx)
  else if l.tcpPayloadLen rxbuf greLen = 0 then pure (0, tx)
  else if l.decompEn rxbuf greLen cfg then l.decompress rxbuf greLen cfg lanif tx
  else do
    let tx ← tx.strip l.ip greLen (l.tcphlen rxbuf greLen) (l.tcpPayloadLen rxbuf greLen) rxbuf
    pure (1, tx)

end Layout

/-- A frame, with an Ethernet header. -/
def etherLayout : Layout := ⟨14, 16, 17⟩

/-- An IP packet; the bytes of its total length are read in the other order. -/
def ipLayout : Layout := ⟨0, 3, 2⟩

/-- `check_tcp_decompressable`. -/
def checkTcpDecompressable (cfg : PlcConfig) (rxbuf : Memory) (lanif greLen : ℕ) (tx : AppTx) :
    Logged Step (ℕ × AppTx) :=
  etherLayout.checkDecompressable rxbuf greLen cfg.enablePayloadComp cfg lanif tx

/-- `check_tcp_decompressable_ip`. -/
def checkTcpDecompressableIp (cfg : PlcConfig) (rxbuf : Memory)
    (lanif greLen sessionPlEnabled : ℕ) (tx : AppTx) : Logged Step (ℕ × AppTx) :=
  ipLayout.checkDecompressable rxbuf greLen sessionPlEnabled cfg lanif tx

/-! ### What a call does -/

/-- What a call has to do for a packet whose payload starts with `marker`: a failure of the
decompressor is passed on, the function stores a stripped packet and returns 1 only for `0x56`,
and a packet without a marker changes nothing. -/
structure Handles (marker : UInt8) (tx : AppTx) (x : Logged Step (ℕ × AppTx)) : Prop where
  failed : ∀ status, Step.decompress status ∈ x.steps → status < 0 → x.value.1 = 2
  stripped : (∃ off n, Step.store off n ∈ x.steps) → x.value.1 = 1 → marker = 0x56
  unchanged : marker ≠ 0x56 → marker ≠ 0x65 → x.value.2 = tx

/-- There is no payload, it starts with `0x56`, or it starts with `0x65` and the decompressor
succeeds. -/
def Layout.Settled (l : Layout) (cfg : PlcConfig) (rxbuf : Memory) (lanif greLen : ℕ)
    (tx : AppTx) : Prop :=
  l.tcpPayloadLen rxbuf greLen = 0 ∨ l.marker rxbuf greLen = 0x56 ∨
    l.marker rxbuf greLen = 0x65 ∧
      0 ≤ (cfg.decompress rxbuf tx.apptxlen (l.payloadOff rxbuf greLen + 1) lanif tx).1

instance (l : Layout) (cfg : PlcConfig) (rxbuf : Memory) (lanif greLen : ℕ) (tx : AppTx) :
    Decidable (l.Settled cfg rxbuf lanif greLen tx) := inferInstanceAs (Decidable (_ ∨ _ ∨ _ ∧ _))

variable {cfg : PlcConfig} {rxbuf : Memory} {lanif greLen : ℕ} {tx : AppTx}

/-- What a change of the total lengths lists. -/
theorem AppTx.all_addIplen {p : Step → Prop} {ip greLen delta : ℕ} {tx : AppTx}
    (houter : p (.store (ip + 2) 2)) (hinner : p (.store (greLen + ip + 2) 2)) :
    (tx.addIplen ip greLen delta).All p := by
  unfold AppTx.addIplen
  dsimp only
  split
  · exact Logged.all_step.mpr houter
  · exact Logged.all_bind.mpr ⟨Logged.all_step.mpr houter, Logged.all_step.mpr hinner⟩

/-- What a copy without the first byte of the payload lists. -/
theorem AppTx.all_strip {p : Step → Prop} {ip greLen tcphlen tcpPayloadLen : ℕ} {rxbuf : Memory}
    {tx : AppTx} (hheaders : p (.store 0 (greLen + (ip + 20) + tcphlen)))
    (hpayload : p (.store (greLen + (ip + 20) + tcphlen) (tcpPayloadLen - 1)))
    (houter : p (.store (ip + 2) 2)) (hinner : p (.store (greLen + ip + 2) 2)) :
    (tx.strip ip greLen tcphlen tcpPayloadLen rxbuf).All p := by
  unfold AppTx.strip
  refine Logged.all_bind.mpr ⟨?_, Logged.all_bind.mpr ⟨?_, all_addIplen houter hinner⟩⟩
  · rw [AppTx.store, Logged.all_step, Memory.length_read]
    exact hheaders
  · rw [AppTx.store, Logged.all_step, Memory.length_read]
    exact hpayload

theorem AppTx.addIplen_apptxlen (ip greLen delta : ℕ) (tx : AppTx) :
    (tx.addIplen ip greLen delta).value.apptxlen = tx.apptxlen := by
  unfold AppTx.addIplen
  dsimp only
  split <;> rfl

/-- A stripped packet is counted as one byte shorter. -/
theorem AppTx.strip_apptxlen (ip greLen tcphlen tcpPayloadLen : ℕ) (rxbuf : Memory) (tx : AppTx) :
    (tx.strip ip greLen tcphlen tcpPayloadLen rxbuf).value.apptxlen = tx.apptxlen - 1 :=
  addIplen_apptxlen ip greLen _ _

/-- The status is never seen to be negative. -/
theorem Layout.decompress_value (l : Layout) (cfg : PlcConfig) (rxbuf : Memory)
    (lanif greLen : ℕ) (tx : AppTx) :
    (l.decompress rxbuf greLen cfg lanif tx).value =
      (1, (cfg.decompress rxbuf tx.apptxlen (l.payloadOff rxbuf greLen + 1) lanif tx).2) := by
  unfold Layout.decompress
  dsimp only
  rw [Logged.value_step, if_neg (Int.not_lt.mpr (Int.natCast_nonneg _))]

theorem Layout.decompress_steps (l : Layout) (cfg : PlcConfig) (rxbuf : Memory)
    (lanif greLen : ℕ) (tx : AppTx) :
    (l.decompress rxbuf greLen cfg lanif tx).steps =
      [.decompress (cfg.decompress rxbuf tx.apptxlen (l.payloadOff rxbuf greLen + 1) lanif tx).1] :=
  rfl

/-- A call that does nothing is right. -/
theorem Handles.of_pure (marker : UInt8) (tx : AppTx) : Handles marker tx (pure (0, tx)) where
  failed := fun _ hstep => by cases hstep
  stripped := fun ⟨_, _, hstep⟩ => by cases hstep
  unchanged := fun _ _ => rfl

/-- A call of the decompressor is right exactly when it succeeds. -/
theorem Layout.handles_decompress_iff (l : Layout) (hmarker : l.marker rxbuf greLen = 0x65) :
    Handles (l.marker rxbuf greLen) tx (l.decompress rxbuf greLen cfg lanif tx) ↔
      0 ≤ (cfg.decompress rxbuf tx.apptxlen (l.payloadOff rxbuf greLen + 1) lanif tx).1 := by
  constructor
  · intro h
    by_contra hneg
    have hret := h.failed _ (by rw [decompress_steps]; exact List.mem_singleton_self _)
      (by omega)
    rw [decompress_value] at hret
    cases hret
  · intro hstatus
    constructor
    · intro status hstep hneg
      rw [decompress_steps, List.mem_singleton] at hstep
      cases hstep
      omega
    · rintro ⟨off, n, hstep⟩
      rw [decompress_steps, List.mem_singleton] at hstep
      cases hstep
    · intro _ hne
      exact absurd hmarker hne

/-- A packet that is stripped had the marker for it. -/
theorem handles_strip_iff {marker : UInt8} (hmarker : marker ≠ 0x65)
    (ip greLen tcphlen tcpPayloadLen : ℕ) :
    Handles marker tx (do
      let tx ← tx.strip ip greLen tcphlen tcpPayloadLen rxbuf
      pure (1, tx)) ↔ marker = 0x56 := by
  constructor
  · intro h
    by_contra hne
    have hlen := congrArg AppTx.apptxlen (h.unchanged hne hmarker)
    have hstrip := tx.strip_apptxlen ip greLen tcphlen tcpPayloadLen rxbuf
    rw [Logged.value_bind, Logged.value_pure] at hlen
    dsimp only at hlen
    omega
  · intro hmark
    constructor
    · have hstores : (do
          let tx ← tx.strip ip greLen tcphlen tcpPayloadLen rxbuf
          pure (1, tx)).All fun e => ∀ status, e ≠ Step.decompress status :=
        Logged.all_bind.mpr ⟨AppTx.all_strip nofun nofun nofun nofun, Logged.all_pure _⟩
      intro status hstep
      exact absurd rfl (hstores _ hstep status)
    · exact fun _ _ => hmark
    · exact fun hne => absurd hmark hne

/-- **The outcome.** With the settings on, a call does what it has to exactly on the packets
that are settled. -/
theorem Layout.handles_iff (l : Layout) {enabled : ℕ} (hlanif : lanif ≠ 0)
    (henabled : enabled ≠ 0) (hinsert : cfg.insertPlcByte ≠ 0) :
    Handles (l.marker rxbuf greLen) tx (l.checkDecompressable rxbuf greLen enabled cfg lanif tx) ↔
      l.Settled cfg rxbuf lanif greLen tx := by
  unfold Layout.checkDecompressable Layout.Settled
  rw [if_neg hlanif, if_neg henabled]
  by_cases hpayload : l.tcpPayloadLen rxbuf greLen = 0
  · rw [if_pos hpayload]
    exact iff_of_true (.of_pure _ _) (Or.inl hpayload)
  rw [if_neg hpayload, or_iff_right hpayload, Layout.decompEn, if_neg hinsert]
  by_cases hplain : l.marker rxbuf greLen = 0x56
  · have hne : l.marker rxbuf greLen ≠ 0x65 := by
      rw [hplain]
      decide
    rw [if_pos hplain, if_neg Bool.false_ne_true, handles_strip_iff hne]
    exact iff_of_true hplain (Or.inl hplain)
  rw [if_neg hplain, or_iff_right hplain]
  by_cases hcompressed : l.marker rxbuf greLen = 0x65
  · rw [if_pos (beq_iff_eq.mpr hcompressed), l.handles_decompress_iff hcompressed,
      and_iff_right hcompressed]
  · rw [if_neg (by rwa [beq_iff_eq]), handles_strip_iff hcompressed]
    exact iff_of_false hplain fun h => hcompressed h.1

/-- Both functions, for packets from the WAN. -/
theorem checkTcpDecompressable_handles_iff (cfg : PlcConfig) (rxbuf : Memory)
    (lanif greLen sessionPlEnabled : ℕ) (tx : AppTx) (hlanif : lanif ≠ 0)
    (henabled : cfg.enablePayloadComp ≠ 0) (hsession : sessionPlEnabled ≠ 0)
    (hinsert : cfg.insertPlcByte ≠ 0) :
    (Handles (etherLayout.marker rxbuf greLen) tx
        (checkTcpDecompressable cfg rxbuf lanif greLen tx) ↔
      etherLayout.Settled cfg rxbuf lanif greLen tx) ∧
    (Handles (ipLayout.marker rxbuf greLen) tx
        (checkTcpDecompressableIp cfg rxbuf lanif greLen sessionPlEnabled tx) ↔
      ipLayout.Settled cfg rxbuf lanif greLen tx) :=
  ⟨etherLayout.handles_iff hlanif henabled hinsert, ipLayout.handles_iff hlanif hsession hinsert⟩

/-- Compression is on, and the decompressor fails. -/
def failingConfig : PlcConfig := ⟨1, 1, id, fun _ _ _ _ tx => (-1, tx)⟩

/-- An Ethernet header for IPv4. -/
def etherHeader : Bytes := [2, 0, 0, 0, 0, 1, 2, 0, 0, 0, 0, 2, 8, 0]

/-- The headers of a TCP segment, for a total length. -/
def segmentHeaders (totalLength : UInt8) : Bytes :=
  [0x45, 0, 0, totalLength, 0, 1, 0, 0, 64, 6, 0, 0, 10, 0, 0, 1, 10, 0, 0, 2] ++
    [0x1f, 0x90, 0xc0, 0, 0, 0, 0, 1, 0, 0, 0, 1, 0x50, 0x18, 4, 0, 0, 0, 0, 0]

/-- A packet with one byte of payload, with the bytes in front of the IP header. -/
def oneBytePacket (ether : Bytes) (payload : UInt8) : Memory :=
  (ether ++ segmentHeaders 41 ++ [payload]).byteAt

/-- An empty buffer and the length of a packet. -/
def emptyAppTx (len : ℕ) : AppTx := ⟨fun _ => 0, len⟩

theorem checkTcpDecompressable_handles_plain :
    Handles 0x56 (emptyAppTx 55) (checkTcpDecompressable failingConfig
        (oneBytePacket etherHeader 0x56) 1 0 (emptyAppTx 55)) ∧
      Handles 0x56 (emptyAppTx 41) (checkTcpDecompressableIp failingConfig
        (oneBytePacket [] 0x56) 1 0 1 (emptyAppTx 41)) :=
  ⟨(checkTcpDecompressable_handles_iff failingConfig (oneBytePacket etherHeader 0x56) 1 0 1
      (emptyAppTx 55) (by decide) (by decide) (by decide) (by decide)).1.mpr
      (Or.inr (Or.inl (by decide))),
    (checkTcpDecompressable_handles_iff failingConfig (oneBytePacket [] 0x56) 1 0 1
      (emptyAppTx 41) (by decide) (by decide) (by decide) (by decide)).2.mpr
      (Or.inr (Or.inl (by decide)))⟩

/-- A failed decompression is reported as a success, and a byte that is no marker is taken out. -/
theorem checkTcpDecompressable_not_handles :
    ¬Handles (ipLayout.marker (oneBytePacket [] 0x65) 0) (emptyAppTx 41)
        (checkTcpDecompressableIp failingConfig (oneBytePacket [] 0x65) 1 0 1 (emptyAppTx 41)) ∧
      ¬Handles (etherLayout.marker (oneBytePacket etherHeader 0x65) 0) (emptyAppTx 55)
        (checkTcpDecompressable failingConfig (oneBytePacket etherHeader 0x65) 1 0
          (emptyAppTx 55)) ∧
      ¬Handles (etherLayout.marker (oneBytePacket etherHeader 0x47) 0) (emptyAppTx 55)
        (checkTcpDecompressable failingConfig (oneBytePacket etherHeader 0x47) 1 0
          (emptyAppTx 55)) := by
  refine ⟨fun h => ?_, fun h => ?_, fun h => ?_⟩
  · have hsettled := (ipLayout.handles_iff (by decide) (by decide) (by decide)).mp h
    exact absurd hsettled (by decide)
  · have hsettled := (etherLayout.handles_iff (by decide) (by decide) (by decide)).mp h
    exact absurd hsettled (by decide)
  · have hsettled := (etherLayout.handles_iff (by decide) (by decide) (by decide)).mp h
    exact absurd hsettled (by decide)

end SecureWan.WanOptimizer.Plc
