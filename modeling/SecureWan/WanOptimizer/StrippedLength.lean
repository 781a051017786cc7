import SecureWan.WanOptimizer.MarkerRoundTrip

/-!
# The total lengths of a stripped packet

`check_tcp_decompressable_ip` reads the total length of a packet with the second byte as the
high one, to find out how long the payload is, and lowers it by one with the first byte as the
high one. This file compares the two for a packet whose marker is taken out.
-/

namespace SecureWan.WanOptimizer.Plc

/-- The total length as it is read at entry, of a field at an offset. -/
def entryIplen (mem : Memory) (off : ℕ) : ℕ := (mem (off + 1)).toNat * 256 + (mem off).toNat

/-- The number of bytes that are copied of a packet whose marker is taken out. -/
def bytesCopied (rxbuf : Memory) (greLen : ℕ) : ℕ :=
  ipLayout.payloadOff rxbuf greLen + (ipLayout.tcpPayloadLen rxbuf greLen - 1)

/-- A total length of a stripped packet, as it is read at entry, is one less than before and
counts the bytes of its packet that were copied; the field is two bytes behind the start of
its packet. -/
structure Shortened (rxbuf : Memory) (greLen : ℕ) (tx : AppTx) (off : ℕ) : Prop where
  lowered : (entryIplen tx.apptxbuf off + 1) % 2 ^ 16 = entryIplen rxbuf off
  counted : entryIplen tx.apptxbuf off = bytesCopied rxbuf greLen - (off - 2)

variable {cfg : PlcConfig} {rxbuf mem : Memory} {lanif greLen off sessionPlEnabled n : ℕ}
  {tx : AppTx}

/-- The bytes of the field, the other way round. -/
theorem entryIplen_eq (mem : Memory) (off : ℕ) :
    entryIplen mem off = mem.field16 off % 256 * 256 + mem.field16 off / 256 := by
  have hhi := (mem off).toNat_lt
  have hlo := (mem (off + 1)).toNat_lt
  unfold entryIplen Memory.field16
  omega

/-- A field that is lowered with the first byte as the high one, as it is read at entry: its high
byte goes down, or around, and takes one from the low byte when it goes around. -/
theorem entryIplen_lowered (hnew : mem.field16 off = (rxbuf.field16 off + (2 ^ 16 - 1)) % 2 ^ 16) :
    entryIplen mem off =
      if 256 ≤ entryIplen rxbuf off then entryIplen rxbuf off - 256
      else if 0 < entryIplen rxbuf off then entryIplen rxbuf off + 65279
      else 65535 := by
  have hborrowed : ∀ m, (m * 256 + 255) % 256 * 256 + (m * 256 + 255) / 256 = 65280 + m :=
    fun m => by omega
  have hhi := (rxbuf off).toNat_lt
  have hlo := (rxbuf (off + 1)).toNat_lt
  rw [entryIplen_eq, hnew, entryIplen, Memory.field16]
  generalize (rxbuf off).toNat = low at hhi ⊢
  generalize (rxbuf (off + 1)).toNat = high at hlo ⊢
  split_ifs with hborrow hzero
  · have hnone : (low * 256 + high + (2 ^ 16 - 1)) % 2 ^ 16 = low * 256 + (high - 1) := by omega
    rw [hnone]
    omega
  · have hsum : low * 256 + high + (2 ^ 16 - 1) = 2 ^ 16 + ((low - 1) * 256 + 255) := by omega
    have hone : (low * 256 + high + (2 ^ 16 - 1)) % 2 ^ 16 = (low - 1) * 256 + 255 := by
      rw [hsum, Nat.add_mod_left, Nat.mod_eq_of_lt (by omega)]
    rw [hone, hborrowed]
    omega
  · obtain rfl : low = 0 := by omega
    obtain rfl : high = 0 := by omega
    rfl

/-- In the order of the entry, one less is reached only from zero, around the end. -/
theorem eq_zero_of_lowered
    (hnew : mem.field16 off = (rxbuf.field16 off + (2 ^ 16 - 1)) % 2 ^ 16)
    (hone : (entryIplen mem off + 1) % 2 ^ 16 = entryIplen rxbuf off) :
    entryIplen rxbuf off = 0 ∧ entryIplen mem off = 65535 := by
  have hlowered := entryIplen_lowered hnew
  have hlt := rxbuf.field16_lt off
  have hentry := entryIplen_eq rxbuf off
  split_ifs at hlowered <;> omega

/-! ### A packet without its marker -/

/-- The call of a packet that starts with the marker for a plain payload. -/
theorem checkTcpDecompressableIp_value (hlanif : lanif ≠ 0) (hsession : sessionPlEnabled ≠ 0)
    (hinsert : cfg.insertPlcByte ≠ 0) (hmarker : ipLayout.marker rxbuf greLen = 0x56)
    (hpayload : ipLayout.tcpPayloadLen rxbuf greLen ≠ 0) :
    (checkTcpDecompressableIp cfg rxbuf lanif greLen sessionPlEnabled tx).value =
      (1, (tx.strip 0 greLen (ipLayout.tcphlen rxbuf greLen)
        (ipLayout.tcpPayloadLen rxbuf greLen) rxbuf).value) := by
  have hplain : ipLayout.decompEn rxbuf greLen cfg = false := by
    rw [Layout.decompEn, if_neg hinsert, if_pos hmarker]
  rw [checkTcpDecompressableIp, Layout.checkDecompressable, if_neg hlanif, if_neg hsession,
    if_neg hpayload, hplain, if_neg Bool.false_ne_true]
  rfl

/-- The total length of the inner packet, or of a plain one, is lowered by the exit. -/
theorem field16_stripped {tcphlen tcpPayloadLen : ℕ} :
    (tx.strip 0 greLen tcphlen tcpPayloadLen rxbuf).value.apptxbuf.field16 (greLen + 2) =
      (rxbuf.field16 (greLen + 2) + (2 ^ 16 - 1)) % 2 ^ 16 := by
  let copied : Memory :=
    (tx.apptxbuf.write 0 (rxbuf.read 0 (greLen + (0 + 20) + tcphlen))).write
      (greLen + (0 + 20) + tcphlen)
      (rxbuf.read (greLen + (0 + 20) + tcphlen + 1) (tcpPayloadLen - 1))
  have hvalue : (tx.strip 0 greLen tcphlen tcpPayloadLen rxbuf).value =
      (AppTx.addIplen 0 greLen (2 ^ 16 - 1) ⟨copied, tx.apptxlen - 1⟩).value := rfl
  have hheader : copied.field16 (greLen + 2) = rxbuf.field16 (greLen + 2) := by
    have hbyte : ∀ i < greLen + (0 + 20) + tcphlen, copied i = rxbuf i :=
      fun i hi => copied_header hi
    rw [Memory.field16, hbyte _ (by omega), hbyte _ (by omega), Memory.field16]
  refine Memory.field16_of_be16 fun j hj => ?_
  rw [hvalue, AppTx.addIplen_apptxbuf, Nat.add_zero, Memory.write_add (by rwa [length_be16]),
    hheader]

/-- The payload of a packet is counted from the total length as it is read at entry. -/
theorem tcpPayloadLen_eq (rxbuf : Memory) (greLen : ℕ) :
    ipLayout.tcpPayloadLen rxbuf greLen =
      sub32 (sub32 (entryIplen rxbuf (greLen + 2)) 20) (ipLayout.tcphlen rxbuf greLen) := rfl

/-- **No packet is shortened as it should be.** Whatever its total length, plain or GRE. -/
theorem checkTcpDecompressableIp_not_shortened (cfg : PlcConfig) (rxbuf : Memory)
    (lanif greLen sessionPlEnabled : ℕ) (tx : AppTx) (hlanif : lanif ≠ 0)
    (hsession : sessionPlEnabled ≠ 0) (hinsert : cfg.insertPlcByte ≠ 0)
    (hmarker : ipLayout.marker rxbuf greLen = 0x56)
    (hpayload : ipLayout.tcpPayloadLen rxbuf greLen ≠ 0) :
    ¬ ∀ off, IsIplen 0 greLen off → Shortened rxbuf greLen
      (checkTcpDecompressableIp cfg rxbuf lanif greLen sessionPlEnabled tx).value.2 off := by
  intro h
  have hinner := h (greLen + 2) (Or.inr rfl)
  rw [checkTcpDecompressableIp_value hlanif hsession hinsert hmarker hpayload] at hinner
  obtain ⟨hzero, hmax⟩ := eq_zero_of_lowered field16_stripped hinner.lowered
  -- A length of zero leaves a payload of almost 2 ^ 32 bytes to copy.
  have hcopied : 65536 ≤ bytesCopied rxbuf greLen - greLen := by
    have htcphlen : ipLayout.tcphlen rxbuf greLen ≤ 60 := by
      have hbyte := (rxbuf (greLen + (ipLayout.ip + 32))).toNat_lt
      unfold Layout.tcphlen tcphlenOf
      omega
    rw [bytesCopied, Layout.payloadOff, tcpPayloadLen_eq, hzero]
    unfold sub32
    omega
  have hcounted := hinner.counted
  rw [hmax, Nat.add_sub_cancel] at hcounted
  omega

/-- A packet with one byte of payload, its marker. -/
theorem checkTcpDecompressableIp_not_shortened_oneByte :
    ¬ ∀ off, IsIplen 0 0 off → Shortened (oneBytePacket [] 0x56) 0
      (checkTcpDecompressableIp failingConfig (oneBytePacket [] 0x56) 1 0 1
        (emptyAppTx 41)).value.2 off :=
  checkTcpDecompressableIp_not_shortened failingConfig (oneBytePacket [] 0x56) 1 0 1
    (emptyAppTx 41) (by decide) (by decide) (by decide) (by decide) (by decide)

/-- The length 41 of that packet is read as 10496, and 40 would be read as 10240. -/
theorem entryIplen_oneBytePacket :
    let tx := (checkTcpDecompressableIp failingConfig (oneBytePacket [] 0x56) 1 0 1
      (emptyAppTx 41)).value.2
    entryIplen (oneBytePacket [] 0x56) 2 = 10496 ∧ entryIplen tx.apptxbuf 2 = 10240 ∧
      ¬ Shortened (oneBytePacket [] 0x56) 0 tx 2 := by
  have hbefore : entryIplen (oneBytePacket [] 0x56) 2 = 10496 := by decide
  have hafter : entryIplen (checkTcpDecompressableIp failingConfig (oneBytePacket [] 0x56) 1 0 1
      (emptyAppTx 41)).value.2.apptxbuf 2 = 10240 := by
    rw [checkTcpDecompressableIp_value (by decide) (by decide) (by decide) (by decide)
      (by decide), entryIplen_lowered field16_stripped, hbefore]
    rfl
  refine ⟨hbefore, hafter, fun h => ?_⟩
  have hlowered := h.lowered
  rw [hbefore, hafter] at hlowered
  exact absurd hlowered (by decide)

end SecureWan.WanOptimizer.Plc
