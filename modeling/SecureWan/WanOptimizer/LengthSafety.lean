import SecureWan.WanOptimizer.RxThread

/-!
# Which frames the receive thread reads within

The thread trusts the length fields of a frame: the total length of the innermost IPv4 header,
the data offset of TCP, the length field of UDP. This file says for which frames nothing behind
the frame is read and no difference of lengths wraps.
-/

namespace SecureWan.WanOptimizer.AppRx

/-- The parts behind the outer header of an IPv4 frame. -/
def Part.Checked (part : Part) : Prop := part ≠ .outerHeader ∧ part ≠ .arp

/-- The bytes that a part behind the outer header reads are bytes of the packet; a difference
does not wrap. -/
def Step.LengthSafe : Step → Prop
  | .access part off n pktLen => part.Checked → n = 0 ∨ off + n ≤ pktLen
  | .sub a b => b ≤ a
  | .deref _ => True

variable (cfg : RxConfig) (portid : ℕ) (o : Outcome)

/-! ### The conditions -/

section Conditions

variable (m : RxPacket) (greLen : ℕ)

/-- `verify_tcp_checksum` accepts the segment. -/
def ChecksumMatches : Prop :=
  Rxbuf.verifyTcpChecksum (m.load (34 + greLen) (totalLength m greLen - 20))
    (m.load (14 + greLen) 20) (totalLength m greLen) = 1

/-- How many bytes `m_devget` is asked for: for a small segment with payload it is `MINCLSIZE`. -/
def devgetLen : ℕ :=
  if totalLength m greLen = 20 + tcphlen m greLen then totalLength m greLen
  else if totalLength m greLen < cfg.minclsize then cfg.minclsize
  else totalLength m greLen

/-- How many of them it copies. -/
def Outcome.copied (len : ℕ) : ℕ :=
  match o.devget with
  | none => len
  | some k => min k len

/-- An accepted segment has its data offset in the frame and its header in the segment, and
what is copied of it is in the frame. -/
structure InputFits : Prop where
  offset : 47 + greLen ≤ m.pktLen
  header : 20 + tcphlen m greLen ≤ totalLength m greLen
  copied : o.copied (devgetLen cfg m greLen) = 0 ∨
    14 + greLen + o.copied (devgetLen cfg m greLen) ≤ m.pktLen

/-- The total length counts the IPv4 header, and the segment that it counts is in the frame. -/
structure TcpFits : Prop where
  counts : 20 ≤ totalLength m greLen
  segment : totalLength m greLen = 20 ∨ 14 + greLen + totalLength m greLen ≤ m.pktLen
  accepted : ChecksumMatches m greLen → InputFits cfg o m greLen

/-- The ports and the length for which `is_rtp_hdr` goes on to the RTP header. -/
def MayBeRtp : Prop :=
  1024 < m.field16 (34 + greLen) ∧ 1024 < m.field16 (36 + greLen) ∧
    ¬(m.field16 (34 + greLen) = 5060 ∧ m.field16 (36 + greLen) = 5060) ∧
    m.field16 (36 + greLen) % 2 = 0 ∧ m.field16 (38 + greLen) ≤ 200

/-- The UDP header is in the frame, and for ports that RTP may use its length counts the
header, and the first bytes of an RTP header are in the frame if the length leaves room. -/
structure RtpFits : Prop where
  header : 40 + greLen ≤ m.pktLen
  counts : MayBeRtp m greLen → 8 ≤ m.field16 (38 + greLen)
  version : MayBeRtp m greLen → 8 + cfg.rtpHdrLen ≤ m.field16 (38 + greLen) →
    43 + greLen ≤ m.pktLen
  payloadType : MayBeRtp m greLen → 8 + cfg.rtpHdrLen ≤ m.field16 (38 + greLen) →
    (m.byteAt (42 + greLen)).toNat / 64 = 2 → 44 + greLen ≤ m.pktLen

/-- The ports are in the frame, and where `is_rtp_hdr` is called, what it reads. -/
structure UdpFits : Prop where
  ports : 38 + greLen ≤ m.pktLen
  rtp : cfg.enableHeaderComp = true → portid ≠ cfg.wanIfId → m.pktLen < 200 →
    RtpFits cfg m greLen

/-- The innermost IPv4 header is in the frame, with what its protocol needs. -/
structure ProtoFits : Prop where
  header : 34 + greLen ≤ m.pktLen
  tcp : m.byteAt (23 + greLen) = 0x06 → TcpFits cfg o m greLen
  udp : m.byteAt (23 + greLen) = 0x11 → UdpFits cfg portid m greLen

end Conditions

/-- A GRE frame: its innermost header is in the frame, and if that is one of a fragment, then the
frame with the reassembled datagram fits. -/
def GreFits (s : RxLcore) (m : RxPacket) (greLen : ℕ) : Prop :=
  if isFragment (m.field16 (20 + greLen)) then
    22 + greLen ≤ m.pktLen ∧
      ∀ whole, s.reassembled .inner .innerHeader o.inner (14 + greLen) m = some whole →
        18 + greLen ≤ whole.pktLen ∧
          ProtoFits cfg portid o
            (rewriteOuter cfg whole greLen (whole.field16 (16 + greLen))) greLen
  else ProtoFits cfg portid o m greLen

/-- A frame that is plain or GRE. -/
def InnerFits (s : RxLcore) (m : RxPacket) : Prop :=
  if m.byteAt 23 = 0x2f then 35 ≤ m.pktLen ∧ GreFits cfg portid o s m (greLenOf (m.byteAt 34))
  else ProtoFits cfg portid o m 0

/-- **Frames that fit.** A frame that is an outer fragment fits if what is reassembled does; any
other IPv4 frame, if it is dropped by the length check or fits itself. -/
def FrameFits (s : RxLcore) (m : RxPacket) : Prop :=
  m.field16 12 = 0x0800 →
    if isFragment (m.field16 20) then
      ∀ whole, s.reassembled .outer .outerHeader o.outer 14 m = some whole →
        InnerFits cfg portid o (s.reassembly .outer .outerHeader o.outer 14 m).value.1 whole
    else ¬LengthMismatch m → InnerFits cfg portid o s m

/-! ### The steps -/

section Safe

variable {cfg portid o} {m : RxPacket} {part : Part} {off n greLen : ℕ}

theorem checked_innerHeader : Part.Checked .innerHeader := ⟨by decide, by decide⟩

theorem checked_checksum : Part.Checked .checksum := ⟨by decide, by decide⟩

theorem checked_payload : Part.Checked .payload := ⟨by decide, by decide⟩

theorem checked_rtp : Part.Checked .rtp := ⟨by decide, by decide⟩

theorem safe_read (hpart : part.Checked) :
    (read part m off n).All Step.LengthSafe ↔ n = 0 ∨ off + n ≤ m.pktLen := by
  rw [read, Logged.all_step, Step.LengthSafe, forall_prop_of_true hpart]

theorem safe_readByte (hpart : part.Checked) :
    (readByte part m off).All Step.LengthSafe ↔ off + 1 ≤ m.pktLen := by
  rw [readByte, Logged.all_step, Step.LengthSafe, forall_prop_of_true hpart]
  omega

theorem safe_readField16 (hpart : part.Checked) :
    (readField16 part m off).All Step.LengthSafe ↔ off + 2 ≤ m.pktLen := by
  rw [readField16, Logged.all_step, Step.LengthSafe, forall_prop_of_true hpart]
  omega

/-- A read of another part is not asked for. -/
theorem safe_unchecked {n pktLen : ℕ} (hpart : ¬part.Checked) :
    Step.LengthSafe (.access part off n pktLen) := fun h => absurd h hpart

theorem safe_diff {width a b : ℕ} : (diff width a b).All Step.LengthSafe ↔ b ≤ a :=
  Logged.all_step

theorem safe_deref (isNull : Bool) : (deref isNull).All Step.LengthSafe :=
  Logged.all_step.mpr trivial

/-- A difference that does not wrap, as a number. -/
theorem value_diff {width a b : ℕ} (hle : b ≤ a) (hlt : a < 2 ^ width) :
    (diff width a b).value = a - b := by
  rw [diff, Logged.value_step, Nat.sub_add_comm hle, Nat.add_mod_right,
    Nat.mod_eq_of_lt (by omega)]

/-- The checksum is read within when the segment is in the frame. -/
theorem safe_verifyTcp (hheader : 34 + greLen ≤ m.pktLen) :
    (verifyTcp m greLen).All Step.LengthSafe ↔
      20 ≤ totalLength m greLen ∧
        (totalLength m greLen = 20 ∨ 14 + greLen + totalLength m greLen ≤ m.pktLen) := by
  have hlt := totalLength_lt m greLen
  have hvalue : (readField16 .checksum m (16 + greLen)).value = totalLength m greLen := rfl
  unfold verifyTcp
  simp only [Logged.all_bind, Logged.all_pure, hvalue, safe_readField16 checked_checksum, safe_diff,
    safe_read checked_checksum, safe_readByte checked_checksum, and_true]
  by_cases hcounts : 20 ≤ totalLength m greLen
  · rw [value_diff hcounts hlt]
    omega
  · exact iff_of_false (fun h => hcounts h.2.1) fun h => hcounts h.1

/-- The checksum is the one of the segment that the total length counts. -/
theorem value_verifyTcp (hcounts : 20 ≤ totalLength m greLen) :
    (verifyTcp m greLen).value = true ↔ ChecksumMatches m greLen := by
  have hdiff : (diff 16 (totalLength m greLen) 20).value = totalLength m greLen - 20 :=
    value_diff hcounts (totalLength_lt m greLen)
  unfold verifyTcp
  simp only [Logged.value_bind, Logged.value_pure, value_readField16, value_read]
  change (Rxbuf.verifyTcpChecksum (m.load (34 + greLen) (diff 16 (totalLength m greLen) 20).value)
    _ _ == 1) = true ↔ _
  rw [hdiff, beq_iff_eq, ChecksumMatches, totalLength]

theorem safe_mDevget (len : ℕ) :
    (mDevget o m greLen len).All Step.LengthSafe ↔
      o.copied len = 0 ∨ 14 + greLen + o.copied len ≤ m.pktLen := by
  unfold mDevget
  simp only [Logged.all_bind, Logged.all_pure, and_true, safe_read checked_payload]
  rfl

/-- What `m_devget` is asked for, once the header is in the segment. -/
theorem safe_rxDevget (htcp : 20 + tcphlen m greLen ≤ totalLength m greLen) :
    (rxDevget cfg o m greLen (totalLength m greLen)
        (totalLength m greLen - 20 - tcphlen m greLen)).All Step.LengthSafe ↔
      o.copied (devgetLen cfg m greLen) = 0 ∨
        14 + greLen + o.copied (devgetLen cfg m greLen) ≤ m.pktLen := by
  unfold rxDevget devgetLen
  by_cases hempty : totalLength m greLen = 20 + tcphlen m greLen
  · rw [if_pos (by omega), if_pos hempty, safe_mDevget]
  · rw [if_neg (by omega), if_neg hempty]
    by_cases hsmall : totalLength m greLen < cfg.minclsize
    · rw [if_pos hsmall, if_pos hsmall, Logged.all_bind, Logged.all_bind, safe_mDevget]
      exact and_iff_left ⟨safe_deref _, Logged.all_pure _⟩
    · rw [if_neg hsmall, if_neg hsmall, safe_mDevget]

/-- The TCP branch behind the checksum. -/
theorem safe_rxTcpInput (hheader : 34 + greLen ≤ m.pktLen)
    (hcounts : 20 ≤ totalLength m greLen) :
    (rxTcpInput cfg o m greLen).All Step.LengthSafe ↔ InputFits cfg o m greLen := by
  have hlt := totalLength_lt m greLen
  have htotal : (readField16 .payload m (16 + greLen)).value = totalLength m greLen := rfl
  have htcphlen : (readTcphlen m greLen).value = tcphlen m greLen := rfl
  have hdiff : (diff 32 (totalLength m greLen) 20).value = totalLength m greLen - 20 :=
    value_diff hcounts (by omega)
  have hoffset : (readTcphlen m greLen).All Step.LengthSafe ↔ 47 + greLen ≤ m.pktLen := by
    unfold readTcphlen
    rw [Logged.all_bind, safe_readByte checked_payload]
    simp only [Logged.all_pure, and_true]
    omega
  have hfirst : (readField16 .payload m (16 + greLen)).All Step.LengthSafe :=
    (safe_readField16 checked_payload).mpr (by omega)
  have hlast (isNull : Bool) : Logged.All Step.LengthSafe
      (if isNull then pure () else do
        let _ ← readByte .innerHeader m (14 + greLen)
        pure ()) := by
    cases isNull with
    | true => exact Logged.all_pure ()
    | false =>
      refine Logged.all_bind.mpr ⟨(safe_readByte checked_innerHeader).mpr (by omega), ?_⟩
      exact Logged.all_pure ()
  unfold rxTcpInput
  rw [Logged.all_bind, and_iff_right hfirst, htotal, Logged.all_bind,
    and_iff_right (safe_diff.mpr hcounts), hdiff, Logged.all_bind, hoffset, htcphlen,
    Logged.all_bind, safe_diff, Logged.all_bind, and_iff_left (hlast _)]
  constructor
  · rintro ⟨hoffset, htcp, hdevget⟩
    rw [value_diff htcp (by omega), safe_rxDevget (by omega)] at hdevget
    exact ⟨hoffset, by omega, hdevget⟩
  · rintro ⟨hoffset, htcp, hcopied⟩
    refine ⟨hoffset, by omega, ?_⟩
    rw [value_diff (by omega) (by omega), safe_rxDevget htcp]
    exact hcopied

/-- **The TCP branch.** -/
theorem safe_rxTcp (s : RxLcore) (hheader : 34 + greLen ≤ m.pktLen) :
    (rxTcp cfg o s m greLen).All Step.LengthSafe ↔ TcpFits cfg o m greLen := by
  unfold rxTcp
  rw [Logged.all_bind, safe_verifyTcp hheader]
  constructor
  · rintro ⟨⟨hcounts, hsegment⟩, hrest⟩
    refine ⟨hcounts, hsegment, fun hmatch => ?_⟩
    rw [if_pos ((value_verifyTcp hcounts).mpr hmatch), Logged.all_bind,
      safe_rxTcpInput hheader hcounts] at hrest
    exact hrest.1
  · rintro ⟨hcounts, hsegment, haccepted⟩
    refine ⟨⟨hcounts, hsegment⟩, ?_⟩
    by_cases hmatch : (verifyTcp m greLen).value = true
    · rw [if_pos hmatch, Logged.all_bind, safe_rxTcpInput hheader hcounts]
      exact ⟨haccepted ((value_verifyTcp hcounts).mp hmatch), Logged.all_pure _⟩
    · rw [if_neg hmatch]
      exact Logged.all_pure _

/-- The end of `is_rtp_hdr` reads one byte, and a second one behind the right version. -/
theorem safe_isRtpVersion :
    (isRtpVersion m off).All Step.LengthSafe ↔
      off + 1 ≤ m.pktLen ∧ ((m.byteAt off).toNat / 64 = 2 → off + 2 ≤ m.pktLen) := by
  unfold isRtpVersion
  rw [Logged.all_bind, safe_readByte checked_rtp, value_readByte]
  by_cases hversion : (m.byteAt off).toNat / 64 = 2
  · have hlast (second : UInt8) : Logged.All Step.LengthSafe
        (if second.toNat % 128 ∉ rtpTypes then pure false
        else pure ((m.byteAt off).toNat % 16 == 0)) := by
      split <;> exact Logged.all_pure _
    rw [if_neg (not_not.mpr hversion), Logged.all_bind, safe_readByte checked_rtp,
      and_iff_left (hlast _), forall_prop_of_true hversion]
  · rw [if_pos hversion]
    simp only [Logged.all_pure, and_true, hversion, false_imp_iff]

/-- The end of `is_rtp_hdr` behind the ports: the length field, and the RTP header if there is
room for one. -/
theorem safe_rtpPayload {udpLen : ℕ} (hlt : udpLen < 2 ^ 16) :
    (do
      let udpPayloadlen ← diff 16 udpLen 8
      if udpPayloadlen < cfg.rtpHdrLen then pure false
      else isRtpVersion m off : Logged Step Bool).All Step.LengthSafe ↔
      8 ≤ udpLen ∧ (8 + cfg.rtpHdrLen ≤ udpLen →
        off + 1 ≤ m.pktLen ∧ ((m.byteAt off).toNat / 64 = 2 → off + 2 ≤ m.pktLen)) := by
  rw [Logged.all_bind, safe_diff, ← safe_isRtpVersion]
  refine and_congr_right fun hcounts => ?_
  rw [value_diff hcounts hlt]
  by_cases hroom : 8 + cfg.rtpHdrLen ≤ udpLen
  · rw [if_neg (by omega), forall_prop_of_true hroom]
  · rw [if_pos (by omega)]
    exact iff_of_true (Logged.all_pure _) fun hle => absurd hle hroom

/-- `is_rtp_hdr` behind the fields of the UDP header: the ports that RTP does not use end it. -/
theorem safe_rtpPorts {x : Logged Step Bool} :
    (if m.field16 (34 + greLen) ≤ 1024 ∨ m.field16 (36 + greLen) ≤ 1024 then pure false
      else if m.field16 (34 + greLen) = 5060 ∧ m.field16 (36 + greLen) = 5060 then pure false
      else if m.field16 (36 + greLen) % 2 ≠ 0 then pure false
      else if 200 < m.field16 (38 + greLen) then pure false
      else x : Logged Step Bool).All Step.LengthSafe ↔
      (MayBeRtp m greLen → x.All Step.LengthSafe) := by
  rw [Logged.all_guard, Logged.all_guard, Logged.all_guard, Logged.all_guard]
  constructor
  · rintro h ⟨hsport, hdport, hsip, heven, hshort⟩
    exact h (by omega) hsip (by omega) (by omega)
  · intro h hports hsip heven hshort
    exact h ⟨by omega, by omega, hsip, by omega, by omega⟩

/-- **RTP.** -/
theorem safe_isRtpHdr :
    (isRtpHdr cfg m (34 + greLen)).All Step.LengthSafe ↔ RtpFits cfg m greLen := by
  have hdport : 34 + greLen + 2 = 36 + greLen := by omega
  have hudpLen : 34 + greLen + 4 = 38 + greLen := by omega
  have hrtp : 34 + greLen + 8 = 42 + greLen := by omega
  unfold isRtpHdr
  rw [Logged.all_bind, Logged.all_bind, Logged.all_bind, safe_readField16 checked_rtp,
    safe_readField16 checked_rtp, safe_readField16 checked_rtp, value_readField16,
    value_readField16, value_readField16, hdport, hudpLen, hrtp, safe_rtpPorts,
    safe_rtpPayload (m.field16_lt _)]
  constructor
  · rintro ⟨hsportIn, hdportIn, hlenIn, hrest⟩
    refine ⟨by omega, fun hmay => (hrest hmay).1, fun hmay hroom => ?_,
      fun hmay hroom hversion => ?_⟩
    · have hfirst := ((hrest hmay).2 hroom).1
      omega
    · have hsecond := ((hrest hmay).2 hroom).2 hversion
      omega
  · rintro ⟨hheader, hcounts, hversion, htype⟩
    refine ⟨by omega, by omega, by omega, fun hmay => ⟨hcounts hmay, fun hroom => ?_⟩⟩
    have hfirst := hversion hmay hroom
    refine ⟨by omega, fun hv => ?_⟩
    have hsecond := htype hmay hroom hv
    omega

/-- **The UDP branch.** -/
theorem safe_rxUdp (s : RxLcore) :
    (rxUdp cfg portid o s m greLen).All Step.LengthSafe ↔ UdpFits cfg portid m greLen := by
  have hports : 36 + greLen + 2 ≤ m.pktLen ↔ 38 + greLen ≤ m.pktLen := by omega
  have hforward (b : Bool) : Logged.All Step.LengthSafe
      (if b then pure (s.free m.mbufs) else pure (s.l2fwdSimpleForward o m.mbufs)) := by
    split <;> exact Logged.all_pure _
  unfold rxUdp
  rw [Logged.all_bind, safe_readField16 checked_innerHeader, value_readField16, hports]
  constructor
  · rintro ⟨hports, hrest⟩
    refine ⟨hports, fun hcomp hlan hshort => ?_⟩
    rw [if_pos hcomp, if_neg hlan, if_pos hshort, Logged.all_bind, safe_isRtpHdr] at hrest
    exact hrest.1
  · rintro ⟨hports, hrtp⟩
    refine ⟨hports, ?_⟩
    split
    next hcomp =>
      split
      · split <;> exact Logged.all_pure _
      next hlan =>
        split
        next hshort =>
          rw [Logged.all_bind, safe_isRtpHdr]
          exact ⟨hrtp hcomp hlan hshort, hforward _⟩
        next => exact Logged.all_pure _
    next => exact Logged.all_pure _

theorem safe_sendEtherpkt (s : RxLcore) : (s.sendEtherpkt o).All Step.LengthSafe :=
  all_sendEtherpkt s trivial

/-- **The branches on the protocol.** -/
theorem safe_rxProto (s : RxLcore) :
    (rxProto cfg portid o s m greLen).All Step.LengthSafe ↔ ProtoFits cfg portid o m greLen := by
  unfold rxProto
  rw [Logged.all_bind, Logged.all_bind, safe_read checked_innerHeader,
    safe_readByte checked_innerHeader, value_readByte]
  constructor
  · rintro ⟨haddr, hproto, hrest⟩
    refine ⟨by omega, fun htcp => ?_, fun hudp => ?_⟩
    · rw [htcp, if_neg (by decide), if_neg (by decide), if_pos rfl,
        safe_rxTcp s (by omega)] at hrest
      exact hrest
    · rw [hudp, if_neg (by decide), if_neg (by decide), if_neg (by decide), if_pos rfl,
        safe_rxUdp] at hrest
      exact hrest
  · rintro ⟨hheader, htcp, hudp⟩
    refine ⟨by omega, by omega, ?_⟩
    split
    · exact Logged.all_bind.mpr ⟨safe_sendEtherpkt s, Logged.all_pure _⟩
    split
    · exact Logged.all_pure _
    split
    next hproto => exact (safe_rxTcp s hheader).mpr (htcp hproto)
    next =>
      split
      next hproto => exact (safe_rxUdp s).mpr (hudp hproto)
      next => exact Logged.all_pure _

/-- An inner fragment is read up to the IHL of its header. -/
theorem safe_reassembly_inner (s : RxLcore) (r : Reassembly) (hfits : 22 + greLen ≤ m.pktLen) :
    (s.reassembly .inner .innerHeader r (14 + greLen) m).All Step.LengthSafe := by
  apply all_reassembly
  · exact (safe_read checked_innerHeader).mpr (by omega)
  · exact (safe_readByte checked_innerHeader).mpr (by omega)
  · trivial

theorem safe_reassembly_outer (s : RxLcore) (r : Reassembly) :
    (s.reassembly .outer .outerHeader r 14 m).All Step.LengthSafe := by
  have houter : ¬Part.Checked .outerHeader := fun h => h.1 rfl
  apply all_reassembly
  · exact Logged.all_step.mpr (safe_unchecked houter)
  · exact Logged.all_step.mpr (safe_unchecked houter)
  · trivial

/-- **GRE.** -/
theorem safe_rxGre (s : RxLcore) :
    (rxGre cfg portid o s m greLen).All Step.LengthSafe ↔ GreFits cfg portid o s m greLen := by
  have hfield : 20 + greLen + 2 ≤ m.pktLen ↔ 22 + greLen ≤ m.pktLen := by omega
  unfold rxGre GreFits
  rw [Logged.all_bind, safe_readField16 checked_innerHeader, value_readField16, hfield]
  by_cases hfragment : isFragment (m.field16 (20 + greLen)) = true
  · rw [if_pos hfragment, if_pos hfragment]
    refine and_congr_right fun hfits => ?_
    rw [Logged.all_bind, and_iff_right (safe_reassembly_inner s o.inner hfits),
      RxLcore.reassembled]
    obtain ⟨s', whole⟩ := (s.reassembly .inner .innerHeader o.inner (14 + greLen) m).value
    cases whole with
    | none => exact iff_of_true (Logged.all_pure s') fun _ h => by cases h
    | some whole =>
      have hlen : 16 + greLen + 2 ≤ whole.pktLen ↔ 18 + greLen ≤ whole.pktLen := by omega
      dsimp only
      rw [Logged.all_bind, safe_readField16 checked_innerHeader, value_readField16,
        safe_rxProto, hlen]
      exact ⟨fun h _ hwhole => Option.some.inj hwhole ▸ h, fun h => h whole rfl⟩
  · rw [if_neg hfragment, if_neg hfragment, safe_rxProto]
    exact and_iff_right_of_imp fun h => by have := h.header; omega

/-- **Behind the outer header.** -/
theorem safe_rxInner (s : RxLcore) :
    (rxInner cfg portid o s m).All Step.LengthSafe ↔ InnerFits cfg portid o s m := by
  unfold rxInner InnerFits
  rw [Logged.all_bind, safe_readByte checked_innerHeader, value_readByte]
  by_cases hgre : m.byteAt 23 = 0x2f
  · rw [if_pos hgre, if_pos hgre, Logged.all_bind, safe_readByte checked_innerHeader,
      value_readByte, safe_rxGre]
    exact ⟨fun h => ⟨h.2.1, h.2.2⟩, fun h => ⟨by omega, by omega, h.2⟩⟩
  · rw [if_neg hgre, if_neg hgre, safe_rxProto]
    exact and_iff_right_of_imp fun h => by have := h.header; omega

/-- The reads of the outer header are not asked for. -/
theorem safe_outerField16 : (readField16 .outerHeader m off).All Step.LengthSafe :=
  Logged.all_step.mpr (safe_unchecked fun h => h.1 rfl)

/-- **An IPv4 frame.** -/
theorem safe_rxIpv4 (s : RxLcore) :
    (rxIpv4 cfg portid o s m).All Step.LengthSafe ↔
      if isFragment (m.field16 20) then
        ∀ whole, s.reassembled .outer .outerHeader o.outer 14 m = some whole →
          InnerFits cfg portid o (s.reassembly .outer .outerHeader o.outer 14 m).value.1 whole
      else ¬LengthMismatch m → InnerFits cfg portid o s m := by
  unfold rxIpv4
  rw [Logged.all_bind, and_iff_right safe_outerField16, Logged.all_bind,
    and_iff_right safe_outerField16, value_readField16, value_readField16]
  by_cases hfragment : isFragment (m.field16 20) = true
  · rw [if_pos hfragment, if_pos hfragment, Logged.all_bind,
      and_iff_right (safe_reassembly_outer s o.outer), RxLcore.reassembled]
    obtain ⟨s', whole⟩ := (s.reassembly .outer .outerHeader o.outer 14 m).value
    cases whole with
    | none => exact iff_of_true (Logged.all_pure s') fun _ h => by cases h
    | some whole =>
      dsimp only
      rw [safe_rxInner]
      exact ⟨fun h _ hwhole => Option.some.inj hwhole ▸ h, fun h => h whole rfl⟩
  · rw [if_neg hfragment, if_neg hfragment]
    by_cases hmismatch : m.pktLen ≠ m.field16 16 + 14 ∧ 46 < m.field16 16
    · rw [if_pos hmismatch]
      exact iff_of_true (Logged.all_pure _) fun h => absurd hmismatch h
    · rw [if_neg hmismatch, safe_rxInner]
      exact ⟨fun h _ => h, fun h => h hmismatch⟩

theorem safe_processArpPkt (s : RxLcore) :
    (processArpPkt cfg portid o s m).All Step.LengthSafe := by
  have harp : ¬Part.Checked .arp := fun h => h.2 rfl
  exact all_processArpPkt s (Logged.all_step.mpr (safe_unchecked harp))
    (Logged.all_step.mpr (safe_unchecked harp)) trivial

end Safe

/-- **Length safety.** While a frame is processed, every byte that is read behind the outer header
is one of the packet and no unsigned length wraps exactly when the frame fits. -/
theorem rxPacket_lengthSafe_iff (s : RxLcore) (m : RxPacket) :
    (rxPacket cfg portid o s m).All Step.LengthSafe ↔ FrameFits cfg portid o s m := by
  unfold rxPacket FrameFits
  rw [Logged.all_bind, and_iff_right (safe_deref false), Logged.all_bind,
    and_iff_right safe_outerField16, value_readField16]
  by_cases hipv4 : m.field16 12 = 0x0800
  · rw [hipv4, if_neg (by decide), if_pos rfl, safe_rxIpv4, forall_prop_of_true rfl]
  · refine iff_of_true ?_ fun h => absurd h hipv4
    split
    · exact safe_processArpPkt s
    · exact Logged.all_pure _

/-- A thread with empty tables that has taken one mbuf. -/
def oneTaken : RxLcore := ⟨fun _ => [], [], [], 1⟩

/-- A padded TCP frame whose total length is zero. -/
def zeroLengthTcp : RxPacket where
  mbufs := [0]
  data := List.replicate 12 0 ++ [8, 0, 0x45, 0, 0, 0, 0, 0, 0, 0, 64, 6] ++ List.replicate 36 0
  behind := fun _ => 0

/-- **A length below the header.** `tcprxlen` wraps. -/
theorem zeroLengthTcp_not_lengthSafe :
    ¬(rxPacket someConfig 0 noFailure oneTaken zeroLengthTcp).All Step.LengthSafe := by
  have htype : zeroLengthTcp.field16 12 = 0x0800 := by decide
  have hwhole : isFragment (zeroLengthTcp.field16 20) = false := by decide
  have hplain : zeroLengthTcp.byteAt 23 ≠ 0x2f := by decide
  intro hsafe
  rw [rxPacket, Logged.all_bind, Logged.all_bind, value_readField16, htype,
    if_neg (by decide), if_pos rfl, safe_rxIpv4, hwhole] at hsafe
  have hfits : InnerFits someConfig 0 noFailure oneTaken zeroLengthTcp :=
    hsafe.2.2 (by decide)
  rw [InnerFits, if_neg hplain] at hfits
  have hcounts : 20 ≤ totalLength zeroLengthTcp 0 := (hfits.tcp (by decide)).counts
  exact absurd hcounts (by decide)

end SecureWan.WanOptimizer.AppRx
