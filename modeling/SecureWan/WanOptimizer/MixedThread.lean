import SecureWan.WanOptimizer.Firewall

/-!
# The frames toward the scheduler

`app_mixed_thread` takes a burst of frames from a ring, frees some of them and gives the
others to the scheduler. Toward the WAN a frame is looked up in the firewall table, unless it
is a packet of the tunnel, whose scheduler fields have been written before.
-/

namespace SecureWan.WanOptimizer

/-- A frame on the ring, with `hash.sched.queue_id`. -/
structure Packet where
  mbuf : Mbuf
  queueId : BitVec 32

/-- What the thread uses for one ring; `pktWrite` is the queue that `rte_sched_port_pkt_write`
writes. -/
structure MixedConf where
  fw : Firewall
  txPort : ℕ
  schedMaxQueueIndex : BitVec 32
  pktWrite : Sched → BitVec 32

/-! ### The checksums of a TCP packet -/

/-- `while(sum>>16) sum = (sum & 0xFFFF) + (sum >> 16)`. -/
def foldSum (sum : ℕ) : ℕ :=
  if sum < 2 ^ 16 then sum else foldSum (sum % 2 ^ 16 + sum / 2 ^ 16)
termination_by sum
decreasing_by omega

/-- The complement of a sum, as a field. -/
def complement (sum : ℕ) : Bytes := be16 (2 ^ 16 - 1 - foldSum sum)

/-- The sum over an IPv4 header behind some more bytes, but for its checksum. -/
def ipHeaderSum (m : Mbuf) (greLen : ℕ) : ℕ :=
  ([14, 16, 18, 20, 22, 26, 28, 30, 32].map fun off => m.field16 (off + greLen)).sum

/-- The sum over a TCP segment and its pseudo header; `sum` has 64 bits. -/
def tcpSum (m : Mbuf) (greLen : ℕ) : ℕ :=
  let innerIplen := m.field16 (greLen + 16)
  let tcplen := (innerIplen + 2 ^ 16 - 20) % 2 ^ 16
  let words := ((List.range (tcplen / 2)).map fun i => m.field16 (2 * i + 34 + greLen)).sum
  let odd := if tcplen % 2 = 1 then (m.byteAt (tcplen + 33 + greLen)).toNat * 2 ^ 8 else 0
  let addresses := ([26, 28, 30, 32].map fun off => m.field16 (off + greLen)).sum
  (words + odd + addresses + (m.byteAt (23 + greLen)).toNat + innerIplen + 2 ^ 64 - 20) % 2 ^ 64

/-- `gre_len` of `calculate_tcp_checksum`: the GRE header and the inner IPv4 header. -/
def greAndIpLen (m : Mbuf) : ℕ := if m.byteAt 23 = 0x2f then greLen m + 20 else 0

/-- `calculate_tcp_checksum`. -/
def calculateTcpChecksum (m : Mbuf) : Mbuf :=
  let greLen := greAndIpLen m
  let m₁ := m.store 24 (complement (ipHeaderSum m 0))
  let m₂ := if greLen = 0 then m₁ else m₁.store (24 + greLen) (complement (ipHeaderSum m₁ greLen))
  let m₃ := m₂.store (50 + greLen) [0, 0]
  m₃.store (50 + greLen) (complement (tcpSum m₃ greLen))

/-! ### One frame -/

/-- What the header of a frame decides. -/
inductive Verdict
  | free
  | profileUpdate
  | go (m : Mbuf) (getPktSchedWritten : Bool)

/-- The protocol of the inner IPv4 header. -/
def innerProto (m : Mbuf) : UInt8 := m.byteAt (innerIpv4 m + 9)

/-- `dst_port`. -/
def dstPort (m : Mbuf) : ℕ := m.field16 (innerIpv4 m + 22)

/-- The tests on the header. -/
def checkHeader (m : Mbuf) : Verdict :=
  if m.field16 12 = 0x0800 then
    let ipLen := m.field16 16
    if 1518 < m.pktLen ∨ (m.pktLen ≠ ipLen + 14 ∧ 46 < ipLen) then .free
    else if innerProto m = 0x11 then
      if dstPort m = 6001 then .profileUpdate
      else .go m (dstPort m == 1194)
    else if innerProto m = 0x06 then .go (calculateTcpChecksum m) false
    else .go m false
  else if 1518 < m.pktLen then .free
  else .go m false

/-- The lookup and the scheduler fields of a frame to port 1: the frame to keep, if it is not
freed. -/
def schedule (conf : MixedConf) (unset : BitVec 8) (p : Packet) (getPktSchedWritten : Bool) :
    Option Packet :=
  if conf.txPort = 1 then
    let written : Option Packet :=
      if getPktSchedWritten then some p
      else
        let sched := getPktSched conf.fw unset p.mbuf
        match sched.1 with
        | some index =>
          if (conf.fw.rule index).permission = 0 then none
          else some { p with queueId := conf.pktWrite sched.2 }
        | none => some { p with queueId := conf.pktWrite sched.2 }
    written.filter fun p => !conf.schedMaxQueueIndex.ult p.queueId
  else some p

/-- `mbufs_valid`, with the places of the frames in the burst, and `profile_change`. -/
structure Burst where
  mbufsValid : List (ℕ × Packet)
  profileChange : Bool

/-- An iteration of the loop over a burst. -/
def mixedFrame (conf : MixedConf) (unset : ℕ → BitVec 8) (s : Burst) (y : Packet × ℕ) : Burst :=
  match checkHeader y.1.mbuf with
  | .free => s
  | .profileUpdate => { s with profileChange := true }
  | .go m getPktSchedWritten =>
    match schedule conf (unset y.2) { y.1 with mbuf := m } getPktSchedWritten with
    | some p => { s with mbufsValid := s.mbufsValid ++ [(y.2, p)] }
    | none => s

/-- The loop over a burst. -/
def mixedBurst (conf : MixedConf) (unset : ℕ → BitVec 8) (mbufs : List Packet) : Burst :=
  mbufs.zipIdx.foldl (mixedFrame conf unset) ⟨[], false⟩

/-- An IPv4 frame with UDP to port 1194, taken for a packet of the tunnel. -/
def IsTunnel (m : Mbuf) : Prop :=
  m.field16 12 = 0x0800 ∧ innerProto m = 0x11 ∧ dstPort m = 1194

/-- The lookup on a frame returns a rule that denies it. -/
def Denied (fw : Firewall) (unset : BitVec 8) (m : Mbuf) : Prop :=
  ∃ index, (inFwlookupSearch fw unset m).1 = some index ∧ (fw.rule index).permission = 0

/-! ### The checksums do not matter for the lookup -/

/-- A byte that the checksums leave alone. -/
theorem byteAt_calculateTcpChecksum {m : Mbuf} {k : ℕ} (hip : k < 24 ∨ 26 ≤ k)
    (hinner : greAndIpLen m ≠ 0 → k < 24 + greAndIpLen m ∨ 26 + greAndIpLen m ≤ k)
    (htcp : k < 50 + greAndIpLen m ∨ 52 + greAndIpLen m ≤ k) :
    (calculateTcpChecksum m).byteAt k = m.byteAt k := by
  have hlen (sum : ℕ) : (complement sum).length = 2 := rfl
  unfold calculateTcpChecksum
  rw [Mbuf.byteAt_store_outside (by rw [hlen]; omega),
    Mbuf.byteAt_store_outside (by rw [List.length_cons, List.length_singleton]; omega)]
  split
  · exact Mbuf.byteAt_store_outside (by rw [hlen]; omega)
  next hgre =>
    have houtside := hinner hgre
    rw [Mbuf.byteAt_store_outside (by rw [hlen]; omega),
      Mbuf.byteAt_store_outside (by rw [hlen]; omega)]

section

variable {m m' : Mbuf}

theorem loadU16_congr {off : ℕ} (h : ∀ i < 2, m'.byteAt (off + i) = m.byteAt (off + i)) :
    loadU16 m' off = loadU16 m off := by
  have hfirst : m'.byteAt off = m.byteAt off := h 0 (by omega)
  rw [loadU16, hfirst, h 1 (by omega), loadU16]

theorem loadU32_congr {off : ℕ} (h : ∀ i < 4, m'.byteAt (off + i) = m.byteAt (off + i)) :
    loadU32 m' off = loadU32 m off := by
  have hlow : loadU16 m' off = loadU16 m off := loadU16_congr fun i hi => h i (by omega)
  have hhigh : loadU16 m' (off + 2) = loadU16 m (off + 2) := by
    apply loadU16_congr
    intro i hi
    rw [Nat.add_assoc]
    exact h (2 + i) (by omega)
  rw [loadU32, hlow, hhigh, loadU32]

theorem ipv4Fields_congr {addrs proto ports : ℕ} (dscp : BitVec 8)
    (haddrs : ∀ i < 8, m'.byteAt (addrs + 12 + i) = m.byteAt (addrs + 12 + i))
    (hproto : m'.byteAt (proto + 9) = m.byteAt (proto + 9))
    (hports : ∀ i < 4, m'.byteAt (ports + i) = m.byteAt (ports + i)) :
    ipv4Fields m' addrs proto ports dscp = ipv4Fields m addrs proto ports dscp := by
  have hsrc : loadU32 m' (addrs + 12) = loadU32 m (addrs + 12) :=
    loadU32_congr fun i hi => haddrs i (by omega)
  have hdst : loadU32 m' (addrs + 16) = loadU32 m (addrs + 16) := by
    apply loadU32_congr
    intro i hi
    have hbyte := haddrs (4 + i) (by omega)
    rwa [← Nat.add_assoc] at hbyte
  have hsport : loadU16 m' ports = loadU16 m ports :=
    loadU16_congr fun i hi => hports i (by omega)
  have hdport : loadU16 m' (ports + 2) = loadU16 m (ports + 2) := by
    apply loadU16_congr
    intro i hi
    rw [Nat.add_assoc]
    exact hports (2 + i) (by omega)
  rw [ipv4Fields, hsrc, hdst, hsport, hdport, hproto, ipv4Fields]

theorem innerIpv4_eq (m : Mbuf) : innerIpv4 m = 14 + greAndIpLen m := by
  unfold innerIpv4 greAndIpLen
  split <;> omega

/-- A GRE header and an inner IPv4 header have 24 bytes at least. -/
theorem greAndIpLen_cases (m : Mbuf) : greAndIpLen m = 0 ∨ 24 ≤ greAndIpLen m := by
  unfold greAndIpLen greLen
  split <;> omega

/-- The checksums leave the outer headers alone. -/
theorem byteAt_outer {k : ℕ} (hk : k < 24 ∨ 26 ≤ k) (hlt : k < 48) :
    (calculateTcpChecksum m).byteAt k = m.byteAt k := by
  have hlen := greAndIpLen_cases m
  apply byteAt_calculateTcpChecksum hk <;> omega

/-- The checksums leave the inner headers alone. -/
theorem byteAt_inner {k : ℕ} (hk : k < 10 ∨ 12 ≤ k) (hlt : k < 36) :
    (calculateTcpChecksum m).byteAt (innerIpv4 m + k) = m.byteAt (innerIpv4 m + k) := by
  have hlen := greAndIpLen_cases m
  rw [innerIpv4_eq]
  apply byteAt_calculateTcpChecksum <;> omega

/-- **The checksums do not matter for the lookup.** -/
theorem inFwlookupSearch_calculateTcpChecksum (fw : Firewall) (unset : BitVec 8)
    (htype : m.field16 12 = 0x0800) :
    inFwlookupSearch fw unset (calculateTcpChecksum m) = inFwlookupSearch fw unset m := by
  have htype' : (calculateTcpChecksum m).field16 12 = 0x0800 := by
    rw [Mbuf.field16_eq, byteAt_outer (by omega) (by omega), byteAt_outer (by omega) (by omega),
      ← Mbuf.field16_eq, htype]
  have hgre : greLen (calculateTcpChecksum m) = greLen m := by
    rw [greLen, byteAt_outer (by omega) (by omega), greLen]
  have hinner : innerIpv4 (calculateTcpChecksum m) = innerIpv4 m := by
    rw [innerIpv4, byteAt_outer (by omega) (by omega), hgre, innerIpv4]
  have hdscp : ipv4Dscp (calculateTcpChecksum m) (innerIpv4 m) = ipv4Dscp m (innerIpv4 m) := by
    rw [ipv4Dscp, byteAt_inner (by omega) (by omega), ipv4Dscp]
  have hdscp' : ipv4Dscp (calculateTcpChecksum m) 14 = ipv4Dscp m 14 := by
    rw [ipv4Dscp, byteAt_outer (by omega) (by omega), ipv4Dscp]
  have hports : ∀ i < 4, (calculateTcpChecksum m).byteAt (innerIpv4 m + 20 + i) =
      m.byteAt (innerIpv4 m + 20 + i) := by
    intro i hi
    rw [Nat.add_assoc]
    exact byteAt_inner (by omega) (by omega)
  have haddrs : ∀ i < 8, (calculateTcpChecksum m).byteAt (innerIpv4 m + 12 + i) =
      m.byteAt (innerIpv4 m + 12 + i) := by
    intro i hi
    rw [Nat.add_assoc]
    exact byteAt_inner (by omega) (by omega)
  have houter : ∀ i < 8, (calculateTcpChecksum m).byteAt (14 + 12 + i) =
      m.byteAt (14 + 12 + i) := by
    intro i hi
    exact byteAt_outer (by omega) (by omega)
  have hproto : (calculateTcpChecksum m).byteAt (innerIpv4 m + 9) = m.byteAt (innerIpv4 m + 9) :=
    byteAt_inner (by omega) (by omega)
  have hproto' : (calculateTcpChecksum m).byteAt (14 + 9) = m.byteAt (14 + 9) :=
    byteAt_outer (by omega) (by omega)
  unfold inFwlookupSearch
  simp only [htype, htype', hinner, hdscp, hdscp', ipv4Fields_congr _ haddrs hproto hports,
    ipv4Fields_congr _ houter hproto hports, ipv4Fields_congr _ houter hproto' hports,
    Nat.reduceEqDiff, reduceIte]

end

/-! ### Denied frames -/

section

variable {conf : MixedConf} {unset : BitVec 8} {m : Mbuf}

/-- The tests on the header let a frame pass as it is for the lookup, and skip the lookup for
packets of the tunnel only. -/
theorem checkHeader_go {m' : Mbuf} {getPktSchedWritten : Bool}
    (h : checkHeader m = .go m' getPktSchedWritten) (htunnel : ¬ IsTunnel m) :
    getPktSchedWritten = false ∧
      ∀ fw unset, inFwlookupSearch fw unset m' = inFwlookupSearch fw unset m := by
  unfold checkHeader at h
  by_cases htype : m.field16 12 = 0x0800
  · rw [if_pos htype] at h
    dsimp only at h
    split at h
    · cases h
    · split at h
      next hudp =>
        split at h
        · cases h
        · cases h
          refine ⟨?_, fun _ _ => rfl⟩
          rw [beq_eq_false_iff_ne]
          exact fun hport => htunnel ⟨htype, hudp, hport⟩
      next =>
        split at h
        · cases h
          exact ⟨rfl, fun fw unset => inFwlookupSearch_calculateTcpChecksum fw unset htype⟩
        · cases h
          exact ⟨rfl, fun _ _ => rfl⟩
  · rw [if_neg htype] at h
    split at h
    · cases h
    · cases h
      exact ⟨rfl, fun _ _ => rfl⟩

/-- A denied frame to port 1 is freed. -/
theorem schedule_of_denied {p : Packet} (hport : conf.txPort = 1)
    (hdenied : Denied conf.fw unset p.mbuf) : schedule conf unset p false = none := by
  obtain ⟨index, hindex, hpermission⟩ := hdenied
  have hsched : (getPktSched conf.fw unset p.mbuf).1 = some index := hindex
  simp [schedule, hport, hsched, hpermission]

/-- **One frame.** A frame that is denied and no packet of the tunnel is not added. -/
theorem mixedFrame_of_denied {unset : ℕ → BitVec 8} {y : Packet × ℕ} (hport : conf.txPort = 1)
    (hdenied : Denied conf.fw (unset y.2) y.1.mbuf) (htunnel : ¬ IsTunnel y.1.mbuf) (s : Burst) :
    (mixedFrame conf unset s y).mbufsValid = s.mbufsValid := by
  unfold mixedFrame
  cases hheader : checkHeader y.1.mbuf with
  | free => rfl
  | profileUpdate => rfl
  | go m' getPktSchedWritten =>
    obtain ⟨rfl, hlookup⟩ := checkHeader_go hheader htunnel
    have hdenied' : Denied conf.fw (unset y.2) m' := by
      obtain ⟨index, hindex, hpermission⟩ := hdenied
      exact ⟨index, by rw [hlookup, hindex], hpermission⟩
    have hnone : schedule conf (unset y.2) ⟨m', y.1.queueId⟩ false = none :=
      schedule_of_denied hport hdenied'
    simp only [hnone]

/-- Each iteration adds its own frame at most. -/
theorem mem_mixedFrame {unset : ℕ → BitVec 8} {s : Burst} {y : Packet × ℕ} {z : ℕ × Packet}
    (hz : z ∈ (mixedFrame conf unset s y).mbufsValid) : z ∈ s.mbufsValid ∨ z.1 = y.2 := by
  unfold mixedFrame at hz
  split at hz
  · exact .inl hz
  · exact .inl hz
  · split at hz
    · rcases List.mem_append.mp hz with hold | hnew
      · exact .inl hold
      · exact .inr (by rw [List.mem_singleton.mp hnew])
    · exact .inl hz

/-- **A burst.** No frame is valid that is denied and no packet of the tunnel. -/
theorem mixedBurst_of_denied (conf : MixedConf) (hport : conf.txPort = 1)
    (unset : ℕ → BitVec 8) (mbufs : List Packet) {i : ℕ} {p : Packet} (hp : mbufs[i]? = some p)
    (hdenied : Denied conf.fw (unset i) p.mbuf) (htunnel : ¬ IsTunnel p.mbuf) :
    ∀ z ∈ (mixedBurst conf unset mbufs).mbufsValid, z.1 ≠ i := by
  have hrun (l : List (Packet × ℕ)) (s : Burst) (hl : ∀ y ∈ l, y.2 = i → y.1 = p)
      (hs : ∀ z ∈ s.mbufsValid, z.1 ≠ i) :
      ∀ z ∈ (l.foldl (mixedFrame conf unset) s).mbufsValid, z.1 ≠ i := by
    induction l generalizing s with
    | nil => exact hs
    | cons y l ih =>
      obtain ⟨hy, hl⟩ := List.forall_mem_cons.mp hl
      apply ih _ hl
      by_cases hi : y.2 = i
      · rw [mixedFrame_of_denied hport (by rwa [hi, hy hi]) (by rwa [hy hi])]
        exact hs
      · intro z hz
        rcases mem_mixedFrame hz with hold | hnew
        · exact hs z hold
        · rwa [hnew]
  apply hrun
  · intro y hy hi
    have hget := List.mem_zipIdx_iff_getElem?.mp hy
    rw [hi, hp] at hget
    exact (Option.some.inj hget).symm
  · intro z hz
    cases hz

/-- A UDP frame of 60 bytes. -/
def udpFrame (port : BitVec 16) : Packet where
  mbuf :=
    { headroom := []
      data := List.replicate 12 0 ++ [8, 0, 0x45, 0, 0, 46, 0, 0, 0, 0, 64, 17, 0, 0] ++
        [10, 0, 0, 1, 10, 0, 0, 2, 3, 232] ++ be16 port.toNat ++ List.replicate 22 0
      tailroom := []
      bufLen_lt := by simp }
  queueId := 0

/-- Port 1, with a rule that denies everything. -/
def denyAll : MixedConf where
  fw := ⟨[⟨1, 1, 0, 0, 0, 0, 0, 0, 0, 0, 0, 1, 1, 0⟩], 1, 0, 12⟩
  txPort := 1
  schedMaxQueueIndex := 31
  pktWrite := fun _ => 17

/-- A denied frame to another port. -/
theorem mixedBurst_of_denied_udp : Denied denyAll.fw 0 (udpFrame 80).mbuf ∧
    ∀ z ∈ (mixedBurst denyAll (fun _ => 0) [udpFrame 80]).mbufsValid, z.1 ≠ 0 := by
  have hdenied : Denied denyAll.fw 0 (udpFrame 80).mbuf := ⟨0, by decide, rfl⟩
  have htunnel : ¬IsTunnel (udpFrame 80).mbuf := fun h => absurd h.2.2 (by decide)
  exact ⟨hdenied, mixedBurst_of_denied denyAll rfl (fun _ => 0) [udpFrame 80] rfl hdenied htunnel⟩

/-- A denied frame to port 1194 is valid. -/
theorem denied_tunnelPort : Denied denyAll.fw 0 (udpFrame 1194).mbuf ∧
    (0, udpFrame 1194) ∈ (mixedBurst denyAll (fun _ => 0) [udpFrame 1194]).mbufsValid := by
  refine ⟨⟨0, by decide, rfl⟩, ?_⟩
  have hvalid : (mixedBurst denyAll (fun _ => 0) [udpFrame 1194]).mbufsValid =
      [(0, udpFrame 1194)] := rfl
  rw [hvalid]
  exact List.mem_singleton_self _

end

end SecureWan.WanOptimizer
