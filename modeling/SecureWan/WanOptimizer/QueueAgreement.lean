import SecureWan.WanOptimizer.Firewall

/-!
# The queue of a TCP flow

TCP asks `tcp_qos_queue` for the backlog of the queue that its packets will be put in by
`get_pkt_sched`. The two lookups differ in the rules with VLAN 0: only the former takes them
for packets without a tag.
-/

namespace SecureWan.WanOptimizer

/-- The bytes of a 16-bit field in network order. -/
def netBytes16 (x : BitVec 16) : Bytes := [⟨x.extractLsb' 8 8⟩, ⟨x.extractLsb' 0 8⟩]

/-- The bytes of a 32-bit field in network order. -/
def netBytes32 (x : BitVec 32) : Bytes :=
  netBytes16 (x.extractLsb' 16 16) ++ netBytes16 (x.extractLsb' 0 16)

/-- An untagged IPv4 TCP frame of a flow, with an IP header of 20 bytes. -/
structure IsFrameOf (m : Mbuf) (dscp : BitVec 8) (sip dip : BitVec 32)
    (sport dport : BitVec 16) : Prop where
  etherType : m.field16 12 = 0x0800
  versionIhl : m.byteAt 14 = 0x45
  tos : (m.byteAt 15).toBitVec &&& 0xfc = dscp &&& 0xfc
  protocol : m.byteAt 23 = 0x06
  sip : m.load 26 4 = netBytes32 sip
  dip : m.load 30 4 = netBytes32 dip
  sport : m.load 34 2 = netBytes16 sport
  dport : m.load 36 2 = netBytes16 dport

/-- The queue of a site and a traffic class. -/
def queueOf (pipe : BitVec 32 × BitVec 32) : BitVec 32 := pipe.1 * rteSchedQueuesPerPipe + pipe.2

/-- The test of `in_fwlookup_search` on the VLAN of a rule, for a frame without a tag. -/
def untagged (vlan : ℕ) : Bool := vlan == 1

/-- The test of `tcp_qos_queue`. -/
def untaggedOrAny (vlan : ℕ) : Bool := vlan == 0 || vlan == 1

/-- Where the first rule that `tcp_qos_queue` can take has VLAN 0, its queue is that of the
next rule with VLAN 1 that matches, or the default one at the site of the last rule with
matching addresses if there is none. -/
def SameQueue (fw : Firewall) (f : Fields) : Prop :=
  ∀ before r behind, fw.rules = before ++ r :: behind →
    (∀ x ∈ before, x.isMatch f untaggedOrAny = false) → r.isMatch f untaggedOrAny = true →
    r.vlan = 0 →
    (∀ r', (behind.find? fun x => x.isMatch f untagged) = some r' →
      queueOf (r.siteNum, r.tcNum) = queueOf (r'.siteNum, r'.tcNum)) ∧
    ((behind.find? fun x => x.isMatch f untagged) = none →
      ∀ r', (fw.rules.filter fun x => x.addrMatch f).getLast? = some r' →
        queueOf (r.siteNum, r.tcNum) = queueOf (r'.siteNum, fw.defaultTcPerSite))

/-! ### Fields in memory and in host order -/

section

variable {m : Mbuf} {off : ℕ}

/-- A 16-bit load of a field in network order swaps its bytes. -/
theorem loadU16_eq {x : BitVec 16} (h : m.load off 2 = netBytes16 x) : loadU16 m off = ntohs x := by
  have hbyte (i : ℕ) (hi : i < 2) : m.byteAt (off + i) = (netBytes16 x).byteAt i := by
    rw [← h, Mbuf.byteAt_load hi]
  have hfirst := hbyte 0 (by omega)
  rw [Nat.add_zero] at hfirst
  rw [loadU16, hfirst, hbyte 1 (by omega)]
  rfl

/-- A 32-bit load of a field in network order turns its bytes round. -/
theorem loadU32_eq {x : BitVec 32} (h : m.load off 4 = netBytes32 x) : loadU32 m off = ntohl x := by
  have hbyte (i : ℕ) (hi : i < 4) : m.byteAt (off + i) = (netBytes32 x).byteAt i := by
    rw [← h, Mbuf.byteAt_load hi]
  have hfirst := hbyte 0 (by omega)
  rw [Nat.add_zero] at hfirst
  rw [loadU32, loadU16, loadU16, hfirst, hbyte 1 (by omega), hbyte 2 (by omega), Nat.add_assoc,
    hbyte 3 (by omega)]
  rfl

/-- The lookups compare the rules with the same fields. -/
theorem IsFrameOf.fields {dscp : BitVec 8} {sip dip : BitVec 32} {sport dport : BitVec 16}
    (h : IsFrameOf m dscp sip dip sport dport) :
    ipv4Fields m 14 14 34 (ipv4Dscp m 14) =
      ⟨6, ntohl sip, ntohl dip, ntohs sport, ntohs dport, dscp &&& 0xfc⟩ := by
  rw [ipv4Fields, ipv4Dscp, h.tos, h.protocol, loadU32_eq h.sip, loadU32_eq h.dip,
    loadU16_eq h.sport, loadU16_eq h.dport]
  rfl

/-- `get_pkt_sched` for a frame of a flow. -/
theorem IsFrameOf.getPktSched {dscp : BitVec 8} {sip dip : BitVec 32} {sport dport : BitVec 16}
    (h : IsFrameOf m dscp sip dip sport dport) (fw : Firewall) (unset : BitVec 8) :
    ((getPktSched fw unset m).2.pipe, (getPktSched fw unset m).2.trafficClass) =
      firstMatch untagged
        ⟨6, ntohl sip, ntohl dip, ntohs sport, ntohs dport, dscp &&& 0xfc⟩
        fw.defaultTcPerSite fw.rules := by
  have hinner : innerIpv4 m = 14 := by
    rw [innerIpv4, h.protocol]
    rfl
  have hlookup : inFwlookupSearch fw unset m =
      scan untagged fw.entriesCnt.toNat (ipv4Fields m 14 14 34 (ipv4Dscp m 14)) fw.lut.zipIdx 0
        none := by
    unfold inFwlookupSearch
    simp only [h.etherType, hinner, ite_self]
    rfl
  rw [← h.fields, ← fw.pipeAndClass_scan, ← hlookup]
  rfl

end

/-! ### Two first matches -/

section

variable {fw : Firewall} {f : Fields} {r : Rule} {before behind : List Rule}

/-- The two tests differ for VLAN 0 only. -/
theorem isMatch_untagged (h : ¬ r.vlan = 0) :
    r.isMatch f untagged = r.isMatch f untaggedOrAny := by
  have hvlan : untagged r.vlan = untaggedOrAny r.vlan := by
    simp [untagged, untaggedOrAny, h]
  rw [Rule.isMatch, Rule.isMatch, Rule.protoMatch, Rule.protoMatch, hvlan]

theorem not_isMatch_untagged (h : r.vlan = 0) : r.isMatch f untagged = false := by
  simp [Rule.isMatch, Rule.protoMatch, untagged, h]

theorem not_isMatch_of_or (h : r.isMatch f untaggedOrAny = false) :
    r.isMatch f untagged = false := by
  by_cases hvlan : r.vlan = 0
  · exact not_isMatch_untagged hvlan
  · rw [isMatch_untagged hvlan, h]

theorem addrMatch_of_isMatch {vlanOk : ℕ → Bool} (h : r.isMatch f vlanOk = true) :
    r.addrMatch f = true := by
  simp only [Rule.isMatch, Rule.l4Match, Bool.and_eq_true] at h
  exact h.1.2.1.1

theorem find?_behind {p : Rule → Bool} (hbefore : ∀ x ∈ before, p x = false) :
    (before ++ r :: behind).find? p = (r :: behind).find? p := by
  have hnone : before.find? p = none := by
    rw [List.find?_eq_none]
    intro x hx
    rw [hbefore x hx]
    exact Bool.false_ne_true
  rw [List.find?_append, hnone, Option.none_or]

/-- Where the first rule that `tcp_qos_queue` can take has VLAN 0, the queues are the same
exactly when those two rules have the same queue. -/
theorem sameQueue_at (hsplit : fw.rules = before ++ r :: behind)
    (hbefore : ∀ x ∈ before, x.isMatch f untaggedOrAny = false)
    (hmatch : r.isMatch f untaggedOrAny = true) (hvlan : r.vlan = 0) :
    queueOf (firstMatch untaggedOrAny f fw.defaultTcPerSite fw.rules) =
        queueOf (firstMatch untagged f fw.defaultTcPerSite fw.rules) ↔
      (∀ r', (behind.find? fun x => x.isMatch f untagged) = some r' →
        queueOf (r.siteNum, r.tcNum) = queueOf (r'.siteNum, r'.tcNum)) ∧
      ((behind.find? fun x => x.isMatch f untagged) = none →
        ∀ r', (fw.rules.filter fun x => x.addrMatch f).getLast? = some r' →
          queueOf (r.siteNum, r.tcNum) = queueOf (r'.siteNum, fw.defaultTcPerSite)) := by
  have htcp : (fw.rules.find? fun x => x.isMatch f untaggedOrAny) = some r := by
    rw [hsplit, find?_behind hbefore, List.find?_cons, hmatch]
  have hsched : (fw.rules.find? fun x => x.isMatch f untagged) =
      behind.find? fun x => x.isMatch f untagged := by
    rw [hsplit, find?_behind fun x hx => not_isMatch_of_or (hbefore x hx), List.find?_cons,
      not_isMatch_untagged hvlan]
  have hnear : (fw.rules.filter fun x => x.addrMatch f) ≠ [] := by
    apply List.ne_nil_of_mem (a := r)
    rw [List.mem_filter, hsplit]
    exact ⟨by simp, addrMatch_of_isMatch hmatch⟩
  rw [firstMatch, htcp, firstMatch, hsched]
  cases hnext : behind.find? fun x => x.isMatch f untagged with
  | some r' => simp
  | none =>
    obtain ⟨last, hlast⟩ : ∃ last, (fw.rules.filter fun x => x.addrMatch f).getLast? =
        some last := ⟨_, List.getLast?_eq_some_getLast hnear⟩
    rw [hlast]
    constructor
    · intro heq
      refine ⟨fun r' hr' => (by cases hr'), fun _ r' hr' => ?_⟩
      obtain rfl := Option.some.inj hr'
      exact heq
    · intro h
      exact h.2 rfl last rfl

/-- Otherwise they are the same. -/
theorem sameQueue_of_vlan
    (h : ∀ before r behind, fw.rules = before ++ r :: behind →
      (∀ x ∈ before, x.isMatch f untaggedOrAny = false) → r.isMatch f untaggedOrAny = true →
      ¬ r.vlan = 0) :
    firstMatch untaggedOrAny f fw.defaultTcPerSite fw.rules =
      firstMatch untagged f fw.defaultTcPerSite fw.rules := by
  have hfind : (fw.rules.find? fun x => x.isMatch f untaggedOrAny) =
      fw.rules.find? fun x => x.isMatch f untagged := by
    cases hmatch : fw.rules.find? fun x => x.isMatch f untaggedOrAny with
    | none =>
      symm
      rw [List.find?_eq_none] at hmatch ⊢
      intro x hx
      rw [not_isMatch_of_or (Bool.not_eq_true _ ▸ hmatch x hx)]
      exact Bool.false_ne_true
    | some r =>
      obtain ⟨hr, before, behind, hsplit, hbefore⟩ := List.find?_eq_some_iff_append.mp hmatch
      have hno : ∀ x ∈ before, x.isMatch f untaggedOrAny = false := by
        intro x hx
        simpa using hbefore x hx
      have hvlan := h before r behind hsplit hno hr
      rw [hsplit, find?_behind fun x hx => not_isMatch_of_or (hno x hx), List.find?_cons,
        isMatch_untagged hvlan, hr]
  rw [firstMatch, firstMatch, hfind]

/-- The queues are the same for exactly the tables that treat VLAN 0 alike. -/
theorem sameQueue_iff (fw : Firewall) (f : Fields) :
    queueOf (firstMatch untaggedOrAny f fw.defaultTcPerSite fw.rules) =
        queueOf (firstMatch untagged f fw.defaultTcPerSite fw.rules) ↔ SameQueue fw f := by
  constructor
  · intro heq before r behind hsplit hbefore hmatch hvlan
    exact (sameQueue_at hsplit hbefore hmatch hvlan).mp heq
  · intro h
    by_cases hex : ∃ before r behind, fw.rules = before ++ r :: behind ∧
        (∀ x ∈ before, x.isMatch f untaggedOrAny = false) ∧
        r.isMatch f untaggedOrAny = true ∧ r.vlan = 0
    · obtain ⟨before, r, behind, hsplit, hbefore, hmatch, hvlan⟩ := hex
      exact (sameQueue_at hsplit hbefore hmatch hvlan).mpr
        (h before r behind hsplit hbefore hmatch hvlan)
    · rw [sameQueue_of_vlan]
      intro before r behind hsplit hbefore hmatch hvlan
      exact hex ⟨before, r, behind, hsplit, hbefore, hmatch, hvlan⟩

end

/-- **The queue of a TCP flow.** For a frame of a flow, `tcp_qos_queue` gives the queue of the
pipe and the traffic class of `get_pkt_sched` exactly when the rules with VLAN 0 make no
difference. -/
theorem tcpQosQueue_eq_iff (fw : Firewall) (unset : BitVec 8) {m : Mbuf} {dscp : BitVec 8}
    {sip dip : BitVec 32} {sport dport : BitVec 16} (h : IsFrameOf m dscp sip dip sport dport) :
    (tcpQosQueue fw dscp sip dip sport dport 6).1 =
        (getPktSched fw unset m).2.pipe * rteSchedQueuesPerPipe +
          (getPktSched fw unset m).2.trafficClass ↔
      SameQueue fw ⟨6, ntohl sip, ntohl dip, ntohs sport, ntohs dport, dscp &&& 0xfc⟩ := by
  rw [← sameQueue_iff, ← h.getPktSched fw unset, ← fw.pipeAndClass_scan]
  rfl

/-- A frame of the flow from port 1000 of 10.0.0.1 to port 80 of 10.0.0.2. -/
def flowFrame : Mbuf where
  headroom := []
  data := List.replicate 12 0 ++ [8, 0, 0x45, 0, 0, 40, 0, 0, 0, 0, 64, 6, 0, 0] ++
    [10, 0, 0, 1, 10, 0, 0, 2, 3, 232, 0, 80] ++ List.replicate 16 0
  tailroom := []
  bufLen_lt := by decide

theorem isFrameOf_flowFrame : IsFrameOf flowFrame 0 0x0a000001 0x0a000002 1000 80 :=
  ⟨rfl, rfl, rfl, rfl, rfl, rfl, rfl, rfl⟩

/-- An enabled rule for all packets with a VLAN. -/
def anyRule (vlan : ℕ) (siteNum : BitVec 32) : Rule where
  enbl := 1
  vlan := vlan
  proto := 0
  srcIP := 0
  srcMask := 0
  dstIP := 0
  dstMask := 0
  srcPort := 0
  dstPort := 0
  dscpIn := 0
  permission := 1
  siteNum := siteNum
  tcNum := 1
  rateConfigured := 0

/-- A table in which the rule for VLAN 0 comes first. -/
def vlanZeroFirst : Firewall := ⟨[anyRule 0 2, anyRule 1 3], 2, 0, 12⟩

/-- The frame of the flow with this table. -/
theorem tcpQosQueue_eq_iff_flowFrame :
    (tcpQosQueue vlanZeroFirst 0 0x0a000001 0x0a000002 1000 80 6).1 =
        (getPktSched vlanZeroFirst 0 flowFrame).2.pipe * rteSchedQueuesPerPipe +
          (getPktSched vlanZeroFirst 0 flowFrame).2.trafficClass ↔
      SameQueue vlanZeroFirst
        ⟨6, ntohl 0x0a000001, ntohl 0x0a000002, ntohs 1000, ntohs 80, 0 &&& 0xfc⟩ :=
  tcpQosQueue_eq_iff vlanZeroFirst 0 isFrameOf_flowFrame

/-- TCP looks at the queue of site 2, and its packets go to that of site 3. -/
theorem vlanZeroFirst_differs : IsFrameOf flowFrame 0 0x0a000001 0x0a000002 1000 80 ∧
    (tcpQosQueue vlanZeroFirst 0 0x0a000001 0x0a000002 1000 80 6).1 ≠
      (getPktSched vlanZeroFirst 0 flowFrame).2.pipe * rteSchedQueuesPerPipe +
        (getPktSched vlanZeroFirst 0 flowFrame).2.trafficClass :=
  ⟨isFrameOf_flowFrame, by decide⟩

end SecureWan.WanOptimizer
