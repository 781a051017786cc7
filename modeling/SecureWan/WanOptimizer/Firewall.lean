import SecureWan.Mbuf
import Mathlib.Data.List.Basic
import Mathlib.Data.List.Find

/-!
# Rule lookup of the WAN optimizer

`app_thread (1).c` looks up the first rule of the firewall table that a packet matches. The
rules with addresses that match on the way decide on the site of a packet that matches no
rule. `in_fwlookup_search` does it for a frame, `tcp_qos_queue` for the fields of a flow.
-/

namespace SecureWan.WanOptimizer

/-- An entry of `firewall_lut`. Fields that are only tested for equality have no width here. -/
structure Rule where
  enbl : ℕ
  vlan : ℕ
  proto : ℕ
  srcIP : BitVec 32
  srcMask : BitVec 32
  dstIP : BitVec 32
  dstMask : BitVec 32
  srcPort : ℕ
  dstPort : ℕ
  dscpIn : ℕ
  permission : ℕ
  siteNum : BitVec 32
  tcNum : BitVec 32
  rateConfigured : BitVec 32
deriving Inhabited

/-- The firewall table with the settings that the lookups use. -/
structure Firewall where
  lut : List Rule
  entriesCnt : BitVec 16
  useGreHdrForQos : ℕ
  defaultTcPerSite : BitVec 32

/-- `firewall_lut[i]`. -/
def Firewall.rule (fw : Firewall) (i : ℕ) : Rule := fw.lut.getD i default

/-- What rules are compared with; addresses and ports as they are in memory. -/
structure Fields where
  protoId : BitVec 8
  srcIP : BitVec 32
  dstIP : BitVec 32
  srcPort : BitVec 16
  dstPort : BitVec 16
  dscp : BitVec 8

namespace Rule

variable (r : Rule) (f : Fields)

/-- The addresses match, which makes the rule the one of `site_index`. -/
def addrMatch : Bool :=
  (r.srcIP &&& r.srcMask == f.srcIP &&& r.srcMask || r.srcIP == 0) &&
    (r.dstIP &&& r.dstMask == f.dstIP &&& r.dstMask || r.dstIP == 0)

/-- `l4_match`. -/
def l4Match : Bool :=
  r.addrMatch f && (r.srcPort == f.srcPort.toNat || r.srcPort == 0) &&
    (r.dstPort == f.dstPort.toNat || r.dstPort == 0)

/-- `dscp_match`. -/
def dscpMatch : Bool := r.l4Match f && (r.dscpIn == f.dscp.toNat || r.dscpIn == 0)

/-- `proto_match`, with the test that a lookup makes on the VLAN of a rule. -/
def protoMatch (vlanOk : ℕ → Bool) : Bool :=
  vlanOk r.vlan && (r.proto == f.protoId.toNat || r.proto == 0)

/-- The rule matches. -/
def isMatch (vlanOk : ℕ → Bool) : Bool := r.protoMatch f vlanOk && r.l4Match f && r.dscpMatch f

end Rule

/-- The loop over the table, from an entry on: `index` and `site_index` at its end. -/
def scan (vlanOk : ℕ → Bool) (entriesCnt : ℕ) (f : Fields) :
    List (Rule × ℕ) → (totalNum : ℕ) → (siteIndex : Option ℕ) → Option ℕ × Option ℕ
  | [], _, siteIndex => (none, siteIndex)
  | (r, i) :: lut, totalNum, siteIndex =>
    if r.enbl = 0 then scan vlanOk entriesCnt f lut totalNum siteIndex
    else
      let siteIndex := if r.addrMatch f then some i else siteIndex
      if r.isMatch f vlanOk then (some i, siteIndex)
      else if entriesCnt ≤ totalNum + 1 then (none, siteIndex)
      else scan vlanOk entriesCnt f lut (totalNum + 1) siteIndex

/-- A 16-bit load of the host. -/
def loadU16 (m : Mbuf) (off : ℕ) : BitVec 16 :=
  (m.byteAt (off + 1)).toBitVec ++ (m.byteAt off).toBitVec

/-- A 32-bit load of the host. -/
def loadU32 (m : Mbuf) (off : ℕ) : BitVec 32 := loadU16 m (off + 2) ++ loadU16 m off

/-- The length of the GRE header behind an IPv4 header at offset 14. -/
def greLen (m : Mbuf) : ℕ :=
  4 + (if (m.byteAt 34).toBitVec.getLsbD 7 then 4 else 0) +
    (if (m.byteAt 34).toBitVec.getLsbD 5 then 4 else 0) +
    (if (m.byteAt 34).toBitVec.getLsbD 4 then 4 else 0)

/-- The offset of the inner IPv4 header: that of the only one unless the frame is GRE. -/
def innerIpv4 (m : Mbuf) : ℕ := if m.byteAt 23 = 0x2f then 34 + greLen m else 14

/-- The DSCP of the IPv4 header at an offset. -/
def ipv4Dscp (m : Mbuf) (off : ℕ) : BitVec 8 := (m.byteAt (off + 1)).toBitVec &&& 0xfc

/-- The fields of a frame with an IPv4 header at each of the two offsets: the second one has
the protocol, the first one the addresses and the DSCP; and with the ports at the third. -/
def ipv4Fields (m : Mbuf) (addrs proto ports : ℕ) (dscp : BitVec 8) : Fields where
  protoId := (m.byteAt (proto + 9)).toBitVec
  srcIP := loadU32 m (addrs + 12)
  dstIP := loadU32 m (addrs + 16)
  srcPort := loadU16 m ports
  dstPort := loadU16 m (ports + 2)
  dscp := dscp

/-- `in_fwlookup_search`: `index` and `site_index`. For a frame with a VLAN tag `dscp` has no
value; it is an argument here. -/
def inFwlookupSearch (fw : Firewall) (unset : BitVec 8) (m : Mbuf) : Option ℕ × Option ℕ :=
  let etherType := m.field16 12
  if etherType = 0x0806 then (none, none)
  else if etherType = 0x8100 then
    let vlanId := m.field16 14 % 2 ^ 12
    scan (· == vlanId) fw.entriesCnt.toNat (ipv4Fields m 18 18 38 unset) fw.lut.zipIdx 0 none
  else if etherType = 0x0800 then
    let inner := innerIpv4 m
    let f :=
      if fw.useGreHdrForQos = 0 then ipv4Fields m inner inner (inner + 20) (ipv4Dscp m inner)
      else if fw.useGreHdrForQos = 1 then ipv4Fields m 14 inner (inner + 20) (ipv4Dscp m 14)
      else ipv4Fields m 14 14 (inner + 20) (ipv4Dscp m 14)
    scan (· == 1) fw.entriesCnt.toNat f fw.lut.zipIdx 0 none
  else (none, none)

/-- What the scheduler is told of a packet. -/
structure Sched where
  subport : BitVec 32
  pipe : BitVec 32
  trafficClass : BitVec 32
  queue : BitVec 32
  color : BitVec 32

/-- The pipe and the traffic class for the result of a lookup. -/
def Firewall.pipeAndClass (fw : Firewall) : Option ℕ × Option ℕ → BitVec 32 × BitVec 32
  | (none, none) => (0, fw.defaultTcPerSite)
  | (none, some site) => ((fw.rule site).siteNum, fw.defaultTcPerSite)
  | (some index, _) => ((fw.rule index).siteNum, (fw.rule index).tcNum)

/-- `get_pkt_sched`: `index` and what it writes. -/
def getPktSched (fw : Firewall) (unset : BitVec 8) (m : Mbuf) : Option ℕ × Sched :=
  let lookup := inFwlookupSearch fw unset m
  let pipe := fw.pipeAndClass lookup
  (lookup.1, ⟨0, pipe.1, pipe.2, 0, 0⟩)

/-- `ntohs`. -/
def ntohs (x : BitVec 16) : BitVec 16 := x.extractLsb' 0 8 ++ x.extractLsb' 8 8

/-- `ntohl`. -/
def ntohl (x : BitVec 32) : BitVec 32 := ntohs (x.extractLsb' 0 16) ++ ntohs (x.extractLsb' 16 16)

/-- `RTE_SCHED_QUEUES_PER_PIPE`. -/
def rteSchedQueuesPerPipe : BitVec 32 := 16

/-- `tcp_qos_queue`: the queue and `Rate_config`. -/
def tcpQosQueue (fw : Firewall) (dscp : BitVec 8) (sip dip : BitVec 32) (sport dport : BitVec 16)
    (nextProto : BitVec 8) : BitVec 32 × BitVec 32 :=
  let f : Fields := ⟨nextProto, ntohl sip, ntohl dip, ntohs sport, ntohs dport, dscp &&& 0xfc⟩
  let lookup := scan (fun vlan => vlan == 0 || vlan == 1) fw.entriesCnt.toNat f fw.lut.zipIdx 0
    none
  let pipe := fw.pipeAndClass lookup
  (pipe.1 * rteSchedQueuesPerPipe + pipe.2, (fw.rule (lookup.1.getD 0)).rateConfigured * 8 / 1000)

/-! ### The lookup as a first match -/

/-- The rules that a lookup goes through when it finds none: the enabled ones, as many as there
are entries, and one at least. -/
def window {α : Type*} (enabled : α → Bool) (cnt : ℕ) (lut : List α) : List α :=
  (lut.filter enabled).take (max 1 cnt)

/-- The pipe and the traffic class of the first rule that matches; where there is none, those
of the last rule with matching addresses. -/
def firstMatch (vlanOk : ℕ → Bool) (f : Fields) (defaultTc : BitVec 32) (rules : List Rule) :
    BitVec 32 × BitVec 32 :=
  match rules.find? fun r => r.isMatch f vlanOk with
  | some r => (r.siteNum, r.tcNum)
  | none =>
    match (rules.filter fun r => r.addrMatch f).getLast? with
    | some r => (r.siteNum, defaultTc)
    | none => (0, defaultTc)

section

variable (vlanOk : ℕ → Bool) {cnt totalNum : ℕ} (f : Fields) {lut : List (Rule × ℕ)}
  {siteIndex : Option ℕ} {r : Rule} {i : ℕ}

/-- The enabled entries. -/
def isEnabled (y : Rule × ℕ) : Bool := y.1.enbl != 0

theorem window_cons_of_disabled (h : r.enbl = 0) :
    window isEnabled cnt ((r, i) :: lut) = window isEnabled cnt lut := by
  simp [window, isEnabled, h]

/-- The first enabled entry is in the window, and the next one only if the count allows it. -/
theorem window_cons_of_enabled (h : ¬ r.enbl = 0) :
    window isEnabled (cnt - totalNum) ((r, i) :: lut) =
      (r, i) :: if cnt ≤ totalNum + 1 then [] else
        window isEnabled (cnt - (totalNum + 1)) lut := by
  have henabled : isEnabled (r, i) = true := by simpa [isEnabled] using h
  rw [window, List.filter_cons_of_pos henabled]
  by_cases hlast : cnt ≤ totalNum + 1
  · have hone : max 1 (cnt - totalNum) = 1 := by omega
    rw [if_pos hlast, hone, List.take_succ_cons, List.take_zero]
  · have hmore : max 1 (cnt - totalNum) = max 1 (cnt - (totalNum + 1)) + 1 := by omega
    rw [if_neg hlast, hmore, List.take_succ_cons]
    rfl

/-- `index` is that of the first match in the window. -/
theorem scan_fst (cnt totalNum : ℕ) (lut : List (Rule × ℕ)) (siteIndex : Option ℕ) :
    (scan vlanOk cnt f lut totalNum siteIndex).1 =
      ((window isEnabled (cnt - totalNum) lut).find? fun y => y.1.isMatch f vlanOk).map
        Prod.snd := by
  induction lut generalizing totalNum siteIndex with
  | nil => simp [scan, window]
  | cons y lut ih =>
    obtain ⟨r, i⟩ := y
    rw [scan]
    by_cases henbl : r.enbl = 0
    · rw [if_pos henbl, window_cons_of_disabled henbl, ih]
    · rw [if_neg henbl, window_cons_of_enabled henbl, List.find?_cons]
      cases hmatch : r.isMatch f vlanOk with
      | true => rfl
      | false =>
        by_cases hlast : cnt ≤ totalNum + 1
        · simp [hlast]
        · simp [hlast, ih]

/-- Without a match, `site_index` is that of the last entry of the window whose addresses
match. -/
theorem scan_snd (hnone : (scan vlanOk cnt f lut totalNum siteIndex).1 = none) :
    (scan vlanOk cnt f lut totalNum siteIndex).2 =
      ((((window isEnabled (cnt - totalNum) lut).filter fun y => y.1.addrMatch f).getLast?).map
        Prod.snd).or siteIndex := by
  induction lut generalizing totalNum siteIndex with
  | nil => simp [scan, window]
  | cons y lut ih =>
    obtain ⟨r, i⟩ := y
    rw [scan] at hnone ⊢
    by_cases henbl : r.enbl = 0
    · rw [if_pos henbl] at hnone ⊢
      rw [window_cons_of_disabled henbl, ih hnone]
    · rw [if_neg henbl] at hnone ⊢
      rw [window_cons_of_enabled henbl]
      cases hmatch : r.isMatch f vlanOk with
      | true => simp [hmatch] at hnone
      | false =>
        simp only [hmatch, Bool.false_eq_true, if_false] at hnone ⊢
        by_cases hlast : cnt ≤ totalNum + 1
        · cases haddr : r.addrMatch f <;> simp [hlast, haddr]
        · rw [if_neg hlast] at hnone ⊢
          rw [if_neg hlast, ih hnone]
          cases haddr : r.addrMatch f with
          | false => simp [haddr]
          | true =>
            rw [List.filter_cons_of_pos (p := fun y : Rule × ℕ => y.1.addrMatch f) haddr,
              List.getLast?_cons]
            cases (((window isEnabled (cnt - (totalNum + 1)) lut).filter
              fun y => y.1.addrMatch f).getLast?) <;> rfl

end

/-- The rules that a lookup goes through. -/
def Firewall.rules (fw : Firewall) : List Rule :=
  window (fun r => r.enbl != 0) fw.entriesCnt.toNat fw.lut

theorem Firewall.rules_eq (fw : Firewall) :
    fw.rules = (window isEnabled fw.entriesCnt.toNat fw.lut.zipIdx).map Prod.fst := by
  have hlut : fw.lut = fw.lut.zipIdx.map Prod.fst := (List.zipIdx_map_fst 0 fw.lut).symm
  rw [rules, window, window, List.map_take]
  conv_lhs => rw [hlut, List.filter_map]
  rfl

/-- An entry of the window is the rule with its index. -/
theorem Firewall.rule_of_mem {fw : Firewall} {y : Rule × ℕ}
    (hy : y ∈ window isEnabled fw.entriesCnt.toNat fw.lut.zipIdx) : fw.rule y.2 = y.1 := by
  have hmem : y ∈ fw.lut.zipIdx := List.mem_of_mem_filter (List.mem_of_mem_take hy)
  have hget := List.mem_zipIdx_iff_getElem?.mp hmem
  rw [Firewall.rule, List.getD_eq_getElem?_getD, hget, Option.getD_some]

/-- **The lookup is a first match.** -/
theorem Firewall.pipeAndClass_scan (fw : Firewall) (vlanOk : ℕ → Bool) (f : Fields) :
    fw.pipeAndClass (scan vlanOk fw.entriesCnt.toNat f fw.lut.zipIdx 0 none) =
      firstMatch vlanOk f fw.defaultTcPerSite fw.rules := by
  let lookup := scan vlanOk fw.entriesCnt.toNat f fw.lut.zipIdx 0 none
  let w := window isEnabled fw.entriesCnt.toNat fw.lut.zipIdx
  have hfind : (fw.rules.find? fun r => r.isMatch f vlanOk) =
      (w.find? fun y => y.1.isMatch f vlanOk).map Prod.fst := by
    rw [fw.rules_eq, List.find?_map]
    rfl
  have hlast : (fw.rules.filter fun r => r.addrMatch f).getLast? =
      ((w.filter fun y => y.1.addrMatch f).getLast?).map Prod.fst := by
    rw [fw.rules_eq, List.filter_map, List.getLast?_map]
    rfl
  have hindex : lookup.1 = (w.find? fun y => y.1.isMatch f vlanOk).map Prod.snd :=
    scan_fst vlanOk f fw.entriesCnt.toNat 0 fw.lut.zipIdx none
  have hpair : lookup = (lookup.1, lookup.2) := rfl
  change fw.pipeAndClass lookup = _
  rw [firstMatch, hfind, hlast]
  cases hmatch : w.find? fun y => y.1.isMatch f vlanOk with
  | some y =>
    rw [hmatch] at hindex
    have hrule := fw.rule_of_mem (List.mem_of_find?_eq_some hmatch)
    rw [hpair, hindex, Option.map_some, Option.map_some, Firewall.pipeAndClass, hrule]
  | none =>
    rw [hmatch] at hindex
    have hsite : lookup.2 =
        (((w.filter fun y => y.1.addrMatch f).getLast?).map Prod.snd).or none :=
      scan_snd vlanOk f hindex
    cases hnear : (w.filter fun y => y.1.addrMatch f).getLast? with
    | some y =>
      rw [hnear] at hsite
      have hmem := List.mem_of_mem_filter (List.mem_of_getLast? hnear)
      rw [hpair, hindex, hsite, Option.map_none, Option.map_none, Option.map_some,
        Option.map_some, Option.or_none, Firewall.pipeAndClass, fw.rule_of_mem hmem]
    | none =>
      rw [hnear] at hsite
      rw [hpair, hindex, hsite]
      rfl

end SecureWan.WanOptimizer
