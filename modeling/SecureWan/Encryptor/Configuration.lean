import SecureWan.Encryptor.MainLoop
import SecureWan.Lib.Dealing
import Mathlib.Data.List.Range

/-!
# Ports and crypto devices of the lcores

`main` deals the enabled ports to the lcores, then the crypto devices, with the same rule.
The main loop takes the parameters of its i-th device for the frames of its i-th port. The
direction in them is computed once, from the port that the loop over the ports ended with.
-/

namespace SecureWan.Configuration

open Dealing

/-- Why `main` does not get to the data path. -/
inductive Fault where
  /-- `rte_exit`, or the end of `main`. -/
  | exit
  /-- A write behind the end of an array. -/
  | outOfBounds
  deriving DecidableEq

/-- `MAX_RX_QUEUE_PER_LCORE`. -/
def maxRxQueuePerLcore : ℕ := 16

/-- `RTE_MAX_LCORE`. -/
def rteMaxLcore : ℕ := 128

/-- `struct l2fwd_crypto_options`, as far as the configuration reads it, with the bounds that
`l2fwd_crypto_parse_nqueue` checks. -/
structure Options where
  portmask : ℕ
  nbPortsPerLcore : ℕ
  singleLcore : Bool
  nbPorts_pos : 0 < nbPortsPerLcore
  nbPorts_lt : nbPortsPerLcore < maxRxQueuePerLcore

/-- `l2fwd_crypto_default_options`. -/
def Options.default : Options where
  portmask := 0xffffffff
  nbPortsPerLcore := 1
  singleLcore := false
  nbPorts_pos := by decide
  nbPorts_lt := by decide

/-- What `main` finds on the machine. -/
structure Machine where
  /-- `rte_lcore_is_enabled`. -/
  lcoreIsEnabled : ℕ → Bool
  /-- The ports over which `RTE_ETH_FOREACH_DEV` runs. -/
  ethDev : ℕ → Bool
  /-- `rte_cryptodev_count`. -/
  cryptodevCount : ℕ
  /-- `check_cryptodev_mask` and `check_capabilities` succeed. -/
  capable : ℕ → Bool

/-- `struct lcore_queue_conf`; the counts are the lengths of the lists. -/
structure QueueConf where
  rxPortList : List ℕ
  cryptodevList : List ℕ

/-- The parameters of one device, as far as they concern the direction. -/
structure Cparams where
  devId : ℕ
  isEncrypt : Bool

section Main

variable (o : Options) (m : Machine)

/-- The ports that the loops over the ports do not skip, in the order of their numbers. -/
def enabledPorts : List ℕ :=
  (List.range rteMaxEthports).filter fun portid =>
    m.ethDev portid && o.portmask &&& (1 <<< portid) != 0

/-- `initialize_ports` and the check of its result; the drivers start. -/
def initializePorts : Except Fault ℕ :=
  let enabledPortcount := (enabledPorts o m).length
  -- "odd number of ports in portmask- bye"
  if enabledPortcount ≠ 1 ∧ enabledPortcount % 2 = 1 then .error .exit
  else if enabledPortcount < 1 then .error .exit
  else .ok enabledPortcount

/-- The devices that `initialize_cryptodevs` enables; the drivers start. -/
def initializeCryptodevs (nbPorts : ℕ) : List ℕ :=
  (List.range m.cryptodevCount).foldl
    (fun enabledCdevs cdevId =>
      if enabledCdevs.length < nbPorts ∧ m.capable cdevId = true then enabledCdevs ++ [cdevId]
      else enabledCdevs)
    []

/-- `while (skip(rx_lcore_id)) if (++rx_lcore_id >= RTE_MAX_LCORE) rte_exit(..)`, with the
number of lcores behind this one. -/
def getLcore (skip : ℕ → Bool) (rxLcoreId : ℕ) : ℕ → Except Fault ℕ
  | 0 => if skip rxLcoreId then .error .exit else .ok rxLcoreId
  | left + 1 => if skip rxLcoreId then getLcore skip (rxLcoreId + 1) left else .ok rxLcoreId

/-- `rx_lcore_id` and `qconf`, as an index into `lcore_queue_conf`. -/
structure Cursor where
  rxLcoreId : ℕ
  qconf : Option ℕ

/-- `rx_lcore_id` for the next port or device, where an lcore has `count` of them. -/
def nextLcore (count : ℕ → ℕ) (c : Cursor) : Except Fault ℕ :=
  let left := rteMaxLcore - 1 - c.rxLcoreId
  if o.singleLcore then
    if c.qconf = none then
      getLcore (fun lcore => !m.lcoreIsEnabled lcore) c.rxLcoreId left
    else .ok c.rxLcoreId
  else
    getLcore (fun lcore => !m.lcoreIsEnabled lcore || count lcore == o.nbPortsPerLcore)
      c.rxLcoreId left

/-- The lcore that the next port or device is written to. -/
def assign (c : Cursor) (count : ℕ → ℕ) : Except Fault (Cursor × ℕ) :=
  match nextLcore o m count c with
  | .error e => .error e
  | .ok lcore =>
    if count lcore < maxRxQueuePerLcore then .ok (⟨lcore, some lcore⟩, lcore)
    else .error .outOfBounds

/-- A loop of `main` over the enabled ports, or over the enabled devices. -/
def dealOut (ids : List ℕ) : Except Fault (Table Cursor ℕ ℕ) :=
  deal (assign o m) ⟨⟨0, none⟩, fun _ => []⟩ ids

/-- "Number of capable crypto devices has to be more or equal to number of ports". -/
def checkCdevcount (enabledCdevcount enabledPortcount : ℕ) : Except Fault Unit :=
  if enabledCdevcount < enabledPortcount then .error .exit else .ok ()

/-- `main`, up to the launch of the lcores. -/
def main : Except Fault (ℕ → QueueConf) := do
  let enabledPortcount ← initializePorts o m
  let ports ← dealOut o m (enabledPorts o m)
  let enabledCdevs := initializeCryptodevs m enabledPortcount
  checkCdevcount enabledCdevs.length enabledPortcount
  let cdevs ← dealOut o m enabledCdevs
  return fun lcore => ⟨ports.bins lcore, cdevs.bins lcore⟩

end Main

/-- `port_cparams` of an lcore that has a port. -/
def mainLoopInit (qconf : QueueConf) : Option (List Cparams) :=
  -- After the loop over the ports, `portid` is the last of them.
  qconf.rxPortList.getLast?.map fun portid =>
    qconf.cryptodevList.map fun devId => ⟨devId, portid == 0⟩

/-- The frames of each port of an lcore meet initialised parameters with the direction of
the port. -/
def Paired (qconf : QueueConf) : Prop :=
  ∀ portCparams : List Cparams, mainLoopInit qconf = some portCparams →
    ∀ (i portid : ℕ), qconf.rxPortList[i]? = some portid →
      ∃ cparams : Cparams, portCparams[i]? = some cparams ∧ (cparams.isEncrypt = true ↔ portid = 0)

/-- No array overflows, and no lcore has another port beside port 0. -/
structure Separate (o : Options) (m : Machine) : Prop where
  fits : o.singleLcore = true → (enabledPorts o m).length ≤ maxRxQueuePerLcore
  apart : 0 ∉ enabledPorts o m ∨ (enabledPorts o m).length = 1 ∨
    (o.singleLcore = false ∧ o.nbPortsPerLcore = 1)

section Lcores

variable {o : Options} {m : Machine} {skip : ℕ → Bool} {count : ℕ → ℕ} {c c' : Cursor}
  {start left lcore : ℕ}

/-- The search ends at an lcore that is not skipped. -/
theorem getLcore_spec (h : getLcore skip start left = .ok lcore) : skip lcore = false := by
  induction left generalizing start with
  | zero =>
    rw [getLcore] at h
    split at h
    · cases h
    · cases h
      exact eq_false_of_ne_true ‹_›
  | succ left ih =>
    rw [getLcore] at h
    split at h
    · exact ih h
    · cases h
      exact eq_false_of_ne_true ‹_›

/-- An lcore that is not skipped is taken at once. -/
theorem getLcore_of_not_skip (h : skip start = false) :
    getLcore skip start left = .ok start := by
  cases left <;> simp [getLcore, h]

/-- A search that finds no lcore ends the program. -/
theorem getLcore_eq_error {e : Fault} (h : getLcore skip start left = .error e) : e = .exit := by
  induction left generalizing start with
  | zero =>
    rw [getLcore] at h
    split at h <;> cases h
    rfl
  | succ left ih =>
    rw [getLcore] at h
    split at h
    · exact ih h
    · cases h

/-- Where each lcore has a number of ports of its own, the next one is enabled and not full. -/
theorem nextLcore_spec (hsingle : o.singleLcore = false) (h : nextLcore o m count c = .ok lcore) :
    m.lcoreIsEnabled lcore = true ∧ count lcore ≠ o.nbPortsPerLcore := by
  simp only [nextLcore, hsingle] at h
  simpa using getLcore_spec h

theorem nextLcore_eq_error {e : Fault} (h : nextLcore o m count c = .error e) : e = .exit := by
  unfold nextLcore at h
  split at h
  · split at h
    · exact getLcore_eq_error h
    · cases h
  · exact getLcore_eq_error h

/-- **The lcore of the next port or device.** -/
theorem assign_spec (h : assign o m c count = .ok (c', lcore)) :
    c' = ⟨lcore, some lcore⟩ ∧ count lcore < maxRxQueuePerLcore ∧
      nextLcore o m count c = .ok lcore := by
  unfold assign at h
  split at h
  · cases h
  · split at h
    · cases h
      exact ⟨rfl, ‹_›, ‹_›⟩
    · cases h

/-- An array overflows only on a single lcore: elsewhere the number of ports is smaller. -/
theorem assign_eq_outOfBounds (hcount : o.singleLcore = false → ∀ l, count l ≤ o.nbPortsPerLcore)
    (h : assign o m c count = .error .outOfBounds) :
    o.singleLcore = true ∧ ∃ l, maxRxQueuePerLcore ≤ count l := by
  unfold assign at h
  split at h
  next e he =>
    cases h
    cases nextLcore_eq_error he
  next l hl =>
    split at h
    · cases h
    next hfull =>
      have hle := Nat.le_of_not_lt hfull
      cases hsingle : o.singleLcore with
      | true => exact ⟨rfl, l, hle⟩
      | false =>
        have hcap := hcount hsingle l
        have hlt := o.nbPorts_lt
        omega

/-- The next port goes to the lcore of the last one while this takes more. -/
theorem assign_same {l : ℕ} (hroom : o.singleLcore = true ∨
      (m.lcoreIsEnabled l = true ∧ count l ≠ o.nbPortsPerLcore))
    (hfits : count l < maxRxQueuePerLcore) :
    assign o m ⟨l, some l⟩ count = .ok (⟨l, some l⟩, l) := by
  have hnext : nextLcore o m count ⟨l, some l⟩ = .ok l := by
    cases hsingle : o.singleLcore with
    | true => simp [nextLcore, hsingle]
    | false =>
      obtain ⟨hen, hcount⟩ := hroom.resolve_left (by simp [hsingle])
      simp only [nextLcore, hsingle]
      exact getLcore_of_not_skip (by simp [hen, hcount])
  simp [assign, hnext, hfits]

end Lcores

/-! ### What is dealt -/

section Deals

variable {o : Options} {m : Machine} {t t' : Table Cursor ℕ ℕ} {x l : ℕ} {ids : List ℕ}

/-- No list is longer than its array, nor longer than the options allow. -/
structure Bounded (o : Options) (t : Table Cursor ℕ ℕ) : Prop where
  fits : ∀ l, t.load l ≤ maxRxQueuePerLcore
  cap : o.singleLcore = false → ∀ l, t.load l ≤ o.nbPortsPerLcore

/-- One more port or device makes its list longer by one. -/
theorem load_of_give (h : give (assign o m) t x = .ok t') :
    ∃ l, assign o m t.pos t.load = .ok (⟨l, some l⟩, l) ∧ t'.pos = ⟨l, some l⟩ ∧
      t'.bins l = t.bins l ++ [x] ∧ ∀ k ≠ l, t'.bins k = t.bins k := by
  obtain ⟨pos, l, hassign, rfl⟩ := give_eq_ok_iff.mp h
  obtain ⟨rfl, -, -⟩ := assign_spec hassign
  refine ⟨l, hassign, rfl, by simp, fun k hk => ?_⟩
  exact Function.update_of_ne hk _ _

theorem Bounded.give (ht : Bounded o t) (h : give (assign o m) t x = .ok t') : Bounded o t' := by
  obtain ⟨l, hassign, -, hbin, hrest⟩ := load_of_give h
  obtain ⟨-, hlt, hnext⟩ := assign_spec hassign
  have hload : t'.load l = t.load l + 1 := by simp [Table.load, hbin]
  have hkeep : ∀ k ≠ l, t'.load k = t.load k := fun k hk => congrArg List.length (hrest k hk)
  constructor
  · intro k
    rcases eq_or_ne k l with rfl | hk
    · omega
    · rw [hkeep k hk]
      exact ht.fits k
  · intro hsingle k
    rcases eq_or_ne k l with rfl | hk
    · have hcap := ht.cap hsingle k
      have hne := (nextLcore_spec hsingle hnext).2
      omega
    · rw [hkeep k hk]
      exact ht.cap hsingle k

theorem bounded_start : Bounded o ⟨⟨0, none⟩, fun _ => []⟩ :=
  ⟨fun _ => Nat.zero_le _, fun _ _ => Nat.zero_le _⟩

theorem dealOut_bounded (h : dealOut o m ids = .ok t) : Bounded o t :=
  deal_invariant (fun _ _ _ ht hgive => ht.give hgive) bounded_start h

/-- The list of an lcore has its items in the order in which they are dealt. -/
theorem dealOut_sublist (h : dealOut o m ids = .ok t) (l : ℕ) :
    List.Sublist (t.bins l) ids := by
  obtain ⟨got, hsub, hbins⟩ := deal_sublist h l
  rw [hbins]
  exact hsub

/-- An overflow takes a single lcore and more items than the array has places. -/
theorem deal_eq_outOfBounds {k : ℕ} (ht : Bounded o t) (hk : ∀ l, t.load l ≤ k)
    (h : deal (assign o m) t ids = .error .outOfBounds) :
    o.singleLcore = true ∧ maxRxQueuePerLcore < k + ids.length := by
  induction ids generalizing t k with
  | nil => cases h
  | cons x ids ih =>
    rcases deal_cons_eq_error_iff.mp h with hfirst | ⟨t', hgive, hrest⟩
    · obtain ⟨hsingle, l, hl⟩ := assign_eq_outOfBounds ht.cap (give_eq_error_iff.mp hfirst)
      have hle := hk l
      rw [List.length_cons]
      exact ⟨hsingle, by omega⟩
    · obtain ⟨c, -, -, hbin, hkeep⟩ := load_of_give hgive
      have hk' : ∀ l, t'.load l ≤ k + 1 := by
        intro l
        have hle := hk l
        rcases eq_or_ne l c with rfl | hne
        · simpa [Table.load, hbin] using hle
        · exact (congrArg List.length (hkeep l hne)).trans_le (Nat.le_succ_of_le hle)
      obtain ⟨hsingle, hlt⟩ := ih (ht.give hgive) hk' hrest
      rw [List.length_cons]
      exact ⟨hsingle, by omega⟩

/-- On a single lcore everything goes to the lcore of the first item. -/
theorem deal_single (hsingle : o.singleLcore = true) (hpos : t.pos = ⟨l, some l⟩)
    (h : deal (assign o m) t ids = .ok t') : t'.bins l = t.bins l ++ ids := by
  induction ids generalizing t with
  | nil =>
    cases h
    exact (List.append_nil _).symm
  | cons x ids ih =>
    obtain ⟨t₁, hgive, hrest⟩ := deal_cons_eq_ok_iff.mp h
    obtain ⟨c, hassign, hpos₁, hbin, -⟩ := load_of_give hgive
    have hnext := (assign_spec hassign).2.2
    have hc : l = c := by simpa [nextLcore, hsingle, hpos] using hnext
    subst hc
    rw [ih hpos₁ hrest, hbin, List.append_assoc]
    rfl

/-- So a single lcore takes no more than its arrays hold. -/
theorem length_le_of_single (hsingle : o.singleLcore = true) (h : dealOut o m ids = .ok t) :
    ids.length ≤ maxRxQueuePerLcore := by
  have hfits := (dealOut_bounded h).fits
  cases ids with
  | nil => exact Nat.zero_le _
  | cons x ids =>
    obtain ⟨t₁, hgive, hrest⟩ := deal_cons_eq_ok_iff.mp h
    obtain ⟨l, -, hpos, hbin, -⟩ := load_of_give hgive
    have hall := deal_single hsingle hpos hrest
    have hload := hfits l
    simpa [Table.load, hall, hbin] using hload

/-- Where an lcore takes a second item, the second goes to the lcore of the first. -/
theorem second_beside_first {x y : ℕ} (hroom : o.singleLcore = true ∨ 1 < o.nbPortsPerLcore)
    (h : dealOut o m (x :: y :: ids) = .ok t) : ∃ l got, t.bins l = x :: y :: got := by
  obtain ⟨t₁, hfirst, hrest⟩ := deal_cons_eq_ok_iff.mp h
  obtain ⟨t₂, hsecond, htail⟩ := deal_cons_eq_ok_iff.mp hrest
  obtain ⟨l, hassign₁, hpos₁, hbin₁, -⟩ := load_of_give hfirst
  obtain ⟨k, hassign₂, -, hbin₂, -⟩ := load_of_give hsecond
  have hbin : t₁.bins l = [x] := hbin₁
  have hload : t₁.load l = 1 := congrArg List.length hbin
  have hsame : assign o m ⟨l, some l⟩ t₁.load = .ok (⟨l, some l⟩, l) := by
    refine assign_same ?_ (by rw [hload]; decide)
    cases hsingle : o.singleLcore with
    | true => exact .inl rfl
    | false =>
      have hen := (nextLcore_spec hsingle (assign_spec hassign₁).2.2).1
      have hcap := hroom.resolve_left (by simp [hsingle])
      exact .inr ⟨hen, by omega⟩
  rw [hpos₁, hsame] at hassign₂
  cases hassign₂
  obtain ⟨got, -, hbins⟩ := deal_sublist htail l
  exact ⟨l, got, by rw [hbins, hbin₂, hbin]; rfl⟩

end Deals

/-! ### The configuration of `main` -/

section Configured

variable {o : Options} {m : Machine}

theorem enabledPorts_pairwise : (enabledPorts o m).Pairwise (· < ·) :=
  List.pairwise_lt_range.filter _

/-- No more devices are enabled than there are ports. -/
theorem length_initializeCryptodevs_le (nbPorts : ℕ) :
    (initializeCryptodevs m nbPorts).length ≤ nbPorts := by
  unfold initializeCryptodevs
  induction m.cryptodevCount with
  | zero => exact Nat.zero_le _
  | succ n ih =>
    rw [List.range_succ, List.foldl_concat]
    split
    next h =>
      rw [List.length_append]
      exact h.1
    next => exact ih

theorem initializePorts_cases (o : Options) (m : Machine) : initializePorts o m = .error .exit ∨
    (initializePorts o m = .ok (enabledPorts o m).length ∧ 0 < (enabledPorts o m).length) := by
  simp only [initializePorts]
  split
  · exact .inl rfl
  · split
    · exact .inl rfl
    · exact .inr ⟨rfl, by omega⟩

/-- **What `main` accepts**: as many devices as ports, dealt alike; or an array overflows. -/
theorem main_cases (h : main o m ≠ .error .exit) :
    (main o m = .error .outOfBounds ∧
      dealOut o m (enabledPorts o m) = .error .outOfBounds) ∨
    ∃ ports cdevs, main o m = .ok (fun lcore => ⟨ports.bins lcore, cdevs.bins lcore⟩) ∧
      dealOut o m (enabledPorts o m) = .ok ports ∧ SameShape ports cdevs := by
  rcases initializePorts_cases o m with hcount | ⟨hcount, -⟩
  · have hmain : main o m = .error .exit := by simp only [main, bind, Except.bind, hcount]
    exact absurd hmain h
  · cases hports : dealOut o m (enabledPorts o m) with
    | error e =>
      have hmain : main o m = .error e := by simp only [main, bind, Except.bind, hcount, hports]
      cases e with
      | exit => exact absurd hmain h
      | outOfBounds => exact .inl ⟨hmain, rfl⟩
    | ok ports =>
      have hle := length_initializeCryptodevs_le (m := m) (enabledPorts o m).length
      rcases hle.lt_or_eq with hfew | hlen
      · have hmain : main o m = .error .exit := by
          simp only [main, bind, Except.bind, hcount, hports, checkCdevcount, if_pos hfew]
        exact absurd hmain h
      · have hshape : SameShape (⟨⟨0, none⟩, fun _ => []⟩ : Table Cursor ℕ ℕ)
            ⟨⟨0, none⟩, fun _ => []⟩ := ⟨rfl, rfl⟩
        obtain ⟨cdevs, hcdevs, hsame⟩ := hshape.deal hlen.symm hports
        refine .inr ⟨ports, cdevs, ?_, rfl, hsame⟩
        have hok : dealOut o m (initializeCryptodevs m (enabledPorts o m).length) = .ok cdevs :=
          hcdevs
        simp only [main, bind, Except.bind, hcount, hports, checkCdevcount,
          if_neg hlen.not_lt, hok, pure, Except.pure]

end Configured

/-! ### Directions of the frames -/

section Directions

variable {qconf : QueueConf}

/-- With a device for each port, the frames of every port take the direction of the last. -/
theorem paired_iff_forall (hlen : qconf.rxPortList.length = qconf.cryptodevList.length) :
    Paired qconf ↔ ∀ last, qconf.rxPortList.getLast? = some last →
      ∀ portid ∈ qconf.rxPortList, (last = 0 ↔ portid = 0) := by
  constructor
  · intro hpaired last hlast portid hmem
    obtain ⟨i, hi⟩ := List.mem_iff_getElem?.mp hmem
    have hinit : mainLoopInit qconf =
        some (qconf.cryptodevList.map fun devId => ⟨devId, last == 0⟩) := by
      rw [mainLoopInit, hlast]
      rfl
    obtain ⟨cparams, hget, hdir⟩ := hpaired _ hinit i portid hi
    obtain ⟨devId, -, rfl⟩ := List.mem_map.mp (List.mem_of_getElem? hget)
    rwa [beq_iff_eq] at hdir
  · intro hall portCparams hinit i portid hi
    obtain ⟨last, hlast, rfl⟩ := Option.map_eq_some_iff.mp hinit
    obtain ⟨hlt, -⟩ := List.getElem?_eq_some_iff.mp hi
    rw [hlen] at hlt
    refine ⟨⟨qconf.cryptodevList.get ⟨i, hlt⟩, last == 0⟩, ?_, ?_⟩
    · rw [List.getElem?_map, List.getElem?_eq_getElem hlt]
      rfl
    · rw [beq_iff_eq]
      exact hall last hlast portid (List.mem_of_getElem? hi)

/-- Port 0 comes first where it comes at all. -/
theorem eq_zero_cons_of_mem {l : List ℕ} (hsorted : l.Pairwise (· < ·)) (hzero : 0 ∈ l) :
    ∃ rest, l = 0 :: rest := by
  cases l with
  | nil => cases hzero
  | cons a rest =>
    rcases List.mem_cons.mp hzero with rfl | hrest
    · exact ⟨rest, rfl⟩
    · exact absurd ((List.pairwise_cons.mp hsorted).1 0 hrest) (Nat.not_lt_zero a)

/-- In a list in which port 0 can only come first, the last port tells the direction of each
exactly when port 0 has no port beside it. -/
theorem paired_iff (hlen : qconf.rxPortList.length = qconf.cryptodevList.length)
    (hsorted : qconf.rxPortList.Pairwise (· < ·)) :
    Paired qconf ↔ (0 ∈ qconf.rxPortList → qconf.rxPortList = [0]) := by
  rw [paired_iff_forall hlen]
  rcases List.eq_nil_or_concat qconf.rxPortList with hnil | ⟨front, last, hlast⟩
  · simp [hnil]
  · rw [List.concat_eq_append] at hlast
    rw [hlast] at hsorted ⊢
    constructor
    · intro hall hzero
      have hend : last = 0 := (hall last (by simp) 0 hzero).mpr rfl
      subst hend
      have hfront : front = [] := by
        refine List.eq_nil_iff_forall_not_mem.mpr fun portid hmem => ?_
        exact Nat.not_lt_zero _
          ((List.pairwise_append.mp hsorted).2.2 portid hmem 0 (List.mem_singleton_self 0))
      rw [hfront, List.nil_append]
    · intro halone last' hlast' portid hmem
      cases (List.getLast?_concat.symm.trans hlast')
      constructor
      · rintro rfl
        rw [halone (by simp)] at hmem
        exact List.mem_singleton.mp hmem
      · rintro rfl
        have hends : (front ++ [last]).getLast? = [0].getLast? := congrArg _ (halone hmem)
        simpa using hends

end Directions

section Alone

variable {o : Options} {m : Machine} {ports : Table Cursor ℕ ℕ}

/-- Where nothing is beside port 0, it is not enabled, or alone, or has an lcore of its own. -/
theorem apart_of_alone (hdeal : dealOut o m (enabledPorts o m) = .ok ports)
    (halone : ∀ lcore, 0 ∈ ports.bins lcore → ports.bins lcore = [0]) :
    0 ∉ enabledPorts o m ∨ (enabledPorts o m).length = 1 ∨
      (o.singleLcore = false ∧ o.nbPortsPerLcore = 1) := by
  by_cases hzero : 0 ∈ enabledPorts o m
  · obtain ⟨rest, hfirst⟩ := eq_zero_cons_of_mem enabledPorts_pairwise hzero
    cases rest with
    | nil => exact .inr (.inl (congrArg List.length hfirst))
    | cons portid rest =>
      refine .inr (.inr ?_)
      by_contra hshared
      have hroom : o.singleLcore = true ∨ 1 < o.nbPortsPerLcore := by
        have hpos := o.nbPorts_pos
        by_cases hsingle : o.singleLcore = true
        · exact .inl hsingle
        · rw [Bool.not_eq_true] at hsingle
          have hne : o.nbPortsPerLcore ≠ 1 := fun hone => hshared ⟨hsingle, hone⟩
          exact .inr (by omega)
      rw [hfirst] at hdeal
      obtain ⟨lcore, got, hbins⟩ := second_beside_first hroom hdeal
      have hone := halone lcore (by simp [hbins])
      simp [hbins] at hone
  · exact .inl hzero

/-- And the other way round. -/
theorem alone_of_apart (hdeal : dealOut o m (enabledPorts o m) = .ok ports)
    (hapart : 0 ∉ enabledPorts o m ∨ (enabledPorts o m).length = 1 ∨
      (o.singleLcore = false ∧ o.nbPortsPerLcore = 1)) (lcore : ℕ)
    (hzero : 0 ∈ ports.bins lcore) : ports.bins lcore = [0] := by
  have hsub := dealOut_sublist hdeal lcore
  have hlen : (ports.bins lcore).length ≤ 1 := by
    rcases hapart with habsent | halone | ⟨hsingle, hone⟩
    · exact absurd (hsub.subset hzero) habsent
    · exact halone ▸ hsub.length_le
    · exact hone ▸ (dealOut_bounded hdeal).cap hsingle lcore
  have hpos := List.length_pos_of_mem hzero
  obtain ⟨portid, hbins⟩ := List.length_eq_one_iff.mp (hlen.antisymm hpos)
  rw [hbins] at hzero ⊢
  rw [List.mem_singleton.mp hzero]

end Alone

/-- **Frames and directions.** Where `main` gets to the data path at all, every port of every
lcore meets initialised parameters with its own direction exactly when no array overflows and
no port is beside port 0. -/
theorem paired_iff_separate (o : Options) (m : Machine) (h : main o m ≠ .error .exit) :
    (∃ conf, main o m = .ok conf ∧ ∀ lcore, Paired (conf lcore)) ↔ Separate o m := by
  rcases main_cases h with ⟨hmain, hdeal⟩ | ⟨ports, cdevs, hmain, hdeal, hshape⟩
  · -- The write behind the array needs a single lcore and too many ports.
    obtain ⟨hsingle, hmany⟩ := deal_eq_outOfBounds (k := 0) bounded_start (fun _ => le_rfl) hdeal
    constructor
    · rintro ⟨conf, hok, -⟩
      rw [hmain] at hok
      cases hok
    · intro hsep
      have hfits := hsep.fits hsingle
      omega
  · have hpaired : ∀ lcore, Paired ⟨ports.bins lcore, cdevs.bins lcore⟩ ↔
        (0 ∈ ports.bins lcore → ports.bins lcore = [0]) := by
      intro lcore
      have hsorted := enabledPorts_pairwise.sublist (dealOut_sublist hdeal lcore)
      exact paired_iff (congrFun hshape.load lcore) hsorted
    constructor
    · rintro ⟨conf, hok, hall⟩
      rw [hmain] at hok
      cases hok
      have halone := fun lcore => (hpaired lcore).mp (hall lcore)
      exact ⟨fun hsingle => length_le_of_single hsingle hdeal, apart_of_alone hdeal halone⟩
    · intro hsep
      refine ⟨_, hmain, fun lcore => (hpaired lcore).mpr ?_⟩
      exact alone_of_apart hdeal hsep.apart lcore

/-- Two ports and two capable devices, every lcore enabled. -/
def twoPortBox : Machine where
  lcoreIsEnabled := fun _ => true
  ethDev := fun portid => decide (portid < 2)
  cryptodevCount := 2
  capable := fun _ => true

theorem paired_iff_separate_default :
    (∃ conf, main .default twoPortBox = .ok conf ∧ ∀ lcore, Paired (conf lcore)) ↔
      Separate .default twoPortBox := by
  refine paired_iff_separate .default twoPortBox ?_
  intro h
  cases h

/-- Two ports per lcore. -/
def pairPerLcore : Options where
  portmask := 0x3
  nbPortsPerLcore := 2
  singleLcore := false
  nbPorts_pos := by decide
  nbPorts_lt := by decide

/-- The frames of port 0 are decrypted where port 1 is on the same lcore. -/
theorem pairPerLcore_unpaired :
    ∃ conf, main pairPerLcore twoPortBox = .ok conf ∧ (conf 0).rxPortList = [0, 1] ∧
      ¬Paired (conf 0) := by
  refine ⟨_, rfl, by decide, fun hpaired => ?_⟩
  obtain ⟨cparams, hget, hdir⟩ := hpaired [⟨0, false⟩, ⟨1, false⟩] (by rfl) 0 0 (by rfl)
  cases hget
  exact Bool.false_ne_true (hdir.mpr rfl)

end SecureWan.Configuration
