import SecureWan.EthLoopback.Delivery

/-!
# The loopback runs empty

When no more beats come on RX, every accepted frame is taken on TX after as many ready cycles as
the FIFO has entries, and one more; then the counters account for all frames. The TX side compares
the numbers of committed and sent frames modulo `2 ^ 16`: a FIFO of up to `2 ^ 15` entries never
holds so many frames that they look equal.
-/

namespace SecureWan.EthLoopback

open Packets

namespace Loopback

variable {n : ℕ} {s : Loopback n} {i : Inputs} {g : Packets (Beat × Bool)}
  {cur part out : List Beat} {ready : List (List Beat)}

/-! ### The TX side goes on -/

theorem length_le_length_flatten {α : Type*} {last : α → Bool} {ps : List (List α)}
    (h : ∀ p ∈ ps, IsPacket last p) : ps.length ≤ ps.flatten.length := by
  induction ps with
  | nil => exact Nat.le_refl 0
  | cons p ps ih =>
    obtain ⟨hp, hps⟩ := List.forall_mem_cons.mp h
    have hpos : 0 < p.length := List.length_pos_of_ne_nil hp.ne_nil
    have hrest := ih hps
    rw [List.length_cons, List.flatten_cons, List.length_append]
    omega

/-- The committed beats fit into the FIFO. -/
theorem Delivers.length_le (h : Delivers s g cur ready part out) :
    (cur ++ ready.flatten).length ≤ 2 ^ n := by
  have hle := h.stores.holds.length_le
  rw [List.length_append] at hle
  omega

/-- The frames that are not sent, with the one that is being sent. -/
theorem Delivers.waiting_le (h : Delivers s g cur ready part out) :
    ready.length + s.tx.sending.toNat ≤ 2 ^ n := by
  have hbeats := h.length_le
  have hready := length_le_length_flatten h.sends.packets
  rw [List.length_append] at hbeats
  cases hsending : s.tx.sending with
  | false =>
    rw [Bool.toNat_false]
    omega
  | true =>
    have hcur := List.length_pos_of_ne_nil (h.sends.sending.mp hsending)
    rw [Bool.toNat_true]
    omega

/-- The difference of the two numbers of frames. -/
theorem Delivers.behind (h : Delivers s g cur ready part out) (hn : n < 16) :
    (s.rx.pktWr - s.tx.pktRd).toNat = ready.length + s.tx.sending.toNat := by
  have hle := h.waiting_le
  have hpow : 2 ^ n ≤ 2 ^ 15 := Nat.pow_le_pow_right (by omega) (by omega)
  rw [h.sends.count, BitVec.add_comm, BitVec.add_sub_cancel, BitVec.toNat_ofNat,
    Nat.mod_eq_of_lt (by omega)]

/-- **Progress.** A free interface is given the next committed beat. -/
theorem Delivers.presents (h : Delivers s g cur ready part out) (hn : n < 16)
    (hfree : s.outFree i = true) (hne : cur ++ ready.flatten ≠ []) :
    (s.step i).presented ≠ [] := by
  obtain ⟨x, l, hfront⟩ := List.exists_cons_of_ne_nil hne
  obtain ⟨hempty, hdout⟩ := h.stores.dout hfront
  have hx : x.anyValid = true := h.sends.valid x (by rw [hfront]; exact List.mem_cons_self)
  have hgo : (s.tx.sending && !s.empty) = true ∨
      (s.tx.sending && !s.empty) = false ∧ (!s.tx.sending && s.pktAvail && !s.empty) = true := by
    cases hsending : s.tx.sending with
    | true => exact .inl (by rw [hempty]; rfl)
    | false =>
      right
      have hcur : cur = [] := by
        by_contra hcur
        rw [h.sends.sending.mpr hcur] at hsending
        cases hsending
      have hready : 0 < ready.length := by
        rw [List.length_pos_iff]
        rintro rfl
        rw [hcur] at hne
        exact hne rfl
      have hbehind := h.behind hn
      rw [hsending, Bool.toNat_false] at hbehind
      have havail : s.pktAvail = true := by
        rw [pktAvail, bne_iff_ne]
        intro heq
        rw [heq, BitVec.sub_self, BitVec.toNat_zero] at hbehind
        omega
      rw [havail, hempty]
      exact ⟨rfl, rfl⟩
  have htx : (s.txSide i).tx = x := by
    unfold txSide
    dsimp only
    rw [if_pos hfree]
    rcases hgo with hgo | ⟨hno, hgo⟩
    · rw [if_pos hgo]
      split <;> exact hdout
    · rw [if_neg (by rw [hno]; exact Bool.false_ne_true), if_pos hgo]
      split <;> exact hdout
  have hpresented : (s.step i).presented = [x] := by
    change (if (s.txSide i).tx.anyValid then [(s.txSide i).tx] else []) = [x]
    rw [htx, if_pos hx]
  rw [hpresented]
  exact List.cons_ne_nil _ _

/-! ### Quiet cycles -/

/-- So many ready cycles are left in which the rest of the committed beats may be taken. -/
def Within (k : ℕ) (s : Loopback n) (g : Packets (Beat × Bool)) (out : List Beat) : Prop :=
  ∃ cur ready part, Delivers s g cur ready part out ∧
    ((cur ++ ready.flatten).length < k ∨ cur ++ ready.flatten = [] ∧ s.presented = [])

/-- Without a beat on RX, the committed beats move on. -/
theorem Delivers.quiet (h : Delivers s g cur ready part out)
    (hgood : ∀ p ∈ goodFrames g.closed, IsPacket Beat.anyEop p ∧ ∀ b ∈ p, b.anyValid = true)
    (hquiet : i.rx.anyValid = false) :
    ∃ cur' ready' part', Delivers (s.step i) g cur' ready' part' (out ++ s.taken i) ∧
      (s.taken i).length + (s.step i).presented.length + (cur' ++ ready'.flatten).length =
        s.presented.length + (cur ++ ready.flatten).length := by
  have harrival : s.arrival i = [] := by
    rw [arrival, hquiet]
    rfl
  have hsafe : Safe s i := fun hvalid => by rw [hquiet] at hvalid; cases hvalid
  have hrun : Runs.run (Packets.push fun y : Beat × Bool => y.1.anyEop) g (s.arrival i) = g := by
    rw [harrival, Runs.run_nil]
  obtain ⟨cur', ready', part', h', -⟩ := h.step (by rwa [hrun])
    (fun hvalid => by rw [hquiet] at hvalid; cases hvalid) hsafe
  rw [hrun] at h'
  refine ⟨cur', ready', part', h', ?_⟩
  have hflow := congrArg List.length (h.flow.symm.trans h'.flow)
  simp only [List.length_append] at hflow ⊢
  omega

/-- **A quiet cycle.** -/
theorem Within.step {k : ℕ} (h : Within k s g out) (hn : n < 16)
    (hgood : ∀ p ∈ goodFrames g.closed, IsPacket Beat.anyEop p ∧ ∀ b ∈ p, b.anyValid = true)
    (hquiet : i.rx.anyValid = false) :
    Within (if i.txReady then k - 1 else k) (s.step i) g (out ++ s.taken i) := by
  obtain ⟨cur, ready, part, h, hleft⟩ := h
  obtain ⟨cur', ready', part', h', hlen⟩ := h.quiet hgood hquiet
  refine ⟨cur', ready', part', h', ?_⟩
  cases hfree : s.outFree i with
  | true =>
    rw [taken_of_free h.sends.txVld hfree] at hlen
    by_cases hempty : cur ++ ready.flatten = []
    · right
      rw [hempty, List.length_nil] at hlen
      exact ⟨List.eq_nil_of_length_eq_zero (by omega), List.eq_nil_of_length_eq_zero (by omega)⟩
    · left
      have hpresents := List.length_pos_of_ne_nil (h.presents hn hfree hempty)
      have hlt := hleft.resolve_right fun hboth => hempty hboth.1
      split <;> omega
  | false =>
    have hready : i.txReady = false := by
      rw [outFree, Bool.or_eq_false_iff] at hfree
      exact hfree.2
    obtain ⟨htaken, htx⟩ := taken_of_not_free (by rw [hfree]; exact Bool.false_ne_true)
    have hshown : (s.step i).presented = s.presented := by
      change (if (s.txSide i).tx.anyValid then [(s.txSide i).tx] else []) = _
      rw [htx]
      rfl
    rw [htaken, hshown, List.length_nil] at hlen
    rw [hready, hshown]
    rcases hleft with hlt | ⟨hempty, hpresented⟩
    · left
      rw [if_neg Bool.false_ne_true]
      omega
    · right
      rw [hempty, List.length_nil] at hlen
      exact ⟨List.eq_nil_of_length_eq_zero (by omega), hpresented⟩

/-- Beats come on RX in none of the cycles. -/
def Quiet (is : List Inputs) : Prop := ∀ i ∈ is, i.rx.anyValid = false

/-- **Quiet cycles.** -/
theorem Within.run {k : ℕ} (h : Within k s g out) (hn : n < 16)
    (hgood : ∀ p ∈ goodFrames g.closed, IsPacket Beat.anyEop p ∧ ∀ b ∈ p, b.anyValid = true)
    {is : List Inputs} (hquiet : Quiet is) :
    Within (k - is.countP Inputs.txReady) (Runs.run Loopback.step s is) g
      (out ++ takenIn s is) := by
  induction is generalizing s k out with
  | nil =>
    rw [takenIn, Runs.trace, List.append_nil]
    exact h
  | cons i is ih =>
    obtain ⟨hi, his⟩ := List.forall_mem_cons.mp hquiet
    have hrest := ih (h.step hn hgood hi) his
    rw [Runs.run_cons, takenIn, Runs.trace, ← takenIn, ← List.append_assoc]
    have hcount : (if i.txReady then k - 1 else k) - is.countP Inputs.txReady =
        k - (i :: is).countP Inputs.txReady := by
      rw [List.countP_cons]
      split <;> omega
    rwa [hcount] at hrest

theorem arrivedIn_quiet (s : Loopback n) {is : List Inputs} (hquiet : Quiet is) :
    arrivedIn s is = [] := by
  induction is generalizing s with
  | nil => rfl
  | cons i is ih =>
    obtain ⟨hi, his⟩ := List.forall_mem_cons.mp hquiet
    have hrest := ih (s.step i) his
    rw [arrivedIn] at hrest
    rw [arrivedIn, Runs.trace, arrival, hi, hrest]
    rfl

/-! ### The counters -/

/-- The counters stand for the frames that were received, those that were dropped and those that
were sent; of the accepted frames, those that are not sent are behind `pkt_rd`. -/
structure Counts (s : Loopback n) (closed kept : ℕ) : Prop where
  received : s.rx.rxPktCnt = BitVec.ofNat 32 closed
  dropped : s.rx.dropCnt + BitVec.ofNat 32 kept = s.rx.rxPktCnt
  sent : ∃ sent, s.tx.txPktCnt = BitVec.ofNat 32 sent ∧ s.tx.pktRd = BitVec.ofNat 16 sent ∧
    sent + (s.rx.pktWr - s.tx.pktRd).toNat = kept

/-- The counters of the RX side behind a valid beat. -/
theorem counters_rxSide (hvalid : i.rx.anyValid = true) :
    (s.rxSide i).rxPktCnt = (if i.rx.anyEop then s.rx.rxPktCnt + 1 else s.rx.rxPktCnt) ∧
      (s.rxSide i).dropCnt = (if i.rx.anyEop && (s.rx.dropPkt || i.rx.anyErr) then s.rx.dropCnt + 1
        else s.rx.dropCnt) := by
  unfold rxSide
  rw [if_pos hvalid]
  cases i.rx.anySop <;> cases i.rx.anyEop <;> cases hdrop : s.rx.dropPkt <;>
    cases i.rx.anyErr <;> cases s.full <;> simp [hdrop]

/-- The counters of the TX side go up together. -/
theorem counters_txSide (s : Loopback n) (i : Inputs) :
    ((s.txSide i).txPktCnt = s.tx.txPktCnt ∧ (s.txSide i).pktRd = s.tx.pktRd) ∨
      ((s.txSide i).txPktCnt = s.tx.txPktCnt + 1 ∧ (s.txSide i).pktRd = s.tx.pktRd + 1) := by
  unfold txSide
  dsimp only
  repeat' split
  all_goals first | exact .inl ⟨rfl, rfl⟩ | exact .inr ⟨rfl, rfl⟩

theorem toNat_ofNat_sub {a b r : ℕ} (h : a = b + r) (hr : r < 2 ^ 16) :
    (BitVec.ofNat 16 a - BitVec.ofNat 16 b).toNat = r := by
  rw [h, BitVec.ofNat_add, BitVec.add_comm, BitVec.add_sub_cancel, BitVec.toNat_ofNat,
    Nat.mod_eq_of_lt hr]

/-- The number of frames that are not sent stays small, and so stays exact. -/
theorem sent_step {sent sent' kept kept' : ℕ} {r r' : ℕ} (hr : r ≤ 2 ^ 15) (hr' : r' ≤ 2 ^ 15)
    (hsum : sent + r = kept) (hkept : kept' = kept ∨ kept' = kept + 1)
    (hsent : sent' = sent ∨ sent' = sent + 1)
    (hbehind : (BitVec.ofNat 16 kept' - BitVec.ofNat 16 sent').toNat = r') :
    sent' + r' = kept' := by
  rcases Nat.lt_or_ge kept' sent' with hlt | hge
  · -- one frame too many would look like `2 ^ 16 - 1` frames
    have hone : sent' = kept' + 1 := by omega
    rw [hone, BitVec.ofNat_add, BitVec.toNat_sub, BitVec.toNat_add, BitVec.toNat_ofNat,
      BitVec.toNat_ofNat] at hbehind
    omega
  · obtain ⟨d, hd⟩ := Nat.exists_eq_add_of_le hge
    have hexact := toNat_ofNat_sub hd (by omega)
    omega

theorem length_goodFrames_concat (fs : List (List (Beat × Bool))) (f : List (Beat × Bool)) :
    (goodFrames (fs ++ [f])).length = (goodFrames fs).length ∨
      (goodFrames (fs ++ [f])).length = (goodFrames fs).length + 1 := by
  rw [goodFrames_append, List.length_append]
  unfold goodFrames
  rw [List.filter_cons]
  split
  · exact .inr rfl
  · exact .inl rfl

/-- The frames after a clock edge. -/
theorem closed_arrival (s : Loopback n) (i : Inputs) (g : Packets (Beat × Bool)) :
    (Runs.run (Packets.push fun y : Beat × Bool => y.1.anyEop) g (s.arrival i)).closed =
      if i.rx.anyValid && i.rx.anyEop then g.closed ++ [g.current ++ [(i.rx, s.full)]]
      else g.closed := by
  unfold arrival
  cases hvalid : i.rx.anyValid with
  | false => rfl
  | true =>
    rw [if_pos rfl, Runs.run_cons, Runs.run_nil, push]
    cases heop : i.rx.anyEop with
    | true => rfl
    | false => rfl

/-- What the counters of the RX side tell about the frames of a clock edge. -/
theorem Delivers.counters {cur' part' out' : List Beat} {ready' : List (List Beat)}
    {g' : Packets (Beat × Bool)}
    (hs : Delivers s g cur ready part out) (hs' : Delivers (s.step i) g' cur' ready' part' out')
    (hg' : g' = Runs.run (Packets.push fun y : Beat × Bool => y.1.anyEop) g (s.arrival i)) :
    ∃ closed dropped kept,
      g'.closed.length = g.closed.length + closed ∧
      (s.rxSide i).rxPktCnt = s.rx.rxPktCnt + BitVec.ofNat 32 closed ∧
      (s.rxSide i).dropCnt = s.rx.dropCnt + BitVec.ofNat 32 dropped ∧
      (goodFrames g'.closed).length = (goodFrames g.closed).length + kept ∧
      dropped + kept = closed ∧ kept ≤ 1 := by
  have hcounted : (s.rxSide i).pktWr = BitVec.ofNat 16 (goodFrames g'.closed).length := hs'.counted
  have hclosed := closed_arrival s i g
  rw [← hg'] at hclosed
  cases hends : i.rx.anyValid && i.rx.anyEop with
  | false =>
    rw [hends, if_neg Bool.false_ne_true] at hclosed
    refine ⟨0, 0, 0, by rw [hclosed]; rfl, ?_, ?_, by rw [hclosed]; rfl, rfl, by omega⟩
    all_goals
      rw [BitVec.add_zero]
      cases hvalid : i.rx.anyValid with
      | false => simp [rxSide, hvalid]
      | true =>
        rw [hvalid, Bool.true_and] at hends
        simp [counters_rxSide hvalid, hends]
  | true =>
    rw [hends, if_pos rfl] at hclosed
    obtain ⟨hvalid, heop⟩ := Bool.and_eq_true_iff.mp hends
    obtain ⟨hrx, hdrop⟩ := counters_rxSide (s := s) hvalid
    obtain ⟨-, -, -, -, hwr⟩ := rxSide_of_valid (s := s) hvalid
    rw [heop] at hrx hdrop hwr
    have hkept := length_goodFrames_concat g.closed (g.current ++ [(i.rx, s.full)])
    rw [← hclosed] at hkept
    have hone : BitVec.ofNat 16 ((goodFrames g.closed).length + 1) ≠
        BitVec.ofNat 16 (goodFrames g.closed).length := by
      intro heq
      have hmod := congrArg BitVec.toNat heq
      rw [BitVec.toNat_ofNat, BitVec.toNat_ofNat] at hmod
      omega
    have hlength : g'.closed.length = g.closed.length + 1 := by
      rw [hclosed, List.length_append]
      rfl
    cases hbad : s.rx.dropPkt || i.rx.anyErr with
    | true =>
      rw [hbad] at hdrop hwr
      refine ⟨1, 1, 0, hlength, hrx, hdrop, ?_, rfl, by omega⟩
      refine hkept.resolve_right fun heq => hone ?_
      rw [← heq, ← hcounted, hwr, hs.counted]
      rfl
    | false =>
      rw [hbad] at hdrop hwr
      refine ⟨1, 0, 1, hlength, hrx, by rw [hdrop]; exact (BitVec.add_zero _).symm, ?_, rfl,
        Nat.le_refl 1⟩
      refine hkept.resolve_left fun heq => hone ?_
      rw [← heq, ← hcounted, hwr, BitVec.ofNat_add, heq, ← hs.counted]
      rfl

/-- **A clock edge.** -/
theorem Counts.step {cur' part' out' : List Beat} {ready' : List (List Beat)}
    {g' : Packets (Beat × Bool)} (hn : n < 16)
    (h : Counts s g.closed.length (goodFrames g.closed).length)
    (hs : Delivers s g cur ready part out) (hs' : Delivers (s.step i) g' cur' ready' part' out')
    (hg' : g' = Runs.run (Packets.push fun y : Beat × Bool => y.1.anyEop) g (s.arrival i)) :
    Counts (s.step i) g'.closed.length (goodFrames g'.closed).length := by
  obtain ⟨closed, dropped, kept, hclosed, hrx, hdrop, hkept, hsum, hle⟩ := hs.counters hs' hg'
  have hpow : 2 ^ n ≤ 2 ^ 15 := Nat.pow_le_pow_right (by omega) (by omega)
  refine ⟨?_, ?_, ?_⟩
  · change (s.rxSide i).rxPktCnt = _
    rw [hrx, h.received, hclosed, BitVec.ofNat_add]
  · change (s.rxSide i).dropCnt + _ = (s.rxSide i).rxPktCnt
    rw [hrx, hdrop, hkept, ← hsum, BitVec.ofNat_add, BitVec.ofNat_add, ← h.dropped]
    ac_rfl
  · obtain ⟨sent, htx, hrd, hbehind⟩ := h.sent
    have hr : (s.rx.pktWr - s.tx.pktRd).toNat ≤ 2 ^ 15 := by
      rw [hs.behind hn]
      exact Nat.le_trans hs.waiting_le hpow
    have hr' : ((s.step i).rx.pktWr - (s.step i).tx.pktRd).toNat ≤ 2 ^ 15 := by
      rw [hs'.behind hn]
      exact Nat.le_trans hs'.waiting_le hpow
    have hkept' : (goodFrames g'.closed).length = (goodFrames g.closed).length ∨
        (goodFrames g'.closed).length = (goodFrames g.closed).length + 1 := by omega
    obtain ⟨sent', hsent', htx', hrd'⟩ : ∃ sent', (sent' = sent ∨ sent' = sent + 1) ∧
        (s.txSide i).txPktCnt = BitVec.ofNat 32 sent' ∧
        (s.txSide i).pktRd = BitVec.ofNat 16 sent' := by
      rcases counters_txSide s i with ⟨htx', hrd'⟩ | ⟨htx', hrd'⟩
      · exact ⟨sent, .inl rfl, htx'.trans htx, hrd'.trans hrd⟩
      · refine ⟨sent + 1, .inr rfl, ?_, ?_⟩
        · rw [htx', htx, BitVec.ofNat_add]
          rfl
        · rw [hrd', hrd, BitVec.ofNat_add]
          rfl
    refine ⟨sent', htx', hrd', sent_step hr hr' hbehind hkept' hsent' ?_⟩
    have hwr : (s.step i).rx.pktWr = BitVec.ofNat 16 (goodFrames g'.closed).length := hs'.counted
    have hrd'' : (s.step i).tx.pktRd = BitVec.ofNat 16 sent' := hrd'
    rw [hwr, hrd'']

/-! ### Runs -/

theorem wholeBeats_quiet {is js : List Inputs} (hwhole : WholeBeats (is.map Inputs.rx))
    (hquiet : Quiet js) : WholeBeats ((is ++ js).map Inputs.rx) := by
  induction js using List.reverseRecOn with
  | nil => rwa [List.append_nil]
  | append_singleton js j ih =>
    obtain ⟨hjs, hj⟩ := List.forall_mem_append.mp hquiet
    rw [← List.append_assoc, List.map_append, List.map_singleton, WholeBeats,
      Runs.stepsMeet_concat]
    refine ⟨ih hjs, fun hvalid => ?_⟩
    rw [hj j (List.mem_singleton_self j)] at hvalid
    cases hvalid

theorem safe_quiet {s₀ : Loopback n} {is js : List Inputs}
    (hsafe : Runs.StepsMeet Loopback.step Safe s₀ is) (hquiet : Quiet js) :
    Runs.StepsMeet Loopback.step Safe s₀ (is ++ js) := by
  induction js using List.reverseRecOn with
  | nil => rwa [List.append_nil]
  | append_singleton js j ih =>
    obtain ⟨hjs, hj⟩ := List.forall_mem_append.mp hquiet
    rw [← List.append_assoc, Runs.stepsMeet_concat]
    refine ⟨ih hjs, fun hvalid => ?_⟩
    rw [hj j (List.mem_singleton_self j)] at hvalid
    cases hvalid

/-- **Any run of steps that do not go wrong.** -/
theorem counts_run (mem : BitVec n → Beat) (hn : n < 16) {is : List Inputs}
    (hwhole : WholeBeats (is.map Inputs.rx))
    (hsafe : Runs.StepsMeet Loopback.step Safe (reset mem) is) :
    Counts (Runs.run Loopback.step (reset mem) is) (markedFrames (reset mem) is).closed.length
      (accepted (reset mem) is).length := by
  induction is using List.reverseRecOn with
  | nil =>
    have heq : (reset mem).rx.pktWr = (reset mem).tx.pktRd := rfl
    refine ⟨rfl, rfl, 0, rfl, rfl, ?_⟩
    rw [Runs.run_nil, heq, BitVec.sub_self]
    rfl
  | append_singleton is i ih =>
    obtain ⟨cur', ready', part', hs', -⟩ := delivers_run mem hwhole hsafe
    rw [WholeBeats, List.map_append, List.map_singleton, Runs.stepsMeet_concat] at hwhole
    rw [Runs.stepsMeet_concat] at hsafe
    obtain ⟨cur, ready, part, hs, -⟩ := delivers_run mem hwhole.1 hsafe.1
    rw [Runs.run_append] at hs' ⊢
    exact (ih hwhole.1 hsafe.1).step hn hs hs' (markedFrames_concat _ _ _)

/-- **The loopback runs empty.** After a run on frames that occupy whole beats and without a step
that goes wrong, when no more beats come on RX and TX has been ready as many times as the FIFO has
entries, and once more, exactly the accepted frames have been taken on TX, and the counters tell
how many frames were received, sent and dropped. -/
theorem drained (mem : BitVec n → Beat) (hn : n < 16) {is js : List Inputs}
    (hwhole : WholeBeats (is.map Inputs.rx))
    (hsafe : Runs.StepsMeet Loopback.step Safe (reset mem) is) (hquiet : Quiet js)
    (hready : 2 ^ n + 1 ≤ js.countP Inputs.txReady) :
    let s := Runs.run Loopback.step (reset mem) (is ++ js)
    takenIn (reset mem) (is ++ js) = (accepted (reset mem) is).flatten ∧
      txFrames (reset mem) (is ++ js) = accepted (reset mem) is ∧ s.presented = [] ∧
      s.rx.rxPktCnt = BitVec.ofNat 32 (rxFrames is).length ∧
      s.tx.txPktCnt = BitVec.ofNat 32 (accepted (reset mem) is).length ∧
      s.rx.dropCnt + s.tx.txPktCnt = s.rx.rxPktCnt := by
  intro s
  have hgood := accepted_spec (reset mem) is
  have hmarked : markedFrames (reset mem) (is ++ js) = markedFrames (reset mem) is := by
    rw [markedFrames, arrivedIn, Runs.trace_append, ← arrivedIn, ← arrivedIn,
      arrivedIn_quiet _ hquiet, List.append_nil, markedFrames]
  have htaken : takenIn (reset mem) (is ++ js) = takenIn (reset mem) is ++
      takenIn (Runs.run Loopback.step (reset mem) is) js := Runs.trace_append ..
  obtain ⟨cur, ready, part, hs, -⟩ := delivers_run mem hwhole hsafe
  have hbefore : Within (2 ^ n + 1) (Runs.run Loopback.step (reset mem) is)
      (markedFrames (reset mem) is) (takenIn (reset mem) is) :=
    ⟨cur, ready, part, hs, .inl (Nat.lt_succ_of_le hs.length_le)⟩
  have hafter := hbefore.run hn hgood hquiet
  rw [Nat.sub_eq_zero_of_le hready, ← Runs.run_append, ← htaken] at hafter
  obtain ⟨cur', ready', part', hs', hleft⟩ := hafter
  obtain ⟨hempty, hpresented⟩ := hleft.resolve_left (Nat.not_lt_zero _)
  have hflow : (accepted (reset mem) is).flatten = takenIn (reset mem) (is ++ js) := by
    have hflow := hs'.flow
    rwa [hempty, hpresented, List.append_nil, List.append_nil] at hflow
  have hcounts : Counts s (markedFrames (reset mem) is).closed.length
      (accepted (reset mem) is).length := by
    have hcounts := counts_run mem hn (wholeBeats_quiet hwhole hquiet) (safe_quiet hsafe hquiet)
    rwa [accepted, hmarked] at hcounts
  have hframes : (rxFrames is).length = (markedFrames (reset mem) is).closed.length := by
    rw [rxFrames, ← map_markedFrames (reset mem)]
    exact List.length_map _
  obtain ⟨sent, htx, -, hbehind⟩ := hcounts.sent
  have hnone : (s.rx.pktWr - s.tx.pktRd).toNat = 0 := by
    obtain ⟨hcur, hready'⟩ := List.append_eq_nil_iff.mp hempty
    have hle := length_le_length_flatten hs'.sends.packets
    have hsending : s.tx.sending = false := by
      by_contra hsending
      exact hs'.sends.sending.mp (Bool.not_eq_false _ ▸ hsending) hcur
    rw [hready', List.length_nil] at hle
    have hbehind := hs'.behind hn
    rw [hsending, Nat.eq_zero_of_le_zero hle] at hbehind
    exact hbehind
  rw [hnone, Nat.add_zero] at hbehind
  rw [hbehind] at htx
  refine ⟨hflow.symm, ?_, hpresented, ?_, htx, ?_⟩
  · rw [txFrames, ← hflow, start, run_flatten fun p hp => (hgood p hp).1, List.nil_append]
  · rw [hframes, hcounts.received]
  · rw [htx, hcounts.dropped]

/-- The run of two frames, and ten ready cycles, with a FIFO of eight entries. -/
theorem drained_twoGood :
    let s₀ := reset fun _ : BitVec 3 => (quiet true).rx
    let js := List.replicate 10 (quiet true)
    let s := Runs.run Loopback.step s₀ (twoGood ++ js)
    takenIn s₀ (twoGood ++ js) = (accepted s₀ twoGood).flatten ∧
      txFrames s₀ (twoGood ++ js) = accepted s₀ twoGood ∧ s.presented = [] ∧
      s.rx.rxPktCnt = BitVec.ofNat 32 (rxFrames twoGood).length ∧
      s.tx.txPktCnt = BitVec.ofNat 32 (accepted s₀ twoGood).length ∧
      s.rx.dropCnt + s.tx.txPktCnt = s.rx.rxPktCnt :=
  drained _ (by decide) (by decide) (by decide)
    (fun j hj => by rw [List.eq_of_mem_replicate hj]; rfl) (by decide)

end Loopback

end SecureWan.EthLoopback
