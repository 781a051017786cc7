import SecureWan.EthLoopback.FrameStore

/-!
# Delivery of frames

What is taken on TX are the good frames of RX, in order, beat by beat. What is missing of them
is on the interface and in the FIFO.
-/

namespace SecureWan.EthLoopback

open Packets

namespace Loopback

variable {n : ℕ} {s : Loopback n} {i : Inputs} {g : Packets (Beat × Bool)}
  {cur part committed : List Beat} {ready : List (List Beat)}

/-! ### The TX side -/

/-- The TX side has the rest of a frame to send and behind it the other committed frames. -/
structure Sends (t : TxSide n) (pktWr : BitVec 16) (cur : List Beat)
    (ready : List (List Beat)) : Prop where
  sending : t.sending = true ↔ cur ≠ []
  rest : cur ≠ [] → IsPacket Beat.anyEop cur
  packets : ∀ p ∈ ready, IsPacket Beat.anyEop p
  count : pktWr = t.pktRd + BitVec.ofNat 16 (ready.length + t.sending.toNat)
  valid : ∀ b ∈ cur ++ ready.flatten, b.anyValid = true
  txVld : t.txVld = t.tx.anyValid

/-- What the TX side does at a clock edge: some committed beats move to the interface. -/
structure Moves (s : Loopback n) (i : Inputs) (cur : List Beat) (ready : List (List Beat))
    (moved cur' : List Beat) (ready' : List (List Beat)) : Prop where
  sends : Sends (s.txSide i) s.rx.pktWr cur' ready'
  front : cur ++ ready.flatten = moved ++ (cur' ++ ready'.flatten)
  rdPtr : (s.txSide i).rdPtr = Ring.ahead s.tx.rdPtr moved.length
  shown : s.taken i ++ (s.step i).presented = s.presented ++ moved

/-- Besides, whole frames are begun, and a frame that is being sent is on the interface. -/
structure Continues (s : Loopback n) (i : Inputs) (cur : List Beat) (ready : List (List Beat))
    (moved cur' : List Beat) (ready' : List (List Beat)) : Prop where
  whole : ∃ begun, ready = begun ++ ready' ∧ cur ++ begun.flatten = moved ++ cur'
  busy : cur' ≠ [] → (cur ≠ [] → s.presented ≠ []) → (s.step i).presented ≠ []

theorem taken_of_free (htxVld : s.tx.txVld = s.tx.tx.anyValid) (hfree : s.outFree i = true) :
    s.taken i = s.presented := by
  unfold taken presented
  unfold outFree at hfree
  rw [htxVld] at hfree
  cases hvalid : s.tx.tx.anyValid with
  | false => rfl
  | true =>
    rw [hvalid] at hfree
    have hready : i.txReady = true := hfree
    rw [hready]
    rfl

theorem taken_of_not_free (hfree : ¬ s.outFree i = true) :
    s.taken i = [] ∧ s.txSide i = s.tx := by
  constructor
  · unfold taken
    unfold outFree at hfree
    cases hready : i.txReady with
    | false => simp
    | true => simp [hready] at hfree
  · rw [txSide, if_neg hfree]

theorem add_ofNat_succ (p : BitVec 16) (k : ℕ) :
    p + BitVec.ofNat 16 (k + 1) = p + 1 + BitVec.ofNat 16 k := by
  rw [BitVec.ofNat_add, BitVec.add_comm (BitVec.ofNat 16 k), ← BitVec.add_assoc]
  rfl

/-- The first committed beat moves to the interface. -/
theorem Sends.next {x : Beat} {cur' : List Beat} {ready' : List (List Beat)} {t : TxSide n}
    (h : Sends s.tx s.rx.pktWr cur ready) (hfree : s.outFree i = true)
    {f : List (List Beat)} (hbegun : ready = f ++ ready')
    (hwhole : cur ++ f.flatten = x :: cur') (ht : s.txSide i = t) (htx : t.tx = x)
    (htxVld : t.txVld = true) (hrdPtr : t.rdPtr = s.tx.rdPtr + 1)
    (hsending : t.sending = true ↔ cur' ≠ []) (hcur : cur' ≠ [] → IsPacket Beat.anyEop cur')
    (hcount : s.rx.pktWr = t.pktRd + BitVec.ofNat 16 (ready'.length + t.sending.toNat)) :
    Moves s i cur ready [x] cur' ready' ∧ Continues s i cur ready [x] cur' ready' := by
  have hfront : cur ++ ready.flatten = x :: (cur' ++ ready'.flatten) := by
    rw [hbegun, List.flatten_append, ← List.append_assoc, hwhole, List.cons_append]
  have hvalid : ∀ b ∈ x :: (cur' ++ ready'.flatten), b.anyValid = true := hfront ▸ h.valid
  obtain ⟨hx, hrest⟩ := List.forall_mem_cons.mp hvalid
  have hshown : (s.step i).presented = [x] := by
    change (if (s.txSide i).tx.anyValid then [(s.txSide i).tx] else []) = [x]
    rw [ht, htx, if_pos hx]
  have hpackets : ∀ p ∈ ready', IsPacket Beat.anyEop p :=
    fun p hp => h.packets p (hbegun ▸ List.mem_append_right _ hp)
  constructor
  · constructor
    · rw [ht]
      exact ⟨hsending, hcur, hpackets, hcount, hrest, by rw [htxVld, htx, hx]⟩
    · exact hfront
    · rw [ht]
      exact hrdPtr
    · rw [taken_of_free h.txVld hfree, hshown]
  · refine ⟨⟨f, hbegun, hwhole⟩, fun _ _ => ?_⟩
    rw [hshown]
    exact List.cons_ne_nil _ _

/-- A committed beat is at the read pointer. -/
theorem Stores.dout {x : Beat} {l : List Beat}
    (h : Stores s.rx s.tx.rdPtr g committed part) (hfront : committed = x :: l) :
    s.empty = false ∧ s.dout = x := by
  have hholds := h.holds
  rw [hfront, List.cons_append] at hholds
  refine ⟨?_, hholds.head⟩
  rw [← Bool.not_eq_true, empty, beq_iff_eq, hholds.empty_iff]
  exact List.cons_ne_nil _ _

/-- The interface is taken, and the TX side waits. -/
theorem Sends.wait (h : Sends s.tx s.rx.pktWr cur ready) (hfree : ¬ s.outFree i = true) :
    Moves s i cur ready [] cur ready ∧ Continues s i cur ready [] cur ready := by
  obtain ⟨htaken, ht⟩ := taken_of_not_free hfree
  have hshown : (s.step i).presented = s.presented := by
    change (if (s.txSide i).tx.anyValid then [(s.txSide i).tx] else []) = _
    rw [ht]
    rfl
  constructor
  · refine ⟨?_, rfl, ?_, ?_⟩
    · rw [ht]
      exact h
    · rw [ht]
      exact (Ring.ahead_zero _).symm
    · rw [htaken, hshown, List.nil_append, List.append_nil]
  · refine ⟨⟨[], rfl, List.append_nil _⟩, fun hcur hbusy => ?_⟩
    rw [hshown]
    exact hbusy hcur

/-- No frame is committed, and the interface becomes idle. -/
theorem Sends.pause (h : Sends s.tx s.rx.pktWr [] ready) (hfree : s.outFree i = true)
    (hsending : s.tx.sending = false) (havail : s.pktAvail = false) :
    Moves s i [] ready [] [] ready ∧ Continues s i [] ready [] [] ready := by
  have ht : s.txSide i = { s.tx with
      txVld := false
      tx := { s.tx.tx with valid := 0, sop := 0, eop := 0 } } := by
    simp [Loopback.txSide, hfree, hsending, havail]
  have hinvalid : ({ s.tx.tx with valid := 0, sop := 0, eop := 0 } : Beat).anyValid = false := rfl
  have hshown : (s.step i).presented = [] := by
    change (if (s.txSide i).tx.anyValid then [(s.txSide i).tx] else []) = []
    rw [ht, hinvalid]
    rfl
  constructor
  · refine ⟨?_, rfl, ?_, ?_⟩
    · rw [ht]
      exact ⟨h.sending, h.rest, h.packets, h.count, h.valid, hinvalid.symm⟩
    · rw [ht]
      exact (Ring.ahead_zero _).symm
    · rw [taken_of_free h.txVld hfree, hshown]
  · exact ⟨⟨[], rfl, rfl⟩, fun hcur => absurd rfl hcur⟩

/-- The next beat of the frame that is being sent. -/
theorem Sends.resume (h : Sends s.tx s.rx.pktWr cur ready)
    (hstores : Stores s.rx s.tx.rdPtr g (cur ++ ready.flatten) part)
    (hfree : s.outFree i = true) (hsending : s.tx.sending = true) :
    ∃ moved cur' ready', Moves s i cur ready moved cur' ready' ∧
      Continues s i cur ready moved cur' ready' := by
  obtain ⟨x, cur', rfl⟩ := List.exists_cons_of_ne_nil (h.sending.mp hsending)
  obtain ⟨hnot, hx⟩ := hstores.dout (List.cons_append ..)
  have hcount := h.count
  refine ⟨[x], cur', ready, ?_⟩
  rcases (h.rest (by simp)).cons with ⟨hlast, rfl⟩ | ⟨hlast, hrest⟩
  · apply h.next (t := { s.tx with
      tx := x
      txVld := true
      rdPtr := s.tx.rdPtr + 1
      sending := false
      txPktCnt := s.tx.txPktCnt + 1
      pktRd := s.tx.pktRd + 1 }) (f := []) hfree rfl (List.append_nil _)
    · simp [Loopback.txSide, hfree, hsending, hnot, hx, hlast]
    · rfl
    · rfl
    · rfl
    · simp
    · simp
    · rw [hcount, hsending]
      exact add_ofNat_succ _ _
  · apply h.next (t := { s.tx with
      tx := x
      txVld := true
      rdPtr := s.tx.rdPtr + 1 }) (f := []) hfree rfl (List.append_nil _)
    · simp [Loopback.txSide, hfree, hsending, hnot, hx, hlast]
    · rfl
    · rfl
    · rfl
    · simp [hsending, hrest.ne_nil]
    · exact fun _ => hrest
    · exact hcount

/-- The first beat of the next committed frame. -/
theorem Sends.begin (h : Sends s.tx s.rx.pktWr [] ready)
    (hstores : Stores s.rx s.tx.rdPtr g ready.flatten part)
    (hfree : s.outFree i = true) (hsending : s.tx.sending = false)
    (havail : s.pktAvail = true) :
    ∃ moved cur' ready', Moves s i [] ready moved cur' ready' ∧
      Continues s i [] ready moved cur' ready' := by
  have hcount := h.count
  rw [hsending] at hcount
  have hne : ready ≠ [] := by
    rintro rfl
    rw [pktAvail, hcount] at havail
    simp at havail
  obtain ⟨p, ready, rfl⟩ := List.exists_cons_of_ne_nil hne
  obtain ⟨hp, -⟩ := List.forall_mem_cons.mp h.packets
  obtain ⟨x, cur', rfl⟩ := List.exists_cons_of_ne_nil hp.ne_nil
  obtain ⟨hnot, hx⟩ := hstores.dout (l := cur' ++ ready.flatten) rfl
  refine ⟨[x], cur', ready, ?_⟩
  rcases hp.cons with ⟨hlast, rfl⟩ | ⟨hlast, hrest⟩
  · apply h.next (t := { s.tx with
      tx := x
      txVld := true
      rdPtr := s.tx.rdPtr + 1
      txPktCnt := s.tx.txPktCnt + 1
      pktRd := s.tx.pktRd + 1 }) (f := [_]) hfree rfl (by simp)
    · simp [Loopback.txSide, hfree, hsending, havail, hnot, hx, hlast]
    · rfl
    · rfl
    · rfl
    · simp [hsending]
    · simp
    · rw [hsending]
      exact hcount.trans (add_ofNat_succ _ _)
  · apply h.next (t := { s.tx with
      tx := x
      txVld := true
      rdPtr := s.tx.rdPtr + 1
      sending := true }) (f := [_]) hfree rfl (by simp)
    · simp [Loopback.txSide, hfree, hsending, havail, hnot, hx, hlast]
    · rfl
    · rfl
    · rfl
    · simp [hrest.ne_nil]
    · exact fun _ => hrest
    · exact hcount

/-- **The TX side.** -/
theorem Sends.txSide (h : Sends s.tx s.rx.pktWr cur ready)
    (hstores : Stores s.rx s.tx.rdPtr g (cur ++ ready.flatten) part) :
    ∃ moved cur' ready', Moves s i cur ready moved cur' ready' ∧
      Continues s i cur ready moved cur' ready' := by
  by_cases hfree : s.outFree i = true
  · cases hsending : s.tx.sending with
    | true => exact h.resume hstores hfree hsending
    | false =>
      have hcur : cur = [] := by
        by_contra hne
        rw [h.sending.mpr hne] at hsending
        cases hsending
      subst hcur
      cases havail : s.pktAvail with
      | true => exact h.begin hstores hfree hsending havail
      | false => exact ⟨[], [], ready, h.pause hfree hsending havail⟩
  · exact ⟨[], cur, ready, h.wait hfree⟩

/-! ### A clock edge -/

/-- The TX side has taken committed beats. -/
theorem Stores.advance {rx : RxSide n} {rdPtr : BitVec (n + 1)} {moved : List Beat}
    (h : Stores rx rdPtr g (moved ++ committed) part) :
    Stores rx (Ring.ahead rdPtr moved.length) g committed part where
  holds := by
    have hholds := h.holds
    rw [List.append_assoc] at hholds
    exact hholds.advance
  dropped := h.dropped
  viable := h.viable
  begins hcur := by rw [h.begins hcur, List.length_append, Ring.ahead_ahead]
  clean := h.clean

/-- Frames have been delivered in order, up to those that wait to be. -/
structure Delivers (s : Loopback n) (g : Packets (Beat × Bool)) (cur : List Beat)
    (ready : List (List Beat)) (part out : List Beat) : Prop where
  stores : Stores s.rx s.tx.rdPtr g (cur ++ ready.flatten) part
  sends : Sends s.tx s.rx.pktWr cur ready
  flow : (goodFrames g.closed).flatten = out ++ s.presented ++ (cur ++ ready.flatten)
  counted : s.rx.pktWr = BitVec.ofNat 16 (goodFrames g.closed).length

theorem delivers_reset (mem : BitVec n → Beat) : Delivers (reset mem) start [] [] [] [] where
  stores :=
    { holds := Ring.holds_nil mem 0
      dropped := fun hyes => by cases hyes
      viable := fun _ => ⟨rfl, by simp [start]⟩
      begins := fun hne => absurd rfl hne
      clean := by simp [start] }
  sends := ⟨by simp [reset], by simp, by simp, rfl, by simp, rfl⟩
  flow := rfl
  counted := rfl

/-- What has been shown on TX are the beats of the frames that have been begun, up to the rest of
the one that is being sent; and that one is on the interface. -/
structure Contiguous (s : Loopback n) (g : Packets (Beat × Bool)) (cur : List Beat)
    (ready : List (List Beat)) (out : List Beat) : Prop where
  begun : ∃ fs, goodFrames g.closed = fs ++ ready ∧ fs.flatten = out ++ s.presented ++ cur
  busy : cur ≠ [] → s.presented ≠ []

theorem contiguous_reset (mem : BitVec n → Beat) : Contiguous (reset mem) start [] [] [] where
  begun := ⟨[], rfl, rfl⟩
  busy hcur := absurd rfl hcur

/-- The frames that the TX side begins at a clock edge are those that were committed before. -/
theorem Contiguous.begins {out moved cur' : List Beat} {ready' : List (List Beat)}
    (h : Contiguous s g cur ready out) (hmoves : Moves s i cur ready moved cur' ready')
    (hcontinues : Continues s i cur ready moved cur' ready') :
    ∃ fs, goodFrames g.closed = fs ++ ready' ∧
      fs.flatten = out ++ s.taken i ++ (s.step i).presented ++ cur' := by
  obtain ⟨fs, hfs, hflatten⟩ := h.begun
  obtain ⟨begun, hready, hwhole⟩ := hcontinues.whole
  refine ⟨fs ++ begun, by rw [hfs, hready, List.append_assoc], ?_⟩
  calc (fs ++ begun).flatten
      = out ++ s.presented ++ (cur ++ begun.flatten) := by
        rw [List.flatten_append, hflatten, List.append_assoc]
    _ = out ++ (s.presented ++ moved) ++ cur' := by
        rw [hwhole]
        simp only [List.append_assoc]
    _ = out ++ s.taken i ++ (s.step i).presented ++ cur' := by
        rw [← hmoves.shown]
        simp only [List.append_assoc]

/-- **A clock edge.** -/
theorem Delivers.step {out : List Beat} (h : Delivers s g cur ready part out)
    (hgood : ∀ p ∈ goodFrames (Runs.run (Packets.push fun y => y.1.anyEop) g
      (s.arrival i)).closed, IsPacket Beat.anyEop p ∧ ∀ b ∈ p, b.anyValid = true)
    (hwhole : i.rx.anyValid = true →
      i.rx.anySop = g.current.isEmpty ∧ (i.rx.anyErr = true → i.rx.anyEop = true))
    (hsafe : Safe s i) :
    ∃ cur' ready' part', Delivers (s.step i)
        (Runs.run (Packets.push fun y => y.1.anyEop) g (s.arrival i)) cur' ready' part'
        (out ++ s.taken i) ∧
      (Contiguous s g cur ready out → Contiguous (s.step i)
        (Runs.run (Packets.push fun y => y.1.anyEop) g (s.arrival i)) cur' ready'
        (out ++ s.taken i)) := by
  obtain ⟨new, part', hrx⟩ := h.stores.rxSide hwhole hsafe
  obtain ⟨moved, cur', ready', htx, hcontinues⟩ := h.sends.txSide h.stores
  have hnew : ∀ p ∈ new, IsPacket Beat.anyEop p ∧ ∀ b ∈ p, b.anyValid = true := by
    intro p hp
    apply hgood
    rw [hrx.good]
    exact List.mem_append_right _ hp
  refine ⟨cur', ready' ++ new, part', ⟨?_, ?_, ?_, ?_⟩, fun hcontiguous => ?_⟩
  · have hstores := hrx.stores
    rw [htx.front, List.append_assoc] at hstores
    change Stores (s.rxSide i) (s.txSide i).rdPtr _ _ _
    rw [htx.rdPtr, List.flatten_append, ← List.append_assoc]
    exact hstores.advance
  · have hold := htx.sends
    constructor
    · exact hold.sending
    · exact hold.rest
    · exact List.forall_mem_append.mpr ⟨hold.packets, fun p hp => (hnew p hp).1⟩
    · change (s.rxSide i).pktWr = (s.txSide i).pktRd + _
      rw [hrx.count, hold.count, List.length_append, Nat.add_right_comm,
        BitVec.ofNat_add _ new.length, ← BitVec.add_assoc]
      rfl
    · rw [List.flatten_append, ← List.append_assoc, List.forall_mem_append]
      refine ⟨hold.valid, fun b hb => ?_⟩
      obtain ⟨p, hp, hbp⟩ := List.mem_flatten.mp hb
      exact (hnew p hp).2 b hbp
    · exact hold.txVld
  · calc (goodFrames (Runs.run (Packets.push fun y => y.1.anyEop) g (s.arrival i)).closed).flatten
        = out ++ (s.presented ++ moved) ++ (cur' ++ ready'.flatten) ++ new.flatten := by
          rw [hrx.good, List.flatten_append, h.flow, htx.front]
          simp only [List.append_assoc]
      _ = out ++ s.taken i ++ (s.step i).presented ++ (cur' ++ (ready' ++ new).flatten) := by
          rw [← htx.shown, List.flatten_append]
          simp only [List.append_assoc]
  · change (s.rxSide i).pktWr = _
    rw [hrx.count, hrx.good, h.counted, List.length_append, BitVec.ofNat_add]
  · obtain ⟨fs, hfs, hflatten⟩ := hcontiguous.begins htx hcontinues
    refine ⟨⟨fs, by rw [hrx.good, hfs, List.append_assoc], hflatten⟩, fun hcur => ?_⟩
    exact hcontinues.busy hcur hcontiguous.busy

/-! ### Runs -/

/-- The valid beats on RX in a run, with marks. -/
def arrivedIn (s : Loopback n) : List Inputs → List (Beat × Bool) := Runs.trace step arrival s

/-- The beats taken on TX in a run. -/
def takenIn (s : Loopback n) : List Inputs → List Beat := Runs.trace step taken s

/-- The frames of RX, with marks. -/
def markedFrames (s : Loopback n) (is : List Inputs) : Packets (Beat × Bool) :=
  Runs.run (Packets.push fun y => y.1.anyEop) start (arrivedIn s is)

/-- The frames of RX that are complete. -/
def rxFrames (is : List Inputs) : List (List Beat) :=
  (Runs.run receive start (is.map Inputs.rx)).closed

/-- The frames of RX without an error bit, of which no beat has met a full FIFO. -/
def accepted (s : Loopback n) (is : List Inputs) : List (List Beat) :=
  goodFrames (markedFrames s is).closed

/-- The frames taken on TX that are complete. -/
def txFrames (s : Loopback n) (is : List Inputs) : List (List Beat) :=
  (Runs.run (Packets.push Beat.anyEop) start (takenIn s is)).closed

/-- The loopback is faithful in a run: the frames taken on TX are, in order and beat by beat,
frames of RX without an error; none of those that have met no full FIFO is left out; what has
not been taken of them is on the interface or in the FIFO; and they are counted. -/
structure Faithful (s₀ : Loopback n) (is : List Inputs) : Prop where
  subsequence : (txFrames s₀ is).Sublist (rxFrames is)
  inOrder : txFrames s₀ is <+: accepted s₀ is
  taken : takenIn s₀ is <+: (accepted s₀ is).flatten
  kept : let s := Runs.run step s₀ is
    (accepted s₀ is).flatten <+:
      takenIn s₀ is ++ s.presented ++ Ring.contents s.rx.mem s.tx.rdPtr s.rx.wrPtr
  counted : (Runs.run step s₀ is).rx.pktWr = BitVec.ofNat 16 (accepted s₀ is).length

theorem markedFrames_concat (s : Loopback n) (is : List Inputs) (i : Inputs) :
    markedFrames s (is ++ [i]) = Runs.run (Packets.push fun y => y.1.anyEop) (markedFrames s is)
      ((Runs.run step s is).arrival i) := by
  rw [markedFrames, arrivedIn, Runs.trace_concat, Runs.run_append]
  rfl

/-- Without the marks, these are the frames of RX. -/
theorem map_markedFrames (s : Loopback n) (is : List Inputs) :
    (markedFrames s is).map Prod.fst = Runs.run receive start (is.map Inputs.rx) := by
  induction is using List.reverseRecOn with
  | nil => rfl
  | append_singleton is i ih =>
    rw [markedFrames_concat, List.map_append, Runs.run_append, ← ih, List.map_singleton,
      Runs.run_cons, Runs.run_nil, receive, arrival]
    split
    · rw [Runs.run_cons, Runs.run_nil]
      exact (push_map (markedFrames s is) (i.rx, (Runs.run step s is).full)).symm
    · rfl

theorem arrival_valid {y : Beat × Bool} (s : Loopback n) {is : List Inputs}
    (hy : y ∈ arrivedIn s is) : y.1.anyValid = true := by
  unfold arrivedIn at hy
  induction is generalizing s with
  | nil => cases hy
  | cons i is ih =>
    rcases List.mem_append.mp hy with hhead | htail
    · unfold arrival at hhead
      split at hhead
      next hvalid =>
        rw [List.mem_singleton.mp hhead]
        exact hvalid
      next => cases hhead
    · exact ih _ htail

/-- Accepted frames are packets of valid beats. -/
theorem accepted_spec (s : Loopback n) (is : List Inputs) :
    ∀ p ∈ accepted s is, IsPacket Beat.anyEop p ∧ ∀ b ∈ p, b.anyValid = true := by
  intro p hp
  obtain ⟨f, hf, rfl⟩ := List.mem_map.mp hp
  have hclosed : f ∈ (markedFrames s is).closed := List.mem_of_mem_filter hf
  constructor
  · exact isPacket_map ((sound_run _).closed f hclosed)
  · intro b hb
    obtain ⟨y, hy, rfl⟩ := List.mem_map.mp hb
    exact arrival_valid s (mem_of_mem_closed hclosed hy)

/-- **Any run of steps that do not go wrong.** -/
theorem delivers_run (mem : BitVec n → Beat) {is : List Inputs}
    (hwhole : WholeBeats (is.map Inputs.rx)) (hsafe : Runs.StepsMeet step Safe (reset mem) is) :
    ∃ cur ready part, Delivers (Runs.run step (reset mem) is) (markedFrames (reset mem) is) cur
        ready part (takenIn (reset mem) is) ∧
      Contiguous (Runs.run step (reset mem) is) (markedFrames (reset mem) is) cur ready
        (takenIn (reset mem) is) := by
  induction is using List.reverseRecOn with
  | nil => exact ⟨[], [], [], delivers_reset mem, contiguous_reset mem⟩
  | append_singleton is i ih =>
    rw [WholeBeats, List.map_append, List.map_singleton, Runs.stepsMeet_concat] at hwhole
    rw [Runs.stepsMeet_concat] at hsafe
    obtain ⟨cur, ready, part, h, hcontiguous⟩ := ih hwhole.1 hsafe.1
    have hbeat := hwhole.2
    rw [← map_markedFrames (reset mem), WholeBeat] at hbeat
    have hgood := accepted_spec (reset mem) (is ++ [i])
    rw [accepted, markedFrames_concat] at hgood
    rw [markedFrames_concat, takenIn, Runs.trace_concat, Runs.run_append]
    have hsop : i.rx.anyValid = true → i.rx.anySop = (markedFrames (reset mem) is).current.isEmpty ∧
        (i.rx.anyErr = true → i.rx.anyEop = true) := by
      intro hvalid
      obtain ⟨hsop, herr⟩ := hbeat hvalid
      exact ⟨by rw [hsop]; simp [Packets.map], herr⟩
    obtain ⟨cur', ready', part', h', hkept⟩ := h.step hgood hsop hsafe.2
    exact ⟨cur', ready', part', h', hkept hcontiguous⟩

/-- **The packet loopback.** In every run on frames that occupy whole beats and without a step
that goes wrong, the loopback is faithful. -/
theorem faithful_of_safe (mem : BitVec n → Beat) {is : List Inputs}
    (hwhole : WholeBeats (is.map Inputs.rx)) (hsafe : Runs.StepsMeet step Safe (reset mem) is) :
    Faithful (reset mem) is := by
  obtain ⟨cur, ready, part, h, -⟩ := delivers_run mem hwhole hsafe
  have hflow : (accepted (reset mem) is).flatten = _ := h.flow
  have hpackets : ∀ p ∈ accepted (reset mem) is, IsPacket Beat.anyEop p :=
    fun p hp => (accepted_spec (reset mem) is p hp).1
  have htaken : takenIn (reset mem) is <+: (accepted (reset mem) is).flatten := by
    rw [hflow, List.append_assoc]
    exact List.prefix_append _ _
  have hin : txFrames (reset mem) is <+: accepted (reset mem) is :=
    closed_prefix_of_prefix hpackets htaken
  refine ⟨?_, hin, htaken, ?_, h.counted⟩
  · apply hin.sublist.trans
    have hall : rxFrames is = (markedFrames (reset mem) is).closed.map (List.map Prod.fst) := by
      rw [rxFrames, ← map_markedFrames (reset mem)]
      rfl
    rw [hall]
    exact List.filter_sublist.map _
  · intro s
    have hcontents : Ring.contents s.rx.mem s.tx.rdPtr s.rx.wrPtr =
        cur ++ ready.flatten ++ part := h.stores.holds.contents_eq
    rw [hflow, hcontents]
    exact (List.prefix_append_right_inj _).mpr (List.prefix_append _ _)

/-- A cycle with a valid beat that is all of a frame, or its beginning or its end. -/
def received (data : ℕ) (sop eop error txReady : Bool) : Inputs where
  rx := ⟨BitVec.ofNat 1024 data, 1, if sop then 1 else 0, if eop then 1 else 0,
    if error then 1 else 0, 0⟩
  txReady := txReady

/-- A cycle without a valid beat. -/
def quiet (txReady : Bool) : Inputs := ⟨⟨0, 0, 0, 0, 0, 0⟩, txReady⟩

/-- A frame of two beats, and one of a single beat. -/
def twoGood : List Inputs :=
  [received 1 true false false true, received 2 false true false true,
    received 3 true true false true, quiet true, quiet true]

/-- The steps of a run of two frames do not go wrong. -/
theorem faithful_of_safe_twoGood : Faithful (reset fun _ : BitVec 9 => (quiet true).rx) twoGood :=
  faithful_of_safe _ (by decide) (by decide)

/-- Between good frames comes one of a single beat with an error. -/
def erroredFrame : List Inputs :=
  [received 1 true true false true, received 2 true true true true,
    received 3 true true false true, received 4 true true false true] ++
    List.replicate 4 (quiet true)

/-- A FIFO of two entries is full when the last beat of a frame comes. -/
def fullFifo : List Inputs :=
  [received 1 true true false false, received 2 true true false false,
    received 3 true false false false, received 4 false true false false] ++
    List.replicate 6 (quiet true)

/-- After the frame with an error a good one is lost, and the frame whose last beat met the
full FIFO is counted and sent without it. -/
theorem erroredFrame_unfaithful :
    WholeBeats (erroredFrame.map Inputs.rx) ∧ WholeBeats (fullFifo.map Inputs.rx) ∧
      ¬ Faithful (reset fun _ : BitVec 9 => (quiet true).rx) erroredFrame ∧
      ¬ Faithful (reset fun _ : BitVec 1 => (quiet true).rx) fullFifo := by
  refine ⟨by decide, by decide, fun h => ?_, fun h => ?_⟩
  · have htaken := h.taken
    revert htaken
    decide +kernel
  · have htaken := h.taken
    revert htaken
    decide +kernel

end Loopback

end SecureWan.EthLoopback
