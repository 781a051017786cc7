import SecureWan.EthLoopback.PacketFifo

/-!
# Frames in the packet FIFO

The FIFO holds the committed frames and behind them the beats of the frame that is being
received. The RX side adds to the latter, commits them or takes them back; the TX side takes
from the former. Two kinds of steps break this: a frame of one beat with an error goes back to
the beginning of the frame before, and a last beat that meets a full FIFO is committed
without having been written.
-/

namespace SecureWan.EthLoopback

open Packets

namespace Loopback

variable {n : ℕ} {s : Loopback n} {i : Inputs} {g : Packets (Beat × Bool)}
  {cur part : List Beat} {ready : List (List Beat)}

/-- The step is not one of those that go wrong: a frame of one beat with an error comes while
`sop_ptr` is up to date, and the last beat of a frame without an error finds room, or the
frame is already being dropped. -/
def Safe (s : Loopback n) (i : Inputs) : Prop :=
  i.rx.anyValid = true → i.rx.anyEop = true →
    (i.rx.anyErr = true → i.rx.anySop = true → s.rx.sopPtr = s.rx.wrPtr) ∧
      (i.rx.anyErr = false → s.rx.dropPkt = false → s.full = false)

instance (s : Loopback n) (i : Inputs) : Decidable (Safe s i) :=
  inferInstanceAs (Decidable (_ → _))

/-- The RX side holds some committed beats and behind them those of the open frame, as long as
it is not being dropped. -/
structure Stores (rx : RxSide n) (rdPtr : BitVec (n + 1)) (g : Packets (Beat × Bool))
    (committed part : List Beat) : Prop where
  holds : Ring.Holds rx.mem rdPtr rx.wrPtr (committed ++ part)
  dropped : rx.dropPkt = true → ∃ y ∈ g.current, y.2 = true
  viable : rx.dropPkt = false → part = g.current.map Prod.fst ∧ ∀ y ∈ g.current, y.2 = false
  begins : g.current ≠ [] → rx.sopPtr = Ring.ahead rdPtr committed.length
  clean : ∀ y ∈ g.current, y.1.anyErr = false

/-- What the RX side does at a clock edge. -/
structure Receives (s : Loopback n) (i : Inputs) (g : Packets (Beat × Bool))
    (committed : List Beat) (new : List (List Beat)) (part : List Beat) : Prop where
  stores : Stores (s.rxSide i) s.tx.rdPtr
    (Runs.run (Packets.push fun y => y.1.anyEop) g (s.arrival i)) (committed ++ new.flatten) part
  good : goodFrames (Runs.run (Packets.push fun y => y.1.anyEop) g (s.arrival i)).closed =
    goodFrames g.closed ++ new
  count : (s.rxSide i).pktWr = s.rx.pktWr + BitVec.ofNat 16 new.length

variable {committed : List Beat}

theorem Stores.full_iff (h : Stores s.rx s.tx.rdPtr g committed part) :
    s.full = true ↔ (committed ++ part).length = 2 ^ n := by
  rw [← h.holds.full_iff, ← Ring.msb_ne_and_cell_eq_iff]
  simp [full]

/-- Between two frames nothing is being dropped, and there is no part of a frame. -/
theorem Stores.idle (h : Stores s.rx s.tx.rdPtr g committed part) (hg : g.current = []) :
    s.rx.dropPkt = false ∧ part = [] := by
  have hdrop : s.rx.dropPkt = false := by
    by_contra hdrop
    obtain ⟨y, hy, -⟩ := h.dropped (Bool.not_eq_false _ ▸ hdrop)
    rw [hg] at hy
    cases hy
  refine ⟨hdrop, ?_⟩
  rw [(h.viable hdrop).1, hg]
  rfl

/-- The FIFO takes one more beat. -/
theorem Stores.write (h : Stores s.rx s.tx.rdPtr g committed part) (hroom : s.full = false)
    (b : Beat) :
    Ring.Holds (Function.update s.rx.mem (Ring.cell s.rx.wrPtr) b) s.tx.rdPtr (s.rx.wrPtr + 1)
      (committed ++ (part ++ [b])) := by
  have hlt : (committed ++ part).length < 2 ^ n := by
    apply lt_of_le_of_ne h.holds.length_le
    intro hfull
    rw [h.full_iff.mpr hfull] at hroom
    cases hroom
  rw [← List.append_assoc]
  exact h.holds.push hlt b

theorem goodFrames_append (fs fs' : List (List (Beat × Bool))) :
    goodFrames (fs ++ fs') = goodFrames fs ++ goodFrames fs' := by
  rw [goodFrames, List.filter_append, List.map_append]
  rfl

/-- The registers of the RX side behind a valid beat. -/
theorem rxSide_of_valid (hvalid : i.rx.anyValid = true) :
    (s.rxSide i).mem = (if !s.rx.dropPkt && !s.full then
        Function.update s.rx.mem (Ring.cell s.rx.wrPtr) i.rx else s.rx.mem) ∧
      (s.rxSide i).wrPtr = (if i.rx.anyEop && (s.rx.dropPkt || i.rx.anyErr) then s.rx.sopPtr
        else if !s.rx.dropPkt && !s.full then s.rx.wrPtr + 1 else s.rx.wrPtr) ∧
      (s.rxSide i).sopPtr = (if i.rx.anySop then s.rx.wrPtr else s.rx.sopPtr) ∧
      (s.rxSide i).dropPkt =
        (!i.rx.anyEop && if i.rx.anySop then s.full else s.rx.dropPkt || s.full) ∧
      (s.rxSide i).pktWr = (if i.rx.anyEop && !(s.rx.dropPkt || i.rx.anyErr) then s.rx.pktWr + 1
        else s.rx.pktWr) := by
  unfold rxSide
  rw [if_pos hvalid]
  cases i.rx.anySop <;> cases i.rx.anyEop <;> cases hdrop : s.rx.dropPkt <;>
    cases i.rx.anyErr <;> cases s.full <;> simp [hdrop]

/-- Where the open frame begins, or the next one. -/
theorem Stores.begins_of_sop (h : Stores s.rx s.tx.rdPtr g committed part)
    (hsop : i.rx.anySop = g.current.isEmpty) :
    (if i.rx.anySop then s.rx.wrPtr else s.rx.sopPtr) =
      Ring.ahead s.tx.rdPtr committed.length := by
  by_cases hcur : g.current = []
  · rw [hsop, hcur, List.isEmpty_nil, if_pos rfl, h.holds.wr_eq, (h.idle hcur).2,
      List.append_nil]
  · rw [hsop, List.isEmpty_eq_false_iff.mpr hcur]
    exact h.begins hcur

/-- What is needed of the registers behind a beat that is not the last one. -/
theorem Stores.receives_more (h : Stores s.rx s.tx.rdPtr g committed part)
    (hvalid : i.rx.anyValid = true) (hwhole : i.rx.anySop = g.current.isEmpty)
    (herr : i.rx.anyErr = false) (heop : i.rx.anyEop = false) (part' : List Beat)
    (hholds : Ring.Holds (s.rxSide i).mem s.tx.rdPtr (s.rxSide i).wrPtr (committed ++ part'))
    (hdropped : (s.rxSide i).dropPkt = true → ∃ y ∈ g.current ++ [(i.rx, s.full)], y.2 = true)
    (hviable : (s.rxSide i).dropPkt = false →
      part' = (g.current ++ [(i.rx, s.full)]).map Prod.fst ∧
        ∀ y ∈ g.current ++ [(i.rx, s.full)], y.2 = false) :
    Receives s i g committed [] part' := by
  have hpush : Runs.run (Packets.push fun y : Beat × Bool => y.1.anyEop) g (s.arrival i) =
      { g with current := g.current ++ [(i.rx, s.full)] } := by
    rw [arrival, if_pos hvalid, Runs.run_cons, Runs.run_nil]
    exact push_of_not_last (by simp [heop])
  obtain ⟨-, -, hsopPtr, -, hpktWr⟩ := rxSide_of_valid (s := s) hvalid
  simp only [heop, Bool.false_and, Bool.false_eq_true, if_false] at hpktWr
  have hclean : ∀ y ∈ g.current ++ [(i.rx, s.full)], y.1.anyErr = false :=
    List.forall_mem_append.mpr ⟨h.clean, by simpa using herr⟩
  refine ⟨?_, ?_, ?_⟩
  · rw [hpush, List.flatten_nil, List.append_nil]
    exact ⟨hholds, hdropped, hviable, fun _ => hsopPtr.trans (h.begins_of_sop hwhole), hclean⟩
  · rw [hpush, List.append_nil]
  · rw [hpktWr]
    exact (BitVec.add_zero _).symm

/-- A beat that is not the last one. -/
theorem Stores.more (h : Stores s.rx s.tx.rdPtr g committed part)
    (hvalid : i.rx.anyValid = true) (hwhole : i.rx.anySop = g.current.isEmpty)
    (herr : i.rx.anyErr = false) (heop : i.rx.anyEop = false) :
    ∃ part', Receives s i g committed [] part' := by
  obtain ⟨hmem, hwrPtr, -, hdropPkt, -⟩ := rxSide_of_valid (s := s) hvalid
  simp only [heop, herr, Bool.false_and, Bool.false_eq_true, if_false, Bool.not_false,
    Bool.true_and] at hmem hwrPtr hdropPkt
  have hreceives := h.receives_more hvalid hwhole herr heop
  by_cases hdrop : s.rx.dropPkt = true
  · -- the frame is being dropped
    obtain ⟨y, hy, hmark⟩ := h.dropped hdrop
    have hopen : i.rx.anySop = false := by
      rw [hwhole, List.isEmpty_eq_false_iff]
      exact List.ne_nil_of_mem hy
    rw [hdrop, hopen] at hdropPkt
    rw [hdrop] at hmem hwrPtr
    refine ⟨part, hreceives part ?_ ?_ ?_⟩
    · rw [hmem, hwrPtr]
      exact h.holds
    · exact fun _ => ⟨y, List.mem_append_left _ hy, hmark⟩
    · intro hnot
      rw [hdropPkt] at hnot
      cases hnot
  · rw [Bool.not_eq_true] at hdrop
    obtain ⟨hpart, hmarks⟩ := h.viable hdrop
    cases hfull : s.full with
    | true =>
      -- from here on the frame is dropped
      rw [hdrop, hfull] at hmem hwrPtr hdropPkt
      refine ⟨part, hreceives part ?_ ?_ ?_⟩
      · rw [hmem, hwrPtr]
        exact h.holds
      · exact fun _ => ⟨_, List.mem_append_right _ (List.mem_singleton_self _), hfull⟩
      · intro hnot
        rw [hdropPkt] at hnot
        cases hsop : i.rx.anySop <;> rw [hsop] at hnot <;> cases hnot
    | false =>
      rw [hdrop, hfull] at hmem hwrPtr hdropPkt
      refine ⟨part ++ [i.rx], hreceives (part ++ [i.rx]) ?_ ?_ ?_⟩
      · rw [hmem, hwrPtr]
        exact h.write hfull i.rx
      · intro hyes
        rw [hdropPkt] at hyes
        cases hsop : i.rx.anySop <;> rw [hsop] at hyes <;> cases hyes
      · intro _
        rw [hpart, List.map_append]
        exact ⟨rfl, List.forall_mem_append.mpr ⟨hmarks, by simpa using hfull⟩⟩

/-- What is needed of the registers behind the last beat of a frame. -/
theorem receives_last (hvalid : i.rx.anyValid = true) (heop : i.rx.anyEop = true)
    (new : List (List Beat))
    (hholds : Ring.Holds (s.rxSide i).mem s.tx.rdPtr (s.rxSide i).wrPtr (committed ++ new.flatten))
    (hgood : goodFrames [g.current ++ [(i.rx, s.full)]] = new)
    (hcount : (s.rxSide i).pktWr = s.rx.pktWr + BitVec.ofNat 16 new.length) :
    Receives s i g committed new [] := by
  have hpush : Runs.run (Packets.push fun y : Beat × Bool => y.1.anyEop) g (s.arrival i) =
      ⟨g.closed ++ [g.current ++ [(i.rx, s.full)]], []⟩ := by
    rw [arrival, if_pos hvalid, Runs.run_cons, Runs.run_nil]
    exact push_of_last heop
  obtain ⟨-, -, -, hdropPkt, -⟩ := rxSide_of_valid (s := s) hvalid
  rw [heop, Bool.not_true, Bool.false_and] at hdropPkt
  refine ⟨?_, ?_, hcount⟩
  · rw [hpush]
    refine ⟨?_, fun hyes => ?_, fun _ => ⟨rfl, by simp⟩, by simp, by simp⟩
    · rw [List.append_nil]
      exact hholds
    · rw [hdropPkt] at hyes
      cases hyes
  · rw [hpush, goodFrames_append, hgood]

/-- Where a frame that is taken back begins. -/
theorem Stores.begins_of_drop (h : Stores s.rx s.tx.rdPtr g committed part)
    (hwhole : i.rx.anySop = g.current.isEmpty)
    (hsnapshot : i.rx.anyErr = true → i.rx.anySop = true → s.rx.sopPtr = s.rx.wrPtr)
    (hbad : s.rx.dropPkt = true ∨ i.rx.anyErr = true) :
    s.rx.sopPtr = Ring.ahead s.tx.rdPtr committed.length := by
  by_cases hcur : g.current = []
  · -- a frame of one beat: the snapshot is an old one, but it is up to date
    obtain ⟨hdrop, hpart⟩ := h.idle hcur
    rcases hbad with hdropped | herr
    · rw [hdrop] at hdropped
      cases hdropped
    · have hsop : i.rx.anySop = true := by rw [hwhole, hcur, List.isEmpty_nil]
      rw [hsnapshot herr hsop, h.holds.wr_eq, hpart, List.append_nil]
  · exact h.begins hcur

/-- One beat that is marked or has an error is enough for a frame not to be good. -/
theorem goodFrames_of_bad {f : List (Beat × Bool)} {y : Beat × Bool} (hy : y ∈ f)
    (hbad : y.2 = true ∨ y.1.anyErr = true) : goodFrames [f] = [] := by
  have hnot : good f = false := by
    rw [good, List.all_eq_false]
    refine ⟨y, hy, ?_⟩
    rcases hbad with hmark | herr
    · simp [hmark]
    · simp [herr]
  simp [goodFrames, hnot]

/-- The last beat of a frame, with a step that does not go wrong. -/
theorem Stores.last (h : Stores s.rx s.tx.rdPtr g committed part)
    (hvalid : i.rx.anyValid = true) (hwhole : i.rx.anySop = g.current.isEmpty)
    (heop : i.rx.anyEop = true) (hsafe : Safe s i) :
    ∃ new, Receives s i g committed new [] := by
  obtain ⟨hsnapshot, hfits⟩ := hsafe hvalid heop
  obtain ⟨hmem, hwrPtr, -, -, hpktWr⟩ := rxSide_of_valid (s := s) hvalid
  simp only [heop, Bool.true_and] at hwrPtr hpktWr
  have hreceives := @receives_last n s i g committed hvalid heop
  have hstart := h.begins_of_drop hwhole hsnapshot
  by_cases hdrop : s.rx.dropPkt = true
  · obtain ⟨y, hy, hmark⟩ := h.dropped hdrop
    simp only [hdrop, Bool.true_or, if_true, Bool.not_true, Bool.false_eq_true, if_false,
      Bool.false_and] at hmem hwrPtr hpktWr
    refine ⟨[], hreceives [] ?_ ?_ ?_⟩
    · rw [hmem, hwrPtr, hstart (.inl hdrop), List.flatten_nil, List.append_nil]
      exact h.holds.rewind
    · exact goodFrames_of_bad (List.mem_append_left _ hy) (.inl hmark)
    · rw [hpktWr]
      exact (BitVec.add_zero _).symm
  · rw [Bool.not_eq_true] at hdrop
    obtain ⟨hpart, hmarks⟩ := h.viable hdrop
    cases herr : i.rx.anyErr with
    | true =>
      -- the frame is taken back, whether or not this beat has been written
      simp only [herr, Bool.or_true, if_true, Bool.not_true, Bool.false_eq_true, if_false]
        at hwrPtr hpktWr
      refine ⟨[], hreceives [] ?_ ?_ ?_⟩
      · rw [hmem, hwrPtr, hstart (.inr herr), hdrop, List.flatten_nil, List.append_nil]
        cases hfull : s.full with
        | true => exact h.holds.rewind
        | false => exact (h.write hfull i.rx).rewind
      · exact goodFrames_of_bad (List.mem_append_right _ (List.mem_singleton_self _)) (.inr herr)
      · rw [hpktWr]
        exact (BitVec.add_zero _).symm
    | false =>
      have hfull : s.full = false := hfits herr hdrop
      simp only [hdrop, herr, hfull, Bool.or_false, Bool.not_false, Bool.and_true,
        Bool.false_eq_true, if_false, if_true] at hmem hwrPtr hpktWr
      refine ⟨[part ++ [i.rx]], hreceives [part ++ [i.rx]] ?_ ?_ ?_⟩
      · rw [hmem, hwrPtr, List.flatten_singleton]
        exact h.write hfull i.rx
      · have hgood : good (g.current ++ [(i.rx, s.full)]) = true := by
          rw [good, List.all_eq_true, List.forall_mem_append]
          constructor
          · intro y hy
            rw [hmarks y hy, h.clean y hy]
            rfl
          · simp [hfull, herr]
        simp [goodFrames, hgood, hpart]
      · rw [hpktWr]
        rfl

/-- **The RX side.** In a step that does not go wrong, the frame that ends with it is committed
if it is good, and else leaves nothing behind. -/
theorem Stores.rxSide (h : Stores s.rx s.tx.rdPtr g committed part)
    (hwhole : i.rx.anyValid = true →
      i.rx.anySop = g.current.isEmpty ∧ (i.rx.anyErr = true → i.rx.anyEop = true))
    (hsafe : Safe s i) : ∃ new part', Receives s i g committed new part' := by
  cases hvalid : i.rx.anyValid with
  | false =>
    have hsame : s.rxSide i = s.rx := by simp [Loopback.rxSide, hvalid]
    have hnone : s.arrival i = [] := by simp [arrival, hvalid]
    refine ⟨[], part, ?_, ?_, ?_⟩
    · rw [hsame, hnone, Runs.run_nil, List.flatten_nil, List.append_nil]
      exact h
    · rw [hnone, Runs.run_nil, List.append_nil]
    · rw [hsame]
      exact (BitVec.add_zero _).symm
  | true =>
    obtain ⟨hsop, herr⟩ := hwhole hvalid
    cases heop : i.rx.anyEop with
    | false =>
      have hclean : i.rx.anyErr = false := by
        by_contra hyes
        rw [herr (Bool.not_eq_false _ ▸ hyes)] at heop
        cases heop
      exact ⟨[], h.more hvalid hsop hclean heop⟩
    | true =>
      obtain ⟨new, hnew⟩ := h.last hvalid hsop heop hsafe
      exact ⟨new, [], hnew⟩

end Loopback

end SecureWan.EthLoopback
