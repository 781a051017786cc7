import SecureWan.Eth400g.FrameIntegrity

/-!
# Overflow of the loopback

There is no backpressure to RX: a beat that finds the FIFO full is lost and counted. The FIFO
knows nothing of frames, so that a frame can lose some of its beats and keep others. A frame
that loses none is sent with all its segments.
-/

namespace SecureWan.Eth400g

open Framing

namespace Loopback

variable {n : ℕ} (readyLatency : ℕ) (s : Loopback n) (i : Inputs)

/-- The valid beat at the output of the delay line, with a mark whether the FIFO is full. -/
def offers : List (Option TxBeat × Bool) := (s.arrived i).map fun b => (b, s.full)

/-- The beats that arrive in a run, with marks. -/
def offeredIn (readyLatency : ℕ) (s : Loopback n) : List Inputs → List (Option TxBeat × Bool) :=
  Runs.trace (step readyLatency) offers s

/-- The places of the beats of a log with marks. -/
def markedLines (log : List (Option TxBeat × Bool)) : List (Option (Line Payload) × Bool) :=
  log.map fun y => (y.1.map TxBeat.places, y.2)

/-- The beats of a log with or without the mark. -/
def withMark (lost : Bool) (log : List (Option TxBeat × Bool)) : List TxBeat :=
  ((log.filter fun y => y.2 == lost).map Prod.fst).reduceOption

variable {readyLatency s i}

theorem withMark_append (lost : Bool) (a b : List (Option TxBeat × Bool)) :
    withMark lost (a ++ b) = withMark lost a ++ withMark lost b := by
  rw [withMark, List.filter_append, List.map_append, reduceOption_append]
  rfl

/-- The beats with the mark are lost, the others are written. -/
theorem withMark_offers :
    withMark false (s.offers i) = s.written i ∧ withMark true (s.offers i) = s.lost i := by
  unfold withMark offers arrived written lost offered
  cases s.drop.lineOut.valid <;> cases TxBeat.inframe (s.wrEntry i) <;> cases s.full <;>
    exact ⟨rfl, rfl⟩

theorem withMark_offeredIn (readyLatency : ℕ) (s : Loopback n) (is : List Inputs) :
    withMark false (offeredIn readyLatency s is) = writtenIn readyLatency s is ∧
      withMark true (offeredIn readyLatency s is) = lostIn readyLatency s is := by
  unfold offeredIn writtenIn lostIn
  induction is generalizing s with
  | nil => exact ⟨rfl, rfl⟩
  | cons i is ih =>
    obtain ⟨hwritten, hlost⟩ := ih (s.step readyLatency i)
    obtain ⟨hwritten', hlost'⟩ := withMark_offers (s := s) (i := i)
    simp only [Runs.trace, withMark_append]
    rw [hwritten, hlost, hwritten', hlost']
    exact ⟨rfl, rfl⟩

/-- Without the marks, these are the beats that arrive. -/
theorem map_fst_offeredIn (readyLatency : ℕ) (s : Loopback n) (is : List Inputs) :
    (offeredIn readyLatency s is).map Prod.fst = arrivedIn readyLatency s is := by
  unfold offeredIn arrivedIn
  induction is generalizing s with
  | nil => rfl
  | cons i is ih =>
    rw [Runs.trace, Runs.trace, List.map_append, ih, offers, List.map_map]
    congr 1
    exact List.map_id _

theorem map_fst_markedLines (log : List (Option TxBeat × Bool)) :
    (markedLines log).map Prod.fst = lines (log.map Prod.fst) := by
  rw [markedLines, lines, List.map_map, List.map_map]
  rfl

theorem unlost_markedLines (log : List (Option TxBeat × Bool)) :
    unlost (markedLines log) = (withMark false log).map TxBeat.places := by
  rw [withMark, ← List.reduceOption_map, unlost, markedLines, List.filter_map, List.map_map,
    List.map_map]
  congr 2
  apply List.filter_congr
  intro y _
  simp

/-- The segments of some beats that are in a frame. -/
def symbols (beats : List TxBeat) : Line Payload :=
  (beats.map TxBeat.places).flatten.filter Option.isSome

theorem symbols_append (a b : List TxBeat) : symbols (a ++ b) = symbols a ++ symbols b := by
  rw [symbols, List.map_append, List.flatten_append, List.filter_append]
  rfl

/-- The TX interface shows the segments of the beats that are driven. -/
theorem filter_txLine (readyLatency : ℕ) (mem : BitVec n → TxBeat) (memQ : TxBeat)
    (is : List Inputs) :
    (txLine readyLatency (reset mem memQ) is).filter Option.isSome =
      symbols (drivenIn readyLatency (reset mem memQ) is) := by
  have h := sends_run readyLatency mem memQ is
  rw [h.shown, filter_lineOf, reduceOption_lines, h.sent]
  rfl

/-- The frames on TX are frames of RX. -/
def WholeFrames (readyLatency : ℕ) (s₀ : Loopback n) (is : List Inputs) : Prop :=
  ∀ f ∈ (frames (txLine readyLatency s₀ is)).groups, f ∈ (frames (rxLine is)).groups

/-- **Overflow.** In any run from reset, a beat is lost as a whole, when the FIFO holds `2 ^ n`
entries, and counted; the others are driven in order, but for those still in flight. A frame
none of whose beats is lost is sent with all its segments, in order and with nothing in
between. Without drops, the frames are those of RX. -/
theorem overflow_spec (readyLatency : ℕ) (mem : BitVec n → TxBeat) (memQ : TxBeat)
    (is : List Inputs) :
    let s := Runs.run (step readyLatency) (reset mem memQ) is
    let log := offeredIn readyLatency (reset mem memQ) is
    (s.full = true ↔ (Ring.contents s.wr.mem s.tx.rdPtr s.wr.wrPtr).length = 2 ^ n) ∧
      withMark false log = drivenIn readyLatency (reset mem memQ) is ++ s.inFlight ∧
      s.wr.ovfBeats = BitVec.ofNat 32 (withMark true log).length ∧
      (∀ f ∈ markedFrames numSeg (markedLines log), (∀ x ∈ f, x.2 = false) →
        f.map Prod.fst <:+:
          (txLine readyLatency (reset mem memQ) is).filter Option.isSome ++
            symbols s.inFlight) ∧
      ((∀ i ∈ is, i.dropOnError = false) →
        rxLine is = (marked numSeg (markedLines log)).map Prod.fst ++ s.drop.pending) := by
  obtain ⟨⟨q, hq⟩, hflow, hovf, -⟩ := run_spec readyLatency mem memQ is
  obtain ⟨hwritten, hlost⟩ := withMark_offeredIn readyLatency (reset mem memQ) is
  refine ⟨?_, ?_, ?_, fun f hf hmarks => ?_, fun hdrop => ?_⟩
  · rw [hq.full_iff, hq.holds.contents_eq]
  · rw [hwritten, hflow]
  · rw [hlost, hovf]
  · have hin := infix_of_unmarked hf hmarks
    rw [unlost_markedLines, hwritten, hflow] at hin
    rw [filter_txLine, ← symbols_append]
    exact hin
  · rw [map_fst_marked, map_fst_markedLines, map_fst_offeredIn]
    exact (received_run readyLatency mem memQ hdrop).2

/-- Two beats that fill a FIFO of two entries, and a frame of which the second beat is lost. -/
def overfull : List Inputs :=
  [received true 8 false, received true 16 false, received true 8 false] ++
    List.replicate 20 (received false 0 false) ++ List.replicate 10 (received false 0 true)

/-- The last frame on TX has lost its end. -/
theorem overfull_truncated :
    ¬ WholeFrames 1 (reset (fun _ : BitVec 1 => idleBeat) idleBeat) overfull := by
  unfold WholeFrames
  decide +kernel

end Loopback

end SecureWan.Eth400g
