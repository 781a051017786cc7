import SecureWan.Eth400g.DropStage
import SecureWan.Lib.Ring

/-!
# The elastic FIFO of the 400G loopback

Behind the drop stage, `eth400g_loopback.v` writes each beat with a kept segment to a FIFO,
and drops it when the FIFO is full. The TX side is paused as a whole: while it is enabled it
reads one entry in each cycle into a register and drives the entry of the cycle before, or an
idle beat. The FIFO has `2 ^ n` entries, the pointers `n + 1` bits.
-/

namespace SecureWan.Eth400g

/-- A segment at the TX interface. -/
structure TxSeg where
  payload : Payload
  inframe : Bool
  error : Bool
  skipCrc : Bool

/-- An entry of the FIFO, and a beat at the TX interface. -/
abbrev TxBeat := List TxSeg

/-- Some segment is in a frame. -/
def TxBeat.inframe (e : TxBeat) : Bool := e.any TxSeg.inframe

/-- The beat that is driven when there is nothing to send. -/
def idleBeat : TxBeat := List.replicate numSeg ⟨⟨0, 0⟩, false, false, false⟩

/-- The inputs of the loopback in one clock cycle. -/
structure Inputs where
  rx : RxBeat
  txError : BitVec 16
  txSkipCrc : BitVec 16
  dropOnError : Bool
  txReady : Bool

/-- The registers of the write side. -/
structure WriteSide (n : ℕ) where
  mem : BitVec n → TxBeat
  wrPtr : BitVec (n + 1)
  rxBeats : BitVec 32
  ovfBeats : BitVec 32

/-- The registers of the TX side. -/
structure TxSide (n : ℕ) where
  rdyPipe : BitVec 8
  rdPtr : BitVec (n + 1)
  memQ : TxBeat
  rdVldD : Bool
  valid : Bool
  beat : TxBeat
  txBeats : BitVec 32

/-- The beat on the TX interface, when it is valid and has segments in a frame. -/
def TxSide.driven {n : ℕ} (tx : TxSide n) : List TxBeat :=
  if tx.valid && TxBeat.inframe tx.beat then [tx.beat] else []

/-- The registers of the loopback. -/
structure Loopback (n : ℕ) where
  drop : DropStage
  wr : WriteSide n
  tx : TxSide n

/-- The registers after reset; the memory and its read register are not reset. -/
def Loopback.reset {n : ℕ} (mem : BitVec n → TxBeat) (memQ : TxBeat) : Loopback n where
  drop := resetStage
  wr := ⟨mem, 0, 0, 0⟩
  tx := ⟨0, 0, memQ, false, false, idleBeat, 0⟩

namespace Loopback

variable {n : ℕ} (readyLatency : ℕ) (s : Loopback n) (i : Inputs)

/-- `level`. -/
def level : ℕ := (s.wr.wrPtr - s.tx.rdPtr).toNat

/-- `full`. -/
def full : Bool := 2 ^ n ≤ s.level

/-- `empty`. -/
def empty : Bool := s.wr.wrPtr == s.tx.rdPtr

/-- `wr_entry`. -/
def wrEntry : TxBeat :=
  s.drop.lineOut.segs.mapIdx fun t x =>
    ⟨x.payload, s.drop.keep i.dropOnError x, i.txError.getLsbD t, i.txSkipCrc.getLsbD t⟩

/-- The beat at the output of the delay line is to be written. -/
def offered : Bool := s.drop.lineOut.valid && (s.wrEntry i).inframe

/-- The write side block. -/
def writeSide : WriteSide n :=
  if s.offered i then
    if s.full then
      { s.wr with rxBeats := s.wr.rxBeats + 1, ovfBeats := s.wr.ovfBeats + 1 }
    else
      { s.wr with
        rxBeats := s.wr.rxBeats + 1
        mem := Function.update s.wr.mem (Ring.cell s.wr.wrPtr) (s.wrEntry i)
        wrPtr := s.wr.wrPtr + 1 }
  else s.wr

/-- `tx_en`. -/
def txEn : Bool := if 2 ≤ readyLatency then s.tx.rdyPipe.getLsbD (readyLatency - 2) else i.txReady

/-- The blocks of the TX side. -/
def txSide : TxSide n :=
  let rdyPipe := s.tx.rdyPipe.shiftConcat i.txReady
  if s.txEn readyLatency i then
    { rdyPipe
      rdPtr := if s.empty then s.tx.rdPtr else s.tx.rdPtr + 1
      memQ := s.wr.mem (Ring.cell s.tx.rdPtr)
      rdVldD := !s.empty
      valid := true
      beat := if s.tx.rdVldD then s.tx.memQ else idleBeat
      txBeats := if s.tx.rdVldD then s.tx.txBeats + 1 else s.tx.txBeats }
  else { s.tx with rdyPipe, valid := false }

/-- A clock edge. -/
def step : Loopback n := ⟨s.drop.step i.dropOnError i.rx, s.writeSide i, s.txSide readyLatency i⟩

/-- What is written to the FIFO at a clock edge. -/
def written : List TxBeat := if s.offered i && !s.full then [s.wrEntry i] else []

/-- What is lost at a clock edge. -/
def lost : List TxBeat := if s.offered i && s.full then [s.wrEntry i] else []

/-- The beat with segments in a frame that is driven in the cycle behind a clock edge. -/
def driven : List TxBeat := (s.step readyLatency i).tx.driven

/-- What has been written and not driven: the entry in the read register and those in the
FIFO. -/
def inFlight : List TxBeat :=
  (if s.tx.rdVldD then [s.tx.memQ] else []) ++ Ring.contents s.wr.mem s.tx.rdPtr s.wr.wrPtr

/-! ### The FIFO as a queue -/

/-- The FIFO holds some entries, and everything in flight is in a frame. -/
structure Queues (q : List TxBeat) : Prop where
  holds : Ring.Holds s.wr.mem s.tx.rdPtr s.wr.wrPtr q
  inframe : ∀ e ∈ q, TxBeat.inframe e = true
  read : s.tx.rdVldD = true → TxBeat.inframe s.tx.memQ = true

variable {readyLatency s i} {q : List TxBeat}

theorem queues_reset (mem : BitVec n → TxBeat) (memQ : TxBeat) : (reset mem memQ).Queues [] where
  holds := Ring.holds_nil mem 0
  inframe := by simp
  read := by simp [reset]

theorem Queues.full_iff (h : s.Queues q) : s.full = true ↔ q.length = 2 ^ n := by
  have hle := h.holds.length_le
  rw [full, level, h.holds.level, decide_eq_true_eq]
  omega

theorem Queues.empty_iff (h : s.Queues q) : s.empty = true ↔ q = [] := by
  rw [empty, beq_iff_eq, h.holds.empty_iff]

theorem Queues.inFlight_eq (h : s.Queues q) :
    s.inFlight = (if s.tx.rdVldD then [s.tx.memQ] else []) ++ q := by
  rw [inFlight, h.holds.contents_eq]

/-- The write side adds what is written to the queue. -/
theorem Queues.write (h : s.Queues q) :
    Ring.Holds (s.writeSide i).mem s.tx.rdPtr (s.writeSide i).wrPtr (q ++ s.written i) ∧
      ∀ e ∈ s.written i, TxBeat.inframe e = true := by
  unfold writeSide written
  by_cases hoffered : s.offered i = true
  · by_cases hfull : s.full = true
    · simpa [hoffered, hfull] using h.holds
    · have hlt : q.length < 2 ^ n := lt_of_le_of_ne h.holds.length_le (mt h.full_iff.mpr hfull)
      rw [Bool.not_eq_true] at hfull
      have hin := (Bool.and_eq_true_iff.mp hoffered).2
      simpa [hoffered, hfull, hin] using h.holds.push hlt (s.wrEntry i)
  · simpa [hoffered] using h.holds

/-- The write side counts what it is offered. -/
theorem rxBeats_writeSide :
    (s.writeSide i).rxBeats = s.wr.rxBeats + BitVec.ofNat 32 (s.written i ++ s.lost i).length ∧
      (s.writeSide i).ovfBeats = s.wr.ovfBeats + BitVec.ofNat 32 (s.lost i).length := by
  unfold writeSide written lost
  cases s.offered i <;> cases s.full <;> simp

/-- What the TX side does while it is enabled. -/
theorem txSide_of_en (hen : s.txEn readyLatency i = true) :
    (s.txSide readyLatency i).valid = true ∧
      (s.txSide readyLatency i).rdVldD = !s.empty ∧
      (s.txSide readyLatency i).memQ = s.wr.mem (Ring.cell s.tx.rdPtr) ∧
      (s.txSide readyLatency i).rdPtr = (if s.empty then s.tx.rdPtr else s.tx.rdPtr + 1) ∧
      (s.txSide readyLatency i).beat = (if s.tx.rdVldD then s.tx.memQ else idleBeat) := by
  unfold txSide
  rw [if_pos hen]
  exact ⟨rfl, rfl, rfl, rfl, rfl⟩

/-- While it is not enabled, the TX side holds. -/
theorem txSide_of_not_en (hen : ¬ s.txEn readyLatency i = true) :
    (s.txSide readyLatency i).valid = false ∧
      (s.txSide readyLatency i).rdVldD = s.tx.rdVldD ∧
      (s.txSide readyLatency i).memQ = s.tx.memQ ∧
      (s.txSide readyLatency i).rdPtr = s.tx.rdPtr ∧
      (s.txSide readyLatency i).beat = s.tx.beat := by
  unfold txSide
  rw [if_neg hen]
  exact ⟨rfl, rfl, rfl, rfl, rfl⟩

theorem inframe_idleBeat : TxBeat.inframe idleBeat = false := by decide

/-- An enabled TX side drives the entry that it read before. -/
theorem Queues.driven_of_en (h : s.Queues q) (hen : s.txEn readyLatency i = true) :
    s.driven readyLatency i = if s.tx.rdVldD then [s.tx.memQ] else [] := by
  obtain ⟨hvalid, -, -, -, hbeat⟩ := txSide_of_en hen
  change (s.txSide readyLatency i).driven = _
  rw [TxSide.driven, hvalid, hbeat, Bool.true_and]
  cases hread : s.tx.rdVldD with
  | true => simp [h.read hread]
  | false => simp [inframe_idleBeat]

theorem driven_of_not_en (hen : ¬ s.txEn readyLatency i = true) :
    s.driven readyLatency i = [] := by
  change (s.txSide readyLatency i).driven = []
  simp [TxSide.driven, (txSide_of_not_en hen).1]

/-- An enabled TX side with nothing to read: what is written now comes first. -/
theorem Queues.step_idle (h : s.Queues []) (hen : s.txEn readyLatency i = true) :
    (s.step readyLatency i).Queues (s.written i) ∧
      s.driven readyLatency i ++ (s.step readyLatency i).inFlight = s.inFlight ++ s.written i := by
  obtain ⟨hwrite, hwritten⟩ := h.write (i := i)
  obtain ⟨-, hread, -, hrdPtr, -⟩ := txSide_of_en hen
  rw [h.empty_iff.mpr rfl] at hread hrdPtr
  have hnext : (s.step readyLatency i).Queues (s.written i) :=
    { holds := by
        change Ring.Holds _ (s.txSide readyLatency i).rdPtr _ _
        rw [hrdPtr]
        exact hwrite
      inframe := hwritten
      read := fun hvld => by
        change (s.txSide readyLatency i).rdVldD = true at hvld
        rw [hread] at hvld
        cases hvld }
  have hnone : (s.step readyLatency i).tx.rdVldD = false := hread
  refine ⟨hnext, ?_⟩
  rw [h.driven_of_en hen, hnext.inFlight_eq, h.inFlight_eq, hnone]
  simp

/-- An enabled TX side with entries to read: the first one moves to the read register. -/
theorem Queues.step_read {e : TxBeat} (h : s.Queues (e :: q))
    (hen : s.txEn readyLatency i = true) :
    (s.step readyLatency i).Queues (q ++ s.written i) ∧
      s.driven readyLatency i ++ (s.step readyLatency i).inFlight = s.inFlight ++ s.written i := by
  obtain ⟨hwrite, hwritten⟩ := h.write (i := i)
  obtain ⟨-, hread, hmemQ, hrdPtr, -⟩ := txSide_of_en hen
  have hempty : s.empty = false :=
    Bool.eq_false_iff.mpr (mt h.empty_iff.mp (List.cons_ne_nil e q))
  have hfirst : s.wr.mem (Ring.cell s.tx.rdPtr) = e := h.holds.head
  have hrest : ∀ e' ∈ q, TxBeat.inframe e' = true := (List.forall_mem_cons.mp h.inframe).2
  rw [hempty] at hread hrdPtr
  rw [hfirst] at hmemQ
  have hnext : (s.step readyLatency i).Queues (q ++ s.written i) :=
    { holds := by
        change Ring.Holds _ (s.txSide readyLatency i).rdPtr _ _
        rw [hrdPtr]
        exact Ring.Holds.pop hwrite
      inframe := List.forall_mem_append.mpr ⟨hrest, hwritten⟩
      read := fun _ => by
        change TxBeat.inframe (s.txSide readyLatency i).memQ = true
        rw [hmemQ]
        exact h.inframe e List.mem_cons_self }
  have hsome : (s.step readyLatency i).tx.rdVldD = true := hread
  have hnew : (s.step readyLatency i).tx.memQ = e := hmemQ
  refine ⟨hnext, ?_⟩
  rw [h.driven_of_en hen, hnext.inFlight_eq, h.inFlight_eq, hsome, hnew]
  simp

/-- A TX side that is not enabled is frozen. -/
theorem Queues.step_frozen (h : s.Queues q) (hen : ¬ s.txEn readyLatency i = true) :
    (s.step readyLatency i).Queues (q ++ s.written i) ∧
      s.driven readyLatency i ++ (s.step readyLatency i).inFlight = s.inFlight ++ s.written i := by
  obtain ⟨hwrite, hwritten⟩ := h.write (i := i)
  obtain ⟨-, hread, hmemQ, hrdPtr, -⟩ := txSide_of_not_en hen
  have hnext : (s.step readyLatency i).Queues (q ++ s.written i) :=
    { holds := by
        change Ring.Holds _ (s.txSide readyLatency i).rdPtr _ _
        rw [hrdPtr]
        exact hwrite
      inframe := List.forall_mem_append.mpr ⟨h.inframe, hwritten⟩
      read := by
        change (s.txSide readyLatency i).rdVldD = true →
          TxBeat.inframe (s.txSide readyLatency i).memQ = true
        rw [hread, hmemQ]
        exact h.read }
  have hsame : (s.step readyLatency i).tx.rdVldD = s.tx.rdVldD := hread
  have hsame' : (s.step readyLatency i).tx.memQ = s.tx.memQ := hmemQ
  refine ⟨hnext, ?_⟩
  rw [driven_of_not_en hen, hnext.inFlight_eq, h.inFlight_eq, hsame, hsame']
  simp

/-- **One clock edge.** What is in flight is a queue: entries are added when they are written
and leave in order when they are driven. -/
theorem Queues.step (h : s.Queues q) (readyLatency : ℕ) (i : Inputs) :
    ∃ q', (s.step readyLatency i).Queues q' ∧
      s.driven readyLatency i ++ (s.step readyLatency i).inFlight = s.inFlight ++ s.written i := by
  by_cases hen : s.txEn readyLatency i = true
  · cases q with
    | nil => exact ⟨_, h.step_idle hen⟩
    | cons e q => exact ⟨_, h.step_read hen⟩
  · exact ⟨_, h.step_frozen hen⟩

/-! ### Runs -/

/-- The entries written in a run. -/
def writtenIn (readyLatency : ℕ) (s : Loopback n) : List Inputs → List TxBeat :=
  Runs.trace (step readyLatency) written s

/-- The beats lost in a run. -/
def lostIn (readyLatency : ℕ) (s : Loopback n) : List Inputs → List TxBeat :=
  Runs.trace (step readyLatency) lost s

/-- The beats with segments in a frame that are driven in a run. -/
def drivenIn (readyLatency : ℕ) (s : Loopback n) : List Inputs → List TxBeat :=
  Runs.trace (step readyLatency) (driven readyLatency) s

/-- What is driven is in a frame. -/
theorem inframe_of_mem_drivenIn {readyLatency : ℕ} {s : Loopback n} {is : List Inputs}
    {e : TxBeat} (h : e ∈ drivenIn readyLatency s is) : TxBeat.inframe e = true := by
  unfold drivenIn at h
  induction is generalizing s with
  | nil => cases h
  | cons i is ih =>
    rcases List.mem_append.mp h with hhead | htail
    · unfold driven TxSide.driven at hhead
      split at hhead
      next hbeat =>
        rw [List.mem_singleton.mp hhead]
        exact (Bool.and_eq_true_iff.mp hbeat).2
      next => cases hhead
    · exact ih htail

/-- **Any run.** What was written is what was driven and what is in flight; all beats are
counted. -/
theorem run_spec (readyLatency : ℕ) (mem : BitVec n → TxBeat) (memQ : TxBeat)
    (is : List Inputs) :
    let s := Runs.run (step readyLatency) (reset mem memQ) is
    (∃ q, s.Queues q) ∧
      writtenIn readyLatency (reset mem memQ) is =
        drivenIn readyLatency (reset mem memQ) is ++ s.inFlight ∧
      s.wr.ovfBeats = BitVec.ofNat 32 (lostIn readyLatency (reset mem memQ) is).length ∧
      s.wr.rxBeats =
        BitVec.ofNat 32 (writtenIn readyLatency (reset mem memQ) is).length + s.wr.ovfBeats := by
  induction is using List.reverseRecOn with
  | nil =>
    refine ⟨⟨[], queues_reset mem memQ⟩, ?_, rfl, rfl⟩
    rw [Runs.run_nil, (queues_reset mem memQ).inFlight_eq]
    rfl
  | append_singleton is i ih =>
    obtain ⟨⟨q, hq⟩, hflow, hovf, hrx⟩ := ih
    obtain ⟨q', hq', hstep⟩ := hq.step readyLatency i
    obtain ⟨hrx', hovf'⟩ := rxBeats_writeSide
      (s := Runs.run (step readyLatency) (reset mem memQ) is) (i := i)
    unfold writtenIn drivenIn lostIn at *
    simp only [Runs.trace_concat, Runs.run_append, Runs.run_cons, Runs.run_nil]
    refine ⟨⟨q', hq'⟩, ?_, ?_, ?_⟩
    · rw [hflow, List.append_assoc, ← hstep, List.append_assoc]
    · change (writeSide _ i).ovfBeats = _
      rw [hovf', hovf, List.length_append, BitVec.ofNat_add]
    · change (writeSide _ i).rxBeats = _ + (writeSide _ i).ovfBeats
      rw [hrx', hovf', hrx, List.length_append, List.length_append, BitVec.ofNat_add,
        BitVec.ofNat_add]
      ac_rfl

/-- **The elastic FIFO.** In any run from reset, what is driven is what was written, in order
and once each, but for what is still in the FIFO and in the read register; the FIFO never
holds more than its depth; a cell that is read for a later beat is not written in the same
cycle; and the beats offered are those written and those counted as lost. -/
theorem elasticFifo_spec (readyLatency : ℕ) (mem : BitVec n → TxBeat) (memQ : TxBeat)
    (is : List Inputs) :
    let s := Runs.run (step readyLatency) (reset mem memQ) is
    writtenIn readyLatency (reset mem memQ) is =
        drivenIn readyLatency (reset mem memQ) is ++ s.inFlight ∧
      s.level ≤ 2 ^ n ∧
      (∀ i, s.txEn readyLatency i = true → (s.txSide readyLatency i).rdVldD = true →
        s.written i ≠ [] → Ring.cell s.tx.rdPtr ≠ Ring.cell s.wr.wrPtr) ∧
      s.wr.rxBeats =
        BitVec.ofNat 32 (writtenIn readyLatency (reset mem memQ) is).length + s.wr.ovfBeats := by
  obtain ⟨⟨q, hq⟩, hflow, -, hrx⟩ := run_spec readyLatency mem memQ is
  refine ⟨hflow, ?_, fun i hen hread hwritten => ?_, hrx⟩
  · rw [level, hq.holds.level]
    exact hq.holds.length_le
  · have hne : q ≠ [] := by
      intro hnil
      rw [(txSide_of_en hen).2.1, hq.empty_iff.mpr hnil] at hread
      cases hread
    have hnot : ¬ q.length = 2 ^ n := by
      intro hfull
      rw [written, hq.full_iff.mpr hfull] at hwritten
      simp at hwritten
    exact hq.holds.cell_ne hne (lt_of_le_of_ne hq.holds.length_le hnot)

end Loopback

end SecureWan.Eth400g
