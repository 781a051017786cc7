import SecureWan.Lib.Packets
import SecureWan.Lib.Ring

/-!
# The packet FIFO of the loopback

`eth_loopback.v` writes the beats of a received frame to a FIFO and commits the frame with
its last beat, or takes it back; the TX side begins a frame when a complete one is committed.
The parameters of the interfaces have their default values; the FIFO has `2 ^ n` entries and
the pointers have `n + 1` bits.
-/

namespace SecureWan.EthLoopback

/-- A client interface in one clock cycle, and an entry of the FIFO. -/
structure Beat where
  data : BitVec 1024
  valid : BitVec 16
  sop : BitVec 16
  eop : BitVec 16
  error : BitVec 16
  empty : BitVec 48
deriving DecidableEq

namespace Beat

variable (b : Beat)

/-- `any_valid`. -/
def anyValid : Bool := b.valid != 0

/-- `any_sop`. -/
def anySop : Bool := b.sop &&& b.valid != 0

/-- `any_eop`, and `dout_last` for an entry. -/
def anyEop : Bool := b.eop &&& b.valid != 0

/-- `any_err`. -/
def anyErr : Bool := b.error &&& b.valid != 0

end Beat

/-- The inputs in one clock cycle. -/
structure Inputs where
  rx : Beat
  txReady : Bool

/-- The registers of the RX side. -/
structure RxSide (n : ℕ) where
  mem : BitVec n → Beat
  wrPtr : BitVec (n + 1)
  sopPtr : BitVec (n + 1)
  pktWr : BitVec 16
  inPkt : Bool
  dropPkt : Bool
  rxPktCnt : BitVec 32
  dropCnt : BitVec 32

/-- The registers of the TX side; `tx` are those of the interface. -/
structure TxSide (n : ℕ) where
  rdPtr : BitVec (n + 1)
  pktRd : BitVec 16
  txPktCnt : BitVec 32
  txVld : Bool
  sending : Bool
  tx : Beat

/-- The registers of the loopback. -/
structure Loopback (n : ℕ) where
  rx : RxSide n
  tx : TxSide n

/-- The registers after reset; the memory is not reset. -/
def Loopback.reset {n : ℕ} (mem : BitVec n → Beat) : Loopback n where
  rx := ⟨mem, 0, 0, 0, false, false, 0, 0⟩
  tx := ⟨0, 0, 0, false, false, ⟨0, 0, 0, 0, 0, 0⟩⟩

namespace Loopback

variable {n : ℕ} (s : Loopback n) (i : Inputs)

/-- `full`. -/
def full : Bool :=
  s.rx.wrPtr.msb != s.tx.rdPtr.msb && Ring.cell s.rx.wrPtr == Ring.cell s.tx.rdPtr

/-- `empty`. -/
def empty : Bool := s.rx.wrPtr == s.tx.rdPtr

/-- `pkt_avail`. -/
def pktAvail : Bool := s.rx.pktWr != s.tx.pktRd

/-- `out_free`. -/
def outFree : Bool := !s.tx.txVld || i.txReady

/-- `dout`. -/
def dout : Beat := s.rx.mem (Ring.cell s.tx.rdPtr)

/-- The RX side. The values assigned are those of the registers before the clock edge, and of
two assignments to a register the later one counts. -/
def rxSide : RxSide n :=
  let r := s.rx
  let b := i.rx
  if b.anyValid then
    let next := if b.anySop then { r with inPkt := true, sopPtr := r.wrPtr, dropPkt := s.full }
      else r
    let next := if !b.anySop && !r.dropPkt && s.full then { next with dropPkt := true } else next
    let next := if !r.dropPkt && !s.full then
        { next with
          mem := Function.update r.mem (Ring.cell r.wrPtr) b
          wrPtr := r.wrPtr + 1 }
      else next
    if b.anyEop then
      let next := { next with inPkt := false, dropPkt := false, rxPktCnt := r.rxPktCnt + 1 }
      if r.dropPkt || b.anyErr then { next with wrPtr := r.sopPtr, dropCnt := r.dropCnt + 1 }
      else { next with pktWr := r.pktWr + 1 }
    else next
  else r

/-- The TX side. -/
def txSide : TxSide n :=
  let t := s.tx
  if s.outFree i then
    if t.sending && !s.empty then
      let next := { t with tx := s.dout, txVld := true, rdPtr := t.rdPtr + 1 }
      if s.dout.anyEop then
        { next with sending := false, txPktCnt := t.txPktCnt + 1, pktRd := t.pktRd + 1 }
      else next
    else if !t.sending && s.pktAvail && !s.empty then
      let next := { t with tx := s.dout, txVld := true, rdPtr := t.rdPtr + 1 }
      if s.dout.anyEop then { next with txPktCnt := t.txPktCnt + 1, pktRd := t.pktRd + 1 }
      else { next with sending := true }
    else { t with txVld := false, tx := { t.tx with valid := 0, sop := 0, eop := 0 } }
  else t

/-- A clock edge. -/
def step : Loopback n := ⟨s.rxSide i, s.txSide i⟩

/-- The beat on TX that is taken at a clock edge. -/
def taken : List Beat := if s.tx.tx.anyValid && i.txReady then [s.tx.tx] else []

/-- The beat on TX. -/
def presented : List Beat := if s.tx.tx.anyValid then [s.tx.tx] else []

/-- The valid beat on RX, with a mark whether it meets a full FIFO. -/
def arrival : List (Beat × Bool) := if i.rx.anyValid then [(i.rx, s.full)] else []

end Loopback

/-! ### Frames -/

/-- A frame without an error bit and none of whose beats has met a full FIFO. -/
def good (f : List (Beat × Bool)) : Bool := f.all fun y => !y.2 && !y.1.anyErr

/-- The good frames, without the marks. -/
def goodFrames (fs : List (List (Beat × Bool))) : List (List Beat) :=
  (fs.filter good).map (List.map Prod.fst)

/-- The next beat on RX, for the frames seen so far. -/
def receive (g : Packets Beat) (b : Beat) : Packets Beat :=
  if b.anyValid then g.push Beat.anyEop b else g

/-- A valid beat begins a frame exactly when no frame is open, and an error bit comes with the
last beat. -/
def WholeBeat (g : Packets Beat) (b : Beat) : Prop :=
  b.anyValid = true → b.anySop = g.current.isEmpty ∧ (b.anyErr = true → b.anyEop = true)

instance (g : Packets Beat) (b : Beat) : Decidable (WholeBeat g b) :=
  inferInstanceAs (Decidable (_ → _))

/-- Frames occupy whole beats. -/
def WholeBeats (rx : List Beat) : Prop := Runs.StepsMeet receive WholeBeat Packets.start rx

instance (rx : List Beat) : Decidable (WholeBeats rx) := Runs.decidableStepsMeet _ rx

end SecureWan.EthLoopback
