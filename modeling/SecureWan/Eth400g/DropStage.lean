import SecureWan.Lib.Segmentation
import Mathlib.Data.List.Basic
import Mathlib.Logic.Function.Basic
import Mathlib.Algebra.Group.Nat.Defs

/-!
# The drop stage of the 400G loopback

`eth400g_loopback.v` tags each segment of a received frame with the frame it belongs to and
holds the beats in a delay line. A frame with an error is marked in `drop_set` by its tag,
and the segments with a marked tag are masked when they leave the line. A bus is the list of
its parts by segment here. The parameters have their default values, and `seg_tag` is the
new one at the clock edge at which the delay line takes it.
-/

namespace SecureWan.Eth400g

/-- `NUM_SEG`. -/
def numSeg : ℕ := 16

/-- `DROP_DELAY`. -/
def dropDelay : ℕ := 16

/-- A frame tag, of `TAG_W` bits. -/
abbrev Tag := BitVec 6

/-- A segment at the RX interface. -/
structure Segment where
  data : BitVec 64
  inframe : Bool
  eopEmpty : BitVec 3
  fcsError : Bool
  error : BitVec 2

/-- `seg_bad`. -/
def Segment.bad (x : Segment) : Bool := x.error != 0 || x.fcsError

/-- The RX interface in one clock cycle. -/
structure RxBeat where
  valid : Bool
  segs : List Segment
  length_eq : segs.length = numSeg

/-- What a kept segment carries. -/
structure Payload where
  data : BitVec 64
  eopEmpty : BitVec 3

def Segment.payload (x : Segment) : Payload := ⟨x.data, x.eopEmpty⟩

/-- The part of a delay line entry for one segment. -/
structure LineSeg where
  payload : Payload
  inframe : Bool
  tag : Tag

def Segment.lineSeg (x : Segment) (tag : Tag) : LineSeg := ⟨x.payload, x.inframe, tag⟩

/-- An entry of the delay line. -/
structure LineBeat where
  valid : Bool
  segs : List LineSeg

/-- The registers of the drop stage. -/
structure DropStage where
  curTag : Tag
  nextTag : Tag
  frameOpen : Bool
  dropSet : Tag → Bool
  segTag : List Tag
  droppedFrames : BitVec 32
  line : List LineBeat

/-- The variables of the tagging block within a clock edge. -/
structure TagVars where
  vCur : Tag
  vNext : Tag
  vOpen : Bool
  vDrop : Tag → Bool
  vNdrop : ℕ
  segTag : List Tag

namespace TagVars

variable (v : TagVars)

/-- `inframe` went from 0 to 1: a new frame takes the next tag, without its stale flag. -/
def openFrame : TagVars :=
  if v.vOpen then v
  else
    { v with
      vCur := v.vNext
      vNext := v.vNext + 1
      vDrop := Function.update v.vDrop v.vNext false
      vOpen := true }

/-- An error of a frame counts the first time only. -/
def flag (bad : Bool) : TagVars :=
  if bad && !v.vDrop v.vCur then
    { v with vDrop := Function.update v.vDrop v.vCur true, vNdrop := v.vNdrop + 1 }
  else v

/-- The body of the loop over the segments of a beat. -/
def tagSegment (x : Segment) : TagVars :=
  if x.inframe then
    { v.openFrame with segTag := v.segTag ++ [v.openFrame.vCur] }.flag x.bad
  else { v with vOpen := false, segTag := v.segTag ++ [0] }

end TagVars

/-- An entry of the delay line after reset. -/
def resetBeat : LineBeat := ⟨false, List.replicate numSeg ⟨⟨0, 0⟩, false, 0⟩⟩

/-- The registers after reset. -/
def resetStage : DropStage where
  curTag := 0
  nextTag := 0
  frameOpen := false
  dropSet _ := false
  segTag := List.replicate numSeg 0
  droppedFrames := 0
  line := List.replicate dropDelay resetBeat

namespace DropStage

variable (dropOnError : Bool) (s : DropStage) (b : RxBeat)

/-- The variables at the beginning of a clock edge. -/
def tagVars : TagVars := ⟨s.curTag, s.nextTag, s.frameOpen, s.dropSet, 0, []⟩

/-- The tagging block. -/
def tagBeat : DropStage :=
  if b.valid then
    let v := Runs.run TagVars.tagSegment s.tagVars b.segs
    { s with
      curTag := v.vCur
      nextTag := v.vNext
      frameOpen := v.vOpen
      dropSet := v.vDrop
      segTag := v.segTag
      droppedFrames :=
        if dropOnError then s.droppedFrames + BitVec.ofNat 32 v.vNdrop else s.droppedFrames }
  else s

/-- The delay line block. -/
def shiftLine : DropStage :=
  { s with
    line := ⟨b.valid, List.zipWith Segment.lineSeg b.segs s.segTag⟩ ::
      s.line.take (dropDelay - 1) }

/-- A clock edge. -/
def step : DropStage := (s.tagBeat dropOnError b).shiftLine b

/-- The output of the delay line. -/
def lineOut : LineBeat := s.line.getD (dropDelay - 1) resetBeat

/-- `keep`, for one segment of the output. -/
def keep (x : LineSeg) : Bool := x.inframe && !(dropOnError && s.dropSet x.tag)

/-- The segments of the output that are kept, when it is valid. -/
def kept : List Payload :=
  if s.lineOut.valid then (s.lineOut.segs.filter (s.keep dropOnError)).map LineSeg.payload
  else []

/-- The segments kept after each of some clock edges, in order. -/
def keptFrom (s : DropStage) : List RxBeat → List Payload
  | [] => []
  | b :: bs => (s.step dropOnError b).kept dropOnError ++ keptFrom (s.step dropOnError b) bs

end DropStage

/-! ### Frames -/

/-- A segment of a valid beat, with its clock cycle. -/
structure RxSeg where
  cycle : ℕ
  seg : Segment

/-- The segments of a beat. -/
def RxBeat.rxSegs (k : ℕ) (b : RxBeat) : List RxSeg :=
  if b.valid then b.segs.map (RxSeg.mk k) else []

/-- The segments of the valid beats, in order. -/
def stream (rx : List RxBeat) : List RxSeg := (rx.mapIdx RxBeat.rxSegs).flatten

def RxSeg.inframe (x : RxSeg) : Bool := x.seg.inframe

/-- The frames of a stream: its groups of consecutive segments that are in a frame. -/
def framing (rx : List RxBeat) : Segmentation RxSeg :=
  Runs.run (Segmentation.push RxSeg.inframe) Segmentation.start (stream rx)

/-- A frame with an error. -/
def frameBad (f : List RxSeg) : Bool := f.any fun x => x.seg.bad

end SecureWan.Eth400g
