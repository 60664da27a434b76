import Slopty.Lib.OrdMap
import Slopty.Media.Wire

/-!
The data of the client's video reassembler: its configuration, the frames it
tracks, its counters, and what it reports to its owner.
-/

namespace Slopty.Media.Reassemble

open Slopty.Lib
open Slopty.Media.Wire

def stallGap : Duration := Duration.millis 50

def sendStampRange : Duration := Duration.millis 256

def stampSlack : Duration := sendStampRange / 2

def maxPendingAcks : Nat := 16

/-- How long to wait on an incomplete frame before asking for the rest of it,
as a function of the round trip. -/
structure NackDelay where
  min : Duration := Duration.millis 1
  max : Duration := Duration.millis 20
  divisor : Nat := 4
  deriving DecidableEq, Repr

def NackDelay.forRtt (d : NackDelay) (rtt : Duration) : Duration :=
  Duration.clamp ((Duration.checkedDiv rtt d.divisor).getD d.min) d.min d.max

structure Config where
  nackDelay : NackDelay := {}
  nackRetries : Nat := 2
  grace : Duration := Duration.millis 10
  maxPending : Nat := 64
  refreshRepeat : Duration := Duration.millis 100
  refreshRepeatMax : Duration := Duration.millis 2000
  refreshMaxRepeats : Nat := 12
  maxHold : Duration := Duration.millis 500
  stallGap : Duration := stallGap
  tickPeriod : Duration := stallGap / 2
  deriving DecidableEq, Repr

structure FrameInfo where
  frame : Nat
  keyframe : Bool
  ltrToken : Option UInt64
  ltrRefresh : Bool
  discardable : Bool
  captureTsUs : UInt32
  stripes : UInt8
  build : UInt8
  region : Option Region
  recovered : Bool
  deriving DecidableEq, Repr

structure FrameOut where
  info : FrameInfo
  data : Bytes
  hold : Duration
  arrived : Instant
  deriving DecidableEq, Repr

inductive Ignored where
  | malformed
  | foreign
  | stale
  | duplicate
  deriving DecidableEq, Repr

inductive Action where
  | nack (frame : Nat) (fragments : List Nat)
  | requestRefresh (lastGoodFrame : Nat) (keyframe : Bool)
  deriving DecidableEq, Repr

/-- Where every silence past the stall threshold went. -/
structure StallAttribution where
  workerQuiet : Nat := 0
  workerCovered : Nat := 0
  receiverDozed : Nat := 0
  inFlight : Nat := 0
  stampWrapped : Nat := 0
  stampBackwards : Nat := 0
  stampAbsent : Nat := 0
  whileIdle : Nat := 0
  gapMsMax : Nat := 0
  dozedMsMax : Nat := 0
  endedHeartbeat : Nat := 0
  endedVideo : Nat := 0
  endedOther : Nat := 0
  deriving DecidableEq, Repr

structure ReassemblerStats where
  framesOk : Nat := 0
  framesFec : Nat := 0
  framesRetransmit : Nat := 0
  framesLost : Nat := 0
  framesSkipped : Nat := 0
  datagramsLost : Nat := 0
  dataShards : Nat := 0
  parityShards : Nat := 0
  nacks : Nat := 0
  refreshes : Nat := 0
  refreshRepeats : Nat := 0
  stalls : Nat := 0
  stalledMs : Nat := 0
  silences : StallAttribution := {}
  deriving DecidableEq, Repr

/-- A frame some of whose fragments arrived. -/
structure Partial where
  dataCount : Nat
  parityCount : Nat
  shardBytes : Nat
  flags : UInt8
  shards : List (Option Bytes)
  haveData : Nat
  haveTotal : Nat
  firstSeen : Instant
  lastSeen : Instant
  nacks : Nat
  nackedAt : Option Instant
  retransmitted : Bool
  discardable : Bool
  deriving DecidableEq, Repr

namespace Partial

def new (header : MediaHeader) (shardBytes : Nat) (now : Instant) (discardable : Bool) :
    Partial where
  dataCount := header.dataCount.toNat
  parityCount := header.parityCount.toNat
  shardBytes := shardBytes
  flags := header.flags
  shards := List.replicate (header.dataCount.toNat + header.parityCount.toNat) none
  haveData := 0
  haveTotal := 0
  firstSeen := now
  lastSeen := now
  nacks := 0
  nackedAt := none
  retransmitted := false
  discardable := discardable || hasFlag header.flags Flags.discardable

def complete (p : Partial) : Bool :=
  p.haveData = p.dataCount || (0 < p.parityCount && p.dataCount ≤ p.haveTotal)

/-- Indices of the data fragments that have not arrived. -/
def missingData (p : Partial) : List Nat :=
  ((p.shards.take p.dataCount).zipIdx.filter fun si => si.1.isNone).map fun si =>
    min si.2 65535

def missingDataCount (p : Partial) : Nat := p.dataCount - p.haveData

def restartable (p : Partial) (acceptRefresh : Bool) : Bool :=
  hasFlag p.flags Flags.keyframe || (acceptRefresh && hasFlag p.flags Flags.ltrRefresh)

end Partial

inductive Slot where
  /-- Nothing of this frame arrived yet, but a later frame did. -/
  | unknown (firstSeen : Instant) (nacks : Nat) (nackedAt : Option Instant) (discardable : Bool)
  | part (p : Partial)
  | complete (out : FrameOut) (firstSeen : Instant)
  /-- A frame nothing refers to, given up on without a refresh. -/
  | skipped
  deriving DecidableEq, Repr

namespace Slot

def fresh (now : Instant) : Slot := .unknown now 0 none false

def settled : Slot → Bool
  | .complete _ _ | .skipped => true
  | .unknown .. | .part _ => false

def isComplete : Slot → Bool
  | .complete _ _ => true
  | _ => false

/-- Still waited for, and nothing later refers to it. -/
def discardable : Slot → Bool
  | .unknown _ _ _ d => d
  | .part p => p.discardable
  | .complete _ _ | .skipped => false

/-- The next frame's datagrams said nothing refers to this one. -/
def markDiscardable : Slot → Slot
  | .unknown f n a _ => .unknown f n a true
  | .part p => .part { p with discardable := true }
  | .complete out f => .complete out f
  | .skipped => .skipped

end Slot

inductive Need where
  | keyframe
  | refresh
  | frame (n : Nat)
  deriving DecidableEq, Repr

/-- Counters of the current report. -/
structure Window where
  framesOk : Nat := 0
  framesFec : Nat := 0
  framesLost : Nat := 0
  datagramsLost : Nat := 0
  holdsNs : List Nat := []
  stalled : Duration := 0
  stalls : Nat := 0
  deriving DecidableEq, Repr

/-- A line of the history variable `Reassembler.trace`. -/
inductive Event where
  /-- `drain` handed a frame over, and what was needed when it did. -/
  | delivered (info : FrameInfo) (need : Need)
  /-- `skip` stepped over a frame, and whether its slot said nothing refers to it. -/
  | skipped (frame : Nat) (discardable : Bool)
  /-- `force_refresh` was called. -/
  | forced (keyframe : Bool)
  /-- `next_frame` gave a frame to the owner. -/
  | taken (info : FrameInfo)
  deriving DecidableEq, Repr

/-- One stream's reassembler. `trace` is a history variable that no function
reads; every other field is the source's. The Reed-Solomon decoder it reuses
between frames is not kept: a reset decoder behaves as a new one. -/
structure Reassembler where
  stream : UInt32
  cfg : Config
  epoch : Instant
  frames : OrdMap Nat Slot
  need : Need
  lastGood : Option Nat
  givenUp : List Nat
  ready : List FrameOut
  actions : List Action
  refreshRequestedAt : Option Instant
  refreshRepeats : Nat
  refreshBackoff : Nat
  sourceLive : Bool
  stats : ReassemblerStats
  window : Window
  jitterUs : Int
  lastArrival : Option (Nat × UInt32)
  arrivedAt : Instant
  stallChargedTo : Instant
  anyArrived : Bool
  firstLost : Bool
  lastSendMsLo : Option UInt8
  lastTickAt : Instant
  dozedSinceArrival : Duration
  dozedFrom : Option Instant
  dozedSpent : Duration
  lastRtt : Duration
  nackDelay : Duration
  lastWorkerTsUs : UInt32
  ltrAcks : List UInt64
  newestAck : Option UInt64
  trace : List Event

namespace Reassembler

def new (stream : UInt32) (cfg : Config) (now : Instant) : Reassembler where
  stream := stream
  cfg := cfg
  epoch := now
  frames := OrdMap.empty
  need := .keyframe
  lastGood := none
  givenUp := []
  ready := []
  actions := []
  refreshRequestedAt := some now
  refreshRepeats := 0
  refreshBackoff := 0
  sourceLive := true
  stats := {}
  window := {}
  jitterUs := 0
  lastArrival := none
  arrivedAt := now
  stallChargedTo := now
  anyArrived := false
  firstLost := false
  lastSendMsLo := none
  lastTickAt := now
  dozedSinceArrival := 0
  dozedFrom := none
  dozedSpent := 0
  lastRtt := Duration.millis 20
  nackDelay := cfg.nackDelay.forRtt (Duration.millis 20)
  lastWorkerTsUs := 0
  ltrAcks := []
  newestAck := none
  trace := []

/-- True while waiting for an IDR or refresh frame. -/
def awaitingRefresh (r : Reassembler) : Bool :=
  match r.need with
  | .frame _ => false
  | .keyframe | .refresh => true

end Reassembler

end Slopty.Media.Reassemble
