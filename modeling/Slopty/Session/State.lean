import Slopty.Lib.Machine
import Slopty.Lib.SwapRemove

/-!
The data of a session actor as far as its viewers go: the events they are sent,
the bounded channels those go through, and what the actor keeps for each viewer.
-/

namespace Slopty.Session

open Slopty.Lib

def framesInFlight : Nat := 2

def framesUnreachedBytes : Nat := 64 * 1024

def markerEveryBytes : Nat := framesUnreachedBytes / 4

def markersKept : Nat := 16

/-- The codec's limit on one message, and its length prefix. -/
def maxFrameBytes : Nat := 16 * 1024 * 1024

def prefixBytes : Nat := 4

abbrev ClientId := Nat

/-- Names a channel: two sinks are the same channel when their ids are equal. -/
abbrev SinkId := Nat

structure TermSize where
  cols : Nat
  rows : Nat
  cellWidth : Nat
  cellHeight : Nat
  deriving DecidableEq, Repr

structure Frame where
  seq : Nat
  full : Bool
  rows : List String
  deriving DecidableEq, Repr

/-- A program's own report of itself; `ended` for one that is done or failed. -/
structure ProgramReport where
  text : String
  ended : Bool
  deriving DecidableEq, Repr

/-- A decoded image the engine has for whoever does not hold it. -/
structure ImageUpload where
  id : Nat
  pixels : Bytes
  deriving DecidableEq, Repr

inductive TermEvent where
  | frame (f : Frame)
  | image (id : Nat) (pixels : Bytes)
  | marker (id : Nat)
  | driver (you : Bool)
  | title (text : String)
  | cwd (path : String) (repo branch : Option String)
  | colors (overrides : String)
  | progress (report : Option String)
  | programStatus (reports : List ProgramReport)
  | pointer (shape : Option String)
  | restored (note : String)
  | dropTarget (accepts : Bool)
  | resized (cols rows : Nat)
  | exited (status : Option Nat)
  | error (text : String)
  /-- Any other event a viewer hears: lines it fetched, matches, a clipboard write. -/
  | other (text : String)
  deriving DecidableEq, Repr

def imageEvent (u : ImageUpload) : TermEvent := .image u.id u.pixels

/-- One event encoded for the viewers. `credit` names the viewer among whose
frames in flight it holds a place, until it is dropped. -/
structure Outbound where
  event : TermEvent
  wire : Nat
  credit : Option Nat
  deriving DecidableEq, Repr

/-- `codec::encode`, given the bytes postcard makes of each event; `none` for
one past the codec's limit. -/
def encode (size : TermEvent → Nat) (ev : TermEvent) : Option Outbound :=
  if maxFrameBytes < size ev then none
  else some { event := ev, wire := size ev + prefixBytes, credit := none }

/-- A bounded channel to a connection, which takes events out of it and holds
each until the link has taken it. -/
structure Sink where
  capacity : Nat
  closed : Bool
  buffer : List Outbound
  held : List Outbound
  deriving DecidableEq, Repr

inductive TrySend where
  | sent (s : Sink)
  | full
  | closed

def Sink.trySend (s : Sink) (out : Outbound) : TrySend :=
  if s.closed then .closed
  else if s.buffer.length < s.capacity then .sent { s with buffer := s.buffer ++ [out] }
  else .full

/-- How far a viewer's frames have got, by the markers it answers. -/
structure Reach where
  sent : Nat := 0
  marked : Nat := 0
  markers : List (Nat × Nat) := []
  reached : Option Nat := none
  deriving DecidableEq, Repr

namespace Reach

/-- It may be sent another frame. -/
def isOpen (r : Reach) : Bool :=
  r.reached.all fun at' => decide (r.sent - at' < framesUnreachedBytes)

/-- A frame of `bytes` went to it; `true` when a marker should follow it. -/
def frame (r : Reach) (bytes : Nat) : Reach × Bool :=
  let sent := satAdd 64 r.sent bytes
  ({ r with sent := sent }, decide (markerEveryBytes ≤ sent - r.marked))

def marker (r : Reach) (id : Nat) : Reach :=
  { r with
    marked := r.sent
    markers := (if r.markers.length = markersKept then r.markers.drop 1 else r.markers) ++
      [(id, r.sent)] }

/-- It answered marker `id`; an id it was never sent changes nothing. -/
def answered (r : Reach) (id : Nat) : Reach :=
  match r.markers.findIdx? fun m => m.1 == id with
  | none => r
  | some n =>
      { r with
        markers := r.markers.drop (n + 1)
        reached := match r.markers[n]? with
          | some m => some m.2
          | none => r.reached }

end Reach

/-- What the actor keeps for a viewer. `serial` tells viewers apart, as their
counters of frames in flight do in memory; `handed` is a history variable, the
frames put into its sink. -/
structure Viewer where
  client : ClientId
  sink : SinkId
  size : TermSize
  serial : Nat
  /-- It was not sent the last diff, or has had no frame yet. -/
  stale : Bool
  /-- Events its sink had no room for, oldest first, and their bytes. -/
  queued : List Outbound
  queuedBytes : Nat
  /-- A task waits for room in its sink. -/
  waiting : Bool
  /-- Its queue was dropped: it is sent nothing until its sink has room. -/
  lost : Bool
  reach : Reach
  afterScreen : List Outbound
  handed : List Frame
  deriving DecidableEq, Repr

namespace Viewer

def new (client : ClientId) (sink : SinkId) (size : TermSize) (serial : Nat) : Viewer where
  client := client
  sink := sink
  size := size
  serial := serial
  stale := true
  queued := []
  queuedBytes := 0
  waiting := false
  lost := false
  reach := {}
  afterScreen := []
  handed := []

end Viewer

/-- The frame holding a place among the viewer's frames in flight. -/
def Outbound.claimed (out : Outbound) (v : Viewer) : Outbound := { out with credit := some v.serial }

def framesOf (outs : List Outbound) : List Frame :=
  outs.filterMap fun out => match out.event with
    | .frame f => some f
    | _ => none

/-- The engine behind the screen, as the actor drives it. `last` is the number
it gave the last frame everyone takes. -/
structure Engine where
  State : Type
  last : State → Nat
  size : State → TermSize
  write : State → Bytes → State
  takeFrame : State → Except String (Option Frame) × State
  fullFrame : State → Except String Frame × State
  baselineFrame : State → Except String (Frame × List ImageUpload) × State
  joinFrame : State → Except String (Frame × List ImageUpload) × State
  drainImages : State → List ImageUpload × State
  discardFrame : State → State
  resize : State → TermSize → Except String Unit × State

end Slopty.Session
