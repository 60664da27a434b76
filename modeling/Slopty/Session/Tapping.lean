import Slopty.Session.State

/-!
What a session's actor hands the daemon that keeps the master: a copy of every byte read, and now
and then the engine's whole state, which replaces what was tapped before it. A tap the queue cannot
take leaves a hole, and nothing is tapped until a state that covers it was taken.
-/

namespace Slopty.Session

open Slopty.Lib

def checkpointAfterMs : Nat := 500

def checkpointAfterInputMs : Nat := 2000

def checkpointEveryBytes : Nat := 2 ^ 20

def maxBacklogBytes : Nat := 4 * 2 ^ 20

def attachedEnvelope : Nat := 4 * 2 ^ 10

def checkpointMaxBytes : Nat := maxFrameBytes - maxBacklogBytes - attachedEnvelope

/-- The engine as the taps use it. `call` is any call that gives it no output. -/
structure Formatter where
  State : Type
  Call : Type
  write : State → Bytes → State
  call : State → Call → State
  /-- The whole state as output, unless it cannot be formatted. -/
  checkpoint : State → Option Bytes
  /-- Whether the output stands outside every sequence, unless it cannot tell. -/
  atGround : State → Option Bool

/-- What goes on between the actor and the daemon: output read (and given to the engine), taps the
queue accepted, and states found too large. -/
inductive TapEvent where
  | read (bytes : Bytes)
  | output (bytes : Bytes)
  | checkpoint (state : Bytes)
  | resize (size : TermSize)
  | tooLarge
  deriving DecidableEq

/-- The part of an actor that taps. `room` says which of the next taps the queue takes, `free`
whether it has room when asked, and `history` is what happened so far. -/
structure Tapping (E : Formatter) where
  engine : E.State
  title : Option Bytes := none
  dirtySinceCheckpoint : Bool := true
  tappedSinceCheckpoint : Nat := 0
  tapLost : Bool := false
  oversize : Bool := false
  sizeUntold : Option TermSize := none
  checkpointDue : Option Nat := none
  checkpointOwed : Bool := false
  typedAt : Option Nat := none
  nowMs : Nat := 0
  free : Bool := false
  room : List Bool := []
  history : List TapEvent := []

namespace Tapping

variable {E : Formatter}

/-- Hand the queue a tap; whether it took it. -/
def trySend (s : Tapping E) (tap : TapEvent) : Bool × Tapping E :=
  match s.room with
  | [] => (false, s)
  | true :: room => (true, { s with room := room, history := s.history ++ [tap] })
  | false :: room => (false, { s with room := room })

def checkpointAfterQuiet (s : Tapping E) : Tapping E :=
  { s with checkpointDue := some (s.nowMs + checkpointAfterMs) }

def tellSize (s : Tapping E) (size : TermSize) : Tapping E :=
  match s.trySend (.resize size) with
  | (true, s) => s
  | (false, s) => { s with sizeUntold := some size }

def titled (title : Option Bytes) : Bytes :=
  match title with
  | some t => [0x1b, 0x5d, 0x30, 0x3b] ++ t ++ [0x1b, 0x5c]
  | none => []

/-- Hand the daemon a formatted state, unless it is too large to keep. -/
def sendState (s : Tapping E) (state : Bytes) : Tapping E :=
  if checkpointMaxBytes < state.length then
    { s with
      oversize := true
      tappedSinceCheckpoint := 0
      tapLost := false
      history := s.history ++ [.tooLarge] }
  else
    match s.trySend (.checkpoint state) with
    | (true, s) =>
        { s with
          dirtySinceCheckpoint := false
          tappedSinceCheckpoint := 0
          tapLost := false
          oversize := false }
    | (false, s) => s.checkpointAfterQuiet

/-- A checkpoint that is not forced waits while someone is typing. -/
def typingUntil (s : Tapping E) (force : Bool) : Option Nat :=
  if force then none
  else (s.typedAt.map (· + checkpointAfterInputMs)).filter fun until' => decide (s.nowMs < until')

/-- Tell the daemon a size it could not be told before. -/
def tellUntold (s : Tapping E) : Tapping E :=
  match s.sizeUntold with
  | some size => { s with sizeUntold := none }.tellSize size
  | none => s

def formatState (s : Tapping E) : Tapping E :=
  match E.checkpoint s.engine with
  | none => s
  | some formatted => s.sendState (titled s.title ++ formatted)

/-- Hand the daemon the engine's whole state. Unless forced, a checkpoint waits while someone is
typing and while the output stands inside a sequence. -/
def checkpoint (s : Tapping E) (force : Bool) : Tapping E :=
  if s.dirtySinceCheckpoint then
    match s.typingUntil force with
    | some until' => { s with checkpointDue := some until' }
    | none =>
        if s.free = false ∨ force = false ∧ (E.atGround s.engine).getD false = false then
          s.checkpointAfterQuiet
        else s.tellUntold.formatState
  else s

/-- Hand the queue output; `framed` is whether the codec frames it. -/
def sendOutput (framed : Bytes → Bool) (s : Tapping E) (bytes : Bytes) : Bool × Tapping E :=
  if framed bytes then s.trySend (.output bytes) else (false, s)

/-- Copy output to the daemon's ring, unless the ring has a hole a state is to replace. -/
def tapBytes (framed : Bytes → Bool) (s : Tapping E) (bytes : Bytes) : Tapping E :=
  if s.tapLost then s
  else
    match sendOutput framed
      { s with tappedSinceCheckpoint := s.tappedSinceCheckpoint + bytes.length } bytes with
    | (true, s) => s
    -- With a state too large to replace the ring, the taps go on past the hole.
    | (false, s) => if s.oversize then s else { s with tapLost := true }

/-- Copy output to the daemon's ring and schedule the checkpoint that will fold it away. -/
def tapOutput (framed : Bytes → Bool) (s : Tapping E) (bytes : Bytes) : Tapping E :=
  let s := tapBytes framed { s with dirtySinceCheckpoint := true } bytes
  if s.oversize = false ∧ (s.tapLost = true ∨ checkpointEveryBytes ≤ s.tappedSinceCheckpoint) then
    { s with checkpointOwed := true }
  else s.checkpointAfterQuiet

def checkpointIfOwed (s : Tapping E) : Tapping E :=
  if s.checkpointOwed then { s with checkpointOwed := false }.checkpoint true else s

/-- Bytes for the engine: read from the master, or printed in the program's stead. -/
def feed (s : Tapping E) (bytes : Bytes) : Tapping E :=
  { s with engine := E.write s.engine bytes, history := s.history ++ [.read bytes] }

def calls (s : Tapping E) (calls : List E.Call) : Tapping E :=
  { s with engine := calls.foldl E.call s.engine }

/-- Bytes just read from the master: the engine, the tap, whatever else is asked of the engine
(events, frames), and the checkpoint the tap found due. -/
def onOutput (framed : Bytes → Bool) (s : Tapping E) (bytes : Bytes) (after : List E.Call)
    (title : Option Bytes) : Tapping E :=
  let s := (s.feed bytes).tapOutput framed bytes
  let s := { s.calls after with title := title }
  s.checkpointIfOwed

/-- The terminal was resized. -/
def applySize (s : Tapping E) (resize : E.Call) (size : TermSize) : Tapping E :=
  let s := (s.calls [resize]).tellSize size
  { s with dirtySinceCheckpoint := true }.checkpointAfterQuiet

def lost (s : Tapping E) : Tapping E :=
  { s with dirtySinceCheckpoint := true, tapLost := true }.checkpoint false

end Tapping

/-- What happens to an actor, as far as its taps go. -/
inductive TapOp (E : Formatter) where
  /-- It starts, from what it replayed. -/
  | opened
  /-- A read, with what else the engine is asked and the title after it. -/
  | output (bytes : Bytes) (after : List E.Call) (title : Option Bytes)
  /-- The history is cleared as if the program had printed the erase. -/
  | clear (erase : Bytes) (after : List E.Call) (title : Option Bytes)
  | quiet
  | typed
  | resized (resize : E.Call) (size : TermSize)
  | tapLost
  /-- Anything else asked of the engine. -/
  | asked (calls : List E.Call)

/-- When an operation runs, whether the queue has room when asked and which of the operation's taps
it takes. -/
structure TapMoment where
  nowMs : Nat
  free : Bool
  room : List Bool

namespace Tapping

variable {E : Formatter}

def step (framed : Bytes → Bool) (s : Tapping E) (op : TapOp E × TapMoment) : Tapping E :=
  let s := { s with nowMs := op.2.nowMs, free := op.2.free, room := op.2.room }
  match op.1 with
  | .opened => s.checkpoint true
  | .output bytes after title => s.onOutput framed bytes after title
  | .clear erase after title => s.onOutput framed erase after title
  | .quiet => { s with checkpointDue := none }.checkpoint false
  | .typed => { s with typedAt := some s.nowMs }
  | .resized resize size => s.applySize resize size
  | .tapLost => s.lost
  | .asked calls => s.calls calls

end Tapping

end Slopty.Session
