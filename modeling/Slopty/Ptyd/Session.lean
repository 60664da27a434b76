import Slopty.Lib.Machine
import Mathlib.Data.List.Basic

/-!
One PTY-backed child as the custodian keeps it: the ring of output since the last worker's
checkpoint, who holds the master, and the task that reads the master while nobody does.
-/

namespace Slopty.Ptyd

open Slopty.Lib

abbrev SessionId := Nat

/-- A connection's number, given in the order connections are accepted. -/
abbrev ConnId := Nat

/-- Keeps the newest `capacity` bytes; older bytes fall off the front and are counted. -/
structure Ring where
  buf : Bytes
  capacity : Nat
  dropped : Nat
  deriving DecidableEq, Repr

namespace Ring

def new (capacity : Nat) : Ring := { buf := [], capacity, dropped := 0 }

def push (ring : Ring) (bytes : Bytes) : Ring :=
  if ring.capacity ≤ bytes.length then
    -- Only the tail of this write can survive.
    let skip := bytes.length - ring.capacity
    { ring with buf := bytes.drop skip, dropped := ring.dropped + ring.buf.length + skip }
  else
    let overflow := ring.buf.length + bytes.length - ring.capacity
    { ring with buf := ring.buf.drop overflow ++ bytes, dropped := ring.dropped + overflow }

/-- A ring handed from one build to the next, with `dropped` bytes lost before `bytes`. -/
def holding (capacity : Nat) (bytes : Bytes) (dropped : Nat) : Ring :=
  let ring := (new capacity).push bytes
  { ring with dropped := ring.dropped + dropped }

/-- Take everything out. The count of what was dropped stays. -/
def drain (ring : Ring) : Bytes × Ring := (ring.buf, { ring with buf := [] })

def clear (ring : Ring) : Ring := { ring with buf := [], dropped := 0 }

/-- The ring is what is left of `all` after the first `start` bytes and those it dropped. -/
def Follows (ring : Ring) (start : Nat) (all : Bytes) : Prop :=
  start + ring.dropped ≤ all.length ∧ ring.buf = all.drop (start + ring.dropped)

theorem Follows.push {ring : Ring} {start : Nat} {all : Bytes} (h : ring.Follows start all)
    (bytes : Bytes) : (ring.push bytes).Follows start (all ++ bytes) := by
  obtain ⟨hle, hbuf⟩ := h
  have hlen : ring.buf.length = all.length - (start + ring.dropped) := by
    rw [hbuf, List.length_drop]
  unfold Ring.push
  split
  · rename_i hcap
    -- Everything held falls off, and the head of this write with it.
    have hpos : start + (ring.dropped + ring.buf.length + (bytes.length - ring.capacity)) =
        all.length + (bytes.length - ring.capacity) := by
      omega
    refine ⟨?_, ?_⟩
    · dsimp only
      rw [hpos, List.length_append]
      omega
    · dsimp only
      rw [hpos, List.drop_length_add_append]
  · rename_i hcap
    have hover : ring.buf.length + bytes.length - ring.capacity ≤ ring.buf.length := by
      omega
    refine ⟨?_, ?_⟩
    · dsimp only
      rw [List.length_append]
      omega
    · dsimp only
      rw [List.drop_append_of_le_length (by omega), hbuf, List.drop_drop]
      congr 2
      omega

theorem Follows.drain {ring : Ring} {start : Nat} {all taken : Bytes} (h : ring.Follows start all)
    (htaken : taken = ring.buf) : ring.drain.2.Follows (start + taken.length) all := by
  obtain ⟨hle, hbuf⟩ := h
  have hlen : taken.length = all.length - (start + ring.dropped) := by
    rw [htaken, hbuf, List.length_drop]
  refine ⟨?_, ?_⟩
  · change start + taken.length + ring.dropped ≤ all.length
    omega
  · change [] = all.drop (start + taken.length + ring.dropped)
    rw [List.drop_of_length_le (by omega)]

theorem Follows.holding {ring : Ring} {start : Nat} {all : Bytes} (h : ring.Follows start all)
    (capacity : Nat) : (Ring.holding capacity ring.buf ring.dropped).Follows start all := by
  obtain ⟨hle, hbuf⟩ := h
  have hfresh : (Ring.new capacity).Follows (start + ring.dropped)
      (all.take (start + ring.dropped)) := by
    constructor
    · simp [Ring.new, List.length_take, hle]
    · simp [Ring.new]
  have hpushed := hfresh.push ring.buf
  rw [hbuf, List.take_append_drop, ← hbuf] at hpushed
  obtain ⟨hle', hbuf'⟩ := hpushed
  unfold Ring.holding
  refine ⟨?_, ?_⟩
  · dsimp only
    omega
  · dsimp only
    rw [hbuf']
    congr 1
    omega

end Ring

inductive Reader where
  /-- Drain it into the ring. -/
  | drain
  /-- Stay out of it: a worker holds it. -/
  | pause
  /-- The session is closed: read and drop what the child still writes. -/
  | discard
  deriving DecidableEq, Repr

/-- Where the reader's task waits. -/
inductive Place where
  /-- It has not run yet. -/
  | fresh
  /-- For another word than to pause. -/
  | out
  /-- In the master, or for another word than to drain. -/
  | within
  /-- In the master of a closed session. -/
  | dropping
  /-- It ended. -/
  | done
  deriving DecidableEq, Repr

structure TermSize where
  cols : Nat
  rows : Nat
  deriving DecidableEq, Repr

structure Session where
  id : SessionId
  startedMs : Nat
  term : String
  /-- Size of record. -/
  size : TermSize
  /-- Output since the last checkpoint. -/
  ring : Ring
  /-- The last worker's terminal state, empty until a worker sends one. -/
  checkpoint : Bytes
  /-- Connection holding the master, if any. -/
  attachedBy : Option ConnId
  /-- What the reader is to do. -/
  reader : Reader
  /-- The reader has not seen the last change of that word. -/
  unseen : Bool
  /-- The reader's word that it is out of the master, or finished. -/
  parked : Bool
  place : Place
  /-- The time a worker that held it in the build before has to take it back is running. -/
  grace : Bool
  deriving DecidableEq, Repr

/-- What a worker taking the master is handed besides it. -/
structure Handover where
  checkpoint : Bytes
  backlog : Bytes
  /-- Bytes lost before `backlog`. -/
  dropped : Nat
  size : TermSize
  startedMs : Nat
  term : String
  deriving DecidableEq, Repr

structure Child where
  size : TermSize
  startedMs : Nat
  term : String
  deriving DecidableEq, Repr

/-- One session as a custodian hands it to the build it runs next. -/
structure Heir where
  id : SessionId
  startedMs : Nat
  term : String
  size : TermSize
  checkpoint : Bytes
  backlog : Bytes
  dropped : Nat
  /-- A worker held the master. -/
  attached : Bool
  deriving DecidableEq, Repr

/-- One outcome of the wait the reader's task is in. -/
inductive Io where
  | woken
  | read (bytes : Bytes)
  /-- End of file, or a failed read. -/
  | ended
  deriving DecidableEq, Repr

def readBytes : Nat := 64 * 1024

namespace Session

def start (id : SessionId) (child : Child) (ring : Ring) (checkpoint : Bytes)
    (attachedBy : Option ConnId) (reader : Reader) (grace : Bool) : Session :=
  { id
    startedMs := child.startedMs
    term := child.term
    size := child.size
    ring
    checkpoint
    attachedBy
    reader
    unseen := false
    parked := false
    place := .fresh
    grace }

def spawn (id : SessionId) (child : Child) (backlogBytes : Nat) : Session :=
  start id child (.new backlogBytes) [] none .drain false

/-- A session a worker hands back with its master, which it holds on. -/
def adopt (id : SessionId) (child : Child) (backlogBytes : Nat) (conn : ConnId) : Session :=
  start id child (.new backlogBytes) [] (some conn) .pause false

def heir (s : Session) : Heir :=
  { id := s.id
    startedMs := s.startedMs
    term := s.term
    size := s.size
    checkpoint := s.checkpoint
    backlog := s.ring.buf
    dropped := s.ring.dropped
    attached := s.attachedBy.isSome }

/-- One a worker held is kept out of the reader a while, for that worker. -/
def inherit (heir : Heir) (backlogBytes : Nat) : Session :=
  start heir.id { size := heir.size, startedMs := heir.startedMs, term := heir.term }
    (.holding backlogBytes heir.backlog heir.dropped) heir.checkpoint none
    (if heir.attached then .pause else .drain) heir.attached

/-- The top of the reader's loop: look at the word and go where it says. -/
def look (s : Session) : Session :=
  match s.reader with
  | .discard => { s with unseen := false, parked := true, place := .dropping }
  | .pause => { s with unseen := false, parked := true, place := .out }
  | .drain => { s with unseen := false, parked := false, place := .within }

/-- The reader's task goes on from where it waits, and what it drained into the ring. `none` when
that wait is not over. -/
def readLoop (s : Session) (io : Io) : Option (Session × Bytes) :=
  match s.place, io with
  | .fresh, .woken => some (s.look, [])
  | .out, .woken => if s.unseen then some (s.look, []) else none
  | .within, .woken => if s.unseen then some (s.look, []) else none
  | .within, .read bytes =>
      if bytes ≠ [] ∧ bytes.length ≤ readBytes then
        some ({ s with ring := s.ring.push bytes }.look, bytes)
      else none
  | .within, .ended => some ({ s with parked := true, place := .done }, [])
  | .dropping, .read _ => some (s, [])
  | .dropping, .ended => some ({ s with place := .done }, [])
  | _, _ => none

/-- Hand the master to a connection unless another holds it. -/
def claim (s : Session) (conn : ConnId) : Option Session :=
  match s.attachedBy with
  | some other => if other ≠ conn then none else some { s with attachedBy := some conn }
  | none => some { s with attachedBy := some conn }

/-- The connection let go of the master. -/
def release (s : Session) (conn : ConnId) : Session :=
  if s.attachedBy = some conn then { s with attachedBy := none } else s

/-- The first half of `park`: tell the reader to stop. The other half waits for `parked`. -/
def pause (s : Session) : Session :=
  if s.reader = .drain then { s with reader := .pause, unseen := true } else s

def handOver (s : Session) : Handover × Session :=
  let (backlog, ring) := s.ring.drain
  ({ checkpoint := s.checkpoint
     backlog
     dropped := s.ring.dropped
     size := s.size
     startedMs := s.startedMs
     term := s.term },
   { s with ring })

/-- Output the connection read from the master. Only the one holding it may tap. -/
def tap (s : Session) (conn : ConnId) (bytes : Bytes) : Session :=
  if s.attachedBy = some conn then { s with ring := s.ring.push bytes } else s

/-- The ring's bytes are inside the new checkpoint, so they go. -/
def setCheckpoint (s : Session) (conn : ConnId) (checkpoint : Bytes) : Session :=
  if s.attachedBy = some conn then { s with checkpoint, ring := s.ring.clear } else s

def setSize (s : Session) (size : TermSize) : Session := { s with size }

/-- Let the reader drain again, unless the session is closed. -/
def resumeReader (s : Session) : Session :=
  if s.reader = .pause then { s with reader := .drain, unseen := true } else s

def resumeUnlessHeld (s : Session) : Session :=
  if s.attachedBy = none then s.resumeReader else s

/-- The reader drops what the child still writes from now on, whoever holds the master. -/
def close (s : Session) : Session := { s with reader := .discard, unseen := true }

/-- What the end of a connection does to a session it has under its ids. -/
def letGo (s : Session) (conn : ConnId) : Session := (s.release conn).resumeReader

end Session

end Slopty.Ptyd
