import Slopty.Proto.Codec
import Slopty.Thread.Table

/-!
One thread's log: its state, the last actions that brought it there, and both on disk. A
thread's directory holds `snapshot` (the state and its cursor), `tail` (a header naming the
cursor it continues from, then each action since) and `head` (the thread's row and its state
without items, naming the tail it was written over). Every file operation may be refused, and
the process may stop before it.
-/

namespace Slopty.Thread

open Slopty.Lib Slopty.Proto.Codec

/-- What comes of one file operation. -/
inductive Fate where
  | done
  /-- The OS refuses it, a write after so many bytes. -/
  | refused (wrote : Nat)
  /-- The process stops before it. -/
  | stopped
  deriving DecidableEq, Repr

/-- How a function that works on files ends when it does not end well. -/
inductive Halt where
  | refused
  | stopped
  deriving DecidableEq, Repr

def Fate.halt : Fate → Option Halt
  | .done => none
  | .refused _ => some .refused
  | .stopped => some .stopped

/-- A head as kept: the tail it was written over, and the head itself. -/
structure StoredHead where
  fromCursor : Cursor
  /-- `none` is `u64::MAX`: a tail no head names. -/
  len : Option Nat
  row : ThreadRow
  state : ThreadState
  deriving DecidableEq, Countable

/-- The bodies of what the files hold. -/
structure Wires where
  action : Postcard Action
  stored : Postcard (Cursor × ThreadState)
  tailHead : Postcard Cursor
  storedHead : Postcard StoredHead

/-- A thread's directory; `tailFile` tells the file now at `tail` from those it replaced. -/
structure Dir where
  snapshot : Option Bytes := none
  tail : Option Bytes := none
  head : Option Bytes := none
  tailFile : Nat := 0
  deriving DecidableEq

namespace Dir

/-- Write a sibling whole and rename it into place. -/
def replace (d : Dir) (put : Dir → Dir) (wrote renamed : Fate) : Dir × Option Halt :=
  match wrote.halt with
  | some h => (d, some h)
  | none =>
      match renamed.halt with
      | some h => (d, some h)
      | none => (put d, none)

def writeSnapshot (w : Wires) (d : Dir) (cursor : Cursor) (state : ThreadState)
    (wrote renamed : Fate) : Dir × Option Halt :=
  d.replace (fun d => { d with snapshot := some (w.stored.toBytes (cursor, state)) }) wrote renamed

structure TailFates where
  wrote : Fate := .done
  renamed : Fate := .done
  opened : Fate := .done

/-- A new tail file continuing from `cursor`, and its length. -/
def startTail (w : Wires) (d : Dir) (cursor : Cursor) (fates : TailFates) :
    Dir × Except Halt Nat :=
  match encode w.tailHead cursor with
  | .error _ => (d, .error .refused)
  | .ok head =>
      let put := fun d : Dir => { d with tail := some head, tailFile := d.tailFile + 1 }
      match d.replace put fates.wrote fates.renamed with
      | (d, some h) => (d, .error h)
      | (d, none) =>
          match fates.opened.halt with
          | some h => (d, .error h)
          | none => (d, .ok head.length)

/-- Append to the file held open; one that was replaced takes the bytes with it. -/
def write (d : Dir) (file : Nat) (bytes : Bytes) : Dir :=
  if file = d.tailFile then { d with tail := d.tail.map (· ++ bytes) } else d

end Dir

structure Limits where
  tailActions : Nat := 4096
  tailBytes : Nat := 4 * 1024 * 1024
  compactAfter : Nat := 1024
  deriving DecidableEq, Repr

inductive Catchup where
  | actions (fromCursor : Cursor) (actions : List Action)
  | snapshot (cursor : Cursor) (state : ThreadState)
  deriving DecidableEq

structure Log where
  limits : Limits
  state : ThreadState
  cursor : Cursor
  /-- The last actions, the newest last: number `cursor.seq - tail.length` first. -/
  tail : List (Action × Nat) := []
  tailBytes : Nat := 0
  /-- The tail file held open. -/
  file : Nat
  /-- Actions in the tail file. -/
  onDisk : Nat := 0
  /-- The cursor the tail file continues from. -/
  tailFrom : Cursor
  /-- The tail file's length; `none` once a write to it failed, so no head names it. -/
  tailLen : Option Nat

def Action.isTurnEnded : Action → Bool
  | .turnEnded _ _ _ _ => true
  | _ => false

/-- Drop the oldest actions until the rest is within the limits. -/
def trimTail (limits : Limits) : List (Action × Nat) → Nat → List (Action × Nat) × Nat
  | [], bytes => ([], bytes)
  | (a, n) :: rest, bytes =>
      if limits.tailActions < rest.length + 1 ∨ limits.tailBytes < bytes then
        trimTail limits rest (bytes - n)
      else ((a, n) :: rest, bytes)

structure CompactFates where
  wroteSnapshot : Fate := .done
  renamedSnapshot : Fate := .done
  tail : Dir.TailFates := {}

namespace Log

/-- Apply one action and number it. -/
def act (log : Log) (action : Action) : Log :=
  { log with
    state := log.state.apply action
    cursor := { log.cursor with seq := log.cursor.seq + 1 } }

def keep (log : Log) (action : Action) (bytes : Nat) : Log :=
  let kept := trimTail log.limits (log.tail ++ [(action, bytes)]) (log.tailBytes + bytes)
  { log with tail := kept.1, tailBytes := kept.2 }

def compact (w : Wires) (log : Log) (dir : Dir) (fates : CompactFates) :
    Log × Dir × Option Halt :=
  match dir.writeSnapshot w log.cursor log.state fates.wroteSnapshot fates.renamedSnapshot with
  | (dir, some h) => (log, dir, some h)
  | (dir, none) =>
      match dir.startTail w log.cursor fates.tail with
      | (dir, .error h) => (log, dir, some h)
      | (dir, .ok len) =>
          ({ log with
              file := dir.tailFile
              tailFrom := log.cursor
              tailLen := some len
              onDisk := 0 }, dir, none)

/-- The loop of `append`: the actions applied and encoded, until one cannot be. -/
def take (w : Wires) (log : Log) (frames : Bytes) (turnEnded : Bool) :
    List Action → Log × Option (Bytes × Bool)
  | [] => (log, some (frames, turnEnded))
  | a :: rest =>
      match encode w.action a with
      | .error _ => (log.act a, none)
      | .ok frame =>
          ((log.act a).keep a frame.length).take w (frames ++ frame)
            (turnEnded || a.isTurnEnded) rest

/-- Apply actions and append them, in order; a turn's end may write a new snapshot. -/
def append (w : Wires) (log : Log) (dir : Dir) (actions : List Action) (wrote : Fate)
    (fates : CompactFates) : Log × Dir × Option Halt :=
  match log.take w [] false actions with
  | (log, none) => (log, dir, some .refused)
  | (log, some (frames, turnEnded)) =>
      let log := { log with onDisk := log.onDisk + actions.length }
      match wrote with
      | .stopped => (log, dir, some .stopped)
      | .refused n =>
          ({ log with tailLen := none }, dir.write log.file (frames.take n), some .refused)
      | .done =>
          let dir := dir.write log.file frames
          let log := { log with tailLen := log.tailLen.map (· + frames.length) }
          if turnEnded && decide (log.limits.compactAfter ≤ log.onDisk) then
            log.compact w dir fates
          else (log, dir, none)

/-- A log over another state, under the next epoch, before it is written. -/
def restarted (log : Log) (state : ThreadState) : Log :=
  { log with
    state := state
    cursor := { epoch := log.cursor.epoch + 1, seq := 0 }
    tail := []
    tailBytes := 0 }

def reset (w : Wires) (log : Log) (dir : Dir) (state : ThreadState) (fates : CompactFates) :
    Log × Dir × Option Halt :=
  (log.restarted state).compact w dir fates

/-- What a follower holding `held` needs. -/
def since (log : Log) (held : Option Cursor) (turns : Nat) : Catchup :=
  let first := log.cursor.seq - log.tail.length
  match held with
  | some held =>
      if held.epoch = log.cursor.epoch ∧ first ≤ held.seq ∧ held.seq ≤ log.cursor.seq then
        .actions held ((log.tail.drop (held.seq - first)).map Prod.fst)
      else .snapshot log.cursor (log.state.window turns)
  | none => .snapshot log.cursor (log.state.window turns)

def ofSnapshot (limits : Limits) (cursor : Cursor) (state : ThreadState) (file : Nat)
    (tailLen : Nat) : Log :=
  { limits := limits
    state := state
    cursor := cursor
    file := file
    tailFrom := cursor
    tailLen := some tailLen }

/-- The actions read from the tail, applied one by one. -/
def replay (log : Log) (read : List (Action × Nat)) : Log :=
  read.foldl (fun log r => { (log.act r.1).keep r.1 r.2 with onDisk := log.onDisk + 1 }) log

end Log

/-- What a worker's start reads of a thread in place of its log. -/
structure Head where
  row : ThreadRow
  /-- Its state, with no items. -/
  state : ThreadState

namespace Dir

def tailHeadRead : Nat := 256

/-- The cursor the tail file continues from and its length, read from its first frame alone. -/
def tailMark (w : Wires) (d : Dir) : Option (Cursor × Nat) :=
  d.tail.bind fun bytes =>
    match tryTake (bytes.take tailHeadRead) with
    | .ok (some (body, _)) => (w.tailHead.fromBytes body).map fun c => (c, bytes.length)
    | _ => none

/-- The whole actions of the tail file that continues from `cursor`, each with its framed size,
and the length of the file's whole part; `none` when the file is missing, torn in its head, or
continues another cursor. -/
def readTail (w : Wires) (d : Dir) (cursor : Cursor) : List (Action × Nat) × Option Nat :=
  match d.tail with
  | none => ([], none)
  | some bytes =>
      match tryTake bytes with
      | .ok (some (body, rest)) =>
          if w.tailHead.fromBytes body = some cursor then
            let actions := (takeAll w.action rest.length rest).1
            (actions, some (bytes.length - rest.length + (actions.map Prod.snd).sum))
          else ([], none)
      | _ => ([], none)

end Dir

structure OpenFates where
  opened : Fate := .done
  cut : Fate := .done
  tail : Dir.TailFates := {}

namespace Log

/-- The log as its files left it: the snapshot, then every whole action of the tail that continues
it. A torn last action is cut off the file. -/
def openDir (w : Wires) (limits : Limits) (d : Dir) (fates : OpenFates) : Dir × Except Halt Log :=
  match d.snapshot.bind w.stored.fromBytes with
  | none => (d, .error .refused)
  | some (cursor, state) =>
      let read := d.readTail w cursor
      match read.2 with
      | some len =>
          match fates.opened.halt, fates.cut.halt with
          | some h, _ => (d, .error h)
          | none, some h => (d, .error h)
          | none, none =>
              ({ d with tail := d.tail.map (List.take len) },
                .ok ((ofSnapshot limits cursor state d.tailFile len).replay read.1))
      | none =>
          match d.startTail w cursor fates.tail with
          | (d, .error h) => (d, .error h)
          | (d, .ok len) => (d, .ok ((ofSnapshot limits cursor state d.tailFile len).replay read.1))

/-- The state the log in a directory holds, as opening it would read it, with nothing written. -/
def read (w : Wires) (d : Dir) : Option ThreadState :=
  (d.snapshot.bind w.stored.fromBytes).map fun stored =>
    stored.2.applyAll ((d.readTail w stored.1).1.map Prod.fst)

/-- The head, when it was written over the tail as it stands. -/
def head (w : Wires) (d : Dir) : Option Head :=
  (d.head.bind w.storedHead.fromBytes).bind fun stored =>
    (d.tailMark w).bind fun mark =>
      if mark.1 = stored.fromCursor ∧ stored.len = some mark.2 then
        some ⟨stored.row, stored.state⟩
      else none

/-- Keep the thread's row and the state without its items as the log's head, over the tail as it
stands. -/
def writeHead (w : Wires) (log : Log) (d : Dir) (row : ThreadRow) (wrote renamed : Fate) :
    Dir × Option Halt :=
  let stored : StoredHead :=
    { fromCursor := log.tailFrom
      len := log.tailLen
      row := row
      state := { log.state with items := [] } }
  d.replace (fun d => { d with head := some (w.storedHead.toBytes stored) }) wrote renamed

def create (w : Wires) (limits : Limits) (epoch : Nat) (state : ThreadState)
    (fates : CompactFates) : Dir × Except Halt Log :=
  let cursor : Cursor := ⟨epoch, 0⟩
  match ({} : Dir).writeSnapshot w cursor state fates.wroteSnapshot fates.renamedSnapshot with
  | (d, some h) => (d, .error h)
  | (d, none) =>
      match d.startTail w cursor fates.tail with
      | (d, .error h) => (d, .error h)
      | (d, .ok len) => (d, .ok (ofSnapshot limits cursor state d.tailFile len))

end Log

end Slopty.Thread
