import Slopty.Hub.Ladder

/-!
The phones the server pushes to. A note the push queue cannot take waits, and so does a take-back;
both are tried again. What a phone shows is kept, to be taken back once it is answered or seen.
-/

namespace Slopty.Hub

open Slopty.Lib
open Slopty.Thread (ThreadId TurnId WallMs)

abbrev ClientId := Nat

inductive NoticeKind where
  | needsYou
  | failed
  | finished
  deriving DecidableEq, Repr

structure TermRef where
  worker : WorkerId
  session : SessionId
  deriving DecidableEq, Repr

/-- What a note is about: a thread, or a terminal's program. -/
inductive Asked where
  | thread (at' : ThreadAt)
  | terminal (term : TermRef)
  deriving DecidableEq, Repr

/-- What a push tells; `said` is what nothing here looks into. -/
structure Notice where
  kind : NoticeKind
  about : Asked
  workedMs : Option Nat := none
  said : String := ""
  deriving DecidableEq, Repr

structure PushDevice where
  quietMs : Nat := 0
  said : String := ""
  deriving DecidableEq, Repr

/-- A person's client link: the phone it is, and whether it listens, once it said. -/
structure Sitting where
  client : Option ClientId := none
  listening : Option Bool := none
  deriving DecidableEq, Repr

structure Pushing where
  /-- The links that could not take it. -/
  unheard : List Nat := []
  /-- Only to the phones not already showing that its subject needs the person. -/
  newOnly : Bool := false
  /-- The turn a finished turn's note is about. -/
  turn : Option TurnId := none

abbrev PerClient (β : Type) := OrdMap ClientId (List β)

namespace PerClient

variable {β : Type}

def of (m : PerClient β) (client : ClientId) : List β := (m.get? client).getD []

def add [DecidableEq β] (m : PerClient β) (client : ClientId) (b : β) : PerClient β :=
  m.insert client ((m.of client).insert b)

/-- Forget the empty sets. -/
def tidy (m : PerClient β) : PerClient β := m.retain fun _ set => !set.isEmpty

end PerClient

/-- The notes each phone shows that a take-back is to take down. -/
structure Shown where
  /-- Those about what needs the person. -/
  asked : PerClient Asked := OrdMap.empty
  /-- Those about a finished turn, with the turn. -/
  finished : PerClient (ThreadAt × TurnId) := OrdMap.empty

namespace Shown

/-- The push queue took a notice for a client's phone. The phone shows one note per thread or
terminal, so this one replaced whatever was up there. -/
def noted (s : Shown) (client : ClientId) (notice : Notice) (turn : Option TurnId) : Shown :=
  let finished :=
    match notice.about with
    | .thread at' => (s.finished.of client).filter fun e => decide (e.1 ≠ at')
    | .terminal _ => s.finished.of client
  let asked := s.asked.of client
  if notice.kind = .needsYou then
    { asked := s.asked.insert client (asked.insert notice.about)
      finished := s.finished.insert client finished }
  else
    { asked := s.asked.insert client (asked.filter fun a => decide (a ≠ notice.about))
      finished := s.finished.insert client
        (match notice.kind, notice.about, turn with
        | .finished, .thread at', some turn => finished.insert (at', turn)
        | _, _, _ => finished) }

def tidy (s : Shown) : Shown := { asked := s.asked.tidy, finished := s.finished.tidy }

def forget (s : Shown) (client : ClientId) : Shown :=
  { asked := s.asked.erase client, finished := s.finished.erase client }

end Shown

structure Waiting where
  client : ClientId
  notice : Notice
  turn : Option TurnId

structure Phones where
  devices : OrdMap ClientId PushDevice := OrdMap.empty
  /-- Whether there is a queue pushes go to. -/
  out : Bool := false
  shown : Shown := {}
  /-- What each phone is owed a take-back of. -/
  owed : PerClient Asked := OrdMap.empty
  /-- The notes the queue could not take when they were made, oldest first. -/
  owedNotes : List Waiting := []

/-- What becomes of a push handed to the queue. -/
inductive TrySend where
  | ok
  | full
  | closed
  deriving DecidableEq, Repr

/-- What the queue accepted for a phone, and where subjects were found no longer to need the
person. -/
inductive PushEvent where
  | note (client : ClientId) (notice : Notice)
  | takeBack (client : ClientId) (subjects : List Asked)
  | answered (about : Asked → Bool)

/-- The phones, what becomes of the next pushes (one past them finds the queue full), and what
happened so far. -/
structure Pushes where
  phones : Phones
  room : List TrySend := []
  log : List PushEvent := []

def maxTakeBack : Nat := 16

/-- A list in parts of a length; the last one may be shorter. -/
def chunks (n : Nat) : Nat → List Asked → List (List Asked)
  | 0, _ => []
  | _ + 1, [] => []
  | fuel + 1, a :: rest => (a :: rest).take n :: chunks n fuel ((a :: rest).drop n)

namespace Pushes

/-- Hand the queue a push. -/
def trySend (s : Pushes) (push : PushEvent) : TrySend × Pushes :=
  match s.room with
  | [] => (.full, s)
  | .ok :: room => (.ok, { s with room := room, log := s.log ++ [push] })
  | refused :: room => (refused, { s with room := room })

def setPhones (s : Pushes) (phones : Phones) : Pushes := { s with phones := phones }

/-- Whether the phone of a client listens on a live link that could take the notice. -/
def isListening (seats : OrdMap Nat Sitting) (how : Pushing) (client : ClientId) : Bool :=
  seats.entries.any fun e => decide (e.2.client = some client) && e.2.listening.all id &&
    !how.unheard.contains e.1

/-- A note waiting for room, or a take-back owed, about the same subject is older than a new note
about it. -/
def replaced (phones : Phones) (client : ClientId) (about : Asked) : Phones :=
  { phones with
    owedNotes := phones.owedNotes.filter fun w =>
      decide (w.client ≠ client ∨ w.notice.about ≠ about)
    owed :=
      match phones.owed.get? client with
      | some owed => phones.owed.insert client (owed.filter fun a => decide (a ≠ about))
      | none => phones.owed }

def sendTo (seats : OrdMap Nat Sitting) (notice : Notice) (how : Pushing) (s : Pushes)
    (e : ClientId × PushDevice) : Pushes :=
  let shown := (s.phones.shown.asked.of e.1).contains notice.about
  let short := decide (notice.kind = .finished) &&
    notice.workedMs.any fun ms => decide (ms < e.2.quietMs)
  if (how.newOnly && shown) || isListening seats how e.1 || short then s
  else
    let phones := replaced s.phones e.1 notice.about
    match (s.setPhones phones).trySend (.note e.1 notice) with
    | (.ok, s) => s.setPhones { phones with shown := phones.shown.noted e.1 notice how.turn }
    | (.full, s) =>
        s.setPhones { phones with
          owedNotes := phones.owedNotes ++ [{ client := e.1, notice := notice, turn := how.turn }] }
    | (.closed, s) => s

/-- Push a notice to every phone not listening. -/
def send (s : Pushes) (seats : OrdMap Nat Sitting) (notice : Notice) (how : Pushing) : Pushes :=
  if s.phones.out then
    let s := s.phones.devices.entries.foldl (sendTo seats notice how) s
    s.setPhones { s.phones with shown := s.phones.shown.tidy, owed := s.phones.owed.tidy }
  else s

/-- Hand the queue the notes that waited, until it is full again. -/
def sendWaiting : List Waiting → Pushes → Pushes
  | [], s => s
  | w :: rest, s =>
      match s.phones.devices.get? w.client with
      | none => sendWaiting rest s
      | some _ =>
          match s.trySend (.note w.client w.notice) with
          | (.ok, s) =>
              sendWaiting rest (s.setPhones
                { s.phones with shown := s.phones.shown.noted w.client w.notice w.turn })
          | (.full, s) =>
              s.setPhones { s.phones with owedNotes := s.phones.owedNotes ++ w :: rest }
          | (.closed, s) => sendWaiting rest s

/-- Hand the queue take-backs of what a phone is owed, until one is refused. -/
def sendChunks (client : ClientId) : List (List Asked) → Pushes → Pushes
  | [], s => s
  | chunk :: rest, s =>
      match s.trySend (.takeBack client chunk) with
      | (.ok, s) =>
          sendChunks client rest (s.setPhones { s.phones with
            owed := s.phones.owed.insert client
              ((s.phones.owed.of client).filter fun a => !chunk.contains a) })
      | (_, s) => s

variable (iter : List Asked → List Asked)

/-- Send a client's phone the take-backs it is owed; `iter` is the order its set is walked in. -/
def sendTakeBacks (s : Pushes) (client : ClientId) : Pushes :=
  match s.phones.devices.get? client with
  | none => s.setPhones { s.phones with owed := s.phones.owed.insert client [] }
  | some _ =>
      let all := iter (s.phones.owed.of client)
      sendChunks client (chunks maxTakeBack all.length all) s

/-- Hand the queue the notes that wait and the take-backs owed that it takes. -/
def sendOwed (s : Pushes) : Pushes :=
  let s :=
    if s.phones.out then
      let s := sendWaiting s.phones.owedNotes (s.setPhones { s.phones with owedNotes := [] })
      s.phones.owed.keys.foldl (sendTakeBacks iter) s
    else s
  s.setPhones { s.phones with owed := s.phones.owed.tidy, shown := s.phones.shown.tidy }

def stillOwed (s : Pushes) : Bool :=
  decide (s.phones.owed.size ≠ 0) || !s.phones.owedNotes.isEmpty

/-- The notes a phone shows about what no longer needs the person become take-backs owed. -/
def oweAnswered (answered : Asked → Bool) (phones : Phones) : Phones :=
  let there := fun client => (phones.devices.get? client).isSome
  let owed := phones.owed.retain fun client _ => there client
  { phones with
    owed := phones.shown.asked.entries.foldl
      (fun owed e =>
        if there e.1 then (e.2.filter answered).foldl (fun owed a => owed.add e.1 a) owed else owed)
      owed
    owedNotes := phones.owedNotes.filter fun w => there w.client && !answered w.notice.about
    shown :=
      { finished := phones.shown.finished.retain fun client _ => there client
        asked := (phones.shown.asked.mapVal fun _ asked => asked.filter fun a => !answered a).retain
          fun client asked => there client && !asked.isEmpty } }

/-- Take back from each phone what no longer needs the person, among what it was pushed. -/
def takeBackWhere (s : Pushes) (answered : Asked → Bool) : Pushes :=
  let s := { s with log := s.log ++ [PushEvent.answered answered] }
  if s.phones.out then sendOwed iter (s.setPhones (oweAnswered answered s.phones))
  else s.setPhones { s.phones with shown := {}, owed := OrdMap.empty }

/-- A program no longer waits on the person, or its terminal is gone. -/
def programAnswered (s : Pushes) (term : TermRef) : Pushes :=
  takeBackWhere iter s fun a => decide (a = .terminal term)

/-- The person has seen a turn, or its thread ended. -/
def read (tables : Tables) (e : ThreadAt × TurnId) : Bool :=
  (tables.get? e.1.worker).any fun t => (t.get? e.1.thread).all fun r => decide (e.2 ≤ r.seen)

/-- A thread that a linked worker's ladder does not say needs the person. -/
def atRest (ladder : Ladder) (tables : Tables) : Asked → Bool
  | .thread at' =>
      (tables.get? at'.worker).isSome &&
        (ladder.threads.find? fun r => decide (r.at' = at')).all fun r =>
          decide (r.rung ≠ .needsYou)
  | .terminal _ => false

/-- The notes of finished turns the person has seen become take-backs owed. -/
def oweRead (tables : Tables) (phones : Phones) : Phones :=
  { phones with
    owed := phones.shown.finished.entries.foldl
      (fun owed e =>
        (e.2.filter (read tables)).foldl (fun owed f => owed.add e.1 (.thread f.1)) owed)
      phones.owed
    shown := { phones.shown with
      finished := phones.shown.finished.mapVal fun _ finished =>
        finished.filter fun f => !read tables f } }

/-- Take back each phone's asks whose threads no longer need the person, and its notes of a
finished turn the person has since seen. -/
def takeBack (s : Pushes) (ladder : Ladder) (tables : Tables) : Pushes :=
  takeBackWhere iter (s.setPhones (oweRead tables s.phones)) (atRest ladder tables)

/-- A client's phone listens again: it takes back its own notes. -/
def listening (s : Pushes) (client : ClientId) : Pushes :=
  s.setPhones { s.phones with
    shown := s.phones.shown.forget client
    owed := s.phones.owed.erase client
    owedNotes := s.phones.owedNotes.filter fun w => decide (w.client ≠ client) }

end Pushes

inductive PushOp where
  | send (seats : OrdMap Nat Sitting) (notice : Notice) (how : Pushing)
  | takeBack (ladder : Ladder) (tables : Tables)
  | programAnswered (term : TermRef)
  | listening (client : ClientId)
  | sendOwed
  /-- Phones come and go. -/
  | devices (devices : OrdMap ClientId PushDevice)
  /-- Pushes go to another queue, or to none. -/
  | pushTo (out : Bool)

/-- One operation, with what becomes of the pushes it hands the queue. -/
def Pushes.step (iter : List Asked → List Asked) (s : Pushes) (op : PushOp × List TrySend) :
    Pushes :=
  let s := { s with room := op.2 }
  match op.1 with
  | .send seats notice how => s.send seats notice how
  | .takeBack ladder tables => s.takeBack iter ladder tables
  | .programAnswered term => s.programAnswered iter term
  | .listening client => s.listening client
  | .sendOwed => s.sendOwed iter
  | .devices devices => s.setPhones { s.phones with devices := devices }
  | .pushTo out => s.setPhones { s.phones with out := out }

end Slopty.Hub
