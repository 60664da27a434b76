import Slopty.Ptyd.Session
import Slopty.Lib.OrdMap
import Slopty.Lib.Run
import Mathlib.Data.List.Perm.Basic

/-!
The custodian: one task per connection over a shared table of sessions, a reader per session, and
the handover of every session to a new build run in place. One thread runs every task, so what
stands between two waits of a task is one step.
-/

namespace Slopty.Ptyd

open Slopty.Lib

/-- A session object. The table names some of them by their ids; a closed one is in no table. -/
abbrev Ref := Nat

/-- The process that dialled. It may dial again after a connection of its is gone. -/
abbrev Worker := Nat

inductive PtydError where
  | sessionExists
  | noSuchSession
  | attachedElsewhere
  | os (why : String)
  deriving DecidableEq, Repr

/-- Why a request that changes the sessions is refused while a handover is under way. -/
def PtydError.handing : PtydError :=
  .os "slopty-ptyd is handing its sessions to a new build; ask again"

/-- One session as `List` tells it. -/
structure SessionInfo where
  id : SessionId
  size : TermSize
  attached : Bool
  backlog : Nat
  checkpoint : Nat
  deriving DecidableEq, Repr

def Session.info (s : Session) : SessionInfo :=
  { id := s.id
    size := s.size
    attached := s.attachedBy.isSome
    backlog := s.ring.buf.length
    checkpoint := s.checkpoint.length }

inductive PtydEvent where
  | spawned (id : SessionId)
  | attached (id : SessionId) (handed : Handover)
  | ok
  | sessions (list : List SessionInfo)
  | error (id : Option SessionId) (error : PtydError)
  deriving DecidableEq, Repr

inductive PtydRequest where
  /-- `opened` is what the system made of it. -/
  | spawn (id : SessionId) (opened : Except String Child)
  | attach (id : SessionId)
  | output (id : SessionId) (bytes : Bytes)
  | checkpoint (id : SessionId) (state : Bytes)
  | resize (id : SessionId) (size : TermSize)
  | close (id : SessionId)
  | list
  | reclaim (id : SessionId)
  /-- `opened` is what came of the master that rode on it, if one did. -/
  | adopt (id : SessionId) (opened : Option (Except String Child))

def maxFrameBytes : Nat := 16 * 1024 * 1024

def maxBacklogBytes : Nat := 4 * 1024 * 1024

def attachedEnvelope : Nat := 4096

def maxCheckpointBytes : Nat := maxFrameBytes - maxBacklogBytes - attachedEnvelope

/-- The two requests that take a session. -/
inductive Taking where
  | attach
  | reclaim
  deriving DecidableEq, Repr

/-- Where a connection's task waits. -/
inductive Task where
  /-- For the next request. -/
  | idle
  /-- For a session's reader to be out of the master. -/
  | parking (how : Taking) (id : SessionId) (session : Ref)
  /-- For a reply to be written; `handed` is the session whose master rides on it. -/
  | sending (reply : PtydEvent) (handed : Option Ref)
  deriving DecidableEq, Repr

def Task.waitsFor : Task → Option Ref
  | .parking _ _ r => some r
  | _ => none

structure Connection where
  peer : Worker
  /-- The ids it has taken. -/
  attached : List SessionId := []
  task : Task := .idle
  /-- History: the sessions it was answered that it holds. -/
  answered : List Ref := []
  deriving DecidableEq, Repr

structure Daemon where
  sessions : OrdMap SessionId Ref := OrdMap.empty
  heap : Ref → Session := fun _ => Session.spawn 0 ⟨⟨0, 0⟩, 0, ""⟩ 0
  nextRef : Ref := 0
  conns : ConnId → Option Connection := fun _ => none
  nextConn : ConnId := 1
  /-- A handover is under way: the sessions it still waits for, the first one told to pause. -/
  handover : Option (List Ref) := none
  backlogBytes : Nat := maxBacklogBytes

/-- What one step did to a session's output. -/
inductive Note where
  /-- A session began. -/
  | opened (session : Ref)
  /-- The reader drained output into the ring. -/
  | drained (session : Ref) (bytes : Bytes)
  /-- A worker that holds the master tapped output. -/
  | tapped (session : Ref) (worker : Worker) (bytes : Bytes)
  /-- A worker that holds the master left a checkpoint. -/
  | checkpointed (session : Ref) (worker : Worker) (state : Bytes)
  /-- An attach took a handover for a worker. -/
  | handed (session : Ref) (worker : Worker) (handover : Handover)
  /-- The reply with the last handover reached the worker. -/
  | delivered (session : Ref) (worker : Worker)
  deriving DecidableEq, Repr

/-- What becomes of a handover once every reader is out of its master: it fails, or the next
build runs with what came whole of it. -/
inductive Outcome where
  | failed
  | execed (backlogBytes : Nat) (came : List SessionId)
  deriving DecidableEq, Repr

inductive Event where
  | dial (peer : Worker)
  | request (conn : ConnId) (req : PtydRequest)
  /-- A connection's wait for a reader is over. -/
  | parked (conn : ConnId)
  /-- A reply was written. -/
  | sent (conn : ConnId)
  /-- A reply could not be written, which ends the connection. -/
  | failed (conn : ConnId)
  /-- The worker hung up, or sent a frame that does not decode. -/
  | hangUp (conn : ConnId)
  | reader (session : Ref) (io : Io)
  /-- The time to take a session back is over. -/
  | grace (session : Ref)
  /-- A handover begins, over the sessions in some order. -/
  | succeed (order : List Ref) (outcome : Outcome)
  /-- The reader a handover waits for is out of its master. -/
  | gathered (outcome : Outcome)
  /-- A handover has waited too long. -/
  | late

namespace Daemon

def handing (d : Daemon) : Bool := d.handover.isSome

def setSession (d : Daemon) (r : Ref) (s : Session) : Daemon :=
  { d with heap := Function.update d.heap r s }

def setConn (d : Daemon) (c : ConnId) (k : Connection) : Daemon :=
  { d with conns := Function.update d.conns c (some k) }

@[simp] theorem setSession_heap_self (d : Daemon) (r : Ref) (s : Session) :
    (d.setSession r s).heap r = s :=
  Function.update_self ..

theorem setSession_heap_of_ne (d : Daemon) {r r' : Ref} (h : r' ≠ r) (s : Session) :
    (d.setSession r s).heap r' = d.heap r' :=
  Function.update_of_ne h ..

@[simp] theorem setConn_conns_self (d : Daemon) (c : ConnId) (k : Connection) :
    (d.setConn c k).conns c = some k :=
  Function.update_self ..

theorem setConn_conns_of_ne (d : Daemon) {c c' : ConnId} (h : c' ≠ c) (k : Connection) :
    (d.setConn c k).conns c' = d.conns c' :=
  Function.update_of_ne h ..

def reply (d : Daemon) (c : ConnId) (k : Connection) (ev : PtydEvent) : Daemon :=
  d.setConn c { k with task := .sending ev none }

def refuse (d : Daemon) (c : ConnId) (k : Connection) (id : SessionId) (e : PtydError) : Daemon :=
  d.reply c k (.error (some id) e)

def insertSession (d : Daemon) (id : SessionId) (s : Session) : Daemon :=
  { d with
    sessions := d.sessions.insert id d.nextRef
    heap := Function.update d.heap d.nextRef s
    nextRef := d.nextRef + 1 }

/-- A handover began while the connection waited to take the session: it lets go of it, for the
handover to hand on or, when that fails, to drain again. -/
def giveUp (d : Daemon) (c : ConnId) (k : Connection) (id : SessionId) (r : Ref) : Daemon :=
  (d.setSession r ((d.heap r).release c)).refuse c
    { k with attached := k.attached.filter (· ≠ id) } id .handing

/-- The connection that claimed the session has waited for its reader. -/
def taken (d : Daemon) (c : ConnId) (k : Connection) (how : Taking) (id : SessionId) (r : Ref) :
    Daemon × Option Note :=
  if d.handing then (d.giveUp c k id r, none)
  else
    match how with
    | .attach =>
        let (handed, s) := (d.heap r).handOver
        ((d.setSession r s).setConn c
          { k with task := .sending (.attached id handed) (some r), answered := r :: k.answered },
         some (.handed r k.peer handed))
    | .reclaim =>
        (d.setConn c { k with task := .sending .ok none, answered := r :: k.answered }, none)

/-- `Attach` and `Reclaim`: claim the session, tell its reader to stop and wait for it. -/
def take (d : Daemon) (c : ConnId) (k : Connection) (how : Taking) (id : SessionId) :
    Daemon × Option Note :=
  if d.handing then (d.refuse c k id .handing, none)
  else
    match d.sessions.get? id with
    | none => (d.refuse c k id .noSuchSession, none)
    | some r =>
        match (d.heap r).claim c with
        | none => (d.refuse c k id .attachedElsewhere, none)
        | some s =>
            let k := { k with attached := k.attached.insert id }
            let d := d.setSession r s.pause
            if s.pause.parked then d.taken c k how id r
            else (d.setConn c { k with task := .parking how id r }, none)

/-- Serve one request of a connection. -/
def handle (d : Daemon) (c : ConnId) (k : Connection) : PtydRequest → Daemon × Option Note
  | .spawn id opened =>
      if d.handing then (d.refuse c k id .handing, none)
      else if (d.sessions.get? id).isSome then (d.refuse c k id .sessionExists, none)
      else
        match opened with
        | .ok child =>
            ((d.insertSession id (Session.spawn id child d.backlogBytes)).reply c k (.spawned id),
             some (.opened d.nextRef))
        | .error why => (d.refuse c k id (.os why), none)
  | .attach id => d.take c k .attach id
  | .reclaim id => d.take c k .reclaim id
  | .output id bytes =>
      match d.sessions.get? id with
      | some r =>
          (d.setSession r ((d.heap r).tap c bytes),
           if (d.heap r).attachedBy = some c then some (.tapped r k.peer bytes) else none)
      | none => (d, none)
  | .checkpoint id state =>
      if maxCheckpointBytes < state.length then (d, none)
      else
        match d.sessions.get? id with
        | some r =>
            (d.setSession r ((d.heap r).setCheckpoint c state),
             if (d.heap r).attachedBy = some c then some (.checkpointed r k.peer state) else none)
        | none => (d, none)
  | .resize id size =>
      match d.sessions.get? id with
      | some r => (d.setSession r ((d.heap r).setSize size), none)
      | none => (d, none)
  | .close id =>
      if d.handing then (d.refuse c k id .handing, none)
      else
        match d.sessions.get? id with
        | none => (d.refuse c k id .noSuchSession, none)
        | some r =>
            (({ d with sessions := d.sessions.erase id }.setSession r (d.heap r).close).reply c
              { k with attached := k.attached.filter (· ≠ id) } .ok, none)
  | .list => (d.reply c k (.sessions (d.sessions.values.map fun r => (d.heap r).info)), none)
  | .adopt id none => (d.refuse c k id (.os "no master came with the session"), none)
  | .adopt id (some opened) =>
      if d.handing then (d.refuse c k id .handing, none)
      else if (d.sessions.get? id).isSome then (d.refuse c k id .sessionExists, none)
      else
        match opened with
        | .ok child =>
            ((d.insertSession id (Session.adopt id child d.backlogBytes c)).setConn c
              { k with
                attached := k.attached.insert id
                task := .sending .ok none
                answered := d.nextRef :: k.answered },
             some (.opened d.nextRef))
        | .error why => (d.refuse c k id (.os why), none)

/-- What the end of a connection does for one id it has taken. -/
def letGo (c : ConnId) (d : Daemon) (id : SessionId) : Daemon :=
  match d.sessions.get? id with
  | some r => d.setSession r ((d.heap r).letGo c)
  | none => d

/-- A connection goes, however it went: whatever it held goes back to the custodian's care. -/
def drop (d : Daemon) (c : ConnId) (k : Connection) : Daemon :=
  let d := k.attached.foldl (letGo c) d
  { d with conns := Function.update d.conns c none }

/-- A handover did not happen: every session no connection holds drains again. -/
def handoverFailed (d : Daemon) : Daemon :=
  { d with
    handover := none
    heap := fun r => if r ∈ d.sessions.values then (d.heap r).resumeUnlessHeld else d.heap r }

/-- The next build runs in this process. Its sessions are those that came whole; every connection
is closed, and so is every object but the heirs'. -/
def exec (d : Daemon) (backlogBytes : Nat) (came : List SessionId) : Daemon :=
  { sessions := d.sessions.retain fun id _ => decide (id ∈ came)
    heap := fun r => Session.inherit (d.heap r).heir backlogBytes
    nextRef := d.nextRef
    backlogBytes }

/-- Tell the readers to stop, one after another, up to the first that is still in its master. -/
def gather (d : Daemon) : List Ref → Outcome → Daemon
  | [], .failed => d.handoverFailed
  | [], .execed backlogBytes came => d.exec backlogBytes came
  | r :: rest, outcome =>
      let d := d.setSession r (d.heap r).pause
      if (d.heap r).parked then gather d rest outcome
      else { d with handover := some (r :: rest) }

/-- Give a step its connection, when that waits for what the step is. -/
def withConn (d : Daemon) (c : ConnId) (f : Connection → Daemon × Option Note) :
    Daemon × Option Note :=
  match d.conns c with
  | some k => f k
  | none => (d, none)

/-- One step. An event that cannot happen here changes nothing. -/
def step (d : Daemon) : Event → Daemon × Option Note
  | .dial peer =>
      -- No dial is accepted while a handover runs.
      if d.handing then (d, none)
      else ({ d.setConn d.nextConn { peer } with nextConn := d.nextConn + 1 }, none)
  | .request c req =>
      d.withConn c fun k => if k.task = .idle then d.handle c k req else (d, none)
  | .parked c =>
      d.withConn c fun k =>
        match k.task with
        | .parking how id r => if (d.heap r).parked then d.taken c k how id r else (d, none)
        | _ => (d, none)
  | .sent c =>
      d.withConn c fun k =>
        match k.task with
        | .sending _ handed =>
            (d.setConn c { k with task := .idle }, handed.map fun r => .delivered r k.peer)
        | _ => (d, none)
  | .failed c =>
      d.withConn c fun k =>
        match k.task with
        | .sending _ _ => (d.drop c k, none)
        | _ => (d, none)
  | .hangUp c => d.withConn c fun k => if k.task = .idle then (d.drop c k, none) else (d, none)
  | .reader r io =>
      if r < d.nextRef then
        match (d.heap r).readLoop io with
        | some (s, bytes) =>
            (d.setSession r s, if bytes = [] then none else some (.drained r bytes))
        | none => (d, none)
      else (d, none)
  | .grace r =>
      if (d.heap r).grace then
        (d.setSession r { (d.heap r).resumeUnlessHeld with grace := false }, none)
      else (d, none)
  | .succeed order outcome =>
      if d.handing = false ∧ order.Perm d.sessions.values then
        ({ d with handover := some order }.gather order outcome, none)
      else (d, none)
  | .gathered outcome =>
      match d.handover with
      | some (r :: rest) =>
          if (d.heap r).parked then (d.gather rest outcome, none) else (d, none)
      | _ => (d, none)
  | .late =>
      match d.handover with
      | some _ => (d.handoverFailed, none)
      | none => (d, none)

def start (backlogBytes : Nat) : Daemon := { backlogBytes }

def next (d : Daemon) (ev : Event) : Daemon := (d.step ev).1

def run (backlogBytes : Nat) (events : List Event) : Daemon :=
  events.foldl next (start backlogBytes)

end Daemon

end Slopty.Ptyd
