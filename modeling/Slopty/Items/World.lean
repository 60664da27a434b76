import Slopty.Items.Registry
import Slopty.Lib.Run

/-!
The worker's connections around the registry, step by step. A connection applies a
proposal under the registry's lock and broadcasts the delta afterwards; the answer to a
refused one goes through a queue of its own; each client applies its own proposals at
once.
-/

namespace Slopty.Items

open Slopty.Lib

/-- Who applies to the registry: a connection's loop, or a task of the worker's own. -/
inductive Task where
  | conn (c : ClientId)
  | own (n : Nat)
  deriving DecidableEq, Repr

/-- Where a connection's relay of the worker's events stands. -/
inductive Relay where
  | live
  | lagged
  | sending (s : Snapshot)
  deriving DecidableEq

/-- A client's link, from its outbox to its inbox. -/
structure Conn where
  /-- Proposals on their way to the worker. -/
  uplink : List ItemOp := []
  /-- The last proposal was refused and is not answered yet. -/
  refused : Bool := false
  /-- Broadcast and not yet relayed. -/
  events : List Delta := []
  relay : Relay := .lagged
  itemsFloor : Nat := 0
  /-- Answers waiting for room on the control stream. -/
  posted : List Snapshot := []
  /-- The control stream. -/
  out : List ItemSync := []
  /-- History: the newest version the relay put on the control stream. -/
  told : Nat := 0

def queueMax : Nat := 1024

/-- The client's side: its copy, and what it does while the worker is away. -/
structure Client where
  doc : ItemDoc := {}
  awaitingSnapshot : Bool := false
  queued : List ItemOp := []

/-- What the registry went through: where it started, and every delta since. -/
structure Log where
  base : Registry
  deltas : List Delta := []

structure World where
  registry : Registry
  /-- Applied and not yet broadcast, each with the task that is to broadcast it. -/
  pending : List (Task × Delta) := []
  clients : ClientId → Client := fun _ => {}
  conns : ClientId → Option Conn := fun _ => none
  /-- History, read by no step. -/
  log : Log := ⟨registry, []⟩

namespace Client

/-- Keep what is done here for when the worker is back, at most so much of it. -/
def queue (client : Client) (op : ItemOp) : Client :=
  { client with
    queued := (if queueMax ≤ client.queued.length then client.queued.drop 1 else client.queued) ++
      [op] }

def applyOwn (client : Client) (op : ItemOp) : Client :=
  { client with doc := { client.doc with items := (ItemDoc.applyOp client.doc.items op true).1 } }

/-- A sync from the worker, and the proposals it releases: what was done here meanwhile goes
over a snapshot, here at once and to the worker in the order it was done. -/
def applySync (client : Client) (me : ClientId) (sync : ItemSync) : Client × List ItemOp :=
  let doc := (client.doc.applySync me sync).1
  match sync with
  | .snapshot _ =>
      (client.queued.foldl applyOwn { client with
        doc := doc, awaitingSnapshot := false, queued := [] }, client.queued)
  | .delta _ => ({ client with doc := doc }, [])

end Client

inductive Step where
  | connect (c : ClientId)
  | disconnect (c : ClientId)
  | propose (c : ClientId) (op : ItemOp)
  /-- The connection's loop takes the next proposal. -/
  | handle (c : ClientId)
  /-- It reads the registry for the answer to a refused one, and queues it. -/
  | answer (c : ClientId)
  /-- The queue of answers puts its next one on the control stream. -/
  | post (c : ClientId)
  | ensureTerminal (n : Nat) (session : SessionId) (by' : ClientId) (id : ItemId)
  | removeSession (n : Nat) (session : SessionId) (by' : ClientId)
  | broadcast (task : Task)
  /-- The relay takes its next event, or sends the snapshot it read. -/
  | relay (c : ClientId)
  /-- The relay fell behind the broadcast and skips what is queued. -/
  | lag (c : ClientId)
  /-- It reads the registry for the state it sends instead. -/
  | resync (c : ClientId)
  | deliver (c : ClientId)

namespace World

/-- The task has something to broadcast before it goes on. -/
def busy (w : World) (task : Task) : Bool := w.pending.any fun p => decide (p.1 = task)

def setConn (w : World) (c : ClientId) (conn : Conn) : World :=
  { w with conns := Function.update w.conns c (some conn) }

def setClient (w : World) (c : ClientId) (client : Client) : World :=
  { w with clients := Function.update w.clients c client }

def onConn (w : World) (c : ClientId) (f : Conn → World) : World :=
  match w.conns c with
  | none => w
  | some conn => f conn

/-- The registry after a task applied to it, and the deltas the task is to broadcast. -/
def applied (w : World) (task : Task) (registry : Registry) (deltas : List Delta) : World :=
  { w with
    registry := registry
    pending := w.pending ++ deltas.map fun d => (task, d)
    log := { w.log with deltas := w.log.deltas ++ deltas } }

def propose (w : World) (c : ClientId) (op : ItemOp) : World :=
  let client := (w.clients c).applyOwn op
  match w.conns c with
  | some conn =>
      if client.awaitingSnapshot then w.setClient c (client.queue op)
      else (w.setClient c client).setConn c { conn with uplink := conn.uplink ++ [op] }
  | none => w.setClient c (client.queue op)

def handle (w : World) (c : ClientId) (conn : Conn) : World :=
  match conn.uplink with
  | [] => w
  | op :: rest =>
      -- The loop broadcasts, or answers, before it takes another.
      if conn.refused || w.busy (.conn c) then w
      else
        match w.registry.apply op c with
        | .ok (registry, delta) =>
            (w.setConn c { conn with uplink := rest }).applied (.conn c) registry [delta]
        | .error _ => w.setConn c { conn with uplink := rest, refused := true }

def answer (w : World) (c : ClientId) (conn : Conn) : World :=
  if conn.refused then
    w.setConn c { conn with refused := false, posted := conn.posted ++ [w.registry.snapshot] }
  else w

def post (w : World) (c : ClientId) (conn : Conn) : World :=
  match conn.posted with
  | [] => w
  | s :: rest => w.setConn c { conn with posted := rest, out := conn.out ++ [.snapshot s] }

def broadcast (w : World) (task : Task) : World :=
  match w.pending.find? fun p => decide (p.1 = task) with
  | none => w
  | some (_, delta) =>
      { w with
        pending := w.pending.eraseP fun p => decide (p.1 = task)
        conns := fun c => (w.conns c).map fun conn =>
          { conn with events := conn.events ++ [delta] } }

def relay (w : World) (c : ClientId) (conn : Conn) : World :=
  match conn.relay with
  | .lagged => w
  | .sending s =>
      w.setConn c { conn with
        relay := .live, out := conn.out ++ [.snapshot s], told := s.version }
  | .live =>
      match conn.events with
      | [] => w
      | d :: rest =>
          if conn.itemsFloor < d.version then
            w.setConn c { conn with
              events := rest, out := conn.out ++ [.delta d], told := d.version }
          else w.setConn c { conn with events := rest }

def lag (w : World) (c : ClientId) (conn : Conn) : World :=
  if conn.relay = .live then w.setConn c { conn with events := [], relay := .lagged } else w

def resync (w : World) (c : ClientId) (conn : Conn) : World :=
  if conn.relay = .lagged then
    w.setConn c { conn with
      itemsFloor := max conn.itemsFloor w.registry.version
      relay := .sending w.registry.snapshot }
  else w

def deliver (w : World) (c : ClientId) (conn : Conn) : World :=
  match conn.out with
  | [] => w
  | sync :: rest =>
      let (client, ops) := (w.clients c).applySync c sync
      (w.setClient c client).setConn c { conn with out := rest, uplink := conn.uplink ++ ops }

def step (w : World) : Step → World
  | .connect c =>
      -- The events are subscribed to before the greeting's snapshot is read.
      (w.setClient c { w.clients c with awaitingSnapshot := true }).setConn c {}
  | .disconnect c => { w with conns := Function.update w.conns c none }
  | .propose c op => w.propose c op
  | .handle c => w.onConn c (w.handle c)
  | .answer c => w.onConn c (w.answer c)
  | .post c => w.onConn c (w.post c)
  | .ensureTerminal n session by' id =>
      match w.registry.ensureTerminal session by' id with
      | none => w
      | some (registry, delta) =>
          if w.busy (.own n) then w else w.applied (.own n) registry [delta]
  | .removeSession n session by' =>
      let (registry, deltas) := w.registry.removeSession session by'
      if w.busy (.own n) then w else w.applied (.own n) registry deltas
  | .broadcast task => w.broadcast task
  | .relay c => w.onConn c (w.relay c)
  | .lag c => w.onConn c (w.lag c)
  | .resync c => w.onConn c (w.resync c)
  | .deliver c => w.onConn c (w.deliver c)

def run (w : World) (steps : List Step) : World := steps.foldl step w

end World

end Slopty.Items
