import Slopty.Thread.Intents
import Slopty.Thread.Whole
import Slopty.Lib.Run

/-!
The thread host: every thread a worker holds, their logs, the table and the intents. A thread's log
is opened when the thread is first used, and goes back to its head once it has rested. Every file
operation may be refused.
-/

namespace Slopty.Thread

open Slopty.Lib Slopty.Proto.Codec

/-- The bodies of what the host's files hold, and what a row says that nothing here looks into. -/
structure HostWires extends Wires where
  record : Postcard Record
  say : ThreadState → String

namespace ThreadState

/-- The thread's row in its worker's table. -/
def row (w : HostWires) (s : ThreadState) (updatedMs : WallMs) : ThreadRow :=
  { id := s.threadMeta.id
    said := w.say s
    cwd := if s.threadMeta.cwd = "" then none else some s.threadMeta.cwd
    repo := none
    repoId := none
    updatedMs }

end ThreadState

/-- A thread's directory. One with nothing in it is as good as none. -/
structure Files where
  log : Dir := {}
  intents : IntentFile := {}
  /-- The facts of the seat it keeps. -/
  seat : List (String × String) := []

/-- What the OS makes of opening a thread's files. -/
structure LoadFates where
  snapshotRead : Bool := true
  opened : OpenFates := {}
  intents : Bool := true
  rewrite : RewriteFates := {}
  /-- What is left of a directory that no longer reads, and is deleted. -/
  left : Files := {}

/-- What the OS makes of a new thread's files. -/
structure CreateFates where
  mkdir : Bool := true
  compact : CompactFates := {}
  intents : Bool := true
  rewrite : RewriteFates := {}

/-- What the OS makes of writing an open thread's log and head. -/
structure WriteFates where
  wrote : Fate := .done
  compact : CompactFates := {}
  headWrote : Fate := .done
  headRenamed : Fate := .done

/-- The world outside, for one operation. -/
structure Env where
  now : Nat := 0
  wall : WallMs := 0
  /-- A random epoch. -/
  epoch : Nat := 0
  /-- Which repository a directory not looked up before is in. -/
  found : Option String → Option Place := fun _ => none
  /-- The OS's words for what it refuses. -/
  why : String := ""
  load : LoadFates := {}
  create : CreateFates := {}
  write : WriteFates := {}

/-- Opening a thread's files beside its log: the seat it keeps and its intents. -/
def Hosted.openFiles (w : HostWires) (files : Files) (log : Log) (opened : Bool)
    (rewrite : RewriteFates) : Files × Option Hosted :=
  match Intents.openFile w.record files.intents opened rewrite with
  | (file, none) => ({ files with intents := file }, none)
  | (file, some intents) =>
      ({ files with intents := file },
        some { log := log, own := Own.of log.state files.seat, intents := intents })

def Files.openThread (w : HostWires) (limits : Limits) (files : Files) (fates : LoadFates) :
    Files × Option Hosted :=
  if fates.snapshotRead then
    match Log.openDir w.toWires limits files.log fates.opened with
    | (dir, .error _) => ({ files with log := dir }, none)
    | (dir, .ok log) =>
        Hosted.openFiles w { files with log := dir } log fates.intents fates.rewrite
  else (files, none)

/-- The snapshot was read, and is none this build wrote. -/
def Files.undecodable (w : HostWires) (files : Files) (fates : LoadFates) : Bool :=
  fates.snapshotRead && files.log.snapshot.isSome && (files.log.snapshot.bind w.stored.fromBytes).isNone

/-- A log that no longer decodes is deleted; one the disk refused is left for the next start. -/
def Files.unreadable (w : HostWires) (files : Files) (fates : LoadFates) : Files :=
  if files.undecodable w fates then fates.left else files

def Log.createOver (w : Wires) (limits : Limits) (epoch : Nat) (state : ThreadState) (d : Dir)
    (fates : CompactFates) : Dir × Except Halt Log :=
  let cursor : Cursor := ⟨epoch, 0⟩
  match d.writeSnapshot w cursor state fates.wroteSnapshot fates.renamedSnapshot with
  | (d, some h) => (d, .error h)
  | (d, none) =>
      match d.startTail w cursor fates.tail with
      | (d, .error h) => (d, .error h)
      | (d, .ok len) => (d, .ok (Log.ofSnapshot limits cursor state d.tailFile len))

structure OpenThread where
  hosted : Hosted
  used : Nat
  /-- History: no write of its log failed since it was made or opened. -/
  whole : Bool := true

structure Host where
  disk : OrdMap ThreadId Files
  startsFile : IntentFile
  limits : Limits
  /-- The threads whose logs are open. -/
  threads : OrdMap ThreadId OpenThread := OrdMap.empty
  /-- The threads held whose logs are not opened yet, by their heads. -/
  cold : OrdMap ThreadId Head := OrdMap.empty
  table : Table
  /-- Intents that start a thread. -/
  starts : Intents
  /-- History: what a thread put to rest had, when no write of its log had failed. -/
  rested : ThreadId → Option (ThreadState × Cursor) := fun _ => none

/-- What came of making a thread. -/
inductive Made where
  | made (cursor : Cursor)
  /-- One is held as that thread already. -/
  | held
  | refused (thread : ThreadId)
  deriving DecidableEq

namespace Host

def files (h : Host) (t : ThreadId) : Files := (h.disk.get? t).getD {}

def setFiles (h : Host) (t : ThreadId) (files : Files) : Host :=
  { h with disk := h.disk.insert t files }

def holds (h : Host) (t : ThreadId) : Bool := (h.threads.get? t).isSome || (h.cold.get? t).isSome

def put (h : Host) (row : ThreadRow) (env : Env) : Host :=
  { h with table := h.table.put row (env.found row.cwd) }

def setThread (h : Host) (t : ThreadId) (o : OpenThread) : Host :=
  { h with threads := h.threads.insert t o }

/-- What is remembered of a thread's rest is over. -/
def forget (h : Host) (t : ThreadId) : Host :=
  { h with rested := Function.update h.rested t none }

/-- Open a thread's log if it is held and not opened yet, on its first use. One that cannot be read
is let go. -/
def load (w : HostWires) (h : Host) (t : ThreadId) (env : Env) : Host :=
  match h.threads.get? t with
  | some o => h.setThread t { o with used := env.now }
  | none =>
      match h.cold.get? t with
      | none => h
      | some head =>
          let h := { h with cold := h.cold.erase t }.forget t
          match (h.files t).openThread w h.limits env.load with
          | (files, some hosted) =>
              ((h.setFiles t files).put (hosted.log.state.row w head.row.updatedMs) env).setThread t
                { hosted, used := env.now }
          | (files, none) =>
              { h.setFiles t (files.unreadable w env.load) with table := h.table.remove t }

/-- Host a new thread, unless one is held as that thread already. -/
def create (w : HostWires) (h : Host) (m : ThreadMeta) (env : Env) : Host × Made :=
  if h.holds m.id then (h, .held)
  else if env.create.mkdir then
    match Log.createOver w.toWires h.limits env.epoch (ThreadState.new m) (h.files m.id).log
      env.create.compact with
    | (dir, .error _) => (h.setFiles m.id { h.files m.id with log := dir }, .refused m.id)
    | (dir, .ok log) =>
        let h := (h.setFiles m.id { h.files m.id with log := dir }).put (log.state.row w env.wall) env
        match Hosted.openFiles w (h.files m.id) log env.create.intents env.create.rewrite with
        | (files, none) => (h.setFiles m.id files, .refused m.id)
        | (files, some hosted) =>
            ((h.setFiles m.id files).setThread hosted.log.state.threadMeta.id
              { hosted, used := env.now }, .made log.cursor)
  else (h, .refused m.id)

/-- A thread at rest keeps its head current. -/
def headDir (w : HostWires) (log : Log) (dir : Dir) (row : ThreadRow) (fates : WriteFates) : Dir :=
  if log.state.status.phase = .working then dir
  else (log.writeHead w.toWires dir row fates.headWrote fates.headRenamed).1

/-- Apply actions to an open thread and log them. A log that cannot be written is warned of, and
the actions count anyway. -/
def applyTo (w : HostWires) (h : Host) (t : ThreadId) (o : OpenThread) (actions : List Action)
    (env : Env) : Host × Cursor :=
  let marked := o.hosted.own.mark actions
  let r := o.hosted.log.append w.toWires (h.files t).log marked.2 env.write.wrote env.write.compact
  let row := r.1.state.row w env.wall
  let dir := headDir w r.1 r.2.1 row env.write
  (((h.setFiles t { h.files t with log := dir }).put row env).setThread t
    { o with
      hosted := { o.hosted with log := r.1, own := marked.1 }
      whole := o.whole && encodable w.toWires marked.2 && r.2.2.isNone }, r.1.cursor)

/-- Start an open thread's log over, under a new epoch. The person's own marks stay. `none` when it
could not be written. -/
def restart (w : HostWires) (h : Host) (t : ThreadId) (o : OpenThread) (state : ThreadState)
    (env : Env) : Host × Option Cursor :=
  let filled := o.hosted.own.fill state.threadMeta
  let state := { state with
    threadMeta := filled.2
    seen := o.hosted.log.state.seen
    named := o.hosted.log.state.named }
  let r := o.hosted.log.reset w.toWires (h.files t).log state env.write.compact
  let hosted := { o.hosted with log := r.1, own := filled.1 }
  match r.2.2 with
  | some _ =>
      ((h.setFiles t { h.files t with log := r.2.1 }).setThread t { o with hosted, whole := false },
        none)
  | none =>
      let row := r.1.state.row w env.wall
      let dir := headDir w r.1 r.2.1 row env.write
      (((h.setFiles t { h.files t with log := dir }).put row env).setThread t { o with hosted },
        some r.1.cursor)

/-- Apply what a look at an open thread makes of it, if anything. -/
def change (w : HostWires) (h : Host) (t : ThreadId) (look : ThreadState → List Action) (env : Env) :
    Host :=
  match h.threads.get? t with
  | none => h
  | some o =>
      let actions := look o.hosted.log.state
      if actions.isEmpty then h else (h.applyTo w t o actions env).1

def apply (w : HostWires) (h : Host) (t : ThreadId) (actions : List Action) (env : Env) :
    Host × Option Cursor :=
  let h := h.load w t env
  match h.threads.get? t with
  | none => (h, none)
  | some o =>
      let r := h.applyTo w t o actions env
      (r.1, some r.2)

def update (w : HostWires) (h : Host) (t : ThreadId) (look : ThreadState → List Action) (env : Env) :
    Host :=
  (h.load w t env).change w t look env

/-- Host a thread, or apply what a look makes of the one held. -/
def createOrUpdate (w : HostWires) (h : Host) (m : ThreadMeta) (look : ThreadState → List Action)
    (env : Env) : Host × Option Made :=
  let h := h.load w m.id env
  match h.threads.get? m.id with
  | none =>
      let r := h.create w m env
      (r.1, some r.2)
  | some _ => (h.change w m.id look env, none)

/-- Begin a thread anew: hosted as its metadata says when it is not held, else its log started
over, its metadata what `retell` makes of the one held. -/
def begin (w : HostWires) (h : Host) (state : ThreadState) (retell : ThreadMeta → ThreadMeta)
    (env : Env) : Host × Option Made :=
  let t := state.threadMeta.id
  let h := h.load w t env
  match h.threads.get? t with
  | none =>
      let r := h.create w state.threadMeta env
      (r.1, some r.2)
  | some o =>
      let state := { state with threadMeta := retell o.hosted.log.state.threadMeta }
      ((h.restart w t o state env).1, none)

def reset (w : HostWires) (h : Host) (t : ThreadId) (state : ThreadState) (env : Env) :
    Host × Option Cursor :=
  let h := h.load w t env
  match h.threads.get? t with
  | none => (h, none)
  | some o => h.restart w t o state env

def intent (w : HostWires) (h : Host) (t : ThreadId) (id : IntentId)
    (act : ThreadState → Outcome × List Action) (fates : RecordFates) (env : Env) : Host :=
  let h := h.load w t env
  match h.threads.get? t with
  | none => h
  | some o =>
      match o.hosted.intents.outcome id with
      | some _ => h
      | none =>
          let acted := act o.hosted.log.state
          let h := h.change w t (fun _ => acted.2) env
          let recorded := o.hosted.intents.record w.record (h.files t).intents (id, acted.1) fates
          match h.threads.get? t with
          | none => h
          | some o =>
              (h.setFiles t { h.files t with intents := recorded.2 }).setThread t
                { o with hosted := { o.hosted with intents := recorded.1 } }

/-- Nobody follows the thread and nothing used it since. -/
def resting (before : Nat) (followed : ThreadId → Bool) (t : ThreadId) (o : OpenThread) : Bool :=
  decide (o.used ≤ before) && !followed t

/-- Put one open thread back to its head. One whose head cannot be written keeps it in memory
alone. -/
def restOne (w : HostWires) (h : Host) (t : ThreadId) (fates : Fate × Fate) (env : Env) : Host :=
  match h.threads.get? t with
  | none => h
  | some o =>
      let log := o.hosted.log
      let row := ((h.table.rows.get? t).map Prod.fst).getD (log.state.row w env.wall)
      let dir := (log.writeHead w.toWires (h.files t).log row fates.1 fates.2).1
      { h.setFiles t { h.files t with log := dir } with
        threads := h.threads.erase t
        cold := h.cold.insert t ⟨row, { log.state with items := [] }⟩
        rested := Function.update h.rested t
          (if o.whole then some (log.state, log.cursor) else none) }

/-- Put every open thread that has rested back to its head. `none` for a time before the clock's
first. -/
def rest (w : HostWires) (h : Host) (before : Option Nat) (followed : ThreadId → Bool)
    (fates : ThreadId → Fate × Fate) (env : Env) : Host :=
  match before with
  | none => h
  | some before =>
      ((h.threads.retain (resting before followed)).keys).foldl
        (fun h t => h.restOne w t (fates t) env) h

/-- Stop hosting a thread and delete its log; `left` is what the OS leaves of its directory. -/
def remove (h : Host) (t : ThreadId) (left : Files) : Host :=
  let h := { h with table := h.table.remove t }.forget t
  match h.cold.get? t with
  | some _ => { h with cold := h.cold.erase t }.setFiles t left
  | none =>
      match h.threads.get? t with
      | some _ => { h with threads := h.threads.erase t }.setFiles t left
      | none => h

def start (w : HostWires) (h : Host) (id : IntentId) (asked : Except String ThreadMeta)
    (fates : RecordFates) (env : Env) : Host × Option Made :=
  match h.starts.outcome id with
  | some _ => (h, none)
  | none =>
      let r : Host × Option Made × Outcome :=
        match asked with
        | .error reason => (h, none, .refused reason)
        | .ok m =>
            match h.create w m env with
            | (h, .made cursor) => (h, some (.made cursor), .started m.id)
            | (h, .held) =>
                (h, some .held, .refused
                  ("Couldn't make its log: thread " ++ toString m.id ++ " is held already"))
            | (h, .refused t) =>
                (h, some (.refused t), .refused ("Couldn't make its log: " ++ env.why))
      let recorded := r.1.starts.record w.record r.1.startsFile (id, r.2.2) fates
      ({ r.1 with starts := recorded.1, startsFile := recorded.2 }, r.2.1)

/-- One entry of the threads' directory, at the host's opening: its head, or its log read once and
its head written. -/
def openEntry (w : HostWires) (h : Host) (t : ThreadId) (env : Env) : Host :=
  match Log.head w.toWires (h.files t).log with
  | some head =>
      let h := h.put head.row env
      { h with cold := h.cold.insert head.row.id head }
  | none =>
      match (h.files t).openThread w h.limits env.load with
      | (files, none) => h.setFiles t (files.unreadable w env.load)
      | (files, some hosted) =>
          let row := hosted.log.state.row w env.wall
          let wrote := hosted.log.writeHead w.toWires files.log row env.write.headWrote
            env.write.headRenamed
          let state := match wrote.2 with
            | none => { hosted.log.state with items := [] }
            | some _ => hosted.log.state
          let h := (h.setFiles t { files with log := wrote.1 }).put row env
          { h with cold := h.cold.insert row.id ⟨row, state⟩ }

end Host

def Fate.goesOn (f : Fate) : Bool := decide (f ≠ .stopped)

def Dir.TailFates.goesOn (f : Dir.TailFates) : Bool :=
  f.wrote.goesOn && f.renamed.goesOn && f.opened.goesOn

def CompactFates.goesOn (f : CompactFates) : Bool :=
  f.wroteSnapshot.goesOn && f.renamedSnapshot.goesOn && f.tail.goesOn

/-- The process does not stop in the operation. -/
def Env.goesOn (env : Env) : Bool :=
  env.load.opened.opened.goesOn && env.load.opened.cut.goesOn && env.load.opened.tail.goesOn &&
    env.create.compact.goesOn && env.write.wrote.goesOn && env.write.compact.goesOn &&
    env.write.headWrote.goesOn && env.write.headRenamed.goesOn

inductive HostOp where
  | create (m : ThreadMeta)
  | createOrUpdate (m : ThreadMeta) (look : ThreadState → List Action)
  | begin (state : ThreadState) (retell : ThreadMeta → ThreadMeta)
  | apply (t : ThreadId) (actions : List Action)
  | update (t : ThreadId) (look : ThreadState → List Action)
  | intent (t : ThreadId) (id : IntentId) (act : ThreadState → Outcome × List Action)
      (fates : RecordFates)
  | reset (t : ThreadId) (state : ThreadState)
  /-- A thread is followed, watched, paged or read. -/
  | use (t : ThreadId)
  | rest (before : Option Nat) (followed : ThreadId → Bool) (fates : ThreadId → Fate × Fate)
  | remove (t : ThreadId) (left : Files)
  | start (id : IntentId) (asked : Except String ThreadMeta) (fates : RecordFates)

/-- One operation, and what came of the thread it was to make, if it was. -/
def Host.op (w : HostWires) (h : Host) (env : Env) : HostOp → Host × Option Made
  | .create m =>
      let r := h.create w m env
      (r.1, some r.2)
  | .createOrUpdate m look => h.createOrUpdate w m look env
  | .begin state retell => h.begin w state retell env
  | .apply t actions => ((h.apply w t actions env).1, none)
  | .update t look => (h.update w t look env, none)
  | .intent t id act fates => (h.intent w t id act fates env, none)
  | .reset t state => ((h.reset w t state env).1, none)
  | .use t => (h.load w t env, none)
  | .rest before followed fates => (h.rest w before followed fates env, none)
  | .remove t left => (h.remove t left, none)
  | .start id asked fates => h.start w id asked fates env

inductive Worker where
  | down (disk : OrdMap ThreadId Files) (startsFile : IntentFile)
  | up (h : Host)

inductive WorkerStep where
  /-- A worker starts: the directory's entries in some order, as far as the OS lists them, and
  whether its record of starts opens. -/
  | openHost (limits : Limits) (epoch : Nat) (order : List ThreadId) (env : ThreadId → Env)
      (opened : Bool) (rewrite : RewriteFates)
  | op (op : HostOp) (env : Env)

/-- A worker, and what came of the thread its last operation was to make. -/
structure Hosting where
  worker : Worker
  last : Option Made := none

namespace Hosting

def openHost (w : HostWires) (disk : OrdMap ThreadId Files) (startsFile : IntentFile)
    (limits : Limits) (epoch : Nat) (order : List ThreadId) (env : ThreadId → Env) (opened : Bool)
    (rewrite : RewriteFates) : Worker :=
  let empty : Host :=
    { disk, startsFile, limits, table := { cursor := ⟨epoch, 0⟩ }, starts := { file := startsFile.file } }
  let h := order.foldl (fun h t => h.openEntry w t (env t)) empty
  match Intents.openFile w.record startsFile opened rewrite with
  | (file, none) => .down h.disk file
  | (file, some starts) => .up { h with startsFile := file, starts }

def step (w : HostWires) (m : Hosting) : WorkerStep → Hosting
  | .openHost limits epoch order env opened rewrite =>
      match m.worker with
      | .down disk startsFile =>
          { worker := openHost w disk startsFile limits epoch order env opened rewrite }
      | .up h => { worker := openHost w h.disk h.startsFile limits epoch order env opened rewrite }
  | .op op env =>
      match m.worker with
      | .down _ _ => m
      | .up h =>
          if env.goesOn then
            let r := h.op w env op
            { worker := .up r.1, last := r.2 }
          else m

end Hosting

end Slopty.Thread
