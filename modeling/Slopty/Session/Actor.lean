import Slopty.Session.State

/-!
The session actor: handing frames and events to its viewers, catching up the
ones that missed some, and the seat of the driver whose size the terminal has.
-/

namespace Slopty.Session

open Slopty.Lib

/-- The driver was asked whether it is still there. -/
structure RollCall where
  driver : ClientId
  asker : ClientId
  deriving DecidableEq, Repr

/-- `waits` are the tasks waiting for room in a sink, `drained` the messages of
those that found it. A field the source keeps with a default value is `none`
here when it has that value. `numbered` is a history variable: for each number
the engine gave a frame everyone takes, that frame, or `none` where building it
failed after that. -/
structure Actor (E : Engine) where
  engine : E.State
  viewers : List Viewer
  owed : Bool
  driver : Option ClientId
  orphan : Option (ClientId × SinkId)
  roll : Option RollCall
  nextMarker : Nat
  queuedMaxBytes : Nat
  title : Option String
  cwd : Option String
  repo : Option String
  branch : Option String
  programColors : Option String
  progress : Option String
  program : List ProgramReport
  pointer : Option String
  restored : Option String
  dropTarget : Bool
  exited : Option (Option Nat)
  sinks : SinkId → Sink
  waits : List (ClientId × SinkId × Nat)
  drained : List (ClientId × SinkId)
  nextSerial : Nat
  numbered : List (Option Frame)

/-- Every row and the images on them, encoded for whoever joins. -/
structure Whole where
  frame : Outbound
  images : List Outbound

namespace Actor

variable {E : Engine} (size : TermEvent → Nat)

def setViewer (a : Actor E) (i : Nat) (v : Viewer) : Actor E :=
  { a with viewers := a.viewers.set i v }

def setSink (a : Actor E) (id : SinkId) (s : Sink) : Actor E :=
  { a with sinks := fun j => if j = id then s else a.sinks j }

/-- The viewer's frames not done with: everything alive that holds a place
among them. -/
def inFlight (a : Actor E) (v : Viewer) : Nat :=
  (v.queued ++ (a.sinks v.sink).buffer ++ (a.sinks v.sink).held).countP fun out =>
    out.credit == some v.serial

def takesFrame (a : Actor E) (v : Viewer) : Bool :=
  !v.lost && decide (a.inFlight v < framesInFlight) && v.reach.isOpen

def position (a : Actor E) (client : ClientId) : Option Nat :=
  a.viewers.findIdx? fun v => v.client == client

/-- Wake the actor when viewer `i`'s sink has room for what waits for it. -/
def waitForRoom (a : Actor E) (i : Nat) : Actor E :=
  match a.viewers[i]? with
  | none => a
  | some v =>
      if v.waiting then a
      else
        let most := max v.queued.length 1
        let room := (a.sinks v.sink).capacity / 2
        let room := if room < 1 then 1 else if most < room then most else room
        { a.setViewer i { v with waiting := true } with
          waits := a.waits ++ [(v.client, v.sink, room)] }

/-- What does not fit the sink waits in order; past the limit it is all
dropped. -/
def enqueue (a : Actor E) (i : Nat) (v : Viewer) (out : Outbound) : Actor E :=
  let bytes := satAdd 64 v.queuedBytes out.wire
  let v :=
    if a.queuedMaxBytes < bytes then
      { v with
        queued := []
        queuedBytes := 0
        afterScreen := []
        lost := true
        stale := true
        reach := {} }
    else { v with queued := v.queued ++ [out], queuedBytes := bytes }
  (a.setViewer i v).waitForRoom i

/-- Hand `out` to viewer `i` behind whatever waits for it. `false` when the
viewer is gone. -/
def deliver (a : Actor E) (i : Nat) (out : Outbound) : Actor E × Bool :=
  match a.viewers[i]? with
  | none => (a, true)
  | some v =>
      if v.lost then (a, true)
      else if v.queued.isEmpty then
        match (a.sinks v.sink).trySend out with
        | .sent s =>
            ((a.setSink v.sink s).setViewer i { v with handed := v.handed ++ framesOf [out] }, true)
        | .closed => (a, false)
        | .full => (a.enqueue i v out, true)
      else (a.enqueue i v out, true)

/-- One hand-over after another, unless the viewer is gone. -/
def andThen (r : Actor E × Bool) (next : Actor E → Actor E × Bool) : Actor E × Bool :=
  match r with
  | (a, true) => next a
  | (a, false) => (a, false)

/-- Hand events over in order, up to the first the viewer is gone for. -/
def deliverAll (a : Actor E) (i : Nat) : List Outbound → Actor E × Bool
  | [] => (a, true)
  | out :: rest => andThen (a.deliver i out) fun a => a.deliverAll i rest

/-- A marker after the frames it lets the viewer confirm. -/
def deliverMarker (a : Actor E) (i : Nat) : Actor E × Bool :=
  let id := a.nextMarker
  let a := { a with nextMarker := (id + 1) % 2 ^ 64 }
  match encode size (.marker id) with
  | none => (a, true)
  | some marker =>
      let a :=
        match a.viewers[i]? with
        | some v => a.setViewer i { v with reach := v.reach.marker id }
        | none => a
      a.deliver i marker

/-- Hand viewer `i` a frame, holding a place among its frames in flight, and a
marker after it when one is due. -/
def deliverFrame (a : Actor E) (i : Nat) (frame : Outbound) : Actor E × Bool :=
  match a.viewers[i]? with
  | none => (a, true)
  | some v =>
      if v.lost then (a, true)
      else
        let claimed := frame.claimed v
        let (reach, markerDue) := v.reach.frame frame.wire
        andThen ((a.setViewer i { v with reach := reach }).deliver i claimed) fun a =>
          if !markerDue || (a.viewers[i]?).all fun v => v.lost then (a, true)
          else a.deliverMarker size i

/-- Drop viewer `i`. The driver's seat is kept for one that drove. -/
def removeOne (a : Actor E) (i : Nat) : Actor E :=
  match a.viewers[i]? with
  | none => a
  | some v =>
      { a with
        viewers := swapRemove a.viewers i
        orphan := if a.driver = some v.client then some (v.client, v.sink) else a.orphan }

/-- Drop the viewers at `gone`, whose sinks closed, the last of them first. -/
def remove (a : Actor E) (gone : List Nat) : Actor E := gone.reverse.foldl removeOne a

/-- Give a task to the viewers in turn, noting the ones that are gone. -/
def visit (task : Actor E → Nat → Actor E × Bool) : List Nat → Actor E → Actor E × List Nat
  | [], a => (a, [])
  | i :: rest, a =>
      let (a, kept) := task a i
      let (a, gone) := visit task rest a
      (a, if kept then gone else i :: gone)

def eachViewer (a : Actor E) (task : Actor E → Nat → Actor E × Bool) (indices : List Nat) :
    Actor E :=
  let (a, gone) := visit task indices a
  a.remove gone

/-- What `send_frame` does for viewer `i`. -/
def offerFrame (images : List Outbound) (frame : Outbound) (a : Actor E) (i : Nat) :
    Actor E × Bool :=
  match a.viewers[i]? with
  | none => (a, true)
  | some v =>
      if v.stale then (a, true)
      else if !a.takesFrame v then (a.setViewer i { v with stale := true }, true)
      else andThen (a.deliverAll i images) fun a => a.deliverFrame size i frame

/-- Hand a frame everyone takes to each viewer that follows the diffs, the
images it places first. -/
def sendFrame (a : Actor E) (frame : Frame) : Actor E :=
  let (images, engine) := E.drainImages a.engine
  let a := { a with engine := engine }
  match encode size (.frame frame) with
  | none => a
  | some out =>
      a.eachViewer (offerFrame size (images.filterMap fun u => encode size (imageEvent u)) out)
        (List.range a.viewers.length)

/-- Every row for whoever joins: at the others' sequence number beside viewers
that follow the diffs, and as what the next diff is taken against when none
does. The error to tell them when the rows could not be read. -/
def wholeFrame (a : Actor E) : Actor E × Except (Option Outbound) Whole :=
  let (joined, engine) :=
    if a.viewers.all fun v => v.stale then E.baselineFrame a.engine else E.joinFrame a.engine
  let a := { a with engine := engine }
  match joined with
  | .error e => (a, .error (encode size (.error e)))
  | .ok (frame, images) =>
      match encode size (.frame frame) with
      | none => (a, .error none)
      | some out => (a, .ok ⟨out, images.filterMap fun u => encode size (imageEvent u)⟩)

def deliverWhole (whole : Whole) (a : Actor E) (i : Nat) : Actor E × Bool :=
  match a.viewers[i]? with
  | none => (a, true)
  | some v =>
      andThen ((a.setViewer i { v with stale := false }).deliverAll i whole.images) fun a =>
        a.deliverFrame size i whole.frame

/-- What a whole frame, or the reason there is none, does for viewer `i`. -/
def tellWhole (whole : Except (Option Outbound) Whole) (a : Actor E) (i : Nat) : Actor E × Bool :=
  match whole with
  | .ok whole => deliverWhole size whole a i
  | .error none => (a, true)
  | .error (some out) => a.deliver i out

/-- Every viewer that missed a diff and has room is sent every row. -/
def sendWholeFrames (a : Actor E) : Actor E :=
  let owed := (List.range a.viewers.length).filter fun i =>
    (a.viewers[i]?).any fun v => v.stale && a.takesFrame v
  if owed.isEmpty then a
  else
    let (a, whole) := a.wholeFrame size
    a.eachViewer (tellWhole size whole) owed

def sendWhole (a : Actor E) (i : Nat) : Actor E × Bool :=
  let (a, whole) := a.wholeFrame size
  tellWhole size whole a i

/-- Viewer `i` waits for the screen. -/
def owedScreen (a : Actor E) (i : Nat) : Bool :=
  (a.viewers[i]?).any fun v => !v.lost && (v.stale || a.owed)

/-- Hand `out` to viewer `i` after the events it holds until it has its screen,
and held with them when it tells of a screen it waits for. -/
def deliverInOrder (out : Outbound) (afterScreen : Bool) (a : Actor E) (i : Nat) :
    Actor E × Bool :=
  let hold := afterScreen && a.owedScreen i
  match a.viewers[i]? with
  | none => (a, true)
  | some v =>
      if hold || !v.afterScreen.isEmpty then
        (a.setViewer i { v with afterScreen := v.afterScreen ++ [out] }, true)
      else a.deliver i out

/-- What was held for viewer `i` until it had its screen. -/
def releaseOne (a : Actor E) (i : Nat) : Actor E × Bool :=
  if a.owedScreen i then (a, true)
  else
    match a.viewers[i]? with
    | none => (a, true)
    | some v => (a.setViewer i { v with afterScreen := [] }).deliverAll i v.afterScreen

/-- Every viewer that has its screen now hears what was held until it did. -/
def releaseAfterScreen (a : Actor E) : Actor E :=
  a.eachViewer releaseOne (List.range a.viewers.length)

/-- Hand an event to every viewer. `broadcast` and `broadcast_after_screen`
differ only in `afterScreen`. -/
def broadcastEvent (a : Actor E) (ev : TermEvent) (afterScreen : Bool) : Actor E :=
  if a.viewers.isEmpty then a
  else
    match encode size ev with
    | none => a
    | some out => a.eachViewer (deliverInOrder out afterScreen) (List.range a.viewers.length)

def broadcast (a : Actor E) (ev : TermEvent) : Actor E := a.broadcastEvent size ev false

def broadcastAfterScreen (a : Actor E) (ev : TermEvent) : Actor E := a.broadcastEvent size ev true

def sendTo (a : Actor E) (client : ClientId) (ev : TermEvent) : Actor E :=
  match a.position client with
  | none => a
  | some i =>
      match encode size ev with
      | none => a
      | some out => (deliverInOrder out false a i).1

/-- What the engine numbered, coming to `engine` by building a frame. -/
def numbers (a : Actor E) (built : Except String (Option Frame)) (engine : E.State) :
    List (Option Frame) :=
  match built with
  | .ok (some frame) => [some frame]
  | .ok none => []
  | .error _ => if E.last engine = E.last a.engine then [] else [none]

/-- The engine came to `engine` building a frame for everyone: it is sent, or the
viewers are told why there is none. -/
def sendBuilt (a : Actor E) (built : Except String (Option Frame)) (engine : E.State)
    (tell : Bool) : Actor E :=
  let a := { a with engine := engine, numbered := a.numbered ++ a.numbers built engine }
  match built with
  | .ok (some frame) => a.sendFrame size frame
  | .ok none => a
  | .error e => if tell then a.broadcast size (.error e) else a

/-- The next diff for the viewers that follow the diffs and have room for it. -/
def flushDiff (a : Actor E) : Actor E :=
  if a.viewers.all fun v => v.stale then
    { a with owed := false, engine := E.discardFrame a.engine }
  else if a.viewers.any fun v => !v.stale && a.takesFrame v then
    let (built, engine) := E.takeFrame a.engine
    { a with owed := false }.sendBuilt size built engine true
  else { a with owed := true }

/-- The next diff for the viewers that follow the diffs, and every row for those
that missed one. -/
def flushFrame (a : Actor E) : Actor E :=
  ((a.flushDiff size).sendWholeFrames size).releaseAfterScreen

/-- A viewer's frame was done with: build what is owed now when the pace allows
it. -/
def frameRoom (a : Actor E) (paced : Bool) : Actor E :=
  if (a.viewers.any fun v => a.takesFrame v && (v.stale || a.owed)) && paced then a.flushFrame size
  else a

/-- Every row now if viewer `i` has room, else when it has. -/
def oweWhole (a : Actor E) (i : Nat) : Actor E :=
  match a.viewers[i]? with
  | none => a
  | some v =>
      let a := a.setViewer i { v with stale := true }
      if (a.viewers[i]?).any fun v => a.takesFrame v then
        match a.sendWhole size i with
        | (a, true) => a
        | (a, false) => a.remove [i]
      else a

/-- What a joiner is told before its screen. -/
def standing (a : Actor E) : List TermEvent :=
  (a.title.toList.map .title) ++
    (a.cwd.toList.map fun path => .cwd path a.repo a.branch) ++
    (a.programColors.toList.map .colors) ++
    (if a.progress.isSome then [.progress a.progress] else []) ++
    (if a.program.isEmpty then [] else [.programStatus a.program]) ++
    (if a.pointer.isSome then [.pointer a.pointer] else []) ++
    (a.restored.toList.map .restored) ++
    (if a.dropTarget then [.dropTarget true] else [])

def tellStanding (a : Actor E) (client : ClientId) : Actor E :=
  a.standing.foldl (fun a ev => a.sendTo size client ev) a

def tellScreen (a : Actor E) (client : ClientId) : Actor E :=
  match a.position client with
  | some i => a.oweWhole size i
  | none => a

def tellExit (a : Actor E) (client : ClientId) : Actor E :=
  match a.exited, a.position client with
  | some status, some i =>
      match encode size (.exited status) with
      | some out => (deliverInOrder out true a i).1
      | none => a
  | _, _ => a

/-- What a viewer joining is told: how the session stands, every row with the
images on them, and after them the exit if the child is gone. -/
def introduce (a : Actor E) (client : ClientId) : Actor E :=
  ((a.tellStanding size client).tellScreen size client).tellExit size client

/-- Every row at the new size, to the viewers that follow the diffs. -/
def sendFull (a : Actor E) : Actor E :=
  if a.viewers.all fun v => v.stale then a
  else
    let (full, engine) := E.fullFrame a.engine
    a.sendBuilt size (full.map some) engine false

def applySize (a : Actor E) (newSize : TermSize) : Actor E :=
  if newSize = E.size a.engine then a
  else
    let (resized, engine) := E.resize a.engine newSize
    let a := { a with engine := engine }
    match resized with
    | .error _ => a
    | .ok () => (a.broadcast size (.resized newSize.cols newSize.rows)).sendFull size

def sizeOf (a : Actor E) (client : ClientId) : Option TermSize :=
  (a.viewers.find? fun v => v.client == client).map Viewer.size

def updateClient (a : Actor E) (client : ClientId) (f : Viewer → Viewer) : Actor E :=
  match a.position client with
  | none => a
  | some i =>
      match a.viewers[i]? with
      | none => a
      | some v => a.setViewer i (f v)

def attach (a : Actor E) (client : ClientId) (newSize : TermSize) (sink : SinkId) : Actor E :=
  -- The others take what they are owed before the joiner's frame is built.
  let a := a.flushFrame size
  let a :=
    { a with
      viewers := (a.viewers.filter fun v : Viewer => v.client != client) ++
        [Viewer.new client sink newSize a.nextSerial]
      nextSerial := a.nextSerial + 1
      orphan := a.orphan.filter fun o => o.1 != client
      roll := a.roll.filter fun r => r.driver != client }
  let a :=
    if a.driver = none ∨ a.driver = some client then
      let a := { a with driver := some client }
      (a.sendTo size client (.driver true)).applySize size newSize
    else a
  a.introduce size client

/-- `client` detached: the size passes to another viewer if it drove. -/
def onViewerGone (a : Actor E) (client : ClientId) : Actor E :=
  if a.driver = some client ∧ (a.viewers.any fun v => v.client == client) = false then
    let a := { a with orphan := none, driver := none }
    match a.viewers.head? with
    | none => a
    | some next =>
        let a := { a with driver := some next.client }
        (a.sendTo size next.client (.driver true)).applySize size next.size
  else a

def detach (a : Actor E) (client : ClientId) (sink : Option SinkId) : Actor E :=
  let through := fun s => sink.all fun t => t == s
  let kept := a.viewers.filter fun v => v.client != client || !through v.sink
  let orphaned := a.orphan.any fun o => o.1 == client && through o.2
  let gone := decide (kept.length ≠ a.viewers.length) || orphaned
  let a := { a with viewers := kept }
  if gone then a.onViewerGone size client else a

def reserve (a : Actor E) (client : ClientId) : Actor E :=
  let old := a.driver
  let a := { a with orphan := none, driver := some client }
  match old with
  | some old => if old ≠ client then a.sendTo size old (.driver false) else a
  | none => a

/-- `TermRequest::Drive`. -/
def drive (a : Actor E) (client : ClientId) (take : Bool) : Actor E :=
  if take then
    let a := (a.reserve size client).sendTo size client (.driver true)
    match a.sizeOf client with
    | some s => a.applySize size s
    | none => a
  else if a.driver = some client then
    { a with driver := none }.sendTo size client (.driver false)
  else a

/-- `TermRequest::Resize`. -/
def resizeRequest (a : Actor E) (client : ClientId) (newSize : TermSize) : Actor E :=
  let a := a.updateClient client fun v => { v with size := newSize }
  if a.driver = some client then a.applySize size newSize else a

/-- `TermRequest::Reached`. -/
def reachedRequest (a : Actor E) (client : ClientId) (marker : Nat) (paced : Bool) : Actor E :=
  (a.updateClient client fun v => { v with reach := v.reach.answered marker }).frameRoom size paced

def askDriver (a : Actor E) (asker : ClientId) : Actor E :=
  match a.driver with
  | none => a
  | some driver =>
      if a.roll.isSome ∨ (a.viewers.any fun v => v.client == asker) = false then a
      else if a.orphan.any fun o => o.1 == driver then
        { a with roll := some ⟨driver, asker⟩ }
      else
        match a.position driver with
        | none => a
        | some i =>
            if (a.viewers[i]?).all fun v => v.reach.reached.isNone then a
            else
              let id := a.nextMarker
              let a := { a with nextMarker := (id + 1) % 2 ^ 64 }
              match encode size (.marker id) with
              | none => a
              | some marker =>
                  let a := a.updateClient driver fun v => { v with reach := v.reach.marker id }
                  { (a.deliver i marker).1 with roll := some ⟨driver, asker⟩ }

def word (a : Actor E) (client : ClientId) : Actor E :=
  if a.driver = some client then { a with roll := none } else a

/-- What a client types; from one that is not the driver it asks whether the driver is there. -/
def typed (a : Actor E) (client : ClientId) : Actor E :=
  if a.driver = some client then a.word client else a.askDriver size client

/-- The driver did not answer in time: the viewer that typed drives. -/
def rollCallOver (a : Actor E) : Actor E :=
  match a.roll with
  | none => a
  | some roll =>
      let a := { a with roll := none }
      if a.driver ≠ some roll.driver then a
      else
        match a.sizeOf roll.asker with
        | none => a
        | some s =>
            let a := { a with orphan := none, driver := some roll.asker }
            let a := a.sendTo size roll.driver (.driver false)
            (a.sendTo size roll.asker (.driver true)).applySize size s

/-- The child is gone. What it reported of itself ends with it, its results
apart. -/
def childExited (a : Actor E) (status : Option Nat) : Actor E :=
  let a := { a with exited := some status }.flushFrame size
  let a := { a with progress := none }
  let results := a.program.filter ProgramReport.ended
  let a :=
    if results.length ≠ a.program.length then
      { a with program := results }.broadcast size (.programStatus results)
    else a
  a.broadcastAfterScreen size (.exited status)

/-- The viewer whose queue was dropped is told everything again. -/
def catchUp (a : Actor E) (client : ClientId) : Actor E :=
  (a.sendTo size client (.driver (decide (a.driver = some client)))).introduce size client

/-- What waited for viewer `i` goes into its sink, in order: `none` when the
sink is closed, else whether all of it went. -/
def drainQueue : List Outbound → Sink → Viewer → Option (Sink × Viewer × Bool)
  | [], s, v => some (s, v, true)
  | out :: rest, s, v =>
      match s.trySend out with
      | .sent s =>
          drainQueue rest s
            { v with
              queued := rest
              queuedBytes := v.queuedBytes - out.wire
              handed := v.handed ++ framesOf [out] }
      | .full => some (s, v, false)
      | .closed => none

/-- What waited for viewer `i` goes into its sink; what does not fit waits on. -/
def drainViewer (a : Actor E) (i : Nat) (v : Viewer) (paced : Bool) : Actor E :=
  match drainQueue v.queued (a.sinks v.sink) v with
  | none => a.remove [i]
  | some (s, w, true) => ((a.setSink v.sink s).setViewer i w).frameRoom size paced
  | some (s, w, false) => ((a.setSink v.sink s).setViewer i w).waitForRoom i

/-- The viewer at `i` is told everything again, after the others take the diff
they are owed. -/
def tellLost (a : Actor E) (i : Nat) (client : ClientId) : Actor E :=
  let a := a.flushFrame size
  let a :=
    match a.viewers[i]? with
    | some v => a.setViewer i { v with lost := false }
    | none => a
  a.catchUp size client

/-- A viewer's sink has room: what waited for it goes in, in order, and one whose
queue was dropped is told everything again. -/
def sinkHasRoom (a : Actor E) (client : ClientId) (sink : SinkId) (paced : Bool) : Actor E :=
  match a.viewers.findIdx? fun v => v.client == client && v.sink == sink with
  | none => a
  | some i =>
      match a.viewers[i]? with
      | none => a
      | some v =>
          let v := { v with waiting := false }
          let a := a.setViewer i v
          if v.lost then a.tellLost size i client else a.drainViewer size i v paced

end Actor

/-- What the engine reports besides the screen. -/
inductive News where
  | title (text : String)
  | place (path : String) (repo branch : Option String)
  | colors (overrides : Option String)
  | progress (report : Option String)
  | program (reports : List ProgramReport)
  | pointer (shape : Option String)
  | dropTarget (accepts : Bool)
  | other (text : String)
  deriving DecidableEq, Repr

namespace Actor

variable {E : Engine} (size : TermEvent → Nat)

def news (a : Actor E) : News → Actor E
  | .title text =>
      if a.title = some text then a
      else { a with title := some text }.broadcast size (.title text)
  | .place path repo branch =>
      { a with cwd := some path, repo := repo, branch := branch }.broadcast size
        (.cwd path repo branch)
  | .colors overrides =>
      { a with programColors := overrides }.broadcast size (.colors (overrides.getD ""))
  | .progress report => { a with progress := report }.broadcast size (.progress report)
  | .program reports =>
      if reports = a.program then a
      else { a with program := reports }.broadcast size (.programStatus reports)
  | .pointer shape => { a with pointer := shape }.broadcast size (.pointer shape)
  | .dropTarget accepts =>
      { a with dropTarget := accepts }.broadcast size (.dropTarget accepts)
  | .other text => a.broadcast size (.other text)

end Actor

/-- What happens to a session: its commands, its clocks, and what the
connections at the other end of its sinks do. -/
inductive Step where
  | attach (client : ClientId) (newSize : TermSize) (sink : SinkId)
  | detach (client : ClientId) (sink : Option SinkId)
  | reserve (client : ClientId)
  | drive (client : ClientId) (take : Bool)
  | resize (client : ClientId) (newSize : TermSize)
  | reached (client : ClientId) (marker : Nat) (paced : Bool)
  | typed (client : ClientId)
  | rollCallOver
  | output (bytes : Bytes)
  | flush
  | frameRoom (paced : Bool)
  | news (n : News)
  | answer (client : ClientId) (text : String)
  | exited (status : Option Nat)
  /-- The actor hears that a sink has room. -/
  | drained (paced : Bool)
  /-- A connection takes an event out of its sink. -/
  | take (sink : SinkId)
  /-- A connection is done with an event it took. -/
  | done (sink : SinkId) (k : Nat)
  | close (sink : SinkId)
  /-- A task waiting for room ends: it found it, or the sink closed. -/
  | wake (k : Nat)
  deriving DecidableEq, Repr

namespace Actor

variable {E : Engine} (size : TermEvent → Nat)

def wake (a : Actor E) (k : Nat) : Actor E :=
  match a.waits[k]? with
  | none => a
  | some (client, sink, room) =>
      let s := a.sinks sink
      if s.closed then { a with waits := a.waits.eraseIdx k }
      else if room ≤ s.capacity - s.buffer.length then
        { a with waits := a.waits.eraseIdx k, drained := a.drained ++ [(client, sink)] }
      else a

def step (a : Actor E) : Step → Actor E
  | .attach client newSize sink => a.attach size client newSize sink
  | .detach client sink => a.detach size client sink
  | .reserve client => a.reserve size client
  | .drive client take => (a.word client).drive size client take
  | .resize client newSize => (a.word client).resizeRequest size client newSize
  | .reached client marker paced => (a.word client).reachedRequest size client marker paced
  | .typed client => a.typed size client
  | .rollCallOver => a.rollCallOver size
  | .output bytes => { a with engine := E.write a.engine bytes }
  | .flush => a.flushFrame size
  | .frameRoom paced => a.frameRoom size paced
  | .news n => a.news size n
  | .answer client text => a.sendTo size client (.other text)
  | .exited status => a.childExited size status
  | .drained paced =>
      match a.drained with
      | [] => a
      | (client, sink) :: rest => { a with drained := rest }.sinkHasRoom size client sink paced
  | .take sink =>
      match (a.sinks sink).buffer with
      | [] => a
      | out :: rest =>
          a.setSink sink
            { a.sinks sink with buffer := rest, held := (a.sinks sink).held ++ [out] }
  | .done sink k =>
      a.setSink sink { a.sinks sink with held := (a.sinks sink).held.eraseIdx k }
  | .close sink => a.setSink sink { a.sinks sink with closed := true, buffer := [] }
  | .wake k => a.wake k

def start (engine : E.State) (capacity : SinkId → Nat) (queuedMaxBytes : Nat) : Actor E where
  engine := engine
  viewers := []
  owed := false
  driver := none
  orphan := none
  roll := none
  nextMarker := 0
  queuedMaxBytes := queuedMaxBytes
  title := none
  cwd := none
  repo := none
  branch := none
  programColors := none
  progress := none
  program := []
  pointer := none
  restored := none
  dropTarget := false
  exited := none
  sinks := fun id => { capacity := capacity id, closed := false, buffer := [], held := [] }
  waits := []
  drained := []
  nextSerial := 0
  numbered := []

def run (a : Actor E) (steps : List Step) : Actor E := steps.foldl (step size) a

end Actor

end Slopty.Session
