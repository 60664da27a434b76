import Slopty.Session.Watch

/-!
The driver's seat. Beside the actor stand the colours each viewer said it paints with, the
terminal's default colours, and what each viewer was last told of the seat; every way the seat
moves brings size, colours and notice along, or should.
-/

namespace Slopty.Session

open Slopty.Lib

abbrev Rgb := Nat × Nat × Nat

/-- The colours a client paints with. -/
structure TermColors where
  fg : Rgb
  bg : Rgb
  cursor : Rgb
  ansi : List Rgb
  deriving DecidableEq, Repr

structure Seated (E : Engine) where
  actor : Actor E
  /-- What each viewer said, by its serial. -/
  colors : Nat → Option TermColors := fun _ => none
  /-- The terminal's defaults: what colour queries answer. -/
  defaults : TermColors
  /-- The last notice of the seat sent to each viewer, by its serial. -/
  told : Nat → Option Bool := fun _ => none

/-- What moves the seat and its terminal: everything that happens to a session, a request to
paint with other colours, and one to resize a terminal nobody views. -/
inductive SeatStep where
  | actor (st : Step)
  | colors (client : ClientId) (colors : TermColors)
  | resizeUnviewed (newSize : TermSize)
  deriving DecidableEq, Repr

namespace Seated

variable {E : Engine} (size : TermEvent → Nat)

def find (s : Seated E) (client : ClientId) : Option Viewer :=
  s.actor.viewers.find? fun v => v.client == client

/-- `send_to` with a `Driver` notice. -/
def tell (s : Seated E) (client : ClientId) (you : Bool) : Seated E :=
  { s with
    actor := s.actor.sendTo size client (.driver you)
    told := match s.find client with
      | some v => Function.update s.told v.serial (some you)
      | none => s.told }

def applySize (s : Seated E) (newSize : TermSize) : Seated E :=
  { s with actor := s.actor.applySize size newSize }

/-- The colours a client paints with become the defaults, when it has said them. -/
def applyColorsOf (s : Seated E) (client : ClientId) : Seated E :=
  match (s.find client).bind fun v => s.colors v.serial with
  | some colors => { s with defaults := colors }
  | none => s

/-- A joiner takes its place; a re-attach keeps the colours the client already said. -/
def join (s : Seated E) (client : ClientId) (newSize : TermSize) (sink : SinkId) : Seated E :=
  let a := s.actor
  { s with
    actor :=
      { a with
        viewers := (a.viewers.filter fun v : Viewer => v.client != client) ++
          [Viewer.new client sink newSize a.nextSerial]
        nextSerial := a.nextSerial + 1
        orphan := a.orphan.filter fun o => o.1 != client
        roll := a.roll.filter fun r => r.driver != client }
    colors := Function.update s.colors a.nextSerial ((s.find client).bind fun v => s.colors v.serial)
    told := Function.update s.told a.nextSerial none }

def attach (s : Seated E) (client : ClientId) (newSize : TermSize) (sink : SinkId) : Seated E :=
  let s := { s with actor := s.actor.flushFrame size }.join client newSize sink
  let s :=
    if s.actor.driver = none ∨ s.actor.driver = some client then
      let s := { s with actor := { s.actor with driver := some client } }
      ((s.tell size client true).applySize size newSize).applyColorsOf client
    else s
  { s with actor := s.actor.introduce size client }

def onViewerGone (s : Seated E) (client : ClientId) : Seated E :=
  if s.actor.driver = some client ∧ (s.actor.viewers.any fun v => v.client == client) = false then
    let s := { s with actor := { s.actor with orphan := none, driver := none } }
    match s.actor.viewers.head? with
    | none => s
    | some next =>
        let s := { s with actor := { s.actor with driver := some next.client } }
        (s.tell size next.client true).applySize size next.size
  else s

/-- The viewers a detach leaves, and whether it takes any or an orphaned seat. -/
def detached (s : Seated E) (client : ClientId) (sink : Option SinkId) : List Viewer × Bool :=
  let through := fun s => sink.all fun t => t == s
  let kept := s.actor.viewers.filter fun v => v.client != client || !through v.sink
  let orphaned := s.actor.orphan.any fun o => o.1 == client && through o.2
  (kept, decide (kept.length ≠ s.actor.viewers.length) || orphaned)

def detach (s : Seated E) (client : ClientId) (sink : Option SinkId) : Seated E :=
  let left := s.detached client sink
  let s := { s with actor := { s.actor with viewers := left.1 } }
  if left.2 then s.onViewerGone size client else s

def reserve (s : Seated E) (client : ClientId) : Seated E :=
  let old := s.actor.driver
  let s := { s with actor := { s.actor with orphan := none, driver := some client } }
  match old with
  | some old => if old ≠ client then s.tell size old false else s
  | none => s

/-- `TermRequest::Drive`. -/
def drive (s : Seated E) (client : ClientId) (take : Bool) : Seated E :=
  if take then
    let s := (s.reserve size client).tell size client true
    let s := match s.actor.sizeOf client with
      | some newSize => s.applySize size newSize
      | none => s
    s.applyColorsOf client
  else if s.actor.driver = some client then
    { s with actor := { s.actor with driver := none } }.tell size client false
  else s

def rollCallOver (s : Seated E) : Seated E :=
  match s.actor.roll with
  | none => s
  | some roll =>
      let s := { s with actor := { s.actor with roll := none } }
      if s.actor.driver ≠ some roll.driver then s
      else
        match s.actor.sizeOf roll.asker with
        | none => s
        | some newSize =>
            let s := { s with actor := { s.actor with orphan := none, driver := some roll.asker } }
            let s := (s.tell size roll.driver false).tell size roll.asker true
            (s.applySize size newSize).applyColorsOf roll.asker

/-- `TermRequest::Colors`. -/
def colorsRequest (s : Seated E) (client : ClientId) (colors : TermColors) : Seated E :=
  let s := match s.find client with
    | some v => { s with colors := Function.update s.colors v.serial (some colors) }
    | none => s
  if s.actor.driver = some client then s.applyColorsOf client else s

/-- The viewer at `i` is told everything again, how it stands with the seat first. -/
def tellLost (s : Seated E) (i : Nat) (client : ClientId) : Seated E :=
  let a := s.actor.flushFrame size
  let a :=
    match a.viewers[i]? with
    | some v => a.setViewer i { v with lost := false }
    | none => a
  let s := { s with actor := a }.tell size client (decide (a.driver = some client))
  { s with actor := s.actor.introduce size client }

def sinkHasRoom (s : Seated E) (client : ClientId) (sink : SinkId) (paced : Bool) : Seated E :=
  match s.actor.viewers.findIdx? fun v => v.client == client && v.sink == sink with
  | none => s
  | some i =>
      match s.actor.viewers[i]? with
      | none => s
      | some v =>
          let v := { v with waiting := false }
          let a := s.actor.setViewer i v
          if v.lost then { s with actor := a }.tellLost size i client
          else { s with actor := a.drainViewer size i v paced }

def step (s : Seated E) : SeatStep → Seated E
  | .actor (.attach client newSize sink) => s.attach size client newSize sink
  | .actor (.detach client sink) => s.detach size client sink
  | .actor (.reserve client) => s.reserve size client
  | .actor (.drive client take) =>
      { s with actor := s.actor.word client }.drive size client take
  | .actor .rollCallOver => s.rollCallOver size
  | .actor (.drained paced) =>
      match s.actor.drained with
      | [] => s
      | (client, sink) :: rest =>
          { s with actor := { s.actor with drained := rest } }.sinkHasRoom size client sink paced
  | .actor st => { s with actor := s.actor.step size st }
  | .colors client colors => { s with actor := s.actor.word client }.colorsRequest client colors
  | .resizeUnviewed newSize =>
      if s.actor.viewers.isEmpty then s.applySize size newSize else s

end Seated

end Slopty.Session
