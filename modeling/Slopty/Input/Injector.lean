import Slopty.Input.Caps
import Slopty.Lib.Text
import Mathlib.Logic.Function.Basic

/-!
One stream's input, posted on the worker: what is posted for each event of the client, and where,
and what is let go of when the stream ends.

The system the events go to, the layout of the keyboard and the numbers a point is made of are
given as functions, as is the time each step is taken at, in nanoseconds.
-/

namespace Slopty.Input

open Slopty.Lib

/-- How long bounds stay valid before a pointer event reads them itself. -/
def boundsTtl : Nat := 250 * 1000000

/-- How long an owner found active is taken to stay active. -/
def activeTtl : Nat := 250 * 1000000

/-- A gesture whose stamps step by more than this, in microseconds, or back, starts again. -/
def timelineGap : Int := 1000000

inductive Target where
  | window (id : Nat)
  | display (id : Nat)
  deriving DecidableEq

def Target.window? : Target → Option Nat
  | window id => some id
  | display _ => none

inductive InputError where
  | noBounds
  | create
  | noApplication
  | stopped
  | unsupported
  deriving DecidableEq

inductive MouseButton where
  | left
  | right
  | middle
  | back
  | forward
  deriving DecidableEq

/-- Every button, in the order they are let go of. -/
def buttons : List MouseButton := [.left, .right, .middle, .back, .forward]

inductive CgButton where
  | left
  | right
  | center
  deriving DecidableEq

def MouseButton.cg : MouseButton → CgButton
  | left => .left
  | right => .right
  | _ => .center

inductive MouseKind where
  | moved
  | down (button : CgButton)
  | up (button : CgButton)
  | dragged (button : CgButton)
  deriving DecidableEq

inductive ScrollPhase where
  | none
  | began
  | changed
  | ended
  | cancelled
  | mayBegin
  deriving DecidableEq

/-- Whether a gesture in this phase is still under way after it. -/
def underWay : ScrollPhase → Bool
  | .ended | .cancelled | .none => false
  | _ => true

inductive KeyCode where
  | shiftLeft
  | shiftRight
  | controlLeft
  | controlRight
  | altLeft
  | altRight
  | metaLeft
  | metaRight
  | capsLock
  | fn
  | escape
  | other (place : Nat)
  deriving DecidableEq

def isModifier : KeyCode → Bool
  | .escape | .other _ => false
  | _ => true

inductive KeyAction where
  | press
  | repeated
  | release
  deriving DecidableEq

structure Mods where
  shift : Bool := false
  alt : Bool := false
  ctrl : Bool := false
  superKey : Bool := false
  capsLock : Bool := false
  shiftRight : Bool := false
  altRight : Bool := false
  ctrlRight : Bool := false
  superRight : Bool := false
  fn : Bool := false

/-- Flags of an event, as the system numbers them. -/
abbrev Flags := BitVec 64

def alphaShift : Flags := 0x10000

/-- Each modifier with the bit of its side, the lock and fn. -/
def flagsFor (mods : Mods) : Flags :=
  let side (held right : Bool) (flag left' right' : Flags) : Flags :=
    if held then flag ||| (if right then right' else left') else 0
  side mods.shift mods.shiftRight 0x20000 0x2 0x4
    ||| side mods.ctrl mods.ctrlRight 0x40000 0x1 0x2000
    ||| side mods.alt mods.altRight 0x80000 0x20 0x40
    ||| side mods.superKey mods.superRight 0x100000 0x8 0x10
    ||| (if mods.capsLock then alphaShift else 0) ||| (if mods.fn then 0x800000 else 0)

/-- The flags a held modifier sets. -/
def modifierFlag (code : KeyCode) : Flags :=
  flagsFor <| match code with
    | .shiftLeft => { shift := true }
    | .shiftRight => { shift := true, shiftRight := true }
    | .controlLeft => { ctrl := true }
    | .controlRight => { ctrl := true, ctrlRight := true }
    | .altLeft => { alt := true }
    | .altRight => { alt := true, altRight := true }
    | .metaLeft => { superKey := true }
    | .metaRight => { superKey := true, superRight := true }
    | .fn => { fn := true }
    | _ => {}

inductive SwipeDirection where
  | left
  | right
  | up
  | down
  deriving DecidableEq

inductive MediaKey where
  | playPause
  | next
  | previous
  deriving DecidableEq

/-- What is computed with the numbers of points and distances. -/
structure Floats (F : Type) where
  zero : F
  add : F → F → F
  div : F → F → F
  clamp : F → F → F → F
  positive : F → Bool
  finite : F → Bool
  one : F
  /-- How far the first drag of a press goes, in points. -/
  dragStart : F
  /-- How far a nudge moves a drag. -/
  nudgeStep : F

variable (W F : Type)

structure Point where
  x : F
  y : F

structure Rect where
  x : F
  y : F
  w : F
  h : F

/-- Where an event goes: to the owner, to the owner and its window, or through the tap of the
whole system. -/
inductive Route where
  | pid (pid : Int)
  | window (pid : Int) (window : Nat) (origin : Point F)
  | hid

inductive Gesture where
  | magnify (delta : F)
  | rotate (degrees : F)
  | smartMagnify
  | swipe (direction : SwipeDirection)
  | scroll (dx dy : F)

inductive Event where
  /-- Its button's place in `buttons` is the number it carries. -/
  | mouse (kind : MouseKind) (at' : Point F) (button : MouseButton) (clicks press : Nat)
  | scroll (at' : Point F) (dx dy : F) (precise : Bool) (phase momentum : ScrollPhase) (stamp : Nat)
  | key (vk : Nat) (down modifier repeated : Bool)
  | text (text : Text) (down : Bool)
  | media (key : MediaKey) (down : Bool)
  | gesture (at' : Point F) (gesture : Gesture F) (phase : ScrollPhase) (stamp : Nat)

structure Post where
  route : Route F
  flags : Flags
  event : Event F

/-- The system's answers, each leaving it as it comes to be, in a state `W`. -/
structure Backend where
  ownerPid : W → Target → Option Int
  bounds : W → Target → Option (Rect F) × W
  isActive : W → Int → Bool × W
  activate : W → Int → Option Nat → Except InputError Unit × W
  post : W → Post F → Except InputError Unit × W
  pointer : W → Option (Point F) × W
  eventClock : W → Nat × W
  capsLock : W → Option Bool × W
  setCapsLock : W → Bool → Except InputError Unit × W
  /-- How long a drag rests before a nudge, in microseconds. -/
  rest : W → Nat × W
  uncoveredAt : W → Target → Int → Point F → Bool × W
  /-- Where the layout types the character of a chord. -/
  place : W → Text → Option Nat × W

structure Env where
  floats : Floats F
  backend : Backend W F
  virtualKey : KeyCode → Option Nat
  /-- Text in pieces a key event can carry. -/
  chunks : Text → List Text

inductive ScreenInput where
  | move (x y : F)
  | button (button : MouseButton) (down : Bool) (x y : F) (clicks : Nat) (mods : Mods)
  | scroll (dx dy : F) (precise : Bool) (phase momentum : ScrollPhase) (x y : F) (mods : Mods)
      (timeUs : Nat)
  | key (code : KeyCode) (action : KeyAction) (mods : Mods) (chord : Option Text)
  | magnify (delta : F) (phase : ScrollPhase) (x y : F) (timeUs : Nat)
  | rotate (degrees : F) (phase : ScrollPhase) (x y : F) (timeUs : Nat)
  | smartMagnify (x y : F)
  | swipe (direction : SwipeDirection) (x y : F)
  | gestures (remote : Bool)
  | pasteChord (code : KeyCode) (mods : Mods)
  | text (text : Text)
  | lock (caps : Bool)
  | media (key : MediaKey) (down : Bool)
  | keyboardSource (source : Text)
  | keyboardReleased
  | drag

/-- A step of a drag carried for the client. -/
inductive DragStep where
  | enter (x y : F)
  | press (x y : F)
  | move (x y : F)
  | release
  | cancel
  | locate (x y : F)

/-- Where the pointer is shown: as the worker has it, or where the input put it. -/
inductive Pointer where
  | real
  | placed (at' : Option (Point F))

/-- Where a drag was last put and posted, so a resting one is moved. -/
structure Nudge where
  at' : Point F
  postedUs : Nat
  restUs : Nat
  out : Bool := false

structure Drag where
  home : Option (Point F)
  nudge : Option (Nudge F) := none
  restUs : Nat
  epoch : Nat
  /-- The client's own press began it, and its release ends it. -/
  pressed : Bool

variable {W F}

namespace Nudge

def moved (n : Nudge F) (at' : Point F) (nowUs : Nat) : Nudge F :=
  { at', postedUs := nowUs, restUs := n.restUs }

def dueUs (n : Nudge F) : Nat := n.postedUs + n.restUs

/-- The point to post a drag at that has rested: off where it rests, then back. -/
def nudge (fl : Floats F) (n : Nudge F) (nowUs : Nat) : Option (Point F × Nudge F) :=
  if nowUs < n.dueUs then none
  else
    let n := { n with out := !n.out, postedUs := nowUs }
    some (if n.out then { n.at' with x := fl.add n.at'.x fl.nudgeStep } else n.at', n)

end Nudge

def Drag.us (d : Drag F) (now : Nat) : Nat := (now - d.epoch) / 1000

def saturated (x : Int) : Int := max (-(2 ^ 63)) (min (2 ^ 63 - 1) x)

/-- The difference of two stamps of 32 bits, as one of a sign. -/
def stampStep (client raw : Nat) : Int :=
  let step : Nat := (client + 2 ^ 32 - raw) % 2 ^ 32
  if step < 2 ^ 31 then (step : Int) else (step : Int) - 2 ^ 32

/-- A gesture's events placed on the worker's clock at the client's spacing. -/
structure Timeline where
  /-- The last client stamp, and the microseconds since the gesture's first. -/
  last : Option (Nat × Int) := none
  /-- The least delay of an event of the gesture, in nanoseconds. -/
  lag : Int := 0
  given : Nat := 0

def Timeline.place (t : Timeline) (clientUs nowNs : Nat) (begins : Bool) : Nat × Timeline :=
  let now := min (nowNs : Int) (2 ^ 63 - 1)
  let next := (t.last.filter fun _ => !begins).bind fun (raw, wide) =>
    let step := stampStep clientUs raw
    if 0 ≤ step ∧ step ≤ timelineGap then some (saturated (wide + step)) else none
  let (wide, lag) : Int × Int :=
    match next with
    | some wide => (wide, min t.lag (saturated (now - saturated (wide * 1000))))
    | none => (0, now)
  let at' := (saturated (saturated (wide * 1000) + lag)).toNat
  let given := min (max at' t.given) nowNs
  (given, { last := some (clientUs, wide), lag, given })

/-- The gestures under way on the target. -/
structure Open where
  /-- A scroll in its phases, and whether it comes with its gesture. -/
  scroll : Option Bool := none
  mayBegin : Bool := false
  coast : Bool := false
  magnify : Bool := false
  rotate : Bool := false

/-- Whether the scroll in this phase comes with its gesture; its state moves on with it. -/
def Open.scrolled (o : Open) (phase : ScrollPhase) (gestures : Bool) : Bool × Open :=
  let paired :=
    match phase with
    | .mayBegin => gestures
    | .began => if !o.mayBegin then gestures else o.scroll.getD false
    -- one that never opened goes on unpaired
    | _ => o.scroll.getD false
  let o := { o with mayBegin := decide (phase = ScrollPhase.mayBegin) }
  (paired, { o with
    scroll :=
      if phase = ScrollPhase.ended ∨ phase = ScrollPhase.cancelled then none else some paired })

variable (W F) in
structure Injector where
  backend : W
  target : Target
  scale : F
  route : Route F
  bounds : Option (Rect F) := none
  boundsAt : Option Nat := none
  activeAt : Option Nat := none
  held : MouseButton → Bool := fun _ => false
  /-- Where the pointer was last put. -/
  at' : Option (Point F) := none
  placed : Pointer F := .placed none
  /-- Keys pressed and not released, with what each went down as. -/
  keys : List (KeyCode × Nat) := []
  flags : Flags := 0
  /-- The claim all streams share on the lock. -/
  claims : CapsClaims := {}
  /-- The stream's place in it. -/
  who : Nat := 0
  holding : Bool := false
  /-- What was kept of the lock on disk, and removed. -/
  written : List CapsClaims.Write := []
  gestures : Bool := false
  opened : Open := {}
  /-- The number of each held button's press. -/
  presses : MouseButton → Nat := fun _ => 0
  drag : Option (Drag F) := none
  timeline : Timeline := {}
  /-- The number the last press of any stream took. -/
  lastPress : Nat := 0
  /-- What was posted, and whether the system took it. -/
  posts : List (Post F × Bool) := []

abbrev Done := Except InputError Unit

def isOk : Done → Bool
  | .ok _ => true
  | .error _ => false

def toPoint (fl : Floats F) (bounds : Rect F) (scale x y : F) : Point F :=
  { x := fl.clamp (fl.add bounds.x (fl.div x scale)) bounds.x (fl.add bounds.x bounds.w)
    y := fl.clamp (fl.add bounds.y (fl.div y scale)) bounds.y (fl.add bounds.y bounds.h) }

def Pointer.place (fl : Floats F) (p : Pointer F) (at' : Point F) : Pointer F :=
  if fl.finite at'.x && fl.finite at'.y then .placed (some at') else p

def isHid : Route F → Bool
  | .hid => true
  | _ => false

namespace Injector

variable (e : Env W F) (inj : Injector W F)

/-- What is asked of the system leaves it as it comes to be. -/
def asks {α : Type} (answer : α × W) : α × Injector W F :=
  (answer.1, { inj with backend := answer.2 })

/-- An event is handed over to be posted. -/
def give (p : Post F) : Done × Injector W F :=
  let (done, backend) := e.backend.post inj.backend p
  (done, { inj with backend, posts := inj.posts ++ [(p, isOk done)] })

def isPointer : Event F → Bool
  | .mouse .. | .scroll .. | .gesture .. => true
  | _ => false

/-- The stream's route for an event. -/
def bound (event : Event F) : Route F :=
  if isPointer event && inj.drag.isSome then .hid
  else
    match inj.route, inj.target, inj.bounds with
    | .pid pid, .window window, some rect =>
        if isPointer event then .window pid window { x := rect.x, y := rect.y } else .pid pid
    | route, _, _ => route

def post (route : Option (Route F)) (event : Event F) : Done × Injector W F :=
  inj.give e { route := route.getD (inj.bound event), flags := inj.flags, event }

/-- The number an event carries: a new one for a press, the press's own for its drags and its
release. -/
def press (kind : MouseKind) (button : MouseButton) : Nat × Injector W F :=
  match kind with
  | .down _ =>
      let number := inj.lastPress + 1
      (number, { inj with
        lastPress := number, presses := Function.update inj.presses button number })
  | .up _ => (inj.presses button, { inj with presses := Function.update inj.presses button 0 })
  | .dragged _ => (inj.presses button, inj)
  | .moved => (0, inj)

/-- A right click goes through the tap even for a window stream. -/
def postMouse (kind : MouseKind) (at' : Point F) (button : MouseButton) (clicks : Nat) :
    Done × Injector W F :=
  let route := if button.cg = .right then some .hid else none
  let (number, inj) := inj.press kind button
  inj.post e route (.mouse kind at' button clicks number)

def setHeld (button : MouseButton) (down : Bool) : Injector W F :=
  { inj with held := Function.update inj.held button down }

/-- The held button a move drags with. -/
def heldButton : Option MouseButton := buttons.find? inj.held

def moveType : MouseKind :=
  if inj.held .left then .dragged .left
  else if inj.held .right then .dragged .right
  else if buttons.any inj.held then .dragged .center
  else .moved

/-- A stream pixel as a point, the bounds read when they are stale. -/
def point (now : Nat) (x y : F) : Except InputError (Point F) × Injector W F :=
  let stale := inj.boundsAt.all fun at' => decide (boundsTtl < now - at')
  let inj :=
    if stale then
      let (bounds, inj) := inj.asks (e.backend.bounds inj.backend inj.target)
      { inj with bounds, boundsAt := some now }
    else inj
  match inj.bounds with
  | none => (.error .noBounds, inj)
  | some rect =>
      let at' := toPoint e.floats rect inj.scale x y
      let inj := { inj with at' := some at' }
      match inj.route with
      | .pid _ =>
          if inj.drag.isNone then
            (.ok at', { inj with placed := inj.placed.place e.floats at' })
          else (.ok at', inj)
      | _ => (.ok at', inj)

/-- The owner is made active, unless it was found so a moment ago. -/
def ensureActive (now : Nat) : Injector W F :=
  match inj.route with
  | .pid pid =>
      if inj.activeAt.any fun at' => decide (now - at' < activeTtl) then inj
      else
        let (active, inj) := inj.asks (e.backend.isActive inj.backend pid)
        let inj :=
          if active then inj
          else (inj.asks (e.backend.activate inj.backend pid inj.target.window?)).2
        { inj with activeAt := some now }
  | _ => inj

def focus (now : Nat) : Done × Injector W F :=
  match inj.route with
  | .pid pid =>
      let (done, inj) := inj.asks (e.backend.activate inj.backend pid inj.target.window?)
      match done with
      | .ok () => (.ok (), { inj with activeAt := some now })
      | .error why => (.error why, inj)
  | _ => (.ok (), inj)

/-- Held inside the target's bounds. -/
def within (p : Point F) : Point F :=
  match inj.bounds with
  | none => p
  | some b =>
      { x := e.floats.clamp p.x b.x (e.floats.add b.x b.w)
        y := e.floats.clamp p.y b.y (e.floats.add b.y b.h) }

/-- A button is let go where the pointer last was. -/
def releaseButton (button : MouseButton) : Injector W F :=
  if !inj.held button then inj
  else
    let inj := inj.setHeld button false
    match inj.at' with
    | none => inj
    | some at' => (inj.postMouse e (.up button.cg) at' button 1).2

def releaseButtons : Injector W F := buttons.foldl (fun inj b => inj.releaseButton e b) inj

/-- The stream's pointer goes through the tap from now on. -/
def feedHid (now : Nat) (home : Option (Point F)) (pressed : Bool) : Injector W F :=
  let (restUs, inj) := inj.asks (e.backend.rest inj.backend)
  { inj with placed := .real, drag := some { home, restUs, epoch := now, pressed } }

def enterDrag (now : Nat) : Injector W F :=
  if inj.drag.isSome then inj
  else
    let inj := inj.releaseButtons e
    let raise (pid : Int) : Injector W F :=
      let inj := (inj.asks (e.backend.activate inj.backend pid inj.target.window?)).2
      let inj := { inj with activeAt := some now }
      let (home, inj) := inj.asks (e.backend.pointer inj.backend)
      inj.feedHid e now home false
    match inj.route with
    | .hid => inj.feedHid e now none false
    | .pid pid => raise pid
    | .window pid _ _ => raise pid

/-- A left press on a window that is on top there goes through the tap, until its release. -/
def followPress (now : Nat) (at' : Point F) : Injector W F :=
  match inj.route with
  | .pid pid =>
      if inj.drag.isSome then inj
      else
        let (uncovered, inj) := inj.asks (e.backend.uncoveredAt inj.backend inj.target pid at')
        if !uncovered then inj
        else
          let (home, inj) := inj.asks (e.backend.pointer inj.backend)
          inj.feedHid e now home true
  | _ => inj

/-- The worker's pointer goes back where a drag found it. -/
def pointerBack (home : Option (Point F)) : Injector W F :=
  match home with
  | none => inj
  | some home => (inj.post e (some .hid) (.mouse .moved home .left 0 0)).2

def showPlaced : Injector W F :=
  match inj.at' with
  | none => inj
  | some at' =>
      if isHid inj.route then inj else { inj with placed := inj.placed.place e.floats at' }

/-- The drag is fed no more: what is held is let go where it rests, and the stream has its own
route back. -/
def leaveDrag : Injector W F :=
  if inj.drag.isNone then inj
  else
    let inj := inj.releaseButtons e
    match inj.drag with
    | none => inj
    | some drag => ({ inj with drag := none }.pointerBack e drag.home).showPlaced e

/-- Escape through the tap, with no modifier but the lock. -/
def escape : Done × Injector W F :=
  match e.virtualKey .escape with
  | none => (.error .create, inj)
  | some vk =>
      let key (down : Bool) : Post F :=
        { route := .hid, flags := inj.flags &&& alphaShift, event := .key vk down false false }
      let (done, inj) := inj.give e (key true)
      match done with
      | .error why => (.error why, inj)
      | .ok () => inj.give e (key false)

def cancelDrag : Done × Injector W F :=
  if inj.drag.isNone then (.ok (), inj)
  else
    let (escaped, inj) := inj.escape e
    (escaped, inj.leaveDrag e)

/-- A drag ends with nothing dropped, one the client's own press holds on a display too. -/
def cancelHeld : Done × Injector W F :=
  if inj.drag.isSome || !inj.held .left then inj.cancelDrag e
  else
    let (escaped, inj) := inj.escape e
    (escaped, inj.releaseButtons e)

def moveTo (now : Nat) (x y : F) : Done × Injector W F :=
  match inj.point e now x y with
  | (.error why, inj) => (.error why, inj)
  | (.ok at', inj) =>
      match inj.postMouse e inj.moveType at' (inj.heldButton.getD .left) 0 with
      | (.error why, inj) => (.error why, inj)
      | (.ok (), inj) =>
          (.ok (), { inj with
            drag := inj.drag.map fun d =>
              { d with nudge := d.nudge.map fun n => n.moved at' (d.us now) } })

/-- The left button is pressed and dragged a little, through the tap. -/
def pressAt (now : Nat) (x y : F) : Done × Injector W F :=
  match inj.point e now x y with
  | (.error why, inj) => (.error why, inj)
  | (.ok at', inj) =>
      let inj := ((inj.enterDrag e now).releaseButtons e).setHeld .left true
      match inj.postMouse e (.down .left) at' .left 1 with
      | (.error why, inj) => (.error why, inj.leaveDrag e)
      | (.ok (), inj) =>
          let start := inj.within e { at' with x := e.floats.add at'.x e.floats.dragStart }
          let inj := { inj with at' := some start }
          match inj.postMouse e (.dragged .left) start .left 0 with
          | (.error why, inj) => (.error why, inj.leaveDrag e)
          | (.ok (), inj) =>
              let inj := { inj with
                drag := inj.drag.map fun d =>
                  { d with
                    nudge := some { at' := start, postedUs := d.us now, restUs := d.restUs } } }
              if inj.presses .left = 0 then (.error .create, inj.leaveDrag e) else (.ok (), inj)

/-- A drag resting in one place is moved a little. -/
def nudge (now : Nat) : Done × Injector W F :=
  if !inj.held .left then (.ok (), inj)
  else
    match inj.drag with
    | none => (.ok (), inj)
    | some drag =>
        match drag.nudge.bind fun n => n.nudge e.floats (drag.us now) with
        | none => (.ok (), inj)
        | some (at', n) =>
            let inj := { inj with drag := some { drag with nudge := some n } }
            inj.postMouse e (.dragged .left) (inj.within e at') .left 0

def dragStep (now : Nat) (step : DragStep F) : Injector W F :=
  match step with
  | .enter x y =>
      match (inj.enterDrag e now).point e now x y with
      | (.ok _, inj) => inj
      | (.error _, inj) => inj.leaveDrag e
  | .press x y => (inj.pressAt e now x y).2
  | .move x y => if inj.drag.isSome then (inj.moveTo e now x y).2 else inj
  | .release => inj.leaveDrag e
  | .cancel => (inj.cancelHeld e).2
  | .locate x y => (inj.point e now x y).2

/-- A key goes by its position, a chord's press where the layout types its character, and what
follows a press where the press went. -/
def postKey (code : KeyCode) (action : KeyAction) (chord : Option Text) : Done × Injector W F :=
  match (e.virtualKey code).filter fun _ => decide (code ≠ .capsLock) with
  | none => (.ok (), inj)
  | some at' =>
      let down := decide (action ≠ .release)
      let modifier := isModifier code
      let held := (inj.keys.find? fun k => k.1 == code).map Prod.snd
      let (vk, inj) : Nat × Injector W F :=
        match held with
        | some vk => (vk, inj)
        | none =>
            match chord.filter fun _ => down && !modifier with
            | none => (at', inj)
            | some c =>
                let (placed, inj) := inj.asks (e.backend.place inj.backend c)
                (placed.getD at', inj)
      let (done, inj) := inj.post e none (.key vk down modifier (decide (action = .repeated)))
      if !down then (done, { inj with keys := inj.keys.filter fun k => k.1 != code })
      else if isOk done && held.isNone then (done, { inj with keys := inj.keys ++ [(code, vk)] })
      else (done, inj)

def postPieces (flags : Flags) : List (Event F) → Injector W F → Done × Injector W F
  | [], inj => (.ok (), inj)
  | event :: rest, inj =>
      match inj.give e { route := inj.route, flags, event } with
      | (.error why, inj) => (.error why, inj)
      | (.ok (), inj) => postPieces flags rest inj

/-- Text the client composed, with no modifiers. -/
def postText (text : Text) : Done × Injector W F :=
  let events := (e.chunks text).flatMap fun piece => [.text piece true, .text piece false]
  inj.postPieces e (inj.flags &&& alphaShift) events

/-- The stamp of a gesture's event on the worker's clock. -/
def stamp (clientUs : Nat) (phase : ScrollPhase) : Nat × Injector W F :=
  let (now, inj) := inj.asks (e.backend.eventClock inj.backend)
  let begins := decide (phase = .began ∨ phase = .mayBegin)
  let (stamp, timeline) := inj.timeline.place clientUs now begins
  (stamp, { inj with timeline })

def injectButton (now : Nat) (button : MouseButton) (down : Bool) (x y : F) (clicks : Nat)
    (mods : Mods) : Done × Injector W F :=
  match inj.point e now x y with
  | (.error why, inj) => (.error why, inj)
  | (.ok at', inj) =>
      let inj := if down then inj.ensureActive e now else inj
      let left := decide (button = .left)
      let inj := if left && down then inj.followPress e now at' else inj
      let inj := { inj with flags := flagsFor mods }
      let kind := if down then MouseKind.down button.cg else MouseKind.up button.cg
      let (posted, inj) := (inj.setHeld button down).postMouse e kind at' button (max clicks 1)
      if left && !down && inj.drag.any (·.pressed) then (posted, inj.leaveDrag e)
      else (posted, inj)

/-- A trackpad's scroll comes with a gesture after it, while the tile sends its gestures. -/
def injectScroll (now : Nat) (dx dy : F) (precise : Bool) (phase momentum : ScrollPhase) (x y : F)
    (mods : Mods) (timeUs : Nat) : Done × Injector W F :=
  match inj.point e now x y with
  | (.error why, inj) => (.error why, inj)
  | (.ok at', inj) =>
      let inj := { inj with flags := flagsFor mods }
      let (stamp, inj) := if precise then inj.stamp e timeUs phase else (0, inj)
      match inj.post e none (.scroll at' dx dy precise phase momentum stamp) with
      | (.error why, inj) => (.error why, inj)
      | (.ok (), inj) =>
          let inj :=
            if precise && decide (momentum ≠ .none) then
              { inj with opened := { inj.opened with coast := underWay momentum } }
            else inj
          if precise && decide (phase ≠ .none) then
            let (paired, opened) := inj.opened.scrolled phase inj.gestures
            let inj := { inj with opened }
            if paired then inj.post e none (.gesture at' (.scroll dx dy) phase stamp)
            else (.ok (), inj)
          else (.ok (), inj)

def injectGesture (now : Nat) (x y : F) (timeUs : Nat) (phase : ScrollPhase) (gesture : Gesture F)
    (under : Open → Open) : Done × Injector W F :=
  match inj.point e now x y with
  | (.error why, inj) => (.error why, inj)
  | (.ok at', inj) =>
      let (stamp, inj) := inj.stamp e timeUs phase
      let inj := { inj with opened := under inj.opened }
      inj.post e none (.gesture at' gesture phase stamp)

/-- A gesture that is one event. -/
def injectOnce (now : Nat) (x y : F) (gesture : Gesture F) (phase : ScrollPhase) :
    Done × Injector W F :=
  match inj.point e now x y with
  | (.error why, inj) => (.error why, inj)
  | (.ok at', inj) => inj.post e none (.gesture at' gesture phase 0)

def injectLock (caps : Bool) : Done × Injector W F :=
  let inj :=
    if inj.holding then inj
    else
      let (current, inj) := inj.asks (e.backend.capsLock inj.backend)
      { inj with holding := true, claims := inj.claims.claim inj.who current }
  let inj := { inj with
    flags := if caps then inj.flags ||| alphaShift else inj.flags &&& ~~~alphaShift }
  match inj.asks (e.backend.setCapsLock inj.backend caps) with
  | (.error why, inj) => (.error why, inj)
  | (.ok (), inj) =>
      let (kept, claims) := inj.claims.sets caps
      (.ok (), { inj with claims, written := inj.written ++ kept.toList })

/-- One event of the client. -/
def inject (now : Nat) (input : ScreenInput F) : Done × Injector W F :=
  match input with
  | .move x y => inj.moveTo e now x y
  | .button button down x y clicks mods => inj.injectButton e now button down x y clicks mods
  | .scroll dx dy precise phase momentum x y mods timeUs =>
      inj.injectScroll e now dx dy precise phase momentum x y mods timeUs
  | .magnify delta phase x y timeUs =>
      inj.injectGesture e now x y timeUs phase (.magnify delta) fun o =>
        { o with magnify := underWay phase }
  | .rotate degrees phase x y timeUs =>
      inj.injectGesture e now x y timeUs phase (.rotate degrees) fun o =>
        { o with rotate := underWay phase }
  | .smartMagnify x y => inj.injectOnce e now x y .smartMagnify .none
  | .swipe direction x y => inj.injectOnce e now x y (.swipe direction) .ended
  | .gestures remote => (.ok (), { inj with gestures := remote })
  | .key code action mods chord =>
      let inj := if action ≠ .release then inj.ensureActive e now else inj
      { inj with flags := flagsFor mods }.postKey e code action chord
  | .pasteChord code mods =>
      { inj.ensureActive e now with flags := flagsFor mods }.postKey e code .press none
  | .text text => (inj.ensureActive e now).postText e text
  | .lock caps => inj.injectLock e caps
  | .media key down => inj.post e (some .hid) (.media key down)
  | .keyboardSource _ | .keyboardReleased | .drag => (.ok (), inj)

/-- Each gesture under way is cancelled where the pointer last was. -/
def closeGestures : Injector W F :=
  let opened := inj.opened
  let inj := { inj with opened := {}, timeline := {} }
  match inj.at' with
  | none => inj
  | some at' =>
      let zero := e.floats.zero
      let gesture (g : Gesture F) : Event F := .gesture at' g .cancelled 0
      let events : List (Event F) :=
        (match opened.scroll with
          | none => []
          | some paired => .scroll at' zero zero true .cancelled .none 0 ::
              if paired then [gesture (.scroll zero zero)] else []) ++
        (if opened.coast then [.scroll at' zero zero true .none .ended 0] else []) ++
        (if opened.magnify then [gesture (.magnify zero)] else []) ++
        (if opened.rotate then [gesture (.rotate zero)] else [])
      events.foldl (fun inj event => (inj.post e none event).2) inj

/-- Each modifier's release carries those still down after it. -/
def releaseModifiers : List KeyCode → Injector W F → Injector W F
  | [], inj => inj
  | code :: still, inj =>
      let inj := { inj with
        flags := still.foldl (fun flags c => flags ||| modifierFlag c) (inj.flags &&& alphaShift) }
      releaseModifiers still (inj.postKey e code .release none).2

def releaseKeys : Injector W F :=
  let codes := inj.keys.map Prod.fst
  let inj := (codes.filter fun c => !isModifier c).foldl
    (fun inj code => (inj.postKey e code .release none).2) inj
  inj.releaseModifiers e (codes.filter isModifier)

/-- The lock goes back as the worker had it, once no stream holds it. -/
def releaseLock : Injector W F :=
  if !inj.holding then inj
  else
    let ((back, kept), claims) := inj.claims.release inj.who
    let inj := { inj with holding := false, claims }
    let inj :=
      match back with
      | none => inj
      | some back =>
          let (current, inj) := inj.asks (e.backend.capsLock inj.backend)
          match back.restore current with
          | none => inj
          | some on => (inj.asks (e.backend.setCapsLock inj.backend on)).2
    { inj with written := inj.written ++ kept.toList }

/-- Everything held is let go of: a drag, the buttons, the gestures, the keys, then the
modifiers, and the lock. -/
def releaseAll : Injector W F :=
  ((((inj.cancelDrag e).2.releaseButtons e).closeGestures e).releaseKeys e).releaseLock e

def setBounds (bounds : Option (Rect F)) (at' : Nat) : Injector W F :=
  if inj.boundsAt.all fun had => decide (had < at') then
    { inj with bounds, boundsAt := some at' }
  else inj

def setScale (scale : F) : Injector W F :=
  if e.floats.positive scale then { inj with scale } else inj

end Injector

/-- An injector for a target whose stream has `scale` pixels per point. -/
def withBackend (e : Env W F) (backend : W) (claims : CapsClaims) (target : Target) (scale : F) :
    Injector W F :=
  let (who, claims) := claims.id
  { backend, target, who, claims
    scale := if e.floats.positive scale then scale else e.floats.one
    route := (e.backend.ownerPid backend target).elim .hid .pid
    placed := if (e.backend.ownerPid backend target).isNone then .real else .placed none }

/-- What a run that ended while holding the lock left on disk is put back, unless the lock was
changed since. -/
def keepCaps (e : Env W F) (backend : W) (claims : CapsClaims) (path : Text)
    (file : Option Text) : W × CapsClaims × CapsClaims.Write :=
  let backend :=
    match file.bind CapsKept.parse with
    | none => backend
    | some left =>
        let (current, backend) := e.backend.capsLock backend
        match left.restore current with
        | none => backend
        | some back => (e.backend.setCapsLock backend back).2
  (backend, { claims with keptAt := some path }, (path, none))

/-- A lock left as the ended run last set it goes back to what it was before. -/
theorem keepCaps_toText (e : Env W F) (backend : W) (claims : CapsClaims) (path : Text)
    (k : CapsKept) :
    (keepCaps e backend claims path (some k.toText)).1 =
      if (e.backend.capsLock backend).1 = some k.set ∧ k.set ≠ k.original then
        (e.backend.setCapsLock (e.backend.capsLock backend).2 k.original).2
      else (e.backend.capsLock backend).2 := by
  unfold keepCaps CapsKept.restore
  rw [Option.bind_some, CapsKept.parse_toText]
  dsimp only
  by_cases hleft : (e.backend.capsLock backend).1 = some k.set ∧ k.set ≠ k.original
  · rw [if_pos hleft, if_pos hleft]
  · rw [if_neg hleft, if_neg hleft]

/-- What a stream's injector is asked to do, and when. -/
inductive Op (F : Type) where
  | inject (now : Nat) (input : ScreenInput F)
  | dragStep (now : Nat) (step : DragStep F)
  | nudge (now : Nat)
  | focus (now : Nat)
  | setBounds (bounds : Option (Rect F)) (at' : Nat)
  | setScale (scale : F)
  | releaseAll
  /-- Other streams press buttons, and claim the lock. -/
  | others (presses : Nat) (claims : CapsClaims)

def Injector.act (e : Env W F) (inj : Injector W F) : Op F → Injector W F
  | .inject now input => (inj.inject e now input).2
  | .dragStep now step => inj.dragStep e now step
  | .nudge now => (inj.nudge e now).2
  | .focus now => (inj.focus e now).2
  | .setBounds bounds at' => inj.setBounds bounds at'
  | .setScale scale => inj.setScale e scale
  | .releaseAll => inj.releaseAll e
  | .others presses claims => { inj with lastPress := inj.lastPress + presses, claims }

def Injector.acts (e : Env W F) (inj : Injector W F) (ops : List (Op F)) : Injector W F :=
  ops.foldl (fun inj op => inj.act e op) inj

end Slopty.Input
