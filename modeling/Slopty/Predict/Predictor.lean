import Slopty.Lib.Search
import Slopty.Predict.Edit

/-!
Speculative local echo. A key is guessed as it is sent, drawn at once where the link is slow, and
checked against the frames that acknowledge it.
-/

namespace Slopty.Predict

open Slopty.Lib
open Slopty.Grid

inductive Policy where
  | never
  | adaptive
  | always
  deriving DecidableEq, Repr

def defaultRefresh : Duration := 16666667

def verySlowLink : Duration := Duration.millis 120

/-- A prediction unconfirmed for this long is treated as a miss. -/
def stale : Duration := Duration.millis 1500

/-- After a miss, stay quiet for this long. -/
def mute : Duration := Duration.millis 2000

def warmupHits : Nat := 2

/-- Most keys kept in flight. -/
def maxPending : Nat := 64

def markLink : Duration := Duration.millis 80

def unmarkLink : Duration := Duration.millis 50

def glitch : Duration := Duration.millis 250

def glitchRepair : Nat := 10

inductive KeyAction where
  | press
  | repeated
  | release
  deriving DecidableEq, Repr

inductive KeyCode where
  | backspace
  | arrowLeft
  | arrowRight
  | other (said : String)
  deriving DecidableEq, Repr

structure Mods where
  shift : Bool := false
  alt : Bool := false
  ctrl : Bool := false
  superKey : Bool := false
  deriving DecidableEq, Repr

structure KeyEvent where
  seq : Nat
  action : KeyAction := .press
  code : KeyCode := .other ""
  mods : Mods := {}
  optionAsAlt : Bool := false
  text : Option Text := none
  deriving DecidableEq, Repr

/-- The character a key would echo, if it is a plain printable one. -/
def printable (key : KeyEvent) : Option Char :=
  if key.mods.ctrl || key.mods.superKey || key.optionAsAlt then none
  else
    match key.text with
    | some [c] => if isControl c || decide (c = '\t') || decide (128 ≤ c.toNat) then none else some c
    | _ => none

/-- What a key does, if it is one the predictor can follow. -/
def stroke (key : KeyEvent) : Option Stroke :=
  let chord := key.mods.shift || key.mods.alt || key.mods.ctrl || key.mods.superKey
  match key.code with
  | .backspace => if chord then none else some .erase
  | .arrowLeft => if chord then none else some .left
  | .arrowRight => if chord then none else some .right
  | .other _ => (printable key).map .type

structure Prediction where
  seq : Nat
  row : Nat
  col : Nat
  text : Text
  at' : Instant
  deriving DecidableEq, Repr

/-- What a frame was found to say of the guesses. -/
structure Reconciled where
  hits : Nat := 0
  misses : Nat := 0
  pending : Nat := 0
  deriving DecidableEq, Repr

/-- A row as the last frame showed it. -/
structure Base where
  row : Nat
  line : Line
  wrappedBelow : Bool
  deriving DecidableEq, Repr

structure RightPrompt where
  row : Nat
  start : Nat
  text : List Text
  deriving DecidableEq, Repr

/-- Where it starts on a row, when the row shows it there again, after a blank. -/
def RightPrompt.on (p : RightPrompt) (row : Nat) (cells : List Cell) : Option Nat :=
  if p.start = 0 ∨ cells.length < p.start + p.text.length then none
  else
    let shown := (cells.drop p.start).take p.text.length
    if row = p.row ∧ (cells[p.start - 1]?).any blank ∧ shown.map Cell.text = p.text then some p.start
    else none

structure Predictor where
  policy : Policy := .adaptive
  /-- Keys in flight with a guess, oldest first. -/
  guesses : List Guess := []
  /-- The row they edit. -/
  row : Nat := 0
  /-- What each cell the guesses touch showed before the first of them. -/
  origin : List (Nat × Option Text) := []
  /-- The cursor's column before the first of them. -/
  originCursor : Nat := 0
  /-- The cells the guesses draw, left to right. -/
  drawn : List Prediction := []
  /-- The row the next guess edits, as the last frame left it. -/
  base : Option Base := none
  right : Option RightPrompt := none
  /-- The row and leftmost column typed at in this epoch. -/
  floor : Option (Nat × Nat) := none
  rtt : Option Duration := none
  slowMarks : Bool := false
  /-- Prompt echoes still owed before guesses stop being marked. -/
  unsure : Nat := 0
  refresh : Duration := defaultRefresh
  hits : Nat := 0
  mutedUntil : Option Instant := none
  numbering : Option Nat := none
  /-- The highest key the worker has acknowledged. -/
  acked : Nat := 0
  /-- The highest key the predictor has been shown. -/
  sent : Nat := 0
  /-- A key nothing is guessed after until the worker acknowledges it. -/
  barrier : Option Nat := none
  interrupted : Bool := false
  /-- Guesses are made and checked but not drawn until one is confirmed. -/
  tentative : Bool := true
  deriving DecidableEq

namespace Predictor

def new (policy : Policy) : Predictor := { policy := policy }

def setPolicy (p : Predictor) (policy : Policy) : Predictor := { p with policy := policy }

def setRtt (p : Predictor) (rtt : Option Duration) : Predictor :=
  { p with
    rtt := rtt
    slowMarks := match rtt with
      | some rtt => if markLink ≤ rtt then true else if rtt < unmarkLink then false else p.slowMarks
      | none => false }

def setRefresh (p : Predictor) (period : Duration) : Predictor := { p with refresh := period }

def slowLink (p : Predictor) : Duration := p.refresh / 2

/-- Whether the overlay is drawn right now. -/
def visible (p : Predictor) (now : Instant) : Bool :=
  if p.tentative then false
  else
    match p.guesses.head? with
    | none => false
    | some oldest =>
        if stale < now.since oldest.at' then false
        else
          match p.policy with
          | .never => false
          | .always => true
          | .adaptive =>
              if p.mutedUntil.any fun until' => decide (now < until') then false
              else
                match p.rtt with
                | none => false
                | some rtt =>
                    decide (verySlowLink ≤ rtt) ||
                      (decide (p.slowLink ≤ rtt) && decide (warmupHits ≤ p.hits))

/-- Whether the guesses drawn now are marked apart from the worker's text. -/
def marked (p : Predictor) (now : Instant) : Bool :=
  p.slowMarks || decide (0 < p.unsure) ||
    p.guesses.head?.any fun g => decide (glitch < now.since g.at')

/-- The cursor as it is drawn: where the keys in flight leave it on its row. -/
def cursor (p : Predictor) (real : Cursor) : Cursor :=
  match p.guesses.getLast? with
  | some guess => if p.row = real.row then { real with col := guess.cursor } else real
  | none => real

/-- Drop every guess: none is made until the worker has every key sent so far. -/
def flush (p : Predictor) : Predictor :=
  { p with
    guesses := []
    origin := []
    drawn := []
    floor := none
    barrier := if p.acked < p.sent then some (p.barrier.elim p.sent fun b => max b p.sent)
      else p.barrier }

/-- Nothing is guessed until the worker acknowledges a key, and a new, tentative epoch begins. -/
def holdUntil (p : Predictor) (seq : Nat) : Predictor :=
  { p.flush with barrier := some seq, tentative := true }

/-- Input went out that the predictor does not see. -/
def interrupt (p : Predictor) : Predictor := { p.flush with interrupted := true }

/-- A guess was wrong: the epoch ends. -/
def miss (p : Predictor) (now : Instant) : Predictor :=
  let p := if p.tentative then p
    else { p with hits := 0, unsure := glitchRepair, mutedUntil := some (now + mute) }
  p.holdUntil p.sent

/-- All the changes the guesses in flight make, in order. -/
def changes (p : Predictor) : List Change := p.guesses.flatMap Guess.changes

/-- Remember the right prompt of the row the frame left the guesses on, until the row no longer
shows it there. -/
def learnRightPrompt (p : Predictor) (cursor : Cursor) (cols : Nat) : Predictor :=
  match p.base with
  | none => p
  | some base =>
      let cells := base.line.cells
      if p.right.any fun seen => (seen.on base.row cells).isSome then p
      else
        let from' := base.line.mark.inputCol.or
          (if cursor.row = base.row then some cursor.col else none)
        let found := (from'.bind fun from' => rightPrompt cells from' cols).filter fun start =>
          decide (cursor.row ≠ base.row ∨ cursor.col < start)
        match found with
        | some start =>
            let rest := cells.drop start
            let len := (rposition (fun cell => !blank cell) rest).elim 0 (· + 1)
            { p with right := some ⟨base.row, start, (rest.take len).map Cell.text⟩ }
        | none =>
            if p.right.any fun seen => decide (seen.row ≠ base.row) then { p with right := none }
            else p

/-- A cell put at a column of a row, if the row has it. -/
def putChange (cells : List Cell) (c : Change) : List Cell := cells.set c.col c.cell

/-- The line the next key edits: the last frame's row with the guesses in flight applied. -/
def line (p : Predictor) (real : Cursor) (cols : Nat) : Edited :=
  let (row, cursor) := p.guesses.getLast?.elim (real.row, real.col) fun g => (p.row, g.cursor)
  let base := p.base.filter fun base => decide (base.row = row)
  let shownCells := base.elim [] fun base => base.line.cells
  let cells := p.changes.foldl putChange
    (shownCells.take cols ++ List.replicate (cols - shownCells.length) Cell.blank)
  let input := base.bind fun base => base.line.mark.inputCol
  let from' := input.getD real.col
  -- The right prompt the frame shows; the cursor is always in the input, never in it.
  let shown := (base.bind fun base =>
    ((p.right.bind fun seen => seen.on row base.line.cells).or
      (rightPrompt base.line.cells from' cols)).map fun start =>
        (start, lastText base.line.cells start)).filter fun s => decide (cursor < s.1)
  let touched := shown.any fun s =>
    decide (s.1 ≠ 0) && (cells[s.1 - 1]?).any fun cell => !blank cell
  let limit := if touched then cols else shown.elim cols Prod.fst
  -- The guesses pushed the text up to it: the shell hides what of it they left.
  let hidden := if touched then
      shown.elim [] fun s => (columns s.1 s.2).filter fun col =>
        !p.changes.any fun c => decide (c.col = col)
    else []
  let cells := hidden.foldl (fun cells col => cells.set col Cell.blank) cells
  { row := row
    cursor := cursor
    cols := cols
    limit := limit
    rightEnd := lastText cells limit
    hidden := hidden
    cells := cells
    base := base.map Base.line
    input := input
    wrappedBelow := base.any Base.wrappedBelow }

def drawCell (drawn : List Prediction) (cell : Prediction) : List Prediction :=
  if drawn.any fun p => decide (p.col = cell.col) then
    drawn.map fun p => if p.col = cell.col then cell else p
  else drawn ++ [cell]

/-- The cells drawn from the guesses in flight. -/
def redraw (p : Predictor) : Predictor :=
  let cells := p.guesses.flatMap fun guess => guess.changes.map fun change =>
    { seq := guess.seq, row := p.row, col := change.col, text := drawnText change.cell
      at' := guess.at' : Prediction }
  { p with drawn := (cells.foldl drawCell []).insertionSort fun a b => a.col ≤ b.col }

/-- What each changed cell showed, when nothing says it yet. -/
def noteOrigin (shown : Nat → Option Text) (origin : List (Nat × Option Text)) (c : Change) :
    List (Nat × Option Text) :=
  if origin.any fun o => decide (o.1 = c.col) then origin else origin ++ [(c.col, shown c.col)]

def take (p : Predictor) (line : Edited) (stroke : Stroke) (guess : Guess) : Predictor :=
  let p := if p.guesses = [] then
      { p with row := line.row, originCursor := line.cursor, origin := [] }
    else p
  let typed := match stroke with
    | .type _ => true
    | _ => false
  { p with
    origin := guess.changes.foldl (noteOrigin line.shown) p.origin
    floor := if typed then
        some (match p.floor with
          | some (row, floor) =>
              if row = line.row then (row, min floor line.cursor) else (line.row, line.cursor)
          | none => (line.row, line.cursor))
      else p.floor
    guesses := p.guesses ++ [guess] }.redraw

/-- The cell guessed for a key: the typed glyph, or what ⌫ leaves where the character was. -/
def made (line : Edited) (stroke : Stroke) (guess : Guess) (now : Instant) : Option Prediction :=
  let col := match stroke with
    | .type _ => some line.cursor
    | .erase => some guess.cursor
    | _ => none
  (col.bind fun col => guess.changes.reverse.find? fun c => decide (c.col = col)).map fun change =>
    { seq := guess.seq, row := line.row, col := change.col, text := drawnText change.cell, at' := now }

def onKey (p : Predictor) (key : KeyEvent) (cursor : Cursor) (cols : Nat) (modes : TermModes)
    (now : Instant) : Predictor × Option Prediction :=
  if p.policy = .never ∨ key.action = .release then (p, none)
  else
    let interrupted := p.interrupted
    let p := { p with sent := max p.sent key.seq, interrupted := false }
    if interrupted then (p.holdUntil key.seq, none)
    else
      match stroke key with
      | none => (p.holdUntil key.seq, none)
      | some stroke =>
          if p.barrier.any fun barrier => decide (p.acked < barrier) then
            -- Unguessed, it moves the line too: the next guess waits for it as well.
            ({ p with barrier := some key.seq }, none)
          else
            let lost := p.guesses ≠ [] ∧ cursor.row ≠ p.row
            if modes.predictionAllowed = false ∨ cursor.visible = false ∨ lost then (p.flush, none)
            else if maxPending ≤ p.guesses.length then (p.flush, none)
            else
              let line := p.line cursor cols
              match line.apply stroke key.seq now modes p.floor with
              | none =>
                  match stroke with
                  | .type _ => (p.flush, none)
                  | _ => (p.holdUntil key.seq, none)
              | some guess => (p.take line stroke guess, made line stroke guess now)

/-- How many of the guesses in flight are acknowledged. -/
def due (p : Predictor) (inputAck : Nat) : Nat :=
  (p.guesses.takeWhile fun g => decide (g.seq ≤ inputAck)).length

/-- The columns where the first guesses say what the echo shows. -/
def evidence (p : Predictor) (due : Nat) : List Nat :=
  dedupRuns (((p.guesses.take due).flatMap fun g =>
    (g.changes.filter fun c => decide (c.check ≠ .nothing)).map Change.col).insertionSort (· ≤ ·))

/-- The cursor's column after so many of the guesses. -/
def cursorAfter (p : Predictor) : Nat → Nat
  | 0 => p.originCursor
  | n + 1 => (p.guesses[n]?).elim p.originCursor Guess.cursor

/-- What a cell shows passes the check of a change to it. -/
def passes (c : Change) (shown : Option Cell) : Bool :=
  match c.check with
  | .nothing => true
  | .text => shown.any fun s => same s.text c.cell.text
  | .typed => shown.any fun s => same s.text c.cell.text && !ghost s

def lastChange (p : Predictor) (after col : Nat) : Option Change :=
  ((p.guesses.take after).flatMap Guess.changes).reverse.find? fun c => decide (c.col = col)

/-- The frame reads as it would after so many of the guesses, as far as the first `due` of them say
anything. -/
def readsAs (p : Predictor) (screen : Screen) (due after : Nat) : Bool :=
  let line := screen.line p.row
  let shows := fun col : Nat => line.bind fun l => l.cells[col]?
  let at' := if screen.cursor.row = p.row then some screen.cursor.col else none
  let moves := (p.guesses.take due).any Guess.moves
  (!moves || decide (at' = some (p.cursorAfter after))) &&
    (p.evidence due).all fun col =>
      match p.lastChange after col with
      | some change => passes change (shows col)
      | none =>
          match (p.origin.find? fun o => decide (o.1 = col)).bind Prod.snd, shows col with
          | some text, some s => same s.text text
          | _, _ => false

/-- The latest of the first guesses after which the frame reads as guessed. -/
def latest (p : Predictor) (screen : Screen) (due : Nat) : Nat → Option Nat
  | 0 => if p.readsAs screen due 0 then some 0 else none
  | n + 1 => if p.readsAs screen due (n + 1) then some (n + 1) else p.latest screen due n

def confirm (now : Instant) (s : Predictor × Nat) (guess : Guess) : Predictor × Nat :=
  if guess.evidence then
    ({ s.1 with
        unsure := if glitch < now.since guess.at' then glitchRepair else s.1.unsure - 1
        tentative := false
        hits := satAdd 32 s.1.hits 1 },
      satAdd 32 s.2 1)
  else s

/-- The first guesses confirmed: the frame is where the keys still in flight start from. -/
def settle (p : Predictor) (screen : Screen) (now : Instant) (confirmed : Nat) : Predictor × Nat :=
  let settled := p.cursorAfter confirmed
  let shows := fun col : Nat => (screen.line p.row).bind fun l => l.cells[col]?
  let (q, hits) := (p.guesses.take confirmed).foldl (confirm now) (p, 0)
  let q := { q with guesses := p.guesses.drop confirmed }
  if confirmed = 0 then (q, hits)
  else
    ({ q with
        origin := q.changes.foldl (noteOrigin fun col => (shows col).map Cell.text) []
        originCursor := settled },
      hits)

/-- Check the acknowledged guesses against the frame; nothing when it contradicts them. -/
def reconcile (p : Predictor) (screen : Screen) (inputAck : Nat) (now : Instant) :
    Option (Predictor × Nat) :=
  let due := p.due inputAck
  if due = 0 then some (p, 0)
  else (p.latest screen due due).map (p.settle screen now)

/-- What a frame leaves to be looked at: the row the guesses edit, its right prompt, and what the
worker has. -/
def see (p : Predictor) (screen : Screen) (inputAck : Nat) : Predictor :=
  let cursor := screen.cursor
  let row := if p.guesses = [] then cursor.row else p.row
  let p := { p with
    acked := max p.acked inputAck
    base := (screen.line row).map fun line =>
      { row := row, line := line, wrappedBelow := (screen.line (row + 1)).any Line.wrapped } }
  let p := p.learnRightPrompt cursor screen.cols
  if p.guesses = [] ∧ p.floor.any fun f => decide (f.1 ≠ cursor.row) then { p with floor := none }
  else p

/-- Guesses that waited too long are a miss. -/
def expire (p : Predictor) (now : Instant) : Predictor × Nat :=
  if p.guesses.head?.any fun g => decide (stale < now.since g.at') then (p.miss now, 1) else (p, 0)

def onFrame (p : Predictor) (screen : Screen) (inputAck epoch : Nat) (now : Instant) :
    Predictor × Reconciled :=
  let p := p.see screen inputAck
  let previous := p.numbering
  let p := { p with numbering := some epoch }
  -- Numbering changed: guesses are meaningless.
  if previous.any fun e => decide (e ≠ epoch) then (p.holdUntil p.sent, {})
  else
    let (p, hits, misses) := match p.reconcile screen inputAck now with
      | some (p, hits) => (p, hits, 0)
      | none => (p.miss now, 0, 1)
    let (p, expired) := p.expire now
    (p.redraw, { hits := hits, misses := misses + expired, pending := p.guesses.length })

end Predictor

end Slopty.Predict
