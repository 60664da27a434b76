import Slopty.Grid.Screen
import Slopty.Lib.Machine
import Slopty.Lib.Places

/-!
What a key does to a shell's input line, as the predictor models it: the row with the keys in flight
applied, and the cells one more key changes.
-/

namespace Slopty.Predict

open Slopty.Lib
open Slopty.Grid

/-- Blank cells in a row that part the typed text from a right prompt. -/
def textGap : Nat := 2

/-- A right prompt ends within this many columns of the row's end. -/
def rightPromptEdge : Nat := 2

inductive Stroke where
  | type (c : Char)
  | left
  | right
  | erase
  deriving DecidableEq, Repr

/-- What the echo of a changed cell must show to confirm the guess. -/
inductive Check where
  | nothing
  | text
  /-- The text, and not in a suggestion's grey. -/
  | typed
  deriving DecidableEq, Repr

structure Change where
  col : Nat
  cell : Cell
  check : Check
  deriving DecidableEq, Repr

/-- A key in flight and what it is expected to do. -/
structure Guess where
  seq : Nat
  at' : Instant
  /-- The cursor's column once the key is echoed. -/
  cursor : Nat
  /-- The key moves the cursor other than by typing. -/
  moves : Bool
  changes : List Change
  deriving DecidableEq, Repr

/-- The echo can confirm or refute it. -/
def Guess.evidence (g : Guess) : Bool := g.moves || g.changes.any fun c => decide (c.check ≠ .nothing)

/-- A cell that shows nothing. -/
def blank (cell : Cell) : Bool :=
  decide (cell.width = .narrow ∨ cell.width = .spacerHead) && decide (cell.text.trim = [])

/-- A suggestion's cell: text drawn faint or in a grey. -/
def ghost (cell : Cell) : Bool :=
  let grey := match cell.style.fg with
    | .palette index =>
        let n := index.val
        n == 8 || n == 59 || n == 102 || n == 145 || n == 188 || decide (232 ≤ n)
    | .rgb r g b => r == g && g == b && decide (0x30 ≤ r.val ∧ r.val ≤ 0xd0)
    | .default => false
  !blank cell && (grey || cell.style.faint)

/-- Two cells read the same: equal text, a blank equal to a space. -/
def same (a b : Text) : Bool := a == b || (decide (a.trim = []) && decide (b.trim = []))

/-- A cell's text as the overlay draws it: a space for a blank. -/
def drawnText (cell : Cell) : Text := if cell.text = [] then [' '] else cell.text

/-- One past the last cell with text from `from'` on, or `from'`. -/
def lastText (cells : List Cell) (from' : Nat) : Nat :=
  match rposition (fun cell => !blank cell) (cells.drop from') with
  | some last => from' + last + 1
  | none => from'

/-- Walk down from `i`, to where `textGap` blanks are in a row. -/
def scanGap (cells : List Cell) (from' : Nat) : Nat → Nat → Option Nat
  | 0, _ => none
  | i + 1, blanks =>
      if i < from' then none
      else if (cells[i]?).any blank then
        if textGap ≤ blanks + 1 then some (i + (blanks + 1)) else scanGap cells from' i (blanks + 1)
      else scanGap cells from' i 0

/-- Where a right prompt starts: text that reaches the row's last columns after a gap past
`from'`, the input's start. -/
def rightPrompt (cells : List Cell) (from' cols : Nat) : Option Nat :=
  match rposition (fun cell => !blank cell) cells with
  | none => none
  | some last =>
      if last < cols - rightPromptEdge ∨ (cells[last]?).any ghost then none
      else scanGap cells from' last 0

/-- The input row as the next key finds it. -/
structure Edited where
  row : Nat
  cursor : Nat
  cols : Nat
  /-- Where a right prompt starts, or `cols`. -/
  limit : Nat
  /-- One past the right prompt's last cell. -/
  rightEnd : Nat
  /-- A right prompt the guesses pushed the text up to: blank now. -/
  hidden : List Nat
  /-- The row's cells with the guesses in flight applied. -/
  cells : List Cell
  /-- The row as a frame showed it, when one has. -/
  base : Option Line
  /-- Where the typed command starts on this row. -/
  input : Option Nat
  wrappedBelow : Bool

/-- A change that leaves a cell blank and is no evidence. -/
def blanked (col : Nat) : Change := { col := col, cell := Cell.blank, check := .nothing }

def columns (from' stop : Nat) : List Nat := (List.range (stop - from')).map (from' + ·)

namespace Edited

variable (e : Edited)

def cell (col : Nat) : Option Cell := e.cells[col]?

/-- What the last frame showed there, before any guess. -/
def shown (col : Nat) : Option Text :=
  (e.base.bind fun line => line.cells[col]?).map Cell.text

/-- One past the typed text from the cursor on: it ends where a suggestion's grey starts, and
before a right prompt. -/
def textEnd : Nat :=
  let rest := if e.cursor ≤ e.limit ∧ e.limit ≤ e.cells.length then
    (e.cells.take e.limit).drop e.cursor else []
  match rposition (fun cell => !blank cell) (rest.takeWhile fun cell => !ghost cell) with
  | some last => e.cursor + last + 1
  | none => e.cursor

/-- The change that puts a cell at a column. -/
def moveTo (col : Nat) (cell : Cell) : Change :=
  let differs := (e.cell col).all fun was => !same was.text cell.text
  { col := col, cell := cell, check := if !blank cell && differs then .text else .nothing }

/-- The cells of some columns moved to start at another, when each is a single narrow glyph. -/
def moved (from' stop at' : Nat) : Option (List Change) :=
  if from' ≤ stop ∧ stop ≤ e.cells.length then
    let cells := (e.cells.take stop).drop from'
    if cells.all fun cell => decide (cell.width = .narrow) && decide (cell.text.length ≤ 1) then
      some (cells.zipIdx.map fun (cell, i) => e.moveTo (at' + i) cell)
    else none
  else none

def clearSuggestion (from' : Nat) : List Change :=
  (((e.cells.take e.cols).drop from').takeWhile ghost).zipIdx.map fun (_, i) => blanked (from' + i)

/-- Where the input starts, for the line editor's own keys. -/
def editing (modes : TermModes) : Option Nat :=
  if modes.canonical then none
  else e.input.filter fun start => e.base.isSome && decide (start ≤ e.cursor)

def typeChar (ch : Char) : Option (Nat × Bool × List Change) :=
  let c := e.cursor
  -- Never predict a wrap.
  if e.cols ≤ c + 1 then none
  else
    match e.cell c with
    | none => none
    | some under =>
        if under.width ≠ .narrow then none
        else
          let typed := Cell.narrow ch {}
          let covered := same under.text typed.text
          let check : Check :=
            if blank typed then .nothing
            else if covered then if ghost under then .typed else .nothing
            else .text
          let put : Change := { col := c, cell := typed, check := check }
          let stop := e.textEnd
          let rest : Option (List Change) :=
            if c < stop then
              -- Inside the text: the rest moves one right.
              if e.wrappedBelow ∨ e.cols ≤ stop + 1 then none else e.moved c stop (c + 1)
            else if ghost under && !covered then some (e.clearSuggestion (c + 1))
            else some []
          -- Text that comes to touch a right prompt hides it.
          let hides :=
            if e.limit ≤ max stop c + 1 then (columns e.limit e.rightEnd).map blanked else []
          rest.map fun rest => (c + 1, false, put :: rest ++ hides)

/-- The cursor one character left, within the input. -/
def moveLeft (modes : TermModes) : Option (Nat × Bool × List Change) :=
  let c := e.cursor
  match e.editing modes with
  | none => none
  | some start =>
      if c = 0 then none
      else
        match e.cell (c - 1) with
        | none => none
        | some before =>
            let step := if before.width = .spacerTail then 2 else 1
            if step ≤ c ∧ start ≤ c - step then
              match e.cell (c - step) with
              | some there =>
                  if there.width = .narrow ∨ there.width = .wide then some (c - step, true, [])
                  else none
              | none => none
            else none

/-- The cursor one character right, within the text. -/
def moveRight (modes : TermModes) : Option (Nat × Bool × List Change) :=
  let c := e.cursor
  match e.editing modes with
  | none => none
  | some _ =>
      -- At the end a suggestion may take it, or nothing moves.
      if e.textEnd ≤ c then none
      else
        let step := match (e.cell c).map Cell.width with
          | some .narrow => 1
          | some .wide => 2
          | _ => 0
        if step ≠ 0 ∧ c + step < e.cols then some (c + step, true, []) else none

/-- The character before the cursor deleted. -/
def erase (modes : TermModes) (floor : Option (Nat × Nat)) : Option (Nat × Bool × List Change) :=
  let c := e.cursor
  let start := (e.editing modes).or
    ((floor.filter fun f => decide (f.1 = e.row)).map Prod.snd)
  match start with
  | none => none
  | some start =>
      if c = 0 then none
      else
        let step := match (e.cell (c - 1)).map Cell.width with
          | some .narrow => 1
          | some .spacerTail => 2
          | _ => 0
        if step ≠ 0 ∧ step ≤ c ∧ start ≤ c - step then
          let target := c - step
          if step = 2 ∧ (e.cell target).map Cell.width ≠ some .wide then none
          else
            let stop := e.textEnd
            if c < stop then
              -- Inside the text: the rest moves left over what was deleted.
              if e.wrappedBelow then none
              else (e.moved c stop target).map fun changes =>
                (target, true, changes ++ (columns (stop - step) stop).map blanked)
            else some (target, true, (columns target c).map blanked ++ e.clearSuggestion c)
        else none

/-- The guess for a stroke, or nothing when the predictor cannot say what it does. -/
def apply (stroke : Stroke) (seq : Nat) (at' : Instant) (modes : TermModes)
    (floor : Option (Nat × Nat)) : Option Guess :=
  let edit := match stroke with
    | .type ch => e.typeChar ch
    | .left => e.moveLeft modes
    | .right => e.moveRight modes
    | .erase => e.erase modes floor
  -- The blanks come first, so that what the key moves there is drawn over them.
  edit.map fun (cursor, moves, changes) =>
    { seq := seq, at' := at', cursor := cursor, moves := moves
      changes := e.hidden.map blanked ++ changes }

end Edited

end Slopty.Predict
