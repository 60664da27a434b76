import Slopty.Link.LineFetch

/-!
An attached terminal as its client shows it: the screen that the frames bring,
and the lines held, at any place of the history.
-/

namespace Slopty.Grid

open Slopty.Lib

def maxRows : Nat := 1024

/-- `self + n`; past the last number it is the last one. -/
def LineIndex.offset (i : LineIndex) (n : Nat) : LineIndex :=
  ⟨satAdd 64 i.val n, by unfold satAdd; omega⟩

namespace Line

def blank (cols : Nat) : Line := { cells := List.replicate cols Cell.blank }

/-- A wide character is not cut in half: its head alone becomes a blank. -/
def cutWide (cells : List Cell) : List Cell :=
  if cells.getLast?.any fun c => c.width == .wide then cells.dropLast ++ [Cell.blank] else cells

/-- Links cut off at a width; one that is all past it goes. -/
def clipLinks (links : List Hyperlink) (cols : Nat) : List Hyperlink :=
  (links.map fun l =>
    { l with len := UInt16.ofNat (min l.len.toNat (min cols 65535 - l.col.toNat)) }).filter
    fun l => l.len != 0

/-- Pad or truncate to a width. -/
def resize (line : Line) (cols : Nat) : Line :=
  if cols < line.cells.length then
    { line with
      cells := cutWide (line.cells.take cols)
      links := clipLinks line.links cols }
  else { line with cells := line.cells ++ List.replicate (cols - line.cells.length) Cell.blank }

/-- The rows of a screen of another size, keeping the top left of them. -/
def resizeAll (rows : List Line) (cols count : Nat) : List Line :=
  (rows.take count ++ List.replicate (count - rows.length) (blank cols)).map (resize · cols)

/-- Replace one row, if the line is as wide as the screen. -/
def applyRow (cols : Nat) (rows : List Line) (update : Nat × Line) : List Line :=
  if update.2.cells.length = cols then rows.set update.1 update.2 else rows

/-- The rows of a screen that moved down the numbering: each shows the line held at its index. -/
def readopt (s : Scrollback) (first : LineIndex) (cols count : Nat) : List Line :=
  (List.range count).map fun row =>
    ((s.lines.get? (first.offset row)).filter fun l => l.cells.length == cols).getD (blank cols)

end Line

end Slopty.Grid

namespace Slopty.Link

open Slopty.Lib Slopty.Grid

structure ViewFrame extends LineFrame where
  cols : Nat
  rows : Nat

namespace TermState

/-- Whether a frame is older than the last one applied. -/
def superseded (t : TermState) (f : LineFrame) : Bool :=
  t.lastSeq.any fun last => decide (f.seq < last ∨ (f.seq = last ∧ f.full = false))

/-- Whether a frame is in the numbering of the lines held. -/
def sameNumbering (t : TermState) (f : LineFrame) : Bool := !t.relinked && t.epoch == some f.epoch

/-- Whether a change to a frame's numbering takes back the lines put aside. -/
def takesBack (t : TermState) (f : LineFrame) : Bool :=
  !(f.altScreen && !t.altScreen) && t.parked.any fun p => p.epoch == f.epoch

/-- The lines held once a frame told its numbering, its place and what the worker has. -/
def heldFor (t : TermState) (f : LineFrame) (top : Option LineIndex) : Scrollback :=
  let s := if t.sameNumbering f then t.scrollback else (t.changeNumbering f).scrollback
  (s.setView (top.getD f.firstVisible) f.firstVisible).setExtent f.oldest f.total

theorem applyFrame_at {t : TermState} {f : LineFrame} (hnew : t.superseded f = false)
    (top : Option LineIndex) : (t.applyFrame f top).lastSeq = some f.seq ∧
      (t.applyFrame f top).epoch = some f.epoch ∧ (t.applyFrame f top).relinked = false := by
  unfold superseded at hnew
  unfold applyFrame
  rw [if_neg (Bool.eq_false_iff.mp hnew)]
  dsimp only
  cases hsame : !t.relinked && t.epoch == some f.epoch with
  | false => cases f.full <;> exact ⟨rfl, rfl, rfl⟩
  | true =>
    have hepoch := eq_of_beq (Bool.and_eq_true_iff.mp hsame).2
    cases f.full <;> exact ⟨rfl, hepoch, rfl⟩

end TermState

structure TermView where
  lines : TermState := {}
  cols : Nat
  rows : List Line
  firstVisible : LineIndex := 0
  /-- How many lines the view is above the bottom. -/
  viewOffset : Nat := 0
  resyncPending : Bool := false

inductive Effect where
  | attach
  | fetchLines (r : FetchLines)
  deriving DecidableEq, Repr

namespace TermView

/-- A fresh view; a size past the largest is clamped to it. -/
def new (cols rows : Nat) : TermView :=
  { cols := min cols maxCols
    rows := List.replicate (min rows maxRows) (Line.blank (min cols maxCols)) }

def resize (v : TermView) (cols rows : Nat) : TermView :=
  { v with
    cols := min cols maxCols
    rows := Line.resizeAll v.rows (min cols maxCols) (min rows maxRows) }

def indexAtRow (v : TermView) (row : Nat) : LineIndex :=
  LineIndex.offset ⟨v.firstVisible.val - v.viewOffset, by omega⟩ row

/-- The lines above the screen that can still be scrolled to. -/
def historyLen (v : TermView) : Nat := v.firstVisible.val - v.lines.scrollback.oldest.val

def requestLines (v : TermView) (start : LineIndex) (count : Nat) : TermView × List FetchLines :=
  ({ v with lines := (v.lines.requestLines start count).1 }, (v.lines.requestLines start count).2)

def scrollTo (v : TermView) (offset : Nat) : TermView × List FetchLines :=
  let v := { v with viewOffset := min offset v.historyLen }
  let v := { v with
    lines := { v.lines with
      scrollback := v.lines.scrollback.setView (v.indexAtRow 0) v.firstVisible } }
  if v.viewOffset = 0 then (v, []) else v.requestLines (v.indexAtRow 0) v.rows.length

def scrollToLine (v : TermView) (i : LineIndex) : TermView × List FetchLines :=
  v.scrollTo (v.firstVisible.val - i.val)

def scrollToBottom (v : TermView) : TermView :=
  { v with
    viewOffset := 0
    lines := { v.lines with
      scrollback := v.lines.scrollback.setView v.firstVisible v.firstVisible } }

/-- A frame that is not superseded, its view at the line `focus` if it stays scrolled up. -/
def showFrame (v : TermView) (f : ViewFrame) (focus : Option LineIndex) : TermView :=
  let held := v.lines.heldFor f.toLineFrame focus
  let moved := v.firstVisible != f.firstVisible
  let v := if f.cols = v.cols ∧ f.rows = v.rows.length then v else v.resize f.cols f.rows
  let rows :=
    if moved && !f.full then Line.readopt held f.firstVisible v.cols v.rows.length else v.rows
  { v with
    lines := v.lines.applyFrame f.toLineFrame focus
    firstVisible := f.firstVisible
    rows := f.updates.foldl (Line.applyRow v.cols) rows }

/-- Whether a frame leaves rows that the lines held cannot fill. -/
def unfilled (v : TermView) (f : ViewFrame) : Bool :=
  let gap := v.lines.lastSeq.any fun prev => f.seq != (prev + 1) % 2 ^ 64
  let held := v.lines.sameNumbering f.toLineFrame || v.lines.takesBack f.toLineFrame
  (gap || !held) && !f.full

def applyFrame (v : TermView) (f : ViewFrame) : TermView × List Effect :=
  if v.lines.superseded f.toLineFrame then (v, [])
  else
    let asks := v.unfilled f && !v.resyncPending
    let effects := if asks then [Effect.attach] else []
    let same := v.lines.sameNumbering f.toLineFrame
    -- In another numbering the view is at the bottom.
    let focus := if same && v.viewOffset != 0 then some (v.indexAtRow 0) else none
    let v := { v with
      viewOffset := if same then v.viewOffset else 0
      resyncPending := !f.full && (v.resyncPending || asks) }
    let v := v.showFrame f focus
    match focus with
    | some top =>
        let (v, asked) := v.scrollToLine top
        (v, effects ++ asked.map Effect.fetchLines)
    | none => ({ v with viewOffset := min v.viewOffset v.historyLen }, effects)

/-- The link is gone and a new one attaches. -/
def relinked (v : TermView) : TermView := { v with lines := v.lines.relink, resyncPending := false }

inductive Op where
  | frame (f : ViewFrame)
  | lines (start : LineIndex) (ls : List Line)
  /-- A size, asked for here or told by the worker. -/
  | resize (cols rows : Nat)
  | scrollTo (offset : Nat)
  | scrollToBottom
  | requestLines (start : LineIndex) (count : Nat)
  | relinked

def step (v : TermView) : Op → TermView
  | .frame f => (v.applyFrame f).1
  | .lines start ls => { v with lines := v.lines.lines start ls }
  | .resize cols rows => v.resize cols rows
  | .scrollTo offset => (v.scrollTo offset).1
  | .scrollToBottom => v.scrollToBottom
  | .requestLines start count => (v.requestLines start count).1
  | .relinked => v.relinked

def line (v : TermView) (i : LineIndex) : Option Line :=
  if v.firstVisible ≤ i then v.rows[i.val - v.firstVisible.val]?
  else v.lines.scrollback.lines.get? i

/-- The rows to draw, top to bottom. -/
def view (v : TermView) : List (LineIndex × Option Line) :=
  if v.viewOffset = 0 then
    v.rows.mapIdx fun row line => (v.firstVisible.offset row, some line)
  else
    (List.range v.rows.length).map fun row => (v.indexAtRow row, v.line (v.indexAtRow row))

variable {v : TermView} {f : ViewFrame}

/-- What scrolling leaves as it is: the screen, the lines and their numbering. -/
structure SameLines (v v' : TermView) : Prop where
  held : v'.lines.scrollback.lines = v.lines.scrollback.lines
  parked : v'.lines.parked = v.lines.parked
  rows : v'.rows = v.rows
  relinked : v'.lines.relinked = v.lines.relinked
  lastSeq : v'.lines.lastSeq = v.lines.lastSeq
  epoch : v'.lines.epoch = v.lines.epoch

theorem scrollTo_same (v : TermView) (offset : Nat) : SameLines v (v.scrollTo offset).1 := by
  unfold scrollTo
  dsimp only
  split <;> exact ⟨rfl, rfl, rfl, rfl, rfl, rfl⟩

theorem showFrame_lines (v : TermView) (f : ViewFrame) (focus : Option LineIndex) :
    (v.showFrame f focus).lines = v.lines.applyFrame f.toLineFrame focus := by
  unfold showFrame
  dsimp only
  split <;> rfl

theorem applyFrame_superseded (h : v.lines.superseded f.toLineFrame = true) :
    (v.applyFrame f).1 = v := by
  unfold applyFrame
  rw [if_pos h]

/-- A frame that is not superseded is shown, and the view scrolled. -/
theorem applyFrame_eq (hnew : v.lines.superseded f.toLineFrame = false) :
    ∃ (w : TermView) (focus : Option LineIndex), w.lines = v.lines ∧ w.rows = v.rows ∧
      SameLines (w.showFrame f focus) (v.applyFrame f).1 := by
  unfold applyFrame
  rw [if_neg (Bool.eq_false_iff.mp hnew)]
  dsimp only
  generalize (if v.lines.sameNumbering f.toLineFrame && v.viewOffset != 0 then
    some (v.indexAtRow 0) else none) = focus
  refine ⟨{ v with
    viewOffset := if v.lines.sameNumbering f.toLineFrame then v.viewOffset else 0
    resyncPending := !f.full && (v.resyncPending || v.unfilled f && !v.resyncPending) },
    focus, rfl, rfl, ?_⟩
  cases focus with
  | some top => exact scrollTo_same _ _
  | none => exact ⟨rfl, rfl, rfl, rfl, rfl, rfl⟩

end TermView

end Slopty.Link
