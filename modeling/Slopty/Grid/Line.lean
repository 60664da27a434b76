import Slopty.Lib.Text

/-!
A row of cells, and what is marked of it.
-/

namespace Slopty.Grid

open Slopty.Lib

inductive Color where
  | default
  | palette (index : Fin 256)
  | rgb (r g b : Fin 256)
  deriving DecidableEq, Repr

inductive Underline where
  | none
  | single
  | double
  | curly
  | dotted
  | dashed
  deriving DecidableEq, Repr

/-- The style of one cell; `flags` are its boolean attributes. -/
structure Style where
  fg : Color := .default
  bg : Color := .default
  underlineColor : Color := .default
  underline : Underline := .none
  flags : UInt16 := 0
  deriving DecidableEq, Repr

namespace Style

def default : Style := {}

def isDefault (s : Style) : Bool := decide (s = default)

def faint (s : Style) : Bool := s.flags &&& 2 != 0

@[simp] theorem faint_default : ({} : Style).faint = false := rfl

end Style

inductive CellWidth where
  | narrow
  | wide
  | spacerTail
  | spacerHead
  deriving DecidableEq, Repr

/-- One cell; its text is one cluster, or nothing. -/
structure Cell where
  text : Text := []
  style : Style := {}
  width : CellWidth := .narrow
  deriving DecidableEq, Repr

namespace Cell

def blank : Cell := {}

def narrow (c : Char) (style : Style) : Cell := { text := [c], style := style }

/-- Nothing to draw, and the default style. -/
def isBlank (c : Cell) : Bool :=
  c.text.isEmpty && c.style.isDefault && decide (c.width = .narrow)

end Cell

inductive SemanticMark where
  | unknown
  | prompt (exit : Option (Fin 256)) (input : Option Nat)
  | input
  | output
  | promptContinuation (input : Option Nat)
  deriving DecidableEq, Repr

namespace SemanticMark

/-- The first row of a command block. -/
def startsPrompt : SemanticMark → Bool
  | prompt _ _ => true
  | _ => false

/-- The column the typed command starts at on a prompt row. -/
def inputCol : SemanticMark → Option Nat
  | prompt _ col | promptContinuation col => col
  | _ => none

end SemanticMark

def maxCols : Nat := 2048

/-- A link over a run of cells in one line. -/
structure Hyperlink where
  col : UInt16
  len : UInt16
  uri : Text
  deriving DecidableEq, Repr

/-- A row of the grid. -/
structure Line where
  cells : List Cell := []
  wrapped : Bool := false
  mark : SemanticMark := .unknown
  links : List Hyperlink := []
  deriving DecidableEq, Repr

namespace Line

/-- Width in columns. -/
def cols (l : Line) : Nat := if l.cells.length < 2 ^ 16 then l.cells.length else 2 ^ 16 - 1

/-- Where the last element is that `p` holds of. -/
def rposition {α : Type} (p : α → Bool) : List α → Option Nat
  | [] => none
  | x :: rest =>
      match rposition p rest with
      | some i => some (i + 1)
      | none => if p x then some 0 else none

def lastContentCol (l : Line) : Option Nat :=
  (rposition (fun c => !c.isBlank) l.cells).filter fun i => decide (i < 2 ^ 16)

end Line

end Slopty.Grid
