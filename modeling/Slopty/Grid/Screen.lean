import Slopty.Grid.Line

/-!
The visible grid: lines of one width, a cursor and the mode bits a client looks at.
-/

namespace Slopty.Grid

/-- Where the cursor is; `said` is its shape, which nothing here looks into. -/
structure Cursor where
  row : Nat
  col : Nat
  visible : Bool := true
  said : String := ""
  deriving DecidableEq, Repr

/-- The mode bits that tell whether typing echoes at the cursor. -/
structure TermModes where
  altScreen : Bool := false
  mouseTracking : Bool := false
  cursorHidden : Bool := false
  echoOff : Bool := false
  canonical : Bool := false
  deriving DecidableEq, Repr

/-- Whether typing plausibly echoes at the cursor. -/
def TermModes.predictionAllowed (m : TermModes) : Bool :=
  !(m.echoOff && m.canonical) && !(m.altScreen || m.cursorHidden || m.mouseTracking)

/-- The visible lines, each as wide as the screen. -/
structure Screen where
  cols : Nat
  lines : List Line
  cursor : Cursor
  sized : ∀ line ∈ lines, line.cells.length = cols

def Screen.line (s : Screen) (row : Nat) : Option Line := s.lines[row]?

end Slopty.Grid
