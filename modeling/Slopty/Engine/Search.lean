import Slopty.Lib.Lines
import Slopty.Lib.Machine
import Slopty.Lib.Recent
import Slopty.Lib.Text
import Slopty.Lib.Words

/-!
Text found in the rows of a terminal: every hit counted, and the newest laid out in cells. Rows a
line soft-wraps over are searched as the one line the program wrote.
-/

namespace Slopty.Engine.Search

open Slopty.Lib

/-- One match of an expression: the byte it starts at, and what it matched. -/
structure Match where
  start : Nat
  text : Text
  deriving DecidableEq

/-- The expressions and the tables of characters a search goes by. -/
structure Tables where
  isUppercase : Char → Bool
  escape : Text → Text
  /-- An expression, blind to case or not: its matches in a line, in order. -/
  build : Text → Bool → Except Text (Text → List Match)
  /-- The characters of the first cluster, and the cells it covers. -/
  graphemeWidth : Text → Nat × Nat

structure Pattern where
  source : Text
  findIter : Text → List Match

def Pattern.new (t : Tables) (needle : Text) (regex : Bool) : Except Text Pattern :=
  let insensitive := !needle.any t.isUppercase
  let source := if regex then needle else t.escape needle
  match t.build source insensitive with
  | .error e => .error e
  | .ok findIter => .ok ⟨source, findIter⟩

def Pattern.isEmpty (p : Pattern) : Bool := p.source.isEmpty

/-- The text before a byte, when a character starts there. -/
def headBytes : Text → Nat → Option Text
  | _, 0 => some []
  | [], _ + 1 => none
  | c :: rest, n + 1 =>
      if c.utf8Size ≤ n + 1 then (headBytes rest (n + 1 - c.utf8Size)).map (c :: ·) else none

/-- Characters before a byte. -/
def charIndex (s : Text) (byte : Nat) : Nat := (headBytes s byte).elim 0 List.length

/-- Hits in one line: the first character and how many; empty matches are skipped. -/
def Pattern.hits (p : Pattern) (line : Text) : List (Nat × Nat) :=
  ((p.findIter line).filter fun m => !m.text.isEmpty).map fun m =>
    (charIndex line m.start, m.text.length)

structure SearchMatch where
  line : Nat
  col : Nat
  len : Nat
  deriving DecidableEq

structure Found where
  /-- Every hit, listed or not. -/
  total : Nat := 0
  /-- The newest hits, ascending by line. -/
  found : List SearchMatch := []
  deriving DecidableEq

/-- A row's text, and whether it soft-wraps into the next. -/
abbrev Row := Text × Bool

/-- A line as the program wrote it: the rows it soft-wraps over, joined. -/
structure Logical where
  /-- The absolute line of its first row. -/
  row : Nat
  text : Text
  /-- The character each row starts at. -/
  starts : List Nat
  deriving DecidableEq

namespace Logical

/-- The row character `at'` is on, and its index within it. -/
def place (l : Logical) (at' : Nat) : Nat × Nat :=
  let part := partitionPoint (fun c => decide (c ≤ at')) l.starts - 1
  (part, at' - (l.starts[part]?).getD 0)

/-- The text of row `part`, its fill included. -/
def part (l : Logical) (part : Nat) : Text :=
  let from' := (l.starts[part]?).getD 0
  let upTo := (l.starts[part + 1]?).getD l.text.length
  (l.text.take upTo).drop from'

end Logical

def isAscii (text : Text) : Bool := text.all fun c => decide (c.toNat < 128)

def u16Max : Nat := 2 ^ 16 - 1

def u32Max : Nat := 2 ^ 32 - 1

variable (t : Tables)

/-- The column each character starts at, from `col`. -/
def startsFrom : Nat → Text → Nat → List Nat × Nat
  | 0, _, col => ([], col)
  | fuel + 1, rest, col =>
      if rest.isEmpty then ([], col)
      else
        let (consumed, width) := t.graphemeWidth rest
        let consumed := max consumed 1
        let next := startsFrom fuel (rest.drop consumed) (satAdd 16 col width)
        (List.replicate consumed col ++ next.1, next.2)

/-- The cell column at each character of a line, and at its end. -/
def widths (line : Text) : List Nat :=
  let r := startsFrom t line.length line 0
  r.1 ++ [r.2]

/-- The column a character starts at; the end of the line for one past it. -/
def columnAt (widths : List Nat) (at' : Nat) : Nat :=
  (widths[min at' (widths.length - 1)]?).getD 0

/-- Cells a row's text covers. -/
def widthOf (text : Text) : Nat :=
  if isAscii text then min text.utf8Len u16Max else ((widths t text).getLast?).getD 0

/-- The loop of `join`: each row but the last is filled out to `cols` cells, unless a wide cluster
that did not fit starts the next. -/
def joinFrom (cols : Nat) : Nat → List Text → Text × List Nat
  | _, [] => ([], [])
  | chars, [part] => (part, [chars])
  | chars, part :: next :: rest =>
      let pad := cols - widthOf t part
      let lead := next.take 8
      let pad := if pad = 1 ∧ ¬lead.isEmpty ∧ (t.graphemeWidth lead).2 = 2 then 0 else pad
      let r := joinFrom cols (chars + part.length + pad) (next :: rest)
      (part ++ List.replicate pad ' ' ++ r.1, chars :: r.2)

/-- Join the rows of one line. -/
def join (row : Nat) (parts : List Text) (cols : Nat) : Logical :=
  match parts with
  | [only] => ⟨row, only, [0]⟩
  | parts =>
      let r := joinFrom t cols 0 parts
      ⟨row, r.1, r.2⟩

structure Scanned where
  /-- Every line with hits, by its first row, and how many. -/
  rows : List (Nat × Nat)
  /-- The newest hits laid out. -/
  found : List SearchMatch

/-- The scan between rows: the hits still in the running, and the rows of a line not ended. -/
structure Scanning where
  pending : List (Logical × Nat × Nat) := []
  hitRows : List (Nat × Nat) := []
  parts : List Text := []
  first : Nat
  /-- The row after the last one taken. -/
  row : Nat

variable (pattern : Pattern) (keep cols : Nat)

/-- A line's hits are counted; older ones than the newest `keep` are forgotten in batches. -/
def Scanning.hit (s : Scanning) (line : Logical) : Scanning :=
  let hits := pattern.hits line.text
  if hits.isEmpty then s
  else
    let pending := s.pending ++ hits.map fun h => (line, h)
    { s with
      hitRows := s.hitRows ++ [(line.row, min hits.length u32Max)]
      pending := if keep * 2 < pending.length then pending.drop (pending.length - keep)
        else pending }

/-- One row of the scan. -/
def Scanning.take (s : Scanning) (r : Row) : Scanning :=
  if s.parts.isEmpty && !r.2 then
    { s.hit pattern keep (join t s.row [r.1] cols) with row := s.row + 1 }
  else
    let first := if s.parts.isEmpty then s.row else s.first
    let parts := s.parts ++ [r.1]
    if r.2 then { s with first := first, parts := parts, row := s.row + 1 }
    else
      { s.hit pattern keep (join t first parts cols) with
        first := first, parts := [], row := s.row + 1 }

/-- The column of a character of a line's row: its index where the row is plain. -/
def Logical.column (line : Logical) (part at' : Nat) : Nat :=
  let text := line.part part
  if isAscii text then min at' u16Max else columnAt (widths t text) at'

/-- A hit laid out in cells: its length counts them in reading order, over the end of its row onto
the next. -/
def layOut (h : Logical × Nat × Nat) : SearchMatch :=
  let (line, at', count) := h
  let first := line.place at'
  let last := line.place (at' + (count - 1))
  let col := line.column t first.1 first.2
  let stop := line.column t last.1 (last.2 + 1)
  let rowsOver := min (last.1 - first.1) u16Max
  let len := max (satAdd 16 (min (rowsOver * cols) u16Max) stop - col) 1
  ⟨line.row + first.1, col, len⟩

/-- Find `pattern` in `rows`, the first of which is absolute line `base`. -/
def scan (rows : List Row) (base : Nat) : Scanned :=
  let s := rows.foldl (Scanning.take t pattern keep cols) { first := base, row := base }
  let s := if s.parts.isEmpty then s else s.hit pattern keep (join t s.first s.parts cols)
  { rows := s.hitRows
    found := (s.pending.drop (s.pending.length - keep)).map (layOut t cols) }

/-- The rows of a formatted text. -/
def rowsOf (text : Text) (wraps : List Bool) : List Row :=
  (text.splitOn '\n').mapIdx fun i line => (line, (wraps[i]?).getD false)

/-- Find `pattern` in `text`, whose first line is absolute line `base`. -/
def find (text : Text) (wraps : List Bool) (base : Nat) : Found :=
  if pattern.isEmpty then {}
  else
    let found := scan t pattern keep cols (rowsOf text wraps) base
    { total := found.rows.foldl (fun sum r => satAdd 32 sum r.2) 0, found := found.found }

/-- The lines of some rows, `parts` being the rows above them that go on into the first. -/
def linesFrom (first : Nat) (parts : List Text) (row : Nat) : List Row → List Logical
  | [] => if parts.isEmpty then [] else [join t first parts cols]
  | r :: rest =>
      let first := if parts.isEmpty then row else first
      if r.2 then linesFrom first (parts ++ [r.1]) (row + 1) rest
      else join t first (parts ++ [r.1]) cols :: linesFrom first [] (row + 1) rest

/-- The lines of some rows, the first of which is absolute line `base`. -/
def lines (base : Nat) (rows : List Row) : List Logical := linesFrom t cols base [] base rows

/-- Every hit of the lines, in order. -/
def hitsOf (lines : List Logical) : List (Logical × Nat × Nat) :=
  lines.flatMap fun line => (pattern.hits line.text).map fun h => (line, h)

/-- How many hits each line has, of those that have any. -/
def countsOf (lines : List Logical) : List (Nat × Nat) :=
  (lines.filter fun line => !(pattern.hits line.text).isEmpty).map fun line =>
    (line.row, min (pattern.hits line.text).length u32Max)

variable {t} {pattern} {keep cols}

theorem hitsOf_append (before after : List Logical) :
    hitsOf pattern (before ++ after) = hitsOf pattern before ++ hitsOf pattern after :=
  List.flatMap_append

theorem countsOf_append (before after : List Logical) :
    countsOf pattern (before ++ after) = countsOf pattern before ++ countsOf pattern after := by
  rw [countsOf, List.filter_append, List.map_append]
  rfl

/-- The scan has the hits of these lines: all of them counted, the newest in the running. -/
structure Scanning.Has (pattern : Pattern) (keep : Nat) (s : Scanning) (lines : List Logical) :
    Prop where
  pending : recent keep s.pending = recent keep (hitsOf pattern lines)
  hitRows : s.hitRows = countsOf pattern lines

theorem Scanning.Has.hit {s : Scanning} {lines : List Logical} (h : s.Has pattern keep lines)
    (line : Logical) : (s.hit pattern keep line).Has pattern keep (lines ++ [line]) := by
  have hhits : hitsOf pattern [line] = (pattern.hits line.text).map fun h => (line, h) := by
    rw [hitsOf, List.flatMap_singleton]
  rw [Scanning.hit]
  by_cases hnone : (pattern.hits line.text).isEmpty
  · rw [if_pos hnone]
    have hcounts : countsOf pattern [line] = [] := by
      rw [countsOf, List.filter_cons_of_neg (by rw [hnone]; exact Bool.false_ne_true)]
      rfl
    rw [List.isEmpty_iff.mp hnone] at hhits
    refine ⟨?_, ?_⟩
    · rw [hitsOf_append, hhits, List.map_nil, List.append_nil]
      exact h.pending
    · rw [countsOf_append, hcounts, List.append_nil]
      exact h.hitRows
  · rw [if_neg hnone]
    have hcounts : countsOf pattern [line] =
        [(line.row, min (pattern.hits line.text).length u32Max)] := by
      rw [countsOf, List.filter_cons_of_pos (by simpa using hnone)]
      rfl
    refine ⟨?_, ?_⟩
    · dsimp only
      rw [hitsOf_append, hhits, ← recent_append_congr h.pending]
      split
      · exact recent_recent le_rfl _
      · rfl
    · dsimp only
      rw [countsOf_append, hcounts, h.hitRows]

theorem linesFrom_nil (first first' row : Nat) (rows : List Row) :
    linesFrom t cols first [] row rows = linesFrom t cols first' [] row rows := by
  cases rows <;> rfl

theorem Scanning.hit_parts (s : Scanning) (line : Logical) :
    (s.hit pattern keep line).parts = s.parts := by
  rw [Scanning.hit]
  split <;> rfl

/-- A row that ends its line: the line is looked into, and the next one is not begun. -/
theorem Scanning.Has.take {s : Scanning} {lines : List Logical} (h : s.Has pattern keep lines)
    (t : Tables) (cols : Nat) {r : Row} (hends : r.2 = false) :
    (s.take t pattern keep cols r).Has pattern keep (lines ++
        [join t (if s.parts.isEmpty then s.row else s.first) (s.parts ++ [r.1]) cols]) ∧
      (s.take t pattern keep cols r).parts = [] ∧
      (s.take t pattern keep cols r).row = s.row + 1 := by
  have hnext := h.hit (join t (if s.parts.isEmpty then s.row else s.first) (s.parts ++ [r.1]) cols)
  rw [Scanning.take, hends, Bool.not_false, Bool.and_true]
  by_cases hplain : s.parts.isEmpty = true
  · -- the row is a line of its own
    have hparts : s.parts = [] := List.isEmpty_iff.mp hplain
    rw [if_pos hplain, hparts, List.nil_append] at hnext
    rw [if_pos hplain, if_pos hplain, hparts, List.nil_append]
    exact ⟨⟨hnext.pending, hnext.hitRows⟩, (s.hit_parts _).trans hparts, rfl⟩
  · rw [if_neg hplain, if_neg Bool.false_ne_true]
    exact ⟨⟨hnext.pending, hnext.hitRows⟩, rfl, rfl⟩

/-- The end of the scan: a line that nothing ends is one still. -/
theorem Scanning.Has.foldl {s : Scanning} {lines : List Logical} (h : s.Has pattern keep lines)
    (t : Tables) (cols : Nat) (rows : List Row) :
    let s' := rows.foldl (Scanning.take t pattern keep cols) s
    (if s'.parts.isEmpty then s' else s'.hit pattern keep (join t s'.first s'.parts cols)).Has
      pattern keep (lines ++ linesFrom t cols s.first s.parts s.row rows) := by
  induction rows generalizing s lines with
  | nil =>
    rw [linesFrom]
    dsimp only [List.foldl_nil]
    split
    · rw [List.append_nil]
      exact h
    · exact h.hit _
  | cons r rows ih =>
    rw [linesFrom]
    dsimp only [List.foldl_cons]
    cases hends : r.2 with
    | false =>
      obtain ⟨hnext, hparts, hrow⟩ := h.take t cols hends
      have hrest := ih hnext
      rw [hparts, hrow, linesFrom_nil _ (if s.parts.isEmpty then s.row else s.first),
        List.append_assoc] at hrest
      rw [if_neg Bool.false_ne_true]
      exact hrest
    | true =>
      have hnext : s.take t pattern keep cols r =
          { s with
            first := if s.parts.isEmpty then s.row else s.first
            parts := s.parts ++ [r.1]
            row := s.row + 1 } := by
        rw [Scanning.take, hends, Bool.not_true, Bool.and_false, if_neg Bool.false_ne_true,
          if_pos rfl]
      rw [hnext, if_pos rfl]
      exact ih ⟨h.pending, h.hitRows⟩

/-- A scan counts every hit of the lines, and lays the newest out. -/
theorem scan_eq (rows : List Row) (base : Nat) :
    scan t pattern keep cols rows base =
      { rows := countsOf pattern (lines t cols base rows)
        found := (recent keep (hitsOf pattern (lines t cols base rows))).map (layOut t cols) } := by
  have hstart : Scanning.Has pattern keep { first := base, row := base } [] := ⟨rfl, rfl⟩
  have h := hstart.foldl t cols rows
  rw [scan, h.hitRows]
  exact congrArg (fun l => Scanned.mk _ (l.map (layOut t cols))) h.pending

/-- No line goes on past these rows. -/
def EndsLine (rows : List Row) : Prop := ∀ r, rows.getLast? = some r → r.2 = false

theorem linesFrom_append {before after : List Row} (h : EndsLine before) (first row : Nat)
    (parts : List Text) (hparts : before = [] → parts = []) :
    linesFrom t cols first parts row (before ++ after) =
      linesFrom t cols first parts row before ++
        lines t cols (row + before.length) after := by
  induction before generalizing first row parts with
  | nil =>
    rw [hparts rfl]
    exact linesFrom_nil _ _ _ _
  | cons r rest ih =>
    have hrest : EndsLine rest := by
      intro last hlast
      refine h last ?_
      rw [List.getLast?_cons, hlast]
      rfl
    have hlength : row + (r :: rest).length = row + 1 + rest.length := by
      rw [List.length_cons]
      omega
    rw [List.cons_append, linesFrom, linesFrom, hlength]
    cases hends : r.2 with
    | false =>
      rw [if_neg Bool.false_ne_true, if_neg Bool.false_ne_true, List.cons_append]
      exact congrArg _ (ih hrest _ _ _ fun _ => rfl)
    | true =>
      rw [if_pos rfl, if_pos rfl]
      refine ih hrest _ _ _ fun hnil => ?_
      have hlast := h r (by rw [hnil]; rfl)
      rw [hends] at hlast
      cases hlast

theorem lines_append {before after : List Row} (h : EndsLine before) (base : Nat) :
    lines t cols base (before ++ after) =
      lines t cols base before ++ lines t cols (base + before.length) after :=
  linesFrom_append h base base [] fun _ => rfl

theorem length_joinFrom (chars : Nat) (parts : List Text) :
    (joinFrom t cols chars parts).2.length = parts.length := by
  induction parts generalizing chars with
  | nil => rfl
  | cons part rest ih =>
    cases rest with
    | nil => rfl
    | cons next rest =>
      rw [joinFrom]
      dsimp only
      rw [List.length_cons, ih]
      rfl

theorem length_starts_join (row : Nat) (parts : List Text) :
    (join t row parts cols).starts.length = parts.length := by
  unfold join
  split
  · rfl
  · exact length_joinFrom 0 _

theorem row_join (row : Nat) (parts : List Text) : (join t row parts cols).row = row := by
  unfold join
  split <;> rfl

/-- A line's rows are among those it was made of. -/
theorem linesFrom_within {rows : List Row} {first row : Nat} {parts : List Text}
    (hparts : parts ≠ [] → first + parts.length = row) :
    ∀ line ∈ linesFrom t cols first parts row rows,
      (if parts.isEmpty then row else first) ≤ line.row ∧
        line.row + line.starts.length ≤ row + rows.length ∧ line.starts ≠ [] := by
  induction rows generalizing first row parts with
  | nil =>
    intro line hline
    rw [linesFrom] at hline
    split at hline
    · exact absurd hline List.not_mem_nil
    · rename_i hsome
      have hne : parts ≠ [] := fun hnil => hsome (List.isEmpty_iff.mpr hnil)
      rw [List.mem_singleton.mp hline, if_neg hsome, row_join, length_starts_join]
      refine ⟨le_rfl, (hparts hne).le, fun hnil => hne ?_⟩
      rw [← List.length_eq_zero_iff, length_starts_join] at hnil
      exact List.length_eq_zero_iff.mp hnil
  | cons r rest ih =>
    intro line hline
    have hnext : (if parts.isEmpty then row else first) + (parts ++ [r.1]).length = row + 1 := by
      rw [List.length_append, List.length_singleton]
      split
      · rename_i hnone
        rw [List.isEmpty_iff.mp hnone, List.length_nil, Nat.zero_add]
      · rename_i hsome
        have hmore := hparts fun hnil => hsome (List.isEmpty_iff.mpr hnil)
        omega
    have hsome : ¬(parts ++ [r.1]).isEmpty := by simp
    rw [linesFrom] at hline
    rw [List.length_cons]
    split at hline
    · obtain ⟨hge, hle, hne⟩ := ih (fun _ => hnext) line hline
      rw [if_neg hsome] at hge
      exact ⟨hge, by omega, hne⟩
    · rcases List.mem_cons.mp hline with rfl | hmem
      · rw [row_join, length_starts_join]
        refine ⟨le_rfl, by omega, fun hnil => hsome ?_⟩
        rw [← List.length_eq_zero_iff, length_starts_join] at hnil
        exact List.isEmpty_iff.mpr (List.length_eq_zero_iff.mp hnil)
      · obtain ⟨hge, hle, hne⟩ := ih (fun hnil => absurd rfl hnil) line hmem
        rw [List.isEmpty_nil, if_pos rfl] at hge
        refine ⟨le_trans ?_ hge, by omega, hne⟩
        omega

/-- The row a hit is laid out on is one of its line's. -/
theorem layOut_within (t : Tables) (cols : Nat) (h : Logical × Nat × Nat)
    (hstarts : h.1.starts ≠ []) :
    h.1.row ≤ (layOut t cols h).line ∧ (layOut t cols h).line < h.1.row + h.1.starts.length := by
  have hpart : partitionPoint (fun c => decide (c ≤ h.2.1)) h.1.starts ≤ h.1.starts.length :=
    (List.takeWhile_sublist _).length_le
  have hpos := List.length_pos_iff.mpr hstarts
  have hline : (layOut t cols h).line = h.1.row + (h.1.place h.2.1).1 := rfl
  rw [hline, Logical.place]
  dsimp only
  omega

end Slopty.Engine.Search
