import Slopty.Grid.Line
import Slopty.Lib.Codec

/-!
A line on the wire: its width, and its cells up to the last one that is not blank. The rest are
blank again once read, and are counted against what the decode has left, since a line's bytes do
not bound its cells.
-/

namespace Slopty.Grid

open Slopty.Lib

/-- Cells that lines decoded on a thread may still take; `none` outside any budget. -/
abbrev Budget := Option Nat

/-- Take `cells` from the thread's budget; false when it has not that many left. -/
def spend (cells : Nat) : Budget → Bool × Budget
  | none => (true, none)
  | some left => if cells ≤ left then (true, some (left - cells)) else (false, some left)

/-- What a decode is given that asks for `cells`: no more than is left around it. -/
def granted (cells : Nat) : Budget → Nat
  | none => cells
  | some outer => min outer cells

/-- Run `decode` with at most `cells` cells for the lines it decodes, and say how many they took.
A `decode` that unwinds gives no result; the budget around it is put back all the same. -/
def withCellBudget {α : Type} (cells : Nat) (decode : Budget → Option α × Budget)
    (outer : Budget) : Option (α × Nat) × Budget :=
  let start := granted cells outer
  let ran := decode (some start)
  let spent := start - ran.2.getD 0
  (ran.1.map fun out => (out, spent), outer.map fun outer => outer - spent)

structure Wire where
  cols : Nat
  cells : List Cell
  wrapped : Bool
  mark : SemanticMark
  links : List Hyperlink
  deriving DecidableEq, Repr

/-- The numbers of what is encoded are of 16 bits. -/
def Wire.Fits (w : Wire) : Prop := w.cols < 2 ^ 16 ∧ ∀ c, w.mark.inputCol = some c → c < 2 ^ 16

inductive DecodeError where
  | malformed
  | columns (cols : Nat)
  | length (cells : Nat)
  | budget
  deriving DecidableEq, Repr

namespace Line

def toWire (l : Line) : Wire :=
  let content := match l.lastContentCol with
    | none => 0
    | some c => c + 1
  { cols := l.cols
    cells := l.cells.take content
    wrapped := l.wrapped
    mark := l.mark
    links := l.links }

variable (count : Codec Nat) (wire : Codec Wire)

def serialize (l : Line) : Bytes := wire.put l.toWire

/-- Read one line, taking its cells from the budget. -/
def deserialize (bytes : Bytes) (budget : Budget) : Except DecodeError (Line × Bytes) × Budget :=
  match wire.take bytes with
  | none => (.error .malformed, budget)
  | some (w, rest) =>
      if maxCols < w.cols then (.error (.columns w.cols), budget)
      else if w.cols < w.cells.length then (.error (.length w.cells.length), budget)
      else
        match spend w.cols budget with
        | (false, budget) => (.error .budget, budget)
        | (true, budget) =>
            (.ok ({ cells := w.cells ++ List.replicate (w.cols - w.cells.length) Cell.blank
                    wrapped := w.wrapped
                    mark := w.mark
                    links := w.links }, rest), budget)

/-- Lines as a sequence: how many, then each. -/
def serializeAll (lines : List Line) : Bytes :=
  count.put lines.length ++ lines.flatMap (serialize wire)

def deserializeSeq : Nat → Bytes → Budget → Except DecodeError (List Line × Bytes) × Budget
  | 0, bytes, budget => (.ok ([], bytes), budget)
  | n + 1, bytes, budget =>
      match deserialize wire bytes budget with
      | (.error e, budget) => (.error e, budget)
      | (.ok (line, rest), budget) =>
          match deserializeSeq n rest budget with
          | (.error e, budget) => (.error e, budget)
          | (.ok (lines, rest), budget) => (.ok (line :: lines, rest), budget)

def deserializeAll (bytes : Bytes) (budget : Budget) :
    Except DecodeError (List Line × Bytes) × Budget :=
  match count.take bytes with
  | none => (.error .malformed, budget)
  | some (n, rest) => deserializeSeq wire n rest budget

end Line

/-- A line that the engine makes: of at most the column limit, its mark's column of 16 bits. -/
structure Line.WellFormed (l : Line) : Prop where
  cols_le : l.cells.length ≤ maxCols
  input_lt : ∀ c, l.mark.inputCol = some c → c < 2 ^ 16

def cellsOf (lines : List Line) : Nat := (lines.map fun l => l.cells.length).sum

/-- One budget is another that cells may have been taken from. -/
def Taken : Budget → Budget → Prop
  | none, after => after = none
  | some left, after => ∃ rest ≤ left, after = some rest

/-- What touches the thread's budget only to take from it. -/
def Charges {β : Type} (decode : Budget → β × Budget) : Prop :=
  ∀ budget, Taken budget (decode budget).2

theorem Cell.isBlank_iff (c : Cell) : c.isBlank = true ↔ c = Cell.blank := by
  obtain ⟨text, style, width⟩ := c
  have hstyle : style.isDefault = true ↔ style = {} := decide_eq_true_iff
  simp only [isBlank, blank, hstyle, Bool.and_eq_true, List.isEmpty_iff, decide_eq_true_eq,
    Cell.mk.injEq, and_assoc]

namespace Line

theorem rposition_eq_none {α : Type} {p : α → Bool} {l : List α} (h : rposition p l = none) :
    ∀ x ∈ l, p x = false := by
  induction l with
  | nil => simp
  | cons x l ih =>
      rw [rposition] at h
      split at h
      · exact absurd h nofun
      · rename_i hrest
        split at h
        · exact absurd h nofun
        · rename_i hx
          rintro y (_ | ⟨_, hy⟩)
          · exact Bool.eq_false_iff.mpr hx
          · exact ih hrest y hy

theorem rposition_eq_some {α : Type} {p : α → Bool} {l : List α} {i : Nat}
    (h : rposition p l = some i) : i < l.length ∧ ∀ x ∈ l.drop (i + 1), p x = false := by
  induction l generalizing i with
  | nil => exact absurd h nofun
  | cons x l ih =>
      rw [rposition] at h
      split at h
      · rename_i j hrest
        obtain rfl := Option.some.inj h
        obtain ⟨hlt, hafter⟩ := ih hrest
        exact ⟨Nat.succ_lt_succ hlt, hafter⟩
      · rename_i hrest
        split at h
        · obtain rfl := Option.some.inj h
          exact ⟨Nat.succ_pos _, rposition_eq_none hrest⟩
        · exact absurd h nofun

theorem cols_eq {l : Line} (h : l.cells.length ≤ maxCols) : l.cols = l.cells.length := by
  have : maxCols = 2048 := rfl
  rw [cols, if_pos (by omega)]

theorem toWire_cells {l : Line} (h : l.cells.length ≤ maxCols) :
    l.toWire.cells ++ List.replicate (l.cells.length - l.toWire.cells.length) Cell.blank =
      l.cells ∧ l.toWire.cells.length ≤ l.cells.length := by
  have hmax : maxCols = 2048 := rfl
  suffices hcut : ∃ content ≤ l.cells.length, l.toWire.cells = l.cells.take content ∧
      ∀ c ∈ l.cells.drop content, (!c.isBlank) = false by
    obtain ⟨content, hle, htaken, hblank⟩ := hcut
    have hlen : l.toWire.cells.length = content := by
      rw [htaken, List.length_take, min_eq_left hle]
    have hrest : l.cells.drop content = List.replicate (l.cells.length - content) Cell.blank := by
      rw [List.eq_replicate_iff, List.length_drop]
      refine ⟨rfl, fun c hc => (Cell.isBlank_iff c).mp ?_⟩
      simpa using hblank c hc
    exact ⟨by rw [hlen, htaken, ← hrest, List.take_append_drop], hlen ▸ hle⟩
  cases hlast : rposition (fun c => !c.isBlank) l.cells with
  | none => exact ⟨0, Nat.zero_le _, by simp [toWire, lastContentCol, hlast],
      rposition_eq_none hlast⟩
  | some i =>
      obtain ⟨hlt, hafter⟩ := rposition_eq_some hlast
      have hcontent : l.lastContentCol = some i := by
        rw [lastContentCol, hlast, Option.filter_some, if_pos (decide_eq_true (by omega))]
      exact ⟨i + 1, hlt, by simp only [toWire, hcontent], hafter⟩

theorem WellFormed.toWire_fits {l : Line} (h : l.WellFormed) : l.toWire.Fits := by
  refine ⟨?_, h.input_lt⟩
  have hmax : maxCols = 2048 := rfl
  have hcols : l.toWire.cols = l.cells.length := cols_eq h.cols_le
  have := h.cols_le
  omega

variable {count : Codec Nat} {wire : Codec Wire}

/-- A line is read back when the budget has its cells; else nothing is taken. -/
theorem deserialize_serialize (hwire : wire.Reads Wire.Fits) {l : Line} (h : l.WellFormed)
    (rest : Bytes) (budget : Budget) :
    deserialize wire (l.serialize wire ++ rest) budget =
      match spend l.cells.length budget with
      | (false, budget) => (.error .budget, budget)
      | (true, budget) => (.ok (l, rest), budget) := by
  have hcols : l.toWire.cols = l.cells.length := cols_eq h.cols_le
  obtain ⟨hcells, hshort⟩ := toWire_cells h.cols_le
  rw [deserialize, serialize, hwire _ h.toWire_fits]
  simp only [hcols]
  rw [if_neg (not_lt.mpr h.cols_le), if_neg (not_lt.mpr hshort), hcells]
  rfl

theorem cellsOf_cons (l : Line) (lines : List Line) :
    cellsOf (l :: lines) = l.cells.length + cellsOf lines := by
  rw [cellsOf, List.map_cons, List.sum_cons, cellsOf]

theorem deserializeSeq_within (hwire : wire.Reads Wire.Fits) {lines : List Line}
    (hlines : ∀ l ∈ lines, l.WellFormed) (rest : Bytes) {left : Nat} (h : cellsOf lines ≤ left) :
    deserializeSeq wire lines.length (lines.flatMap (serialize wire) ++ rest) (some left) =
      (.ok (lines, rest), some (left - cellsOf lines)) := by
  induction lines generalizing left with
  | nil => rfl
  | cons l lines ih =>
      rw [cellsOf_cons] at h
      rw [List.flatMap_cons, List.append_assoc, List.length_cons, deserializeSeq,
        deserialize_serialize hwire (hlines l List.mem_cons_self), spend, if_pos (by omega)]
      simp only
      rw [ih (fun m hm => hlines m (List.mem_cons_of_mem _ hm)) (by omega), cellsOf_cons]
      simp only [Nat.sub_sub]

theorem deserializeSeq_past (hwire : wire.Reads Wire.Fits) {lines : List Line}
    (hlines : ∀ l ∈ lines, l.WellFormed) (rest : Bytes) {left : Nat} (h : left < cellsOf lines) :
    ∃ done line after, lines = done ++ line :: after ∧ cellsOf done ≤ left ∧
      left < cellsOf done + line.cells.length ∧
      deserializeSeq wire lines.length (lines.flatMap (serialize wire) ++ rest) (some left) =
        (.error .budget, some (left - cellsOf done)) := by
  induction lines generalizing left with
  | nil => exact absurd h (Nat.not_lt_zero _)
  | cons l lines ih =>
      rw [cellsOf_cons] at h
      rw [List.flatMap_cons, List.append_assoc, List.length_cons, deserializeSeq,
        deserialize_serialize hwire (hlines l List.mem_cons_self), spend]
      by_cases hfirst : l.cells.length ≤ left
      · have hover : left - l.cells.length < cellsOf lines := by omega
        obtain ⟨done, line, after, hsplit, hdone, hpast, hread⟩ :=
          ih (fun m hm => hlines m (List.mem_cons_of_mem _ hm)) hover
        refine ⟨l :: done, line, after, by rw [hsplit]; rfl, ?_, ?_, ?_⟩
        · rw [cellsOf_cons]
          omega
        · rw [cellsOf_cons]
          omega
        · rw [if_pos hfirst]
          simp only
          rw [hread, cellsOf_cons]
          simp only [Nat.sub_sub]
      · refine ⟨[], l, lines, rfl, Nat.zero_le _, ?_, ?_⟩
        · rw [cellsOf, List.map_nil, List.sum_nil]
          omega
        · rw [if_neg hfirst]
          rfl

theorem deserializeAll_serializeAll (hcount : count.Reads fun _ => True) (lines : List Line)
    (rest : Bytes) (budget : Budget) :
    deserializeAll count wire (serializeAll count wire lines ++ rest) budget =
      deserializeSeq wire lines.length (lines.flatMap (serialize wire) ++ rest) budget := by
  rw [deserializeAll, serializeAll, List.append_assoc, hcount _ trivial]

end Line

@[refl] theorem Taken.refl (budget : Budget) : Taken budget budget := by
  cases budget with
  | none => rfl
  | some left => exact ⟨left, le_refl left, rfl⟩

theorem Taken.trans {a b c : Budget} (hab : Taken a b) (hbc : Taken b c) : Taken a c := by
  cases a with
  | none =>
      obtain rfl := hab
      exact hbc
  | some left =>
      obtain ⟨mid, hmid, rfl⟩ := hab
      obtain ⟨rest, hrest, rfl⟩ := hbc
      exact ⟨rest, hrest.trans hmid, rfl⟩

theorem charges_spend (cells : Nat) : Charges (spend cells) := by
  rintro (_ | left)
  · rfl
  · rw [spend]
    split
    · exact ⟨left - cells, Nat.sub_le left cells, rfl⟩
    · rfl

/-- What takes from the budget and then, for what came of it, takes again. -/
theorem Charges.bind {β γ : Type} {first : Budget → β × Budget} {next : β → Budget → γ × Budget}
    (hfirst : Charges first) (hnext : ∀ b, Charges (next b)) :
    Charges fun budget => next (first budget).1 (first budget).2 :=
  fun budget => (hfirst budget).trans (hnext _ _)

namespace Line

variable {count : Codec Nat} {wire : Codec Wire}

theorem charges_deserialize (bytes : Bytes) : Charges (deserialize wire bytes) := by
  intro budget
  rw [deserialize]
  split
  · rfl
  · rename_i w rest _
    have hspend := charges_spend w.cols budget
    split
    · rfl
    · split
      · rfl
      · split <;> simp_all

theorem charges_deserializeSeq (n : Nat) (bytes : Bytes) :
    Charges (deserializeSeq wire n bytes) := by
  induction n generalizing bytes with
  | zero => exact fun budget => Taken.refl budget
  | succ n ih =>
      intro budget
      have hfirst : Taken budget (deserialize wire bytes budget).2 :=
        charges_deserialize bytes budget
      rw [deserializeSeq]
      cases hread : deserialize wire bytes budget with
      | mk outcome left =>
          rw [hread] at hfirst
          cases outcome with
          | error e => exact hfirst
          | ok read =>
              have hrest := ih read.2 left
              simp only
              cases hmore : deserializeSeq wire n read.2 left with
              | mk others rest =>
                  rw [hmore] at hrest
                  cases others <;> exact hfirst.trans hrest

theorem charges_deserializeAll (bytes : Bytes) : Charges (deserializeAll count wire bytes) := by
  intro budget
  rw [deserializeAll]
  split
  · rfl
  · exact charges_deserializeSeq _ _ budget

end Line

/-- Whatever a decode does, the budget around it is what it was less what the decode spent of
what it was given. -/
theorem withCellBudget_restores {α : Type} (cells : Nat) (decode : Budget → Option α × Budget)
    (outer : Budget) :
    ∃ spent ≤ granted cells outer,
      withCellBudget cells decode outer =
        ((decode (some (granted cells outer))).1.map fun out => (out, spent),
          outer.map fun outer => outer - spent) ∧
      (Charges decode →
        (decode (some (granted cells outer))).2 = some (granted cells outer - spent)) := by
  refine ⟨_, Nat.sub_le _ _, rfl, fun hcharges => ?_⟩
  obtain ⟨rest, hrest, hleft⟩ := hcharges (some (granted cells outer))
  rw [hleft, Option.getD_some, Nat.sub_sub_self hrest]

theorem charges_withCellBudget {α : Type} (cells : Nat) (decode : Budget → Option α × Budget) :
    Charges (withCellBudget cells decode) := by
  rintro (_ | left)
  · rfl
  · exact ⟨_, Nat.sub_le _ _, rfl⟩

/-- Lines within the budget are read back as they were, and spend exactly their cells; past it
the decode fails at the first line that is, having spent the cells of the lines before it. Any
decode leaves the budget around it less what it spent, however it ended. -/
theorem lines_read_back {count : Codec Nat} {wire : Codec Wire}
    (hcount : count.Reads fun _ => True) (hwire : wire.Reads Wire.Fits) (lines : List Line)
    (hlines : ∀ l ∈ lines, l.WellFormed) (rest : Bytes) (cells : Nat)
    (outer : Budget) :
    let decode := fun budget =>
      let read := Line.deserializeAll count wire (Line.serializeAll count wire lines ++ rest) budget
      (some read.1, read.2)
    (cellsOf lines ≤ granted cells outer →
      withCellBudget cells decode outer =
        (some (.ok (lines, rest), cellsOf lines), outer.map fun o => o - cellsOf lines)) ∧
    (granted cells outer < cellsOf lines →
      ∃ done line after, lines = done ++ line :: after ∧ cellsOf done ≤ granted cells outer ∧
        granted cells outer < cellsOf done + line.cells.length ∧
        withCellBudget cells decode outer =
          (some (.error .budget, cellsOf done), outer.map fun o => o - cellsOf done)) ∧
    ∀ {α : Type} (inner : Nat) (run : Budget → Option α × Budget) (around : Budget),
      ∃ spent ≤ granted inner around,
        withCellBudget inner run around =
          ((run (some (granted inner around))).1.map fun out => (out, spent),
            around.map fun o => o - spent) ∧
        (Charges run →
          (run (some (granted inner around))).2 = some (granted inner around - spent)) := by
  refine ⟨fun hwithin => ?_, fun hpast => ?_, fun inner run around =>
    withCellBudget_restores inner run around⟩
  · rw [withCellBudget]
    simp only [Line.deserializeAll_serializeAll hcount lines,
      Line.deserializeSeq_within hwire hlines rest hwithin, Option.map_some, Option.getD_some,
      Nat.sub_sub_self hwithin]
  · obtain ⟨done, line, after, hsplit, hdone, hover, hread⟩ :=
      Line.deserializeSeq_past hwire hlines rest hpast
    refine ⟨done, line, after, hsplit, hdone, hover, ?_⟩
    rw [withCellBudget]
    simp only [Line.deserializeAll_serializeAll hcount lines, hread, Option.map_some,
      Option.getD_some, Nat.sub_sub_self hdone]

namespace Postcard

open Codec

def color : Codec Color where
  put
    | .default => [0]
    | .palette i => [1, UInt8.ofFin i]
    | .rgb r g b => [2, UInt8.ofFin r, UInt8.ofFin g, UInt8.ofFin b]
  take
    | 0 :: rest => some (.default, rest)
    | 1 :: i :: rest => some (.palette i.toFin, rest)
    | 2 :: r :: g :: b :: rest => some (.rgb r.toFin g.toFin b.toFin, rest)
    | _ => none

def style : Codec Style :=
  (color.pair (color.pair (color.pair ((oneOf [.none, .single, .double, .curly, .dotted,
    .dashed]).pair (varint.map UInt16.toNat UInt16.ofNat))))).map
    (fun s => (s.fg, s.bg, s.underlineColor, s.underline, s.flags))
    fun s => ⟨s.1, s.2.1, s.2.2.1, s.2.2.2.1, s.2.2.2.2⟩

def cell : Codec Cell :=
  ((text varint).pair (style.pair (oneOf [.narrow, .wide, .spacerTail, .spacerHead]))).map
    (fun c => (c.text, c.style, c.width)) fun c => ⟨c.1, c.2.1, c.2.2⟩

def mark : Codec SemanticMark where
  put
    | .unknown => [0]
    | .prompt exit input =>
        1 :: ((option (byte.map UInt8.ofFin UInt8.toFin)).pair (option varint)).put (exit, input)
    | .input => [2]
    | .output => [3]
    | .promptContinuation input => 4 :: (option varint).put input
  take
    | 0 :: rest => some (.unknown, rest)
    | 1 :: rest =>
        (((option (byte.map UInt8.ofFin UInt8.toFin)).pair (option varint)).take rest).map
          fun read => (.prompt read.1.1 read.1.2, read.2)
    | 2 :: rest => some (.input, rest)
    | 3 :: rest => some (.output, rest)
    | 4 :: rest => ((option varint).take rest).map fun read => (.promptContinuation read.1, read.2)
    | _ => none

def link : Codec Hyperlink :=
  ((varint.map UInt16.toNat UInt16.ofNat).pair
    ((varint.map UInt16.toNat UInt16.ofNat).pair (text varint))).map
    (fun l => (l.col, l.len, l.uri)) fun l => ⟨l.1, l.2.1, l.2.2⟩

def wire : Codec Wire :=
  (varint.pair ((list varint cell).pair ((byte.map (fun w => if w then 1 else 0)
    (fun b => b &&& 1 == 1)).pair (mark.pair (list varint link))))).map
    (fun w => (w.cols, w.cells, w.wrapped, w.mark, w.links))
    fun w => ⟨w.1, w.2.1, w.2.2.1, w.2.2.2.1, w.2.2.2.2⟩

theorem color_reads : color.Reads fun _ => True := by
  rintro (_ | i | ⟨r, g, b⟩) _ rest <;> rfl

theorem number_reads : (varint.map UInt16.toNat UInt16.ofNat).Reads fun _ => True :=
  (varint_reads.map fun _ => UInt16.ofNat_toNat).mono fun _ _ => trivial

theorem style_reads : style.Reads fun _ => True := by
  refine ((color_reads.pair (color_reads.pair (color_reads.pair ((oneOf_reads (by decide)).pair
    number_reads)))).map fun _ => rfl).mono ?_
  have hunderline : ∀ u : Underline, u ∈ [.none, .single, .double, .curly, .dotted, .dashed] := by
    intro u
    cases u <;> decide
  exact fun s _ => ⟨trivial, trivial, trivial, hunderline s.underline, trivial⟩

theorem cell_reads : cell.Reads fun _ => True := by
  refine (((Reads.text varint_reads).pair (style_reads.pair (oneOf_reads (by decide)))).map
    fun _ => rfl).mono ?_
  have hwidth : ∀ w : CellWidth, w ∈ [.narrow, .wide, .spacerTail, .spacerHead] := by
    intro w
    cases w <;> decide
  exact fun c _ => ⟨trivial, trivial, hwidth c.width⟩

theorem mark_reads : mark.Reads fun _ => True := by
  have hexit : (option (byte.map UInt8.ofFin UInt8.toFin)).Reads fun _ => True :=
    ((byte_reads.map fun _ => rfl).option).mono fun _ _ _ _ => trivial
  have hinput : (option varint).Reads fun _ => True :=
    varint_reads.option.mono fun _ _ _ _ => trivial
  rintro (_ | ⟨exit, input⟩ | _ | _ | input) _ rest
  · rfl
  · have := (hexit.pair hinput) (exit, input) ⟨trivial, trivial⟩ rest
    simp only [mark, List.cons_append, this, Option.map_some]
  · rfl
  · rfl
  · simp only [mark, List.cons_append, hinput input trivial, Option.map_some]

theorem link_reads : link.Reads fun _ => True :=
  ((number_reads.pair (number_reads.pair (Reads.text varint_reads))).map fun _ => rfl).mono
    fun _ _ => ⟨trivial, trivial, trivial⟩

theorem wire_reads : wire.Reads fun _ => True := by
  have hflags : (byte.map (fun w : Bool => if w then (1 : UInt8) else 0)
      (fun b => b &&& 1 == 1)).Reads fun _ => True :=
    byte_reads.map fun w => by cases w <;> rfl
  refine ((varint_reads.pair ((varint_reads.list cell_reads).pair (hflags.pair (mark_reads.pair
    (varint_reads.list link_reads))))).map fun _ => rfl).mono ?_
  rintro ⟨cols, cells, wrapped, mark, links⟩ -
  exact ⟨trivial, ⟨trivial, fun _ _ => trivial⟩, trivial, trivial, trivial, fun _ _ => trivial⟩

end Postcard

/-- A line of two cells, one of them blank and left off, in a decode that has three cells left. -/
theorem lines_read_back_two :
    withCellBudget 10 (fun budget =>
        let read := Line.deserializeAll Codec.varint Postcard.wire
          [1, 2, 1, 1, 97, 0, 0, 0, 0, 0, 0, 0, 0, 0] budget
        (some read.1, read.2)) (some 3) =
      (some (.ok ([{ cells := [{ text := ['a'] }, {}] }], []), 2), some 1) := by
  have hbytes : Line.serializeAll Codec.varint Postcard.wire
      [{ cells := [{ text := ['a'] }, {}] }] ++ [] =
        [1, 2, 1, 1, 97, 0, 0, 0, 0, 0, 0, 0, 0, 0] := by decide
  have h := (@lines_read_back Codec.varint Postcard.wire Codec.varint_reads
    (Postcard.wire_reads.mono fun _ _ => trivial) [{ cells := [{ text := ['a'] }, {}] }]
    (by simp only [List.mem_singleton, forall_eq]; exact ⟨by decide, by simp [SemanticMark.inputCol]⟩)
    [] 10 (some 3)).1 (by decide)
  rw [hbytes] at h
  exact h

end Slopty.Grid
