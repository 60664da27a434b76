import Mathlib.Data.List.DropRight
import Slopty.Lib.Run
import Slopty.Predict.Row

/-!
What is drawn against the edited line: on a row of single narrow characters, with no suggestion and
no right prompt, the keys guessed edit the row as they would a plain text buffer.
-/

namespace Slopty.Predict

open Slopty.Lib
open Slopty.Grid

/-- A line of text being edited. -/
structure Buffer where
  text : Text
  cursor : Nat
  deriving DecidableEq, Repr

namespace Buffer

def insert (b : Buffer) (c : Char) : Buffer :=
  { text := b.text.take b.cursor ++ c :: b.text.drop b.cursor, cursor := b.cursor + 1 }

def deleteBefore (b : Buffer) : Buffer :=
  if b.cursor = 0 then b
  else { text := b.text.eraseIdx (b.cursor - 1), cursor := b.cursor - 1 }

def moveLeft (b : Buffer) : Buffer := { b with cursor := b.cursor - 1 }

def moveRight (b : Buffer) : Buffer :=
  if b.cursor < b.text.length then { b with cursor := b.cursor + 1 } else b

def edit (b : Buffer) : Stroke → Buffer
  | .type c => b.insert c
  | .left => b.moveLeft
  | .right => b.moveRight
  | .erase => b.deleteBefore

def press (b : Buffer) (k : Predictor.Press) : Buffer := (stroke k.key).elim b b.edit

end Buffer

/-- The character a cell reads as. -/
def glyph (cell : Cell) : Char := cell.text.headD ' '

/-- A narrow cell of one character or none, not a suggestion's. -/
structure Plain (cell : Cell) : Prop where
  narrow : cell.width = .narrow
  single : cell.text.length ≤ 1
  typed : ghost cell = false

theorem plain_blank : Plain Cell.blank := ⟨rfl, by decide, by decide⟩

theorem plain_narrow (c : Char) : Plain (Cell.narrow c {}) := by
  refine ⟨rfl, Nat.le_refl 1, ?_⟩
  simp [ghost, Cell.narrow]

theorem Plain.drawnText_eq {cell : Cell} (h : Plain cell) : drawnText cell = [glyph cell] := by
  unfold drawnText glyph
  match htext : cell.text, h.single with
  | [], _ => simp
  | [c], _ => simp

theorem Plain.blank_eq {cell : Cell} (h : Plain cell) :
    blank cell = isWhitespace (glyph cell) := by
  unfold blank glyph
  match htext : cell.text, h.single with
  | [], _ => simp [h.narrow, Text.trim]; decide
  | [c], _ =>
    cases hc : isWhitespace c <;> simp [h.narrow, Text.trim, hc]

/-- A row reads as a text with the cursor in it, up to blanks at its end. -/
def Reads (cells : List Cell) (cursor : Nat) (b : Buffer) : Prop :=
  b.cursor = cursor ∧ ∃ text gap gap' : Text,
    cells.map glyph = text ++ gap ∧ b.text = text ++ gap' ∧ cursor ≤ text.length ∧
      (∀ c ∈ gap, isWhitespace c = true) ∧ ∀ c ∈ gap', isWhitespace c = true

/-- A row where only the typed text counts: no right prompt bounds it. -/
structure Edited.Open (e : Edited) : Prop where
  limit : e.limit = e.cols
  wide : e.cells.length = e.cols
  shown : e.hidden = []
  rightEnd : e.rightEnd = e.cols
  plain : ∀ cell ∈ e.cells, Plain cell
  cursor : e.cursor < e.cols

namespace Edited

variable {e : Edited}

theorem Open.takeWhile_typed (h : e.Open) (cells : List Cell) (hsub : ∀ cell ∈ cells, cell ∈ e.cells) :
    cells.takeWhile (fun cell => !ghost cell) = cells := by
  rw [List.takeWhile_eq_self_iff]
  intro cell hcell
  rw [(h.plain cell (hsub cell hcell)).typed]
  rfl

theorem Open.textEnd_eq (h : e.Open) :
    e.textEnd = (rposition (fun cell => !blank cell) (e.cells.drop e.cursor)).elim e.cursor
      fun last => e.cursor + last + 1 := by
  have hle := Nat.le_of_lt h.cursor
  unfold textEnd
  dsimp only
  rw [h.limit, h.wide, if_pos ⟨hle, le_refl _⟩, List.take_of_length_le (le_of_eq h.wide),
    h.takeWhile_typed _ fun cell hcell => List.mem_of_mem_drop hcell]
  cases rposition (fun cell => !blank cell) (e.cells.drop e.cursor) <;> rfl

theorem Open.cursor_le_textEnd (h : e.Open) : e.cursor ≤ e.textEnd := by
  rw [h.textEnd_eq]
  cases rposition (fun cell => !blank cell) (e.cells.drop e.cursor) with
  | none => exact le_refl _
  | some last =>
    rw [Option.elim_some]
    omega

theorem Open.textEnd_le (h : e.Open) : e.textEnd ≤ e.cols := by
  have hcursor := h.cursor
  rw [h.textEnd_eq]
  cases hlast : rposition (fun cell => !blank cell) (e.cells.drop e.cursor) with
  | none => exact Nat.le_of_lt hcursor
  | some last =>
    obtain ⟨cell, hcell, -⟩ := rposition_eq_some hlast
    have hlt := (List.getElem?_eq_some_iff.mp hcell).1
    rw [List.length_drop, h.wide] at hlt
    rw [Option.elim_some]
    omega

theorem Open.blank_of_textEnd_le (h : e.Open) {i : Nat} {cell : Cell} (hi : e.textEnd ≤ i)
    (hcell : e.cells[i]? = some cell) : blank cell = true := by
  have hdrop : (e.cells.drop e.cursor)[i - e.cursor]? = some cell := by
    rw [List.getElem?_drop, Nat.add_sub_cancel' (h.cursor_le_textEnd.trans hi)]
    exact hcell
  rw [h.textEnd_eq] at hi
  cases hlast : rposition (fun cell => !blank cell) (e.cells.drop e.cursor) with
  | none => simpa using rposition_eq_none.mp hlast cell (List.mem_of_getElem? hdrop)
  | some last =>
    rw [hlast, Option.elim_some] at hi
    simpa using of_rposition_lt hlast (by omega : last < i - e.cursor) hdrop

theorem Open.not_blank_of_lt (h : e.Open) (hlt : e.cursor < e.textEnd) :
    ∃ cell, e.cells[e.textEnd - 1]? = some cell ∧ blank cell = false := by
  rw [h.textEnd_eq] at hlt ⊢
  cases hlast : rposition (fun cell => !blank cell) (e.cells.drop e.cursor) with
  | none =>
    rw [hlast] at hlt
    exact absurd hlt (lt_irrefl _)
  | some last =>
    obtain ⟨cell, hcell, hshows⟩ := rposition_eq_some hlast
    refine ⟨cell, ?_, by simpa using hshows⟩
    rwa [List.getElem?_drop] at hcell

theorem Open.reads_textEnd (h : e.Open) {b : Buffer} (hb : Reads e.cells e.cursor b) :
    (∀ c ∈ (e.cells.map glyph).drop e.textEnd, isWhitespace c = true) ∧
      ∃ gap : Text, b.text = (e.cells.map glyph).take e.textEnd ++ gap ∧
        ∀ c ∈ gap, isWhitespace c = true := by
  have hgap : ∀ c ∈ (e.cells.map glyph).drop e.textEnd, isWhitespace c = true := by
    intro c hc
    obtain ⟨i, hi⟩ := List.mem_iff_getElem?.mp hc
    rw [List.getElem?_drop, List.getElem?_map] at hi
    obtain ⟨cell, hcell, rfl⟩ := Option.map_eq_some_iff.mp hi
    rw [← (h.plain cell (List.mem_of_getElem? hcell)).blank_eq]
    exact h.blank_of_textEnd_le (Nat.le_add_right _ _) hcell
  obtain ⟨-, text, gap, gap', hcells, htext, hcursor, hwhite, hwhite'⟩ := hb
  refine ⟨hgap, ?_⟩
  -- The text is at least as long: where it ended short of it, the row would show a blank.
  have hle : e.textEnd ≤ text.length := by
    by_contra hnot
    obtain ⟨cell, hcell, hshows⟩ := h.not_blank_of_lt (by omega)
    have hglyph : (text ++ gap)[e.textEnd - 1]? = some (glyph cell) := by
      rw [← hcells, List.getElem?_map, hcell]
      rfl
    rw [List.getElem?_append_right (by omega)] at hglyph
    have := hwhite _ (List.mem_of_getElem? hglyph)
    rw [← (h.plain cell (List.mem_of_getElem? hcell)).blank_eq, hshows] at this
    exact absurd this nofun
  refine ⟨text.drop e.textEnd ++ gap', ?_, ?_⟩
  · rw [hcells, List.take_append_of_le_length hle, ← List.append_assoc, List.take_append_drop, htext]
  · intro c hc
    rcases List.mem_append.mp hc with hc | hc
    · refine hgap c ?_
      rw [hcells, List.drop_append_of_le_length hle]
      exact List.mem_append_left _ hc
    · exact hwhite' c hc

end Edited

/-- Changes of columns that follow one another, to some cells. -/
def Stretch (changes : List Change) (from' : Nat) (cells : List Cell) : Prop :=
  (∀ i c, changes[i]? = some c → c.col = from' + i) ∧ changes.map Change.cell = cells

namespace Stretch

variable {changes changes' : List Change} {from' : Nat} {cells cells' : List Cell}

theorem length_eq (h : Stretch changes from' cells) : changes.length = cells.length := by
  rw [← h.2, List.length_map]

theorem nil (from' : Nat) : Stretch [] from' [] := ⟨fun _ _ h => absurd h nofun, rfl⟩

theorem singleton (c : Change) : Stretch [c] c.col [c.cell] := by
  refine ⟨fun i d hd => ?_, rfl⟩
  obtain ⟨hi, rfl⟩ := List.getElem?_eq_some_iff.mp hd
  obtain rfl : i = 0 := by simpa using hi
  rfl

theorem append (h : Stretch changes from' cells)
    (h' : Stretch changes' (from' + cells.length) cells') :
    Stretch (changes ++ changes') from' (cells ++ cells') := by
  refine ⟨fun i c hc => ?_, by rw [List.map_append, h.2, h'.2]⟩
  by_cases hi : i < changes.length
  · rw [List.getElem?_append_left hi] at hc
    exact h.1 i c hc
  · rw [List.getElem?_append_right (not_lt.mp hi)] at hc
    rw [h'.1 _ c hc, ← h.length_eq]
    omega

theorem blanks (from' stop : Nat) :
    Stretch ((columns from' stop).map blanked) from'
      (List.replicate (stop - from') Cell.blank) := by
  constructor
  · intro i c hc
    rw [List.getElem?_map, columns, List.getElem?_map] at hc
    obtain ⟨col, hcol, rfl⟩ := Option.map_eq_some_iff.mp hc
    obtain ⟨j, hj, rfl⟩ := Option.map_eq_some_iff.mp hcol
    obtain ⟨hlt, rfl⟩ := List.getElem?_eq_some_iff.mp hj
    simp [blanked]
  · rw [List.map_map, columns, List.map_map]
    simp [List.eq_replicate_iff, blanked]

theorem paint_eq (h : Stretch changes from' cells') (hfits : from' + cells'.length ≤ cells.length) :
    paint Change.col Change.cell cells changes =
      cells.take from' ++ cells' ++ cells.drop (from' + cells'.length) := by
  rw [← h.length_eq] at hfits ⊢
  rw [paint_stretch h.1 hfits, h.2]

theorem mem (h : Stretch changes from' cells) {c : Change} (hc : c ∈ changes) :
    ∃ i, cells[i]? = some c.cell ∧ c.col = from' + i := by
  obtain ⟨i, hi⟩ := List.mem_iff_getElem?.mp hc
  refine ⟨i, ?_, h.1 i c hi⟩
  rw [← h.2, List.getElem?_map, hi]
  rfl

end Stretch

namespace Edited

variable {e : Edited}

theorem stretch_of_moved {from' stop at' : Nat} {changes : List Change}
    (h : e.moved from' stop at' = some changes) :
    Stretch changes at' ((e.cells.take stop).drop from') := by
  unfold moved at h
  split at h
  · dsimp only at h
    split at h
    · obtain rfl := Option.some.inj h
      constructor
      · intro i c hc
        rw [List.getElem?_map, List.getElem?_zipIdx, Option.map_map] at hc
        obtain ⟨cell, -, rfl⟩ := Option.map_eq_some_iff.mp hc
        simp [moveTo]
      · rw [List.map_map]
        exact List.zipIdx_map_fst 0 _
    · exact absurd h nofun
  · exact absurd h nofun

theorem Open.clearSuggestion_eq (h : e.Open) (from' : Nat) : e.clearSuggestion from' = [] := by
  have hnone : ((e.cells.take e.cols).drop from').takeWhile ghost = [] := by
    rw [List.takeWhile_eq_nil_iff]
    intro hpos hghost
    have hmem : ((e.cells.take e.cols).drop from')[0] ∈ e.cells :=
      List.mem_of_mem_take (List.mem_of_mem_drop (List.getElem_mem hpos))
    exact absurd ((h.plain _ hmem).typed.symm.trans hghost) nofun
  rw [clearSuggestion, hnone]
  rfl

/-- What a stroke at the cursor leaves: the cursor and the cells it changes stay in bounds, and the
row reads as the edited text. -/
structure Edits (e : Edited) (lo : Nat) (b : Buffer) (cursor : Nat) (changes : List Change) :
    Prop where
  cursor_lt : cursor < e.cols
  lo_le : lo ≤ cursor
  within : ∀ c ∈ changes, lo ≤ c.col ∧ c.col < e.cols ∧ (c.col + 1 = e.cols → blank c.cell = true)
  plain : ∀ cell ∈ paint Change.col Change.cell e.cells changes, Plain cell
  reads : Reads (paint Change.col Change.cell e.cells changes) cursor b

/-- A character typed: the text from the cursor on moves one right. -/
theorem Open.stretch_of_typeChar (h : e.Open) {ch : Char} {r : Nat × Bool × List Change}
    (hr : e.typeChar ch = some r) :
    r.1 = e.cursor + 1 ∧ e.textEnd + 1 < e.cols ∧
      Stretch r.2.2 e.cursor
        (Cell.narrow ch {} :: (e.cells.take e.textEnd).drop e.cursor) := by
  have hcursor := h.cursor_le_textEnd
  unfold typeChar at hr
  dsimp only at hr
  split at hr
  · exact absurd hr nofun
  rename_i hroom
  split at hr
  · exact absurd hr nofun
  rename_i under hunder
  split at hr
  · exact absurd hr nofun
  obtain ⟨rest, hrest, rfl⟩ := Option.map_eq_some_iff.mp hr
  have hhides : (if e.limit ≤ max e.textEnd e.cursor + 1 then
      (columns e.limit e.rightEnd).map blanked else []) = [] := by
    rw [h.limit, h.rightEnd]
    simp [columns]
  rw [hhides, List.append_nil]
  split at hrest
  · split at hrest
    · exact absurd hrest nofun
    rename_i hroom'
    refine ⟨rfl, not_le.mp fun hle => hroom' (.inr hle), ?_⟩
    exact (Stretch.singleton _).append (stretch_of_moved hrest)
  · rename_i hend
    have hend : e.textEnd = e.cursor := le_antisymm (not_lt.mp hend) hcursor
    have hnil : rest = [] := by
      split at hrest
      · rw [h.clearSuggestion_eq] at hrest
        exact (Option.some.inj hrest).symm
      · exact (Option.some.inj hrest).symm
    have hnone : (e.cells.take e.textEnd).drop e.cursor = [] := by
      rw [List.drop_eq_nil_iff, List.length_take, hend]
      exact Nat.min_le_left _ _
    rw [hnil, hnone]
    exact ⟨rfl, by omega, Stretch.singleton _⟩

/-- The character before the cursor erased: the text from the cursor on moves one left. -/
theorem Open.stretch_of_erase (h : e.Open) {modes : TermModes} {floor : Option (Nat × Nat)}
    {r : Nat × Bool × List Change} (hr : e.erase modes floor = some r) :
    e.cursor = r.1 + 1 ∧
      (∃ start, (e.editing modes).or ((floor.filter fun f => decide (f.1 = e.row)).map Prod.snd) =
        some start ∧ start ≤ r.1) ∧
      Stretch r.2.2 r.1 ((e.cells.take e.textEnd).drop e.cursor ++ [Cell.blank]) := by
  have hcursor := h.cursor_le_textEnd
  have hend := h.textEnd_le
  unfold erase at hr
  dsimp only at hr
  split at hr
  · exact absurd hr nofun
  rename_i start hstart
  split at hr
  · exact absurd hr nofun
  rename_i hpos
  have hlt : e.cursor - 1 < e.cells.length := by
    have := h.cursor
    rw [h.wide]
    omega
  have hnarrow : (e.cell (e.cursor - 1)).map Cell.width = some .narrow := by
    rw [cell, List.getElem?_eq_getElem hlt, Option.map_some,
      (h.plain _ (List.getElem_mem hlt)).narrow]
  rw [hnarrow] at hr
  dsimp only at hr
  split at hr
  · rename_i hstep
    rw [if_neg (by simp)] at hr
    have hlast : e.textEnd - (e.textEnd - 1) = 1 := by omega
    split at hr
    · split at hr
      · exact absurd hr nofun
      obtain ⟨changes, hmoved, rfl⟩ := Option.map_eq_some_iff.mp hr
      refine ⟨by dsimp only; omega, ⟨start, hstart, hstep.2.2⟩, ?_⟩
      refine (stretch_of_moved hmoved).append ?_
      have hblanks := Stretch.blanks (e.textEnd - 1) e.textEnd
      rw [hlast] at hblanks
      have hlen : e.cursor - 1 + ((e.cells.take e.textEnd).drop e.cursor).length = e.textEnd - 1 := by
        rw [List.length_drop, List.length_take, h.wide]
        omega
      rw [hlen]
      exact hblanks
    · rename_i hnot
      have heq : e.textEnd = e.cursor := by omega
      obtain rfl := Option.some.inj hr
      refine ⟨by dsimp only; omega, ⟨start, hstart, hstep.2.2⟩, ?_⟩
      have hnone : (e.cells.take e.textEnd).drop e.cursor = [] := by
        rw [List.drop_eq_nil_iff, List.length_take, heq]
        exact Nat.min_le_left _ _
      have hblanks := Stretch.blanks (e.cursor - 1) e.cursor
      rw [← heq, hlast] at hblanks
      rw [h.clearSuggestion_eq, List.append_nil, hnone, ← heq]
      exact hblanks
  · exact absurd hr nofun

theorem Open.length_text (h : e.Open) : ((e.cells.map glyph).take e.textEnd).length = e.textEnd := by
  rw [List.length_take, List.length_map, h.wide]
  exact Nat.min_eq_left h.textEnd_le

theorem Open.plain_paint (h : e.Open) {changes : List Change} {from' : Nat} {cells : List Cell}
    (hs : Stretch changes from' cells) (hfits : from' + cells.length ≤ e.cells.length)
    (hcells : ∀ cell ∈ cells, Plain cell) :
    ∀ cell ∈ paint Change.col Change.cell e.cells changes, Plain cell := by
  intro cell hcell
  rw [hs.paint_eq hfits, List.mem_append, List.mem_append] at hcell
  rcases hcell with (hcell | hcell) | hcell
  · exact h.plain cell (List.mem_of_mem_take hcell)
  · exact hcells cell hcell
  · exact h.plain cell (List.mem_of_mem_drop hcell)

theorem Open.mem_of_mem_text (h : e.Open) {cell : Cell}
    (hcell : cell ∈ (e.cells.take e.textEnd).drop e.cursor) : Plain cell :=
  h.plain cell (List.mem_of_mem_take (List.mem_of_mem_drop hcell))

theorem Open.edits_of_typeChar (h : e.Open) {b : Buffer} (hb : Reads e.cells e.cursor b) {lo : Nat}
    (hlo : lo ≤ e.cursor) {ch : Char} {r : Nat × Bool × List Change}
    (hr : e.typeChar ch = some r) : Edits e lo (b.insert ch) r.1 r.2.2 := by
  obtain ⟨hcursor, hroom, hs⟩ := h.stretch_of_typeChar hr
  have hle := h.cursor_le_textEnd
  have hlen : (Cell.narrow ch {} :: (e.cells.take e.textEnd).drop e.cursor).length =
      e.textEnd - e.cursor + 1 := by
    rw [List.length_cons, List.length_drop, List.length_take, h.wide, Nat.min_eq_left h.textEnd_le]
  have hfits : e.cursor + (Cell.narrow ch {} :: (e.cells.take e.textEnd).drop e.cursor).length ≤
      e.cells.length := by
    rw [hlen, h.wide]
    omega
  refine ⟨by omega, by omega, ?_, h.plain_paint hs hfits ?_, ?_⟩
  · intro c hc
    obtain ⟨i, hi, hcol⟩ := hs.mem hc
    have hlt := (List.getElem?_eq_some_iff.mp hi).1
    rw [hlen] at hlt
    exact ⟨by omega, by omega, fun heq => absurd heq (by omega)⟩
  · intro cell hcell
    rcases List.mem_cons.mp hcell with rfl | hcell
    · exact plain_narrow ch
    · exact h.mem_of_mem_text hcell
  · obtain ⟨hgap, gap, htext, hgap'⟩ := h.reads_textEnd hb
    have hin : e.cursor ≤ ((e.cells.map glyph).take e.textEnd).length := by rwa [h.length_text]
    refine ⟨by rw [Buffer.insert, hb.1, hcursor],
      ((e.cells.map glyph).take e.textEnd).take e.cursor ++
        ch :: ((e.cells.map glyph).take e.textEnd).drop e.cursor,
      (e.cells.map glyph).drop (e.textEnd + 1), gap, ?_, ?_, ?_, ?_, hgap'⟩
    · rw [hs.paint_eq hfits, hlen, show e.cursor + (e.textEnd - e.cursor + 1) = e.textEnd + 1 by omega,
        List.take_take, Nat.min_eq_left hle]
      simp [glyph, Cell.narrow]
    · rw [Buffer.insert, htext, hb.1, List.take_append_of_le_length hin,
        List.drop_append_of_le_length hin]
      simp
    · rw [List.length_append, List.length_cons, List.length_take, List.length_drop, h.length_text,
        hcursor]
      omega
    · intro c hc
      refine hgap c ?_
      rw [Nat.add_comm, ← List.drop_drop] at hc
      exact List.mem_of_mem_drop (by rwa [List.drop_drop, Nat.add_comm, ← List.drop_drop] at hc)

theorem Open.edits_of_erase (h : e.Open) {b : Buffer} (hb : Reads e.cells e.cursor b) {lo : Nat}
    {modes : TermModes} {floor : Option (Nat × Nat)}
    (hlo : ∀ start, (e.editing modes).or
      ((floor.filter fun f => decide (f.1 = e.row)).map Prod.snd) = some start → lo ≤ start)
    {r : Nat × Bool × List Change} (hr : e.erase modes floor = some r) :
    Edits e lo b.deleteBefore r.1 r.2.2 := by
  obtain ⟨hcursor, ⟨start, hstart, hstart_le⟩, hs⟩ := h.stretch_of_erase hr
  have hlo' := (hlo start hstart).trans hstart_le
  have hle := h.cursor_le_textEnd
  have hend := h.textEnd_le
  have hlen : ((e.cells.take e.textEnd).drop e.cursor ++ [Cell.blank]).length =
      e.textEnd - e.cursor + 1 := by
    rw [List.length_append, List.length_drop, List.length_take, h.wide, Nat.min_eq_left hend]
    rfl
  have hfits : r.1 + ((e.cells.take e.textEnd).drop e.cursor ++ [Cell.blank]).length ≤
      e.cells.length := by
    rw [hlen, h.wide]
    omega
  refine ⟨by omega, hlo', ?_, h.plain_paint hs hfits ?_, ?_⟩
  · intro c hc
    obtain ⟨i, hi, hcol⟩ := hs.mem hc
    have hlt := (List.getElem?_eq_some_iff.mp hi).1
    rw [hlen] at hlt
    refine ⟨by omega, by omega, fun heq => ?_⟩
    -- Only the place the text's last cell left can be the last column's.
    have hcells : ((e.cells.take e.textEnd).drop e.cursor).length ≤ i := by
      rw [List.length_drop, List.length_take, h.wide, Nat.min_eq_left hend]
      omega
    rw [List.getElem?_append_right hcells] at hi
    rw [List.mem_singleton.mp (List.mem_of_getElem? hi)]
    decide
  · intro cell hcell
    rcases List.mem_append.mp hcell with hcell | hcell
    · exact h.mem_of_mem_text hcell
    · obtain rfl := List.mem_singleton.mp hcell
      exact plain_blank
  · obtain ⟨hgap, gap, htext, hgap'⟩ := h.reads_textEnd hb
    have hin : r.1 < ((e.cells.map glyph).take e.textEnd).length := by
      rw [h.length_text]
      omega
    have hdelete : b.deleteBefore =
        { text := ((e.cells.map glyph).take e.textEnd).eraseIdx r.1 ++ gap, cursor := r.1 } := by
      rw [Buffer.deleteBefore, hb.1, if_neg (by omega), htext,
        show e.cursor - 1 = r.1 by omega, List.eraseIdx_append_of_lt_length hin]
    rw [hdelete]
    refine ⟨rfl, ((e.cells.map glyph).take e.textEnd).eraseIdx r.1,
      ' ' :: (e.cells.map glyph).drop e.textEnd, gap, ?_, rfl, ?_, ?_, hgap'⟩
    · rw [hs.paint_eq hfits, hlen, show r.1 + (e.textEnd - e.cursor + 1) = e.textEnd by omega,
        List.eraseIdx_eq_take_drop_succ, List.take_take, Nat.min_eq_left (by omega), ← hcursor]
      simp [glyph, Cell.blank]
    · rw [List.length_eraseIdx_of_lt hin, h.length_text]
      omega
    · intro c hc
      rcases List.mem_cons.mp hc with rfl | hc
      · decide
      · exact hgap c hc

theorem Open.edits_of_moveLeft (h : e.Open) {b : Buffer} (hb : Reads e.cells e.cursor b) {lo : Nat}
    {modes : TermModes} (hlo : ∀ start, e.editing modes = some start → lo ≤ start)
    {r : Nat × Bool × List Change} (hr : e.moveLeft modes = some r) :
    Edits e lo b.moveLeft r.1 r.2.2 := by
  unfold moveLeft at hr
  dsimp only at hr
  split at hr
  · exact absurd hr nofun
  rename_i start hstart
  split at hr
  · exact absurd hr nofun
  split at hr
  · exact absurd hr nofun
  rename_i before hbefore
  have hnarrow := (h.plain before (List.mem_of_getElem? hbefore)).narrow
  simp only [hnarrow, reduceCtorEq, if_false] at hr
  split at hr
  · rename_i hstep
    split at hr
    · split at hr
      · obtain rfl := Option.some.inj hr
        have hcursor := h.cursor
        have hstart_le := hlo start hstart
        refine ⟨by dsimp only; omega, by dsimp only; omega, by simp, h.plain, ?_⟩
        obtain ⟨hat, text, gap, gap', hcells, htext, hin, hgap, hgap'⟩ := hb
        exact ⟨by rw [Buffer.moveLeft, hat], text, gap, gap', hcells, htext,
          (Nat.sub_le _ _).trans hin, hgap, hgap'⟩
      · exact absurd hr nofun
    · exact absurd hr nofun
  · exact absurd hr nofun

theorem Open.edits_of_moveRight (h : e.Open) {b : Buffer} (hb : Reads e.cells e.cursor b) {lo : Nat}
    {modes : TermModes} (hlo : lo ≤ e.cursor) {r : Nat × Bool × List Change}
    (hr : e.moveRight modes = some r) : Edits e lo b.moveRight r.1 r.2.2 := by
  unfold moveRight at hr
  dsimp only at hr
  split at hr
  · exact absurd hr nofun
  split at hr
  · exact absurd hr nofun
  rename_i hbefore
  have hlt : e.cursor < e.cells.length := h.wide ▸ h.cursor
  have hnarrow : (e.cell e.cursor).map Cell.width = some .narrow := by
    rw [cell, List.getElem?_eq_getElem hlt, Option.map_some,
      (h.plain _ (List.getElem_mem hlt)).narrow]
  rw [hnarrow] at hr
  dsimp only at hr
  split at hr
  · rename_i hroom
    obtain rfl := Option.some.inj hr
    obtain ⟨hgap, gap, htext, hgap'⟩ := h.reads_textEnd hb
    have hin : e.cursor < b.text.length := by
      rw [htext, List.length_append, h.length_text]
      omega
    refine ⟨hroom.2, by dsimp only; omega, by simp, h.plain, ?_⟩
    rw [Buffer.moveRight, hb.1, if_pos hin]
    refine ⟨rfl, (e.cells.map glyph).take e.textEnd, (e.cells.map glyph).drop e.textEnd, gap,
      (List.take_append_drop _ _).symm, htext, ?_, hgap, hgap'⟩
    rw [h.length_text]
    exact not_le.mp hbefore
  · exact absurd hr nofun

theorem Open.edits_of_apply (h : e.Open) {b : Buffer} (hb : Reads e.cells e.cursor b) {lo : Nat}
    (hlo : lo ≤ e.cursor) (hinput : ∀ start, e.input = some start → lo ≤ start)
    {floor : Option (Nat × Nat)} (hfloor : ∀ f, floor = some f → f.1 = e.row → lo ≤ f.2) {s : Stroke}
    {seq : Nat} {at' : Instant} {modes : TermModes} {g : Guess}
    (hg : e.apply s seq at' modes floor = some g) : Edits e lo (b.edit s) g.cursor g.changes := by
  have hediting : ∀ start, e.editing modes = some start → lo ≤ start := by
    intro start hstart
    unfold editing at hstart
    split at hstart
    · exact absurd hstart nofun
    · exact hinput start (Option.eq_some_of_filter_eq_some hstart)
  unfold apply at hg
  obtain ⟨r, hr, rfl⟩ := Option.map_eq_some_iff.mp hg
  change Edits e lo (b.edit s) r.1 (e.hidden.map blanked ++ r.2.2)
  rw [h.shown, List.map_nil, List.nil_append]
  cases s with
  | type ch => exact h.edits_of_typeChar hb hlo hr
  | left => exact h.edits_of_moveLeft hb hediting hr
  | right => exact h.edits_of_moveRight hb hlo hr
  | erase =>
    refine h.edits_of_erase hb (fun start hstart => ?_) hr
    rcases Option.or_eq_some_iff.mp hstart with hstart | ⟨-, hstart⟩
    · exact hediting start hstart
    · obtain ⟨f, hf, rfl⟩ := Option.map_eq_some_iff.mp hstart
      have hrow : f.1 = e.row := by simpa using (Option.filter_eq_some_iff.mp hf).2
      exact hfloor f (Option.filter_eq_some_iff.mp hf).1 hrow

end Edited

/-- A row of plain cells with an input mark, whole on a screen, and no right prompt on it. -/
structure PlainRow (line : Line) (start cols : Nat) : Prop where
  mark : line.mark.inputCol = some start
  plain : ∀ cell ∈ line.cells, Plain cell
  noPrompt : rightPrompt line.cells start cols = none

namespace Predictor

/-- The row with the predictions drawn on it. -/
def overlaid (p : Predictor) (line : Line) : Text :=
  (paint Prediction.col Prediction.text (line.cells.map drawnText) p.drawn).flatten

section Overlay

variable {cursor : Cursor} {line : Line} {below : Bool} {start cols lo : Nat} {p : Predictor}
  {b : Buffer}

/-- The keys in flight edit the row as the text was edited, within bounds. -/
structure Follows (cursor : Cursor) (line : Line) (below : Bool) (cols lo : Nat) (p : Predictor)
    (b : Buffer) : Prop where
  base : p.base = some ⟨cursor.row, line, below⟩
  unseen : (p.right.bind fun seen => seen.on cursor.row line.cells) = none
  row : p.guesses = [] ∨ p.row = cursor.row
  drawn : p.drawn = p.redraw.drawn
  plain : ∀ cell ∈ p.changes.foldl putChange line.cells, Plain cell
  reads : Reads (p.changes.foldl putChange line.cells) (p.cursor cursor).col b
  cursor_lt : (p.cursor cursor).col < cols
  lo_le : lo ≤ (p.cursor cursor).col
  floor : ∀ f, p.floor = some f → f.1 = cursor.row → lo ≤ f.2
  within : ∀ g ∈ p.guesses, (lo ≤ g.cursor ∧ g.cursor < cols) ∧
    ∀ c ∈ g.changes, lo ≤ c.col ∧ c.col < cols ∧ (c.col + 1 = cols → blank c.cell = true)

theorem cursor_row (p : Predictor) (cursor : Cursor) : (p.cursor cursor).row = cursor.row := by
  unfold Predictor.cursor
  split
  · split <;> rfl
  · rfl

theorem lastText_length {cells : List Cell} {from' : Nat} (h : cells.length ≤ from') :
    lastText cells from' = from' := by
  rw [lastText, List.drop_eq_nil_iff.mpr h]
  rfl

theorem Follows.line_eq (h : Follows cursor line below cols lo p b)
    (hwide : line.cells.length = cols) (hrow : PlainRow line start cols) :
    p.line cursor cols =
      { row := cursor.row, cursor := (p.cursor cursor).col, cols := cols, limit := cols
        rightEnd := cols, hidden := [], cells := p.changes.foldl putChange line.cells
        base := some line, input := some start, wrappedBelow := below } := by
  have hlast : p.guesses.getLast?.elim (cursor.row, cursor.col) (fun g => (p.row, g.cursor)) =
      (cursor.row, (p.cursor cursor).col) := by
    unfold Predictor.cursor
    cases hlast : p.guesses.getLast? with
    | none => rfl
    | some g =>
      have hsame : p.row = cursor.row := by
        rcases h.row with hnil | hsame
        · rw [hnil] at hlast
          exact absurd hlast nofun
        · exact hsame
      simp [hsame]
  have hlength : (p.changes.foldl putChange line.cells).length ≤ cols := by
    rw [foldl_putChange, paint_length, hwide]
  unfold Predictor.line
  rw [hlast, h.base]
  simp only [Option.filter_some, decide_true, if_true, Option.elim_some, Option.bind_some,
    Option.getD_some, hrow.mark, h.unseen, hrow.noPrompt, hwide, Nat.sub_self, List.replicate_zero,
    List.append_nil, List.take_of_length_le (le_of_eq hwide), Option.none_or, Option.map_none,
    Option.filter_none, Option.any_none, Bool.false_eq_true, if_false, Option.elim_none,
    List.foldl_nil, Option.map_some, Option.any_some, lastText_length hlength]

theorem Follows.isOpen (h : Follows cursor line below cols lo p b)
    (hwide : line.cells.length = cols) (hrow : PlainRow line start cols) :
    (p.line cursor cols).Open := by
  rw [h.line_eq hwide hrow]
  refine ⟨rfl, ?_, rfl, rfl, h.plain, h.cursor_lt⟩
  rw [foldl_putChange, paint_length, hwide]

theorem changes_take (p : Predictor) (e : Edited) (s : Stroke) (g : Guess) :
    (p.take e s g).changes = p.changes ++ g.changes := by
  rw [changes, take_guesses, List.flatMap_append, List.flatMap_singleton]
  rfl

theorem cursor_take (p : Predictor) (cursor : Cursor) {e : Edited} (s : Stroke) (g : Guess)
    (hrow : e.row = cursor.row) (hprow : p.guesses = [] ∨ p.row = cursor.row) :
    (p.take e s g).row = cursor.row ∧ ((p.take e s g).cursor cursor).col = g.cursor := by
  have hsame : (p.take e s g).row = cursor.row := by
    rw [take_row]
    split
    · exact hrow
    · rename_i hne
      exact hprow.resolve_left hne
  refine ⟨hsame, ?_⟩
  unfold Predictor.cursor
  rw [take_guesses, List.getLast?_concat]
  simp [hsame]

theorem floor_take (p : Predictor) {e : Edited} (s : Stroke) (g : Guess) (hlo : lo ≤ e.cursor)
    (hfloor : ∀ f, p.floor = some f → f.1 = cursor.row → lo ≤ f.2) {f : Nat × Nat}
    (hf : (p.take e s g).floor = some f) (hrow : f.1 = cursor.row) : lo ≤ f.2 := by
  have hkept : (if p.guesses = [] then
      { p with row := e.row, originCursor := e.cursor, origin := [] } else p).floor = p.floor := by
    split <;> rfl
  unfold take redraw at hf
  dsimp only at hf
  rw [hkept] at hf
  cases s with
  | type ch =>
    simp only [if_true] at hf
    obtain rfl := Option.some.inj hf
    cases hold : p.floor with
    | none =>
      rw [hold] at hrow
      exact hlo
    | some old =>
      rw [hold] at hrow
      dsimp only at hrow ⊢
      by_cases hsame : old.1 = e.row
      · rw [if_pos hsame] at hrow ⊢
        exact le_min (hfloor old hold hrow) hlo
      · rw [if_neg hsame] at hrow ⊢
        exact hlo
  | left => exact hfloor f hf hrow
  | right => exact hfloor f hf hrow
  | erase => exact hfloor f hf hrow

theorem Follows.press (h : Follows cursor line below cols lo p b) (hwide : line.cells.length = cols)
    (hrow : PlainRow line start cols) (hlo : lo ≤ start) {k : Press}
    (hk : Guessed cursor cols p k) :
    Follows cursor line below cols lo (p.press cursor cols k) (b.press k) := by
  obtain ⟨s, g, hs, hg, hpress⟩ := hk.eq_take
  have hline := h.line_eq hwide hrow
  have hedits : Edited.Edits (p.line cursor cols) lo (b.edit s) g.cursor g.changes := by
    refine (h.isOpen hwide hrow).edits_of_apply ?_ ?_ ?_ ?_ hg
    · rw [hline]
      exact h.reads
    · rw [hline]
      exact h.lo_le
    · rw [hline]
      intro from' hfrom
      obtain rfl := Option.some.inj hfrom
      exact hlo
    · rw [hline]
      exact h.floor
  have hcells : (p.changes ++ g.changes).foldl putChange line.cells =
      paint Change.col Change.cell (p.line cursor cols).cells g.changes := by
    rw [List.foldl_append, hline]
    rfl
  obtain ⟨hsame, hcursor⟩ := cursor_take
    { p with sent := max p.sent k.key.seq, interrupted := false } cursor s g
    (show (p.line cursor cols).row = cursor.row by rw [hline]) h.row
  have hcols : (p.line cursor cols).cols = cols := by rw [hline]
  have hb : b.press k = b.edit s := by rw [Buffer.press, hs, Option.elim_some]
  rw [hpress, hb]
  refine ⟨?_, ?_, .inr hsame, take_drawn _ _ _ _, ?_, ?_, ?_, ?_, ?_, ?_⟩
  · rw [take_base]
    exact h.base
  · rw [take_right]
    exact h.unseen
  · rw [changes_take]
    exact hcells ▸ hedits.plain
  · rw [changes_take, hcursor]
    exact hcells ▸ hedits.reads
  · rw [hcursor]
    exact hcols ▸ hedits.cursor_lt
  · rw [hcursor]
    exact hedits.lo_le
  · intro f hf hfrow
    refine floor_take { p with sent := max p.sent k.key.seq, interrupted := false } s g ?_ h.floor hf
      hfrow
    rw [hline]
    exact h.lo_le
  · intro g' hg'
    rw [take_guesses, List.mem_append, List.mem_singleton] at hg'
    rcases hg' with hg' | rfl
    · exact h.within g' hg'
    · exact ⟨⟨hedits.lo_le, hcols ▸ hedits.cursor_lt⟩, fun c hc => hcols ▸ hedits.within c hc⟩

theorem Follows.presses (h : Follows cursor line below cols lo p b)
    (hwide : line.cells.length = cols) (hrow : PlainRow line start cols) (hlo : lo ≤ start)
    {keys : List Press}
    (hkeys : EachStep (Predictor.press cursor cols) (Guessed cursor cols) p keys) :
    Follows cursor line below cols lo (keys.foldl (Predictor.press cursor cols) p)
      (keys.foldl Buffer.press b) := by
  induction keys generalizing p b with
  | nil => exact h
  | cons k keys ih => exact ih (h.press hwide hrow hlo hkeys.1) hkeys.2

/-- What a frame shows to a predictor with no key in flight, before the first is guessed. -/
theorem follows_of_idle {q : Predictor} {screen : Screen} (inputAck epoch : Nat) (now : Instant)
    (hidle : q.guesses = []) (hline : screen.line screen.cursor.row = some line)
    (hrow : PlainRow line start screen.cols)
    (hseen : (q.right.bind fun seen => seen.on screen.cursor.row line.cells) = none)
    (hcursor : screen.cursor.col < screen.cols) (hlo : lo ≤ screen.cursor.col)
    (hfloor : ∀ f, q.floor = some f → f.1 = screen.cursor.row → lo ≤ f.2) :
    Follows screen.cursor line ((screen.line (screen.cursor.row + 1)).any Line.wrapped) screen.cols
      lo (q.onFrame screen inputAck epoch now).1
      { text := line.cells.map glyph, cursor := screen.cursor.col } := by
  have hbase : q.shownBase screen = some
      ⟨screen.cursor.row, line, (screen.line (screen.cursor.row + 1)).any Line.wrapped⟩ := by
    rw [shownBase, if_pos hidle, hline]
    rfl
  obtain ⟨hguesses, hdrawn, hshown, hright, -, hkept⟩ :=
    q.onFrame_of_idle screen inputAck hidle epoch now
  have hchanges : (q.onFrame screen inputAck epoch now).1.changes = [] := by
    rw [changes, hguesses]
    rfl
  have hat : (q.onFrame screen inputAck epoch now).1.cursor screen.cursor = screen.cursor := by
    rw [Predictor.cursor, hguesses]
    rfl
  refine ⟨hshown.trans hbase, ?_, .inl hguesses, ?_, ?_, ?_, ?_, ?_, ?_, ?_⟩
  · rw [hright]
    exact q.see_right screen inputAck hbase hrow.mark hrow.noPrompt hseen
  · rw [hdrawn, redraw, hguesses]
    rfl
  · rw [hchanges]
    exact hrow.plain
  · rw [hchanges, hat]
    refine ⟨rfl, line.cells.map glyph, [], [], (List.append_nil _).symm, (List.append_nil _).symm,
      ?_, by simp, by simp⟩
    rw [List.length_map, screen.sized line (List.mem_of_getElem? hline)]
    exact Nat.le_of_lt hcursor
  · rw [hat]
    exact hcursor
  · rw [hat]
    exact hlo
  · exact fun f hf => hfloor f (hkept f hf)
  · rw [hguesses]
    exact fun g hg => absurd hg List.not_mem_nil

/-- Blanks at its end aside, a text does not see what blanks follow it. -/
theorem rdropWhile_append_blanks (text : Text) {gap : Text}
    (hgap : ∀ c ∈ gap, isWhitespace c = true) :
    (text ++ gap).rdropWhile isWhitespace = text.rdropWhile isWhitespace := by
  induction gap using List.reverseRecOn with
  | nil => rw [List.append_nil]
  | append_singleton gap c ih =>
    rw [← List.append_assoc, List.rdropWhile_concat_pos _ _ _ (hgap c (by simp))]
    exact ih fun c hc => hgap c (List.mem_append_left _ hc)

theorem Follows.overlaid_eq (h : Follows cursor line below cols lo p b) :
    (p.overlaid line).rdropWhile isWhitespace = b.text.rdropWhile isWhitespace := by
  have hdrawn : p.overlaid line = (p.changes.foldl putChange line.cells).map glyph := by
    rw [overlaid, h.drawn, paint_redraw, List.map_congr_left fun cell hcell =>
      (h.plain cell hcell).drawnText_eq]
    generalize p.changes.foldl putChange line.cells = cells
    induction cells with
    | nil => rfl
    | cons cell cells ih => simp [ih]
  obtain ⟨-, text, gap, gap', hcells, htext, -, hgap, hgap'⟩ := h.reads
  rw [hdrawn, hcells, htext, rdropWhile_append_blanks text hgap, rdropWhile_append_blanks text hgap']

/-- On a plain row whatever keys are guessed, what is drawn is the edited text, up to blanks at its
end, and the cursor where editing leaves it. No guess leaves the row, none draws in the last column,
and none is left of the input's start where the cursor and what was typed were not. -/
theorem overlay_is_edited_line {q : Predictor} {screen : Screen} {line : Line}
    {start inputAck epoch : Nat} {now : Instant} {keys : List Press}
    (hidle : q.guesses = []) (hline : screen.line screen.cursor.row = some line)
    (hrow : PlainRow line start screen.cols)
    (hseen : (q.right.bind fun seen => seen.on screen.cursor.row line.cells) = none)
    (hcursor : screen.cursor.col < screen.cols)
    (hkeys : EachStep (Predictor.press screen.cursor screen.cols)
      (Guessed screen.cursor screen.cols) (q.onFrame screen inputAck epoch now).1 keys) :
    let p := keys.foldl (Predictor.press screen.cursor screen.cols)
      (q.onFrame screen inputAck epoch now).1
    let b := keys.foldl Buffer.press
      { text := line.cells.map glyph, cursor := screen.cursor.col }
    (p.overlaid line).rdropWhile isWhitespace = b.text.rdropWhile isWhitespace ∧
      (p.cursor screen.cursor).col = b.cursor ∧
      (∀ g ∈ p.guesses, g.cursor < screen.cols ∧
        ∀ c ∈ g.changes, c.col < screen.cols ∧ (c.col + 1 = screen.cols → blank c.cell = true)) ∧
      (start ≤ screen.cursor.col →
        (∀ f, q.floor = some f → f.1 = screen.cursor.row → start ≤ f.2) →
        ∀ g ∈ p.guesses, start ≤ g.cursor ∧ ∀ c ∈ g.changes, start ≤ c.col) := by
  have hwide := screen.sized line (List.mem_of_getElem? hline)
  have hzero := (follows_of_idle inputAck epoch now hidle hline hrow hseen hcursor (Nat.zero_le _)
    fun _ _ _ => Nat.zero_le _).presses hwide hrow (Nat.zero_le _) hkeys
  refine ⟨hzero.overlaid_eq, hzero.reads.1.symm, ?_, ?_⟩
  · intro g hg
    exact ⟨(hzero.within g hg).1.2, fun c hc => ((hzero.within g hg).2 c hc).2⟩
  · intro hstart hfloor g hg
    have hafter := (follows_of_idle inputAck epoch now hidle hline hrow hseen hcursor hstart
      hfloor).presses hwide hrow (le_refl _) hkeys
    exact ⟨(hafter.within g hg).1.1, fun c hc => ((hafter.within g hg).2 c hc).1⟩

end Overlay

section Prompt

/-- A prompt of two columns on a row of six, the input empty. -/
def promptLine : Line :=
  { cells := [Cell.narrow '$' {}, Cell.narrow ' ' {}] ++ List.replicate 4 Cell.blank
    mark := .prompt none (some 2) }

def promptScreen (col : Nat) : Screen :=
  { cols := 6, lines := [promptLine], cursor := { row := 0, col := col }, sized := by decide }

def typed (seq : Nat) (c : Char) : Press :=
  { key := { seq := seq, text := some [c] }, modes := {}, now := 0 }

def arrow (seq : Nat) (code : KeyCode) : Press :=
  { key := { seq := seq, code := code }, modes := {}, now := 0 }

theorem promptLine_plain : PlainRow promptLine 2 6 := by
  refine ⟨rfl, ?_, by decide⟩
  intro cell hcell
  simp only [promptLine, List.mem_append, List.mem_cons, List.not_mem_nil, or_false,
    List.mem_replicate] at hcell
  rcases hcell with (rfl | rfl) | ⟨-, rfl⟩
  · exact plain_narrow '$'
  · exact plain_narrow ' '
  · exact plain_blank

/-- Two characters, the cursor between them, one more there, and one erased. -/
theorem overlay_is_edited_line_prompt :
    let keys := [typed 1 'a', typed 2 'b', arrow 3 .arrowLeft, typed 4 'c', arrow 5 .backspace]
    let p := keys.foldl (Predictor.press (promptScreen 2).cursor 6)
      ((new .always).onFrame (promptScreen 2) 0 0 0).1
    let b := keys.foldl Buffer.press { text := promptLine.cells.map glyph, cursor := 2 }
    (p.overlaid promptLine).rdropWhile isWhitespace = b.text.rdropWhile isWhitespace ∧
      (p.cursor (promptScreen 2).cursor).col = b.cursor :=
  have h := overlay_is_edited_line (q := new .always) rfl
    (show (promptScreen 2).line (promptScreen 2).cursor.row = some promptLine from rfl)
    promptLine_plain rfl (by decide)
    (by decide : EachStep (Predictor.press (promptScreen 2).cursor 6)
      (Guessed (promptScreen 2).cursor 6) ((new .always).onFrame (promptScreen 2) 0 0 0).1
      [typed 1 'a', typed 2 'b', arrow 3 .arrowLeft, typed 4 'c', arrow 5 .backspace])
  ⟨h.1, h.2.1⟩

/-- Every guess made on a plain row satisfies a property of where the input starts, the columns and
the guess. -/
def EveryGuess (P : Nat → Nat → Guess → Prop) : Prop :=
  ∀ (q : Predictor) (screen : Screen) (line : Line) (start inputAck epoch : Nat) (now : Instant)
    (keys : List Press), q.guesses = [] → screen.line screen.cursor.row = some line →
    PlainRow line start screen.cols →
    (q.right.bind fun seen => seen.on screen.cursor.row line.cells) = none →
    screen.cursor.col < screen.cols →
    EachStep (Predictor.press screen.cursor screen.cols) (Guessed screen.cursor screen.cols)
      (q.onFrame screen inputAck epoch now).1 keys →
    ∀ g ∈ (keys.foldl (Predictor.press screen.cursor screen.cols)
      (q.onFrame screen inputAck epoch now).1).guesses, P start screen.cols g

/-- A character typed in the last column but one leaves the guessed cursor in the last; one typed at
the prompt itself is left of the input. -/
theorem guesses_reach_last_column_and_prompt :
    (¬EveryGuess fun _ cols g => g.cursor + 1 < cols) ∧
      ¬EveryGuess fun start _ g => ∀ c ∈ g.changes, start ≤ c.col := by
  constructor
  · intro hclaim
    have hguess : ∀ g ∈ ([typed 1 'x'].foldl (Predictor.press (promptScreen 4).cursor 6)
        ((new .always).onFrame (promptScreen 4) 0 0 0).1).guesses, g.cursor + 1 < 6 :=
      hclaim (new .always) (promptScreen 4) promptLine 2 0 0 0 [typed 1 'x'] rfl rfl
        promptLine_plain rfl (by decide) (by decide)
    exact absurd hguess (by decide)
  · intro hclaim
    have hguess : ∀ g ∈ ([typed 1 'x'].foldl (Predictor.press (promptScreen 0).cursor 6)
        ((new .always).onFrame (promptScreen 0) 0 0 0).1).guesses, ∀ c ∈ g.changes, 2 ≤ c.col :=
      hclaim (new .always) (promptScreen 0) promptLine 2 0 0 0 [typed 1 'x'] rfl rfl
        promptLine_plain rfl (by decide) (by decide)
    exact absurd hguess (by decide)

end Prompt

end Predictor

end Slopty.Predict
