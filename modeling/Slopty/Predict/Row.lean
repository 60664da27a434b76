import Slopty.Lib.Paint
import Slopty.Predict.Predictor

/-!
The row as the predictor holds it: the base row painted with the changes of the keys in flight. What
a key taken in adds to it, what is drawn of it, and what a frame leaves of it.
-/

namespace Slopty.Predict

open Slopty.Lib
open Slopty.Grid

namespace Predictor

theorem foldl_putChange (cells : List Cell) (changes : List Change) :
    changes.foldl putChange cells = paint Change.col Change.cell cells changes := rfl

section Draw

theorem mem_drawCell {drawn : List Prediction} {cell d : Prediction} :
    d ∈ drawCell drawn cell ↔ d = cell ∨ (d ∈ drawn ∧ d.col ≠ cell.col) := by
  unfold drawCell
  split
  · rename_i hany
    obtain ⟨old, hold, hcol⟩ := List.any_eq_true.mp hany
    have hcol : old.col = cell.col := of_decide_eq_true hcol
    rw [List.mem_map]
    constructor
    · rintro ⟨e, he, rfl⟩
      by_cases hsame : e.col = cell.col
      · exact .inl (if_pos hsame)
      · rw [if_neg hsame]
        exact .inr ⟨he, hsame⟩
    · rintro (rfl | ⟨hd, hne⟩)
      · exact ⟨old, hold, if_pos hcol⟩
      · exact ⟨d, hd, if_neg hne⟩
  · rename_i hnone
    have hne : ∀ e ∈ drawn, e.col ≠ cell.col := by simpa using hnone
    rw [List.mem_append, List.mem_singleton]
    constructor
    · rintro (hd | rfl)
      · exact .inr ⟨hd, hne d hd⟩
      · exact .inl rfl
    · rintro (rfl | ⟨hd, -⟩)
      · exact .inr rfl
      · exact .inl hd

theorem nodup_drawCell {drawn : List Prediction} (cell : Prediction)
    (h : (drawn.map Prediction.col).Nodup) : ((drawCell drawn cell).map Prediction.col).Nodup := by
  unfold drawCell
  split
  · have hcols : (drawn.map fun p => if p.col = cell.col then cell else p).map Prediction.col =
        drawn.map Prediction.col := by
      rw [List.map_map]
      refine List.map_congr_left fun p _ => ?_
      by_cases hp : p.col = cell.col
      · simp [hp]
      · simp [hp]
    rwa [hcols]
  · rename_i hnone
    have hne : ∀ e ∈ drawn, e.col ≠ cell.col := by simpa using hnone
    rw [List.map_append, List.map_singleton]
    refine List.nodup_append'.mpr ⟨h, List.nodup_singleton _, ?_⟩
    rw [List.disjoint_singleton]
    intro hmem
    obtain ⟨e, he, hcol⟩ := List.mem_map.mp hmem
    exact hne e he hcol

theorem nodup_foldl_drawCell {drawn : List Prediction} (cells : List Prediction)
    (h : (drawn.map Prediction.col).Nodup) :
    ((cells.foldl drawCell drawn).map Prediction.col).Nodup := by
  induction cells generalizing drawn with
  | nil => exact h
  | cons cell cells ih => exact ih (nodup_drawCell cell h)

/-- A row drawn on with one prediction a column reads the prediction where there is one. -/
theorem paint_getElem?_of_nodup {drawn : List Prediction} (h : (drawn.map Prediction.col).Nodup)
    {row : List Text} {i : Nat} (hi : i < row.length) {d : Prediction} (hd : d ∈ drawn)
    (hcol : d.col = i) : (paint Prediction.col Prediction.text row drawn)[i]? = some d.text := by
  rw [paint_getElem? hi]
  cases hlast : lastAt Prediction.col i drawn with
  | none => exact absurd hcol (lastAt_eq_none.mp hlast d hd)
  | some e =>
    obtain ⟨he, hecol⟩ := of_lastAt hlast
    obtain rfl : e = d := List.inj_on_of_nodup_map h he hd (hecol.trans hcol.symm)
    rfl

theorem paint_getElem?_of_untouched {drawn : List Prediction} {row : List Text} {i : Nat}
    (hi : i < row.length) (h : ∀ d ∈ drawn, d.col ≠ i) :
    (paint Prediction.col Prediction.text row drawn)[i]? = row[i]? := by
  rw [paint_getElem? hi, lastAt_eq_none.mpr h]
  rfl

theorem paint_drawCell {drawn : List Prediction} (h : (drawn.map Prediction.col).Nodup)
    (cell : Prediction) (row : List Text) :
    paint Prediction.col Prediction.text row (drawCell drawn cell) =
      (paint Prediction.col Prediction.text row drawn).set cell.col cell.text := by
  apply List.ext_getElem?
  intro i
  by_cases hi : i < row.length
  · by_cases hcol : cell.col = i
    · subst hcol
      rw [paint_getElem?_of_nodup (nodup_drawCell cell h) hi (mem_drawCell.mpr (.inl rfl)) rfl,
        List.getElem?_set_self (by rwa [paint_length])]
    · rw [List.getElem?_set_ne hcol]
      by_cases hany : ∃ d ∈ drawn, d.col = i
      · obtain ⟨d, hd, hdcol⟩ := hany
        have hd' : d ∈ drawCell drawn cell :=
          mem_drawCell.mpr (.inr ⟨hd, fun heq => hcol (heq.symm.trans hdcol)⟩)
        rw [paint_getElem?_of_nodup (nodup_drawCell cell h) hi hd' hdcol,
          paint_getElem?_of_nodup h hi hd hdcol]
      · have hnone : ∀ d ∈ drawn, d.col ≠ i := fun d hd heq => hany ⟨d, hd, heq⟩
        have hnone' : ∀ d ∈ drawCell drawn cell, d.col ≠ i := by
          intro d hd
          rcases mem_drawCell.mp hd with rfl | ⟨hd, -⟩
          · exact hcol
          · exact hnone d hd
        rw [paint_getElem?_of_untouched hi hnone', paint_getElem?_of_untouched hi hnone]
  · rw [List.getElem?_eq_none (by rw [paint_length]; omega),
      List.getElem?_eq_none (by rw [List.length_set, paint_length]; omega)]

theorem paint_foldl_drawCell {drawn : List Prediction} (h : (drawn.map Prediction.col).Nodup)
    (cells : List Prediction) (row : List Text) :
    paint Prediction.col Prediction.text row (cells.foldl drawCell drawn) =
      paint Prediction.col Prediction.text
        (paint Prediction.col Prediction.text row drawn) cells := by
  induction cells generalizing drawn with
  | nil => rfl
  | cons cell cells ih =>
    refine (ih (nodup_drawCell cell h)).trans ?_
    rw [paint_drawCell h]
    rfl

theorem paint_drawing (row : Nat) (guesses : List Guess) (texts : List Text) :
    paint Prediction.col Prediction.text texts
        (guesses.flatMap fun guess => guess.changes.map fun change =>
          { seq := guess.seq, row := row, col := change.col, text := drawnText change.cell
            at' := guess.at' : Prediction }) =
      paint Change.col (fun change => drawnText change.cell) texts
        (guesses.flatMap Guess.changes) := by
  induction guesses generalizing texts with
  | nil => rfl
  | cons guess guesses ih =>
    rw [List.flatMap_cons, List.flatMap_cons, paint_append, paint_append, paint_map, ih]

/-- The row with the predictions drawn is the row with the changes of the keys in flight. -/
theorem paint_redraw (p : Predictor) (cells : List Cell) :
    paint Prediction.col Prediction.text (cells.map drawnText) p.redraw.drawn =
      (p.changes.foldl putChange cells).map drawnText := by
  have hnil : (([] : List Prediction).map Prediction.col).Nodup := List.nodup_nil
  have hsort := List.perm_insertionSort (fun a b : Prediction => a.col ≤ b.col)
    ((p.guesses.flatMap fun guess => guess.changes.map fun change =>
      { seq := guess.seq, row := p.row, col := change.col, text := drawnText change.cell
        at' := guess.at' : Prediction }).foldl drawCell [])
  have hnodup := (hsort.map Prediction.col).nodup_iff.mpr (nodup_foldl_drawCell _ hnil)
  calc paint Prediction.col Prediction.text (cells.map drawnText) p.redraw.drawn
    _ = paint Prediction.col Prediction.text (cells.map drawnText) _ := paint_perm hsort hnodup
    _ = paint Change.col (fun change => drawnText change.cell) (cells.map drawnText) p.changes := by
        rw [paint_foldl_drawCell hnil, paint_nil]
        exact paint_drawing p.row p.guesses (cells.map drawnText)
    _ = (p.changes.foldl putChange cells).map drawnText := by
        rw [foldl_putChange, map_paint]

end Draw

section Key

/-- A key press, with the modes and the time it comes at. -/
structure Press where
  key : KeyEvent
  modes : TermModes
  now : Instant
  deriving DecidableEq

def press (cursor : Cursor) (cols : Nat) (p : Predictor) (k : Press) : Predictor :=
  (p.onKey k.key cursor cols k.modes k.now).1

def Guessed (cursor : Cursor) (cols : Nat) (p : Predictor) (k : Press) : Prop :=
  (p.press cursor cols k).guesses.length = p.guesses.length + 1

instance (cursor : Cursor) (cols : Nat) (p : Predictor) (k : Press) :
    Decidable (Guessed cursor cols p k) :=
  inferInstanceAs (Decidable ((p.press cursor cols k).guesses.length = p.guesses.length + 1))

variable {p : Predictor} {cursor : Cursor} {cols : Nat} {k : Press}

@[simp] theorem flush_guesses (p : Predictor) : p.flush.guesses = [] := rfl

@[simp] theorem holdUntil_guesses (p : Predictor) (seq : Nat) : (p.holdUntil seq).guesses = [] :=
  rfl

theorem Guessed.eq_take (h : Guessed cursor cols p k) :
    ∃ s g, stroke k.key = some s ∧
      (p.line cursor cols).apply s k.key.seq k.now k.modes p.floor = some g ∧
      p.press cursor cols k = take { p with sent := max p.sent k.key.seq, interrupted := false }
        (p.line cursor cols) s g := by
  have hdrop : ∀ q : Predictor, q.guesses = [] → q.guesses.length ≠ p.guesses.length + 1 := by
    intro q hq
    simp [hq]
  unfold Guessed press at h
  unfold press
  unfold onKey at h ⊢
  split at h
  · exact absurd h (by simp)
  rename_i hpolicy
  rw [if_neg hpolicy]
  dsimp only at h ⊢
  split at h
  · exact absurd h (hdrop _ (holdUntil_guesses _ _))
  rename_i hinterrupted
  rw [if_neg hinterrupted]
  split at h
  · exact absurd h (hdrop _ (holdUntil_guesses _ _))
  rename_i s hstroke
  split at h
  · exact absurd h (by simp)
  rename_i hbarrier
  split at h
  · exact absurd h (hdrop _ (flush_guesses _))
  rename_i hallowed
  split at h
  · exact absurd h (hdrop _ (flush_guesses _))
  rename_i hroom
  split at h
  · split at h
    · exact absurd h (hdrop _ (flush_guesses _))
    · exact absurd h (hdrop _ (holdUntil_guesses _ _))
  rename_i g hg
  refine ⟨s, g, hstroke, hg, ?_⟩
  rw [if_neg hbarrier, if_neg hallowed, if_neg hroom]
  rfl

variable (p)

@[simp] theorem take_guesses (line : Edited) (s : Stroke) (g : Guess) :
    (p.take line s g).guesses = p.guesses ++ [g] := by
  unfold take redraw
  split <;> rfl

@[simp] theorem take_base (line : Edited) (s : Stroke) (g : Guess) :
    (p.take line s g).base = p.base := by
  unfold take redraw
  split <;> rfl

@[simp] theorem take_right (line : Edited) (s : Stroke) (g : Guess) :
    (p.take line s g).right = p.right := by
  unfold take redraw
  split <;> rfl

@[simp] theorem take_numbering (line : Edited) (s : Stroke) (g : Guess) :
    (p.take line s g).numbering = p.numbering := by
  unfold take redraw
  split <;> rfl

theorem take_row (line : Edited) (s : Stroke) (g : Guess) :
    (p.take line s g).row = if p.guesses = [] then line.row else p.row := by
  unfold take redraw
  split <;> rfl

theorem take_originCursor (line : Edited) (s : Stroke) (g : Guess) :
    (p.take line s g).originCursor = if p.guesses = [] then line.cursor else p.originCursor := by
  unfold take redraw
  split <;> rfl

theorem take_origin (line : Edited) (s : Stroke) (g : Guess) :
    (p.take line s g).origin =
      g.changes.foldl (noteOrigin line.shown) (if p.guesses = [] then [] else p.origin) := by
  unfold take redraw
  split <;> rfl

theorem take_drawn (line : Edited) (s : Stroke) (g : Guess) :
    (p.take line s g).drawn = (p.take line s g).redraw.drawn := by
  unfold take
  rfl

end Key

section Frame

variable (p : Predictor) (screen : Screen) (inputAck : Nat)

theorem learnRightPrompt_eq (cursor : Cursor) (cols : Nat) :
    ∃ right, p.learnRightPrompt cursor cols = { p with right := right } := by
  unfold learnRightPrompt
  split
  · exact ⟨p.right, rfl⟩
  · dsimp only
    split
    · exact ⟨p.right, rfl⟩
    · split
      · exact ⟨_, rfl⟩
      · split
        · exact ⟨none, rfl⟩
        · exact ⟨p.right, rfl⟩

def shownBase : Option Base :=
  let row := if p.guesses = [] then screen.cursor.row else p.row
  (screen.line row).map fun line =>
    { row := row, line := line, wrappedBelow := (screen.line (row + 1)).any Line.wrapped }

theorem see_eq :
    ∃ right floor, (floor = p.floor ∨ floor = none) ∧ p.see screen inputAck =
      { p with acked := max p.acked inputAck, base := p.shownBase screen, right := right,
               floor := floor } := by
  obtain ⟨right, hright⟩ := learnRightPrompt_eq
    { p with acked := max p.acked inputAck, base := p.shownBase screen } screen.cursor screen.cols
  unfold see
  dsimp only
  generalize hlearned : learnRightPrompt _ _ _ = learned
  obtain rfl := hlearned.symm.trans hright
  split
  · exact ⟨right, none, .inr rfl, rfl⟩
  · exact ⟨right, p.floor, .inl rfl, rfl⟩

theorem see_right {base : Base} {start : Nat} (hbase : p.shownBase screen = some base)
    (hmark : base.line.mark.inputCol = some start)
    (hnone : rightPrompt base.line.cells start screen.cols = none)
    (hseen : (p.right.bind fun seen => seen.on base.row base.line.cells) = none) :
    ((p.see screen inputAck).right.bind fun seen => seen.on base.row base.line.cells) = none := by
  have hlearn : (learnRightPrompt { p with acked := max p.acked inputAck, base := some base }
      screen.cursor screen.cols).right = p.right ∨
      (learnRightPrompt { p with acked := max p.acked inputAck, base := some base }
        screen.cursor screen.cols).right = none := by
    unfold learnRightPrompt
    dsimp only
    rw [hmark, Option.some_or, Option.bind_some, hnone, Option.filter_none]
    split
    · exact .inl rfl
    · dsimp only
      split
      · exact .inr rfl
      · exact .inl rfl
  have hright : (p.see screen inputAck).right =
      (learnRightPrompt { p with acked := max p.acked inputAck, base := p.shownBase screen }
        screen.cursor screen.cols).right := by
    unfold see
    dsimp only
    generalize hlearned : learnRightPrompt _ _ _ = learned
    rw [show learnRightPrompt { p with acked := max p.acked inputAck, base := p.shownBase screen }
      screen.cursor screen.cols = learned from hlearned]
    split <;> rfl
  rw [hright, hbase]
  rcases hlearn with h | h
  · rw [h]
    exact hseen
  · rw [h]
    rfl

@[simp] theorem see_guesses : (p.see screen inputAck).guesses = p.guesses := by
  obtain ⟨right, floor, -, h⟩ := p.see_eq screen inputAck
  rw [h]

theorem see_floor {f : Nat × Nat} (h : (p.see screen inputAck).floor = some f) :
    p.floor = some f := by
  obtain ⟨right, floor, hfloor, hsee⟩ := p.see_eq screen inputAck
  rw [hsee] at h
  rcases hfloor with hfloor | hfloor
  · exact hfloor ▸ h
  · rw [hfloor] at h
    exact absurd h nofun

@[simp] theorem see_base : (p.see screen inputAck).base = p.shownBase screen := by
  obtain ⟨right, floor, -, h⟩ := p.see_eq screen inputAck
  rw [h]

/-- A frame that finds no key in flight leaves the row it shows, and nothing drawn. -/
theorem onFrame_of_idle (hidle : p.guesses = []) (epoch : Nat) (now : Instant) :
    let q := (p.onFrame screen inputAck epoch now).1
    q.guesses = [] ∧ q.drawn = [] ∧ q.base = p.shownBase screen ∧
      q.right = (p.see screen inputAck).right ∧ q.numbering = some epoch ∧
        ∀ f, q.floor = some f → p.floor = some f := by
  have hguesses : (p.see screen inputAck).guesses = [] := by rw [see_guesses, hidle]
  unfold onFrame
  dsimp only
  split
  · exact ⟨rfl, rfl, p.see_base screen inputAck, rfl, rfl, fun _ h => absurd h nofun⟩
  · rw [reconcile, if_pos (by simp [due, hidle])]
    dsimp only
    rw [expire, if_neg (by simp [hidle])]
    unfold redraw
    simp only [hguesses]
    refine ⟨trivial, rfl, p.see_base screen inputAck, trivial, trivial, ?_⟩
    intro f hf
    exact p.see_floor screen inputAck hf

end Frame

end Predictor

end Slopty.Predict
