import Slopty.Lib.Run
import Slopty.Predict.Overlay

/-!
A line editor that does to the row what the guesses say, and what its frames say of them.
-/

namespace Slopty.Predict

open Slopty.Lib
open Slopty.Grid

/-- What a guess says the echo shows is of the row, and none of it is drawn in a suggestion's
grey. -/
def Guess.Checkable (cols : Nat) (g : Guess) : Prop :=
  ∀ c ∈ g.changes, c.check ≠ .nothing → c.col < cols ∧ (c.check = .typed → ghost c.cell = false)

namespace Edited

variable {e : Edited}

theorem moveTo_check (col : Nat) (cell : Cell) : (e.moveTo col cell).check ≠ .typed := by
  unfold moveTo
  dsimp only
  split <;> exact nofun

theorem moved_checkable {from' stop at' : Nat} {changes : List Change}
    (h : e.moved from' stop at' = some changes) (hfits : at' + (stop - from') ≤ e.cells.length) :
    ∀ c ∈ changes, c.col < e.cells.length ∧ c.check ≠ .typed := by
  unfold moved at h
  dsimp only at h
  split at h
  · split at h
    · obtain rfl := Option.some.inj h
      intro c hc
      obtain ⟨⟨cell, i⟩, hmem, rfl⟩ := List.mem_map.mp hc
      have hi : i < ((e.cells.take stop).drop from').length := by
        have hsnd := List.snd_lt_of_mem_zipIdx hmem
        simpa using hsnd
      rw [List.length_drop, List.length_take] at hi
      have hcol : at' + i < e.cells.length := by omega
      exact ⟨hcol, moveTo_check _ _⟩
    · exact absurd h nofun
  · exact absurd h nofun

theorem clearSuggestion_check (from' : Nat) : ∀ c ∈ e.clearSuggestion from', c.check = .nothing := by
  intro c hc
  obtain ⟨_, _, rfl⟩ := List.mem_map.mp hc
  rfl

theorem map_blanked_check (cols : List Nat) : ∀ c ∈ cols.map blanked, c.check = .nothing := by
  intro c hc
  obtain ⟨_, _, rfl⟩ := List.mem_map.mp hc
  rfl

theorem ghost_narrow (ch : Char) : ghost (Cell.narrow ch {}) = false := by
  simp [ghost, Cell.narrow]

theorem typeChar_checkable (hwide : e.cells.length = e.cols) {ch : Char}
    {r : Nat × Bool × List Change} (h : e.typeChar ch = some r) :
    ∀ c ∈ r.2.2, c.check ≠ .nothing → c.col < e.cols ∧ (c.check = .typed → ghost c.cell = false) := by
  unfold typeChar at h
  dsimp only at h
  split at h
  · exact absurd h nofun
  rename_i hroom
  split at h
  · exact absurd h nofun
  rename_i under _
  split at h
  · exact absurd h nofun
  obtain ⟨rest, hrest, rfl⟩ := Option.map_eq_some_iff.mp h
  intro c hc hcheck
  have hmoved : ∀ c ∈ rest, c.check ≠ .nothing → c.col < e.cols ∧ c.check ≠ .typed := by
    intro c hc hcheck
    split at hrest
    · split at hrest
      · exact absurd hrest nofun
      · rename_i hlt hends
        have hmoves := moved_checkable hrest (by omega) c hc
        exact ⟨hwide ▸ hmoves.1, hmoves.2⟩
    · split at hrest
      · obtain rfl := Option.some.inj hrest
        exact absurd (clearSuggestion_check _ c hc) hcheck
      · obtain rfl := Option.some.inj hrest
        exact absurd hc List.not_mem_nil
  rw [List.cons_append, List.mem_cons, List.mem_append] at hc
  rcases hc with rfl | hc | hc
  · exact ⟨by dsimp only; omega, fun _ => ghost_narrow ch⟩
  · exact ⟨(hmoved c hc hcheck).1, fun htyped => absurd htyped (hmoved c hc hcheck).2⟩
  · split at hc
    · exact absurd (map_blanked_check _ c hc) hcheck
    · exact absurd hc List.not_mem_nil

theorem moveLeft_changes {modes : TermModes} {r : Nat × Bool × List Change}
    (h : e.moveLeft modes = some r) : r.2.2 = [] := by
  unfold moveLeft at h
  dsimp only at h
  split at h
  · exact absurd h nofun
  split at h
  · exact absurd h nofun
  split at h
  · exact absurd h nofun
  rename_i before _
  generalize (if before.width = .spacerTail then 2 else 1) = step at h
  split at h
  · split at h
    · split at h
      · obtain rfl := Option.some.inj h
        rfl
      · exact absurd h nofun
    · exact absurd h nofun
  · exact absurd h nofun

theorem moveRight_changes {modes : TermModes} {r : Nat × Bool × List Change}
    (h : e.moveRight modes = some r) : r.2.2 = [] := by
  unfold moveRight at h
  dsimp only at h
  split at h
  · exact absurd h nofun
  split at h
  · exact absurd h nofun
  split at h
  all_goals
    split at h
    · obtain rfl := Option.some.inj h
      rfl
    · exact absurd h nofun

theorem erase_checkable (hwide : e.cells.length = e.cols) {modes : TermModes}
    {floor : Option (Nat × Nat)} {r : Nat × Bool × List Change}
    (h : e.erase modes floor = some r) :
    ∀ c ∈ r.2.2, c.check ≠ .nothing → c.col < e.cols ∧ c.check ≠ .typed := by
  unfold erase at h
  dsimp only at h
  split at h
  · exact absurd h nofun
  split at h
  · exact absurd h nofun
  split at h
  all_goals
    split at h
    · rename_i hstep
      split at h
      · exact absurd h nofun
      split at h
      · split at h
        · exact absurd h nofun
        obtain ⟨changes, hmoved, rfl⟩ := Option.map_eq_some_iff.mp h
        intro c hc hcheck
        rw [List.mem_append] at hc
        rcases hc with hc | hc
        · have hstop : e.textEnd ≤ e.cells.length := by
            unfold moved at hmoved
            split at hmoved
            · rename_i hbounds
              exact hbounds.2
            · exact absurd hmoved nofun
          have hmoves := moved_checkable hmoved (by omega) c hc
          exact ⟨hwide ▸ hmoves.1, hmoves.2⟩
        · exact absurd (map_blanked_check _ c hc) hcheck
      · obtain rfl := Option.some.inj h
        intro c hc hcheck
        rcases List.mem_append.mp hc with hc | hc
        · exact absurd (map_blanked_check _ c hc) hcheck
        · exact absurd (clearSuggestion_check _ c hc) hcheck
    · exact absurd h nofun

theorem apply_checkable (hwide : e.cells.length = e.cols) {s : Stroke} {seq : Nat} {at' : Instant}
    {modes : TermModes} {floor : Option (Nat × Nat)} {g : Guess}
    (h : e.apply s seq at' modes floor = some g) : g.Checkable e.cols := by
  unfold apply at h
  obtain ⟨r, hr, rfl⟩ := Option.map_eq_some_iff.mp h
  intro c hc hcheck
  rcases List.mem_append.mp hc with hc | hc
  · exact absurd (map_blanked_check _ c hc) hcheck
  · cases s with
    | type ch => exact typeChar_checkable hwide hr c hc hcheck
    | left =>
      rw [show r.2.2 = [] from moveLeft_changes hr] at hc
      exact absurd hc List.not_mem_nil
    | right =>
      rw [show r.2.2 = [] from moveRight_changes hr] at hc
      exact absurd hc List.not_mem_nil
    | erase =>
      obtain ⟨hcol, htyped⟩ := erase_checkable hwide hr c hc hcheck
      exact ⟨hcol, fun h => absurd h htyped⟩

end Edited

namespace Predictor

section Frame

variable {p : Predictor} {screen : Screen}

theorem latest_of_reads {due after : Nat} (hreads : p.readsAs screen due after = true) (n : Nat)
    (hn : after ≤ n) (hlater : ∀ k, after < k → k ≤ n → p.readsAs screen due k = false) :
    p.latest screen due n = some after := by
  induction n with
  | zero =>
    obtain rfl := Nat.le_zero.mp hn
    rw [latest, if_pos hreads]
  | succ n ih =>
    rcases Nat.lt_or_eq_of_le hn with hlt | rfl
    · rw [latest, if_neg (by simp [hlater (n + 1) hlt (le_refl _)])]
      exact ih (Nat.lt_succ_iff.mp hlt) fun k hk hkn => hlater k hk (Nat.le_succ_of_le hkn)
    · rw [latest, if_pos hreads]

theorem foldl_confirm (now : Instant) (guesses : List Guess) (s : Predictor × Nat) :
    ∃ unsure tentative hits, (guesses.foldl (confirm now) s).1 =
      { s.1 with unsure := unsure, tentative := tentative, hits := hits } := by
  induction guesses generalizing s with
  | nil => exact ⟨_, _, _, rfl⟩
  | cons g guesses ih =>
    obtain ⟨unsure, tentative, hits, h⟩ := ih (confirm now s g)
    refine ⟨unsure, tentative, hits, ?_⟩
    rw [List.foldl_cons, h]
    unfold confirm
    split <;> rfl

/-- The cells a frame shows on the row of the guesses. -/
def shows (p : Predictor) (screen : Screen) (col : Nat) : Option Text :=
  ((screen.line p.row).bind fun l => l.cells[col]?).map Cell.text

/-- The predictor once a frame has confirmed some of the first guesses. -/
structure Settled (p : Predictor) (screen : Screen) (confirmed : Nat) (q : Predictor) : Prop where
  guesses : q.guesses = p.guesses.drop confirmed
  row : q.row = p.row
  origin : q.origin = if confirmed = 0 then p.origin
    else ((p.guesses.drop confirmed).flatMap Guess.changes).foldl (noteOrigin (p.shows screen)) []
  originCursor : q.originCursor = p.cursorAfter confirmed

theorem settle_settled (screen : Screen) (now : Instant) (confirmed : Nat) :
    Settled p screen confirmed (p.settle screen now confirmed).1 ∧
      (p.settle screen now confirmed).1.base = p.base ∧
      (p.settle screen now confirmed).1.numbering = p.numbering := by
  obtain ⟨unsure, tentative, hits, h⟩ := foldl_confirm now (p.guesses.take confirmed) (p, 0)
  unfold settle
  dsimp only
  rw [h]
  split
  · rename_i hzero
    subst hzero
    exact ⟨⟨rfl, rfl, rfl, rfl⟩, rfl, rfl⟩
  · rename_i hpos
    exact ⟨⟨rfl, rfl, (if_neg hpos).symm, rfl⟩, rfl, rfl⟩

/-- What the frame confirms: nothing where no guess is acknowledged, or else the latest after which
it reads as guessed. -/
def Confirms (p : Predictor) (screen : Screen) (inputAck confirmed : Nat) : Prop :=
  if p.due inputAck = 0 then confirmed = 0
  else p.latest screen (p.due inputAck) (p.due inputAck) = some confirmed

theorem Confirms.reconcile {inputAck confirmed : Nat} (h : p.Confirms screen inputAck confirmed)
    (now : Instant) :
    ∃ q hits, p.reconcile screen inputAck now = some (q, hits) ∧ Settled p screen confirmed q ∧
      q.base = p.base ∧ q.numbering = p.numbering := by
  unfold Confirms at h
  unfold Predictor.reconcile
  dsimp only
  split
  · rename_i hdue
    rw [if_pos hdue] at h
    subst h
    exact ⟨p, 0, rfl, ⟨rfl, rfl, rfl, rfl⟩, rfl, rfl⟩
  · rename_i hdue
    rw [if_neg hdue] at h
    rw [h]
    exact ⟨_, _, rfl, p.settle_settled screen now confirmed⟩

section Same

variable {q : Predictor} (hguesses : q.guesses = p.guesses) (hrow : q.row = p.row)
  (horigin : q.origin = p.origin) (hcursor : q.originCursor = p.originCursor)

include hguesses hcursor in
theorem cursorAfter_congr (n : Nat) : q.cursorAfter n = p.cursorAfter n := by
  cases n with
  | zero => exact hcursor
  | succ n => rw [cursorAfter, cursorAfter, hguesses, hcursor]

include hguesses hrow horigin hcursor in
theorem readsAs_congr (due after : Nat) : q.readsAs screen due after = p.readsAs screen due after := by
  simp only [readsAs, evidence, lastChange, cursorAfter_congr hguesses hcursor, hguesses, hrow,
    horigin]

include hguesses hrow horigin hcursor in
theorem latest_congr (due n : Nat) : q.latest screen due n = p.latest screen due n := by
  induction n with
  | zero => rw [latest, latest, readsAs_congr hguesses hrow horigin hcursor]
  | succ n ih => rw [latest, latest, readsAs_congr hguesses hrow horigin hcursor, ih]

end Same

/-- A frame in the same numbering confirms what it confirms, and with no guess past that too old it
is no miss. -/
theorem Confirms.onFrame {inputAck epoch confirmed : Nat} {now : Instant}
    (h : p.Confirms screen inputAck confirmed) (hnumbering : p.numbering = some epoch)
    (hfresh : ∀ g ∈ p.guesses.drop confirmed, now.since g.at' ≤ stale) :
    (p.onFrame screen inputAck epoch now).2.misses = 0 ∧
      Settled p screen confirmed (p.onFrame screen inputAck epoch now).1 ∧
      (p.onFrame screen inputAck epoch now).1.base = p.shownBase screen ∧
      (p.onFrame screen inputAck epoch now).1.numbering = some epoch := by
  obtain ⟨right, floor, -, hsee⟩ := p.see_eq screen inputAck
  generalize hp : p.see screen inputAck = seen at hsee
  have hseen : Confirms { seen with numbering := some epoch } screen inputAck confirmed := by
    unfold Confirms due at h ⊢
    rw [latest_congr (p := p) (by rw [hsee]) (by rw [hsee]) (by rw [hsee]) (by rw [hsee]), hsee]
    exact h
  obtain ⟨q, hits, hreconcile, hsettled, hbase, hkept⟩ := hseen.reconcile now
  have hdrop : q.guesses = p.guesses.drop confirmed := by
    rw [hsettled.guesses, hsee]
  have hkeep : q.expire now = (q, 0) := by
    rw [expire, if_neg]
    cases hhead : q.guesses.head? with
    | none => simp
    | some g =>
      have hg : g ∈ p.guesses.drop confirmed := hdrop ▸ List.mem_of_head? hhead
      simpa using hfresh g hg
  have hsame : ¬ seen.numbering.any (fun e => decide (e ≠ epoch)) = true := by
    rw [hsee, hnumbering]
    simp
  unfold Predictor.onFrame
  dsimp only
  rw [hp, if_neg hsame, hreconcile]
  dsimp only
  rw [hkeep]
  subst hsee
  refine ⟨rfl, ⟨hdrop, hsettled.row, hsettled.origin, ?_⟩, hbase, hkept⟩
  exact hsettled.originCursor.trans (cursorAfter_congr rfl rfl confirmed)

end Frame

section Origin

variable {shown : Nat → Option Text} {origin : List (Nat × Option Text)}

/-- Each entry says what its column showed, and each changed column has one. -/
structure Noted (shown : Nat → Option Text) (origin : List (Nat × Option Text))
    (changes : List Change) : Prop where
  tells : ∀ o ∈ origin, o.2 = shown o.1
  every : ∀ c ∈ changes, ∃ o ∈ origin, o.1 = c.col

theorem Noted.foldl {changes : List Change} (h : Noted shown origin changes) (more : List Change) :
    Noted shown (more.foldl (noteOrigin shown) origin) (changes ++ more) := by
  induction more generalizing origin changes with
  | nil => rwa [List.append_nil]
  | cons c more ih =>
    have hnext : Noted shown (noteOrigin shown origin c) (changes ++ [c]) := by
      unfold noteOrigin
      split
      · rename_i hany
        obtain ⟨o, ho, hcol⟩ := List.any_eq_true.mp hany
        refine ⟨h.tells, fun d hd => ?_⟩
        rcases List.mem_append.mp hd with hd | hd
        · exact h.every d hd
        · obtain rfl := List.mem_singleton.mp hd
          exact ⟨o, ho, of_decide_eq_true hcol⟩
      · constructor
        · intro o ho
          rcases List.mem_append.mp ho with ho | ho
          · exact h.tells o ho
          · obtain rfl := List.mem_singleton.mp ho
            rfl
        · intro d hd
          rcases List.mem_append.mp hd with hd | hd
          · obtain ⟨o, ho, hcol⟩ := h.every d hd
            exact ⟨o, List.mem_append_left _ ho, hcol⟩
          · obtain rfl := List.mem_singleton.mp hd
            exact ⟨_, List.mem_append_right _ List.mem_cons_self, rfl⟩
    have hrest := ih hnext
    rwa [List.append_assoc] at hrest

theorem noted_nil (shown : Nat → Option Text) : Noted shown [] [] where
  tells _ ho := absurd ho List.not_mem_nil
  every _ hc := absurd hc List.not_mem_nil

theorem Noted.find {changes : List Change} (h : Noted shown origin changes) {c : Change}
    (hc : c ∈ changes) :
    (origin.find? fun o => decide (o.1 = c.col)).bind Prod.snd = shown c.col := by
  obtain ⟨o, ho, hcol⟩ := h.every c hc
  cases hfind : origin.find? fun o => decide (o.1 = c.col) with
  | none => exact absurd hcol (by simpa using List.find?_eq_none.mp hfind o ho)
  | some found =>
    have htells := h.tells found (List.mem_of_find?_eq_some hfind)
    have hat : found.1 = c.col := by simpa using List.find?_some hfind
    rw [Option.bind_some, htells, hat]

end Origin

end Predictor

theorem same_self (a : Text) : same a a = true := by simp [same]

/-- The row once some guesses are done to it. -/
def rowAfter (cells : List Cell) (done : List Guess) : List Cell :=
  (done.flatMap Guess.changes).foldl Predictor.putChange cells

/-- The cursor's column once some guesses are done. -/
def colAfter (col : Nat) (done : List Guess) : Nat := (done.getLast?).elim col Guess.cursor

theorem rowAfter_append (cells : List Cell) (done more : List Guess) :
    rowAfter cells (done ++ more) = rowAfter (rowAfter cells done) more := by
  rw [rowAfter, List.flatMap_append, List.foldl_append]
  rfl

@[simp] theorem rowAfter_length (cells : List Cell) (done : List Guess) :
    (rowAfter cells done).length = cells.length := by
  rw [rowAfter, Predictor.foldl_putChange, paint_length]

namespace Predictor

variable {p : Predictor} {screen : Screen} {shownCells : List Cell} {col after : Nat}

/-- The predictor holds a row as it was shown: its cells, the cursor, and what the guesses change
of it. -/
structure Holds (p : Predictor) (row : Nat) (shownCells : List Cell) (col : Nat) : Prop where
  row : p.row = row
  originCursor : p.originCursor = col
  noted : Noted (fun i => (shownCells[i]?).map Cell.text) p.origin p.changes
  checkable : ∀ g ∈ p.guesses, g.Checkable shownCells.length

theorem Holds.cursorAfter_eq {row : Nat} (h : Holds p row shownCells col)
    (hafter : after ≤ p.guesses.length) :
    p.cursorAfter after = colAfter col (p.guesses.take after) := by
  cases after with
  | zero => exact h.originCursor
  | succ n =>
    rw [cursorAfter, colAfter, List.getElem?_eq_getElem hafter, List.getLast?_take,
      if_neg (Nat.succ_ne_zero n), Nat.add_sub_cancel, List.getElem?_eq_getElem hafter]
    rfl

/-- A frame that shows the row and the cursor after some of the guesses reads so. -/
theorem Holds.readsAs {row : Nat} (h : Holds p row shownCells col) (due : Nat)
    (hafter : after ≤ p.guesses.length) {line : Line} (hline : screen.line row = some line)
    (hcells : line.cells = rowAfter shownCells (p.guesses.take after))
    (hcursor : screen.cursor.row = row)
    (hcol : screen.cursor.col = colAfter col (p.guesses.take after)) :
    p.readsAs screen due after = true := by
  have hat : p.cursorAfter after = screen.cursor.col := (h.cursorAfter_eq hafter).trans hcol.symm
  unfold Predictor.readsAs
  dsimp only
  rw [h.row, hline, hcursor, if_pos rfl, hat, Bool.and_eq_true]
  refine ⟨by simp, List.all_eq_true.mpr fun i hi => ?_⟩
  obtain ⟨c, ⟨hc, hcheck⟩, rfl⟩ : ∃ c, (c ∈ p.changes ∧ c.check ≠ .nothing) ∧ c.col = i := by
    rw [evidence, mem_dedupRuns, List.mem_insertionSort, List.mem_flatMap] at hi
    obtain ⟨g, hg, hi⟩ := hi
    obtain ⟨c, hc, rfl⟩ := List.mem_map.mp hi
    obtain ⟨hc, hcheck⟩ := List.mem_filter.mp hc
    refine ⟨c, ⟨List.mem_flatMap.mpr ⟨g, List.mem_of_mem_take hg, hc⟩, ?_⟩, rfl⟩
    exact of_decide_eq_true hcheck
  have hcheckable : ∀ d ∈ p.changes, d.check ≠ .nothing →
      d.col < shownCells.length ∧ (d.check = .typed → ghost d.cell = false) := by
    intro d hd
    obtain ⟨g, hg, hd⟩ := List.mem_flatMap.mp hd
    exact h.checkable g hg d hd
  have hwithin := (hcheckable c hc hcheck).1
  rw [Option.bind_some, hcells, rowAfter, foldl_putChange, paint_getElem? hwithin]
  have hchange : p.lastChange after c.col =
      lastAt Change.col c.col ((p.guesses.take after).flatMap Guess.changes) := rfl
  rw [hchange]
  cases hlast : lastAt Change.col c.col ((p.guesses.take after).flatMap Guess.changes) with
  | some change =>
    obtain ⟨hmem, -⟩ := of_lastAt hlast
    have hmem : change ∈ p.changes := by
      obtain ⟨g, hg, hchange⟩ := List.mem_flatMap.mp hmem
      exact List.mem_flatMap.mpr ⟨g, List.mem_of_mem_take hg, hchange⟩
    simp only [passes, Option.map_some, Option.some_or, Option.any_some, same_self, Bool.true_and]
    cases hkind : change.check with
    | nothing => rfl
    | text => rfl
    | typed => simp [(hcheckable change hmem (by simp [hkind])).2 hkind]
  | none =>
    rw [h.noted.find hc, List.getElem?_eq_getElem hwithin]
    exact same_self _

theorem line_length (p : Predictor) (real : Cursor) (cols : Nat) :
    (p.line real cols).cells.length = cols := by
  have hset : ∀ (hidden : List Nat) (cells : List Cell),
      (hidden.foldl (fun cells col => cells.set col Cell.blank) cells).length = cells.length := by
    intro hidden
    induction hidden with
    | nil => exact fun _ => rfl
    | cons col hidden ih => exact fun cells => (ih _).trans List.length_set
  unfold line
  dsimp only
  rw [hset, foldl_putChange, paint_length, List.length_append, List.length_take,
    List.length_replicate]
  omega

end Predictor

/-- A terminal with a predictor and a line editor at its other end: the guesses made, how many of
them the last frame shows done, and the misses there were. -/
structure LineEditor where
  predictor : Predictor
  cursor : Cursor
  made : List Guess := []
  done : Nat := 0
  misses : Nat := 0

namespace LineEditor

/-- A frame, and how many of the guesses it shows done. -/
structure Shown where
  screen : Screen
  inputAck : Nat
  now : Instant
  done : Nat

inductive Event where
  | key (k : Predictor.Press)
  | frame (f : Shown)

/-- A frame that finds no key in flight. -/
def start (p : Predictor) (screen : Screen) (inputAck epoch : Nat) (now : Instant) : LineEditor where
  predictor := (p.onFrame screen inputAck epoch now).1
  cursor := screen.cursor

def step (cols epoch : Nat) (e : LineEditor) : Event → LineEditor
  | .key k =>
      let p := e.predictor.press e.cursor cols k
      { e with predictor := p, made := e.made ++ p.guesses.getLast?.toList }
  | .frame f =>
      let (p, said) := e.predictor.onFrame f.screen f.inputAck epoch f.now
      { e with
        predictor := p
        cursor := f.screen.cursor
        done := f.done
        misses := e.misses + said.misses }

/-- A frame of the row `cells` once the first `f.done` guesses are done to it, all of them
acknowledged, no fewer than the last frame showed, and none of the others too old. -/
structure Honest (row col : Nat) (cells : List Cell) (e : LineEditor) (f : Shown) : Prop where
  forward : e.done ≤ f.done
  made : f.done ≤ e.made.length
  acked : ∀ g ∈ e.made.take f.done, g.seq ≤ f.inputAck
  shows : ∃ line, f.screen.line row = some line ∧ line.cells = rowAfter cells (e.made.take f.done)
  cursor_row : f.screen.cursor.row = row
  cursor_col : f.screen.cursor.col = colAfter col (e.made.take f.done)
  fresh : ∀ g ∈ e.made.drop f.done, f.now.since g.at' ≤ stale

/-- A frame does not read as after more of the acknowledged guesses than it shows done. -/
def Plainly (e : LineEditor) (f : Shown) : Prop :=
  ∀ after, f.done - e.done < after → after ≤ e.predictor.due f.inputAck →
    e.predictor.readsAs f.screen (e.predictor.due f.inputAck) after = false

def Honestly (row col : Nat) (cells : List Cell) (e : LineEditor) : Event → Prop
  | .key k => Predictor.Guessed e.cursor cells.length e.predictor k
  | .frame f => e.Honest row col cells f

/-- And one that does not read as a later one. -/
def Faithful (row col : Nat) (cells : List Cell) (e : LineEditor) : Event → Prop
  | .key k => e.Honestly row col cells (.key k)
  | .frame f => e.Honestly row col cells (.frame f) ∧ e.Plainly f

/-- The predictor holds the guesses the last frame does not show done, over the row it shows. -/
structure Inv (row col epoch : Nat) (cells : List Cell) (e : LineEditor) : Prop where
  done_le : e.done ≤ e.made.length
  guesses : e.predictor.guesses = e.made.drop e.done
  cursor_row : e.cursor.row = row
  cursor_col : e.cursor.col = colAfter col (e.made.take e.done)
  base : ∃ base, e.predictor.base = some base ∧ base.row = row ∧
    base.line.cells = rowAfter cells (e.made.take e.done)
  holds : e.predictor.guesses = [] ∨ e.predictor.Holds row (rowAfter cells (e.made.take e.done))
    (colAfter col (e.made.take e.done))
  numbering : e.predictor.numbering = some epoch
  misses : e.misses = 0

section Run

variable {row col epoch : Nat} {cells : List Cell} {e : LineEditor}

theorem start_inv {p : Predictor} {screen : Screen} {line : Line} (inputAck : Nat) (now : Instant)
    (hidle : p.guesses = []) (hline : screen.line screen.cursor.row = some line) :
    Inv screen.cursor.row screen.cursor.col epoch line.cells
      (start p screen inputAck epoch now) := by
  obtain ⟨hguesses, -, hbase, -, hnumbering, -⟩ :=
    p.onFrame_of_idle screen inputAck hidle epoch now
  refine ⟨le_refl 0, hguesses, rfl, rfl, ?_, .inl hguesses, hnumbering, rfl⟩
  refine ⟨⟨screen.cursor.row, line, (screen.line (screen.cursor.row + 1)).any Line.wrapped⟩,
    hbase.trans ?_, rfl, rfl⟩
  rw [Predictor.shownBase, if_pos hidle, hline]
  rfl

/-- The line the next key edits is the row as it was shown, with the guesses in flight. -/
theorem Inv.line (h : Inv row col epoch cells e) :
    (e.predictor.line e.cursor cells.length).row = row ∧
      (e.predictor.guesses = [] → (e.predictor.line e.cursor cells.length).cursor = e.cursor.col) ∧
      (e.predictor.line e.cursor cells.length).shown =
        fun i => ((rowAfter cells (e.made.take e.done))[i]?).map Cell.text := by
  obtain ⟨base, hbase, hrow, hcells⟩ := h.base
  have hat : (e.predictor.guesses.getLast?.elim (e.cursor.row, e.cursor.col)
      fun g => (e.predictor.row, g.cursor)).1 = row := by
    cases hlast : e.predictor.guesses.getLast? with
    | none => exact h.cursor_row
    | some g =>
      have hne : e.predictor.guesses ≠ [] := by
        rintro hnil
        rw [hnil] at hlast
        exact absurd hlast nofun
      exact (h.holds.resolve_left hne).row
  refine ⟨hat, fun hnil => ?_, ?_⟩
  · rw [Predictor.line, hnil]
    rfl
  · funext i
    have hshown : (e.predictor.line e.cursor cells.length).base = some base.line := by
      unfold Predictor.line
      dsimp only
      rw [hat, hbase, Option.filter_some, if_pos (by simp [hrow])]
      rfl
    rw [Edited.shown, hshown, Option.bind_some, hcells]

theorem Inv.key (h : Inv row col epoch cells e) {k : Predictor.Press}
    (hk : Predictor.Guessed e.cursor cells.length e.predictor k) :
    Inv row col epoch cells (e.step cells.length epoch (.key k)) := by
  obtain ⟨s, g, -, hg, hpress⟩ := hk.eq_take
  obtain ⟨hrow, hcursor, hshown⟩ := h.line
  have hcheckable : g.Checkable cells.length :=
    Edited.apply_checkable (Predictor.line_length _ _ _) hg
  generalize hline : e.predictor.line e.cursor cells.length = line at hg hpress hrow hcursor hshown
  have hlast : (e.predictor.press e.cursor cells.length k).guesses.getLast?.toList = [g] := by
    rw [hpress, Predictor.take_guesses, List.getLast?_concat]
    rfl
  have hstep : e.step cells.length epoch (.key k) =
      { e with predictor := e.predictor.press e.cursor cells.length k, made := e.made ++ [g] } := by
    rw [step, hlast]
  have hdone : (e.made ++ [g]).take e.done = e.made.take e.done :=
    List.take_append_of_le_length h.done_le
  rw [hstep]
  refine ⟨?_, ?_, h.cursor_row, ?_, ?_, .inr ?_, ?_, h.misses⟩
  · exact h.done_le.trans (by simp)
  · rw [hpress, Predictor.take_guesses, List.drop_append_of_le_length h.done_le, ← h.guesses]
  · rw [hdone]
    exact h.cursor_col
  · rw [hdone, hpress, Predictor.take_base]
    exact h.base
  · rw [hdone, hpress]
    refine ⟨?_, ?_, ?_, ?_⟩
    · rw [Predictor.take_row]
      split
      · exact hrow
      · rename_i hne
        exact (h.holds.resolve_left hne).row
    · rw [Predictor.take_originCursor]
      split
      · rename_i hnil
        rw [hcursor hnil]
        exact h.cursor_col
      · rename_i hne
        exact (h.holds.resolve_left hne).originCursor
    · rw [Predictor.take_origin, Predictor.changes, Predictor.take_guesses, List.flatMap_append,
        hshown, List.flatMap_singleton]
      refine Predictor.Noted.foldl ?_ g.changes
      split
      · rename_i hnil
        have hnil : e.predictor.guesses = [] := hnil
        rw [hnil]
        exact Predictor.noted_nil _
      · rename_i hne
        exact (h.holds.resolve_left hne).noted
    · intro g' hg'
      rw [rowAfter_length]
      rw [Predictor.take_guesses, List.mem_append, List.mem_singleton] at hg'
      rcases hg' with hg' | rfl
      · have hne : e.predictor.guesses ≠ [] := List.ne_nil_of_mem hg'
        have hold := (h.holds.resolve_left hne).checkable g' hg'
        rwa [rowAfter_length] at hold
      · exact hcheckable
  · rw [hpress, Predictor.take_numbering]
    exact h.numbering

/-- The guesses an honest frame shows done are among those it acknowledges. -/
theorem Inv.le_due (h : Inv row col epoch cells e) {f : Shown} (hf : e.Honest row col cells f) :
    f.done - e.done ≤ e.predictor.due f.inputAck := by
  have hacked : ∀ g ∈ e.predictor.guesses.take (f.done - e.done), g.seq ≤ f.inputAck := by
    intro g hg
    refine hf.acked g ?_
    rw [h.guesses, List.take_drop, Nat.add_sub_cancel' hf.forward] at hg
    exact List.mem_of_mem_drop hg
  have hlen : f.done - e.done ≤ e.predictor.guesses.length := by
    rw [h.guesses, List.length_drop]
    exact Nat.sub_le_sub_right hf.made e.done
  have htake : (e.predictor.guesses.take (f.done - e.done)).takeWhile
      (fun g => decide (g.seq ≤ f.inputAck)) = e.predictor.guesses.take (f.done - e.done) :=
    List.takeWhile_eq_self_iff.mpr fun g hg => decide_eq_true (hacked g hg)
  have hsplit : e.predictor.due f.inputAck = (((e.predictor.guesses.take (f.done - e.done)) ++
      e.predictor.guesses.drop (f.done - e.done)).takeWhile
        fun g => decide (g.seq ≤ f.inputAck)).length := by
    rw [List.take_append_drop]
    rfl
  rw [hsplit, List.takeWhile_append, if_pos (by rw [htake]), List.length_append, List.length_take,
    Nat.min_eq_left hlen]
  exact Nat.le_add_right _ _

/-- The row and the cursor an honest frame shows, from those the last one showed. -/
theorem Inv.shown_eq (h : Inv row col epoch cells e) {f : Shown} (hf : e.Honest row col cells f) :
    rowAfter cells (e.made.take f.done) = rowAfter (rowAfter cells (e.made.take e.done))
        (e.predictor.guesses.take (f.done - e.done)) ∧
      colAfter col (e.made.take f.done) = colAfter (colAfter col (e.made.take e.done))
        (e.predictor.guesses.take (f.done - e.done)) := by
  have hsplit : e.made.take f.done =
      e.made.take e.done ++ e.predictor.guesses.take (f.done - e.done) := by
    rw [h.guesses, ← List.take_add, Nat.add_sub_cancel' hf.forward]
  rw [hsplit, rowAfter_append]
  refine ⟨rfl, ?_⟩
  rw [colAfter, List.getLast?_append]
  cases hlast : (e.predictor.guesses.take (f.done - e.done)).getLast? with
  | none => simp [colAfter, hlast]
  | some g => simp [colAfter, hlast]

/-- An honest frame that does not read as a later one confirms just the guesses it shows done. -/
theorem Inv.confirms (h : Inv row col epoch cells e) {f : Shown} (hf : e.Honest row col cells f)
    (hplain : e.Plainly f) :
    e.predictor.Confirms f.screen f.inputAck (f.done - e.done) := by
  have hle := h.le_due hf
  unfold Predictor.Confirms
  split
  · rename_i hdue
    omega
  · rename_i hdue
    have hne : e.predictor.guesses ≠ [] := by
      intro hnil
      exact hdue (by simp [Predictor.due, hnil])
    obtain ⟨line, hline, hcells⟩ := hf.shows
    obtain ⟨hrow, hcol⟩ := h.shown_eq hf
    refine Predictor.latest_of_reads ?_ _ hle hplain
    refine (h.holds.resolve_left hne).readsAs _ ?_ hline (hcells.trans hrow) hf.cursor_row
      (hf.cursor_col.trans hcol)
    rw [h.guesses, List.length_drop]
    exact Nat.sub_le_sub_right hf.made e.done

theorem Inv.frame (h : Inv row col epoch cells e) {f : Shown} (hf : e.Honest row col cells f)
    (hplain : e.Plainly f) :
    Inv row col epoch cells (e.step cells.length epoch (.frame f)) := by
  have hdrop : e.predictor.guesses.drop (f.done - e.done) = e.made.drop f.done := by
    rw [h.guesses, List.drop_drop, Nat.add_sub_cancel' hf.forward]
  have hfresh : ∀ g ∈ e.predictor.guesses.drop (f.done - e.done), f.now.since g.at' ≤ stale := by
    rw [hdrop]
    exact hf.fresh
  obtain ⟨hmisses, hsettled, hbase, hnumbering⟩ :=
    (h.confirms hf hplain).onFrame h.numbering hfresh
  obtain ⟨line, hline, hcells⟩ := hf.shows
  obtain ⟨hrow, hcol⟩ := h.shown_eq hf
  unfold step
  dsimp only
  generalize hq : (e.predictor.onFrame f.screen f.inputAck epoch f.now) = result at *
  refine ⟨hf.made, hsettled.guesses.trans hdrop, hf.cursor_row, hf.cursor_col, ?_, ?_, hnumbering,
    ?_⟩
  · -- The guesses stand on the row the cursor is on.
    have hat : (if e.predictor.guesses = [] then f.screen.cursor.row else e.predictor.row) = row := by
      split
      · exact hf.cursor_row
      · rename_i hne
        exact (h.holds.resolve_left hne).row
    refine ⟨⟨row, line, (f.screen.line (row + 1)).any Line.wrapped⟩, hbase.trans ?_, rfl, hcells⟩
    rw [Predictor.shownBase, hat, hline]
    rfl
  · by_cases hnil : e.predictor.guesses.drop (f.done - e.done) = []
    · exact .inl (hsettled.guesses.trans hnil)
    · right
      have hne : e.predictor.guesses ≠ [] := by
        intro hempty
        rw [hempty, List.drop_nil] at hnil
        exact hnil rfl
      have hholds := h.holds.resolve_left hne
      have hlen : f.done - e.done ≤ e.predictor.guesses.length := by
        rw [h.guesses, List.length_drop]
        exact Nat.sub_le_sub_right hf.made e.done
      refine ⟨hsettled.row.trans hholds.row, ?_, ?_, ?_⟩
      · rw [hsettled.originCursor, hholds.cursorAfter_eq hlen]
        exact hcol.symm
      · rw [hsettled.origin, Predictor.changes, hsettled.guesses]
        split
        · rename_i hzero
          rw [hrow, hzero]
          exact hholds.noted
        · have hshows : e.predictor.shows f.screen =
              fun i => ((rowAfter cells (e.made.take f.done))[i]?).map Cell.text := by
            funext i
            rw [Predictor.shows, hholds.row, hline, Option.bind_some, hcells]
          rw [hshows]
          exact (Predictor.noted_nil _).foldl _
      · intro g hg
        rw [hsettled.guesses] at hg
        have hold := hholds.checkable g (List.mem_of_mem_drop hg)
        rw [rowAfter_length] at hold ⊢
        exact hold
  · rw [h.misses, hmisses]

theorem Inv.step (h : Inv row col epoch cells e) (ev : Event)
    (hev : e.Faithful row col cells ev) : Inv row col epoch cells (e.step cells.length epoch ev) := by
  cases ev with
  | key k => exact h.key hev
  | frame f => exact h.frame hev.1 hev.2

/-- Along a run of guessed keys and honest frames, none of which reads as after more of the
acknowledged guesses than it shows done, there is no miss, and a frame that shows every acknowledged
guess done leaves none of them in flight. -/
theorem no_false_miss {p : Predictor} {screen : Screen} {line : Line} {inputAck : Nat}
    {now : Instant} {events : List Event} (hidle : p.guesses = [])
    (hline : screen.line screen.cursor.row = some line)
    (hrun : EachStep (LineEditor.step line.cells.length epoch)
      (Faithful screen.cursor.row screen.cursor.col line.cells)
      (start p screen inputAck epoch now) events) :
    let e := events.foldl (LineEditor.step line.cells.length epoch)
      (start p screen inputAck epoch now)
    e.misses = 0 ∧
      ∀ f, e.Honest screen.cursor.row screen.cursor.col line.cells f → e.Plainly f →
        (∀ g ∈ e.made.drop f.done, f.inputAck < g.seq) →
        ∀ g ∈ (e.step line.cells.length epoch (.frame f)).predictor.guesses, f.inputAck < g.seq := by
  have hinv := EachStep.foldl (fun e ev h hev => Inv.step h ev hev) hrun
    (start_inv inputAck now hidle hline)
  refine ⟨hinv.misses, fun f hf hplain hshown g hg => hshown g ?_⟩
  rwa [(hinv.frame hf hplain).guesses] at hg

end Run

section Prompt

open Predictor (promptLine promptScreen typed arrow new)

def typedLine : Line :=
  { promptLine with
    cells := [Cell.narrow '$' {}, Cell.narrow ' ' {}, Cell.narrow 'a' {}] ++
      List.replicate 3 Cell.blank }

def typedScreen : Screen :=
  { cols := 6, lines := [typedLine], cursor := { row := 0, col := 3 }, sized := by decide }

/-- One character, and the frame of its echo. -/
theorem no_false_miss_typed :
    let e := [Event.key (typed 1 'a'), .frame ⟨typedScreen, 1, 0, 1⟩].foldl (LineEditor.step 6 0)
      (start (new .always) (promptScreen 2) 0 0 0)
    e.misses = 0 := by
  have hdue : ([Event.key (typed 1 'a')].foldl (LineEditor.step 6 0)
      (start (new .always) (promptScreen 2) 0 0 0)).predictor.due 1 = 1 := by decide
  have hkey : Predictor.Guessed (promptScreen 2).cursor 6
      (start (new .always) (promptScreen 2) 0 0 0).predictor (typed 1 'a') := by decide
  refine (@no_false_miss 0 (new .always) (promptScreen 2) promptLine 0 0
    [.key (typed 1 'a'), .frame ⟨typedScreen, 1, 0, 1⟩] rfl rfl
    ⟨hkey, ⟨⟨by decide, by decide, by decide, ⟨typedLine, rfl, by decide⟩, rfl, rfl, by decide⟩,
      ?_⟩, trivial⟩).1
  intro after hlt hle
  exact absurd (hle.trans (le_of_eq hdue)) (Nat.not_le.mpr hlt)

/-- A character and its erasure, acknowledged ahead of their echo: the row reads as after both, and
the echo of the first is taken for a miss of the next key. -/
theorem echo_behind_acknowledged_erasure :
    ¬∀ (p : Predictor) (screen : Screen) (line : Line) (inputAck epoch : Nat) (now : Instant)
      (events : List Event), p.guesses = [] → screen.line screen.cursor.row = some line →
      EachStep (LineEditor.step line.cells.length epoch)
        (Honestly screen.cursor.row screen.cursor.col line.cells)
        (start p screen inputAck epoch now) events →
      (events.foldl (LineEditor.step line.cells.length epoch)
        (start p screen inputAck epoch now)).misses = 0 := by
  intro hclaim
  have hnone := hclaim (new .always) (promptScreen 2) promptLine 0 0 0
    [.key (typed 1 'a'), .key (arrow 2 .backspace), .frame ⟨promptScreen 2, 2, 0, 0⟩,
      .key (typed 3 'b'), .frame ⟨typedScreen, 3, 0, 1⟩] rfl rfl
    ⟨(by decide : Predictor.Guessed _ _ _ _), (by decide : Predictor.Guessed _ _ _ _),
      ⟨by decide, by decide, by decide, ⟨promptLine, rfl, by decide⟩, rfl, rfl, by decide⟩,
      (by decide : Predictor.Guessed _ _ _ _),
      ⟨by decide, by decide, by decide, ⟨typedLine, rfl, by decide⟩, rfl, rfl, by decide⟩, trivial⟩
  exact absurd hnone (by decide)

end Prompt

end LineEditor

end Slopty.Predict
