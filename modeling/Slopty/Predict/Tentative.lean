import Slopty.Predict.Faithful

/-!
Tentative epochs: guesses that are made and checked, and not drawn until one is confirmed.
-/

namespace Slopty.Predict

open Slopty.Lib
open Slopty.Grid

namespace Predictor

inductive Op where
  | key (key : KeyEvent) (cursor : Cursor) (cols : Nat) (modes : TermModes) (now : Instant)
  | frame (screen : Screen) (inputAck epoch : Nat) (now : Instant)
  | interrupt
  | flush
  | setPolicy (policy : Policy)
  | setRtt (rtt : Option Duration)
  | setRefresh (period : Duration)

def step (p : Predictor) : Op → Predictor
  | .key key cursor cols modes now => (p.onKey key cursor cols modes now).1
  | .frame screen inputAck epoch now => (p.onFrame screen inputAck epoch now).1
  | .interrupt => p.interrupt
  | .flush => p.flush
  | .setPolicy policy => p.setPolicy policy
  | .setRtt rtt => p.setRtt rtt
  | .setRefresh period => p.setRefresh period

/-- A frame in another numbering, or one that reads as after no acknowledged guess the echo could
confirm. -/
def Quiet (p : Predictor) : Op → Prop
  | .frame screen inputAck epoch _ =>
      p.numbering.any (fun e => decide (e ≠ epoch)) = true ∨
        ∀ after, after ≤ p.due inputAck → p.readsAs screen (p.due inputAck) after = true →
          ∀ g ∈ p.guesses.take after, g.evidence = false
  | _ => True

section Step

variable {p : Predictor}

theorem take_tentative (p : Predictor) (line : Edited) (s : Stroke) (g : Guess) :
    (p.take line s g).tentative = p.tentative := by
  unfold take redraw
  split <;> rfl

theorem onKey_tentative (h : p.tentative = true) (key : KeyEvent) (cursor : Cursor) (cols : Nat)
    (modes : TermModes) (now : Instant) :
    (p.onKey key cursor cols modes now).1.tentative = true := by
  unfold onKey
  dsimp only
  split
  · exact h
  split
  · rfl
  split
  · rfl
  split
  · exact h
  split
  · exact h
  split
  · exact h
  split
  · split
    · exact h
    · rfl
  · rw [take_tentative]
    exact h

theorem foldl_confirm_tentative (now : Instant) {guesses : List Guess} {s : Predictor × Nat}
    (h : ∀ g ∈ guesses, g.evidence = false) :
    (guesses.foldl (confirm now) s).1.tentative = s.1.tentative := by
  induction guesses generalizing s with
  | nil => rfl
  | cons g guesses ih =>
    rw [List.foldl_cons, ih fun g hg => h g (List.mem_cons_of_mem _ hg), confirm,
      if_neg (by simp [h g List.mem_cons_self])]

theorem settle_tentative (screen : Screen) (now : Instant) {confirmed : Nat}
    (h : ∀ g ∈ p.guesses.take confirmed, g.evidence = false) :
    (p.settle screen now confirmed).1.tentative = p.tentative := by
  have hfold := foldl_confirm_tentative now (s := (p, 0)) h
  unfold settle
  dsimp only
  split
  · exact hfold
  · exact hfold

/-- The latest guess after which a frame reads as guessed is one after which it does. -/
theorem reads_of_latest {screen : Screen} {due n after : Nat}
    (h : p.latest screen due n = some after) :
    after ≤ n ∧ p.readsAs screen due after = true := by
  induction n with
  | zero =>
    rw [latest] at h
    split at h
    · rename_i hreads
      obtain rfl := Option.some.inj h
      exact ⟨le_refl 0, hreads⟩
    · cases h
  | succ n ih =>
    rw [latest] at h
    split at h
    · rename_i hreads
      obtain rfl := Option.some.inj h
      exact ⟨le_refl _, hreads⟩
    · obtain ⟨hle, hreads⟩ := ih h
      exact ⟨Nat.le_succ_of_le hle, hreads⟩

theorem reconcile_tentative {screen : Screen} {inputAck : Nat} {now : Instant}
    (h : ∀ after, after ≤ p.due inputAck → p.readsAs screen (p.due inputAck) after = true →
      ∀ g ∈ p.guesses.take after, g.evidence = false)
    {q : Predictor} {hits : Nat} (hq : p.reconcile screen inputAck now = some (q, hits)) :
    q.tentative = p.tentative := by
  unfold reconcile at hq
  dsimp only at hq
  split at hq
  · obtain rfl := (Prod.mk.inj (Option.some.inj hq)).1
    rfl
  · obtain ⟨after, hlatest, hsettle⟩ := Option.map_eq_some_iff.mp hq
    obtain ⟨hle, hreads⟩ := reads_of_latest hlatest
    have hkept := settle_tentative screen now (h after hle hreads)
    rwa [hsettle] at hkept

theorem expire_tentative (h : p.tentative = true) (now : Instant) :
    (p.expire now).1.tentative = true := by
  unfold expire
  split
  · rfl
  · exact h

theorem onFrame_tentative (h : p.tentative = true) {screen : Screen} {inputAck epoch : Nat}
    {now : Instant} (hquiet : p.Quiet (.frame screen inputAck epoch now)) :
    (p.onFrame screen inputAck epoch now).1.tentative = true := by
  obtain ⟨right, floor, -, hsee⟩ := p.see_eq screen inputAck
  generalize hp : p.see screen inputAck = seen at hsee
  unfold onFrame
  dsimp only
  rw [hp]
  split
  · rfl
  · rename_i hsame
    have hreads := hquiet.resolve_left (by rwa [hsee] at hsame)
    -- What the frame leaves to be looked at reads as the guesses in flight did.
    have hseen : ∀ after, after ≤ due { seen with numbering := some epoch } inputAck →
        readsAs { seen with numbering := some epoch } screen
          (due { seen with numbering := some epoch } inputAck) after = true →
        ∀ g ∈ seen.guesses.take after, g.evidence = false := by
      intro after hle hread
      rw [readsAs_congr (p := p) (by rw [hsee]) (by rw [hsee]) (by rw [hsee]) (by rw [hsee])] at hread
      rw [hsee] at hle hread ⊢
      exact hreads after hle hread
    have htentative : seen.tentative = true := by
      rw [hsee]
      exact h
    cases hreconcile : reconcile { seen with numbering := some epoch } screen inputAck now with
    | none => exact expire_tentative rfl now
    | some result =>
      obtain ⟨q, hits⟩ := result
      exact expire_tentative ((reconcile_tentative hseen hreconcile).trans htentative) now

theorem step_tentative (h : p.tentative = true) (op : Op) (hquiet : p.Quiet op) :
    (p.step op).tentative = true := by
  cases op with
  | key key cursor cols modes now => exact onKey_tentative h key cursor cols modes now
  | frame screen inputAck epoch now => exact onFrame_tentative h hquiet
  | interrupt => exact h
  | flush => exact h
  | setPolicy policy => exact h
  | setRtt rtt => exact h
  | setRefresh period => exact h

theorem tentative_invisible (h : p.tentative = true) (now : Instant) : p.visible now = false := by
  rw [visible, if_pos h]

end Step

section Unchanged

variable {p : Predictor} {row col : Nat} {cells : List Cell}

/-- The row and the cursor stand still: a key comes at the cursor, a frame shows both as they
were. -/
def Still (row col : Nat) (cells : List Cell) : Op → Prop
  | .key _ cursor _ _ _ => cursor.row = row
  | .frame screen _ _ _ => screen.cursor.row = row ∧ screen.cursor.col = col ∧
      (screen.line row).map Line.cells = some cells
  | _ => True

instance (row col : Nat) (cells : List Cell) : ∀ op, Decidable (Still row col cells op)
  | .key _ cursor _ _ _ => inferInstanceAs (Decidable (cursor.row = row))
  | .frame _ _ _ _ => inferInstanceAs (Decidable (_ ∧ _ ∧ _))
  | .interrupt | .flush | .setPolicy _ | .setRtt _ | .setRefresh _ => isTrue trivial

/-- After so many of the first `due` guesses the cursor, if one of them moves it, and every cell the
echo is checked at are as the row shows them. -/
def Undone (p : Predictor) (cells : List Cell) (col due after : Nat) : Prop :=
  ((p.guesses.take due).any Guess.moves = true → p.cursorAfter after = col) ∧
    ∀ g ∈ p.guesses.take due, ∀ c ∈ g.changes, c.check ≠ .nothing →
      (p.lastChange after c.col).all (fun d => passes d cells[c.col]?) = true

instance (p : Predictor) (cells : List Cell) (col due after : Nat) :
    Decidable (Undone p cells col due after) := inferInstanceAs (Decidable (_ ∧ _))

/-- No frame acknowledges guesses the echo could confirm that leave the row as it is. -/
def Visibly (cells : List Cell) (col : Nat) (p : Predictor) : Op → Prop
  | .frame _ inputAck _ _ => ∀ after, after ≤ p.due inputAck →
      Undone p cells col (p.due inputAck) after → ∀ g ∈ p.guesses.take after, g.evidence = false
  | _ => True

instance (cells : List Cell) (col : Nat) (p : Predictor) : ∀ op, Decidable (Visibly cells col p op)
  | .frame _ inputAck _ _ => inferInstanceAs (Decidable (∀ after, after ≤ p.due inputAck →
      Undone p cells col (p.due inputAck) after → ∀ g ∈ p.guesses.take after, g.evidence = false))
  | .key _ _ _ _ _ | .interrupt | .flush | .setPolicy _ | .setRtt _ | .setRefresh _ => isTrue trivial

theorem mem_evidence {due i : Nat} : i ∈ p.evidence due ↔
    ∃ g ∈ p.guesses.take due, ∃ c ∈ g.changes, c.check ≠ .nothing ∧ c.col = i := by
  simp only [evidence, mem_dedupRuns, List.mem_insertionSort, List.mem_flatMap, List.mem_map,
    List.mem_filter, decide_eq_true_eq, and_assoc]

/-- A row that stands still reads as after guesses that leave it so. -/
theorem undone_of_reads {screen : Screen} {due after : Nat} (hrow : p.row = row)
    (hcursor : screen.cursor.row = row) (hcol : screen.cursor.col = col)
    (hcells : (screen.line row).map Line.cells = some cells)
    (h : p.readsAs screen due after = true) : Undone p cells col due after := by
  obtain ⟨line, hline, rfl⟩ := Option.map_eq_some_iff.mp hcells
  unfold readsAs at h
  dsimp only at h
  simp only [hrow, hline, hcursor, if_true, hcol, Option.bind_some, Bool.and_eq_true] at h
  obtain ⟨hmoves, hevidence⟩ := h
  constructor
  · intro hany
    rw [hany] at hmoves
    simpa [eq_comm] using hmoves
  · intro g hg c hc hcheck
    have hread := List.all_eq_true.mp hevidence c.col (mem_evidence.mpr ⟨g, hg, c, hc, hcheck, rfl⟩)
    cases hlast : p.lastChange after c.col with
    | none => rfl
    | some d =>
      rw [hlast] at hread
      exact hread

theorem quiet_of_visibly {op : Op} (hrow : p.guesses = [] ∨ p.row = row)
    (hstill : Still row col cells op) (hvisibly : Visibly cells col p op) : p.Quiet op := by
  cases op with
  | frame screen inputAck epoch now =>
    obtain ⟨hcursor, hcol, hcells⟩ := hstill
    refine .inr fun after hle hreads => ?_
    rcases hrow with hnil | hrow
    · simp [hnil]
    · exact hvisibly after hle (undone_of_reads hrow hcursor hcol hcells hreads)
  | key | interrupt | flush | setPolicy | setRtt | setRefresh => exact trivial

theorem onKey_row (h : p.guesses = [] ∨ p.row = row) {cursor : Cursor} (hcursor : cursor.row = row)
    (key : KeyEvent) (cols : Nat) (modes : TermModes) (now : Instant) :
    (p.onKey key cursor cols modes now).1.guesses = [] ∨
      (p.onKey key cursor cols modes now).1.row = row := by
  unfold onKey
  dsimp only
  split
  · exact h
  split
  · exact .inl rfl
  split
  · exact .inl rfl
  split
  · exact h
  split
  · exact .inl rfl
  split
  · exact .inl rfl
  split
  · split
    · exact .inl rfl
    · exact .inl rfl
  · right
    rw [take_row]
    split
    · rename_i hnil
      have hnil : p.guesses = [] := hnil
      rw [line]
      simp only [hnil, List.getLast?_nil, Option.elim_none]
      exact hcursor
    · rename_i hne
      exact h.resolve_left hne

theorem reconcile_row {screen : Screen} {inputAck : Nat} {now : Instant} {q : Predictor}
    {hits : Nat} (h : p.reconcile screen inputAck now = some (q, hits)) : q.row = p.row := by
  unfold reconcile at h
  dsimp only at h
  split at h
  · obtain rfl := (Prod.mk.inj (Option.some.inj h)).1
    rfl
  · obtain ⟨after, -, hsettle⟩ := Option.map_eq_some_iff.mp h
    have hsettled := (p.settle_settled screen now after).1.row
    rwa [hsettle] at hsettled

theorem miss_row (p : Predictor) (now : Instant) : (p.miss now).row = p.row := by
  unfold miss
  dsimp only
  split <;> rfl

theorem expire_row (p : Predictor) (now : Instant) : (p.expire now).1.row = p.row := by
  unfold expire
  split
  · exact p.miss_row now
  · rfl

theorem onFrame_row (p : Predictor) (screen : Screen) (inputAck epoch : Nat) (now : Instant) :
    (p.onFrame screen inputAck epoch now).1.row = p.row := by
  obtain ⟨right, floor, -, hsee⟩ := p.see_eq screen inputAck
  generalize hp : p.see screen inputAck = seen at hsee
  have hrow : seen.row = p.row := by rw [hsee]
  unfold onFrame
  dsimp only
  rw [hp]
  split
  · exact hrow
  · cases hreconcile : reconcile { seen with numbering := some epoch } screen inputAck now with
    | none => exact (expire_row _ now).trans ((miss_row _ now).trans hrow)
    | some result =>
      obtain ⟨q, hits⟩ := result
      exact (expire_row q now).trans ((reconcile_row hreconcile).trans hrow)

theorem step_row (h : p.guesses = [] ∨ p.row = row) {op : Op} (hstill : Still row col cells op) :
    (p.step op).guesses = [] ∨ (p.step op).row = row := by
  cases op with
  | key key cursor cols modes now => exact onKey_row h hstill key cols modes now
  | frame screen inputAck epoch now =>
    rcases h with hnil | hrow
    · exact .inl (p.onFrame_of_idle screen inputAck hnil epoch now).1
    · exact .inr ((p.onFrame_row screen inputAck epoch now).trans hrow)
  | interrupt => exact .inl rfl
  | flush => exact .inl rfl
  | setPolicy policy => exact h
  | setRtt rtt => exact h
  | setRefresh period => exact h

end Unchanged

/-- From a tentative predictor on, over a row that stands still, nothing is drawn at any moment of a
run in which no frame acknowledges guesses that leave the row as it is. -/
theorem silent_prompt_shows_nothing {p : Predictor} {row col : Nat} {cells : List Cell}
    (htentative : p.tentative = true) (hidle : p.guesses = []) {ops before : List Op}
    (hrun : EachStep step (fun q op => Still row col cells op ∧ Visibly cells col q op) p ops)
    (hbefore : before <+: ops) (now : Instant) : (before.foldl step p).visible now = false := by
  obtain ⟨rest, rfl⟩ := hbefore
  have hkept := (EachStep.append.mp hrun).1.foldl
    (P := fun q => q.tentative = true ∧ (q.guesses = [] ∨ q.row = row))
    (fun q op hq hop => ⟨step_tentative hq.1 op (quiet_of_visibly hq.2 hop.1 hop.2),
      step_row hq.2 hop.1⟩) ⟨htentative, .inl hidle⟩
  exact tentative_invisible hkept.1 now

section Prompt

/-- A character typed and taken back at a prompt that shows neither, and then another key. -/
def takenBack : List Op :=
  [.key (typed 1 'a').key (promptScreen 2).cursor 6 {} 0,
    .key (arrow 2 .backspace).key (promptScreen 2).cursor 6 {} 0, .frame (promptScreen 2) 2 0 0,
    .key (typed 3 'b').key (promptScreen 2).cursor 6 {} 0]

/-- What was typed and taken back within one frame reads as confirmed, and the next key is drawn. -/
theorem taken_back_key_shows_next :
    ¬∀ (p : Predictor) (row col : Nat) (cells : List Cell) (ops before : List Op),
      p.tentative = true → p.guesses = [] → EachStep step (fun _ op => Still row col cells op) p ops →
      before <+: ops → ∀ now, (before.foldl step p).visible now = false := by
  intro hclaim
  have hdark := hclaim ((new .always).onFrame (promptScreen 2) 0 0 0).1 0 2 promptLine.cells
    takenBack takenBack (by decide) (by decide) (by decide) List.prefix_rfl 0
  exact absurd hdark (by decide)

/-- Two keys typed at a prompt that echoes neither, an arrow, and the frames that acknowledge
them. -/
def unechoed : List Op :=
  [.key (typed 1 'a').key (promptScreen 2).cursor 6 {} 0, .frame (promptScreen 2) 1 0 0,
    .key (typed 2 'b').key (promptScreen 2).cursor 6 {} 0, .frame (promptScreen 2) 2 0 0]

theorem silent_prompt_shows_nothing_unechoed :
    (unechoed.foldl step ((new .always).onFrame (promptScreen 2) 0 0 0).1).visible 0 = false :=
  @silent_prompt_shows_nothing _ 0 2 promptLine.cells (by decide) (by decide) unechoed unechoed
    (by decide) List.prefix_rfl 0

end Prompt

end Predictor

end Slopty.Predict
