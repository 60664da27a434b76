import Slopty.Link.View

/-!
A terminal attached over a new link: where the lines it shows come from, once
the new stream has sent a whole frame.
-/

namespace Slopty.Link

open Slopty.Lib Slopty.Grid

/-- The lines that come of some: as they are, at another width, and blank ones. -/
inductive ComesOf (carried : Line → Prop) : Line → Prop where
  | blank (cols : Nat) : ComesOf carried (Line.blank cols)
  | carried {line : Line} (h : carried line) : ComesOf carried line
  | resized {line : Line} (cols : Nat) (h : ComesOf carried line) :
      ComesOf carried (line.resize cols)

/-- The lines an operation brings. -/
def TermView.Op.Carries : TermView.Op → Line → Prop
  | .frame f, line => ∃ row, (row, line) ∈ f.updates
  | .lines _ ls, line => line ∈ ls
  | _, _ => False

/-- A frame that every row of its screen is in, as wide as the screen. -/
structure ViewFrame.Whole (f : ViewFrame) : Prop where
  full : f.full = true
  cols : f.cols ≤ maxCols
  rows : f.rows ≤ maxRows
  each : ∀ row < f.rows, ∃ line, (row, line) ∈ f.updates ∧ line.cells.length = f.cols

/-- A frame that takes the alternate screen up, for which the lines held are put
aside under their numbering. -/
def TermState.Parks (t : TermState) (f : LineFrame) : Prop :=
  f.altScreen = true ∧ t.altScreen = false ∧ t.epoch ≠ none

instance (t : TermState) (f : LineFrame) : Decidable (t.Parks f) :=
  inferInstanceAs (Decidable (_ ∧ _ ∧ _))

namespace TermView

/-- The first frame from here on puts no lines aside. -/
def FirstStays : TermView → List Op → Prop
  | _, [] => True
  | v, .frame f :: _ => ¬ v.lines.Parks f.toLineFrame
  | v, op :: rest => FirstStays (v.step op) rest

/-- A line that can be read: at some index, or in the rows to draw. -/
def Reads (v : TermView) (line : Line) : Prop :=
  (∃ i, v.line i = some line) ∨ ∃ i, (i, some line) ∈ v.view

end TermView

/-- Some lines, with the blank ones, at any width. -/
structure Resizable (P : Line → Prop) : Prop where
  blank : ∀ cols, P (Line.blank cols)
  resize : ∀ line cols, P line → P (line.resize cols)

theorem ComesOf.resizable (carried : Line → Prop) : Resizable (ComesOf carried) :=
  ⟨ComesOf.blank, fun _ cols h => h.resized cols⟩

variable {P : Line → Prop}

theorem ComesOf.only {carried : Line → Prop} {line : Line} (h : ComesOf carried line)
    (hP : Resizable P) (hcarried : ∀ line, carried line → P line) : P line := by
  induction h with
  | blank cols => exact hP.blank cols
  | carried h => exact hcarried _ h
  | resized cols _ ih => exact hP.resize _ cols ih

section Held

/-- Every line held is one of these. -/
def HoldsOnly (P : Line → Prop) (s : Scrollback) : Prop :=
  ∀ i line, s.lines.get? i = some line → P line

variable {s : Scrollback}

theorem HoldsOnly.new (capacity : Nat) : HoldsOnly P (Scrollback.new capacity) :=
  fun _ _ h => absurd h nofun

theorem HoldsOnly.trim (h : HoldsOnly P s) (keep : LineRange) : HoldsOnly P (s.trim keep) := by
  intro i line hline
  rcases (s.trim_trimmed keep).taken i with heq | ⟨hnone, -⟩
  · rw [heq] at hline
    exact h i line hline
  · rw [hnone] at hline
    exact absurd hline nofun

theorem HoldsOnly.setView (h : HoldsOnly P s) (top screen : LineIndex) :
    HoldsOnly P (s.setView top screen) := h

theorem HoldsOnly.setExtent (h : HoldsOnly P s) (oldest : LineIndex) (total : Nat) :
    HoldsOnly P (s.setExtent oldest total) := by
  unfold Scrollback.setExtent
  dsimp only
  refine HoldsOnly.trim ?_ _
  split
  · intro i line hline
    have hline : (s.lines.popBelow oldest).get? i = some line := hline
    rw [OrdMap.get?_popBelow] at hline
    split at hline
    · exact absurd hline nofun
    · exact h i line hline
  · exact h

theorem HoldsOnly.put (h : HoldsOnly P s) (i : LineIndex) {line : Line} (hline : P line) :
    HoldsOnly P (s.put i line) := by
  unfold Scrollback.put
  split
  · exact h
  · intro j other hother
    have hother : (s.lines.insert i line).get? j = some other := hother
    rw [OrdMap.get?_insert] at hother
    split at hother
    · exact Option.some.inj hother ▸ hline
    · exact h j other hother

theorem HoldsOnly.insert (h : HoldsOnly P s) (i : LineIndex) {line : Line} (hline : P line) :
    HoldsOnly P (s.insert i line) := (h.put i hline).trim _

theorem HoldsOnly.putAll (h : HoldsOnly P s) (i : LineIndex) {lines : List Line}
    (hlines : ∀ line ∈ lines, P line) : HoldsOnly P (s.putAll i lines).1 := by
  induction lines generalizing s i with
  | nil => exact h
  | cons line rest ih =>
    obtain ⟨hline, hrest⟩ := List.forall_mem_cons.mp hlines
    exact ih (h.put i hline) i.next hrest

theorem HoldsOnly.insertBatch (h : HoldsOnly P s) (start : LineIndex) {lines : List Line}
    (hlines : ∀ line ∈ lines, P line) : HoldsOnly P (s.insertBatch start lines) :=
  (h.putAll start hlines).trim _

theorem HoldsOnly.insertRows (h : HoldsOnly P s) (first : LineIndex) {updates : List (Nat × Line)}
    (hupdates : ∀ u ∈ updates, P u.2) : HoldsOnly P (TermState.insertRows s first updates) := by
  induction updates generalizing s with
  | nil => exact h
  | cons u rest ih =>
    obtain ⟨hu, hrest⟩ := List.forall_mem_cons.mp hupdates
    refine ih ?_ hrest
    split
    · exact h.insert _ hu
    · exact h

end Held

namespace TermState

/-- The lines held, and the ones put aside, are all of these. -/
structure Clean (P : Line → Prop) (t : TermState) : Prop where
  held : HoldsOnly P t.scrollback
  parked : ∀ p, t.parked = some p → HoldsOnly P p.scrollback

variable {t : TermState} {f : LineFrame}

theorem lines_clean (h : t.Clean P) (start : LineIndex) {ls : List Line}
    (hls : ∀ line ∈ ls, P line) : (t.lines start ls).Clean P := by
  have hanswered : (t.answered start.val).1.scrollback = t.scrollback ∧
      (t.answered start.val).1.parked = t.parked := by
    unfold answered
    split <;> exact ⟨rfl, rfl⟩
  obtain ⟨hheld, hparked⟩ := hanswered
  unfold lines
  split
  · rename_i t' heq
    rw [heq] at hheld hparked
    refine ⟨?_, ?_⟩
    · exact (hheld ▸ h.held : HoldsOnly P t'.scrollback).insertBatch start hls
    · exact fun p hp => h.parked p (hparked.symm.trans hp)
  · rename_i t' heq
    rw [heq] at hheld hparked
    exact ⟨hheld ▸ h.held, fun p hp => h.parked p (hparked.symm.trans hp)⟩

/-- A change of the numbering holds lines that were held, or put aside, or none. -/
theorem changeNumbering_clean (h : t.Clean P) (f : LineFrame) : (t.changeNumbering f).Clean P := by
  unfold changeNumbering
  constructor
  · dsimp only
    split
    · exact HoldsOnly.new cacheLines
    · cases hback : t.parked.filter fun p => p.epoch == f.epoch with
      | none => exact HoldsOnly.new cacheLines
      | some p => exact h.parked p (Option.filter_eq_some_iff.mp hback).1
  · intro p hp
    dsimp only at hp
    split at hp
    · obtain ⟨epoch, -, rfl⟩ := Option.map_eq_some_iff.mp hp
      exact h.held
    · exact absurd hp nofun

/-- With nothing put aside, and nothing to put aside now, no line is held. -/
theorem changeNumbering_clean_of_not_parks (hparked : t.parked = none) (h : ¬ t.Parks f) :
    (t.changeNumbering f).Clean P := by
  unfold changeNumbering
  rw [hparked]
  constructor
  · dsimp only
    split <;> exact HoldsOnly.new cacheLines
  · intro p hp
    dsimp only at hp
    split at hp
    · rename_i htoAlt
      obtain ⟨epoch, hepoch, -⟩ := Option.map_eq_some_iff.mp hp
      obtain ⟨halt, hprimary⟩ := Bool.and_eq_true_iff.mp htoAlt
      refine absurd ⟨halt, by simpa using hprimary, ?_⟩ h
      rw [hepoch]
      exact nofun
    · exact absurd hp nofun

/-- The state a frame's rows are put in: in the numbering of the frame. -/
def renumbered (t : TermState) (f : LineFrame) : TermState :=
  if t.sameNumbering f then t else t.changeNumbering f

theorem heldFor_eq (t : TermState) (f : LineFrame) (top : Option LineIndex) :
    t.heldFor f top =
      ((t.renumbered f).scrollback.setView (top.getD f.firstVisible) f.firstVisible).setExtent
        f.oldest f.total := by
  unfold heldFor renumbered
  split <;> rfl

theorem applyFrame_held (h : t.superseded f = false) (top : Option LineIndex) :
    (t.applyFrame f top).scrollback = insertRows (t.heldFor f top) f.firstVisible f.updates ∧
      (t.applyFrame f top).parked = (t.renumbered f).parked := by
  rw [heldFor_eq]
  unfold superseded at h
  unfold applyFrame renumbered sameNumbering
  rw [if_neg (Bool.eq_false_iff.mp h)]
  dsimp only
  cases !t.relinked && t.epoch == some f.epoch <;> cases f.full <;> exact ⟨rfl, rfl⟩

theorem heldFor_clean (h : (t.renumbered f).Clean P) (top : Option LineIndex) :
    HoldsOnly P (t.heldFor f top) := by
  rw [heldFor_eq]
  exact (h.held.setView _ _).setExtent _ _

theorem applyFrame_clean (h : (t.renumbered f).Clean P) (hnew : t.superseded f = false)
    (top : Option LineIndex) (hupdates : ∀ u ∈ f.updates, P u.2) : (t.applyFrame f top).Clean P := by
  obtain ⟨hheld, hparked⟩ := t.applyFrame_held hnew top
  constructor
  · rw [hheld]
    exact (heldFor_clean h top).insertRows f.firstVisible hupdates
  · rw [hparked]
    exact h.parked

theorem Clean.renumbered (h : t.Clean P) (f : LineFrame) : (t.renumbered f).Clean P := by
  unfold TermState.renumbered
  split
  · exact h
  · exact changeNumbering_clean h f

end TermState

section Rows

variable {rows : List Line}

theorem resizeAll_only (hP : Resizable P) (h : ∀ line ∈ rows, P line) (cols count : Nat) :
    ∀ line ∈ Line.resizeAll rows cols count, P line := by
  intro line hline
  obtain ⟨before, hbefore, rfl⟩ := List.mem_map.mp hline
  refine hP.resize before cols ?_
  rcases List.mem_append.mp hbefore with htaken | hpad
  · exact h before (List.mem_of_mem_take htaken)
  · rw [List.eq_of_mem_replicate hpad]
    exact hP.blank cols

theorem length_resizeAll (rows : List Line) (cols count : Nat) :
    (Line.resizeAll rows cols count).length = count := by
  unfold Line.resizeAll
  rw [List.length_map, List.length_append, List.length_take, List.length_replicate]
  omega

theorem readopt_only (hP : Resizable P) {s : Scrollback} (h : HoldsOnly P s) (first : LineIndex)
    (cols count : Nat) : ∀ line ∈ Line.readopt s first cols count, P line := by
  intro line hline
  obtain ⟨row, -, rfl⟩ := List.mem_map.mp hline
  cases hheld : (s.lines.get? (first.offset row)).filter fun l => l.cells.length == cols with
  | none => exact hP.blank cols
  | some held => exact h _ held (Option.filter_eq_some_iff.mp hheld).1

theorem applyRow_only {cols : Nat} {u : Nat × Line} (h : ∀ line ∈ rows, P line) (hu : P u.2) :
    ∀ line ∈ Line.applyRow cols rows u, P line := by
  intro line hline
  unfold Line.applyRow at hline
  split at hline
  · rcases List.mem_or_eq_of_mem_set hline with hmem | rfl
    · exact h line hmem
    · exact hu
  · exact h line hline

theorem applyRows_only {cols : Nat} {updates : List (Nat × Line)} (h : ∀ line ∈ rows, P line)
    (hupdates : ∀ u ∈ updates, P u.2) :
    ∀ line ∈ updates.foldl (Line.applyRow cols) rows, P line := by
  induction updates generalizing rows with
  | nil => exact h
  | cons u rest ih =>
    obtain ⟨hu, hrest⟩ := List.forall_mem_cons.mp hupdates
    exact ih (applyRow_only h hu) hrest

/-- A row after some updates is one of theirs, or one that none of them is for. -/
theorem applyRows_get? {cols row : Nat} {updates : List (Nat × Line)} {line : Line}
    (h : (updates.foldl (Line.applyRow cols) rows)[row]? = some line) :
    (∃ u ∈ updates, u.2 = line) ∨
      rows[row]? = some line ∧ ∀ u ∈ updates, u.1 = row → u.2.cells.length ≠ cols := by
  induction updates generalizing rows with
  | nil => exact .inr ⟨h, nofun⟩
  | cons u rest ih =>
    rcases ih h with ⟨w, hw, hline⟩ | ⟨hkept, hnone⟩
    · exact .inl ⟨w, List.mem_cons_of_mem _ hw, hline⟩
    · unfold Line.applyRow at hkept
      split at hkept
      · rename_i hwide
        rw [List.getElem?_set] at hkept
        split at hkept
        · split at hkept
          · exact .inl ⟨u, List.mem_cons_self, Option.some.inj hkept⟩
          · exact absurd hkept nofun
        · rename_i hrow
          refine .inr ⟨hkept, List.forall_mem_cons.mpr ⟨fun heq => absurd heq hrow, hnone⟩⟩
      · rename_i hwide
        exact .inr ⟨hkept, List.forall_mem_cons.mpr ⟨fun _ => hwide, hnone⟩⟩

end Rows

namespace TermView

variable {v : TermView} {f : ViewFrame}

/-- Every row of the screen is one of these. -/
def Shows (P : Line → Prop) (v : TermView) : Prop := ∀ line ∈ v.rows, P line

theorem SameLines.clean {v' : TermView} (h : SameLines v v') (hv : v.lines.Clean P) :
    v'.lines.Clean P := by
  constructor
  · intro i line hline
    rw [h.held] at hline
    exact hv.held i line hline
  · intro p hp
    rw [h.parked] at hp
    exact hv.parked p hp

theorem showFrame_only (hP : Resizable P) (hv : v.Shows P) {focus : Option LineIndex}
    (hheld : HoldsOnly P (v.lines.heldFor f.toLineFrame focus))
    (hupdates : ∀ u ∈ f.updates, P u.2) : (v.showFrame f focus).Shows P := by
  unfold showFrame
  dsimp only
  refine applyRows_only ?_ hupdates
  split
  · exact readopt_only hP hheld _ _ _
  · split
    · exact hv
    · exact resizeAll_only hP hv _ _

theorem showFrame_whole (h : f.Whole) (hupdates : ∀ u ∈ f.updates, P u.2) (v : TermView)
    (focus : Option LineIndex) : (v.showFrame f focus).Shows P := by
  intro line hline
  obtain ⟨row, hrow⟩ := List.mem_iff_getElem?.mp hline
  have hsized : ∀ w : TermView, w.cols = f.cols → w.rows.length = f.rows →
      (f.updates.foldl (Line.applyRow w.cols) w.rows)[row]? = some line → P line := by
    intro w hcols hrows hget
    rcases applyRows_get? hget with ⟨u, hu, rfl⟩ | ⟨hkept, hnone⟩
    · exact hupdates u hu
    · have hlt := (List.getElem?_eq_some_iff.mp hkept).1
      obtain ⟨brought, hmem, hwide⟩ := h.each row (hrows ▸ hlt)
      exact absurd (hwide.trans hcols.symm) (hnone (row, brought) hmem rfl)
  unfold showFrame at hrow
  dsimp only at hrow
  rw [h.full, Bool.not_true, Bool.and_false, if_neg Bool.false_ne_true] at hrow
  split at hrow
  · rename_i hsame
    exact hsized v hsame.1.symm hsame.2.symm hrow
  · refine hsized (v.resize f.cols f.rows) (Nat.min_eq_left h.cols) ?_ hrow
    exact (length_resizeAll _ _ _).trans (Nat.min_eq_left h.rows)

theorem applyFrame_clean (hnew : v.lines.superseded f.toLineFrame = false)
    (hv : (v.lines.renumbered f.toLineFrame).Clean P) (hupdates : ∀ u ∈ f.updates, P u.2) :
    (v.applyFrame f).1.lines.Clean P := by
  obtain ⟨w, focus, hlines, -, hsame⟩ := applyFrame_eq hnew
  refine hsame.clean ?_
  rw [showFrame_lines, hlines]
  exact TermState.applyFrame_clean hv hnew focus hupdates

theorem step_clean (hv : v.lines.Clean P) {op : Op} (hop : ∀ line, op.Carries line → P line) :
    (v.step op).lines.Clean P := by
  cases op with
  | frame f =>
    cases hnew : v.lines.superseded f.toLineFrame with
    | true =>
      rw [step, applyFrame_superseded hnew]
      exact hv
    | false => exact applyFrame_clean hnew (hv.renumbered _) fun u hu => hop u.2 ⟨u.1, hu⟩
  | lines start ls => exact TermState.lines_clean hv start hop
  | resize cols rows => exact hv
  | scrollTo offset => exact (scrollTo_same v offset).clean hv
  | scrollToBottom => exact ⟨hv.held, hv.parked⟩
  | requestLines start count => exact ⟨hv.held, hv.parked⟩
  | relinked => exact ⟨hv.held, nofun⟩

theorem step_shows (hP : Resizable P) (hv : v.lines.Clean P) (hrows : v.Shows P) {op : Op}
    (hop : ∀ line, op.Carries line → P line) : (v.step op).Shows P := by
  cases op with
  | frame f =>
    cases hnew : v.lines.superseded f.toLineFrame with
    | true =>
      rw [step, applyFrame_superseded hnew]
      exact hrows
    | false =>
      obtain ⟨w, focus, hlines, hwrows, hsame⟩ := applyFrame_eq hnew
      have hshown : (w.showFrame f focus).Shows P := by
        refine showFrame_only hP (fun line hline => hrows line (hwrows ▸ hline)) ?_
          fun u hu => hop u.2 ⟨u.1, hu⟩
        rw [hlines]
        exact TermState.heldFor_clean (hv.renumbered _) focus
      intro line hline
      rw [step, hsame.rows] at hline
      exact hshown line hline
  | lines start ls => exact hrows
  | resize cols rows => exact resizeAll_only hP hrows _ _
  | scrollTo offset =>
    intro line hline
    rw [step, (scrollTo_same v offset).rows] at hline
    exact hrows line hline
  | scrollToBottom => exact hrows
  | requestLines start count => exact hrows
  | relinked => exact hrows

/-- Over a new link that no frame came on yet. -/
structure Fresh (v : TermView) : Prop where
  relinked : v.lines.relinked = true
  parked : v.lines.parked = none
  lastSeq : v.lines.lastSeq = none

theorem relinked_fresh (v : TermView) : v.relinked.Fresh := ⟨rfl, rfl, rfl⟩

theorem lines_fresh (hv : v.Fresh) (start : LineIndex) (ls : List Line) :
    (v.step (.lines start ls)).Fresh := by
  have hanswered : (v.lines.answered start.val).1.relinked = v.lines.relinked ∧
      (v.lines.answered start.val).1.parked = v.lines.parked ∧
      (v.lines.answered start.val).1.lastSeq = v.lines.lastSeq := by
    unfold TermState.answered
    split <;> exact ⟨rfl, rfl, rfl⟩
  have hlines : (v.lines.lines start ls).relinked = v.lines.relinked ∧
      (v.lines.lines start ls).parked = v.lines.parked ∧
      (v.lines.lines start ls).lastSeq = v.lines.lastSeq := by
    unfold TermState.lines
    split
    · rename_i heq
      rw [heq] at hanswered
      exact hanswered
    · rename_i heq
      rw [heq] at hanswered
      exact hanswered
  exact ⟨hlines.1.trans hv.relinked, hlines.2.1.trans hv.parked, hlines.2.2.trans hv.lastSeq⟩

/-- The lines held, and the ones put aside, are all of these; or no frame came
yet, and the first one to come puts nothing aside. -/
def Ready (P : Line → Prop) (v : TermView) (ops : List Op) : Prop :=
  v.lines.Clean P ∨ v.Fresh ∧ v.FirstStays ops

theorem Fresh.first_clean (hv : v.Fresh) (hstays : ¬ v.lines.Parks f.toLineFrame)
    (hupdates : ∀ u ∈ f.updates, P u.2) : (v.applyFrame f).1.lines.Clean P := by
  have hnew : v.lines.superseded f.toLineFrame = false := by
    unfold TermState.superseded
    rw [hv.lastSeq]
    rfl
  refine applyFrame_clean hnew ?_ hupdates
  unfold TermState.renumbered TermState.sameNumbering
  rw [hv.relinked, Bool.not_true, Bool.false_and, if_neg Bool.false_ne_true]
  exact TermState.changeNumbering_clean_of_not_parks hv.parked hstays

theorem Ready.frame {rest : List Op} (h : Ready P v (.frame f :: rest))
    (hupdates : ∀ u ∈ f.updates, P u.2) : (v.applyFrame f).1.lines.Clean P := by
  rcases h with hclean | ⟨hfresh, hstays⟩
  · have hstep : (v.step (.frame f)).lines.Clean P :=
      step_clean hclean fun line ⟨row, hrow⟩ => hupdates (row, line) hrow
    exact hstep
  · exact hfresh.first_clean hstays hupdates

theorem Ready.step {op : Op} {rest : List Op} (h : Ready P v (op :: rest))
    (hop : ∀ line, op.Carries line → P line) : Ready P (v.step op) rest := by
  rcases h with hclean | ⟨hfresh, hstays⟩
  · exact .inl (step_clean hclean hop)
  · cases op with
    | frame f =>
      exact .inl (Ready.frame (.inr ⟨hfresh, hstays⟩) fun u hu => hop u.2 ⟨u.1, hu⟩)
    | lines start ls => exact .inr ⟨lines_fresh hfresh start ls, hstays⟩
    | resize cols rows => exact .inr ⟨⟨hfresh.relinked, hfresh.parked, hfresh.lastSeq⟩, hstays⟩
    | scrollTo offset =>
      have hsame := scrollTo_same v offset
      exact .inr ⟨⟨hsame.relinked.trans hfresh.relinked, hsame.parked.trans hfresh.parked,
        hsame.lastSeq.trans hfresh.lastSeq⟩, hstays⟩
    | scrollToBottom => exact .inr ⟨⟨hfresh.relinked, hfresh.parked, hfresh.lastSeq⟩, hstays⟩
    | requestLines start count =>
      exact .inr ⟨⟨hfresh.relinked, hfresh.parked, hfresh.lastSeq⟩, hstays⟩
    | relinked => exact .inr ⟨v.relinked_fresh, hstays⟩

theorem Ready.run {past rest : List Op} (h : Ready P v (past ++ rest))
    (hpast : ∀ op ∈ past, ∀ line, op.Carries line → P line) :
    Ready P (past.foldl TermView.step v) rest := by
  induction past generalizing v with
  | nil => exact h
  | cons op past ih =>
    obtain ⟨hop, hpast⟩ := List.forall_mem_cons.mp hpast
    exact ih (h.step hop) hpast

/-- Once a whole frame is applied every row of the screen is one it brought. -/
theorem applyFrame_whole (h : f.Whole) (hnew : v.lines.superseded f.toLineFrame = false)
    (hupdates : ∀ u ∈ f.updates, P u.2) : (v.applyFrame f).1.Shows P := by
  obtain ⟨w, focus, -, -, hsame⟩ := applyFrame_eq hnew
  intro line hline
  rw [hsame.rows] at hline
  exact showFrame_whole h hupdates w focus line hline

theorem run_shows (hP : Resizable P) (hv : v.lines.Clean P) (hrows : v.Shows P) {ops : List Op}
    (hops : ∀ op ∈ ops, ∀ line, op.Carries line → P line) :
    (ops.foldl step v).lines.Clean P ∧ (ops.foldl step v).Shows P := by
  induction ops generalizing v with
  | nil => exact ⟨hv, hrows⟩
  | cons op rest ih =>
    obtain ⟨hop, hrest⟩ := List.forall_mem_cons.mp hops
    exact ih (step_clean hv hop) (step_shows hP hv hrows hop) hrest

theorem Reads.only {line : Line} (h : v.Reads line) (hv : v.lines.Clean P) (hrows : v.Shows P) :
    P line := by
  have hline : ∀ i, v.line i = some line → P line := by
    intro i hi
    unfold TermView.line at hi
    split at hi
    · exact hrows line (List.mem_of_getElem? hi)
    · exact hv.held i line hi
  rcases h with ⟨i, hi⟩ | ⟨i, hi⟩
  · exact hline i hi
  · unfold view at hi
    split at hi
    · obtain ⟨row, hlt, heq⟩ := List.mem_mapIdx.mp hi
      obtain rfl := Option.some.inj (Prod.ext_iff.mp heq).2
      exact hrows _ (List.getElem_mem hlt)
    · obtain ⟨row, -, heq⟩ := List.mem_map.mp hi
      exact hline _ (Prod.ext_iff.mp heq).2

/-- Over a new link whose first frame puts no lines aside: from a whole frame on,
every line that can be read came with a frame or an answer of this link. -/
theorem relinked_reads_new (v : TermView) (past later : List Op) (whole : ViewFrame)
    (hwhole : whole.Whole) (hstays : v.relinked.FirstStays (past ++ .frame whole :: later))
    (happlied : (past.foldl step v.relinked).lines.superseded whole.toLineFrame = false) :
    ∀ line, ((past ++ .frame whole :: later).foldl step v.relinked).Reads line →
      ComesOf (fun line => ∃ op ∈ past ++ .frame whole :: later, op.Carries line) line := by
  intro line hreads
  generalize hP : (ComesOf fun line => ∃ op ∈ past ++ .frame whole :: later, op.Carries line) = P
  have hsizes : Resizable P := hP ▸ ComesOf.resizable _
  have hops : ∀ op ∈ past ++ .frame whole :: later, ∀ line, op.Carries line → P line :=
    fun op hop line hline => hP ▸ ComesOf.carried ⟨op, hop, hline⟩
  obtain ⟨hpast, hrest⟩ := List.forall_mem_append.mp hops
  obtain ⟨hframe, hlater⟩ := List.forall_mem_cons.mp hrest
  have hready : Ready P v.relinked (past ++ .frame whole :: later) :=
    .inr ⟨v.relinked_fresh, hstays⟩
  have hupdates : ∀ u ∈ whole.updates, P u.2 := fun u hu => hframe u.2 ⟨u.1, hu⟩
  have hclean := (hready.run hpast).frame hupdates
  have hrows := applyFrame_whole hwhole happlied hupdates
  rw [List.foldl_append, List.foldl_cons] at hreads
  obtain ⟨hclean, hrows⟩ := run_shows hsizes hclean hrows hlater
  exact hreads.only hclean hrows

def cell (c : Char) : Line := { cells := [Cell.narrow c {}] }

def cellFrame (seq epoch : Nat) (altScreen : Bool) (first : LineIndex) (c : Char) : ViewFrame where
  seq := seq
  full := true
  epoch := epoch
  altScreen := altScreen
  firstVisible := first
  oldest := 0
  total := first.val + 1
  updates := [(0, cell c)]
  cols := 1
  rows := 1

theorem cellFrame_whole (seq epoch : Nat) (altScreen : Bool) (first : LineIndex) (c : Char) :
    (cellFrame seq epoch altScreen first c).Whole where
  full := rfl
  cols := show 1 ≤ maxCols by decide
  rows := show 1 ≤ maxRows by decide
  each := by
    intro row hrow
    obtain rfl : row = 0 := Nat.lt_one_iff.mp hrow
    exact ⟨cell c, List.mem_cons_self, rfl⟩

/-- The new link's first frame is the primary screen's: what it brought is read. -/
theorem relinked_reads_new_primary :
    ComesOf (fun line => ∃ op ∈ [] ++ Op.frame (cellFrame 1 4 false 3 'n') :: [.scrollTo 2],
      op.Carries line) (cell 'n') :=
  relinked_reads_new ((new 1 1).step (.frame (cellFrame 9 4 false 0 'o'))) [] [.scrollTo 2]
    (cellFrame 1 4 false 3 'n') (cellFrame_whole 1 4 false 3 'n') (fun h => absurd h.1 nofun)
    (by decide) (cell 'n') (.inl ⟨3, by decide⟩)

/-- No cell of a line shows this character. -/
def Without (c : Char) (line : Line) : Prop := ∀ cell ∈ line.cells, cell.text ≠ [c]

theorem without_resizable (c : Char) : Resizable (Without c) where
  blank := by
    intro cols cell hcell
    rw [List.eq_of_mem_replicate hcell]
    exact nofun
  resize := by
    intro line cols h cell hcell
    unfold Line.resize at hcell
    split at hcell
    · dsimp only at hcell
      unfold Line.cutWide at hcell
      split at hcell
      · rcases List.mem_append.mp hcell with hkept | hblank
        · exact h cell (List.mem_of_mem_take (List.mem_of_mem_dropLast hkept))
        · rw [List.mem_singleton.mp hblank]
          exact nofun
      · exact h cell (List.mem_of_mem_take hcell)
    · rcases List.mem_append.mp hcell with hkept | hpad
      · exact h cell hkept
      · rw [List.eq_of_mem_replicate hpad]
        exact nofun

theorem cellFrame_without {seq epoch : Nat} {altScreen : Bool} {first : LineIndex} {c d : Char}
    (hne : d ≠ c) {line : Line} (h : (Op.frame (cellFrame seq epoch altScreen first d)).Carries line) :
    Without c line := by
  obtain ⟨row, hrow⟩ := h
  obtain rfl := (Prod.ext_iff.mp (List.mem_singleton.mp hrow)).2
  intro other hother
  rw [List.mem_singleton.mp hother]
  exact fun heq => hne (List.cons.inj heq).1

/-- The new link's first frame is the alternate screen's: with the next one the old
link's first line is read again. -/
theorem not_relinked_reads_new :
    ¬ ∀ (v : TermView) (past later : List Op) (whole : ViewFrame), whole.Whole →
      (past.foldl step v.relinked).lines.superseded whole.toLineFrame = false →
      ∀ line, ((past ++ .frame whole :: later).foldl step v.relinked).Reads line →
        ComesOf (fun line => ∃ op ∈ past ++ .frame whole :: later, op.Carries line) line := by
  intro h
  have hold := h ((new 1 1).step (.frame (cellFrame 9 4 false 0 'o'))) []
    [.frame (cellFrame 2 4 false 1 'n')] (cellFrame 1 5 true 0 'a') (cellFrame_whole 1 5 true 0 'a')
    (by decide) (cell 'o') (.inl ⟨0, by decide⟩)
  have hwithout : Without 'o' (cell 'o') := by
    refine hold.only (without_resizable 'o') fun line hline => ?_
    obtain ⟨op, hop, hcarries⟩ := hline
    simp only [List.nil_append, List.mem_cons, List.not_mem_nil, or_false] at hop
    rcases hop with rfl | rfl
    · exact cellFrame_without (by decide) hcarries
    · exact cellFrame_without (by decide) hcarries
  exact hwithout _ List.mem_cons_self rfl

end TermView

end Slopty.Link
