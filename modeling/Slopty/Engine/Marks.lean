import Slopty.Lib.Relocate

/-!
The prompt marks of a screen, kept aside from its rows: where a prompt starts, the status that the
command before it ended with, and the rows whose prompt changed with the marks alone.
-/

namespace Slopty.Engine

open Slopty.Lib

/-- A prompt takes the exit status of a command that ended this many rows above it at most. -/
def exitLookbackRows : Nat := 4

inductive Mark where
  | promptStart
  | commandEnd (exit : Option UInt8)
  | outputStart
  deriving DecidableEq, Repr

abbrev ExitMarks := OrdMap Nat (Option UInt8)

abbrev Rows := OrdMap Nat Unit

/-- The status that a prompt starting at a line carries: the newest one on it or within reach
above it, unless another prompt started in between and took it. -/
def exitFor (marks : ExitMarks) (starts : Rows) (line : Nat) : Option UInt8 :=
  let oldest := line - exitLookbackRows
  match (marks.retain fun l _ => decide (oldest ≤ l ∧ l ≤ line)).entries.getLast? with
  | none => none
  | some (found, exit) =>
      if (starts.retain fun l _ => decide (found ≤ l ∧ l < line)).first?.isSome then none else exit

/-- Whether a prompt starts on a line, and the status that it carries if so. -/
def promptAt (marks : ExitMarks) (starts : Rows) (line : Nat) : Bool × Option UInt8 :=
  let start := (starts.get? line).isSome
  (start, if start then exitFor marks starts line else none)

/-- A line, and the lines below it that a status on it reaches. -/
def reach (line : Nat) : List Nat := List.range' line (exitLookbackRows + 1)

theorem mem_reach {line l : Nat} :
    l ∈ reach line ↔ line ≤ l ∧ l ≤ line + exitLookbackRows := by
  simp only [reach, List.mem_range'_1]
  omega

/-- The rows to send again, with those touched whose prompt is another one now. -/
def noteChanged (was now : Nat → Bool × Option UInt8) (touched : List Nat) (remarked : Rows) : Rows :=
  touched.foldl (fun remarked l => if now l ≠ was l then remarked.insert l () else remarked) remarked

structure Marks where
  exitMarks : ExitMarks
  promptStarts : Rows
  /-- Rows that the next frame carries whether or not a cell changed. -/
  forcedRows : Rows
  /-- Rows whose prompt changed with the marks alone. -/
  remarkedRows : Rows
  /-- The oldest line that the history still has. -/
  base : Nat
  deriving DecidableEq

namespace Marks

def promptAt (m : Marks) (line : Nat) : Bool × Option UInt8 :=
  Engine.promptAt m.exitMarks m.promptStarts line

/-- Change the marks on a line, noting the rows whose prompt that changed. -/
def remark (m : Marks) (line : Nat) (change : ExitMarks → Rows → ExitMarks × Rows) : Marks :=
  let (exits, starts) := change m.exitMarks m.promptStarts
  { m with
    exitMarks := exits
    promptStarts := starts
    remarkedRows :=
      noteChanged m.promptAt (Engine.promptAt exits starts) (reach line) m.remarkedRows }

def evict (m : Marks) : Marks :=
  if (m.exitMarks.first?.any fun e => decide (e.1 < m.base)) ∨
      (m.promptStarts.first?.any fun e => decide (e.1 < m.base)) then
    m.remark m.base fun marks starts => (marks.popBelow m.base, starts.popBelow m.base)
  else m

/-- The shell wrote a mark on a line, or on one whose row is gone. -/
def recordMark (m : Marks) (mark : Mark) (line : Option Nat) : Marks :=
  let m := m.evict
  match line with
  | none => m
  | some line =>
      match mark with
      | .promptStart => m.remark line fun marks starts => (marks, starts.insert line ())
      | .commandEnd exit => m.remark line fun marks starts => (marks.insert line exit, starts)
      | .outputStart => { m with forcedRows := m.forcedRows.insert line () }

/-- The lines whose prompt can change when marks move. -/
def touched (moved : List (Nat × Option Nat)) : List Nat :=
  moved.flatMap fun (source, target) => reach source ++ target.toList.flatMap reach

/-- The marks kept at each line that `moved` names go to the line it says, or away with a row that
is gone. -/
def moveMarks (m : Marks) (moved : List (Nat × Option Nat)) : Marks :=
  let exits := m.exitMarks.relocate moved
  let starts := m.promptStarts.relocate moved
  { m with
    exitMarks := exits
    promptStarts := starts
    forcedRows := m.forcedRows.relocate moved
    remarkedRows :=
      noteChanged m.promptAt (Engine.promptAt exits starts) (touched moved) m.remarkedRows }

/-- A row that is no prompt any more loses the marks that the shell wrote there. -/
def erased (m : Marks) (line : Nat) : Marks :=
  if (m.promptStarts.get? line).isSome then
    m.remark line fun marks starts => (marks.erase line, starts.erase line)
  else m

/-- What is marked on a line: a prompt's start, a command's end, and output's start while its row
is to be sent. -/
def on (m : Marks) (line : Nat) : Option Unit × Option (Option UInt8) × Option Unit :=
  (m.promptStarts.get? line, m.exitMarks.get? line, m.forcedRows.get? line)

/-- The rows whose prompt is another one are noted, on every line that the history still has. -/
structure Noted (m m' : Marks) : Prop where
  base : m.base ≤ m'.base
  kept : ∀ l, (m.remarkedRows.get? l).isSome → (m'.remarkedRows.get? l).isSome
  changed : ∀ l, m'.base ≤ l → m'.promptAt l ≠ m.promptAt l → (m'.remarkedRows.get? l).isSome

end Marks

theorem get?_noteChanged {was now : Nat → Bool × Option UInt8} {touched : List Nat} {remarked : Rows}
    {l : Nat} :
    ((noteChanged was now touched remarked).get? l).isSome ↔
      (l ∈ touched ∧ now l ≠ was l) ∨ (remarked.get? l).isSome := by
  induction touched generalizing remarked with
  | nil => simp [noteChanged]
  | cons t touched ih =>
    rw [noteChanged, List.foldl_cons, ← noteChanged, ih, List.mem_cons]
    by_cases ht : now t = was t
    · rw [if_neg (not_not.mpr ht)]
      constructor
      · rintro (⟨hl, hne⟩ | h)
        · exact Or.inl ⟨Or.inr hl, hne⟩
        · exact Or.inr h
      · rintro (⟨rfl | hl, hne⟩ | h)
        · exact absurd ht hne
        · exact Or.inl ⟨hl, hne⟩
        · exact Or.inr h
    · rw [if_pos ht, OrdMap.get?_insert]
      by_cases hl : t = l
      · subst hl
        simp [ht]
      · simp [hl, Ne.symm hl]

/-- A line's prompt depends on the marks on it and within reach above it. -/
theorem promptAt_congr {marks marks' : ExitMarks} {starts starts' : Rows} {line : Nat}
    (hmarks : ∀ l, line - exitLookbackRows ≤ l → l ≤ line → marks'.get? l = marks.get? l)
    (hstarts : ∀ l, line - exitLookbackRows ≤ l → l ≤ line → starts'.get? l = starts.get? l) :
    promptAt marks' starts' line = promptAt marks starts line := by
  have hwindow : (marks'.retain fun l _ => decide (line - exitLookbackRows ≤ l ∧ l ≤ line)) =
      marks.retain fun l _ => decide (line - exitLookbackRows ≤ l ∧ l ≤ line) := by
    refine OrdMap.retain_congr fun l hl => ?_
    have hl := of_decide_eq_true hl
    exact hmarks l hl.1 hl.2
  have hexit : exitFor marks' starts' line = exitFor marks starts line := by
    unfold exitFor
    simp only [hwindow]
    split
    · rfl
    · rename_i found exit hfound
      have hmem := OrdMap.get?_eq_some_iff.mpr (List.mem_of_getLast? hfound)
      rw [OrdMap.get?_retain, Option.filter_eq_some_iff] at hmem
      have hoverlap : (starts'.retain fun l _ => decide (found ≤ l ∧ l < line)) =
          starts.retain fun l _ => decide (found ≤ l ∧ l < line) := by
        refine OrdMap.retain_congr fun l hl => ?_
        have hl := of_decide_eq_true hl
        exact hstarts l ((of_decide_eq_true hmem.2).1.trans hl.1) hl.2.le
      rw [hoverlap]
  have hstart := hstarts line (Nat.sub_le _ _) le_rfl
  simp only [promptAt, hstart, hexit]

namespace Marks

namespace Noted

theorem refl (m : Marks) : Noted m m :=
  ⟨le_rfl, fun _ h => h, fun _ _ hne => absurd rfl hne⟩

theorem trans {m m' m'' : Marks} (h : Noted m m') (h' : Noted m' m'') : Noted m m'' where
  base := h.base.trans h'.base
  kept l hl := h'.kept l (h.kept l hl)
  changed l hl hne := by
    by_cases heq : m''.promptAt l = m'.promptAt l
    · exact h'.kept l (h.changed l (h'.base.trans hl) (heq ▸ hne))
    · exact h'.changed l hl heq

/-- A change noted on the lines touched, where no other line's prompt changes. -/
theorem of_touched {m m' : Marks} (touched : List Nat) (hbase : m'.base = m.base)
    (hremarked : m'.remarkedRows = noteChanged m.promptAt m'.promptAt touched m.remarkedRows)
    (hsame : ∀ l, m'.base ≤ l → l ∉ touched → m'.promptAt l = m.promptAt l) : Noted m m' where
  base := hbase.ge
  kept l hl := by
    rw [hremarked]
    exact get?_noteChanged.mpr (Or.inr hl)
  changed l hl hne := by
    rw [hremarked]
    refine get?_noteChanged.mpr (Or.inl ⟨?_, hne⟩)
    by_contra hout
    exact hne (hsame l hl hout)

end Noted

/-- A change to a line's marks that leaves those from `low` on alone, where that line reaches every
line whose prompt depends on one before `low`. -/
theorem noted_remark {m : Marks} {line : Nat} {change : ExitMarks → Rows → ExitMarks × Rows}
    (low : Nat)
    (hexits : ∀ l, low ≤ l → l ≠ line →
      (change m.exitMarks m.promptStarts).1.get? l = m.exitMarks.get? l)
    (hstarts : ∀ l, low ≤ l → l ≠ line →
      (change m.exitMarks m.promptStarts).2.get? l = m.promptStarts.get? l)
    (hlow : ∀ l, m.base ≤ l → l ∉ reach line → low ≤ l - exitLookbackRows) :
    Noted m (m.remark line change) := by
  refine Noted.of_touched (reach line) rfl rfl fun l hl hout => ?_
  have hfar (k : Nat) (hk : l - exitLookbackRows ≤ k) (hkl : k ≤ l) : low ≤ k ∧ k ≠ line := by
    refine ⟨(hlow l hl hout).trans hk, ?_⟩
    rintro rfl
    exact hout (mem_reach.mpr ⟨hkl, by omega⟩)
  exact promptAt_congr (fun k hk hkl => hexits k (hfar k hk hkl).1 (hfar k hk hkl).2)
    fun k hk hkl => hstarts k (hfar k hk hkl).1 (hfar k hk hkl).2

theorem noted_evict (m : Marks) : Noted m m.evict := by
  unfold evict
  split
  · refine noted_remark m.base ?_ ?_ ?_
    · intro l hl _
      rw [OrdMap.get?_popBelow, if_neg (not_lt.mpr hl)]
    · intro l hl _
      rw [OrdMap.get?_popBelow, if_neg (not_lt.mpr hl)]
    · intro l hl hout
      rw [mem_reach] at hout
      omega
  · exact Noted.refl m

theorem noted_recordMark (m : Marks) (mark : Mark) (line : Option Nat) :
    Noted m (m.recordMark mark line) := by
  refine m.noted_evict.trans ?_
  generalize hevicted : m.evict = evicted
  cases line with
  | none => simpa only [recordMark, hevicted] using Noted.refl evicted
  | some line =>
    simp only [recordMark, hevicted]
    cases mark with
    | promptStart =>
      refine noted_remark 0 (fun _ _ _ => rfl) ?_ fun _ _ _ => Nat.zero_le _
      intro l _ hne
      rw [OrdMap.get?_insert, if_neg hne.symm]
    | commandEnd exit =>
      refine noted_remark 0 ?_ (fun _ _ _ => rfl) fun _ _ _ => Nat.zero_le _
      intro l _ hne
      rw [OrdMap.get?_insert, if_neg hne.symm]
    | outputStart => exact ⟨le_rfl, fun _ h => h, fun _ _ hne => absurd rfl hne⟩

theorem noted_erased (m : Marks) (line : Nat) : Noted m (m.erased line) := by
  unfold erased
  split
  · refine noted_remark 0 ?_ ?_ fun _ _ _ => Nat.zero_le _
    · intro l _ hne
      rw [OrdMap.get?_erase, if_neg hne]
    · intro l _ hne
      rw [OrdMap.get?_erase, if_neg hne]
  · exact Noted.refl m

theorem not_mem_touched {moved : List (Nat × Option Nat)} {l k : Nat} (hout : l ∉ touched moved)
    (hk : l - exitLookbackRows ≤ k) (hkl : k ≤ l) :
    k ∉ OrdMap.sources moved ∧ k ∉ OrdMap.targets moved := by
  have hreach : l ∈ reach k := mem_reach.mpr ⟨hkl, by omega⟩
  constructor
  · intro hsource
    obtain ⟨⟨_, target⟩, hmoved, rfl⟩ := List.mem_map.mp hsource
    exact hout (List.mem_flatMap.mpr ⟨_, hmoved, List.mem_append_left _ hreach⟩)
  · intro htarget
    obtain ⟨source, hmoved⟩ := OrdMap.mem_targets.mp htarget
    refine hout (List.mem_flatMap.mpr ⟨_, hmoved, List.mem_append_right _ ?_⟩)
    exact List.mem_flatMap.mpr ⟨k, by simp, hreach⟩

theorem noted_moveMarks (m : Marks) (moved : List (Nat × Option Nat)) :
    Noted m (m.moveMarks moved) := by
  refine Noted.of_touched (touched moved) rfl rfl fun l _ hout => ?_
  have hsame {α : Type} (marks : OrdMap Nat α) (k : Nat) (hk : l - exitLookbackRows ≤ k)
      (hkl : k ≤ l) : (marks.relocate moved).get? k = marks.get? k := by
    obtain ⟨hsource, htarget⟩ := not_mem_touched hout hk hkl
    rw [OrdMap.get?_relocate_other htarget, if_neg hsource]
  exact promptAt_congr (hsame m.exitMarks) (hsame m.promptStarts)

/-- Rows trade places: they leave lines apart for lines apart, and a line that a row comes to has
no mark but one of a row that leaves it. -/
structure Trades (m : Marks) (moved : List (Nat × Option Nat)) : Prop where
  sources : (OrdMap.sources moved).Nodup
  targets : (OrdMap.targets moved).Nodup
  free : ∀ l ∈ OrdMap.targets moved, l ∈ OrdMap.sources moved ∨ m.on l = (none, none, none)

structure Carried (m m' : Marks) (moved : List (Nat × Option Nat)) : Prop where
  entered : ∀ source target, (source, some target) ∈ moved → m'.on target = m.on source
  left : ∀ l ∈ OrdMap.sources moved, l ∉ OrdMap.targets moved → m'.on l = (none, none, none)
  stayed : ∀ l, l ∉ OrdMap.sources moved → l ∉ OrdMap.targets moved → m'.on l = m.on l

theorem carried_moveMarks {m : Marks} {moved : List (Nat × Option Nat)} (h : m.Trades moved) :
    Carried m (m.moveMarks moved) moved where
  entered source target hmoved := by
    have htarget := OrdMap.mem_targets.mpr ⟨source, hmoved⟩
    have hfree := h.free target htarget
    simp only [on, Prod.mk.injEq] at hfree ⊢
    refine ⟨?_, ?_, ?_⟩
    · exact OrdMap.get?_relocate_target h.sources h.targets hmoved (hfree.imp_right (·.1))
    · exact OrdMap.get?_relocate_target h.sources h.targets hmoved (hfree.imp_right (·.2.1))
    · exact OrdMap.get?_relocate_target h.sources h.targets hmoved (hfree.imp_right (·.2.2))
  left l hsource htarget := by
    simp only [on, moveMarks, OrdMap.get?_relocate_other htarget, if_pos hsource]
  stayed l hsource htarget := by
    simp only [on, moveMarks, OrdMap.get?_relocate_other htarget, if_neg hsource]

section Following

variable {ρ : Type}

/-- The lines that tracked rows left since their marks were counted there, each with the line that
its row is at now. -/
def movedRows (base : Nat) (place : ρ → Option Nat) (pinned : List (Nat × ρ)) :
    List (Nat × Option Nat) :=
  pinned.filterMap fun (line, row) =>
    let now := (place row).map (base + ·)
    if now ≠ some line then some (line, now) else none

/-- The rows still tracked, those on the screen. -/
def stillPinned (base history : Nat) (place : ρ → Option Nat) (pinned : List (Nat × ρ)) :
    List (Nat × ρ) :=
  pinned.filterMap fun (_, row) =>
    match place row with
    | some y => if history ≤ y then some (base + y, row) else none
    | none => none

/-- Move each mark with its row where content moved on the screen since its line was counted. -/
def followMarks (m : Marks) (history : Nat) (place : ρ → Option Nat) (pinned : List (Nat × ρ)) :
    Marks × List (Nat × ρ) :=
  let moved := movedRows m.base place pinned
  (if moved = [] then m else m.moveMarks moved, stillPinned m.base history place pinned)

/-- Each line's row is tracked once, rows are at places apart, and a row comes to no mark whose row
is not tracked. -/
structure Tracks (m : Marks) (place : ρ → Option Nat) (pinned : List (Nat × ρ)) : Prop where
  lines : (pinned.map Prod.fst).Nodup
  apart : ∀ a ∈ pinned, ∀ b ∈ pinned, ∀ y, place a.2 = some y → place b.2 = some y → a = b
  held : ∀ e ∈ pinned, ∀ y, place e.2 = some y →
    m.base + y ∈ pinned.map Prod.fst ∨ m.on (m.base + y) = (none, none, none)

theorem mem_movedRows {base : Nat} {place : ρ → Option Nat} {pinned : List (Nat × ρ)} {line : Nat}
    {now : Option Nat} :
    (line, now) ∈ movedRows base place pinned ↔
      ∃ row, (line, row) ∈ pinned ∧ (place row).map (base + ·) = now ∧ now ≠ some line := by
  simp only [movedRows, List.mem_filterMap, Prod.exists, Option.ite_none_right_eq_some,
    Option.some.injEq, Prod.mk.injEq]
  constructor
  · rintro ⟨line', row, hmem, hne, rfl, rfl⟩
    exact ⟨row, hmem, rfl, hne⟩
  · rintro ⟨row, hmem, rfl, hne⟩
    exact ⟨line, row, hmem, hne, rfl, rfl⟩

namespace Tracks

variable {m : Marks} {place : ρ → Option Nat} {pinned : List (Nat × ρ)}

theorem sources_nodup (h : m.Tracks place pinned) :
    (OrdMap.sources (movedRows m.base place pinned)).Nodup := by
  refine List.pairwise_map.mpr (List.pairwise_filterMap.mpr ?_)
  refine (List.pairwise_map.mp h.lines).imp fun {a b} hne => ?_
  rintro e he e' he'
  simp only [Option.ite_none_right_eq_some, Option.some.injEq] at he he'
  rw [← he.2, ← he'.2]
  exact hne

theorem targets_nodup (h : m.Tracks place pinned) :
    (OrdMap.targets (movedRows m.base place pinned)).Nodup := by
  have hpinned : pinned.Nodup := List.Nodup.of_map _ h.lines
  refine List.pairwise_filterMap.mpr (List.pairwise_filterMap.mpr ?_)
  refine hpinned.pairwise_of_forall_ne fun a ha b hb hne => ?_
  rintro e he e' he' t ht t' ht' rfl
  simp only [Option.ite_none_right_eq_some, Option.some.injEq] at he he'
  rw [← he.2, Option.map_eq_some_iff] at ht
  rw [← he'.2, Option.map_eq_some_iff] at ht'
  obtain ⟨y, hy, hyt⟩ := ht
  obtain ⟨y', hy', hyt'⟩ := ht'
  have hyy : y' = y := by omega
  exact hne (h.apart a ha b hb y hy (hyy ▸ hy'))

theorem trades (h : m.Tracks place pinned) : m.Trades (movedRows m.base place pinned) where
  sources := h.sources_nodup
  targets := h.targets_nodup
  free l hl := by
    obtain ⟨line, hmoved⟩ := OrdMap.mem_targets.mp hl
    obtain ⟨row, hrow, hnow, hne⟩ := mem_movedRows.mp hmoved
    obtain ⟨y, hy, rfl⟩ := Option.map_eq_some_iff.mp hnow
    refine (h.held _ hrow y hy).imp_left fun hpinned => ?_
    obtain ⟨⟨_, row'⟩, hrow', rfl⟩ := List.mem_map.mp hpinned
    refine OrdMap.mem_sources (mem_movedRows.mpr ⟨row', hrow', rfl, fun hstays => hne ?_⟩)
    obtain ⟨y', hy', hyy⟩ := Option.map_eq_some_iff.mp hstays
    have heq : y' = y := by omega
    have hsame := h.apart _ hrow _ hrow' y hy (heq ▸ hy')
    exact congrArg (fun e => some e.1) hsame.symm

theorem on_followMarks (m : Marks) (history : Nat) (place : ρ → Option Nat)
    (pinned : List (Nat × ρ)) (l : Nat) :
    (m.followMarks history place pinned).1.on l =
      (m.moveMarks (movedRows m.base place pinned)).on l := by
  simp only [followMarks]
  split
  · rename_i hnone
    rw [hnone]
    rfl
  · rfl

theorem carried (h : m.Tracks place pinned) {line y : Nat} {row : ρ} (hrow : (line, row) ∈ pinned)
    (hy : place row = some y) (history : Nat) :
    (m.followMarks history place pinned).1.on (m.base + y) = m.on line := by
  have hcarried := carried_moveMarks h.trades
  rw [on_followMarks]
  by_cases hstays : m.base + y = line
  · rw [hstays]
    refine hcarried.stayed line ?_ ?_
    · intro hsource
      obtain ⟨⟨_, now⟩, hmoved, rfl⟩ := List.mem_map.mp hsource
      obtain ⟨row', hrow', hnow, hne⟩ := mem_movedRows.mp hmoved
      have hlines := (List.nodup_map_iff_inj_on (List.Nodup.of_map _ h.lines)).mp h.lines
      have hsame : row' = row := congrArg Prod.snd (hlines _ hrow' _ hrow rfl)
      rw [hsame, hy, Option.map_some, hstays] at hnow
      exact hne hnow.symm
    · intro htarget
      obtain ⟨source, hmoved⟩ := OrdMap.mem_targets.mp htarget
      obtain ⟨row', hrow', hnow, hne⟩ := mem_movedRows.mp hmoved
      obtain ⟨y', hy', hyy⟩ := Option.map_eq_some_iff.mp hnow
      have heq : y' = y := by omega
      have hsame := h.apart _ hrow' _ hrow y (heq ▸ hy') hy
      exact hne (congrArg (fun e => some e.1) hsame).symm
  · refine hcarried.entered line _ (mem_movedRows.mpr ⟨row, hrow, by rw [hy]; rfl, ?_⟩)
    exact fun heq => hstays (Option.some.inj heq)

end Tracks

end Following

/-- What happens to the marks from one write or frame to the next. -/
inductive Op where
  | recordMark (mark : Mark) (line : Option Nat)
  | moveMarks (moved : List (Nat × Option Nat))
  | erased (line : Nat)
  /-- A frame takes a row. -/
  | visited (line : Nat) (forcing : Bool)
  /-- A frame went out whole. -/
  | framed (forcing : Bool)
  /-- Nobody is watching. -/
  | discarded
  /-- The history let go of some more lines. -/
  | settled (gone : Nat)
  /-- Another screen's lines, or a new numbering. -/
  | renumbered (base : Nat) (exitMarks : ExitMarks) (promptStarts : Rows)

def apply (m : Marks) : Op → Marks
  | .recordMark mark line => m.recordMark mark line
  | .moveMarks moved => m.moveMarks moved
  | .erased line => m.erased line
  | .visited line forcing =>
      { m with
        forcedRows := if forcing then m.forcedRows.erase line else m.forcedRows
        remarkedRows := m.remarkedRows.erase line }
  | .framed forcing =>
      { m with
        forcedRows := if forcing then .empty else m.forcedRows
        remarkedRows := .empty }
  | .discarded => { m with forcedRows := .empty, remarkedRows := .empty }
  | .settled gone => { m with base := m.base + gone }
  | .renumbered base exitMarks promptStarts =>
      { exitMarks := exitMarks
        promptStarts := promptStarts
        forcedRows := .empty
        remarkedRows := .empty
        base := base }

/-- The prompt of each row when it was last cleared, after an operation: the rows that it clears
are told as they are then. -/
def tellAfter (m : Marks) (told : Nat → Bool × Option UInt8) : Op → Nat → Bool × Option UInt8
  | .visited line _ => fun l => if l = line then m.promptAt l else told l
  | .framed _ | .discarded => m.promptAt
  | .renumbered base exitMarks promptStarts =>
      (m.apply (.renumbered base exitMarks promptStarts)).promptAt
  | _ => told

def run (m : Marks) (told : Nat → Bool × Option UInt8) :
    List Op → Marks × (Nat → Bool × Option UInt8)
  | [] => (m, told)
  | op :: ops => run (m.apply op) (m.tellAfter told op) ops

/-- Every row of the history and the screen whose prompt changed since it was told is noted. -/
def Owed (m : Marks) (told : Nat → Bool × Option UInt8) : Prop :=
  ∀ l, m.base ≤ l → m.promptAt l ≠ told l → (m.remarkedRows.get? l).isSome

theorem Noted.owed {m m' : Marks} {told : Nat → Bool × Option UInt8} (h : Noted m m')
    (howed : Owed m told) : Owed m' told := by
  intro l hl hne
  by_cases heq : m'.promptAt l = m.promptAt l
  · exact h.kept l (howed l (h.base.trans hl) (heq ▸ hne))
  · exact h.changed l hl heq

theorem owed_apply {m : Marks} {told : Nat → Bool × Option UInt8} (howed : Owed m told) (op : Op) :
    Owed (m.apply op) (m.tellAfter told op) := by
  cases op with
  | recordMark mark line => exact (m.noted_recordMark mark line).owed howed
  | moveMarks moved => exact (m.noted_moveMarks moved).owed howed
  | erased line => exact (m.noted_erased line).owed howed
  | visited line forcing =>
    intro l hl hne
    simp only [apply, tellAfter, OrdMap.get?_erase] at hne ⊢
    by_cases hline : l = line
    · rw [if_pos hline] at hne
      exact absurd rfl hne
    · rw [if_neg hline] at hne ⊢
      exact howed l hl hne
  | framed forcing => exact fun l _ hne => absurd rfl hne
  | discarded => exact fun l _ hne => absurd rfl hne
  | settled gone => exact fun l hl hne => howed l ((Nat.le_add_right _ _).trans hl) hne
  | renumbered base exitMarks promptStarts => exact fun l _ hne => absurd rfl hne

theorem owed_run {m : Marks} {told : Nat → Bool × Option UInt8} (howed : Owed m told)
    (ops : List Op) : Owed (m.run told ops).1 (m.run told ops).2 := by
  induction ops generalizing m told with
  | nil => exact howed
  | cons op ops ih => exact ih (owed_apply howed op)

/-- After any operations on the marks since they were last told, a row whose prompt is another one
than it was told is noted; and marks whose rows trade places then go one to one with them. -/
theorem remarked_and_carried (m : Marks) (ops : List Op) (moved : List (Nat × Option Nat)) :
    let after := m.run m.promptAt ops
    (∀ l, after.1.base ≤ l → after.1.promptAt l ≠ after.2 l →
      (after.1.remarkedRows.get? l).isSome) ∧
      (after.1.Trades moved → Carried after.1 (after.1.moveMarks moved) moved) :=
  ⟨owed_run (fun _ _ hne => absurd rfl hne) ops, carried_moveMarks⟩

def empty : Marks := ⟨.empty, .empty, .empty, .empty, 0⟩

/-- A status and a prompt one line apart, and their rows trading places. -/
theorem remarked_and_carried_trade :
    let after := empty.run empty.promptAt
      [.recordMark (.commandEnd (some 1)) (some 3), .recordMark .promptStart (some 4)]
    (after.1.remarkedRows.get? 4).isSome ∧
      Carried after.1 (after.1.moveMarks [(3, some 4), (4, some 3)]) [(3, some 4), (4, some 3)] := by
  refine ⟨(remarked_and_carried empty _ []).1 4 (by decide) (by decide), ?_⟩
  exact (remarked_and_carried empty _ _).2 ⟨by decide, by decide, by decide⟩

end Marks

end Slopty.Engine
