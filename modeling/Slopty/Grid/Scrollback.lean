import Slopty.Grid.Line
import Slopty.Lib.Machine
import Slopty.Lib.OrdMap
import Slopty.Lib.Runs
import Mathlib.Order.Fin.Basic

/-!
The client's cache of lines by their number since the session's start. It holds what the worker can
still serve, with an index of the lines that start a prompt, and past its capacity the lines
farthest from the view go.
-/

namespace Slopty.Grid

open Slopty.Lib

/-- A line's number since the session's start. -/
abbrev LineIndex := Fin (2 ^ 64)

instance neZero_lines : NeZero (2 ^ 64) := ⟨by decide⟩

namespace LineIndex

def next (i : LineIndex) : LineIndex :=
  if h : i.val + 1 < 2 ^ 64 then ⟨i.val + 1, h⟩ else i

def absDiff (i j : LineIndex) : Nat := (i.val - j.val) + (j.val - i.val)

end LineIndex

/-- Lines from one number up to another. -/
structure LineRange where
  start : LineIndex
  stop : LineIndex

namespace LineRange

def contains (r : LineRange) (i : LineIndex) : Bool := decide (r.start ≤ i ∧ i < r.stop)

/-- No lines: what a trim that spares nothing spares. -/
def nothing : LineRange := ⟨0, 0⟩

end LineRange

structure Scrollback where
  lines : OrdMap LineIndex Line
  /-- The cached lines that start a prompt. -/
  prompts : OrdMap LineIndex Unit
  capacity : Nat
  /-- The lines the worker has. -/
  total : Nat
  /-- The first line the worker can still serve. -/
  oldest : LineIndex
  /-- The line the viewer looks at. -/
  focus : LineIndex
  /-- The screen's first row. -/
  screen : LineIndex

namespace Scrollback

def new (capacity : Nat) : Scrollback :=
  { lines := OrdMap.empty
    prompts := OrdMap.empty
    capacity := capacity
    total := 0
    oldest := 0
    focus := Fin.last _
    screen := Fin.last _ }

def setView (s : Scrollback) (top screen : LineIndex) : Scrollback :=
  { s with focus := top, screen := screen }

/-- How far a line is from the view. -/
def distance (s : Scrollback) (i : LineIndex) : Nat := i.absDiff s.focus

/-- The first line that may go: past the ones kept, before the screen. -/
def low (s : Scrollback) (keep : LineRange) : Option LineIndex :=
  let low := match s.lines.first?.map Prod.fst with
    | some i => if keep.contains i then s.lines.firstFrom? keep.stop else some i
    | none => none
  low.filter fun i => decide (i < s.screen)

/-- The last line that may go. -/
def high (s : Scrollback) (keep : LineRange) : Option LineIndex :=
  match s.lines.lastBelow? s.screen with
  | some i => if keep.contains i then s.lines.lastBelow? keep.start else some i
  | none => none

/-- The line to evict: of the first and the last that may go the one farther from the view. -/
def victim (s : Scrollback) (keep : LineRange) : Option LineIndex :=
  match s.low keep, s.high keep with
  | some low, some high => some (if s.distance low < s.distance high then high else low)
  | some only, none => some only
  | none, some only => some only
  | none, none => none

def evict (s : Scrollback) (i : LineIndex) : Scrollback :=
  { s with lines := s.lines.erase i, prompts := s.prompts.erase i }

/-- The rounds of `trim`; each one evicts a line. -/
def trimRounds (keep : LineRange) : Nat → Scrollback → Scrollback
  | 0, s => s
  | rounds + 1, s =>
      if s.capacity < s.lines.size then
        match s.victim keep with
        | some i => trimRounds keep rounds (s.evict i)
        | none => s
      else s

/-- Evict past capacity, farthest from the view first, sparing `keep` and the screen. -/
def trim (s : Scrollback) (keep : LineRange) : Scrollback := trimRounds keep s.lines.size s

/-- The worker's line count and the first line it holds. -/
def setExtent (s : Scrollback) (oldest : LineIndex) (total : Nat) : Scrollback :=
  let s := { s with total := total }
  let s :=
    if s.oldest < oldest then
      { s with
        oldest := oldest
        lines := s.lines.popBelow oldest
        prompts := s.prompts.popBelow oldest }
    else { s with oldest := oldest }
  s.trim .nothing

def put (s : Scrollback) (i : LineIndex) (line : Line) : Scrollback :=
  if i < s.oldest then s
  else
    { s with
      prompts := if line.mark.startsPrompt then s.prompts.insert i () else s.prompts.erase i
      lines := s.lines.insert i line
      total := max s.total (min (i.val + 1) (2 ^ 64 - 1)) }

def insert (s : Scrollback) (i : LineIndex) (line : Line) : Scrollback := (s.put i line).trim .nothing

/-- Put lines one after another; with the number after the last of them. -/
def putAll (s : Scrollback) (i : LineIndex) : List Line → Scrollback × LineIndex
  | [] => (s, i)
  | line :: rest => (s.put i line).putAll i.next rest

/-- Insert lines one after another, and spare them when lines have to go. -/
def insertBatch (s : Scrollback) (start : LineIndex) (lines : List Line) : Scrollback :=
  let (s, stop) := s.putAll start lines
  s.trim ⟨start, stop⟩

inductive Op where
  | setView (top screen : LineIndex)
  | setExtent (oldest : LineIndex) (total : Nat)
  | insert (i : LineIndex) (line : Line)
  | insertBatch (start : LineIndex) (lines : List Line)
  | trim (keep : LineRange)

def step (s : Scrollback) : Op → Scrollback
  | .setView top screen => s.setView top screen
  | .setExtent oldest total => s.setExtent oldest total
  | .insert i line => s.insert i line
  | .insertBatch start lines => s.insertBatch start lines
  | .trim keep => s.trim keep

def Cached (s : Scrollback) (i : LineIndex) : Prop := (s.lines.get? i).isSome

/-- A cached line that may go: not kept, and above the screen. -/
def MayGo (s : Scrollback) (keep : LineRange) (i : LineIndex) : Prop :=
  s.Cached i ∧ keep.contains i = false ∧ i < s.screen

/-- The index is of the cached lines that start a prompt, and no cached line is one the worker
dropped. -/
structure Represents (s : Scrollback) : Prop where
  prompts : ∀ i, (s.prompts.get? i).isSome ↔ ∃ line, s.lines.get? i = some line ∧
    line.mark.startsPrompt
  oldest : ∀ i, s.Cached i → s.oldest ≤ i

/-- What a trim leaves: the lines it took could go, none that is left and could go is farther than
one it took, and it went on until there was room or nothing could go. -/
structure Trimmed (keep : LineRange) (s after : Scrollback) : Prop where
  taken : ∀ i, after.lines.get? i = s.lines.get? i ∨
    after.lines.get? i = none ∧ s.MayGo keep i
  farthest : ∀ i j, s.Cached i → ¬ after.Cached i → after.MayGo keep j →
    s.distance j ≤ s.distance i
  room : after.lines.size ≤ s.capacity ∨ ∀ i, ¬ after.MayGo keep i

/-- The numbers of lines put one after another. -/
def batch (start : LineIndex) : Nat → List LineIndex
  | 0 => []
  | n + 1 => start :: batch start.next n

section Victim

variable {s : Scrollback} {keep : LineRange}

theorem low_eq_some {i : LineIndex} (h : s.low keep = some i) :
    s.MayGo keep i ∧ ∀ j, s.MayGo keep j → i ≤ j := by
  obtain ⟨hlow, hscreen⟩ := Option.filter_eq_some_iff.mp h
  have hscreen := of_decide_eq_true hscreen
  cases hfirst : s.lines.first? with
  | none =>
    rw [hfirst] at hlow
    exact absurd hlow nofun
  | some e =>
    obtain ⟨first, line⟩ := e
    obtain ⟨hget, hle⟩ := OrdMap.first?_eq_some hfirst
    rw [hfirst] at hlow
    dsimp only [Option.map_some] at hlow
    have hmin : ∀ j, s.Cached j → first ≤ j := by
      intro j hj
      obtain ⟨w, hw⟩ := Option.isSome_iff_exists.mp hj
      exact hle j w hw
    by_cases hkeep : keep.contains first = true
    · rw [if_pos hkeep] at hlow
      obtain ⟨hcached, hstop, hnext⟩ := OrdMap.firstFrom?_eq_some hlow
      have hfrom := of_decide_eq_true hkeep
      refine ⟨⟨hcached, ?_, hscreen⟩, ?_⟩
      · exact decide_eq_false fun hin => absurd hin.2 (not_lt.mpr hstop)
      · intro j hj
        -- What may go is not among the kept, and all before them is after the first.
        have hout := of_decide_eq_false hj.2.1
        refine hnext j hj.1 (not_lt.mp fun hlt => hout ⟨?_, hlt⟩)
        exact hfrom.1.trans (hmin j hj.1)
    · rw [if_neg hkeep] at hlow
      obtain rfl := Option.some.inj hlow
      refine ⟨⟨?_, Bool.not_eq_true _ ▸ hkeep, hscreen⟩, fun j hj => hmin j hj.1⟩
      rw [Cached, hget]
      rfl

theorem low_eq_none (h : s.low keep = none) (i : LineIndex) : ¬ s.MayGo keep i := by
  intro hi
  have hnot := Option.filter_eq_none_iff.mp h
  cases hfirst : s.lines.first? with
  | none =>
    have hcached := hi.1
    rw [Cached, OrdMap.first?_eq_none hfirst] at hcached
    exact absurd hcached nofun
  | some e =>
    obtain ⟨first, line⟩ := e
    obtain ⟨hget, hle⟩ := OrdMap.first?_eq_some hfirst
    obtain ⟨w, hw⟩ := Option.isSome_iff_exists.mp hi.1
    rw [hfirst] at hnot
    dsimp only [Option.map_some] at hnot
    by_cases hkeep : keep.contains first = true
    · rw [if_pos hkeep] at hnot
      have hfrom := of_decide_eq_true hkeep
      have hstop : keep.stop ≤ i := by
        have hout := of_decide_eq_false hi.2.1
        exact not_lt.mp fun hlt => hout ⟨hfrom.1.trans (hle i w hw), hlt⟩
      cases hnext : s.lines.firstFrom? keep.stop with
      | none => exact absurd (OrdMap.firstFrom?_eq_none hnext hi.1) (not_lt.mpr hstop)
      | some j =>
        have hji := (OrdMap.firstFrom?_eq_some hnext).2.2 i hi.1 hstop
        exact hnot j hnext (decide_eq_true (hji.trans_lt hi.2.2))
    · rw [if_neg hkeep] at hnot
      exact hnot first rfl (decide_eq_true ((hle i w hw).trans_lt hi.2.2))

theorem high_eq_some {i : LineIndex} (h : s.high keep = some i) :
    s.MayGo keep i ∧ ∀ j, s.MayGo keep j → j ≤ i := by
  unfold high at h
  cases hlast : s.lines.lastBelow? s.screen with
  | none =>
    rw [hlast] at h
    exact absurd h nofun
  | some last =>
    obtain ⟨hcached, hscreen, hmax⟩ := OrdMap.lastBelow?_eq_some hlast
    rw [hlast] at h
    dsimp only at h
    by_cases hkeep : keep.contains last = true
    · rw [if_pos hkeep] at h
      obtain ⟨hcached, hstart, hprev⟩ := OrdMap.lastBelow?_eq_some h
      have hto := of_decide_eq_true hkeep
      refine ⟨⟨hcached, ?_, hstart.trans (hto.1.trans_lt hscreen)⟩, ?_⟩
      · exact decide_eq_false fun hin => absurd hin.1 (not_le.mpr hstart)
      · intro j hj
        have hout := of_decide_eq_false hj.2.1
        refine hprev j hj.1 (not_le.mp fun hle => hout ⟨hle, ?_⟩)
        exact (hmax j hj.1 hj.2.2).trans_lt hto.2
    · rw [if_neg hkeep] at h
      obtain rfl := Option.some.inj h
      exact ⟨⟨hcached, Bool.not_eq_true _ ▸ hkeep, hscreen⟩, fun j hj => hmax j hj.1 hj.2.2⟩

theorem high_eq_none (h : s.high keep = none) (i : LineIndex) : ¬ s.MayGo keep i := by
  intro hi
  unfold high at h
  cases hlast : s.lines.lastBelow? s.screen with
  | none => exact absurd hi.2.2 (not_lt.mpr (OrdMap.lastBelow?_eq_none hlast hi.1))
  | some last =>
    obtain ⟨-, -, hmax⟩ := OrdMap.lastBelow?_eq_some hlast
    rw [hlast] at h
    dsimp only at h
    by_cases hkeep : keep.contains last = true
    · rw [if_pos hkeep] at h
      have hto := of_decide_eq_true hkeep
      have hout := of_decide_eq_false hi.2.1
      refine hout ⟨OrdMap.lastBelow?_eq_none h hi.1, ?_⟩
      exact (hmax i hi.1 hi.2.2).trans_lt hto.2
    · rw [if_neg hkeep] at h
      exact absurd h nofun

theorem distance_le_of_between {s : Scrollback} {i low high : LineIndex} (hlow : low ≤ i)
    (hhigh : i ≤ high) : s.distance i ≤ max (s.distance low) (s.distance high) := by
  have hlow : low.val ≤ i.val := hlow
  have hhigh : i.val ≤ high.val := hhigh
  unfold distance LineIndex.absDiff
  omega

theorem victim_eq_some {i : LineIndex} (h : s.victim keep = some i) :
    s.MayGo keep i ∧ ∀ j, s.MayGo keep j → s.distance j ≤ s.distance i := by
  unfold victim at h
  cases hlow : s.low keep with
  | none =>
    cases hhigh : s.high keep with
    | none => simp [hlow, hhigh] at h
    | some high => exact absurd (high_eq_some hhigh).1 (low_eq_none hlow high)
  | some low =>
    obtain ⟨hmaylow, hmin⟩ := low_eq_some hlow
    cases hhigh : s.high keep with
    | none => exact absurd hmaylow (high_eq_none hhigh low)
    | some high =>
      obtain ⟨hmayhigh, hmax⟩ := high_eq_some hhigh
      rw [hlow, hhigh] at h
      obtain rfl := Option.some.inj h
      have hboth : ∀ j, s.MayGo keep j →
          s.distance j ≤ max (s.distance low) (s.distance high) :=
        fun j hj => distance_le_of_between (hmin j hj) (hmax j hj)
      split
      · rename_i hlt
        exact ⟨hmayhigh, fun j hj => (hboth j hj).trans (max_le hlt.le le_rfl)⟩
      · rename_i hge
        exact ⟨hmaylow, fun j hj => (hboth j hj).trans (max_le le_rfl (not_lt.mp hge))⟩

theorem victim_eq_none (h : s.victim keep = none) (i : LineIndex) : ¬ s.MayGo keep i := by
  cases hlow : s.low keep with
  | none => exact low_eq_none hlow i
  | some low =>
    cases hhigh : s.high keep with
    | none => exact high_eq_none hhigh i
    | some high => simp [victim, hlow, hhigh] at h

end Victim

section Trim

variable {s : Scrollback} {keep : LineRange}

theorem get?_evict (s : Scrollback) (i j : LineIndex) :
    (s.evict i).lines.get? j = if j = i then none else s.lines.get? j :=
  OrdMap.get?_erase _ _ _

theorem MayGo.of_evict {i j : LineIndex} (h : (s.evict i).MayGo keep j) : s.MayGo keep j := by
  refine ⟨?_, h.2⟩
  have hcached := h.1
  rw [Cached, get?_evict] at hcached
  split at hcached
  · exact absurd hcached nofun
  · exact hcached

theorem trimRounds_frame (keep : LineRange) (rounds : Nat) (s : Scrollback) :
    (trimRounds keep rounds s).capacity = s.capacity ∧
      (trimRounds keep rounds s).oldest = s.oldest ∧
      (trimRounds keep rounds s).focus = s.focus ∧
      (trimRounds keep rounds s).screen = s.screen := by
  induction rounds generalizing s with
  | zero => exact ⟨rfl, rfl, rfl, rfl⟩
  | succ rounds ih =>
    rw [trimRounds]
    split
    · split
      · rename_i i _
        exact ih (s.evict i)
      · exact ⟨rfl, rfl, rfl, rfl⟩
    · exact ⟨rfl, rfl, rfl, rfl⟩

/-- With a round for each line there is room at the end, or nothing may go. -/
theorem trimRounds_trimmed {rounds : Nat} (hrounds : s.lines.size ≤ rounds) :
    Trimmed keep s (trimRounds keep rounds s) := by
  induction rounds generalizing s with
  | zero =>
    have hempty : s.lines.size ≤ s.capacity := hrounds.trans (Nat.zero_le _)
    exact ⟨fun _ => Or.inl rfl, fun _ _ hin hout => absurd hin hout, Or.inl hempty⟩
  | succ rounds ih =>
    rw [trimRounds]
    split
    · split
      · rename_i i hi
        obtain ⟨hmay, hfar⟩ := victim_eq_some hi
        obtain ⟨line, hline⟩ := Option.isSome_iff_exists.mp hmay.1
        have hfewer : (s.evict i).lines.size < s.lines.size := OrdMap.size_erase_lt hline
        obtain ⟨htaken, hfarthest, hroom⟩ := ih (s := s.evict i) (by omega)
        refine ⟨fun j => ?_, fun j k hin hout hk => ?_, hroom⟩
        · rcases htaken j with hsame | ⟨hgone, hj⟩
          · rw [hsame, get?_evict]
            by_cases hji : j = i
            · subst hji
              rw [if_pos rfl]
              exact Or.inr ⟨rfl, hmay⟩
            · rw [if_neg hji]
              exact Or.inl rfl
          · exact Or.inr ⟨hgone, hj.of_evict⟩
        · by_cases hji : j = i
          · -- The first line taken was the farthest of all that could go.
            subst hji
            have hkept : (s.evict j).MayGo keep k := by
              obtain ⟨-, -, -, hscreen⟩ := trimRounds_frame keep rounds (s.evict j)
              refine ⟨?_, hk.2.1, hscreen ▸ hk.2.2⟩
              rcases htaken k with hsame | ⟨hgone, -⟩
              · rw [Cached, ← hsame]
                exact hk.1
              · have hcached := hk.1
                rw [Cached, hgone] at hcached
                exact absurd hcached nofun
            exact hfar k hkept.of_evict
          · have hin : (s.evict i).Cached j := by
              rw [Cached, get?_evict, if_neg hji]
              exact hin
            exact hfarthest j k hin hout hk
      · rename_i hnone
        exact ⟨fun _ => Or.inl rfl, fun _ _ hin hout => absurd hin hout,
          Or.inr fun i => victim_eq_none hnone i⟩
    · rename_i hroom
      exact ⟨fun _ => Or.inl rfl, fun _ _ hin hout => absurd hin hout, Or.inl (not_lt.mp hroom)⟩

theorem trim_trimmed (s : Scrollback) (keep : LineRange) : Trimmed keep s (s.trim keep) :=
  trimRounds_trimmed le_rfl

theorem Trimmed.get?_eq {after : Scrollback} (h : Trimmed keep s after) {i : LineIndex}
    (hi : keep.contains i = true ∨ s.screen ≤ i) : after.lines.get? i = s.lines.get? i := by
  rcases h.taken i with hsame | ⟨-, hmay⟩
  · exact hsame
  · rcases hi with hkeep | hscreen
    · rw [hmay.2.1] at hkeep
      exact absurd hkeep nofun
    · exact absurd hmay.2.2 (not_lt.mpr hscreen)

end Trim

namespace Represents

variable {s : Scrollback}

theorem evict (h : s.Represents) (i : LineIndex) : (s.evict i).Represents := by
  constructor
  · intro j
    rw [get?_evict]
    show ((s.prompts.erase i).get? j).isSome ↔ _
    rw [OrdMap.get?_erase]
    by_cases hji : j = i
    · simp [hji]
    · rw [if_neg hji, if_neg hji]
      exact h.prompts j
  · intro j hj
    rw [Cached, get?_evict] at hj
    split at hj
    · exact absurd hj nofun
    · exact h.oldest j hj

theorem trim (h : s.Represents) (keep : LineRange) : (s.trim keep).Represents := by
  unfold Scrollback.trim
  generalize s.lines.size = rounds
  induction rounds generalizing s with
  | zero => exact h
  | succ rounds ih =>
    rw [trimRounds]
    split
    · split
      · rename_i i _
        exact ih (h.evict i)
      · exact h
    · exact h

theorem put (h : s.Represents) (i : LineIndex) (line : Line) : (s.put i line).Represents := by
  unfold Scrollback.put
  split
  · exact h
  · rename_i hold
    constructor
    · intro j
      dsimp only
      rw [OrdMap.get?_insert]
      by_cases hji : j = i
      · subst hji
        rw [if_pos rfl]
        cases hmark : line.mark.startsPrompt <;> simp [hmark]
      · have hij : ¬ i = j := fun hij => hji hij.symm
        rw [if_neg hij, ← h.prompts j]
        cases line.mark.startsPrompt
        · rw [if_neg Bool.false_ne_true, OrdMap.get?_erase, if_neg hji]
        · rw [if_pos rfl, OrdMap.get?_insert, if_neg hij]
    · intro j hj
      change ((s.lines.insert i line).get? j).isSome at hj
      rw [OrdMap.get?_insert] at hj
      split at hj
      · rename_i hij
        exact hij ▸ not_lt.mp hold
      · exact h.oldest j hj

theorem putAll (h : s.Represents) (i : LineIndex) (lines : List Line) :
    (s.putAll i lines).1.Represents := by
  induction lines generalizing s i with
  | nil => exact h
  | cons line rest ih => exact ih (h.put i line) i.next

theorem setExtent (h : s.Represents) (oldest : LineIndex) (total : Nat) :
    (s.setExtent oldest total).Represents := by
  unfold Scrollback.setExtent
  dsimp only
  split
  · refine trim ⟨fun i => ?_, fun i hi => ?_⟩ _
    · dsimp only
      rw [OrdMap.get?_popBelow, OrdMap.get?_popBelow]
      by_cases hlt : i < oldest
      · simp [hlt]
      · rw [if_neg hlt, if_neg hlt]
        exact h.prompts i
    · change ((s.lines.popBelow oldest).get? i).isSome at hi
      rw [OrdMap.get?_popBelow] at hi
      split at hi
      · exact absurd hi nofun
      · rename_i hge
        exact not_lt.mp hge
  · rename_i hge
    refine trim ?_ _
    exact ⟨h.prompts, fun i hi => (not_lt.mp hge).trans (h.oldest i hi)⟩

theorem step (h : s.Represents) (op : Op) : (s.step op).Represents := by
  cases op with
  | setView top screen => exact ⟨h.prompts, h.oldest⟩
  | setExtent oldest total => exact h.setExtent oldest total
  | insert i line => exact (h.put i line).trim _
  | insertBatch start lines => exact (h.putAll start lines).trim _
  | trim keep => exact h.trim keep

theorem foldl (h : s.Represents) (ops : List Op) : (ops.foldl Scrollback.step s).Represents := by
  induction ops generalizing s with
  | nil => exact h
  | cons op rest ih => exact ih (h.step op)

end Represents

theorem new_represents (capacity : Nat) : (new capacity).Represents := by
  refine ⟨fun i => ⟨fun h => absurd h nofun, ?_⟩, fun i h => absurd h nofun⟩
  rintro ⟨line, hline, -⟩
  exact absurd hline nofun

section Batch

theorem LineIndex.le_next (i : LineIndex) : i ≤ i.next := by
  unfold LineIndex.next
  split
  · exact Nat.le_succ i.val
  · exact le_rfl

/-- A number is before the next one, but for the last number there is. -/
theorem LineIndex.lt_next {i : LineIndex} (h : i ≠ Fin.last _) : i < i.next := by
  have hlt : i.val + 1 < 2 ^ 64 := by
    have hne : i.val ≠ 2 ^ 64 - 1 := fun heq => h (Fin.ext heq)
    have := i.isLt
    omega
  unfold LineIndex.next
  rw [dif_pos hlt]
  exact Nat.lt_succ_self i.val

theorem putAll_screen (s : Scrollback) (i : LineIndex) (lines : List Line) :
    (s.putAll i lines).1.screen = s.screen ∧ (s.putAll i lines).1.oldest = s.oldest := by
  induction lines generalizing s i with
  | nil => exact ⟨rfl, rfl⟩
  | cons line rest ih =>
    have hput : (s.put i line).screen = s.screen ∧ (s.put i line).oldest = s.oldest := by
      unfold put
      split <;> exact ⟨rfl, rfl⟩
    exact ⟨(ih _ _).1.trans hput.1, (ih _ _).2.trans hput.2⟩

theorem le_putAll_stop (s : Scrollback) (i : LineIndex) (lines : List Line) :
    i ≤ (s.putAll i lines).2 := by
  induction lines generalizing s i with
  | nil => exact le_rfl
  | cons line rest ih => exact (LineIndex.le_next i).trans (ih _ _)

/-- The numbers of a batch are in the range kept for it, but for the last number there is. -/
theorem contains_batch (s : Scrollback) {start : LineIndex} {lines : List Line} {i : LineIndex}
    (hi : i ∈ batch start lines.length) (hlast : i ≠ Fin.last _) :
    start ≤ i ∧ i < (s.putAll start lines).2 := by
  induction lines generalizing s start with
  | nil => exact absurd hi nofun
  | cons line rest ih =>
    rcases List.mem_cons.mp hi with rfl | hi
    · exact ⟨le_rfl, (LineIndex.lt_next hlast).trans_le (le_putAll_stop _ _ _)⟩
    · obtain ⟨hle, hlt⟩ := ih (s.put start line) hi
      exact ⟨(LineIndex.le_next start).trans hle, hlt⟩

theorem put_cached {s : Scrollback} {i j : LineIndex} (line : Line) (h : s.Cached j) :
    (s.put i line).Cached j := by
  unfold put
  split
  · exact h
  · show ((s.lines.insert i line).get? j).isSome
    rw [OrdMap.get?_insert]
    split
    · rfl
    · exact h

theorem putAll_cached {s : Scrollback} {i j : LineIndex} (lines : List Line) (h : s.Cached j) :
    (s.putAll i lines).1.Cached j := by
  induction lines generalizing s i with
  | nil => exact h
  | cons line rest ih => exact ih (put_cached line h)

/-- A batch is there once it is put, as far as the worker still serves its lines. -/
theorem batch_cached {s : Scrollback} {start i : LineIndex} {lines : List Line}
    (hi : i ∈ batch start lines.length) (hold : s.oldest ≤ i) :
    (s.putAll start lines).1.Cached i := by
  induction lines generalizing s start with
  | nil => exact absurd hi nofun
  | cons line rest ih =>
    rcases List.mem_cons.mp hi with rfl | hi
    · refine putAll_cached rest ?_
      rw [put, if_neg (not_lt.mpr hold)]
      show ((s.lines.insert i line).get? i).isSome
      rw [OrdMap.get?_insert_self]
      rfl
    · refine ih hi ?_
      have hput : (s.put start line).oldest = s.oldest := by
        unfold put
        split <;> rfl
      rw [hput]
      exact hold

/-- Neither a line of the batch just put nor a row of the screen goes to make room for it. -/
theorem insertBatch_get? (s : Scrollback) {start i : LineIndex} {lines : List Line}
    (hi : i ∈ batch start lines.length ∨ s.screen ≤ i) :
    (s.insertBatch start lines).lines.get? i = (s.putAll start lines).1.lines.get? i := by
  refine (trim_trimmed _ _).get?_eq ?_
  rw [(putAll_screen s start lines).1]
  rcases hi with hi | hscreen
  · by_cases hlast : i = Fin.last _
    · right
      rw [hlast]
      exact Fin.le_last _
    · exact Or.inl (decide_eq_true (contains_batch s hi hlast))
  · exact Or.inr hscreen

end Batch

/-- Along every run the cache represents what it holds; every trim takes farthest lines until there
is room; a batch put is all there, and the screen's rows stay. -/
theorem cache_kept (capacity : Nat) (ops : List Op) :
    (ops.foldl step (new capacity)).Represents ∧
      (∀ s keep, Trimmed keep s (s.trim keep)) ∧
      ∀ (s : Scrollback) (start i : LineIndex) (lines : List Line),
        (i ∈ batch start lines.length → s.oldest ≤ i → (s.insertBatch start lines).Cached i) ∧
          (i ∈ batch start lines.length ∨ s.screen ≤ i →
            (s.insertBatch start lines).lines.get? i =
              (s.putAll start lines).1.lines.get? i) := by
  refine ⟨(new_represents capacity).foldl ops, trim_trimmed, ?_⟩
  intro s start i lines
  refine ⟨fun hi hold => ?_, fun hi => s.insertBatch_get? hi⟩
  rw [Cached, s.insertBatch_get? (Or.inl hi)]
  exact batch_cached hi hold

section Missing

/-- Whether a line is cached, by its number. -/
def holds (s : Scrollback) (n : Nat) : Bool :=
  if h : n < 2 ^ 64 then (s.lines.get? ⟨n, h⟩).isSome else false

/-- The loop of `missing` over the `left` lines from `cursor` on; `gapStart` is
where the gap it is in began. -/
def gapsFrom (s : Scrollback) : (left cursor : Nat) → (gapStart : Option Nat) → List (Nat × Nat)
  | 0, cursor, some start => [(start, cursor - start)]
  | 0, _, none => []
  | left + 1, cursor, gapStart =>
      match s.holds cursor, gapStart with
      | false, none => s.gapsFrom left (cursor + 1) (some cursor)
      | true, some start => (start, cursor - start) :: s.gapsFrom left (cursor + 1) none
      | _, gapStart => s.gapsFrom left (cursor + 1) gapStart

/-- Where a range of so many lines ends: no further than the lines there are. -/
def rangeEnd (s : Scrollback) (start : LineIndex) (count : Nat) : Nat :=
  min (satAdd 64 start.val count) s.total

/-- The parts of a range that are not cached and still retrievable, as their
starts and lengths. -/
def missing (s : Scrollback) (start : LineIndex) (count : Nat) : List (Nat × Nat) :=
  let cursor := max start.val s.oldest.val
  s.gapsFrom (s.rangeEnd start count - cursor) cursor none

/-- Gaps of the cache between two lines: of lines not cached, and together of
every such line. -/
structure Gaps (s : Scrollback) (from' stop : Nat) (gaps : List (Nat × Nat)) : Prop where
  bounds : ∀ g ∈ gaps, from' ≤ g.1 ∧ 0 < g.2 ∧ g.1 + g.2 ≤ stop
  absent : ∀ g ∈ gaps, ∀ n, g.1 ≤ n → n < g.1 + g.2 → s.holds n = false
  all : ∀ n, from' ≤ n → n < stop → s.holds n = false → ∃ g ∈ gaps, g.1 ≤ n ∧ n < g.1 + g.2

theorem Gaps.nil (s : Scrollback) (cursor : Nat) : Gaps s cursor cursor [] :=
  ⟨nofun, nofun, fun _ hfrom hstop => absurd hfrom (Nat.not_le.mpr hstop)⟩

theorem Gaps.cons {s : Scrollback} {start cursor stop : Nat} {gaps : List (Nat × Nat)}
    (h : Gaps s (cursor + 1) stop gaps) (hlt : start < cursor) (hle : cursor ≤ stop)
    (habsent : ∀ n, start ≤ n → n < cursor → s.holds n = false)
    (hnext : cursor < stop → s.holds cursor = true) :
    Gaps s start stop ((start, cursor - start) :: gaps) where
  bounds := by
    intro g hg
    rcases List.mem_cons.mp hg with rfl | hg
    · simp only
      omega
    · obtain ⟨hfrom, hpos, hstop⟩ := h.bounds g hg
      exact ⟨by omega, hpos, hstop⟩
  absent := by
    intro g hg n hfrom hstop
    rcases List.mem_cons.mp hg with rfl | hg
    · simp only at hfrom hstop
      exact habsent n hfrom (by omega)
    · exact h.absent g hg n hfrom hstop
  all := by
    intro n hfrom hstop hn
    rcases Nat.lt_trichotomy n cursor with hbefore | rfl | hafter
    · exact ⟨_, List.mem_cons_self, hfrom, by simp only; omega⟩
    · rw [hnext hstop] at hn
      exact absurd hn nofun
    · obtain ⟨g, hg, hin⟩ := h.all n hafter hstop hn
      exact ⟨g, List.mem_cons_of_mem _ hg, hin⟩

/-- The loop from `cursor` on, in a gap from `gapStart` to it, finds what there
is from the gap's start on. -/
theorem gapsFrom_gaps (s : Scrollback) (left cursor : Nat) (gapStart : Option Nat)
    (hgap : ∀ start ∈ gapStart, start < cursor ∧ ∀ n, start ≤ n → n < cursor → s.holds n = false) :
    Gaps s (gapStart.getD cursor) (cursor + left) (s.gapsFrom left cursor gapStart) := by
  induction left generalizing cursor gapStart with
  | zero =>
    cases gapStart with
    | none => exact Gaps.nil s cursor
    | some start =>
      obtain ⟨hlt, habsent⟩ := hgap start rfl
      have hnone : Gaps s (cursor + 1) cursor [] :=
        ⟨nofun, nofun, fun n hfrom hstop => absurd hfrom (by omega)⟩
      exact hnone.cons hlt (le_refl cursor) habsent fun hless => absurd hless (lt_irrefl cursor)
  | succ left ih =>
    have hend : cursor + (left + 1) = cursor + 1 + left := by omega
    rw [hend]
    cases hheld : s.holds cursor with
    | false =>
      -- The gap goes on through the line at the cursor, or begins there.
      cases gapStart with
      | none =>
        simp only [gapsFrom, hheld]
        refine ih (cursor + 1) (some cursor) fun start hstart => ?_
        obtain rfl : cursor = start := Option.some.inj hstart
        refine ⟨Nat.lt_succ_self cursor, fun n hfrom hstop => ?_⟩
        rwa [Nat.le_antisymm (Nat.lt_succ_iff.mp hstop) hfrom]
      | some start =>
        obtain ⟨hlt, habsent⟩ := hgap start rfl
        simp only [gapsFrom, hheld]
        refine ih (cursor + 1) (some start) fun start' hstart => ?_
        obtain rfl : start = start' := Option.some.inj hstart
        refine ⟨Nat.lt_succ_of_lt hlt, fun n hfrom hstop => ?_⟩
        rcases Nat.lt_succ_iff_lt_or_eq.mp hstop with hbefore | rfl
        · exact habsent n hfrom hbefore
        · exact hheld
    | true =>
      have hrest := ih (cursor + 1) none nofun
      cases gapStart with
      | none =>
        simp only [gapsFrom, hheld]
        refine ⟨fun g hg => ?_, hrest.absent, fun n hfrom hstop hn => ?_⟩
        · obtain ⟨hfrom, hbounds⟩ := hrest.bounds g hg
          exact ⟨(Nat.le_succ cursor).trans hfrom, hbounds⟩
        · refine hrest.all n (Nat.lt_of_le_of_ne hfrom ?_) hstop hn
          rintro rfl
          have hn : s.holds cursor = false := hn
          rw [hheld] at hn
          exact absurd hn nofun
      | some start =>
        obtain ⟨hlt, habsent⟩ := hgap start rfl
        simp only [gapsFrom, hheld]
        exact hrest.cons hlt (by omega) habsent fun _ => hheld

/-- What is missing of a range is all that could still be fetched for it. -/
theorem missing_gaps (s : Scrollback) (start : LineIndex) (count : Nat) :
    Gaps s (max start.val s.oldest.val)
      (max (max start.val s.oldest.val) (s.rangeEnd start count)) (s.missing start count) := by
  have h := s.gapsFrom_gaps (s.rangeEnd start count - max start.val s.oldest.val)
    (max start.val s.oldest.val) none nofun
  rw [show max start.val s.oldest.val + (s.rangeEnd start count - max start.val s.oldest.val) =
    max (max start.val s.oldest.val) (s.rangeEnd start count) by omega] at h
  exact h

/-- Gaps found later start past the cursor. -/
theorem gapsFrom_apart (s : Scrollback) (left cursor : Nat) (gapStart : Option Nat)
    (hgap : ∀ start ∈ gapStart, start < cursor) :
    (s.gapsFrom left cursor gapStart).Pairwise fun gap next => gap.1 + gap.2 < next.1 := by
  induction left generalizing cursor gapStart with
  | zero =>
    cases gapStart with
    | none => exact .nil
    | some start => exact List.pairwise_singleton _ _
  | succ left ih =>
    have hrest := ih (cursor + 1) none nofun
    cases hheld : s.holds cursor with
    | false =>
      cases gapStart with
      | none =>
        simp only [gapsFrom, hheld]
        refine ih (cursor + 1) (some cursor) fun start hstart => ?_
        exact Option.some.inj hstart ▸ Nat.lt_succ_self cursor
      | some start =>
        simp only [gapsFrom, hheld]
        exact ih (cursor + 1) (some start) fun start' hstart =>
          Nat.lt_succ_of_lt (hgap start' hstart)
    | true =>
      cases gapStart with
      | none =>
        simp only [gapsFrom, hheld]
        exact hrest
      | some start =>
        simp only [gapsFrom, hheld]
        refine .cons (fun next hnext => ?_) hrest
        have hlater := ((s.gapsFrom_gaps left (cursor + 1) none nofun).bounds next hnext).1
        have hstart := hgap start rfl
        rw [Option.getD_none] at hlater
        dsimp only
        omega

/-- A line of a range that is not cached and still retrievable. -/
def Wanted (s : Scrollback) (start : LineIndex) (count n : Nat) : Prop :=
  (start.val ≤ n ∧ n < start.val + count) ∧ (s.oldest.val ≤ n ∧ n < s.total) ∧ s.holds n = false

theorem missing_covers (s : Scrollback) (htotal : s.total < 2 ^ 64) (start : LineIndex)
    (count n : Nat) : s.Wanted start count n ↔ ∃ gap ∈ s.missing start count, InRun n gap := by
  have hgaps := s.missing_gaps start count
  have hend : s.rangeEnd start count = min (start.val + count) s.total := by
    simp only [rangeEnd, satAdd]
    omega
  rw [hend] at hgaps
  constructor
  · rintro ⟨⟨hstart, hcount⟩, ⟨hold, hlast⟩, habsent⟩
    exact hgaps.all n (by omega) (by omega) habsent
  · rintro ⟨gap, hgap, hfrom, hstop⟩
    obtain ⟨hfirst, -, hlast⟩ := hgaps.bounds gap hgap
    exact ⟨⟨by omega, by omega⟩, ⟨by omega, by omega⟩, hgaps.absent gap hgap n hfrom hstop⟩

/-- What is missing of a range are the maximal runs of its lines that are not cached and still
retrievable, in order. -/
theorem missing_runs (s : Scrollback) (htotal : s.total < 2 ^ 64) (start : LineIndex) (count : Nat) :
    Runs (s.Wanted start count) (s.missing start count) ∧
      ∀ gap, gap ∈ s.missing start count ↔ MaximalRun (s.Wanted start count) gap := by
  have hruns : Runs (s.Wanted start count) (s.missing start count) :=
    ⟨fun gap hgap => ((s.missing_gaps start count).bounds gap hgap).2.1,
      s.gapsFrom_apart _ _ none nofun, s.missing_covers htotal start count⟩
  exact ⟨hruns, hruns.mem_iff⟩

/-- A cache of one line in the middle of those the worker has. -/
def oneCached : Scrollback := ((new 4).setExtent 1 6).put 3 {}

theorem missing_runs_oneCached :
    oneCached.missing 0 10 = [(1, 2), (4, 2)] ∧
      Runs (oneCached.Wanted 0 10) (oneCached.missing 0 10) ∧
      ∀ gap, gap ∈ oneCached.missing 0 10 ↔ MaximalRun (oneCached.Wanted 0 10) gap :=
  ⟨by decide, missing_runs oneCached (by decide) 0 10⟩

end Missing

end Scrollback

end Slopty.Grid
