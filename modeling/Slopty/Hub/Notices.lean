import Slopty.Hub.Counting
import Slopty.Hub.Phones
import Slopty.Lib.Machine

/-!
What the server tells the person as the ladder moves: a thread that comes to need them, fails or
comes to rest, and a wait that goes on. Each ranking knows only the ladder published last; what it
tells is what the whole history of rankings says.
-/

namespace Slopty.Hub

open Slopty.Lib
open Slopty.Thread (ThreadId TurnId WallMs)

/-- How long a thread needs the person before it is told again. -/
def remindAfter : Nat := 30 * 60 * 1000

/-- When a wait is told again. -/
def dueAt (since : WallMs) : WallMs := satAdd 64 since remindAfter

structure EndedTurn where
  turn : TurnId
  answered : Bool
  atMs : WallMs
  deriving DecidableEq

/-- What else a thread's row says. -/
structure Said where
  title : String := ""
  lastLine : Option String := none
  /-- What it waits on. -/
  wait : Option String := none
  /-- Its process has not ended. -/
  there : Bool := true
  ended : Option EndedTurn := none

/-- A notice about a thread. -/
structure ThreadNotice where
  kind : NoticeKind
  about : ThreadAt
  title : String
  text : String
  workedMs : Option Nat
  /-- The subagent that puts the thread where it stands. -/
  via : Option (ThreadId × String)
  deriving DecidableEq

/-- A notice the ladder made. -/
structure Told where
  notice : ThreadNotice
  /-- The turn it says finished. -/
  turn : Option TurnId
  /-- The thread was first seen already needing the person. -/
  first : Bool
  deriving DecidableEq

/-- One ranking: the rows as they are, and the time. -/
structure Pass where
  tables : Tables
  said : ThreadAt → Said
  now : WallMs

def Pass.ladder (p : Pass) : Ladder := Hub.ladder p.tables

namespace Rung

def busy : Rung → Bool
  | working => true
  | waiting => true
  | _ => false

/-- Coming to rest or failing ends the work; a wait on the person is part of it. -/
def rest : Rung → Bool
  | idle => true
  | failed => true
  | _ => false

end Rung

/-- What a notice says of a thread, in a line. -/
def noticeText (kind : NoticeKind) (said : Said) : String :=
  let wait := said.wait.filter fun w => decide (w ≠ "")
  match kind with
  | .needsYou => wait.getD ""
  | .failed | .finished => (wait.or said.lastLine).getD ""

namespace Pass

variable (p : Pass)

/-- The notice of a kind about a thread; none for the finish of an agent another started. -/
def noticeOf (at' : ThreadAt) (kind : NoticeKind) (workedMs : Option Nat) : Option ThreadNotice :=
  match p.tables.get? at'.worker with
  | none => none
  | some table =>
      match table.get? at'.thread with
      | none => none
      | some row =>
          if kind = .finished ∧ (parentOf row).isSome then none
          else
            let family := table.values.filter fun r =>
              decide (r.id ≠ row.id ∧ table.rootOf r = row.id)
            let from' := (source row family).2
            let said := p.said ⟨at'.worker, from'.id⟩
            some
              { kind := kind
                about := at'
                title := (p.said at').title
                text := noticeText kind said
                workedMs := workedMs
                via := if from'.id ≠ row.id then some (from'.id, said.title) else none }

/-- Whether the thread's latest turn ended answered, at or after `since` when that is known. -/
def answeredSince (said : Said) (since : Option WallMs) : Bool :=
  said.ended.any fun e => e.answered && since.all fun since => decide (since ≤ e.atMs)

/-- The notice a thread makes, by the rung it stood on and since when it was busy. -/
def tell (was : Option Rung) (busySince : Option WallMs) (r : Ranked) : Option Told :=
  let kind : Option NoticeKind :=
    match was, r.rung with
    | none, .needsYou => some .needsYou
    | some was, .needsYou => if was ≠ .needsYou then some .needsYou else none
    | some was, .failed => if was ≠ .failed then some .failed else none
    | some was, .idle => if was.busy then some .finished else none
    | _, _ => none
  let since := if r.rung.rest then busySince else none
  match kind with
  | none => none
  | some kind =>
      let said := p.said r.at'
      if kind = .finished ∧ ¬said.there ∧ ¬answeredSince said since then none
      else
        let workedMs := if kind = .finished then since.map fun since => r.sinceMs - since else none
        (p.noticeOf r.at' kind workedMs).map fun notice =>
          { notice := notice
            turn := if kind = .finished then said.ended.map EndedTurn.turn else none
            first := was.isNone }

/-- A thread that stands where it stood says nothing. -/
theorem tell_same (since : Option WallMs) (r : Ranked) : p.tell (some r.rung) since r = none := by
  unfold tell
  cases r.rung <;> rfl

end Pass

/-- A reminder's words: how long the thread has waited, then what it asks. -/
def stillWords (waitedMs : Nat) (asks : String) : String :=
  let minutes := waitedMs / 60000
  let hours := minutes / 60
  let left := minutes % 60
  let waited :=
    if hours = 0 then toString left ++ "m"
    else if left = 0 then toString hours ++ "h"
    else toString hours ++ "h " ++ toString left ++ "m"
  if asks = "" then "Still needs you after " ++ waited
  else "Still needs you after " ++ waited ++ " · " ++ asks

namespace Ladder

def empty : Ladder :=
  { threads := [], tiles := OrdMap.empty, workers := OrdMap.empty, trees := OrdMap.empty
    spaces := OrdMap.empty, fleet := {} }

def same (a b : Ladder) : Bool :=
  decide (a.threads = b.threads ∧ a.tiles.entries = b.tiles.entries ∧
    a.workers.entries = b.workers.entries ∧ a.trees.entries = b.trees.entries ∧
    a.spaces.entries = b.spaces.entries ∧ a.fleet = b.fleet)

/-- Where a thread stands. -/
def ranked (l : Ladder) (at' : ThreadAt) : Option Ranked :=
  l.threads.find? fun r => decide (r.at' = at')

def rungOf (l : Ladder) (at' : ThreadAt) : Option Rung := (l.ranked at').map Ranked.rung

/-- The threads that need the person, and since when. -/
def waits (l : Ladder) : List (ThreadAt × WallMs) :=
  (l.threads.filter fun r => decide (r.rung = .needsYou)).map fun r => (r.at', r.sinceMs)

/-- Since when a thread needs the person. -/
def waitOf (l : Ladder) (at' : ThreadAt) : Option WallMs :=
  ((l.ranked at').filter fun r => decide (r.rung = .needsYou)).map Ranked.sinceMs

end Ladder

/-- The ladder last published, since when each thread has been busy, and the waits told again. -/
structure Board where
  published : Ladder := Ladder.empty
  busy : OrdMap ThreadAt WallMs := OrdMap.empty
  reminded : OrdMap ThreadAt WallMs := OrdMap.empty

namespace Board

/-- A wait that is due is told again, unless it was, or was first seen already due. -/
def remindStep (p : Pass) (published : Ladder)
    (acc : OrdMap ThreadAt WallMs × List ThreadNotice) (wait : ThreadAt × WallMs) :
    OrdMap ThreadAt WallMs × List ThreadNotice :=
  if (acc.1.get? wait.1).isSome ∨ p.now < dueAt wait.2 then acc
  else
    let reminded := acc.1.insert wait.1 wait.2
    if (published.waitOf wait.1).isNone then (reminded, acc.2)
    else
      match p.noticeOf wait.1 .needsYou none with
      | none => (reminded, acc.2)
      | some notice =>
          (reminded, acc.2 ++ [{ notice with text := stillWords (p.now - wait.2) notice.text }])

/-- The reminders of a ranking, and when the next falls due. -/
def remind (b : Board) (p : Pass) (ladder : Ladder) :
    Board × List ThreadNotice × Option WallMs :=
  let kept := b.reminded.retain fun at' since => decide (ladder.waitOf at' = some since)
  let next := ((ladder.waits.filter fun w => decide ((kept.get? w.1).isNone ∧
    p.now < dueAt w.2)).map fun w => dueAt w.2).min?
  let r := ladder.waits.foldl (remindStep p b.published) (kept, [])
  ({ b with reminded := r.1 }, r.2, next)

def movedStep (p : Pass) (published : Ladder) (acc : OrdMap ThreadAt WallMs × List Told)
    (r : Ranked) : OrdMap ThreadAt WallMs × List Told :=
  let busySince := acc.1.get? r.at'
  let busy :=
    if r.rung.busy then acc.1.insert r.at' (busySince.getD r.sinceMs)
    else if r.rung.rest then acc.1.erase r.at'
    else acc.1
  (busy, acc.2 ++ (p.tell (published.rungOf r.at') busySince r).toList)

/-- The notices a ladder makes against the one published. -/
def moved (b : Board) (p : Pass) (ladder : Ladder) : Board × List Told :=
  let r := ladder.threads.foldl (movedStep p b.published) (b.busy, [])
  ({ b with busy := r.1.retain fun at' _ => (ladder.ranked at').isSome }, r.2)

/-- What a ranking tells: the waits told again, and the notices of the ladder's moves. -/
structure Tells where
  reminders : List ThreadNotice
  notices : List Told

/-- Rank every thread, and publish the ladder when it moved. -/
def rank (b : Board) (p : Pass) : Board × Tells :=
  let reminded := b.remind p p.ladder
  let b := reminded.1
  if p.ladder.same b.published then (b, { reminders := reminded.2.1, notices := [] })
  else
    let moved := b.moved p p.ladder
    ({ moved.1 with published := p.ladder }, { reminders := reminded.2.1, notices := moved.2 })

def run (passes : List Pass) : Board := passes.foldl (fun b p => (b.rank p).1) {}

end Board

/-! ### What the history of rankings says -/

namespace History

/-- Where a thread stood at the last ranking. -/
def lastRung (before : List Pass) (at' : ThreadAt) : Option Rung :=
  before.getLast?.bind fun p => p.ladder.rungOf at'

/-- Since when a thread needed the person at the last ranking. -/
def lastWait (before : List Pass) (at' : ThreadAt) : Option WallMs :=
  before.getLast?.bind fun p => p.ladder.waitOf at'

/-- The rankings since the thread was last at rest, or not there, the latest first. -/
def sinceRest (before : List Pass) (at' : ThreadAt) : List Pass :=
  before.reverse.takeWhile fun p => (p.ladder.rungOf at').any fun r => !r.rest

/-- Since when a thread stands where it is busy. -/
def busyFrom (p : Pass) (at' : ThreadAt) : Option WallMs :=
  ((p.ladder.ranked at').filter fun r => r.rung.busy).map Ranked.sinceMs

/-- Since when a thread has been busy: as it was first found so since it last was at rest. -/
def busySince (before : List Pass) (at' : ThreadAt) : Option WallMs :=
  ((sinceRest before at').filterMap fun p => busyFrom p at').getLast?

/-- A ranking of the same wait found it due. -/
def wasDue (before : List Pass) (at' : ThreadAt) (since : WallMs) : Bool :=
  (before.reverse.takeWhile fun p => decide (p.ladder.waitOf at' = some since)).any fun p =>
    decide (dueAt since ≤ p.now)

/-- A wait is told again at the first ranking that finds it due, unless it began out of sight. -/
def again (before : List Pass) (p : Pass) (wait : ThreadAt × WallMs) : Option ThreadNotice :=
  if wasDue before wait.1 wait.2 ∨ p.now < dueAt wait.2 ∨
      (lastWait before wait.1).isNone then none
  else
    (p.noticeOf wait.1 .needsYou none).map fun notice =>
      { notice with text := stillWords (p.now - wait.2) notice.text }

/-- What a ranking is to tell. -/
def tells (before : List Pass) (p : Pass) : Board.Tells :=
  { reminders := p.ladder.waits.filterMap (again before p)
    notices := p.ladder.threads.filterMap fun r =>
      p.tell (lastRung before r.at') (busySince before r.at') r }

end History

theorem nodup_threads (p : Pass) : (p.ladder.threads.map Ranked.at').Nodup := by
  have h := Tables.nodup_roots p.tables
  rw [Pass.ladder, ladder, List.map_map]
  exact h

section Ranked

variable {threads : List Ranked}

theorem find?_ranked (h : (threads.map Ranked.at').Nodup) {r : Ranked} (hr : r ∈ threads) :
    threads.find? (fun s => decide (s.at' = r.at')) = some r := by
  cases hfind : threads.find? (fun s => decide (s.at' = r.at')) with
  | none =>
    have hno := List.find?_eq_none.mp hfind r hr
    exact absurd (decide_eq_true rfl) hno
  | some s =>
    have hat := List.find?_some hfind
    exact congrArg some (List.inj_on_of_nodup_map h (List.mem_of_find?_eq_some hfind) hr
      (of_decide_eq_true hat))

end Ranked

namespace Ladder

variable {l : Ladder}

theorem ranked_eq_some (h : (l.threads.map Ranked.at').Nodup) {at' : ThreadAt} {r : Ranked} :
    l.ranked at' = some r ↔ r ∈ l.threads ∧ r.at' = at' := by
  constructor
  · intro hr
    rw [ranked] at hr
    have hat := List.find?_some hr
    exact ⟨List.mem_of_find?_eq_some hr, of_decide_eq_true hat⟩
  · rintro ⟨hr, rfl⟩
    exact find?_ranked h hr

theorem mem_waits (h : (l.threads.map Ranked.at').Nodup) {at' : ThreadAt} {since : WallMs} :
    (at', since) ∈ l.waits ↔ l.waitOf at' = some since := by
  rw [waits, waitOf, List.mem_map, Option.map_eq_some_iff]
  constructor
  · rintro ⟨r, hr, heq⟩
    obtain ⟨hmem, hneeds⟩ := List.mem_filter.mp hr
    obtain ⟨rfl, rfl⟩ := Prod.mk.inj heq
    refine ⟨r, ?_, rfl⟩
    rw [(ranked_eq_some h).mpr ⟨hmem, rfl⟩, Option.filter_some, if_pos hneeds]
  · rintro ⟨r, hr, rfl⟩
    obtain ⟨hranked, hneeds⟩ := Option.filter_eq_some_iff.mp hr
    obtain ⟨hmem, rfl⟩ := (ranked_eq_some h).mp hranked
    exact ⟨r, List.mem_filter.mpr ⟨hmem, hneeds⟩, rfl⟩

theorem nodup_waits (h : (l.threads.map Ranked.at').Nodup) : (l.waits.map Prod.fst).Nodup := by
  rw [waits, List.map_map]
  exact h.sublist (List.filter_sublist.map Ranked.at')

end Ladder

namespace Board

variable {p : Pass} {published : Ladder}

/-- What a wait tells, given the waits told again. -/
def remindOne (p : Pass) (published : Ladder) (reminded : OrdMap ThreadAt WallMs)
    (wait : ThreadAt × WallMs) : Option ThreadNotice :=
  if (reminded.get? wait.1).isSome ∨ p.now < dueAt wait.2 ∨
      (published.waitOf wait.1).isNone then none
  else
    (p.noticeOf wait.1 .needsYou none).map fun notice =>
      { notice with text := stillWords (p.now - wait.2) notice.text }

theorem remindStep_eq (m : OrdMap ThreadAt WallMs) (told : List ThreadNotice)
    (wait : ThreadAt × WallMs) :
    remindStep p published (m, told) wait =
      (if (m.get? wait.1).isSome ∨ p.now < dueAt wait.2 then m
        else m.insert wait.1 wait.2, told ++ (remindOne p published m wait).toList) := by
  rw [remindStep, remindOne]
  dsimp only
  by_cases hskip : (m.get? wait.1).isSome ∨ p.now < dueAt wait.2
  · rw [if_pos hskip, if_pos hskip, if_pos (hskip.imp_right Or.inl), Option.toList_none,
      List.append_nil]
  · rw [if_neg hskip, if_neg hskip]
    by_cases hseen : (published.waitOf wait.1).isNone = true
    · rw [if_pos hseen, if_pos (.inr (.inr hseen)), Option.toList_none, List.append_nil]
    · have hnone : ¬((m.get? wait.1).isSome = true ∨ p.now < dueAt wait.2 ∨
          (published.waitOf wait.1).isNone = true) := fun h =>
        h.elim (fun h => hskip (.inl h)) fun h => h.elim (fun h => hskip (.inr h)) hseen
      rw [if_neg hseen, if_neg hnone]
      cases p.noticeOf wait.1 .needsYou none with
      | none => rw [Option.map_none, Option.toList_none, List.append_nil]
      | some notice => rfl

/-- The waits are taken one by one, each looking at its own thread. -/
theorem foldl_remindStep (p : Pass) (published : Ladder)
    {waits : List (ThreadAt × WallMs)} (h : (waits.map Prod.fst).Nodup)
    (m : OrdMap ThreadAt WallMs) (told : List ThreadNotice) :
    (waits.foldl (remindStep p published) (m, told)).2 =
        told ++ waits.filterMap (remindOne p published m) ∧
      ∀ at' since, (waits.foldl (remindStep p published) (m, told)).1.get? at' = some since ↔
        m.get? at' = some since ∨ m.get? at' = none ∧ (at', since) ∈ waits ∧
          dueAt since ≤ p.now := by
  induction waits generalizing m told with
  | nil =>
    refine ⟨(List.append_nil _).symm, fun at' since => ?_⟩
    rw [List.foldl_nil]
    constructor
    · exact Or.inl
    · rintro (hget | ⟨-, hmem, -⟩)
      · exact hget
      · exact absurd hmem List.not_mem_nil
  | cons wait waits ih =>
    obtain ⟨hnew, hrest⟩ := List.nodup_cons.mp h
    rw [List.foldl_cons, remindStep_eq]
    obtain ⟨htold, hget⟩ := ih hrest
      (if (m.get? wait.1).isSome ∨ p.now < dueAt wait.2 then m
        else m.insert wait.1 wait.2) (told ++ (remindOne p published m wait).toList)
    have hother : ∀ at', wait.1 ≠ at' →
        (if (m.get? wait.1).isSome ∨ p.now < dueAt wait.2 then m
          else m.insert wait.1 wait.2).get? at' = m.get? at' := by
      intro at' hne
      split
      · rfl
      · rw [OrdMap.get?_insert, if_neg hne]
    refine ⟨?_, fun at' since => ?_⟩
    · have hsame : waits.filterMap (remindOne p published
          (if (m.get? wait.1).isSome ∨ p.now < dueAt wait.2 then m
            else m.insert wait.1 wait.2)) = waits.filterMap (remindOne p published m) := by
        refine List.filterMap_congr fun w hw => ?_
        have hne : wait.1 ≠ w.1 := fun heq => hnew (heq ▸ List.mem_map_of_mem hw)
        rw [remindOne, remindOne, hother w.1 hne]
      rw [htold, hsame, List.append_assoc]
      congr 1
      rw [List.filterMap_cons]
      cases remindOne p published m wait <;> rfl
    · rw [hget]
      by_cases hat : wait.1 = at'
      · subst hat
        have hnot : (wait.1, since) ∉ waits := fun hmem =>
          hnew (List.mem_map.mpr ⟨_, hmem, rfl⟩)
        have hhere : (wait.1, since) = wait ↔ since = wait.2 := by
          rw [Prod.ext_iff]
          exact and_iff_right rfl
        rw [List.mem_cons, hhere]
        cases hm : m.get? wait.1 with
        | some was => simp [hm, hnot]
        | none =>
          by_cases hlater : p.now < dueAt wait.2
          · rw [if_pos (.inr hlater), hm]
            constructor
            · rintro (hno | ⟨-, hmem, -⟩)
              · exact absurd hno (Option.some_ne_none _).symm
              · exact absurd hmem hnot
            · rintro (hno | ⟨-, rfl | hmem, hdue⟩)
              · exact absurd hno (Option.some_ne_none _).symm
              · exact absurd hdue (not_le.mpr hlater)
              · exact absurd hmem hnot
          · have hskip : ¬((none : Option WallMs).isSome = true ∨ p.now < dueAt wait.2) := by
              simpa using hlater
            rw [if_neg hskip, OrdMap.get?_insert_self]
            constructor
            · rintro (heq | ⟨hno, -⟩)
              · refine .inr ⟨rfl, .inl (Option.some.inj heq).symm, ?_⟩
                rw [← Option.some.inj heq]
                exact not_lt.mp hlater
              · exact absurd hno (Option.some_ne_none _)
            · rintro (hno | ⟨-, rfl | hmem, -⟩)
              · exact absurd hno (Option.some_ne_none _).symm
              · exact .inl rfl
              · exact absurd hmem hnot
      · have hne : (at', since) ≠ wait := fun heq => hat (heq ▸ rfl)
        rw [hother at' hat, List.mem_cons, or_iff_right hne]

/-- Since when a thread is busy after a ranking, from since when it was before. -/
def busyAfter (r : Ranked) (was : Option WallMs) : Option WallMs :=
  if r.rung.busy then some (was.getD r.sinceMs) else if r.rung.rest then none else was

theorem busyAfter_busyAfter (r : Ranked) (was : Option WallMs) :
    busyAfter r (busyAfter r was) = busyAfter r was := by
  unfold busyAfter
  by_cases hbusy : r.rung.busy = true
  · rw [if_pos hbusy, if_pos hbusy, Option.getD_some]
  · rw [if_neg hbusy, if_neg hbusy]
    split <;> rfl

theorem get?_movedStep (m : OrdMap ThreadAt WallMs) (told : List Told) (r : Ranked)
    (at' : ThreadAt) : (movedStep p published (m, told) r).1.get? at' =
      if r.at' = at' then busyAfter r (m.get? at') else m.get? at' := by
  rw [movedStep, busyAfter]
  dsimp only
  by_cases hat : r.at' = at'
  · subst hat
    rw [if_pos rfl]
    split
    · rw [OrdMap.get?_insert_self]
    · split
      · rw [OrdMap.get?_erase_self]
      · rfl
  · rw [if_neg hat]
    split
    · rw [OrdMap.get?_insert, if_neg hat]
    · split
      · rw [OrdMap.get?_erase, if_neg (Ne.symm hat)]
      · rfl

/-- The threads are taken one by one, each looking at its own past. -/
theorem foldl_movedStep (p : Pass) (published : Ladder)
    {threads : List Ranked} (h : (threads.map Ranked.at').Nodup)
    (m : OrdMap ThreadAt WallMs) (told : List Told) :
    (threads.foldl (movedStep p published) (m, told)).2 =
        told ++ threads.filterMap (fun r =>
          p.tell (published.rungOf r.at') (m.get? r.at') r) ∧
      ∀ at', (threads.foldl (movedStep p published) (m, told)).1.get? at' =
        (threads.find? fun r => decide (r.at' = at')).elim (m.get? at') fun r =>
          busyAfter r (m.get? at') := by
  induction threads generalizing m told with
  | nil => exact ⟨(List.append_nil _).symm, fun _ => rfl⟩
  | cons r threads ih =>
    obtain ⟨hnew, hrest⟩ := List.nodup_cons.mp h
    rw [List.foldl_cons]
    have hstep : movedStep p published (m, told) r =
        ((movedStep p published (m, told) r).1,
          told ++ (p.tell (published.rungOf r.at') (m.get? r.at') r).toList) := rfl
    rw [hstep]
    obtain ⟨htold, hget⟩ := ih hrest (movedStep p published (m, told) r).1
      (told ++ (p.tell (published.rungOf r.at') (m.get? r.at') r).toList)
    refine ⟨?_, fun at' => ?_⟩
    · have hsame : threads.filterMap (fun r' => p.tell (published.rungOf r'.at')
          ((movedStep p published (m, told) r).1.get? r'.at') r') =
          threads.filterMap fun r' => p.tell (published.rungOf r'.at') (m.get? r'.at') r' := by
        refine List.filterMap_congr fun r' hr' => ?_
        have hne : r.at' ≠ r'.at' := fun heq => hnew (heq ▸ List.mem_map_of_mem hr')
        rw [get?_movedStep, if_neg hne]
      rw [htold, hsame, List.append_assoc]
      congr 1
      rw [List.filterMap_cons]
      cases p.tell (published.rungOf r.at') (m.get? r.at') r <;> rfl
    · rw [hget, get?_movedStep]
      by_cases hat : r.at' = at'
      · have hnone : threads.find? (fun r => decide (r.at' = at')) = none :=
          List.find?_eq_none.mpr fun r' hr' heq =>
            hnew (hat.trans (of_decide_eq_true heq).symm ▸ List.mem_map_of_mem hr')
        rw [if_pos hat, hnone, List.find?_cons, decide_eq_true hat]
        rfl
      · rw [if_neg hat, List.find?_cons, decide_eq_false hat]

end Board

namespace History

theorem reverse_concat (before : List Pass) (p : Pass) :
    (before ++ [p]).reverse = p :: before.reverse := by
  rw [List.reverse_append, List.reverse_singleton]
  rfl

theorem lastRung_concat (before : List Pass) (p : Pass) (at' : ThreadAt) :
    lastRung (before ++ [p]) at' = p.ladder.rungOf at' := by
  rw [lastRung, List.getLast?_concat]
  rfl

theorem lastWait_concat (before : List Pass) (p : Pass) (at' : ThreadAt) :
    lastWait (before ++ [p]) at' = p.ladder.waitOf at' := by
  rw [lastWait, List.getLast?_concat]
  rfl

theorem busySince_concat (before : List Pass) (p : Pass) (at' : ThreadAt) :
    busySince (before ++ [p]) at' =
      (p.ladder.ranked at').elim none fun r => Board.busyAfter r (busySince before at') := by
  have hrung : p.ladder.rungOf at' = (p.ladder.ranked at').map Ranked.rung := rfl
  rw [busySince, sinceRest, reverse_concat]
  cases hranked : p.ladder.ranked at' with
  | none =>
    rw [hranked] at hrung
    rw [List.takeWhile_cons_of_neg (by rw [hrung]; exact Bool.false_ne_true)]
    rfl
  | some r =>
    rw [hranked, Option.map_some] at hrung
    rw [Option.elim_some, Board.busyAfter]
    have hfrom : busyFrom p at' = if r.rung.busy then some r.sinceMs else none := by
      rw [busyFrom, hranked, Option.filter_some]
      split <;> rfl
    cases hrest : r.rung.rest with
    | true =>
      have hidle : r.rung.busy = false := by
        revert hrest
        cases r.rung <;> decide
      rw [List.takeWhile_cons_of_neg (by rw [hrung, Option.any_some, hrest]; exact Bool.false_ne_true),
        hidle, if_neg Bool.false_ne_true, if_pos rfl]
      rfl
    | false =>
      rw [List.takeWhile_cons_of_pos (by rw [hrung, Option.any_some, hrest]; rfl),
        List.filterMap_cons, hfrom, if_neg Bool.false_ne_true]
      cases hbusy : r.rung.busy with
      | true =>
        rw [if_pos rfl, if_pos rfl]
        dsimp only
        rw [List.getLast?_cons]
        rfl
      | false =>
        rw [if_neg Bool.false_ne_true, if_neg Bool.false_ne_true]
        rfl

theorem wasDue_concat (before : List Pass) (p : Pass) (at' : ThreadAt) (since : WallMs) :
    wasDue (before ++ [p]) at' since = true ↔ p.ladder.waitOf at' = some since ∧
      (dueAt since ≤ p.now ∨ wasDue before at' since = true) := by
  rw [wasDue, reverse_concat]
  by_cases hwait : p.ladder.waitOf at' = some since
  · rw [List.takeWhile_cons, decide_eq_true hwait, if_pos rfl, List.any_cons, Bool.or_eq_true, decide_eq_true_iff,
      and_iff_right hwait]
    rfl
  · rw [List.takeWhile_cons, decide_eq_false hwait, if_neg Bool.false_ne_true]
    constructor
    · intro hno
      cases hno
    · exact fun h => absurd h.1 hwait

/-- A wait that was due is still the thread's at the last ranking. -/
theorem lastWait_of_wasDue {before : List Pass} {at' : ThreadAt} {since : WallMs}
    (h : wasDue before at' since = true) : lastWait before at' = some since := by
  induction before using List.reverseRecOn with
  | nil => cases h
  | append_singleton before p _ =>
    rw [lastWait_concat]
    exact ((wasDue_concat _ _ _ _).mp h).1

end History

open History

/-- The board knows of the rankings so far what they said. -/
structure Board.Knows (b : Board) (before : List Pass) : Prop where
  published : b.published.threads = before.getLast?.elim [] fun p => p.ladder.threads
  busy : ∀ at', b.busy.get? at' = busySince before at'
  reminded : ∀ at' since, b.reminded.get? at' = some since ↔ wasDue before at' since = true

namespace Board.Knows

variable {b : Board} {before : List Pass} {p : Pass}

theorem rungOf (h : b.Knows before) (at' : ThreadAt) :
    b.published.rungOf at' = lastRung before at' := by
  rw [Ladder.rungOf, Ladder.ranked, h.published, lastRung]
  cases before.getLast? <;> rfl

theorem waitOf (h : b.Knows before) (at' : ThreadAt) :
    b.published.waitOf at' = lastWait before at' := by
  rw [Ladder.waitOf, Ladder.ranked, h.published, lastWait]
  cases before.getLast? <;> rfl

/-- Reminders are those the history says. -/
theorem remind (h : b.Knows before) (p : Pass) :
    (b.remind p p.ladder).2.1 = p.ladder.waits.filterMap (again before p) ∧
      ∀ at' since, (b.remind p p.ladder).1.reminded.get? at' = some since ↔
        wasDue (before ++ [p]) at' since = true := by
  have hkept : ∀ at' since,
      (b.reminded.retain fun at' since => decide (p.ladder.waitOf at' = some since)).get? at' =
          some since ↔ p.ladder.waitOf at' = some since ∧ wasDue before at' since = true := by
    intro at' since
    rw [OrdMap.get?_retain, Option.filter_eq_some_iff, h.reminded, decide_eq_true_iff, and_comm]
  obtain ⟨htold, hget⟩ := Board.foldl_remindStep p b.published
    (Ladder.nodup_waits (nodup_threads p))
    (b.reminded.retain fun at' since => decide (p.ladder.waitOf at' = some since)) []
  refine ⟨htold.trans ?_, fun at' since => (hget at' since).trans ?_⟩
  · rw [List.nil_append]
    refine List.filterMap_congr fun wait hwait => ?_
    have hwaits := (Ladder.mem_waits (nodup_threads p)).mp hwait
    have hdue : (OrdMap.get? (b.reminded.retain fun at' since =>
        decide (p.ladder.waitOf at' = some since)) wait.1).isSome = true ↔
          wasDue before wait.1 wait.2 = true := by
      rw [Option.isSome_iff_exists]
      constructor
      · rintro ⟨since, hsince⟩
        obtain ⟨hsame, hdue⟩ := (hkept _ _).mp hsince
        rw [Option.some.inj (hwaits.symm.trans hsame)]
        exact hdue
      · exact fun hdue => ⟨_, (hkept _ _).mpr ⟨hwaits, hdue⟩⟩
    rw [Board.remindOne, again, h.waitOf]
    simp only [hdue]
  · rw [wasDue_concat, hkept, Ladder.mem_waits (nodup_threads p)]
    constructor
    · rintro (⟨hwait, hdue⟩ | ⟨-, hwait, hdue⟩)
      · exact ⟨hwait, .inr hdue⟩
      · exact ⟨hwait, .inl hdue⟩
    · rintro ⟨hwait, hdue⟩
      by_cases hwas : wasDue before at' since = true
      · exact .inl ⟨hwait, hwas⟩
      · refine .inr ⟨?_, hwait, hdue.resolve_right hwas⟩
        rw [Option.eq_none_iff_forall_ne_some]
        intro since' hsince
        obtain ⟨hwait', hwas'⟩ := (hkept _ _).mp hsince
        exact hwas (Option.some.inj (hwait.symm.trans hwait') ▸ hwas')

/-- Notices are those the history says, also where nothing moved and none are made. -/
theorem moved (h : b.Knows before) (p : Pass) :
    (b.moved p p.ladder).2 = p.ladder.threads.filterMap (fun r =>
        p.tell (lastRung before r.at') (busySince before r.at') r) ∧
      ∀ at', (b.moved p p.ladder).1.busy.get? at' = busySince (before ++ [p]) at' := by
  obtain ⟨htold, hget⟩ := Board.foldl_movedStep p b.published
    (nodup_threads p) b.busy []
  refine ⟨htold.trans ?_, fun at' => ?_⟩
  · rw [List.nil_append]
    refine List.filterMap_congr fun r _ => ?_
    rw [h.rungOf, h.busy]
  · rw [busySince_concat, Board.moved]
    dsimp only
    rw [OrdMap.get?_retain, hget, ← h.busy]
    have hranked : p.ladder.ranked at' =
        p.ladder.threads.find? fun r => decide (r.at' = at') := rfl
    rw [hranked]
    cases p.ladder.threads.find? fun r => decide (r.at' = at') with
    | none => cases b.busy.get? at' <;> rfl
    | some r =>
      rw [Option.elim_some, Option.elim_some]
      cases Board.busyAfter r (b.busy.get? at') <;> rfl

/-- A ladder like the one published says of every thread what it said. -/
theorem unmoved (h : b.Knows before) (hsame : p.ladder.same b.published = true) :
    p.ladder.threads = before.getLast?.elim [] fun q => q.ladder.threads := by
  rw [← h.published]
  exact (of_decide_eq_true hsame).1

theorem busySince_unmoved (h : b.Knows before) (hsame : p.ladder.same b.published = true)
    (at' : ThreadAt) : busySince (before ++ [p]) at' = busySince before at' := by
  have hthreads := h.unmoved hsame
  rw [busySince_concat, Ladder.ranked, hthreads]
  cases before using List.reverseRecOn with
  | nil => rfl
  | append_singleton bs q =>
    rw [List.getLast?_concat, Option.elim_some, busySince_concat]
    have hranked : q.ladder.ranked at' =
        q.ladder.threads.find? fun r => decide (r.at' = at') := rfl
    rw [hranked]
    cases q.ladder.threads.find? fun r => decide (r.at' = at') with
    | none => rfl
    | some r => exact Board.busyAfter_busyAfter r _

theorem tells_unmoved (h : b.Knows before) (hsame : p.ladder.same b.published = true) :
    p.ladder.threads.filterMap (fun r =>
      p.tell (lastRung before r.at') (busySince before r.at') r) = [] := by
  refine List.filterMap_eq_nil_iff.mpr fun r hr => ?_
  have hrung : lastRung before r.at' = some r.rung := by
    rw [← h.rungOf, Ladder.rungOf, Ladder.ranked, ← (of_decide_eq_true hsame).1,
      find?_ranked (nodup_threads p) hr]
    rfl
  rw [hrung]
  exact p.tell_same _ r

/-- Each ranking tells what the history says, and knows of itself then. -/
theorem rank (h : b.Knows before) (p : Pass) :
    (b.rank p).2 = History.tells before p ∧ (b.rank p).1.Knows (before ++ [p]) := by
  obtain ⟨hreminders, hreminded⟩ := h.remind p
  have hlast : (before ++ [p]).getLast?.elim [] (fun p => p.ladder.threads) =
      p.ladder.threads := by
    rw [List.getLast?_concat, Option.elim_some]
  by_cases hsame : p.ladder.same b.published = true
  · have hrank : b.rank p = ((b.remind p p.ladder).1,
        { reminders := (b.remind p p.ladder).2.1, notices := [] }) := if_pos hsame
    rw [hrank, History.tells, hreminders, h.tells_unmoved hsame]
    refine ⟨rfl, ?_, fun at' => ?_, hreminded⟩
    · rw [hlast]
      exact (of_decide_eq_true hsame).1.symm
    · rw [h.busySince_unmoved hsame]
      exact h.busy at'
  · have hmoved := fun at' => (h.moved p).2 at'
    have hrank : b.rank p =
        ({ ((b.remind p p.ladder).1.moved p p.ladder).1 with published := p.ladder },
          { reminders := (b.remind p p.ladder).2.1
            notices := ((b.remind p p.ladder).1.moved p p.ladder).2 }) := if_neg hsame
    rw [hrank, History.tells, hreminders]
    exact ⟨congrArg _ (h.moved p).1, hlast.symm, hmoved, hreminded⟩

end Board.Knows

theorem Board.knows_run (passes : List Pass) : (Board.run passes).Knows passes := by
  induction passes using List.reverseRecOn with
  | nil => exact ⟨rfl, fun _ => rfl, fun at' since => by simp [Board.run, wasDue]⟩
  | append_singleton before p ih =>
    have hrun : Board.run (before ++ [p]) = ((Board.run before).rank p).1 := by
      rw [Board.run, List.foldl_append]
      rfl
    rw [hrun]
    exact (ih.rank p).2

/-- However the rankings fall, each tells what the whole history says. -/
theorem Board.notices_from_history (before : List Pass) (p : Pass) :
    ((Board.run before).rank p).2 = History.tells before p :=
  ((Board.knows_run before).rank p).1

end Slopty.Hub
