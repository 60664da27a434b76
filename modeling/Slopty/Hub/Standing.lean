import Mathlib.Data.Prod.Lex
import Mathlib.Order.Lattice
import Slopty.Thread.State

/-!
Where a group of threads stands: its highest rung, how many stand on each, and the one to go to
first.
-/

namespace Slopty.Hub

open Slopty.Lib
open Slopty.Thread (ThreadId WallMs Phase)

abbrev WorkerId := Nat

abbrev SessionId := Nat

/-- Where a thread stands, lowest first. -/
inductive Rung where
  | idle
  | waiting
  | working
  | failed
  | needsYou
  deriving DecidableEq, Repr

namespace Rung

def height : Rung → Nat
  | idle => 0
  | waiting => 1
  | working => 2
  | failed => 3
  | needsYou => 4

theorem height_injective : Function.Injective height := by
  intro a b h
  cases a <;> cases b <;> first | rfl | exact absurd h (by decide)

instance : LinearOrder Rung := LinearOrder.lift' height height_injective

def ofPhase : Phase → Rung
  | .needsYou => needsYou
  | .failed => failed
  | .working => working
  | .waiting => waiting
  | .idle | .done | .stopped => idle

end Rung

structure ThreadAt where
  worker : WorkerId
  thread : ThreadId
  deriving Repr

theorem ThreadAt.toLex_injective :
    Function.Injective fun a : ThreadAt => toLex (a.worker, a.thread) := by
  rintro ⟨w, t⟩ ⟨w', t'⟩ h
  obtain ⟨rfl, rfl⟩ := Prod.mk.inj (toLex.injective h)
  rfl

instance : LinearOrder ThreadAt := LinearOrder.lift' _ ThreadAt.toLex_injective

structure Counts where
  needsYou : Nat := 0
  failed : Nat := 0
  working : Nat := 0
  waiting : Nat := 0
  idle : Nat := 0
  deriving DecidableEq, Repr

def u32Max : Nat := 2 ^ 32 - 1

namespace Counts

def on (c : Counts) : Rung → Nat
  | .needsYou => c.needsYou
  | .failed => c.failed
  | .working => c.working
  | .waiting => c.waiting
  | .idle => c.idle

/-- `n` more on a rung, up to what the counter holds. -/
def add (c : Counts) (rung : Rung) (n : Nat) : Counts :=
  match rung with
  | .needsYou => { c with needsYou := min u32Max (c.needsYou + n) }
  | .failed => { c with failed := min u32Max (c.failed + n) }
  | .working => { c with working := min u32Max (c.working + n) }
  | .waiting => { c with waiting := min u32Max (c.waiting + n) }
  | .idle => { c with idle := min u32Max (c.idle + n) }

def count (c : Counts) (rung : Rung) : Counts := c.add rung 1

theorem on_count (c : Counts) (rung r : Rung) :
    (c.count rung).on r = if rung = r then min u32Max (c.on r + 1) else c.on r := by
  cases rung <;> cases r <;> rfl

end Counts

/-- A thread with the rung it stands on, and since when. -/
structure Ranked where
  at' : ThreadAt
  rung : Rung
  sinceMs : WallMs
  deriving DecidableEq, Repr

structure Standing where
  /-- The highest rung among them. -/
  rung : Rung := .idle
  counts : Counts := {}
  /-- The one to go to first: on the highest rung, there longest. -/
  top : Option ThreadAt := none
  sinceMs : WallMs := 0
  deriving DecidableEq, Repr

namespace Standing

/-- Make `at'` the top when it goes before the one there: on a higher rung, or longer on the same
one. -/
def lead (s : Standing) (at' : ThreadAt) (rung : Rung) (sinceMs : WallMs) : Standing :=
  let ahead := s.top.all fun top =>
    decide (s.rung < rung ∨ rung = s.rung ∧ toLex (sinceMs, at') < toLex (s.sinceMs, top))
  if ahead then { s with rung := rung, top := some at', sinceMs := sinceMs } else s

/-- Take a thread in. -/
def add (s : Standing) (thread : Ranked) : Standing :=
  { s with counts := s.counts.count thread.rung }.lead thread.at' thread.rung thread.sinceMs

def of (threads : List Ranked) : Standing := threads.foldl add {}

theorem counts_add (s : Standing) (thread : Ranked) :
    (s.add thread).counts = s.counts.count thread.rung := by
  unfold add lead
  dsimp only
  split <;> rfl

/-- Each thread taken in counts once on its rung, up to what the counter holds. -/
theorem counts_of (threads : List Ranked) (rung : Rung) :
    (of threads).counts.on rung = min u32Max (threads.countP fun r => decide (r.rung = rung)) := by
  induction threads using List.reverseRecOn with
  | nil => cases rung <;> rfl
  | append_singleton threads r ih =>
    rw [of, List.foldl_append, List.foldl_cons, List.foldl_nil, counts_add, Counts.on_count]
    rw [of] at ih
    rw [ih, List.countP_append, List.countP_singleton]
    by_cases h : r.rung = rung
    · rw [if_pos h, if_pos (by simpa using h)]
      omega
    · rw [if_neg h, if_neg (by simpa using h), Nat.add_zero]

end Standing

/-! ### Roll-ups -/

section RollUp

variable {κ : Type} [LinearOrder κ]

/-- Take a thread into a group, which begins with it. -/
def addTo (groups : OrdMap κ Standing) (key : κ) (r : Ranked) : OrdMap κ Standing :=
  groups.insert key (((groups.get? key).getD {}).add r)

def takenInto (key : κ) (adds : List (κ × Ranked)) : List Ranked :=
  (adds.filter fun e => decide (e.1 = key)).map Prod.snd

theorem takenInto_append (key : κ) (adds more : List (κ × Ranked)) :
    takenInto key (adds ++ more) = takenInto key adds ++ takenInto key more := by
  rw [takenInto, List.filter_append, List.map_append]
  rfl

theorem takenInto_flatMap {α : Type} (key : κ) (l : List α) (f : α → List (κ × Ranked)) :
    takenInto key (l.flatMap f) = l.flatMap fun a => takenInto key (f a) := by
  induction l with
  | nil => rfl
  | cons a l ih => rw [List.flatMap_cons, List.flatMap_cons, takenInto_append, ih]

theorem takenInto_singleton (key : κ) (e : κ × Ranked) :
    takenInto key [e] = if e.1 = key then [e.2] else [] := by
  by_cases h : e.1 = key <;> simp [takenInto, h]

theorem get?_addTo (groups : OrdMap κ Standing) (key j : κ) (r : Ranked) :
    (addTo groups key r).get? j =
      if key = j then some (((groups.get? j).getD {}).add r) else groups.get? j := by
  rw [addTo, OrdMap.get?_insert]
  split
  · rename_i h
    rw [h]
  · rfl

theorem get?_rollUp (adds : List (κ × Ranked)) (key : κ) :
    (adds.foldl (fun groups e => addTo groups e.1 e.2) OrdMap.empty).get? key =
      if takenInto key adds = [] then none else some (Standing.of (takenInto key adds)) := by
  induction adds using List.reverseRecOn with
  | nil => rfl
  | append_singleton adds e ih =>
    rw [List.foldl_append, List.foldl_cons, List.foldl_nil, get?_addTo, ih, takenInto_append,
      takenInto_singleton]
    by_cases h : e.1 = key
    · have hne : ¬ takenInto key adds ++ [e.2] = [] := by simp
      rw [if_pos h, if_pos h, if_neg hne]
      by_cases hnil : takenInto key adds = []
      · rw [if_pos hnil, hnil]
        rfl
      · rw [if_neg hnil, Standing.of, Standing.of, List.foldl_append]
        rfl
    · rw [if_neg h, if_neg h, List.append_nil]

end RollUp

end Slopty.Hub
