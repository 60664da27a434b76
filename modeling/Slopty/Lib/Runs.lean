import Mathlib.Data.List.Pairwise
import Mathlib.Order.Basic

/-!
The maximal runs of a property of the natural numbers, each as where it starts and how long it is.
-/

namespace Slopty.Lib

/-- A number is in a run. -/
def InRun (n : Nat) (run : Nat × Nat) : Prop := run.1 ≤ n ∧ n < run.1 + run.2

/-- Numbers of a property, one after another, that neither one before nor one after goes on. -/
structure MaximalRun (P : Nat → Prop) (run : Nat × Nat) : Prop where
  pos : 0 < run.2
  all : ∀ n, InRun n run → P n
  before : ∀ n, n + 1 = run.1 → ¬ P n
  after : ¬ P (run.1 + run.2)

/-- Runs in order, none of them next to another, of all the numbers of a property. -/
structure Runs (P : Nat → Prop) (runs : List (Nat × Nat)) : Prop where
  pos : ∀ run ∈ runs, 0 < run.2
  apart : runs.Pairwise fun run next => run.1 + run.2 < next.1
  covers : ∀ n, P n ↔ ∃ run ∈ runs, InRun n run

namespace Runs

variable {P : Nat → Prop} {runs : List (Nat × Nat)}

theorem apart_of_ne (h : Runs P runs) {run other : Nat × Nat} (hrun : run ∈ runs)
    (hother : other ∈ runs) (hne : run ≠ other) :
    run.1 + run.2 < other.1 ∨ other.1 + other.2 < run.1 := by
  let Apart := fun run next : Nat × Nat => run.1 + run.2 < next.1 ∨ next.1 + next.2 < run.1
  have happart : runs.Pairwise Apart := h.apart.imp .inl
  have hsymm : Std.Symm Apart := ⟨fun _ _ => Or.symm⟩
  exact happart.forall hrun hother hne

theorem maximal (h : Runs P runs) {run : Nat × Nat} (hrun : run ∈ runs) : MaximalRun P run := by
  have hpos := h.pos run hrun
  refine ⟨hpos, fun n hn => (h.covers n).mpr ⟨run, hrun, hn⟩, ?_, ?_⟩
  · intro n hn hP
    obtain ⟨other, hother, hin⟩ := (h.covers n).mp hP
    have hne : run ≠ other := by
      rintro rfl
      have := hin.1
      omega
    have := h.pos other hother
    rcases h.apart_of_ne hrun hother hne with hapart | hapart
    · have := hin.1
      omega
    · have := hin.2
      omega
  · intro hP
    obtain ⟨other, hother, hin⟩ := (h.covers _).mp hP
    have hne : run ≠ other := by
      rintro rfl
      exact Nat.lt_irrefl _ hin.2
    rcases h.apart_of_ne hrun hother hne with hapart | hapart
    · have := hin.1
      omega
    · have := hin.2
      omega

/-- They are the maximal runs, and there is no other. -/
theorem mem_iff (h : Runs P runs) (run : Nat × Nat) : run ∈ runs ↔ MaximalRun P run := by
  refine ⟨h.maximal, fun hmax => ?_⟩
  have hstart : P run.1 := hmax.all run.1 ⟨Nat.le_refl _, Nat.lt_add_of_pos_right hmax.pos⟩
  obtain ⟨other, hother, hin⟩ := (h.covers run.1).mp hstart
  have hmax' := h.maximal hother
  have hfirst : other.1 = run.1 := by
    rcases Nat.eq_or_lt_of_le hin.1 with heq | hlt
    · exact heq
    · have hP := hmax'.all (run.1 - 1) ⟨by omega, by have := hin.2; omega⟩
      exact absurd hP (hmax.before (run.1 - 1) (by omega))
  have hlength : other.2 = run.2 := by
    rcases Nat.lt_trichotomy other.2 run.2 with hlt | heq | hlt
    · exact absurd (hmax.all _ ⟨by omega, by omega⟩) hmax'.after
    · exact heq
    · exact absurd (hmax'.all _ ⟨by omega, by omega⟩) hmax.after
  rwa [← Prod.ext hfirst hlength]

end Runs

end Slopty.Lib
