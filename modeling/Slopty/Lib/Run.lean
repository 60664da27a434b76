import Mathlib.Logic.Basic
import Mathlib.Data.List.Infix

/-!
Runs of a machine given by its step function, and what holds along a run whose
steps all meet a condition.
-/

namespace Slopty.Lib

universe u v

variable {σ : Type u} {ι : Type v}

/-- Every step of the run over these inputs meets the condition on the state it
is taken from. -/
def EachStep (step : σ → ι → σ) (cond : σ → ι → Prop) : σ → List ι → Prop
  | _, [] => True
  | s, i :: rest => cond s i ∧ EachStep step cond (step s i) rest

instance EachStep.decidable {step : σ → ι → σ} {cond : σ → ι → Prop}
    [∀ s i, Decidable (cond s i)] : ∀ s inputs, Decidable (EachStep step cond s inputs)
  | _, [] => isTrue trivial
  | s, i :: rest =>
      have : Decidable (EachStep step cond (step s i) rest) := EachStep.decidable (step s i) rest
      inferInstanceAs (Decidable (cond s i ∧ EachStep step cond (step s i) rest))

namespace EachStep

variable {step : σ → ι → σ} {cond : σ → ι → Prop}

theorem append {s : σ} {before after : List ι} :
    EachStep step cond s (before ++ after) ↔
      EachStep step cond s before ∧ EachStep step cond (before.foldl step s) after := by
  induction before generalizing s with
  | nil => simp [EachStep]
  | cons i rest ih => simp [EachStep, ih, and_assoc]

/-- What every step that meets the condition preserves holds at the end. -/
theorem foldl {P : σ → Prop} (hstep : ∀ s i, P s → cond s i → P (step s i)) {s : σ}
    {inputs : List ι} (h : EachStep step cond s inputs) (hs : P s) : P (inputs.foldl step s) := by
  induction inputs generalizing s with
  | nil => exact hs
  | cons i rest ih => exact ih h.2 (hstep s i hs h.1)

/-- Where a step keeps a property exactly when it meets the condition, a run keeps it everywhere
exactly when every step of it does. -/
theorem iff_everywhere {P : σ → Prop} (hstep : ∀ s i, P s → (P (step s i) ↔ cond s i)) {s : σ}
    (hs : P s) (inputs : List ι) :
    (∀ before, before <+: inputs → P (before.foldl step s)) ↔ EachStep step cond s inputs := by
  induction inputs generalizing s with
  | nil =>
    refine ⟨fun _ => trivial, fun _ before hbefore => ?_⟩
    rw [List.prefix_nil.mp hbefore]
    exact hs
  | cons i rest ih =>
    constructor
    · intro h
      have hnext : P (step s i) := h [i] ⟨rest, rfl⟩
      refine ⟨(hstep s i hs).mp hnext, (ih hnext).mp fun before hbefore => ?_⟩
      exact h (i :: before) ((List.prefix_cons_inj i).mpr hbefore)
    · rintro ⟨hi, hrest⟩ before hbefore
      have hnext : P (step s i) := (hstep s i hs).mpr hi
      cases before with
      | nil => exact hs
      | cons j before =>
        obtain ⟨rfl, htail⟩ := List.cons_prefix_cons.mp hbefore
        exact (ih hnext).mpr hrest before htail

end EachStep

end Slopty.Lib
