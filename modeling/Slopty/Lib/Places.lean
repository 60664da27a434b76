import Mathlib.Data.List.Basic

/-!
The last place in a list where a test holds.
-/

namespace Slopty.Lib

universe u

variable {α : Type u}

/-- The last position where a test holds. -/
def rposition (p : α → Bool) : List α → Option Nat
  | [] => none
  | a :: rest =>
      match rposition p rest with
      | some i => some (i + 1)
      | none => if p a then some 0 else none

variable {p : α → Bool}

theorem rposition_eq_some {l : List α} {i : Nat} (h : rposition p l = some i) :
    ∃ a, l[i]? = some a ∧ p a = true := by
  induction l generalizing i with
  | nil => exact absurd h nofun
  | cons a rest ih =>
    rw [rposition] at h
    split at h
    · rename_i j hj
      obtain rfl := Option.some.inj h
      exact ih hj
    · split at h
      · rename_i hp
        obtain rfl := Option.some.inj h
        exact ⟨a, rfl, hp⟩
      · exact absurd h nofun

theorem rposition_eq_none {l : List α} : rposition p l = none ↔ ∀ a ∈ l, p a = false := by
  induction l with
  | nil => simp [rposition]
  | cons a rest ih =>
    rw [rposition]
    cases hrest : rposition p rest with
    | some i =>
      obtain ⟨b, hb, hp⟩ := rposition_eq_some hrest
      simp only [reduceCtorEq, List.mem_cons, forall_eq_or_imp, false_iff, not_and]
      intro _ hall
      rw [hall b (List.mem_of_getElem? hb)] at hp
      exact absurd hp nofun
    | none =>
      simp only [List.mem_cons, forall_eq_or_imp, ih.mp hrest]
      cases p a <;> simp
      exact ih.mp hrest

theorem of_rposition_lt {l : List α} {i j : Nat} {a : α} (h : rposition p l = some i) (hij : i < j)
    (ha : l[j]? = some a) : p a = false := by
  induction l generalizing i j with
  | nil => exact absurd ha nofun
  | cons b rest ih =>
    cases j with
    | zero => exact absurd hij (Nat.not_lt_zero i)
    | succ j =>
      have ha : rest[j]? = some a := by simpa using ha
      rw [rposition] at h
      split at h
      · rename_i k hk
        obtain rfl := Option.some.inj h
        exact ih hk (Nat.lt_of_succ_lt_succ hij) ha
      · rename_i hnone
        exact rposition_eq_none.mp hnone a (List.mem_of_getElem? ha)

end Slopty.Lib
