import Mathlib.Data.Set.Finite.Basic
import Mathlib.Logic.Relation
import Mathlib.Order.Monotone.Basic

/-!
Relations along which a rank goes down: they have no cycle, and among finitely many elements no
chain goes on for ever.
-/

namespace Slopty.Lib

universe u v

variable {α : Type u} {β : Type v} [LinearOrder β] {r : α → α → Prop} {rank : α → β}

theorem rank_lt_of_transGen (h : ∀ a b, r a b → rank b < rank a) {a b : α}
    (hab : Relation.TransGen r a b) : rank b < rank a := by
  induction hab with
  | single hstep => exact h _ _ hstep
  | tail _ hstep ih => exact (h _ _ hstep).trans ih

theorem acyclic_of_rank (h : ∀ a b, r a b → rank b < rank a) (a : α) :
    ¬ Relation.TransGen r a a :=
  fun hcycle => lt_irrefl _ (rank_lt_of_transGen h hcycle)

theorem chain_ends_of_rank (h : ∀ a b, r a b → rank b < rank a) {s : Set α} (hs : s.Finite)
    {f : ℕ → α} (hf : ∀ n, f n ∈ s) : ∃ n, ¬ r (f (n + 1)) (f n) := by
  by_contra hnone
  have hall : ∀ n, r (f (n + 1)) (f n) := by simpa using hnone
  have hmono : StrictMono (rank ∘ f) := strictMono_nat_of_lt_succ fun n => h _ _ (hall n)
  have hinf : (Set.range f).Infinite := Set.infinite_range_of_injective hmono.injective.of_comp
  refine hinf (hs.subset ?_)
  rintro _ ⟨n, rfl⟩
  exact hf n

end Slopty.Lib
