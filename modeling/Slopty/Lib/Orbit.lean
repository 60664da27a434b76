import Mathlib.Data.Finset.Card
import Mathlib.Data.List.Nodup
import Mathlib.Dynamics.PeriodicPts.Defs
import Mathlib.Logic.Relation

/-!
Following a function around a finite set of places, and a partial one until it
ends or comes back.
-/

namespace Slopty.Lib

universe u

variable {α : Type u}

theorem exists_same_place [DecidableEq α] {s : List α} (at' : Nat → α) {n : Nat}
    (hs : ∀ i ≤ n, at' i ∈ s) (hn : s.length ≤ n) :
    ∃ i j, i < j ∧ j ≤ n ∧ at' i = at' j := by
  have hcard : s.toFinset.card < (Finset.range (n + 1)).card := by
    rw [Finset.card_range]
    exact Nat.lt_succ_of_le ((List.toFinset_card_le s).trans hn)
  have hmaps : ∀ i ∈ Finset.range (n + 1), at' i ∈ s.toFinset := by
    intro i hi
    exact List.mem_toFinset.mpr (hs i (Nat.lt_succ_iff.mp (Finset.mem_range.mp hi)))
  obtain ⟨i, hi, j, hj, hij, heq⟩ := Finset.exists_ne_map_eq_of_card_lt_of_maps_to hcard hmaps
  rw [Finset.mem_range, Nat.lt_succ_iff] at hi hj
  rcases lt_or_gt_of_ne hij with hlt | hgt
  · exact ⟨i, j, hlt, hj, heq⟩
  · exact ⟨j, i, hgt, hi, heq.symm⟩

section Iterate

variable {f : α → α}

theorem iterate_mem {s : List α} (hs : ∀ x ∈ s, f x ∈ s) {x : α} (hx : x ∈ s) (n : Nat) :
    f^[n] x ∈ s := by
  induction n with
  | zero => exact hx
  | succ n ih =>
    rw [Function.iterate_succ_apply']
    exact hs _ ih

theorem iterate_mem_periodicPts [DecidableEq α] {s : List α} (hs : ∀ x ∈ s, f x ∈ s) {x : α}
    (hx : x ∈ s) {n : Nat} (hn : s.length ≤ n) : f^[n] x ∈ Function.periodicPts f := by
  obtain ⟨i, j, hij, hj, heq⟩ :=
    exists_same_place (fun k => f^[k] x) (fun k _ => iterate_mem hs hx k) hn
  -- From the first visit on, the steps between the two visits lead back.
  have hloop : Function.IsPeriodicPt f (j - i) (f^[i] x) := by
    show f^[j - i] (f^[i] x) = f^[i] x
    rw [← Function.iterate_add_apply, Nat.sub_add_cancel hij.le]
    exact heq.symm
  have hlater : f^[n] x = f^[n - i] (f^[i] x) := by
    rw [← Function.iterate_add_apply, Nat.sub_add_cancel (hij.le.trans hj)]
  rw [hlater]
  exact Function.mk_mem_periodicPts (Nat.sub_pos_of_lt hij) (hloop.apply_iterate (n - i))

/-- A place on a loop is reached in any number of steps, from a place of the loop. -/
theorem exists_iterate_eq {x : α} (hx : x ∈ Function.periodicPts f) (n : Nat) :
    ∃ m, f^[n] (f^[m] x) = x := by
  obtain ⟨c, hc, hloop⟩ := Function.mem_periodicPts.mp hx
  refine ⟨n * c - n, ?_⟩
  rw [← Function.iterate_add_apply, Nat.add_sub_cancel' (Nat.le_mul_of_pos_right n hc)]
  exact hloop.const_mul n

end Iterate

section Steps

variable {g : α → Option α}

/-- Where `k` steps lead. -/
def stepsTo (g : α → Option α) : Nat → α → Option α
  | 0, x => some x
  | k + 1, x => (g x).bind (stepsTo g k)

theorem stepsTo_add (i j : Nat) (x : α) :
    stepsTo g (i + j) x = (stepsTo g i x).bind (stepsTo g j) := by
  induction i generalizing x with
  | zero => rw [Nat.zero_add, stepsTo, Option.bind_some]
  | succ i ih =>
    rw [Nat.add_right_comm, stepsTo, stepsTo]
    cases g x with
    | none => rfl
    | some y => exact ih y

theorem mem_of_stepsTo {s : List α} (hs : ∀ x y, g x = some y → y ∈ s) {k : Nat} {x y : α}
    (h : stepsTo g (k + 1) x = some y) : y ∈ s := by
  rw [stepsTo_add] at h
  obtain ⟨z, -, hz⟩ := Option.bind_eq_some_iff.mp h
  rw [stepsTo] at hz
  obtain ⟨w, hw, hwy⟩ := Option.bind_eq_some_iff.mp hz
  obtain rfl := Option.some.inj hwy
  exact hs z w hw

/-- One place leads to another by one step or more. -/
abbrev Leads (g : α → Option α) : α → α → Prop := Relation.TransGen fun x y => g x = some y

theorem leads_iff {x y : α} : Leads g x y ↔ ∃ k, stepsTo g (k + 1) x = some y := by
  constructor
  · intro h
    induction h with
    | single hy =>
      refine ⟨0, ?_⟩
      rw [stepsTo, hy]
      rfl
    | tail _ hz ih =>
      obtain ⟨k, hk⟩ := ih
      refine ⟨k + 1, ?_⟩
      rw [stepsTo_add, hk, Option.bind_some, stepsTo, hz]
      rfl
  · rintro ⟨k, hk⟩
    induction k generalizing x with
    | zero =>
      obtain ⟨z, hz, hzy⟩ := Option.bind_eq_some_iff.mp hk
      obtain rfl := Option.some.inj hzy
      exact Relation.TransGen.single hz
    | succ k ih =>
      obtain ⟨z, hz, hzy⟩ := Option.bind_eq_some_iff.mp hk
      exact Relation.TransGen.head hz (ih hzy)

/-- The places on the way, within so many steps and no further than the first return to `start`. -/
def passed [DecidableEq α] (g : α → Option α) (start : α) : Nat → α → List α
  | 0, _ => []
  | n + 1, x =>
      match g x with
      | none => []
      | some y => y :: if y = start then [] else passed g start n y

variable [DecidableEq α]

theorem mem_passed {start x y : α} {n : Nat} :
    y ∈ passed g start n x ↔
      ∃ k < n, stepsTo g (k + 1) x = some y ∧ ∀ i < k, stepsTo g (i + 1) x ≠ some start := by
  induction n generalizing x with
  | zero => simp [passed]
  | succ n ih =>
    rw [passed]
    cases hx : g x with
    | none => simp [stepsTo, hx]
    | some z =>
      have hfirst : stepsTo g 1 x = some z := by
        rw [stepsTo, hx]
        rfl
      have hlater : ∀ k, stepsTo g (k + 2) x = stepsTo g (k + 1) z := by
        intro k
        rw [stepsTo, hx, Option.bind_some]
      rw [List.mem_cons]
      constructor
      · rintro (rfl | hy)
        · exact ⟨0, Nat.succ_pos n, hfirst, nofun⟩
        · by_cases hz : z = start
          · simp [hz] at hy
          · rw [if_neg hz] at hy
            obtain ⟨k, hk, hsteps, hfree⟩ := ih.mp hy
            refine ⟨k + 1, Nat.succ_lt_succ hk, (hlater k).trans hsteps, ?_⟩
            intro i hi
            cases i with
            | zero =>
              rw [hfirst]
              exact fun h => hz (Option.some.inj h)
            | succ i =>
              rw [hlater]
              exact hfree i (Nat.lt_of_succ_lt_succ hi)
      · rintro ⟨k, hk, hsteps, hfree⟩
        cases k with
        | zero => exact Or.inl (Option.some.inj (hsteps.symm.trans hfirst))
        | succ k =>
          right
          have hz : z ≠ start := fun h => hfree 0 (Nat.succ_pos k) (hfirst.trans (congrArg some h))
          rw [if_neg hz]
          refine ih.mpr ⟨k, Nat.lt_of_succ_lt_succ hk, (hlater k).symm.trans hsteps, ?_⟩
          intro i hi
          rw [← hlater]
          exact hfree (i + 1) (Nat.succ_lt_succ hi)

/-- With as many steps as there are places, every place one is led to is passed. -/
theorem mem_passed_iff_leads {s : List α} (hs : ∀ x y, g x = some y → y ∈ s) {n : Nat}
    (hn : s.length ≤ n) {x y : α} : y ∈ passed g x n x ↔ Leads g x y := by
  constructor
  · intro hy
    obtain ⟨k, -, hsteps, -⟩ := mem_passed.mp hy
    exact leads_iff.mpr ⟨k, hsteps⟩
  · intro h
    rw [leads_iff] at h
    -- The shortest way has no place twice, and does not come back to where it starts.
    classical
    obtain ⟨k, hsteps, hleast⟩ : ∃ k, stepsTo g (k + 1) x = some y ∧
        ∀ j < k, stepsTo g (j + 1) x ≠ some y := ⟨Nat.find h, Nat.find_spec h, fun j hj =>
      Nat.find_min h hj⟩
    have hsplit : ∀ i ≤ k, (stepsTo g (i + 1) x).bind (stepsTo g (k - i)) = some y := by
      intro i hi
      rw [← stepsTo_add, Nat.add_right_comm, Nat.add_sub_cancel' hi]
      exact hsteps
    have hshort : ∀ i j, i < j → j ≤ k → stepsTo g (i + 1) x ≠ stepsTo g (j + 1) x := by
      intro i j hij hj heq
      refine hleast (i + (k - j)) (by omega) ?_
      rw [Nat.add_right_comm, stepsTo_add, heq]
      exact hsplit j hj
    have hk : k < n := by
      by_contra hlong
      obtain ⟨i, j, hij, hj, heq⟩ :=
        exists_same_place (s := s.map some) (n := k) (fun i => stepsTo g (i + 1) x) (by
          intro i hi
          have hsome := hsplit i hi
          cases hz : stepsTo g (i + 1) x with
          | none => simp [hz] at hsome
          | some z => exact List.mem_map_of_mem (mem_of_stepsTo hs hz)) (by
          rw [List.length_map]
          omega)
      exact hshort i j hij hj heq
    refine mem_passed.mpr ⟨k, hk, hsteps, ?_⟩
    intro i hi hback
    have hrest := hsplit i hi.le
    rw [hback, Option.bind_some] at hrest
    refine hleast (k - i - 1) (by omega) ?_
    rw [Nat.sub_add_cancel (by omega)]
    exact hrest

theorem nodup_passed (hloop : ∀ x, ¬ Leads g x x) (start : α) (n : Nat) (x : α) :
    (passed g start n x).Nodup := by
  induction n generalizing x with
  | zero => exact List.nodup_nil
  | succ n ih =>
    rw [passed]
    cases g x with
    | none => exact List.nodup_nil
    | some y =>
      dsimp only
      rw [List.nodup_cons]
      split
      · exact ⟨List.not_mem_nil, List.nodup_nil⟩
      · refine ⟨?_, ih y⟩
        intro hy
        obtain ⟨k, -, hsteps, -⟩ := mem_passed.mp hy
        exact hloop y (leads_iff.mpr ⟨k, hsteps⟩)

end Steps

end Slopty.Lib
