import Mathlib.Data.List.MinMax
import Mathlib.Data.List.Sort
import Mathlib.Order.Lattice

/-!
The best so many of a list, the greatest first: kept one by one as the list is gone through, or
taken from the best of each of its pieces.
-/

namespace Slopty.Lib

universe u

variable {α : Type u} [LinearOrder α]

/-- The greatest `k`, the greatest first. -/
def best (k : Nat) (l : List α) : List α := (l.insertionSort (· ≥ ·)).take k

/-- One element more among at most `k` kept: past that the smallest goes. -/
def keep (k : Nat) (kept : List α) (a : α) : List α :=
  let kept := a :: kept
  if k < kept.length then
    match kept.argmin id with
    | some least => kept.erase least
    | none => kept
  else kept

theorem best_perm {k : Nat} {l l' : List α} (h : l.Perm l') : best k l = best k l' := by
  have hsorted : l.insertionSort (· ≥ ·) = l'.insertionSort (· ≥ ·) :=
    (((List.perm_insertionSort _ l).trans h).trans
      (List.perm_insertionSort _ l').symm).eq_of_pairwise
      (fun a b _ _ hab hba => le_antisymm hba hab)
      (List.pairwise_insertionSort _ l) (List.pairwise_insertionSort _ l')
  rw [best, best, hsorted]

theorem length_best (k : Nat) (l : List α) : (best k l).length = min k l.length := by
  rw [best, List.length_take, List.length_insertionSort]

/-- An insertion moves only what stands behind the place it is made at. -/
theorem take_orderedInsert (a : α) (k : Nat) (s : List α) :
    (s.orderedInsert (· ≥ ·) a).take k = ((s.take k).orderedInsert (· ≥ ·) a).take k := by
  induction s generalizing k with
  | nil => simp
  | cons b s ih =>
    cases k with
    | zero => simp
    | succ k =>
      rw [List.take_succ_cons, List.orderedInsert, List.orderedInsert]
      split
      · rw [List.take_succ_cons, List.take_succ_cons, ← List.take_succ_cons (a := b),
          List.take_take, min_eq_left (Nat.le_succ k)]
      · rw [List.take_succ_cons, List.take_succ_cons, ih]

theorem best_cons (k : Nat) (a : α) (l : List α) : best k (a :: l) = best k (a :: best k l) := by
  have hkept : (best k l).insertionSort (· ≥ ·) = best k l :=
    ((List.pairwise_insertionSort _ l).sublist (List.take_sublist _ _)).insertionSort_eq
  rw [best, best, List.insertionSort_cons, List.insertionSort_cons, hkept, best,
    ← take_orderedInsert]

theorem best_append_best (k : Nat) (l l' : List α) :
    best k (l ++ best k l') = best k (l ++ l') := by
  induction l with
  | nil =>
    rw [List.nil_append, List.nil_append, best, best,
      ((List.pairwise_insertionSort _ l').sublist (List.take_sublist _ _)).insertionSort_eq,
      List.take_take, min_self]
  | cons a l ih => rw [List.cons_append, best_cons, ih, ← best_cons, List.cons_append]

/-- The best of all the pieces are the best of the best of each. -/
theorem best_flatMap_best (k : Nat) (pieces : List (List α)) :
    best k (pieces.flatMap (best k)) = best k pieces.flatten := by
  induction pieces with
  | nil => rfl
  | cons l pieces ih =>
    rw [List.flatMap_cons, List.flatten_cons]
    calc best k (best k l ++ pieces.flatMap (best k))
        = best k (best k l ++ best k (pieces.flatMap (best k))) :=
          (best_append_best k _ _).symm
      _ = best k (best k l ++ pieces.flatten) := by rw [ih, best_append_best]
      _ = best k (pieces.flatten ++ best k l) := best_perm List.perm_append_comm
      _ = best k (pieces.flatten ++ l) := best_append_best k _ _
      _ = best k (l ++ pieces.flatten) := best_perm List.perm_append_comm

/-- The greatest `k` of one more than `k` are all but the smallest. -/
theorem erase_perm_best {k : Nat} {l : List α} (hlength : l.length = k + 1) {least : α}
    (hleast : least ∈ l.argmin id) : (l.erase least).Perm (best k l) := by
  have hmem : least ∈ l := List.argmin_mem hleast
  have hall : ∀ a ∈ l, least ≤ a := fun a ha => List.le_of_mem_argmin ha hleast
  have hperm := List.perm_insertionSort (· ≥ ·) l
  have hsorted := List.pairwise_insertionSort (· ≥ ·) l
  have hlast : (l.insertionSort (· ≥ ·)).drop k = [least] := by
    obtain ⟨last, hdrop⟩ := List.length_eq_one_iff.mp
      (by rw [List.length_drop, hperm.length_eq, hlength, Nat.add_sub_cancel_left] :
        ((l.insertionSort (· ≥ ·)).drop k).length = 1)
    rw [← List.take_append_drop k (l.insertionSort (· ≥ ·)), hdrop] at hsorted hperm
    have hle : least ≤ last :=
      hall last (hperm.subset (List.mem_append_right _ List.mem_cons_self))
    have hge : last ≤ least := by
      rcases List.mem_append.mp (hperm.symm.subset hmem) with hfront | hback
      · exact (List.pairwise_append.mp hsorted).2.2 least hfront last List.mem_cons_self
      · exact (List.mem_singleton.mp hback).ge
    rw [hdrop, le_antisymm hge hle]
  rw [← List.take_append_drop k (l.insertionSort (· ≥ ·)), hlast] at hperm
  exact List.Perm.cons_inv <|
    calc (least :: l.erase least).Perm l := (List.perm_cons_erase hmem).symm
      _ |>.Perm (best k l ++ [least]) := hperm.symm
      _ |>.Perm (least :: best k l) := List.perm_append_singleton least _

theorem keep_perm {k : Nat} {kept l : List α} (h : kept.Perm (best k l)) (a : α) :
    (keep k kept a).Perm (best k (a :: l)) := by
  have hlength : kept.length ≤ k := by
    rw [h.length_eq, length_best]
    exact min_le_left k _
  rw [best_cons, ← best_perm (h.cons a), keep]
  split
  · rename_i hover
    have hfull : (a :: kept).length = k + 1 := by
      rw [List.length_cons] at hover ⊢
      omega
    split
    · rename_i least hleast
      exact erase_perm_best hfull hleast
    · rename_i hnone
      exact absurd (List.argmin_eq_none.mp hnone) (List.cons_ne_nil a kept)
  · rename_i hfits
    have hall : best k (a :: kept) = (a :: kept).insertionSort (· ≥ ·) := by
      rw [best, List.take_of_length_le]
      rw [List.length_insertionSort]
      exact Nat.le_of_not_lt hfits
    rw [hall]
    exact (List.perm_insertionSort _ _).symm

/-- Gone through one by one, what is kept are the best of all. -/
theorem foldl_keep_perm (k : Nat) (l : List α) : (l.foldl (keep k) []).Perm (best k l) := by
  have hrun : ∀ before : List α, (before.reverse.foldl (keep k) []).Perm (best k before) := by
    intro before
    induction before with
    | nil => rw [best, List.insertionSort_nil, List.take_nil, List.reverse_nil, List.foldl_nil]
    | cons a before ih =>
      rw [List.reverse_cons, List.foldl_append]
      exact keep_perm ih a
  have h := hrun l.reverse
  rw [List.reverse_reverse] at h
  rwa [best_perm l.reverse_perm] at h

end Slopty.Lib
