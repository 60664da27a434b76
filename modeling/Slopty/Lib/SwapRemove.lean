import Mathlib.Data.List.Basic
import Mathlib.Data.List.Perm.Subperm

/-!
Removing from a vector by moving the last element into the gap, and when an
element is sure to keep its place.
-/

namespace Slopty.Lib

universe u

/-- `Vec::swap_remove`; an index past the end removes nothing. -/
def swapRemove {α : Type u} (l : List α) (i : Nat) : List α :=
  match l.getLast? with
  | none => l
  | some last => if i < l.length then (l.set i last).dropLast else l

variable {α : Type u}

theorem swapRemove_eq {l : List α} {i : Nat} (hi : i < l.length) :
    ∃ last, l.getLast? = some last ∧ swapRemove l i = (l.set i last).dropLast := by
  obtain ⟨last, hlast⟩ : ∃ last, l.getLast? = some last := by
    cases h : l.getLast? with
    | none =>
        rw [List.getLast?_eq_none_iff] at h
        simp [h] at hi
    | some last => exact ⟨last, rfl⟩
  exact ⟨last, hlast, by simp [swapRemove, hlast, hi]⟩

theorem getElem?_swapRemove_of_lt {l : List α} {i j : Nat} (hi : i < l.length)
    (hji : j ≠ i) (hj : j + 1 < l.length) : (swapRemove l i)[j]? = l[j]? := by
  obtain ⟨last, -, heq⟩ := swapRemove_eq hi
  rw [heq, List.getElem?_dropLast, List.length_set, if_pos (by omega), List.getElem?_set_ne]
  omega

theorem swapRemove_perm {l : List α} {i : Nat} (hi : i < l.length) :
    (swapRemove l i).Perm (l.eraseIdx i) := by
  obtain ⟨last, hlast, heq⟩ := swapRemove_eq hi
  rcases List.eq_nil_or_concat l with rfl | ⟨init, x, rfl⟩
  · simp at hi
  · rw [List.concat_eq_append] at hi hlast heq ⊢
    have hx : x = last := by simpa using hlast
    subst hx
    rw [heq]
    rcases Nat.lt_or_ge i init.length with hlt | hge
    · rw [List.set_append_left _ _ hlt, List.dropLast_concat, List.eraseIdx_append_of_lt_length hlt]
      refine (List.set_perm_cons_eraseIdx hlt x).trans ?_
      exact (List.perm_append_singleton x _).symm
    · have hi' : i = init.length := by
        simp only [List.length_append, List.length_singleton] at hi
        omega
      subst hi'
      rw [List.set_append_right _ _ (Nat.le_refl _), List.eraseIdx_append_of_length_le (Nat.le_refl _)]
      simp

theorem mem_swapRemove {l : List α} {i : Nat} {x : α} (hi : i < l.length)
    (hx : x ∈ swapRemove l i) : ∃ j, j ≠ i ∧ l[j]? = some x :=
  List.mem_eraseIdx_iff_getElem?.mp ((swapRemove_perm hi).mem_iff.mp hx)

theorem mem_of_mem_swapRemove {l : List α} {i : Nat} {x : α} (hi : i < l.length)
    (hx : x ∈ swapRemove l i) : x ∈ l := by
  obtain ⟨j, -, hj⟩ := mem_swapRemove hi hx
  exact List.mem_of_getElem? hj

/-- Enough elements that stay stand behind place `i` to fill the gaps before
it. -/
def Backed (leaves : α → Bool) (l : List α) (i : Nat) : Prop :=
  (l.take i).countP leaves ≤ (l.drop (i + 1)).countP fun x => !leaves x

theorem Backed.congr {leaves leaves' : α → Bool} {l : List α} {i : Nat}
    (h : ∀ x ∈ l, leaves x = leaves' x) : Backed leaves l i ↔ Backed leaves' l i := by
  have htake : (l.take i).countP leaves = (l.take i).countP leaves' :=
    List.countP_congr fun x hx => by rw [h x (List.mem_of_mem_take hx)]
  have hdrop : ((l.drop (i + 1)).countP fun x => !leaves x) =
      (l.drop (i + 1)).countP fun x => !leaves' x :=
    List.countP_congr fun x hx => by rw [h x (List.mem_of_mem_drop hx)]
  rw [Backed, Backed, htake, hdrop]

theorem Backed.congr_map {β : Type u} {f : α → β} {leaves : β → Bool} {l l' : List α} {i : Nat}
    (h : l.map f = l'.map f) :
    Backed (fun x => leaves (f x)) l i ↔ Backed (fun x => leaves (f x)) l' i := by
  have hmap : ∀ k : List α, Backed (fun x => leaves (f x)) k i ↔ Backed leaves (k.map f) i := by
    intro k
    rw [Backed, Backed, ← List.map_take, ← List.map_drop, List.countP_map, List.countP_map]
    rfl
  rw [hmap, hmap, h]

theorem countP_eraseIdx_of_neg {p : α → Bool} {l : List α} {k : Nat} {x : α}
    (hx : l[k]? = some x) (hp : p x = false) : (l.eraseIdx k).countP p = l.countP p := by
  obtain ⟨hk, rfl⟩ := List.getElem?_eq_some_iff.mp hx
  have hperm : (l[k] :: l.eraseIdx k).Perm l := List.getElem_cons_eraseIdx_perm hk
  rw [← hperm.countP_eq, List.countP_cons, if_neg (by simp [hp]), Nat.add_zero]

theorem swapRemove_append_concat {front back : List α} {last : α} {j : Nat}
    (hj : j < front.length) :
    swapRemove (front ++ (back ++ [last])) j = front.set j last ++ back := by
  have hlen : j < (front ++ (back ++ [last])).length := by
    simp only [List.length_append]
    omega
  obtain ⟨x, hx, heq⟩ := swapRemove_eq hlen
  have hlast : last = x := by simpa using hx
  subst hlast
  rw [heq, List.set_append_left _ _ hj, ← List.append_assoc, List.dropLast_concat]

theorem countP_swapRemove_of_neg {p : α → Bool} {l : List α} {k : Nat} {x : α}
    (hx : l[k]? = some x) (hp : p x = false) : (swapRemove l k).countP p = l.countP p := by
  rw [(swapRemove_perm (List.getElem?_eq_some_iff.mp hx).1).countP_eq,
    countP_eraseIdx_of_neg hx hp]

theorem take_swapRemove_of_le {l : List α} {i j : Nat} (hj : j < l.length) (hij : i ≤ j) :
    (swapRemove l j).take i = l.take i := by
  obtain ⟨last, -, heq⟩ := swapRemove_eq hj
  rw [heq, List.dropLast_eq_take, List.take_take, List.length_set, Nat.min_eq_left (by omega),
    List.take_set_of_le hij]

theorem Backed.swapRemove {leaves : α → Bool} {l : List α} {i j : Nat} {x : α}
    (h : Backed leaves l i) (hi : i < l.length) (hij : j ≠ i) (hx : l[j]? = some x)
    (hleaves : leaves x = true) :
    (swapRemove l j)[i]? = l[i]? ∧ Backed leaves (swapRemove l j) i := by
  obtain ⟨hj, hxj⟩ := List.getElem?_eq_some_iff.mp hx
  rcases Nat.lt_or_ge j i with hlt | hge
  · -- The last element fills the gap: whether it stays or leaves, both counts drop alike.
    have hpos : 0 < (l.take i).countP leaves :=
      List.countP_pos_iff.mpr ⟨x, List.mem_take_iff_getElem.mpr ⟨j, by omega, hxj⟩, hleaves⟩
    obtain hnil | ⟨back, last, hback⟩ := List.eq_nil_or_concat (l.drop (i + 1))
    · rw [Backed, hnil] at h
      simp only [List.countP_nil] at h
      omega
    · rw [List.concat_eq_append] at hback
      have hsplit : l = l.take i ++ ((l[i] :: back) ++ [last]) := by
        rw [List.cons_append, ← hback, ← List.drop_eq_getElem_cons hi, List.take_append_drop]
      have hlen : (l.take i).length = i := List.length_take_of_le (Nat.le_of_lt hi)
      have hjfront : j < (l.take i).length := by omega
      have hremoved : Lib.swapRemove l j = (l.take i).set j last ++ l[i] :: back := by
        conv_lhs => rw [hsplit]
        exact swapRemove_append_concat hjfront
      have hset : ((l.take i).set j last).length = i := by rw [List.length_set, hlen]
      constructor
      · rw [hremoved, List.getElem?_append_right (Nat.le_of_eq hset), hset, Nat.sub_self,
          List.getElem?_cons_zero, List.getElem?_eq_getElem hi]
      · rw [Backed, hback, List.countP_append] at h
        have hcount : ((l.take i).set j last).countP leaves + 1 =
            (l.take i).countP leaves + if leaves last then 1 else 0 := by
          have hat : (l.take i)[j] = x := by rw [List.getElem_take, hxj]
          rw [List.countP_set hjfront, hat, if_pos hleaves]
          omega
        have hdrop : ((l.take i).set j last ++ l[i] :: back).drop (i + 1) = back := by
          rw [← List.singleton_append, ← List.append_assoc]
          exact List.drop_left' (by simp [hset])
        rw [Backed, hremoved, List.take_left' hset, hdrop]
        rw [List.countP_singleton] at h
        cases hl : leaves last <;> simp only [hl, Bool.not_true, Bool.not_false, if_true,
          Bool.false_eq_true, if_false] at h hcount <;> omega
  · have hgt : i + 1 ≤ j := by omega
    have hnext : i + 1 < l.length := by omega
    refine ⟨getElem?_swapRemove_of_lt hj (by omega) hnext, ?_⟩
    have hcount := countP_swapRemove_of_neg (p := fun y => !leaves y) hx (by simp [hleaves])
    rw [← List.take_append_drop (i + 1) (Lib.swapRemove l j),
      take_swapRemove_of_le hj hgt, List.countP_append] at hcount
    nth_rewrite 3 [← List.take_append_drop (i + 1) l] at hcount
    rw [List.countP_append] at hcount
    rw [Backed, take_swapRemove_of_le hj (Nat.le_of_succ_le hgt)]
    rw [Backed] at h
    omega

end Slopty.Lib
