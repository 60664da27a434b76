import Mathlib.Data.List.Dedup
import Mathlib.Data.List.TakeWhile
import Mathlib.Data.List.Perm.Subperm
import Mathlib.Order.Basic
import Mathlib.Algebra.Order.Group.Nat

/-!
The last so many of a list, and lists in which nothing comes again while it is among them.
-/

namespace Slopty.Lib

universe u

variable {α : Type u}

/-- The last `n` of a list. -/
def recent (n : Nat) (l : List α) : List α := l.drop (l.length - n)

/-- Nothing comes again within `n` places. -/
def Spaced (n : Nat) (l : List α) : Prop :=
  ∀ i j, i < j → j ≤ i + n → ∀ x, l[i]? = some x → l[j]? ≠ some x

theorem length_recent (n : Nat) (l : List α) : (recent n l).length = min n l.length := by
  rw [recent, List.length_drop]
  omega

theorem recent_map {β : Type u} (f : α → β) (n : Nat) (l : List α) :
    recent n (l.map f) = (recent n l).map f := by
  rw [recent, recent, List.length_map, List.map_drop]

theorem recent_drop {n m : Nat} {l : List α} (h : m ≤ l.length - n) :
    recent n (l.drop m) = recent n l := by
  rw [recent, recent, List.drop_drop, List.length_drop]
  congr 1
  omega

theorem recent_concat {n : Nat} (hn : 0 < n) (l : List α) (x : α) :
    recent n (l ++ [x]) = (if l.length < n then recent n l else (recent n l).tail) ++ [x] := by
  have hlast : n ≤ l.length → (recent n l).tail = l.drop (l.length + 1 - n) := by
    intro hle
    rw [recent, List.tail_drop]
    congr 1
    omega
  rw [recent, List.length_append, List.length_singleton]
  split
  · rename_i hlt
    rw [recent, Nat.sub_eq_zero_of_le hlt, Nat.sub_eq_zero_of_le hlt.le]
    rfl
  · rename_i hge
    rw [hlast (not_lt.mp hge), List.drop_append_of_le_length (by omega)]

/-- One more behind at most `n`, the oldest dropped for it. -/
def pushRecent (n : Nat) (l : List α) (x : α) : List α :=
  (if n ≤ l.length then l.tail else l) ++ [x]

theorem length_pushRecent {n : Nat} (hn : 0 < n) (l : List α) (x : α) :
    (pushRecent n l x).length + (if n ≤ l.length then 1 else 0) = l.length + 1 := by
  rw [pushRecent, List.length_append, List.length_singleton]
  split
  · rw [List.length_tail]
    omega
  · rfl

theorem pushRecent_recent {n : Nat} (hn : 0 < n) (l : List α) (x : α) :
    pushRecent n (recent n l) x = recent n (l ++ [x]) := by
  rw [recent_concat hn, pushRecent, length_recent]
  by_cases hlt : l.length < n
  · rw [if_pos hlt, if_neg (by omega)]
  · rw [if_neg hlt, if_pos (by omega)]

theorem foldl_pushRecent {n : Nat} (hn : 0 < n) (l xs : List α) :
    xs.foldl (pushRecent n) (recent n l) = recent n (l ++ xs) := by
  induction xs generalizing l with
  | nil => rw [List.foldl_nil, List.append_nil]
  | cons x xs ih => rw [List.foldl_cons, pushRecent_recent hn, ih, List.append_assoc]; rfl

theorem recent_append (n : Nat) (before after : List α) :
    recent n (before ++ after) = recent (n - after.length) before ++ recent n after := by
  rw [recent, recent, recent, List.length_append]
  by_cases hle : n ≤ after.length
  · rw [Nat.sub_eq_zero_of_le hle, Nat.sub_zero, List.drop_length, List.nil_append,
      show before.length + after.length - n = before.length + (after.length - n) by omega,
      List.drop_length_add_append]
  · have hall : after.length - n = 0 := by omega
    rw [hall, List.drop_zero, List.drop_append, show before.length + after.length - n -
      before.length = 0 by omega, List.drop_zero,
      show before.length + after.length - n = before.length - (n - after.length) by omega]

theorem recent_recent {m n : Nat} (h : m ≤ n) (l : List α) :
    recent m (recent n l) = recent m l := by
  rw [recent, length_recent, recent, recent, List.drop_drop]
  congr 1
  omega

/-- The last `n` of a list with more behind it are known from its last `n`. -/
theorem recent_append_congr {n : Nat} {l l' : List α} (h : recent n l = recent n l')
    (after : List α) : recent n (l ++ after) = recent n (l' ++ after) := by
  rw [recent_append, recent_append, ← recent_recent (Nat.sub_le n after.length) l, h,
    recent_recent (Nat.sub_le n after.length)]

/-- The last `n` of two lists, from the last `n` of each. -/
theorem recent_append_recent (n : Nat) (before after : List α) :
    recent (n - (recent n after).length) (recent n before) ++ recent n after =
      recent n (before ++ after) := by
  have hsub : n - min n after.length = n - after.length := by omega
  rw [length_recent, hsub, recent_recent (Nat.sub_le _ _), recent_append]

theorem recent_recent_append_recent (n : Nat) (before after : List α) :
    recent n (recent n before ++ recent n after) = recent n (before ++ after) := by
  rw [recent_append, recent_recent le_rfl, recent_append_recent]

section Settled

variable {p : α → Bool}

/-- The last `n`, from where the first list ends. -/
theorem dropWhile_recent_append {n : Nat} {before after : List α}
    (hbefore : ∀ a ∈ before, p a = true) (hafter : ∀ a ∈ after, p a = false) :
    (recent n (before ++ after)).dropWhile p = recent n after := by
  have hgone : ∀ a ∈ recent (n - after.length) before, p a = true := fun a ha =>
    hbefore a (List.mem_of_mem_drop ha)
  rw [recent_append, List.dropWhile_append_of_pos hgone]
  refine List.dropWhile_eq_self_iff.mpr fun hl => ne_true_of_eq_false (hafter _ ?_)
  exact List.mem_of_mem_drop (List.getElem_mem hl)

/-- What holds of one of these holds of all that come after it. -/
def Settled (p : α → Bool) (l : List α) : Prop := l.Pairwise fun a b => p a = true → p b = true

theorem Settled.split {l : List α} (h : Settled p l) :
    ∃ before, l = before ++ l.filter p ∧ ∀ a ∈ before, p a = false := by
  induction l with
  | nil => exact ⟨[], rfl, fun a ha => absurd ha List.not_mem_nil⟩
  | cons a l ih =>
    obtain ⟨hfirst, hrest⟩ := List.pairwise_cons.mp h
    cases ha : p a with
    | true =>
      refine ⟨[], ?_, fun b hb => absurd hb List.not_mem_nil⟩
      rw [List.nil_append, List.filter_cons_of_pos ha,
        List.filter_eq_self.mpr fun b hb => hfirst b hb ha]
    | false =>
      obtain ⟨before, heq, hbefore⟩ := ih hrest
      refine ⟨a :: before, ?_, List.forall_mem_cons.mpr ⟨ha, hbefore⟩⟩
      rw [List.filter_cons_of_neg (ne_true_of_eq_false ha), List.cons_append, ← heq]

/-- Read from the end for as long as it holds, the last `n` are the last `n` it holds of. -/
theorem Settled.takeWhile_recent {l : List α} (h : Settled p l) (n : Nat) :
    (recent n l).reverse.takeWhile p = (recent n (l.filter p)).reverse := by
  obtain ⟨before, heq, hbefore⟩ := h.split
  have hin : ∀ a ∈ (recent n (l.filter p)).reverse, p a = true := fun a ha =>
    List.of_mem_filter (List.mem_of_mem_drop (List.mem_reverse.mp ha))
  have hout : (recent (n - (l.filter p).length) before).reverse.takeWhile p = [] := by
    cases hrev : (recent (n - (l.filter p).length) before).reverse with
    | nil => rfl
    | cons a rest =>
      have hmem : a ∈ before :=
        List.mem_of_mem_drop (List.mem_reverse.mp (hrev ▸ List.mem_cons_self))
      exact List.takeWhile_cons_of_neg (ne_true_of_eq_false (hbefore a hmem))
  calc (recent n l).reverse.takeWhile p
      = (recent n (before ++ l.filter p)).reverse.takeWhile p := by rw [← heq]
    _ = ((recent n (l.filter p)).reverse ++
          (recent (n - (l.filter p).length) before).reverse).takeWhile p := by
        rw [recent_append, List.reverse_append]
    _ = (recent n (l.filter p)).reverse := by
        rw [List.takeWhile_append_of_pos hin, hout, List.append_nil]

end Settled

theorem mem_recent_of_after {n : Nat} {before after : List α} {x : α} (h : after.length < n) :
    x ∈ recent n (before ++ x :: after) := by
  rw [recent, List.length_append, List.length_cons, List.drop_append_of_le_length (by omega)]
  exact List.mem_append_right _ List.mem_cons_self

namespace Spaced

variable {n : Nat} {l : List α}

theorem nil : Spaced n ([] : List α) := by
  intro i j _ _ x hx
  rw [List.getElem?_nil] at hx
  cases hx

theorem drop (h : Spaced n l) (m : Nat) : Spaced n (l.drop m) := by
  intro i j hij hjn x hx
  rw [List.getElem?_drop] at hx ⊢
  exact h (m + i) (m + j) (by omega) (by omega) x hx

theorem take (h : Spaced n l) (m : Nat) : Spaced n (l.take m) := by
  intro i j hij hjn x hx hy
  rw [List.getElem?_take] at hx hy
  split at hx
  · split at hy
    · exact h i j hij hjn x hx hy
    · cases hy
  · cases hx

theorem concat (h : Spaced n l) {x : α} (hx : x ∉ recent n l) : Spaced n (l ++ [x]) := by
  intro i j hij hjn y hi hj
  have hjle : j ≤ l.length := by
    have hlt := (List.getElem?_eq_some_iff.mp hj).1
    rw [List.length_append, List.length_singleton] at hlt
    omega
  rw [List.getElem?_append_left (by omega)] at hi
  rcases lt_or_eq_of_le hjle with hlt | rfl
  · rw [List.getElem?_append_left hlt] at hj
    exact h i j hij hjn y hi hj
  · -- the new one is among the last `n` already
    rw [List.getElem?_append_right (le_refl _), Nat.sub_self, List.getElem?_cons_zero] at hj
    apply hx
    rw [Option.some.inj hj, recent, List.mem_drop_iff_getElem]
    obtain ⟨hlt, hy⟩ := List.getElem?_eq_some_iff.mp hi
    refine ⟨i - (l.length - n), by omega, ?_⟩
    rw [← hy]
    congr 1
    omega

theorem nodup_take (h : Spaced n l) : (l.take n).Nodup := by
  rw [List.nodup_iff_getElem?_ne_getElem?]
  intro i j hij hj heq
  rw [List.length_take] at hj
  have hi : i < (l.take n).length := by
    rw [List.length_take]
    omega
  have hsome : (l.take n)[i]? = some (l.take n)[i] := List.getElem?_eq_getElem hi
  exact h.take n i j hij (by omega) _ hsome (heq ▸ hsome)

theorem nodup_recent (h : Spaced n l) : (recent n l).Nodup := by
  have htake := (h.drop (l.length - n)).nodup_take
  rw [List.take_of_length_le (by rw [List.length_drop]; omega)] at htake
  exact htake

/-- What fewer than `n` others came after is among the last `n`, and did not come again. -/
theorem after [DecidableEq α] {before after : List α} {x : α}
    (h : Spaced n (before ++ x :: after))
    (hfew : ((after.filter (· ≠ x)).dedup).length < n) : after.length < n ∧ x ∉ after := by
  have hafter : Spaced n after := by
    have hdrop := h.drop (before.length + 1)
    rw [← List.drop_drop, List.drop_left' rfl, List.drop_one, List.tail_cons] at hdrop
    exact hdrop
  have hx : (before ++ x :: after)[before.length]? = some x := by
    rw [List.getElem?_append_right (le_refl _), Nat.sub_self, List.getElem?_cons_zero]
  have hne : ∀ i < n, after[i]? ≠ some x := by
    intro i hi hat
    refine h before.length (before.length + 1 + i) (by omega) (by omega) x hx ?_
    rw [List.getElem?_append_right (by omega), show before.length + 1 + i - before.length = i + 1 by
      omega, List.getElem?_cons_succ]
    exact hat
  have hlen : after.length < n := by
    by_contra hge
    have hsub : after.take n ⊆ (after.filter (· ≠ x)).dedup := by
      intro y hy
      rw [List.mem_dedup, List.mem_filter, decide_eq_true_eq]
      refine ⟨List.mem_of_mem_take hy, ?_⟩
      rintro rfl
      obtain ⟨i, hi⟩ := List.mem_iff_getElem?.mp hy
      rw [List.getElem?_take] at hi
      split at hi
      · rename_i hlt
        exact hne i hlt hi
      · cases hi
    have hle := (hafter.nodup_take.subperm hsub).length_le
    rw [List.length_take_of_le (not_lt.mp hge)] at hle
    omega
  refine ⟨hlen, fun hmem => ?_⟩
  obtain ⟨i, hi⟩ := List.mem_iff_getElem?.mp hmem
  have hlt := (List.getElem?_eq_some_iff.mp hi).1
  exact hne i (by omega) hi

end Spaced

end Slopty.Lib
