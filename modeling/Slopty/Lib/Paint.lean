import Mathlib.Data.List.Basic
import Mathlib.Data.List.Perm.Basic
import Mathlib.Data.List.Induction
import Mathlib.Data.List.Nodup

/-!
Writes to the places of a row, one after another. The last write to a place is what it holds.
-/

namespace Slopty.Lib

universe u v w

variable {α : Type u} {β : Type v} {γ : Type w}

/-- The row with some writes made, each a value put at a place. -/
def paint (place : α → Nat) (value : α → β) (row : List β) (writes : List α) : List β :=
  writes.foldl (fun row a => row.set (place a) (value a)) row

def lastAt (place : α → Nat) (i : Nat) (writes : List α) : Option α :=
  writes.reverse.find? fun a => decide (place a = i)

section LastAt

variable {place : α → Nat} {i : Nat} {writes : List α}

@[simp] theorem lastAt_nil : lastAt place i [] = none := rfl

theorem lastAt_append {before after : List α} :
    lastAt place i (before ++ after) = (lastAt place i after).or (lastAt place i before) := by
  simp [lastAt, List.find?_append]

theorem lastAt_concat {a : α} :
    lastAt place i (writes ++ [a]) = if place a = i then some a else lastAt place i writes := by
  rw [lastAt_append]
  by_cases h : place a = i <;> simp [lastAt, h]

theorem lastAt_eq_none : lastAt place i writes = none ↔ ∀ a ∈ writes, place a ≠ i := by
  simp [lastAt]

theorem of_lastAt {a : α} (h : lastAt place i writes = some a) : a ∈ writes ∧ place a = i := by
  refine ⟨List.mem_reverse.mp (List.mem_of_find?_eq_some h), ?_⟩
  simpa using List.find?_some h

end LastAt

variable {place : α → Nat} {value : α → β} {row : List β}

@[simp] theorem paint_nil : paint place value row [] = row := rfl

theorem paint_append {before after : List α} :
    paint place value row (before ++ after) =
      paint place value (paint place value row before) after :=
  List.foldl_append

theorem paint_map {δ : Type*} (f : δ → α) (writes : List δ) :
    paint place value row (writes.map f) =
      paint (fun d => place (f d)) (fun d => value (f d)) row writes :=
  List.foldl_map

@[simp] theorem paint_length (writes : List α) :
    (paint place value row writes).length = row.length := by
  induction writes generalizing row with
  | nil => rfl
  | cons a writes ih => exact ih.trans List.length_set

theorem map_paint (f : β → γ) (writes : List α) :
    (paint place value row writes).map f = paint place (fun a => f (value a)) (row.map f) writes := by
  induction writes generalizing row with
  | nil => rfl
  | cons a writes ih =>
    refine ih.trans ?_
    rw [List.map_set]
    rfl

theorem paint_getElem? {i : Nat} (hi : i < row.length) (writes : List α) :
    (paint place value row writes)[i]? = ((lastAt place i writes).map value).or row[i]? := by
  induction writes using List.reverseRecOn with
  | nil => rfl
  | append_singleton writes a ih =>
    rw [paint_append, lastAt_concat]
    change ((paint place value row writes).set (place a) (value a))[i]? = _
    by_cases ha : place a = i
    · rw [if_pos ha, ha, List.getElem?_set_self (by rwa [paint_length])]
      rfl
    · rw [if_neg ha, List.getElem?_set_ne ha, ih]

/-- Writes to places that follow one another replace that stretch of the row. -/
theorem paint_stretch {writes : List α} {from' : Nat}
    (hplace : ∀ i a, writes[i]? = some a → place a = from' + i)
    (hfits : from' + writes.length ≤ row.length) :
    paint place value row writes =
      row.take from' ++ writes.map value ++ row.drop (from' + writes.length) := by
  induction writes generalizing from' row with
  | nil => simp
  | cons a writes ih =>
    have hfrom : from' < row.length := by
      rw [List.length_cons] at hfits
      omega
    have ha : place a = from' := hplace 0 a rfl
    have hrest : ∀ i b, writes[i]? = some b → place b = from' + 1 + i := by
      intro i b hb
      rw [hplace (i + 1) b hb]
      omega
    have hfits' : from' + 1 + writes.length ≤ (row.set from' (value a)).length := by
      rw [List.length_set]
      rw [List.length_cons] at hfits
      omega
    have hset : row.set from' (value a) = row.take from' ++ value a :: row.drop (from' + 1) := by
      rw [List.set_eq_take_append_cons_drop, if_pos hfrom]
    have htake : (row.take from').length = from' := List.length_take_of_le (Nat.le_of_lt hfrom)
    have hbefore : (row.set from' (value a)).take (from' + 1) = row.take from' ++ [value a] := by
      rw [hset, List.take_append, htake, List.take_of_length_le (by omega)]
      simp
    have hafter : (row.set from' (value a)).drop (from' + 1 + writes.length) =
        row.drop (from' + (a :: writes).length) := by
      rw [hset, List.drop_append, htake, List.drop_of_length_le (by omega), List.nil_append,
        show from' + 1 + writes.length - from' = writes.length + 1 by omega, List.drop_succ_cons,
        List.drop_drop, List.length_cons]
      congr 1
      omega
    change paint place value (row.set (place a) (value a)) writes = _
    rw [ha, ih hrest hfits', hbefore, hafter]
    simp

section Apart

theorem paint_perm {writes writes' : List α} (hperm : writes.Perm writes')
    (hplaces : (writes.map place).Nodup) :
    paint place value row writes = paint place value row writes' := by
  refine List.Perm.foldl_eq' hperm ?_ row
  intro a ha b hb row
  by_cases hab : place a = place b
  · obtain rfl : a = b := List.inj_on_of_nodup_map hplaces ha hb hab
    rfl
  · exact List.set_comm (value a) (value b) hab

end Apart

end Slopty.Lib
