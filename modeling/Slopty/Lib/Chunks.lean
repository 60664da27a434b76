import Slopty.Lib.Machine
import Mathlib.Tactic.Ring

/-!
Lists cut into pieces of one length, every so manieth element of a list, and lists put together
of pieces of one length.
-/

namespace Slopty.Lib

universe u v

variable {α : Type u} {β : Type v}

/-- The pieces of `n` elements that a list starts with; what is left over is dropped. -/
def chunksExact (n : Nat) (l : List α) : List (List α) :=
  (List.range (l.length / n)).map fun i => (l.drop (n * i)).take n

/-- The pieces of `n` elements, the last one with what is left over. -/
def chunks (n : Nat) (l : List α) : List (List α) :=
  (List.range (divCeil l.length n)).map fun i => (l.drop (n * i)).take n

def stepByFrom (f : Nat) : Nat → List α → List α
  | _, [] => []
  | 0, x :: rest => x :: stepByFrom f (f - 1) rest
  | skip + 1, _ :: rest => stepByFrom f skip rest

/-- The first element and every `f`th after it. -/
def stepBy (f : Nat) (l : List α) : List α := stepByFrom f 0 l

@[simp] theorem length_chunksExact (n : Nat) (l : List α) :
    (chunksExact n l).length = l.length / n := by
  simp [chunksExact]

theorem flatten_chunks {n : Nat} (hn : 0 < n) (l : List α) : (chunks n l).flatten = l := by
  have hfront : ∀ k,
      ((List.range k).map fun i => (l.drop (n * i)).take n).flatten = l.take (n * k) := by
    intro k
    induction k with
    | zero => rw [List.range_zero, List.map_nil, List.flatten_nil, Nat.mul_zero, List.take_zero]
    | succ k ih =>
      rw [List.range_succ, List.map_append, List.flatten_append, ih, List.map_singleton,
        List.flatten_singleton, Nat.mul_succ, List.take_add]
  rw [chunks, hfront, List.take_of_length_le]
  rw [Nat.mul_comm]
  exact le_divCeil_mul hn

theorem getElem?_chunksExact {n i : Nat} {l : List α} (h : i < l.length / n) :
    (chunksExact n l)[i]? = some ((l.drop (n * i)).take n) := by
  rw [chunksExact, List.getElem?_map, List.getElem?_range h]
  rfl

theorem length_of_mem_chunksExact {n : Nat} {l piece : List α} (h : piece ∈ chunksExact n l) :
    piece.length = n := by
  obtain ⟨i, hi, rfl⟩ := List.mem_map.mp h
  have hlast : n * (i + 1) ≤ l.length :=
    calc n * (i + 1) ≤ n * (l.length / n) := Nat.mul_le_mul_left n (List.mem_range.mp hi)
      _ ≤ l.length := Nat.mul_div_le l.length n
  rw [Nat.mul_succ] at hlast
  rw [List.length_take, List.length_drop]
  omega

theorem chunksExact_take_succ {n i : Nat} {l : List α} (hn : 0 < n) (h : n * (i + 1) ≤ l.length) :
    chunksExact n (l.take (n * (i + 1))) =
      chunksExact n (l.take (n * i)) ++ [(l.drop (n * i)).take n] := by
  have hlen : ∀ k, n * k ≤ l.length → (l.take (n * k)).length / n = k := by
    intro k hk
    rw [List.length_take, min_eq_left hk, Nat.mul_div_cancel_left k hn]
  have hle : n * i ≤ l.length := (Nat.mul_le_mul_left n (Nat.le_succ i)).trans h
  have hpiece : ∀ k m, k < m → n * m ≤ l.length →
      ((l.take (n * m)).drop (n * k)).take n = (l.drop (n * k)).take n := by
    intro k m hkm _
    have : n * (k + 1) ≤ n * m := Nat.mul_le_mul_left n hkm
    rw [Nat.mul_succ] at this
    rw [List.drop_take, List.take_take, min_eq_left (by omega)]
  rw [chunksExact, chunksExact, hlen _ h, hlen _ hle, List.range_succ, List.map_append,
    List.map_singleton, hpiece i (i + 1) (Nat.lt_succ_self i) h]
  congr 1
  refine List.map_congr_left fun k hk => ?_
  have hk := List.mem_range.mp hk
  rw [hpiece k (i + 1) (hk.trans (Nat.lt_succ_self i)) h, hpiece k i hk hle]

theorem getElem?_stepByFrom {f : Nat} (hf : 0 < f) (skip i : Nat) (l : List α) :
    (stepByFrom f skip l)[i]? = l[skip + i * f]? := by
  induction l generalizing skip i with
  | nil => cases skip <;> rfl
  | cons x rest ih =>
      cases skip with
      | zero =>
          cases i with
          | zero => rw [Nat.zero_mul]; rfl
          | succ i =>
              have hnext : 0 + (i + 1) * f = (f - 1 + i * f) + 1 := by
                rw [Nat.succ_mul]
                omega
              rw [stepByFrom, List.getElem?_cons_succ, ih, hnext, List.getElem?_cons_succ]
      | succ skip =>
          rw [stepByFrom, ih, Nat.add_right_comm, List.getElem?_cons_succ]

theorem getElem?_stepBy {f : Nat} (hf : 0 < f) (i : Nat) (l : List α) :
    (stepBy f l)[i]? = l[i * f]? := by
  rw [stepBy, getElem?_stepByFrom hf, Nat.zero_add]

theorem lt_divCeil_iff {n f i : Nat} (hf : 0 < f) : i < divCeil n f ↔ i * f < n := by
  rw [divCeil, ← Nat.succ_le_iff, Nat.le_div_iff_mul_le hf, Nat.succ_mul]
  omega

theorem length_stepBy {f : Nat} (hf : 0 < f) (l : List α) :
    (stepBy f l).length = divCeil l.length f := by
  have hiff : ∀ i, i < (stepBy f l).length ↔ i < divCeil l.length f := by
    intro i
    rw [lt_divCeil_iff hf, ← not_le, ← not_le, ← List.getElem?_eq_none_iff,
      ← List.getElem?_eq_none_iff, getElem?_stepBy hf]
  exact le_antisymm (le_of_not_gt fun h => lt_irrefl _ ((hiff _).mp h))
    (le_of_not_gt fun h => lt_irrefl _ ((hiff _).mpr h))

theorem length_flatMap_const {g : α → List β} {m : Nat} {l : List α}
    (hm : ∀ x ∈ l, (g x).length = m) : (l.flatMap g).length = m * l.length := by
  induction l with
  | nil => rfl
  | cons x l ih =>
      rw [List.flatMap_cons, List.length_append, List.length_cons, hm x List.mem_cons_self,
        ih fun y hy => hm y (List.mem_cons_of_mem _ hy)]
      ring

/-- Of pieces of one length put together, the `k`th is found `k` lengths on. -/
theorem take_drop_flatMap {g : α → List β} {m k : Nat} {l : List α} {x : α}
    (hm : ∀ x ∈ l, (g x).length = m) (hk : l[k]? = some x) :
    ((l.flatMap g).drop (m * k)).take m = g x := by
  induction l generalizing k with
  | nil => exact absurd hk nofun
  | cons y l ih =>
      have hy := hm y List.mem_cons_self
      rw [List.flatMap_cons]
      cases k with
      | zero =>
          obtain rfl := Option.some.inj hk
          rw [Nat.mul_zero, List.drop_zero, ← hy, List.take_left]
      | succ k =>
          have hnext : m * (k + 1) = (g y).length + m * k := by
            rw [hy, Nat.mul_succ, Nat.add_comm]
          rw [hnext, ← List.drop_drop, List.drop_left]
          exact ih (fun z hz => hm z (List.mem_cons_of_mem _ hz)) hk

end Slopty.Lib
