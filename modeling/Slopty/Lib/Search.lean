import Mathlib.Order.Compare
import Mathlib.Order.CountableDenseLinearOrder
import Slopty.Lib.OrdMap

/-!
Lists in order: equal neighbours left out, an element found by halving, and the elements of a list
taken key by key.
-/

namespace Slopty.Lib

universe u v

variable {α : Type u} {κ : Type v}

section Dedup

variable [LinearOrder α]

/-- Each element but those the next one is equal to. -/
def dedupRuns : List α → List α
  | [] => []
  | [a] => [a]
  | a :: b :: rest => if a = b then dedupRuns (b :: rest) else a :: dedupRuns (b :: rest)

theorem mem_dedupRuns {l : List α} {x : α} : x ∈ dedupRuns l ↔ x ∈ l := by
  induction l using dedupRuns.induct with
  | case1 => rfl
  | case2 a => rfl
  | case3 b rest ih => simp [dedupRuns, ih]
  | case4 a b rest hne ih => simp [dedupRuns, hne, ih]

theorem sorted_dedupRuns {l : List α} (h : l.Pairwise (· ≤ ·)) :
    (dedupRuns l).Pairwise (· < ·) := by
  induction l using dedupRuns.induct with
  | case1 => exact List.Pairwise.nil
  | case2 a => exact List.pairwise_singleton _ a
  | case3 b rest ih =>
    rw [dedupRuns, if_pos rfl]
    exact ih (List.pairwise_cons.mp h).2
  | case4 a b rest hne ih =>
    rw [dedupRuns, if_neg hne, List.pairwise_cons]
    obtain ⟨hle, hrest⟩ := List.pairwise_cons.mp h
    refine ⟨fun x hx => ?_, ih hrest⟩
    have hab : a < b := lt_of_le_of_ne (hle b List.mem_cons_self) hne
    rcases List.mem_cons.mp (mem_dedupRuns.mp hx) with rfl | hx
    · exact hab
    · exact hab.trans_le ((List.pairwise_cons.mp hrest).1 x hx)

end Dedup

section Halving

/-- Halve the `size` places from `base` on until one is left. -/
def halve (order : α → Ordering) (l : List α) : Nat → Nat → Nat → Nat
  | 0, base, _ => base
  | fuel + 1, base, size =>
      if 1 < size then
        let half := size / 2
        let mid := base + half
        let base := if (l[mid]?).map order = some .gt then base else mid
        halve order l fuel base (size - half)
      else base

/-- Where an element is that compares equal, or where it would go. -/
def binarySearch (order : α → Ordering) (l : List α) : Except Nat Nat :=
  if l = [] then .error 0
  else
    let base := halve order l l.length 0 l.length
    match (l[base]?).map order with
    | some .eq => .ok base
    | some .lt => .error (base + 1)
    | _ => .error base

variable [LinearOrder κ] {key : α → κ} {l : List α} {k : κ}

theorem halve_eq (hl : l.Pairwise fun a b => key a < key b) {i : Nat} {a : α}
    (ha : l[i]? = some a) (hk : key a = k) {fuel base size : Nat} (hfuel : size ≤ fuel)
    (hbase : base ≤ i) (hi : i < base + size) (hsize : base + size ≤ l.length) :
    halve (fun a => cmp (key a) k) l fuel base size = i := by
  obtain ⟨hlt, rfl⟩ := List.getElem?_eq_some_iff.mp ha
  induction fuel generalizing base size with
  | zero => omega
  | succ fuel ih =>
    rw [halve]
    by_cases hone : 1 < size
    · have hmid : base + size / 2 < l.length := by omega
      have hpair := List.pairwise_iff_getElem.mp hl
      rw [if_pos hone]
      dsimp only
      rw [List.getElem?_eq_getElem hmid, Option.map_some]
      by_cases hbefore : i < base + size / 2
      · have hgt : cmp (key l[base + size / 2]) k = .gt :=
          (cmp_eq_gt_iff _ _).mpr (hk ▸ hpair i _ hlt hmid hbefore)
        rw [hgt, if_pos rfl]
        exact ih (by omega) hbase (by omega) (by omega)
      · have hle : key l[base + size / 2] ≤ k := by
          rcases Nat.lt_or_eq_of_le (not_lt.mp hbefore) with hafter | heq
          · exact hk ▸ (hpair _ i hmid hlt hafter).le
          · exact le_of_eq (hk ▸ congrArg key (getElem_congr_idx heq))
        have hne : some (cmp (key l[base + size / 2]) k) ≠ some Ordering.gt := by
          intro hgt
          exact absurd ((cmp_eq_gt_iff _ _).mp (Option.some.inj hgt)) (not_lt.mpr hle)
        rw [if_neg hne]
        exact ih (by omega) (not_lt.mp hbefore) (by omega) (by omega)
    · rw [if_neg hone]
      omega

/-- Among elements in order by their key, the one of a key is found. -/
theorem binarySearch_of_mem (hl : l.Pairwise fun a b => key a < key b) {i : Nat} {a : α}
    (ha : l[i]? = some a) (hk : key a = k) :
    binarySearch (fun a => cmp (key a) k) l = .ok i := by
  have hlt := (List.getElem?_eq_some_iff.mp ha).1
  have hne : l ≠ [] := List.ne_nil_of_length_pos (Nat.zero_lt_of_lt hlt)
  have hhalve := halve_eq hl ha hk (le_refl l.length) (Nat.zero_le i) (by omega) (by omega)
  unfold binarySearch
  rw [if_neg hne]
  dsimp only
  rw [hhalve, ha, Option.map_some, (cmp_eq_eq_iff (key a) k).mpr hk]

theorem of_binarySearch_eq_ok {i : Nat} (h : binarySearch (fun a => cmp (key a) k) l = .ok i) :
    ∃ a, l[i]? = some a ∧ key a = k := by
  unfold binarySearch at h
  split at h
  · cases h
  · dsimp only at h
    split at h
    · rename_i heq
      obtain ⟨a, ha, hcmp⟩ := Option.map_eq_some_iff.mp heq
      obtain rfl := Except.ok.inj h
      exact ⟨a, ha, (cmp_eq_eq_iff _ _).mp hcmp⟩
    · cases h
    · cases h

theorem OrdMap.binarySearch_entries {β : Type v} (m : OrdMap κ β) (k : κ) :
    ((binarySearch (fun e => cmp e.1 k) m.entries).toOption.bind fun i => m.entries[i]?) =
      (m.get? k).map fun v => (k, v) := by
  cases hget : m.get? k with
  | some v =>
    obtain ⟨i, hi⟩ := List.mem_iff_getElem?.mp (OrdMap.get?_eq_some_iff.mp hget)
    rw [binarySearch_of_mem m.sorted hi rfl]
    exact hi
  | none =>
    cases hsearch : binarySearch (fun e : κ × β => cmp e.1 k) m.entries with
    | error => rfl
    | ok i =>
      obtain ⟨⟨j, v⟩, hi, rfl⟩ := of_binarySearch_eq_ok hsearch
      rw [OrdMap.get?_eq_some_iff.mpr (List.mem_of_getElem? hi)] at hget
      exact absurd hget nofun

end Halving

section Keyed

variable [DecidableEq κ]

theorem flatMap_filter_perm (key : α → Option κ) (l : List α) {keys : List κ} (h : keys.Nodup) :
    (keys.flatMap fun k => l.filter fun a => decide (key a = some k)).Perm
      (l.filter fun a => (key a).any fun k => decide (k ∈ keys)) := by
  induction keys with
  | nil => simp [List.filter_eq_nil_iff]
  | cons k keys ih =>
    obtain ⟨hnot, hkeys⟩ := List.nodup_cons.mp h
    rw [List.flatMap_cons]
    refine ((ih hkeys).append_left _).trans ?_
    have hsplit := List.filter_append_perm (fun a => decide (key a = some k))
      (l.filter fun a => (key a).any fun j => decide (j ∈ k :: keys))
    rw [List.filter_filter, List.filter_filter] at hsplit
    have hfirst : (l.filter fun a => decide (key a = some k) &&
        (key a).any fun j => decide (j ∈ k :: keys)) =
        l.filter fun a => decide (key a = some k) := by
      apply List.filter_congr
      intro a _
      by_cases hkey : key a = some k <;> simp [hkey]
    have hrest : (l.filter fun a => !decide (key a = some k) &&
        (key a).any fun j => decide (j ∈ k :: keys)) =
        l.filter fun a => (key a).any fun j => decide (j ∈ keys) := by
      apply List.filter_congr
      intro a _
      cases hkey : key a with
      | none => simp
      | some j =>
        by_cases hj : j = k
        · simp [hj, hnot]
        · simp [hj]
    rw [hfirst, hrest] at hsplit
    exact hsplit

end Keyed

end Slopty.Lib
