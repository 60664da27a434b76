import Slopty.Lib.OrdMap

/-!
Entries of a map that move to other keys all at once: each is taken out before any is put back, so
entries may trade their keys.
-/

namespace Slopty.Lib

universe u v

namespace OrdMap

variable {κ : Type u} [LinearOrder κ] {α : Type v}

/-- The map without the entries that move, and those entries at the keys they move to. An entry
that moves nowhere is gone. -/
def takeOut (m : OrdMap κ α) : List (κ × Option κ) → OrdMap κ α × List (κ × α)
  | [] => (m, [])
  | (source, target) :: moved =>
      match m.get? source with
      | none => takeOut m moved
      | some v =>
          let rest := takeOut (m.erase source) moved
          (rest.1, (target.map fun k => (k, v)).toList ++ rest.2)

/-- Move each entry to the key that `moved` says. -/
def relocate (m : OrdMap κ α) (moved : List (κ × Option κ)) : OrdMap κ α :=
  let out := m.takeOut moved
  out.2.foldl (fun m e => m.insert e.1 e.2) out.1

/-- The keys that entries move from. -/
def sources (moved : List (κ × Option κ)) : List κ := moved.map Prod.fst

/-- The keys that entries move to. -/
def targets (moved : List (κ × Option κ)) : List κ := moved.filterMap Prod.snd

omit [LinearOrder κ] in
theorem mem_sources {moved : List (κ × Option κ)} {k : κ} {target : Option κ}
    (h : (k, target) ∈ moved) : k ∈ sources moved :=
  List.mem_map.mpr ⟨_, h, rfl⟩

omit [LinearOrder κ] in
theorem mem_targets {moved : List (κ × Option κ)} {k : κ} :
    k ∈ targets moved ↔ ∃ source, (source, some k) ∈ moved := by
  simp [targets]

theorem get?_takeOut (m : OrdMap κ α) (moved : List (κ × Option κ)) (k : κ) :
    (m.takeOut moved).1.get? k = if k ∈ sources moved then none else m.get? k := by
  induction moved generalizing m with
  | nil => rfl
  | cons e moved ih =>
    obtain ⟨source, target⟩ := e
    have hmem : k ∈ sources ((source, target) :: moved) ↔ k = source ∨ k ∈ sources moved := by
      simp [sources]
    simp only [takeOut, hmem]
    cases hget : m.get? source with
    | none =>
      rw [ih]
      by_cases hk : k = source
      · rw [if_pos (Or.inl hk), hk, hget, ite_self]
      · simp only [hk, false_or]
    | some v =>
      rw [ih, get?_erase]
      by_cases hk : k = source
      · rw [if_pos (Or.inl hk), if_pos hk, ite_self]
      · simp only [hk, false_or, if_false]

theorem mem_takeOut {m : OrdMap κ α} {moved : List (κ × Option κ)} (hsources : (sources moved).Nodup)
    {k : κ} {v : α} :
    (k, v) ∈ (m.takeOut moved).2 ↔
      ∃ source, (source, some k) ∈ moved ∧ m.get? source = some v := by
  induction moved generalizing m with
  | nil => simp [takeOut]
  | cons e moved ih =>
    obtain ⟨source, target⟩ := e
    obtain ⟨hnot, hsources⟩ := List.nodup_cons.mp hsources
    have herase (s : κ) (hs : (s, some k) ∈ moved) : (m.erase source).get? s = m.get? s := by
      rw [get?_erase, if_neg]
      rintro rfl
      exact hnot (mem_sources hs)
    cases hget : m.get? source with
    | none =>
      simp only [takeOut, hget, ih hsources, List.mem_cons, Prod.mk.injEq]
      constructor
      · rintro ⟨s, hs, hv⟩
        exact ⟨s, Or.inr hs, hv⟩
      · rintro ⟨s, ⟨rfl, -⟩ | hs, hv⟩
        · rw [hget] at hv
          cases hv
        · exact ⟨s, hs, hv⟩
    | some w =>
      simp only [takeOut, hget, List.mem_append, ih hsources, List.mem_cons, Prod.mk.injEq,
        Option.mem_toList, Option.map_eq_some_iff]
      constructor
      · rintro (⟨t, rfl, rfl, rfl⟩ | ⟨s, hs, hv⟩)
        · exact ⟨source, Or.inl ⟨rfl, rfl⟩, hget⟩
        · exact ⟨s, Or.inr hs, herase s hs ▸ hv⟩
      · rintro ⟨s, ⟨rfl, htarget⟩ | hs, hv⟩
        · exact Or.inl ⟨k, htarget.symm, rfl, Option.some.inj (hget.symm.trans hv)⟩
        · exact Or.inr ⟨s, hs, (herase s hs).trans hv⟩

theorem target_of_mem_takeOut {m : OrdMap κ α} {moved : List (κ × Option κ)} {e : κ × α}
    (h : e ∈ (m.takeOut moved).2) : e.1 ∈ targets moved := by
  induction moved generalizing m with
  | nil => simp [takeOut] at h
  | cons head moved ih =>
    obtain ⟨source, target⟩ := head
    have hrest (m : OrdMap κ α) (h : e ∈ (m.takeOut moved).2) :
        e.1 ∈ targets ((source, target) :: moved) := by
      obtain ⟨s, hs⟩ := mem_targets.mp (ih h)
      exact mem_targets.mpr ⟨s, List.mem_cons_of_mem _ hs⟩
    cases hget : m.get? source with
    | none =>
      simp only [takeOut, hget] at h
      exact hrest m h
    | some v =>
      simp only [takeOut, hget, List.mem_append, Option.mem_toList, Option.map_eq_some_iff] at h
      rcases h with ⟨k, rfl, rfl⟩ | h
      · exact mem_targets.mpr ⟨source, List.mem_cons_self⟩
      · exact hrest _ h

theorem get?_foldl_insert_other {l : List (κ × α)} {k : κ} (hk : ∀ e ∈ l, e.1 ≠ k)
    (acc : OrdMap κ α) : (l.foldl (fun m e => m.insert e.1 e.2) acc).get? k = acc.get? k := by
  induction l generalizing acc with
  | nil => rfl
  | cons e l ih =>
    rw [List.foldl_cons, ih fun e he => hk e (List.mem_cons_of_mem _ he), get?_insert,
      if_neg (hk e List.mem_cons_self)]

theorem get?_foldl_insert_mem {l : List (κ × α)}
    (hl : ∀ a ∈ l, ∀ b ∈ l, a.1 = b.1 → a.2 = b.2) {k : κ} {v : α} (hv : (k, v) ∈ l)
    (acc : OrdMap κ α) : (l.foldl (fun m e => m.insert e.1 e.2) acc).get? k = some v := by
  induction l using List.reverseRecOn with
  | nil => simp at hv
  | append_singleton l e ih =>
    rw [List.foldl_append, List.foldl_cons, List.foldl_nil, get?_insert]
    by_cases he : e.1 = k
    · rw [if_pos he]
      exact congrArg some (hl e (by simp) (k, v) hv he)
    · rw [if_neg he]
      rcases List.mem_append.mp hv with hv | hv
      · exact ih (fun a ha b hb => hl a (List.mem_append_left _ ha) b (List.mem_append_left _ hb)) hv
      · exact absurd (congrArg Prod.fst (List.mem_singleton.mp hv)).symm he

theorem get?_relocate_other {m : OrdMap κ α} {moved : List (κ × Option κ)} {k : κ}
    (hk : k ∉ targets moved) :
    (m.relocate moved).get? k = if k ∈ sources moved then none else m.get? k := by
  refine Eq.trans (get?_foldl_insert_other ?_ _) (get?_takeOut m moved k)
  rintro e he rfl
  exact hk (target_of_mem_takeOut he)

section Apart

variable {m : OrdMap κ α} {moved : List (κ × Option κ)}

omit [LinearOrder κ] in
/-- Entries from keys apart to keys apart: no two of them come to one key. -/
theorem unique_source (htargets : (targets moved).Nodup) {s s' k : κ}
    (h : (s, some k) ∈ moved) (h' : (s', some k) ∈ moved) : s = s' := by
  induction moved with
  | nil => simp at h
  | cons e moved ih =>
    obtain ⟨source, target⟩ := e
    cases target with
    | none =>
      simp only [List.mem_cons, Prod.mk.injEq, reduceCtorEq, and_false, false_or] at h h'
      exact ih htargets h h'
    | some t =>
      obtain ⟨hnot, htargets⟩ := List.nodup_cons.mp htargets
      simp only [List.mem_cons, Prod.mk.injEq, Option.some.injEq] at h h'
      rcases h with ⟨rfl, rfl⟩ | h <;> rcases h' with ⟨rfl, hk⟩ | h'
      · rfl
      · exact absurd (mem_targets.mpr ⟨_, h'⟩) hnot
      · exact absurd (mem_targets.mpr ⟨_, hk ▸ h⟩) hnot
      · exact ih htargets h h'

theorem takeOut_agree (hsources : (sources moved).Nodup) (htargets : (targets moved).Nodup) :
    ∀ a ∈ (m.takeOut moved).2, ∀ b ∈ (m.takeOut moved).2, a.1 = b.1 → a.2 = b.2 := by
  rintro ⟨k, v⟩ ha ⟨_, w⟩ hb rfl
  obtain ⟨s, hs, hv⟩ := (mem_takeOut hsources).mp ha
  obtain ⟨s', hs', hw⟩ := (mem_takeOut hsources).mp hb
  rw [unique_source htargets hs hs', hw] at hv
  exact (Option.some.inj hv).symm

/-- A key that an entry moves to holds what the key it moves from held. -/
theorem get?_relocate_target (hsources : (sources moved).Nodup) (htargets : (targets moved).Nodup)
    {source target : κ} (hmoved : (source, some target) ∈ moved)
    (hfree : target ∈ sources moved ∨ m.get? target = none) :
    (m.relocate moved).get? target = m.get? source := by
  cases hget : m.get? source with
  | some v =>
    exact get?_foldl_insert_mem (takeOut_agree hsources htargets)
      ((mem_takeOut hsources).mpr ⟨source, hmoved, hget⟩) _
  | none =>
    refine (get?_foldl_insert_other ?_ _).trans ?_
    · rintro ⟨k, v⟩ hv rfl
      obtain ⟨s, hs, hv⟩ := (mem_takeOut hsources).mp hv
      rw [unique_source htargets hs hmoved, hget] at hv
      cases hv
    · rw [get?_takeOut]
      rcases hfree with hfree | hfree
      · exact if_pos hfree
      · rw [hfree, ite_self]

end Apart

end OrdMap

end Slopty.Lib
