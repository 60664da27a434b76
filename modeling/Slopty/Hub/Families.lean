import Slopty.Hub.Ladder
import Slopty.Lib.Orbit

/-!
Who is whose root in a worker's table. Walking as many parents up as the table has rows ends on a
loop of parents, if there is one, at a place that depends on how many rows there are; the families
are apart when every loop comes out even.
-/

namespace Slopty.Hub

open Slopty.Lib
open Slopty.Thread (ThreadId WallMs Phase Link)

namespace Table

variable {t : Table}

theorem mem_keys {id : ThreadId} : id ∈ t.rows.keys ↔ t.containsKey id = true := OrdMap.mem_keys

theorem mem_values {row : ThreadRow} : row ∈ t.values ↔ t.get? row.id = some row := by
  constructor
  · intro h
    obtain ⟨id, hid⟩ := OrdMap.mem_values.mp h
    rw [t.keyed id row hid]
    exact hid
  · intro h
    exact OrdMap.mem_values.mpr ⟨row.id, h⟩

theorem row_of_key {id : ThreadId} (h : id ∈ t.rows.keys) :
    ∃ row ∈ t.values, row.id = id := by
  obtain ⟨row, hrow⟩ := Option.isSome_iff_exists.mp (OrdMap.mem_keys.mp h)
  exact ⟨row, OrdMap.mem_values.mpr ⟨id, hrow⟩, t.keyed id row hrow⟩

theorem key_of_row {row : ThreadRow} (h : row ∈ t.values) : row.id ∈ t.rows.keys := by
  rw [OrdMap.mem_keys, Option.isSome_iff_exists]
  exact ⟨row, mem_values.mp h⟩

theorem nodup_values : t.values.Nodup := by
  rw [values, OrdMap.values, List.nodup_map_iff_inj_on]
  · intro a ha b hb hab
    have hka := t.keyed a.1 a.2 (OrdMap.get?_eq_some_iff.mpr ha)
    have hkb := t.keyed b.1 b.2 (OrdMap.get?_eq_some_iff.mpr hb)
    refine Prod.ext ?_ hab
    rw [← hka, ← hkb, hab]
  · exact t.rows.sorted.imp fun hlt heq => absurd (congrArg Prod.fst heq) hlt.ne

/-- One parent up, where there is one. -/
def hang (t : Table) (id : ThreadId) : ThreadId := (t.parentThere id).getD id

theorem climbTo_eq (n : Nat) (id : ThreadId) : t.climbTo n id = t.hang^[n] id := by
  induction n generalizing id with
  | zero => rfl
  | succ n ih =>
    rw [climbTo]
    cases h : t.parentThere id with
    | some parent =>
      have hup : t.hang id = parent := by rw [hang, h, Option.getD_some]
      rw [Function.iterate_succ_apply, hup]
      exact ih parent
    | none =>
      have hup : t.hang id = id := by rw [hang, h, Option.getD_none]
      rw [Function.iterate_fixed hup]

theorem hang_mem {id : ThreadId} (h : id ∈ t.rows.keys) : t.hang id ∈ t.rows.keys := by
  rw [hang]
  cases hparent : t.parentThere id with
  | none => exact h
  | some parent =>
    rw [parentThere, Option.filter_eq_some_iff] at hparent
    exact mem_keys.mpr hparent.2

theorem length_keys : t.rows.keys.length = t.len := List.length_map ..

/-- A thread that hangs from no other, or on a loop of parents. -/
def IsTop (t : Table) (id : ThreadId) : Prop :=
  id ∈ t.rows.keys ∧ id ∈ Function.periodicPts t.hang

/-- The number of rows is a multiple of the length of every loop of parents. -/
def LoopsFit (t : Table) : Prop :=
  ∀ id ∈ t.rows.keys, id ∈ Function.periodicPts t.hang → Function.minimalPeriod t.hang id ∣ t.len

theorem rootOf_isTop {row : ThreadRow} (h : row ∈ t.values) : t.IsTop (t.rootOf row) := by
  have hkey := key_of_row h
  rw [rootOf, climbTo_eq]
  exact ⟨iterate_mem (fun _ => hang_mem) hkey _,
    iterate_mem_periodicPts (fun _ => hang_mem) hkey length_keys.le⟩

theorem IsTop.exists_row {id : ThreadId} (h : t.IsTop id) : ∃ row ∈ t.values, t.rootOf row = id := by
  obtain ⟨m, hm⟩ := exists_iterate_eq h.2 t.len
  obtain ⟨row, hrow, hid⟩ := row_of_key (iterate_mem (fun _ => hang_mem) h.1 m)
  refine ⟨row, hrow, ?_⟩
  rw [rootOf, climbTo_eq, hid]
  exact hm

/-- Loops come out even exactly if the threads on top are their own roots. -/
theorem loopsFit_iff : t.LoopsFit ↔ ∀ row ∈ t.values, t.IsTop row.id → t.rootOf row = row.id := by
  constructor
  · intro h row _ htop
    rw [rootOf, climbTo_eq]
    exact Function.isPeriodicPt_iff_minimalPeriod_dvd.mpr (h row.id htop.1 htop.2)
  · intro h id hid hloop
    obtain ⟨row, hrow, rfl⟩ := row_of_key hid
    have hself := h row hrow ⟨hid, hloop⟩
    rw [rootOf, climbTo_eq] at hself
    exact Function.isPeriodicPt_iff_minimalPeriod_dvd.mp hself

theorem get?_families_fold (rows : List ThreadRow) (root : ThreadId) :
    (rows.foldl t.intoFamily OrdMap.empty).get? root =
      if ∃ row ∈ rows, t.rootOf row = root then
        some (rows.filter fun row => decide (t.rootOf row = root ∧ root ≠ row.id))
      else none := by
  induction rows using List.reverseRecOn with
  | nil => simp
  | append_singleton rows row ih =>
    rw [List.foldl_append, List.foldl_cons, List.foldl_nil, List.filter_append,
      List.filter_singleton]
    generalize rows.foldl t.intoFamily OrdMap.empty = families at ih ⊢
    rw [intoFamily, OrdMap.get?_insert]
    by_cases hroot : t.rootOf row = root
    · have hhas : ∃ r ∈ rows ++ [row], t.rootOf r = root := ⟨row, by simp, hroot⟩
      have hold : (families.get? root).getD [] =
          rows.filter fun row => decide (t.rootOf row = root ∧ root ≠ row.id) := by
        rw [ih]
        split
        · rfl
        · rename_i hnone
          rw [Option.getD_none, eq_comm, List.filter_eq_nil_iff]
          intro r hr hmem
          exact hnone ⟨r, hr, (of_decide_eq_true hmem).1⟩
      rw [if_pos hroot, if_pos hhas, hroot, hold]
      by_cases hself : root = row.id <;> simp [hself]
    · have hhas : (∃ r ∈ rows ++ [row], t.rootOf r = root) ↔ ∃ r ∈ rows, t.rootOf r = root := by
        simp [or_and_right, exists_or, hroot]
      rw [if_neg hroot, ih]
      simp [hhas, hroot]

/-- A family is of a thread on top: the other rows of which that is the root. -/
theorem get?_families {root : ThreadId} {family : List ThreadRow} :
    t.families.get? root = some family ↔ t.IsTop root ∧
      family = t.values.filter fun row => decide (t.rootOf row = root ∧ root ≠ row.id) := by
  rw [families, get?_families_fold]
  by_cases h : ∃ row ∈ t.values, t.rootOf row = root
  · rw [if_pos h]
    have htop : t.IsTop root := by
      obtain ⟨row, hrow, rfl⟩ := h
      exact rootOf_isTop hrow
    exact ⟨fun heq => ⟨htop, (Option.some.inj heq).symm⟩, fun heq => congrArg some heq.2.symm⟩
  · rw [if_neg h]
    exact ⟨nofun, fun heq => absurd heq.1.exists_row h⟩

/-- A row is in a family as its root or as a subagent. -/
def InFamily (t : Table) (row : ThreadRow) (root : ThreadId) : Prop :=
  ∃ family, t.families.get? root = some family ∧ (row.id = root ∨ row ∈ family)

/-- Every row is in exactly one family, as its root or as one subagent. -/
def Apart (t : Table) : Prop :=
  (∀ row ∈ t.values, ∃! root, t.InFamily row root) ∧
    ∀ root family, t.families.get? root = some family →
      family.Nodup ∧ ∀ row ∈ family, row.id ≠ root

theorem inFamily_iff {row : ThreadRow} (h : row ∈ t.values) {root : ThreadId} :
    t.InFamily row root ↔ root = row.id ∧ t.IsTop root ∨ root = t.rootOf row := by
  constructor
  · rintro ⟨family, hfamily, hrow⟩
    rw [get?_families] at hfamily
    rcases hrow with rfl | hrow
    · exact Or.inl ⟨rfl, hfamily.1⟩
    · rw [hfamily.2, List.mem_filter] at hrow
      exact Or.inr (of_decide_eq_true hrow.2).1.symm
  · rintro (⟨rfl, htop⟩ | rfl)
    · exact ⟨_, get?_families.mpr ⟨htop, rfl⟩, Or.inl rfl⟩
    · refine ⟨_, get?_families.mpr ⟨rootOf_isTop h, rfl⟩, ?_⟩
      by_cases hself : t.rootOf row = row.id
      · exact Or.inl hself.symm
      · exact Or.inr (List.mem_filter.mpr ⟨h, decide_eq_true ⟨rfl, hself⟩⟩)

/-- Families are apart exactly if the loops of parents come out even. -/
theorem apart_iff : t.Apart ↔ t.LoopsFit := by
  rw [loopsFit_iff]
  constructor
  · rintro ⟨hone, -⟩ row hrow htop
    exact (hone row hrow).unique ((inFamily_iff hrow).mpr (Or.inr rfl))
      ((inFamily_iff hrow).mpr (Or.inl ⟨rfl, htop⟩))
  · intro hself
    refine ⟨?_, ?_⟩
    · intro row hrow
      refine ⟨t.rootOf row, (inFamily_iff hrow).mpr (Or.inr rfl), ?_⟩
      intro root hroot
      rcases (inFamily_iff hrow).mp hroot with ⟨rfl, htop⟩ | heq
      · exact (hself row hrow htop).symm
      · exact heq
    · intro root family hfamily
      rw [get?_families] at hfamily
      rw [hfamily.2]
      refine ⟨nodup_values.filter _, ?_⟩
      intro row hrow
      exact (of_decide_eq_true (List.mem_filter.mp hrow).2).2.symm

end Table

end Slopty.Hub
