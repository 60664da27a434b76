import Mathlib.Data.List.Sort
import Mathlib.Order.Basic
import Mathlib.Logic.Equiv.List
import Mathlib.Data.Countable.Basic
import Mathlib.Algebra.Order.BigOperators.Group.List
import Mathlib.Algebra.Order.Group.Nat
import Mathlib.Algebra.Order.Ring.Int

namespace Slopty.Lib

universe u v

/-- A finite map kept as its entries in increasing key order: what an ordered
tree map is to a caller who only looks keys up, walks the entries in order and
asks for the first one. -/
structure OrdMap (κ : Type u) [LinearOrder κ] (α : Type v) where
  entries : List (κ × α)
  sorted : entries.Pairwise fun a b => a.1 < b.1

namespace OrdMap

variable {κ : Type u} [LinearOrder κ] {α : Type v} {β : Type v}

def lookupList (k : κ) : List (κ × α) → Option α
  | [] => none
  | (j, v) :: rest => if j = k then some v else lookupList k rest

theorem lookupList_eq_some_iff_mem {k : κ} {v : α} {l : List (κ × α)}
    (hl : l.Pairwise fun a b => a.1 < b.1) :
    lookupList k l = some v ↔ (k, v) ∈ l := by
  induction l with
  | nil => simp [lookupList]
  | cons e rest ih =>
      obtain ⟨j, w⟩ := e
      rw [List.pairwise_cons] at hl
      simp only [lookupList, List.mem_cons, Prod.mk.injEq]
      split
      · rename_i hjk
        subst hjk
        constructor
        · intro h
          exact Or.inl ⟨rfl, (Option.some.inj h).symm⟩
        · rintro (⟨-, rfl⟩ | hmem)
          · rfl
          · exact absurd (hl.1 _ hmem) (lt_irrefl _)
      · rename_i hjk
        rw [ih hl.2]
        constructor
        · exact Or.inr
        · rintro (⟨rfl, -⟩ | hmem)
          · exact absurd rfl hjk
          · exact hmem

/-- Put an entry in its place, replacing one with the same key. -/
def insertList (k : κ) (v : α) : List (κ × α) → List (κ × α)
  | [] => [(k, v)]
  | (j, w) :: rest =>
      if k < j then (k, v) :: (j, w) :: rest
      else if k = j then (k, v) :: rest
      else (j, w) :: insertList k v rest

theorem mem_insertList_key {k j : κ} {v w : α} {l : List (κ × α)}
    (h : (j, w) ∈ insertList k v l) : j = k ∨ (j, w) ∈ l := by
  induction l with
  | nil =>
      left
      simpa [insertList] using congrArg Prod.fst (List.mem_singleton.mp h)
  | cons e rest ih =>
      obtain ⟨i, x⟩ := e
      simp only [insertList] at h
      split at h
      · rcases List.mem_cons.mp h with heq | hmem
        · exact Or.inl (congrArg Prod.fst heq)
        · exact Or.inr hmem
      · split at h
        · rcases List.mem_cons.mp h with heq | hmem
          · exact Or.inl (congrArg Prod.fst heq)
          · exact Or.inr (List.mem_cons_of_mem _ hmem)
        · rcases List.mem_cons.mp h with heq | hmem
          · exact Or.inr (heq ▸ List.mem_cons_self)
          · exact (ih hmem).imp_right (List.mem_cons_of_mem _)

theorem sorted_insertList (k : κ) (v : α) {l : List (κ × α)}
    (hl : l.Pairwise fun a b => a.1 < b.1) :
    (insertList k v l).Pairwise fun a b => a.1 < b.1 := by
  induction l with
  | nil => simp [insertList]
  | cons e rest ih =>
      obtain ⟨j, w⟩ := e
      have hcons := List.pairwise_cons.mp hl
      simp only [insertList]
      split
      · rename_i hkj
        refine List.pairwise_cons.mpr ⟨?_, hl⟩
        intro x hx
        rcases List.mem_cons.mp hx with rfl | hmem
        · exact hkj
        · exact hkj.trans (hcons.1 x hmem)
      · rename_i hkj
        split
        · rename_i heq
          subst heq
          exact List.pairwise_cons.mpr ⟨hcons.1, hcons.2⟩
        · rename_i hne
          refine List.pairwise_cons.mpr ⟨?_, ih hcons.2⟩
          rintro ⟨i, x⟩ hx
          rcases mem_insertList_key hx with rfl | hmem
          · exact lt_of_le_of_ne (not_lt.mp hkj) (Ne.symm hne)
          · exact hcons.1 _ hmem

theorem lookupList_insertList (k j : κ) (v : α) (l : List (κ × α)) :
    lookupList j (insertList k v l) = if k = j then some v else lookupList j l := by
  induction l with
  | nil => simp [insertList, lookupList]
  | cons e rest ih =>
      obtain ⟨i, x⟩ := e
      simp only [insertList]
      split
      · simp [lookupList]
      · split
        · rename_i heq
          subst heq
          simp only [lookupList]
          split <;> rfl
        · rename_i hne
          simp only [lookupList, ih]
          by_cases hij : i = j
          · have hkj : k ≠ j := fun h => hne (h.trans hij.symm)
            simp [hij, hkj]
          · simp [hij]

def empty : OrdMap κ α := ⟨[], List.Pairwise.nil⟩

/-- The value at a key. -/
def get? (m : OrdMap κ α) (k : κ) : Option α := lookupList k m.entries

/-- Set a key. -/
def insert (m : OrdMap κ α) (k : κ) (v : α) : OrdMap κ α :=
  ⟨insertList k v m.entries, sorted_insertList k v m.sorted⟩

/-- Keep the entries that satisfy a test. -/
def retain (m : OrdMap κ α) (p : κ → α → Bool) : OrdMap κ α :=
  ⟨m.entries.filter fun e => p e.1 e.2, m.sorted.filter _⟩

/-- Take a key out. -/
def erase (m : OrdMap κ α) (k : κ) : OrdMap κ α :=
  m.retain fun j _ => decide (j ≠ k)

/-- Change every value in place. -/
def mapVal (m : OrdMap κ α) (f : κ → α → β) : OrdMap κ β :=
  ⟨m.entries.map fun e => (e.1, f e.1 e.2), by
    rw [List.pairwise_map]
    exact m.sorted⟩

/-- Number of entries. -/
def size (m : OrdMap κ α) : Nat := m.entries.length

/-- The entry with the least key. -/
def first? (m : OrdMap κ α) : Option (κ × α) := m.entries.head?

def keys (m : OrdMap κ α) : List κ := m.entries.map Prod.fst

def values (m : OrdMap κ α) : List α := m.entries.map Prod.snd

theorem get?_eq_some_iff {m : OrdMap κ α} {k : κ} {v : α} :
    m.get? k = some v ↔ (k, v) ∈ m.entries :=
  lookupList_eq_some_iff_mem m.sorted

theorem mem_keys {m : OrdMap κ α} {k : κ} : k ∈ m.keys ↔ (m.get? k).isSome := by
  rw [keys, List.mem_map, Option.isSome_iff_exists]
  constructor
  · rintro ⟨⟨j, v⟩, hmem, rfl⟩
    exact ⟨v, get?_eq_some_iff.mpr hmem⟩
  · rintro ⟨v, hv⟩
    exact ⟨(k, v), get?_eq_some_iff.mp hv, rfl⟩

theorem mem_values {m : OrdMap κ α} {v : α} : v ∈ m.values ↔ ∃ k, m.get? k = some v := by
  rw [values, List.mem_map]
  constructor
  · rintro ⟨⟨k, w⟩, hmem, rfl⟩
    exact ⟨k, get?_eq_some_iff.mpr hmem⟩
  · rintro ⟨k, hk⟩
    exact ⟨(k, v), get?_eq_some_iff.mp hk, rfl⟩

theorem ext_get? {m n : OrdMap κ α} (h : ∀ k, m.get? k = n.get? k) : m = n := by
  have hmem : ∀ e, e ∈ m.entries ↔ e ∈ n.entries := by
    rintro ⟨k, v⟩
    rw [← get?_eq_some_iff, ← get?_eq_some_iff, h]
  have hnodup : ∀ m : OrdMap κ α, m.entries.Nodup := fun m =>
    m.sorted.imp fun hlt heq => absurd (congrArg Prod.fst heq) hlt.ne
  have hperm : m.entries.Perm n.entries :=
    (List.perm_ext_iff_of_nodup (hnodup m) (hnodup n)).mpr hmem
  have heq : m.entries = n.entries :=
    hperm.eq_of_pairwise (fun _ _ _ _ hab hba => absurd (hab.trans hba) (lt_irrefl _))
      m.sorted n.sorted
  cases m
  cases n
  simpa using heq

instance [DecidableEq α] : DecidableEq (OrdMap κ α) := fun m n =>
  decidable_of_iff (m.entries = n.entries) ⟨fun h => by cases m; cases n; cases h; rfl,
    fun h => congrArg entries h⟩

instance [Countable κ] [Countable α] : Countable (OrdMap κ α) :=
  Function.Injective.countable (f := entries) fun m n h => by cases m; cases n; cases h; rfl

@[simp] theorem get?_empty (k : κ) : (empty : OrdMap κ α).get? k = none := rfl

@[simp] theorem size_empty : (empty : OrdMap κ α).size = 0 := rfl

theorem get?_insert (m : OrdMap κ α) (k j : κ) (v : α) :
    (m.insert k v).get? j = if k = j then some v else m.get? j :=
  lookupList_insertList k j v m.entries

@[simp] theorem get?_insert_self (m : OrdMap κ α) (k : κ) (v : α) :
    (m.insert k v).get? k = some v := by
  simp [get?_insert]

theorem get?_retain (m : OrdMap κ α) (p : κ → α → Bool) (k : κ) :
    (m.retain p).get? k = (m.get? k).filter (p k) := by
  apply Option.ext
  intro v
  rw [get?_eq_some_iff, Option.filter_eq_some_iff, get?_eq_some_iff]
  simp [retain]

theorem retain_congr {m n : OrdMap κ α} {p : κ → Bool} (h : ∀ k, p k = true → m.get? k = n.get? k) :
    (m.retain fun k _ => p k) = n.retain fun k _ => p k := by
  refine ext_get? fun k => ?_
  rw [get?_retain, get?_retain]
  cases hk : p k with
  | true => rw [h k hk]
  | false => cases m.get? k <;> cases n.get? k <;> rfl

theorem get?_erase (m : OrdMap κ α) (k j : κ) :
    (m.erase k).get? j = if j = k then none else m.get? j := by
  rw [erase, get?_retain]
  by_cases hjk : j = k
  · simp [hjk]
  · cases m.get? j <;> simp [hjk]

@[simp] theorem get?_erase_self (m : OrdMap κ α) (k : κ) :
    (m.erase k).get? k = none := by
  simp [get?_erase]

theorem get?_mapVal (m : OrdMap κ α) (f : κ → α → β) (k : κ) :
    (m.mapVal f).get? k = (m.get? k).map (f k) := by
  apply Option.ext
  intro w
  rw [get?_eq_some_iff]
  simp only [mapVal, List.mem_map, Prod.mk.injEq, Prod.exists, Option.map_eq_some_iff,
    get?_eq_some_iff]
  constructor
  · rintro ⟨j, v, hmem, rfl, rfl⟩
    exact ⟨v, hmem, rfl⟩
  · rintro ⟨v, hmem, rfl⟩
    exact ⟨k, v, hmem, rfl, rfl⟩

theorem get?_foldl_insert {l : List (κ × α)} (hl : l.Pairwise fun a b => a.1 < b.1)
    (acc : OrdMap κ α) (j : κ) :
    (l.foldl (fun m e => m.insert e.1 e.2) acc).get? j = (lookupList j l).or (acc.get? j) := by
  induction l generalizing acc with
  | nil => rfl
  | cons e rest ih =>
      obtain ⟨k, v⟩ := e
      rw [List.pairwise_cons] at hl
      rw [List.foldl_cons, ih hl.2, get?_insert]
      by_cases hk : k = j
      · have hnone : lookupList j rest = none := by
          by_contra hsome
          obtain ⟨w, hw⟩ := Option.ne_none_iff_exists'.mp hsome
          have hlt := hl.1 _ ((lookupList_eq_some_iff_mem hl.2).mp hw)
          exact absurd hk (ne_of_lt hlt)
        simp [lookupList, hk, hnone]
      · simp [lookupList, hk]

theorem get?_foldl_insert_values (m : OrdMap κ α) {key : α → κ}
    (hkey : ∀ k v, m.get? k = some v → key v = k) (acc : OrdMap κ α) (j : κ) :
    (m.values.foldl (fun a v => a.insert (key v) v) acc).get? j = (m.get? j).or (acc.get? j) := by
  have hentries : m.values.foldl (fun a v => a.insert (key v) v) acc =
      m.entries.foldl (fun a e => a.insert e.1 e.2) acc := by
    rw [values, List.foldl_map]
    apply List.foldl_ext
    intro a e he
    rw [hkey e.1 e.2 (get?_eq_some_iff.mpr he)]
  rw [hentries, get?_foldl_insert m.sorted]
  rfl

theorem get?_foldl_insert_eq_some {l : List (κ × α)}
    (hl : ∀ a ∈ l, ∀ b ∈ l, a.1 = b.1 → a.2 = b.2) {j : κ} {v : α} :
    (l.foldl (fun m e => m.insert e.1 e.2) empty).get? j = some v ↔ (j, v) ∈ l := by
  induction l using List.reverseRecOn with
  | nil => simp
  | append_singleton l e ih =>
      have ih := ih fun a ha b hb => hl a (List.mem_append_left _ ha) b (List.mem_append_left _ hb)
      rw [List.foldl_append, List.foldl_cons, List.foldl_nil, get?_insert, List.mem_append,
        List.mem_singleton]
      by_cases he : e.1 = j
      · rw [if_pos he]
        constructor
        · rintro h
          right
          rw [← he, ← Option.some.inj h]
        · rintro (hmem | rfl)
          · exact congrArg some
              (hl e (by simp) (j, v) (List.mem_append_left _ hmem) he)
          · rfl
      · rw [if_neg he, ih]
        constructor
        · exact Or.inl
        · rintro (hmem | rfl)
          · exact hmem
          · exact absurd rfl he

theorem get?_foldl_erase (keys : List κ) (m : OrdMap κ α) (j : κ) :
    (keys.foldl erase m).get? j = if j ∈ keys then none else m.get? j := by
  induction keys generalizing m with
  | nil => simp
  | cons k rest ih =>
      rw [List.foldl_cons, ih, get?_erase]
      by_cases hj : j = k <;> simp [hj]

theorem first?_eq_some {m : OrdMap κ α} {k : κ} {v : α} (h : m.first? = some (k, v)) :
    m.get? k = some v ∧ ∀ j w, m.get? j = some w → k ≤ j := by
  obtain ⟨l, hl⟩ := m
  cases l with
  | nil => simp [first?] at h
  | cons e rest =>
      have he : e = (k, v) := by simpa [first?] using h
      subst he
      refine ⟨by simp [get?, lookupList], ?_⟩
      intro j w hj
      rw [get?_eq_some_iff] at hj
      rcases List.mem_cons.mp hj with heq | hmem
      · exact (congrArg Prod.fst heq).ge
      · exact ((List.pairwise_cons.mp hl).1 _ hmem).le

theorem first?_eq_none {m : OrdMap κ α} (h : m.first? = none) : m = empty := by
  obtain ⟨l, hl⟩ := m
  cases l with
  | nil => rfl
  | cons e rest => simp [first?] at h

/-- Without the entries before a key: the first one is taken off while its key is before it. -/
def popBelow (m : OrdMap κ α) (k : κ) : OrdMap κ α :=
  ⟨m.entries.dropWhile fun e => decide (e.1 < k), m.sorted.sublist (List.dropWhile_sublist _)⟩

/-- The first key that is not before `k`. -/
def firstFrom? (m : OrdMap κ α) (k : κ) : Option κ := m.keys.find? fun j => decide (k ≤ j)

/-- The last key before `k`. -/
def lastBelow? (m : OrdMap κ α) (k : κ) : Option κ :=
  (m.keys.filter fun j => decide (j < k)).getLast?

theorem sorted_keys (m : OrdMap κ α) : m.keys.Pairwise (· < ·) :=
  List.pairwise_map.mpr m.sorted

theorem dropWhile_eq_filter {l : List (κ × α)} (hl : l.Pairwise fun a b => a.1 < b.1) (k : κ) :
    (l.dropWhile fun e => decide (e.1 < k)) = l.filter fun e => decide (k ≤ e.1) := by
  induction l with
  | nil => rfl
  | cons e rest ih =>
    rw [List.pairwise_cons] at hl
    by_cases hlt : e.1 < k
    · rw [List.dropWhile_cons_of_pos (by simpa using hlt), ih hl.2,
        List.filter_cons_of_neg (by simpa using hlt)]
    · have hall : ∀ x ∈ e :: rest, decide (k ≤ x.1) = true := by
        intro x hx
        rcases List.mem_cons.mp hx with rfl | hx
        · simpa using hlt
        · simpa using (not_lt.mp hlt).trans (hl.1 x hx).le
      rw [List.dropWhile_cons_of_neg (by simpa using hlt), List.filter_eq_self.mpr hall]

theorem get?_popBelow (m : OrdMap κ α) (k j : κ) :
    (m.popBelow k).get? j = if j < k then none else m.get? j := by
  have hretain : m.popBelow k = m.retain fun j _ => decide (k ≤ j) := by
    unfold popBelow retain
    congr 1
    exact dropWhile_eq_filter m.sorted k
  rw [hretain, get?_retain]
  by_cases hlt : j < k
  · rw [if_pos hlt]
    cases m.get? j with
    | none => rfl
    | some v => simp [hlt]
  · rw [if_neg hlt]
    cases m.get? j with
    | none => rfl
    | some v => simp [not_lt.mp hlt]

theorem firstFrom?_eq_some {m : OrdMap κ α} {k j : κ} (h : m.firstFrom? k = some j) :
    (m.get? j).isSome ∧ k ≤ j ∧ ∀ i, (m.get? i).isSome → k ≤ i → j ≤ i := by
  obtain ⟨hk, before, after, hsplit, hbefore⟩ := List.find?_eq_some_iff_append.mp h
  have hmem : j ∈ m.keys := hsplit ▸ List.mem_append_right _ List.mem_cons_self
  refine ⟨mem_keys.mp hmem, of_decide_eq_true hk, ?_⟩
  intro i hi hki
  have hsorted := m.sorted_keys
  rw [hsplit, List.pairwise_append, List.pairwise_cons] at hsorted
  have hi := mem_keys.mpr hi
  rw [hsplit, List.mem_append, List.mem_cons] at hi
  rcases hi with hi | rfl | hi
  · have hnot := hbefore i hi
    simp [hki] at hnot
  · exact le_rfl
  · exact (hsorted.2.1.1 i hi).le

theorem firstFrom?_eq_none {m : OrdMap κ α} {k : κ} (h : m.firstFrom? k = none) {i : κ}
    (hi : (m.get? i).isSome) : i < k := by
  have hnot := List.find?_eq_none.mp h i (mem_keys.mpr hi)
  simpa using hnot

theorem lastBelow?_eq_some {m : OrdMap κ α} {k j : κ} (h : m.lastBelow? k = some j) :
    (m.get? j).isSome ∧ j < k ∧ ∀ i, (m.get? i).isSome → i < k → i ≤ j := by
  obtain ⟨before, hsplit⟩ := List.getLast?_eq_some_iff.mp h
  have hmem : j ∈ m.keys.filter fun j => decide (j < k) :=
    hsplit ▸ List.mem_append_right _ (List.mem_singleton_self j)
  obtain ⟨hkeys, hlt⟩ := List.mem_filter.mp hmem
  refine ⟨mem_keys.mp hkeys, of_decide_eq_true hlt, ?_⟩
  intro i hi hik
  have hsorted : (before ++ [j]).Pairwise (· < ·) := hsplit ▸ m.sorted_keys.filter _
  have hi : i ∈ m.keys.filter fun j => decide (j < k) :=
    List.mem_filter.mpr ⟨mem_keys.mpr hi, decide_eq_true hik⟩
  rw [hsplit] at hi
  rcases List.mem_append.mp hi with hi | hi
  · exact ((List.pairwise_append.mp hsorted).2.2 i hi j (List.mem_singleton_self j)).le
  · exact (List.mem_singleton.mp hi).le

theorem lastBelow?_eq_none {m : OrdMap κ α} {k : κ} (h : m.lastBelow? k = none) {i : κ}
    (hi : (m.get? i).isSome) : k ≤ i := by
  by_contra hlt
  have hmem : i ∈ m.keys.filter fun j => decide (j < k) :=
    List.mem_filter.mpr ⟨mem_keys.mpr hi, decide_eq_true (not_le.mp hlt)⟩
  rw [List.getLast?_eq_none_iff.mp h] at hmem
  exact absurd hmem nofun

theorem countP_entries (m : OrdMap κ α) {k : κ} {p : κ × α → Bool}
    (hp : ∀ e, p e = true → e.1 = k) :
    m.entries.countP p = if (m.get? k).any fun v => p (k, v) then 1 else 0 := by
  obtain ⟨l, hl⟩ := m
  show l.countP p = if (lookupList k l).any fun v => p (k, v) then 1 else 0
  induction l with
  | nil => rfl
  | cons e rest ih =>
      obtain ⟨j, v⟩ := e
      rw [List.pairwise_cons] at hl
      simp only [lookupList]
      split
      · rename_i hjk
        subst hjk
        have hrest : rest.countP p = 0 := by
          rw [List.countP_eq_zero]
          intro e he hpe
          exact absurd (hl.1 e he) (by simp [hp e hpe])
        rw [List.countP_cons, hrest]
        simp
      · rename_i hjk
        have hne : p (j, v) = false := by
          rw [Bool.eq_false_iff]
          exact fun h => hjk (hp _ h)
        rw [List.countP_cons, ih hl.2, hne]
        simp

theorem size_retain_le (m : OrdMap κ α) (p : κ → α → Bool) :
    (m.retain p).size ≤ m.size :=
  List.length_filter_le _ _

theorem size_retain_lt {m : OrdMap κ α} {p : κ → α → Bool} {k : κ} {v : α}
    (h : m.get? k = some v) (hp : p k v = false) : (m.retain p).size < m.size := by
  rw [get?_eq_some_iff] at h
  apply List.length_filter_lt_length_iff_exists.mpr
  exact ⟨(k, v), h, by rw [hp]; simp⟩

theorem size_erase_lt {m : OrdMap κ α} {k : κ} {v : α} (h : m.get? k = some v) :
    (m.erase k).size < m.size := by
  rw [get?_eq_some_iff] at h
  exact List.length_filter_lt_length_iff_exists.mpr ⟨(k, v), h, by simp⟩

theorem size_erase_le (m : OrdMap κ α) (k : κ) : (m.erase k).size ≤ m.size :=
  List.length_filter_le _ _

theorem length_insertList {k : κ} {v : α} {l : List (κ × α)}
    (hl : l.Pairwise fun a b => a.1 < b.1) :
    (insertList k v l).length = if (lookupList k l).isSome then l.length else l.length + 1 := by
  induction l with
  | nil => rfl
  | cons e rest ih =>
      obtain ⟨j, w⟩ := e
      have hcons := List.pairwise_cons.mp hl
      simp only [insertList, lookupList]
      rcases lt_trichotomy k j with hlt | rfl | hgt
      · have hnone : lookupList k rest = none := by
          rw [Option.eq_none_iff_forall_ne_some]
          intro x hx
          exact hlt.not_gt (hcons.1 _ ((lookupList_eq_some_iff_mem hcons.2).mp hx))
        simp [hlt, hlt.ne', hnone]
      · simp
      · simp only [hgt.not_gt, hgt.ne', hgt.ne, if_false, List.length_cons, ih hcons.2]
        split <;> rfl

theorem size_insert (m : OrdMap κ α) (k : κ) (v : α) :
    (m.insert k v).size = if (m.get? k).isSome then m.size else m.size + 1 :=
  length_insertList m.sorted

@[simp] theorem size_mapVal (m : OrdMap κ α) (f : κ → α → β) :
    (m.mapVal f).size = m.size := by
  simp [size, mapVal]

/-- The entries' weights added up. -/
def total (w : α → Nat) (m : OrdMap κ α) : Nat := (m.values.map w).sum

theorem total_retain_le (w : α → Nat) (m : OrdMap κ α) (p : κ → α → Bool) :
    (m.retain p).total w ≤ m.total w := by
  unfold total values retain
  rw [List.map_map, List.map_map]
  exact (List.filter_sublist.map _).sum_le_sum (by simp)

theorem sum_lookupList_le (w : α → Nat) {k : κ} {v : α} {l : List (κ × α)}
    (h : lookupList k l = some v) :
    ((l.filter fun e => decide (e.1 ≠ k)).map fun e => w e.2).sum + w v ≤
      (l.map fun e => w e.2).sum := by
  induction l with
  | nil => simp [lookupList] at h
  | cons e rest ih =>
      obtain ⟨j, x⟩ := e
      simp only [lookupList] at h
      split at h
      · rename_i hjk
        have hx : x = v := Option.some.inj h
        have hle : ((rest.filter fun e => decide (e.1 ≠ k)).map fun e => w e.2).sum ≤
            (rest.map fun e => w e.2).sum :=
          (List.filter_sublist.map _).sum_le_sum (by simp)
        rw [List.filter_cons_of_neg (by simp [hjk])]
        simp only [List.map_cons, List.sum_cons]
        rw [hx]
        omega
      · rename_i hjk
        have hih := ih h
        rw [List.filter_cons_of_pos (by simpa using hjk)]
        simp only [List.map_cons, List.sum_cons]
        omega

theorem total_erase_le (w : α → Nat) {m : OrdMap κ α} {k : κ} {v : α} (h : m.get? k = some v) :
    (m.erase k).total w + w v ≤ m.total w := by
  unfold total values erase retain
  rw [List.map_map, List.map_map]
  exact sum_lookupList_le w h

theorem sum_insertList_le (w : α → Nat) {k : κ} {v v' : α} {l : List (κ × α)}
    (hl : l.Pairwise fun a b => a.1 < b.1) (h : lookupList k l = some v) :
    ((insertList k v' l).map fun e => w e.2).sum + w v ≤ (l.map fun e => w e.2).sum + w v' := by
  induction l with
  | nil => simp [lookupList] at h
  | cons e rest ih =>
      obtain ⟨j, x⟩ := e
      have hcons := List.pairwise_cons.mp hl
      simp only [lookupList] at h
      simp only [insertList]
      split at h
      · rename_i hjk
        have hx : x = v := Option.some.inj h
        subst hjk
        simp only [lt_irrefl, if_false, if_true, List.map_cons, List.sum_cons]
        rw [hx]
        omega
      · rename_i hjk
        have hlt : j < k := hcons.1 _ ((lookupList_eq_some_iff_mem hcons.2).mp h)
        have hih := ih hcons.2 h
        rw [if_neg hlt.not_gt, if_neg (Ne.symm hjk)]
        simp only [List.map_cons, List.sum_cons]
        omega

theorem total_insert_le (w : α → Nat) {m : OrdMap κ α} {k : κ} {v : α} (v' : α)
    (h : m.get? k = some v) : (m.insert k v').total w + w v ≤ m.total w + w v' := by
  unfold total values insert
  rw [List.map_map, List.map_map]
  exact sum_insertList_le w m.sorted h

end OrdMap

end Slopty.Lib
