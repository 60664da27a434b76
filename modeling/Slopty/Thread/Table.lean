import Slopty.Thread.State
import Mathlib.Data.List.Sort

/-!
A worker's thread table and a client's mirror of it. The table numbers its changes and
remembers its last removals, so a client that comes back is sent the rows that changed since
its cursor and the threads that went, or every row.
-/

namespace Slopty.Thread

open Slopty.Lib

/-- Which repository a directory is in: its root, and what it is on every machine. -/
abbrev Place := String × Option String

/-- A thread's row; `said` is what the table itself does not look into. -/
structure ThreadRow where
  id : ThreadId
  said : String
  cwd : Option String
  repo : Option String
  repoId : Option String
  updatedMs : Nat
  deriving DecidableEq, Repr, Countable

/-- The repository of each directory looked up so far. -/
abbrev Places := String → Option (Option Place)

/-- A row with its directory's repository said; `found` is what the disk says of a directory
not looked up before. -/
def Places.fill (places : Places) (row : ThreadRow) (found : Option Place) : Places × ThreadRow :=
  match row.cwd with
  | none => (places, row)
  | some cwd =>
      let place := (places cwd).getD found
      (Function.update places cwd (some place),
        match place with
        | some (root, id) => { row with repo := some root, repoId := id }
        | none => row)

def removedKept : Nat := 1024

structure Table where
  cursor : Cursor
  /-- Each row, and the number it last changed at. -/
  rows : OrdMap ThreadId (ThreadRow × Nat) := OrdMap.empty
  /-- The threads gone, and when. -/
  removed : List (Nat × ThreadId) := []
  /-- A cursor below this has missed a removal the table no longer remembers. -/
  oldest : Nat := 0
  places : Places := fun _ => none

inductive TableFrame where
  | snapshot (cursor : Cursor) (rows : List ThreadRow)
  | delta (cursor : Cursor) (rows : List ThreadRow) (removed : List ThreadId)

/-- Each run of equal neighbours, once. -/
def dedup : List ThreadId → List ThreadId
  | [] => []
  | [a] => [a]
  | a :: b :: rest => if a = b then dedup (b :: rest) else a :: dedup (b :: rest)

namespace Table

def bump (t : Table) : Table := { t with cursor := { t.cursor with seq := t.cursor.seq + 1 } }

def put (t : Table) (row : ThreadRow) (found : Option Place) : Table :=
  let (places, row) := t.places.fill row found
  let t := { t with places := places }
  match t.rows.get? row.id with
  | some (have', _) =>
      if { row with updatedMs := have'.updatedMs } = have' then t
      else { t.bump with rows := t.rows.insert row.id (row, t.bump.cursor.seq) }
  | none => { t.bump with rows := t.rows.insert row.id (row, t.bump.cursor.seq) }

/-- Forget the oldest removals past what is kept. -/
def trim : List (Nat × ThreadId) → Nat → List (Nat × ThreadId) × Nat
  | [], oldest => ([], oldest)
  | r :: rest, oldest =>
      if removedKept < (r :: rest).length then trim rest r.1 else (r :: rest, oldest)

def remove (t : Table) (id : ThreadId) : Table :=
  match t.rows.get? id with
  | none => t
  | some _ =>
      let kept := trim (t.removed ++ [(t.bump.cursor.seq, id)]) t.oldest
      { t.bump with rows := t.rows.erase id, removed := kept.1, oldest := kept.2 }

def changedSince (t : Table) (seq : Nat) : List ThreadRow :=
  ((t.rows.retain fun _ r => decide (seq < r.2)).mapVal fun _ r => r.1).values

def removedSince (t : Table) (seq : Nat) : List ThreadId :=
  dedup (((t.removed.filter fun r =>
    decide (seq < r.1) && (t.rows.get? r.2).isNone).map Prod.snd).mergeSort fun a b => decide (a ≤ b))

/-- The rows a client holding `held` lacks. -/
def since (t : Table) (held : Option Cursor) : TableFrame :=
  match held with
  | some held =>
      if held.epoch = t.cursor.epoch ∧ t.oldest ≤ held.seq ∧ held.seq ≤ t.cursor.seq then
        .delta t.cursor (t.changedSince held.seq) (t.removedSince held.seq)
      else .snapshot t.cursor (t.rows.mapVal fun _ r => r.1).values
  | none => .snapshot t.cursor (t.rows.mapVal fun _ r => r.1).values

/-- The table's rows, without when they changed. -/
def contents (t : Table) : OrdMap ThreadId ThreadRow := t.rows.mapVal fun _ r => r.1

end Table

structure TableState where
  cursor : Cursor := {}
  rows : OrdMap ThreadId ThreadRow := OrdMap.empty

def TableState.apply (s : TableState) : TableFrame → TableState
  | .snapshot cursor rows =>
      ⟨cursor, rows.foldl (fun m r => m.insert r.id r) OrdMap.empty⟩
  | .delta cursor rows removed =>
      ⟨cursor, rows.foldl (fun m r => m.insert r.id r) (removed.foldl OrdMap.erase s.rows)⟩

structure Mirrored where
  table : Table
  clients : Nat → Option TableState := fun _ => none

inductive TableStep where
  | put (row : ThreadRow) (found : Option Place)
  | remove (id : ThreadId)
  /-- A client hears what the table has since its cursor. -/
  | sync (client : Nat)

def Mirrored.step (m : Mirrored) : TableStep → Mirrored
  | .put row found => { m with table := m.table.put row found }
  | .remove id => { m with table := m.table.remove id }
  | .sync client =>
      let frame := m.table.since ((m.clients client).map TableState.cursor)
      let mirror := ((m.clients client).getD {}).apply frame
      { m with clients := Function.update m.clients client (some mirror) }

theorem mem_dedup {a : ThreadId} : ∀ {l : List ThreadId}, a ∈ dedup l ↔ a ∈ l
  | [] => Iff.rfl
  | [b] => Iff.rfl
  | b :: c :: rest => by
      have ih : a ∈ dedup (c :: rest) ↔ a ∈ c :: rest := mem_dedup
      simp only [dedup]
      split
      · rename_i heq
        rw [ih, heq]
        simp
      · rw [List.mem_cons, ih]
        exact List.mem_cons.symm

/-- What the table keeps of its history: rows under their own id, changed no later than its
cursor; removals in order, none before the horizon. -/
structure Table.Kept (t : Table) : Prop where
  keyed : ∀ id row at', t.rows.get? id = some (row, at') → row.id = id
  changed_le : ∀ id row at', t.rows.get? id = some (row, at') → at' ≤ t.cursor.seq
  removed_le : ∀ r ∈ t.removed, r.1 ≤ t.cursor.seq
  oldest_le : ∀ r ∈ t.removed, t.oldest ≤ r.1
  oldest_le_seq : t.oldest ≤ t.cursor.seq
  sorted : t.removed.Pairwise fun a b => a.1 < b.1

/-- What a mirror at its cursor is to the table now: rows not changed since are held as they
are, and a row held of a thread that went was removed since. -/
structure Mirrors (t : Table) (s : TableState) : Prop where
  epoch : s.cursor.epoch = t.cursor.epoch
  seq_le : s.cursor.seq ≤ t.cursor.seq
  held : ∀ id row at', t.rows.get? id = some (row, at') → at' ≤ s.cursor.seq →
    s.rows.get? id = some row
  gone : ∀ id, t.rows.get? id = none → s.rows.get? id ≠ none →
    s.cursor.seq < t.oldest ∨ ∃ seq, s.cursor.seq < seq ∧ (seq, id) ∈ t.removed

theorem Places.fill_id (places : Places) (row : ThreadRow) (found : Option Place) :
    (places.fill row found).2.id = row.id := by
  simp only [Places.fill]
  cases row.cwd with
  | none => rfl
  | some cwd =>
      dsimp only
      cases (places cwd).getD found with
      | none => rfl
      | some place => rfl

namespace Table

/-- A put changes nothing but the places looked up, or sets the row at a new number. -/
theorem put_cases (t : Table) (row : ThreadRow) (found : Option Place) :
    (∃ places, t.put row found = { t with places := places }) ∨
      ∃ places said, said.id = row.id ∧
        t.put row found =
          { t.bump with
            places := places
            rows := t.rows.insert row.id (said, t.cursor.seq + 1) } := by
  have hid := t.places.fill_id row found
  simp only [put]
  generalize t.places.fill row found = filled at hid ⊢
  obtain ⟨places, said⟩ := filled
  simp only at hid ⊢
  rw [← hid]
  cases t.rows.get? said.id with
  | none => exact Or.inr ⟨places, said, rfl, rfl⟩
  | some held =>
      by_cases hsame : { said with updatedMs := held.1.updatedMs } = held.1
      · exact Or.inl ⟨places, if_pos hsame⟩
      · exact Or.inr ⟨places, said, rfl, if_neg hsame⟩

/-- Trimming keeps the newest removals; the horizon is no lower than any it forgets and no
higher than any it keeps. -/
theorem trim_spec {removed : List (Nat × ThreadId)} {oldest : Nat}
    (hsorted : removed.Pairwise fun a b => a.1 < b.1) (hold : ∀ r ∈ removed, oldest ≤ r.1) :
    (trim removed oldest).1.Sublist removed ∧ oldest ≤ (trim removed oldest).2 ∧
      (∀ r ∈ removed, r ∈ (trim removed oldest).1 ∨ r.1 ≤ (trim removed oldest).2) ∧
      ∀ r ∈ (trim removed oldest).1, (trim removed oldest).2 ≤ r.1 := by
  induction removed generalizing oldest with
  | nil => exact ⟨List.Sublist.refl _, le_refl _, by simp, by simp [trim]⟩
  | cons r rest ih =>
      have hcons := List.pairwise_cons.mp hsorted
      simp only [trim]
      split
      · obtain ⟨hsub, hle, hkept, hfrom⟩ :=
          ih hcons.2 fun x hx => (hcons.1 x hx).le
        have hr : oldest ≤ r.1 := hold r List.mem_cons_self
        refine ⟨hsub.cons _, hr.trans hle, ?_, hfrom⟩
        intro x hx
        rcases List.mem_cons.mp hx with rfl | hx
        · exact Or.inr hle
        · exact hkept x hx
      · exact ⟨List.Sublist.refl _, le_refl _, fun x hx => Or.inl hx, hold⟩

theorem trim_le {removed : List (Nat × ThreadId)} {oldest n : Nat} (hold : oldest ≤ n)
    (hremoved : ∀ r ∈ removed, r.1 ≤ n) : (trim removed oldest).2 ≤ n := by
  induction removed generalizing oldest with
  | nil => exact hold
  | cons r rest ih =>
      simp only [trim]
      split
      · exact ih (hremoved r List.mem_cons_self) fun x hx => hremoved x (List.mem_cons_of_mem _ hx)
      · exact hold

theorem kept_put {t : Table} (ht : t.Kept) (row : ThreadRow) (found : Option Place) :
    (t.put row found).Kept := by
  obtain ⟨places, heq⟩ | ⟨places, said, hid, heq⟩ := t.put_cases row found
  · rw [heq]
    exact ⟨ht.keyed, ht.changed_le, ht.removed_le, ht.oldest_le, ht.oldest_le_seq,
      ht.sorted⟩
  · rw [heq]
    refine ⟨?_, ?_, fun r hr => (ht.removed_le r hr).trans (Nat.le_succ _), ht.oldest_le,
      ht.oldest_le_seq.trans (Nat.le_succ _), ht.sorted⟩
    · intro id x at' hget
      simp only [OrdMap.get?_insert] at hget
      split at hget
      · rename_i hrow
        rw [← hrow, ← hid, (Prod.mk.inj (Option.some.inj hget)).1]
      · exact ht.keyed id x at' hget
    · intro id x at' hget
      simp only [OrdMap.get?_insert] at hget
      split at hget
      · exact (Prod.mk.inj (Option.some.inj hget)).2.ge
      · exact (ht.changed_le id x at' hget).trans (Nat.le_succ _)

theorem removed_append {t : Table} (ht : t.Kept) (id : ThreadId) :
    ((t.removed ++ [(t.cursor.seq + 1, id)]).Pairwise fun a b => a.1 < b.1) ∧
      (∀ r ∈ t.removed ++ [(t.cursor.seq + 1, id)], r.1 ≤ t.cursor.seq + 1) := by
  constructor
  · rw [List.pairwise_append]
    refine ⟨ht.sorted, List.pairwise_singleton _ _, ?_⟩
    intro a ha b hb
    rw [List.mem_singleton.mp hb]
    exact Nat.lt_succ_of_le (ht.removed_le a ha)
  · intro r hr
    rcases List.mem_append.mp hr with hr | hr
    · exact (ht.removed_le r hr).trans (Nat.le_succ _)
    · rw [List.mem_singleton.mp hr]

/-- What a removal leaves: the row gone, and the removal remembered or below the horizon. -/
theorem remove_cases {t : Table} (ht : t.Kept) (id : ThreadId) :
    t.remove id = t ∨ ∃ removed oldest,
      t.remove id =
        { t.bump with rows := t.rows.erase id, removed := removed, oldest := oldest } ∧
      removed.Sublist (t.removed ++ [(t.cursor.seq + 1, id)]) ∧ t.oldest ≤ oldest ∧ oldest ≤ t.cursor.seq + 1 ∧
      (∀ r ∈ t.removed ++ [(t.cursor.seq + 1, id)], r ∈ removed ∨ r.1 ≤ oldest) ∧
      ∀ r ∈ removed, oldest ≤ r.1 := by
  simp only [remove]
  cases t.rows.get? id with
  | none => exact Or.inl rfl
  | some held =>
      have hold : ∀ r ∈ t.removed ++ [(t.cursor.seq + 1, id)], t.oldest ≤ r.1 := by
        intro r hr
        rcases List.mem_append.mp hr with hr | hr
        · exact ht.oldest_le r hr
        · rw [List.mem_singleton.mp hr]
          exact ht.oldest_le_seq.trans (Nat.le_succ _)
      obtain ⟨hsorted, hseq⟩ := removed_append ht id
      obtain ⟨hsub, hle, hkept, hfrom⟩ := trim_spec hsorted hold
      have htop := trim_le (ht.oldest_le_seq.trans (Nat.le_succ _)) hseq
      exact Or.inr ⟨_, _, rfl, hsub, hle, htop, hkept, hfrom⟩

theorem kept_remove {t : Table} (ht : t.Kept) (id : ThreadId) : (t.remove id).Kept := by
  obtain heq | ⟨removed, oldest, heq, hsub, -, htop, -, hfrom⟩ := remove_cases ht id
  · rw [heq]
    exact ht
  · rw [heq]
    obtain ⟨hsorted, hseq⟩ := removed_append ht id
    have hrows : ∀ j row at', (t.rows.erase id).get? j = some (row, at') →
        t.rows.get? j = some (row, at') := by
      intro j row at' hget
      rw [OrdMap.get?_erase] at hget
      split at hget
      · simp at hget
      · exact hget
    refine ⟨fun j row at' hget => ht.keyed j row at' (hrows j row at' hget),
      fun j row at' hget => (ht.changed_le j row at' (hrows j row at' hget)).trans (Nat.le_succ _),
      fun r hr => hseq r (hsub.subset hr), hfrom, htop, hsorted.sublist hsub⟩

theorem mem_removedSince {t : Table} {seq : Nat} {id : ThreadId} :
    id ∈ t.removedSince seq ↔
      t.rows.get? id = none ∧ ∃ at', seq < at' ∧ (at', id) ∈ t.removed := by
  rw [removedSince, mem_dedup, List.mem_mergeSort, List.mem_map]
  constructor
  · rintro ⟨⟨at', j⟩, hr, rfl⟩
    obtain ⟨hmem, htest⟩ := List.mem_filter.mp hr
    obtain ⟨hlt, hnone⟩ := Bool.and_eq_true_iff.mp htest
    exact ⟨Option.isNone_iff_eq_none.mp hnone, at', of_decide_eq_true hlt, hmem⟩
  · rintro ⟨hnone, at', hlt, hmem⟩
    refine ⟨(at', id), List.mem_filter.mpr ⟨hmem, ?_⟩, rfl⟩
    rw [Bool.and_eq_true_iff]
    exact ⟨decide_eq_true hlt, Option.isNone_iff_eq_none.mpr hnone⟩

theorem get?_contents (t : Table) (id : ThreadId) :
    t.contents.get? id = (t.rows.get? id).map Prod.fst :=
  OrdMap.get?_mapVal _ _ _

theorem contents_foldl {t : Table} (ht : t.Kept) :
    t.contents.values.foldl (fun m r => m.insert r.id r) OrdMap.empty = t.contents := by
  have hkey : ∀ id row, t.contents.get? id = some row → row.id = id := by
    intro id row hget
    rw [get?_contents] at hget
    obtain ⟨⟨said, at'⟩, hrow, rfl⟩ := Option.map_eq_some_iff.mp hget
    exact ht.keyed id said at' hrow
  apply OrdMap.ext_get?
  intro id
  rw [OrdMap.get?_foldl_insert_values _ hkey, OrdMap.get?_empty, Option.or_none]

theorem get?_changedSince {t : Table} (ht : t.Kept) (seq : Nat)
    (rows : OrdMap ThreadId ThreadRow) (id : ThreadId) :
    ((t.changedSince seq).foldl (fun m r => m.insert r.id r) rows).get? id =
      (((t.rows.get? id).filter fun r => decide (seq < r.2)).map Prod.fst).or (rows.get? id) := by
  have hkey : ∀ id row,
      ((t.rows.retain fun _ r => decide (seq < r.2)).mapVal fun _ r => r.1).get? id = some row →
        row.id = id := by
    intro id row hget
    rw [OrdMap.get?_mapVal, OrdMap.get?_retain] at hget
    obtain ⟨⟨said, at'⟩, hrow, rfl⟩ := Option.map_eq_some_iff.mp hget
    exact ht.keyed id said at' (Option.filter_eq_some_iff.mp hrow).1
  rw [changedSince, OrdMap.get?_foldl_insert_values _ hkey, OrdMap.get?_mapVal,
    OrdMap.get?_retain]

end Table

namespace Mirrors

theorem put {t : Table} {s : TableState} (hs : Mirrors t s) (row : ThreadRow)
    (found : Option Place) : Mirrors (t.put row found) s := by
  obtain ⟨places, heq⟩ | ⟨places, said, hid, heq⟩ := t.put_cases row found
  · rw [heq]
    exact ⟨hs.epoch, hs.seq_le, hs.held, hs.gone⟩
  · rw [heq]
    refine ⟨hs.epoch, hs.seq_le.trans (Nat.le_succ _), ?_, ?_⟩
    · intro id x at' hget hle
      simp only [OrdMap.get?_insert] at hget
      split at hget
      · have hnew : t.cursor.seq + 1 = at' := (Prod.mk.inj (Option.some.inj hget)).2
        have hold := hs.seq_le
        omega
      · exact hs.held id x at' hget hle
    · intro id hnone hheld
      simp only [OrdMap.get?_insert] at hnone
      split at hnone
      · simp at hnone
      · exact hs.gone id hnone hheld

theorem remove {t : Table} {s : TableState} (ht : t.Kept) (hs : Mirrors t s) (id : ThreadId) :
    Mirrors (t.remove id) s := by
  obtain heq | ⟨removed, oldest, heq, -, hle, -, hkept, -⟩ := Table.remove_cases ht id
  · rw [heq]
    exact hs
  · rw [heq]
    -- a removal the mirror has not heard of is remembered, or is below the horizon with it
    have hlater : ∀ at' j, s.cursor.seq < at' →
        (at', j) ∈ t.removed ++ [(t.cursor.seq + 1, id)] →
        s.cursor.seq < oldest ∨ ∃ seq, s.cursor.seq < seq ∧ (seq, j) ∈ removed := by
      intro at' j hlt hmem
      rcases hkept _ hmem with hin | hbelow
      · exact Or.inr ⟨at', hlt, hin⟩
      · exact Or.inl (lt_of_lt_of_le hlt hbelow)
    refine ⟨hs.epoch, hs.seq_le.trans (Nat.le_succ _), ?_, ?_⟩
    · intro j x at' hget hat
      simp only [OrdMap.get?_erase] at hget
      split at hget
      · simp at hget
      · exact hs.held j x at' hget hat
    · intro j hnone hheld
      simp only [OrdMap.get?_erase] at hnone
      split at hnone
      · rename_i hj
        rw [hj]
        exact hlater _ id (Nat.lt_succ_of_le hs.seq_le) (by simp)
      · rcases hs.gone j hnone hheld with hbelow | ⟨seq, hlt, hmem⟩
        · exact Or.inl (lt_of_lt_of_le hbelow hle)
        · exact hlater seq j hlt (List.mem_append_left _ hmem)

/-- A mirror is brought to the table by what the table has since its cursor. -/
theorem apply_since {t : Table} {s : TableState} (ht : t.Kept) (hs : Mirrors t s) :
    s.apply (t.since (some s.cursor)) = ⟨t.cursor, t.contents⟩ := by
  simp only [Table.since]
  split
  · rename_i hin
    obtain ⟨-, hold, -⟩ := hin
    rw [TableState.apply, TableState.mk.injEq]
    refine ⟨rfl, OrdMap.ext_get? fun id => ?_⟩
    rw [Table.get?_changedSince ht, OrdMap.get?_foldl_erase, Table.get?_contents]
    cases hrow : t.rows.get? id with
    | none =>
        by_cases hgone : id ∈ t.removedSince s.cursor.seq
        · simp [hgone]
        · have hnone : s.rows.get? id = none := by
            by_contra hheld
            rcases hs.gone id hrow hheld with hbelow | hmem
            · exact absurd hold (not_le.mpr hbelow)
            · exact hgone (Table.mem_removedSince.mpr ⟨hrow, hmem⟩)
          simp [hnone]
    | some r =>
        obtain ⟨row, at'⟩ := r
        by_cases hat : s.cursor.seq < at'
        · simp [hat]
        · have hheld := hs.held id row at' hrow (not_lt.mp hat)
          have hstays : id ∉ t.removedSince s.cursor.seq := by
            intro hgone
            rw [Table.mem_removedSince, hrow] at hgone
            simp at hgone
          rw [Option.filter_some, if_neg (by simpa using hat), if_neg hstays, hheld]
          rfl
  · rw [TableState.apply]
    exact congrArg (TableState.mk t.cursor) (Table.contents_foldl ht)

theorem of_contents (t : Table) : Mirrors t ⟨t.cursor, t.contents⟩ where
  epoch := rfl
  seq_le := le_refl _
  held := by
    intro id row at' hget _
    rw [Table.get?_contents, hget]
    rfl
  gone := by
    intro id hnone hheld
    rw [Table.get?_contents, hnone] at hheld
    exact absurd rfl hheld

end Mirrors

/-- The table keeps its history, and every mirror is behind it in the way it remembers. -/
structure Mirrored.Inv (m : Mirrored) : Prop where
  kept : m.table.Kept
  mirrors : ∀ client s, m.clients client = some s → Mirrors m.table s

namespace Mirrored

theorem sync_eq {m : Mirrored} (hm : m.Inv) (client : Nat) :
    (m.step (.sync client)).clients client = some ⟨m.table.cursor, m.table.contents⟩ := by
  simp only [step, Function.update_self]
  cases hclient : m.clients client with
  | none =>
      simp only [Option.map_none, Table.since, TableState.apply]
      exact congrArg (fun rows => some (TableState.mk m.table.cursor rows))
        (Table.contents_foldl hm.kept)
  | some s =>
      simp only [Option.map_some, Option.getD_some]
      rw [(hm.mirrors client s hclient).apply_since hm.kept]

theorem inv_step {m : Mirrored} (hm : m.Inv) (st : TableStep) : (m.step st).Inv := by
  cases st with
  | put row found =>
      exact ⟨Table.kept_put hm.kept row found,
        fun client s hs => (hm.mirrors client s hs).put row found⟩
  | remove id =>
      exact ⟨Table.kept_remove hm.kept id,
        fun client s hs => (hm.mirrors client s hs).remove hm.kept id⟩
  | sync client =>
      refine ⟨hm.kept, ?_⟩
      intro c s hs
      by_cases hc : c = client
      · subst hc
        have heq := sync_eq hm c
        rw [hs, Option.some.injEq] at heq
        rw [heq]
        exact Mirrors.of_contents m.table
      · simp only [step, Function.update_of_ne hc] at hs
        exact hm.mirrors c s hs

theorem inv_new (epoch : Nat) : Inv { table := { cursor := ⟨epoch, 0⟩ } } where
  kept := {
    keyed := by simp
    changed_le := by simp
    removed_le := by simp
    oldest_le := by simp
    oldest_le_seq := le_refl _
    sorted := List.Pairwise.nil }
  mirrors := by simp

theorem inv_run (steps : List TableStep) {m : Mirrored} (hm : m.Inv) : (steps.foldl step m).Inv := by
  induction steps generalizing m with
  | nil => exact hm
  | cons st rest ih => exact ih (inv_step hm st)

/-- Whatever was put and removed, and whenever its clients asked, a client that hears the
table holds the table's rows as they are then. -/
theorem mirror_equals_table (epoch : Nat) (steps : List TableStep) (client : Nat) :
    let m := steps.foldl step { table := { cursor := ⟨epoch, 0⟩ } }
    ((m.step (.sync client)).clients client).map TableState.rows = some m.table.contents ∧
      (m.step (.sync client)).table = m.table := by
  intro m
  have hm : m.Inv := inv_run steps (inv_new epoch)
  refine ⟨?_, rfl⟩
  rw [sync_eq hm client]
  rfl

end Mirrored

end Slopty.Thread
