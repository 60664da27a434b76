import Slopty.Hub.Families

/-!
Whom each standing of the ladder counts. The fleet, a worker, a tile and a space count each of
their roots once whatever the rows say; an agent's tree counts each agent below it once exactly if
no agent is, through the agents that started them, below itself.
-/

namespace Slopty.Hub

open Slopty.Lib
open Slopty.Thread (ThreadId WallMs Phase Link)

namespace Tables

variable {tables : Tables}

/-- A thread on top in its worker's table. -/
def IsTop (tables : Tables) (at' : ThreadAt) : Prop :=
  ∃ table, tables.get? at'.worker = some table ∧ table.IsTop at'.thread

def RowAt (tables : Tables) (at' : ThreadAt) (row : ThreadRow) : Prop :=
  ∃ table, tables.get? at'.worker = some table ∧ table.get? at'.thread = some row

/-- Thread ids are unique across workers. -/
def Unique (tables : Tables) : Prop :=
  ∀ a b row row', tables.RowAt a row → tables.RowAt b row' → a.thread = b.thread → a = b

theorem mem_rootsOf {worker : WorkerId} {table : Table} {r : Root}
    (h : r ∈ rootsOf worker table) :
    r.ranked.at'.worker = worker ∧ table.IsTop r.ranked.at'.thread ∧
      table.get? r.ranked.at'.thread = some r.row := by
  obtain ⟨⟨root, family⟩, hmem, hr⟩ := List.mem_filterMap.mp h
  obtain ⟨row, hrow, rfl⟩ := Option.map_eq_some_iff.mp hr
  have htop := (Table.get?_families.mp (OrdMap.get?_eq_some_iff.mpr hmem)).1
  exact ⟨rfl, htop, hrow⟩

theorem exists_mem_rootsOf (worker : WorkerId) {table : Table} {id : ThreadId}
    (h : table.IsTop id) : ∃ r ∈ rootsOf worker table, r.ranked.at' = ⟨worker, id⟩ := by
  obtain ⟨row, hrow⟩ := Option.isSome_iff_exists.mp (OrdMap.mem_keys.mp h.1)
  have hfamily := OrdMap.get?_eq_some_iff.mp (Table.get?_families.mpr ⟨h, rfl⟩)
  refine ⟨_, List.mem_filterMap.mpr ⟨_, hfamily, Option.map_eq_some_iff.mpr ⟨row, hrow, rfl⟩⟩, rfl⟩

theorem mem_roots_iff {r : Root} :
    r ∈ tables.roots ↔ ∃ worker table, tables.get? worker = some table ∧ r ∈ rootsOf worker table := by
  rw [roots, List.mem_insertionSort, List.mem_flatMap]
  constructor
  · rintro ⟨⟨worker, table⟩, hmem, hr⟩
    exact ⟨worker, table, OrdMap.get?_eq_some_iff.mpr hmem, hr⟩
  · rintro ⟨worker, table, hget, hr⟩
    exact ⟨(worker, table), OrdMap.get?_eq_some_iff.mp hget, hr⟩

theorem mem_roots {r : Root} (h : r ∈ tables.roots) :
    tables.IsTop r.ranked.at' ∧ tables.RowAt r.ranked.at' r.row := by
  obtain ⟨worker, table, hget, hr⟩ := mem_roots_iff.mp h
  obtain ⟨rfl, htop, hrow⟩ := mem_rootsOf hr
  exact ⟨⟨table, hget, htop⟩, ⟨table, hget, hrow⟩⟩

theorem exists_mem_roots {at' : ThreadAt} (h : tables.IsTop at') :
    ∃ r ∈ tables.roots, r.ranked.at' = at' := by
  obtain ⟨table, hget, htop⟩ := h
  obtain ⟨r, hr, hat⟩ := exists_mem_rootsOf at'.worker htop
  exact ⟨r, mem_roots_iff.mpr ⟨_, table, hget, hr⟩, hat⟩

theorem nodup_roots (tables : Tables) : (tables.roots.map fun r => r.ranked.at').Nodup := by
  have hperm := (List.perm_insertionSort (fun a b : Root => a.ranked.at' ≤ b.ranked.at')
    (tables.entries.flatMap fun e => rootsOf e.1 e.2)).map fun r => r.ranked.at'
  refine hperm.nodup_iff.mpr ?_
  rw [List.Nodup, List.pairwise_map, List.pairwise_flatMap]
  constructor
  · rintro ⟨worker, table⟩ -
    rw [rootsOf, List.pairwise_filterMap]
    refine table.families.sorted.imp ?_
    rintro ⟨root, family⟩ ⟨root', family'⟩ hlt r hr r' hr'
    obtain ⟨row, -, rfl⟩ := Option.map_eq_some_iff.mp hr
    obtain ⟨row', -, rfl⟩ := Option.map_eq_some_iff.mp hr'
    exact fun heq => hlt.ne (congrArg ThreadAt.thread heq)
  · refine tables.sorted.imp ?_
    rintro ⟨worker, table⟩ ⟨worker', table'⟩ hlt r hr r' hr'
    have hw := (mem_rootsOf hr).1
    have hw' := (mem_rootsOf hr').1
    exact fun heq => hlt.ne (hw.symm.trans ((congrArg ThreadAt.worker heq).trans hw'))

theorem root_eq {r s : Root} (hr : r ∈ tables.roots) (hs : s ∈ tables.roots)
    (h : r.ranked.at' = s.ranked.at') : r = s :=
  List.inj_on_of_nodup_map (nodup_roots tables) hr hs h

/-- A standing counts the roots of a group, each once, and no other. -/
def CountsOnly (tables : Tables) (s : Standing) (group : Root → Prop) : Prop :=
  ∃ counted : List Root, counted.Nodup ∧ (∀ r, r ∈ counted ↔ r ∈ tables.roots ∧ group r) ∧
    s = Standing.of (counted.map Root.ranked)

theorem nodup_roots_self (tables : Tables) : tables.roots.Nodup :=
  (nodup_roots tables).of_map _

section Groups

variable {κ : Type} [LinearOrder κ]

theorem rollUp_eq (key : Root → Option κ) (roots : List Root) :
    rollUp key roots = (roots.filterMap fun r => (key r).map fun k => (k, r.ranked)).foldl
      (fun groups e => addTo groups e.1 e.2) OrdMap.empty := by
  rw [List.foldl_filterMap, rollUp]
  congr 1
  funext groups r
  cases key r <;> rfl

theorem takenInto_rollUp (key : Root → Option κ) (k : κ) (roots : List Root) :
    takenInto k (roots.filterMap fun r => (key r).map fun k => (k, r.ranked)) =
      (roots.filter fun r => decide (key r = some k)).map Root.ranked := by
  induction roots with
  | nil => rfl
  | cons r roots ih =>
    rw [takenInto] at ih ⊢
    rw [List.filterMap_cons, List.filter_cons]
    cases hkey : key r with
    | none => simpa using ih
    | some j =>
      by_cases hj : j = k
      · simpa [hj] using ih
      · simpa [hj] using ih

theorem countsOnly_rollUp {key : Root → Option κ} {k : κ} {s : Standing}
    (h : (rollUp key tables.roots).get? k = some s) :
    tables.CountsOnly s fun r => key r = some k := by
  rw [rollUp_eq, get?_rollUp, takenInto_rollUp] at h
  split at h
  · exact absurd h nofun
  · refine ⟨tables.roots.filter fun r => decide (key r = some k),
      (nodup_roots_self tables).filter _, ?_, (Option.some.inj h).symm⟩
    intro r
    rw [List.mem_filter, decide_eq_true_iff]

end Groups

theorem countsOnly_fleet : tables.CountsOnly (ladder tables).fleet fun _ => True := by
  refine ⟨tables.roots, nodup_roots_self tables, ?_, ?_⟩
  · intro r
    rw [and_true]
  · rw [Standing.of, List.foldl_map]
    rfl

/-! ### Trees -/

/-- An agent on top names another one on top as the one that started it. -/
def StartedBy (tables : Tables) (child parent : ThreadId) : Prop :=
  (∃ a row, tables.IsTop a ∧ a.thread = child ∧ tables.RowAt a row ∧ parentOf row = some parent) ∧
    ∃ b, tables.IsTop b ∧ b.thread = parent

/-- The agent that started another, as the ladder walks up. -/
def startedBy (roots : List Root) (id : ThreadId) : Option ThreadId :=
  ((parents roots).get? id).filter fun parent => ((atOf roots).get? parent).isSome

theorem thread_unique (hunique : tables.Unique) {r s : Root} (hr : r ∈ tables.roots)
    (hs : s ∈ tables.roots) (h : r.ranked.at'.thread = s.ranked.at'.thread) : r = s :=
  root_eq hr hs (hunique _ _ _ _ (mem_roots hr).2 (mem_roots hs).2 h)

theorem get?_atOf (hunique : tables.Unique) {id : ThreadId} {at' : ThreadAt} :
    (atOf tables.roots).get? id = some at' ↔
      at'.thread = id ∧ ∃ r ∈ tables.roots, r.ranked.at' = at' := by
  have hfold : atOf tables.roots =
      (tables.roots.map fun r => (r.ranked.at'.thread, r.ranked.at')).foldl
        (fun m e => m.insert e.1 e.2) OrdMap.empty := by
    rw [List.foldl_map]
    rfl
  rw [hfold, OrdMap.get?_foldl_insert_eq_some]
  · constructor
    · intro h
      obtain ⟨r, hr, heq⟩ := List.mem_map.mp h
      obtain ⟨rfl, rfl⟩ := Prod.mk.inj heq
      exact ⟨rfl, r, hr, rfl⟩
    · rintro ⟨rfl, r, hr, rfl⟩
      exact List.mem_map_of_mem hr
  · intro a ha b hb hab
    obtain ⟨r, hr, rfl⟩ := List.mem_map.mp ha
    obtain ⟨s, hs, rfl⟩ := List.mem_map.mp hb
    rw [thread_unique hunique hr hs hab]

theorem get?_parents (hunique : tables.Unique) {id parent : ThreadId} :
    (parents tables.roots).get? id = some parent ↔
      ∃ r ∈ tables.roots, r.ranked.at'.thread = id ∧ parentOf r.row = some parent := by
  have hfold : parents tables.roots =
      (tables.roots.filterMap fun r => (parentOf r.row).map fun p => (r.ranked.at'.thread, p)).foldl
        (fun m e => m.insert e.1 e.2) OrdMap.empty := by
    rw [List.foldl_filterMap, parents]
    congr 1
    funext m r
    cases parentOf r.row <;> rfl
  have hmem : ∀ e, e ∈ (tables.roots.filterMap fun r =>
      (parentOf r.row).map fun p => (r.ranked.at'.thread, p)) ↔
      ∃ r ∈ tables.roots, r.ranked.at'.thread = e.1 ∧ parentOf r.row = some e.2 := by
    rintro ⟨j, p⟩
    rw [List.mem_filterMap]
    refine exists_congr fun r => and_congr_right fun _ => ?_
    rw [Option.map_eq_some_iff]
    constructor
    · rintro ⟨q, hq, heq⟩
      obtain ⟨rfl, rfl⟩ := Prod.mk.inj heq
      exact ⟨rfl, hq⟩
    · rintro ⟨rfl, hp⟩
      exact ⟨p, hp, rfl⟩
  rw [hfold, OrdMap.get?_foldl_insert_eq_some]
  · exact hmem (id, parent)
  · intro a ha b hb hab
    obtain ⟨r, hr, hra, hpa⟩ := (hmem a).mp ha
    obtain ⟨s, hs, hsb, hpb⟩ := (hmem b).mp hb
    obtain rfl := thread_unique hunique hr hs (hra.trans (hab.trans hsb.symm))
    exact Option.some.inj (hpa.symm.trans hpb)

theorem startedBy_iff (hunique : tables.Unique) {child parent : ThreadId} :
    startedBy tables.roots child = some parent ↔ tables.StartedBy child parent := by
  rw [startedBy, Option.filter_eq_some_iff, get?_parents hunique, Option.isSome_iff_exists]
  constructor
  · rintro ⟨⟨r, hr, rfl, hparent⟩, b, hb⟩
    obtain ⟨rfl, s, hs, rfl⟩ := (get?_atOf hunique).mp hb
    exact ⟨⟨_, r.row, (mem_roots hr).1, rfl, (mem_roots hr).2, hparent⟩, _, (mem_roots hs).1, rfl⟩
  · rintro ⟨⟨a, row, ha, rfl, hrow, hparent⟩, b, hb, rfl⟩
    obtain ⟨r, hr, rfl⟩ := exists_mem_roots ha
    obtain ⟨s, hs, rfl⟩ := exists_mem_roots hb
    refine ⟨⟨r, hr, rfl, ?_⟩, _, (get?_atOf hunique).mpr ⟨rfl, s, hs, rfl⟩⟩
    obtain ⟨table, htable, hget⟩ := hrow
    obtain ⟨table', htable', hget'⟩ := (mem_roots hr).2
    obtain rfl := Option.some.inj (htable.symm.trans htable')
    obtain rfl := Option.some.inj (hget.symm.trans hget')
    exact hparent

/-- An agent's walk up takes it into the tree of each agent it passes. -/
theorem climb_eq (parents : OrdMap ThreadId ThreadId) (atOf : OrdMap ThreadId ThreadAt)
    (ranked : Ranked) (n : Nat) (id : ThreadId) (trees : OrdMap ThreadAt Standing) :
    climb parents atOf ranked n id trees =
      ((passed (fun id => (parents.get? id).filter fun p => (atOf.get? p).isSome)
        ranked.at'.thread n id).filterMap fun p => (atOf.get? p).map fun k => (k, ranked)).foldl
          (fun trees e => addTo trees e.1 e.2) trees := by
  induction n generalizing id trees with
  | zero => rfl
  | succ n ih =>
    rw [climb, passed]
    cases hparent : parents.get? id with
    | none => rfl
    | some parent =>
      cases hat : atOf.get? parent with
      | none =>
        dsimp only
        rw [Option.filter_some, hat, if_neg (by decide)]
        rfl
      | some parentAt =>
        dsimp only
        rw [Option.filter_some, if_pos (by rw [hat]; rfl)]
        dsimp only
        rw [List.filterMap_cons, hat]
        dsimp only [Option.map_some]
        rw [List.foldl_cons]
        by_cases hback : parent = ranked.at'.thread
        · rw [if_pos hback, if_pos hback]
          rfl
        · rw [if_neg hback, if_neg hback, ih]

/-- The agents a root passes on its way up. -/
def walk (roots : List Root) (r : Root) : List ThreadId :=
  passed (startedBy roots) r.ranked.at'.thread roots.length r.ranked.at'.thread

/-- What is taken into trees on the way up from every root. -/
def treeAdds (roots : List Root) : List (ThreadAt × Ranked) :=
  roots.flatMap fun r =>
    (walk roots r).filterMap fun p => ((atOf roots).get? p).map fun k => (k, r.ranked)

theorem climbs_eq (roots : List Root) :
    roots.foldl
        (fun trees r =>
          climb (parents roots) (atOf roots) r.ranked roots.length r.ranked.at'.thread trees)
        OrdMap.empty =
      (treeAdds roots).foldl (fun trees e => addTo trees e.1 e.2) OrdMap.empty := by
  rw [treeAdds, List.foldl_flatMap]
  congr 1
  funext trees r
  exact climb_eq _ _ _ _ _ _

theorem get?_addTop (trees : OrdMap ThreadAt Standing) (r : Root) (k : ThreadAt) :
    (addTop trees r).get? k =
      if r.ranked.at' = k then (trees.get? k).map fun s => s.add r.ranked else trees.get? k := by
  rw [addTop]
  cases htree : trees.get? r.ranked.at' with
  | none =>
    dsimp only
    split
    · rename_i hk
      rw [← hk, htree]
      rfl
    · rfl
  | some tree =>
    dsimp only
    rw [OrdMap.get?_insert]
    split
    · rename_i hk
      rw [← hk, htree]
      rfl
    · rfl

/-- The agents at the top of trees are taken in last, each into its own. -/
theorem get?_foldl_addTop {rs : List Root} (hrs : (rs.map fun r => r.ranked.at').Nodup)
    (trees : OrdMap ThreadAt Standing) (k : ThreadAt) :
    (∀ top ∈ rs, top.ranked.at' = k →
        (rs.foldl addTop trees).get? k = (trees.get? k).map fun s => s.add top.ranked) ∧
      ((∀ r ∈ rs, r.ranked.at' ≠ k) → (rs.foldl addTop trees).get? k = trees.get? k) := by
  induction rs generalizing trees with
  | nil => exact ⟨fun _ htop => absurd htop List.not_mem_nil, fun _ => rfl⟩
  | cons r rs ih =>
    rw [List.map_cons, List.nodup_cons] at hrs
    obtain ⟨ihtop, ihrest⟩ := ih hrs.2 (addTop trees r)
    rw [List.foldl_cons]
    refine ⟨?_, ?_⟩
    · intro top htop hk
      rcases List.mem_cons.mp htop with rfl | htop
      · rw [ihrest, get?_addTop, if_pos hk]
        intro s hs heq
        exact hrs.1 (List.mem_map.mpr ⟨s, hs, heq.trans hk.symm⟩)
      · have hne : r.ranked.at' ≠ k := fun h =>
          hrs.1 (List.mem_map.mpr ⟨top, htop, hk.trans h.symm⟩)
        rw [ihtop top htop hk, get?_addTop, if_neg hne]
    · intro hk
      rw [ihrest fun s hs => hk s (List.mem_cons_of_mem _ hs), get?_addTop,
        if_neg (hk r List.mem_cons_self)]

/-- What a root's walk takes into the tree of an agent: the root, as often as it passes it. -/
theorem takenInto_walk (hunique : tables.Unique) {top : Root} (htop : top ∈ tables.roots)
    (ranked : Ranked) (walk : List ThreadId) :
    takenInto top.ranked.at' (walk.filterMap fun p =>
        ((atOf tables.roots).get? p).map fun k => (k, ranked)) =
      List.replicate (walk.count top.ranked.at'.thread) ranked := by
  have hat : ∀ p k, (atOf tables.roots).get? p = some k →
      (k = top.ranked.at' ↔ p = top.ranked.at'.thread) := by
    intro p k hk
    have htopAt := (get?_atOf hunique).mpr ⟨rfl, top, htop, rfl⟩
    constructor
    · rintro rfl
      exact ((get?_atOf hunique).mp hk).1.symm
    · rintro rfl
      exact Option.some.inj (hk.symm.trans htopAt)
  induction walk with
  | nil => rfl
  | cons p walk ih =>
    rw [List.filterMap_cons, List.count_cons]
    cases hp : (atOf tables.roots).get? p with
    | none =>
      have hne : ¬ (p == top.ranked.at'.thread) = true := by
        intro heq
        rw [eq_of_beq heq, (get?_atOf hunique).mpr ⟨rfl, top, htop, rfl⟩] at hp
        exact absurd hp nofun
      rw [if_neg hne]
      exact ih
    | some k =>
      dsimp only [Option.map_some]
      rw [← List.singleton_append, takenInto_append, takenInto_singleton, ih]
      by_cases hk : k = top.ranked.at'
      · rw [if_pos hk, if_pos (by simpa using (hat p k hp).mp hk), Nat.add_comm,
          List.replicate_add]
        rfl
      · rw [if_neg hk, if_neg (by simpa using mt (hat p k hp).mpr hk)]
        rfl

/-- The agents a tree is made of, before the one at its top, each as often as it passed it. -/
theorem takenInto_treeAdds (hunique : tables.Unique) {top : Root} (htop : top ∈ tables.roots) :
    takenInto top.ranked.at' (treeAdds tables.roots) =
      tables.roots.flatMap fun r =>
        List.replicate ((walk tables.roots r).count top.ranked.at'.thread) r.ranked := by
  rw [treeAdds, takenInto_flatMap]
  congr 1
  funext r
  exact takenInto_walk hunique htop _ _

/-- An agent is below another: the one it was started by, at any depth. -/
def Below (tables : Tables) (r top : Root) : Prop :=
  Relation.TransGen tables.StartedBy r.ranked.at'.thread top.ranked.at'.thread

def NoneBelowItself (tables : Tables) : Prop := ∀ id, ¬ Relation.TransGen tables.StartedBy id id

theorem leads_iff_startedBy (hunique : tables.Unique) {id id' : ThreadId} :
    Leads (startedBy tables.roots) id id' ↔ Relation.TransGen tables.StartedBy id id' := by
  have hstep : (fun x y => startedBy tables.roots x = some y) = tables.StartedBy := by
    funext x y
    exact propext (startedBy_iff hunique)
  rw [Leads, hstep]

theorem mem_walk_iff (hunique : tables.Unique) (r top : Root) :
    top.ranked.at'.thread ∈ walk tables.roots r ↔ tables.Below r top := by
  have hplaces : ∀ x y, startedBy tables.roots x = some y →
      y ∈ tables.roots.map fun r => r.ranked.at'.thread := by
    intro x y hxy
    obtain ⟨-, b, hb, rfl⟩ := (startedBy_iff hunique).mp hxy
    obtain ⟨s, hs, rfl⟩ := exists_mem_roots hb
    exact List.mem_map_of_mem hs
  rw [walk, mem_passed_iff_leads hplaces (List.length_map _).le, leads_iff_startedBy hunique]
  rfl

theorem mem_takenInto_iff (hunique : tables.Unique) {top : Root} (htop : top ∈ tables.roots)
    {ranked : Ranked} :
    ranked ∈ takenInto top.ranked.at' (treeAdds tables.roots) ↔
      ∃ r ∈ tables.roots, tables.Below r top ∧ r.ranked = ranked := by
  rw [takenInto_treeAdds hunique htop, List.mem_flatMap]
  refine exists_congr fun r => and_congr_right fun _ => ?_
  rw [List.mem_replicate, ← mem_walk_iff hunique, ← Nat.pos_iff_ne_zero, List.count_pos_iff,
    eq_comm (a := ranked)]

/-- A tree is where those on the way up through its agent stand together with it. -/
theorem get?_trees {top : Root} (htop : top ∈ tables.roots) :
    (ladder tables).trees.get? top.ranked.at' =
      if takenInto top.ranked.at' (treeAdds tables.roots) = [] then none
      else some (Standing.of
        (takenInto top.ranked.at' (treeAdds tables.roots) ++ [top.ranked])) := by
  show (trees tables.roots).get? _ = _
  rw [trees, climbs_eq, (get?_foldl_addTop (nodup_roots tables) _ _).1 top htop rfl, get?_rollUp]
  split
  · rfl
  · rw [Option.map_some, Standing.of, Standing.of, List.foldl_append]
    rfl

theorem get?_trees_none {k : ThreadAt} (hunique : tables.Unique)
    (hk : ∀ r ∈ tables.roots, r.ranked.at' ≠ k) : (ladder tables).trees.get? k = none := by
  show (trees tables.roots).get? _ = _
  rw [trees, climbs_eq, (get?_foldl_addTop (nodup_roots tables) _ _).2 hk, get?_rollUp, if_pos]
  rw [takenInto, List.map_eq_nil_iff, List.filter_eq_nil_iff]
  intro e he heq
  obtain ⟨r, -, he⟩ := List.mem_flatMap.mp he
  obtain ⟨p, -, he⟩ := List.mem_filterMap.mp he
  obtain ⟨j, hj, rfl⟩ := Option.map_eq_some_iff.mp he
  obtain ⟨-, s, hs, hsj⟩ := (get?_atOf hunique).mp hj
  exact hk s hs (hsj.trans (of_decide_eq_true heq))

/-- Each tree counts the agents below the one at its top and that one, each once; there is one for
every agent with another below it. -/
def TreesCount (tables : Tables) : Prop :=
  (∀ k s, (ladder tables).trees.get? k = some s → ∃ top ∈ tables.roots, top.ranked.at' = k ∧
    tables.CountsOnly s fun r => r = top ∨ tables.Below r top) ∧
  ∀ r ∈ tables.roots, ∀ top ∈ tables.roots, tables.Below r top →
    ((ladder tables).trees.get? top.ranked.at').isSome

theorem trees_isSome (hunique : tables.Unique) {r top : Root} (hr : r ∈ tables.roots)
    (htop : top ∈ tables.roots) (hbelow : tables.Below r top) :
    (ladder tables).trees.get? top.ranked.at' = some (Standing.of
      (takenInto top.ranked.at' (treeAdds tables.roots) ++ [top.ranked])) := by
  have hmem := (mem_takenInto_iff hunique htop).mpr ⟨r, hr, hbelow, rfl⟩
  rw [get?_trees htop, if_neg (List.ne_nil_of_mem hmem)]

/-- With no agent below itself, each walk passes an agent at most once. -/
theorem takenInto_eq_filter (hunique : tables.Unique) (hnone : tables.NoneBelowItself) {top : Root}
    (htop : top ∈ tables.roots) :
    takenInto top.ranked.at' (treeAdds tables.roots) =
      (tables.roots.filter fun r => decide (top.ranked.at'.thread ∈ walk tables.roots r)).map
        Root.ranked := by
  have hloop : ∀ id, ¬ Leads (startedBy tables.roots) id id := fun id hid =>
    hnone id ((leads_iff_startedBy hunique).mp hid)
  have honce : ∀ r, (walk tables.roots r).count top.ranked.at'.thread =
      if top.ranked.at'.thread ∈ walk tables.roots r then 1 else 0 := fun r =>
    (nodup_passed hloop _ _ _).count
  rw [takenInto_treeAdds hunique htop]
  simp only [honce]
  generalize walk tables.roots = way
  generalize tables.roots = rs
  induction rs with
  | nil => rfl
  | cons r rs ih =>
    rw [List.flatMap_cons, ih, List.filter_cons]
    by_cases h : top.ranked.at'.thread ∈ way r
    · rw [if_pos h, if_pos (decide_eq_true h)]
      rfl
    · rw [if_neg h, if_neg (by simpa using h)]
      rfl

theorem treesCount_of_none (hunique : tables.Unique) (hnone : tables.NoneBelowItself) :
    tables.TreesCount := by
  refine ⟨?_, ?_⟩
  · intro k s hs
    by_cases hk : ∃ top ∈ tables.roots, top.ranked.at' = k
    · obtain ⟨top, htop, rfl⟩ := hk
      refine ⟨top, htop, rfl, ?_⟩
      rw [get?_trees htop, takenInto_eq_filter hunique hnone htop] at hs
      split at hs
      · exact absurd hs nofun
      · have hbelow : ∀ r, r ∈ (tables.roots.filter fun r =>
            decide (top.ranked.at'.thread ∈ walk tables.roots r)) ↔
            r ∈ tables.roots ∧ tables.Below r top := by
          intro r
          rw [List.mem_filter, decide_eq_true_iff, mem_walk_iff hunique]
        have hnodup : (tables.roots.filter fun r =>
            decide (top.ranked.at'.thread ∈ walk tables.roots r)).Nodup :=
          (nodup_roots_self tables).filter _
        generalize (tables.roots.filter fun r =>
          decide (top.ranked.at'.thread ∈ walk tables.roots r)) = below at hs hbelow hnodup
        refine ⟨below ++ [top], ?_, ?_, ?_⟩
        · rw [List.nodup_append]
          refine ⟨hnodup, List.nodup_singleton _, ?_⟩
          intro r hr r' hr' heq
          rw [List.mem_singleton.mp hr'] at heq
          subst heq
          exact hnone _ ((hbelow r).mp hr).2
        · intro r
          rw [List.mem_append, hbelow, List.mem_singleton]
          constructor
          · rintro (⟨hr, hlow⟩ | rfl)
            · exact ⟨hr, Or.inr hlow⟩
            · exact ⟨htop, Or.inl rfl⟩
          · rintro ⟨hr, rfl | hlow⟩
            · exact Or.inr rfl
            · exact Or.inl ⟨hr, hlow⟩
        · rw [← Option.some.inj hs, List.map_append]
          rfl
    · rw [get?_trees_none hunique fun r hr heq => hk ⟨r, hr, heq⟩] at hs
      exact absurd hs nofun
  · intro r hr top htop hbelow
    rw [trees_isSome hunique hr htop hbelow]
    rfl

/-- An agent below itself is counted twice in its own tree, where the counters do not stop. -/
theorem none_of_treesCount (hunique : tables.Unique) (hfits : tables.roots.length < u32Max)
    (h : tables.TreesCount) : tables.NoneBelowItself := by
  intro id hid
  obtain ⟨a, ha, rfl⟩ : ∃ a, tables.IsTop a ∧ a.thread = id := by
    obtain ⟨id', -, hlast⟩ := Relation.TransGen.tail'_iff.mp hid
    exact hlast.2
  obtain ⟨top, htop, rfl⟩ := exists_mem_roots ha
  have hself : tables.Below top top := hid
  have htree := trees_isSome hunique htop htop hself
  obtain ⟨top', htop', hat, counted, hnodup, hmem, hcounts⟩ := h.1 _ _ htree
  obtain rfl := root_eq htop' htop hat
  generalize hinto : takenInto top'.ranked.at' (treeAdds tables.roots) = into at htree hcounts
  -- All that counts is among those taken in on the way up, the agent itself too.
  have hsub : (counted.map Root.ranked).Subperm into := by
    have hranked : (counted.map Root.ranked).Nodup := by
      refine hnodup.map_on ?_
      intro r hr s hs heq
      exact root_eq ((hmem r).mp hr).1 ((hmem s).mp hs).1 (congrArg Ranked.at' heq)
    refine List.subperm_of_subset hranked ?_
    intro ranked hranked
    obtain ⟨r, hr, rfl⟩ := List.mem_map.mp hranked
    obtain ⟨hroot, hgroup⟩ := (hmem r).mp hr
    rw [← hinto, mem_takenInto_iff hunique htop]
    rcases hgroup with rfl | hbelow
    · exact ⟨r, hroot, hself, rfl⟩
    · exact ⟨r, hroot, hbelow, rfl⟩
  have hlong : counted.length ≤ tables.roots.length :=
    (List.subperm_of_subset hnodup fun r hr => ((hmem r).mp hr).1).length_le
  have hon := congrArg (fun s => s.counts.on top'.ranked.rung) hcounts
  simp only [Standing.counts_of, List.countP_append, List.countP_singleton] at hon
  have hle := hsub.countP_le fun r => decide (r.rung = top'.ranked.rung)
  have hlt := List.countP_le_length (p := fun r => decide (r.rung = top'.ranked.rung))
    (l := counted.map Root.ranked)
  rw [List.length_map] at hlt
  simp only [decide_true, if_true] at hon
  omega

structure CountsOnce (tables : Tables) : Prop where
  families : ∀ worker table, tables.get? worker = some table → table.Apart
  rootOf : ∀ worker table, tables.get? worker = some table → ∀ row root, table.get? root = some row →
    (table.families.get? root).isSome → table.rootOf row = root
  /-- The roots are the families' own threads, no thread twice. -/
  roots : (tables.roots.map fun r => r.ranked.at').Nodup ∧
    ∀ at', at' ∈ (tables.roots.map fun r => r.ranked.at') ↔
      ∃ table, tables.get? at'.worker = some table ∧ (table.families.get? at'.thread).isSome
  fleet : tables.CountsOnly (ladder tables).fleet fun _ => True
  workers : ∀ worker s, (ladder tables).workers.get? worker = some s →
    tables.CountsOnly s fun r => r.ranked.at'.worker = worker
  tiles : ∀ worker session s, (ladder tables).tiles.get? (toLex (worker, session)) = some s →
    tables.CountsOnly s fun r => r.ranked.at'.worker = worker ∧ seatOf r.row = some session
  spaces : ∀ worker folder s, (ladder tables).spaces.get? (toLex (worker, folder)) = some s →
    tables.CountsOnly s fun r => r.ranked.at'.worker = worker ∧ folderOf r.row = some folder
  trees : tables.TreesCount

theorem CountsOnly.imp {s : Standing} {group group' : Root → Prop} (h : tables.CountsOnly s group)
    (hgroup : ∀ r, group r ↔ group' r) : tables.CountsOnly s group' := by
  obtain ⟨counted, hnodup, hmem, hs⟩ := h
  refine ⟨counted, hnodup, ?_, hs⟩
  intro r
  rw [hmem, hgroup]

theorem mem_rootAts {at' : ThreadAt} :
    at' ∈ (tables.roots.map fun r => r.ranked.at') ↔
      ∃ table, tables.get? at'.worker = some table ∧ (table.families.get? at'.thread).isSome := by
  constructor
  · intro h
    obtain ⟨r, hr, rfl⟩ := List.mem_map.mp h
    obtain ⟨table, hget, htop⟩ := (mem_roots hr).1
    refine ⟨table, hget, ?_⟩
    rw [Table.get?_families.mpr ⟨htop, rfl⟩]
    rfl
  · rintro ⟨table, hget, hsome⟩
    obtain ⟨family, hfamily⟩ := Option.isSome_iff_exists.mp hsome
    obtain ⟨r, hr, hat⟩ := exists_mem_roots ⟨table, hget, (Table.get?_families.mp hfamily).1⟩
    exact List.mem_map.mpr ⟨r, hr, hat⟩

theorem countsOnly_field {β : Type} [LinearOrder β] (field : ThreadRow → Option β)
    {worker : WorkerId} {b : β} {s : Standing}
    (h : (rollUp (fun r => (field r.row).map fun b => toLex (r.ranked.at'.worker, b))
      tables.roots).get? (toLex (worker, b)) = some s) :
    tables.CountsOnly s fun r => r.ranked.at'.worker = worker ∧ field r.row = some b := by
  refine (countsOnly_rollUp h).imp fun r => ?_
  rw [Option.map_eq_some_iff]
  constructor
  · rintro ⟨c, hc, heq⟩
    obtain ⟨rfl, rfl⟩ := Prod.mk.inj (toLex.injective heq)
    exact ⟨rfl, hc⟩
  · rintro ⟨rfl, hb⟩
    exact ⟨b, hb, rfl⟩

theorem countsOnce_of (hunique : tables.Unique)
    (hloops : ∀ worker table, tables.get? worker = some table → table.LoopsFit)
    (hnone : tables.NoneBelowItself) : tables.CountsOnce where
  families worker table hget := Table.apart_iff.mpr (hloops worker table hget)
  rootOf := by
    intro worker table hget row root hrow hsome
    obtain ⟨family, hfamily⟩ := Option.isSome_iff_exists.mp hsome
    have hid : row.id = root := table.keyed root row hrow
    have hmem : row ∈ table.values := Table.mem_values.mpr (hid ▸ hrow)
    rw [← hid] at hfamily ⊢
    exact Table.loopsFit_iff.mp (hloops worker table hget) row hmem (Table.get?_families.mp hfamily).1
  roots := ⟨nodup_roots tables, fun _ => mem_rootAts⟩
  fleet := countsOnly_fleet
  workers := by
    intro worker s hs
    refine (countsOnly_rollUp hs).imp fun r => ?_
    rw [Option.some_inj]
  tiles _ _ _ hs := countsOnly_field seatOf hs
  spaces _ _ _ hs := countsOnly_field folderOf hs
  trees := treesCount_of_none hunique hnone

/-- The ladder counts every thread once if, and while the counters do not stop only if, the number
of rows of each table is a multiple of the length of each loop of parents in it and no agent is,
through the agents that started them, below itself. -/
theorem ladder_counts_once (tables : Tables) (hunique : tables.Unique) :
    ((∀ worker table, tables.get? worker = some table → table.LoopsFit) ∧ tables.NoneBelowItself →
      tables.CountsOnce) ∧
    (tables.roots.length < u32Max → tables.CountsOnce →
      (∀ worker table, tables.get? worker = some table → table.LoopsFit) ∧
        tables.NoneBelowItself) := by
  refine ⟨fun h => countsOnce_of hunique h.1 h.2, ?_⟩
  intro hfits h
  refine ⟨?_, none_of_treesCount hunique hfits h.trees⟩
  intro worker table hget
  exact Table.apart_iff.mp (h.families worker table hget)

theorem unique_of_pairwise
    (h : tables.entries.Pairwise fun e e' => ∀ id ∈ e.2.rows.keys, id ∉ e'.2.rows.keys) :
    tables.Unique := by
  rintro ⟨w, id⟩ ⟨w', id'⟩ row row' ⟨t, ht, hrow⟩ ⟨t', ht', hrow'⟩ (rfl : id = id')
  have hkey : id ∈ t.rows.keys := OrdMap.mem_keys.mpr (Option.isSome_iff_exists.mpr ⟨row, hrow⟩)
  have hkey' : id ∈ t'.rows.keys := OrdMap.mem_keys.mpr (Option.isSome_iff_exists.mpr ⟨row', hrow'⟩)
  have hsymm : Std.Symm fun e e' : WorkerId × Table =>
    ∀ id ∈ e.2.rows.keys, id ∉ e'.2.rows.keys := ⟨fun _ _ hee id hid hid' => hee id hid' hid⟩
  by_contra hne
  refine h.forall (OrdMap.get?_eq_some_iff.mp ht) (OrdMap.get?_eq_some_iff.mp ht') ?_ id hkey hkey'
  intro heq
  obtain ⟨hw, -⟩ := Prod.mk.inj heq
  exact hne (congrArg (fun w => (⟨w, id⟩ : ThreadAt)) hw)

def agent (id : ThreadId) (parentFact : Option ThreadId) : ThreadRow :=
  { id := id, phase := .working, sinceMs := id, parentFact := parentFact }

def subagent (id parent : ThreadId) : ThreadRow :=
  { id := id, phase := .working, sinceMs := id, parent := some { thread := parent, item := "" } }

/-- One worker with an agent, its subagent and two that hang from each other, another with an agent
the first one started. -/
def twoWorkers : Tables :=
  (OrdMap.empty.insert 1
    (Table.empty.take (.snapshot [agent 1 none, subagent 2 1, subagent 3 4, subagent 4 3]))).insert 2
    (Table.empty.take (.snapshot [agent 5 (some 1)]))

theorem twoWorkers_unique : twoWorkers.Unique := unique_of_pairwise (by decide +kernel)

theorem twoWorkers_loopsFit :
    ∀ worker table, twoWorkers.get? worker = some table → table.LoopsFit := by
  have hone : ∀ e ∈ twoWorkers.entries, ∀ id ∈ e.2.rows.keys,
      e.2.hang^[e.2.len] id = id ∨ e.2.hang id ≠ id ∧ e.2.hang (e.2.hang id) = e.2.hang id := by
    decide +kernel
  intro worker table hget id hid hloop
  rcases hone _ (OrdMap.get?_eq_some_iff.mp hget) id hid with hself | ⟨hne, hfixed⟩
  · exact Function.IsPeriodicPt.minimalPeriod_dvd hself
  · -- A subagent of a thread that hangs from no other is on no loop.
    obtain ⟨n, hn, hback⟩ := Function.mem_periodicPts.mp hloop
    obtain ⟨m, rfl⟩ := Nat.exists_eq_succ_of_ne_zero hn.ne'
    have hup : table.hang^[m + 1] id = table.hang id := by
      rw [Function.iterate_succ_apply, Function.iterate_fixed hfixed]
    exact absurd (hup.symm.trans hback) hne

theorem twoWorkers_none : twoWorkers.NoneBelowItself := by
  have hparents : parents twoWorkers.roots = OrdMap.empty.insert 5 1 := by decide +kernel
  have hstep : ∀ x y, startedBy twoWorkers.roots x = some y → x = 5 ∧ y = 1 := by
    intro x y hxy
    rw [startedBy, hparents, OrdMap.get?_insert, Option.filter_eq_some_iff] at hxy
    by_cases hx : 5 = x
    · rw [if_pos hx] at hxy
      exact ⟨hx.symm, (Option.some.inj hxy.1).symm⟩
    · rw [if_neg hx] at hxy
      exact absurd hxy.1 nofun
  intro id hid
  rw [← leads_iff_startedBy twoWorkers_unique] at hid
  obtain ⟨x, hx, -⟩ := Relation.TransGen.head'_iff.mp hid
  obtain ⟨y, -, hy⟩ := Relation.TransGen.tail'_iff.mp hid
  exact absurd ((hstep _ _ hx).1.symm.trans (hstep _ _ hy).2) (by decide)

theorem ladder_counts_once_twoWorkers :
    twoWorkers.Unique ∧ ((ladder twoWorkers).trees.get? ⟨1, 1⟩).isSome ∧ twoWorkers.CountsOnce :=
  ⟨twoWorkers_unique, by decide +kernel,
    (ladder_counts_once twoWorkers twoWorkers_unique).1 ⟨twoWorkers_loopsFit, twoWorkers_none⟩⟩

/-- Two threads that hang from each other, and a third row. -/
def oddLoop : Tables :=
  OrdMap.empty.insert 1
    (Table.empty.take (.snapshot [subagent 1 2, subagent 2 1, agent 3 none]))

def startedEachOther : Tables :=
  OrdMap.empty.insert 1
    (Table.empty.take (.snapshot [agent 4 (some 5), agent 5 (some 4), agent 6 (some 4)]))

/-- Each of the two that hang from each other is a family's root and the other's subagent; the two
agents that started each other count themselves twice, and one of them the third twice. -/
theorem loops_are_counted_twice :
    oddLoop.Unique ∧ ¬ oddLoop.CountsOnce ∧
      startedEachOther.Unique ∧ ¬ startedEachOther.CountsOnce ∧
      ((ladder startedEachOther).trees.entries.map fun e => (e.1.thread, e.2.counts.working)) =
        [(4, 5), (5, 4)] := by
  have hunique : startedEachOther.Unique := unique_of_pairwise (by decide +kernel)
  refine ⟨unique_of_pairwise (by decide +kernel), ?_, hunique, ?_, by decide +kernel⟩
  · intro h
    have hget : oddLoop.get? 1 =
        some (Table.empty.take (.snapshot [subagent 1 2, subagent 2 1, agent 3 none])) := by
      rw [oddLoop, OrdMap.get?_insert, if_pos rfl]
    generalize htable : Table.empty.take _ = table at hget
    have hrow : table.get? 1 = some (subagent 1 2) := htable ▸ by decide +kernel
    have hsome : (table.families.get? 1).isSome := htable ▸ by decide +kernel
    have hroot : table.rootOf (subagent 1 2) = 2 := htable ▸ by decide +kernel
    exact absurd (hroot.symm.trans (h.rootOf 1 table hget _ 1 hrow hsome)) (by decide)
  · intro h
    refine none_of_treesCount hunique (by decide +kernel) h.trees 4 ?_
    rw [← leads_iff_startedBy hunique]
    have hup : startedBy startedEachOther.roots 4 = some 5 := by decide +kernel
    have hback : startedBy startedEachOther.roots 5 = some 4 := by decide +kernel
    exact Relation.TransGen.tail (Relation.TransGen.single hup) hback

end Tables

end Slopty.Hub
