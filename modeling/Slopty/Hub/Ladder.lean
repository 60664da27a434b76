import Mathlib.Data.List.MinMax
import Mathlib.Data.List.Sort
import Slopty.Hub.Standing

/-!
The fleet's attention ladder. Each worker publishes the rows of its threads; a subagent folds into
the thread it hangs from, and the rest roll up per tile, worker, agent tree, space and the fleet.
-/

namespace Slopty.Hub

open Slopty.Lib
open Slopty.Thread (ThreadId TurnId WallMs Phase Link)

structure ThreadRow where
  id : ThreadId
  phase : Phase
  sinceMs : WallMs
  /-- For a subagent: where it hangs. -/
  parent : Option Link := none
  /-- The seat its facts name. -/
  seatFact : Option SessionId := none
  /-- The agent its facts name as the one that started it. -/
  parentFact : Option ThreadId := none
  repo : Option String := none
  cwd : Option String := none
  /-- The last turn the person has seen. -/
  seen : TurnId := 0
  deriving DecidableEq, Repr

def seatOf (row : ThreadRow) : Option SessionId := row.seatFact

def parentOf (row : ThreadRow) : Option ThreadId := row.parentFact

/-- The rows a worker published, by thread. -/
structure Table where
  rows : OrdMap ThreadId ThreadRow
  keyed : ∀ id row, rows.get? id = some row → row.id = id

inductive TableFrame where
  | snapshot (rows : List ThreadRow)
  | delta (rows : List ThreadRow) (removed : List ThreadId)

namespace Table

def empty : Table := ⟨OrdMap.empty, nofun⟩

def put (t : Table) (row : ThreadRow) : Table :=
  ⟨t.rows.insert row.id row, by
    intro id r h
    rw [OrdMap.get?_insert] at h
    split at h
    · rename_i hid
      exact Option.some.inj h ▸ hid
    · exact t.keyed id r h⟩

def remove (t : Table) (id : ThreadId) : Table :=
  ⟨t.rows.erase id, by
    intro j r h
    rw [OrdMap.get?_erase] at h
    split at h
    · exact absurd h nofun
    · exact t.keyed j r h⟩

/-- Take in a worker's frame. A snapshot replaces what it published before. -/
def take (t : Table) : TableFrame → Table
  | .snapshot rows => rows.foldl put empty
  | .delta rows removed => rows.foldl put (removed.foldl remove t)

def get? (t : Table) (id : ThreadId) : Option ThreadRow := t.rows.get? id

def containsKey (t : Table) (id : ThreadId) : Bool := (t.get? id).isSome

def len (t : Table) : Nat := t.rows.size

def values (t : Table) : List ThreadRow := t.rows.values

/-- The thread of the table another hangs from. -/
def parentThere (t : Table) (id : ThreadId) : Option ThreadId :=
  (((t.get? id).bind ThreadRow.parent).map Link.thread).filter t.containsKey

/-- So many parents up, or to where there is none. -/
def climbTo (t : Table) : Nat → ThreadId → ThreadId
  | 0, at' => at'
  | n + 1, at' =>
      match t.parentThere at' with
      | some parent => t.climbTo n parent
      | none => at'

/-- The thread a row hangs from, through every parent there; itself when none. -/
def rootOf (t : Table) (row : ThreadRow) : ThreadId := t.climbTo t.len row.id

def intoFamily (t : Table) (families : OrdMap ThreadId (List ThreadRow)) (row : ThreadRow) :
    OrdMap ThreadId (List ThreadRow) :=
  let root := t.rootOf row
  let family := (families.get? root).getD []
  families.insert root (if root ≠ row.id then family ++ [row] else family)

/-- Every thread that hangs from no other, with its subagents. -/
def families (t : Table) : OrdMap ThreadId (List ThreadRow) :=
  t.values.foldl t.intoFamily OrdMap.empty

end Table

/-- Where a family stands together, and the row that puts it there: the root's own when it stands
highest, else the subagent there longest. -/
def source (root : ThreadRow) (family : List ThreadRow) : Rung × ThreadRow :=
  let busy := (root :: family).any fun r =>
    decide (Rung.ofPhase r.phase = .working ∨ Rung.ofPhase r.phase = .waiting)
  let rung := fun row : ThreadRow =>
    -- A subagent that failed reads as working while anyone in the family is at work.
    if Rung.ofPhase row.phase = .failed ∧ busy = true ∧ row.id ≠ root.id then .working
    else Rung.ofPhase row.phase
  let top := (family.map rung).foldl max (rung root)
  if rung root = top then (top, root)
  else
    (top, ((family.filter fun r => decide (rung r = top)).argmin fun r =>
      toLex (r.sinceMs, r.id)).getD root)

/-- A thread that hangs from no other, standing as high as its subagents. -/
structure Root where
  ranked : Ranked
  row : ThreadRow
  deriving DecidableEq

abbrev Tables := OrdMap WorkerId Table

namespace Tables

/-- A worker's threads that hang from no other. -/
def rootsOf (worker : WorkerId) (table : Table) : List Root :=
  table.families.entries.filterMap fun e =>
    (table.get? e.1).map fun row =>
      let (rung, from') := source row e.2
      { ranked := { at' := ⟨worker, e.1⟩, rung := rung, sinceMs := from'.sinceMs }, row := row }

/-- Every worker's threads that hang from no other, by worker and thread. -/
def roots (tables : Tables) : List Root :=
  (tables.entries.flatMap fun e => rootsOf e.1 e.2).insertionSort fun a b =>
    a.ranked.at' ≤ b.ranked.at'

def rollUp {κ : Type} [LinearOrder κ] (key : Root → Option κ) (roots : List Root) :
    OrdMap κ Standing :=
  roots.foldl
    (fun groups r =>
      match key r with
      | some k => addTo groups k r.ranked
      | none => groups)
    OrdMap.empty

/-- Take a root into the trees of the agents above it. -/
def climb (parents : OrdMap ThreadId ThreadId) (atOf : OrdMap ThreadId ThreadAt) (ranked : Ranked) :
    Nat → ThreadId → OrdMap ThreadAt Standing → OrdMap ThreadAt Standing
  | 0, _, trees => trees
  | n + 1, at', trees =>
      match parents.get? at' with
      | none => trees
      | some parent =>
          match atOf.get? parent with
          | none => trees
          | some parentAt =>
              let trees := addTo trees parentAt ranked
              if parent = ranked.at'.thread then trees
              else climb parents atOf ranked n parent trees

def atOf (roots : List Root) : OrdMap ThreadId ThreadAt :=
  roots.foldl (fun m r => m.insert r.ranked.at'.thread r.ranked.at') OrdMap.empty

def parents (roots : List Root) : OrdMap ThreadId ThreadId :=
  roots.foldl
    (fun m r =>
      match parentOf r.row with
      | some parent => m.insert r.ranked.at'.thread parent
      | none => m)
    OrdMap.empty

/-- A tree holds the agent at its top too. -/
def addTop (trees : OrdMap ThreadAt Standing) (r : Root) : OrdMap ThreadAt Standing :=
  match trees.get? r.ranked.at' with
  | some tree => trees.insert r.ranked.at' (tree.add r.ranked)
  | none => trees

/-- Each agent's tree, by the parent its row names across workers. -/
def trees (roots : List Root) : OrdMap ThreadAt Standing :=
  let below := roots.foldl
    (fun trees r =>
      climb (parents roots) (atOf roots) r.ranked roots.length r.ranked.at'.thread trees)
    OrdMap.empty
  roots.foldl addTop below

def folderOf (row : ThreadRow) : Option String := row.repo.or row.cwd

end Tables

structure Ladder where
  threads : List Ranked
  tiles : OrdMap (WorkerId ×ₗ SessionId) Standing
  workers : OrdMap WorkerId Standing
  trees : OrdMap ThreadAt Standing
  spaces : OrdMap (WorkerId ×ₗ String) Standing
  fleet : Standing

def ladder (tables : Tables) : Ladder :=
  let roots := tables.roots
  { threads := roots.map Root.ranked
    tiles := Tables.rollUp
      (fun r => (seatOf r.row).map fun session => toLex (r.ranked.at'.worker, session)) roots
    workers := Tables.rollUp (fun r => some r.ranked.at'.worker) roots
    trees := Tables.trees roots
    spaces := Tables.rollUp
      (fun r => (Tables.folderOf r.row).map fun folder => toLex (r.ranked.at'.worker, folder)) roots
    fleet := roots.foldl (fun fleet r => fleet.add r.ranked) {} }

end Slopty.Hub
