import Slopty.Lib.OrdMap
import Slopty.Lib.Text

/-!
The item registry: what a worker has for its clients to show, the proposals that
change it, and the copy of it a client keeps.
-/

namespace Slopty.Items

open Slopty.Lib

abbrev ItemId := Nat

abbrev SessionId := Nat

abbrev ClientId := Nat

inductive ItemKind where
  | terminal (session : SessionId)
  | window (window : Nat)
  | display (display : Nat)
  deriving DecidableEq, Repr

def nameMax : Nat := 128

def factKeyMax : Nat := 64

def factValueMax : Nat := 1024

def factsMax : Nat := 32

structure Item where
  id : ItemId
  kind : ItemKind
  name : Option Text
  facts : OrdMap Text Text
  deriving DecidableEq

def factFits (key value : Text) : Bool :=
  let keyFits := decide (1 ≤ key.length ∧ key.length ≤ factKeyMax) &&
    !(key.any fun c => isWhitespace c || isControl c)
  let valueFits := !(value.trim).isEmpty && decide (value.utf8Len ≤ factValueMax) &&
    !(value.any isControl)
  keyFits && valueFits

/-- A proposed change, carrying only what it changes. -/
inductive ItemOp where
  | add (item : Item)
  | remove (id : ItemId)
  | rename (id : ItemId) (name : Option Text)
  | setFact (id : ItemId) (key : Text) (value : Option Text)
  deriving DecidableEq

def ItemOp.id : ItemOp → ItemId
  | .add item => item.id
  | .remove id => id
  | .rename id _ => id
  | .setFact id _ _ => id

inductive Refused where
  | notAnEdit
  | factBounds
  deriving DecidableEq, Repr

def Refused.text : Refused → String
  | .notAnEdit => "adds and removes act on the registry, not on an item"
  | .factBounds => "a fact out of bounds"

namespace Item

/-- The item takes another fact of this key. -/
def room (item : Item) (key : Text) : Bool :=
  (item.facts.get? key).isSome || decide (item.facts.size < factsMax)

/-- An edit of one item, and whether it changed anything. -/
def apply (item : Item) : ItemOp → Except Refused (Item × Bool)
  | .add _ => .error .notAnEdit
  | .remove _ => .error .notAnEdit
  | .rename _ name => .ok ({ item with name := name }, decide (item.name ≠ name))
  | .setFact _ key none =>
      .ok ({ item with facts := item.facts.erase key }, (item.facts.get? key).isSome)
  | .setFact _ key (some value) =>
      if !factFits key value || !item.room key then .error .factBounds
      else
        .ok ({ item with facts := item.facts.insert key value },
          decide (item.facts.get? key ≠ some value))

end Item

/-- Every item, on connect and after a gap. -/
structure Snapshot where
  version : Nat
  items : List Item
  deriving DecidableEq

/-- One applied op, with the version after it. -/
structure Delta where
  version : Nat
  by' : ClientId
  op : ItemOp
  deriving DecidableEq

inductive ItemSync where
  | snapshot (s : Snapshot)
  | delta (d : Delta)
  deriving DecidableEq

inductive WorkerError where
  | items (text : String)
  | noSuchItem
  deriving DecidableEq, Repr

/-- The authoritative items, by id. -/
structure Registry where
  version : Nat
  items : OrdMap ItemId Item

def cleanName (name : Option Text) : Except WorkerError (Option Text) :=
  let name := (name.map Text.trim).filter fun n => !n.isEmpty
  if name.any fun n => decide (nameMax < n.length) then .error (.items "name too long")
  else .ok name

/-- An item's facts as they are added, trimmed, blank values dropped. -/
def cleanFacts (facts : OrdMap Text Text) : Except WorkerError (OrdMap Text Text) :=
  let facts := ((facts.entries.map fun f => (f.1.trim, f.2.trim)).filter fun f =>
    !f.2.isEmpty).foldl (fun m f => m.insert f.1 f.2) OrdMap.empty
  if decide (factsMax < facts.size) || facts.entries.any fun f => !factFits f.1 f.2 then
    .error (.items "facts out of bounds")
  else .ok facts

def sanitize : ItemOp → Except WorkerError ItemOp
  | .add item => do
      let name ← cleanName item.name
      let facts ← cleanFacts item.facts
      return .add { item with name := name, facts := facts }
  | .setFact id key value =>
      let value := (value.map Text.trim).filter fun v => !v.isEmpty
      if value.any fun v => !factFits key.trim v then .error (.items "fact out of bounds")
      else .ok (.setFact id key.trim value)
  | .rename id name => do
      let name ← cleanName name
      return .rename id name
  | .remove id => .ok (.remove id)

namespace Registry

def editIn (items : OrdMap ItemId Item) (op : ItemOp) : Except WorkerError (OrdMap ItemId Item) :=
  match items.get? op.id with
  | none => .error .noSuchItem
  | some item =>
      match item.apply op with
      | .ok (edited, _) => .ok (items.insert op.id edited)
      | .error e => .error (.items e.text)

def applyIn (items : OrdMap ItemId Item) : ItemOp → Except WorkerError (OrdMap ItemId Item)
  | .add item =>
      if (items.get? item.id).isSome then .error (.items "item exists")
      else .ok (items.insert item.id item)
  | .remove id =>
      match items.get? id with
      | none => .error .noSuchItem
      | some _ => .ok (items.erase id)
  | op => editIn items op

def snapshot (r : Registry) : Snapshot := ⟨r.version, r.items.values⟩

/-- Validate and apply a client's proposal, giving the delta to broadcast. -/
def apply (r : Registry) (op : ItemOp) (by' : ClientId) :
    Except WorkerError (Registry × Delta) := do
  let op ← sanitize op
  let items ← applyIn r.items op
  return (⟨r.version + 1, items⟩, ⟨r.version + 1, by', op⟩)

def shows (session : SessionId) (item : Item) : Bool := decide (item.kind = .terminal session)

/-- Give a session a terminal item, under a new id, if it has none. -/
def ensureTerminal (r : Registry) (session : SessionId) (by' : ClientId) (id : ItemId) :
    Option (Registry × Delta) :=
  if r.items.values.any (shows session) then none
  else
    let item : Item := ⟨id, .terminal session, none, OrdMap.empty⟩
    some (⟨r.version + 1, r.items.insert id item⟩, ⟨r.version + 1, by', .add item⟩)

def removeSession (r : Registry) (session : SessionId) (by' : ClientId) :
    Registry × List Delta :=
  ((r.items.values.filter (shows session)).map Item.id).foldl
    (fun (rd : Registry × List Delta) id =>
      (⟨rd.1.version + 1, rd.1.items.erase id⟩,
        rd.2 ++ [⟨rd.1.version + 1, by', .remove id⟩]))
    (r, [])

end Registry

structure ItemDoc where
  version : Nat := 0
  items : OrdMap ItemId Item := OrdMap.empty

inductive ItemChange where
  | reset
  | added (id : ItemId) (byMe : Bool)
  | changed (id : ItemId)
  | removed (id : ItemId)
  | echo
  deriving DecidableEq, Repr

namespace ItemDoc

def edit (items : OrdMap ItemId Item) (op : ItemOp) : OrdMap ItemId Item × ItemChange :=
  match items.get? op.id with
  | none => (items, .echo)
  | some item =>
      match item.apply op with
      | .ok (edited, changed) =>
          (items.insert op.id edited, if changed then .changed op.id else .echo)
      | .error _ => (items, .echo)

/-- An op applied locally: the client's own as it proposes it, or a delta. -/
def applyOp (items : OrdMap ItemId Item) (op : ItemOp) (byMe : Bool) :
    OrdMap ItemId Item × ItemChange :=
  match op with
  | .add item =>
      (items.insert item.id item,
        match items.get? item.id with
        | some old => if old = item then .echo else .changed item.id
        | none => .added item.id byMe)
  | .remove id =>
      (items.erase id, if (items.get? id).isSome then .removed id else .echo)
  | .rename id name => edit items (.rename id name)
  | .setFact id key value => edit items (.setFact id key value)

/-- A sync from the worker; `me` is this client, to tell its echoes. -/
def applySync (d : ItemDoc) (me : ClientId) : ItemSync → ItemDoc × ItemChange
  | .snapshot s =>
      (⟨s.version, s.items.foldl (fun m i => m.insert i.id i) OrdMap.empty⟩, .reset)
  | .delta ⟨version, by', op⟩ =>
      if by' = me ∧ (d.items.get? op.id).isSome then
        let (items, change) := applyOp d.items op true
        (⟨version, items⟩, change)
      else
        let (items, change) := applyOp d.items op (decide (by' = me))
        (⟨version, items⟩, change)

end ItemDoc

end Slopty.Items
