import Slopty.Items.Registry

/-!
Two copies of the items that agree but for some cells. Every op writes one cell: a whole
item, its name, or one of its facts. Applied to one copy, an op adds its cell to where the
copies may differ; applied to both, it takes its cell away.
-/

namespace Slopty.Items

open Slopty.Lib

inductive Cell where
  | item (id : ItemId)
  | name (id : ItemId)
  | fact (id : ItemId) (key : Text)
  deriving DecidableEq

def Cell.id : Cell → ItemId
  | .item id => id
  | .name id => id
  | .fact id _ => id

def ItemOp.cell : ItemOp → Cell
  | .add item => .item item.id
  | .remove id => .item id
  | .rename id _ => .name id
  | .setFact id key _ => .fact id key.trim

@[simp] theorem ItemOp.cell_id (op : ItemOp) : op.cell.id = op.id := by cases op <;> rfl

theorem mem_of_other {op : ItemOp} {U : List Cell} {x : Cell} (h : x ∈ op.cell :: U)
    (hne : op.id ≠ x.id) : x ∈ U := by
  rcases List.mem_cons.mp h with rfl | hmem
  · exact absurd (ItemOp.cell_id op).symm hne
  · exact hmem

def Item.edited (op : ItemOp) (item : Item) : Item :=
  match item.apply op with
  | .ok (edited, _) => edited
  | .error _ => item

structure Item.AgreeBut (U : List Cell) (id : ItemId) (a b : Item) : Prop where
  sameId : a.id = b.id
  kind : a.kind = b.kind
  name : a.name = b.name ∨ .name id ∈ U
  facts : ∀ key, a.facts.get? key = b.facts.get? key ∨ .fact id key ∈ U

def AgreeBut (U : List Cell) (d e : OrdMap ItemId Item) : Prop :=
  ∀ id, .item id ∈ U ∨ Option.Rel (Item.AgreeBut U id) (d.get? id) (e.get? id)

/-- An item under its own id, with the keys of its facts trimmed. -/
structure Item.Tidy (id : ItemId) (item : Item) : Prop where
  keyed : item.id = id
  trimmed : ∀ key, key.trim ≠ key → item.facts.get? key = none

def Tidy (items : OrdMap ItemId Item) : Prop :=
  ∀ id item, items.get? id = some item → item.Tidy id

namespace Item

theorem AgreeBut.mono {U V : List Cell} {id : ItemId} {a b : Item} (hsub : U ⊆ V)
    (h : AgreeBut U id a b) : AgreeBut V id a b :=
  ⟨h.sameId, h.kind, h.name.imp_right (@hsub _), fun key => (h.facts key).imp_right (@hsub _)⟩

theorem AgreeBut.refl (U : List Cell) (id : ItemId) (a : Item) : AgreeBut U id a a :=
  ⟨rfl, rfl, Or.inl rfl, fun _ => Or.inl rfl⟩

theorem edited_forget (id : ItemId) (key : Text) (item : Item) :
    item.edited (.setFact id key none) = { item with facts := item.facts.erase key } := rfl

theorem edited_setFact (id : ItemId) (key value : Text) (item : Item) :
    item.edited (.setFact id key (some value)) =
      if factFits key value ∧ item.room key then
        { item with facts := item.facts.insert key value }
      else item := by
  simp only [edited, apply]
  by_cases h : factFits key value ∧ item.room key
  · simp [h.1, h.2]
  · rw [if_neg h]
    have hrefused : (!factFits key value || !item.room key) = true := by
      rw [Bool.or_eq_true, Bool.not_eq_true', Bool.not_eq_true']
      by_contra hno
      rw [not_or, Bool.not_eq_false, Bool.not_eq_false] at hno
      exact h hno
    rw [if_pos hrefused]

end Item

theorem trim_of_factFits {key value : Text} (h : factFits key value) : key.trim = key := by
  apply Text.trim_eq_self
  intro c hc
  simp only [factFits, Bool.and_eq_true, Bool.not_eq_true', List.any_eq_false,
    Bool.or_eq_true, not_or, Bool.not_eq_true] at h
  exact (h.1.2 c hc).1

namespace ItemDoc

theorem get?_edit (d : OrdMap ItemId Item) (op : ItemOp) (j : ItemId) :
    (edit d op).1.get? j = if op.id = j then (d.get? j).map (Item.edited op) else d.get? j := by
  simp only [edit]
  by_cases hj : op.id = j
  · subst hj
    rw [if_pos rfl]
    cases hget : d.get? op.id with
    | none => simpa using hget
    | some item =>
        simp only [Option.map_some, Item.edited]
        cases item.apply op with
        | ok p => simp
        | error e => simpa using hget
  · rw [if_neg hj]
    cases d.get? op.id with
    | none => rfl
    | some item =>
        dsimp only
        cases item.apply op with
        | ok p => simp [OrdMap.get?_insert, hj]
        | error e => rfl

/-- What an op makes of each item. -/
def revise (op : ItemOp) (item : Option Item) : Option Item :=
  match op with
  | .add item => some item
  | .remove _ => none
  | op => item.map (Item.edited op)

theorem get?_applyOp (d : OrdMap ItemId Item) (op : ItemOp) (mine : Bool) (j : ItemId) :
    (applyOp d op mine).1.get? j = if op.id = j then revise op (d.get? j) else d.get? j := by
  cases op with
  | add item => simp only [applyOp, OrdMap.get?_insert, eq_comm, ItemOp.id, revise]
  | remove id => simp only [applyOp, OrdMap.get?_erase, eq_comm, ItemOp.id, revise]
  | rename id name => exact get?_edit d _ j
  | setFact id key value => exact get?_edit d _ j

theorem applyOp_mine (d : OrdMap ItemId Item) (op : ItemOp) (a b : Bool) :
    (applyOp d op a).1 = (applyOp d op b).1 := by
  apply OrdMap.ext_get?
  intro j
  rw [get?_applyOp, get?_applyOp]

end ItemDoc

/-- The op is one the registry took: bounds hold of it, and the item it edits has room. -/
def Taken (items : OrdMap ItemId Item) : ItemOp → Prop
  | .add item => item.Tidy item.id
  | .remove _ => True
  | .rename _ _ => True
  | .setFact _ key none => key.trim = key
  | .setFact id key (some value) =>
      factFits key value ∧ ∀ item, items.get? id = some item → item.room key

/-- A copy has room for the fact an op sets, if it has the item. -/
def roomFor (items : OrdMap ItemId Item) : ItemOp → Bool
  | .setFact id key (some _) => (items.get? id).all fun item => item.room key
  | _ => true

def ItemSync.fitsIn (items : OrdMap ItemId Item) : ItemSync → Bool
  | .snapshot _ => true
  | .delta d => roomFor items d.op

namespace Item.AgreeBut

variable {U : List Cell} {op : ItemOp} {id : ItemId} {a b : Item}

theorem of_other (h : AgreeBut (op.cell :: U) id a b) (hne : op.id ≠ id) : AgreeBut U id a b where
  sameId := h.sameId
  kind := h.kind
  name := h.name.imp_right fun hmem => mem_of_other hmem hne
  facts key := (h.facts key).imp_right fun hmem => mem_of_other hmem hne

theorem rename (h : AgreeBut U id a b) (name : Option Text) :
    AgreeBut (.name id :: U) id { a with name := name } b where
  sameId := h.sameId
  kind := h.kind
  name := Or.inr List.mem_cons_self
  facts key := (h.facts key).imp_right (List.mem_cons_of_mem _)

theorem rename_both (h : AgreeBut (.name id :: U) id a b) (name : Option Text) :
    AgreeBut U id { a with name := name } { b with name := name } where
  sameId := h.sameId
  kind := h.kind
  name := Or.inl rfl
  facts key := (h.facts key).imp_right fun hmem => by simpa using hmem

/-- The facts of one item replaced, with the one key of the op different. -/
theorem setFacts (h : AgreeBut U id a b) {facts : OrdMap Text Text} {key : Text}
    (hother : ∀ k, k ≠ key → facts.get? k = a.facts.get? k) :
    AgreeBut (.fact id key :: U) id { a with facts := facts } b where
  sameId := h.sameId
  kind := h.kind
  name := h.name.imp_right (List.mem_cons_of_mem _)
  facts k := by
    by_cases hk : k = key
    · exact Or.inr (hk ▸ List.mem_cons_self)
    · rw [hother k hk]
      exact (h.facts k).imp_right (List.mem_cons_of_mem _)

theorem setFacts_both (h : AgreeBut (.fact id key :: U) id a b) {facts facts' : OrdMap Text Text}
    (hkey : facts.get? key = facts'.get? key)
    (hother : ∀ k, k ≠ key → facts.get? k = a.facts.get? k)
    (hother' : ∀ k, k ≠ key → facts'.get? k = b.facts.get? k) :
    AgreeBut U id { a with facts := facts } { b with facts := facts' } where
  sameId := h.sameId
  kind := h.kind
  name := h.name.imp_right fun hmem => by simpa using hmem
  facts k := by
    by_cases hk : k = key
    · exact Or.inl (hk ▸ hkey)
    · rw [hother k hk, hother' k hk]
      refine (h.facts k).imp_right fun hmem => ?_
      rcases List.mem_cons.mp hmem with heq | hmem
      · exact absurd (Cell.fact.inj heq).2 hk
      · exact hmem

/-- Erasing a key that is not trimmed changes nothing the copies may not differ in. -/
theorem forget (h : AgreeBut U id a b) (hb : b.Tidy id) (key : Text) :
    AgreeBut (.fact id key.trim :: U) id { a with facts := a.facts.erase key } b where
  sameId := h.sameId
  kind := h.kind
  name := h.name.imp_right (List.mem_cons_of_mem _)
  facts k := by
    rw [OrdMap.get?_erase]
    by_cases hk : k = key
    · rw [if_pos hk]
      by_cases htrim : key.trim = key
      · exact Or.inr (by rw [hk, htrim]; exact List.mem_cons_self)
      · exact Or.inl (hk ▸ (hb.trimmed key htrim).symm)
    · rw [if_neg hk]
      exact (h.facts k).imp_right (List.mem_cons_of_mem _)

end Item.AgreeBut

theorem Taken.trimmed {items : OrdMap ItemId Item} {id : ItemId} {key : Text}
    {value : Option Text} (h : Taken items (.setFact id key value)) : key.trim = key := by
  cases value with
  | none => exact h
  | some value => exact trim_of_factFits h.1

namespace AgreeBut

variable {U V : List Cell} {d e : OrdMap ItemId Item} {op : ItemOp}

theorem mono (hsub : U ⊆ V) (h : AgreeBut U d e) : AgreeBut V d e := by
  intro id
  rcases h id with hmem | hrel
  · exact Or.inl (hsub hmem)
  · right
    generalize d.get? id = x at hrel
    generalize e.get? id = y at hrel
    cases hrel with
    | none => exact Option.Rel.none
    | some hitem => exact Option.Rel.some (hitem.mono hsub)

theorem refl (U : List Cell) (d : OrdMap ItemId Item) : AgreeBut U d d := by
  intro id
  right
  cases d.get? id with
  | none => exact Option.Rel.none
  | some item => exact Option.Rel.some (Item.AgreeBut.refl U id item)

theorem eq (h : AgreeBut [] d e) : d = e := by
  apply OrdMap.ext_get?
  intro id
  rcases h id with hmem | hrel
  · exact absurd hmem List.not_mem_nil
  · generalize d.get? id = x at hrel
    generalize e.get? id = y at hrel
    cases hrel with
    | none => rfl
    | @some a b hitem =>
        have hname : a.name = b.name := hitem.name.resolve_right List.not_mem_nil
        have hfacts : a.facts = b.facts :=
          OrdMap.ext_get? fun key => (hitem.facts key).resolve_right List.not_mem_nil
        have hid := hitem.sameId
        have hkind := hitem.kind
        cases a
        cases b
        simp_all

theorem edit_item {id : ItemId} {a b : Item} (hb : b.Tidy id) (h : Item.AgreeBut U id a b)
    (hid : op.id = id) (hedit : op.cell ≠ .item id) :
    Item.AgreeBut (op.cell :: U) id (a.edited op) b := by
  subst hid
  cases op with
  | add item => exact absurd rfl hedit
  | remove id => exact absurd rfl hedit
  | rename id name => exact h.rename name
  | setFact id key value =>
      cases value with
      | none => exact h.forget hb key
      | some value =>
          rw [Item.edited_setFact]
          split
          · rename_i hfits
            rw [ItemOp.cell, trim_of_factFits hfits.1]
            refine h.setFacts fun k hk => ?_
            rw [OrdMap.get?_insert, if_neg (Ne.symm hk)]
          · exact h.mono (List.subset_cons_self _ _)

theorem edit_both {id : ItemId} {a b : Item} (htaken : Taken e op) (hroom : roomFor d op)
    (ha : d.get? id = some a) (hb : e.get? id = some b)
    (h : Item.AgreeBut (op.cell :: U) id a b) (hid : op.id = id) (hedit : op.cell ≠ .item id) :
    Item.AgreeBut U id (a.edited op) (b.edited op) := by
  subst hid
  cases op with
  | add item => exact absurd rfl hedit
  | remove id => exact absurd rfl hedit
  | rename id name => exact h.rename_both name
  | setFact id key value =>
      rw [ItemOp.cell, htaken.trimmed] at h
      cases value with
      | none =>
          refine h.setFacts_both (by simp) (fun k hk => ?_) fun k hk => ?_
          · rw [OrdMap.get?_erase, if_neg hk]
          · rw [OrdMap.get?_erase, if_neg hk]
      | some value =>
          have hrooma : a.room key := by simpa [roomFor, show d.get? id = some a from ha] using hroom
          rw [Item.edited_setFact, if_pos ⟨htaken.1, hrooma⟩, Item.edited_setFact,
            if_pos ⟨htaken.1, htaken.2 b hb⟩]
          refine h.setFacts_both (by simp) (fun k hk => ?_) fun k hk => ?_
          · rw [OrdMap.get?_insert, if_neg (Ne.symm hk)]
          · rw [OrdMap.get?_insert, if_neg (Ne.symm hk)]

theorem revise_edit {o : Option Item} (hedit : op.cell ≠ .item op.id) :
    ItemDoc.revise op o = o.map (Item.edited op) := by
  cases op with
  | add item => exact absurd rfl hedit
  | remove id => exact absurd rfl hedit
  | rename id name => rfl
  | setFact id key value => rfl

/-- An op applied to one copy adds its cell to where the copies may differ. -/
theorem applyOp (h : AgreeBut U d e) (htidy : Tidy e) (op : ItemOp) (mine : Bool) :
    AgreeBut (op.cell :: U) (ItemDoc.applyOp d op mine).1 e := by
  intro id
  rw [ItemDoc.get?_applyOp]
  by_cases hid : op.id = id
  · subst hid
    rw [if_pos rfl]
    by_cases hwhole : op.cell = .item op.id
    · exact Or.inl (hwhole ▸ List.mem_cons_self)
    · rw [revise_edit hwhole]
      refine (h op.id).imp (List.mem_cons_of_mem _) fun hrel => ?_
      generalize hd : d.get? op.id = x at hrel
      generalize he : e.get? op.id = y at hrel
      cases hrel with
      | none => exact Option.Rel.none
      | some hitem => exact Option.Rel.some (edit_item (htidy _ _ he) hitem rfl hwhole)
  · rw [if_neg hid]
    exact h.mono (List.subset_cons_self _ _) id

theorem applyOp_both (h : AgreeBut (op.cell :: U) d e) (htaken : Taken e op)
    (hroom : roomFor d op) (mine mine' : Bool) :
    AgreeBut U (ItemDoc.applyOp d op mine).1 (ItemDoc.applyOp e op mine').1 := by
  intro id
  rw [ItemDoc.get?_applyOp, ItemDoc.get?_applyOp]
  by_cases hid : op.id = id
  · subst hid
    rw [if_pos rfl, if_pos rfl]
    by_cases hwhole : op.cell = .item op.id
    · right
      cases op with
      | add item => exact Option.Rel.some (Item.AgreeBut.refl U _ item)
      | remove id => exact Option.Rel.none
      | rename id name => exact absurd hwhole (by simp [ItemOp.cell])
      | setFact id key value => exact absurd hwhole (by simp [ItemOp.cell])
    · rw [revise_edit hwhole, revise_edit hwhole]
      refine (h op.id).imp (fun hmem => (List.mem_cons.mp hmem).resolve_left (Ne.symm hwhole))
        fun hrel => ?_
      generalize hd : d.get? op.id = x at hrel
      generalize he : e.get? op.id = y at hrel
      cases hrel with
      | none => exact Option.Rel.none
      | some hitem => exact Option.Rel.some (edit_both htaken hroom hd he hitem rfl hwhole)
  · rw [if_neg hid, if_neg hid]
    refine (h id).imp (fun hmem => mem_of_other hmem hid) fun hrel => ?_
    generalize d.get? id = x at hrel
    generalize e.get? id = y at hrel
    cases hrel with
    | none => exact Option.Rel.none
    | some hitem => exact Option.Rel.some (hitem.of_other hid)

end AgreeBut

end Slopty.Items
