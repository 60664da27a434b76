import Mathlib.Data.List.Nodup
import Slopty.Thread.State

/-!
A copy of some turns of a thread. It takes the same actions as the thread and stays a copy of the
turns it holds, as long as nothing is put into a turn it does not hold.
-/

namespace Slopty.Thread

open Slopty.Lib

/-- A turn before the first one held. -/
def ThreadState.isOlder (s : ThreadState) (turn : TurnId) : Bool :=
  (s.turns.head?).all fun first => decide (turn < first.id)

section Items

/-- In a list without two items of one id, an item is where its id is. -/
theorem place_of_id {l : List Item} (hl : (l.map Item.id).Nodup) {i j : Nat} {a b : Item}
    (ha : l[i]? = some a) (hb : l[j]? = some b) (h : a.id = b.id) : i = j := by
  obtain ⟨hi, rfl⟩ := List.getElem?_eq_some_iff.mp ha
  obtain ⟨hj, rfl⟩ := List.getElem?_eq_some_iff.mp hb
  refine (@List.Nodup.getElem_inj_iff _ _ hl i (by simpa using hi) j (by simpa using hj)).mp ?_
  simpa using h

theorem modify_eq_map {l : List Item} (hl : (l.map Item.id).Nodup) {i : Nat} {a : Item}
    (ha : l[i]? = some a) (f : Item → Item) :
    l.modify i f = l.map fun b => if b.id = a.id then f b else b := by
  apply List.ext_getElem?
  intro j
  rw [List.getElem?_modify, List.getElem?_map]
  cases hb : l[j]? with
  | none => simp
  | some b =>
    by_cases hij : i = j
    · subst hij
      obtain rfl := Option.some.inj (ha.symm.trans hb)
      simp
    · have hne : ¬ b.id = a.id := fun h => hij (place_of_id hl ha hb h.symm)
      simp [hij, hne]

theorem set_eq_map {l : List Item} (hl : (l.map Item.id).Nodup) {i : Nat} {a : Item}
    (ha : l[i]? = some a) (item : Item) :
    l.set i item = l.map fun b => if b.id = a.id then item else b := by
  rw [← modify_eq_map hl ha fun _ => item]
  apply List.ext_getElem?
  intro j
  rw [List.getElem?_modify, List.getElem?_set]
  by_cases hij : i = j
  · subst hij
    have hlt := (List.getElem?_eq_some_iff.mp ha).1
    simp [hlt, ha]
  · simp [hij]

theorem eraseIdx_eq_filter {l : List Item} (hl : (l.map Item.id).Nodup) {i : Nat} {a : Item}
    (ha : l[i]? = some a) : l.eraseIdx i = l.filter fun b => decide (b.id ≠ a.id) := by
  induction l generalizing i with
  | nil => exact absurd ha nofun
  | cons b rest ih =>
    rw [List.map_cons, List.nodup_cons] at hl
    cases i with
    | zero =>
      obtain rfl : b = a := by simpa using ha
      have hrest : rest.filter (fun c => decide (c.id ≠ b.id)) = rest := by
        rw [List.filter_eq_self]
        intro c hc
        have hne : c.id ≠ b.id := fun h => hl.1 (h ▸ List.mem_map_of_mem hc)
        simpa using hne
      rw [List.eraseIdx_cons_zero, List.filter_cons, if_neg (by simp), hrest]
    | succ i =>
      have ha : rest[i]? = some a := by simpa using ha
      have hne : b.id ≠ a.id := fun h =>
        hl.1 (h ▸ List.mem_map_of_mem (List.mem_of_getElem? ha))
      rw [List.eraseIdx_cons_succ, ih hl.2 ha, List.filter_cons, if_pos (by simpa using hne)]

end Items

/-- A state as actions make it: turns by number, no two items of one id, and call notes of items it
holds. -/
structure Sound (s : ThreadState) : Prop where
  turns : s.turns.Pairwise fun a b => a.id < b.id
  ids : (s.items.map Item.id).Nodup
  calls : ∀ id, (s.calls.get? id).isSome → ∃ i ∈ s.items, i.id = id

namespace ThreadState

theorem itemIndex_cases (s : ThreadState) (id : ItemId) :
    (∃ at' a, s.itemIndex id = some at' ∧ s.items[at']? = some a ∧ a.id = id) ∨
      s.itemIndex id = none ∧ ∀ a ∈ s.items, a.id ≠ id := by
  unfold itemIndex
  cases h : rposition (fun i : Item => decide (i.id = id)) s.items with
  | some at' =>
    obtain ⟨a, ha, hid⟩ := rposition_eq_some h
    exact Or.inl ⟨at', a, rfl, ha, by simpa using hid⟩
  | none =>
    refine Or.inr ⟨rfl, ?_⟩
    intro a ha
    simpa using rposition_eq_none.mp h a ha

theorem item_of_mem {s : ThreadState} (hs : (s.items.map Item.id).Nodup) {a : Item}
    (ha : a ∈ s.items) : s.item a.id = some a := by
  obtain ⟨at', b, hat, hb, hid⟩ | ⟨-, hnone⟩ := s.itemIndex_cases a.id
  · obtain ⟨i, hi⟩ := List.mem_iff_getElem?.mp ha
    obtain rfl := place_of_id hs hb hi hid
    rw [item, hat, Option.bind_some, hi]
  · exact absurd rfl (hnone a ha)

theorem item_of_notMem {s : ThreadState} {id : ItemId} (h : ∀ a ∈ s.items, a.id ≠ id) :
    s.item id = none := by
  obtain ⟨at', b, -, hb, hid⟩ | ⟨hnone, -⟩ := s.itemIndex_cases id
  · exact absurd hid (h b (List.mem_of_getElem? hb))
  · rw [item, hnone, Option.bind_none]

theorem putItem_of_mem {s : ThreadState} (hs : (s.items.map Item.id).Nodup) {a item : Item}
    (ha : a ∈ s.items) (hid : a.id = item.id) :
    s.putItem item =
      { s with items := s.items.map fun b => if b.id = item.id then item else b } := by
  unfold putItem
  obtain ⟨at', b, hat, hb, hb'⟩ | ⟨-, hnone⟩ := s.itemIndex_cases item.id
  · rw [hat]
    dsimp only
    rw [set_eq_map hs hb, hb']
  · exact absurd hid (hnone a ha)

theorem putItem_of_notMem {s : ThreadState} {item : Item} (h : ∀ a ∈ s.items, a.id ≠ item.id) :
    s.putItem item = { s with items := s.items ++ [item] } := by
  unfold putItem
  obtain ⟨at', b, -, hb, hid⟩ | ⟨hnone, -⟩ := s.itemIndex_cases item.id
  · exact absurd hid (h b (List.mem_of_getElem? hb))
  · rw [hnone]

theorem append_eq {s : ThreadState} (hs : (s.items.map Item.id).Nodup) (id : ItemId)
    (part : PartKey) (text : List Char) :
    s.apply (.append id part text) =
      { s with
        items := s.items.map fun b =>
          if b.id = id then { b with body := appendBody b.body part text } else b } := by
  simp only [apply]
  obtain ⟨at', b, hat, hb, rfl⟩ | ⟨hnone, hall⟩ := s.itemIndex_cases id
  · rw [hat]
    dsimp only
    rw [modify_eq_map hs hb]
  · rw [hnone]
    have hmap : s.items.map (fun b =>
        if b.id = id then { b with body := appendBody b.body part text } else b) = s.items := by
      conv_rhs => rw [← List.map_id s.items]
      apply List.map_congr_left
      intro b hb
      exact if_neg (hall b hb)
    rw [hmap]

theorem removed_eq {s : ThreadState} (hs : (s.items.map Item.id).Nodup) (id : ItemId) :
    s.apply (.itemRemoved id) =
      { s with
        items := s.items.filter fun b => decide (b.id ≠ id)
        calls := s.calls.erase id } := by
  simp only [apply]
  obtain ⟨at', b, hat, hb, rfl⟩ | ⟨hnone, hall⟩ := s.itemIndex_cases id
  · rw [hat]
    dsimp only
    rw [eraseIdx_eq_filter hs hb]
  · rw [hnone]
    have hfilter : s.items.filter (fun b => decide (b.id ≠ id)) = s.items := by
      rw [List.filter_eq_self]
      intro b hb
      simpa using hall b hb
    rw [hfilter]

end ThreadState

section Turns

theorem split_turns {l : List Turn} (hl : l.Pairwise fun a b => a.id < b.id) (id : TurnId) :
    ∃ rest, l = (l.filter fun t => decide (t.id < id)) ++ rest ∧
      (l.takeWhile fun t => decide (t.id < id)) = (l.filter fun t => decide (t.id < id)) ∧
      ((∃ t, t.id = id ∧ rest = t :: l.filter fun t => decide (id < t.id)) ∨
        rest = (l.filter fun t => decide (id < t.id)) ∧ ∀ t ∈ l, t.id ≠ id) := by
  induction l with
  | nil => exact ⟨[], rfl, rfl, Or.inr ⟨rfl, nofun⟩⟩
  | cons t l ih =>
    rw [List.pairwise_cons] at hl
    obtain ⟨rest, hrest, htake, hcases⟩ := ih hl.2
    by_cases hlt : t.id < id
    · refine ⟨rest, ?_, ?_, ?_⟩
      · rw [List.filter_cons, if_pos (by simpa using hlt), List.cons_append, ← hrest]
      · rw [List.takeWhile_cons, if_pos (by simpa using hlt), htake, List.filter_cons,
          if_pos (by simpa using hlt)]
      · have hnot : ¬ decide (id < t.id) = true := by simpa using hlt.le
        rw [List.filter_cons, if_neg hnot]
        refine hcases.imp_right fun h => ⟨h.1, ?_⟩
        simpa using ⟨hlt.ne, h.2⟩
    · have hle : ∀ u ∈ l, id < u.id := fun u hu => (not_lt.mp hlt).trans_lt (hl.1 u hu)
      have hnone : l.filter (fun u => decide (u.id < id)) = [] := by
        rw [List.filter_eq_nil_iff]
        intro u hu
        simpa using (hle u hu).le
      have hall : l.filter (fun u => decide (id < u.id)) = l := by
        rw [List.filter_eq_self]
        intro u hu
        simpa using hle u hu
      refine ⟨t :: l, ?_, ?_, ?_⟩
      · rw [List.filter_cons, if_neg (by simpa using hlt), hnone, List.nil_append]
      · rw [List.takeWhile_cons, if_neg (by simpa using hlt), List.filter_cons,
          if_neg (by simpa using hlt), hnone]
      · rcases (not_lt.mp hlt).lt_or_eq with hgt | heq
        · right
          rw [List.filter_cons, if_pos (by simpa using hgt), hall]
          refine ⟨rfl, ?_⟩
          simpa using ⟨hgt.ne', fun u hu => (hle u hu).ne'⟩
        · left
          refine ⟨t, heq.symm, ?_⟩
          rw [List.filter_cons, if_neg (by simp [heq]), hall]

theorem searchTurn_cases {l : List Turn} (hl : l.Pairwise fun a b => a.id < b.id) (id : TurnId) :
    ∃ before after, before = (l.filter fun t => decide (t.id < id)) ∧
      after = (l.filter fun t => decide (id < t.id)) ∧
      ((∃ t, t.id = id ∧ l = before ++ t :: after ∧ searchTurn l id = .ok before.length) ∨
        l = before ++ after ∧ (∀ t ∈ l, t.id ≠ id) ∧ searchTurn l id = .error before.length) := by
  obtain ⟨rest, hsplit, htake, hcases⟩ := split_turns hl id
  refine ⟨_, _, rfl, rfl, ?_⟩
  unfold searchTurn
  rw [htake]
  generalize (l.filter fun t => decide (t.id < id)) = before at hsplit hcases ⊢
  have hget : l[before.length]? = rest.head? := by
    rw [hsplit, List.getElem?_append_right (le_refl _), Nat.sub_self, List.head?_eq_getElem?]
  generalize (l.filter fun t => decide (id < t.id)) = after at hcases ⊢
  rcases hcases with ⟨t, ht, rfl⟩ | ⟨rfl, hnone⟩
  · refine Or.inl ⟨t, ht, hsplit, ?_⟩
    dsimp only
    rw [hget, List.head?_cons]
    exact if_pos ht
  · refine Or.inr ⟨hsplit, hnone, ?_⟩
    dsimp only
    rw [hget]
    cases hhead : rest.head? with
    | none => rfl
    | some t =>
      have ht : t ∈ l := by
        rw [hsplit]
        exact List.mem_append_right _ (List.mem_of_head? hhead)
      exact if_neg (hnone t ht)

theorem putTurn_eq {s : ThreadState} (hs : s.turns.Pairwise fun a b => a.id < b.id) (turn : Turn) :
    s.putTurn turn =
      { s with
        turns := (s.turns.filter fun t => decide (t.id < turn.id)) ++
          turn :: s.turns.filter fun t => decide (turn.id < t.id) } := by
  obtain ⟨before, after, hbefore, hafter, hcases⟩ := searchTurn_cases hs turn.id
  rw [← hbefore, ← hafter]
  unfold ThreadState.putTurn
  rcases hcases with ⟨t, -, hsplit, hfound⟩ | ⟨hsplit, -, hfound⟩
  · have hset : s.turns.set before.length turn = before ++ turn :: after := by
      rw [hsplit, List.set_append_right _ _ (le_refl _), Nat.sub_self, List.set_cons_zero]
    rw [hfound]
    dsimp only
    rw [hset]
  · have hinsert : s.turns.insertIdx before.length turn = before ++ turn :: after := by
      rw [hsplit]
      clear hbefore hsplit hfound
      induction before with
      | nil => rfl
      | cons t before ih => rw [List.length_cons, List.cons_append, List.insertIdx_succ_cons, ih,
          List.cons_append]
    rw [hfound]
    dsimp only
    rw [hinsert]

theorem putTurn_sorted {s : ThreadState} (hs : s.turns.Pairwise fun a b => a.id < b.id)
    (turn : Turn) : (s.putTurn turn).turns.Pairwise fun a b => a.id < b.id := by
  rw [putTurn_eq hs]
  show ((s.turns.filter _) ++ turn :: s.turns.filter _).Pairwise _
  rw [List.pairwise_append, List.pairwise_cons]
  have hlow : ∀ t ∈ s.turns.filter fun t => decide (t.id < turn.id), t.id < turn.id := by
    intro t ht
    simpa using (List.mem_filter.mp ht).2
  have hhigh : ∀ t ∈ s.turns.filter fun t => decide (turn.id < t.id), turn.id < t.id := by
    intro t ht
    simpa using (List.mem_filter.mp ht).2
  refine ⟨hs.filter _, ⟨hhigh, hs.filter _⟩, ?_⟩
  intro a ha b hb
  rcases List.mem_cons.mp hb with rfl | hb
  · exact hlow a ha
  · exact (hlow a ha).trans (hhigh b hb)

theorem turnEnded_eq {s : ThreadState} (hs : s.turns.Pairwise fun a b => a.id < b.id)
    (turn : TurnId) (state : TurnState) (usage : Usage) (endedMs : WallMs) :
    s.apply (.turnEnded turn state usage endedMs) =
      { s with
        turns := s.turns.map fun t =>
          if t.id = turn then { t with state := state, usage := usage, endedMs := some endedMs }
          else t } := by
  obtain ⟨before, after, hbefore, hafter, hcases⟩ := searchTurn_cases hs turn
  have hmap : ∀ {l : List Turn} {f : Turn → Turn}, (∀ t ∈ l, t.id ≠ turn) →
      l.map (fun t => if t.id = turn then f t else t) = l := by
    intro l f hl
    conv_rhs => rw [← List.map_id l]
    apply List.map_congr_left
    intro t ht
    exact if_neg (hl t ht)
  simp only [ThreadState.apply]
  rcases hcases with ⟨t, ht, hsplit, hfound⟩ | ⟨-, hnone, hfound⟩
  · rw [hfound]
    dsimp only
    congr 1
    have hlow : ∀ u ∈ before, u.id ≠ turn := by
      intro u hu
      rw [hbefore] at hu
      have hlt : u.id < turn := by simpa using (List.mem_filter.mp hu).2
      exact hlt.ne
    have hhigh : ∀ u ∈ after, u.id ≠ turn := by
      intro u hu
      rw [hafter] at hu
      have hlt : turn < u.id := by simpa using (List.mem_filter.mp hu).2
      exact hlt.ne'
    rw [hsplit, List.map_append, List.map_cons, hmap hlow, hmap hhigh, if_pos ht]
    clear hbefore hsplit hfound hlow
    induction before with
    | nil => rfl
    | cons u before ih =>
      rw [List.length_cons, List.cons_append, List.modify_succ_cons, ih, List.cons_append]
  · rw [hfound]
    dsimp only
    rw [hmap hnone]

theorem isOlder_eq_false {s : ThreadState} (hs : s.turns.Pairwise fun a b => a.id < b.id)
    {t : TurnId} : s.isOlder t = false ↔ ∃ u ∈ s.turns, u.id ≤ t := by
  unfold ThreadState.isOlder
  cases hturns : s.turns with
  | nil => simp
  | cons first rest =>
    rw [hturns, List.pairwise_cons] at hs
    rw [List.head?_cons, Option.all_some]
    simp only [decide_eq_false_iff_not, not_lt, List.mem_cons, exists_eq_or_imp]
    refine ⟨Or.inl, ?_⟩
    rintro (hle | ⟨u, hu, hle⟩)
    · exact hle
    · exact (hs.1 u hu).le.trans hle

theorem isOlder_putTurn {s : ThreadState} (hs : s.turns.Pairwise fun a b => a.id < b.id)
    (turn : Turn) {t : TurnId} (h : s.isOlder t = false) : (s.putTurn turn).isOlder t = false := by
  obtain ⟨u, hu, hle⟩ := (isOlder_eq_false hs).mp h
  rw [isOlder_eq_false (putTurn_sorted hs turn), putTurn_eq hs]
  rcases lt_or_ge u.id turn.id with hlt | hge
  · exact ⟨u, List.mem_append_left _ (List.mem_filter.mpr ⟨hu, by simpa using hlt⟩), hle⟩
  · exact ⟨turn, List.mem_append_right _ List.mem_cons_self, hge.trans hle⟩

end Turns

/-- What of a state a turn makes: its items, in order. -/
def itemsOf (s : ThreadState) (turn : TurnId) : List Item :=
  s.items.filter fun i => decide (i.turn = turn)

/-- The client's state is the worker's on the turns `held` names, and nothing else. -/
structure Copied (held : TurnId → Bool) (worker client : ThreadState) : Prop where
  turns : client.turns = worker.turns.filter fun t => held t.id
  items : ∀ turn, held turn = true → itemsOf client turn = itemsOf worker turn
  inside : ∀ i ∈ client.items, held i.turn = true
  ids : (client.items.map Item.id).Nodup
  calls : ∀ i ∈ client.items, client.calls.get? i.id = worker.calls.get? i.id
  notes : ∀ id, (client.calls.get? id).isSome → ∃ i ∈ worker.items, i.id = id ∧
    (held i.turn = true ∨ client.isOlder i.turn = false)

namespace Copied

variable {held : TurnId → Bool} {worker client : ThreadState}

theorem mem_itemsOf {s : ThreadState} {turn : TurnId} {i : Item} :
    i ∈ itemsOf s turn ↔ i ∈ s.items ∧ i.turn = turn := by
  simp [itemsOf]

theorem mem_iff (h : Copied held worker client) {i : Item} (hi : held i.turn = true) :
    i ∈ client.items ↔ i ∈ worker.items := by
  have hmem : i ∈ itemsOf client i.turn ↔ i ∈ itemsOf worker i.turn := by rw [h.items i.turn hi]
  simpa [mem_itemsOf] using hmem

theorem mem_worker (h : Copied held worker client) {i : Item} (hi : i ∈ client.items) :
    i ∈ worker.items :=
  (h.mem_iff (h.inside i hi)).mp hi

theorem eq_of_id (h : Copied held worker client) (hw : Sound worker) {i j : Item}
    (hi : i ∈ client.items) (hj : j ∈ worker.items) (hid : i.id = j.id) : i = j :=
  List.inj_on_of_nodup_map hw.ids (h.mem_worker hi) hj hid

theorem mapItems (h : Copied held worker client) (hw : Sound worker) {f : Item → Item}
    (hid : ∀ i ∈ worker.items, (f i).id = i.id) (hturn : ∀ i ∈ worker.items, (f i).turn = i.turn) :
    Copied held { worker with items := worker.items.map f }
      { client with items := client.items.map f } where
  turns := h.turns
  items := by
    intro turn hturn'
    have hmap : ∀ {l : List Item}, (∀ i ∈ l, i ∈ worker.items) →
        (l.map f).filter (fun i => decide (i.turn = turn)) =
          (l.filter fun i => decide (i.turn = turn)).map f := by
      intro l hl
      rw [List.filter_map]
      congr 1
      apply List.filter_congr
      intro i hi
      simp [hturn i (hl i hi)]
    show (client.items.map f).filter _ = (worker.items.map f).filter _
    rw [hmap fun i hi => h.mem_worker hi, hmap fun i hi => hi]
    exact congrArg (List.map f) (h.items turn hturn')
  inside := by
    intro i hi
    obtain ⟨j, hj, rfl⟩ := List.mem_map.mp hi
    rw [hturn j (h.mem_worker hj)]
    exact h.inside j hj
  ids := by
    have hsame : (client.items.map f).map Item.id = client.items.map Item.id := by
      rw [List.map_map]
      apply List.map_congr_left
      intro i hi
      exact hid i (h.mem_worker hi)
    exact hsame ▸ h.ids
  calls := by
    intro i hi
    obtain ⟨j, hj, rfl⟩ := List.mem_map.mp hi
    rw [hid j (h.mem_worker hj)]
    exact h.calls j hj
  notes := by
    intro id hsome
    obtain ⟨i, hi, rfl, hplace⟩ := h.notes id hsome
    refine ⟨f i, List.mem_map_of_mem hi, hid i hi, ?_⟩
    rw [hturn i hi]
    exact hplace

theorem push (h : Copied held worker client) {item : Item} (hheld : held item.turn = true)
    (hnew : ∀ i ∈ worker.items, i.id ≠ item.id) (hw : Sound worker) :
    Copied held { worker with items := worker.items ++ [item] }
      { client with items := client.items ++ [item] } where
  turns := h.turns
  items := by
    intro turn hturn
    show (client.items ++ [item]).filter _ = (worker.items ++ [item]).filter _
    rw [List.filter_append, List.filter_append]
    exact congrArg (· ++ _) (h.items turn hturn)
  inside := by
    intro i hi
    rcases List.mem_append.mp hi with hi | hi
    · exact h.inside i hi
    · rw [List.mem_singleton.mp hi]
      exact hheld
  ids := by
    show ((client.items ++ [item]).map Item.id).Nodup
    rw [List.map_append, List.nodup_append]
    refine ⟨h.ids, List.nodup_singleton _, ?_⟩
    intro x hx y hy
    obtain ⟨i, hi, rfl⟩ := List.mem_map.mp hx
    obtain rfl : y = item.id := by simpa using hy
    exact hnew i (h.mem_worker hi)
  calls := by
    intro i hi
    rcases List.mem_append.mp hi with hi | hi
    · exact h.calls i hi
    · rw [List.mem_singleton.mp hi]
      -- Neither has a note of an item nobody held.
      have hclient : client.calls.get? item.id = none := by
        by_contra hsome
        obtain ⟨j, hj, hid, -⟩ := h.notes item.id (Option.isSome_iff_ne_none.mpr hsome)
        exact hnew j hj hid
      have hworker : worker.calls.get? item.id = none := by
        by_contra hsome
        obtain ⟨j, hj, hid⟩ := hw.calls item.id (Option.isSome_iff_ne_none.mpr hsome)
        exact hnew j hj hid
      exact hclient.trans hworker.symm
  notes := by
    intro id hsome
    obtain ⟨i, hi, hid, hplace⟩ := h.notes id hsome
    exact ⟨i, List.mem_append_left _ hi, hid, hplace⟩

theorem putItem (h : Copied held worker client) (hw : Sound worker) {item : Item}
    (hheld : held item.turn = true)
    (hturn : ∀ i ∈ worker.items, i.id = item.id → i.turn = item.turn) :
    Copied held (worker.putItem item) (client.putItem item) := by
  by_cases hin : ∃ i ∈ worker.items, i.id = item.id
  · obtain ⟨i, hi, hid⟩ := hin
    have hclient : i ∈ client.items := by
      rw [h.mem_iff]
      · exact hi
      · rw [hturn i hi hid]
        exact hheld
    rw [ThreadState.putItem_of_mem hw.ids hi hid, ThreadState.putItem_of_mem h.ids hclient hid]
    refine h.mapItems hw ?_ ?_
    · intro j _
      split
      · rename_i hj
        exact hj.symm
      · rfl
    · intro j hj
      split
      · rename_i hj'
        exact (hturn j hj hj').symm
      · rfl
  · have hnew : ∀ i ∈ worker.items, i.id ≠ item.id := fun i hi hid => hin ⟨i, hi, hid⟩
    rw [ThreadState.putItem_of_notMem hnew,
      ThreadState.putItem_of_notMem fun i hi => hnew i (h.mem_worker hi)]
    exact h.push hheld hnew hw

theorem holdFinal_id (old new : Item) :
    (holdFinal old new).id = new.id ∧ (holdFinal old new).turn = new.turn := by
  unfold holdFinal
  split
  · split
    · exact ⟨rfl, rfl⟩
    · exact ⟨rfl, rfl⟩
  · exact ⟨rfl, rfl⟩

theorem itemUpdated (h : Copied held worker client) (hw : Sound worker) {item : Item}
    (hheld : held item.turn = true)
    (hturn : ∀ i ∈ worker.items, i.id = item.id → i.turn = item.turn) :
    Copied held (worker.apply (.itemUpdated item)) (client.apply (.itemUpdated item)) := by
  simp only [ThreadState.apply]
  by_cases hin : ∃ i ∈ worker.items, i.id = item.id
  · obtain ⟨i, hi, hid⟩ := hin
    have hclient : i ∈ client.items := by
      rw [h.mem_iff]
      · exact hi
      · rw [hturn i hi hid]
        exact hheld
    obtain ⟨hfid, hfturn⟩ := holdFinal_id i item
    rw [← hid, ThreadState.item_of_mem hw.ids hi, ThreadState.item_of_mem h.ids hclient]
    refine h.putItem hw ?_ ?_
    · rw [hfturn]
      exact hheld
    · intro j hj hjid
      rw [hfturn]
      exact hturn j hj (hjid.trans hfid)
  · have hnew : ∀ i ∈ worker.items, i.id ≠ item.id := fun i hi hid => hin ⟨i, hi, hid⟩
    rw [ThreadState.item_of_notMem hnew,
      ThreadState.item_of_notMem fun i hi => hnew i (h.mem_worker hi)]
    exact h.putItem hw hheld hturn

theorem sorted (h : Copied held worker client) (hw : Sound worker) :
    client.turns.Pairwise fun a b => a.id < b.id := by
  rw [h.turns]
  exact hw.turns.filter _

/-- Notes stay with the turns from the first one held on, as long as that one comes no later. -/
theorem notes_of (h : Copied held worker client) {client' : ThreadState}
    (hcalls : client'.calls = client.calls)
    (hfirst : ∀ t, client.isOlder t = false → client'.isOlder t = false) :
    ∀ id, (client'.calls.get? id).isSome → ∃ i ∈ worker.items, i.id = id ∧
      (held i.turn = true ∨ client'.isOlder i.turn = false) := by
  intro id hsome
  rw [hcalls] at hsome
  obtain ⟨i, hi, hid, hplace⟩ := h.notes id hsome
  exact ⟨i, hi, hid, hplace.imp_right (hfirst i.turn)⟩

theorem turnStarted (h : Copied held worker client) (hw : Sound worker) {turn : Turn}
    (hheld : held turn.id = true) :
    Copied held (worker.putTurn turn) (client.putTurn turn) := by
  have hsorted := h.sorted hw
  have hfirst := fun t => isOlder_putTurn hsorted turn (t := t)
  rw [putTurn_eq hsorted] at hfirst ⊢
  rw [putTurn_eq hw.turns]
  refine ⟨?_, h.items, h.inside, h.ids, h.calls, h.notes_of rfl hfirst⟩
  have hswap : ∀ p : Turn → Bool, client.turns.filter p =
      (worker.turns.filter p).filter fun t => held t.id := by
    intro p
    rw [h.turns, List.filter_filter, List.filter_filter]
    apply List.filter_congr
    intro t _
    exact Bool.and_comm _ _
  show _ = ((worker.turns.filter _) ++ turn :: worker.turns.filter _).filter _
  rw [List.filter_append, List.filter_cons, if_pos hheld, ← hswap, ← hswap]

theorem turnEnded (h : Copied held worker client) (hw : Sound worker) (turn : TurnId)
    (state : TurnState) (usage : Usage) (endedMs : WallMs) :
    Copied held (worker.apply (.turnEnded turn state usage endedMs))
      (client.apply (.turnEnded turn state usage endedMs)) := by
  have hsorted := h.sorted hw
  rw [turnEnded_eq hw.turns, turnEnded_eq hsorted]
  refine ⟨?_, h.items, h.inside, h.ids, h.calls, h.notes_of rfl ?_⟩
  · show client.turns.map _ = (worker.turns.map _).filter _
    rw [List.filter_map, h.turns]
    congr 1
    apply List.filter_congr
    intro t _
    rw [Function.comp_apply]
    split <;> rfl
  · intro t ht
    unfold ThreadState.isOlder at ht ⊢
    dsimp only
    rw [List.head?_map]
    cases hhead : client.turns.head? with
    | none => simp [hhead] at ht
    | some first =>
      rw [hhead] at ht
      rw [Option.map_some, Option.all_some]
      split <;> exact ht

theorem itemRemoved (h : Copied held worker client) (hw : Sound worker) (id : ItemId) :
    Copied held (worker.apply (.itemRemoved id)) (client.apply (.itemRemoved id)) := by
  rw [ThreadState.removed_eq hw.ids, ThreadState.removed_eq h.ids]
  refine ⟨h.turns, ?_, ?_, ?_, ?_, ?_⟩
  · intro turn hturn
    show (client.items.filter _).filter _ = (worker.items.filter _).filter _
    rw [List.filter_comm, List.filter_comm _ _ worker.items]
    exact congrArg (List.filter _) (h.items turn hturn)
  · intro i hi
    exact h.inside i (List.mem_filter.mp hi).1
  · exact (List.filter_sublist.map _).nodup h.ids
  · intro i hi
    obtain ⟨hi, hne⟩ := List.mem_filter.mp hi
    show (client.calls.erase id).get? i.id = (worker.calls.erase id).get? i.id
    rw [OrdMap.get?_erase, OrdMap.get?_erase, h.calls i hi]
  · intro j hsome
    change ((client.calls.erase id).get? j).isSome at hsome
    rw [OrdMap.get?_erase] at hsome
    split at hsome
    · exact absurd hsome nofun
    · rename_i hne
      obtain ⟨i, hi, rfl, hplace⟩ := h.notes j hsome
      refine ⟨i, List.mem_filter.mpr ⟨hi, ?_⟩, rfl, hplace⟩
      simpa using hne

theorem append (h : Copied held worker client) (hw : Sound worker) (id : ItemId) (part : PartKey)
    (text : List Char) :
    Copied held (worker.apply (.append id part text)) (client.apply (.append id part text)) := by
  rw [ThreadState.append_eq hw.ids, ThreadState.append_eq h.ids]
  refine h.mapItems hw ?_ ?_
  · intro i _
    split <;> rfl
  · intro i _
    split <;> rfl

theorem callNoted (h : Copied held worker client) (hw : Sound worker) (id : ItemId)
    (note : CallNote) :
    Copied held (worker.apply (.callNoted id note)) (client.apply (.callNoted id note)) := by
  simp only [ThreadState.apply]
  obtain ⟨at', i, hat, hi, hid⟩ | ⟨hnone, hall⟩ := client.itemIndex_cases id
  · -- Both hold the item, and the same note of it before.
    have hclient := List.mem_of_getElem? hi
    obtain ⟨at'', j, hat', hj, hjid⟩ | ⟨-, hnone⟩ := worker.itemIndex_cases id
    · have hsame : client.calls.get? id = worker.calls.get? id := by
        rw [← hid]
        exact h.calls i hclient
      rw [hat, hat', hsame]
      generalize (worker.calls.get? id).elim note (fun had => note.over had) = note
      refine ⟨h.turns, h.items, h.inside, h.ids, ?_, ?_⟩
      · intro k hk
        show (client.calls.insert id note).get? k.id = (worker.calls.insert id note).get? k.id
        rw [OrdMap.get?_insert, OrdMap.get?_insert, h.calls k hk]
      · intro k hsome
        change ((client.calls.insert id note).get? k).isSome at hsome
        rw [OrdMap.get?_insert] at hsome
        split at hsome
        · rename_i hk
          obtain rfl := h.eq_of_id hw hclient (List.mem_of_getElem? hj) (hid.trans hjid.symm)
          exact ⟨i, h.mem_worker hclient, hid.trans hk, Or.inl (h.inside i hclient)⟩
        · exact h.notes k hsome
    · exact absurd hid (hnone i (h.mem_worker hclient))
  · rw [hnone]
    split
    · refine ⟨h.turns, h.items, h.inside, h.ids, ?_, h.notes⟩
      intro k hk
      show client.calls.get? k.id = (worker.calls.insert id _).get? k.id
      rw [OrdMap.get?_insert, if_neg (hall k hk).symm]
      exact h.calls k hk
    · exact h

theorem keepCalls_get? (s : ThreadState) (id : ItemId) :
    s.keepCalls.calls.get? id = (s.calls.get? id).filter fun _ =>
      s.items.any fun i => decide (i.id = id) :=
  OrdMap.get?_retain _ _ _

theorem keepCalls_of_mem {s : ThreadState} {i : Item} (hi : i ∈ s.items) :
    s.keepCalls.calls.get? i.id = s.calls.get? i.id := by
  have hany : s.items.any (fun j => decide (j.id = i.id)) = true :=
    List.any_eq_true.mpr ⟨i, hi, by simp⟩
  rw [keepCalls_get?, hany]
  cases s.calls.get? i.id <;> rfl

theorem mem_of_keepCalls {s : ThreadState} {id : ItemId}
    (h : (s.keepCalls.calls.get? id).isSome) : ∃ i ∈ s.items, i.id = id := by
  rw [keepCalls_get?] at h
  cases hany : s.items.any fun i => decide (i.id = id) with
  | true =>
    obtain ⟨i, hi, hid⟩ := List.any_eq_true.mp hany
    exact ⟨i, hi, by simpa using hid⟩
  | false =>
    rw [hany] at h
    cases hget : s.calls.get? id <;> simp [hget] at h

/-- Both drop what is past a turn; what comes past it again is held. -/
theorem truncated (h : Copied held worker client) (after : Option TurnId) :
    Copied (fun t => held t || !(after.any fun last => decide (t ≤ last)))
      (worker.apply (.truncated after)) (client.apply (.truncated after)) := by
  simp only [ThreadState.apply]
  generalize hkept : (fun turn : TurnId => after.any fun last => decide (turn ≤ last)) = kept
  simp only [congrFun hkept]
  have hitems : ∀ {s : ThreadState} {turn : TurnId},
      (s.items.filter fun i => kept i.turn).filter (fun i => decide (i.turn = turn)) =
        if kept turn then itemsOf s turn else [] := by
    intro s turn
    rw [List.filter_filter]
    split
    · rename_i hturn
      apply List.filter_congr
      intro i _
      by_cases hi : i.turn = turn <;> simp [hi, hturn]
    · rename_i hturn
      rw [List.filter_eq_nil_iff]
      intro i _
      by_cases hi : i.turn = turn <;> simp [hi, hturn]
  refine ⟨?_, ?_, ?_, ?_, ?_, ?_⟩
  · show client.turns.filter _ = (worker.turns.filter _).filter _
    rw [h.turns, List.filter_filter, List.filter_filter]
    apply List.filter_congr
    intro t _
    cases kept t.id <;> simp
  · intro turn hturn
    show (client.items.filter _).filter _ = (worker.items.filter _).filter _
    rw [hitems, hitems]
    split
    · rename_i hk
      exact h.items turn (by simpa [hk] using hturn)
    · rfl
  · intro i hi
    rw [h.inside i (List.mem_filter.mp hi).1]
    rfl
  · exact (List.filter_sublist.map _).nodup h.ids
  · intro i hi
    have hclient := List.mem_filter.mp hi
    have hworker : i ∈ worker.items.filter fun i => kept i.turn :=
      List.mem_filter.mpr ⟨h.mem_worker hclient.1, hclient.2⟩
    refine (keepCalls_of_mem (s := { client with turns := _, items := _ }) hi).trans ?_
    refine Eq.trans ?_ (keepCalls_of_mem (s := { worker with turns := _, items := _ }) hworker).symm
    exact h.calls i hclient.1
  · intro id hsome
    obtain ⟨i, hi, hid⟩ := mem_of_keepCalls hsome
    have hclient := List.mem_filter.mp hi
    refine ⟨i, List.mem_filter.mpr ⟨h.mem_worker hclient.1, hclient.2⟩, hid, Or.inl ?_⟩
    rw [h.inside i hclient.1]
    rfl

end Copied

/-- The worker has a turn, or an item of it. -/
def Has (worker : ThreadState) (turn : TurnId) : Prop :=
  (∃ t ∈ worker.turns, t.id = turn) ∨ ∃ i ∈ worker.items, i.turn = turn

def putsInto : Action → Option TurnId
  | .turnStarted turn => some turn.id
  | .itemStarted item | .itemUpdated item | .itemCompleted item => some item.turn
  | _ => none

/-- Which turns the client holds when an action was applied. What comes into a turn there was
nothing of, or past a cut, is held from its start. -/
def heldAfter (held : TurnId → Bool) (a : Action) (turn : TurnId) : Bool :=
  held turn || decide (putsInto a = some turn) ||
    match a with
    | .truncated after => !(after.any fun last => decide (turn ≤ last))
    | _ => false

/-- Nothing is put into a turn the client has paged out, and no item moves to another turn. -/
def PutsHeld (held : TurnId → Bool) (worker : ThreadState) : Action → Prop
  | .turnStarted turn => held turn.id = true ∨ ¬ Has worker turn.id
  | .itemStarted item | .itemUpdated item | .itemCompleted item =>
      (held item.turn = true ∨ ¬ Has worker item.turn) ∧
        ∀ i ∈ worker.items, i.id = item.id → i.turn = item.turn
  | _ => True

theorem Copied.hold {held : TurnId → Bool} {worker client : ThreadState}
    (h : Copied held worker client) {turn : TurnId}
    (hturn : held turn = true ∨ ¬ Has worker turn) :
    Copied (fun t => held t || decide (turn = t)) worker client := by
  refine ⟨?_, ?_, ?_, h.ids, h.calls, ?_⟩
  · rw [h.turns]
    apply List.filter_congr
    intro t ht
    by_cases heq : turn = t.id
    · rcases hturn with hheld | hnot
      · rw [← heq, hheld]
        rfl
      · exact absurd (Or.inl ⟨t, ht, heq.symm⟩) hnot
    · rw [decide_eq_false heq, Bool.or_false]
  · intro t ht
    by_cases heq : turn = t
    · subst heq
      rcases hturn with hheld | hnot
      · exact h.items turn hheld
      · have hworker : itemsOf worker turn = [] := by
          rw [itemsOf, List.filter_eq_nil_iff]
          intro i hi heq
          exact hnot (Or.inr ⟨i, hi, of_decide_eq_true heq⟩)
        have hclient : itemsOf client turn = [] := by
          rw [itemsOf, List.filter_eq_nil_iff]
          intro i hi heq
          exact hnot (Or.inr ⟨i, h.mem_worker hi, of_decide_eq_true heq⟩)
        rw [hworker, hclient]
    · rw [decide_eq_false heq, Bool.or_false] at ht
      exact h.items t ht
  · intro i hi
    rw [h.inside i hi]
    rfl
  · intro id hsome
    obtain ⟨i, hi, hid, hplace⟩ := h.notes id hsome
    refine ⟨i, hi, hid, hplace.imp_left ?_⟩
    intro hheld
    rw [hheld]
    rfl

theorem Copied.apply {held : TurnId → Bool} {worker client : ThreadState}
    (h : Copied held worker client) (hw : Sound worker) {a : Action}
    (ha : PutsHeld held worker a) : Copied (heldAfter held a) (worker.apply a) (client.apply a) := by
  have hsame : ∀ {worker' client' : ThreadState}, Copied held worker' client' →
      Copied (fun t => held t || decide (none = some t) || false) worker' client' := by
    intro worker' client' h
    simpa using h
  have hput : ∀ {turn : TurnId}, held turn = true ∨ ¬ Has worker turn →
      Copied (fun t => held t || decide (some turn = some t) || false) worker client := by
    intro turn hturn
    simpa using h.hold hturn
  have hself : ∀ turn : TurnId, (held turn || decide (some turn = some turn) || false) = true := by
    simp
  cases a with
  | turnStarted turn => exact (hput ha).turnStarted hw (hself _)
  | itemStarted item => exact (hput ha.1).putItem hw (hself _) ha.2
  | itemCompleted item => exact (hput ha.1).putItem hw (hself _) ha.2
  | itemUpdated item => exact (hput ha.1).itemUpdated hw (hself _) ha.2
  | turnEnded turn state usage endedMs => exact hsame (h.turnEnded hw turn state usage endedMs)
  | append item part text => exact hsame (h.append hw item part text)
  | itemRemoved item => exact hsame (h.itemRemoved hw item)
  | truncated after =>
    have hheld : heldAfter held (.truncated after) =
        fun t => held t || !(after.any fun last => decide (t ≤ last)) := by
      funext t
      simp [heldAfter, putsInto]
    rw [hheld]
    exact h.truncated after
  | callNoted item note => exact hsame (h.callNoted hw item note)
  | threadMeta m => exact hsame ⟨h.turns, h.items, h.inside, h.ids, h.calls, h.notes⟩
  | status s => exact hsame ⟨h.turns, h.items, h.inside, h.ids, h.calls, h.notes⟩
  | queuedSet queued => exact hsame ⟨h.turns, h.items, h.inside, h.ids, h.calls, h.notes⟩
  | planSet plan => exact hsame ⟨h.turns, h.items, h.inside, h.ids, h.calls, h.notes⟩
  | tasksSet tasks => exact hsame ⟨h.turns, h.items, h.inside, h.ids, h.calls, h.notes⟩
  | screensSet screens => exact hsame ⟨h.turns, h.items, h.inside, h.ids, h.calls, h.notes⟩
  | seen turn => exact hsame ⟨h.turns, h.items, h.inside, h.ids, h.calls, h.notes⟩
  | draftSet draft => exact hsame ⟨h.turns, h.items, h.inside, h.ids, h.calls, h.notes⟩
  | nameSet name => exact hsame ⟨h.turns, h.items, h.inside, h.ids, h.calls, h.notes⟩
  | lease at' => exact hsame ⟨h.turns, h.items, h.inside, h.ids, h.calls, h.notes⟩

namespace Sound

variable {s : ThreadState}

theorem mapItems (h : Sound s) {f : Item → Item} (hid : ∀ i ∈ s.items, (f i).id = i.id) :
    Sound { s with items := s.items.map f } where
  turns := h.turns
  ids := by
    have hsame : (s.items.map f).map Item.id = s.items.map Item.id := by
      rw [List.map_map]
      exact List.map_congr_left hid
    exact hsame ▸ h.ids
  calls := by
    intro id hsome
    obtain ⟨i, hi, rfl⟩ := h.calls id hsome
    exact ⟨f i, List.mem_map_of_mem hi, hid i hi⟩

theorem putItem (h : Sound s) (item : Item) : Sound (s.putItem item) := by
  by_cases hin : ∃ i ∈ s.items, i.id = item.id
  · obtain ⟨i, hi, hid⟩ := hin
    rw [ThreadState.putItem_of_mem h.ids hi hid]
    refine h.mapItems ?_
    intro j _
    split
    · rename_i hj
      exact hj.symm
    · rfl
  · have hnew : ∀ i ∈ s.items, i.id ≠ item.id := fun i hi hid => hin ⟨i, hi, hid⟩
    rw [ThreadState.putItem_of_notMem hnew]
    refine ⟨h.turns, ?_, ?_⟩
    · show ((s.items ++ [item]).map Item.id).Nodup
      rw [List.map_append, List.nodup_append]
      refine ⟨h.ids, List.nodup_singleton _, ?_⟩
      intro x hx y hy
      obtain ⟨i, hi, rfl⟩ := List.mem_map.mp hx
      obtain rfl : y = item.id := by simpa using hy
      exact hnew i hi
    · intro id hsome
      obtain ⟨i, hi, hid⟩ := h.calls id hsome
      exact ⟨i, List.mem_append_left _ hi, hid⟩

theorem putTurn (h : Sound s) (turn : Turn) : Sound (s.putTurn turn) := by
  have hsorted := putTurn_sorted h.turns turn
  rw [putTurn_eq h.turns] at hsorted ⊢
  exact ⟨hsorted, h.ids, h.calls⟩

theorem keepCalls (hturns : s.turns.Pairwise fun a b => a.id < b.id)
    (hids : (s.items.map Item.id).Nodup) : Sound s.keepCalls :=
  ⟨hturns, hids, fun _ hsome => Copied.mem_of_keepCalls (s := s) hsome⟩

theorem apply (h : Sound s) (a : Action) : Sound (s.apply a) := by
  cases a with
  | turnStarted turn => exact h.putTurn turn
  | turnEnded turn state usage endedMs =>
    rw [turnEnded_eq h.turns]
    refine ⟨?_, h.ids, h.calls⟩
    show (s.turns.map _).Pairwise _
    rw [List.pairwise_map]
    refine h.turns.imp ?_
    intro a b hab
    split <;> split <;> exact hab
  | itemStarted item => exact h.putItem item
  | itemCompleted item => exact h.putItem item
  | itemUpdated item =>
    simp only [ThreadState.apply]
    split
    · exact h.putItem _
    · exact h.putItem _
  | append item part text =>
    rw [ThreadState.append_eq h.ids]
    refine h.mapItems ?_
    intro i _
    split <;> rfl
  | itemRemoved item =>
    rw [ThreadState.removed_eq h.ids]
    refine ⟨h.turns, (List.filter_sublist.map _).nodup h.ids, ?_⟩
    intro id hsome
    change ((s.calls.erase item).get? id).isSome at hsome
    rw [OrdMap.get?_erase] at hsome
    split at hsome
    · exact absurd hsome nofun
    · rename_i hne
      obtain ⟨i, hi, rfl⟩ := h.calls id hsome
      exact ⟨i, List.mem_filter.mpr ⟨hi, by simpa using hne⟩, rfl⟩
  | truncated after =>
    exact keepCalls (s := { s with turns := _, items := _ }) (h.turns.filter _)
      ((List.filter_sublist.map _).nodup h.ids)
  | callNoted item note =>
    simp only [ThreadState.apply]
    obtain ⟨at', i, hat, hi, hid⟩ | ⟨hnone, -⟩ := s.itemIndex_cases item
    · rw [hat]
      refine ⟨h.turns, h.ids, ?_⟩
      intro id hsome
      change ((s.calls.insert item _).get? id).isSome at hsome
      rw [OrdMap.get?_insert] at hsome
      split at hsome
      · rename_i heq
        exact ⟨i, List.mem_of_getElem? hi, hid.trans heq⟩
      · exact h.calls id hsome
    · rw [hnone]
      exact h
  | threadMeta m => exact ⟨h.turns, h.ids, h.calls⟩
  | status s => exact ⟨h.turns, h.ids, h.calls⟩
  | queuedSet queued => exact ⟨h.turns, h.ids, h.calls⟩
  | planSet plan => exact ⟨h.turns, h.ids, h.calls⟩
  | tasksSet tasks => exact ⟨h.turns, h.ids, h.calls⟩
  | screensSet screens => exact ⟨h.turns, h.ids, h.calls⟩
  | seen turn => exact ⟨h.turns, h.ids, h.calls⟩
  | draftSet draft => exact ⟨h.turns, h.ids, h.calls⟩
  | nameSet name => exact ⟨h.turns, h.ids, h.calls⟩
  | lease at' => exact ⟨h.turns, h.ids, h.calls⟩

end Sound

end Slopty.Thread
