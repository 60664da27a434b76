import Slopty.Thread.Mirror

/-!
What holds of a thread's state however it came about: by actions, cut to a window, with older pages
put in front.
-/

namespace Slopty.Thread

open Slopty.Lib

inductive StateStep where
  | apply (a : Action)
  | window (turns : Nat)
  | prepend (page : Page)

namespace ThreadState

def step (s : ThreadState) : StateStep → ThreadState
  | .apply a => s.apply a
  | .window turns => s.window turns
  | .prepend page => s.prepend page

/-- No update takes a tool call that is over out of the state it ended in. -/
def StaysOver (s : ThreadState) : Prop :=
  ∀ (old : Item) (was : ToolCall), old ∈ s.items → old.body = .tool was → was.state.isFinal →
    ∀ item, ∀ new ∈ (s.apply (.itemUpdated item)).items, new.id = old.id →
      ∀ now, new.body = .tool now → now.state = was.state

/-- Turns by number, no two items of one id, call notes of items held, and calls that stay over. -/
structure Ordered (s : ThreadState) : Prop where
  turns : s.turns.Pairwise fun a b => a.id < b.id
  ids : (s.items.map Item.id).Nodup
  calls : ∀ id, (s.calls.get? id).isSome → ∃ i ∈ s.items, i.id = id
  ended : s.StaysOver

/-- The items of a page that go in front of what is held. -/
def lacks (s : ThreadState) (page : Page) : List Item :=
  page.items.filter fun i => s.isOlder i.turn && (s.itemIndex i.id).isNone

/-- A page's turns before the first one held are by number, its items there that are not held have
an id each, and its call notes are of these items or of ones held. -/
structure Fits (s : ThreadState) (page : Page) : Prop where
  turns : (page.turns.filter fun t => s.isOlder t.id).Pairwise fun a b => a.id < b.id
  ids : ((s.lacks page).map Item.id).Nodup
  calls : ∀ id, (page.calls.get? id).isSome → ∃ i, (i ∈ s.lacks page ∨ i ∈ s.items) ∧ i.id = id

/-- A page put in front fits; nothing is asked of the other steps. -/
def StepFits (s : ThreadState) : StateStep → Prop
  | .prepend page => s.Fits page
  | _ => True

end ThreadState

open ThreadState

theorem holdFinal_over {old item : Item} {was now : ToolCall} (hold : old.body = .tool was)
    (hover : was.state.isFinal) (hnow : (holdFinal old item).body = .tool now) :
    now.state = was.state := by
  obtain ⟨id, turn, atMs, body⟩ := item
  unfold holdFinal at hnow
  rw [hold] at hnow
  cases body with
  | tool call =>
    have hnever : was.state.mayBecome call.state = false := by
      simp [ToolState.mayBecome, hover]
    dsimp only at hnow
    by_cases hsame : was.state = call.state
    · rw [if_neg fun h => h.1 hsame] at hnow
      rw [← ItemBody.tool.inj hnow, hsame]
    · rw [if_pos ⟨hsame, hnever⟩] at hnow
      rw [← ItemBody.tool.inj hnow]
  | user _ _ => exact absurd hnow nofun
  | text _ => exact absurd hnow nofun
  | reasoning _ => exact absurd hnow nofun
  | compaction _ => exact absurd hnow nofun
  | notice _ _ _ => exact absurd hnow nofun
  | review _ => exact absurd hnow nofun
  | task _ => exact absurd hnow nofun
  | extra _ _ => exact absurd hnow nofun

namespace Sound

variable {s : ThreadState}

theorem eq_of_putItem (h : Sound s) {item new : Item} (hnew : new ∈ (s.putItem item).items)
    (hid : new.id = item.id) : new = item := by
  have hput : item ∈ (s.putItem item).items := by
    by_cases hin : ∃ i ∈ s.items, i.id = item.id
    · obtain ⟨i, hi, heq⟩ := hin
      rw [putItem_of_mem h.ids hi heq]
      refine List.mem_map.mpr ⟨i, hi, ?_⟩
      rw [if_pos heq]
    · have hnone : ∀ i ∈ s.items, i.id ≠ item.id := fun i hi heq => hin ⟨i, hi, heq⟩
      rw [putItem_of_notMem hnone]
      exact List.mem_append_right _ (List.mem_singleton_self item)
  exact List.inj_on_of_nodup_map (h.putItem item).ids hnew hput hid

theorem mem_of_putItem (h : Sound s) {item new : Item} (hnew : new ∈ (s.putItem item).items)
    (hid : new.id ≠ item.id) : new ∈ s.items := by
  by_cases hin : ∃ i ∈ s.items, i.id = item.id
  · obtain ⟨i, hi, heq⟩ := hin
    rw [putItem_of_mem h.ids hi heq] at hnew
    obtain ⟨j, hj, rfl⟩ := List.mem_map.mp hnew
    by_cases heq : j.id = item.id
    · rw [if_pos heq] at hid
      exact absurd rfl hid
    · rw [if_neg heq]
      exact hj
  · have hnone : ∀ i ∈ s.items, i.id ≠ item.id := fun i hi heq => hin ⟨i, hi, heq⟩
    rw [putItem_of_notMem hnone] at hnew
    rcases List.mem_append.mp hnew with hmem | hmem
    · exact hmem
    · exact absurd (congrArg Item.id (List.mem_singleton.mp hmem)) hid

theorem staysOver (h : Sound s) : s.StaysOver := by
  intro old was hmem hbody hover item new hnew hid now hnow
  have hupdated : ∃ put : Item, s.apply (.itemUpdated item) = s.putItem put ∧ put.id = item.id ∧
      (item.id = old.id → put = holdFinal old item) := by
    simp only [ThreadState.apply]
    cases hitem : s.item item.id with
    | some had =>
      refine ⟨holdFinal had item, rfl, (Copied.holdFinal_id had item).1, fun heq => ?_⟩
      rw [heq, item_of_mem h.ids hmem] at hitem
      rw [Option.some.inj hitem]
    | none =>
      refine ⟨item, rfl, rfl, fun heq => ?_⟩
      rw [heq, item_of_mem h.ids hmem] at hitem
      cases hitem
  obtain ⟨put, happly, hputid, hput⟩ := hupdated
  rw [happly] at hnew
  by_cases heq : new.id = put.id
  · -- The item the update is about: what is put holds the state the call ended in.
    obtain rfl := h.eq_of_putItem hnew heq
    rw [hput (hputid.symm.trans hid)] at hnow
    exact holdFinal_over hbody hover hnow
  · obtain rfl := List.inj_on_of_nodup_map h.ids (h.mem_of_putItem hnew heq) hmem hid
    rw [hbody] at hnow
    rw [ItemBody.tool.inj hnow]

theorem ordered_iff : s.Ordered ↔ Sound s :=
  ⟨fun h => ⟨h.turns, h.ids, h.calls⟩, fun h => ⟨h.turns, h.ids, h.calls, h.staysOver⟩⟩

theorem window (h : Sound s) (turns : Nat) : Sound (s.window turns) := by
  unfold ThreadState.window
  dsimp only
  split
  · exact h
  · have hturns := h.turns.sublist (List.drop_sublist (s.turns.length - turns) _)
    refine ⟨hturns, (List.filter_sublist.map _).nodup h.ids, ?_⟩
    intro id hsome
    exact Copied.mem_of_keepCalls (s := { s with turns := _, items := _ }) hsome

/-- The turns put in front come before the ones held, so they are by number together exactly when
those put in front are. -/
theorem prepend_turns_iff (h : Sound s) (page : Page) :
    (s.prepend page).turns.Pairwise (fun a b => a.id < b.id) ↔
      (page.turns.filter fun t => s.isOlder t.id).Pairwise fun a b => a.id < b.id := by
  show ((page.turns.filter fun t => s.isOlder t.id) ++ s.turns).Pairwise _ ↔ _
  rw [List.pairwise_append]
  refine ⟨fun hboth => hboth.1, fun hfront => ⟨hfront, h.turns, ?_⟩⟩
  intro t ht u hu
  have hold := (List.mem_filter.mp ht).2
  by_contra hle
  have hnot := (isOlder_eq_false h.turns).mpr ⟨u, hu, not_lt.mp hle⟩
  rw [hold] at hnot
  exact absurd hnot nofun

theorem prepend_ids_iff (h : Sound s) (page : Page) :
    ((s.prepend page).items.map Item.id).Nodup ↔ ((s.lacks page).map Item.id).Nodup := by
  show ((s.lacks page ++ s.items).map Item.id).Nodup ↔ _
  rw [List.map_append, List.nodup_append]
  refine ⟨fun hboth => hboth.1, fun hfront => ⟨hfront, h.ids, ?_⟩⟩
  intro x hx y hy hxy
  obtain ⟨i, hi, rfl⟩ := List.mem_map.mp hx
  obtain ⟨j, hj, rfl⟩ := List.mem_map.mp hy
  have hlacks := (List.mem_filter.mp hi).2
  rw [Bool.and_eq_true, Option.isNone_iff_eq_none] at hlacks
  obtain ⟨at', k, hat, -⟩ | ⟨-, hnone⟩ := s.itemIndex_cases i.id
  · rw [hlacks.2] at hat
    exact absurd hat nofun
  · exact hnone j hj hxy.symm

theorem prepend_calls_iff (h : Sound s) (page : Page) :
    (∀ id, ((s.prepend page).calls.get? id).isSome → ∃ i ∈ (s.prepend page).items, i.id = id) ↔
      ∀ id, (page.calls.get? id).isSome →
        ∃ i, (i ∈ s.lacks page ∨ i ∈ s.items) ∧ i.id = id := by
  have hget : ∀ id, (s.prepend page).calls.get? id = (s.calls.get? id).or (page.calls.get? id) :=
    fun id => get?_foldl_or_insert _ _ id
  have hmem : ∀ i, i ∈ (s.prepend page).items ↔ i ∈ s.lacks page ∨ i ∈ s.items := by
    intro i
    show i ∈ s.lacks page ++ s.items ↔ _
    exact List.mem_append
  constructor
  · intro hall id hid
    have hsome : ((s.prepend page).calls.get? id).isSome := by
      rw [hget, Option.isSome_or, hid, Bool.or_true]
    obtain ⟨i, hi, heq⟩ := hall id hsome
    exact ⟨i, (hmem i).mp hi, heq⟩
  · intro hall id hsome
    rw [hget, Option.isSome_or, Bool.or_eq_true] at hsome
    rcases hsome with hhad | hpage
    · obtain ⟨i, hi, heq⟩ := h.calls id hhad
      exact ⟨i, (hmem i).mpr (Or.inr hi), heq⟩
    · obtain ⟨i, hi, heq⟩ := hall id hpage
      exact ⟨i, (hmem i).mpr hi, heq⟩

theorem prepend_iff (h : Sound s) (page : Page) : Sound (s.prepend page) ↔ s.Fits page := by
  constructor
  · intro hafter
    exact ⟨(h.prepend_turns_iff page).mp hafter.turns, (h.prepend_ids_iff page).mp hafter.ids,
      (h.prepend_calls_iff page).mp hafter.calls⟩
  · intro hfits
    exact ⟨(h.prepend_turns_iff page).mpr hfits.turns, (h.prepend_ids_iff page).mpr hfits.ids,
      (h.prepend_calls_iff page).mpr hfits.calls⟩

theorem step_iff (h : Sound s) (st : StateStep) : Sound (s.step st) ↔ s.StepFits st := by
  cases st with
  | apply a => exact ⟨fun _ => trivial, fun _ => h.apply a⟩
  | window turns => exact ⟨fun _ => trivial, fun _ => h.window turns⟩
  | prepend page => exact h.prepend_iff page

/-- A page of a thread is by number and has each id once, whoever puts it in front; only its call
notes may not fit. -/
theorem page_fits_iff (h : Sound s) (client : ThreadState) (before : TurnId) (turns : Nat) :
    client.Fits (s.page before turns) ↔
      ∀ i ∈ (s.page before turns).items, (s.calls.get? i.id).isSome →
        client.isOlder i.turn = true ∨ ∃ j ∈ client.items, j.id = i.id := by
  have hturns : (s.page before turns).turns.Pairwise fun a b => a.id < b.id := by
    show (s.pageFrom before turns).1.Pairwise _
    rw [pageFrom_turns h]
    exact h.turns.filter _
  have hids : ((s.page before turns).items.map Item.id).Nodup :=
    (List.filter_sublist.map _).nodup h.ids
  have hinj : ∀ i ∈ (s.page before turns).items, ∀ j ∈ (s.page before turns).items,
      j.id = i.id → j = i := fun i hi j hj heq => List.inj_on_of_nodup_map hids hj hi heq
  constructor
  · intro hfits i hi hnote
    have hpage : ((s.page before turns).calls.get? i.id).isSome := by
      have hany : ((s.page before turns).items.any fun j => decide (j.id = i.id)) = true :=
        List.any_eq_true.mpr ⟨i, hi, decide_eq_true rfl⟩
      obtain ⟨note, hget⟩ := Option.isSome_iff_exists.mp hnote
      rw [page_get?, hany, hget]
      rfl
    obtain ⟨j, hj | hj, heq⟩ := hfits.calls i.id hpage
    · obtain ⟨hj, hlacks⟩ := List.mem_filter.mp hj
      obtain rfl := hinj i hi j hj heq
      rw [Bool.and_eq_true] at hlacks
      exact Or.inl hlacks.1
    · exact Or.inr ⟨j, hj, heq⟩
  · intro hnotes
    refine ⟨hturns.filter _, (List.filter_sublist.map _).nodup hids, ?_⟩
    intro id hsome
    rw [page_get?] at hsome
    obtain ⟨note, hget⟩ := Option.isSome_iff_exists.mp hsome
    obtain ⟨hget, hany⟩ := Option.filter_eq_some_iff.mp hget
    obtain ⟨i, hi, heq⟩ := List.any_eq_true.mp hany
    obtain rfl := of_decide_eq_true heq
    rcases client.itemIndex_cases i.id with ⟨at', j, -, hj, hid⟩ | ⟨hnone, hall⟩
    · exact ⟨j, Or.inr (List.mem_of_getElem? hj), hid⟩
    · rcases hnotes i hi (by rw [hget]; rfl) with hold | ⟨j, hj, hid⟩
      · refine ⟨i, Or.inl (List.mem_filter.mpr ⟨hi, ?_⟩), rfl⟩
        rw [hold, hnone]
        rfl
      · exact absurd hid (hall j hj)

end Sound

namespace ThreadState

theorem new_sound (threadMeta : ThreadMeta) : Sound (new threadMeta) :=
  ⟨List.Pairwise.nil, List.nodup_nil, fun _ h => absurd h nofun⟩

/-- A state stays in order along a run from nothing exactly when each page put in front fits. -/
theorem ordered_along_run (threadMeta : ThreadMeta) (steps : List StateStep) :
    (∀ before, before <+: steps → (before.foldl step (new threadMeta)).Ordered) ↔
      EachStep step StepFits (new threadMeta) steps := by
  have hrun := EachStep.iff_everywhere (fun s st (h : Sound s) => h.step_iff st)
    (new_sound threadMeta) steps
  refine Iff.trans ?_ hrun
  exact forall₂_congr fun _ _ => Sound.ordered_iff

def threeTurns : List StateStep :=
  [.apply (.turnStarted (Mirror.plainTurn 3)), .apply (.itemStarted (Mirror.toolItem "a" 3 .running)),
    .apply (.turnStarted (Mirror.plainTurn 5)), .apply (.itemStarted (Mirror.toolItem "b" 5 .running)),
    .apply (.callNoted "b" { atMs := 1 }),
    .apply (.turnStarted (Mirror.plainTurn 9)), .apply (.itemStarted (Mirror.toolItem "c" 9 .running))]

def olderPage : Page := (threeTurns.foldl step (new { id := 1 })).page 9 10

/-- A client of the last turn asks for the page twice, and the call of turn 5 goes in between. -/
def askedTwice : List StateStep :=
  [.window 1, .prepend olderPage, .apply (.itemRemoved "b"), .prepend olderPage]

/-- The page told again brings the note of the call that went, and not the call. -/
theorem page_told_again_leaves_note :
    ¬ ∀ before, before <+: threeTurns ++ askedTwice →
      (before.foldl step (new { id := 1 })).Ordered := by
  intro h
  obtain ⟨i, hi, hid⟩ := (h _ (List.prefix_refl _)).calls "b" (by decide)
  have hnone : ∀ i ∈ ((threeTurns ++ askedTwice).foldl step (new { id := 1 })).items,
      i.id ≠ "b" := by decide
  exact hnone i hi hid

end ThreadState

end Slopty.Thread
