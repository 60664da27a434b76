import Slopty.Lib.Run
import Slopty.Thread.Copy

/-!
A client's copy of a thread. It starts from a window of the worker's state, applies the same
actions and puts older pages in front. For the turns it has it is the worker's state, as long as
nothing is put into a turn it has paged out.
-/

namespace Slopty.Thread

open Slopty.Lib

/-- Older turns of a thread. -/
structure Page where
  turns : List Turn
  items : List Item
  older : Bool
  calls : OrdMap ItemId CallNote

namespace ThreadState

/-- The first turn of a page, and what it starts from. -/
def pageFrom (s : ThreadState) (before : TurnId) (turns : Nat) : List Turn × TurnId :=
  let earlier := s.turns.filter fun t => decide (t.id < before)
  let skip := earlier.length - turns
  let taken := earlier.drop skip
  (taken, if skip = 0 ∧ s.older = false then 0 else (taken.head?).elim before Turn.id)

/-- Up to `turns` turns before `before`, with their items. -/
def page (s : ThreadState) (before : TurnId) (turns : Nat) : Page :=
  let (taken, from') := s.pageFrom before turns
  let items := s.items.filter fun i => decide (from' ≤ i.turn ∧ i.turn < before)
  { turns := taken
    items := items
    older := decide (0 < (s.turns.filter fun t => decide (t.id < before)).length - turns) || s.older
    calls := s.calls.retain fun id _ => items.any fun i => decide (i.id = id) }

/-- Put older turns in front of what this state holds. -/
def prepend (s : ThreadState) (page : Page) : ThreadState :=
  { s with
    turns := (page.turns.filter fun t => s.isOlder t.id) ++ s.turns
    items := (page.items.filter fun i => s.isOlder i.turn && (s.itemIndex i.id).isNone) ++ s.items
    calls := page.calls.entries.foldl
      (fun calls e => if (calls.get? e.1).isSome then calls else calls.insert e.1 e.2) s.calls
    older := page.older }

end ThreadState

theorem drop_eq_filter {l : List Turn} (hl : l.Pairwise fun a b => a.id < b.id) {k : Nat}
    {t : Turn} (ht : l[k]? = some t) : l.drop k = l.filter fun u => decide (t.id ≤ u.id) := by
  induction l generalizing k with
  | nil => exact absurd ht nofun
  | cons u l ih =>
    rw [List.pairwise_cons] at hl
    cases k with
    | zero =>
      obtain rfl : u = t := by simpa using ht
      rw [List.drop_zero, eq_comm, List.filter_eq_self]
      intro v hv
      rcases List.mem_cons.mp hv with rfl | hv
      · simp
      · simpa using (hl.1 v hv).le
    | succ k =>
      have ht : l[k]? = some t := by simpa using ht
      have hlt := hl.1 t (List.mem_of_getElem? ht)
      rw [List.drop_succ_cons, ih hl.2 ht, List.filter_cons, if_neg (by simpa using hlt)]

def windowHolds (s : ThreadState) (turns : Nat) : TurnId → Bool :=
  let skip := s.turns.length - turns
  if skip = 0 then fun _ => true
  else fun t => decide ((s.turns[skip]?).elim (2 ^ 32 - 1) Turn.id ≤ t)

/-- A window is a copy of the turns it holds. A window of no turns takes the last number there is
for the first one it would hold. -/
theorem Copied.window {s : ThreadState} (hs : Sound s) (turns : Nat)
    (hlast : turns = 0 → ∀ t ∈ s.turns, t.id < 2 ^ 32 - 1) :
    Copied (windowHolds s turns) s (s.window turns) := by
  unfold windowHolds ThreadState.window
  dsimp only
  split
  · refine ⟨?_, fun _ _ => rfl, fun _ _ => rfl, hs.ids, fun _ _ => rfl, ?_⟩
    · rw [List.filter_eq_self.mpr fun _ _ => rfl]
    · intro id hsome
      obtain ⟨i, hi, hid⟩ := hs.calls id hsome
      exact ⟨i, hi, hid, Or.inl rfl⟩
  · rename_i hskip
    have hturns : s.turns.drop (s.turns.length - turns) = s.turns.filter fun t =>
        decide ((s.turns[s.turns.length - turns]?).elim (2 ^ 32 - 1) Turn.id ≤ t.id) := by
      cases hfirst : s.turns[s.turns.length - turns]? with
      | some t => exact drop_eq_filter hs.turns hfirst
      | none =>
        have hle := List.getElem?_eq_none_iff.mp hfirst
        rw [List.drop_eq_nil_of_le hle, eq_comm, List.filter_eq_nil_iff]
        intro t ht
        have hlt := hlast (by omega) t ht
        exact fun hge => absurd (of_decide_eq_true hge) (not_le.mpr hlt)
    generalize (s.turns[s.turns.length - turns]?).elim (2 ^ 32 - 1) Turn.id = first at hturns ⊢
    refine ⟨hturns, ?_, ?_, (List.filter_sublist.map _).nodup hs.ids, ?_, ?_⟩
    · intro turn hturn
      have hturn : first ≤ turn := by simpa using hturn
      show (s.items.filter _).filter _ = s.items.filter _
      rw [List.filter_filter]
      apply List.filter_congr
      intro i _
      by_cases hi : i.turn = turn <;> simp [hi, hturn]
    · intro i hi
      exact (List.mem_filter.mp hi).2
    · intro i hi
      exact keepCalls_of_mem (s := { s with turns := _, items := _ }) hi
    · intro id hsome
      obtain ⟨i, hi, hid⟩ := mem_of_keepCalls (s := { s with turns := _, items := _ }) hsome
      obtain ⟨hi, hturn⟩ := List.mem_filter.mp hi
      exact ⟨i, hi, hid, Or.inl hturn⟩

theorem pageFrom_turns {s : ThreadState} (hs : Sound s) (before : TurnId) (turns : Nat) :
    (s.pageFrom before turns).1 = s.turns.filter fun t =>
      decide ((s.pageFrom before turns).2 ≤ t.id) && decide (t.id < before) := by
  unfold ThreadState.pageFrom
  dsimp only
  rw [← List.filter_filter]
  generalize hearlier : (s.turns.filter fun t => decide (t.id < before)) = earlier
  have hbefore : ∀ t ∈ earlier, t.id < before := by
    intro t ht
    rw [← hearlier] at ht
    simpa using (List.mem_filter.mp ht).2
  have hsorted : earlier.Pairwise fun a b => a.id < b.id := hearlier ▸ hs.turns.filter _
  split
  · rename_i hall
    rw [hall.1, List.drop_zero, eq_comm, List.filter_eq_self]
    intro t _
    exact decide_eq_true (Nat.zero_le _)
  · rw [List.head?_drop]
    cases hfirst : earlier[earlier.length - turns]? with
    | some t => exact drop_eq_filter hsorted hfirst
    | none =>
      rw [List.drop_eq_nil_of_le (List.getElem?_eq_none_iff.mp hfirst), eq_comm,
        List.filter_eq_nil_iff]
      intro t ht hge
      exact absurd (of_decide_eq_true hge) (not_le.mpr (hbefore t ht))

theorem get?_foldl_or_insert (entries : List (ItemId × CallNote)) (m : OrdMap ItemId CallNote)
    (id : ItemId) :
    (entries.foldl (fun calls e => if (calls.get? e.1).isSome then calls
      else calls.insert e.1 e.2) m).get? id = (m.get? id).or (OrdMap.lookupList id entries) := by
  induction entries generalizing m with
  | nil => simp [OrdMap.lookupList]
  | cons e rest ih =>
    obtain ⟨k, note⟩ := e
    rw [List.foldl_cons, ih, OrdMap.lookupList]
    by_cases hk : k = id
    · subst hk
      cases hget : m.get? k with
      | some had => simp [hget]
      | none => simp [hget]
    · cases hget : m.get? k with
      | some had => simp [hget, hk]
      | none => simp [hget, hk, OrdMap.get?_insert]

/-- Among turns in order, those of one kind before those of another. -/
theorem filter_or {l : List Turn} (hl : l.Pairwise fun a b => a.id < b.id) {p q : Turn → Bool}
    (h : ∀ a ∈ l, ∀ b ∈ l, p a = true → q b = true → a.id < b.id) :
    l.filter (fun t => q t || p t) = l.filter p ++ l.filter q := by
  induction l with
  | nil => rfl
  | cons t l ih =>
    rw [List.pairwise_cons] at hl
    have ih := ih hl.2 fun a ha b hb =>
      h a (List.mem_cons_of_mem _ ha) b (List.mem_cons_of_mem _ hb)
    cases hq : q t with
    | false => cases hp : p t <;> simp [List.filter_cons, hq, hp, ih]
    | true =>
      -- Nothing of the first kind is left once one of the second has come.
      have hnone : ∀ a ∈ t :: l, p a = false := by
        intro a ha
        by_contra hp
        have hlt := h a ha t List.mem_cons_self (by simpa using hp) hq
        rcases List.mem_cons.mp ha with rfl | ha
        · exact absurd hlt (lt_irrefl _)
        · exact absurd (hl.1 a ha) hlt.not_gt
      have hp := List.filter_eq_nil_iff.mpr fun a ha => by simpa using hnone a ha
      rw [hp, List.nil_append]
      apply List.filter_congr
      intro a ha
      rw [hnone a ha, Bool.or_false]

def pageBrings (worker client : ThreadState) (before : TurnId) (turns : Nat) (t : TurnId) : Bool :=
  client.isOlder t && decide ((worker.pageFrom before turns).2 ≤ t) && decide (t < before)

theorem page_get? (s : ThreadState) (before : TurnId) (turns : Nat) (id : ItemId) :
    (s.page before turns).calls.get? id = (s.calls.get? id).filter fun _ =>
      (s.page before turns).items.any fun i => decide (i.id = id) :=
  OrdMap.get?_retain _ _ _

theorem page_items (s : ThreadState) (before : TurnId) (turns : Nat) :
    (s.page before turns).items = s.items.filter fun i =>
      decide ((s.pageFrom before turns).2 ≤ i.turn ∧ i.turn < before) :=
  rfl

theorem mem_page {s : ThreadState} {before : TurnId} {turns : Nat} {i : Item} :
    i ∈ (s.page before turns).items ↔
      i ∈ s.items ∧ (s.pageFrom before turns).2 ≤ i.turn ∧ i.turn < before := by
  simp [page_items, List.mem_filter]

namespace Copied

variable {held : TurnId → Bool} {worker client : ThreadState}

/-- What a page puts in front are the items of the turns it brings that were not held. -/
theorem prepend_items (h : Copied held worker client) (hw : Sound worker) (before : TurnId)
    (turns : Nat) :
    (client.prepend (worker.page before turns)).items =
      (worker.items.filter fun i =>
        pageBrings worker client before turns i.turn && !held i.turn) ++ client.items := by
  show ((worker.page before turns).items.filter _) ++ client.items = _
  rw [page_items, List.filter_filter]
  congr 1
  apply List.filter_congr
  intro i hi
  have hnone : (client.itemIndex i.id).isNone = !held i.turn := by
    obtain ⟨at', j, hat, hj, hid⟩ | ⟨hnone, hall⟩ := client.itemIndex_cases i.id
    · have hj := List.mem_of_getElem? hj
      obtain rfl := h.eq_of_id hw hj hi hid
      rw [hat, h.inside j hj]
      rfl
    · have hfree : held i.turn = false := by
        by_contra hheld
        exact hall i ((h.mem_iff (by simpa using hheld)).mpr hi) rfl
      rw [hnone, hfree]
      rfl
  rw [hnone, pageBrings, Bool.decide_and]
  generalize client.isOlder i.turn = older
  cases older <;> cases held i.turn <;> simp

theorem prepend_turns (h : Copied held worker client) (hw : Sound worker) (before : TurnId)
    (turns : Nat) :
    (client.prepend (worker.page before turns)).turns = worker.turns.filter fun t =>
      held t.id || pageBrings worker client before turns t.id := by
  have hsorted := h.sorted hw
  have hor := filter_or (p := fun t => pageBrings worker client before turns t.id)
    (q := fun t => held t.id) hw.turns ?_
  · rw [hor, ← h.turns]
    show ((worker.pageFrom before turns).1.filter _) ++ client.turns = _
    rw [pageFrom_turns hw, List.filter_filter]
    congr 1
    apply List.filter_congr
    intro t _
    rw [pageBrings, Bool.and_assoc]
  · intro a ha b hb hbrings hheld
    have hb : b ∈ client.turns := h.turns ▸ List.mem_filter.mpr ⟨hb, hheld⟩
    by_contra hle
    have hold := (isOlder_eq_false hsorted).mpr ⟨b, hb, not_lt.mp hle⟩
    rw [pageBrings, hold] at hbrings
    exact absurd hbrings nofun

theorem prepend_get? (worker client : ThreadState) (before : TurnId) (turns : Nat) (id : ItemId) :
    (client.prepend (worker.page before turns)).calls.get? id =
      (client.calls.get? id).or ((worker.page before turns).calls.get? id) :=
  get?_foldl_or_insert _ _ _

/-- A client that puts a page in front has a copy of the turns of it that come before its own. -/
theorem prepend (h : Copied held worker client) (hw : Sound worker) (before : TurnId)
    (turns : Nat) :
    Copied (fun t => held t || pageBrings worker client before turns t) worker
      (client.prepend (worker.page before turns)) := by
  have hitems := h.prepend_items hw before turns
  have hturns := h.prepend_turns hw before turns
  have hcalls := prepend_get? worker client before turns
  have hfirst : ∀ t, client.isOlder t = false →
      (client.prepend (worker.page before turns)).isOlder t = false := by
    intro t ht
    obtain ⟨u, hu, hle⟩ := (isOlder_eq_false (h.sorted hw)).mp ht
    have hsorted : (client.prepend (worker.page before turns)).turns.Pairwise
        fun a b => a.id < b.id := hturns ▸ hw.turns.filter _
    exact (isOlder_eq_false hsorted).mpr ⟨u, List.mem_append_right _ hu, hle⟩
  refine ⟨hturns, ?_, ?_, ?_, ?_, ?_⟩
  · intro turn hturn
    rw [itemsOf, hitems, List.filter_append, List.filter_filter]
    cases hheld : held turn with
    | true =>
      have hnone : (worker.items.filter fun i => decide (i.turn = turn) &&
          (pageBrings worker client before turns i.turn && !held i.turn)) = [] := by
        rw [List.filter_eq_nil_iff]
        intro i _
        by_cases hi : i.turn = turn <;> simp [hi, hheld]
      rw [hnone, List.nil_append]
      exact h.items turn hheld
    | false =>
      rw [hheld, Bool.false_or] at hturn
      have hnone : (client.items.filter fun i => decide (i.turn = turn)) = [] := by
        rw [List.filter_eq_nil_iff]
        intro i hi heq
        have hin := h.inside i hi
        rw [of_decide_eq_true heq, hheld] at hin
        cases hin
      rw [hnone, List.append_nil]
      apply List.filter_congr
      intro i _
      by_cases hi : i.turn = turn <;> simp [hi, hturn, hheld]
  · intro i hi
    rw [hitems] at hi
    rcases List.mem_append.mp hi with hi | hi
    · have hin := (List.mem_filter.mp hi).2
      rw [Bool.and_eq_true] at hin
      rw [hin.1, Bool.or_true]
    · rw [h.inside i hi]
      rfl
  · rw [hitems, List.map_append, List.nodup_append]
    refine ⟨(List.filter_sublist.map _).nodup hw.ids, h.ids, ?_⟩
    intro x hx y hy hxy
    obtain ⟨i, hi, rfl⟩ := List.mem_map.mp hx
    obtain ⟨j, hj, rfl⟩ := List.mem_map.mp hy
    obtain ⟨hi, hin⟩ := List.mem_filter.mp hi
    obtain rfl := h.eq_of_id hw hj hi hxy.symm
    rw [h.inside j hj] at hin
    simp at hin
  · intro i hi
    rw [hitems] at hi
    rw [hcalls, page_get?]
    rcases List.mem_append.mp hi with hi | hi
    · -- An item the client lacked: it had no note of it.
      obtain ⟨hi, hin⟩ := List.mem_filter.mp hi
      rw [Bool.and_eq_true] at hin
      have hnone : client.calls.get? i.id = none := by
        by_contra hsome
        obtain ⟨j, hj, hid, hplace⟩ := h.notes i.id (Option.isSome_iff_ne_none.mpr hsome)
        obtain rfl := List.inj_on_of_nodup_map hw.ids hj hi hid
        rcases hplace with hheld | hold
        · simp [hheld] at hin
        · simp [pageBrings, hold] at hin
      have hbrings := hin.1
      rw [pageBrings, Bool.and_eq_true, Bool.and_eq_true] at hbrings
      have hpage : i ∈ (worker.page before turns).items :=
        mem_page.mpr ⟨hi, of_decide_eq_true hbrings.1.2, of_decide_eq_true hbrings.2⟩
      have hany : ((worker.page before turns).items.any fun j => decide (j.id = i.id)) = true :=
        List.any_eq_true.mpr ⟨i, hpage, by simp⟩
      rw [hnone, Option.none_or, hany]
      cases worker.calls.get? i.id <;> rfl
    · rw [h.calls i hi]
      cases hget : worker.calls.get? i.id with
      | none => rfl
      | some note => rfl
  · intro id hsome
    rw [hcalls] at hsome
    cases hget : client.calls.get? id with
    | some note =>
      obtain ⟨i, hi, hid, hplace⟩ := h.notes id (by rw [hget]; rfl)
      refine ⟨i, hi, hid, ?_⟩
      rcases hplace with hheld | hold
      · exact Or.inl (by rw [hheld]; rfl)
      · exact Or.inr (hfirst i.turn hold)
    | none =>
      rw [hget, Option.none_or, page_get?] at hsome
      cases hany : (worker.page before turns).items.any fun i => decide (i.id = id) with
      | false =>
        rw [hany] at hsome
        cases hnote : worker.calls.get? id <;> simp [hnote] at hsome
      | true =>
        obtain ⟨i, hi, hid⟩ := List.any_eq_true.mp hany
        obtain ⟨hi, hfrom, hbefore⟩ := mem_page.mp hi
        refine ⟨i, hi, of_decide_eq_true hid, ?_⟩
        cases hold : client.isOlder i.turn with
        | true =>
          left
          rw [pageBrings, hold, decide_eq_true hfrom, decide_eq_true hbefore, Bool.true_and,
            Bool.true_and, Bool.or_true]
        | false => exact Or.inr (hfirst i.turn hold)

end Copied

/-- A worker's thread, a client's copy of it, and which turns the client holds. -/
structure Mirror where
  worker : ThreadState
  client : ThreadState
  held : TurnId → Bool

inductive MirrorStep where
  /-- An action, applied by both. -/
  | act (a : Action)
  /-- A page of the worker's state as it is now, put in front by the client. -/
  | page (before : TurnId) (turns : Nat)

namespace Mirror

/-- A client that was sent a window of the thread. -/
def start (s : ThreadState) (turns : Nat) : Mirror :=
  { worker := s, client := s.window turns, held := windowHolds s turns }

def step (m : Mirror) : MirrorStep → Mirror
  | .act a =>
      { worker := m.worker.apply a, client := m.client.apply a, held := heldAfter m.held a }
  | .page before turns =>
      { m with
        client := m.client.prepend (m.worker.page before turns)
        held := fun t => m.held t || pageBrings m.worker m.client before turns t }

/-- The step puts nothing into a turn the client has paged out. -/
def Puts (m : Mirror) : MirrorStep → Prop
  | .act a => PutsHeld m.held m.worker a
  | .page _ _ => True

/-- For each turn the client has, it has the worker's turn, items and call notes. -/
def Mirrors (m : Mirror) : Prop :=
  ∀ t ∈ m.client.turns, t ∈ m.worker.turns ∧
    itemsOf m.client t.id = itemsOf m.worker t.id ∧
    ∀ i ∈ itemsOf m.client t.id, m.client.calls.get? i.id = m.worker.calls.get? i.id

/-- An action about a turn or an item the worker has and the client does not. -/
def PagedOut (m : Mirror) : Action → Prop
  | .turnStarted turn =>
      (∃ t ∈ m.worker.turns, t.id = turn.id) ∧ ∀ t ∈ m.client.turns, t.id ≠ turn.id
  | .turnEnded turn _ _ _ =>
      (∃ t ∈ m.worker.turns, t.id = turn) ∧ ∀ t ∈ m.client.turns, t.id ≠ turn
  | .itemStarted item | .itemUpdated item | .itemCompleted item =>
      (∃ i ∈ m.worker.items, i.id = item.id) ∧ ∀ i ∈ m.client.items, i.id ≠ item.id
  | .append item _ _ | .itemRemoved item | .callNoted item _ =>
      (∃ i ∈ m.worker.items, i.id = item) ∧ ∀ i ∈ m.client.items, i.id ≠ item
  | _ => False

/-- The action leaves the client's turns and items as they are. -/
def Untouched (m : Mirror) (a : Action) : Prop :=
  (m.client.apply a).turns = m.client.turns ∧ (m.client.apply a).items = m.client.items

/-- What holds along a run: a thread as actions make it, and a copy of the turns held. -/
structure Inv (m : Mirror) : Prop where
  sound : Sound m.worker
  copied : Copied m.held m.worker m.client

theorem start_inv {s : ThreadState} (hs : Sound s) {turns : Nat}
    (hlast : turns = 0 → ∀ t ∈ s.turns, t.id < 2 ^ 32 - 1) : (start s turns).Inv :=
  ⟨hs, Copied.window hs turns hlast⟩

theorem step_inv {m : Mirror} (h : m.Inv) {st : MirrorStep} (hst : m.Puts st) : (m.step st).Inv := by
  cases st with
  | act a => exact ⟨h.sound.apply a, h.copied.apply h.sound hst⟩
  | page before turns => exact ⟨h.sound, h.copied.prepend h.sound before turns⟩

theorem Inv.mirrors {m : Mirror} (h : m.Inv) : m.Mirrors := by
  intro t ht
  rw [h.copied.turns] at ht
  obtain ⟨ht, hheld⟩ := List.mem_filter.mp ht
  refine ⟨ht, h.copied.items t.id hheld, ?_⟩
  intro i hi
  exact h.copied.calls i (Copied.mem_itemsOf.mp hi).1

/-- What is put into a turn the client holds is about nothing it has paged out. -/
theorem Inv.not_pagedOut_item {m : Mirror} (h : m.Inv) {item : Item}
    (hputs : m.held item.turn = true ∨ ¬ Has m.worker item.turn)
    (hturn : ∀ i ∈ m.worker.items, i.id = item.id → i.turn = item.turn)
    (hworker : ∃ i ∈ m.worker.items, i.id = item.id) : ∃ i ∈ m.client.items, i.id = item.id := by
  obtain ⟨i, hi, hid⟩ := hworker
  rcases hputs with hheld | hnot
  · refine ⟨i, (h.copied.mem_iff ?_).mpr hi, hid⟩
    rw [hturn i hi hid]
    exact hheld
  · exact absurd (Or.inr ⟨i, hi, hturn i hi hid⟩) hnot

theorem Inv.untouched {m : Mirror} (h : m.Inv) {a : Action} (hputs : m.Puts (.act a))
    (hout : m.PagedOut a) : m.Untouched a := by
  have hitem : ∀ {item : Item}, m.Puts (.act (.itemStarted item)) →
      m.PagedOut (.itemStarted item) → False := by
    intro item hputs hout
    obtain ⟨i, hi, hid⟩ := h.not_pagedOut_item hputs.1 hputs.2 hout.1
    exact hout.2 i hi hid
  have hindex : ∀ {id : ItemId}, (∀ i ∈ m.client.items, i.id ≠ id) →
      m.client.itemIndex id = none := by
    intro id hall
    obtain ⟨at', i, -, hi, hid⟩ | ⟨hnone, -⟩ := m.client.itemIndex_cases id
    · exact absurd hid (hall i (List.mem_of_getElem? hi))
    · exact hnone
  cases a with
  | turnStarted turn =>
    obtain ⟨⟨t, ht, hid⟩, hclient⟩ := hout
    rcases hputs with hheld | hnot
    · have ht : t ∈ m.client.turns := by
        rw [h.copied.turns]
        exact List.mem_filter.mpr ⟨ht, hid ▸ hheld⟩
      exact absurd hid (hclient t ht)
    · exact absurd (Or.inl ⟨t, ht, hid⟩) hnot
  | turnEnded turn state usage endedMs =>
    have hsame : m.client.apply (.turnEnded turn state usage endedMs) = m.client := by
      obtain ⟨before, after, -, -, hcases⟩ := searchTurn_cases (h.copied.sorted h.sound) turn
      rcases hcases with ⟨t, ht, hsplit, -⟩ | ⟨-, -, hfound⟩
      · refine absurd ht (hout.2 t ?_)
        rw [hsplit]
        exact List.mem_append_right _ List.mem_cons_self
      · simp only [ThreadState.apply, hfound]
    exact ⟨congrArg _ hsame, congrArg _ hsame⟩
  | itemStarted item => exact (hitem hputs hout).elim
  | itemUpdated item => exact (hitem hputs hout).elim
  | itemCompleted item => exact (hitem hputs hout).elim
  | append item part text =>
    have hsame : m.client.apply (.append item part text) = m.client := by
      simp only [ThreadState.apply, hindex hout.2]
    exact ⟨congrArg _ hsame, congrArg _ hsame⟩
  | itemRemoved item =>
    unfold Untouched
    simp only [ThreadState.apply, hindex hout.2]
    exact ⟨trivial, trivial⟩
  | callNoted item note =>
    have hsame : m.client.apply (.callNoted item note) = m.client := by
      simp only [ThreadState.apply, hindex hout.2]
    exact ⟨congrArg _ hsame, congrArg _ hsame⟩
  | threadMeta _ => exact hout.elim
  | status _ => exact hout.elim
  | queuedSet _ => exact hout.elim
  | planSet _ => exact hout.elim
  | tasksSet _ => exact hout.elim
  | truncated _ => exact hout.elim
  | screensSet _ => exact hout.elim
  | seen _ => exact hout.elim
  | draftSet _ => exact hout.elim
  | nameSet _ => exact hout.elim
  | lease _ => exact hout.elim

/-- Along every run that puts nothing into a turn the client has paged out, the client mirrors the
turns it has, and such an action about what it paged out leaves it as it is. -/
theorem client_mirrors_its_turns (s : ThreadState) (hs : Sound s) (turns : Nat)
    (hlast : turns = 0 → ∀ t ∈ s.turns, t.id < 2 ^ 32 - 1) (steps : List MirrorStep)
    (hsteps : EachStep step Puts (start s turns) steps) :
    (steps.foldl step (start s turns)).Mirrors ∧
      ∀ a, (steps.foldl step (start s turns)).Puts (.act a) →
        (steps.foldl step (start s turns)).PagedOut a →
        (steps.foldl step (start s turns)).Untouched a := by
  have hinv := hsteps.foldl (P := Inv) (fun _ _ h hst => step_inv h hst) (start_inv hs hlast)
  exact ⟨hinv.mirrors, fun a hputs hout => hinv.untouched hputs hout⟩

def plainTurn (id : TurnId) : Turn :=
  { id := id, state := .active, startedMs := id, endedMs := none, usage := OrdMap.empty }

def toolItem (id : ItemId) (turn : TurnId) (state : ToolState) : Item :=
  { id := id, turn := turn, atMs := 0, body := .tool { state := state } }

def twoTurns : ThreadState :=
  { threadMeta := { id := 1 }
    turns := [plainTurn 1, plainTurn 2]
    items := [toolItem "a" 1 .completed, toolItem "b" 1 .completed, toolItem "c" 2 .running] }

theorem twoTurns_sound : Sound twoTurns :=
  ⟨by decide, by decide, fun _ h => absurd h nofun⟩

/-- The last turn goes on, the page of the first comes, and a third one starts. -/
def turnsGoOn : List MirrorStep :=
  [.act (.itemUpdated (toolItem "c" 2 .completed)), .act (.turnEnded 1 .complete OrdMap.empty 5),
    .page 2 10, .act (.turnStarted (plainTurn 3)), .act (.itemStarted (toolItem "d" 3 .running))]

theorem client_mirrors_its_turns_paged :
    EachStep step Puts (start twoTurns 1) turnsGoOn ∧
      (turnsGoOn.foldl step (start twoTurns 1)).client.turns.length = 3 ∧
      (turnsGoOn.foldl step (start twoTurns 1)).Mirrors := by
  have hsteps : EachStep step Puts (start twoTurns 1) turnsGoOn := by
    refine ⟨⟨Or.inl ?_, ?_⟩, trivial, trivial, Or.inl ?_, ⟨Or.inl ?_, ?_⟩, trivial⟩ <;> decide
  exact ⟨hsteps, by decide,
    (client_mirrors_its_turns twoTurns twoTurns_sound 1 nofun turnsGoOn hsteps).1⟩

/-- A call of the turn paged out, told again before the page of that turn comes. -/
def toldAgain : Action := .itemUpdated (toolItem "a" 1 .running)

/-- The client puts the call it had paged out, and the page does not put it back in its place. -/
theorem paged_out_call_is_put :
    Sound twoTurns ∧ (start twoTurns 1).PagedOut toldAgain ∧
      ¬ (start twoTurns 1).Untouched toldAgain ∧
      ¬ ([.act toldAgain, .page 2 10].foldl step (start twoTurns 1)).Mirrors := by
  refine ⟨twoTurns_sound, ?_, ?_, ?_⟩
  · exact ⟨⟨toolItem "a" 1 .completed, by decide, rfl⟩, by decide⟩
  · exact fun h => absurd h.2 (by decide)
  · intro h
    have hfirst := (h (plainTurn 1) (by decide)).2.1
    exact absurd hfirst (by decide)

end Mirror

end Slopty.Thread
