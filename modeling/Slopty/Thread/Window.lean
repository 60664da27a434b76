import Slopty.Thread.Mirror

/-!
Paging is lossless: a window of a thread with the page before its first turn put in front is the
window that much longer.
-/

namespace Slopty.Thread

open Slopty.Lib

namespace ThreadState

/-- The page of `k` turns before a window's first turn, put in front of the window. -/
def windowThenPage (s : ThreadState) (n k : Nat) (first : Turn) : ThreadState :=
  (s.window n).prepend (s.page first.id k)

/-- It has the turns, items and call notes of the window of `n + k` turns. -/
def Lossless (s : ThreadState) (n k : Nat) (first : Turn) : Prop :=
  (s.windowThenPage n k first).turns = (s.window (n + k)).turns ∧
    (s.windowThenPage n k first).items = (s.window (n + k)).items ∧
    (s.windowThenPage n k first).calls = (s.window (n + k)).calls

def InTurnOrder (s : ThreadState) : Prop := s.items.Pairwise fun a b => a.turn ≤ b.turn

instance (s : ThreadState) : Decidable s.InTurnOrder :=
  inferInstanceAs (Decidable (s.items.Pairwise fun a b => a.turn ≤ b.turn))

variable {s : ThreadState} {n k : Nat} {first : Turn}

theorem window_eq_self (h : s.turns.length ≤ n) : s.window n = s := by
  unfold window
  dsimp only
  rw [if_pos (Nat.sub_eq_zero_of_le h)]

theorem window_turns (s : ThreadState) (n : Nat) :
    (s.window n).turns = s.turns.drop (s.turns.length - n) := by
  unfold window
  dsimp only
  split
  · rename_i hall
    rw [hall, List.drop_zero]
  · rfl

/-- A window that is not all of the state holds the items from its first turn on. -/
theorem window_items (hcut : ¬s.turns.length ≤ n)
    (hfirst : s.turns[s.turns.length - n]? = some first) :
    (s.window n).items = s.items.filter fun i => decide (first.id ≤ i.turn) := by
  unfold window
  dsimp only
  rw [if_neg (by omega), hfirst]
  rfl

theorem window_get? (hs : Sound s) (n : Nat) (id : ItemId) :
    (s.window n).calls.get? id =
      (s.calls.get? id).filter fun _ => (s.window n).items.any fun i => decide (i.id = id) := by
  by_cases hall : s.turns.length ≤ n
  · rw [window_eq_self hall]
    cases hget : s.calls.get? id with
    | none => rfl
    | some note =>
      obtain ⟨i, hi, hid⟩ := hs.calls id (by rw [hget]; rfl)
      have hany : (s.items.any fun i => decide (i.id = id)) = true :=
        List.any_eq_true.mpr ⟨i, hi, decide_eq_true hid⟩
      rw [hany]
      rfl
  · unfold window
    dsimp only
    rw [if_neg (by omega)]
    exact OrdMap.get?_retain _ _ _

theorem prepend_page_get? (s client : ThreadState) (before : TurnId) (k : Nat) (id : ItemId) :
    (client.prepend (s.page before k)).calls.get? id =
      (client.calls.get? id).or ((s.page before k).calls.get? id) :=
  get?_foldl_or_insert _ _ id

/-- In turn order, what comes before a turn is in front of what comes from it on. -/
theorem filter_before_append {items : List Item} (h : items.Pairwise fun a b => a.turn ≤ b.turn)
    {lo before : TurnId} (hle : lo ≤ before) :
    (items.filter fun i => decide (lo ≤ i.turn ∧ i.turn < before)) ++
        (items.filter fun i => decide (before ≤ i.turn)) =
      items.filter fun i => decide (lo ≤ i.turn) := by
  induction items with
  | nil => rfl
  | cons i items ih =>
    obtain ⟨hi, hitems⟩ := List.pairwise_cons.mp h
    by_cases hbefore : i.turn < before
    · have hnot : ¬before ≤ i.turn := not_le.mpr hbefore
      by_cases hlo : lo ≤ i.turn <;>
        simp only [List.filter_cons, hbefore, hnot, hlo, and_self, false_and, decide_true,
          decide_false, if_true, Bool.false_eq_true, if_false, List.cons_append, ih hitems]
    · -- From here on everything is past the turn.
      have hpast : ∀ j ∈ i :: items, before ≤ j.turn := by
        intro j hj
        rcases List.mem_cons.mp hj with rfl | hj
        · exact not_lt.mp hbefore
        · exact (not_lt.mp hbefore).trans (hi j hj)
      rw [List.filter_eq_nil_iff.mpr, List.nil_append]
      · refine List.filter_congr fun j hj => ?_
        rw [decide_eq_true (hpast j hj), decide_eq_true (hle.trans (hpast j hj))]
      · intro j hj hboth
        exact absurd (of_decide_eq_true hboth).2 (not_lt.mpr (hpast j hj))

theorem filter_lt_eq_take {turns : List Turn} (h : turns.Pairwise fun a b => a.id < b.id) {i : Nat}
    (hfirst : turns[i]? = some first) :
    (turns.filter fun t => decide (t.id < first.id)) = turns.take i := by
  induction turns generalizing i with
  | nil => exact absurd hfirst nofun
  | cons t turns ih =>
    obtain ⟨ht, hturns⟩ := List.pairwise_cons.mp h
    cases i with
    | zero =>
      obtain rfl : t = first := by simpa using hfirst
      rw [List.take_zero, List.filter_eq_nil_iff]
      intro u hu hlt
      have hlt := of_decide_eq_true hlt
      rcases List.mem_cons.mp hu with rfl | hu
      · exact absurd hlt (lt_irrefl _)
      · exact absurd hlt (ht u hu).not_gt
    | succ i =>
      have hfirst : turns[i]? = some first := by simpa using hfirst
      have hlt : t.id < first.id := ht first (List.mem_of_getElem? hfirst)
      simp only [List.filter_cons, hlt, decide_true, if_true, ih hturns hfirst, List.take_succ_cons]

theorem isOlder_of_head? (h : s.turns.head? = some first) (t : TurnId) :
    s.isOlder t = decide (t < first.id) := by
  rw [isOlder, h]
  rfl

theorem calls_of_items (hs : Sound s)
    (hitems : (s.windowThenPage n k first).items = (s.window (n + k)).items)
    (hmem : ∀ i, i ∈ (s.windowThenPage n k first).items ↔
      i ∈ (s.window n).items ∨ i ∈ (s.page first.id k).items) :
    (s.windowThenPage n k first).calls = (s.window (n + k)).calls := by
  apply OrdMap.ext_get?
  intro id
  have hany : ((s.window (n + k)).items.any fun i => decide (i.id = id)) =
      (((s.window n).items.any fun i => decide (i.id = id)) ||
        (s.page first.id k).items.any fun i => decide (i.id = id)) := by
    rw [← hitems, Bool.eq_iff_iff, Bool.or_eq_true, List.any_eq_true, List.any_eq_true,
      List.any_eq_true]
    simp only [hmem, or_and_right, exists_or]
  show ((s.window n).prepend (s.page first.id k)).calls.get? id = _
  rw [prepend_page_get?, window_get? hs, window_get? hs, page_get?, hany]
  cases s.calls.get? id with
  | none => rfl
  | some note =>
    cases (s.window n).items.any fun i => decide (i.id = id) <;>
      cases (s.page first.id k).items.any fun i => decide (i.id = id) <;> rfl

/-- A window of all turns is left as it is: the page before its first turn brings nothing. -/
theorem lossless_of_whole (hs : Sound s) (hall : s.turns.length ≤ n)
    (hfirst : s.turns.head? = some first) : s.Lossless n k first := by
  have hwindow := window_eq_self hall
  have hwindow' : s.window (n + k) = s := window_eq_self (by omega)
  have hturns : (s.page first.id k).turns = [] := by
    have hnone : (s.turns.filter fun t => decide (t.id < first.id)) = [] := by
      rw [filter_lt_eq_take hs.turns (i := 0) (by rw [← List.head?_eq_getElem?]; exact hfirst),
        List.take_zero]
    unfold page pageFrom
    simp only [hnone, List.drop_nil]
  have hheld : ∀ i ∈ (s.page first.id k).items, i ∈ s.items := fun i hi => (mem_page.mp hi).1
  have hitems : (s.windowThenPage n k first).items = s.items := by
    unfold windowThenPage
    rw [hwindow]
    show ((s.page first.id k).items.filter _) ++ s.items = s.items
    rw [List.filter_eq_nil_iff.mpr, List.nil_append]
    intro i hi hlacks
    rw [Bool.and_eq_true, Option.isNone_iff_eq_none] at hlacks
    rcases s.itemIndex_cases i.id with ⟨at', j, hat, -⟩ | ⟨-, hnone⟩
    · rw [hlacks.2] at hat
      exact absurd hat nofun
    · exact hnone i (hheld i hi) rfl
  refine ⟨?_, by rw [hitems, hwindow'], calls_of_items hs (by rw [hitems, hwindow']) ?_⟩
  · rw [hwindow']
    unfold windowThenPage
    rw [hwindow]
    show ((s.page first.id k).turns.filter _) ++ s.turns = s.turns
    rw [hturns]
    rfl
  · intro i
    rw [hitems, hwindow]
    exact ⟨.inl, fun h => h.elim id (hheld i)⟩

/-- The page before a window's first turn starts where the longer window does. -/
theorem pageFrom_before_window (hs : Sound s) (hcut : n < s.turns.length)
    (hfirst : s.turns[s.turns.length - n]? = some first) :
    (s.pageFrom first.id k).1 = (s.turns.take (s.turns.length - n)).drop (s.turns.length - n - k) ∧
      (s.turns.length ≤ n + k → s.older = false → (s.pageFrom first.id k).2 = 0) ∧
      (s.turns.length ≤ n + k → s.older = true →
        (s.pageFrom first.id k).2 = (s.turns.head?).elim first.id Turn.id) ∧
      (n + k < s.turns.length → ∀ t, s.turns[s.turns.length - (n + k)]? = some t →
        (s.pageFrom first.id k).2 = t.id) := by
  have hearlier := filter_lt_eq_take hs.turns hfirst
  have hlength : (s.turns.take (s.turns.length - n)).length = s.turns.length - n :=
    List.length_take_of_le (Nat.sub_le _ _)
  unfold pageFrom
  simp only [hearlier, hlength]
  refine ⟨trivial, ?_, ?_, ?_⟩
  · intro hall holder
    rw [if_pos ⟨by omega, holder⟩]
  · intro hall holder
    have hpos : 0 < s.turns.length - n := by omega
    rw [if_neg (by simp [holder]), show s.turns.length - n - k = 0 by omega, List.drop_zero,
      List.head?_take, if_neg (by omega)]
  · intro hlong t ht
    rw [if_neg fun h => absurd h.1 (by omega), List.head?_drop,
      show s.turns.length - n - k = s.turns.length - (n + k) by omega]
    by_cases hk : k = 0
    · subst hk
      rw [List.getElem?_eq_none (by rw [hlength]; omega)]
      exact congrArg Turn.id (Option.some.inj (hfirst.symm.trans ht))
    · rw [List.getElem?_take_of_lt (by omega), ht]
      rfl

/-- What a page brings in front of a cut window is all of its items. -/
theorem windowThenPage_items (hs : Sound s) (hcut : n < s.turns.length)
    (hfirst : s.turns[s.turns.length - n]? = some first) :
    (s.windowThenPage n k first).items = (s.page first.id k).items ++ (s.window n).items := by
  have hhead : (s.window n).turns.head? = some first := by
    rw [window_turns, List.head?_drop, hfirst]
  show ((s.page first.id k).items.filter _) ++ (s.window n).items = _
  rw [List.filter_eq_self.mpr]
  intro i hi
  obtain ⟨hi, -, hbefore⟩ := mem_page.mp hi
  rw [isOlder_of_head? hhead, decide_eq_true hbefore, Bool.true_and, Option.isNone_iff_eq_none]
  rcases (s.window n).itemIndex_cases i.id with ⟨at', j, -, hj, hid⟩ | ⟨hnone, -⟩
  · -- The window's item of that id would be the same item, and that one is before the window.
    have hj := List.mem_of_getElem? hj
    rw [window_items (by omega) hfirst] at hj
    obtain ⟨hj, hfrom⟩ := List.mem_filter.mp hj
    obtain rfl := List.inj_on_of_nodup_map hs.ids hj hi hid
    exact absurd (of_decide_eq_true hfrom) (not_le.mpr hbefore)
  · exact hnone

theorem lossless_of_cut (hs : Sound s) (hitems : s.InTurnOrder) (hcut : n < s.turns.length)
    (hfirst : s.turns[s.turns.length - n]? = some first)
    (holder : s.older = true → ∀ t, s.turns.head? = some t → ∀ i ∈ s.items, t.id ≤ i.turn) :
    s.Lossless n k first := by
  obtain ⟨htaken, hnew, hold, hlong⟩ := pageFrom_before_window (k := k) hs hcut hfirst
  have hhead : (s.window n).turns.head? = some first := by
    rw [window_turns, List.head?_drop, hfirst]
  have hfront := windowThenPage_items (k := k) hs hcut hfirst
  have hlen := (List.getElem?_eq_some_iff.mp hfirst).1
  have hlo : (s.pageFrom first.id k).2 ≤ first.id ∧
      (s.items.filter fun i => decide ((s.pageFrom first.id k).2 ≤ i.turn)) =
        (s.window (n + k)).items := by
    by_cases hall : s.turns.length ≤ n + k
    · have hself : (s.items.filter fun i => decide ((s.pageFrom first.id k).2 ≤ i.turn)) = s.items ∧
          (s.pageFrom first.id k).2 ≤ first.id := by
        cases hsome : s.older with
        | false =>
          rw [hnew hall hsome]
          exact ⟨List.filter_eq_self.mpr fun _ _ => decide_eq_true (Nat.zero_le _), Nat.zero_le _⟩
        | true =>
          cases hturns : s.turns with
          | nil =>
            rw [hturns] at hlen
            exact absurd hlen (by simp)
          | cons t turns =>
            have ht : s.turns.head? = some t := by rw [hturns, List.head?_cons]
            rw [hold hall hsome, ht, Option.elim_some]
            refine ⟨List.filter_eq_self.mpr fun i hi => decide_eq_true (holder hsome t ht i hi), ?_⟩
            have hsorted := hs.turns
            have hmem := List.mem_of_getElem? hfirst
            rw [hturns] at hsorted hmem
            rcases List.mem_cons.mp hmem with rfl | hmem
            · exact le_refl _
            · exact ((List.pairwise_cons.mp hsorted).1 first hmem).le
      rw [window_eq_self hall]
      exact hself.symm
    · have hlt : s.turns.length - (n + k) < s.turns.length := by omega
      have ht := List.getElem?_eq_getElem hlt
      rw [hlong (by omega) _ ht, window_items hall ht]
      refine ⟨?_, rfl⟩
      obtain ⟨hi, rfl⟩ := List.getElem?_eq_some_iff.mp hfirst
      rcases Nat.lt_or_eq_of_le (show s.turns.length - (n + k) ≤ s.turns.length - n by omega) with
        hlt' | heq
      · exact (List.pairwise_iff_getElem.mp hs.turns _ _ hlt hi hlt').le
      · exact le_of_eq (congrArg Turn.id (getElem_congr_idx heq))
  have hboth : (s.windowThenPage n k first).items = (s.window (n + k)).items := by
    rw [hfront, page_items, window_items (by omega) hfirst, filter_before_append hitems hlo.1, hlo.2]
  refine ⟨?_, hboth, calls_of_items hs hboth ?_⟩
  · show ((s.pageFrom first.id k).1.filter _) ++ (s.window n).turns = (s.window (n + k)).turns
    have holderAll : ∀ t ∈ (s.pageFrom first.id k).1, (s.window n).isOlder t.id = true := by
      intro t ht
      rw [htaken] at ht
      have ht := List.mem_of_mem_drop ht
      rw [← filter_lt_eq_take hs.turns hfirst] at ht
      rw [isOlder_of_head? hhead]
      exact (List.mem_filter.mp ht).2
    rw [List.filter_eq_self.mpr holderAll, htaken, window_turns, window_turns]
    have hlength : (s.turns.take (s.turns.length - n)).length = s.turns.length - n :=
      List.length_take_of_le (Nat.sub_le _ _)
    rw [← List.drop_append_of_le_length (by rw [hlength]; exact Nat.sub_le _ _),
      List.take_append_drop, Nat.sub_sub]
  · intro i
    rw [hfront, List.mem_append]
    exact or_comm

/-- Whatever the length of a window that has a turn, the page before its first turn makes it that
much longer: none of the turns, items and call notes is lost, or doubled. -/
theorem page_extends_window (s : ThreadState) (hs : Sound s) (hitems : s.InTurnOrder)
    (holder : s.older = true → ∀ t, s.turns.head? = some t → ∀ i ∈ s.items, t.id ≤ i.turn)
    (n k : Nat) (first : Turn) (hfirst : (s.window n).turns.head? = some first) :
    s.Lossless n k first := by
  by_cases hall : s.turns.length ≤ n
  · rw [window_eq_self hall] at hfirst
    exact lossless_of_whole hs hall hfirst
  · rw [window_turns, List.head?_drop] at hfirst
    exact lossless_of_cut hs hitems (not_le.mp hall) hfirst holder

/-- Three turns, one item in each of the first two, a note of the first. -/
def pagedTurns : ThreadState :=
  { threadMeta := { id := 1 }
    turns := [Mirror.plainTurn 1, Mirror.plainTurn 2, Mirror.plainTurn 5]
    items := [Mirror.toolItem "a" 1 .completed, Mirror.toolItem "b" 2 .completed]
    calls := OrdMap.empty.insert "a" { atMs := 1 } }

theorem page_extends_window_of_two :
    pagedTurns.Lossless 1 1 (Mirror.plainTurn 5) ∧ pagedTurns.Lossless 1 7 (Mirror.plainTurn 5) := by
  have hs : Sound pagedTurns := by
    refine ⟨by decide, by decide, fun id h => ⟨Mirror.toolItem "a" 1 .completed, by decide, ?_⟩⟩
    rw [pagedTurns, OrdMap.get?_insert] at h
    by_contra hne
    change ¬"a" = id at hne
    rw [if_neg hne] at h
    exact absurd h nofun
  exact ⟨page_extends_window pagedTurns hs (by decide) nofun 1 1 _ (by decide),
    page_extends_window pagedTurns hs (by decide) nofun 1 7 _ (by decide)⟩

/-- Turns out of order, an id given to two items, a note of no item, and an item from before the
turns of a state that has older ones: of each something is lost. -/
theorem page_loses_what_is_not_in_order :
    (¬∀ (s : ThreadState) (n k : Nat) (first : Turn), s.InTurnOrder → (s.items.map Item.id).Nodup →
      (∀ id, (s.calls.get? id).isSome → ∃ i ∈ s.items, i.id = id) → s.older = false →
      (s.window n).turns.head? = some first → s.Lossless n k first) ∧
    (¬∀ (s : ThreadState) (n k : Nat) (first : Turn), s.InTurnOrder →
      (s.turns.Pairwise fun a b => a.id < b.id) →
      (∀ id, (s.calls.get? id).isSome → ∃ i ∈ s.items, i.id = id) → s.older = false →
      (s.window n).turns.head? = some first → s.Lossless n k first) ∧
    (¬∀ (s : ThreadState) (n k : Nat) (first : Turn), s.InTurnOrder →
      (s.turns.Pairwise fun a b => a.id < b.id) → (s.items.map Item.id).Nodup → s.older = false →
      (s.window n).turns.head? = some first → s.Lossless n k first) ∧
    ¬∀ (s : ThreadState) (n k : Nat) (first : Turn), s.InTurnOrder → Sound s →
      (s.window n).turns.head? = some first → s.Lossless n k first := by
  refine ⟨fun h => ?_, fun h => ?_, fun h => ?_, fun h => ?_⟩
  · have hturns := (h { threadMeta := { id := 1 }
                        turns := [Mirror.plainTurn 3, Mirror.plainTurn 1, Mirror.plainTurn 2] }
      1 2 (Mirror.plainTurn 2) List.Pairwise.nil List.nodup_nil (fun _ h => absurd h nofun) rfl
      rfl).1
    exact absurd hturns (by decide)
  · have hlost := (h { threadMeta := { id := 1 }, turns := [Mirror.plainTurn 1, Mirror.plainTurn 2]
                       items := [Mirror.toolItem "a" 1 .running, Mirror.toolItem "a" 2 .running] }
      1 1 (Mirror.plainTurn 2) (by decide) (by decide)
      (fun _ h => absurd h nofun) rfl rfl).2.1
    exact absurd hlost (by decide)
  · have hlost := (h { threadMeta := { id := 1 }, turns := [Mirror.plainTurn 1, Mirror.plainTurn 2]
                       calls := OrdMap.empty.insert "a" { atMs := 1 } }
      1 1 (Mirror.plainTurn 2) List.Pairwise.nil (by decide) List.nodup_nil rfl rfl).2.2
    exact absurd hlost (by decide)
  · have hlost := (h { threadMeta := { id := 1 }, turns := [Mirror.plainTurn 1, Mirror.plainTurn 2]
                       items := [Mirror.toolItem "a" 0 .running], older := true }
      1 1 (Mirror.plainTurn 2) (by decide)
      ⟨by decide, by decide, fun _ h => absurd h nofun⟩ rfl).2.1
    exact absurd hlost (by decide)

end ThreadState

end Slopty.Thread
