import Slopty.Lib.Run
import Slopty.Session.State

/-!
The frames a viewer may be sent ahead of the markers it answers.
-/

namespace Slopty.Session

open Slopty.Lib

/-- A viewer's reach and the actor's next marker id, which the markers of other
viewers come from too. -/
structure Feed where
  reach : Reach := {}
  nextMarker : Nat := 0
  deriving DecidableEq, Repr

namespace Feed

inductive Op where
  | frame (bytes : Nat)
  | extra
  | others (count : Nat)
  | answered (id : Nat)
  deriving DecidableEq, Repr

def marker (f : Feed) : Feed where
  reach := f.reach.marker f.nextMarker
  nextMarker := f.nextMarker + 1

def step (f : Feed) : Op → Feed
  | .frame bytes =>
      let (reach, due) := f.reach.frame bytes
      if due then marker { f with reach := reach } else { f with reach := reach }
  | .extra => f.marker
  | .others count => { f with nextMarker := f.nextMarker + count }
  | .answered id => { f with reach := f.reach.answered id }

end Feed

/-- The markers a viewer still owes an answer for stand in the order they went,
none past what was sent and less than a marker's stride before it. -/
structure Reach.Ordered (r : Reach) (next : Nat) : Prop where
  sent_lt : r.sent < 2 ^ 64
  marked_le : r.marked ≤ r.sent
  stride : r.sent - r.marked < markerEveryBytes
  ids : (r.markers.map Prod.fst).Pairwise (· < ·)
  ids_lt : ∀ m ∈ r.markers, m.1 < next
  places : (r.markers.map Prod.snd).Pairwise (· ≤ ·)
  newest : ∀ m, r.markers.getLast? = some m → m.2 = r.marked
  reached_le : ∀ at', r.reached = some at' → at' ≤ r.marked ∧ ∀ m ∈ r.markers, at' ≤ m.2
  caught_up : ∀ at', r.reached = some at' → r.markers = [] → at' = r.marked

namespace Reach

variable {r : Reach} {next : Nat}

theorem ordered_new : Ordered {} 0 where
  sent_lt := by decide
  marked_le := le_refl 0
  stride := by decide
  ids := List.Pairwise.nil
  ids_lt := nofun
  places := List.Pairwise.nil
  newest := nofun
  reached_le := nofun
  caught_up := nofun

theorem Ordered.place_le (h : r.Ordered next) : ∀ m ∈ r.markers, m.2 ≤ r.marked := by
  intro m hm
  obtain ⟨init, last, hlist⟩ : ∃ init last, r.markers = init ++ [last] :=
    ⟨_, _, (List.dropLast_append_getLast (List.ne_nil_of_mem hm)).symm⟩
  have hlast : last.2 = r.marked := h.newest last (by rw [hlist, List.getLast?_concat])
  rw [hlist, List.mem_append, List.mem_singleton] at hm
  rcases hm with hm | rfl
  · have hplaces := h.places
    rw [hlist, List.map_append, List.pairwise_append] at hplaces
    rw [← hlast]
    exact hplaces.2.2 m.2 (List.mem_map_of_mem hm) last.2 (by simp)
  · exact le_of_eq hlast

theorem Ordered.sent (h : r.Ordered next) {sent : Nat} (hle : r.sent ≤ sent)
    (hlt : sent < 2 ^ 64) (hstride : sent - r.marked < markerEveryBytes) :
    Ordered { r with sent := sent } next :=
  { h with
    sent_lt := hlt
    marked_le := h.marked_le.trans hle
    stride := hstride }

/-- The markers kept when one more is sent. -/
def kept (r : Reach) : List (Nat × Nat) :=
  if r.markers.length = markersKept then r.markers.drop 1 else r.markers

theorem kept_suffix (r : Reach) : r.kept <:+ r.markers := by
  unfold kept
  split
  · exact List.drop_suffix 1 r.markers
  · exact List.suffix_rfl

/-- A marker at the end of what was sent: the newest one, whichever was
forgotten for it. -/
theorem Ordered.marker (h : r.Ordered next) {sent : Nat} (hle : r.sent ≤ sent)
    (hlt : sent < 2 ^ 64) : Ordered (Reach.marker { r with sent := sent } next) (next + 1) := by
  have hsub : ∀ m ∈ r.kept, m ∈ r.markers := fun m hm => r.kept_suffix.subset hm
  have hplace : ∀ m ∈ r.kept, m.2 ≤ sent := fun m hm =>
    ((h.place_le m (hsub m hm)).trans h.marked_le).trans hle
  have hmarkers : (Reach.marker { r with sent := sent } next).markers =
      r.kept ++ [(next, sent)] := rfl
  refine ⟨hlt, le_refl sent, ?_, ?_, ?_, ?_, ?_, ?_, ?_⟩
  · rw [show (Reach.marker { r with sent := sent } next).sent -
      (Reach.marker { r with sent := sent } next).marked = sent - sent from rfl, Nat.sub_self]
    decide
  · rw [hmarkers, List.map_append, List.pairwise_append]
    refine ⟨h.ids.sublist (r.kept_suffix.sublist.map _), List.pairwise_singleton _ _, ?_⟩
    intro a ha b hb
    obtain ⟨m, hm, rfl⟩ := List.mem_map.mp ha
    obtain rfl : b = next := by simpa using hb
    exact h.ids_lt m (hsub m hm)
  · intro m hm
    rw [hmarkers, List.mem_append, List.mem_singleton] at hm
    rcases hm with hm | rfl
    · exact Nat.lt_succ_of_lt (h.ids_lt m (hsub m hm))
    · exact Nat.lt_succ_self next
  · rw [hmarkers, List.map_append, List.pairwise_append]
    refine ⟨h.places.sublist (r.kept_suffix.sublist.map _), List.pairwise_singleton _ _, ?_⟩
    intro a ha b hb
    obtain ⟨m, hm, rfl⟩ := List.mem_map.mp ha
    obtain rfl : b = sent := by simpa using hb
    exact hplace m hm
  · intro m hm
    rw [hmarkers, List.getLast?_concat, Option.some_inj] at hm
    subst hm
    rfl
  · intro at' hat
    have hold := h.reached_le at' hat
    have hsent : at' ≤ sent := (hold.1.trans h.marked_le).trans hle
    refine ⟨hsent, fun m hm => ?_⟩
    rw [hmarkers, List.mem_append, List.mem_singleton] at hm
    rcases hm with hm | rfl
    · exact hold.2 m (hsub m hm)
    · exact hsent
  · intro at' _ hnil
    rw [hmarkers] at hnil
    exact absurd hnil (List.append_ne_nil_of_right_ne_nil _ (List.cons_ne_nil _ _))

/-- An answer changes nothing, or it is to a marker that is remembered: that
one and the ones before it are forgotten. -/
theorem answered_cases (r : Reach) (id : Nat) :
    r.answered id = r ∨ ∃ before m behind, r.markers = before ++ m :: behind ∧ m.1 = id ∧
      r.answered id = { r with markers := behind, reached := some m.2 } := by
  unfold answered
  cases hfind : r.markers.findIdx? fun m => m.1 == id with
  | none => exact .inl rfl
  | some n =>
      obtain ⟨hn, hid, -⟩ := List.findIdx?_eq_some_iff_getElem.mp hfind
      refine .inr ⟨r.markers.take n, r.markers[n], r.markers.drop (n + 1), ?_, by simpa using hid,
        ?_⟩
      · rw [← List.drop_eq_getElem_cons hn, List.take_append_drop]
      · simp only [List.getElem?_eq_getElem hn]

theorem Ordered.answered (h : r.Ordered next) (id : Nat) : (r.answered id).Ordered next := by
  rcases r.answered_cases id with heq | ⟨before, m, behind, hmarkers, -, heq⟩
  · rw [heq]
    exact h
  · have hsuffix : behind <:+ r.markers := ⟨before ++ [m], by rw [hmarkers]; simp⟩
    have hplaces := h.places
    rw [hmarkers, List.map_append, List.map_cons] at hplaces
    have hbehind := (List.pairwise_cons.mp (List.pairwise_append.mp hplaces).2.1).1
    rw [heq]
    exact
      { sent_lt := h.sent_lt
        marked_le := h.marked_le
        stride := h.stride
        ids := h.ids.sublist (hsuffix.sublist.map _)
        ids_lt := fun other hother => h.ids_lt other (hsuffix.subset hother)
        places := h.places.sublist (hsuffix.sublist.map _)
        newest := by
          intro last hlast
          refine h.newest last ?_
          rw [hmarkers, List.getLast?_append, List.getLast?_cons, hlast]
          rfl
        reached_le := by
          rintro at' hat
          obtain rfl : m.2 = at' := Option.some_inj.mp hat
          refine ⟨h.place_le m (by rw [hmarkers]; simp), fun other hother => ?_⟩
          exact hbehind other.2 (List.mem_map_of_mem hother)
        caught_up := by
          intro at' hat hnil
          obtain rfl : m.2 = at' := Option.some_inj.mp hat
          have hnil : behind = [] := hnil
          subst hnil
          exact h.newest m (by rw [hmarkers, List.getLast?_concat]) }

theorem Ordered.answered_newest (h : r.Ordered next) {m : Nat × Nat}
    (hm : r.markers.getLast? = some m) :
    r.answered m.1 = { r with markers := [], reached := some r.marked } := by
  obtain ⟨init, hinit⟩ := List.getLast?_eq_some_iff.mp hm
  have hplace := h.newest m hm
  have hids := h.ids
  rw [hinit, List.map_append, List.pairwise_append] at hids
  have hfind : r.markers.findIdx? (fun other => other.1 == m.1) = some init.length := by
    rw [List.findIdx?_eq_some_iff_getElem]
    refine ⟨by rw [hinit]; simp, by simp [hinit], fun j hj => ?_⟩
    have hlt : init[j].1 < m.1 :=
      hids.2.2 init[j].1 (List.mem_map_of_mem (List.getElem_mem hj)) m.1 (by simp)
    simp only [hinit, List.getElem_append_left hj, beq_iff_eq]
    omega
  rw [Reach.answered, hfind]
  simp [hinit, hplace]

theorem not_isOpen {r : Reach} (h : r.isOpen = false) :
    ∃ at', r.reached = some at' ∧ framesUnreachedBytes ≤ r.sent - at' := by
  unfold isOpen at h
  cases hreached : r.reached with
  | none => simp [hreached] at h
  | some at' =>
      refine ⟨at', rfl, ?_⟩
      simpa [hreached] using h

theorem isOpen_of_reached {r : Reach} {at' : Nat} (h : r.reached = some at') :
    r.isOpen = true ↔ r.sent - at' < framesUnreachedBytes := by
  simp [isOpen, h]

/-- The newest marker is remembered while no frame may go, and its answer lets
the next one go. -/
theorem Ordered.answer_opens (h : r.Ordered next) (hshut : r.isOpen = false) :
    ∃ m ∈ r.markers, (r.answered m.1).isOpen = true := by
  obtain ⟨at', hat, hfar⟩ := not_isOpen hshut
  have hstride := h.stride
  have hless : markerEveryBytes < framesUnreachedBytes := by decide
  have hne : r.markers ≠ [] := by
    intro hnil
    have hmarked := h.caught_up at' hat hnil
    omega
  have hlast := List.getLast?_eq_some_getLast hne
  refine ⟨_, List.getLast_mem hne, ?_⟩
  rw [h.answered_newest hlast, isOpen_of_reached rfl]
  exact hstride.trans hless

end Reach

namespace Feed

theorem satAdd_lt (a b : Nat) : satAdd 64 a b < 2 ^ 64 := by
  unfold satAdd
  omega

theorem le_satAdd {a : Nat} (h : a < 2 ^ 64) (b : Nat) : a ≤ satAdd 64 a b := by
  unfold satAdd
  omega

theorem step_ordered (f : Feed) (op : Op) (h : f.reach.Ordered f.nextMarker) :
    (f.step op).reach.Ordered (f.step op).nextMarker := by
  cases op with
  | frame bytes =>
      have hle := le_satAdd h.sent_lt bytes
      have hlt := satAdd_lt f.reach.sent bytes
      unfold step Reach.frame
      dsimp only
      split
      · exact h.marker hle hlt
      · rename_i hfew
        exact h.sent hle hlt (by simpa using hfew)
  | extra => exact h.marker (le_refl f.reach.sent) h.sent_lt
  | others count =>
      exact { h with ids_lt := fun m hm => (h.ids_lt m hm).trans_le (Nat.le_add_right _ count) }
  | answered id => exact h.answered id

theorem run_ordered (ops : List Op) :
    (ops.foldl step {}).reach.Ordered (ops.foldl step {}).nextMarker := by
  induction ops using List.reverseRecOn with
  | nil => exact Reach.ordered_new
  | append_singleton ops op ih =>
      rw [List.foldl_append]
      exact step_ordered _ op ih

/-- Frames go only to a viewer that may be sent one, none larger than `largest`. -/
def Held (largest : Nat) (f : Feed) : Op → Prop
  | .frame bytes => f.reach.isOpen = true ∧ bytes ≤ largest
  | _ => True

instance (largest : Nat) (f : Feed) : ∀ op, Decidable (Held largest f op)
  | .frame bytes => inferInstanceAs (Decidable (f.reach.isOpen = true ∧ bytes ≤ largest))
  | .extra | .others _ | .answered _ => isTrue trivial

/-- A marker was answered, and what went past it is short of the budget and a
frame. -/
def Near (largest : Nat) (f : Feed) : Prop :=
  ∃ at', f.reach.reached = some at' ∧ f.reach.sent - at' < framesUnreachedBytes + largest

theorem reached_frame (f : Feed) (bytes : Nat) :
    (f.step (.frame bytes)).reach.reached = f.reach.reached ∧
      (f.step (.frame bytes)).reach.sent = satAdd 64 f.reach.sent bytes := by
  unfold step Reach.frame
  dsimp only
  split
  · exact ⟨rfl, rfl⟩
  · exact ⟨rfl, rfl⟩

/-- A frame to a viewer that may be sent one, and any answer, leave it near what
it answered. -/
theorem step_near {largest : Nat} (f : Feed) (op : Op)
    (h : f.reach.Ordered f.nextMarker ∧ Near largest f) (hheld : Held largest f op) :
    (f.step op).reach.Ordered (f.step op).nextMarker ∧ Near largest (f.step op) := by
  refine ⟨step_ordered f op h.1, ?_⟩
  obtain ⟨hordered, at', hat, hnear⟩ := h
  cases op with
  | frame bytes =>
      obtain ⟨hopen, hbytes⟩ := hheld
      obtain ⟨hreached, hsent⟩ := reached_frame f bytes
      have hroom := (Reach.isOpen_of_reached hat).mp hopen
      refine ⟨at', by rw [hreached, hat], ?_⟩
      rw [hsent]
      unfold satAdd
      omega
  | extra => exact ⟨at', hat, hnear⟩
  | others count => exact ⟨at', hat, hnear⟩
  | answered id =>
      rcases f.reach.answered_cases id with heq | ⟨before, m, behind, hmarkers, -, heq⟩
      · exact ⟨at', by rw [step, heq, hat], by rw [step, heq]; exact hnear⟩
      · refine ⟨m.2, by rw [step, heq], ?_⟩
        have hlater := (hordered.reached_le at' hat).2 m (by rw [hmarkers]; simp)
        rw [step, heq]
        dsimp only
        omega

/-- However markers and answers come, a viewer that may be sent no frame has a
marker to answer that lets the next one go; and once one was answered, the
frames that go until no more may stay short of the budget and one frame. -/
theorem budget_reopens (ops : List Op) :
    ((ops.foldl step {}).reach.isOpen = false →
      ∃ m ∈ (ops.foldl step {}).reach.markers,
        ((ops.foldl step {}).reach.answered m.1).isOpen = true) ∧
    ∀ largest more, (ops.foldl step {}).reach.reached.isSome = true →
      (ops.foldl step {}).reach.isOpen = true →
      EachStep step (Held largest) (ops.foldl step {}) more →
      Near largest (more.foldl step (ops.foldl step {})) := by
  have hordered := run_ordered ops
  refine ⟨fun hshut => hordered.answer_opens hshut, ?_⟩
  intro largest more hanswered hopen hheld
  obtain ⟨at', hat⟩ := Option.isSome_iff_exists.mp hanswered
  have hroom := (Reach.isOpen_of_reached hat).mp hopen
  have hnear : Near largest (ops.foldl step {}) := ⟨at', hat, by omega⟩
  exact (EachStep.foldl step_near hheld ⟨hordered, hnear⟩).2

/-- Two frames of 16 KiB, and an answer to the marker behind the first. -/
def answeredOne : List Op := [.frame 16384, .frame 16384, .answered 0]

def sentMore : List Op := [.frame 16384, .frame 16384, .others 3, .frame 16384, .extra]

theorem budget_reopens_answered :
    Near 16384 (sentMore.foldl step (answeredOne.foldl step {})) ∧
      ∃ m ∈ ((answeredOne ++ sentMore).foldl step {}).reach.markers,
        (((answeredOne ++ sentMore).foldl step {}).reach.answered m.1).isOpen = true :=
  ⟨(budget_reopens answeredOne).2 16384 sentMore (by decide) (by decide) (by decide),
    (budget_reopens (answeredOne ++ sentMore)).1 (by decide)⟩

/-- A viewer that had answered nothing was held to nothing: the first answer, to
an old marker, leaves it further behind than the budget and a frame. -/
theorem first_answer_past_budget :
    ¬ ∀ (ops : List Op) (op : Op) (largest : Nat), EachStep step (Held largest) {} (ops ++ [op]) →
      (ops.foldl step {}).reach.isOpen = true →
      ((ops ++ [op]).foldl step {}).reach.isOpen = false →
      ∀ at', ((ops ++ [op]).foldl step {}).reach.reached = some at' →
        ((ops ++ [op]).foldl step {}).reach.sent - at' < framesUnreachedBytes + largest := by
  intro hclaim
  have hfar := hclaim [.frame 65536, .frame 65536, .frame 65536] (.answered 0) 65536 (by decide)
    (by decide) (by decide) 65536 (by decide)
  exact absurd hfar (by decide)

end Feed

end Slopty.Session
