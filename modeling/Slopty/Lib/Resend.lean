import Mathlib.Data.List.Dedup
import Mathlib.Data.List.Perm.Subperm
import Slopty.Lib.Run

/-!
Messages sent until they are answered, over links that come and go. What was not answered is sent
again in order whenever a link comes up; the receiver acts on each message once. It acts on them
in the order they were asked, and leaves none out.
-/

namespace Slopty.Lib

universe u

variable {α : Type u}

/-- A part of a list in order that has all of the list's end has it as its end. -/
theorem sublist_append_of_subset {l before after : List α} (h : l.Sublist (before ++ after))
    (hnodup : (before ++ after).Nodup) (hall : after ⊆ l) :
    ∃ first, l = first ++ after ∧ first.Sublist before := by
  obtain ⟨first, last, rfl, hfirst, hlast⟩ := List.sublist_append_iff.mp h
  obtain ⟨-, hafter, hapart⟩ := List.nodup_append.mp hnodup
  have hsub : after ⊆ last := by
    intro a ha
    rcases List.mem_append.mp (hall ha) with hmem | hmem
    · exact absurd rfl (hapart a (hfirst.subset hmem) a ha)
    · exact hmem
  rw [hlast.eq_of_length_le (List.Nodup.subperm hafter hsub).length_le]
  exact ⟨first, rfl, hfirst⟩

variable [DecidableEq α]

/-- A sender, the link it has, and what the receiver did. -/
structure Resend (α : Type u) where
  /-- Every message asked for, without those the sender forgot. -/
  asked : List α := []
  /-- Those not answered, oldest first. -/
  outbox : List α := []
  /-- What the sender goes on with after a restart. -/
  kept : List α := []
  up : Bool := false
  /-- On their way to the receiver. -/
  flight : List α := []
  /-- Answered by the receiver, the answer on its way. -/
  answers : List α := []
  acted : List α := []
  deriving DecidableEq

namespace Resend

inductive Step (α : Type u) where
  | ask (a : α)
  | connect
  | drop
  /-- The receiver takes the next message. -/
  | act
  /-- One of the answers comes. -/
  | answer (at' : Nat)
  | keep
  /-- The sender starts again with what it kept. -/
  | restart
  deriving DecidableEq

def step (r : Resend α) : Step α → Resend α
  | .ask a =>
      { r with
        asked := r.asked ++ [a]
        outbox := r.outbox ++ [a]
        flight := if r.up then r.flight ++ [a] else r.flight }
  | .connect => { r with up := true, flight := r.outbox }
  | .drop => { r with up := false, flight := [], answers := [] }
  | .act =>
      match r.flight with
      | [] => r
      | a :: rest =>
          { r with
            flight := rest
            answers := r.answers ++ [a]
            acted := if a ∈ r.acted then r.acted else r.acted ++ [a] }
  | .answer at' =>
      match r.answers[at']? with
      | none => r
      | some a => { r with outbox := r.outbox.erase a, answers := r.answers.eraseIdx at' }
  | .keep => { r with kept := r.outbox }
  | .restart =>
      { r with
        up := false
        flight := []
        answers := []
        outbox := r.kept
        asked := r.asked.filter fun a => a ∈ r.acted ∨ a ∈ r.kept }

/-- A message is asked for once. -/
def Fresh (r : Resend α) : Step α → Prop
  | .ask a => a ∉ r.asked
  | _ => True

/-- What holds along a run, `rest` being what the receiver has still to act on. -/
structure Sound (r : Resend α) (rest : List α) : Prop where
  asked : r.asked = r.acted ++ rest
  nodup : r.asked.Nodup
  outbox : r.outbox.Sublist r.asked
  kept : r.kept.Sublist r.asked
  unacted : rest ⊆ r.outbox
  /-- While the link is up all of it is on its way, behind what goes again. -/
  flight : (r.up = true ∧ ∃ again, r.flight = again ++ rest ∧ again ⊆ r.acted) ∨
    (r.up = false ∧ r.flight = [])
  answers : r.answers ⊆ r.acted

theorem Sound.step {r : Resend α} {rest : List α} (h : r.Sound rest) (st : Step α)
    (hst : r.Fresh st) : ∃ rest, (r.step st).Sound rest := by
  cases st with
  | ask a =>
    refine ⟨rest ++ [a], ?_, ?_, h.outbox.append (List.Sublist.refl _),
      h.kept.trans (List.sublist_append_left _ _), ?_, ?_, h.answers⟩
    · rw [Resend.step, h.asked, List.append_assoc]
    · exact List.Nodup.append h.nodup (List.nodup_singleton a)
        (List.disjoint_singleton.mpr hst)
    · exact List.append_subset.mpr ⟨fun b hb => List.mem_append_left _ (h.unacted hb),
        fun b hb => List.mem_append_right _ hb⟩
    · rcases h.flight with ⟨hup, again, hflight, hagain⟩ | ⟨hdown, hflight⟩
      · refine .inl ⟨hup, again, ?_, hagain⟩
        rw [Resend.step, if_pos hup, hflight, List.append_assoc]
      · refine .inr ⟨hdown, ?_⟩
        rw [Resend.step, hdown, if_neg Bool.false_ne_true]
        exact hflight
  | connect =>
    obtain ⟨again, hflight, hagain⟩ := sublist_append_of_subset (h.asked ▸ h.outbox)
      (h.asked ▸ h.nodup) h.unacted
    exact ⟨rest, h.asked, h.nodup, h.outbox, h.kept, h.unacted,
      .inl ⟨rfl, again, hflight, hagain.subset⟩, h.answers⟩
  | drop =>
    exact ⟨rest, h.asked, h.nodup, h.outbox, h.kept, h.unacted, .inr ⟨rfl, rfl⟩,
      List.nil_subset _⟩
  | act =>
    rw [Resend.step]
    cases hflight : r.flight with
    | nil => exact ⟨rest, h⟩
    | cons a flight =>
      dsimp only
      obtain ⟨hup, again, hsplit, hagain⟩ | ⟨-, hnone⟩ := h.flight
      · rw [hflight] at hsplit
        cases again with
        | cons b again =>
          -- one that goes again was acted on
          obtain ⟨rfl, hrest⟩ := List.cons.inj hsplit
          obtain ⟨hacted, hagain⟩ := List.cons_subset.mp hagain
          rw [if_pos hacted]
          exact ⟨rest, h.asked, h.nodup, h.outbox, h.kept, h.unacted,
            .inl ⟨hup, again, hrest, hagain⟩,
            List.append_subset.mpr ⟨h.answers, List.cons_subset.mpr ⟨hacted, List.nil_subset _⟩⟩⟩
        | nil =>
          rw [List.nil_append] at hsplit
          have hnodup := h.nodup
          rw [h.asked, ← hsplit] at hnodup
          have hnew : a ∉ r.acted := fun ha =>
            (List.nodup_append.mp hnodup).2.2 a ha a List.mem_cons_self rfl
          rw [if_neg hnew]
          refine ⟨flight, ?_, h.nodup, h.outbox, h.kept, ?_,
            .inl ⟨hup, [], rfl, List.nil_subset _⟩, ?_⟩
          · rw [h.asked, ← hsplit, List.append_assoc]
            rfl
          · exact fun b hb => h.unacted (hsplit ▸ List.mem_cons_of_mem _ hb)
          · exact List.append_subset.mpr ⟨fun b hb => List.mem_append_left _ (h.answers hb),
              List.subset_append_right _ _⟩
      · exact absurd (hnone.symm.trans hflight) (List.cons_ne_nil _ _).symm
  | answer at' =>
    rw [Resend.step]
    cases hanswer : r.answers[at']? with
    | none => exact ⟨rest, h⟩
    | some a =>
      have hacted := h.answers (List.mem_of_getElem? hanswer)
      have hnodup := h.nodup
      rw [h.asked] at hnodup
      refine ⟨rest, h.asked, h.nodup, List.erase_sublist.trans h.outbox, h.kept, ?_, h.flight,
        fun b hb => h.answers (List.mem_of_mem_eraseIdx hb)⟩
      intro b hb
      have hne : b ≠ a := fun heq =>
        (List.nodup_append.mp hnodup).2.2 a hacted b hb heq.symm
      exact (List.mem_erase_of_ne hne).mpr (h.unacted hb)
  | keep => exact ⟨rest, h.asked, h.nodup, h.outbox, h.outbox, h.unacted, h.flight, h.answers⟩
  | restart =>
    have hkept : r.kept.Sublist (r.asked.filter fun a => a ∈ r.acted ∨ a ∈ r.kept) := by
      have hsub := h.kept.filter fun a => decide (a ∈ r.acted ∨ a ∈ r.kept)
      rwa [List.filter_eq_self.mpr fun a ha => decide_eq_true (.inr ha)] at hsub
    refine ⟨rest.filter fun a => a ∈ r.acted ∨ a ∈ r.kept, ?_, h.nodup.filter _, hkept, hkept, ?_,
      .inr ⟨rfl, rfl⟩, List.nil_subset _⟩
    · have hacted : r.acted.filter (fun a => decide (a ∈ r.acted ∨ a ∈ r.kept)) = r.acted :=
        List.filter_eq_self.mpr fun a ha => decide_eq_true (.inl ha)
      rw [Resend.step, h.asked, List.filter_append, hacted]
    · intro a ha
      obtain ⟨hrest, hstays⟩ := List.mem_filter.mp ha
      rcases of_decide_eq_true hstays with hacted | hmem
      · have hnodup := h.nodup
        rw [h.asked] at hnodup
        exact absurd rfl ((List.nodup_append.mp hnodup).2.2 a hacted a hrest)
      · exact hmem

def run (steps : List (Step α)) : Resend α := steps.foldl step {}

/-- Along every run the receiver acts on what was asked in order, each message once, and what it
did not act on yet is still to be sent. -/
theorem run_sound {steps : List (Step α)} (h : EachStep step Fresh ({} : Resend α) steps) :
    ∃ rest, (run steps).Sound rest :=
  h.foldl (P := fun r => ∃ rest, r.Sound rest) (fun _ _ ⟨_, hr⟩ hst => hr.step _ hst)
    ⟨[], rfl, List.nodup_nil, List.Sublist.refl _, List.Sublist.refl _, List.Subset.refl _,
      .inr ⟨rfl, rfl⟩, List.Subset.refl _⟩

end Resend

end Slopty.Lib
