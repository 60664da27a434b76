import Mathlib.Data.List.Basic

/-!
A message sent twice: a stream brings every message once and in order, and a copy of it may
come sooner, later, many times or never. The receiver decides of each arrival whether it is
let through.
-/

namespace Slopty.Lib

universe u

/-- A sender `σ` that may make a copy of what it sends, and a receiver `τ` of both. -/
structure Race (σ τ μ κ ρ : Type u) where
  send : σ → μ → σ × Option κ
  stream : τ → μ → τ × Option ρ
  copy : τ → κ → τ × Option ρ

namespace Race

variable {σ τ μ κ ρ : Type u}

inductive Step (μ : Type u) where
  | send (m : μ)
  /-- The stream brings its next message. -/
  | stream
  /-- Some copy made so far arrives; it may arrive again. -/
  | copy (i : Nat)

structure State (_ : Race σ τ μ κ ρ) where
  sender : σ
  receiver : τ
  sent : List μ := []
  heard : Nat := 0
  copies : List κ := []
  passed : List ρ := []

variable {R : Race σ τ μ κ ρ}

namespace State

def send (s : R.State) (m : μ) : R.State :=
  { s with
    sender := (R.send s.sender m).1
    sent := s.sent ++ [m]
    copies := s.copies ++ (R.send s.sender m).2.toList }

def stream (s : R.State) (m : μ) : R.State :=
  { s with
    receiver := (R.stream s.receiver m).1
    heard := s.heard + 1
    passed := s.passed ++ (R.stream s.receiver m).2.toList }

def copy (s : R.State) (c : κ) : R.State :=
  { s with
    receiver := (R.copy s.receiver c).1
    passed := s.passed ++ (R.copy s.receiver c).2.toList }

@[simp] theorem stream_sent (s : R.State) (m : μ) : (s.stream m).sent = s.sent := rfl

@[simp] theorem copy_sent (s : R.State) (c : κ) : (s.copy c).sent = s.sent := rfl

@[simp] theorem stream_heard (s : R.State) (m : μ) : (s.stream m).heard = s.heard + 1 := rfl

@[simp] theorem copy_heard (s : R.State) (c : κ) : (s.copy c).heard = s.heard := rfl

def step (s : R.State) : Step μ → R.State
  | .send m => s.send m
  | .stream => match s.sent[s.heard]? with
      | none => s
      | some m => s.stream m
  | .copy i => match s.copies[i]? with
      | none => s
      | some c => s.copy c

def run (s : R.State) (steps : List (Step μ)) : R.State := steps.foldl step s

/-- What every send, every message of the stream and every copy preserves holds of every run. -/
theorem run_invariant (P : R.State → Prop)
    (hsend : ∀ s m, s.heard ≤ s.sent.length → P s → P (s.send m))
    (hstream : ∀ s m, s.sent[s.heard]? = some m → P s → P (s.stream m))
    (hcopy : ∀ s c, c ∈ s.copies → P s → P (s.copy c)) {s : R.State}
    (hle : s.heard ≤ s.sent.length) (hs : P s) (steps : List (Step μ)) : P (s.run steps) := by
  induction steps generalizing s with
  | nil => exact hs
  | cons i rest ih =>
      cases i with
      | send m => exact ih (Nat.le_trans hle (by simp [step, send])) (hsend s m hle hs)
      | stream =>
          cases hm : s.sent[s.heard]? with
          | none => simpa only [run, List.foldl_cons, step, hm] using ih hle hs
          | some m =>
              obtain ⟨hlt, -⟩ := List.getElem?_eq_some_iff.mp hm
              have hrest := @ih (s.stream m) hlt (hstream s m hm hs)
              simpa only [run, List.foldl_cons, step, hm] using hrest
      | copy i =>
          cases hc : s.copies[i]? with
          | none => simpa only [run, List.foldl_cons, step, hc] using ih hle hs
          | some c =>
              have hrest := @ih (s.copy c) hle (hcopy s c (List.mem_of_getElem? hc) hs)
              simpa only [run, List.foldl_cons, step, hc] using hrest

end State

end Race

end Slopty.Lib
