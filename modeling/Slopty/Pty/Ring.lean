import Slopty.Ptyd.Session

/-!
The byte ring with its count in 64 bits: what it holds, and where every byte pushed into it went.
-/

namespace Slopty.Pty

open Slopty.Lib

/-- Keeps the newest `capacity` bytes; `dropped` counts the others, up to what 64 bits hold. -/
structure Ring where
  buf : Bytes
  capacity : Nat
  dropped : Nat
  deriving DecidableEq, Repr

namespace Ring

def new (capacity : Nat) : Ring := { buf := [], capacity, dropped := 0 }

def contents (ring : Ring) : Bytes := ring.buf

def push (ring : Ring) (bytes : Bytes) : Ring :=
  if ring.capacity ≤ bytes.length then
    let skip := bytes.length - ring.capacity
    { ring with
      buf := bytes.drop skip
      dropped := satAdd 64 (satAdd 64 ring.dropped ring.buf.length) skip }
  else
    let overflow := ring.buf.length + bytes.length - ring.capacity
    let kept :=
      if 0 < overflow then
        { ring with buf := ring.buf.drop overflow, dropped := satAdd 64 ring.dropped overflow }
      else ring
    { kept with buf := kept.buf ++ bytes }

def holding (capacity : Nat) (bytes : Bytes) (dropped : Nat) : Ring :=
  let ring := (new capacity).push bytes
  { ring with dropped := satAdd 64 ring.dropped dropped }

def drain (ring : Ring) : Bytes × Ring := (ring.buf, { ring with buf := [] })

def clear (ring : Ring) : Ring := { ring with buf := [], dropped := 0 }

/-! ### Against the count that does not end -/

theorem satAdd_satAdd (a b c : Nat) : satAdd 64 (satAdd 64 a b) c = satAdd 64 a (b + c) := by
  simp only [satAdd]
  omega

/-- A push with its count: what is held and pushed, less what there is room for, is dropped. -/
theorem push_eq (ring : Ring) (bytes : Bytes) (hcount : ring.dropped < 2 ^ 64) :
    ring.push bytes =
      { ring with
        buf := (ring.buf ++ bytes).drop (ring.buf.length + bytes.length - ring.capacity)
        dropped := satAdd 64 ring.dropped (ring.buf.length + bytes.length - ring.capacity) } := by
  simp only [push]
  split
  · rename_i hlong
    have hover : ring.buf.length + bytes.length - ring.capacity =
        ring.buf.length + (bytes.length - ring.capacity) := by omega
    rw [satAdd_satAdd, hover, List.drop_length_add_append]
  · rename_i hshort
    have hle : ring.buf.length + bytes.length - ring.capacity ≤ ring.buf.length := by omega
    rw [List.drop_append_of_le_length hle]
    split
    · rfl
    · rename_i hfits
      have hzero : ring.buf.length + bytes.length - ring.capacity = 0 := Nat.eq_zero_of_not_pos hfits
      have hsame : satAdd 64 ring.dropped 0 = ring.dropped := Nat.min_eq_left (by omega)
      rw [hzero, List.drop_zero, hsame]

/-- The custodian's ring, whose count does not end, as this one. -/
def counted (ring : Ptyd.Ring) : Ring :=
  { buf := ring.buf, capacity := ring.capacity, dropped := min ring.dropped (2 ^ 64 - 1) }

theorem satAdd_min (a b : Nat) : satAdd 64 (min a (2 ^ 64 - 1)) b = min (a + b) (2 ^ 64 - 1) := by
  simp only [satAdd]
  omega

theorem counted_push (ring : Ptyd.Ring) (bytes : Bytes) :
    (counted ring).push bytes = counted (ring.push bytes) := by
  by_cases hlong : ring.capacity ≤ bytes.length
  · have hlong' : (counted ring).capacity ≤ bytes.length := hlong
    simp only [push, Ptyd.Ring.push, if_pos hlong, if_pos hlong']
    simp only [counted]
    rw [satAdd_satAdd, satAdd_min, Nat.add_assoc]
  · have hlong' : ¬ (counted ring).capacity ≤ bytes.length := hlong
    simp only [push, Ptyd.Ring.push, if_neg hlong, if_neg hlong']
    by_cases hfits : ring.buf.length + bytes.length ≤ ring.capacity
    · have hzero : ring.buf.length + bytes.length - ring.capacity = 0 := Nat.sub_eq_zero_of_le hfits
      have hnone : ¬ 0 < (counted ring).buf.length + bytes.length - (counted ring).capacity :=
        Nat.not_lt.mpr hzero.le
      rw [if_neg hnone]
      simp only [counted, hzero, List.drop_zero, Nat.add_zero]
    · have hover : 0 < (counted ring).buf.length + bytes.length - (counted ring).capacity :=
        Nat.sub_pos_of_lt (Nat.lt_of_not_le hfits)
      rw [if_pos hover]
      simp only [counted, satAdd_min]

theorem counted_drain (ring : Ptyd.Ring) :
    (counted ring).drain = (ring.drain.1, counted ring.drain.2) := rfl

theorem counted_clear (ring : Ptyd.Ring) : (counted ring).clear = counted ring.clear := rfl

theorem counted_holding (capacity : Nat) (bytes : Bytes) (dropped : Nat) :
    holding capacity bytes (min dropped (2 ^ 64 - 1)) =
      counted (Ptyd.Ring.holding capacity bytes dropped) := by
  have hnew : new capacity = counted (Ptyd.Ring.new capacity) := rfl
  simp only [holding, Ptyd.Ring.holding, hnew, counted_push]
  simp only [counted, satAdd]
  congr 1
  omega

/-! ### Where every byte went -/

inductive Op where
  | push (bytes : Bytes)
  | drain
  | clear

/-- What was pushed since the ring was last emptied, and since it was last cleared how much was
pushed and how much was drained. -/
structure Tally where
  since : Bytes
  pushed : Nat
  drained : Nat

structure Run where
  ring : Ring
  tally : Tally

def Run.start (capacity : Nat) : Run := ⟨new capacity, ⟨[], 0, 0⟩⟩

def Run.step (s : Run) : Op → Run
  | .push bytes =>
      { ring := s.ring.push bytes
        tally := { s.tally with since := s.tally.since ++ bytes, pushed := s.tally.pushed + bytes.length } }
  | .drain =>
      { ring := s.ring.drain.2
        tally := { s.tally with since := [], drained := s.tally.drained + s.ring.drain.1.length } }
  | .clear => { ring := s.ring.clear, tally := ⟨[], 0, 0⟩ }

def run (capacity : Nat) (ops : List Op) : Run := ops.foldl Run.step (.start capacity)

/-- The newest bytes are held, and every other one is drained or counted. -/
structure Run.Keeps (capacity : Nat) (s : Run) : Prop where
  sized : s.ring.capacity = capacity
  newest : s.ring.buf = s.tally.since.drop (s.tally.since.length - capacity)
  fits : s.ring.buf.length + s.tally.drained ≤ s.tally.pushed
  dropped : s.ring.dropped =
    min (s.tally.pushed - (s.ring.buf.length + s.tally.drained)) (2 ^ 64 - 1)

namespace Run.Keeps

variable {capacity : Nat} {s : Run}

theorem room (h : s.Keeps capacity) : s.ring.buf.length ≤ capacity := by
  rw [h.newest, List.length_drop]
  omega

theorem count_lt (h : s.Keeps capacity) : s.ring.dropped < 2 ^ 64 := by
  rw [h.dropped]
  omega

theorem start (capacity : Nat) : (Run.start capacity).Keeps capacity :=
  ⟨rfl, List.drop_nil.symm, Nat.le_refl 0, rfl⟩

theorem step (h : s.Keeps capacity) (op : Op) : (s.step op).Keeps capacity := by
  cases op with
  | push bytes =>
    have hcap := h.sized
    have hfits := h.fits
    have hlength := congrArg List.length h.newest
    rw [List.length_drop] at hlength
    have hpush := push_eq s.ring bytes h.count_lt
    constructor
    · rw [Run.step, hpush]
      exact hcap
    · have hsplit : s.tally.since.length + bytes.length - capacity =
          s.tally.since.length - capacity + (s.ring.buf.length + bytes.length - capacity) := by omega
      simp only [Run.step, hpush, hcap]
      rw [List.length_append, hsplit, ← List.drop_drop, List.drop_append_of_le_length (Nat.sub_le _ _),
        ← h.newest]
    · simp only [Run.step, hpush, hcap, List.length_drop, List.length_append]
      omega
    · simp only [Run.step, hpush, hcap, List.length_drop, List.length_append, h.dropped, satAdd_min]
      omega
  | drain =>
    refine ⟨h.sized, List.drop_nil.symm, ?_, ?_⟩
    · change 0 + (s.tally.drained + s.ring.buf.length) ≤ s.tally.pushed
      have := h.fits
      omega
    · change s.ring.dropped =
        min (s.tally.pushed - (0 + (s.tally.drained + s.ring.buf.length))) (2 ^ 64 - 1)
      rw [h.dropped, Nat.zero_add, Nat.add_comm]
  | clear => exact ⟨h.sized, List.drop_nil.symm, Nat.le_refl 0, rfl⟩

theorem run (capacity : Nat) (ops : List Op) : (Ring.run capacity ops).Keeps capacity :=
  ops.foldlRecOn Run.step (start capacity) fun _ h op _ => h.step op

end Run.Keeps

/-- A ring handed on as what it holds and what it lost is the ring it was. -/
theorem holding_contents {ring : Ring} (hroom : ring.buf.length ≤ ring.capacity)
    (hcount : ring.dropped < 2 ^ 64) : holding ring.capacity ring.contents ring.dropped = ring := by
  have hpush := push_eq (new ring.capacity) ring.contents (Nat.two_pow_pos 64)
  have hover : (new ring.capacity).buf.length + ring.contents.length - (new ring.capacity).capacity = 0 := by
    change 0 + ring.buf.length - ring.capacity = 0
    omega
  rw [hover] at hpush
  have hcounted : satAdd 64 (satAdd 64 0 0) ring.dropped = ring.dropped := by
    simp only [satAdd]
    omega
  simp only [holding, hpush, List.drop_zero]
  simp only [new, contents, hcounted, List.nil_append]

/-- At every moment the ring holds the newest bytes pushed since it was last emptied, what is held,
drained and counted is what was pushed since it was last cleared as far as the count reaches, and
handing it on changes nothing. -/
theorem ring_accounted (capacity : Nat) (ops : List Op) :
    let s := run capacity ops
    s.ring.contents = s.tally.since.drop (s.tally.since.length - capacity) ∧
      s.ring.contents.length ≤ capacity ∧
      s.ring.contents.length + s.tally.drained ≤ s.tally.pushed ∧
      s.ring.dropped =
        min (s.tally.pushed - (s.ring.contents.length + s.tally.drained)) (2 ^ 64 - 1) ∧
      holding capacity s.ring.contents s.ring.dropped = s.ring := by
  have h := Run.Keeps.run capacity ops
  refine ⟨h.newest, h.room, h.fits, h.dropped, ?_⟩
  have hheld := holding_contents (h.sized.symm ▸ h.room) h.count_lt
  rwa [h.sized] at hheld

/-- More was pushed than the count reaches, and a ring without room holds none of it. -/
theorem Run.Keeps.uncounted {s : Run} (h : s.Keeps 0) (hlong : 2 ^ 64 ≤ s.tally.pushed)
    (hnone : s.tally.drained = 0) :
    s.ring.contents.length + s.tally.drained + s.ring.dropped ≠ s.tally.pushed := by
  have hroom := h.room
  have hcount := h.count_lt
  rw [contents]
  omega

theorem tally_push_thrice (bytes : Bytes) :
    (run 0 [.push bytes, .push bytes, .push bytes]).tally =
      ⟨[] ++ bytes ++ bytes ++ bytes, 0 + bytes.length + bytes.length + bytes.length, 0⟩ := by
  simp only [run, List.foldl_cons, List.foldl_nil, Run.step, Run.start]

/-- A write as long as any can be. -/
def longest (b : UInt8) : Bytes := List.replicate (2 ^ 63 - 1) b

theorem length_longest (b : UInt8) : (longest b).length = 2 ^ 63 - 1 := List.length_replicate

theorem longest_thrice_uncounted :
    let s := run 0 [.push (longest 0), .push (longest 0), .push (longest 0)]
    s.ring.contents.length + s.tally.drained + s.ring.dropped ≠ s.tally.pushed := by
  have htally := tally_push_thrice (longest 0)
  refine (Run.Keeps.run 0 [.push (longest 0), .push (longest 0), .push (longest 0)]).uncounted ?_ ?_
  · rw [htally, length_longest]
    decide
  · rw [htally]

end Ring

end Slopty.Pty
