import Mathlib.Data.List.Chain
import Slopty.Lib.Machine

/-!
The 32 bits of a capture's time widened past their wrap: the wraps are counted from the steps, so a
run is in order as long as it does not go back before the turn it began in.
-/

namespace Slopty.Media

open Slopty.Lib

def wrap : Nat := 2 ^ 32

/-- The largest step that still reads as the same turn. -/
def halfWrap : Nat := 2 ^ 31

structure CaptureClock where
  /-- The last sample. -/
  last : Option Nat := none
  /-- Whole wraps counted so far, multiplied out. -/
  epoch : Nat := 0
  deriving DecidableEq, Repr

namespace CaptureClock

def new : CaptureClock := {}

def turn (c : CaptureClock) (raw : Nat) : Nat :=
  match c.last with
  | some last =>
      if raw < last ∧ halfWrap < last - raw then satAdd 64 c.epoch wrap
      -- A straggler from before the last wrap.
      else if last < raw ∧ halfWrap < raw - last then c.epoch - wrap
      else c.epoch
  | none => c.epoch

def widen (c : CaptureClock) (raw : Nat) : Nat × CaptureClock :=
  let epoch := c.turn raw
  (satAdd 64 epoch raw, { last := some raw, epoch := epoch })

def widened (c : CaptureClock) : List Nat → List Nat
  | [] => []
  | time :: times =>
      let (value, next) := c.widen (time % wrap)
      value :: next.widened times

/-- Two times less than half a turn apart. -/
def Near (a b : Nat) : Prop := a < b + halfWrap ∧ b < a + halfWrap

instance (a b : Nat) : Decidable (Near a b) := inferInstanceAs (Decidable (_ ∧ _))

/-- The clock after a time, in a run that began in some turn. -/
structure Reads (c : CaptureClock) (start time : Nat) : Prop where
  last : c.last = some (time % wrap)
  since : start ≤ time / wrap
  epoch : c.epoch = (time / wrap - start) * wrap

/-- A step within half a turn keeps the count of turns, and the value is the time since the turn the
run began in. -/
theorem Reads.widen {c : CaptureClock} {start time next : Nat} (h : c.Reads start time)
    (hnear : Near time next) (hsince : start ≤ next / wrap) (hnext : next < 2 ^ 64) :
    (c.widen (next % wrap)).2.Reads start next ∧
      (c.widen (next % wrap)).1 + start * wrap = next := by
  have hstart := h.since
  have hepoch := h.epoch
  unfold Near halfWrap at hnear
  unfold wrap at hstart hepoch hsince
  have hturn : c.turn (next % wrap) = (next / wrap - start) * wrap := by
    unfold turn satAdd halfWrap wrap
    rw [h.last]
    unfold wrap
    dsimp only
    rw [hepoch]
    split
    · omega
    · split <;> omega
  refine ⟨⟨rfl, hsince, hturn⟩, ?_⟩
  show satAdd 64 (c.turn (next % wrap)) (next % wrap) + start * wrap = next
  rw [hturn]
  unfold satAdd wrap
  omega

/-- From there on the values are the times since the turn the run began in. -/
theorem Reads.widened {c : CaptureClock} {start time : Nat} (h : c.Reads start time)
    {times : List Nat} (hnear : List.IsChain Near (time :: times))
    (hsince : ∀ t ∈ times, start ≤ t / wrap) (htimes : ∀ t ∈ times, t < 2 ^ 64) :
    (c.widened times).map (· + start * wrap) = times := by
  induction times generalizing c time with
  | nil => rfl
  | cons next times ih =>
    rw [List.isChain_cons_cons] at hnear
    obtain ⟨hreads, hvalue⟩ := h.widen hnear.1 (hsince next List.mem_cons_self)
      (htimes next List.mem_cons_self)
    have hrest := ih hreads hnear.2 (fun t ht => hsince t (List.mem_cons_of_mem _ ht))
      fun t ht => htimes t (List.mem_cons_of_mem _ ht)
    rw [CaptureClock.widened, List.map_cons, hvalue, hrest]

/-- The true times are the values and one constant. -/
def ApartByConstant (times : List Nat) : Prop :=
  ∃ offset : Int, times.map Int.ofNat = (new.widened times).map fun v => Int.ofNat v + offset

/-- No time is in a turn before the one the run began in. -/
def NoneBefore (times : List Nat) : Prop :=
  ∀ first, times.head? = some first → ∀ t ∈ times, first / wrap ≤ t / wrap

theorem reads_first (first : Nat) :
    (new.widen (first % wrap)).2.Reads (first / wrap) first ∧
      (new.widen (first % wrap)).1 = first % wrap := by
  refine ⟨⟨rfl, le_refl _, ?_⟩, ?_⟩
  · rw [Nat.sub_self, Nat.zero_mul]
    rfl
  · show satAdd 64 0 (first % wrap) = first % wrap
    unfold satAdd wrap
    omega

theorem widened_of_noneBefore {times : List Nat} (hnear : times.IsChain Near)
    (htimes : ∀ t ∈ times, t < 2 ^ 64) (h : NoneBefore times) :
    ∃ turns : Nat, (new.widened times).map (· + turns * wrap) = times := by
  cases times with
  | nil => exact ⟨0, rfl⟩
  | cons first times =>
    obtain ⟨hreads, hvalue⟩ := reads_first first
    have hrest := hreads.widened hnear (fun t ht => h first rfl t (List.mem_cons_of_mem _ ht))
      fun t ht => htimes t (List.mem_cons_of_mem _ ht)
    refine ⟨first / wrap, ?_⟩
    rw [CaptureClock.widened, List.map_cons, hrest, hvalue]
    congr 1
    unfold wrap
    omega

/-- Whatever the steps within half a turn, a run's values are the true times less one constant
exactly when it never goes back before the turn it began in, and then they are ordered as the true
times are. -/
theorem widened_apart_iff {times : List Nat} (hnear : times.IsChain Near)
    (htimes : ∀ t ∈ times, t < 2 ^ 64) :
    (ApartByConstant times ↔ NoneBefore times) ∧
      (NoneBefore times → ∀ (i j : Nat) (a b v w : Nat), times[i]? = some a → times[j]? = some b →
        (new.widened times)[i]? = some v → (new.widened times)[j]? = some w → (v < w ↔ a < b)) := by
  refine ⟨⟨?_, fun h => ?_⟩, fun h => ?_⟩
  · rintro ⟨offset, hoffset⟩ first hfirst t ht
    cases times with
    | nil => exact absurd hfirst nofun
    | cons head times =>
      obtain rfl : head = first := by simpa using hfirst
      have hvalue := (reads_first head).2
      have hhead : Int.ofNat head = Int.ofNat (head % wrap) + offset := by
        rw [CaptureClock.widened, List.map_cons, List.map_cons, hvalue] at hoffset
        exact (List.cons.inj hoffset).1
      have hmem : Int.ofNat t ∈ (head :: times).map Int.ofNat := List.mem_map_of_mem ht
      rw [hoffset] at hmem
      obtain ⟨v, -, hv⟩ := List.mem_map.mp hmem
      unfold wrap at hhead ⊢
      have hv : Int.ofNat v + offset = Int.ofNat t := hv
      simp only [Int.ofNat_eq_natCast] at hhead hv
      omega
  · obtain ⟨turns, hturns⟩ := widened_of_noneBefore hnear htimes h
    refine ⟨Int.ofNat (turns * wrap), ?_⟩
    conv_lhs => rw [← hturns]
    rw [List.map_map]
    exact List.map_congr_left fun v _ => Int.natCast_add v (turns * wrap)
  · obtain ⟨turns, hturns⟩ := widened_of_noneBefore hnear htimes h
    intro i j a b v w ha hb hv hw
    have hvalue : ∀ {i a v : Nat}, times[i]? = some a → (new.widened times)[i]? = some v →
        v + turns * wrap = a := by
      intro i a v ha hv
      rw [← hturns, List.getElem?_map, hv] at ha
      exact Option.some.inj ha
    rw [← hvalue ha hv, ← hvalue hb hw]
    exact (Nat.add_lt_add_iff_right).symm

/-- A run over two wraps, with a straggler from before the second. -/
theorem widened_apart_over_wraps :
    ApartByConstant [5000000000, 7000000000, 8700000000, 8500000000] :=
  ((widened_apart_iff (by decide) (by decide)).1).mpr fun first h => by
    obtain rfl : 5000000000 = first := by simpa using h
    decide

/-- A run that begins just past a wrap and steps back over it: the straggler compares newer. -/
theorem straggler_before_first_turn :
    ¬∀ times : List Nat, times.IsChain Near → (∀ t ∈ times, t < 2 ^ 64) →
      ApartByConstant times ∧ ∀ (i j : Nat) (a b v w : Nat), times[i]? = some a →
        times[j]? = some b → (new.widened times)[i]? = some v →
          (new.widened times)[j]? = some w → a < b → v < w := by
  intro hclaim
  have hvalues : new.widened [4294967301, 4294967286] = [5, 4294967286] := by decide
  have horder := (hclaim [4294967301, 4294967286] (by decide) (by decide)).2 1 0
  rw [hvalues] at horder
  exact absurd (horder 4294967286 4294967301 4294967286 5 rfl rfl rfl rfl (by decide)) (by decide)

end CaptureClock

end Slopty.Media
