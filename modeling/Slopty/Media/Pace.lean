import Mathlib.Data.List.Chain
import Slopty.Lib.Machine

/-!
The cadence gate: which captures reach the encoder at a frame rate, and how many do over a stretch
of time.
-/

namespace Slopty.Media

open Slopty.Lib

/-- One frame's period at a rate, in microseconds; a second at 0. -/
def periodUs (fps : UInt16) : Nat := if fps.toNat = 0 then 1000000 else 1000000 / fps.toNat

theorem periodUs_pos (fps : UInt16) : 0 < periodUs fps := by
  unfold periodUs
  split
  · decide
  · rename_i hfps
    exact Nat.div_pos (by have := fps.toNat_lt; omega) (Nat.pos_of_ne_zero hfps)

/-- The gate, by its next slot on the capture clock; 0 before any frame. -/
structure Pace where
  nextUs : Nat := 0
  deriving DecidableEq, Repr

namespace Pace

/-- The earliest a capture passes. -/
def dueAt (p : Pace) (fps : UInt16) : Nat := p.nextUs - periodUs fps / 8

def due (p : Pace) (atUs : Nat) (fps : UInt16) : Bool := decide (p.dueAt fps ≤ atUs)

/-- A frame claims the slot, and the next is one period on; one more than a period past its slot
ends a pause. -/
def sent (p : Pace) (atUs : Nat) (fps : UInt16) : Pace :=
  let slot := satAdd 64 p.nextUs (periodUs fps)
  { nextUs := if slot < atUs then satAdd 64 atUs (periodUs fps) else slot }

def letThrough (fps : UInt16) (p : Pace) : List Nat → List Nat
  | [] => []
  | atUs :: rest =>
      if p.due atUs fps then atUs :: letThrough fps (p.sent atUs fps) rest
      else letThrough fps p rest

/-- How many of some times are within a span. -/
def within (start length : Nat) (times : List Nat) : Nat :=
  times.countP fun t => decide (start ≤ t ∧ t ≤ start + length)

/-- A capture after another, at most a period on. -/
def Follows (fps : UInt16) (a b : Nat) : Prop := a ≤ b ∧ b ≤ a + periodUs fps

instance (fps : UInt16) (a b : Nat) : Decidable (Follows fps a b) :=
  inferInstanceAs (Decidable (_ ∧ _))

/-- Times the slots stay below 2^64 for. -/
def Early (fps : UInt16) (times : List Nat) : Prop := ∀ t ∈ times, t + 3 * periodUs fps < 2 ^ 64

instance (fps : UInt16) (times : List Nat) : Decidable (Early fps times) :=
  inferInstanceAs (Decidable (∀ t ∈ times, _))

variable {fps : UInt16} {p : Pace} {atUs : Nat}

theorem le_of_due (h : p.due atUs fps = true) : p.nextUs ≤ atUs + periodUs fps / 8 := by
  have hdue := of_decide_eq_true h
  unfold dueAt at hdue
  omega

theorem lt_of_not_due (h : ¬p.due atUs fps = true) : atUs + periodUs fps / 8 < p.nextUs := by
  have hnot : ¬p.dueAt fps ≤ atUs := fun hle => h (decide_eq_true hle)
  unfold dueAt at hnot
  omega

theorem sent_nextUs (hdue : p.due atUs fps = true) (hearly : atUs + 3 * periodUs fps < 2 ^ 64) :
    (p.sent atUs fps).nextUs =
      if p.nextUs + periodUs fps < atUs then atUs + periodUs fps else p.nextUs + periodUs fps := by
  have hle := le_of_due hdue
  have hslot : satAdd 64 p.nextUs (periodUs fps) = p.nextUs + periodUs fps := by
    unfold satAdd
    omega
  have hnext : satAdd 64 atUs (periodUs fps) = atUs + periodUs fps := by
    unfold satAdd
    omega
  unfold sent
  dsimp only
  rw [hslot, hnext]

section Most

/-- Each frame let through takes a period of the time from the next slot on. -/
theorem count_before (times : List Nat) (hearly : Early fps times) (p : Pace) (stop : Nat)
    (hsome : 0 < (letThrough fps p times).countP fun t => decide (t ≤ stop)) :
    ((letThrough fps p times).countP fun t => decide (t ≤ stop)) * periodUs fps + p.nextUs ≤
      stop + periodUs fps + periodUs fps / 8 := by
  induction times generalizing p with
  | nil => exact absurd hsome (Nat.lt_irrefl 0)
  | cons atUs rest ih =>
    have ih := ih fun t ht => hearly t (List.mem_cons_of_mem _ ht)
    rw [letThrough] at hsome ⊢
    split at hsome
    · rename_i hdue
      rw [if_pos hdue]
      have hnext := sent_nextUs hdue (hearly atUs List.mem_cons_self)
      have hle := le_of_due hdue
      have hstep : p.nextUs + periodUs fps ≤ (p.sent atUs fps).nextUs := by
        rw [hnext]
        split <;> omega
      rw [List.countP_cons] at hsome ⊢
      by_cases hrest : 0 < (letThrough fps (p.sent atUs fps) rest).countP fun t => decide (t ≤ stop)
      · have hcount := ih (p.sent atUs fps) hrest
        split
        · rw [Nat.add_mul, Nat.one_mul]
          omega
        · rw [Nat.add_zero]
          omega
      · have hzero := Nat.eq_zero_of_not_pos hrest
        rw [hzero] at hsome ⊢
        split at hsome
        · rename_i hin
          have hin : atUs ≤ stop := of_decide_eq_true hin
          rw [if_pos (decide_eq_true hin), Nat.zero_add, Nat.one_mul]
          omega
        · exact absurd hsome (Nat.lt_irrefl _)
    · rename_i hdue
      rw [if_neg hdue]
      exact ih p hsome

/-- Over a span there are at most as many frames as periods in it, and two and the tolerance. -/
theorem within_le (times : List Nat) (hearly : Early fps times) (p : Pace) (start length : Nat) :
    within start length (letThrough fps p times) * periodUs fps ≤
      length + 2 * periodUs fps + periodUs fps / 8 := by
  induction times generalizing p with
  | nil => simp [letThrough, within]
  | cons atUs rest ih =>
    have hrest : Early fps rest := fun t ht => hearly t (List.mem_cons_of_mem _ ht)
    rw [letThrough]
    split
    · rename_i hdue
      have hnext := sent_nextUs hdue (hearly atUs List.mem_cons_self)
      have hafter : atUs ≤ (p.sent atUs fps).nextUs := by
        rw [hnext]
        split <;> omega
      unfold within
      rw [List.countP_cons]
      split
      · rename_i hin
        have hin := of_decide_eq_true hin
        have hsub : within start length (letThrough fps (p.sent atUs fps) rest) ≤
            (letThrough fps (p.sent atUs fps) rest).countP fun t => decide (t ≤ start + length) := by
          refine List.countP_mono_left fun t _ ht => ?_
          exact decide_eq_true (of_decide_eq_true ht).2
        rw [Nat.add_mul, Nat.one_mul]
        rcases Nat.eq_zero_or_pos ((letThrough fps (p.sent atUs fps) rest).countP fun t =>
          decide (t ≤ start + length)) with hzero | hpos
        · have hnone : within start length (letThrough fps (p.sent atUs fps) rest) = 0 := by omega
          unfold within at hnone
          rw [hnone]
          omega
        · have hcount := count_before rest hrest (p.sent atUs fps) (start + length) hpos
          have hmul := Nat.mul_le_mul_right (periodUs fps) hsub
          unfold within at hmul
          omega
      · exact ih hrest (p.sent atUs fps)
    · exact ih hrest p

end Most

section Least

/-- A gate a capture was offered to: its next slot is not before the capture, and due within a
period of it. -/
structure Ready (fps : UInt16) (p : Pace) (last : Nat) : Prop where
  le_next : last ≤ p.nextUs
  next_le : p.nextUs ≤ last + periodUs fps + periodUs fps / 8

/-- A frame let through a period after the last capture, or less, is in its slot. -/
theorem Ready.sent_nextUs {last : Nat} (h : Ready fps p last) (hfollows : Follows fps last atUs)
    (hdue : p.due atUs fps = true) (hearly : atUs + 3 * periodUs fps < 2 ^ 64) :
    (p.sent atUs fps).nextUs = p.nextUs + periodUs fps := by
  rw [Pace.sent_nextUs hdue hearly, if_neg]
  have := h.le_next
  have := hfollows.2
  omega

theorem Ready.sent {last : Nat} (h : Ready fps p last) (hfollows : Follows fps last atUs)
    (hdue : p.due atUs fps = true) (hearly : atUs + 3 * periodUs fps < 2 ^ 64) :
    Ready fps (p.sent atUs fps) atUs := by
  have hle := le_of_due hdue
  have hfrom := h.le_next
  have hto := hfollows.2
  constructor <;> rw [h.sent_nextUs hfollows hdue hearly] <;> omega

theorem Ready.held {last : Nat} (h : Ready fps p last) (hfollows : Follows fps last atUs)
    (hdue : ¬p.due atUs fps = true) : Ready fps p atUs := by
  have hlt := lt_of_not_due hdue
  have hle := h.next_le
  have hfrom := hfollows.1
  exact ⟨by omega, by omega⟩

/-- The first capture offered, when it is due, leaves the gate ready. -/
theorem ready_of_first (hdue : p.due atUs fps = true)
    (hearly : atUs + 3 * periodUs fps < 2 ^ 64) : Ready fps (p.sent atUs fps) atUs := by
  have hle := le_of_due hdue
  constructor <;> rw [Pace.sent_nextUs hdue hearly] <;> split <;> omega

theorem mem_letThrough {times : List Nat} {p : Pace} {t : Nat} (h : t ∈ letThrough fps p times) :
    t ∈ times := by
  induction times generalizing p with
  | nil => exact h
  | cons atUs rest ih =>
    rw [letThrough] at h
    split at h
    · rcases List.mem_cons.mp h with rfl | h
      · exact List.mem_cons_self
      · exact List.mem_cons_of_mem _ (ih h)
    · exact List.mem_cons_of_mem _ (ih h)

theorem le_of_chain {a : Nat} {times : List Nat} (h : (a :: times).IsChain (Follows fps)) :
    ∀ t ∈ times, a ≤ t := by
  induction times generalizing a with
  | nil => exact fun t ht => absurd ht List.not_mem_nil
  | cons b times ih =>
    obtain ⟨hab, hrest⟩ := List.isChain_cons_cons.mp h
    intro t ht
    rcases List.mem_cons.mp ht with rfl | ht
    · exact hab.1
    · exact hab.1.trans (ih hrest t ht)

/-- From a capture on, the slots claimed reach within a period of any time up to the last capture;
where the next is not due with that capture, within a period less the tolerance. -/
theorem Ready.reach {last : Nat} {times : List Nat} (h : Ready fps p last)
    (hchain : (last :: times).IsChain (Follows fps)) (hearly : Early fps times) {stop : Nat}
    (hfrom : last ≤ stop) (hto : stop ≤ (last :: times).getLast (List.cons_ne_nil _ _)) :
    let count := (letThrough fps p times).countP fun t => decide (t ≤ stop)
    stop < p.nextUs + count * periodUs fps + periodUs fps ∧
      (last + periodUs fps / 8 < p.nextUs →
        stop + periodUs fps / 8 < p.nextUs + count * periodUs fps + periodUs fps) := by
  have hpos := periodUs_pos fps
  induction times generalizing p last with
  | nil =>
    rw [List.getLast_singleton] at hto
    obtain rfl : stop = last := le_antisymm hto hfrom
    have := h.le_next
    refine ⟨?_, ?_⟩
    · simp only [letThrough, List.countP_nil, Nat.zero_mul]
      omega
    · intro hahead
      simp only [letThrough, List.countP_nil, Nat.zero_mul]
      omega
  | cons atUs rest ih =>
    obtain ⟨hfollows, hrest⟩ := List.isChain_cons_cons.mp hchain
    have hbefore := h.le_next
    have hgap := hfollows.2
    rw [List.getLast_cons_cons] at hto
    dsimp only
    by_cases hin : atUs ≤ stop
    · rw [letThrough]
      split
      · rename_i hdue
        have hat := hearly atUs List.mem_cons_self
        have hnext := h.sent_nextUs hfollows hdue hat
        obtain ⟨hreach, hahead⟩ := ih (h.sent hfollows hdue hat) hrest
          (fun t ht => hearly t (List.mem_cons_of_mem _ ht)) hin hto
        rw [List.countP_cons, if_pos (decide_eq_true hin), Nat.add_mul, Nat.one_mul]
        rw [hnext] at hreach hahead
        refine ⟨by omega, fun hlast => ?_⟩
        have := hahead (by omega)
        omega
      · rename_i hdue
        have hlt := lt_of_not_due hdue
        obtain ⟨hreach, hahead⟩ := ih (h.held hfollows hdue) hrest
          (fun t ht => hearly t (List.mem_cons_of_mem _ ht)) hin hto
        exact ⟨hreach, fun _ => hahead hlt⟩
    · -- Nothing from here on is in the span.
      have hnone : (letThrough fps p (atUs :: rest)).countP (fun t => decide (t ≤ stop)) = 0 := by
        rw [List.countP_eq_zero]
        intro t ht hle
        have hle := of_decide_eq_true hle
        rcases List.mem_cons.mp (mem_letThrough ht) with rfl | ht
        · exact hin hle
        · exact hin ((le_of_chain hrest t ht).trans hle)
      rw [hnone, Nat.zero_mul]
      omega

/-- From the span's start on, what is let through up to its end is what is let through in it. -/
theorem within_eq_countP {times : List Nat} {start length : Nat} (h : ∀ t ∈ times, start ≤ t)
    (p : Pace) :
    within start length (letThrough fps p times) =
      (letThrough fps p times).countP fun t => decide (t ≤ start + length) := by
  refine List.countP_congr fun t ht => ?_
  rw [decide_eq_true_iff, decide_eq_true_iff]
  exact ⟨And.right, fun hle => ⟨h t (mem_letThrough ht), hle⟩⟩

/-- Over a span that begins after a capture and is over with the last there are more frames than
periods in it, less two. -/
theorem Ready.lt_within {last : Nat} {times : List Nat} (h : Ready fps p last)
    (hchain : (last :: times).IsChain (Follows fps)) (hearly : Early fps times)
    {start length : Nat} (hfrom : last < start)
    (hto : start + length ≤ (last :: times).getLast (List.cons_ne_nil _ _)) :
    length < (within start length (letThrough fps p times) + 2) * periodUs fps := by
  have hpos := periodUs_pos fps
  induction times generalizing p last with
  | nil =>
    rw [List.getLast_singleton] at hto
    omega
  | cons atUs rest ih =>
    obtain ⟨hfollows, hrest⟩ := List.isChain_cons_cons.mp hchain
    by_cases hbefore : atUs < start
    · have hout : decide (start ≤ atUs ∧ atUs ≤ start + length) = false :=
        decide_eq_false fun hin => absurd hin.1 (not_le.mpr hbefore)
      rw [List.getLast_cons_cons] at hto
      have ih := fun {p : Pace} (hp : Ready fps p atUs) => ih hp hrest
        (fun t ht => hearly t (List.mem_cons_of_mem _ ht)) hbefore hto
      rw [letThrough]
      split
      · rename_i hdue
        have hkept := ih (h.sent hfollows hdue (hearly atUs List.mem_cons_self))
        unfold within at hkept ⊢
        rw [List.countP_cons, hout]
        exact hkept
      · rename_i hdue
        exact ih (h.held hfollows hdue)
    · -- The span begins: what was due by then is at most a period ahead of the last capture.
      have hstart : ∀ t ∈ atUs :: rest, start ≤ t := by
        intro t ht
        rcases List.mem_cons.mp ht with rfl | ht
        · exact not_lt.mp hbefore
        · exact (not_lt.mp hbefore).trans (le_of_chain hrest t ht)
      obtain ⟨hreach, hahead⟩ := h.reach hchain hearly (by omega : last ≤ start + length) hto
      rw [within_eq_countP hstart, Nat.add_mul]
      have hnext := h.next_le
      by_cases hlast : last + periodUs fps / 8 < p.nextUs
      · have := hahead hlast
        omega
      · omega

theorem lt_within_of_first {first : Nat} {times : List Nat} (hdue : p.due first fps = true)
    (hchain : (first :: times).IsChain (Follows fps)) (hearly : Early fps (first :: times))
    {start length : Nat} (hfrom : first ≤ start)
    (hto : start + length ≤ (first :: times).getLast (List.cons_ne_nil _ _)) :
    length < (within start length (letThrough fps p (first :: times)) + 2) * periodUs fps := by
  have hready := ready_of_first hdue (hearly first List.mem_cons_self)
  have hrest : Early fps times := fun t ht => hearly t (List.mem_cons_of_mem _ ht)
  rw [letThrough, if_pos hdue]
  rcases Nat.lt_or_eq_of_le hfrom with hlt | rfl
  · have hout : decide (start ≤ first ∧ first ≤ start + length) = false :=
      decide_eq_false fun hin => absurd hin.1 (not_le.mpr hlt)
    have hkept := hready.lt_within hchain hrest hlt hto
    unfold within at hkept ⊢
    rw [List.countP_cons, hout]
    exact hkept
  · have hin : decide (first ≤ first ∧ first ≤ first + length) = true :=
      decide_eq_true ⟨le_refl _, Nat.le_add_right _ _⟩
    obtain ⟨hreach, -⟩ := hready.reach hchain hrest (Nat.le_add_right first length) hto
    have hcount : within first length (letThrough fps (p.sent first fps) times) = _ :=
      within_eq_countP (le_of_chain hchain) (p.sent first fps)
    have hnext := hready.next_le
    have hpos := periodUs_pos fps
    unfold within at hcount ⊢
    rw [List.countP_cons, hin, if_pos rfl, hcount, Nat.add_mul, Nat.add_mul, Nat.one_mul]
    omega

end Least

/-- At one rate, over whatever span of a run of captures: at most as many frames as periods in it,
two more and the tolerance; and where captures are a period apart or less, from a due one on, more
than the periods in it less two. -/
theorem frames_within_span (fps : UInt16) (p : Pace) (times : List Nat) (start length : Nat)
    (hearly : Early fps times) :
    within start length (letThrough fps p times) * periodUs fps ≤
        length + 2 * periodUs fps + periodUs fps / 8 ∧
      (∀ first last, times.head? = some first → times.getLast? = some last →
        p.due first fps = true → times.IsChain (Follows fps) → first ≤ start →
        start + length ≤ last →
        length < (within start length (letThrough fps p times) + 2) * periodUs fps ∧
          length / periodUs fps ≤ within start length (letThrough fps p times) + 1) := by
  refine ⟨within_le times hearly p start length, ?_⟩
  intro first last hfirst hlast hdue hchain hfrom hto
  cases times with
  | nil => exact absurd hfirst nofun
  | cons head times =>
    obtain rfl : head = first := by simpa using hfirst
    have hend : (head :: times).getLast (List.cons_ne_nil _ _) = last := by
      rw [List.getLast?_eq_some_getLast (List.cons_ne_nil _ _)] at hlast
      exact Option.some.inj hlast
    have hlt := lt_within_of_first hdue hchain hearly hfrom (hto.trans (le_of_eq hend.symm))
    exact ⟨hlt, Nat.lt_succ_iff.mp (Nat.div_lt_of_lt_mul (by rwa [Nat.mul_comm] at hlt))⟩

theorem due_new (atUs : Nat) (fps : UInt16) : due {} atUs fps = true :=
  decide_eq_true ((Nat.zero_sub _).le.trans (Nat.zero_le _))

/-- A display of 75 hertz at a rung of 60 frames. -/
theorem frames_within_span_75 :
    let times := [100000, 113333, 126666, 140000, 153333, 166666]
    within 100000 60000 (letThrough 60 {} times) * periodUs 60 ≤
        60000 + 2 * periodUs 60 + periodUs 60 / 8 ∧
      60000 < (within 100000 60000 (letThrough 60 {} times) + 2) * periodUs 60 :=
  have h := frames_within_span 60 {} [100000, 113333, 126666, 140000, 153333, 166666] 100000 60000
    (by decide)
  ⟨h.1, (h.2 100000 166666 rfl rfl (due_new _ _) (by decide) (by decide) (by decide)).1⟩

/-- At the end of the clock every capture is let through; and a capture just short of due leaves
nearly two periods between frames, three over the next. -/
theorem frames_of_saturated_and_late :
    (¬∀ (fps : UInt16) (times : List Nat) (start length : Nat), times.Pairwise (· ≤ ·) →
      (∀ t ∈ times, t < 2 ^ 64) →
      within start length (letThrough fps {} times) * periodUs fps ≤
        length + 2 * periodUs fps + periodUs fps / 8) ∧
    ¬∀ (fps : UInt16) (times : List Nat) (start length first last : Nat),
      times.IsChain (Follows fps) → Early fps times → times.head? = some first →
      times.getLast? = some last → first ≤ start → start + length ≤ last →
      length ≤ (within start length (letThrough fps {} times) + 1) * periodUs fps := by
  constructor
  · intro hclaim
    have hcount := hclaim 1000 [2 ^ 64 - 1, 2 ^ 64 - 1, 2 ^ 64 - 1] (2 ^ 64 - 1) 0 (by decide)
      (by decide)
    exact absurd hcount (by decide)
  · intro hclaim
    have hcount := hclaim 1000 [10000, 10874, 11874, 12874] 10001 2872 10000 12874 (by decide)
      (by decide) rfl rfl (by decide) (by decide)
    exact absurd hcount (by decide)

end Pace

end Slopty.Media
