import Mathlib.Algebra.BigOperators.Group.List.Basic
import Slopty.Lib.Machine
import Slopty.Lib.Recent

/-!
When a decoded frame goes on screen, and the measures of it: the newest frame replaces the one
waiting for a paint, and what that costs is counted.
-/

namespace Slopty.Screen

open Slopty.Lib

/-- Presented frames kept for the percentiles. -/
def ringSize : Nat := 240

/-- Inputs in flight kept at most. -/
def inputsInFlight : Nat := 64

/-- Paints and misses remembered for the rate. -/
def rateKept : Nat := 512

/-- The span a stream's frames a second are counted over. -/
def rateWindow : Duration := 1000000000

/-- The worker's capture clock against this process's. -/
structure ClockAnchor where
  moment : Instant
  hostUs : Nat
  deriving DecidableEq, Repr

/-- When a frame stamped `ptsUs` was captured: the nearest moment to the anchor whose low 32 bits
are the stamp's. -/
def ClockAnchor.captured (a : ClockAnchor) (ptsUs : Nat) : Option Instant :=
  let ahead := (BitVec.ofNat 32 ptsUs - BitVec.ofNat 32 a.hostUs).toInt
  some (a.moment + ahead * 1000)

/-- When the worker captured a frame, on this process's clock, and how far off that may be. -/
structure Captured where
  moment : Instant
  within : Duration
  deriving DecidableEq, Repr

/-- How a decoded frame got here. -/
structure FrameStamp where
  /-- The widened capture timestamp: the frame's identity and its order. -/
  ptsUs : Nat
  /-- Which picture this is out of the decoder, counted from the first. -/
  decodeSeq : Nat
  arrived : Instant
  decoded : Instant
  captured : Option Captured
  deriving DecidableEq, Repr

/-- What to do with a frame the decoder just produced. -/
inductive Pace where
  | present
  | drop
  deriving DecidableEq, Repr

/-- One presented frame, as the ring remembers it. -/
structure Sample where
  latency : Duration
  decode : Duration
  interval : Option Duration
  deriving DecidableEq, Repr

/-- A stream's frames a second, and apart from them those that missed the display. -/
structure PaintRate where
  painted : Nat
  missed : Nat
  deriving DecidableEq, Repr

structure PacingStats where
  /-- Frames put on screen. -/
  presented : Nat := 0
  /-- Decoded frames the display never saw, because the decoder ran ahead of it. -/
  skipped : Nat := 0
  /-- Paints that showed the picture already up. -/
  repeats : Nat := 0
  /-- Frames dropped as not newer than what was up. -/
  late : Nat := 0
  latencyP50 : Duration := 0
  latencyP95 : Duration := 0
  latencyMax : Duration := 0
  decodeP50 : Duration := 0
  intervalP50 : Duration := 0
  intervalJitter : Duration := 0
  window : Nat := 0
  deriving DecidableEq, Repr

/-- An input sent, waiting for the frame that shows it to reach the display. -/
structure SentInput where
  seq : Nat
  sent : Instant
  /-- The first decoded frame that has it. -/
  visibleFrom : Option Nat
  deriving DecidableEq, Repr

structure Spread where
  p50 : Duration
  p95 : Duration
  max : Duration
  count : Nat
  deriving DecidableEq, Repr

structure GlassStats where
  capture : Spread
  input : Spread
  inputsPending : Nat
  deriving DecidableEq, Repr

/-- The `p`th percentile of a sorted list by nearest rank, or zero when it is empty. -/
def percentile (sorted : List Duration) (p : Nat) : Duration :=
  if sorted.isEmpty then 0
  else
    let rank := max (divCeil (satMul 64 p sorted.length) 100) 1
    (sorted[rank - 1]?).getD 0

/-- Mean absolute deviation of `values` from `centre`. -/
def meanDeviation (values : List Duration) (centre : Duration) : Duration :=
  let count := min values.length (2 ^ 32 - 1)
  if count = 0 then 0
  else
    let total := values.foldl (fun acc v => Duration.saturatingAdd acc (max v centre - min v centre)) 0
    (Duration.checkedDiv total count).getD 0

def Spread.of (l : List Duration) : Spread :=
  let sorted := l.mergeSort
  { p50 := percentile sorted 50
    p95 := percentile sorted 95
    max := sorted.getLast?.getD 0
    count := sorted.length }

/-- Decides when a decoded frame goes on screen and measures what happened. -/
structure Pacer where
  /-- Offered, installed, not yet painted. -/
  pending : Option FrameStamp := none
  /-- Presentation timestamp of the picture on screen. -/
  shownPts : Option Nat := none
  shownAt : Option Instant := none
  /-- Decode sequence of the newest frame offered, whether it was taken or dropped. -/
  lastSeq : Option Nat := none
  ring : List Sample := []
  counters : PacingStats := {}
  anchor : Option ClockAnchor := none
  captures : List Duration := []
  /-- Inputs sent and not yet shown, oldest first. -/
  inputs : List SentInput := []
  inputRing : List Duration := []
  paints : List Instant := []
  /-- When frames missed the display, and how many at once. -/
  misses : List (Instant × Nat) := []
  deriving DecidableEq, Repr

namespace Pacer

/-- Frames painted over the last second, and those that missed the display in it. -/
def rate (p : Pacer) (now : Instant) : PaintRate :=
  let since := now - rateWindow
  let painted := (p.paints.reverse.takeWhile fun t => since < t).length
  let missed := ((p.misses.reverse.takeWhile fun m => since < m.1).map Prod.snd).sum
  { painted := min painted (2 ^ 32 - 1), missed := min missed (2 ^ 32 - 1) }

/-- `frames` missed the display now. -/
def missed (p : Pacer) (frames : Nat) (now : Instant) : Pacer :=
  if frames = 0 then p else { p with misses := pushRecent rateKept p.misses (now, frames) }

def skip (p : Pacer) (frames : Nat) : Pacer :=
  { p with counters := { p.counters with skipped := satAdd 64 p.counters.skipped frames } }

def shareClock (p : Pacer) (anchor : ClockAnchor) : Pacer := { p with anchor := some anchor }

/-- Input `seq` left this client. -/
def inputSent (p : Pacer) (seq : Nat) (sent : Instant) : Pacer :=
  { p with inputs := pushRecent inputsInFlight p.inputs ⟨seq, sent, none⟩ }

/-- The decoded frame stamped `ptsUs` is the first found to show every input up to `seq`. -/
def inputVisible (p : Pacer) (seq ptsUs : Nat) : Pacer :=
  { p with inputs := p.inputs.map fun i =>
      if i.seq ≤ seq ∧ i.visibleFrom = none then { i with visibleFrom := some ptsUs } else i }

def glass (p : Pacer) : GlassStats :=
  { capture := .of p.captures, input := .of p.inputRing, inputsPending := p.inputs.length }

/-- Frames the decoder produced since the last one offered that never got here. -/
def lostInTransit (p : Pacer) (stamp : FrameStamp) : Nat :=
  match p.lastSeq with
  | none => 0
  | some last => stamp.decodeSeq - last - 1

/-- Presentation timestamp of the newest frame taken: the one waiting, or the one on screen. -/
def newest (p : Pacer) : Option Nat := (p.pending.map FrameStamp.ptsUs).or p.shownPts

/-- A decoded frame is available. -/
def offer (p : Pacer) (stamp : FrameStamp) (now : Instant) : Pacer × Pace :=
  let lost := p.lostInTransit stamp
  let p := (p.skip lost).missed lost now
  -- even a frame dropped as late advances the sequence
  let p := { p with lastSeq := some (max stamp.decodeSeq (p.lastSeq.getD 0)) }
  if p.newest.any (stamp.ptsUs ≤ ·) then
    let p := { p with counters := { p.counters with late := satAdd 64 p.counters.late 1 } }
    (p.missed 1 now, .drop)
  else
    -- the one it replaces was installed but never painted
    let p := if p.pending.isSome then (p.skip 1).missed 1 now else p
    ({ p with pending := some stamp }, .present)

/-- The element painted: the frame this paint put up, or none when it showed the picture already
up. -/
def painted (p : Pacer) (now : Instant) : Pacer × Option FrameStamp :=
  match p.pending with
  | none =>
      ({ p with counters := { p.counters with repeats := satAdd 64 p.counters.repeats 1 } }, none)
  | some stamp =>
      ({ p with
          pending := none
          shownPts := some stamp.ptsUs
          paints := pushRecent rateKept p.paints now }, some stamp)

/-- The inputs a frame stamped `ptsUs` shows, from the front of those in flight. -/
def showsInputs (ptsUs : Nat) (reached : Instant) : List SentInput → List Duration →
    List SentInput × List Duration
  | [], timed => ([], timed)
  | input :: rest, timed =>
      match input.visibleFrom with
      | none => (input :: rest, timed)
      | some from' =>
          if ptsUs < from' then (input :: rest, timed)
          else showsInputs ptsUs reached rest (pushRecent ringSize timed (reached.since input.sent))

/-- When the frame was captured: through the shared clock if there is one. -/
def capturedAt (p : Pacer) (stamp : FrameStamp) : Option Instant :=
  match p.anchor with
  | none => stamp.captured.map Captured.moment
  | some anchor => anchor.captured stamp.ptsUs

/-- The frame `stamp` a paint put up reached the display. -/
def shown (p : Pacer) (stamp : FrameStamp) (reached : Instant) : Pacer :=
  let sample : Sample :=
    { latency := reached.since stamp.arrived
      decode := stamp.decoded.since stamp.arrived
      interval := p.shownAt.map fun t => reached.since t }
  let (inputs, inputRing) := showsInputs stamp.ptsUs reached p.inputs p.inputRing
  { p with
    ring := pushRecent ringSize p.ring sample
    shownAt := some reached
    counters := { p.counters with presented := satAdd 64 p.counters.presented 1 }
    captures := match p.capturedAt stamp with
      | none => p.captures
      | some captured => pushRecent ringSize p.captures (reached.since captured)
    inputs := inputs
    inputRing := inputRing }

/-- A picture put up never reached the display: a newer one replaced it first. -/
def unshown (p : Pacer) : Pacer := p.skip 1

/-- How long ago the picture on screen reached the display. -/
def age (p : Pacer) (now : Instant) : Option Duration := p.shownAt.map fun t => now.since t

/-- The counters plus the ring's percentiles. -/
def stats (p : Pacer) : PacingStats :=
  let latency := (p.ring.map Sample.latency).mergeSort
  let decode := (p.ring.map Sample.decode).mergeSort
  let interval := (p.ring.filterMap Sample.interval).mergeSort
  { p.counters with
    latencyP50 := percentile latency 50
    latencyP95 := percentile latency 95
    latencyMax := latency.getLast?.getD 0
    decodeP50 := percentile decode 50
    intervalP50 := percentile interval 50
    intervalJitter := meanDeviation interval (percentile interval 50)
    window := p.ring.length }

section Spec

variable (p : Pacer) (frames : Nat) (now : Instant)

@[simp] theorem missed_counters : (p.missed frames now).counters = p.counters := by
  unfold missed; split <;> rfl

@[simp] theorem missed_pending : (p.missed frames now).pending = p.pending := by
  unfold missed; split <;> rfl

@[simp] theorem missed_shownPts : (p.missed frames now).shownPts = p.shownPts := by
  unfold missed; split <;> rfl

@[simp] theorem missed_lastSeq : (p.missed frames now).lastSeq = p.lastSeq := by
  unfold missed; split <;> rfl

@[simp] theorem missed_paints : (p.missed frames now).paints = p.paints := by
  unfold missed; split <;> rfl

@[simp] theorem skip_pending : (p.skip frames).pending = p.pending := rfl

@[simp] theorem skip_shownPts : (p.skip frames).shownPts = p.shownPts := rfl

@[simp] theorem skip_lastSeq : (p.skip frames).lastSeq = p.lastSeq := rfl

@[simp] theorem skip_paints : (p.skip frames).paints = p.paints := rfl

@[simp] theorem skip_misses : (p.skip frames).misses = p.misses := rfl

end Spec

/-- Whether a frame is dropped as not newer than the newest taken. -/
def isLate (p : Pacer) (stamp : FrameStamp) : Bool := p.newest.any (stamp.ptsUs ≤ ·)

/-- Frames that miss the display by an offer: those lost on the way to it, and itself or the one it
replaces. -/
def missedBy (p : Pacer) (stamp : FrameStamp) : Nat :=
  p.lostInTransit stamp + if p.isLate stamp ∨ p.pending.isSome then 1 else 0

/-- What an offer adds to the misses remembered. -/
def newMisses (p : Pacer) (stamp : FrameStamp) (now : Instant) : List (Instant × Nat) :=
  (if p.lostInTransit stamp = 0 then [] else [(now, p.lostInTransit stamp)]) ++
    if p.isLate stamp ∨ p.pending.isSome then [(now, 1)] else []

/-- What an offer counts. -/
def counted (p : Pacer) (stamp : FrameStamp) : PacingStats :=
  let skipped := satAdd 64 p.counters.skipped (p.lostInTransit stamp)
  if p.isLate stamp then
    { p.counters with skipped := skipped, late := satAdd 64 p.counters.late 1 }
  else if p.pending.isSome then { p.counters with skipped := satAdd 64 skipped 1 }
  else { p.counters with skipped := skipped }

/-- An offer by what it leaves. -/
theorem offer_eq (p : Pacer) (stamp : FrameStamp) (now : Instant) :
    p.offer stamp now =
      ({ p with
          lastSeq := some (max stamp.decodeSeq (p.lastSeq.getD 0))
          pending := if p.isLate stamp then p.pending else some stamp
          counters := p.counted stamp
          misses := (p.newMisses stamp now).foldl (pushRecent rateKept) p.misses },
        if p.isLate stamp then .drop else .present) := by
  obtain ⟨pending, shownPts, shownAt, lastSeq, ring, counters, anchor, captures, inputs, inputRing,
    paints, misses⟩ := p
  rw [offer, counted, newMisses, isLate]
  generalize lostInTransit _ stamp = lost
  -- neither the count of the frames lost on the way nor the sequence says what is newest
  cases pending with
  | none =>
    cases hlate : shownPts.any (fun last => decide (stamp.ptsUs ≤ last)) <;>
      by_cases hlost : lost = 0 <;> simp [missed, skip, newest, hlate, hlost]
  | some waiting =>
    by_cases hlate : stamp.ptsUs ≤ waiting.ptsUs <;>
      by_cases hlost : lost = 0 <;> simp [missed, skip, newest, hlate, hlost]

theorem offer_newest (p : Pacer) (stamp : FrameStamp) (now : Instant) :
    (p.offer stamp now).1.newest = some (max (p.newest.getD 0) stamp.ptsUs) := by
  have hlate : p.isLate stamp = p.newest.any (stamp.ptsUs ≤ ·) := rfl
  rw [offer_eq, newest]
  dsimp only
  cases hnewest : p.newest with
  | none =>
    rw [hnewest, Option.any_none] at hlate
    rw [hlate, if_neg Bool.false_ne_true, Option.getD_none, Nat.zero_max]
    rfl
  | some last =>
    rw [hnewest, Option.any_some] at hlate
    rw [hlate, Option.getD_some]
    by_cases hle : stamp.ptsUs ≤ last
    · rw [decide_eq_true hle, if_pos rfl, max_eq_left hle, ← hnewest, newest]
    · rw [decide_eq_false hle, if_neg Bool.false_ne_true, max_eq_right (not_le.mp hle).le]
      rfl

theorem painted_newest (p : Pacer) (now : Instant) : (p.painted now).1.newest = p.newest := by
  rw [painted, newest, newest]
  cases p.pending <;> rfl

theorem painted_pending (p : Pacer) (now : Instant) : (p.painted now).1.pending = none := by
  rw [painted]
  cases p.pending <;> rfl

/-- Frames counted, and the one that waits. -/
def accounted (p : Pacer) : Nat :=
  p.counters.presented + p.counters.skipped + p.counters.late +
    if p.pending.isSome then 1 else 0

/-- An offer accounts for one frame, and for those lost since the last. -/
theorem offer_accounted {p : Pacer} (stamp : FrameStamp) (now : Instant)
    (hroom : p.accounted + p.lostInTransit stamp + 1 < 2 ^ 64) :
    (p.offer stamp now).1.accounted = p.accounted + p.lostInTransit stamp + 1 := by
  rw [accounted] at hroom
  have hskipped : satAdd 64 p.counters.skipped (p.lostInTransit stamp) =
      p.counters.skipped + p.lostInTransit stamp := satAdd_of_lt (by omega)
  have hlate : satAdd 64 p.counters.late 1 = p.counters.late + 1 := satAdd_of_lt (by omega)
  have hagain : satAdd 64 (p.counters.skipped + p.lostInTransit stamp) 1 =
      p.counters.skipped + p.lostInTransit stamp + 1 := satAdd_of_lt (by omega)
  rw [offer_eq, accounted, accounted, counted]
  dsimp only
  rw [hskipped, hlate, hagain]
  cases p.isLate stamp with
  | true =>
    rw [if_pos rfl, if_pos rfl]
    dsimp only
    omega
  | false =>
    rw [if_neg Bool.false_ne_true, if_neg Bool.false_ne_true, Option.isSome_some, if_pos rfl]
    cases p.pending.isSome with
    | true =>
      rw [if_pos rfl, if_pos rfl]
      dsimp only
      omega
    | false =>
      rw [if_neg Bool.false_ne_true, if_neg Bool.false_ne_true]
      dsimp only
      omega

theorem painted_accounted {p : Pacer} {stamp : FrameStamp} (h : p.pending = some stamp)
    (now : Instant) : (p.painted now).1.accounted + 1 = p.accounted := by
  rw [painted, accounted, accounted, h]
  rfl

theorem shown_accounted {p : Pacer} (hroom : p.accounted + 1 < 2 ^ 64) (stamp : FrameStamp)
    (reached : Instant) : (p.shown stamp reached).accounted = p.accounted + 1 := by
  rw [accounted] at hroom
  have hpresented : satAdd 64 p.counters.presented 1 = p.counters.presented + 1 :=
    satAdd_of_lt (by omega)
  rw [shown, accounted, accounted]
  dsimp only
  rw [hpresented]
  omega

theorem unshown_accounted {p : Pacer} (hroom : p.accounted + 1 < 2 ^ 64) :
    p.unshown.accounted = p.accounted + 1 := by
  rw [accounted] at hroom
  have hskipped : satAdd 64 p.counters.skipped 1 = p.counters.skipped + 1 :=
    satAdd_of_lt (by omega)
  rw [unshown, skip, accounted, accounted]
  dsimp only
  rw [hskipped]
  omega

/-- What is done to a pacer. -/
inductive Op where
  | offer (stamp : FrameStamp)
  | painted
  | shown (stamp : FrameStamp) (reached : Instant)
  | unshown
  | inputSent (seq : Nat) (sent : Instant)
  | inputVisible (seq ptsUs : Nat)
  | shareClock (anchor : ClockAnchor)
  deriving DecidableEq, Repr

def step (p : Pacer) (now : Instant) : Op → Pacer
  | .offer stamp => (p.offer stamp now).1
  | .painted => (p.painted now).1
  | .shown stamp reached => p.shown stamp reached
  | .unshown => p.unshown
  | .inputSent seq sent => p.inputSent seq sent
  | .inputVisible seq ptsUs => p.inputVisible seq ptsUs
  | .shareClock anchor => p.shareClock anchor

/-- A pacer with all it painted and missed since its start. -/
structure Watched where
  pacer : Pacer := {}
  /-- When each picture was painted. -/
  paints : List Instant := []
  /-- When each frame was offered, and how many missed the display by it. -/
  offers : List (Instant × Nat) := []

namespace Watched

def step (w : Watched) (i : Instant × Op) : Watched :=
  { pacer := w.pacer.step i.1 i.2
    paints := match i.2 with
      | .painted => if w.pacer.pending.isSome then w.paints ++ [i.1] else w.paints
      | _ => w.paints
    offers := match i.2 with
      | .offer stamp => w.offers ++ [(i.1, w.pacer.missedBy stamp)]
      | _ => w.offers }

def run (ops : List (Instant × Op)) : Watched := ops.foldl step {}

/-- Of the frames offered at an instant `within`, how many missed the display. -/
def missedIn (within : Instant → Bool) (offers : List (Instant × Nat)) : Nat :=
  ((offers.filter fun o => within o.1).map Prod.snd).sum

/-- The pacer remembers the last paints and misses, all of them up to `now` and in order. -/
structure Remembers (w : Watched) (misses : List (Instant × Nat)) (now : Instant) : Prop where
  paints_eq : w.pacer.paints = recent rateKept w.paints
  misses_eq : w.pacer.misses = recent rateKept misses
  paints_sorted : w.paints.Pairwise (· ≤ ·)
  misses_sorted : misses.Pairwise fun a b => a.1 ≤ b.1
  paints_le : ∀ t ∈ w.paints, t ≤ now
  misses_le : ∀ m ∈ misses, m.1 ≤ now
  missed_eq : ∀ within, missedIn within misses = missedIn within w.offers
  few : ∀ within : Instant → Bool,
    misses.countP (fun m => within m.1) ≤ 2 * w.offers.countP fun o => within o.1

theorem missedIn_append (within : Instant → Bool) (before after : List (Instant × Nat)) :
    missedIn within (before ++ after) = missedIn within before + missedIn within after := by
  rw [missedIn, List.filter_append, List.map_append, List.sum_append]
  rfl

end Watched

theorem newMisses_now {p : Pacer} {stamp : FrameStamp} {now : Instant} {m : Instant × Nat}
    (h : m ∈ p.newMisses stamp now) : m.1 = now := by
  rw [newMisses, List.mem_append] at h
  rcases h with h | h
  · split at h
    · cases h
    · rw [List.mem_singleton.mp h]
  · split at h
    · rw [List.mem_singleton.mp h]
    · cases h

/-- Told in one or two parts, an offer's misses are those it counts. -/
theorem missedIn_newMisses (within : Instant → Bool) (p : Pacer) (stamp : FrameStamp)
    (now : Instant) : Watched.missedIn within (p.newMisses stamp now) =
      Watched.missedIn within [(now, p.missedBy stamp)] := by
  rw [newMisses, missedBy, Watched.missedIn_append]
  cases hin : within now <;> by_cases hlost : p.lostInTransit stamp = 0 <;>
    by_cases hself : p.isLate stamp = true ∨ p.pending.isSome = true <;>
    simp [Watched.missedIn, hin, hlost, hself]

theorem countP_newMisses (within : Instant → Bool) (p : Pacer) (stamp : FrameStamp)
    (now : Instant) : (p.newMisses stamp now).countP (fun m => within m.1) ≤
      2 * [(now, p.missedBy stamp)].countP fun o => within o.1 := by
  have hlen : (p.newMisses stamp now).length ≤ 2 := by
    rw [newMisses, List.length_append]
    split <;> split <;> simp
  cases hin : within now with
  | true =>
    refine le_trans List.countP_le_length ?_
    rw [List.countP_singleton, if_pos hin]
    exact hlen
  | false =>
    rw [List.countP_eq_zero.mpr fun m hm => by rw [newMisses_now hm, hin]; exact Bool.false_ne_true]
    exact Nat.zero_le _

namespace Watched

variable {w : Watched} {misses : List (Instant × Nat)} {before now : Instant}

/-- An operation that offers and paints nothing leaves what is remembered. -/
theorem Remembers.same (h : Remembers w misses before) (hle : before ≤ now) {p : Pacer}
    (hpaints : p.paints = w.pacer.paints) (hmisses : p.misses = w.pacer.misses) :
    Remembers ⟨p, w.paints, w.offers⟩ misses now :=
  { h with
    paints_eq := hpaints.trans h.paints_eq
    misses_eq := hmisses.trans h.misses_eq
    paints_le := fun t ht => (h.paints_le t ht).trans hle
    misses_le := fun m hm => (h.misses_le m hm).trans hle }

theorem Remembers.offer (h : Remembers w misses before) (hle : before ≤ now)
    (stamp : FrameStamp) : Remembers (w.step (now, .offer stamp))
      (misses ++ w.pacer.newMisses stamp now) now where
  paints_eq := by
    rw [step, Pacer.step, offer_eq]
    exact h.paints_eq
  misses_eq := by
    rw [step, Pacer.step, offer_eq, ← foldl_pushRecent (by decide), ← h.misses_eq]
  paints_sorted := h.paints_sorted
  misses_sorted := by
    refine List.pairwise_append.mpr ⟨h.misses_sorted, List.pairwise_of_forall_mem_list
      fun a ha b hb => ?_, fun a ha b hb => ?_⟩
    · rw [newMisses_now ha, newMisses_now hb]
    · rw [newMisses_now hb]
      exact (h.misses_le a ha).trans hle
  paints_le := fun t ht => (h.paints_le t ht).trans hle
  misses_le := by
    intro m hm
    rcases List.mem_append.mp hm with hm | hm
    · exact (h.misses_le m hm).trans hle
    · rw [newMisses_now hm]
  missed_eq := by
    intro within
    rw [missedIn_append, h.missed_eq, missedIn_newMisses, ← missedIn_append]
    rfl
  few := by
    intro within
    have hnew := countP_newMisses within w.pacer stamp now
    have hold := h.few within
    rw [step, List.countP_append, List.countP_append]
    dsimp only
    omega

theorem Remembers.painted (h : Remembers w misses before) (hle : before ≤ now) :
    Remembers (w.step (now, .painted)) misses now := by
  rw [step, Pacer.step, Pacer.painted]
  cases hp : w.pacer.pending with
  | none => exact h.same hle rfl rfl
  | some stamp =>
    have hle' : ∀ t ∈ w.paints, t ≤ now := fun t ht => (h.paints_le t ht).trans hle
    exact
      { h with
        paints_eq := by
          dsimp only
          rw [h.paints_eq]
          exact pushRecent_recent (by decide) _ _
        paints_sorted := by
          refine List.pairwise_append.mpr ⟨h.paints_sorted, List.pairwise_singleton _ _, ?_⟩
          intro a ha b hb
          rw [List.mem_singleton.mp hb]
          exact hle' a ha
        paints_le := by
          intro t ht
          rcases List.mem_append.mp ht with ht | ht
          · exact hle' t ht
          · rw [List.mem_singleton.mp ht]
        misses_le := fun m hm => (h.misses_le m hm).trans hle }

theorem Remembers.step (h : Remembers w misses before) (hle : before ≤ now) (op : Op) :
    ∃ misses, Remembers (w.step (now, op)) misses now := by
  cases op with
  | offer stamp => exact ⟨_, h.offer hle stamp⟩
  | painted => exact ⟨_, h.painted hle⟩
  | shown stamp reached => exact ⟨_, h.same hle rfl rfl⟩
  | unshown => exact ⟨_, h.same hle rfl rfl⟩
  | inputSent seq sent => exact ⟨_, h.same hle rfl rfl⟩
  | inputVisible seq ptsUs => exact ⟨_, h.same hle rfl rfl⟩
  | shareClock anchor => exact ⟨_, h.same hle rfl rfl⟩

theorem Remembers.foldl (h : Remembers w misses before) {ops : List (Instant × Op)}
    (hclock : (before :: ops.map Prod.fst).Pairwise (· ≤ ·)) :
    ∃ misses now, Remembers (ops.foldl Watched.step w) misses now := by
  induction ops generalizing w misses before with
  | nil => exact ⟨misses, before, h⟩
  | cons i ops ih =>
    obtain ⟨hbefore, hrest⟩ := List.pairwise_cons.mp hclock
    obtain ⟨misses', hnext⟩ := h.step (hbefore i.1 List.mem_cons_self) i.2
    exact ih hnext hrest

theorem run_remembers {ops : List (Instant × Op)}
    (hclock : (ops.map Prod.fst).Pairwise (· ≤ ·)) :
    ∃ misses now, Remembers (run ops) misses now := by
  have hstart : ∀ now, Remembers {} [] now := fun now =>
    ⟨rfl, rfl, List.Pairwise.nil, List.Pairwise.nil, fun _ ht => absurd ht List.not_mem_nil,
      fun _ hm => absurd hm List.not_mem_nil, fun _ => rfl, fun _ => Nat.zero_le _⟩
  cases ops with
  | nil => exact ⟨[], 0, hstart 0⟩
  | cons i ops =>
    refine (hstart i.1).foldl (List.pairwise_cons.mpr ⟨fun t ht => ?_, hclock⟩)
    rcases List.mem_cons.mp ht with rfl | ht
    · exact le_refl _
    · exact (List.pairwise_cons.mp hclock).1 t ht

theorem settled_since {α : Type} {f : α → Instant} {l : List α}
    (h : l.Pairwise fun a b => f a ≤ f b) (since : Instant) :
    Settled (fun a => decide (since < f a)) l :=
  h.imp fun hab ha => decide_eq_true (lt_of_lt_of_le (of_decide_eq_true ha) hab)

/-- The rate is of the last second: the pictures painted in it, and all the frames that missed the
display in it while no more were offered than two misses each are remembered of. -/
theorem rate_counts (ops : List (Instant × Op)) (hclock : (ops.map Prod.fst).Pairwise (· ≤ ·))
    (now : Instant) :
    ((run ops).pacer.rate now).painted =
        min rateKept ((run ops).paints.countP fun t => now - rateWindow < t) ∧
      (2 * (run ops).offers.countP (fun o => now - rateWindow < o.1) ≤ rateKept →
        ((run ops).pacer.rate now).missed =
          min (missedIn (fun t => now - rateWindow < t) (run ops).offers) (2 ^ 32 - 1)) := by
  obtain ⟨misses, upTo, h⟩ := run_remembers hclock
  constructor
  · rw [rate, h.paints_eq]
    dsimp only
    rw [(settled_since h.paints_sorted _).takeWhile_recent, List.length_reverse, length_recent,
      ← List.countP_eq_length_filter, rateKept]
    omega
  · intro hfew
    have hall : (misses.filter fun m => decide (now - rateWindow < m.1)).length ≤ rateKept := by
      rw [← List.countP_eq_length_filter]
      exact (h.few fun t => now - rateWindow < t).trans hfew
    rw [rate, h.misses_eq]
    dsimp only
    rw [(settled_since h.misses_sorted _).takeWhile_recent, recent, Nat.sub_eq_zero_of_le hall,
      List.drop_zero, List.map_reverse, List.sum_reverse]
    exact congrArg (min · (2 ^ 32 - 1)) (h.missed_eq fun t => now - rateWindow < t)

theorem rate_counts_replaced :
    let ops : List (Instant × Op) :=
      [(0, .offer ⟨1, 0, 0, 0, none⟩), (1, .offer ⟨2, 1, 0, 0, none⟩), (2, .painted)]
    ((run ops).pacer.rate 3).painted = min rateKept ((run ops).paints.countP fun t =>
        (3 : Instant) - rateWindow < t) ∧
      (2 * (run ops).offers.countP (fun o => (3 : Instant) - rateWindow < o.1) ≤ rateKept →
        ((run ops).pacer.rate 3).missed =
          min (missedIn (fun t => (3 : Instant) - rateWindow < t) (run ops).offers) (2 ^ 32 - 1)) :=
  rate_counts [(0, .offer ⟨1, 0, 0, 0, none⟩), (1, .offer ⟨2, 1, 0, 0, none⟩), (2, .painted)]
    (by decide) 3

end Watched

end Pacer

end Slopty.Screen
