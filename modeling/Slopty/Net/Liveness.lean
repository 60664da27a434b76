import Slopty.Lib.Machine
import Slopty.Lib.Run
import Mathlib.Data.List.Chain

/-!
Whether a link is alive, judged by its control stream: pinged every two seconds, in doubt after
four without an answer and dead after six. A side that was not running for a while cannot blame the
peer for what it did not hear meanwhile.
-/

namespace Slopty.Net

open Slopty.Lib

-- moments of the monotonic clock, and the stretches between them, are in nanoseconds
def pingEvery : Nat := Duration.millis 2000

def silentAfter : Nat := pingEvery * 2

def pongWithin : Nat := pingEvery * 3

/-- Two looks this far apart: this side was not running in between. -/
def awayAfter : Nat := pingEvery

inductive Pulse where
  | live
  | silent (gap : Nat)
  | dead (gap : Nat)
  deriving DecidableEq

/-- What is said of a link after so much silence. -/
def pulseOf (gap : Nat) : Pulse :=
  if pongWithin ≤ gap then .dead gap else if silentAfter ≤ gap then .silent gap else .live

theorem pongWithin_le_of_dead {gap gap' : Nat} (h : pulseOf gap = .dead gap') :
    pongWithin ≤ gap := by
  by_contra hshort
  rw [pulseOf, if_neg hshort] at h
  split at h <;> cases h

/-- When a control stream last answered, was last pinged, and was last looked at. -/
structure Beat where
  heard : Nat
  pinged : Option Nat := none
  looked : Option Nat := none

namespace Beat

def new (now : Nat) : Beat := { heard := now }

def hear (b : Beat) (now : Nat) : Beat := { b with heard := max b.heard now }

/-- Whether a ping is due; taking it counts it sent. -/
def pingDue (b : Beat) (now : Nat) : Beat × Bool :=
  let due := b.pinged.all fun at' => decide (pingEvery ≤ now - at')
  (if due then { b with pinged := some now } else b, due)

/-- After a while away the silence counts as it stood at the last look, and a ping is due. -/
def woke (b : Beat) (now : Nat) : Beat :=
  match b.looked with
  | none => b
  | some looked =>
      if awayAfter ≤ now - looked then
        { b with heard := max (now - (looked - b.heard)) b.heard, pinged := none }
      else b

def pulse (b : Beat) (now : Nat) : Beat × Pulse :=
  let b := b.woke now
  ({ b with looked := some (b.looked.elim now fun looked => max looked now) },
    pulseOf (now - b.heard))

theorem pinged_of_due {b : Beat} {now : Nat} (h : (b.pingDue now).2 = true) :
    (b.pingDue now).1.pinged = some now := by
  rw [pingDue] at h ⊢
  dsimp only at h ⊢
  rw [if_pos h]

theorem due_of_none {b : Beat} {now : Nat} (h : b.pinged = none) : (b.pingDue now).2 = true := by
  rw [pingDue, h]
  rfl

/-- Where no ping is due, the last one went out less than two seconds ago. -/
theorem recent_of_not_due {b : Beat} {now p : Nat} (h : ¬(b.pingDue now).2 = true)
    (hp : b.pinged = some p) : (b.pingDue now).1.pinged = some p ∧ now - p < pingEvery := by
  rw [pingDue] at h ⊢
  dsimp only at h ⊢
  rw [if_neg h]
  rw [hp, Option.all_some, decide_eq_true_eq] at h
  exact ⟨hp, not_le.mp h⟩

/-- What is done with a beat. -/
inductive Op where
  | heard
  | pingDue
  | pulse
  deriving DecidableEq

def step (b : Beat) (op : Nat × Op) : Beat :=
  match op.2 with
  | .heard => b.hear op.1
  | .pingDue => (b.pingDue op.1).1
  | .pulse => (b.pulse op.1).1

def run (start : Nat) (ops : List (Nat × Op)) : Beat := ops.foldl step (new start)

/-- When the link was looked at. -/
def looks (ops : List (Nat × Op)) : List Nat :=
  (ops.filter fun op => decide (op.2 = .pulse)).map Prod.fst

/-- When the stream last answered, or the link came up. -/
def lastAnswer (start : Nat) (ops : List (Nat × Op)) : Nat :=
  ((ops.filter fun op => decide (op.2 = .heard)).map Prod.fst).getLast?.getD start

/-- How much of the time after `since` lies between two looks too far apart. -/
def away (since : Nat) : List Nat → Duration
  | a :: b :: rest =>
      (if awayAfter ≤ b - a then b - max a since else 0) + away since (b :: rest)
  | _ => 0

/-- How long this side has listened in vain. -/
def silence (start : Nat) (ops : List (Nat × Op)) (now : Nat) : Nat :=
  now - lastAnswer start ops - away (lastAnswer start ops) (looks ops ++ [now])

/-- The clock never goes back from `start` to `now`. -/
def InOrder (start : Nat) (ops : List (Nat × Op)) (now : Nat) : Prop :=
  (start :: ops.map Prod.fst ++ [now]).Pairwise (· ≤ ·)

theorem woke_of_none (b : Beat) (h : b.looked = none) (now : Nat) : b.woke now = b := by
  rw [woke, h]

theorem woke_of_some (b : Beat) {looked : Nat} (h : b.looked = some looked) (now : Nat) :
    b.woke now = if awayAfter ≤ now - looked then
      { b with heard := max (now - (looked - b.heard)) b.heard, pinged := none } else b := by
  rw [woke, h]

section Away

variable {since t : Nat} {looks : List Nat}

theorem away_concat (since t : Nat) (looks : List Nat) :
    away since (looks ++ [t]) = away since looks + looks.getLast?.elim 0 fun last =>
      if awayAfter ≤ t - last then t - max last since else 0 := by
  induction looks with
  | nil => rfl
  | cons a rest ih =>
    cases rest with
    | nil =>
      show (if awayAfter ≤ t - a then t - max a since else 0) + 0 = _
      rw [Nat.add_comm]
      rfl
    | cons b rest =>
      have hlast : (a :: b :: rest).getLast? = (b :: rest).getLast? := List.getLast?_cons_cons
      rw [hlast, away, Nat.add_assoc, ← ih]
      rfl

/-- Nothing was missed between looks that came before. -/
theorem away_eq_zero (h : ∀ a ∈ looks, a ≤ since) : away since looks = 0 := by
  induction looks with
  | nil => rfl
  | cons a rest ih =>
    cases rest with
    | nil => rfl
    | cons b rest =>
      have hb := h b (List.mem_cons_of_mem _ List.mem_cons_self)
      rw [away, ih fun c hc => h c (List.mem_cons_of_mem _ hc)]
      split
      · rw [Nat.sub_eq_zero_of_le (hb.trans (le_max_right _ _))]
      · rfl

/-- The time away after `since` is that up to a look and that after it. -/
theorem away_split {front rest : List Nat} {q : Nat} (hsince : since ≤ q)
    (h : (front ++ q :: rest).Pairwise (· ≤ ·)) :
    away since (front ++ q :: rest) =
      away since (front ++ [q]) + away q (front ++ q :: rest) := by
  induction rest using List.reverseRecOn with
  | nil =>
    have hle : ∀ a ∈ front ++ [q], a ≤ q := by
      intro a ha
      rcases List.mem_append.mp ha with hfront | hsame
      · exact (List.pairwise_append.mp h).2.2 a hfront q List.mem_cons_self
      · exact (List.mem_singleton.mp hsame).le
    rw [away_eq_zero hle, Nat.add_zero]
  | append_singleton rest t ih =>
    have hwhole : front ++ q :: (rest ++ [t]) = front ++ q :: rest ++ [t] := by
      rw [List.append_assoc, List.cons_append]
    rw [hwhole] at h ⊢
    have hinit := (List.pairwise_append.mp h).1
    rw [away_concat since t, away_concat q t, ih hinit, Nat.add_assoc]
    congr 2
    have hlast : (front ++ q :: rest).getLast? = some ((q :: rest).getLast (List.cons_ne_nil _ _)) := by
      rw [List.getLast?_append, List.getLast?_eq_some_getLast (List.cons_ne_nil _ _)]
      rfl
    have hq : q ≤ (q :: rest).getLast (List.cons_ne_nil _ _) := by
      rcases List.mem_cons.mp (List.getLast_mem (List.cons_ne_nil q rest)) with hsame | hmem
      · exact hsame.ge
      · exact (List.pairwise_cons.mp (List.pairwise_append.mp hinit).2.1).1 _ hmem
    rw [hlast, Option.elim_some, Option.elim_some, max_eq_left hq, max_eq_left (hsince.trans hq)]

end Away

/-- The beat of a link that last answered at `last` and was looked at at these times. -/
structure Knows (b : Beat) (last : Nat) (looks : List Nat) : Prop where
  looked : b.looked = looks.getLast?
  heard : b.heard = last + away last looks
  before : ∀ t, last ≤ t → (∀ a ∈ looks, a ≤ t) → b.heard ≤ t

namespace Knows

variable {b : Beat} {last now : Nat} {looks : List Nat}

theorem new (start : Nat) : (Beat.new start).Knows start [] :=
  ⟨rfl, rfl, fun _ h _ => h⟩

theorem hear (h : b.Knows last looks) (hlast : last ≤ now) (hlooks : ∀ a ∈ looks, a ≤ now) :
    (b.hear now).Knows now looks := by
  have hheard : (b.hear now).heard = now := max_eq_right (h.before now hlast hlooks)
  refine ⟨h.looked, ?_, fun t ht _ => hheard.trans_le ht⟩
  rw [hheard, away_eq_zero hlooks, Nat.add_zero]

theorem pingDue (h : b.Knows last looks) (now : Nat) : (b.pingDue now).1.Knows last looks := by
  rw [Beat.pingDue]
  split
  · exact ⟨h.looked, h.heard, h.before⟩
  · exact h

/-- A look counts the time since the one before, unless it comes too long after. -/
theorem pulse (h : b.Knows last looks) (hlast : last ≤ now) (hlooks : ∀ a ∈ looks, a ≤ now)
    (horder : looks.Pairwise (· ≤ ·)) : (b.pulse now).1.Knows last (looks ++ [now]) := by
  have hbefore := h.before now hlast hlooks
  have hlooked := h.looked
  have hheard := h.heard
  have haway := away_concat last now looks
  cases hget : looks.getLast? with
  | none =>
    rw [hget] at hlooked haway
    have hnow : (b.pulse now).1 = { b with looked := some now } := by
      rw [Beat.pulse, b.woke_of_none hlooked, hlooked]
      rfl
    refine ⟨?_, ?_, fun t _ hlater => ?_⟩
    · rw [hnow, List.getLast?_concat]
    · rw [hnow, haway]
      exact hheard
    · rw [hnow]
      exact hbefore.trans (hlater now (List.mem_append_right _ List.mem_cons_self))
  | some l =>
    have hl : l ≤ now := hlooks l (List.mem_of_getLast? hget)
    rw [hget] at hlooked haway
    rw [Option.elim_some] at haway
    have hmax : max l now = now := max_eq_right hl
    have hfinal : ∀ a ∈ looks, a ≤ l := by
      obtain ⟨front, rfl⟩ := List.getLast?_eq_some_iff.mp hget
      intro a ha
      rcases List.mem_append.mp ha with hfront | hsame
      · exact (List.pairwise_append.mp horder).2.2 a hfront l List.mem_cons_self
      · exact (List.mem_singleton.mp hsame).le
    by_cases hgap : awayAfter ≤ now - l
    · rw [if_pos hgap] at haway
      have hnow : (b.pulse now).1 =
          { heard := max (now - (l - b.heard)) b.heard, looked := some (max l now) } := by
        rw [Beat.pulse, b.woke_of_some hlooked, if_pos hgap]
        dsimp only
        rw [hlooked]
        rfl
      have hvalue : max (now - (l - b.heard)) b.heard = last + away last (looks ++ [now]) := by
        rw [haway, hheard]
        by_cases hsince : last ≤ l
        · have hle := h.before l hsince hfinal
          rw [max_eq_left hsince]
          omega
        · have hbehind : l ≤ last := (not_le.mp hsince).le
          have hzero : away last looks = 0 := away_eq_zero fun a ha => (hfinal a ha).trans hbehind
          rw [hzero, max_eq_right hbehind]
          omega
      refine ⟨?_, ?_, fun t _ hlater => ?_⟩
      · rw [hnow, List.getLast?_concat, hmax]
      · rw [hnow]
        exact hvalue
      · rw [hnow]
        exact (max_le (Nat.sub_le _ _) hbefore).trans
          (hlater now (List.mem_append_right _ List.mem_cons_self))
    · rw [if_neg hgap] at haway
      have hnow : (b.pulse now).1 = { b with looked := some (max l now) } := by
        rw [Beat.pulse, b.woke_of_some hlooked, if_neg hgap, hlooked]
        rfl
      refine ⟨?_, ?_, fun t _ hlater => ?_⟩
      · rw [hnow, List.getLast?_concat, hmax]
      · rw [hnow, haway]
        exact hheard
      · rw [hnow]
        exact hbefore.trans (hlater now (List.mem_append_right _ List.mem_cons_self))

/-- What a look finds is the silence since the last answer, less the time away. -/
theorem pulse_eq (h : b.Knows last looks) (hlast : last ≤ now) (hlooks : ∀ a ∈ looks, a ≤ now)
    (horder : looks.Pairwise (· ≤ ·)) :
    (b.pulse now).2 = pulseOf (now - last - away last (looks ++ [now])) := by
  have hheard := (h.pulse hlast hlooks horder).heard
  have hpulse : (b.pulse now).2 = pulseOf (now - (b.pulse now).1.heard) := rfl
  rw [hpulse, hheard]
  rw [Nat.sub_add_eq]

end Knows

section Run

variable {start now : Nat} {ops : List (Nat × Op)}

theorem looks_sublist (ops : List (Nat × Op)) : (looks ops).Sublist (ops.map Prod.fst) :=
  List.filter_sublist.map _

theorem lastAnswer_mem (start : Nat) (ops : List (Nat × Op)) :
    lastAnswer start ops ∈ start :: ops.map Prod.fst := by
  rw [lastAnswer]
  cases hget : ((ops.filter fun op => decide (op.2 = .heard)).map Prod.fst).getLast? with
  | none => exact List.mem_cons_self
  | some t =>
    exact List.mem_cons_of_mem _
      ((List.filter_sublist.map Prod.fst).subset (List.mem_of_getLast? hget))

theorem InOrder.le (h : InOrder start ops now) {t : Nat} (ht : t ∈ start :: ops.map Prod.fst) :
    t ≤ now :=
  (List.pairwise_append.mp (show (start :: ops.map Prod.fst ++ [now]).Pairwise _ from h)).2.2
    t ht now List.mem_cons_self

theorem InOrder.looks_le (h : InOrder start ops now) {t : Nat} (ht : t ∈ looks ops) : t ≤ now :=
  h.le (List.mem_cons_of_mem _ ((looks_sublist ops).subset ht))

theorem InOrder.looks_sorted (h : InOrder start ops now) : (looks ops).Pairwise (· ≤ ·) :=
  List.Pairwise.sublist
    ((looks_sublist ops).trans ((List.sublist_append_left _ [now]).trans (List.sublist_cons_self _ _)))
    h

theorem InOrder.init {op : Nat × Op} (h : InOrder start (ops ++ [op]) now) :
    InOrder start ops op.1 := by
  rw [InOrder, List.map_append] at h
  exact h.sublist ((List.sublist_append_left _ [now]).cons_cons start)

theorem knows_run (h : InOrder start ops now) :
    (run start ops).Knows (lastAnswer start ops) (looks ops) := by
  induction ops using List.reverseRecOn generalizing now with
  | nil => exact Knows.new start
  | append_singleton ops op ih =>
    obtain ⟨t, op⟩ := op
    have hinit : InOrder start ops t := h.init
    have hknows := ih hinit
    have hlast := hinit.le (lastAnswer_mem start ops)
    have hlooks := fun a (ha : a ∈ looks ops) => hinit.looks_le ha
    have hrun : run start (ops ++ [(t, op)]) = (run start ops).step (t, op) := by
      rw [run, List.foldl_append]
      rfl
    rw [hrun, looks, lastAnswer, List.filter_append, List.filter_append, List.map_append,
      List.map_append]
    cases op with
    | heard =>
      have hanswer : ((ops.filter fun op => decide (op.2 = .heard)).map Prod.fst ++
          [t]).getLast?.getD start = t := by
        rw [List.getLast?_concat, Option.getD_some]
      have hkept := hknows.hear hlast hlooks
      rw [show ([(t, Op.heard)].filter fun op => decide (op.2 = .heard)).map Prod.fst = [t] from rfl,
        hanswer, show ([(t, Op.heard)].filter fun op => decide (op.2 = .pulse)) = [] from rfl,
        List.map_nil, List.append_nil]
      exact hkept
    | pingDue =>
      have hkept := hknows.pingDue t
      rw [show ([(t, Op.pingDue)].filter fun op => decide (op.2 = .heard)) = [] from rfl,
        show ([(t, Op.pingDue)].filter fun op => decide (op.2 = .pulse)) = [] from rfl,
        List.map_nil, List.append_nil, List.append_nil]
      exact hkept
    | pulse =>
      have hkept := hknows.pulse hlast hlooks hinit.looks_sorted
      rw [show ([(t, Op.pulse)].filter fun op => decide (op.2 = .heard)) = [] from rfl,
        show ([(t, Op.pulse)].filter fun op => decide (op.2 = .pulse)).map Prod.fst = [t] from rfl,
        List.map_nil, List.append_nil]
      exact hkept

/-- Whatever was heard, pinged and looked at before, a look finds the silence since the last
answer, less the time between looks in which this side was away. -/
theorem silence_counted (start : Nat) (ops : List (Nat × Op)) (now : Nat)
    (h : InOrder start ops now) :
    ((run start ops).pulse now).2 = pulseOf (silence start ops now) :=
  (knows_run h).pulse_eq (h.le (lastAnswer_mem start ops)) (fun _ ha => h.looks_le ha)
    h.looks_sorted

/-- Asleep for an hour after a second of silence, then half a second more. -/
theorem silence_counted_asleep :
    ((run 0 [(10 ^ 9, .pulse), (3601 * 10 ^ 9, .pulse)]).pulse (36015 * 10 ^ 8)).2 =
      pulseOf (silence 0 [(10 ^ 9, .pulse), (3601 * 10 ^ 9, .pulse)] (36015 * 10 ^ 8)) ∧
    silence 0 [(10 ^ 9, .pulse), (3601 * 10 ^ 9, .pulse)] (36015 * 10 ^ 8) = 15 * 10 ^ 8 :=
  ⟨silence_counted _ _ _ (by unfold InOrder; decide), by decide⟩

end Run

end Beat

/-- What a link shows. -/
inductive WorkerStatus where
  | connected
  | silent (secs : Nat)
  deriving DecidableEq

/-- What a look does with what it heard. -/
inductive Tick where
  | show (status : WorkerStatus)
  | ping (status : WorkerStatus)
  | relink
  deriving DecidableEq

structure Look where
  pingStream : Bool
  tick : Tick
  deriving DecidableEq

/-- One worker link's supervisor. -/
structure Supervisor where
  beat : Beat
  pongs : Nat

/-- What a look finds: how often the stream answered so far, and whether the server says the worker
is back or moved. -/
structure Found where
  pongs : Nat
  woken : Bool
  now : Nat
  deriving DecidableEq

namespace Supervisor

def new (now pongs : Nat) : Supervisor := { beat := Beat.new now, pongs := pongs }

def hear (s : Supervisor) (f : Found) : Supervisor :=
  if f.pongs ≠ s.pongs then { beat := s.beat.hear f.now, pongs := f.pongs } else s

def tickOf (pulse : Pulse) (woken : Bool) : Tick :=
  match pulse with
  | .live => .show .connected
  | .silent gap => if woken then .relink else .ping (.silent (gap / 10 ^ 9))
  | .dead _ => .relink

def look (s : Supervisor) (f : Found) : Supervisor × Look :=
  let s := s.hear f
  let pulsed := s.beat.pulse f.now
  let tick := tickOf pulsed.2 f.woken
  if tick = .relink then ({ s with beat := pulsed.1 }, { pingStream := false, tick })
  else
    let pinged := pulsed.1.pingDue f.now
    ({ s with beat := pinged.1 }, { pingStream := pinged.2, tick })

def run (s : Supervisor) (found : List Found) : Supervisor :=
  found.foldl (fun s f => (s.look f).1) s

/-- The looks of a link before the look `f`, in order: none comes before the one before it, the
first within four seconds of the link, and none of them relinked. -/
structure Looked (start pongs : Nat) (found : List Found) (f : Found) : Prop where
  inOrder : (start :: (found ++ [f]).map Found.now).Pairwise (· ≤ ·)
  soon : ∀ g ∈ (found ++ [f]).head?, g.now < start + silentAfter
  goesOn : EachStep (fun s g => (s.look g).1) (fun s g => (s.look g).2.tick ≠ .relink)
    (new start pongs) found

/-- What a beat knows of the last ping: none is due before two seconds are over. -/
theorem pinged_pulse (b : Beat) (now : Nat) : (b.pulse now).1.pinged =
    b.looked.elim b.pinged fun looked =>
      if awayAfter ≤ now - looked then none else b.pinged := by
  have hpulse : (b.pulse now).1.pinged = (b.woke now).pinged := rfl
  rw [hpulse]
  cases hlooked : b.looked with
  | none => rw [b.woke_of_none hlooked]; rfl
  | some looked =>
    rw [b.woke_of_some hlooked, Option.elim_some]
    split <;> rfl

/-- A ping went out at a look that nothing was heard at or after, within four seconds of awake
silence. -/
def Asked (start pongs : Nat) (past : List Found) (last heard : Nat) : Prop :=
  ∃ before q after, past = before ++ q :: after ∧
    ((run (new start pongs) before).look q).2.pingStream = true ∧
    (∀ l ∈ q :: after, l.pongs = heard) ∧ last ≤ q.now ∧
    q.now - last - Beat.away last ((before ++ [q]).map Found.now) < silentAfter

/-- How a supervisor stands after its looks, having last heard its link at `last`. -/
structure Heeds (start pongs : Nat) (past : List Found) (last : Nat) (s : Supervisor) : Prop where
  knows : s.beat.Knows last (past.map Found.now)
  since : last ∈ start :: past.map Found.now
  fresh : past = [] → s.beat.pinged = none ∧ last = start
  pinged : ∀ l, past.getLast? = some l → ∃ p, s.beat.pinged = some p ∧ p ≤ l.now ∧
    l.now - p < pingEvery ∧ (p ≤ last ∨ Asked start pongs past last s.pongs)

section Step

variable {start pongs last : Nat} {past : List Found} {s : Supervisor} {f : Found}

theorem Heeds.init (start pongs : Nat) : Heeds start pongs [] start (new start pongs) :=
  ⟨Beat.Knows.new start, List.mem_cons_self, fun _ => ⟨rfl, rfl⟩,
    fun _ h => absurd h.symm (Option.some_ne_none _)⟩

theorem Asked.concat (h : Asked start pongs past last f.pongs) :
    Asked start pongs (past ++ [f]) last f.pongs := by
  obtain ⟨before, q, after, rfl, hping, hsame, hlast, hsoon⟩ := h
  refine ⟨before, q, after ++ [f], ?_, hping, ?_, hlast, hsoon⟩
  · rw [List.append_assoc, List.cons_append]
  · intro l hl
    rw [← List.cons_append] at hl
    rcases List.mem_append.mp hl with hold | hnew
    · exact hsame l hold
    · rw [List.mem_singleton.mp hnew]

/-- A ping that goes out now, at most four seconds of awake silence after the last answer. -/
theorem Asked.now (hping : ((run (Supervisor.new start pongs) past).look f).2.pingStream = true)
    (hlast : last ≤ f.now)
    (hsoon : f.now - last - Beat.away last ((past ++ [f]).map Found.now) < silentAfter) :
    Asked start pongs (past ++ [f]) last f.pongs :=
  ⟨past, f, [], rfl, hping, fun l hl => by rw [List.mem_singleton.mp hl], hlast, hsoon⟩

/-- What is heard at a look counts as heard then. -/
theorem Heeds.hear (h : Heeds start pongs past last s)
    (horder : (start :: (past ++ [f]).map Found.now).Pairwise (· ≤ ·)) :
    (s.hear f).beat.Knows (if f.pongs ≠ s.pongs then f.now else last) (past.map Found.now) := by
  have hle : ∀ t ∈ start :: past.map Found.now, t ≤ f.now := by
    rw [List.map_append, ← List.cons_append] at horder
    exact fun t ht => (List.pairwise_append.mp horder).2.2 t ht f.now List.mem_cons_self
  rw [Supervisor.hear]
  split
  · exact h.knows.hear (hle _ h.since) fun a ha => hle a (List.mem_cons_of_mem _ ha)
  · exact h.knows

theorem pongs_hear (s : Supervisor) (f : Found) : (s.hear f).pongs = f.pongs := by
  rw [hear]
  split
  · rfl
  · rename_i hsame
    exact (not_not.mp hsame).symm

theorem pinged_hear (s : Supervisor) (f : Found) : (s.hear f).beat.pinged = s.beat.pinged := by
  rw [hear]
  split <;> rfl

theorem tick_look (s : Supervisor) (f : Found) :
    (s.look f).2.tick = tickOf ((s.hear f).beat.pulse f.now).2 f.woken := by
  rw [look]
  dsimp only
  split
  · rename_i hrelink
    exact hrelink.symm ▸ rfl
  · rfl

/-- A look that goes on pings when a ping is due. -/
theorem look_eq (h : (s.look f).2.tick ≠ .relink) :
    let pinged := ((s.hear f).beat.pulse f.now).1.pingDue f.now
    (s.look f).1 = { beat := pinged.1, pongs := f.pongs } ∧ (s.look f).2.pingStream = pinged.2 := by
  rw [tick_look] at h
  dsimp only
  rw [look]
  dsimp only
  rw [if_neg h, pongs_hear]
  exact ⟨rfl, rfl⟩

theorem dead_of_relink (h : (s.look f).2.tick = .relink) (hasked : f.woken = false) :
    ∃ gap, ((s.hear f).beat.pulse f.now).2 = .dead gap := by
  rw [tick_look, hasked] at h
  cases hpulse : ((s.hear f).beat.pulse f.now).2 with
  | live => rw [hpulse] at h; cases h
  | silent gap => rw [hpulse] at h; cases h
  | dead gap => exact ⟨gap, rfl⟩

/-- The last look is the latest of all. -/
theorem le_getLast (h : (start :: past.map Found.now).Pairwise (· ≤ ·)) {l : Found}
    (hl : past.getLast? = some l) {t : Nat} (ht : t ∈ start :: past.map Found.now) : t ≤ l.now := by
  obtain ⟨front, rfl⟩ := List.getLast?_eq_some_iff.mp hl
  rw [List.map_append, List.map_singleton, ← List.cons_append] at h ht
  rcases List.mem_append.mp ht with hfront | hsame
  · exact (List.pairwise_append.mp h).2.2 t hfront l.now List.mem_cons_self
  · exact (List.mem_singleton.mp hsame).le

/-- The silence at a look is less than two seconds of awake time over that at the one before. -/
theorem silence_concat {l : Found} (hl : past.getLast? = some l) (hlast : last ≤ l.now)
    (hnow : l.now ≤ f.now) :
    f.now - last - Beat.away last ((past ++ [f]).map Found.now) < l.now - last + pingEvery := by
  have haway := Beat.away_concat last f.now (past.map Found.now)
  rw [List.getLast?_map, hl, Option.map_some, Option.elim_some, max_eq_left hlast] at haway
  rw [List.map_append, List.map_singleton, haway]
  have hpos : 0 < pingEvery := by decide
  by_cases hgap : awayAfter ≤ f.now - l.now
  · rw [if_pos hgap]
    omega
  · rw [if_neg hgap]
    have hshort : f.now - l.now < pingEvery := not_le.mp hgap
    omega

theorem Heeds.step (h : Heeds start pongs past last (run (new start pongs) past))
    (horder : (start :: (past ++ [f]).map Found.now).Pairwise (· ≤ ·))
    (hsoon : past = [] → f.now < start + silentAfter)
    (hgoes : ((run (new start pongs) past).look f).2.tick ≠ .relink) :
    ∃ last', Heeds start pongs (past ++ [f]) last' (run (new start pongs) (past ++ [f])) := by
  have hrun : run (new start pongs) (past ++ [f]) = ((run (new start pongs) past).look f).1 := by
    rw [run, List.foldl_append]
    rfl
  obtain ⟨hlook, hstream⟩ := look_eq hgoes
  have hmap : (past ++ [f]).map Found.now = past.map Found.now ++ [f.now] := List.map_append
  have hknows := h.hear horder
  rw [hmap, ← List.cons_append] at horder
  obtain ⟨hsorted, -, hbefore⟩ := List.pairwise_append.mp horder
  have hle : ∀ t ∈ start :: past.map Found.now, t ≤ f.now :=
    fun t ht => hbefore t ht f.now List.mem_cons_self
  have hlast : last ≤ f.now := hle _ h.since
  rw [hrun, hlook]
  generalize hs : run (new start pongs) past = s at h hknows hstream
  refine ⟨if f.pongs ≠ s.pongs then f.now else last, ?_, ?_, ?_, ?_⟩
  · rw [hmap]
    refine (hknows.pulse ?_ (fun a ha => hle a (List.mem_cons_of_mem _ ha))
      (List.pairwise_cons.mp hsorted).2).pingDue f.now
    split
    · exact le_rfl
    · exact hlast
  · rw [hmap]
    split
    · exact List.mem_cons_of_mem _ (List.mem_append_right _ List.mem_cons_self)
    · exact List.mem_append_left _ h.since
  · exact fun hnil => absurd (List.append_eq_nil_iff.mp hnil).2 (List.cons_ne_nil _ _)
  · intro l hl
    rw [List.getLast?_concat] at hl
    obtain rfl : f = l := Option.some.inj hl
    dsimp only
    have hpulsed := pinged_pulse (s.hear f).beat f.now
    rw [hknows.looked, pinged_hear, List.getLast?_map] at hpulsed
    by_cases hdue : (((s.hear f).beat.pulse f.now).1.pingDue f.now).2 = true
    · -- a ping goes out now, unless one went out since the last answer
      refine ⟨f.now, Beat.pinged_of_due hdue, le_rfl, ?_, .inr ?_⟩
      · rw [Nat.sub_self]
        decide
      · have hping : ((run (new start pongs) past).look f).2.pingStream = true := by
          rw [hs, hstream, hdue]
        by_cases hheard : f.pongs ≠ s.pongs
        · rw [if_pos hheard]
          refine Asked.now hping le_rfl ?_
          rw [Nat.sub_self, Nat.zero_sub]
          decide
        · rw [if_neg hheard]
          cases hprev : past.getLast? with
          | none =>
            have hnil := List.getLast?_eq_none_iff.mp hprev
            obtain rfl := (h.fresh hnil).2
            refine Asked.now hping hlast ?_
            have := hsoon hnil
            omega
          | some l =>
            obtain ⟨p, hp, hple, hrecent, hold | hasked⟩ := h.pinged l hprev
            · have hl : l.now ∈ start :: past.map Found.now :=
                List.mem_cons_of_mem _ (List.mem_map_of_mem (List.mem_of_getLast? hprev))
              have hsince : last ≤ l.now := le_getLast hsorted hprev h.since
              have hshort := silence_concat (f := f) hprev hsince (hle _ hl)
              have htwice : silentAfter = pingEvery + pingEvery := by decide
              refine Asked.now hping hlast ?_
              omega
            · exact Asked.concat ((not_not.mp hheard).symm ▸ hasked)
    · have hnone : ((s.hear f).beat.pulse f.now).1.pinged ≠ none := fun hnone =>
        hdue (Beat.due_of_none hnone)
      cases hprev : past.getLast? with
      | none =>
        have hnil := List.getLast?_eq_none_iff.mp hprev
        rw [hprev] at hpulsed
        exact absurd (hpulsed.trans (h.fresh hnil).1) hnone
      | some l =>
        obtain ⟨p, hp, hple, hrecent, hold⟩ := h.pinged l hprev
        rw [hprev, Option.map_some, Option.elim_some] at hpulsed
        have hp' : ((s.hear f).beat.pulse f.now).1.pinged = some p := by
          by_cases hgap : awayAfter ≤ f.now - l.now
          · rw [if_pos hgap] at hpulsed
            exact absurd hpulsed hnone
          · rw [if_neg hgap] at hpulsed
            exact hpulsed.trans hp
        obtain ⟨hkept, hshort⟩ := Beat.recent_of_not_due hdue hp'
        have hl : l.now ∈ start :: past.map Found.now :=
          List.mem_cons_of_mem _ (List.mem_map_of_mem (List.mem_of_getLast? hprev))
        refine ⟨p, hkept, hple.trans (hle _ hl), hshort, ?_⟩
        by_cases hheard : f.pongs ≠ s.pongs
        · rw [if_pos hheard]
          exact .inl (hple.trans (hle _ hl))
        · rw [if_neg hheard]
          exact hold.imp_right fun hasked => Asked.concat ((not_not.mp hheard).symm ▸ hasked)

theorem Looked.init {g : Found} (h : Looked start pongs (past ++ [f]) g) :
    Looked start pongs past f := by
  refine ⟨?_, fun k hk => h.soon k ?_, (EachStep.append.mp h.goesOn).1⟩
  · have horder := h.inOrder
    rw [List.map_append, ← List.cons_append] at horder
    exact (List.pairwise_append.mp horder).1
  · rw [List.head?_append, Option.mem_def.mp hk]
    rfl

theorem Looked.heeds (h : Looked start pongs past f) :
    ∃ last, Heeds start pongs past last (run (new start pongs) past) := by
  induction past using List.reverseRecOn generalizing f with
  | nil => exact ⟨start, Heeds.init start pongs⟩
  | append_singleton past g ih =>
    obtain ⟨last, hheeds⟩ := ih h.init
    refine hheeds.step h.init.inOrder (fun hnil => h.init.soon g ?_)
      (EachStep.append.mp h.goesOn).2.1
    rw [hnil]
    rfl

end Step

def unanswered (ms : Nat) : Found := { pongs := 0, woken := false, now := Duration.millis ms }

end Supervisor

end Slopty.Net
