import Slopty.Media.Report

/-!
The video bitrate a worker sends at: what a stretch of receiver reports asks of it, and the
controller that follows them under the client's ceiling and what the path allows.
-/

namespace Slopty.Media.Rate

open Slopty.Lib
open Slopty.Media.Reassemble

/-- Reports per decision. -/
def decideEvery : Nat := 10

/-- Decisions to wait after a cut before growing again. -/
def cooldown : Nat := 4

/-- Reports after a stall whose queue and hold are ignored. -/
def settleReports : Nat := 2

def minBps : Nat := 1000000

def startBps : Nat := 12000000

def stepMinBps : Nat := 500000

def heavyLossPermille : Nat := 100

def unrepairedLossPermille : Nat := 20

def cleanLossPermille : Nat := 5

def overuseQueue : Nat := 3

def cleanQueue : Nat := 1

def overuseHoldMs : Nat := 60

def cleanHoldMs : Nat := 25

/-- What the transport knows of the path; the round trip is in nanoseconds. -/
structure PathSample where
  rtt : Nat
  cwnd : Nat
  deriving DecidableEq, Repr

def PathSample.windowBps (p : PathSample) : Option Nat :=
  let rttUs := p.rtt / 1000
  if rttUs = 0 ∨ p.cwnd = 0 then none
  else some (satMul 64 (satMul 64 p.cwnd 8) 1000000 / rttUs)

inductive RateVerdict where
  | cut
  | stall
  | grow
  | steady
  deriving DecidableEq, Repr

/-- The reports since the last decision, summed. -/
structure Window where
  lost : Nat := 0
  sent : Nat := 0
  framesOk : Nat := 0
  framesLost : Nat := 0
  queueMax : Nat := 0
  holdMax : Nat := 0
  stalledMs : Nat := 0
  stalls : Nat := 0
  /-- The widest path sample. -/
  path : Option PathSample := none
  deriving DecidableEq, Repr

namespace Window

/-- Fold a report in; the queue and the hold of one that follows a stall are not counted. -/
def add (w : Window) (report : ReceiverReport) (datagramsSent : Nat) (settling : Bool) : Window :=
  let w :=
    { w with
      lost := satAdd 32 w.lost report.datagramsLost
      sent := satAdd 32 w.sent datagramsSent
      framesOk := satAdd 32 w.framesOk report.framesOk
      framesLost := satAdd 32 w.framesLost report.framesLost
      stalledMs := satAdd 32 w.stalledMs report.stalledMs
      stalls := satAdd 32 w.stalls report.stalls }
  if settling then w
  else
    { w with
      queueMax := max w.queueMax report.queueDepth
      holdMax := if w.holdMax < report.holdP95 then report.holdP95 else w.holdMax }

/-- Keep a path sample that allows more than the one kept. -/
def addPath (w : Window) (sample : Option PathSample) : Window :=
  match sample with
  | none => w
  | some sample =>
      let wider := match w.path.bind PathSample.windowBps, sample.windowBps with
        | _, none => false
        | none, some _ => true
        | some have', some new => decide (have' < new)
      if wider then { w with path := some sample } else w

def stalled (w : Window) : Bool := decide (0 < w.stalledMs ∨ 0 < w.stalls)

/-- Lost datagrams per thousand sent. -/
def lossPermille (w : Window) : Nat :=
  let sent := if w.lost < w.sent then w.sent else w.lost
  if sent = 0 then 0 else satMul 32 w.lost 1000 / sent

/-- Frames lost after repair per thousand the client resolved. -/
def unrepairedPermille (w : Window) : Nat :=
  let resolved := satAdd 32 w.framesOk w.framesLost
  if resolved = 0 then 0 else satMul 32 w.framesLost 1000 / resolved

end Window

/-- What a window asks for; `cooling` is whether a cut still holds growth back. -/
def judge (w : Window) (cooling : Bool) : RateVerdict :=
  if w.stalled then .stall
  else
    let loss := w.lossPermille
    let holdMs := w.holdMax / 1000000
    let overuse := heavyLossPermille < loss ∨ unrepairedLossPermille < w.unrepairedPermille ∨
      overuseQueue ≤ w.queueMax ∨ overuseHoldMs < holdMs
    let clean := loss ≤ cleanLossPermille ∧ w.framesLost = 0 ∧ w.queueMax ≤ cleanQueue ∧
      holdMs ≤ cleanHoldMs
    if overuse then .cut
    else if clean ∧ cooling = false then .grow
    else .steady

structure Decision where
  verdict : RateVerdict
  targetBps : Nat
  changed : Bool
  /-- The path, not the policy, holds the target where it is. -/
  capped : Bool
  window : Window
  deriving DecidableEq, Repr

structure RateController where
  maxBps : Nat
  /-- What the path has earned, its cap aside. -/
  wantedBps : Nat
  /-- What the encoder is asked for. -/
  targetBps : Nat
  reports : Nat := 0
  cooldown : Nat := 0
  /-- Reports left whose queue and hold are ignored. -/
  settle : Nat := 0
  window : Window := {}
  deriving DecidableEq, Repr

namespace RateController

def new (maxBps : Nat) : RateController :=
  let maxBps := max maxBps minBps
  { maxBps := maxBps, wantedBps := min maxBps startBps, targetBps := min maxBps startBps }

/-- A new ceiling from the client. -/
def setMax (c : RateController) (maxBps : Nat) : RateController :=
  let maxBps := max maxBps minBps
  { c with
    maxBps := maxBps
    wantedBps := min c.wantedBps maxBps
    targetBps := min c.targetBps maxBps }

/-- What the policy makes of the verdict before it is clamped, and of the cooldown. -/
def followed (c : RateController) (verdict : RateVerdict) : Nat × Nat :=
  match verdict with
  | .cut => (satMul 32 c.targetBps 3 / 4, Rate.cooldown)
  | .grow =>
      if c.targetBps < c.wantedBps then (c.wantedBps, c.cooldown)
      else (satAdd 32 c.targetBps (max (c.targetBps / 8) stepMinBps), c.cooldown)
  | .stall => (c.wantedBps, c.cooldown)
  | .steady => (c.wantedBps, c.cooldown - 1)

/-- What the path allows: nine tenths of its window. -/
def cap (path : Option PathSample) : Option Nat :=
  (path.bind PathSample.windowBps).map fun window => min (satMul 64 window 9 / 10) (2 ^ 32 - 1)

def decide (c : RateController) : RateController × Decision :=
  let verdict := judge c.window (0 < c.cooldown)
  let (wanted, cooldown) := c.followed verdict
  let wanted := max minBps (min wanted c.maxBps)
  let target := max ((cap c.window.path).elim wanted fun cap => min cap wanted) minBps
  ({ c with wantedBps := wanted, targetBps := target, cooldown := cooldown },
    { verdict := verdict
      targetBps := target
      changed := target != c.targetBps
      capped := target < wanted
      window := c.window })

def fold (c : RateController) (report : ReceiverReport) (datagramsSent : Nat)
    (path : Option PathSample) : RateController :=
  { c with
    settle := if 0 < report.stalledMs ∨ 0 < report.stalls then settleReports else c.settle - 1
    window := (c.window.add report datagramsSent (0 < c.settle)).addPath path
    reports := satAdd 32 c.reports 1 }

/-- Fold in one report; there is a decision every `decideEvery` of them. -/
def onReport (c : RateController) (report : ReceiverReport) (datagramsSent : Nat)
    (path : Option PathSample) : RateController × Option Decision :=
  let c := c.fold report datagramsSent path
  if c.reports < decideEvery then (c, none)
  else
    let (c, decision) := c.decide
    ({ c with reports := 0, window := {} }, some decision)

inductive Op where
  | setMax (maxBps : Nat)
  | report (report : ReceiverReport) (datagramsSent : Nat) (path : Option PathSample)

def step (c : RateController) : Op → RateController × Option Decision
  | .setMax maxBps => (c.setMax maxBps, none)
  | .report report sent path => c.onReport report sent path

def next (c : RateController) (op : Op) : RateController := (c.step op).1

/-- What was decided along a run. -/
def decisions (c : RateController) : List Op → List Decision
  | [] => []
  | op :: rest => (c.step op).2.toList ++ (c.next op).decisions rest

/-- The rates are between the floor and the ceiling, and what is sent is not more than what the
policy wants. -/
structure Bounded (c : RateController) : Prop where
  ceiling : minBps ≤ c.maxBps
  wanted : minBps ≤ c.wantedBps ∧ c.wantedBps ≤ c.maxBps
  target : minBps ≤ c.targetBps ∧ c.targetBps ≤ c.wantedBps
  cooling : c.cooldown ≤ Rate.cooldown

/-- What a decision does to the policy: a stall leaves it alone, and only growth raises it. -/
structure Decides (c after : RateController) (d : Decision) : Prop where
  stall : d.verdict = .stall → after.wantedBps = c.wantedBps ∧ after.cooldown = c.cooldown
  raised : c.wantedBps < after.wantedBps → d.verdict = .grow
  cut : d.verdict = .cut → after.cooldown = Rate.cooldown
  grow : d.verdict = .grow → c.cooldown = 0
  steady : c.cooldown ≤ after.cooldown + if d.verdict = .steady then 1 else 0

theorem new_bounded (maxBps : Nat) : (new maxBps).Bounded := by
  have hfloor : minBps ≤ startBps := by decide
  constructor <;> simp only [new] <;> omega

namespace Bounded

variable {c : RateController}

theorem setMax (h : c.Bounded) (maxBps : Nat) : (c.setMax maxBps).Bounded := by
  obtain ⟨hceiling, hwanted, htarget, hcooling⟩ := h
  constructor <;> simp only [RateController.setMax] <;> omega

theorem decide (h : c.Bounded) : (c.decide.1).Bounded := by
  have hceiling := h.ceiling
  have hwanted : minBps ≤ c.decide.1.wantedBps ∧ c.decide.1.wantedBps ≤ c.maxBps := by
    simp only [RateController.decide]
    omega
  have htarget : c.decide.1.targetBps = max ((cap c.window.path).elim c.decide.1.wantedBps
      fun cap => min cap c.decide.1.wantedBps) minBps := rfl
  refine ⟨hceiling, hwanted, ?_, ?_⟩
  · rw [htarget]
    cases cap c.window.path with
    | none =>
      rw [Option.elim_none]
      omega
    | some cap =>
      rw [Option.elim_some]
      omega
  · show (c.followed (judge c.window (0 < c.cooldown))).2 ≤ Rate.cooldown
    have hcooling := h.cooling
    unfold followed
    cases judge c.window (0 < c.cooldown) with
    | cut => exact Nat.le_refl _
    | grow =>
      dsimp only
      split <;> exact hcooling
    | stall => exact hcooling
    | steady => exact (Nat.sub_le _ _).trans hcooling

theorem next (h : c.Bounded) (op : Op) : (c.next op).Bounded := by
  cases op with
  | setMax maxBps => exact h.setMax maxBps
  | report report sent path =>
    have hfold : (c.fold report sent path).Bounded :=
      ⟨h.ceiling, h.wanted, h.target, h.cooling⟩
    show (c.onReport report sent path).1.Bounded
    unfold onReport
    dsimp only
    split
    · exact hfold
    · exact ⟨hfold.decide.ceiling, hfold.decide.wanted, hfold.decide.target, hfold.decide.cooling⟩

theorem foldl (h : c.Bounded) (ops : List Op) : (ops.foldl RateController.next c).Bounded := by
  induction ops generalizing c with
  | nil => exact h
  | cons op rest ih => exact ih (h.next op)


end Bounded

theorem decide_verdict (c : RateController) :
    c.decide.2.verdict = judge c.window (0 < c.cooldown) := rfl

theorem decide_wanted (c : RateController) :
    c.decide.1.wantedBps = max minBps (min (c.followed c.decide.2.verdict).1 c.maxBps) := rfl

theorem decide_cooldown (c : RateController) :
    c.decide.1.cooldown = (c.followed c.decide.2.verdict).2 := rfl

theorem judge_grow {w : Window} {cooling : Bool} (h : judge w cooling = .grow) :
    cooling = false := by
  unfold judge at h
  dsimp only at h
  split at h
  · exact absurd h nofun
  · split at h
    · exact absurd h nofun
    · split at h
      · rename_i hclean
        exact hclean.2
      · exact absurd h nofun

/-- A cut is taken from the rate sent, so it never raises the one wanted. -/
theorem followed_cut_le {c : RateController} (h : c.targetBps ≤ c.wantedBps) :
    (c.followed .cut).1 ≤ c.wantedBps := by
  have hle := Nat.div_le_div_right (c := 4) (min_le_left (c.targetBps * 3) (2 ^ 32 - 1))
  show satMul 32 c.targetBps 3 / 4 ≤ _
  unfold satMul
  omega

theorem Bounded.decides {c : RateController} (h : c.Bounded) :
    Decides c c.decide.1 c.decide.2 := by
  obtain ⟨-, hwanted, htarget, hcooling⟩ := h
  have hcut := followed_cut_le htarget.2
  have hgrow : c.decide.2.verdict = .grow → c.cooldown = 0 := by
    intro hverdict
    have hcooling := judge_grow (c.decide_verdict.symm.trans hverdict)
    exact Nat.eq_zero_of_not_pos (of_decide_eq_false hcooling)
  refine ⟨fun hstall => ?_, fun hraised => ?_, fun hverdict => ?_, hgrow, ?_⟩
  · rw [decide_wanted, decide_cooldown, hstall]
    refine ⟨?_, rfl⟩
    show max minBps (min c.wantedBps c.maxBps) = c.wantedBps
    omega
  · rw [decide_wanted] at hraised
    cases hverdict : c.decide.2.verdict with
    | grow => rfl
    | cut =>
      rw [hverdict] at hraised
      omega
    | stall =>
      simp only [hverdict, followed] at hraised
      omega
    | steady =>
      simp only [hverdict, followed] at hraised
      omega
  · rw [decide_cooldown, hverdict]
    rfl
  · rw [decide_cooldown]
    cases hverdict : c.decide.2.verdict with
    | grow =>
      rw [hgrow hverdict]
      exact Nat.zero_le _
    | cut =>
      exact hcooling
    | stall => simp [followed]
    | steady =>
      simp only [followed, if_true]
      omega

theorem step_decides {c : RateController} (h : c.Bounded) {op : Op} {d : Decision}
    (hd : (c.step op).2 = some d) : Decides c (c.next op) d := by
  cases op with
  | setMax maxBps => exact absurd hd nofun
  | report report sent path =>
    have hfold : (c.fold report sent path).Bounded := ⟨h.ceiling, h.wanted, h.target, h.cooling⟩
    have hdecides := hfold.decides
    change (c.onReport report sent path).2 = some d at hd
    show Decides c (c.onReport report sent path).1 d
    unfold onReport at hd ⊢
    dsimp only at hd ⊢
    split at hd
    · exact absurd hd nofun
    · rename_i hdue
      rw [if_neg hdue]
      obtain rfl := Option.some.inj hd
      exact ⟨hdecides.stall, hdecides.raised, hdecides.cut, hdecides.grow, hdecides.steady⟩

theorem next_cooldown {c : RateController} {op : Op} (h : (c.step op).2 = none) :
    (c.next op).cooldown = c.cooldown := by
  cases op with
  | setMax maxBps => rfl
  | report report sent path =>
    change (c.onReport report sent path).2 = none at h
    show (c.onReport report sent path).1.cooldown = c.cooldown
    unfold onReport at h ⊢
    dsimp only at h ⊢
    split at h
    · rename_i hearly
      rw [if_pos hearly]
      rfl
    · exact absurd h nofun

/-- Before any growth as many steady decisions are made as the cooldown asks for. -/
theorem cooldown_le_steady {c : RateController} (h : c.Bounded) {ops : List Op}
    {between after : List Decision} {grow : Decision}
    (hsplit : c.decisions ops = between ++ grow :: after) (hgrow : grow.verdict = .grow) :
    c.cooldown ≤ between.countP fun d => d.verdict = .steady := by
  induction ops generalizing c between with
  | nil =>
    have hnil : [] = between ++ grow :: after := hsplit
    simp at hnil
  | cons op rest ih =>
    rw [decisions] at hsplit
    cases hd : (c.step op).2 with
    | none =>
      rw [hd] at hsplit
      rw [← next_cooldown hd]
      exact ih (h.next op) hsplit
    | some d =>
      have hdecides := step_decides h hd
      rw [hd] at hsplit
      cases between with
      | nil =>
        obtain ⟨rfl, -⟩ := List.cons.inj hsplit
        rw [hdecides.grow hgrow]
        exact Nat.zero_le _
      | cons first between =>
        obtain ⟨rfl, hrest⟩ := List.cons.inj hsplit
        have hle := ih (h.next op) hrest
        have hsteady := hdecides.steady
        rw [List.countP_cons]
        simp only [decide_eq_true_eq]
        omega

/-- What is decided after a cut is decided by a controller that cools down. -/
theorem after_cut {c : RateController} (h : c.Bounded) {ops : List Op}
    {before after : List Decision} {cut : Decision}
    (hsplit : c.decisions ops = before ++ cut :: after) (hcut : cut.verdict = .cut) :
    ∃ c' : RateController, ∃ rest, c'.Bounded ∧ c'.cooldown = Rate.cooldown ∧
      c'.decisions rest = after := by
  induction ops generalizing c before with
  | nil =>
    have hnil : [] = before ++ cut :: after := hsplit
    simp at hnil
  | cons op rest ih =>
    rw [decisions] at hsplit
    cases hd : (c.step op).2 with
    | none =>
      rw [hd] at hsplit
      exact ih (h.next op) hsplit
    | some d =>
      rw [hd] at hsplit
      cases before with
      | nil =>
        obtain ⟨rfl, hrest⟩ := List.cons.inj hsplit
        exact ⟨c.next op, rest, h.next op, (step_decides h hd).cut hcut, hrest⟩
      | cons first before =>
        obtain ⟨-, hrest⟩ := List.cons.inj hsplit
        exact ih (h.next op) hrest

/-- Along every run the rates are between the floor and the ceiling, a stall leaves the policy as
it is and only growth raises it, and after a cut it does not grow before the cooldown is over. -/
theorem rates_controlled (maxBps : Nat) (ops : List Op) :
    (ops.foldl next (new maxBps)).Bounded ∧
      (∀ op d, ((ops.foldl next (new maxBps)).step op).2 = some d →
        Decides (ops.foldl next (new maxBps)) ((ops.foldl next (new maxBps)).next op) d) ∧
      ∀ before cut between grow after,
        (new maxBps).decisions ops = before ++ cut :: (between ++ grow :: after) →
          cut.verdict = .cut → grow.verdict = .grow →
            Rate.cooldown ≤ between.countP fun d => d.verdict = .steady := by
  refine ⟨(new_bounded maxBps).foldl ops, fun op d hd => ?_, ?_⟩
  · exact step_decides ((new_bounded maxBps).foldl ops) hd
  · intro before cut between grow after hsplit hcut hgrow
    obtain ⟨c, rest, hbounded, hcooling, hrest⟩ := after_cut (new_bounded maxBps) hsplit hcut
    rw [← hcooling]
    exact cooldown_le_steady hbounded hrest hgrow

end RateController

end Slopty.Media.Rate
