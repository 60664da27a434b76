import Slopty.Grid.Scrollback
import Slopty.Lib.Run

/-!
The lines a client asks its terminal's worker for: the ones its cache misses,
each once, in requests that are answered, or forgotten with the stream they
went out for.
-/

namespace Slopty.Link

open Slopty.Lib Slopty.Grid

def maxFetchLines : Nat := 4096

def cacheLines : Nat := 20000

/-- One request for lines in flight, with the numbering it was asked in. -/
structure Fetch where
  start : Nat
  stop : Nat
  epoch : Option Nat
  deriving DecidableEq, Repr

/-- A `FetchLines` as it is sent. -/
structure FetchLines where
  start : Nat
  count : Nat
  deriving DecidableEq, Repr

/-- What the client held of the primary screen's numbering. -/
structure Parked where
  epoch : Nat
  scrollback : Scrollback

/-- A frame as far as the lines go: its number, its numbering and what there is
in it, and the rows it brings. -/
structure LineFrame where
  seq : Nat
  full : Bool
  epoch : Nat
  altScreen : Bool
  firstVisible : LineIndex
  oldest : LineIndex
  total : Nat
  updates : List (Nat × Line)

structure TermState where
  scrollback : Scrollback := Scrollback.new cacheLines
  epoch : Option Nat := none
  lastSeq : Option Nat := none
  altScreen : Bool := false
  parked : Option Parked := none
  /-- The requests not answered yet, oldest first. -/
  inFlight : List Fetch := []
  relinked : Bool := false

namespace TermState

/-- A request asked in this numbering that a line is in. -/
def coveringOf (inFlight : List Fetch) (epoch : Option Nat) (n : Nat) : Option Fetch :=
  (inFlight.filter fun f => f.epoch == epoch).find? fun f => decide (f.start ≤ n ∧ n < f.stop)

def nextAsked (inFlight : List Fetch) (epoch : Option Nat) (n : Nat) : Nat :=
  (((inFlight.filter fun f => decide (f.epoch = epoch ∧ n < f.start)).map Fetch.start).min?).getD
    (2 ^ 64 - 1)

/-- The rounds of the loop over one gap: each one skips what an earlier request
covers, or asks for the rest up to the next one. -/
def askGap (epoch : Option Nat) (stop : Nat) : (rounds from' : Nat) → List Fetch →
    List Fetch × List FetchLines
  | 0, _, inFlight => (inFlight, [])
  | rounds + 1, from', inFlight =>
      if from' < stop then
        match coveringOf inFlight epoch from' with
        | some covering => askGap epoch stop rounds covering.stop inFlight
        | none =>
            let to' := min (min stop (nextAsked inFlight epoch from'))
              (satAdd 64 from' maxFetchLines)
            let count := if to' - from' < 2 ^ 32 then to' - from' else maxFetchLines
            let (inFlight, asked) := askGap epoch stop rounds to' (inFlight ++ [⟨from', to', epoch⟩])
            (inFlight, ⟨from', count⟩ :: asked)
      else (inFlight, [])

def askGaps (epoch : Option Nat) : List (Nat × Nat) → List Fetch → List Fetch × List FetchLines
  | [], inFlight => (inFlight, [])
  | (start, len) :: rest, inFlight =>
      let (inFlight, asked) := askGap epoch (satAdd 64 start len) len start inFlight
      let (inFlight, later) := askGaps epoch rest inFlight
      (inFlight, asked ++ later)

/-- Ask for the lines of a range that are neither held nor already asked for. -/
def requestLines (t : TermState) (start : LineIndex) (count : Nat) : TermState × List FetchLines :=
  let (inFlight, asked) := askGaps t.epoch (t.scrollback.missing start count) t.inFlight
  ({ t with inFlight := inFlight }, asked)

/-- Whether an answer is to be kept: its request leaves the flight, with any
asked before it. -/
def answered (t : TermState) (start : Nat) : TermState × Bool :=
  match t.inFlight.findIdx? fun f => decide (f.start ≤ start ∧ start ≤ f.stop) with
  | some at' =>
      ({ t with inFlight := t.inFlight.drop (at' + 1) },
        (t.inFlight[at']?).all fun f => f.epoch == t.epoch)
  | none =>
      ({ t with inFlight := t.inFlight.drop 1 },
        (t.inFlight.head?).all fun f => f.epoch == t.epoch)

def lines (t : TermState) (start : LineIndex) (ls : List Line) : TermState :=
  match t.answered start.val with
  | (t, true) => { t with scrollback := t.scrollback.insertBatch start ls }
  | (t, false) => t

/-- A frame in another numbering: the lines held are put aside, and taken back
when the worker returns to theirs. -/
def changeNumbering (t : TermState) (f : LineFrame) : TermState :=
  let toAlt := f.altScreen && !t.altScreen
  let held := t.scrollback
  let back := t.parked.filter fun p => p.epoch == f.epoch
  { t with
    scrollback :=
      if toAlt then Scrollback.new cacheLines
      else (back.map Parked.scrollback).getD (Scrollback.new cacheLines)
    parked := if toAlt then t.epoch.map fun epoch => ⟨epoch, held⟩ else none
    epoch := some f.epoch }

def insertRows (s : Scrollback) (first : LineIndex) : List (Nat × Line) → Scrollback
  | [] => s
  | (row, line) :: rest =>
      let n := satAdd 64 first.val row
      insertRows (if h : n < 2 ^ 64 then s.insert ⟨n, h⟩ line else s) first rest

def applyFrame (t : TermState) (f : LineFrame) (top : Option LineIndex) : TermState :=
  if t.lastSeq.any fun last => decide (f.seq < last ∨ (f.seq = last ∧ f.full = false)) then t
  else
    let trusted := !t.relinked
    let t := { t with relinked := false }
    let t := if trusted && t.epoch == some f.epoch then t else t.changeNumbering f
    let t := if f.full then { t with inFlight := [] } else t
    let s := t.scrollback.setView (top.getD f.firstVisible) f.firstVisible
    let s := s.setExtent f.oldest f.total
    { t with
      lastSeq := some f.seq
      altScreen := f.altScreen
      scrollback := insertRows s f.firstVisible f.updates }

/-- The link is gone and a new one attaches. -/
def relink (t : TermState) : TermState :=
  { t with lastSeq := none, inFlight := [], parked := none, relinked := true }

inductive Op where
  | requestLines (start : LineIndex) (count : Nat)
  | lines (start : LineIndex) (ls : List Line)
  | frame (f : LineFrame) (top : Option LineIndex)
  | setView (top screen : LineIndex)
  | relink

def step (t : TermState) : Op → TermState
  | .requestLines start count => (t.requestLines start count).1
  | .lines start ls => t.lines start ls
  | .frame f top => t.applyFrame f top
  | .setView top screen => { t with scrollback := t.scrollback.setView top screen }
  | .relink => t.relink

/-- A line is in a request asked in this numbering. -/
def InFlight (inFlight : List Fetch) (epoch : Option Nat) (n : Nat) : Prop :=
  ∃ f ∈ inFlight, f.epoch = epoch ∧ f.start ≤ n ∧ n < f.stop

/-- No line is in two requests asked in one numbering. -/
def Apart (inFlight : List Fetch) : Prop :=
  inFlight.Pairwise fun f g => f.epoch = g.epoch →
    ∀ n, f.start ≤ n → n < f.stop → g.start ≤ n → ¬ n < g.stop

def FetchLines.has (r : FetchLines) (n : Nat) : Prop := r.start ≤ n ∧ n < r.start + r.count

/-- What asking for the lines that are `wanted` does: requests within the limit,
of lines that are wanted and not yet in flight, and every wanted line in flight
after. -/
structure Asks (epoch : Option Nat) (wanted : Nat → Prop) (before after : List Fetch)
    (asked : List FetchLines) : Prop where
  flight : after = before ++ asked.map fun r => ⟨r.start, r.start + r.count, epoch⟩
  size : ∀ r ∈ asked, 0 < r.count ∧ r.count ≤ maxFetchLines
  within : ∀ r ∈ asked, ∀ n, FetchLines.has r n → wanted n
  fresh : ∀ r ∈ asked, ∀ n, FetchLines.has r n → ¬ InFlight before epoch n
  apart : Apart before → Apart after
  all : ∀ n, wanted n → InFlight after epoch n

section Asking

variable {epoch : Option Nat} {before middle after : List Fetch} {asked later : List FetchLines}
  {wanted other : Nat → Prop}

theorem InFlight.append {n : Nat} (h : InFlight before epoch n) (more : List Fetch) :
    InFlight (before ++ more) epoch n := by
  obtain ⟨f, hf, hin⟩ := h
  exact ⟨f, List.mem_append_left _ hf, hin⟩

theorem Asks.nothing (epoch : Option Nat) (before : List Fetch) :
    Asks epoch (fun _ => False) before before [] where
  flight := (List.append_nil before).symm
  size := nofun
  within := nofun
  fresh := nofun
  apart := id
  all := nofun

theorem Asks.one {start count : Nat} (hsize : 0 < count ∧ count ≤ maxFetchLines)
    (hfresh : ∀ n, start ≤ n → n < start + count → ¬ InFlight before epoch n) :
    Asks epoch (fun n => start ≤ n ∧ n < start + count) before
      (before ++ [⟨start, start + count, epoch⟩]) [⟨start, count⟩] where
  flight := rfl
  size := by
    intro r hr
    rw [List.mem_singleton.mp hr]
    exact hsize
  within := by
    intro r hr n hn
    rw [List.mem_singleton.mp hr] at hn
    exact hn
  fresh := by
    intro r hr n hn
    rw [List.mem_singleton.mp hr] at hn
    exact hfresh n hn.1 hn.2
  apart := by
    intro hapart
    refine List.pairwise_append.mpr ⟨hapart, List.pairwise_singleton _ _, ?_⟩
    intro f hf g hg hepoch n hfrom hstop hgfrom hgstop
    obtain rfl := List.mem_singleton.mp hg
    exact hfresh n hgfrom hgstop ⟨f, hf, hepoch, hfrom, hstop⟩
  all := by
    intro n hn
    exact ⟨_, List.mem_append_right _ List.mem_cons_self, rfl, hn⟩

theorem Asks.trans (h : Asks epoch wanted before middle asked)
    (hlater : Asks epoch other middle after later) :
    Asks epoch (fun n => wanted n ∨ other n) before after (asked ++ later) where
  flight := by rw [hlater.flight, h.flight, List.map_append, List.append_assoc]
  size := by
    intro r hr
    exact (List.mem_append.mp hr).elim (h.size r) (hlater.size r)
  within := by
    intro r hr n hn
    exact (List.mem_append.mp hr).imp (fun hr => h.within r hr n hn)
      (fun hr => hlater.within r hr n hn)
  fresh := by
    intro r hr n hn hin
    rcases List.mem_append.mp hr with hr | hr
    · exact h.fresh r hr n hn hin
    · refine hlater.fresh r hr n hn ?_
      rw [h.flight]
      exact hin.append _
  apart := fun hapart => hlater.apart (h.apart hapart)
  all := by
    intro n hn
    rcases hn with hn | hn
    · rw [hlater.flight]
      exact (h.all n hn).append _
    · exact hlater.all n hn

theorem Asks.skip (h : Asks epoch wanted before after asked) (hall : ∀ n, wanted n → other n)
    (hskip : ∀ n, other n → wanted n ∨ InFlight before epoch n) :
    Asks epoch other before after asked where
  flight := h.flight
  size := h.size
  within := fun r hr n hn => hall n (h.within r hr n hn)
  fresh := h.fresh
  apart := h.apart
  all := by
    intro n hn
    rcases hskip n hn with hwanted | hin
    · exact h.all n hwanted
    · rw [h.flight]
      exact hin.append _

theorem coveringOf_eq_some {n : Nat} {f : Fetch} (h : coveringOf before epoch n = some f) :
    f ∈ before ∧ f.epoch = epoch ∧ f.start ≤ n ∧ n < f.stop := by
  unfold coveringOf at h
  have hmem := List.mem_filter.mp (List.mem_of_find?_eq_some h)
  have hin := List.find?_some h
  exact ⟨hmem.1, eq_of_beq hmem.2, of_decide_eq_true hin⟩

theorem coveringOf_eq_none {n : Nat} (h : coveringOf before epoch n = none) :
    ¬ InFlight before epoch n := by
  rintro ⟨f, hf, hepoch, hin⟩
  have hnot := List.find?_eq_none.mp h f (List.mem_filter.mpr ⟨hf, beq_iff_eq.mpr hepoch⟩)
  exact hnot (decide_eq_true hin)

theorem lt_nextAsked {n : Nat} (h : n < 2 ^ 64 - 1) : n < nextAsked before epoch n := by
  unfold nextAsked
  cases hmin : ((before.filter fun f => decide (f.epoch = epoch ∧ n < f.start)).map
    Fetch.start).min? with
  | none => exact h
  | some next =>
    obtain ⟨f, hf, rfl⟩ := List.mem_map.mp (List.min?_mem hmin)
    exact (of_decide_eq_true (List.mem_filter.mp hf).2).2

theorem nextAsked_le {n : Nat} {f : Fetch} (hf : f ∈ before) (hepoch : f.epoch = epoch)
    (hn : n < f.start) : nextAsked before epoch n ≤ f.start := by
  have hmem : f.start ∈ (before.filter fun f => decide (f.epoch = epoch ∧ n < f.start)).map
      Fetch.start :=
    List.mem_map_of_mem (List.mem_filter.mpr ⟨hf, decide_eq_true ⟨hepoch, hn⟩⟩)
  unfold nextAsked
  cases hmin : ((before.filter fun f => decide (f.epoch = epoch ∧ n < f.start)).map
    Fetch.start).min? with
  | none =>
    rw [List.min?_eq_none_iff.mp hmin] at hmem
    exact absurd hmem nofun
  | some next => exact (List.min?_eq_some_iff.mp hmin).2 f.start hmem

/-- A request that begins at a line not in flight and ends before the next one
that is. -/
theorem not_inFlight_of_next {n to' : Nat} (h : coveringOf before epoch n = none)
    (hto : to' ≤ nextAsked before epoch n) :
    ∀ m, n ≤ m → m < to' → ¬ InFlight before epoch m := by
  rintro m hfrom hstop ⟨f, hf, hepoch, hstart, hend⟩
  by_cases hbefore : f.start ≤ n
  · exact coveringOf_eq_none h ⟨f, hf, hepoch, hbefore, hfrom.trans_lt hend⟩
  · have hnext := nextAsked_le hf hepoch (Nat.not_le.mp hbefore)
    omega

theorem askGap_asks (epoch : Option Nat) {stop : Nat} (hstop : stop < 2 ^ 64)
    (rounds from' : Nat) (before : List Fetch) (hrounds : stop ≤ from' + rounds) :
    Asks epoch (fun n => from' ≤ n ∧ n < stop) before (askGap epoch stop rounds from' before).1
      (askGap epoch stop rounds from' before).2 := by
  induction rounds generalizing from' before with
  | zero =>
    refine (Asks.nothing epoch before).skip nofun ?_
    rintro n ⟨hfrom, hn⟩
    omega
  | succ rounds ih =>
    unfold askGap
    by_cases hlt : from' < stop
    · rw [if_pos hlt]
      cases hcovering : coveringOf before epoch from' with
      | some covering =>
        obtain ⟨hmem, hepoch, hstart, hend⟩ := coveringOf_eq_some hcovering
        refine (ih covering.stop before (by omega)).skip ?_ ?_
        · rintro n ⟨hfrom, hn⟩
          omega
        · rintro n ⟨hfrom, hn⟩
          by_cases hpast : covering.stop ≤ n
          · exact .inl ⟨hpast, hn⟩
          · exact .inr ⟨covering, hmem, hepoch, hstart.trans hfrom, Nat.not_le.mp hpast⟩
      | none =>
        dsimp only
        have hnext : from' < nextAsked before epoch from' := lt_nextAsked (by omega)
        generalize hto : min (min stop (nextAsked before epoch from'))
          (satAdd 64 from' maxFetchLines) = to'
        have hbounds : from' < to' ∧ to' ≤ stop ∧ to' ≤ nextAsked before epoch from' ∧
            to' - from' ≤ maxFetchLines := by
          unfold satAdd maxFetchLines at hto
          unfold maxFetchLines
          omega
        obtain ⟨hless, hle, hasked, hlimit⟩ := hbounds
        have hcount : to' - from' < 2 ^ 32 := by
          unfold maxFetchLines at hlimit
          omega
        have hend : from' + (to' - from') = to' := by omega
        have hone : Asks epoch (fun n => from' ≤ n ∧ n < from' + (to' - from')) before
            (before ++ [⟨from', from' + (to' - from'), epoch⟩]) [⟨from', to' - from'⟩] := by
          refine Asks.one ⟨by omega, hlimit⟩ fun n hfrom hn => ?_
          exact not_inFlight_of_next hcovering hasked n hfrom (by omega)
        rw [hend] at hone
        rw [if_pos hcount]
        refine (hone.trans (ih to' _ (by omega))).skip ?_ ?_
        · rintro n (hn | hn)
          · omega
          · omega
        · rintro n hn
          exact .inl (by omega)
    · rw [if_neg hlt]
      refine (Asks.nothing epoch before).skip nofun ?_
      rintro n ⟨hfrom, hn⟩
      omega

theorem askGaps_asks (epoch : Option Nat) (gaps : List (Nat × Nat)) (before : List Fetch)
    (hgaps : ∀ g ∈ gaps, g.1 + g.2 < 2 ^ 64) :
    Asks epoch (fun n => ∃ g ∈ gaps, g.1 ≤ n ∧ n < g.1 + g.2) before
      (askGaps epoch gaps before).1 (askGaps epoch gaps before).2 := by
  induction gaps generalizing before with
  | nil =>
    refine (Asks.nothing epoch before).skip nofun ?_
    rintro n ⟨g, hg, -⟩
    exact absurd hg nofun
  | cons gap rest ih =>
    obtain ⟨start, len⟩ := gap
    have hfits : start + len < 2 ^ 64 := hgaps (start, len) List.mem_cons_self
    have hend : satAdd 64 start len = start + len := by
      unfold satAdd
      omega
    have hgap := askGap_asks epoch hfits len start before (le_refl _)
    have hrest := ih (askGap epoch (start + len) len start before).1
      fun g hg => hgaps g (List.mem_cons_of_mem _ hg)
    unfold askGaps
    rw [hend]
    refine (hgap.trans hrest).skip ?_ ?_
    · rintro n (hn | ⟨g, hg, hn⟩)
      · exact ⟨(start, len), List.mem_cons_self, hn⟩
      · exact ⟨g, List.mem_cons_of_mem _ hg, hn⟩
    · rintro n ⟨g, hg, hn⟩
      rcases List.mem_cons.mp hg with rfl | hg
      · exact .inl (.inl hn)
      · exact .inl (.inr ⟨g, hg, hn⟩)

end Asking

/-- A line of the range that the worker can still serve and the client does not
hold. -/
structure Wanted (t : TermState) (start : LineIndex) (count n : Nat) : Prop where
  range : start.val ≤ n ∧ n < start.val + count
  served : t.scrollback.oldest.val ≤ n ∧ n < t.scrollback.total
  missed : t.scrollback.holds n = false

theorem requestLines_asks (t : TermState) (start : LineIndex) (count : Nat) :
    Asks t.epoch (fun n => t.Wanted start count n ∧ n < 2 ^ 64 - 1) t.inFlight
      (t.requestLines start count).1.inFlight (t.requestLines start count).2 := by
  have hgaps := t.scrollback.missing_gaps start count
  have hstart := start.isLt
  have holdest := t.scrollback.oldest.isLt
  have hend : t.scrollback.rangeEnd start count ≤ 2 ^ 64 - 1 := by
    unfold Scrollback.rangeEnd satAdd
    omega
  have hfits : ∀ g ∈ t.scrollback.missing start count, g.1 + g.2 < 2 ^ 64 := by
    intro g hg
    have hbounds := hgaps.bounds g hg
    omega
  refine (askGaps_asks t.epoch _ t.inFlight hfits).skip ?_ ?_
  · rintro n ⟨g, hg, hfrom, hn⟩
    have habsent := hgaps.absent g hg n hfrom hn
    have hbounds := hgaps.bounds g hg
    have hbefore : n < t.scrollback.rangeEnd start count := by omega
    unfold Scrollback.rangeEnd satAdd at hbefore
    exact ⟨⟨by omega, by omega, habsent⟩, by omega⟩
  · rintro n ⟨hwanted, hn⟩
    have hrange := hwanted.range
    have hserved := hwanted.served
    refine .inl (hgaps.all n (by omega) ?_ hwanted.missed)
    unfold Scrollback.rangeEnd satAdd
    omega

theorem Apart.drop {inFlight : List Fetch} (h : Apart inFlight) (n : Nat) :
    Apart (inFlight.drop n) := List.Pairwise.sublist (List.drop_sublist n inFlight) h

theorem answered_apart (t : TermState) (start : Nat) (h : Apart t.inFlight) :
    Apart (t.answered start).1.inFlight := by
  unfold answered
  split
  · exact h.drop _
  · exact h.drop 1

theorem lines_apart (t : TermState) (start : LineIndex) (ls : List Line) (h : Apart t.inFlight) :
    Apart (t.lines start ls).inFlight := by
  have hanswered := t.answered_apart start.val h
  unfold lines
  split
  · rename_i t' heq
    rw [heq] at hanswered
    exact hanswered
  · rename_i t' heq
    rw [heq] at hanswered
    exact hanswered

theorem applyFrame_inFlight (t : TermState) (f : LineFrame) (top : Option LineIndex) :
    (t.applyFrame f top).inFlight = t.inFlight ∨ (t.applyFrame f top).inFlight = [] := by
  unfold applyFrame
  dsimp only
  split
  · exact .inl rfl
  · split
    · exact .inr rfl
    · left
      split
      · rfl
      · rfl

theorem step_apart (t : TermState) (op : Op) (h : Apart t.inFlight) :
    Apart (t.step op).inFlight := by
  cases op with
  | requestLines start count => exact (t.requestLines_asks start count).apart h
  | lines start ls => exact t.lines_apart start ls h
  | frame f top =>
    rcases t.applyFrame_inFlight f top with heq | heq
    · rw [step, heq]
      exact h
    · rw [step, heq]
      exact List.Pairwise.nil
  | setView top screen => exact h
  | relink => exact List.Pairwise.nil

theorem run_apart (ops : List Op) : Apart (ops.foldl step {}).inFlight := by
  induction ops using List.reverseRecOn with
  | nil => exact List.Pairwise.nil
  | append_singleton ops op ih =>
    rw [List.foldl_append]
    exact step_apart _ op ih

/-- Asking for a range asks for what is missing of it and not in flight, within
the limit, and leaves all of that in flight; and along every run no line is in
two requests of one numbering. -/
theorem lines_fetched_once :
    (∀ (t : TermState) (start : LineIndex) (count : Nat), t.scrollback.total < 2 ^ 64 →
      Asks t.epoch (t.Wanted start count) t.inFlight (t.requestLines start count).1.inFlight
        (t.requestLines start count).2) ∧
    ∀ ops : List Op, Apart (ops.foldl step {}).inFlight := by
  refine ⟨fun t start count htotal => ?_, run_apart⟩
  refine (t.requestLines_asks start count).skip (fun n hn => hn.1) fun n hn => .inl ⟨hn, ?_⟩
  have hserved := hn.served
  omega

/-- A history of five thousand lines, none of them held. -/
def unread : TermState := { scrollback := { Scrollback.new cacheLines with total := 5000 } }

theorem lines_fetched_once_unread :
    Asks none (unread.Wanted 10 4980) [] (unread.requestLines 10 4980).1.inFlight
      (unread.requestLines 10 4980).2 :=
  lines_fetched_once.1 unread 10 4980 (by decide)

end TermState

end Slopty.Link
