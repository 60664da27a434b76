import Slopty.Thread.Coalesce
import Slopty.Thread.Tail

/-!
A client that follows a thread. The host applies actions and sends each batch to a bounded feed;
the follower starts with what it missed, gathers batches into frames within its latency budget,
and catches up from its cursor again when the feed breaks. Every await of the follower is a point
where the host may act and where the call may be cut short.
-/

namespace Slopty.Thread

open Slopty.Lib Slopty.Proto.Codec

/-- Actions applied together, as every follower hears them. -/
structure Batch where
  epoch : Nat
  /-- The number they apply to. -/
  seq : Nat
  actions : List Action
  deriving DecidableEq

def seatFact : String := "slopty.seat"

/-- What the worker adds to a thread that its agent's records never tell. -/
structure Own where
  seat : Option String := none
  /-- The facts of the seat it was started at. -/
  seated : List (String × String) := []
  parent : Option Link := none

namespace Own

/-- A thread's metadata with what the worker knows of it. -/
def fill (own : Own) (m : ThreadMeta) : Own × ThreadMeta :=
  let own := { own with parent := m.parent.or own.parent }
  let facts := own.seat.elim m.facts fun seat => m.facts.insert seatFact seat
  (own, { m with
    parent := own.parent
    facts := own.seated.foldl (fun facts f => facts.insert f.1 f.2) facts })

def mark (own : Own) : List Action → Own × List Action
  | [] => (own, [])
  | .threadMeta m :: rest =>
      let marked := (own.fill m).1.mark rest
      (marked.1, .threadMeta (own.fill m).2 :: marked.2)
  | action :: rest =>
      let marked := own.mark rest
      (marked.1, action :: marked.2)

end Own

def feedBatches : Nat := 1024

inductive Recv where
  | batch (b : Batch)
  | lagged
  | closed
  | empty

/-- Take the next batch of a feed at a place in it. -/
def recv (feed : List Batch) (closed : Bool) (at' : Nat) : Recv :=
  if feedBatches < feed.length - at' then .lagged
  else match feed[at']? with
    | some b => .batch b
    | none => if closed then .closed else .empty

inductive ThreadFrame where
  | snapshot (cursor : Cursor) (state : ThreadState)
  | actions (epoch first next : Nat) (actions : List Action)
  deriving DecidableEq

/-- As a frame of the thread's stream, and the cursor it leaves a follower at. -/
def Catchup.frame : Catchup → ThreadFrame × Cursor
  | .actions held acts =>
      let next := held.seq + acts.length
      (.actions held.epoch held.seq next acts, ⟨held.epoch, next⟩)
  | .snapshot cursor state => (.snapshot cursor state, cursor)

def frameText : Nat := 4 * 1024

def frameActions : Nat := 512

def appended (actions : List Action) : Nat :=
  (actions.map fun a => match a with
    | .append _ _ text => (text.map Char.utf8Size).sum
    | _ => 0).sum

structure Follower where
  turns : Nat
  budget : Nat
  cursor : Option Cursor
  /-- Its place in the feed. -/
  feed : Option Nat := none
  /-- The batches taken for the frame under way, which follow on from the cursor. -/
  gathered : List Batch := []
  deadline : Option Nat := none

/-- What a call of the follower does between two awaits. -/
inductive Polled where
  | pending
  /-- The feed is let go: the next turn of the loop catches up. -/
  | broke
  /-- The frame of a catch-up. -/
  | caught (frame : ThreadFrame)
  /-- The frame of what was gathered; the feed may have broken off behind it. -/
  | gathered (frame : ThreadFrame) (torn : Bool)
  | gone

namespace Follower

def gatheredActions (f : Follower) : List Action := f.gathered.flatMap Batch.actions

/-- The frame under way goes. -/
def emit (f : Follower) (at' : Cursor) (torn : Bool) : Follower × Polled :=
  let actions := f.gatheredActions
  let next := at'.seq + actions.length
  ({ f with
      gathered := []
      deadline := none
      cursor := some ⟨at'.epoch, next⟩
      feed := if torn then none else f.feed },
    .gathered (.actions at'.epoch at'.seq next (coalesce actions)) torn)

/-- Enough has gathered for a frame. -/
def full (f : Follower) : Bool :=
  decide (frameText ≤ (f.gathered.map fun b => appended b.actions).sum) ||
    decide (frameActions ≤ f.gatheredActions.length)

def catchUp (f : Follower) (log : Option Log) (feed : List Batch) : Follower × Polled :=
  let f := { f with gathered := [] }
  match log with
  | none => (f, .gone)
  | some log =>
      let caught := (log.since f.cursor f.turns).frame
      ({ f with feed := some feed.length, cursor := some caught.2 }, .caught caught.1)

/-- Take the first batch of a frame. -/
def begin (f : Follower) (feed : List Batch) (closed : Bool) (place : Nat) (at' : Cursor)
    (now : Nat) : Follower × Polled :=
  match recv feed closed place with
  | .batch b =>
      if b.epoch ≠ at'.epoch ∨ b.seq ≠ at'.seq then ({ f with feed := none }, .broke)
      else
        ({ f with
            feed := some (place + 1)
            gathered := [b]
            deadline := some (now + f.budget) }, .pending)
  | .lagged => ({ f with feed := none }, .broke)
  | .closed => (f, .gone)
  | .empty => (f, .pending)

/-- Gather one more batch, or let the frame go. -/
def gather (f : Follower) (feed : List Batch) (closed : Bool) (place : Nat) (at' : Cursor)
    (now : Nat) : Follower × Polled :=
  if f.full then f.emit at' false
  else match recv feed closed place with
    | .batch b =>
        if b.epoch = at'.epoch ∧ b.seq = at'.seq + f.gatheredActions.length then
          ({ f with feed := some (place + 1), gathered := f.gathered ++ [b] }, .pending)
        else f.emit at' true
    | .lagged => f.emit at' true
    | .closed => f.emit at' true
    | .empty =>
        match f.deadline with
        | some deadline =>
            if f.budget ≠ 0 ∧ now < deadline then (f, .pending) else f.emit at' false
        | none => f.emit at' false

/-- One stretch of `next`, up to its next await or its answer. `log` is the thread's, while it is
held. -/
def next (f : Follower) (log : Option Log) (feed : List Batch) (now : Nat) : Follower × Polled :=
  match f.feed, f.cursor with
  | none, _ => f.catchUp log feed
  | some _, none => ({ f with feed := none }, .broke)
  | some place, some at' =>
      if f.gathered = [] then f.begin feed log.isNone place at' now
      else f.gather feed log.isNone place at' now

end Follower

/-- What a follower did that others see: a frame sent, or its feed broken off. -/
inductive FollowEvent where
  | sent (frame : ThreadFrame) (catchup : Bool)
  | broke

def Polled.events : Polled → List FollowEvent
  | .pending => []
  | .gone => []
  | .broke => [.broke]
  | .caught frame => [.sent frame true]
  | .gathered frame torn => .sent frame false :: if torn then [.broke] else []

structure Following where
  thread : Followed
  own : Own := {}
  /-- The thread is held; its feed closes when it no longer is. -/
  held : Bool := true
  /-- Every batch sent. -/
  feed : List Batch := []
  follower : Follower
  events : List FollowEvent := []

inductive FollowStep where
  | apply (actions : List Action) (wrote : Fate) (fates : CompactFates)
  | reset (state : ThreadState) (fates : CompactFates)
  | remove
  /-- The follower runs to its next await. -/
  | next (now : Nat)

namespace Following

/-- The host's `apply`: the actions marked, logged and sent to every follower. -/
def apply (w : Wires) (m : Following) (actions : List Action) (wrote : Fate)
    (fates : CompactFates) : Following :=
  let marked := m.own.mark actions
  let first := m.thread.log.cursor
  { m with
    own := marked.1
    thread := m.thread.step w (.append marked.2 wrote fates)
    feed := m.feed ++ [⟨first.epoch, first.seq, marked.2⟩] }

/-- The host's `restart`: the log starts over, and every follower is told once it is written. -/
def restart (w : Wires) (m : Following) (state : ThreadState) (fates : CompactFates) : Following :=
  let filled := m.own.fill state.threadMeta
  let state := { state with
    threadMeta := filled.2
    seen := m.thread.log.state.seen
    named := m.thread.log.state.named }
  let thread := m.thread.step w (.reset state fates)
  match (m.thread.log.reset w m.thread.dir state fates).2.2 with
  | some _ => { m with own := filled.1, thread := thread }
  | none =>
      { m with
        own := filled.1
        thread := thread
        feed := m.feed ++ [⟨thread.log.cursor.epoch, 0, []⟩] }

def poll (m : Following) (now : Nat) : Following :=
  let polled := m.follower.next (if m.held then some m.thread.log else none) m.feed now
  { m with follower := polled.1, events := m.events ++ polled.2.events }

def step (w : Wires) (m : Following) : FollowStep → Following
  | .apply actions wrote fates => if m.held then m.apply w actions wrote fates else m
  | .reset state fates => if m.held then m.restart w state fates else m
  | .remove => { m with held := false }
  | .next now => m.poll now

end Following

/-- Each frame of actions starts at the cursor the frame before it left. -/
def Chained : Option Cursor → List ThreadFrame → Prop
  | _, [] => True
  | _, .snapshot cursor _ :: rest => Chained (some cursor) rest
  | held, .actions epoch first next _ :: rest =>
      held = some ⟨epoch, first⟩ ∧ Chained (some ⟨epoch, next⟩) rest

/-- Where a client stands after the frames. -/
def cursorAfter : Option Cursor → List ThreadFrame → Option Cursor
  | held, [] => held
  | _, .snapshot cursor _ :: rest => cursorAfter (some cursor) rest
  | _, .actions epoch _ next _ :: rest => cursorAfter (some ⟨epoch, next⟩) rest

/-- The actions take the worker's state at one cursor to its state at the other. -/
def Carries (stood : List (Cursor × ThreadState)) (first next : Cursor) (actions : List Action) :
    Prop :=
  ∃ s, (first, s) ∈ stood ∧ (next, s.applyAll actions) ∈ stood

/-- What a frame is of the states the worker stood at. -/
def Moves (stood : List (Cursor × ThreadState)) (turns : Nat) : ThreadFrame → Prop
  | .snapshot cursor state => ∃ s, (cursor, s) ∈ stood ∧ state = s.window turns
  | .actions epoch first next actions => Carries stood ⟨epoch, first⟩ ⟨epoch, next⟩ actions

def FollowEvent.frame? : FollowEvent → Option ThreadFrame
  | .sent frame _ => some frame
  | .broke => none

def framesOf (events : List FollowEvent) : List ThreadFrame := events.filterMap FollowEvent.frame?

def BreaksCaughtUp (events : List FollowEvent) : Prop :=
  ∀ before after frame catchup,
    events = before ++ .broke :: .sent frame catchup :: after → catchup = true

/-- The frames sent form a chain from the cursor the client came with, each moves a client from
the worker's one state at its first cursor to its state at its next, and what follows a break in
the feed is a catch-up. -/
structure Following.MissesNothing (m : Following) (came : Option Cursor) : Prop where
  chained : Chained came (framesOf m.events)
  cursor : m.follower.cursor = cursorAfter came (framesOf m.events)
  moves : ∀ frame ∈ framesOf m.events, Moves m.thread.stood m.follower.turns frame
  breaks : BreaksCaughtUp m.events
  one : ∀ c s s', (c, s) ∈ m.thread.stood → (c, s') ∈ m.thread.stood → s = s'

theorem mem_trail_of (cursor : Cursor) (state : ThreadState) {actions : List Action} {k : Nat}
    (hk : k < actions.length) :
    ({ cursor with seq := cursor.seq + (k + 1) }, state.applyAll (actions.take (k + 1))) ∈
      trail cursor state actions := by
  induction actions generalizing cursor state k with
  | nil => simp at hk
  | cons a rest ih =>
      cases k with
      | zero => exact List.mem_cons_self
      | succ k =>
          have hmem := ih { cursor with seq := cursor.seq + 1 } (state.apply a)
            (Nat.lt_of_succ_lt_succ hk)
          have hnumber : cursor.seq + 1 + (k + 1) = cursor.seq + (k + 1 + 1) := by omega
          simp only [hnumber] at hmem
          exact List.mem_cons_of_mem _ hmem

namespace Followed

/-- A log whose history is told whole: every number of its epoch is there, and no cursor was ever
stood at with two states. -/
structure Recorded (m : Followed) (start : Nat) (base : ThreadState) : Prop
    extends m.Told start base where
  all : ∀ k ≤ m.acted.length,
    (⟨m.log.cursor.epoch, start + k⟩, base.applyAll (m.acted.take k)) ∈ m.stood
  one : ∀ c s s', (c, s) ∈ m.stood → (c, s') ∈ m.stood → s = s'

theorem Recorded.present {m : Followed} {start : Nat} {base : ThreadState}
    (hm : m.Recorded start base) : (m.log.cursor, m.log.state) ∈ m.stood := by
  have hmem := hm.all m.acted.length (le_refl _)
  rwa [List.take_length, ← hm.state, ← hm.seq] at hmem

/-- Cursors of the present epoch have one state each; those of an earlier one have theirs. -/
theorem Told.one {m : Followed} {start : Nat} {base : ThreadState} (hm : m.Told start base)
    (earlier : List (Cursor × ThreadState))
    (hone : ∀ c s s', (c, s) ∈ earlier → (c, s') ∈ earlier → s = s')
    (hnew : ∀ c s, (c, s) ∈ m.stood → (c, s) ∈ earlier ∨ c.epoch = m.log.cursor.epoch)
    (c : Cursor) (s s' : ThreadState) (hs : (c, s) ∈ m.stood) (hs' : (c, s') ∈ m.stood) :
    s = s' := by
  by_cases hepoch : c.epoch = m.log.cursor.epoch
  · obtain hlt | ⟨-, k, -, hk, rfl⟩ := hm.stood c s hs
    · exact absurd hepoch (ne_of_lt hlt)
    obtain hlt | ⟨-, k', -, hk', rfl⟩ := hm.stood c s' hs'
    · exact absurd hepoch (ne_of_lt hlt)
    rw [Nat.add_left_cancel (hk.symm.trans hk')]
  · exact hone c s s' ((hnew c s hs).resolve_right hepoch) ((hnew c s' hs').resolve_right hepoch)

theorem Recorded.append {m : Followed} {start : Nat} {base : ThreadState}
    (hm : m.Recorded start base) {w : Wires} {actions : List Action}
    (hn : m.log.Numbered w actions) (wrote : Fate) (fates : CompactFates) :
    (m.step w (.append actions wrote fates)).Recorded start base := by
  have htold := hm.toTold.append hn wrote fates
  have hcursor : (m.step w (.append actions wrote fates)).log.cursor =
      { m.log.cursor with seq := m.log.cursor.seq + (reached w actions).length } :=
    (Log.append_spec w m.log m.dir actions wrote fates).2.1.trans
      (Log.take_spec w m.log [] false actions).2
  refine { toTold := htold, all := ?_, one := htold.one m.stood hm.one ?_ }
  · intro k hk
    rw [hcursor]
    by_cases hold : k ≤ m.acted.length
    · have htake : (m.acted ++ reached w actions).take k = m.acted.take k :=
        List.take_append_of_le_length hold
      have hmem := hm.all k hold
      rw [← htake] at hmem
      exact List.mem_append_left _ hmem
    · obtain ⟨j, rfl⟩ : ∃ j, k = m.acted.length + (j + 1) := ⟨k - m.acted.length - 1, by omega⟩
      have hj : j < (reached w actions).length := by
        simp only [step, List.length_append] at hk
        omega
      have hmem := mem_trail_of m.log.cursor m.log.state hj
      have hstate : m.log.state.applyAll ((reached w actions).take (j + 1)) =
          base.applyAll ((m.acted ++ reached w actions).take (m.acted.length + (j + 1))) := by
        rw [hm.state, ← ThreadState.applyAll_append, List.take_length_add_append]
      rw [hstate, hm.seq, Nat.add_assoc] at hmem
      exact List.mem_append_right _ hmem
  · intro c s hmem
    rcases List.mem_append.mp hmem with hold | hnew
    · exact Or.inl hold
    · obtain ⟨k, -, hc, -⟩ := mem_trail hnew
      rw [hcursor, hc]
      exact Or.inr rfl

theorem Recorded.reset {m : Followed} {start : Nat} {base : ThreadState}
    (hm : m.Recorded start base) (w : Wires) (state : ThreadState) (fates : CompactFates) :
    (m.step w (.reset state fates)).Recorded 0 state := by
  have htold := hm.toTold.reset w state fates
  have hcursor : (m.step w (.reset state fates)).log.cursor = ⟨m.log.cursor.epoch + 1, 0⟩ :=
    (Log.compact_spec w (m.log.restarted state) m.dir fates).2.1
  refine { toTold := htold, all := ?_, one := htold.one m.stood hm.one ?_ }
  · intro k hk
    have hzero : k = 0 := Nat.le_zero.mp hk
    have hlast : (⟨(m.step w (.reset state fates)).log.cursor.epoch, 0 + k⟩ : Cursor) =
        (m.step w (.reset state fates)).log.cursor := by
      rw [hcursor, hzero]
    rw [hlast, hzero]
    exact List.mem_append_right _ List.mem_cons_self
  · intro c s hmem
    rcases List.mem_append.mp hmem with hold | hnew
    · exact Or.inl hold
    · exact Or.inr (congrArg Cursor.epoch (Prod.mk.inj (List.mem_singleton.mp hnew)).1)

theorem replay_cursor (log : Log) (read : List (Action × Nat)) :
    (log.replay read).cursor = { log.cursor with seq := log.cursor.seq + read.length } := by
  induction read generalizing log with
  | nil => rfl
  | cons r rest ih =>
      refine (ih _).trans ?_
      simp only [Log.keep, Log.act, List.length_cons, Nat.add_assoc, Nat.add_comm 1]

theorem recorded_opened (limits : Limits) (cursor : Cursor) (state : ThreadState)
    (read : List (Action × Nat)) (len : Nat) (dir : Dir) :
    (opened limits cursor state read len dir).Recorded cursor.seq state := by
  have htold := told_opened limits cursor state read len dir
  have hcursor : (opened limits cursor state read len dir).log.cursor =
      { cursor with seq := cursor.seq + read.length } := replay_cursor _ _
  refine { toTold := htold, all := ?_, one := htold.one [] (by simp) ?_ }
  · intro k hk
    rw [hcursor]
    cases k with
    | zero => exact List.mem_cons_self
    | succ k => exact List.mem_cons_of_mem _ (mem_trail_of cursor state hk)
  · intro c s hmem
    rw [hcursor]
    rcases List.mem_cons.mp hmem with heq | hmem
    · right
      rw [(Prod.mk.inj heq).1]
    · obtain ⟨k, -, hc, -⟩ := mem_trail hmem
      rw [hc]
      exact Or.inr rfl

end Followed

theorem Carries.mono {stood stood' : List (Cursor × ThreadState)} {first next : Cursor}
    {actions : List Action} (h : Carries stood first next actions) (hsub : stood ⊆ stood') :
    Carries stood' first next actions := by
  obtain ⟨s, hfirst, hnext⟩ := h
  exact ⟨s, hsub hfirst, hsub hnext⟩

theorem Moves.mono {stood stood' : List (Cursor × ThreadState)} {turns : Nat}
    {frame : ThreadFrame} (h : Moves stood turns frame) (hsub : stood ⊆ stood') :
    Moves stood' turns frame := by
  cases frame with
  | snapshot cursor state =>
      obtain ⟨s, hmem, hs⟩ := h
      exact ⟨s, hsub hmem, hs⟩
  | actions epoch first next actions => exact Carries.mono h hsub

/-- A batch takes the worker from the cursor it names to the one after its actions. -/
def Batch.Told (stood : List (Cursor × ThreadState)) (b : Batch) : Prop :=
  Carries stood ⟨b.epoch, b.seq⟩ ⟨b.epoch, b.seq + b.actions.length⟩ b.actions

/-- Batches that follow on from a cursor, each from where the one before it ends. -/
def Follows (stood : List (Cursor × ThreadState)) : Cursor → List Batch → Prop
  | _, [] => True
  | at', b :: rest =>
      Carries stood at' ⟨at'.epoch, at'.seq + b.actions.length⟩ b.actions ∧
        Follows stood ⟨at'.epoch, at'.seq + b.actions.length⟩ rest

theorem Follows.mono {stood stood' : List (Cursor × ThreadState)} {at' : Cursor} {l : List Batch}
    (h : Follows stood at' l) (hsub : stood ⊆ stood') : Follows stood' at' l := by
  induction l generalizing at' with
  | nil => trivial
  | cons b rest ih => exact ⟨h.1.mono hsub, ih h.2⟩

theorem Follows.concat {stood : List (Cursor × ThreadState)} {at' : Cursor} {l : List Batch}
    (h : Follows stood at' l) {b : Batch} (hb : b.Told stood) (hepoch : b.epoch = at'.epoch)
    (hseq : b.seq = at'.seq + (l.flatMap Batch.actions).length) :
    Follows stood at' (l ++ [b]) := by
  induction l generalizing at' with
  | nil =>
      have hhere : (⟨b.epoch, b.seq⟩ : Cursor) = at' := by rw [hepoch, hseq]; rfl
      refine ⟨?_, trivial⟩
      rw [Batch.Told, hhere, hepoch, hseq] at hb
      exact hb
  | cons c rest ih =>
      refine ⟨h.1, ih h.2 hepoch ?_⟩
      simp only [List.flatMap_cons, List.length_append] at hseq
      show b.seq = at'.seq + c.actions.length + (rest.flatMap Batch.actions).length
      omega

/-- A run of batches moves whoever holds the worker's state where it starts. -/
theorem Follows.moves {stood : List (Cursor × ThreadState)}
    (hone : ∀ c s s', (c, s) ∈ stood → (c, s') ∈ stood → s = s') {at' : Cursor} {l : List Batch}
    (h : Follows stood at' l) {s : ThreadState} (hs : (at', s) ∈ stood) :
    (⟨at'.epoch, at'.seq + (l.flatMap Batch.actions).length⟩,
      s.applyAll (l.flatMap Batch.actions)) ∈ stood := by
  induction l generalizing at' s with
  | nil => exact hs
  | cons b rest ih =>
      obtain ⟨⟨s', hfirst, hnext⟩, hrest⟩ := h
      rw [hone at' s' s hfirst hs] at hnext
      have hmem := ih hrest hnext
      rw [List.flatMap_cons, List.length_append, ThreadState.applyAll_append, ← Nat.add_assoc]
      exact hmem

theorem Follows.carries {stood : List (Cursor × ThreadState)}
    (hone : ∀ c s s', (c, s) ∈ stood → (c, s') ∈ stood → s = s') {at' : Cursor} {l : List Batch}
    (h : Follows stood at' l) (hne : l ≠ []) :
    Carries stood at' ⟨at'.epoch, at'.seq + (l.flatMap Batch.actions).length⟩
      (coalesce (l.flatMap Batch.actions)) := by
  cases l with
  | nil => exact absurd rfl hne
  | cons b rest =>
      obtain ⟨s, hfirst, -⟩ := h.1
      refine ⟨s, hfirst, ?_⟩
      rw [ThreadState.applyAll_coalesce]
      exact h.moves hone hfirst

/-- What one stretch of `next` can do. -/
inductive NextCase (f : Follower) (log : Option Log) (feed : List Batch) : Follower × Polled → Prop
  | quiet (f' : Follower) (polled : Polled) (hevents : polled.events = [])
      (hcursor : f'.cursor = f.cursor) (hturns : f'.turns = f.turns)
      (hgathered : f'.gathered = f.gathered ∨ f'.gathered = [])
      (hfeed : f.feed = none → f'.feed = none) : NextCase f log feed (f', polled)
  | took (f' : Follower) (b : Batch) (at' : Cursor) (hb : b ∈ feed) (hfeed : f.feed ≠ none)
      (hat : f.cursor = some at') (hepoch : b.epoch = at'.epoch)
      (hseq : b.seq = at'.seq + f.gatheredActions.length) (hcursor : f'.cursor = f.cursor)
      (hturns : f'.turns = f.turns) (hgathered : f'.gathered = f.gathered ++ [b]) :
      NextCase f log feed (f', .pending)
  | broke (hfeed : f.feed ≠ none) : NextCase f log feed ({ f with feed := none }, .broke)
  | caught (l : Log) (hlog : log = some l) :
      NextCase f log feed
        ({ f with
            gathered := []
            feed := some feed.length
            cursor := some (l.since f.cursor f.turns).frame.2 },
          .caught (l.since f.cursor f.turns).frame.1)
  | emitted (at' : Cursor) (torn : Bool) (hat : f.cursor = some at') (hfeed : f.feed ≠ none)
      (hne : f.gathered ≠ []) : NextCase f log feed (f.emit at' torn)

theorem recv_batch {feed : List Batch} {closed : Bool} {place : Nat} {b : Batch}
    (h : recv feed closed place = .batch b) : b ∈ feed := by
  simp only [recv] at h
  split at h
  · simp at h
  · split at h
    · rename_i b' hget
      rw [← Recv.batch.inj h]
      exact List.mem_of_getElem? hget
    · split at h <;> simp at h

theorem next_cases (f : Follower) (log : Option Log) (feed : List Batch) (now : Nat) :
    NextCase f log feed (f.next log feed now) := by
  simp only [Follower.next]
  split
  · rename_i hfeed
    simp only [Follower.catchUp]
    cases log with
    | none => exact .quiet _ _ rfl rfl rfl (Or.inr rfl) fun _ => hfeed
    | some l => exact .caught l rfl
  · rename_i hfeed hcursor
    exact .broke (by simp [hfeed])
  · rename_i place at' hfeed hcursor
    have hfollows : f.feed ≠ none := by simp [hfeed]
    split
    · rename_i hempty
      simp only [Follower.begin]
      cases hrecv : recv feed log.isNone place with
      | batch b =>
          dsimp only
          split
          · exact .broke hfollows
          · rename_i hsame
            rw [not_or, not_not, not_not] at hsame
            refine .took _ b at' (recv_batch hrecv) hfollows hcursor hsame.1 ?_ rfl rfl ?_
            · rw [Follower.gatheredActions, hempty]
              exact hsame.2
            · rw [hempty]
              rfl
      | lagged => exact .broke hfollows
      | closed => exact .quiet _ _ rfl rfl rfl (Or.inl rfl) id
      | empty => exact .quiet _ _ rfl rfl rfl (Or.inl rfl) id
    · rename_i hne
      simp only [Follower.gather]
      split
      · exact .emitted at' false hcursor hfollows hne
      · cases hrecv : recv feed log.isNone place with
        | batch b =>
            dsimp only
            split
            · rename_i hsame
              exact .took _ b at' (recv_batch hrecv) hfollows hcursor hsame.1 hsame.2 rfl rfl rfl
            · exact .emitted at' true hcursor hfollows hne
        | lagged => exact .emitted at' true hcursor hfollows hne
        | closed => exact .emitted at' true hcursor hfollows hne
        | empty =>
            dsimp only
            split
            · split
              · exact .quiet _ _ rfl rfl rfl (Or.inl rfl) id
              · exact .emitted at' false hcursor hfollows hne
            · exact .emitted at' false hcursor hfollows hne

theorem framesOf_append (xs ys : List FollowEvent) :
    framesOf (xs ++ ys) = framesOf xs ++ framesOf ys :=
  List.filterMap_append

def ThreadFrame.next : ThreadFrame → Cursor
  | .snapshot cursor _ => cursor
  | .actions epoch _ last _ => ⟨epoch, last⟩

def ThreadFrame.StartsAt (held : Option Cursor) : ThreadFrame → Prop
  | .snapshot _ _ => True
  | .actions epoch first _ _ => held = some ⟨epoch, first⟩

theorem cursorAfter_concat (came : Option Cursor) (frames : List ThreadFrame)
    (frame : ThreadFrame) : cursorAfter came (frames ++ [frame]) = some frame.next := by
  induction frames generalizing came with
  | nil => cases frame <;> rfl
  | cons f rest ih => cases f <;> exact ih _

theorem chained_concat {came : Option Cursor} {frames : List ThreadFrame} {frame : ThreadFrame}
    (h : Chained came frames) (hstart : frame.StartsAt (cursorAfter came frames)) :
    Chained came (frames ++ [frame]) := by
  induction frames generalizing came with
  | nil =>
      cases frame with
      | snapshot cursor state => trivial
      | actions epoch first next actions => exact ⟨hstart, trivial⟩
  | cons f rest ih =>
      cases f with
      | snapshot cursor state => exact ih h hstart
      | actions epoch first next actions => exact ⟨h.1, ih h.2 hstart⟩

/-- One more event: a frame right after a break has to be a catch-up. -/
theorem breaksCaughtUp_concat {events : List FollowEvent} (h : BreaksCaughtUp events)
    {event : FollowEvent}
    (hlast : ∀ frame catchup, event = .sent frame catchup → events.getLast? = some .broke →
      catchup = true) : BreaksCaughtUp (events ++ [event]) := by
  intro before after frame catchup heq
  rcases List.eq_nil_or_concat after with rfl | ⟨init, last, rfl⟩
  · have hsplit : events ++ [event] = (before ++ [.broke]) ++ [.sent frame catchup] := by
      rw [heq, List.append_assoc]
      rfl
    obtain ⟨hevents, hevent⟩ := List.append_inj' hsplit rfl
    refine hlast frame catchup (List.cons.inj hevent).1 ?_
    rw [hevents, List.getLast?_concat]
  · have hsplit : events ++ [event] = (before ++ .broke :: .sent frame catchup :: init) ++ [last] := by
      rw [heq, List.concat_eq_append, List.append_assoc]
      rfl
    exact h before init frame catchup (List.append_inj' hsplit rfl).1

/-- A catch-up starts where the follower stands and ends where the log does. -/
theorem Followed.Recorded.caught {m : Followed} {start : Nat} {base : ThreadState}
    (hm : m.Recorded start base) (held : Option Cursor) (turns : Nat) :
    (m.log.since held turns).frame.1.StartsAt held ∧
      (m.log.since held turns).frame.2 = (m.log.since held turns).frame.1.next ∧
      Moves m.stood turns (m.log.since held turns).frame.1 := by
  have hsnapshot : Moves m.stood turns (.snapshot m.log.cursor (m.log.state.window turns)) :=
    ⟨m.log.state, hm.present, rfl⟩
  cases held with
  | none => exact ⟨trivial, rfl, hsnapshot⟩
  | some c =>
      simp only [Log.since]
      split
      · rename_i hin
        obtain ⟨hepoch, hfirst, hle⟩ := hin
        have hseq := hm.seq
        have hlen := hm.toTold.catchesUp.1
        -- the follower's number is one of this epoch's, so the log stood there
        have hstood := hm.all (c.seq - start) (by omega)
        rw [← hepoch, Nat.add_sub_cancel' (by omega : start ≤ c.seq)] at hstood
        rcases hm.toTold.catchesUp.2.2 c _ hstood turns with hsnap | ⟨actions, hactions, hnext, -, hs⟩
        · simp only [Log.since, if_pos (And.intro hepoch (And.intro hfirst hle))] at hsnap
          cases hsnap
        · simp only [Log.since, if_pos (And.intro hepoch (And.intro hfirst hle))] at hactions
          obtain ⟨-, rfl⟩ := Catchup.actions.inj hactions
          refine ⟨rfl, rfl, _, hstood, ?_⟩
          rw [hs, hnext, hepoch]
          exact hm.present
      · exact ⟨trivial, rfl, hsnapshot⟩

namespace Following

/-- The log's history is whole, every batch of the feed and every batch gathered is of it, and
the follower's feed is gone once it broke. -/
structure Inv (m : Following) (came : Option Cursor) : Prop where
  recorded : ∃ start base, m.thread.Recorded start base
  feed : ∀ b ∈ m.feed, b.Told m.thread.stood
  gathered : ∀ at', m.follower.cursor = some at' → Follows m.thread.stood at' m.follower.gathered
  sound : m.MissesNothing came
  broken : m.events.getLast? = some .broke → m.follower.feed = none

/-- The host acts: the follower and its frames stay as they are, and the history grows. -/
theorem Inv.host {m m' : Following} {came : Option Cursor} (hm : m.Inv came)
    (hfollower : m'.follower = m.follower) (hevents : m'.events = m.events)
    (hrecorded : ∃ start base, m'.thread.Recorded start base)
    (hsub : m.thread.stood ⊆ m'.thread.stood)
    (hfeed : ∀ b ∈ m'.feed, b ∈ m.feed ∨ b.Told m'.thread.stood) : m'.Inv came where
  recorded := hrecorded
  feed := fun b hb => (hfeed b hb).elim (fun hold => (hm.feed b hold).mono hsub) id
  gathered := by
    intro at' hat
    rw [hfollower] at hat ⊢
    exact (hm.gathered at' hat).mono hsub
  sound := {
    chained := hevents ▸ hm.sound.chained
    cursor := by rw [hfollower, hevents]; exact hm.sound.cursor
    moves := by
      rw [hfollower, hevents]
      exact fun frame hframe => (hm.sound.moves frame hframe).mono hsub
    breaks := hevents ▸ hm.sound.breaks
    one := by
      obtain ⟨start, base, hr⟩ := hrecorded
      exact hr.one }
  broken := by rw [hfollower, hevents]; exact hm.broken

/-- What an apply must bring: an action that cannot be encoded comes last, and only while the
tail is empty. -/
def Encodes (w : Wires) (m : Following) : FollowStep → Prop
  | .apply actions _ _ =>
      m.thread.log.Numbered w (m.own.mark actions).2 ∧
        reached w (m.own.mark actions).2 = (m.own.mark actions).2
  | _ => True

theorem Inv.apply {m : Following} {came : Option Cursor} (hm : m.Inv came) {w : Wires}
    {actions : List Action} (wrote : Fate) (fates : CompactFates)
    (h : m.Encodes w (.apply actions wrote fates)) : (m.apply w actions wrote fates).Inv came := by
  obtain ⟨hn, hreached⟩ := h
  obtain ⟨start, base, hr⟩ := hm.recorded
  have hr' := hr.append hn wrote fates
  have hpresent := hr'.present
  have hcursor : (m.thread.step w (.append (m.own.mark actions).2 wrote fates)).log.cursor =
      { m.thread.log.cursor with
        seq := m.thread.log.cursor.seq + (m.own.mark actions).2.length } := by
    have hspec := (Log.append_spec w m.thread.log m.thread.dir (m.own.mark actions).2 wrote fates).2.1
    rw [(Log.take_spec w m.thread.log [] false (m.own.mark actions).2).2, hreached] at hspec
    exact hspec
  have hstate : (m.thread.step w (.append (m.own.mark actions).2 wrote fates)).log.state =
      m.thread.log.state.applyAll (m.own.mark actions).2 := by
    have hspec := (Log.append_spec w m.thread.log m.thread.dir (m.own.mark actions).2 wrote fates).1
    rw [(Log.take_spec w m.thread.log [] false (m.own.mark actions).2).1, hreached] at hspec
    exact hspec
  have hsub : m.thread.stood ⊆
      (m.thread.step w (.append (m.own.mark actions).2 wrote fates)).stood :=
    List.subset_append_left _ _
  refine hm.host rfl rfl ⟨start, base, hr'⟩ hsub ?_
  intro b hb
  rcases List.mem_append.mp hb with hold | hnew
  · exact Or.inl hold
  · rw [List.mem_singleton.mp hnew]
    refine Or.inr ⟨m.thread.log.state, hsub hr.present, ?_⟩
    rw [hcursor, hstate] at hpresent
    exact hpresent

theorem Inv.restart {m : Following} {came : Option Cursor} (hm : m.Inv came) (w : Wires)
    (state : ThreadState) (fates : CompactFates) : (m.restart w state fates).Inv came := by
  obtain ⟨start, base, hr⟩ := hm.recorded
  simp only [Following.restart]
  generalize ({ state with
    threadMeta := (m.own.fill state.threadMeta).2
    seen := m.thread.log.state.seen
    named := m.thread.log.state.named } : ThreadState) = begun
  have hr' := hr.reset w begun fates
  have hsub : m.thread.stood ⊆ (m.thread.step w (.reset begun fates)).stood :=
    List.subset_append_left _ _
  split
  · exact hm.host rfl rfl ⟨0, begun, hr'⟩ hsub fun b hb => Or.inl hb
  · refine hm.host rfl rfl ⟨0, begun, hr'⟩ hsub ?_
    intro b hb
    rcases List.mem_append.mp hb with hold | hnew
    · exact Or.inl hold
    · rw [List.mem_singleton.mp hnew]
      have hfirst := hr'.all 0 (Nat.zero_le _)
      exact Or.inr ⟨_, hfirst, hfirst⟩

/-- One more event of the follower, with the cursor and the feed it leaves. -/
theorem MissesNothing.concat {m : Following} {came : Option Cursor} (hm : m.MissesNothing came)
    (f : Follower) (event : FollowEvent) (hturns : f.turns = m.follower.turns)
    (hcursor : f.cursor = (event.frame?.map ThreadFrame.next).or m.follower.cursor)
    (hframe : ∀ frame, event.frame? = some frame →
      frame.StartsAt m.follower.cursor ∧ Moves m.thread.stood m.follower.turns frame)
    (hlast : ∀ frame catchup, event = .sent frame catchup → m.events.getLast? = some .broke →
      catchup = true) :
    MissesNothing { m with follower := f, events := m.events ++ [event] } came := by
  have hbreaks := breaksCaughtUp_concat hm.breaks hlast
  cases hevent : event.frame? with
  | none =>
      have hframes : framesOf (m.events ++ [event]) = framesOf m.events := by
        rw [framesOf_append]
        simp [framesOf, hevent]
      rw [hevent] at hcursor
      refine ⟨hframes ▸ hm.chained, ?_, ?_, hbreaks, hm.one⟩
      · rw [hframes]
        exact hcursor.trans hm.cursor
      · rw [hframes]
        simpa only [hturns] using hm.moves
  | some frame =>
      have hframes : framesOf (m.events ++ [event]) = framesOf m.events ++ [frame] := by
        rw [framesOf_append]
        simp [framesOf, hevent]
      obtain ⟨hstart, hmoves⟩ := hframe frame hevent
      rw [hm.cursor] at hstart
      rw [hevent] at hcursor
      refine ⟨hframes ▸ chained_concat hm.chained hstart, ?_, ?_, hbreaks, hm.one⟩
      · rw [hframes, cursorAfter_concat]
        exact hcursor
      · rw [hframes]
        simp only [hturns]
        intro x hx
        rcases List.mem_append.mp hx with hold | hnew
        · exact hm.moves x hold
        · rw [List.mem_singleton.mp hnew]
          exact hmoves

theorem Inv.poll {m : Following} {came : Option Cursor} (hm : m.Inv came) (now : Nat) :
    (m.poll now).Inv came := by
  obtain ⟨start, base, hr⟩ := hm.recorded
  simp only [Following.poll]
  generalize hlog : (if m.held then some m.thread.log else none) = log
  generalize hnext : m.follower.next log m.feed now = polled
  have hcase := next_cases m.follower log m.feed now
  rw [hnext] at hcase
  cases hcase with
  | quiet f' p hevents hcursor hturns hgathered hfeed =>
      rw [hevents, List.append_nil]
      refine ⟨hm.recorded, hm.feed, ?_, ?_, fun hlast => hfeed (hm.broken hlast)⟩
      · intro at' hat
        rw [hcursor] at hat
        rcases hgathered with hsame | hempty
        · rw [hsame]
          exact hm.gathered at' hat
        · rw [hempty]
          trivial
      · refine ⟨hm.sound.chained, hcursor.trans hm.sound.cursor, ?_, hm.sound.breaks, hm.sound.one⟩
        simpa only [hturns] using hm.sound.moves
  | took f' b at' hb hfeed hat hepoch hseq hcursor hturns hgathered =>
      simp only [Polled.events, List.append_nil]
      refine ⟨hm.recorded, hm.feed, ?_, ?_, fun hlast => absurd (hm.broken hlast) hfeed⟩
      · intro c hc
        have heq : c = at' := Option.some.inj (hc.symm.trans (hcursor.trans hat))
        rw [heq, hgathered]
        exact (hm.gathered at' hat).concat (hm.feed b hb) hepoch hseq
      · refine ⟨hm.sound.chained, hcursor.trans hm.sound.cursor, ?_, hm.sound.breaks, hm.sound.one⟩
        simpa only [hturns] using hm.sound.moves
  | broke hfeed =>
      refine ⟨hm.recorded, hm.feed, hm.gathered, ?_, fun _ => rfl⟩
      exact hm.sound.concat _ .broke rfl rfl
        (fun frame hframe => by simp [FollowEvent.frame?] at hframe)
        (fun frame catchup hevent => by simp at hevent)
  | caught l hl =>
      have hheld : l = m.thread.log := by
        rw [hl] at hlog
        split at hlog
        · exact (Option.some.inj hlog).symm
        · simp at hlog
      subst hheld
      obtain ⟨hstart, hafter, hmoves⟩ := hr.caught m.follower.cursor m.follower.turns
      refine ⟨hm.recorded, hm.feed, fun at' _ => trivial, ?_, fun hlast => by
        simp [Polled.events] at hlast⟩
      refine hm.sound.concat _ (.sent _ true) rfl ?_ ?_
        (fun frame catchup hevent _ => (FollowEvent.sent.inj hevent).2.symm)
      · simp only [FollowEvent.frame?, Option.map_some, Option.some_or, hafter]
      · intro frame hframe
        rw [← Option.some.inj hframe]
        exact ⟨hstart, hmoves⟩
  | emitted at' torn hat hfeed hne =>
      have hnotBroken : m.events.getLast? ≠ some .broke := fun hlast => hfeed (hm.broken hlast)
      have hcarries := (hm.gathered at' hat).carries hm.sound.one hne
      have hsent : MissesNothing { m with
          follower := (m.follower.emit at' torn).1
          events := m.events ++ [.sent (.actions at'.epoch at'.seq
            (at'.seq + m.follower.gatheredActions.length)
            (coalesce m.follower.gatheredActions)) false] } came := by
        refine hm.sound.concat _ (.sent _ false) rfl rfl ?_ (fun frame catchup _ hlast => absurd hlast hnotBroken)
        intro frame hframe
        rw [← Option.some.inj hframe]
        exact ⟨hat, hcarries⟩
      cases torn with
      | false =>
          refine ⟨hm.recorded, hm.feed, fun c _ => trivial, hsent, fun hlast => ?_⟩
          simp [Follower.emit, Polled.events] at hlast
      | true =>
          refine ⟨hm.recorded, hm.feed, fun c _ => trivial, ?_, fun _ => rfl⟩
          have hbroke := hsent.concat (m.follower.emit at' true).1 .broke rfl rfl
            (fun frame hframe => by simp [FollowEvent.frame?] at hframe)
            (fun frame catchup hevent => by simp at hevent)
          simp only [List.append_assoc] at hbroke
          exact hbroke

theorem Inv.step {m : Following} {came : Option Cursor} (hm : m.Inv came) {w : Wires}
    {st : FollowStep} (hst : m.Encodes w st) : (m.step w st).Inv came := by
  cases st with
  | apply actions wrote fates =>
      simp only [Following.step]
      split
      · exact hm.apply wrote fates hst
      · exact hm
  | reset state fates =>
      simp only [Following.step]
      split
      · exact hm.restart w state fates
      · exact hm
  | remove => exact hm.host rfl rfl hm.recorded (List.Subset.refl _) fun b hb => Or.inl hb
  | next now => exact hm.poll now

theorem inv_new (limits : Limits) (cursor : Cursor) (state : ThreadState)
    (read : List (Action × Nat)) (len : Nat) (dir : Dir) (own : Own) (turns budget : Nat)
    (came : Option Cursor) :
    Inv { thread := Followed.opened limits cursor state read len dir
          own := own
          follower := { turns := turns, budget := budget, cursor := came } } came := by
  have hr := Followed.recorded_opened limits cursor state read len dir
  refine ⟨⟨_, _, hr⟩, by simp, fun at' _ => trivial, ⟨trivial, rfl, by simp [framesOf], ?_, hr.one⟩,
    by simp⟩
  intro before after frame catchup heq
  simp at heq

/-- In every run of applies, resets, removals and stretches of the follower in which no action
that cannot be encoded is followed by another of its apply or met by a tail that holds any, the
follower misses nothing and hears nothing twice. -/
theorem follower_misses_nothing (w : Wires) (limits : Limits) (cursor : Cursor)
    (state : ThreadState) (read : List (Action × Nat)) (len : Nat) (dir : Dir) (own : Own)
    (turns budget : Nat) (came : Option Cursor) (steps : List FollowStep)
    (h : EachStep (step w) (fun m st => m.Encodes w st)
      { thread := Followed.opened limits cursor state read len dir
        own := own
        follower := { turns := turns, budget := budget, cursor := came } } steps) :
    (steps.foldl (step w)
      { thread := Followed.opened limits cursor state read len dir
        own := own
        follower := { turns := turns, budget := budget, cursor := came } }).MissesNothing came :=
  (EachStep.foldl (P := fun m : Following => m.Inv came) (fun _ _ hm hst => hm.step hst) h
    (inv_new limits cursor state read len dir own turns budget came)).sound

/-- A client that held the first cursor hears of an action applied since, and of the thread's
end. -/
theorem follower_misses_nothing_seen :
    ([.next 0, .apply [.seen 1] .done {}, .next 0, .next 0, .remove, .next 0].foldl
      (step Followed.shortWires)
      { thread := Followed.opened {} ⟨7, 0⟩ { threadMeta := { id := 1 } } [] 0 {}
        own := {}
        follower := { turns := 10, budget := 0, cursor := some ⟨7, 0⟩ } }).MissesNothing
      (some ⟨7, 0⟩) := by
  apply follower_misses_nothing
  refine ⟨trivial, ⟨?_, ?_⟩, trivial, trivial, trivial, trivial, trivial⟩
  · simp only [Own.mark, Log.Numbered, Followed.encode_seen]
  · simp only [Own.mark, reached, Followed.encode_seen]

/-- An apply whose first action cannot be encoded: the log stops at it, and its followers are sent
the second action too, at a number the log never gave it. -/
theorem follower_ahead_of_log :
    ¬ ∀ (w : Wires) (limits : Limits) (cursor : Cursor) (state : ThreadState)
      (read : List (Action × Nat)) (len : Nat) (dir : Dir) (own : Own) (turns budget : Nat)
      (came : Option Cursor) (steps : List FollowStep),
      (steps.foldl (step w)
        { thread := Followed.opened limits cursor state read len dir
          own := own
          follower := { turns := turns, budget := budget, cursor := came } }).MissesNothing
        came := by
  intro hall
  obtain ⟨e, hlong⟩ := Followed.encode_longItem
  have hrun := hall Followed.shortWires {} ⟨7, 0⟩ { threadMeta := { id := 1 } } [] 0 {} {} 10 0
    (some ⟨7, 0⟩) [.next 0, .apply [Followed.longItem, .seen 1] .done {}, .next 0, .next 0]
  have hevents : ([.next 0, .apply [Followed.longItem, .seen 1] .done {}, .next 0, .next 0].foldl
      (step Followed.shortWires)
      { thread := Followed.opened {} ⟨7, 0⟩ { threadMeta := { id := 1 } } [] 0 {}
        own := {}
        follower := { turns := 10, budget := 0, cursor := some ⟨7, 0⟩ } }).events =
      [.sent (.actions 7 0 0 []) true, .sent (.actions 7 0 2 [Followed.longItem, .seen 1]) false] :=
    rfl
  have hmoves := hrun.moves (.actions 7 0 2 [Followed.longItem, .seen 1])
    (by rw [hevents]; exact List.mem_cons_of_mem _ List.mem_cons_self)
  obtain ⟨s, -, hnext⟩ := hmoves
  -- the log stood at two cursors only: where it began and after the action it stopped at
  have hstood : ([.next 0, .apply [Followed.longItem, .seen 1] .done {}, .next 0, .next 0].foldl
      (step Followed.shortWires)
      { thread := Followed.opened {} ⟨7, 0⟩ { threadMeta := { id := 1 } } [] 0 {}
        own := {}
        follower := { turns := 10, budget := 0, cursor := some ⟨7, 0⟩ } }).thread.stood =
      (⟨7, 0⟩, { threadMeta := { id := 1 } }) ::
        trail ⟨7, 0⟩ { threadMeta := { id := 1 } }
          (reached Followed.shortWires [Followed.longItem, .seen 1]) := rfl
  have hreached : reached Followed.shortWires [Followed.longItem, .seen 1] =
      [Followed.longItem] := by
    simp only [reached, hlong]
  rw [hstood, hreached] at hnext
  simp [trail] at hnext

end Following

end Slopty.Thread
