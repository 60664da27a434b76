import Slopty.Session.Tapping

/-!
What the daemon was handed can be replayed. Its ring holds the output since the last state it took,
whole, unless a tap is known to be lost or the state to be too large; and every state it took is the
engine's after exactly the output read by then.
-/

namespace Slopty.Session

open Slopty.Lib

namespace TapEvent

/-- The daemon's ring after one more event. -/
def intoRing (ring : Bytes) : TapEvent → Bytes
  | output bytes => ring ++ bytes
  | checkpoint _ => []
  | _ => ring

/-- The output read since the last state the daemon took, after one more event. -/
def intoUnsaved (unsaved : Bytes) : TapEvent → Bytes
  | read bytes => unsaved ++ bytes
  | checkpoint _ => []
  | _ => unsaved

/-- The daemon took a state, or one was found too large for it. -/
def Settles : TapEvent → Prop
  | checkpoint _ => True
  | tooLarge => True
  | _ => False

end TapEvent

def ring (history : List TapEvent) : Bytes := history.foldl TapEvent.intoRing []

def unsaved (history : List TapEvent) : Bytes := history.foldl TapEvent.intoUnsaved []

def readsOf (history : List TapEvent) : List Bytes :=
  history.filterMap fun e => match e with
    | .read bytes => some bytes
    | _ => none

theorem ring_snoc (history : List TapEvent) (e : TapEvent) :
    ring (history ++ [e]) = e.intoRing (ring history) := by
  rw [ring, List.foldl_append]
  rfl

theorem unsaved_snoc (history : List TapEvent) (e : TapEvent) :
    unsaved (history ++ [e]) = e.intoUnsaved (unsaved history) := by
  rw [unsaved, List.foldl_append]
  rfl

theorem readsOf_snoc (history : List TapEvent) (e : TapEvent) :
    readsOf (history ++ [e]) = readsOf history ++ readsOf [e] := by
  rw [readsOf, List.filterMap_append]
  rfl

/-- An engine that was given exactly these reads, in order, and asked whatever else between them. -/
inductive Grown (E : Formatter) (start : E.State) : List Bytes → E.State → Prop where
  | start : Grown E start [] start
  | write {reads : List Bytes} {engine : E.State} (bytes : Bytes) :
      Grown E start reads engine → Grown E start (reads ++ [bytes]) (E.write engine bytes)
  | call {reads : List Bytes} {engine : E.State} (c : E.Call) :
      Grown E start reads engine → Grown E start reads (E.call engine c)

theorem Grown.calls {E : Formatter} {start : E.State} {reads : List Bytes} {engine : E.State}
    (h : Grown E start reads engine) (calls : List E.Call) :
    Grown E start reads (calls.foldl E.call engine) := by
  induction calls generalizing engine with
  | nil => exact h
  | cons c calls ih => exact ih (.call c h)

/-- A state the daemon takes here is the engine's, after exactly the output read so far. -/
def Formats (E : Formatter) (start : E.State) (before : List TapEvent) (state : Bytes) : Prop :=
  ∃ engine title formatted, Grown E start (readsOf before) engine ∧
    E.checkpoint engine = some formatted ∧ state = Tapping.titled title ++ formatted

/-- Every state the daemon took was the engine's when it took it. -/
def StatesFormatted (E : Formatter) (start : E.State) (history : List TapEvent) : Prop :=
  ∀ before state after, history = before ++ .checkpoint state :: after →
    Formats E start before state

theorem StatesFormatted.snoc {E : Formatter} {start : E.State} {history : List TapEvent}
    (h : StatesFormatted E start history) {e : TapEvent}
    (he : ∀ state, e = .checkpoint state → Formats E start history state) :
    StatesFormatted E start (history ++ [e]) := by
  intro before state after heq
  rcases List.eq_nil_or_concat after with rfl | ⟨after, last, rfl⟩
  · obtain ⟨rfl, hlast⟩ := List.append_inj' heq rfl
    exact he state (List.cons.inj hlast).1
  · have hsplit : history ++ [e] = (before ++ .checkpoint state :: after) ++ [last] := by
      rw [heq]
      simp
    obtain ⟨rfl, -⟩ := List.append_inj' hsplit rfl
    exact h before state after rfl

namespace Tapping

variable {E : Formatter} {start : E.State} {framed : Bytes → Bool}

/-- What holds between operations. -/
structure Inv (start : E.State) (s : Tapping E) : Prop where
  whole : s.tapLost = false → s.oversize = false → ring s.history = unsaved s.history
  grown : Grown E start (readsOf s.history) s.engine
  formatted : StatesFormatted E start s.history

theorem Inv.of_eq {s s' : Tapping E} (h : s.Inv start) (hengine : s'.engine = s.engine)
    (hlost : s'.tapLost = s.tapLost) (hover : s'.oversize = s.oversize)
    (hhistory : s'.history = s.history) : s'.Inv start where
  whole := by
    rw [hlost, hover, hhistory]
    exact h.whole
  grown := by
    rw [hengine, hhistory]
    exact h.grown
  formatted := by
    rw [hhistory]
    exact h.formatted

theorem trySend_cases (s : Tapping E) (tap : TapEvent) :
    (∃ room, s.trySend tap = (true, { s with room := room, history := s.history ++ [tap] })) ∨
      ∃ room, s.trySend tap = (false, { s with room := room }) := by
  unfold trySend
  cases hroom : s.room with
  | nil => exact Or.inr ⟨s.room, rfl⟩
  | cons b room =>
    cases b with
    | true => exact Or.inl ⟨room, rfl⟩
    | false => exact Or.inr ⟨room, rfl⟩

theorem tellSize_inv {s : Tapping E} (h : s.Inv start) (size : TermSize) :
    (s.tellSize size).Inv start := by
  unfold tellSize
  obtain ⟨room, htry⟩ | ⟨room, htry⟩ := s.trySend_cases (.resize size)
  · rw [htry]
    refine ⟨?_, ?_, h.formatted.snoc nofun⟩
    · intro hlost hover
      dsimp only
      rw [ring_snoc, unsaved_snoc]
      exact h.whole hlost hover
    · dsimp only
      rw [readsOf_snoc]
      simpa [readsOf] using h.grown
  · rw [htry]
    exact h.of_eq rfl rfl rfl rfl

theorem sendState_inv {s : Tapping E} (h : s.Inv start) {formatted : Bytes}
    (hformatted : E.checkpoint s.engine = some formatted) :
    (s.sendState (titled s.title ++ formatted)).Inv start := by
  unfold sendState
  split
  · refine ⟨nofun, ?_, h.formatted.snoc nofun⟩
    dsimp only
    rw [readsOf_snoc]
    simpa [readsOf] using h.grown
  · obtain ⟨room, htry⟩ | ⟨room, htry⟩ := s.trySend_cases (.checkpoint (titled s.title ++ formatted))
    · rw [htry]
      refine ⟨?_, ?_, ?_⟩
      · intro _ _
        dsimp only
        rw [ring_snoc, unsaved_snoc]
        rfl
      · dsimp only
        rw [readsOf_snoc]
        simpa [readsOf] using h.grown
      · refine h.formatted.snoc ?_
        intro state hstate
        cases hstate
        exact ⟨s.engine, s.title, formatted, h.grown, hformatted, rfl⟩
    · rw [htry]
      exact h.of_eq rfl rfl rfl rfl

theorem tellUntold_inv {s : Tapping E} (h : s.Inv start) : s.tellUntold.Inv start := by
  unfold tellUntold
  cases s.sizeUntold with
  | none => exact h
  | some size =>
    refine tellSize_inv ?_ size
    exact h.of_eq rfl rfl rfl rfl

theorem formatState_inv {s : Tapping E} (h : s.Inv start) : s.formatState.Inv start := by
  unfold formatState
  cases hformatted : E.checkpoint s.engine with
  | none => exact h
  | some formatted => exact sendState_inv h hformatted

theorem checkpoint_inv {s : Tapping E} (h : s.Inv start) (force : Bool) :
    (s.checkpoint force).Inv start := by
  unfold checkpoint
  split
  · cases s.typingUntil force with
    | some until' => exact h.of_eq rfl rfl rfl rfl
    | none =>
      dsimp only
      split
      · exact h.of_eq rfl rfl rfl rfl
      · exact formatState_inv (tellUntold_inv h)
  · exact h

theorem sendOutput_cases (framed : Bytes → Bool) (s : Tapping E) (bytes : Bytes) :
    (∃ room, sendOutput framed s bytes =
        (true, { s with room := room, history := s.history ++ [.output bytes] })) ∨
      ∃ room, sendOutput framed s bytes = (false, { s with room := room }) := by
  unfold sendOutput
  split
  · exact s.trySend_cases (.output bytes)
  · exact Or.inr ⟨s.room, rfl⟩

/-- Output the engine was given and that was tapped, or is known to be lost. -/
theorem tapOutput_inv (framed : Bytes → Bool) {s : Tapping E} (h : s.Inv start) (bytes : Bytes) :
    ((s.feed bytes).tapOutput framed bytes).Inv start := by
  have hfed : Grown E start (readsOf (s.history ++ [.read bytes])) (E.write s.engine bytes) := by
    rw [readsOf_snoc]
    exact .write bytes h.grown
  have hread : StatesFormatted E start (s.history ++ [.read bytes]) := h.formatted.snoc nofun
  have htapped : (tapBytes framed { s.feed bytes with dirtySinceCheckpoint := true } bytes).Inv
      start := by
    unfold tapBytes feed
    dsimp only
    split
    · rename_i hlost
      exact ⟨fun hnot => absurd (hlost.symm.trans hnot) nofun, hfed, hread⟩
    · rename_i hlost
      have hlost : s.tapLost = false := by simpa using hlost
      obtain ⟨room, hsent⟩ | ⟨room, hsent⟩ := sendOutput_cases framed
        { s with
          engine := E.write s.engine bytes
          history := s.history ++ [.read bytes]
          dirtySinceCheckpoint := true
          tappedSinceCheckpoint := s.tappedSinceCheckpoint + bytes.length } bytes
      · rw [hsent]
        refine ⟨?_, ?_, hread.snoc nofun⟩
        · intro _ hover
          dsimp only
          rw [ring_snoc, ring_snoc, unsaved_snoc, unsaved_snoc]
          exact congrArg (· ++ bytes) (h.whole hlost hover)
        · dsimp only
          rw [readsOf_snoc]
          simpa [readsOf] using hfed
      · rw [hsent]
        dsimp only
        split
        · rename_i hover
          exact ⟨fun _ hnot => absurd (hover.symm.trans hnot) nofun, hfed, hread⟩
        · exact ⟨nofun, hfed, hread⟩
  unfold tapOutput
  dsimp only
  split
  · exact htapped.of_eq rfl rfl rfl rfl
  · exact htapped.of_eq rfl rfl rfl rfl

theorem calls_inv {s : Tapping E} (h : s.Inv start) (calls : List E.Call) :
    (s.calls calls).Inv start :=
  ⟨h.whole, h.grown.calls calls, h.formatted⟩

theorem onOutput_inv {s : Tapping E} (h : s.Inv start) (bytes : Bytes) (after : List E.Call)
    (title : Option Bytes) : (s.onOutput framed bytes after title).Inv start := by
  have htapped := calls_inv (tapOutput_inv framed h bytes) after
  unfold onOutput checkpointIfOwed
  dsimp only
  split
  · refine checkpoint_inv ?_ true
    exact htapped.of_eq rfl rfl rfl rfl
  · exact htapped.of_eq rfl rfl rfl rfl

theorem step_inv {s : Tapping E} (h : s.Inv start) (op : TapOp E × TapMoment) :
    (s.step framed op).Inv start := by
  obtain ⟨op, moment⟩ := op
  have h : Inv start { s with
      nowMs := moment.nowMs, free := moment.free, room := moment.room } :=
    h.of_eq rfl rfl rfl rfl
  cases op with
  | opened => exact checkpoint_inv h true
  | output bytes after title => exact onOutput_inv h bytes after title
  | clear erase after title => exact onOutput_inv h erase after title
  | quiet =>
    show Inv start (checkpoint _ false)
    refine checkpoint_inv ?_ false
    exact h.of_eq rfl rfl rfl rfl
  | typed => exact h.of_eq rfl rfl rfl rfl
  | resized resize size => exact (tellSize_inv (calls_inv h [resize]) size).of_eq rfl rfl rfl rfl
  | tapLost =>
    show Inv start (lost _)
    unfold lost
    refine checkpoint_inv ?_ false
    exact ⟨nofun, h.grown, h.formatted⟩
  | asked calls => exact calls_inv h calls

/-! ### While a tap is lost -/

/-- From one moment to a later one the history only grows, and once a tap is lost no output is
taken before a state was taken or found too large. -/
def Onward (s s' : Tapping E) : Prop :=
  ∃ more, s'.history = s.history ++ more ∧
    (s.tapLost = true →
      (∀ before bytes after, more = before ++ .output bytes :: after → ∃ e ∈ before, e.Settles) ∧
        (s'.tapLost = false → ∃ e ∈ more, e.Settles))

namespace Onward

theorem of_eq {s s' : Tapping E} (hlost : s'.tapLost = s.tapLost)
    (hhistory : s'.history = s.history) : s.Onward s' := by
  refine ⟨[], by rw [hhistory, List.append_nil], ?_⟩
  intro hs
  refine ⟨fun before bytes after heq => absurd heq (by simp), ?_⟩
  intro hs'
  rw [hlost, hs] at hs'
  exact absurd hs' nofun

theorem trans {s t u : Tapping E} (hst : s.Onward t) (htu : t.Onward u) : s.Onward u := by
  obtain ⟨more, hmore, hs⟩ := hst
  obtain ⟨rest, hrest, ht⟩ := htu
  refine ⟨more ++ rest, by rw [hrest, hmore, List.append_assoc], ?_⟩
  intro hlost
  obtain ⟨hout, hend⟩ := hs hlost
  refine ⟨?_, ?_⟩
  · intro before bytes after heq
    rcases List.append_eq_append_iff.mp heq with ⟨gap, hbefore, hgap⟩ | ⟨gap, hmore, hgap⟩
    · -- The output is in the later part.
      subst hbefore
      cases htl : t.tapLost with
      | true =>
        obtain ⟨e, he, hset⟩ := (ht htl).1 gap bytes after hgap
        exact ⟨e, List.mem_append_right _ he, hset⟩
      | false =>
        obtain ⟨e, he, hset⟩ := hend htl
        exact ⟨e, List.mem_append_left _ he, hset⟩
    · cases gap with
      | nil =>
        rw [List.append_nil] at hmore
        subst hmore
        cases htl : t.tapLost with
        | true =>
          obtain ⟨e, he, -⟩ := (ht htl).1 [] bytes after hgap.symm
          exact absurd he List.not_mem_nil
        | false => exact hend htl
      | cons e gap =>
        obtain ⟨rfl, -⟩ := List.cons.inj hgap
        exact hout before bytes gap hmore
  · intro hu
    cases htl : t.tapLost with
    | true =>
      obtain ⟨e, he, hset⟩ := (ht htl).2 hu
      exact ⟨e, List.mem_append_right _ he, hset⟩
    | false =>
      obtain ⟨e, he, hset⟩ := hend htl
      exact ⟨e, List.mem_append_left _ he, hset⟩

end Onward

theorem tellSize_onward (s : Tapping E) (size : TermSize) : s.Onward (s.tellSize size) := by
  unfold tellSize
  obtain ⟨room, htry⟩ | ⟨room, htry⟩ := s.trySend_cases (.resize size)
  · rw [htry]
    refine ⟨[.resize size], rfl, ?_⟩
    intro hlost
    refine ⟨?_, fun hnot => absurd (hlost.symm.trans hnot) nofun⟩
    intro before bytes after heq
    exact absurd heq (by cases before <;> simp)
  · rw [htry]
    exact Onward.of_eq rfl rfl

theorem sendState_onward (s : Tapping E) (state : Bytes) : s.Onward (s.sendState state) := by
  have hone : ∀ {e : TapEvent}, e.Settles → (∀ bytes, e ≠ .output bytes) →
      (∀ before bytes after, [e] = before ++ TapEvent.output bytes :: after →
        ∃ e ∈ before, e.Settles) := by
    intro e _ hne before bytes after heq
    cases before with
    | nil => exact absurd (List.cons.inj heq).1 (hne bytes)
    | cons a before => simp at heq
  unfold sendState
  split
  · exact ⟨[.tooLarge], rfl, fun _ => ⟨hone trivial nofun, fun _ => ⟨_, List.mem_cons_self, trivial⟩⟩⟩
  · obtain ⟨room, htry⟩ | ⟨room, htry⟩ := s.trySend_cases (.checkpoint state)
    · rw [htry]
      exact ⟨[.checkpoint state], rfl,
        fun _ => ⟨hone trivial nofun, fun _ => ⟨_, List.mem_cons_self, trivial⟩⟩⟩
    · rw [htry]
      exact Onward.of_eq rfl rfl

theorem checkpoint_onward (s : Tapping E) (force : Bool) : s.Onward (s.checkpoint force) := by
  have htold : s.Onward s.tellUntold := by
    unfold tellUntold
    cases s.sizeUntold with
    | none => exact Onward.of_eq rfl rfl
    | some size =>
      refine Onward.trans ?_ (tellSize_onward _ size)
      exact Onward.of_eq rfl rfl
  have hformat : s.tellUntold.Onward s.tellUntold.formatState := by
    unfold formatState
    cases E.checkpoint s.tellUntold.engine with
    | none => exact Onward.of_eq rfl rfl
    | some formatted => exact sendState_onward _ _
  unfold checkpoint
  split
  · cases s.typingUntil force with
    | some until' => exact Onward.of_eq rfl rfl
    | none =>
      dsimp only
      split
      · exact Onward.of_eq rfl rfl
      · exact htold.trans hformat
  · exact Onward.of_eq rfl rfl

/-- Whatever is taken of output that is tapped, none is with a tap lost. -/
theorem tapOutput_onward (framed : Bytes → Bool) (s : Tapping E) (bytes : Bytes) :
    s.Onward ((s.feed bytes).tapOutput framed bytes) := by
  have htapped : s.Onward (tapBytes framed
      { s.feed bytes with dirtySinceCheckpoint := true } bytes) := by
    unfold tapBytes feed
    dsimp only
    split
    · rename_i hlost
      refine ⟨[.read bytes], rfl, fun _ => ⟨?_, fun hnot => absurd (hlost.symm.trans hnot) nofun⟩⟩
      intro before b after heq
      exact absurd heq (by cases before <;> simp)
    · rename_i hlost
      obtain ⟨room, hsent⟩ | ⟨room, hsent⟩ := sendOutput_cases framed
        { s with
          engine := E.write s.engine bytes
          history := s.history ++ [.read bytes]
          dirtySinceCheckpoint := true
          tappedSinceCheckpoint := s.tappedSinceCheckpoint + bytes.length } bytes
      · rw [hsent]
        exact ⟨[.read bytes, .output bytes], List.append_assoc _ _ _, fun hyes => absurd hyes hlost⟩
      · rw [hsent]
        dsimp only
        split
        · exact ⟨[.read bytes], rfl, fun hyes => absurd hyes hlost⟩
        · exact ⟨[.read bytes], rfl, fun hyes => absurd hyes hlost⟩
  unfold tapOutput
  dsimp only
  split
  · exact htapped.trans (Onward.of_eq rfl rfl)
  · exact htapped.trans (Onward.of_eq rfl rfl)

theorem step_onward (s : Tapping E) (op : TapOp E × TapMoment) : s.Onward (s.step framed op) := by
  obtain ⟨op, moment⟩ := op
  have hbegin : s.Onward { s with
      nowMs := moment.nowMs, free := moment.free, room := moment.room } := Onward.of_eq rfl rfl
  have houtput : ∀ bytes after title, s.Onward (onOutput framed { s with
      nowMs := moment.nowMs, free := moment.free, room := moment.room } bytes after title) := by
    intro bytes after title
    refine (hbegin.trans (tapOutput_onward framed _ bytes)).trans ?_
    unfold onOutput checkpointIfOwed
    dsimp only
    split
    · refine Onward.trans ?_ (checkpoint_onward _ true)
      exact Onward.of_eq rfl rfl
    · exact Onward.of_eq rfl rfl
  cases op with
  | opened => exact hbegin.trans (checkpoint_onward _ true)
  | output bytes after title => exact houtput bytes after title
  | clear erase after title => exact houtput erase after title
  | quiet =>
    refine hbegin.trans (Onward.trans ?_ (checkpoint_onward _ false))
    exact Onward.of_eq rfl rfl
  | typed => exact Onward.of_eq rfl rfl
  | resized resize size =>
    have hcalls : s.Onward (calls { s with
        nowMs := moment.nowMs, free := moment.free, room := moment.room } [resize]) :=
      Onward.of_eq rfl rfl
    exact (hcalls.trans (tellSize_onward _ size)).trans (Onward.of_eq rfl rfl)
  | tapLost =>
    have hlost : s.Onward { s with
        nowMs := moment.nowMs, free := moment.free, room := moment.room
        dirtySinceCheckpoint := true, tapLost := true } := by
      refine ⟨[], (List.append_nil _).symm, fun _ => ⟨?_, nofun⟩⟩
      intro before bytes after heq
      exact absurd heq (by simp)
    exact hlost.trans (checkpoint_onward _ false)
  | asked calls => exact Onward.of_eq rfl rfl

theorem run_onward (framed : Bytes → Bool) (s : Tapping E) (ops : List (TapOp E × TapMoment)) :
    s.Onward (ops.foldl (step framed) s) := by
  induction ops generalizing s with
  | nil => exact Onward.of_eq rfl rfl
  | cons op ops ih => exact (step_onward s op).trans (ih _)

/-- Along every run: with no tap lost and the state not too large, the ring holds exactly the output
read since the last state the daemon took; every state it took is the engine's, after exactly the
output read by then; and once a tap is lost, no output is taken before a state was taken, or found
too large. -/
theorem taps_are_replayable (framed : Bytes → Bool) (engine : E.State) (title : Option Bytes)
    (ops : List (TapOp E × TapMoment)) :
    let s := ops.foldl (step framed) { engine := engine, title := title }
    (s.tapLost = false → s.oversize = false → ring s.history = unsaved s.history) ∧
      StatesFormatted E engine s.history ∧
      (s.tapLost = true → ∀ later : List (TapOp E × TapMoment), ∃ more,
        (later.foldl (step framed) s).history = s.history ++ more ∧
          ∀ before bytes after, more = before ++ .output bytes :: after →
            ∃ e ∈ before, e.Settles) := by
  intro s
  have hstart : Inv engine ({ engine := engine, title := title } : Tapping E) := by
    refine ⟨fun _ _ => rfl, .start, ?_⟩
    intro before state after heq
    exact absurd heq (by simp)
  have hinv : s.Inv engine := by
    show (ops.foldl (step framed) _).Inv engine
    clear s
    generalize ({ engine := engine, title := title } : Tapping E) = s at hstart
    induction ops generalizing s with
    | nil => exact hstart
    | cons op ops ih => exact ih _ (step_inv hstart op)
  refine ⟨hinv.whole, hinv.formatted, ?_⟩
  intro hlost later
  obtain ⟨more, hmore, hquiet⟩ := run_onward framed s later
  exact ⟨more, hmore, (hquiet hlost).1⟩

end Tapping

end Slopty.Session
