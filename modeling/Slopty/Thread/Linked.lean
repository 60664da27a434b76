import Slopty.Thread.Client

/-!
One thread on its worker and on a client that follows it, through links that come and go. The
worker streams the thread anew whenever it is asked, each stream on its own, and what the streams
carry comes in any order, again or not at all; the client's mirror takes what follows on from its
cursor.
-/

namespace Slopty.Thread.Client

open Slopty.Lib

/-- A thread's actions and older pages, as they came to a mirror. -/
def actionsOf (steps : List StateStep) : List Action :=
  steps.filterMap fun st => match st with
    | .apply a => some a
    | _ => none

/-- A step a mirror takes: an action, or a page the worker sent. -/
def Brought (pages : List Page) : StateStep → Prop
  | .apply _ => True
  | .window _ => False
  | .prepend page => page ∈ pages

/-- A state that grew from a window of one the worker stood at, by the very actions that took the
worker from there to its state at `cursor`, with pages of the worker's put in front. -/
def Grown (stood : List (Cursor × ThreadState)) (pages : List Page) (cursor : Cursor)
    (state : ThreadState) : Prop :=
  ∃ from' whole steps, (from', whole) ∈ stood ∧
    (cursor, whole.applyAll (actionsOf steps)) ∈ stood ∧ (∀ st ∈ steps, Brought pages st) ∧
    state = steps.foldl ThreadState.step (whole.window snapshotTurns)

/-- A mirror stands at a cursor when it holds a state, and it is one that grew to it. -/
def Mirror.Grown (m : Mirror) (stood : List (Cursor × ThreadState)) (pages : List Page) : Prop :=
  (m.cursor = none ∧ m.state = none) ∨
    ∃ cursor state, m.cursor = some cursor ∧ m.state = some state ∧
      Client.Grown stood pages cursor state

/-- A worker's thread with every stream of it, what they sent, and a client. -/
structure Linked where
  thread : Followed
  own : Own := {}
  /-- The thread is held. -/
  held : Bool := true
  /-- Every batch sent to the streams. -/
  feed : List Batch := []
  /-- The streams open, those a client asked to end among them until they do. -/
  streams : List Follower := []
  /-- Every frame a stream sent. -/
  sent : List ThreadFrame := []
  /-- Every page sent. -/
  pages : List Page := []
  client : Threads := {}
  /-- What the client's cache was given to keep of the thread. -/
  kept : List Cached := []

inductive LinkedStep where
  /-- The host acts on the thread. -/
  | host (st : FollowStep)
  /-- The worker takes a follow from a client at `held` and opens a stream. -/
  | follow (held : Option Cursor) (budget : Nat)
  /-- A stream runs to its next await. -/
  | next (at' now : Nat)
  /-- A stream ends, or is lost with its link. -/
  | ended (at' : Nat)
  /-- The worker answers with a page of the thread as it is. -/
  | page (before : TurnId) (turns : Nat)
  | client (op : Threads.Op)

namespace Linked

/-- The thread as one of its streams sees it. -/
def following (m : Linked) (f : Follower) : Following :=
  { thread := m.thread, own := m.own, held := m.held, feed := m.feed, follower := f }

def host (w : Wires) (m : Linked) (st : FollowStep) : Linked :=
  match st with
  | .next _ => m
  | st =>
      let n := (m.following { turns := 0, budget := 0, cursor := none }).step w st
      { m with thread := n.thread, own := n.own, held := n.held, feed := n.feed }

def poll (m : Linked) (at' now : Nat) : Linked :=
  match m.streams[at']? with
  | none => m
  | some f =>
      let n := (m.following f).poll now
      { m with streams := m.streams.set at' n.follower, sent := m.sent ++ framesOf n.events }

variable (t : ThreadId)

def step (w : Wires) (m : Linked) : LinkedStep → Linked
  | .host st => m.host w st
  | .follow held budget =>
      { m with
        streams := m.streams ++ [{ turns := snapshotTurns, budget := budget, cursor := held }] }
  | .next at' now => m.poll at' now
  | .ended at' => { m with streams := m.streams.eraseIdx at' }
  | .page before turns => { m with pages := m.pages ++ [m.thread.log.state.page before turns] }
  | .client op =>
      { m with client := m.client.step op, kept := m.kept ++ m.client.keeps t op }

/-- What the network and the disk are trusted with: the actions the host is given encode, a frame
of the thread comes from one of its streams, and what the cache gives back it was given. -/
def Real (w : Wires) (m : Linked) : LinkedStep → Prop
  | .host st => (m.following { turns := 0, budget := 0, cursor := none }).Encodes w st
  | .client (.frame thread (.stream frame)) => thread = t → frame ∈ m.sent
  | .client (.frame thread (.page page)) => thread = t → page ∈ m.pages
  | .client (.openThread thread (some cached)) => thread = t → cached ∈ m.kept
  | _ => True

/-- What holds along a run: the history is whole, every stream sends it from where it stands, and
the client's mirror and its cache hold states that grew from it. -/
structure Inv (m : Linked) : Prop where
  recorded : ∃ start base, m.thread.Recorded start base
  feed : ∀ b ∈ m.feed, b.Told m.thread.stood
  turns : ∀ f ∈ m.streams, f.turns = snapshotTurns
  gathered : ∀ f ∈ m.streams, ∀ at', f.cursor = some at' → Follows m.thread.stood at' f.gathered
  sent : ∀ frame ∈ m.sent, Moves m.thread.stood snapshotTurns frame
  mirror : ∀ mirror, m.client.mirrors.get? t = some mirror → mirror.Grown m.thread.stood m.pages
  kept : ∀ c ∈ m.kept, Client.Grown m.thread.stood m.pages c.cursor c.state

end Linked

variable {stood stood' : List (Cursor × ThreadState)} {pages pages' : List Page}

theorem Brought.mono (hsub : pages ⊆ pages') {st : StateStep} (h : Brought pages st) :
    Brought pages' st := by
  cases st with
  | apply a => trivial
  | window turns => exact h
  | prepend page => exact hsub h

theorem Grown.mono {cursor : Cursor} {state : ThreadState} (h : Grown stood pages cursor state)
    (hstood : stood ⊆ stood') (hpages : pages ⊆ pages') : Grown stood' pages' cursor state := by
  obtain ⟨from', whole, steps, hfrom, hto, hbrought, hstate⟩ := h
  exact ⟨from', whole, steps, hstood hfrom, hstood hto,
    fun st hst => (hbrought st hst).mono hpages, hstate⟩

theorem actionsOf_append (before after : List StateStep) :
    actionsOf (before ++ after) = actionsOf before ++ actionsOf after := List.filterMap_append

theorem actionsOf_apply (actions : List Action) :
    actionsOf (actions.map StateStep.apply) = actions := by
  rw [actionsOf, List.filterMap_map]
  exact List.filterMap_some

theorem foldl_apply (state : ThreadState) (actions : List Action) :
    (actions.map StateStep.apply).foldl ThreadState.step state = state.applyAll actions := by
  rw [List.foldl_map]
  rfl

theorem Grown.applied (hone : ∀ c s s', (c, s) ∈ stood → (c, s') ∈ stood → s = s')
    {cursor next : Cursor} {state : ThreadState} {actions : List Action}
    (h : Grown stood pages cursor state) (hcarries : Carries stood cursor next actions) :
    Grown stood pages next (state.applyAll actions) := by
  obtain ⟨from', whole, steps, hfrom, hto, hbrought, rfl⟩ := h
  obtain ⟨s, hs, hnext⟩ := hcarries
  rw [hone cursor s _ hs hto, ← ThreadState.applyAll_append] at hnext
  refine ⟨from', whole, steps ++ actions.map .apply, hfrom, ?_, ?_, ?_⟩
  · rw [actionsOf_append, actionsOf_apply]
    exact hnext
  · intro st hst
    rcases List.mem_append.mp hst with hst | hst
    · exact hbrought st hst
    · obtain ⟨a, -, rfl⟩ := List.mem_map.mp hst
      trivial
  · rw [List.foldl_append, foldl_apply]

theorem Grown.prepended {cursor : Cursor} {state : ThreadState}
    (h : Grown stood pages cursor state) {page : Page} (hpage : page ∈ pages) :
    Grown stood pages cursor (state.prepend page) := by
  obtain ⟨from', whole, steps, hfrom, hto, hbrought, rfl⟩ := h
  refine ⟨from', whole, steps ++ [.prepend page], hfrom, ?_, ?_, ?_⟩
  · rw [actionsOf_append]
    exact (List.append_nil (actionsOf steps)).symm ▸ hto
  · intro st hst
    rcases List.mem_append.mp hst with hst | hst
    · exact hbrought st hst
    · rw [List.mem_singleton.mp hst]
      exact hpage
  · rw [List.foldl_append]
    rfl

/-- A mirror takes only what follows on from its cursor, so what it holds goes on growing. -/
theorem Mirror.Grown.take {m : Mirror} (h : m.Grown stood pages)
    (hone : ∀ c s s', (c, s) ∈ stood → (c, s') ∈ stood → s = s') {frame : Frame}
    (hstream : ∀ f, frame = .stream f → Moves stood snapshotTurns f)
    (hpage : ∀ page, frame = .page page → page ∈ pages) : (m.take frame).1.Grown stood pages := by
  cases frame with
  | stream f =>
    have hmoves := hstream f rfl
    cases f with
    | snapshot cursor state =>
      obtain ⟨s, hs, rfl⟩ := hmoves
      exact .inr ⟨cursor, _, rfl, rfl, cursor, s, [], hs, hs,
        fun st hst => absurd hst List.not_mem_nil, rfl⟩
    | actions epoch first next actions =>
      rw [Mirror.take]
      split
      · rename_i hat
        obtain ⟨hnone, -⟩ | ⟨cursor, state, hcursor, hstate, hgrown⟩ := h
        · exact absurd (hat.symm.trans hnone) (Option.some_ne_none _)
        · obtain rfl := Option.some.inj (hcursor.symm.trans hat)
          rw [hstate]
          exact .inr ⟨_, _, rfl, rfl, hgrown.applied hone hmoves⟩
      · exact h
  | page page =>
    rw [Mirror.take]
    obtain ⟨hcursor, hstate⟩ | ⟨cursor, state, hcursor, hstate, hgrown⟩ := h
    · rw [hstate]
      exact .inl ⟨hcursor, hstate⟩
    · rw [hstate]
      exact .inr ⟨cursor, _, hcursor, rfl, hgrown.prepended (hpage page rfl)⟩
  | expanded content body => exact h
  | review review => exact h
  | app => exact h

theorem Mirror.Grown.mono {m : Mirror} (h : m.Grown stood pages) (hstood : stood ⊆ stood')
    (hpages : pages ⊆ pages') : m.Grown stood' pages' := by
  obtain hnone | ⟨cursor, state, hcursor, hstate, hgrown⟩ := h
  · exact .inl hnone
  · exact .inr ⟨cursor, state, hcursor, hstate, hgrown.mono hstood hpages⟩

theorem next_turns (f : Follower) (log : Option Log) (feed : List Batch) (now : Nat) :
    (f.next log feed now).1.turns = f.turns := by
  have hcase := next_cases f log feed now
  generalize f.next log feed now = polled at hcase ⊢
  cases hcase with
  | quiet f' polled _ _ hturns _ _ => exact hturns
  | took f' b at' _ _ _ _ _ _ hturns _ => exact hturns
  | broke _ => rfl
  | caught l _ => rfl
  | emitted at' torn _ _ _ => rfl

namespace Linked

variable {t : ThreadId} {w : Wires} {m : Linked}

/-- Each stream, by itself, is a follower of the thread. -/
theorem Inv.following (h : m.Inv t) {f : Follower}
    (hgathered : ∀ at', f.cursor = some at' → Follows m.thread.stood at' f.gathered) :
    (m.following f).Inv f.cursor := by
  obtain ⟨start, base, hr⟩ := h.recorded
  refine ⟨⟨start, base, hr⟩, h.feed, hgathered, ⟨trivial, rfl, ?_, ?_, hr.one⟩, ?_⟩
  · exact fun frame hframe => absurd hframe List.not_mem_nil
  · intro before after frame catchup heq
    exact absurd heq.symm (List.append_ne_nil_of_right_ne_nil _ (List.cons_ne_nil _ _))
  · exact fun hlast => absurd hlast (Option.some_ne_none _).symm

/-- The host acts: the history grows, and all that was of it still is. -/
theorem Inv.grow (h : m.Inv t) {m' : Linked} (hstreams : m'.streams = m.streams)
    (hsent : m'.sent = m.sent) (hpages : m'.pages = m.pages) (hclient : m'.client = m.client)
    (hkept : m'.kept = m.kept) (hrecorded : ∃ start base, m'.thread.Recorded start base)
    (hfeed : ∀ b ∈ m'.feed, b.Told m'.thread.stood)
    (hsub : m.thread.stood ⊆ m'.thread.stood) : m'.Inv t where
  recorded := hrecorded
  feed := hfeed
  turns := hstreams ▸ h.turns
  gathered := by
    rw [hstreams]
    exact fun f hf at' hat => (h.gathered f hf at' hat).mono hsub
  sent := by
    rw [hsent]
    exact fun frame hframe => (h.sent frame hframe).mono hsub
  mirror := by
    rw [hclient, hpages]
    exact fun mirror hmirror => (h.mirror mirror hmirror).mono hsub (List.Subset.refl _)
  kept := by
    rw [hkept, hpages]
    exact fun c hc => (h.kept c hc).mono hsub (List.Subset.refl _)

theorem step_stood (n : Following) (st : FollowStep) :
    n.thread.stood ⊆ (n.step w st).thread.stood := by
  cases st with
  | apply actions wrote fates =>
    simp only [Following.step]
    split
    · exact List.subset_append_left _ _
    · exact List.Subset.refl _
  | reset state fates =>
    simp only [Following.step, Following.restart]
    split
    · split <;> exact List.subset_append_left _ _
    · exact List.Subset.refl _
  | remove => exact List.Subset.refl _
  | next now => exact List.Subset.refl _

theorem Inv.host (h : m.Inv t) {st : FollowStep} (hst : m.Real t w (.host st)) :
    (m.host w st).Inv t := by
  have hidle := h.following (f := { turns := 0, budget := 0, cursor := none })
    fun at' hat => absurd hat (Option.some_ne_none _).symm
  have hencodes : (m.following { turns := 0, budget := 0, cursor := none }).Encodes w st := hst
  have hnext := hidle.step hencodes
  have hsub := step_stood (w := w) (m.following { turns := 0, budget := 0, cursor := none }) st
  cases st with
  | next now => exact h
  | apply actions wrote fates =>
    exact h.grow rfl rfl rfl rfl rfl hnext.recorded hnext.feed hsub
  | reset state fates => exact h.grow rfl rfl rfl rfl rfl hnext.recorded hnext.feed hsub
  | remove => exact h.grow rfl rfl rfl rfl rfl hnext.recorded hnext.feed hsub

theorem Inv.poll (h : m.Inv t) (at' now : Nat) : (m.poll at' now).Inv t := by
  rw [Linked.poll]
  cases hstream : m.streams[at']? with
  | none => exact h
  | some f =>
    have hmem := List.mem_of_getElem? hstream
    have hnext := (h.following (h.gathered f hmem)).poll now
    have hturns : ((m.following f).poll now).follower.turns = snapshotTurns :=
      (next_turns f _ _ now).trans (h.turns f hmem)
    have hset : ∀ {P : Follower → Prop}, P ((m.following f).poll now).follower →
        (∀ f ∈ m.streams, P f) →
        ∀ f' ∈ m.streams.set at' ((m.following f).poll now).follower, P f' := by
      intro P hnew hold f' hf'
      rcases List.mem_or_eq_of_mem_set hf' with hf' | rfl
      · exact hold f' hf'
      · exact hnew
    refine ⟨h.recorded, h.feed, hset hturns h.turns, hset hnext.gathered h.gathered, ?_, h.mirror,
      h.kept⟩
    intro frame hframe
    rcases List.mem_append.mp hframe with hframe | hframe
    · exact h.sent frame hframe
    · exact hturns ▸ hnext.sound.moves frame hframe

/-- What an operation gives the cache to keep is what the mirror held. -/
theorem Inv.keeps (h : m.Inv t) {op : Threads.Op} {c : Cached} (hc : c ∈ m.client.keeps t op) :
    Client.Grown m.thread.stood m.pages c.cursor c.state := by
  have hcache : c ∈ (m.client.toCache t).toList := by
    cases op with
    | closeThread thread =>
      rw [Threads.keeps] at hc
      split at hc
      · exact hc
      · cases hc
    | toCache thread =>
      rw [Threads.keeps] at hc
      split at hc
      · exact hc
      · cases hc
    | _ => cases hc
  rw [Option.mem_toList, Threads.toCache, Option.bind_eq_some_iff] at hcache
  obtain ⟨mirror, hmirror, hkept⟩ := hcache
  obtain ⟨cursor, hcursor, hmapped⟩ := Option.bind_eq_some_iff.mp hkept
  obtain ⟨state, hstate, rfl⟩ := Option.map_eq_some_iff.mp hmapped
  obtain ⟨hnone, -⟩ | ⟨cursor', state', hcursor', hstate', hgrown⟩ := h.mirror mirror hmirror
  · exact absurd (hcursor.symm.trans hnone) (Option.some_ne_none _)
  · obtain rfl := Option.some.inj (hcursor.symm.trans hcursor')
    obtain rfl := Option.some.inj (hstate.symm.trans hstate')
    exact hgrown

theorem Inv.client (h : m.Inv t) {op : Threads.Op} (hop : m.Real t w (.client op)) :
    (m.step t w (.client op)).Inv t := by
  obtain ⟨start, base, hr⟩ := h.recorded
  refine ⟨⟨start, base, hr⟩, h.feed, h.turns, h.gathered, h.sent, ?_, ?_⟩
  · refine Threads.step_mirror h.mirror (fun mirror hm => hm) ?_ ?_ ?_
    · exact .inl ⟨rfl, rfl⟩
    · rintro cached rfl
      exact .inr ⟨cached.cursor, cached.state, rfl, rfl, h.kept cached (hop rfl)⟩
    · rintro mirror f rfl hmirror
      refine hmirror.take hr.one ?_ ?_
      · rintro frame rfl
        exact h.sent frame (hop rfl)
      · rintro page rfl
        exact hop rfl
  · intro c hc
    rcases List.mem_append.mp hc with hc | hc
    · exact h.kept c hc
    · exact h.keeps hc

/-- A step keeps what the streams send whole, and the client's mirror a state that grew from it. -/
theorem Inv.step (h : m.Inv t) {st : LinkedStep} (hst : m.Real t w st) :
    (m.step t w st).Inv t := by
  cases st with
  | host st => exact h.host hst
  | follow held budget =>
    refine ⟨h.recorded, h.feed, ?_, ?_, h.sent, h.mirror, h.kept⟩
    · intro f hf
      rcases List.mem_append.mp hf with hf | hf
      · exact h.turns f hf
      · rw [List.mem_singleton.mp hf]
    · intro f hf at' hat
      rcases List.mem_append.mp hf with hf | hf
      · exact h.gathered f hf at' hat
      · rw [List.mem_singleton.mp hf]
        trivial
  | next at' now => exact h.poll at' now
  | ended at' =>
    exact ⟨h.recorded, h.feed, fun f hf => h.turns f (List.mem_of_mem_eraseIdx hf),
      fun f hf => h.gathered f (List.mem_of_mem_eraseIdx hf), h.sent, h.mirror, h.kept⟩
  | page before turns =>
    have hsub : m.pages ⊆ m.pages ++ [m.thread.log.state.page before turns] :=
      List.subset_append_left _ _
    exact ⟨h.recorded, h.feed, h.turns, h.gathered, h.sent,
      fun mirror hmirror => (h.mirror mirror hmirror).mono (List.Subset.refl _) hsub,
      fun c hc => (h.kept c hc).mono (List.Subset.refl _) hsub⟩
  | client op => exact h.client hst

/-- A worker that opened the thread, and a client with what its cache kept of the outbox. -/
def start (limits : Limits) (cursor : Cursor) (state : ThreadState)
    (read : List (Action × Nat)) (len : Nat) (dir : Dir) (own : Own) (outbox : Outbox) : Linked :=
  { thread := Followed.opened limits cursor state read len dir
    own := own
    client := Threads.new outbox }

theorem start_inv (limits : Limits) (cursor : Cursor) (state : ThreadState)
    (read : List (Action × Nat)) (len : Nat) (dir : Dir) (own : Own) (outbox : Outbox) :
    (start limits cursor state read len dir own outbox).Inv t where
  recorded := ⟨_, _, Followed.recorded_opened limits cursor state read len dir⟩
  feed := fun _ hb => absurd hb List.not_mem_nil
  turns := fun _ hf => absurd hf List.not_mem_nil
  gathered := fun _ hf => absurd hf List.not_mem_nil
  sent := fun _ hframe => absurd hframe List.not_mem_nil
  mirror := fun _ hmirror => absurd hmirror (Option.some_ne_none _).symm
  kept := fun _ hc => absurd hc List.not_mem_nil

end Linked

namespace Linked

def newThread : ThreadState := { threadMeta := { id := 1 } }

/-- A client opens a thread, is sent a snapshot of it, loses the link and gets the snapshot of the
old stream once more. -/
def opened : List LinkedStep :=
  [.client (.openThread 1 none), .follow none 0, .next 0 0,
    .client (.frame 1 (.stream (.snapshot ⟨7, 0⟩ (newThread.window snapshotTurns)))),
    .client .disconnected, .client .connected,
    .client (.frame 1 (.stream (.snapshot ⟨7, 0⟩ (newThread.window snapshotTurns))))]

theorem opened_real : EachStep (step 1 Followed.shortWires) (Real 1 Followed.shortWires)
    (start {} ⟨7, 0⟩ newThread [] 0 {} {} {}) opened :=
  ⟨trivial, trivial, trivial, fun _ => List.mem_cons_self, trivial, trivial,
    fun _ => List.mem_cons_self, trivial⟩

end Linked

namespace Mirror

/-- A mirror that took a stream's frames in the order they were sent. -/
def brought (m : Mirror) (frames : List ThreadFrame) : Mirror :=
  frames.foldl (fun m f => (m.take (.stream f)).1) m

/-- Each of the frames followed on when it came. -/
def NeverGaps (m : Mirror) (frames : List ThreadFrame) : Prop :=
  ∀ before f after, frames = before ++ f :: after →
    ((m.brought before).take (.stream f)).2 = .moved

/-- A frame that starts where a mirror stands moves it to where the frame ends. -/
theorem take_chained {m : Mirror} (hwhole : m.cursor = none ∨ m.state.isSome) {f : ThreadFrame}
    {rest : List ThreadFrame} (h : Chained m.cursor (f :: rest)) :
    (m.take (.stream f)).2 = .moved ∧ (m.take (.stream f)).1.state.isSome ∧
      Chained (m.take (.stream f)).1.cursor rest ∧
      cursorAfter m.cursor (f :: rest) = cursorAfter (m.take (.stream f)).1.cursor rest := by
  cases f with
  | snapshot cursor state => exact ⟨rfl, rfl, h, rfl⟩
  | actions epoch first next actions =>
    obtain ⟨hat, hrest⟩ := h
    rw [take, if_pos hat]
    rcases hwhole with hnone | hsome
    · exact absurd (hat.symm.trans hnone) (Option.some_ne_none _)
    · obtain ⟨state, hstate⟩ := Option.isSome_iff_exists.mp hsome
      rw [hstate]
      exact ⟨rfl, rfl, hrest, rfl⟩

theorem brought_chained {m : Mirror} (hwhole : m.cursor = none ∨ m.state.isSome)
    {frames : List ThreadFrame} (h : Chained m.cursor frames) :
    m.NeverGaps frames ∧ (m.brought frames).cursor = cursorAfter m.cursor frames := by
  induction frames generalizing m with
  | nil =>
    refine ⟨fun before f after heq => ?_, rfl⟩
    exact absurd heq.symm (List.append_ne_nil_of_right_ne_nil _ (List.cons_ne_nil _ _))
  | cons f rest ih =>
    obtain ⟨hmoved, hstate, hrest, hafter⟩ := take_chained hwhole h
    obtain ⟨hnever, hcursor⟩ := ih (.inr hstate) hrest
    refine ⟨fun before g after heq => ?_, hcursor.trans hafter.symm⟩
    cases before with
    | nil =>
      obtain ⟨rfl, -⟩ := List.cons.inj heq
      exact hmoved
    | cons first before =>
      obtain ⟨rfl, htail⟩ := List.cons.inj heq
      exact hnever before g after htail

end Mirror

namespace Linked

variable {t : ThreadId} {w : Wires}

end Linked

end Slopty.Thread.Client
