import Slopty.Thread.Intents
import Slopty.Thread.Paging
import Slopty.Thread.Table

/-!
One worker's threads as a client holds them: the table every list reads, a mirror of each thread
open here, the intents on their way and the whole of clipped content, kept in step through link
drops.
-/

namespace Slopty.Thread.Client

open Slopty.Lib

/-- The turns a snapshot carries when a thread is first followed. -/
def snapshotTurns : Nat := 20

def maxLatencyMs : Nat := 16

abbrev ContentRef := String

/-- The whole of some clipped content. -/
inductive Expanded where
  | text (text : List Char)
  | bytes (bytes : Bytes)
  | gone
  deriving DecidableEq

inductive Against where
  | head
  | base
  | branch (name : String)
  deriving DecidableEq

inductive ReviewScope where
  | workingTree (against : Against)
  | range (base head : String)
  | commit (commit : String)
  deriving DecidableEq

/-- A review of a thread's changes; `said` is what nothing here looks into. -/
structure Review where
  scope : ReviewScope
  said : String := ""
  deriving DecidableEq

/-- A person's own mark on a thread. -/
inductive Intent where
  | seen (turn : TurnId)
  | name (title : List Char)
  deriving DecidableEq

/-- The most characters a thread's name holds. -/
def Intent.nameMax : Nat := 200

/-- One intent on its way. -/
structure Sent where
  id : IntentId
  thread : ThreadId
  intent : Intent
  deriving DecidableEq

/-- The intents on their way, oldest first. -/
structure Outbox where
  sent : List Sent := []
  deriving DecidableEq

namespace Outbox

def push (o : Outbox) (sent : Sent) : Outbox := { sent := o.sent ++ [sent] }

/-- The worker answered `id`: it is no longer on its way. -/
def answered (o : Outbox) (id : IntentId) : Outbox × Option Sent :=
  match o.sent.find? (·.id == id) with
  | none => (o, none)
  | some sent => ({ sent := o.sent.eraseP (·.id == id) }, some sent)

end Outbox

/-- The bytes the blobs hold at most, together. -/
def blobBudget : Nat := 64 * 2 ^ 20

/-- Expanded content by where it came from, the least recently used going first. -/
structure Blobs where
  held : OrdMap ContentRef Expanded := OrdMap.empty
  /-- Oldest use first. -/
  order : List ContentRef := []
  bytes : Nat := 0
  budget : Nat := blobBudget

def weight : Expanded → Nat
  | .text text => (text.map Char.utf8Size).sum
  | .bytes bytes => bytes.length
  | .gone => 0

namespace Blobs

def touch (b : Blobs) (content : ContentRef) : Blobs :=
  { b with order := b.order.erase content ++ [content] }

/-- The expansion of `content`, made the most recent. -/
def get (b : Blobs) (content : ContentRef) : Blobs × Option Expanded :=
  match b.held.get? content with
  | none => (b, none)
  | some found => (b.touch content, some found)

def peek (b : Blobs) (content : ContentRef) : Option Expanded := b.held.get? content

/-- The loop of `put`: the least recent go until the rest fit the budget. -/
def shed (budget : Nat) : List ContentRef → OrdMap ContentRef Expanded → Nat → Blobs
  | [], held, bytes => { held := held, order := [], bytes := bytes, budget := budget }
  | oldest :: rest, held, bytes =>
      if bytes ≤ budget then
        { held := held, order := oldest :: rest, bytes := bytes, budget := budget }
      else
        match held.get? oldest with
        | none => shed budget rest held bytes
        | some body => shed budget rest (held.erase oldest) (bytes - weight body)

/-- Keep `body` as the expansion of `content`. One larger than the whole budget is not kept. -/
def put (b : Blobs) (content : ContentRef) (body : Expanded) : Blobs :=
  if b.budget < weight body then b
  else
    let (order, bytes) := match b.held.get? content with
      | some old => ((b.touch content).order, b.bytes - weight old)
      | none => (b.order ++ [content], b.bytes)
    shed b.budget order (b.held.insert content body) (satAdd 64 bytes (weight body))

end Blobs

/-- A thread's state and the cursor it stands at. -/
structure Mirror where
  state : Option ThreadState := none
  cursor : Option Cursor := none
  live : Bool := false
  /-- How many times each item changed since the state was last replaced. -/
  revs : OrdMap ItemId Nat := OrdMap.empty
  /-- How many times the state was replaced whole. -/
  generation : Nat := 0

/-- What a stream of a thread brings. -/
inductive Frame where
  | stream (frame : ThreadFrame)
  | page (page : Page)
  | expanded (content : ContentRef) (body : Expanded)
  | review (review : Review)
  | app

/-- What a frame did to a mirror. -/
inductive Took where
  | moved
  | gap
  | aside
  deriving DecidableEq

namespace Mirror

/-- A mirror of what a cache kept: drawn at once, and caught up from its cursor. -/
def cached (state : ThreadState) (cursor : Cursor) : Mirror :=
  { state := some state, cursor := some cursor }

def rev (m : Mirror) (item : ItemId) : Nat := m.generation * 2 ^ 32 + (m.revs.get? item).getD 0

/-- The item an action changes. -/
def changes : Action → Option ItemId
  | .itemStarted item => some item.id
  | .itemUpdated item => some item.id
  | .itemCompleted item => some item.id
  | .append item _ _ => some item
  | .itemRemoved item => some item
  | _ => none

def touched (m : Mirror) (action : Action) : Mirror :=
  match changes action with
  | none => m
  | some item =>
      { m with revs := m.revs.insert item (((m.revs.get? item).getD 0 + 1) % 2 ^ 32) }

def lost (m : Mirror) : Mirror := { m with live := false }

/-- Take one frame of the thread's stream. -/
def take (m : Mirror) : Frame → Mirror × Took
  | .stream (.snapshot cursor state) =>
      ({ state := some state
         cursor := some cursor
         live := true
         revs := OrdMap.empty
         generation := (m.generation + 1) % 2 ^ 32 }, .moved)
  | .stream (.actions epoch first next actions) =>
      if m.cursor = some ⟨epoch, first⟩ then
        match m.state with
        | none => (m.lost, .gap)
        | some state =>
            ({ actions.foldl touched m with
                state := some (state.applyAll actions)
                cursor := some ⟨epoch, next⟩
                live := true }, .moved)
      else (m.lost, .gap)
  | .page page =>
      match m.state with
      | none => (m, .aside)
      | some state => ({ m with state := some (state.prepend page) }, .moved)
  | .expanded _ _ => (m, .aside)
  | .review _ => (m, .aside)
  | .app => (m, .aside)

end Mirror

/-- What a client asks of the worker's threads. -/
inductive Request where
  | table (held : Option Cursor)
  | follow (thread : ThreadId) (held : Option Cursor) (turns maxLatencyMs : Nat)
  | unfollow (thread : ThreadId)
  | intent (sent : Sent)
  | review (thread : ThreadId) (scope : ReviewScope)
  | expand (thread : ThreadId) (content : ContentRef)
  | page (thread : ThreadId) (before : TurnId) (turns : Nat)

/-- What a frame changed, for the caller to redraw and keep. -/
inductive Changed where
  | nothing
  | thread
  | expanded (content : ContentRef)
  | review
  deriving DecidableEq

/-- A thread as the cache keeps it. -/
structure Cached where
  cursor : Cursor
  state : ThreadState

/-- One worker's threads on this client. -/
structure Threads where
  table : TableState := {}
  /-- A table frame has come since the client started. -/
  heardTable : Bool := false
  mirrors : OrdMap ThreadId Mirror := OrdMap.empty
  outbox : Outbox := {}
  blobs : Blobs := {}
  /-- Each open thread's last review of each scope asked. -/
  reviews : OrdMap ThreadId (List Review) := OrdMap.empty
  /-- Reviews asked for and not come yet. -/
  reviewsAsked : List (ThreadId × ReviewScope) := []
  /-- Expansions asked for and not come yet. -/
  asked : List ContentRef := []
  /-- Pages of older turns asked for and not come yet: the first turn held when each was. -/
  paging : OrdMap ThreadId TurnId := OrdMap.empty
  linked : Bool := false
  outboxChanged : Bool := false

def follow (thread : ThreadId) (mirror : Mirror) : Request :=
  .follow thread mirror.cursor snapshotTurns maxLatencyMs

def Mirror.toCache (mirror : Mirror) : Option Cached :=
  mirror.cursor.bind fun cursor => mirror.state.map fun state => ⟨cursor, state⟩

namespace Threads

/-- Threads with what the cache kept of the outbox. -/
def new (outbox : Outbox) : Threads := { outbox := outbox }

/-- The link came up: what to ask of the worker so everything here catches up. -/
def connected (t : Threads) : Threads × List Request :=
  ({ t with linked := true },
    .table (if t.heardTable then some t.table.cursor else none) ::
      t.mirrors.entries.map (fun m => follow m.1 m.2) ++ t.outbox.sent.map .intent ++
      t.reviewsAsked.map fun r => .review r.1 r.2)

/-- The link went: every mirror shows what it last knew. -/
def disconnected (t : Threads) : Threads :=
  { t with
    linked := false
    asked := []
    paging := OrdMap.empty
    mirrors := t.mirrors.mapVal fun _ m => m.lost }

/-- Open `thread` here, drawn at once from `cached` when the cache kept it. -/
def openThread (t : Threads) (thread : ThreadId) (cached : Option Cached) :
    Threads × Option Request :=
  match t.mirrors.get? thread with
  | some _ => (t, none)
  | none =>
      let mirror := match cached with
        | none => {}
        | some c => Mirror.cached c.state c.cursor
      ({ t with mirrors := t.mirrors.insert thread mirror },
        if t.linked then some (follow thread mirror) else none)

/-- What the cache should keep of `thread`. -/
def toCache (t : Threads) (thread : ThreadId) : Option Cached :=
  (t.mirrors.get? thread).bind Mirror.toCache

/-- Close `thread` here: what it last was, for the cache, and what to send. -/
def closeThread (t : Threads) (thread : ThreadId) : Threads × Option Cached × Option Request :=
  ({ t with
      reviews := t.reviews.erase thread
      reviewsAsked := t.reviewsAsked.filter fun r => r.1 ≠ thread
      paging := t.paging.erase thread
      mirrors := t.mirrors.erase thread },
    t.toCache thread, if t.linked then some (.unfollow thread) else none)

/-- A frame of the table. -/
def tableFrame (t : Threads) (frame : TableFrame) : Threads :=
  { t with table := t.table.apply frame, heardTable := true }

/-- Whether the outbox changed since this was last asked. -/
def takeOutboxChanged (t : Threads) : Threads × Bool :=
  ({ t with outboxChanged := false }, t.outboxChanged)

/-- The mirror of `thread` takes a frame: what changed, and what to send when the stream must start
again from the mirror's cursor. -/
def mirrored (t : Threads) (thread : ThreadId) (frame : Frame) :
    Threads × Changed × List Request :=
  match t.mirrors.get? thread with
  | none => (t, .nothing, [])
  | some mirror =>
      let (mirror, took) := mirror.take frame
      let t := { t with mirrors := t.mirrors.insert thread mirror }
      match took with
      | .moved => (t, .thread, [])
      -- the worker ignores a follow of a thread it streams, so the stream ends first
      | .gap => (t, .nothing, if t.linked then [.unfollow thread, follow thread mirror] else [])
      | .aside => (t, .nothing, [])

/-- A frame of `thread`'s stream. -/
def frame (t : Threads) (thread : ThreadId) : Frame → Threads × Changed × List Request
  | .expanded content body =>
      ({ t with asked := t.asked.erase content, blobs := t.blobs.put content body },
        .expanded content, [])
  | .review review =>
      match t.mirrors.get? thread with
      | none => (t, .nothing, [])
      | some _ =>
          let held := ((t.reviews.get? thread).getD []).filter fun r => r.scope ≠ review.scope
          ({ t with
              reviewsAsked := t.reviewsAsked.filter fun r => ¬(r.1 = thread ∧ r.2 = review.scope)
              reviews := t.reviews.insert thread (held ++ [review]) }, .review, [])
  | .page page => ({ t with paging := t.paging.erase thread }).mirrored thread (.page page)
  | frame => t.mirrored thread frame

/-- The worker's answer to an intent. -/
def done (t : Threads) (id : IntentId) : Threads × Option Sent :=
  match t.outbox.answered id with
  | (_, none) => (t, none)
  | (outbox, some sent) => ({ t with outbox := outbox, outboxChanged := true }, some sent)

/-- Ask `thread` to do `intent` under `id`: what to send now. -/
def intentAs (t : Threads) (id : IntentId) (thread : ThreadId) (intent : Intent) :
    Threads × Option Request :=
  let sent : Sent := ⟨id, thread, intent⟩
  ({ t with outbox := t.outbox.push sent, outboxChanged := true },
    if t.linked then some (.intent sent) else none)

/-- Whether this client already asked anything under `id`. -/
def hasAsked (t : Threads) (id : IntentId) : Bool := t.outbox.sent.any (·.id == id)

/-- What to send to see what `thread` changed over `scope`; asked again on every link until the
answer comes. -/
def askReview (t : Threads) (thread : ThreadId) (scope : ReviewScope) :
    Threads × Option Request :=
  match t.mirrors.get? thread with
  | none => (t, none)
  | some _ =>
      ({ t with
          reviewsAsked :=
            if (thread, scope) ∈ t.reviewsAsked then t.reviewsAsked
            else t.reviewsAsked ++ [(thread, scope)] },
        if t.linked then some (.review thread scope) else none)

/-- What to send to fetch the whole of `content`: nothing when it is held, on its way, or the link
is down. -/
def expand (t : Threads) (thread : ThreadId) (content : ContentRef) : Threads × Option Request :=
  if !t.linked then (t, none)
  else
    match t.blobs.get content with
    | (blobs, some _) => ({ t with blobs := blobs }, none)
    | (blobs, none) =>
        if content ∈ t.asked then ({ t with blobs := blobs }, none)
        else
          ({ t with blobs := blobs, asked := content :: t.asked },
            some (.expand thread content))

/-- Ask for the turns of `thread` before the first one held. -/
def page (t : Threads) (thread : ThreadId) (turns : Nat) : Threads × Option Request :=
  match (t.mirrors.get? thread).bind Mirror.state with
  | none => (t, none)
  | some state =>
      match state.turns.head? with
      | none => (t, none)
      | some first =>
          if !state.older || !t.linked || t.paging.get? thread == some first.id then (t, none)
          else
            ({ t with paging := t.paging.insert thread first.id },
              some (.page thread first.id turns))

/-- What the app does with a worker's threads: what the link brings, and what the views ask. -/
inductive Op where
  | connected
  | disconnected
  | openThread (thread : ThreadId) (cached : Option Cached)
  | closeThread (thread : ThreadId)
  | toCache (thread : ThreadId)
  | table (frame : TableFrame)
  | frame (thread : ThreadId) (frame : Frame)
  | takeOutboxChanged
  | done (id : IntentId)
  | intentAs (id : IntentId) (thread : ThreadId) (intent : Intent)
  | askReview (thread : ThreadId) (scope : ReviewScope)
  | expand (thread : ThreadId) (content : ContentRef)
  | page (thread : ThreadId) (turns : Nat)

def step (t : Threads) : Op → Threads
  | .connected => t.connected.1
  | .disconnected => t.disconnected
  | .openThread thread cached => (t.openThread thread cached).1
  | .closeThread thread => (t.closeThread thread).1
  | .toCache _ => t
  | .table frame => t.tableFrame frame
  | .frame thread frame => (t.frame thread frame).1
  | .takeOutboxChanged => t.takeOutboxChanged.1
  | .done id => (t.done id).1
  | .intentAs id thread intent => (t.intentAs id thread intent).1
  | .askReview thread scope => (t.askReview thread scope).1
  | .expand thread content => (t.expand thread content).1
  | .page thread turns => (t.page thread turns).1

/-- What an operation gives the cache to keep of `thread`. -/
def keeps (t : Threads) (thread : ThreadId) : Op → List Cached
  | .closeThread closed => if closed = thread then (t.toCache thread).toList else []
  | .toCache kept => if kept = thread then (t.toCache thread).toList else []
  | _ => []

theorem mirrored_get? (c : Threads) (t thread : ThreadId) (f : Frame) (mirror : Mirror)
    (h : (c.mirrored thread f).1.mirrors.get? t = some mirror) :
    c.mirrors.get? t = some mirror ∨
      thread = t ∧ ∃ was, c.mirrors.get? t = some was ∧ mirror = (was.take f).1 := by
  rw [mirrored] at h
  cases hwas : c.mirrors.get? thread with
  | none =>
    rw [hwas] at h
    exact .inl h
  | some was =>
    rw [hwas] at h
    have hinsert : (c.mirrors.insert thread (was.take f).1).get? t = some mirror := by
      dsimp only at h
      cases hto : (was.take f).2 <;> rw [hto] at h <;> exact h
    rw [OrdMap.get?_insert] at hinsert
    split at hinsert
    · rename_i heq
      rw [heq]
      exact .inr ⟨rfl, was, heq ▸ hwas, (Option.some.inj hinsert).symm⟩
    · exact .inl hinsert

theorem done_mirrors (c : Threads) (id : IntentId) : (c.done id).1.mirrors = c.mirrors := by
  unfold done
  split <;> rfl

theorem askReview_mirrors (c : Threads) (thread : ThreadId) (scope : ReviewScope) :
    (c.askReview thread scope).1.mirrors = c.mirrors := by
  unfold askReview
  split <;> rfl

theorem expand_mirrors (c : Threads) (thread : ThreadId) (content : ContentRef) :
    (c.expand thread content).1.mirrors = c.mirrors := by
  unfold expand
  split
  · rfl
  · split
    · rfl
    · split <;> rfl

theorem page_mirrors (c : Threads) (thread : ThreadId) (turns : Nat) :
    (c.page thread turns).1.mirrors = c.mirrors := by
  unfold page
  split
  · rfl
  · split
    · rfl
    · split <;> rfl

theorem openThread_get? (c : Threads) (t thread : ThreadId) (cached : Option Cached)
    (mirror : Mirror) (h : (c.openThread thread cached).1.mirrors.get? t = some mirror) :
    c.mirrors.get? t = some mirror ∨
      thread = t ∧ mirror = cached.elim {} fun kept => Mirror.cached kept.state kept.cursor := by
  unfold openThread at h
  split at h
  · exact .inl h
  · dsimp only at h
    rw [OrdMap.get?_insert] at h
    split at h
    · rename_i heq
      refine .inr ⟨heq, ?_⟩
      rw [← Option.some.inj h]
      cases cached <;> rfl
    · exact .inl h

/-- What a mirror is after an operation: what it was, or that gone stale, a new one, one the cache
gave back, or what a frame made of it. -/
theorem step_mirror {P : Mirror → Prop} {c : Threads} {t : ThreadId} {op : Op}
    (h : ∀ mirror, c.mirrors.get? t = some mirror → P mirror)
    (hlost : ∀ mirror, P mirror → P mirror.lost) (hnew : P {})
    (hcached : ∀ cached, op = .openThread t (some cached) →
      P (Mirror.cached cached.state cached.cursor))
    (htake : ∀ mirror f, op = .frame t f → P mirror → P (mirror.take f).1) :
    ∀ mirror, (c.step op).mirrors.get? t = some mirror → P mirror := by
  intro mirror hmirror
  have hframe : ∀ (d : Threads) (thread : ThreadId) (f : Frame), d.mirrors = c.mirrors →
      op = .frame thread f → (d.mirrored thread f).1.mirrors.get? t = some mirror →
      P mirror := by
    rintro d thread f hsame rfl hgot
    rcases d.mirrored_get? t thread f mirror hgot with hold | ⟨rfl, was, hwas, rfl⟩
    · exact h mirror (hsame ▸ hold)
    · exact htake was f rfl (h was (hsame ▸ hwas))
  cases op with
  | disconnected =>
    rw [step, disconnected] at hmirror
    dsimp only at hmirror
    rw [OrdMap.get?_mapVal] at hmirror
    obtain ⟨was, hwas, rfl⟩ := Option.map_eq_some_iff.mp hmirror
    exact hlost was (h was hwas)
  | openThread thread cached =>
    rcases c.openThread_get? t thread cached mirror hmirror with hold | ⟨rfl, rfl⟩
    · exact h mirror hold
    · cases cached with
      | none => exact hnew
      | some kept => exact hcached kept rfl
  | closeThread thread =>
    rw [step, closeThread] at hmirror
    dsimp only at hmirror
    rw [OrdMap.get?_erase] at hmirror
    split at hmirror
    · cases hmirror
    · exact h mirror hmirror
  | frame thread f =>
    cases f with
    | stream f => exact hframe c thread _ rfl rfl hmirror
    | page page => exact hframe { c with paging := c.paging.erase thread } thread _ rfl rfl hmirror
    | expanded content body => exact h mirror hmirror
    | review review =>
      rw [step, frame] at hmirror
      cases hheld : c.mirrors.get? thread with
      | none =>
        rw [hheld] at hmirror
        exact h mirror hmirror
      | some was =>
        rw [hheld] at hmirror
        exact h mirror hmirror
    | app => exact hframe c thread _ rfl rfl hmirror
  | connected => exact h mirror hmirror
  | toCache thread => exact h mirror hmirror
  | table f => exact h mirror hmirror
  | takeOutboxChanged => exact h mirror hmirror
  | intentAs id thread intent => exact h mirror hmirror
  | done id => exact h mirror (c.done_mirrors id ▸ hmirror)
  | askReview thread scope => exact h mirror (c.askReview_mirrors thread scope ▸ hmirror)
  | expand thread content => exact h mirror (c.expand_mirrors thread content ▸ hmirror)
  | page thread turns => exact h mirror (c.page_mirrors thread turns ▸ hmirror)

end Threads

end Slopty.Thread.Client
