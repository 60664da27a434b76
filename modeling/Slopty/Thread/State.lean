import Slopty.Lib.OrdMap
import Slopty.Lib.Places
import Slopty.Lib.Text
import Mathlib.Data.String.Basic
import Mathlib.Tactic.DeriveCountable

/-!
A thread's state and the one way it changes: the worker keeps it and every client mirrors it
with the same reducer.
-/

namespace Slopty.Thread

open Slopty.Lib

abbrev ThreadId := Nat

abbrev TurnId := Nat

abbrev ItemId := String

abbrev WallMs := Nat

structure Cursor where
  epoch : Nat := 0
  seq : Nat := 0
  deriving DecidableEq, Repr, Countable

/-- A text, cut to a cap when it is longer; the counts are of the whole text. -/
structure Clipped where
  text : List Char := []
  lines : Nat := 0
  chars : Nat := 0
  full : Option String := none
  deriving DecidableEq, Repr, Countable

/-- A text's lines as `str::lines` counts them: a last line without its end counts. -/
def lineCount (text : List Char) : Nat :=
  text.count '\n' + if text = [] ∨ text.getLast? = some '\n' then 0 else 1

namespace Clipped

def whole (text : List Char) : Clipped :=
  { text := text, lines := lineCount text, chars := text.length }

/-- `more` at the end, counted as if the two had come as one. -/
def append (c : Clipped) (more : List Char) : Clipped :=
  if more = [] then c
  else
    let joins := decide (c.text ≠ [] ∧ c.text.getLast? ≠ some '\n')
    { c with
      lines := c.lines + (lineCount more - joins.toNat)
      chars := c.chars + more.length
      text := c.text ++ more }

end Clipped

structure Link where
  thread : ThreadId
  item : ItemId
  deriving DecidableEq, Repr, Countable

/-- What a thread is; `said` is what nothing here looks into. -/
structure ThreadMeta where
  id : ThreadId
  cwd : String := ""
  parent : Option Link := none
  facts : OrdMap String String := OrdMap.empty
  said : String := ""
  deriving DecidableEq, Countable

inductive Phase where
  | idle
  | working
  | waiting
  | needsYou
  | done
  | failed
  | stopped
  deriving DecidableEq, Repr, Countable

structure Status where
  phase : Phase := .idle
  said : String := ""
  deriving DecidableEq, Repr, Countable

inductive TurnState where
  | active
  | complete
  | interrupted
  | failed (error : String)
  deriving DecidableEq, Repr, Countable

abbrev Usage := OrdMap String Nat

structure Turn where
  id : TurnId
  state : TurnState
  startedMs : WallMs
  endedMs : Option WallMs
  usage : Usage
  said : String := ""
  deriving DecidableEq, Countable

inductive ToolState where
  | streaming
  | pending (ask : String)
  | running
  | completed
  | failed
  | rejected
  | cancelled
  deriving DecidableEq, Repr, Countable

namespace ToolState

def isFinal : ToolState → Bool
  | completed | failed | rejected | cancelled => true
  | _ => false

def mayBecome (s next : ToolState) : Bool :=
  if s.isFinal then false
  else match s, next with
    | streaming, _ => true
    | _, streaming => false
    | _, _ => true

end ToolState

structure ToolCall where
  title : String := ""
  input : Clipped := {}
  state : ToolState
  output : Option Clipped := none
  said : String := ""
  deriving DecidableEq, Repr, Countable

inductive ItemBody where
  | user (text : Clipped) (said : String)
  | text (text : Clipped)
  | reasoning (text : Clipped)
  | tool (call : ToolCall)
  | compaction (said : String)
  | notice (kind : String) (text : Clipped) (said : String)
  | review (entered : Bool)
  | task (said : String)
  | extra (kind : String) (json : Clipped)
  deriving DecidableEq, Repr, Countable

structure Item where
  id : ItemId
  turn : TurnId
  atMs : WallMs
  body : ItemBody
  deriving DecidableEq, Repr, Countable

structure CallNote where
  elapsedMs : Option Nat := none
  ranMs : Option Nat := none
  atMs : WallMs
  task : Option String := none
  retry : Option String := none
  said : Option String := none
  title : Option String := none
  deriving DecidableEq, Repr, Countable

def CallNote.over (note had : CallNote) : CallNote :=
  { note with
    ranMs := note.ranMs.or had.ranMs
    task := note.task.or had.task
    said := note.said.or had.said
    title := note.title.or had.title }

inductive PartKey where
  | body
  | input
  | output
  deriving DecidableEq, Repr, Countable

inductive Action where
  | threadMeta (m : ThreadMeta)
  | status (s : Status)
  | turnStarted (turn : Turn)
  | turnEnded (turn : TurnId) (state : TurnState) (usage : Usage) (endedMs : WallMs)
  | itemStarted (item : Item)
  | append (item : ItemId) (part : PartKey) (text : List Char)
  | itemUpdated (item : Item)
  | itemCompleted (item : Item)
  | itemRemoved (item : ItemId)
  | queuedSet (queued : List String)
  | planSet (plan : Option String)
  | tasksSet (tasks : List String)
  | truncated (after : Option TurnId)
  | screensSet (screens : List String)
  | seen (turn : TurnId)
  | draftSet (draft : Option String)
  | nameSet (name : String)
  | callNoted (item : ItemId) (note : CallNote)
  | lease (at' : WallMs)
  deriving DecidableEq, Countable

structure ThreadState where
  threadMeta : ThreadMeta
  status : Status := {}
  turns : List Turn := []
  items : List Item := []
  /-- There are turns before the first one here. -/
  older : Bool := false
  plan : Option String := none
  tasks : List String := []
  screens : List String := []
  seen : TurnId := 0
  draft : Option String := none
  queued : List String := []
  named : String := ""
  leaseMs : Option WallMs := none
  calls : OrdMap ItemId CallNote := OrdMap.empty
  deriving DecidableEq, Countable

/-- `binary_search_by_key` over turns in order: where the turn is, or where it would go. -/
def searchTurn (turns : List Turn) (id : TurnId) : Except Nat Nat :=
  let at' := (turns.takeWhile fun t => decide (t.id < id)).length
  match turns[at']? with
  | some t => if t.id = id then .ok at' else .error at'
  | none => .error at'

/-- A tool call that is over stays over under an update. -/
def holdFinal (old new : Item) : Item :=
  match old.body, new.body with
  | .tool was, .tool now =>
      if was.state ≠ now.state ∧ was.state.mayBecome now.state = false then
        { new with body := .tool { now with state := was.state } }
      else new
  | _, _ => new

def appendBody (body : ItemBody) (part : PartKey) (text : List Char) : ItemBody :=
  match body, part with
  | .text c, .body => .text (c.append text)
  | .reasoning c, .body => .reasoning (c.append text)
  | .user c said, .body => .user (c.append text) said
  | .notice kind c said, .body => .notice kind (c.append text) said
  | .tool call, .input => .tool { call with input := call.input.append text }
  | .tool call, .output => .tool { call with output := some ((call.output.getD {}).append text) }
  | body, _ => body

namespace ThreadState

/-- A thread nothing was said in yet. -/
def new (threadMeta : ThreadMeta) : ThreadState := { threadMeta := threadMeta }

def itemIndex (s : ThreadState) (id : ItemId) : Option Nat :=
  rposition (fun i => decide (i.id = id)) s.items

def item (s : ThreadState) (id : ItemId) : Option Item :=
  (s.itemIndex id).bind fun at' => s.items[at']?

def putTurn (s : ThreadState) (turn : Turn) : ThreadState :=
  match searchTurn s.turns turn.id with
  | .ok at' => { s with turns := s.turns.set at' turn }
  | .error at' => { s with turns := s.turns.insertIdx at' turn }

def putItem (s : ThreadState) (item : Item) : ThreadState :=
  match s.itemIndex item.id with
  | some at' => { s with items := s.items.set at' item }
  | none => { s with items := s.items ++ [item] }

def keepCalls (s : ThreadState) : ThreadState :=
  { s with calls := s.calls.retain fun id _ => s.items.any fun i => decide (i.id = id) }

def apply (s : ThreadState) : Action → ThreadState
  | .threadMeta m => { s with threadMeta := m }
  | .status status => { s with status := status }
  | .turnStarted turn => s.putTurn turn
  | .turnEnded turn state usage endedMs =>
      match searchTurn s.turns turn with
      | .ok at' =>
          { s with
            turns := s.turns.modify at' fun t =>
              { t with state := state, usage := usage, endedMs := some endedMs } }
      | .error _ => s
  | .itemStarted item => s.putItem item
  | .itemCompleted item => s.putItem item
  | .itemUpdated item =>
      match s.item item.id with
      | some old => s.putItem (holdFinal old item)
      | none => s.putItem item
  | .append item part text =>
      match s.itemIndex item with
      | some at' =>
          { s with items := s.items.modify at' fun i => { i with body := appendBody i.body part text } }
      | none => s
  | .itemRemoved item =>
      match s.itemIndex item with
      | some at' => { s with items := s.items.eraseIdx at', calls := s.calls.erase item }
      | none => { s with calls := s.calls.erase item }
  | .queuedSet queued => { s with queued := queued }
  | .planSet plan => { s with plan := plan }
  | .tasksSet tasks => { s with tasks := tasks }
  | .truncated after =>
      let kept := fun turn : TurnId => after.any fun last => decide (turn ≤ last)
      keepCalls { s with
        turns := s.turns.filter fun t => kept t.id
        items := s.items.filter fun i => kept i.turn }
  | .screensSet screens => { s with screens := screens }
  | .seen turn => { s with seen := max s.seen turn }
  | .draftSet draft => { s with draft := draft }
  | .nameSet name => { s with named := name }
  | .lease at' => { s with leaseMs := some (s.leaseMs.elim at' fun had => max had at') }
  | .callNoted item note =>
      match s.itemIndex item with
      | some _ =>
          let note := (s.calls.get? item).elim note fun had => note.over had
          { s with calls := s.calls.insert item note }
      | none => s

def applyAll (s : ThreadState) (actions : List Action) : ThreadState := actions.foldl apply s

/-- The state cut to its last `turns` turns: what a snapshot carries. -/
def window (s : ThreadState) (turns : Nat) : ThreadState :=
  let skip := s.turns.length - turns
  if skip = 0 then s
  else
    let from' := (s.turns[skip]?).elim (2 ^ 32 - 1) Turn.id
    { keepCalls { s with
        turns := s.turns.drop skip
        items := s.items.filter fun i => decide (from' ≤ i.turn) } with
      older := true }

theorem applyAll_append (s : ThreadState) (xs ys : List Action) :
    s.applyAll (xs ++ ys) = (s.applyAll xs).applyAll ys :=
  List.foldl_append ..

end ThreadState

end Slopty.Thread
