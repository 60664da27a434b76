import Slopty.Lib.OrdMap
import Slopty.Lib.Run
import Mathlib.Data.List.MinMax
import Mathlib.Data.Prod.Lex
import Mathlib.Data.String.Basic

/-!
Verbs done once per idempotency key. The first call under a key runs the verb on a task of its own;
a repeat answers what the first did, or waits for it. The table holds so many keys, each for a
lifetime after its answer; when it is full the key answered longest ago goes, and a key still
running never does.
-/

namespace Slopty.Orchestrate

open Slopty.Lib

abbrev IdempotencyKey := String

inductive ErrorCode where
  | invalid
  | failed
  deriving DecidableEq, Repr

/-- A verb's answer: an error, or one of the others. -/
inductive Outcome (α : Type) where
  | answer (a : α)
  | error (code : ErrorCode) (message : String)
  deriving DecidableEq

def IdempotencyKey.reused {α : Type} (key : IdempotencyKey) : Outcome α :=
  .error .invalid ("idempotency key " ++ key.quote ++
    " was used with other arguments; a new call takes a new key")

def lost {α : Type} : Outcome α :=
  .error .failed "the verb's first attempt ended without an answer"

def full {α : Type} : Outcome α :=
  .error .failed "too many keyed verbs are running on this worker; try again shortly"

/-- How far the task of a verb is. -/
inductive Phase (α : Type) where
  | running
  /-- The effect is over and its slot says so; its callers do not have the outcome yet. -/
  | finished (outcome : Outcome α)
  | sent (outcome : Outcome α)
  /-- It ended without an answer. -/
  | dead

structure Started (V α : Type) where
  key : IdempotencyKey
  verb : V
  phase : Phase α

structure Slot (D : Type) where
  /-- The verb's arguments, hashed. -/
  digest : D
  /-- The task whose answer it carries. -/
  run : Nat
  /-- When the answer came. -/
  answered : Option Nat

/-- What a key finds in the table. -/
inductive Claim where
  | run (r : Nat)
  | wait (r : Nat)
  | reused
  | full
  deriving DecidableEq

/-- The task whose answer a call waits for. -/
def Claim.awaits : Claim → Option Nat
  | .run r => some r
  | .wait r => some r
  | _ => none

/-- A call of `run`, and its answer once it has one. -/
structure Caller (V α : Type) where
  key : IdempotencyKey
  verb : V
  /-- `none` when the verb could not be encoded. -/
  claim : Option Claim
  answer : Option (Outcome α)

structure Ledger (V D α : Type) where
  capacity : Nat
  lifetime : Nat
  now : Nat := 0
  slots : OrdMap IdempotencyKey (Slot D) := OrdMap.empty
  /-- Every verb started, in order. -/
  runs : List (Started V α) := []
  callers : List (Caller V α) := []

inductive LedgerStep (V α : Type) where
  /-- The caller read the clock so long before it had the table; `rank` is the order in which the
  table is walked. -/
  | call (key : IdempotencyKey) (verb : V) (ago : Nat) (rank : IdempotencyKey → Nat)
  | finish (r : Nat) (outcome : Outcome α)
  | send (r : Nat)
  | die (r : Nat)
  | wake (c : Nat)
  | advance (time : Nat)

namespace Ledger

variable {V D α : Type}

def new (capacity lifetime : Nat) : Ledger V D α := { capacity := max capacity 1, lifetime := lifetime }

/-- The task of a run is over. -/
def closed (s : Ledger V D α) (r : Nat) : Bool :=
  match (s.runs[r]?).map Started.phase with
  | some (.sent _) => true
  | some .dead => true
  | _ => false

/-- Past its lifetime, or its task ended without an answer. -/
def lapsed (s : Ledger V D α) (slot : Slot D) (now : Nat) : Bool :=
  match slot.answered with
  | some time => decide (s.lifetime ≤ now - time)
  | none => s.closed slot.run

/-- The key answered longest ago, the first of them in the order the table is walked. -/
def oldest (rank : IdempotencyKey → Nat) (slots : OrdMap IdempotencyKey (Slot D)) :
    Option IdempotencyKey :=
  ((slots.entries.filter fun e => e.2.answered.isSome).argmin fun e =>
    toLex (e.2.answered.getD 0, rank e.1)).map Prod.fst

/-- Drop every lapsed slot, else the one answered longest ago; false when all still run. -/
def makeRoom (s : Ledger V D α) (now : Nat) (rank : IdempotencyKey → Nat) :
    OrdMap IdempotencyKey (Slot D) × Bool :=
  let kept := s.slots.retain fun _ slot => !s.lapsed slot now
  if kept.size < s.slots.size then (kept, true)
  else
    match oldest rank kept with
    | some key => (kept.erase key, true)
    | none => (kept, false)

/-- Take the key's slot and start the verb. -/
def start (s : Ledger V D α) (slots : OrdMap IdempotencyKey (Slot D)) (key : IdempotencyKey)
    (digest : D) (verb : V) : Ledger V D α × Claim :=
  ({ s with
      slots := slots.insert key { digest := digest, run := s.runs.length, answered := none }
      runs := s.runs ++ [{ key := key, verb := verb, phase := .running }] }, .run s.runs.length)

def claim [DecidableEq D] (s : Ledger V D α) (key : IdempotencyKey) (digest : D) (verb : V)
    (now : Nat) (rank : IdempotencyKey → Nat) : Ledger V D α × Claim :=
  match (s.slots.get? key).filter fun slot => !s.lapsed slot now with
  | some slot => (s, if slot.digest = digest then .wait slot.run else .reused)
  | none =>
      if s.capacity ≤ s.slots.size then
        match s.makeRoom now rank with
        | (slots, false) => ({ s with slots := slots }, .full)
        | (slots, true) => s.start slots key digest verb
      else s.start s.slots key digest verb

def call [DecidableEq D] (digest : V → Except String D) (s : Ledger V D α) (key : IdempotencyKey)
    (verb : V) (ago : Nat) (rank : IdempotencyKey → Nat) : Ledger V D α :=
  match digest verb with
  | .error e =>
      { s with callers := s.callers ++ [⟨key, verb, none, some (.error .invalid e)⟩] }
  | .ok d =>
      let claimed := s.claim key d verb (s.now - ago) rank
      let answer := match claimed.2 with
        | .run _ => none
        | .wait _ => none
        | .reused => some key.reused
        | .full => some full
      { claimed.1 with callers := s.callers ++ [⟨key, verb, some claimed.2, answer⟩] }

def setPhase (s : Ledger V D α) (r : Nat) (phase : Phase α) : Ledger V D α :=
  { s with runs := s.runs.modify r fun run => { run with phase := phase } }

def answered (s : Ledger V D α) (key : IdempotencyKey) : Ledger V D α :=
  match s.slots.get? key with
  | some slot => { s with slots := s.slots.insert key { slot with answered := some s.now } }
  | none => s

/-- The answer the channel of a run carries, once it does. -/
def answer (s : Ledger V D α) (r : Nat) : Option (Outcome α) :=
  match (s.runs[r]?).map Started.phase with
  | some (.sent outcome) => some outcome
  | some .dead => some lost
  | _ => none

def wakeCaller (s : Ledger V D α) (c : Caller V α) : Caller V α :=
  match c.answer, c.claim.bind Claim.awaits with
  | none, some r => { c with answer := s.answer r }
  | _, _ => c

def step [DecidableEq D] (digest : V → Except String D) (s : Ledger V D α) :
    LedgerStep V α → Ledger V D α
  | .call key verb ago rank => s.call digest key verb ago rank
  | .finish r outcome =>
      match s.runs[r]? with
      | some ⟨key, _, .running⟩ => (s.answered key).setPhase r (.finished outcome)
      | _ => s
  | .send r =>
      match s.runs[r]? with
      | some ⟨_, _, .finished outcome⟩ => s.setPhase r (.sent outcome)
      | _ => s
  | .die r =>
      match s.runs[r]? with
      | some ⟨_, _, .running⟩ => s.setPhase r .dead
      | _ => s
  | .wake c => { s with callers := s.callers.modify c s.wakeCaller }
  | .advance time => { s with now := s.now + time }

/-- The key's slot carries this run, and has not lapsed. -/
def Lives (s : Ledger V D α) (key : IdempotencyKey) (r : Nat) : Prop :=
  ∃ slot, s.slots.get? key = some slot ∧ slot.run = r ∧ s.lapsed slot s.now = false

def isRunning (s : Ledger V D α) (r : Nat) : Prop :=
  (s.runs[r]?).map Started.phase = some .running

def starts (s : Ledger V D α) (key : IdempotencyKey) : Nat := s.runs.countP (·.key = key)

/-- Keyed verbs run at most once. -/
structure Guarded [DecidableEq D] (digest : V → Except String D) (s : Ledger V D α) : Prop where
  /-- The table never holds more than its capacity. -/
  room : s.slots.size ≤ s.capacity
  /-- A verb that runs has its slot. -/
  running : ∀ r run, s.runs[r]? = some run → run.phase = .running →
    ∃ slot, s.slots.get? run.key = some slot ∧ slot.run = r
  /-- Only an answered slot is dropped before it lapses, and only for room in a full table. -/
  stays : ∀ st key r, s.Lives key r →
    (∃ slot, (s.step digest st).slots.get? key = some slot ∧ slot.run = r) ∨
      s.capacity ≤ s.slots.size ∧ ¬ s.isRunning r ∧ ∃ key' verb ago rank, st = .call key' verb ago rank
  /-- While the slot lives, its key starts nothing again. -/
  once : ∀ key r steps, EachStep (step digest) (fun s _ => s.Lives key r) s steps →
    (steps.foldl (step digest) s).starts key = s.starts key
  /-- A repeat waits for the run; one with other arguments is refused as reused. -/
  repeated : ∀ key r, s.Lives key r → ∃ run, s.runs[r]? = some run ∧ run.key = key ∧
    ∀ verb ago rank d, digest verb = .ok d →
      (verb = run.verb → (s.call digest key verb ago rank).callers =
        s.callers ++ [⟨key, verb, some (.wait r), none⟩]) ∧
      (verb ≠ run.verb → (s.call digest key verb ago rank).callers =
        s.callers ++ [⟨key, verb, some .reused, some key.reused⟩])
  /-- A call that waits for a run is of its key and arguments, and is told its outcome. -/
  told : ∀ c ∈ s.callers, ∀ r, c.claim.bind Claim.awaits = some r →
    ∃ run, s.runs[r]? = some run ∧ run.key = c.key ∧ run.verb = c.verb ∧
      ∀ outcome, c.answer = some outcome →
        run.phase = .sent outcome ∨ run.phase = .dead ∧ outcome = lost
  /-- Once a run has an outcome, whoever waits for it is told it. -/
  wakes : ∀ i c r outcome, s.callers[i]? = some c → c.claim.bind Claim.awaits = some r →
    c.answer = none → (s.runs[r]?).map Started.phase = some (.sent outcome) →
      ((s.step digest (.wake i)).callers[i]?).bind Caller.answer = some outcome
  /-- A new key is refused as full only when every slot is still running. -/
  fullOnly : ∀ key d verb now rank, (s.claim key d verb now rank).2 = .full →
    ∀ key' slot, s.slots.get? key' = some slot → s.isRunning slot.run

end Ledger

end Slopty.Orchestrate
