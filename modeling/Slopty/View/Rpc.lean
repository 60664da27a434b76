import Slopty.Lib.OrdMap
import Slopty.Lib.Run
import Slopty.Lib.Text
import Mathlib.Data.List.Perm.Basic
import Mathlib.Logic.Function.Basic

/-!
The calls the shell makes of its view model: requests and streams multiplexed over one pair of
channels, each frame carrying the number of the request it belongs to. Whatever the order in which
calls are made, dropped, served and read, nobody is told what was meant for another.

A value is one of `V`, or none for null.
-/

namespace Slopty.View.Rpc

open Slopty.Lib

/-- Why a call failed. -/
inductive RpcError where
  | unknownMethod (method : Text)
  | badParams (why : Text)
  | failed (why : Text)
  | transport (why : Text)
  | closed
  deriving DecidableEq

def unknownWords : Text := "unknown method: ".toList

/-- Its words on the wire. -/
def RpcError.words : RpcError → Text
  | unknownMethod method => unknownWords ++ method
  | badParams why => "bad params: ".toList ++ why
  | failed why => why
  | transport why => "transport: ".toList ++ why
  | closed => "connection closed".toList

/-- The words of an error read back. -/
def wireError (words : Text) : RpcError :=
  if unknownWords.isPrefixOf words then .unknownMethod (words.drop unknownWords.length)
  else .failed words

variable (V : Type)

/-- A request with its parameters, or the end of one. -/
structure ClientFrame where
  id : Nat
  method : Option Text := none
  params : Option V := none
  cancel : Bool := false

/-- As it is read: null is a value as an answer, and no item of a stream. -/
structure ServerFrame where
  id : Nat
  ok : Option (Option V) := none
  err : Option Text := none
  item : Option V := none
  done : Bool := false

/-- What waits on frames of a number: a call, or a stream and whether it waits to be ready. -/
inductive Pending where
  | call
  | stream
  | checkedStream (ready : Bool)
  deriving DecidableEq

/-- What was said to who made a request: to a call its answer, to a stream that it is ready, and
its items. -/
structure Told where
  answers : List (Except RpcError (Option V)) := []
  ready : List (Except RpcError Unit) := []
  items : List V := []

structure Client where
  nextId : Nat := 1
  pending : OrdMap Nat Pending := .empty
  told : Nat → Told V := fun _ => {}
  /-- The streams nobody listens to any more. -/
  gone : List Nat := []
  /-- The item the reader waits to queue for its stream. -/
  held : Option (Nat × V) := none

variable {V}

def Told.answer (t : Told V) (answer : Except RpcError (Option V)) : Told V :=
  { t with answers := t.answers ++ [answer] }

def Told.readied (t : Told V) (ready : Except RpcError Unit) : Told V :=
  { t with ready := t.ready ++ [ready] }

def Told.queued (t : Told V) (item : V) : Told V := { t with items := t.items ++ [item] }

namespace Client

variable (c : Client V)

def tell (id : Nat) (say : Told V → Told V) : Client V :=
  { c with told := Function.update c.told id (say (c.told id)) }

def forget (id : Nat) : Client V := { c with pending := c.pending.erase id }

/-- Whoever waits to hear of a number is told why it will not. -/
def fail (id : Nat) (e : RpcError) : Client V :=
  match c.pending.get? id with
  | some .call => (c.forget id).tell id (·.answer (.error e))
  | some (.checkedStream true) => (c.forget id).tell id (·.readied (.error e))
  | _ => c.forget id

/-- A stream that waits to be ready is. -/
def ready (id : Nat) : Client V :=
  match c.pending.get? id with
  | some (.checkedStream true) =>
      { c with pending := c.pending.insert id (.checkedStream false) }.tell id (·.readied (.ok ()))
  | _ => c

/-- A frame goes to who waits on its number. -/
def routeFrame (f : ServerFrame V) : Client V :=
  match f.err, f.ok, f.item with
  | some words, _, _ => c.fail f.id (wireError words)
  | none, some value, _ =>
      match c.pending.get? f.id with
      | some .call => (c.forget f.id).tell f.id (·.answer (.ok value))
      | _ => c.ready f.id
  | none, none, some item =>
      match (c.ready f.id).pending.get? f.id with
      | some .stream => { c.ready f.id with held := some (f.id, item) }
      | some (.checkedStream _) => { c.ready f.id with held := some (f.id, item) }
      | _ => c.ready f.id
  | none, none, none =>
      if f.done then
        match c.pending.get? f.id with
        -- what a call waits on is dropped, and the call finds it closed
        | some .call => (c.forget f.id).tell f.id (·.answer (.error .closed))
        | some (.checkedStream true) => (c.forget f.id).tell f.id (·.readied (.ok ()))
        | _ => c.forget f.id
      else c

/-- The connection is gone, and all that waits is told so. -/
def close : Client V :=
  { c with pending := .empty, told := fun id => (c.fail id .closed).told id }

end Client

/-- How a request is made. -/
inductive Kind where
  | call
  | stream
  | checkedStream
  deriving DecidableEq

def Kind.pending : Kind → Pending
  | call => .call
  | stream => .stream
  | checkedStream => .checkedStream true

variable (V) in
structure Request where
  id : Nat
  kind : Kind
  method : Text
  params : Option V

variable (V) in
/-- What the service makes of a request. -/
inductive Reply where
  | value (value : Option V)
  | stream
  | err (e : RpcError)

/-- What a task of the server does: it has the request handled, or sends its stream. -/
inductive Task where
  | handling
  | streaming
  deriving DecidableEq

variable (V) in
/-- The two ends of a connection, what is on its way between them, and what was asked, served and
said so far. -/
structure Link where
  client : Client V := {}
  /-- Frames waiting for room in the channel. -/
  sending : List (ClientFrame V) := []
  toServer : List (ClientFrame V) := []
  running : OrdMap Nat Task := .empty
  toClient : List (ServerFrame V) := []
  /-- The server takes no more frames. -/
  down : Bool := false
  asked : List (Request V) := []
  served : List (Nat × Text × Option V) := []
  replies : OrdMap Nat (Reply V) := .empty
  said : Nat → List (ServerFrame V) := fun _ => []
  read : Nat → List (ServerFrame V) := fun _ => []

def requestFrame (id : Nat) (method : Text) (params : Option V) : ClientFrame V :=
  { id, method := some method, params }

def cancelFrame (id : Nat) : ClientFrame V := { id, cancel := true }

def okFrame (id : Nat) (value : Option V) : ServerFrame V := { id, ok := some value }

def errFrame (id : Nat) (e : RpcError) : ServerFrame V := { id, err := some e.words }

def itemFrame (id : Nat) (item : Option V) : ServerFrame V := { id, item }

def doneFrame (id : Nat) : ServerFrame V := { id, done := true }

namespace Link

variable (l : Link V)

/-- A request takes the next number, and waits to be sent. -/
def ask (kind : Kind) (method : Text) (params : Option V) : Link V :=
  let id := l.client.nextId
  { l with
    client := { l.client with
      nextId := id + 1
      pending := l.client.pending.insert id kind.pending }
    sending := l.sending ++ [requestFrame id method params]
    asked := l.asked ++ [{ id, kind, method, params }] }

/-- One of the frames that wait gets its room, or finds the server gone. -/
def send (at' : Nat) : Link V :=
  match l.sending[at']? with
  | none => l
  | some f =>
      let sent := { l with sending := l.sending.eraseIdx at' }
      if !l.down then { sent with toServer := l.toServer ++ [f] }
      else if f.cancel then sent
      else { sent with client := l.client.fail f.id .closed }

/-- Who was to send a frame is gone before there was room. -/
def abandon (at' : Nat) : Link V := { l with sending := l.sending.eraseIdx at' }

/-- Whether a number is a stream's. -/
def isStream (id : Nat) : Bool := l.asked.any fun r => r.id == id && decide (r.kind ≠ .call)

/-- A stream's listener goes: it takes the stream back (`owned`), at once or once there is room,
or only stops listening. -/
def drop (id : Nat) (owned room : Bool) : Link V :=
  if !l.isStream id then l
  else
    let gone := { l with client := { l.client with gone := l.client.gone ++ [id] } }
    if !owned || (l.client.pending.get? id).isNone then gone
    else
      let taken := { gone with client := gone.client.forget id }
      if l.down then taken
      else if room then { taken with toServer := l.toServer ++ [cancelFrame id] }
      else { taken with sending := l.sending ++ [cancelFrame id] }

/-- The reader takes the next frame. -/
def readFrame : Link V :=
  match l.client.held, l.toClient with
  | none, f :: rest =>
      { l with
        client := l.client.routeFrame f
        toClient := rest
        read := Function.update l.read f.id (l.read f.id ++ [f]) }
  | _, _ => l

/-- The item the reader holds is queued, or found to have no listener: then its stream is
forgotten, and stopped. -/
def queue : Link V :=
  match l.client.held with
  | none => l
  | some (id, item) =>
      let client := { l.client with held := none }
      if l.client.gone.contains id then
        { l with client := client.forget id, sending := l.sending ++ [cancelFrame id] }
      else { l with client := client.tell id (·.queued item) }

/-- The server takes the next frame. -/
def serve : Link V :=
  match l.toServer with
  | [] => l
  | f :: rest =>
      if l.down then l
      else if f.cancel then { l with toServer := rest, running := l.running.erase f.id }
      else
        match f.method with
        | none => { l with toServer := rest }
        | some method =>
            { l with
              toServer := rest
              running := l.running.insert f.id .handling
              served := l.served ++ [(f.id, method, f.params)] }

def say (f : ServerFrame V) : Link V :=
  { l with
    toClient := l.toClient ++ [f]
    said := Function.update l.said f.id (l.said f.id ++ [f]) }

/-- A task is over, or was stopped. -/
def stop (id : Nat) : Link V := { l with running := l.running.erase id }

/-- The service replies to a request. -/
def reply (id : Nat) (r : Reply V) : Link V :=
  if l.running.get? id = some .handling then
    let l := { l with replies := l.replies.insert id r }
    match r with
    | .value value => (l.stop id).say (okFrame id value)
    | .stream => { l with running := l.running.insert id .streaming }
    | .err e => (l.stop id).say (errFrame id e)
  else l

/-- The stream of a request gives an item, or ends. -/
def stream (id : Nat) (item : Option (Option V)) : Link V :=
  if l.running.get? id = some .streaming then
    match item with
    | some item => l.say (itemFrame id item)
    | none => (l.stop id).say (doneFrame id)
  else l

/-- The client finds that nobody is left to say anything. -/
def close : Link V :=
  if l.down && l.client.held.isNone && l.toClient.isEmpty && l.running.keys.isEmpty then
    { l with client := l.client.close }
  else l

end Link

variable (V) in
inductive Step where
  | ask (kind : Kind) (method : Text) (params : Option V)
  | send (at' : Nat)
  | abandon (at' : Nat)
  | drop (id : Nat) (owned room : Bool)
  | read
  | queue
  | serve
  | reply (id : Nat) (r : Reply V)
  | stream (id : Nat) (item : Option (Option V))
  | stop (id : Nat)
  | down
  | close

def Link.step (l : Link V) (st : Step V) : Link V :=
  match st with
  | .ask kind method params => l.ask kind method params
  | .send at' => l.send at'
  | .abandon at' => l.abandon at'
  | .drop id owned room => l.drop id owned room
  | .read => l.readFrame
  | .queue => l.queue
  | .serve => l.serve
  | .reply id r => l.reply id r
  | .stream id item => l.stream id item
  | .stop id => l.stop id
  | .down => { l with down := true }
  | .close => l.close

def run (steps : List (Step V)) : Link V := steps.foldl Link.step {}

/-! ### What one number hears -/

variable (V) in
/-- The client as far as one number goes: what waits on it, what was told, and its items the
reader holds. -/
@[ext] structure Slot where
  pending : Option Pending
  told : Told V
  held : List V

namespace Slot

variable (s : Slot V)

def fail (e : RpcError) : Slot V :=
  match s.pending with
  | some .call => { s with pending := none, told := s.told.answer (.error e) }
  | some (.checkedStream true) => { s with pending := none, told := s.told.readied (.error e) }
  | _ => { s with pending := none }

def ready : Slot V :=
  match s.pending with
  | some (.checkedStream true) =>
      { s with pending := some (.checkedStream false), told := s.told.readied (.ok ()) }
  | _ => s

theorem ready_eq_self {s : Slot V} (h : s.pending ≠ some (.checkedStream true)) : s.ready = s := by
  unfold ready
  split
  · exact absurd ‹_› h
  · rfl

def hold (item : V) : Slot V := { s with held := s.held ++ [item] }

def route (f : ServerFrame V) : Slot V :=
  match f.err, f.ok, f.item with
  | some words, _, _ => s.fail (wireError words)
  | none, some value, _ =>
      match s.pending with
      | some .call => { s with pending := none, told := s.told.answer (.ok value) }
      | _ => s.ready
  | none, none, some item =>
      match s.pending with
      | some .stream => s.hold item
      | some (.checkedStream _) => s.ready.hold item
      | _ => s
  | none, none, none =>
      if f.done then
        match s.pending with
        | some .call => { s with pending := none, told := s.told.answer (.error .closed) }
        | some (.checkedStream true) => { s with pending := none, told := s.told.readied (.ok ()) }
        | _ => { s with pending := none }
      else s

end Slot

namespace Client

variable (c : Client V)

/-- The item the reader holds, if it is one of this number. -/
def heldItems (id : Nat) : List V := (c.held.filter fun h => h.1 == id).toList.map Prod.snd

def slot (id : Nat) : Slot V := ⟨c.pending.get? id, c.told id, c.heldItems id⟩

theorem slot_tell (id : Nat) (say : Told V → Told V) (j : Nat) :
    (c.tell id say).slot j =
      if j = id then { c.slot j with told := say (c.slot j).told } else c.slot j := by
  by_cases hj : j = id
  · subst hj
    rw [if_pos rfl, slot, tell]
    dsimp only
    rw [Function.update_self]
    rfl
  · rw [if_neg hj, slot, tell]
    dsimp only
    rw [Function.update_of_ne hj]
    rfl

theorem slot_forget (id j : Nat) :
    (c.forget id).slot j = if j = id then { c.slot j with pending := none } else c.slot j := by
  by_cases hj : j = id
  · subst hj
    rw [if_pos rfl, slot, forget]
    dsimp only
    rw [OrdMap.get?_erase_self]
    rfl
  · rw [if_neg hj, slot, forget]
    dsimp only
    rw [OrdMap.get?_erase, if_neg hj]
    rfl

/-- A number that is forgotten and told something. -/
theorem slot_forget_tell (id : Nat) (say : Told V → Told V) (j : Nat) :
    ((c.forget id).tell id say).slot j =
      if j = id then { c.slot j with pending := none, told := say (c.slot j).told }
      else c.slot j := by
  by_cases hj : j = id
  · rw [slot_tell, if_pos hj, slot_forget, if_pos hj, if_pos hj]
  · rw [slot_tell, if_neg hj, slot_forget, if_neg hj, if_neg hj]

theorem slot_fail (id : Nat) (e : RpcError) (j : Nat) :
    (c.fail id e).slot j = if j = id then (c.slot j).fail e else c.slot j := by
  by_cases hj : j = id
  · subst hj
    rw [if_pos rfl]
    unfold fail Slot.fail
    rw [show (c.slot j).pending = c.pending.get? j from rfl]
    split
    · rw [slot_forget_tell, if_pos rfl]
    · rw [slot_forget_tell, if_pos rfl]
    · rw [slot_forget, if_pos rfl]
  · rw [if_neg hj]
    unfold fail
    split
    · rw [slot_forget_tell, if_neg hj]
    · rw [slot_forget_tell, if_neg hj]
    · rw [slot_forget, if_neg hj]

theorem slot_ready (id j : Nat) :
    (c.ready id).slot j = if j = id then (c.slot j).ready else c.slot j := by
  unfold ready
  by_cases hj : j = id
  · subst hj
    rw [if_pos rfl]
    unfold Slot.ready
    rw [show (c.slot j).pending = c.pending.get? j from rfl]
    split
    · rw [slot_tell, if_pos rfl, slot]
      dsimp only
      rw [OrdMap.get?_insert_self]
      rfl
    · rfl
  · rw [if_neg hj]
    split
    · rw [slot_tell, if_neg hj, slot]
      dsimp only
      rw [OrdMap.get?_insert, if_neg (Ne.symm hj)]
      rfl
    · rfl

theorem fail_kept (id : Nat) (e : RpcError) :
    (c.fail id e).gone = c.gone ∧ (c.fail id e).nextId = c.nextId ∧
      (c.fail id e).held = c.held := by
  unfold fail
  split <;> exact ⟨rfl, rfl, rfl⟩

theorem ready_kept (id : Nat) :
    (c.ready id).gone = c.gone ∧ (c.ready id).nextId = c.nextId ∧ (c.ready id).held = c.held := by
  unfold ready
  split <;> exact ⟨rfl, rfl, rfl⟩

/-- The item of a frame waits for room in the queue of its number alone. -/
theorem slot_hold {c : Client V} (hheld : c.held = none) (id : Nat) (item : V) (j : Nat) :
    ({ c with held := some (id, item) } : Client V).slot j =
      if j = id then (c.slot j).hold item else c.slot j := by
  have hnone : c.heldItems j = [] := by
    rw [heldItems, hheld]
    rfl
  by_cases hj : j = id
  · subst hj
    rw [if_pos rfl, Slot.hold, slot, slot, hnone, heldItems]
    dsimp only
    rw [Option.filter_some, if_pos (beq_self_eq_true j)]
    rfl
  · rw [if_neg hj, slot, slot, hnone, heldItems]
    dsimp only
    rw [Option.filter_some, if_neg (fun h => hj (beq_iff_eq.mp h).symm)]
    rfl

/-- A frame is heard by its own number, and by no other. -/
theorem slot_routeFrame (hheld : c.held = none) (f : ServerFrame V) (j : Nat) :
    (c.routeFrame f).slot j = if j = f.id then (c.slot j).route f else c.slot j := by
  have hpending : ∀ c : Client V, (c.slot f.id).pending = c.pending.get? f.id := fun _ => rfl
  have hown : (c.routeFrame f).slot f.id = (c.slot f.id).route f := by
    unfold routeFrame Slot.route
    split
    · rw [slot_fail, if_pos rfl]
    · rw [hpending]
      split
      · rw [slot_forget_tell, if_pos rfl]
      · rw [slot_ready, if_pos rfl]
    · have hready : (c.ready f.id).pending.get? f.id = (c.slot f.id).ready.pending := by
        rw [← hpending, slot_ready, if_pos rfl]
      have hholds : ∀ item, ({ c.ready f.id with held := some (f.id, item) } : Client V).slot f.id =
          (c.slot f.id).ready.hold item := by
        intro item
        rw [slot_hold ((ready_kept c f.id).2.2.trans hheld), if_pos rfl, slot_ready, if_pos rfl]
      rw [hready]
      have hself : (c.slot f.id).pending ≠ some (.checkedStream true) →
          (c.ready f.id).slot f.id = c.slot f.id := by
        intro hne
        rw [slot_ready, if_pos rfl, Slot.ready_eq_self hne]
      cases hp : (c.slot f.id).pending with
      | none =>
        have hne : (c.slot f.id).pending ≠ some (.checkedStream true) := by rw [hp]; decide
        rw [Slot.ready_eq_self hne, hp]
        exact hself hne
      | some p =>
        cases p with
        | call =>
          have hne : (c.slot f.id).pending ≠ some (.checkedStream true) := by rw [hp]; decide
          rw [Slot.ready_eq_self hne, hp]
          exact hself hne
        | stream =>
          have hne : (c.slot f.id).pending ≠ some (.checkedStream true) := by rw [hp]; decide
          rw [Slot.ready_eq_self hne, hp]
          exact (hholds _).trans (congrArg (Slot.hold · _) (Slot.ready_eq_self hne))
        | checkedStream waits =>
          have hchecked : (c.slot f.id).ready.pending = some (.checkedStream false) := by
            unfold Slot.ready
            rw [hp]
            cases waits with
            | true => rfl
            | false => exact hp
          rw [hchecked]
          exact hholds _
    · split
      · rw [hpending]
        split
        · rw [slot_forget_tell, if_pos rfl]
        · rw [slot_forget_tell, if_pos rfl]
        · rw [slot_forget, if_pos rfl]
      · rfl
  by_cases hj : j = f.id
  · rw [if_pos hj, hj, hown]
  · rw [if_neg hj]
    unfold routeFrame
    split
    · rw [slot_fail, if_neg hj]
    · split
      · rw [slot_forget_tell, if_neg hj]
      · rw [slot_ready, if_neg hj]
    · split
      · rw [slot_hold ((ready_kept c f.id).2.2.trans hheld), if_neg hj, slot_ready, if_neg hj]
      · rw [slot_hold ((ready_kept c f.id).2.2.trans hheld), if_neg hj, slot_ready, if_neg hj]
      · rw [slot_ready, if_neg hj]
    · split
      · split
        · rw [slot_forget_tell, if_neg hj]
        · rw [slot_forget_tell, if_neg hj]
        · rw [slot_forget, if_neg hj]
      · rfl

theorem routeFrame_kept (f : ServerFrame V) :
    (c.routeFrame f).gone = c.gone ∧ (c.routeFrame f).nextId = c.nextId := by
  obtain ⟨hgone, hnext, -⟩ := ready_kept c f.id
  unfold routeFrame
  split
  · exact ⟨(fail_kept c f.id _).1, (fail_kept c f.id _).2.1⟩
  · split
    · exact ⟨rfl, rfl⟩
    · exact ⟨hgone, hnext⟩
  · split <;> exact ⟨hgone, hnext⟩
  · split
    · split <;> exact ⟨rfl, rfl⟩
    · exact ⟨rfl, rfl⟩

/-- What the reader comes to hold is for a stream that waits. -/
theorem routeFrame_holds {c : Client V} (hheld : c.held = none) {f : ServerFrame V}
    {h : Nat × V} (hholds : (c.routeFrame f).held = some h) :
    h.1 = f.id ∧ (c.slot f.id).pending ≠ none ∧ (c.slot f.id).pending ≠ some .call := by
  have hno : ∀ c' : Client V, c'.held = c.held → c'.held ≠ some h := fun c' hsame hsome =>
    absurd (hsome.symm.trans (hsame.trans hheld)) (Option.some_ne_none _)
  have hready : ∀ p : Option Pending, (c.ready f.id).pending.get? f.id = p →
      (p = some .stream ∨ ∃ waits, p = some (.checkedStream waits)) →
      (c.slot f.id).pending ≠ none ∧ (c.slot f.id).pending ≠ some .call := by
    intro p hp hstream
    have hp' : (c.slot f.id).ready.pending = p := by
      rw [← hp, ← if_pos (rfl : f.id = f.id) (t := (c.slot f.id).ready) (e := c.slot f.id),
        ← slot_ready]
      rfl
    constructor
    · intro hnone
      rw [Slot.ready_eq_self (hnone ▸ (Option.some_ne_none _).symm), hnone] at hp'
      rcases hstream with rfl | ⟨waits, rfl⟩ <;> exact absurd hp' (Option.some_ne_none _).symm
    · intro hcall
      rw [Slot.ready_eq_self (hcall ▸ by decide), hcall] at hp'
      rcases hstream with rfl | ⟨waits, rfl⟩ <;> cases hp'
  unfold routeFrame at hholds
  split at hholds
  · exact absurd hholds (hno _ (fail_kept c f.id _).2.2)
  · split at hholds
    · exact absurd hholds (hno _ rfl)
    · exact absurd hholds (hno _ (ready_kept c f.id).2.2)
  · split at hholds
    · rename_i hp
      exact ⟨(Option.some.inj hholds) ▸ rfl, hready _ hp (.inl rfl)⟩
    · rename_i waits hp
      exact ⟨(Option.some.inj hholds) ▸ rfl, hready _ hp (.inr ⟨waits, rfl⟩)⟩
    · exact absurd hholds (hno _ (ready_kept c f.id).2.2)
  · split at hholds
    · split at hholds
      · exact absurd hholds (hno _ rfl)
      · exact absurd hholds (hno _ rfl)
      · exact absurd hholds (hno _ rfl)
    · exact absurd hholds (hno _ rfl)

end Client

/-! ### What the frames of a number say -/

section Frames

/-- The frames of a number. -/
def framesOf (id : Nat) (frames : List (ServerFrame V)) : List (ServerFrame V) :=
  frames.filter fun f => f.id == id

/-- The items of a stream. -/
def itemsOf (frames : List (ServerFrame V)) : List V := frames.filterMap ServerFrame.item

/-- A frame after which a number says no more. -/
def last (f : ServerFrame V) : Bool :=
  f.err.isSome || f.ok.isSome || (f.item.isNone && f.done)

/-- Not an item that reads as none. -/
def meaningful (f : ServerFrame V) : Bool := last f || f.item.isSome

/-- What a call is told by its last frame. -/
def outcome (f : ServerFrame V) : Except RpcError (Option V) :=
  match f.err, f.ok with
  | some words, _ => .error (wireError words)
  | none, some value => .ok value
  | none, none => .error .closed

/-- What a stream that waits to be ready is told by its first meaningful frame. -/
def acknowledged (f : ServerFrame V) : Except RpcError Unit :=
  match f.err with
  | some words => .error (wireError words)
  | none => .ok ()

/-- What a call is told of what the service made of it. -/
def Reply.outcome : Reply V → Except RpcError (Option V)
  | .value v => .ok v
  | .stream => .error .closed
  | .err e => .error (wireError e.words)

/-- What the task of a request said so far, by what the service made of it. -/
def Says (id : Nat) (task : Option Task) (reply : Option (Reply V))
    (said : List (ServerFrame V)) : Prop :=
  match reply with
  | none => said = [] ∧ task ≠ some .streaming
  | some (.value value) => said = [okFrame id value] ∧ task = none
  | some (.err e) => said = [errFrame id e] ∧ task = none
  | some .stream => task ≠ some .handling ∧ ∃ items : List (Option V),
      said = items.map (itemFrame id) ∨ said = items.map (itemFrame id) ++ [doneFrame id] ∧
        task = none

theorem framesOf_cons_self (f : ServerFrame V) (frames : List (ServerFrame V)) :
    framesOf f.id (f :: frames) = f :: framesOf f.id frames :=
  List.filter_cons_of_pos (beq_self_eq_true f.id)

theorem framesOf_cons_of_ne {id : Nat} {f : ServerFrame V} (h : f.id ≠ id)
    (frames : List (ServerFrame V)) : framesOf id (f :: frames) = framesOf id frames :=
  List.filter_cons_of_neg fun hb => h (beq_iff_eq.mp hb)

theorem framesOf_append (id : Nat) (a b : List (ServerFrame V)) :
    framesOf id (a ++ b) = framesOf id a ++ framesOf id b :=
  List.filter_append _ _

theorem itemsOf_append (a b : List (ServerFrame V)) : itemsOf (a ++ b) = itemsOf a ++ itemsOf b :=
  List.filterMap_append

theorem last_itemFrame (id : Nat) (item : Option V) : last (itemFrame id item) = false := by
  cases item <;> rfl

/-- No frame comes after the last one of a number, and a frame with an item has nothing else. -/
theorem Says.order {id : Nat} {task : Option Task} {reply : Option (Reply V)}
    {before after : List (ServerFrame V)} {f : ServerFrame V}
    (h : Says id task reply (before ++ f :: after)) :
    (∀ g ∈ before, last g = false) ∧ (f.item.isSome = true → last f = false) := by
  have hone : ∀ g : ServerFrame V, before ++ f :: after = [g] → before = [] ∧ f = g := by
    intro g hg
    cases before with
    | nil => exact ⟨rfl, (List.cons.inj hg).1⟩
    | cons b before =>
      have hlen := congrArg List.length hg
      rw [List.length_append, List.length_cons, List.length_cons, List.length_singleton] at hlen
      omega
  cases reply with
  | none => exact absurd h.1 (List.append_ne_nil_of_right_ne_nil _ (List.cons_ne_nil _ _))
  | some reply =>
    cases reply with
    | value value =>
      obtain ⟨rfl, rfl⟩ := hone _ h.1
      exact ⟨fun g hg => absurd hg List.not_mem_nil, fun hno => absurd hno Bool.false_ne_true⟩
    | err e =>
      obtain ⟨rfl, rfl⟩ := hone _ h.1
      exact ⟨fun g hg => absurd hg List.not_mem_nil, fun hno => absurd hno Bool.false_ne_true⟩
    | stream =>
      have hitems : ∀ items : List (Option V), ∀ g ∈ items.map (itemFrame id), last g = false := by
        intro items g hg
        obtain ⟨item, -, rfl⟩ := List.mem_map.mp hg
        exact last_itemFrame id item
      obtain ⟨-, items, hsaid | ⟨hsaid, -⟩⟩ := h
      · have hall : ∀ g ∈ before ++ f :: after, last g = false := hsaid ▸ hitems items
        exact ⟨fun g hg => hall g (List.mem_append_left _ hg),
          fun _ => hall f (List.mem_append_right _ List.mem_cons_self)⟩
      · -- all but the last frame of the stream are items
        have hbefore : before <+: items.map (itemFrame id) := by
          rcases List.append_eq_append_iff.mp hsaid with ⟨more, hmap, -⟩ | ⟨more, hbefore, hrest⟩
          · exact ⟨more, hmap.symm⟩
          · have hlen := congrArg List.length hrest
            rw [List.length_singleton, List.length_append, List.length_cons] at hlen
            have hmore : more = [] := List.length_eq_zero_iff.mp (by omega)
            rw [hbefore, hmore, List.append_nil]
        refine ⟨fun g hg => hitems items g (hbefore.subset hg), fun hitem => ?_⟩
        have hf : f ∈ items.map (itemFrame id) ++ [doneFrame id] :=
          hsaid ▸ List.mem_append_right _ List.mem_cons_self
        rcases List.mem_append.mp hf with hf | hf
        · exact hitems items f hf
        · rw [List.mem_singleton.mp hf] at hitem
          exact absurd hitem Bool.false_ne_true

theorem Says.stop {id : Nat} {task : Option Task} {reply : Option (Reply V)}
    {said : List (ServerFrame V)} (h : Says id task reply said) : Says id none reply said := by
  cases reply with
  | none => exact ⟨h.1, (Option.some_ne_none _).symm⟩
  | some reply =>
    cases reply with
    | value value => exact ⟨h.1, rfl⟩
    | err e => exact ⟨h.1, rfl⟩
    | stream =>
      obtain ⟨-, items, hsaid⟩ := h
      exact ⟨(Option.some_ne_none _).symm, items, hsaid.imp_right fun hsaid => ⟨hsaid.1, rfl⟩⟩

/-- Nothing was said of a request the service has yet to make something of. -/
theorem Says.of_handling {id : Nat} {reply : Option (Reply V)} {said : List (ServerFrame V)}
    (h : Says id (some .handling) reply said) : reply = none ∧ said = [] := by
  cases reply with
  | none => exact ⟨rfl, h.1⟩
  | some reply =>
    cases reply with
    | value value => exact absurd h.2 (Option.some_ne_none _)
    | err e => exact absurd h.2 (Option.some_ne_none _)
    | stream => exact absurd rfl h.1

theorem Says.of_streaming {id : Nat} {reply : Option (Reply V)} {said : List (ServerFrame V)}
    (h : Says id (some .streaming) reply said) :
    reply = some .stream ∧ ∃ items : List (Option V), said = items.map (itemFrame id) := by
  cases reply with
  | none => exact absurd rfl h.2
  | some reply =>
    cases reply with
    | value value => exact absurd h.2 (Option.some_ne_none _)
    | err e => exact absurd h.2 (Option.some_ne_none _)
    | stream =>
      obtain ⟨-, items, hsaid | ⟨-, hnone⟩⟩ := h
      · exact ⟨rfl, items, hsaid⟩
      · exact absurd hnone (Option.some_ne_none _)

/-- What the last frame of a call says is what the service made of it. -/
theorem Says.outcome_eq {id : Nat} {task : Option Task} {reply : Option (Reply V)}
    {said : List (ServerFrame V)} {f : ServerFrame V} (h : Says id task reply said) (hf : f ∈ said)
    (hlast : last f = true) : ∃ r, reply = some r ∧ outcome f = r.outcome := by
  cases reply with
  | none =>
    rw [h.1] at hf
    exact absurd hf List.not_mem_nil
  | some reply =>
    refine ⟨reply, rfl, ?_⟩
    cases reply with
    | value value =>
      rw [h.1] at hf
      rw [List.mem_singleton.mp hf]
      rfl
    | err e =>
      rw [h.1] at hf
      rw [List.mem_singleton.mp hf]
      rfl
    | stream =>
      have hitems : ∀ items : List (Option V), f ∉ items.map (itemFrame id) := by
        intro items hmem
        obtain ⟨item, -, rfl⟩ := List.mem_map.mp hmem
        exact absurd (hlast.symm.trans (last_itemFrame id item)) Bool.false_ne_true.symm
      obtain ⟨-, items, hsaid | ⟨hsaid, -⟩⟩ := h
      · exact absurd (hsaid ▸ hf) (hitems items)
      · rw [hsaid] at hf
        rw [List.mem_singleton.mp ((List.mem_append.mp hf).resolve_left (hitems items))]
        rfl

/-- A request that was answered has said its last frame. -/
theorem Says.exists_last {id : Nat} {task : Option Task} {reply : Reply V}
    {said : List (ServerFrame V)} (h : Says id task (some reply) said) (hreply : reply ≠ .stream) :
    ∃ f ∈ said, last f = true := by
  cases reply with
  | value value => exact ⟨okFrame id value, h.1 ▸ List.mem_singleton_self _, rfl⟩
  | err e => exact ⟨errFrame id e, h.1 ▸ List.mem_singleton_self _, rfl⟩
  | stream => exact absurd rfl hreply

end Frames

/-! ### How a request stands with the frames read of its number -/

namespace Slot

variable (s : Slot V) (f : ServerFrame V)

/-- A number nothing waits on hears nothing. -/
theorem route_none {s : Slot V} (h : s.pending = none) : s.route f = s := by
  have hready : s.ready = s := ready_eq_self (h ▸ (Option.some_ne_none _).symm)
  have hsame : ({ s with pending := none } : Slot V) = s := Slot.ext h.symm rfl rfl
  unfold route fail
  rw [h, hready]
  split
  · exact hsame
  · rfl
  · rfl
  · split
    · exact hsame
    · rfl

theorem route_of_not_meaningful {f : ServerFrame V} (h : meaningful f = false) : s.route f = s := by
  obtain ⟨id, ok, err, item, done⟩ := f
  cases err with
  | some words => cases h
  | none =>
    cases ok with
    | some value => cases h
    | none =>
      cases item with
      | some item => exact absurd h (by rw [meaningful, Option.isSome_some, Bool.or_true]; decide)
      | none =>
        cases done with
        | true => cases h
        | false => rfl

/-- What a stream that is not over is given by a frame. -/
theorem route_stream {s : Slot V} (hpending : s.pending ≠ none) (hkind : s.pending ≠ some .call)
    (hitem : f.item.isSome = true → last f = false) :
    (s.route f).told.items ++ (s.route f).held = s.told.items ++ s.held ++ itemsOf [f] ∧
      ((s.route f).pending = none → last f = true) ∧ (s.route f).pending ≠ some .call := by
  obtain ⟨id, ok, err, item, done⟩ := f
  obtain ⟨pending, told, held⟩ := s
  have hno : last ⟨id, ok, err, item, done⟩ = true → item = none := by
    intro hlast
    cases item with
    | none => rfl
    | some item => exact absurd (hlast.symm.trans (hitem rfl)) Bool.false_ne_true.symm
  have hsame : ∀ items : List V, items = items ++ [] := fun items => (List.append_nil items).symm
  have hover : (none : Option Pending) ≠ some .call := by decide
  have hstream : some Pending.stream ≠ some .call := by decide
  have hready : some (Pending.checkedStream false) ≠ some .call := by decide
  cases pending with
  | none => exact absurd rfl hpending
  | some p =>
    cases p with
    | call => exact absurd rfl hkind
    | stream =>
      cases err with
      | some words =>
        obtain rfl := hno rfl
        exact ⟨hsame _, fun _ => rfl, hover⟩
      | none =>
        cases ok with
        | some value =>
          obtain rfl := hno rfl
          exact ⟨hsame _, fun _ => rfl, hstream⟩
        | none =>
          cases item with
          | some item => exact ⟨(List.append_assoc _ _ _).symm, (fun h => by cases h), hstream⟩
          | none =>
            cases done with
            | true => exact ⟨hsame _, fun _ => rfl, hover⟩
            | false => exact ⟨hsame _, (fun h => by cases h), hstream⟩
    | checkedStream waits =>
      cases err with
      | some words =>
        obtain rfl := hno rfl
        cases waits <;> exact ⟨hsame _, fun _ => rfl, hover⟩
      | none =>
        cases ok with
        | some value =>
          obtain rfl := hno rfl
          cases waits <;> exact ⟨hsame _, (fun h => by cases h), hready⟩
        | none =>
          cases item with
          | some item =>
            cases waits <;>
              exact ⟨(List.append_assoc _ _ _).symm, (fun h => by cases h), hready⟩
          | none =>
            cases done with
            | true => cases waits <;> exact ⟨hsame _, fun _ => rfl, hover⟩
            | false =>
              cases waits with
              | true => exact ⟨hsame _, (fun h => by cases h), hkind⟩
              | false => exact ⟨hsame _, (fun h => by cases h), hready⟩

/-- A stream that waits to be ready hears so from its first meaningful frame. -/
theorem route_waiting {s : Slot V} (h : s.pending = some (.checkedStream true))
    (hf : meaningful f = true) :
    (s.route f).told.ready = s.told.ready ++ [acknowledged f] ∧
      ((s.route f).pending = none ∨ (s.route f).pending = some (.checkedStream false)) := by
  obtain ⟨id, ok, err, item, done⟩ := f
  obtain ⟨pending, told, held⟩ := s
  obtain rfl : pending = some (.checkedStream true) := h
  cases err with
  | some words => exact ⟨rfl, .inl rfl⟩
  | none =>
    cases ok with
    | some value => exact ⟨rfl, .inr rfl⟩
    | none =>
      cases item with
      | some item => exact ⟨rfl, .inr rfl⟩
      | none =>
        cases done with
        | true => exact ⟨rfl, .inl rfl⟩
        | false => cases hf

/-- Once it is ready it is not told so again. -/
theorem route_ready {s : Slot V} (h : s.pending = some (.checkedStream false)) :
    (s.route f).told.ready = s.told.ready ∧
      ((s.route f).pending = none ∨ (s.route f).pending = some (.checkedStream false)) := by
  obtain ⟨id, ok, err, item, done⟩ := f
  obtain ⟨pending, told, held⟩ := s
  obtain rfl : pending = some (.checkedStream false) := h
  cases err with
  | some words => exact ⟨rfl, .inl rfl⟩
  | none =>
    cases ok with
    | some value => exact ⟨rfl, .inr rfl⟩
    | none =>
      cases item with
      | some item => exact ⟨rfl, .inr rfl⟩
      | none =>
        cases done with
        | true => exact ⟨rfl, .inl rfl⟩
        | false => exact ⟨rfl, .inr rfl⟩

/-- A call is told what its last frame is, and by no other frame. -/
theorem route_call {s : Slot V} (h : s.pending = some .call) :
    (last f = true → (s.route f).pending = none ∧
      (s.route f).told.answers = s.told.answers ++ [outcome f]) ∧
      (last f = false → s.route f = s) := by
  obtain ⟨id, ok, err, item, done⟩ := f
  obtain ⟨pending, told, held⟩ := s
  obtain rfl : pending = some .call := h
  cases err with
  | some words => exact ⟨fun _ => ⟨rfl, rfl⟩, fun h => by cases h⟩
  | none =>
    cases ok with
    | some value => exact ⟨fun _ => ⟨rfl, rfl⟩, fun h => by cases h⟩
    | none =>
      cases item with
      | some item => exact ⟨(fun h => by cases h), fun _ => rfl⟩
      | none =>
        cases done with
        | true => exact ⟨fun _ => ⟨rfl, rfl⟩, fun h => by cases h⟩
        | false => exact ⟨(fun h => by cases h), fun _ => rfl⟩

end Slot

variable (s : Slot V) (read : List (ServerFrame V)) (gone silent down : Prop)

/-- A call. -/
structure HeardCall : Prop where
  kind : s.pending = none ∨ s.pending = some .call
  waits : s.pending = some .call → s.told.answers = [] ∧ ∀ f ∈ read, last f = false
  ends : s.pending = none → ∃ a, s.told.answers = [a] ∧
    (a = .error .closed ∧ down ∨ ∃ f, read.find? last = some f ∧ a = outcome f)

/-- A stream. -/
structure HeardStream : Prop where
  kind : s.pending ≠ some .call
  waits : s.pending ≠ none → s.told.items ++ s.held = itemsOf read
  items : ¬gone → s.told.items ++ s.held = itemsOf read
  begins : s.told.items ++ s.held <+: itemsOf read
  ends : s.pending = none → gone ∨ silent ∨ ∃ f ∈ read, last f = true

/-- A stream that is told when it is ready. -/
structure HeardReady : Prop where
  kind : s.pending = none ∨ ∃ waits, s.pending = some (.checkedStream waits)
  waits : s.pending = some (.checkedStream true) →
    s.told.ready = [] ∧ ∀ f ∈ read, meaningful f = false
  ready : s.pending = some (.checkedStream false) →
    ∃ f, read.find? meaningful = some f ∧ s.told.ready = [acknowledged f]
  ends : s.pending = none → s.told.ready = [] ∧ gone ∨ s.told.ready = [.error .closed] ∧ down ∨
    ∃ f, read.find? meaningful = some f ∧ s.told.ready = [acknowledged f]

def Heard (kind : Kind) : Prop :=
  match kind with
  | .call => HeardCall s read down
  | .stream => HeardStream s read gone silent
  | .checkedStream => HeardStream s read gone silent ∧ HeardReady s read gone down

variable {s read gone silent down} {f : ServerFrame V}

/-- Once found, the first frame that meets a condition stays so as more are read. -/
theorem find?_append_singleton {p : ServerFrame V → Bool} {g : ServerFrame V}
    (h : read.find? p = some g) : (read ++ [f]).find? p = some g := by
  rw [List.find?_append, h]
  rfl

theorem find?_append_of_none {p : ServerFrame V → Bool} (h : ∀ g ∈ read, p g = false)
    (hf : p f = true) : (read ++ [f]).find? p = some f := by
  have hnone : read.find? p = none :=
    List.find?_eq_none.mpr fun g hg => Bool.not_eq_true _ ▸ h g hg
  rw [List.find?_append, hnone, List.find?_cons_of_pos hf]
  rfl

namespace HeardCall

theorem mono {down' : Prop} (h : HeardCall s read down) (hdown : down → down') :
    HeardCall s read down' where
  kind := h.kind
  waits := h.waits
  ends := fun hnone =>
    let ⟨a, ha, hwhy⟩ := h.ends hnone
    ⟨a, ha, hwhy.imp_left (And.imp_right hdown)⟩

theorem route (h : HeardCall s read down) (f : ServerFrame V) :
    HeardCall (s.route f) (read ++ [f]) down := by
  rcases h.kind with hnone | hcall
  · rw [Slot.route_none f hnone]
    obtain ⟨a, ha, hwhy⟩ := h.ends hnone
    refine ⟨.inl hnone, fun hcall => absurd (hnone.symm.trans hcall) (Option.some_ne_none _).symm,
      fun _ => ⟨a, ha, hwhy.imp_right ?_⟩⟩
    rintro ⟨g, hg, rfl⟩
    exact ⟨g, find?_append_singleton hg, rfl⟩
  · obtain ⟨hanswers, hread⟩ := h.waits hcall
    obtain ⟨hlast, hother⟩ := Slot.route_call f hcall
    cases hf : last f with
    | true =>
      obtain ⟨hnone, hanswer⟩ := hlast hf
      refine ⟨.inl hnone, fun hcall => absurd (hnone.symm.trans hcall) (Option.some_ne_none _).symm,
        fun _ => ⟨outcome f, ?_, .inr ⟨f, find?_append_of_none hread hf, rfl⟩⟩⟩
      rw [hanswer, hanswers]
      rfl
    | false =>
      rw [hother hf]
      refine ⟨h.kind, fun _ => ⟨hanswers, fun g hg => ?_⟩,
        fun hnone => absurd (hnone.symm.trans hcall) (Option.some_ne_none _).symm⟩
      rcases List.mem_append.mp hg with hg | hg
      · exact hread g hg
      · rw [List.mem_singleton.mp hg]
        exact hf

theorem fail (h : HeardCall s read down) (hdown : down) : HeardCall (s.fail .closed) read down := by
  unfold Slot.fail
  rcases h.kind with hnone | hcall
  · rw [hnone]
    exact ⟨.inl rfl, fun hcall => absurd hcall (Option.some_ne_none _).symm, fun _ => h.ends hnone⟩
  · rw [hcall]
    refine ⟨.inl rfl, fun hcall => absurd hcall (Option.some_ne_none _).symm, fun _ => ?_⟩
    refine ⟨.error .closed, ?_, .inl ⟨rfl, hdown⟩⟩
    rw [Told.answer]
    dsimp only
    rw [(h.waits hcall).1]
    rfl

end HeardCall

namespace HeardStream

theorem mono {gone' silent' : Prop} (h : HeardStream s read gone silent) (hgone : gone → gone')
    (hsilent : silent → silent') : HeardStream s read gone' silent' where
  kind := h.kind
  waits := h.waits
  items := fun hno => h.items fun hg => hno (hgone hg)
  begins := h.begins
  ends := fun hnone => (h.ends hnone).imp hgone (Or.imp_left hsilent)

theorem route (h : HeardStream s read gone silent) (hsilent : ¬silent)
    (hread : ∀ g ∈ read, last g = false) (hitem : f.item.isSome = true → last f = false) :
    HeardStream (s.route f) (read ++ [f]) gone silent := by
  by_cases hnone : s.pending = none
  · rw [Slot.route_none f hnone]
    -- nothing is said of a number after its last frame, so its listener is gone
    have hgone : gone := by
      rcases h.ends hnone with hgone | hsil | ⟨g, hg, hlast⟩
      · exact hgone
      · exact absurd hsil hsilent
      · exact absurd (hlast.symm.trans (hread g hg)) Bool.false_ne_true.symm
    refine ⟨h.kind, fun hno => absurd hnone hno, fun hno => absurd hgone hno, ?_,
      fun _ => .inl hgone⟩
    rw [itemsOf_append]
    exact h.begins.trans (List.prefix_append _ _)
  · obtain ⟨hitems, hlast, hkind⟩ := Slot.route_stream f hnone h.kind hitem
    have hall : (s.route f).told.items ++ (s.route f).held = itemsOf (read ++ [f]) := by
      rw [hitems, h.waits hnone, itemsOf_append]
    refine ⟨hkind, fun _ => hall, fun _ => hall, hall ▸ List.prefix_rfl, fun hnow => ?_⟩
    exact .inr (.inr ⟨f, List.mem_append_right _ List.mem_cons_self, hlast hnow⟩)

theorem fail (h : HeardStream s read gone silent) (hsilent : silent) :
    HeardStream (s.fail .closed) read gone silent := by
  unfold Slot.fail
  split
  · exact absurd ‹_› h.kind
  · exact ⟨(Option.some_ne_none _).symm, fun hno => absurd rfl hno, h.items, h.begins,
      fun _ => .inr (.inl hsilent)⟩
  · exact ⟨(Option.some_ne_none _).symm, fun hno => absurd rfl hno, h.items, h.begins,
      fun _ => .inr (.inl hsilent)⟩

/-- Its listener takes it back. -/
theorem forget (h : HeardStream s read gone silent) (hgone : gone) :
    HeardStream { s with pending := none } read gone silent where
  kind := (Option.some_ne_none _).symm
  waits := fun hno => absurd rfl hno
  items := fun hno => absurd hgone hno
  begins := h.begins
  ends := fun _ => .inl hgone

/-- The item the reader holds is queued. -/
theorem queued {item : V} (h : HeardStream s read gone silent) (hheld : s.held = [item]) :
    HeardStream { s with told := s.told.queued item, held := [] } read gone silent := by
  have hsame : (s.told.queued item).items ++ [] = s.told.items ++ s.held := by
    rw [Told.queued, List.append_nil, hheld]
  exact ⟨h.kind, fun hno => hsame.trans (h.waits hno), fun hno => hsame.trans (h.items hno),
    hsame ▸ h.begins, h.ends⟩

/-- It is thrown away, as nobody listens. -/
theorem lost (h : HeardStream s read gone silent) (hgone : gone) :
    HeardStream { s with pending := none, held := [] } read gone silent where
  kind := (Option.some_ne_none _).symm
  waits := fun hno => absurd rfl hno
  items := fun hno => absurd hgone hno
  begins := by
    rw [List.append_nil]
    exact (List.prefix_append _ _).trans h.begins
  ends := fun _ => .inl hgone

end HeardStream

namespace HeardReady

theorem mono {gone' down' : Prop} (h : HeardReady s read gone down) (hgone : gone → gone')
    (hdown : down → down') : HeardReady s read gone' down' where
  kind := h.kind
  waits := h.waits
  ready := h.ready
  ends := fun hnone => (h.ends hnone).imp (And.imp_right hgone) (Or.imp_left (And.imp_right hdown))

/-- What is said of being ready depends on nothing else that is told. -/
theorem congr {s' : Slot V} (h : HeardReady s read gone down) (hpending : s'.pending = s.pending)
    (htold : s'.told.ready = s.told.ready) : HeardReady s' read gone down where
  kind := hpending ▸ h.kind
  waits := fun hp => htold ▸ h.waits (hpending ▸ hp)
  ready := fun hp => htold ▸ h.ready (hpending ▸ hp)
  ends := fun hp => htold ▸ h.ends (hpending ▸ hp)

theorem route (h : HeardReady s read gone down) (f : ServerFrame V) :
    HeardReady (s.route f) (read ++ [f]) gone down := by
  have hnext : ∀ {s' : Slot V}, (s'.pending = none ∨ s'.pending = some (.checkedStream false)) →
      (∃ g, (read ++ [f]).find? meaningful = some g ∧ s'.told.ready = [acknowledged g]) →
      HeardReady s' (read ++ [f]) gone down := by
    intro s' hp hack
    refine ⟨hp.imp_right fun hp => ⟨false, hp⟩, fun hwaits => ?_, fun _ => hack,
      fun _ => .inr (.inr hack)⟩
    rcases hp with hp | hp
    · exact absurd (hp.symm.trans hwaits) (Option.some_ne_none _).symm
    · exact absurd (hp.symm.trans hwaits) (by decide)
  have hkeep : (∃ g, read.find? meaningful = some g ∧ s.told.ready = [acknowledged g]) →
      ∃ g, (read ++ [f]).find? meaningful = some g ∧ s.told.ready = [acknowledged g] :=
    fun ⟨g, hg, hready⟩ => ⟨g, find?_append_singleton hg, hready⟩
  rcases h.kind with hnone | ⟨waits, hchecked⟩
  · rw [Slot.route_none f hnone]
    refine ⟨.inl hnone, fun hp => ?_, fun hp => ?_, fun _ => ?_⟩
    · exact absurd (hnone.symm.trans hp) (Option.some_ne_none _).symm
    · exact absurd (hnone.symm.trans hp) (Option.some_ne_none _).symm
    · exact (h.ends hnone).imp_right (Or.imp_right hkeep)
  · cases waits with
    | true =>
      obtain ⟨htold, hread⟩ := h.waits hchecked
      cases hf : meaningful f with
      | true =>
        obtain ⟨hready, hpending⟩ := Slot.route_waiting f hchecked hf
        refine hnext hpending ⟨f, find?_append_of_none hread hf, ?_⟩
        rw [hready, htold]
        rfl
      | false =>
        rw [Slot.route_of_not_meaningful s hf]
        refine ⟨h.kind, fun _ => ⟨htold, fun g hg => ?_⟩, fun hp => ?_, fun hp => ?_⟩
        · rcases List.mem_append.mp hg with hg | hg
          · exact hread g hg
          · rw [List.mem_singleton.mp hg]
            exact hf
        · exact absurd (hchecked.symm.trans hp) (by decide)
        · exact absurd (hp.symm.trans hchecked) (Option.some_ne_none _).symm
    | false =>
      obtain ⟨hready, hpending⟩ := Slot.route_ready f hchecked
      exact hnext hpending (hready ▸ hkeep (h.ready hchecked))

/-- It is forgotten by one that is gone. -/
theorem forget (h : HeardReady s read gone down) (hgone : gone) :
    HeardReady { s with pending := none } read gone down := by
  refine ⟨.inl rfl, (fun hp => by cases hp), (fun hp => by cases hp), fun _ => ?_⟩
  rcases h.kind with hnone | ⟨waits, hchecked⟩
  · exact h.ends hnone
  · cases waits with
    | true => exact .inl ⟨(h.waits hchecked).1, hgone⟩
    | false => exact .inr (.inr (h.ready hchecked))

theorem fail (h : HeardReady s read gone down) (hdown : down) :
    HeardReady (s.fail .closed) read gone down := by
  unfold Slot.fail
  rcases h.kind with hnone | ⟨waits, hchecked⟩
  · rw [hnone]
    exact ⟨.inl rfl, (fun hp => by cases hp), (fun hp => by cases hp), fun _ => h.ends hnone⟩
  · cases waits with
    | true =>
      rw [hchecked]
      refine ⟨.inl rfl, (fun hp => by cases hp), (fun hp => by cases hp),
        fun _ => .inr (.inl ⟨?_, hdown⟩)⟩
      rw [Told.readied]
      dsimp only
      rw [(h.waits hchecked).1]
      rfl
    | false =>
      rw [hchecked]
      exact ⟨.inl rfl, (fun hp => by cases hp), (fun hp => by cases hp),
        fun _ => .inr (.inr (h.ready hchecked))⟩

/-- It was told nothing yet, or that the connection is closed, or what was said first. -/
theorem told (h : HeardReady s read gone down) :
    s.told.ready = [] ∧ (gone ∨ ∀ f ∈ read, meaningful f = false) ∨
      s.told.ready = [.error .closed] ∧ down ∨
        ∃ f, read.find? meaningful = some f ∧ s.told.ready = [acknowledged f] := by
  rcases h.kind with hnone | ⟨waits, hwaits⟩
  · exact (h.ends hnone).imp_left (And.imp_right .inl)
  · cases waits with
    | true => exact .inl ((h.waits hwaits).imp_right .inr)
    | false => exact .inr (.inr (h.ready hwaits))

end HeardReady

namespace Heard

variable {kind : Kind} {gone' silent' down' : Prop}

theorem stream (h : Heard s read gone silent down kind) (hkind : kind ≠ .call) :
    HeardStream s read gone silent := by
  cases kind with
  | call => exact absurd rfl hkind
  | stream => exact h
  | checkedStream => exact h.1

theorem mono (h : Heard s read gone silent down kind) (hgone : gone → gone')
    (hsilent : silent → silent') (hdown : down → down') :
    Heard s read gone' silent' down' kind := by
  cases kind with
  | call => exact HeardCall.mono h hdown
  | stream => exact HeardStream.mono h hgone hsilent
  | checkedStream => exact ⟨HeardStream.mono h.1 hgone hsilent, HeardReady.mono h.2 hgone hdown⟩

theorem route (h : Heard s read gone silent down kind) (hsilent : ¬silent)
    (hread : ∀ g ∈ read, last g = false) (hitem : f.item.isSome = true → last f = false) :
    Heard (s.route f) (read ++ [f]) gone silent down kind := by
  cases kind with
  | call => exact HeardCall.route h f
  | stream => exact HeardStream.route h hsilent hread hitem
  | checkedStream => exact ⟨HeardStream.route h.1 hsilent hread hitem, HeardReady.route h.2 f⟩

theorem fail (h : Heard s read gone silent down kind) (hsilent : silent) (hdown : down) :
    Heard (s.fail .closed) read gone silent down kind := by
  cases kind with
  | call => exact HeardCall.fail h hdown
  | stream => exact HeardStream.fail h hsilent
  | checkedStream => exact ⟨HeardStream.fail h.1 hsilent, HeardReady.fail h.2 hdown⟩

theorem forget (h : Heard s read gone silent down kind) (hkind : kind ≠ .call) (hgone : gone) :
    Heard { s with pending := none } read gone silent down kind := by
  cases kind with
  | call => exact absurd rfl hkind
  | stream => exact HeardStream.forget h hgone
  | checkedStream => exact ⟨HeardStream.forget h.1 hgone, HeardReady.forget h.2 hgone⟩

theorem lost (h : Heard s read gone silent down kind) (hkind : kind ≠ .call) (hgone : gone) :
    Heard { s with pending := none, held := [] } read gone silent down kind := by
  cases kind with
  | call => exact absurd rfl hkind
  | stream => exact HeardStream.lost h hgone
  | checkedStream =>
    exact ⟨HeardStream.lost h.1 hgone, (HeardReady.forget h.2 hgone).congr rfl rfl⟩

theorem queued {item : V} (h : Heard s read gone silent down kind) (hkind : kind ≠ .call)
    (hheld : s.held = [item]) :
    Heard { s with told := s.told.queued item, held := [] } read gone silent down kind := by
  cases kind with
  | call => exact absurd rfl hkind
  | stream => exact HeardStream.queued h hheld
  | checkedStream => exact ⟨HeardStream.queued h.1 hheld, h.2.congr rfl rfl⟩

/-- A request nothing was read of yet. -/
theorem start (kind : Kind) : Heard ⟨some kind.pending, {}, []⟩ ([] : List (ServerFrame V))
    gone silent down kind := by
  have hsome : ∀ p : Pending, some p ≠ none := Option.some_ne_none
  have hstream : ∀ p : Pending, p ≠ .call →
      HeardStream (⟨some p, {}, []⟩ : Slot V) [] gone silent := fun p hp =>
    ⟨fun h => hp (Option.some.inj h), fun _ => rfl, fun _ => rfl, List.prefix_rfl,
      fun h => absurd h (hsome p)⟩
  cases kind with
  | call =>
    exact ⟨.inr rfl, fun _ => ⟨rfl, fun _ hf => absurd hf List.not_mem_nil⟩,
      fun h => absurd h (hsome _)⟩
  | stream => exact hstream .stream (by decide)
  | checkedStream =>
    exact ⟨hstream (.checkedStream true) (by decide), .inr ⟨true, rfl⟩,
      fun _ => ⟨rfl, fun _ hf => absurd hf List.not_mem_nil⟩, (fun h => by cases h),
      fun h => absurd h (hsome _)⟩

end Heard

/-! ### What is kept as the two ends go on -/

def isRequest (f : ClientFrame V) : Bool := !f.cancel

namespace Link

variable (l : Link V)

/-- The requests on their way to the server. -/
def onWay : List (ClientFrame V) := (l.sending ++ l.toServer).filter isRequest

/-- Nothing more will be said of a number. -/
def Silent (id : Nat) : Prop :=
  l.running.get? id = none ∧ (∀ f ∈ l.toClient, f.id ≠ id) ∧
    (l.down = true ∨ id ∉ l.onWay.map ClientFrame.id)

/-- What holds of a connection at every step. -/
structure Inv : Prop where
  ids : (l.asked.map Request.id).Nodup
  numbered : ∀ q ∈ l.asked, q.id < l.client.nextId
  frames : ∀ f ∈ l.onWay, ∃ q ∈ l.asked, f = requestFrame q.id q.method q.params
  once : (l.onWay.map ClientFrame.id ++ l.served.map Prod.fst).Nodup
  served : ∀ s ∈ l.served, ∃ q ∈ l.asked, s = (q.id, q.method, q.params)
  unserved : ∀ id, id ∉ l.served.map Prod.fst →
    l.running.get? id = none ∧ l.replies.get? id = none
  fresh : ∀ id, l.client.nextId ≤ id → l.client.slot id = ⟨none, {}, []⟩
  fifo : ∀ id, l.said id = l.read id ++ framesOf id l.toClient
  tasks : ∀ id, Says id (l.running.get? id) (l.replies.get? id) (l.said id)
  heard : ∀ q ∈ l.asked, Heard (l.client.slot q.id) (l.read q.id) (q.id ∈ l.client.gone)
    (l.Silent q.id) (l.down = true) q.kind
  holds : ∀ h, l.client.held = some h → ∃ q ∈ l.asked, q.id = h.1 ∧ q.kind ≠ .call

end Link

namespace Link.Inv

variable {l : Link V}

theorem start : ({} : Link V).Inv where
  ids := List.nodup_nil
  numbered := fun _ h => absurd h List.not_mem_nil
  frames := fun _ h => absurd h List.not_mem_nil
  once := List.nodup_nil
  served := fun _ h => absurd h List.not_mem_nil
  unserved := fun _ _ => ⟨rfl, rfl⟩
  fresh := fun _ _ => rfl
  fifo := fun _ => rfl
  tasks := fun _ => ⟨rfl, (Option.some_ne_none _).symm⟩
  heard := fun _ h => absurd h List.not_mem_nil
  holds := fun _ h => absurd h.symm (Option.some_ne_none _)

theorem served_lt (h : l.Inv) {id : Nat} (hid : id ∈ l.served.map Prod.fst) :
    id < l.client.nextId := by
  obtain ⟨s, hs, rfl⟩ := List.mem_map.mp hid
  obtain ⟨q, hq, rfl⟩ := h.served s hs
  exact h.numbered q hq

/-- Nothing was said or read of a number that was not served. -/
theorem said_eq_nil (h : l.Inv) {id : Nat} (hid : id ∉ l.served.map Prod.fst) :
    l.said id = [] ∧ l.read id = [] ∧ ∀ f ∈ l.toClient, f.id ≠ id := by
  have htask := h.tasks id
  rw [(h.unserved id hid).2] at htask
  have hfifo := h.fifo id
  rw [htask.1] at hfifo
  obtain ⟨hread, hway⟩ := List.append_eq_nil_iff.mp hfifo.symm
  refine ⟨htask.1, hread, fun f hf heq => ?_⟩
  exact absurd (beq_iff_eq.mpr heq) (List.filter_eq_nil_iff.mp hway f hf)

/-- A request has one number of its own. -/
theorem request_inj (h : l.Inv) {q r : Request V} (hq : q ∈ l.asked) (hr : r ∈ l.asked)
    (hid : q.id = r.id) : q = r :=
  List.inj_on_of_nodup_map h.ids hq hr hid

/-- Only the client changed. -/
theorem reclient (h : l.Inv) {c : Client V} (hnext : c.nextId = l.client.nextId)
    (hfresh : ∀ id, l.client.nextId ≤ id → c.slot id = ⟨none, {}, []⟩)
    (hheard : ∀ q ∈ l.asked, Heard (c.slot q.id) (l.read q.id) (q.id ∈ c.gone)
      (l.Silent q.id) (l.down = true) q.kind)
    (hholds : ∀ held, c.held = some held → ∃ q ∈ l.asked, q.id = held.1 ∧ q.kind ≠ .call) :
    ({ l with client := c } : Link V).Inv where
  ids := h.ids
  numbered := fun q hq => hnext ▸ h.numbered q hq
  frames := h.frames
  once := h.once
  served := h.served
  unserved := h.unserved
  fresh := fun id hid => hfresh id (hnext ▸ hid)
  fifo := h.fifo
  tasks := h.tasks
  heard := hheard
  holds := hholds

theorem subperm_map {a b : List (ClientFrame V)} (h : a.Subperm b) :
    (a.map ClientFrame.id).Subperm (b.map ClientFrame.id) := by
  obtain ⟨some', hperm, hsub⟩ := h
  exact ⟨some'.map ClientFrame.id, hperm.map _, hsub.map _⟩

/-- Frames on their way may change places or go. -/
theorem moved (h : l.Inv) {sending toServer : List (ClientFrame V)}
    (hsub : ((sending ++ toServer).filter isRequest).Subperm l.onWay) :
    ({ l with sending, toServer } : Link V).Inv := by
  have hids := subperm_map hsub
  refine ⟨h.ids, h.numbered, fun f hf => h.frames f (hsub.subset hf), ?_, h.served, h.unserved,
    h.fresh, h.fifo, h.tasks, fun q hq => ?_, h.holds⟩
  · obtain ⟨kept, hperm, hkept⟩ := (List.subperm_append_right (l.served.map Prod.fst)).mpr hids
    exact hperm.nodup_iff.mp (hkept.nodup h.once)
  · refine (h.heard q hq).mono id (fun hsilent => ?_) id
    exact ⟨hsilent.1, hsilent.2.1, hsilent.2.2.imp_right fun hno hmem => hno (hids.subset hmem)⟩

theorem ask (h : l.Inv) (kind : Kind) (method : Text) (params : Option V) :
    (l.ask kind method params).Inv := by
  have hnew : ∀ q ∈ l.asked, q.id ≠ l.client.nextId := fun q hq => (h.numbered q hq).ne
  have hunserved : l.client.nextId ∉ l.served.map Prod.fst := fun hmem =>
    absurd (h.served_lt hmem) (lt_irrefl _)
  have hperm : (l.ask kind method params).onWay.Perm
      (requestFrame l.client.nextId method params :: l.onWay) := by
    have hall : (l.sending ++ [requestFrame l.client.nextId method params] ++ l.toServer).Perm
        (requestFrame l.client.nextId method params :: (l.sending ++ l.toServer)) := by
      rw [List.append_assoc]
      exact List.perm_middle
    exact (hall.filter isRequest).trans (.of_eq (List.filter_cons_of_pos rfl))
  have hslot : ∀ id, (l.ask kind method params).client.slot id =
      if id = l.client.nextId then { l.client.slot id with pending := some kind.pending }
      else l.client.slot id := by
    intro id
    have hget : (l.ask kind method params).client.pending.get? id =
        if l.client.nextId = id then some kind.pending else l.client.pending.get? id :=
      OrdMap.get?_insert _ _ _ _
    by_cases hid : id = l.client.nextId
    · rw [if_pos hid]
      exact Slot.ext (hget.trans (if_pos hid.symm)) rfl rfl
    · rw [if_neg hid]
      exact Slot.ext (hget.trans (if_neg (Ne.symm hid))) rfl rfl
  refine ⟨?_, ?_, ?_, ?_, ?_, h.unserved, ?_, h.fifo, h.tasks, ?_, ?_⟩
  · rw [Link.ask]
    dsimp only
    rw [List.map_append]
    refine h.ids.append (List.nodup_singleton _) fun id hid hnext => ?_
    obtain ⟨q, hq, rfl⟩ := List.mem_map.mp hid
    exact hnew q hq (List.mem_singleton.mp hnext)
  · intro q hq
    rcases List.mem_append.mp hq with hold | hnow
    · exact Nat.lt_succ_of_lt (h.numbered q hold)
    · rw [List.mem_singleton.mp hnow]
      exact Nat.lt_succ_self _
  · intro f hf
    rcases List.mem_cons.mp (hperm.mem_iff.mp hf) with rfl | hold
    · exact ⟨_, List.mem_append_right _ List.mem_cons_self, rfl⟩
    · obtain ⟨q, hq, hsame⟩ := h.frames f hold
      exact ⟨q, List.mem_append_left _ hq, hsame⟩
  · refine ((hperm.map _).append_right _).nodup_iff.mpr ?_
    rw [List.map_cons, List.cons_append]
    refine List.nodup_cons.mpr ⟨fun hmem => ?_, h.once⟩
    rcases List.mem_append.mp hmem with hframe | hserved
    · obtain ⟨f, hf, heq⟩ := List.mem_map.mp hframe
      obtain ⟨q, hq, rfl⟩ := h.frames f hf
      exact hnew q hq heq
    · exact hunserved hserved
  · intro s hs
    obtain ⟨q, hq, hsame⟩ := h.served s hs
    exact ⟨q, List.mem_append_left _ hq, hsame⟩
  · intro id hid
    rw [hslot, if_neg (Nat.ne_of_gt hid)]
    exact h.fresh id (Nat.le_of_succ_le hid)
  · intro q hq
    rw [hslot]
    rcases List.mem_append.mp hq with hold | hnow
    · rw [if_neg (hnew q hold)]
      refine (h.heard q hold).mono id (fun hsilent => ?_) id
      refine ⟨hsilent.1, hsilent.2.1, hsilent.2.2.imp_right fun hno hmem => ?_⟩
      rcases List.mem_cons.mp ((hperm.map _).mem_iff.mp hmem) with hnext | hold'
      · exact hnew q hold hnext
      · exact hno hold'
    · rw [List.mem_singleton.mp hnow, if_pos rfl]
      have hfresh := h.fresh l.client.nextId le_rfl
      have hread : (l.ask kind method params).read l.client.nextId = [] :=
        (h.said_eq_nil hunserved).2.1
      have hstart : ({ l.client.slot l.client.nextId with pending := some kind.pending } : Slot V) =
          ⟨some kind.pending, {}, []⟩ := by rw [hfresh]
      rw [hread]
      change Heard ({ l.client.slot l.client.nextId with pending := some kind.pending } : Slot V) []
        _ _ _ kind
      rw [hstart]
      exact Heard.start kind
  · intro held hheld
    obtain ⟨q, hq, hsame⟩ := h.holds held hheld
    exact ⟨q, List.mem_append_left _ hq, hsame⟩

/-- Whoever waits on a number nothing will be said of is told so. -/
theorem fail (h : l.Inv) {id : Nat} (hid : id < l.client.nextId) (hsilent : l.Silent id)
    (hdown : l.down = true) : ({ l with client := l.client.fail id .closed } : Link V).Inv := by
  obtain ⟨hgone, hnext, hheld⟩ := Client.fail_kept l.client id .closed
  refine h.reclient hnext (fun j hj => ?_) (fun q hq => ?_) (fun held hholds => ?_)
  · rw [Client.slot_fail, if_neg (ne_of_gt (lt_of_lt_of_le hid hj))]
    exact h.fresh j hj
  · rw [Client.slot_fail, hgone]
    by_cases hq' : q.id = id
    · rw [if_pos hq']
      exact (h.heard q hq).fail (hq' ▸ hsilent) hdown
    · rw [if_neg hq']
      exact h.heard q hq
  · exact h.holds held (hheld ▸ hholds)

theorem send (h : l.Inv) (at' : Nat) : (l.send at').Inv := by
  unfold Link.send
  split
  · exact h
  · rename_i f hf
    obtain ⟨hlt, hget⟩ := List.getElem?_eq_some_iff.mp hf
    have hperm : (f :: l.sending.eraseIdx at').Perm l.sending :=
      hget ▸ List.getElem_cons_eraseIdx_perm hlt
    have herased : ({ l with sending := l.sending.eraseIdx at' } : Link V).Inv :=
      h.moved (((List.eraseIdx_sublist _ _).append_right _).filter _).subperm
    dsimp only
    split
    · refine h.moved (List.Perm.subperm (.filter _ ?_))
      refine List.Perm.trans ?_ (hperm.append_right l.toServer)
      rw [← List.append_assoc]
      exact List.perm_append_singleton _ _
    · split
      · exact herased
      · rename_i hdown hcancel
        have hdown' : l.down = true := by
          cases hd : l.down with
          | true => rfl
          | false => exact absurd (by rw [hd]; rfl) hdown
        have hrequest : isRequest f = true := by
          rw [isRequest, Bool.not_eq_true']
          exact Bool.eq_false_iff.mpr hcancel
        have hway : f ∈ l.onWay := List.mem_filter.mpr
          ⟨List.mem_append_left _ (hperm.subset List.mem_cons_self), hrequest⟩
        obtain ⟨q, hq, hfq⟩ := h.frames f hway
        have hunserved : f.id ∉ l.served.map Prod.fst := fun hserved =>
          List.disjoint_of_nodup_append h.once (List.mem_map_of_mem hway) hserved
        have hlt : f.id < l.client.nextId := by
          rw [hfq]
          exact h.numbered q hq
        exact herased.fail hlt
          ⟨(h.unserved _ hunserved).1, (h.said_eq_nil hunserved).2.2, .inl hdown'⟩ hdown'

theorem abandon (h : l.Inv) (at' : Nat) : (l.abandon at').Inv :=
  h.moved (((List.eraseIdx_sublist _ _).append_right _).filter _).subperm

/-- A frame that ends a request may be sent at any time. -/
theorem cancelling (h : l.Inv) (id : Nat) :
    ({ l with sending := l.sending ++ [cancelFrame id] } : Link V).Inv ∧
      ({ l with toServer := l.toServer ++ [cancelFrame id] } : Link V).Inv := by
  constructor
  · refine h.moved (List.Perm.subperm (.of_eq ?_))
    rw [Link.onWay, List.filter_append, List.filter_append, List.filter_append]
    exact congrArg (· ++ _) (List.append_nil _)
  · refine h.moved (List.Perm.subperm (.of_eq ?_))
    rw [Link.onWay, List.filter_append, List.filter_append, List.filter_append]
    exact congrArg (_ ++ ·) (List.append_nil _)

theorem drop (h : l.Inv) (id : Nat) (owned room : Bool) : (l.drop id owned room).Inv := by
  unfold Link.drop
  split
  · exact h
  · rename_i hstream
    obtain ⟨r, hr, hid, hkind⟩ : ∃ r ∈ l.asked, r.id = id ∧ r.kind ≠ .call := by
      have hstream' : l.isStream id = true := by
        cases hs : l.isStream id with
        | true => rfl
        | false => exact absurd (by rw [hs]; rfl) hstream
      obtain ⟨r, hr, hboth⟩ := List.any_eq_true.mp hstream'
      obtain ⟨hid, hkind⟩ := Bool.and_eq_true_iff.mp hboth
      exact ⟨r, hr, beq_iff_eq.mp hid, of_decide_eq_true hkind⟩
    have hgone :
        ({ l with client := { l.client with gone := l.client.gone ++ [id] } } : Link V).Inv :=
      h.reclient rfl h.fresh (fun q hq => (h.heard q hq).mono
        (fun hg => List.mem_append_left _ hg) (fun hs => hs) (fun hd => hd)) h.holds
    have htaken : ({ l with
        client := ({ l.client with gone := l.client.gone ++ [id] } : Client V).forget id }
          : Link V).Inv := by
      refine hgone.reclient rfl (fun j hj => ?_) (fun q hq => ?_) h.holds
      · have hlt : id < l.client.nextId := hid ▸ h.numbered r hr
        rw [Client.slot_forget, if_neg (ne_of_gt (lt_of_lt_of_le hlt hj))]
        exact h.fresh j hj
      · rw [Client.slot_forget]
        by_cases hq' : q.id = id
        · rw [if_pos hq']
          have hsame : q = r := h.request_inj hq hr (hq'.trans hid.symm)
          exact (hgone.heard q hq).forget (hsame ▸ hkind)
            (hq' ▸ List.mem_append_right _ List.mem_cons_self)
        · rw [if_neg hq']
          exact hgone.heard q hq
    dsimp only
    split
    · exact hgone
    · split
      · exact htaken
      · split
        · exact (htaken.cancelling id).2
        · exact (htaken.cancelling id).1

theorem queue (h : l.Inv) : l.queue.Inv := by
  unfold Link.queue
  split
  · exact h
  · rename_i id item hheld
    obtain ⟨r, hr, hid, hkind⟩ : ∃ r ∈ l.asked, r.id = id ∧ r.kind ≠ .call := h.holds _ hheld
    have hslot : ∀ j, ({ l.client with held := none } : Client V).slot j =
        { l.client.slot j with held := [] } := fun _ => rfl
    have hlt : id < l.client.nextId := hid ▸ h.numbered r hr
    have hmine : (l.client.slot id).held = [item] := by
      rw [Client.slot, Client.heldItems, hheld]
      dsimp only
      rw [Option.filter_some, if_pos (beq_self_eq_true id)]
      rfl
    have hother : ∀ j, j ≠ id → ({ l.client with held := none } : Client V).slot j =
        l.client.slot j := by
      intro j hj
      refine Slot.ext rfl rfl ?_
      change [] = l.client.heldItems j
      rw [Client.heldItems, hheld, Option.filter_some, if_neg fun h => hj (beq_iff_eq.mp h).symm]
      rfl
    dsimp only
    split
    · rename_i hgone
      refine ((h.reclient (c := ({ l.client with held := none } : Client V).forget id) rfl
        (fun j hj => ?_) (fun q hq => ?_) fun held hno => (by cases hno)).cancelling id).1
      · have hj' : j ≠ id := ne_of_gt (lt_of_lt_of_le hlt hj)
        rw [Client.slot_forget, if_neg hj', hother j hj']
        exact h.fresh j hj
      · rw [Client.slot_forget]
        by_cases hq' : q.id = id
        · rw [if_pos hq', hslot]
          have hsame : q = r := h.request_inj hq hr (hq'.trans hid.symm)
          exact (h.heard q hq).lost (hsame ▸ hkind) (hq' ▸ List.contains_iff_mem.mp hgone)
        · rw [if_neg hq', hother _ hq']
          exact h.heard q hq
    · refine h.reclient (c := ({ l.client with held := none } : Client V).tell id (·.queued item))
        rfl (fun j hj => ?_) (fun q hq => ?_) fun held hno => by cases hno
      · have hj' : j ≠ id := ne_of_gt (lt_of_lt_of_le hlt hj)
        rw [Client.slot_tell, if_neg hj', hother j hj']
        exact h.fresh j hj
      · rw [Client.slot_tell]
        by_cases hq' : q.id = id
        · rw [if_pos hq', hslot]
          have hsame : q = r := h.request_inj hq hr (hq'.trans hid.symm)
          exact (h.heard q hq).queued (hsame ▸ hkind) (hq' ▸ hmine)
        · rw [if_neg hq', hother _ hq']
          exact h.heard q hq

theorem readFrame (h : l.Inv) : l.readFrame.Inv := by
  unfold Link.readFrame
  split
  · rename_i f rest hheld hway
    have hgone : (l.client.routeFrame f).gone = l.client.gone ∧
        (l.client.routeFrame f).nextId = l.client.nextId := Client.routeFrame_kept l.client f
    -- what was said of the number of the frame, before it and after
    have hsaid : l.said f.id = l.read f.id ++ f :: framesOf f.id rest := by
      rw [h.fifo f.id, hway, framesOf_cons_self]
    have hserved : f.id ∈ l.served.map Prod.fst := by
      by_contra hno
      exact (h.said_eq_nil hno).2.2 f (hway ▸ List.mem_cons_self) rfl
    obtain ⟨hread, hitem⟩ := Says.order (hsaid ▸ h.tasks f.id)
    have hsilent : ¬l.Silent f.id := fun hs => hs.2.1 f (hway ▸ List.mem_cons_self) rfl
    refine ⟨h.ids, fun q hq => hgone.2 ▸ h.numbered q hq, h.frames, h.once, h.served, h.unserved,
      fun id hid => ?_, fun id => ?_, h.tasks, fun q hq => ?_, fun held hholds => ?_⟩
    · have hne : id ≠ f.id := ne_of_gt (lt_of_lt_of_le (h.served_lt hserved) (hgone.2 ▸ hid))
      rw [Client.slot_routeFrame l.client hheld, if_neg hne]
      exact h.fresh id (hgone.2 ▸ hid)
    · dsimp only
      have hfifo := h.fifo id
      rw [hway] at hfifo
      by_cases hid : id = f.id
      · subst hid
        rw [Function.update_self, hfifo, framesOf_cons_self, List.append_assoc,
          List.singleton_append]
      · rw [Function.update_of_ne hid, hfifo, framesOf_cons_of_ne (Ne.symm hid)]
    · dsimp only
      rw [Client.slot_routeFrame l.client hheld, hgone.1]
      have hquiet : l.Silent q.id → ({ l with
          client := l.client.routeFrame f, toClient := rest,
          read := Function.update l.read f.id (l.read f.id ++ [f]) } : Link V).Silent q.id :=
        fun hs => ⟨hs.1, fun g hg => hs.2.1 g (hway ▸ List.mem_cons_of_mem _ hg), hs.2.2⟩
      by_cases hq' : q.id = f.id
      · rw [if_pos hq', hq', Function.update_self]
        have hheard := h.heard q hq
        rw [hq'] at hheard hquiet
        exact (hheard.route hsilent hread hitem).mono (fun hg => hg) hquiet fun hd => hd
      · rw [if_neg hq', Function.update_of_ne hq']
        exact (h.heard q hq).mono (fun hg => hg) hquiet fun hd => hd
    · obtain ⟨hid, hnone, hcall⟩ := Client.routeFrame_holds hheld hholds
      obtain ⟨s, hs, hsid⟩ := List.mem_map.mp hserved
      obtain ⟨q, hq, rfl⟩ := h.served s hs
      have hqid : q.id = f.id := hsid
      refine ⟨q, hq, hqid.trans hid.symm, fun hkind => ?_⟩
      have hheard := h.heard q hq
      rw [hkind, hqid] at hheard
      rcases (show HeardCall _ _ _ from hheard).kind with hp | hp
      · exact hnone hp
      · exact hcall hp
  · exact h

theorem stop (h : l.Inv) (id : Nat) : (l.stop id).Inv := by
  have hget : ∀ j, (l.stop id).running.get? j = if j = id then none else l.running.get? j :=
    OrdMap.get?_erase l.running id
  have hnone : ∀ j, l.running.get? j = none → (l.stop id).running.get? j = none := by
    intro j hj
    rw [hget, hj, ite_self]
  refine ⟨h.ids, h.numbered, h.frames, h.once, h.served,
    fun j hj => ⟨hnone j (h.unserved j hj).1, (h.unserved j hj).2⟩, h.fresh, h.fifo, fun j => ?_,
    fun q hq => ?_, h.holds⟩
  · rw [hget]
    by_cases hj : j = id
    · rw [if_pos hj]
      exact (h.tasks j).stop
    · rw [if_neg hj]
      exact h.tasks j
  · exact (h.heard q hq).mono (fun hg => hg) (fun hs => ⟨hnone _ hs.1, hs.2⟩) fun hd => hd

/-- A task that runs goes on, and says these frames. -/
theorem spoken (h : l.Inv) {id : Nat} (hruns : l.running.get? id ≠ none)
    (running : OrdMap Nat Task) (replies : OrdMap Nat (Reply V)) (frames : List (ServerFrame V))
    (hframes : ∀ f ∈ frames, f.id = id)
    (hothers : ∀ j, j ≠ id → running.get? j = l.running.get? j ∧ replies.get? j = l.replies.get? j)
    (htask : Says id (running.get? id) (replies.get? id) (l.said id ++ frames)) :
    ({ l with
      running, replies
      toClient := l.toClient ++ frames
      said := Function.update l.said id (l.said id ++ frames) } : Link V).Inv := by
  refine ⟨h.ids, h.numbered, h.frames, h.once, h.served, fun j hj => ?_, h.fresh, fun j => ?_,
    fun j => ?_, fun q hq => ?_, h.holds⟩
  · have hj' : j ≠ id := by
      rintro rfl
      exact hruns (h.unserved j hj).1
    rw [(hothers j hj').1, (hothers j hj').2]
    exact h.unserved j hj
  · dsimp only
    rw [framesOf_append]
    by_cases hj : j = id
    · subst hj
      have hall : framesOf j frames = frames :=
        List.filter_eq_self.mpr fun f hf => beq_iff_eq.mpr (hframes f hf)
      rw [Function.update_self, hall, h.fifo j, List.append_assoc]
    · have hno : framesOf j frames = [] :=
        List.filter_eq_nil_iff.mpr fun f hf hb => hj ((beq_iff_eq.mp hb).symm.trans (hframes f hf))
      rw [Function.update_of_ne hj, hno, List.append_nil]
      exact h.fifo j
  · dsimp only
    by_cases hj : j = id
    · subst hj
      rw [Function.update_self]
      exact htask
    · rw [Function.update_of_ne hj, (hothers j hj).1, (hothers j hj).2]
      exact h.tasks j
  · refine (h.heard q hq).mono (fun hg => hg) (fun hs => ?_) fun hd => hd
    have hq' : q.id ≠ id := fun heq => hruns (heq ▸ hs.1)
    refine ⟨(hothers _ hq').1.trans hs.1, fun f hf => ?_, hs.2.2⟩
    rcases List.mem_append.mp hf with hf | hf
    · exact hs.2.1 f hf
    · rw [hframes f hf]
      exact Ne.symm hq'

theorem reply (h : l.Inv) (id : Nat) (r : Reply V) : (l.reply id r).Inv := by
  unfold Link.reply
  split
  · rename_i hhandling
    have hruns : l.running.get? id ≠ none := hhandling ▸ Option.some_ne_none _
    obtain ⟨-, hsaid⟩ := Says.of_handling (hhandling ▸ h.tasks id)
    have hreply : (l.replies.insert id r).get? id = some r := OrdMap.get?_insert_self _ _ _
    have hreplies : ∀ j, j ≠ id → (l.replies.insert id r).get? j = l.replies.get? j := by
      intro j hj
      rw [OrdMap.get?_insert, if_neg (Ne.symm hj)]
    have herased : ∀ j, j ≠ id → (l.running.erase id).get? j = l.running.get? j := by
      intro j hj
      rw [OrdMap.get?_erase, if_neg hj]
    have hover : (l.running.erase id).get? id = none := OrdMap.get?_erase_self _ _
    cases r with
    | value value =>
      refine h.spoken hruns (l.running.erase id) (l.replies.insert id (.value value))
        [okFrame id value] (fun f hf => ?_) (fun j hj => ⟨herased j hj, hreplies j hj⟩) ?_
      · rw [List.mem_singleton.mp hf]
        rfl
      · rw [hreply, hover, hsaid]
        exact ⟨rfl, rfl⟩
    | stream =>
      have hstreaming : (l.running.insert id .streaming).get? id = some .streaming :=
        OrdMap.get?_insert_self _ _ _
      have hkept := h.spoken hruns (l.running.insert id .streaming) (l.replies.insert id .stream) []
        (fun f hf => absurd hf List.not_mem_nil)
        (fun j hj => ⟨by rw [OrdMap.get?_insert, if_neg (Ne.symm hj)], hreplies j hj⟩) ?_
      · rw [List.append_nil, List.append_nil, Function.update_eq_self] at hkept
        exact hkept
      · rw [hreply, hstreaming, hsaid]
        exact ⟨by decide, [], .inl rfl⟩
    | err e =>
      refine h.spoken hruns (l.running.erase id) (l.replies.insert id (.err e))
        [errFrame id e] (fun f hf => ?_) (fun j hj => ⟨herased j hj, hreplies j hj⟩) ?_
      · rw [List.mem_singleton.mp hf]
        rfl
      · rw [hreply, hover, hsaid]
        exact ⟨rfl, rfl⟩
  · exact h

theorem stream (h : l.Inv) (id : Nat) (item : Option (Option V)) : (l.stream id item).Inv := by
  unfold Link.stream
  split
  · rename_i hstreaming
    have hruns : l.running.get? id ≠ none := hstreaming ▸ Option.some_ne_none _
    obtain ⟨hreply, items, hsaid⟩ := Says.of_streaming (hstreaming ▸ h.tasks id)
    cases item with
    | some item =>
      refine h.spoken hruns l.running l.replies [itemFrame id item] (fun f hf => ?_)
        (fun j _ => ⟨rfl, rfl⟩) ?_
      · rw [List.mem_singleton.mp hf]
        rfl
      · rw [hreply, hstreaming, hsaid]
        refine ⟨by decide, items ++ [item], .inl ?_⟩
        rw [List.map_append]
        rfl
    | none =>
      refine h.spoken hruns (l.running.erase id) l.replies [doneFrame id] (fun f hf => ?_)
        (fun j hj => ⟨by rw [OrdMap.get?_erase, if_neg hj], rfl⟩) ?_
      · rw [List.mem_singleton.mp hf]
        rfl
      · rw [hreply, OrdMap.get?_erase_self, hsaid]
        exact ⟨by decide, items, .inr ⟨rfl, rfl⟩⟩
  · exact h

theorem serve (h : l.Inv) : l.serve.Inv := by
  unfold Link.serve
  split
  · exact h
  · rename_i f rest hway
    have hrest : ((l.sending ++ rest).filter isRequest).Subperm l.onWay := by
      rw [Link.onWay, hway]
      exact (((List.sublist_cons_self f rest).append_left _).filter _).subperm
    split
    · exact h
    · rename_i hdown
      split
      · exact (h.stop f.id).moved hrest
      · rename_i hcancel
        split
        · exact h.moved hrest
        · rename_i method hmethod
          have hrequest : isRequest f = true := by
            rw [isRequest, Bool.not_eq_true']
            exact Bool.eq_false_iff.mpr hcancel
          have hperm : l.onWay.Perm (f :: (l.sending ++ rest).filter isRequest) := by
            rw [Link.onWay, hway, ← List.filter_cons_of_pos hrequest]
            exact List.perm_middle.filter _
          obtain ⟨q, hq, hfq⟩ := h.frames f (hperm.mem_iff.mpr List.mem_cons_self)
          have hunserved : f.id ∉ l.served.map Prod.fst := fun hserved =>
            List.disjoint_of_nodup_append h.once
              (List.mem_map_of_mem (hperm.mem_iff.mpr List.mem_cons_self)) hserved
          have hget : ∀ j, (l.running.insert f.id .handling).get? j =
              if f.id = j then some .handling else l.running.get? j :=
            fun j => OrdMap.get?_insert _ _ _ _
          have hids := subperm_map hrest
          refine ⟨h.ids, h.numbered, fun g hg => h.frames g (hrest.subset hg), ?_, ?_, ?_, h.fresh,
            h.fifo, ?_, ?_, h.holds⟩
          · dsimp only [Link.onWay]
            rw [List.map_append, List.map_singleton]
            have hnodup := ((hperm.map ClientFrame.id).append_right _).nodup_iff.mp h.once
            refine (List.Perm.nodup_iff ?_).mp hnodup
            rw [List.map_cons, List.cons_append, ← List.append_assoc]
            exact (List.perm_append_singleton _ _).symm
          · intro s hs
            rcases List.mem_append.mp hs with hs | hs
            · exact h.served s hs
            · refine ⟨q, hq, (List.mem_singleton.mp hs).trans ?_⟩
              rw [hfq] at hmethod ⊢
              rw [← Option.some.inj hmethod]
              rfl
          · intro j hj
            dsimp only at hj ⊢
            rw [List.map_append, List.mem_append] at hj
            have hj' : f.id ≠ j := fun heq => hj (.inr (heq ▸ List.mem_singleton_self _))
            rw [hget, if_neg hj']
            exact h.unserved j fun hmem => hj (.inl hmem)
          · intro j
            dsimp only
            rw [hget]
            by_cases hj : f.id = j
            · subst hj
              rw [if_pos rfl, (h.unserved _ hunserved).2, (h.said_eq_nil hunserved).1]
              exact ⟨rfl, by decide⟩
            · rw [if_neg hj]
              exact h.tasks j
          · intro r hr
            refine (h.heard r hr).mono (fun hg => hg) (fun hs => ?_) fun hd => hd
            have hno : r.id ∉ l.onWay.map ClientFrame.id := hs.2.2.resolve_left hdown
            have hr' : f.id ≠ r.id := fun heq =>
              hno (heq ▸ List.mem_map_of_mem (hperm.mem_iff.mpr List.mem_cons_self))
            refine ⟨?_, hs.2.1, .inr fun hmem => hno (hids.subset hmem)⟩
            dsimp only
            rw [hget, if_neg hr']
            exact hs.1

theorem goDown (h : l.Inv) : ({ l with down := true } : Link V).Inv :=
  ⟨h.ids, h.numbered, h.frames, h.once, h.served, h.unserved, h.fresh, h.fifo, h.tasks,
    fun q hq => (h.heard q hq).mono (fun hg => hg) (fun hs => ⟨hs.1, hs.2.1, .inl rfl⟩)
      fun _ => rfl, h.holds⟩

theorem close (h : l.Inv) : l.close.Inv := by
  unfold Link.close
  split
  · rename_i hclose
    rw [Bool.and_eq_true, Bool.and_eq_true, Bool.and_eq_true] at hclose
    obtain ⟨⟨⟨hdown, hheld⟩, hway⟩, hkeys⟩ := hclose
    have hslot : ∀ j, l.client.close.slot j = (l.client.slot j).fail .closed := by
      intro j
      have hfail := Client.slot_fail l.client j .closed j
      rw [if_pos rfl] at hfail
      rw [← hfail]
      refine Slot.ext ?_ rfl ?_
      · change none = ((l.client.fail j .closed).slot j).pending
        rw [hfail]
        unfold Slot.fail
        split <;> rfl
      · change l.client.heldItems j = (l.client.fail j .closed).heldItems j
        rw [Client.heldItems, Client.heldItems, (Client.fail_kept _ _ _).2.2]
    have hsilent : ∀ j, l.Silent j := by
      intro j
      refine ⟨?_, fun f hf => ?_, .inl hdown⟩
      · rw [← Option.not_isSome_iff_eq_none, ← OrdMap.mem_keys, List.isEmpty_iff.mp hkeys]
        exact List.not_mem_nil
      · rw [List.isEmpty_iff.mp hway] at hf
        exact absurd hf List.not_mem_nil
    refine h.reclient rfl (fun j hj => ?_) (fun q hq => ?_) h.holds
    · rw [hslot, h.fresh j hj]
      rfl
    · rw [hslot]
      exact (h.heard q hq).fail (hsilent _) hdown
  · exact h

theorem step (h : l.Inv) (st : Step V) : (l.step st).Inv := by
  cases st with
  | ask kind method params => exact h.ask kind method params
  | send at' => exact h.send at'
  | abandon at' => exact h.abandon at'
  | drop id owned room => exact h.drop id owned room
  | read => exact h.readFrame
  | queue => exact h.queue
  | serve => exact h.serve
  | reply id r => exact h.reply id r
  | stream id item => exact h.stream id item
  | stop id => exact h.stop id
  | down => exact h.goDown
  | close => exact h.close

end Link.Inv

theorem run_inv (steps : List (Step V)) : (run steps).Inv := by
  induction steps using List.reverseRecOn with
  | nil => exact Link.Inv.start
  | append_singleton steps st ih =>
    rw [run, List.foldl_append]
    exact ih.step st

namespace Link.Inv

variable {l : Link V}

/-- A request something was said of was served once, as it was asked. -/
theorem served_once (h : l.Inv) {q : Request V} (hq : q ∈ l.asked) (hsaid : l.said q.id ≠ []) :
    (q.id, q.method, q.params) ∈ l.served ∧ (l.served.map Prod.fst).count q.id = 1 := by
  have hserved : q.id ∈ l.served.map Prod.fst := by
    by_contra hno
    exact hsaid (h.said_eq_nil hno).1
  refine ⟨?_, List.count_eq_one_of_mem (List.nodup_append.mp h.once).2.1 hserved⟩
  obtain ⟨s, hs, hsid⟩ := List.mem_map.mp hserved
  obtain ⟨r, hr, rfl⟩ := h.served s hs
  exact h.request_inj hr hq hsid ▸ hs

theorem read_prefix (h : l.Inv) (id : Nat) : l.read id <+: l.said id := by
  rw [h.fifo id]
  exact List.prefix_append _ _

theorem read_eq_said (h : l.Inv) {id : Nat} (hway : ∀ f ∈ l.toClient, f.id ≠ id) :
    l.read id = l.said id := by
  have hnone : framesOf id l.toClient = [] :=
    List.filter_eq_nil_iff.mpr fun f hf hb => hway f hf (beq_iff_eq.mp hb)
  rw [h.fifo id, hnone, List.append_nil]

end Link.Inv

/-- However requests are made, dropped, sent, served and read, and whoever goes first, a call is
answered at most once: that the connection is closed, of a server that is gone, or what the service
made of that very call, served once and as it was asked. Once what was made of it was read, it is
answered. -/
theorem call_gets_its_own (steps : List (Step V)) :
    ((run steps).asked.map Request.id).Nodup ∧ ∀ q ∈ (run steps).asked, q.kind = .call →
      ((run steps).client.told q.id).answers.length ≤ 1 ∧
      (∀ a ∈ ((run steps).client.told q.id).answers,
        (a = .error .closed ∧ (run steps).down = true) ∨
          ((q.id, q.method, q.params) ∈ (run steps).served ∧
            ((run steps).served.map Prod.fst).count q.id = 1 ∧
            ∃ r, (run steps).replies.get? q.id = some r ∧ a = r.outcome)) ∧
      ∀ r, (run steps).replies.get? q.id = some r → r ≠ .stream →
        (∀ f ∈ (run steps).toClient, f.id ≠ q.id) →
          ((run steps).client.told q.id).answers ≠ [] := by
  have h := run_inv steps
  generalize run steps = l at h
  refine ⟨h.ids, fun q hq hkind => ?_⟩
  have hcall : HeardCall (l.client.slot q.id) (l.read q.id) (l.down = true) := by
    have hheard := h.heard q hq
    rw [hkind] at hheard
    exact hheard
  have htask := h.tasks q.id
  have hover : (l.client.slot q.id).pending = some .call ∨
      ∃ a, (l.client.told q.id).answers = [a] ∧ (a = .error .closed ∧ l.down = true ∨
        ∃ f, (l.read q.id).find? last = some f ∧ a = outcome f) :=
    hcall.kind.symm.imp_right hcall.ends
  refine ⟨?_, fun a ha => ?_, fun r hr hstream hway => ?_⟩
  · rcases hover with hwaits | ⟨a, ha, -⟩
    · exact (congrArg List.length (hcall.waits hwaits).1).trans_le (Nat.zero_le _)
    · exact (congrArg List.length ha).le
  · rcases hover with hwaits | ⟨b, hb, hwhy⟩
    · have hnone : (l.client.told q.id).answers = [] := (hcall.waits hwaits).1
      rw [hnone] at ha
      exact absurd ha List.not_mem_nil
    · rw [hb] at ha
      obtain rfl := List.mem_singleton.mp ha
      refine hwhy.imp id ?_
      rintro ⟨f, hf, rfl⟩
      have hsaid : f ∈ l.said q.id := (h.read_prefix q.id).subset (List.mem_of_find?_eq_some hf)
      obtain ⟨r, hr, hout⟩ := htask.outcome_eq hsaid (List.find?_some hf)
      obtain ⟨hserved, hcount⟩ := h.served_once hq (List.ne_nil_of_mem hsaid)
      exact ⟨hserved, hcount, r, hr, hout⟩
  · rw [hr] at htask
    obtain ⟨f, hf, hlast⟩ := htask.exists_last hstream
    rw [← h.read_eq_said hway] at hf
    rcases hover with hwaits | ⟨a, ha, -⟩
    · exact absurd (((hcall.waits hwaits).2 f hf).symm.trans hlast) Bool.false_ne_true
    · exact ha ▸ List.cons_ne_nil _ _

/-- A stream is given items of its own request alone, in the order they were said and none twice;
while its listener is there none is lost either: each was given, is held by the reader or is on its
way. One that is told when it is ready is told so once, by what its own request said first, or that
the connection is closed. -/
theorem stream_in_order (steps : List (Step V)) :
    ∀ q ∈ (run steps).asked, q.kind ≠ .call →
      ((run steps).said q.id ≠ [] → (q.id, q.method, q.params) ∈ (run steps).served ∧
        ((run steps).served.map Prod.fst).count q.id = 1) ∧
      ((run steps).client.told q.id).items <+: itemsOf ((run steps).said q.id) ∧
      (q.id ∉ (run steps).client.gone →
        ((run steps).client.told q.id).items ++ (run steps).client.heldItems q.id ++
          itemsOf (framesOf q.id (run steps).toClient) = itemsOf ((run steps).said q.id)) ∧
      (q.kind = .checkedStream →
        ((run steps).client.told q.id).ready.length ≤ 1 ∧
        (∀ a ∈ ((run steps).client.told q.id).ready,
          (a = .error .closed ∧ (run steps).down = true) ∨
            ∃ f, ((run steps).said q.id).find? meaningful = some f ∧ a = acknowledged f) ∧
        (q.id ∉ (run steps).client.gone → (∀ f ∈ (run steps).toClient, f.id ≠ q.id) →
          (∃ f ∈ (run steps).said q.id, meaningful f = true) →
            ((run steps).client.told q.id).ready ≠ [])) := by
  have h := run_inv steps
  generalize run steps = l at h
  intro q hq hkind
  have hheard := h.heard q hq
  have hstream := Heard.stream hheard hkind
  refine ⟨h.served_once hq, ?_, fun hgone => ?_, fun hchecked => ?_⟩
  · have hread : itemsOf (l.read q.id) <+: itemsOf (l.said q.id) := by
      rw [h.fifo q.id, itemsOf_append]
      exact List.prefix_append _ _
    exact ((List.prefix_append _ _).trans hstream.begins).trans hread
  · rw [h.fifo q.id, itemsOf_append]
    exact congrArg (· ++ _) (hstream.items hgone)
  · rw [hchecked] at hheard
    have hready : HeardReady (l.client.slot q.id) (l.read q.id) (q.id ∈ l.client.gone)
      (l.down = true) := hheard.2
    have hslot : (l.client.slot q.id).told = l.client.told q.id := rfl
    rw [← hslot]
    rcases hready.told with ⟨hnil, hwhy⟩ | ⟨hclosed, hdown⟩ | ⟨f, hf, hack⟩
    · rw [hnil]
      refine ⟨Nat.zero_le _, fun a ha => absurd ha List.not_mem_nil, fun hgone hway hsome => ?_⟩
      obtain ⟨f, hf, hmeans⟩ := hsome
      rw [← h.read_eq_said hway] at hf
      exact absurd ((hwhy.resolve_left hgone f hf).symm.trans hmeans) Bool.false_ne_true
    · rw [hclosed]
      exact ⟨le_rfl, fun a ha => .inl ⟨List.mem_singleton.mp ha, hdown⟩,
        fun _ _ _ => List.cons_ne_nil _ _⟩
    · rw [hack]
      refine ⟨le_rfl, fun a ha => .inr ⟨f, ?_, List.mem_singleton.mp ha⟩,
        fun _ _ _ => List.cons_ne_nil _ _⟩
      rw [h.fifo q.id, List.find?_append, hf]
      rfl

/-- A stream of two items, the second on its way. -/
def watched : List (Step Bool) :=
  [.ask .checkedStream "watch".toList none, .send 0, .serve, .reply 1 .stream,
    .stream 1 (some (some true)), .read, .queue, .stream 1 (some (some false))]

theorem stream_in_order_watched :
    ((run watched).client.told 1).items = [true] ∧
      ((run watched).client.told 1).items <+: itemsOf ((run watched).said 1) ∧
      ((run watched).client.told 1).items ++ (run watched).client.heldItems 1 ++
        itemsOf (framesOf 1 (run watched).toClient) = itemsOf ((run watched).said 1) ∧
      ((run watched).client.told 1).ready.length ≤ 1 :=
  have h := stream_in_order watched ⟨1, .checkedStream, "watch".toList, none⟩
    (List.mem_singleton.mpr rfl) (by decide)
  ⟨rfl, h.2.1, h.2.2.1 (by decide), (h.2.2.2 rfl).1⟩

end Slopty.View.Rpc
