import Slopty.Lib.Race
import Slopty.Lib.Text
import Slopty.Media.Wire

/-!
A terminal's input on its two ways to the worker. Both ends number a session's inputs as the
control stream carries them; a datagram copy names its input by that number, and goes to the
terminal only when it is the next.
-/

namespace Slopty.Link

open Slopty.Lib

abbrev SessionId := Nat

/-- The requests about one terminal; what no function here looks into is a number. -/
inductive TermRequest where
  | key (event : Nat)
  | mouse (event : Nat)
  | paste (text : Text) (confirmed : Bool)
  | raw (bytes : Bytes)
  | clear
  | focus (gained : Bool)
  | pastePicture (picture : Nat)
  | attach (size : Nat)
  | detach
  | close
  | restart
  | resize (size : Nat)
  | drive (take : Bool)
  | fetchLines (start count : Nat)
  | search (query : Nat)
  | colors (colors : Nat)
  | reached (marker : Nat)
  | dragEnter (drag : Nat)
  | dragOver (drag : Nat)
  | dragLeave
  | drop (drag : Nat)
  | dropFiles (drag : Nat)
  deriving DecidableEq, Repr

def TermRequest.isInput : TermRequest → Bool
  | .key _ | .mouse _ | .paste _ _ | .raw _ | .clear | .focus _ | .pastePicture _ => true
  | _ => false

/-- What the control stream carries: a terminal's request, or anything else. -/
inductive ClientMsg where
  | term (session : SessionId) (req : TermRequest)
  | other (msg : Nat)
  deriving DecidableEq, Repr

structure InputCopy where
  session : SessionId
  seq : Nat
  req : TermRequest
  deriving DecidableEq, Repr

/-- How many inputs of each session the control stream has carried. -/
abbrev InputNumbers := SessionId → Nat

def InputNumbers.number (n : InputNumbers) : ClientMsg → InputNumbers × Option InputCopy
  | .term session req =>
      if req.isInput then
        (Function.update n session (n session + 1), some ⟨session, n session + 1, req⟩)
      else (n, none)
  | .other _ => (n, none)

def tooLong : TermRequest → Bool
  | .paste text _ => decide (Media.Wire.maxDatagram < text.utf8Len)
  | .raw bytes => decide (Media.Wire.maxDatagram < bytes.length)
  | _ => false

/-- The datagram copy of an input, unless it is too long for one, a paste of a picture, or
does not encode. -/
def inputCopy (encodes : InputCopy → Bool) (copy : InputCopy) : Option InputCopy :=
  if tooLong copy.req then none
  else
    match copy.req with
    | .pastePicture _ => none
    | _ => if encodes copy then some copy else none

/-- One session's inputs: how many the stream has brought, and the highest number applied. -/
structure Applied where
  heard : Nat := 0
  applied : Nat := 0
  deriving DecidableEq, Repr

/-- The stream brought the session's next input: whether it is to be applied. -/
def Applied.stream (at' : Applied) : Applied × Bool :=
  (⟨at'.heard + 1, max at'.applied (at'.heard + 1)⟩, decide (at'.applied < at'.heard + 1))

/-- A datagram brought a copy of the session's input: whether it is to be applied. -/
def Applied.copy (at' : Applied) (seq : Nat) : Applied × Bool :=
  if seq = at'.applied + 1 then ({ at' with applied := seq }, true) else (at', false)

structure InputOrder where
  sessions : SessionId → Applied := fun _ => {}
  taken : Nat := 0
  late : Nat := 0

namespace InputOrder

def set (order : InputOrder) (session : SessionId) (at' : Applied) : InputOrder :=
  { order with sessions := Function.update order.sessions session at' }

def stream (order : InputOrder) (session : SessionId) : InputOrder × Bool :=
  let at' := (order.sessions session).stream
  (order.set session at'.1, at'.2)

def copy (order : InputOrder) (session : SessionId) (seq : Nat) : InputOrder × Bool :=
  let at' := (order.sessions session).copy seq
  ({ order.set session at'.1 with
      taken := if at'.2 then order.taken + 1 else order.taken
      late := if at'.2 then order.late else order.late + 1 }, at'.2)

def forget (order : InputOrder) (session : SessionId) : InputOrder := order.set session {}

end InputOrder

/-- The client's link and the worker's connection, as far as a terminal's requests go. What
is let through is what reaches a terminal. -/
def termInput (encodes : InputCopy → Bool) :
    Race InputNumbers InputOrder ClientMsg InputCopy (SessionId × TermRequest) where
  send n msg := ((n.number msg).1, (n.number msg).2.bind (inputCopy encodes))
  stream order msg :=
    match msg with
    | .term session req =>
        if req.isInput then
          ((order.stream session).1, if (order.stream session).2 then some (session, req) else none)
        else (order, some (session, req))
    | .other _ => (order, none)
  copy order c :=
    ((order.copy c.session c.seq).1,
      if (order.copy c.session c.seq).2 then some (c.session, c.req) else none)

def termStart (encodes : InputCopy → Bool) : (termInput encodes).State where
  sender := fun _ => 0
  receiver := {}

def inputsOf (session : SessionId) (reqs : List (SessionId × TermRequest)) : List TermRequest :=
  (reqs.filter fun r => decide (r.1 = session) && r.2.isInput).map Prod.snd

def requests (msgs : List ClientMsg) : List (SessionId × TermRequest) :=
  msgs.filterMap fun
    | .term session req => some (session, req)
    | .other _ => none

@[simp] theorem inputsOf_append (session : SessionId) (a b : List (SessionId × TermRequest)) :
    inputsOf session (a ++ b) = inputsOf session a ++ inputsOf session b := by
  simp [inputsOf]

@[simp] theorem requests_append (a b : List ClientMsg) :
    requests (a ++ b) = requests a ++ requests b := by
  simp [requests]

theorem inputsOf_singleton (session s : SessionId) (req : TermRequest) :
    inputsOf session [(s, req)] = if s = session ∧ req.isInput then [req] else [] := by
  by_cases hs : s = session <;> by_cases hreq : req.isInput <;> simp [inputsOf, hs, hreq]

theorem inputsOf_decided (session s : SessionId) (req : TermRequest) (goes : Bool) :
    inputsOf session (if goes then some (s, req) else none).toList =
      if goes ∧ s = session ∧ req.isInput then [req] else [] := by
  cases goes with
  | true => simpa using inputsOf_singleton session s req
  | false => rfl

/-- How one session stands: both ends count its inputs alike, what was let through is the
first of them, and a copy carries the input of its number. -/
structure Stands {encodes : InputCopy → Bool} (s : (termInput encodes).State)
    (session : SessionId) : Prop where
  numbered : s.sender session = (inputsOf session (requests s.sent)).length
  heard : (s.receiver.sessions session).heard =
    (inputsOf session (requests (s.sent.take s.heard))).length
  le : (s.receiver.sessions session).heard ≤ (s.receiver.sessions session).applied
  applied_le : (s.receiver.sessions session).applied ≤ (inputsOf session (requests s.sent)).length
  passed : inputsOf session s.passed =
    (inputsOf session (requests s.sent)).take (s.receiver.sessions session).applied
  copies : ∀ c ∈ s.copies, c.session = session → c.req.isInput = true ∧
    ∃ n, c.seq = n + 1 ∧ (inputsOf session (requests s.sent))[n]? = some c.req

/-- From the stream the inputs go through one after another, each unless its copy did. -/
theorem Applied.stream_take {at' : Applied} {inputs : List TermRequest} {req : TermRequest}
    (hle : at'.heard ≤ at'.applied) (hget : inputs[at'.heard]? = some req) :
    inputs.take at'.applied ++ (if at'.stream.2 then [req] else []) =
      inputs.take at'.stream.1.applied := by
  by_cases hfresh : at'.applied < at'.heard + 1
  · have happlied : at'.applied = at'.heard := Nat.le_antisymm (Nat.le_of_lt_succ hfresh) hle
    simp only [Applied.stream, happlied, Nat.lt_succ_self, decide_true, if_true,
      Nat.max_eq_right (Nat.le_succ _), List.take_add_one, hget, Option.toList_some]
  · simp only [Applied.stream, hfresh, decide_false, Bool.false_eq_true, if_false, List.append_nil,
      Nat.max_eq_left (Nat.le_of_not_lt hfresh)]

@[simp] theorem Applied.copy_heard (at' : Applied) (seq : Nat) :
    (at'.copy seq).1.heard = at'.heard := by
  simp only [Applied.copy]
  split <;> rfl

theorem Applied.copy_applied (at' : Applied) (seq : Nat) :
    at'.applied ≤ (at'.copy seq).1.applied := by
  simp only [Applied.copy]
  split
  · rename_i hnext
    exact hnext ▸ Nat.le_succ _
  · exact Nat.le_refl _

theorem Applied.copy_take {at' : Applied} {inputs : List TermRequest} {req : TermRequest}
    {n : Nat} (hget : inputs[n]? = some req) :
    inputs.take at'.applied ++ (if (at'.copy (n + 1)).2 then [req] else []) =
      inputs.take (at'.copy (n + 1)).1.applied := by
  by_cases hnext : n = at'.applied
  · subst hnext
    simp only [Applied.copy, if_true, List.take_add_one, hget, Option.toList_some]
  · have hskip : ¬ n + 1 = at'.applied + 1 := fun h => hnext (Nat.succ.inj h)
    simp only [Applied.copy, hskip, if_false, Bool.false_eq_true, List.append_nil]

/-- The stream's next message, if it is an input of the session, is the one its own count
names. -/
theorem inputsOf_next {session : SessionId} {sent : List ClientMsg} {heard : Nat}
    {req : TermRequest} (hm : sent[heard]? = some (.term session req)) (hreq : req.isInput) :
    (inputsOf session (requests sent))[(inputsOf session (requests (sent.take heard))).length]? =
      some req := by
  have hone : inputsOf session (requests [.term session req]) = [req] := by
    simp [requests, inputsOf_singleton, hreq]
  have hall : inputsOf session (requests sent) =
      inputsOf session (requests (sent.take heard)) ++
        req :: inputsOf session (requests (sent.drop (heard + 1))) := by
    have htake : sent.take (heard + 1) = sent.take heard ++ [.term session req] := by
      rw [List.take_add_one, hm, Option.toList_some]
    rw [List.append_cons, ← hone, ← inputsOf_append, ← requests_append, ← htake,
      ← inputsOf_append, ← requests_append, List.take_append_drop]
  rw [hall, List.getElem?_append_right (Nat.le_refl _), Nat.sub_self]
  rfl

/-- A message that is no input of the session does not count for it. -/
theorem inputsOf_other {session : SessionId} {m : ClientMsg}
    (hm : ∀ req, m = .term session req → req.isInput = false) :
    inputsOf session (requests [m]) = [] := by
  cases m with
  | other msg => rfl
  | term s req =>
      simp only [requests, List.filterMap_cons, List.filterMap_nil, inputsOf_singleton]
      rw [if_neg]
      rintro ⟨rfl, hreq⟩
      exact absurd (hm req rfl) (by simp [hreq])

theorem inputCopy_eq {encodes : InputCopy → Bool} {copy c : InputCopy}
    (h : inputCopy encodes copy = some c) : c = copy := by
  simp only [inputCopy] at h
  split at h
  · cases h
  · split at h
    · cases h
    · split at h
      · exact (Option.some.inj h).symm
      · cases h

/-- A message takes the session's next number when it is an input of it, and none otherwise;
its copy carries that number. -/
theorem send_number (encodes : InputCopy → Bool) (n : InputNumbers) (m : ClientMsg)
    (session : SessionId) :
    ((termInput encodes).send n m).1 session =
        n session + (inputsOf session (requests [m])).length ∧
      ∀ c ∈ ((termInput encodes).send n m).2, c.session = session →
        c.seq = n session + 1 ∧ c.req.isInput = true ∧
          inputsOf session (requests [m]) = [c.req] := by
  cases m with
  | other msg => exact ⟨rfl, fun c hc => absurd hc (by simp [termInput, InputNumbers.number])⟩
  | term s req =>
      by_cases hreq : req.isInput
      · simp only [termInput, InputNumbers.number, hreq, if_true, requests, List.filterMap_cons,
          List.filterMap_nil, inputsOf_singleton, and_true, Option.bind_some]
        refine ⟨?_, fun c hc hsession => ?_⟩
        · by_cases hs : s = session
          · simp [hs]
          · simp [hs, Function.update_of_ne (Ne.symm hs)]
        · obtain rfl := inputCopy_eq hc
          exact ⟨by rw [← hsession], hreq, if_pos hsession⟩
      · refine ⟨?_, fun c hc => absurd hc (by simp [termInput, InputNumbers.number, hreq])⟩
        simp [termInput, InputNumbers.number, hreq, requests, inputsOf_singleton]

/-- What the stream brings for another session, or that is no input, leaves the session's
inputs as they are. -/
theorem stream_other {encodes : InputCopy → Bool} (order : InputOrder) {session : SessionId}
    {m : ClientMsg} (hm : ∀ req, m = .term session req → req.isInput = false) :
    ((termInput encodes).stream order m).1.sessions session = order.sessions session ∧
      inputsOf session ((termInput encodes).stream order m).2.toList = [] := by
  cases m with
  | other msg => exact ⟨rfl, rfl⟩
  | term s req =>
      by_cases hreq : req.isInput
      · have hs : s ≠ session := by
          rintro rfl
          exact absurd (hm req rfl) (by simp [hreq])
        simp only [termInput, hreq, if_true]
        refine ⟨Function.update_of_ne (Ne.symm hs) _ _, ?_⟩
        rw [inputsOf_decided, if_neg fun h => hs h.2.1]
      · simp [termInput, hreq, inputsOf]

namespace Stands

variable {encodes : InputCopy → Bool} {s : (termInput encodes).State} {session : SessionId}

theorem start (session : SessionId) : Stands (termStart encodes) session where
  numbered := rfl
  heard := rfl
  le := Nat.le_refl _
  applied_le := Nat.le_refl _
  passed := rfl
  copies _ hc := absurd hc List.not_mem_nil

/-- A message is sent, an input of the session under the session's next number. -/
theorem send (h : Stands s session) (m : ClientMsg) (hle : s.heard ≤ s.sent.length) :
    Stands (s.send m) session := by
  have hsent : inputsOf session (requests (s.sent ++ [m])) =
      inputsOf session (requests s.sent) ++ inputsOf session (requests [m]) := by
    rw [requests_append, inputsOf_append]
  obtain ⟨hnumber, hcopy⟩ := send_number encodes s.sender m session
  refine ⟨?_, ?_, h.le, ?_, ?_, fun c hc hsession => ?_⟩
  · simp only [Race.State.send, hsent, List.length_append, ← h.numbered]
    exact hnumber
  · simp only [Race.State.send]
    rw [List.take_append_of_le_length hle]
    exact h.heard
  · simp only [Race.State.send, hsent, List.length_append]
    exact h.applied_le.trans (Nat.le_add_right _ _)
  · simp only [Race.State.send, hsent]
    rw [List.take_append_of_le_length h.applied_le]
    exact h.passed
  · simp only [Race.State.send, hsent]
    rcases List.mem_append.mp hc with hold | hnew
    · obtain ⟨hinput, n, hn, hget⟩ := h.copies c hold hsession
      obtain ⟨hlt, -⟩ := List.getElem?_eq_some_iff.mp hget
      exact ⟨hinput, n, hn, (List.getElem?_append_left hlt).trans hget⟩
    · obtain ⟨hseq, hinput, hone⟩ := hcopy c (Option.mem_toList.mp hnew) hsession
      refine ⟨hinput, s.sender session, hseq, ?_⟩
      rw [hone, h.numbered, List.getElem?_append_right (Nat.le_refl _), Nat.sub_self]
      rfl

theorem of_sessions {s' : (termInput encodes).State} {at' : Applied} (h : Stands s session)
    (hsent : s'.sent = s.sent) (hsender : s'.sender = s.sender) (hcopies : s'.copies = s.copies)
    (hat : s'.receiver.sessions session = at')
    (hheard : at'.heard = (inputsOf session (requests (s.sent.take s'.heard))).length)
    (hle : at'.heard ≤ at'.applied)
    (happlied : at'.applied ≤ (inputsOf session (requests s.sent)).length)
    (hpassed : inputsOf session s'.passed = (inputsOf session (requests s.sent)).take at'.applied) :
    Stands s' session := by
  refine ⟨?_, ?_, ?_, ?_, ?_, ?_⟩
  · rw [hsender, hsent]
    exact h.numbered
  · rw [hat, hsent]
    exact hheard
  · rw [hat]
    exact hle
  · rw [hat, hsent]
    exact happlied
  · rw [hat, hsent]
    exact hpassed
  · rw [hcopies, hsent]
    exact h.copies

/-- The stream's next message: an input of the session is the next of its inputs, and goes
through unless a copy of it did. -/
theorem stream (h : Stands s session) {m : ClientMsg} (hm : s.sent[s.heard]? = some m) :
    Stands (s.stream m) session := by
  have htake : inputsOf session (requests (s.sent.take (s.heard + 1))) =
      inputsOf session (requests (s.sent.take s.heard)) ++ inputsOf session (requests [m]) := by
    rw [List.take_add_one, hm, Option.toList_some, requests_append, inputsOf_append]
  by_cases hinput : ∃ req, m = .term session req ∧ req.isInput = true
  · obtain ⟨req, rfl, hreq⟩ := hinput
    have hone : inputsOf session (requests [.term session req]) = [req] := by
      simp [requests, inputsOf_singleton, hreq]
    have hget := inputsOf_next hm hreq
    rw [← h.heard] at hget
    have hlt := (List.getElem?_eq_some_iff.mp hget).1
    have hat : (s.stream (.term session req)).receiver.sessions session =
        (s.receiver.sessions session).stream.1 := by
      simp [Race.State.stream, termInput, hreq, InputOrder.stream, InputOrder.set]
    have hpassed : inputsOf session (s.stream (.term session req)).passed =
        inputsOf session s.passed ++
          if (s.receiver.sessions session).stream.2 then [req] else [] := by
      simp only [Race.State.stream, termInput, hreq, if_true, inputsOf_append, inputsOf_decided,
        and_true]
      rfl
    refine h.of_sessions rfl rfl rfl hat ?_ (Nat.le_max_right _ _) (max_le h.applied_le hlt) ?_
    · rw [Race.State.stream_heard, htake, List.length_append, ← h.heard, hone]
      rfl
    · rw [hpassed, h.passed, Applied.stream_take h.le hget]
  · have hother : ∀ req, m = .term session req → req.isInput = false := fun req hm =>
      Bool.eq_false_iff.mpr fun hreq => hinput ⟨req, hm, hreq⟩
    obtain ⟨hat, hpassed⟩ := stream_other s.receiver hother
    refine h.of_sessions rfl rfl rfl hat ?_ h.le h.applied_le ?_
    · rw [Race.State.stream_heard, htake, inputsOf_other hother, List.append_nil]
      exact h.heard
    · rw [Race.State.stream, inputsOf_append, hpassed, List.append_nil]
      exact h.passed

/-- A copy of an input of the session goes through only as the next of them. -/
theorem copy (h : Stands s session) {c : InputCopy} (hc : c ∈ s.copies) :
    Stands (s.copy c) session := by
  by_cases hsession : c.session = session
  · obtain ⟨hreq, n, hn, hget⟩ := h.copies c hc hsession
    have hlt := (List.getElem?_eq_some_iff.mp hget).1
    have hat : (s.copy c).receiver.sessions session =
        ((s.receiver.sessions session).copy (n + 1)).1 := by
      simp [Race.State.copy, termInput, InputOrder.copy, InputOrder.set, hsession, hn]
    have hpassed : inputsOf session (s.copy c).passed = inputsOf session s.passed ++
        if ((s.receiver.sessions session).copy (n + 1)).2 then [c.req] else [] := by
      simp only [Race.State.copy, termInput, inputsOf_append, hsession, hn, inputsOf_decided, hreq,
        and_true]
      rfl
    refine h.of_sessions rfl rfl rfl hat ?_ ?_ ?_ ?_
    · rw [Applied.copy_heard]
      exact h.heard
    · rw [Applied.copy_heard]
      exact h.le.trans (Applied.copy_applied _ _)
    · simp only [Applied.copy]
      split
      · exact hlt
      · exact h.applied_le
    · rw [hpassed, h.passed, Applied.copy_take hget]
  · have hat : (s.copy c).receiver.sessions session = s.receiver.sessions session := by
      simp [Race.State.copy, termInput, InputOrder.copy, InputOrder.set,
        Function.update_of_ne (Ne.symm hsession)]
    refine h.of_sessions rfl rfl rfl hat h.heard h.le h.applied_le ?_
    rw [Race.State.copy, inputsOf_append, h.passed]
    simp only [termInput, inputsOf_decided, hsession, false_and, and_false, if_false,
      List.append_nil]

end Stands

/-- Whatever the interleaving, a session's inputs reach its terminal in the order they were
sent, each at most once; and each once, when the stream has brought them all. -/
theorem inputs_once_in_order (encodes : InputCopy → Bool) (steps : List (Race.Step ClientMsg))
    (session : SessionId) :
    inputsOf session ((termStart encodes).run steps).passed <+:
        inputsOf session (requests ((termStart encodes).run steps).sent) ∧
      (((termStart encodes).run steps).heard = ((termStart encodes).run steps).sent.length →
        inputsOf session ((termStart encodes).run steps).passed =
          inputsOf session (requests ((termStart encodes).run steps).sent)) := by
  have h : Stands ((termStart encodes).run steps) session :=
    Race.State.run_invariant (Stands · session) (fun _ m hle h => h.send m hle)
      (fun _ _ hm h => h.stream hm) (fun _ _ hc h => h.copy hc) (Nat.le_refl 0)
      (Stands.start session) steps
  refine ⟨?_, fun hall => ?_⟩
  · rw [h.passed]
    exact List.take_prefix _ _
  · have hheard := h.heard
    rw [hall, List.take_length] at hheard
    rw [h.passed, List.take_of_length_le]
    exact hheard ▸ h.le

end Slopty.Link
