import Mathlib.Logic.Function.Basic
import Slopty.Lib.Resend
import Slopty.Thread.Client

/-!
The marks a person makes on threads, from the client's outbox to the worker that acts on them:
through links that come and go, clients that are launched again, workers that restart, and other
clients that ask too.
-/

namespace Slopty.Thread.Client

open Slopty.Lib Slopty.Proto.Codec

/-- What a mark does to a thread: its outcome and the actions that carry it. A seen mark moves only
up, and never past the thread's last turn. -/
def Intent.act (intent : Intent) (s : ThreadState) : Outcome × List Action :=
  match intent with
  | .seen turn =>
      let last := s.turns.getLast?.elim 0 Turn.id
      let turn := min turn last
      (.done, if s.seen < turn then [.seen turn] else [])
  | .name title =>
      let name := Text.trim title
      if Intent.nameMax < name.length then
        (.refused "a thread's name is at most 200 characters", [])
      else (.done, if s.named ≠ String.ofList name then [.nameSet (String.ofList name)] else [])

/-- One client and its cache, the link it has, and the worker's threads. -/
structure Posted where
  client : Threads := {}
  /-- What the cache keeps of the outbox. -/
  kept : Outbox := {}
  /-- Intents on their way, in the order they were sent. -/
  requests : List Sent := []
  /-- Answers on their way, which overtake one another while the link is full. -/
  answers : List (IntentId × Outcome) := []
  worker : ThreadId → Asked
  /-- Every intent asked here, without those a launch forgot. -/
  asked : List Sent := []
  /-- Every intent of this client acted on, by all threads. -/
  acted : List Sent := []

inductive PostStep where
  | ask (id : IntentId) (thread : ThreadId) (intent : Intent)
  | connected
  | disconnected
  /-- The worker takes the next intent. -/
  | handle (wrote : Fate) (compact : CompactFates) (fates : RecordFates)
  /-- One of the answers comes. -/
  | answered (at' : Nat)
  /-- The cache keeps the outbox. -/
  | keep
  /-- The app is launched again. -/
  | launched
  /-- Anything else the client does. -/
  | client (op : Threads.Op)
  /-- Anything else the worker does with a thread, other clients' intents among it. -/
  | worker (thread : ThreadId) (st : AskStep)

/-- The intents among what is sent. -/
def intentsOf (requests : List Request) : List Sent :=
  requests.filterMap fun r => match r with
    | .intent sent => some sent
    | _ => none

namespace Posted

variable (w : Wires) (wire : Postcard Record)

/-- The worker acts on an intent once, and answers. -/
def handle (p : Posted) (wrote : Fate) (compact : CompactFates) (fates : RecordFates) : Posted :=
  match p.requests with
  | [] => p
  | sent :: rest =>
      let thread := p.worker sent.thread
      let r := thread.intent w wire sent.id sent.intent.act wrote compact fates
      { p with
        requests := rest
        answers := p.answers ++ [(sent.id, r.2.getD (.refused "no such thread"))]
        worker := Function.update p.worker sent.thread r.1
        acted := if r.1.ran.length = thread.ran.length then p.acted else p.acted ++ [sent] }

def step (p : Posted) : PostStep → Posted
  | .ask id thread intent =>
      let r := p.client.intentAs id thread intent
      { p with
        client := r.1
        requests := p.requests ++ intentsOf r.2.toList
        asked := p.asked ++ [⟨id, thread, intent⟩] }
  | .connected =>
      { p with client := p.client.connected.1, requests := intentsOf p.client.connected.2 }
  | .disconnected => { p with client := p.client.disconnected, requests := [], answers := [] }
  | .handle wrote compact fates => p.handle w wire wrote compact fates
  | .answered at' =>
      match p.answers[at']? with
      | none => p
      | some (id, _) =>
          { p with client := (p.client.done id).1, answers := p.answers.eraseIdx at' }
  | .keep => { p with client := p.client.takeOutboxChanged.1, kept := p.client.outbox }
  | .launched =>
      { p with
        client := Threads.new p.kept
        requests := []
        answers := []
        asked := p.asked.filter fun s => s ∈ p.acted ∨ s ∈ p.kept.sent }
  | .client op => { p with client := p.client.step op }
  | .worker thread st =>
      { p with worker := Function.update p.worker thread ((p.worker thread).step w wire st) }

/-- The operations that leave the outbox and the link. -/
def Aside : Threads.Op → Prop
  | .connected => False
  | .disconnected => False
  | .done _ => False
  | .intentAs _ _ _ => False
  | _ => True

/-- What each step is trusted with. An id is asked under once; an intent comes to a thread that is
held, and one that comes again is still remembered, with fewer than `kept` others after it; records
fit, and a thread is only loaded from a file that has every record. -/
def Holds (p : Posted) : PostStep → Prop
  | .ask id _ _ => (∀ s ∈ p.asked, s.id ≠ id) ∧ ∀ thread, id ∉ (p.worker thread).ran.map Prod.fst
  | .handle wrote compact fates => ∀ sent rest, p.requests = sent :: rest →
      (p.worker sent.thread).hosted ≠ none ∧
        (p.worker sent.thread).Recorded wire
          (.intent sent.id sent.intent.act wrote compact fates) ∧
        (sent ∈ p.acted → sent.id ∈ (recent Intents.kept (p.worker sent.thread).ran).map Prod.fst)
  | .client op => Aside op
  | .worker thread st => (p.worker thread).Recorded wire st ∧
      ∀ id act wrote compact fates, st = .intent id act wrote compact fates →
        ∀ s ∈ p.asked, s.id ≠ id
  | _ => True

/-- The abstract step of a step. -/
def resends : PostStep → List (Resend.Step Sent)
  | .ask id thread intent => [.ask ⟨id, thread, intent⟩]
  | .connected => [.connect]
  | .disconnected => [.drop]
  | .handle _ _ _ => [.act]
  | .answered at' => [.answer at']
  | .keep => [.keep]
  | .launched => [.restart]
  | .client _ => []
  | .worker _ _ => []

/-- The client, its link and the worker as messages sent until they are answered. -/
structure Refines (p : Posted) (r : Resend Sent) : Prop where
  asked : p.asked = r.asked
  outbox : p.client.outbox.sent = r.outbox
  kept : p.kept.sent = r.kept
  linked : p.client.linked = r.up
  requests : p.requests = r.flight
  answers : p.answers.map Prod.fst = r.answers.map Sent.id
  acted : p.acted = r.acted

/-- The ids of what this client asked. -/
def ids (p : Posted) : List IntentId := p.asked.map Sent.id

/-- What the worker's threads hold of this client's intents: each thread acted, of what was asked
here, on just what `acted` says of it, in that order. -/
structure Inv (p : Posted) : Prop where
  ids : p.ids.Nodup
  worker : ∀ thread, (p.worker thread).Inv wire
  ran : ∀ thread, ((p.worker thread).ran.map Prod.fst).filter (· ∈ p.ids) =
    (p.acted.filter (·.thread = thread)).map Sent.id

end Posted

theorem Threads.mirrored_aside (c : Threads) (thread : ThreadId) (f : Frame) :
    (c.mirrored thread f).1.outbox = c.outbox ∧ (c.mirrored thread f).1.linked = c.linked := by
  unfold Threads.mirrored
  split
  · exact ⟨rfl, rfl⟩
  · dsimp only
    split <;> exact ⟨rfl, rfl⟩

/-- Nothing but an intent and its answer changes the outbox, and nothing but the link the link. -/
theorem Threads.step_aside {c : Threads} {op : Threads.Op} (h : Posted.Aside op) :
    (c.step op).outbox = c.outbox ∧ (c.step op).linked = c.linked := by
  cases op with
  | connected => exact h.elim
  | disconnected => exact h.elim
  | done id => exact h.elim
  | intentAs id thread intent => exact h.elim
  | openThread thread cached =>
    simp only [Threads.step, Threads.openThread]
    split <;> exact ⟨rfl, rfl⟩
  | closeThread thread => exact ⟨rfl, rfl⟩
  | toCache thread => exact ⟨rfl, rfl⟩
  | table f => exact ⟨rfl, rfl⟩
  | takeOutboxChanged => exact ⟨rfl, rfl⟩
  | frame thread f =>
    cases f with
    | stream f => exact c.mirrored_aside thread _
    | page page =>
      exact Threads.mirrored_aside { c with paging := c.paging.erase thread } thread _
    | expanded content body => exact ⟨rfl, rfl⟩
    | review review =>
      simp only [Threads.step, Threads.frame]
      split <;> exact ⟨rfl, rfl⟩
    | app => exact c.mirrored_aside thread _
  | askReview thread scope =>
    simp only [Threads.step, Threads.askReview]
    split <;> exact ⟨rfl, rfl⟩
  | expand thread content =>
    simp only [Threads.step, Threads.expand]
    split
    · exact ⟨rfl, rfl⟩
    · split
      · exact ⟨rfl, rfl⟩
      · split <;> exact ⟨rfl, rfl⟩
  | page thread turns =>
    simp only [Threads.step, Threads.page]
    split
    · exact ⟨rfl, rfl⟩
    · split
      · exact ⟨rfl, rfl⟩
      · split <;> exact ⟨rfl, rfl⟩

/-- The intents that go when the link comes up are those of the outbox, in order. -/
theorem intentsOf_connected (c : Threads) : intentsOf c.connected.2 = c.outbox.sent := by
  have hfollows : ∀ l : List (ThreadId × Mirror),
      intentsOf (l.map fun m => follow m.1 m.2) = [] := by
    intro l
    rw [intentsOf, List.filterMap_map, List.filterMap_eq_nil_iff]
    exact fun m _ => rfl
  have hreviews : ∀ l : List (ThreadId × ReviewScope),
      intentsOf (l.map fun r => Request.review r.1 r.2) = [] := by
    intro l
    rw [intentsOf, List.filterMap_map, List.filterMap_eq_nil_iff]
    exact fun r _ => rfl
  have hintents : intentsOf (c.outbox.sent.map Request.intent) = c.outbox.sent := by
    rw [intentsOf, List.filterMap_map]
    exact List.filterMap_some
  have happend : ∀ l l' : List Request, intentsOf (l ++ l') = intentsOf l ++ intentsOf l' :=
    fun l l' => List.filterMap_append
  rw [Threads.connected]
  dsimp only
  rw [happend, hreviews, List.append_nil, happend, hintents]
  exact congrArg (· ++ c.outbox.sent) (hfollows c.mirrors.entries)

/-- Where every id is of one message, taking out the first of an id takes that message out. -/
theorem eraseP_id {l : List Sent} {a : Sent} (h : ∀ s ∈ l, s.id = a.id → s = a) :
    l.eraseP (·.id == a.id) = l.erase a := by
  induction l with
  | nil => rfl
  | cons s l ih =>
    rw [List.eraseP_cons, List.erase_cons]
    by_cases heq : s = a
    · rw [heq, beq_self_eq_true, beq_self_eq_true]
      rfl
    · have hid : ¬s.id = a.id := fun hid => heq (h s List.mem_cons_self hid)
      rw [beq_eq_false_iff_ne.mpr hid, beq_eq_false_iff_ne.mpr heq,
        ih fun s' hs' => h s' (List.mem_cons_of_mem _ hs')]
      rfl

theorem answered_sent {o : Outbox} {a : Sent} (h : ∀ s ∈ o.sent, s.id = a.id → s = a) :
    (o.answered a.id).1.sent = o.sent.erase a := by
  rw [Outbox.answered]
  cases hfind : o.sent.find? (·.id == a.id) with
  | none =>
    refine (List.erase_of_not_mem fun hmem => ?_).symm
    exact List.find?_eq_none.mp hfind a hmem (beq_self_eq_true _)
  | some s => exact eraseP_id h

theorem done_outbox {c : Threads} {a : Sent} (h : ∀ s ∈ c.outbox.sent, s.id = a.id → s = a) :
    (c.done a.id).1.outbox.sent = c.outbox.sent.erase a ∧
      (c.done a.id).1.linked = c.linked := by
  have hanswered := answered_sent h
  rw [Threads.done]
  cases hgot : c.outbox.answered a.id with
  | mk outbox sent =>
    rw [hgot] at hanswered
    cases sent with
    | some sent => exact ⟨hanswered, rfl⟩
    | none =>
      have hsame : outbox = c.outbox := by
        rw [Outbox.answered] at hgot
        split at hgot
        · exact (congrArg Prod.fst hgot).symm
        · cases hgot
      exact ⟨hsame ▸ hanswered, rfl⟩

namespace Posted

variable {w : Wires} {wire : Postcard Record}

/-- The outcome of an intent that is still remembered, with nothing done. -/
theorem intent_known {m : Asked} (hm : m.Inv wire) (hheld : m.hosted ≠ none) {id : IntentId}
    (hid : id ∈ (recent Intents.kept m.ran).map Prod.fst)
    (act : ThreadState → Outcome × List Action) (wrote : Fate) (compact : CompactFates)
    (fates : RecordFates) :
    ∃ outcome, m.intent w wire id act wrote compact fates = (m, some outcome) := by
  obtain ⟨h, hh⟩ := Option.ne_none_iff_exists'.mp hheld
  obtain ⟨⟨id', outcome⟩, hmem, rfl⟩ := List.mem_map.mp hid
  have hget : h.intents.outcome id' = some outcome := ((hm.held h hh).outcomes id' outcome).mpr hmem
  exact ⟨outcome, by simp only [Asked.intent, hh, hget]⟩

theorem intent_new {m : Asked} (hm : m.Inv wire) (hheld : m.hosted ≠ none) {id : IntentId}
    (hid : id ∉ m.ran.map Prod.fst) (act : ThreadState → Outcome × List Action) (wrote : Fate)
    (compact : CompactFates) (fates : RecordFates) :
    ∃ outcome, (m.intent w wire id act wrote compact fates).1.ran = m.ran ++ [(id, outcome)] ∧
      (m.intent w wire id act wrote compact fates).2 = some outcome := by
  obtain ⟨h, hh⟩ := Option.ne_none_iff_exists'.mp hheld
  have hget : h.intents.outcome id = none := by
    cases hout : h.intents.outcome id with
    | none => rfl
    | some outcome =>
      have hmem := ((hm.held h hh).outcomes id outcome).mp hout
      exact absurd (List.mem_map_of_mem (f := Prod.fst) (List.mem_of_mem_drop hmem)) hid
  exact ⟨(act h.log.state).1, by simp only [Asked.intent, hh, hget],
    by simp only [Asked.intent, hh, hget]⟩

theorem step_ran (m : Asked) (st : AskStep) : (m.step w wire st).ran = m.ran ∨
    ∃ id act wrote compact fates outcome, st = .intent id act wrote compact fates ∧
      (m.step w wire st).ran = m.ran ++ [(id, outcome)] := by
  cases st with
  | intent id act wrote compact fates =>
    rw [Asked.step]
    unfold Asked.intent
    split
    · exact .inl rfl
    · split
      · exact .inl rfl
      · exact .inr ⟨id, act, wrote, compact, fates, _, rfl, rfl⟩
  | apply actions wrote compact =>
    left
    simp only [Asked.step]
    split <;> rfl
  | load limits seated log opened rewrite =>
    left
    simp only [Asked.step, Asked.load]
    split
    · split
      · rfl
      · split <;> rfl
    · rfl
  | restart => exact .inl rfl

section Step

variable {p : Posted} {r : Resend Sent} {rest : List Sent}

theorem Inv.same (h : p.Inv wire) {s t : Sent} (hs : s ∈ p.asked) (ht : t ∈ p.asked)
    (heq : s.id = t.id) : s = t :=
  List.inj_on_of_nodup_map h.ids hs ht heq

theorem Refines.acted_asked (h : p.Refines r) (hr : r.Sound rest) : p.acted ⊆ p.asked := by
  rw [h.acted, h.asked, hr.asked]
  exact List.subset_append_left _ _

theorem Refines.requests_asked (h : p.Refines r) (hr : r.Sound rest) : p.requests ⊆ p.asked := by
  rw [h.requests, h.asked, hr.asked]
  rcases hr.flight with ⟨-, again, hflight, hagain⟩ | ⟨-, hflight⟩
  · rw [hflight]
    exact List.append_subset.mpr ⟨fun s hs => List.mem_append_left _ (hagain hs),
      List.subset_append_right _ _⟩
  · rw [hflight]
    exact List.nil_subset _

/-- A thread acted on an intent of this client just if `acted` says so. -/
theorem Inv.acted_iff (hp : p.Inv wire) (h : p.Refines r) (hr : r.Sound rest) {sent : Sent}
    (hsent : sent ∈ p.asked) :
    sent.id ∈ (p.worker sent.thread).ran.map Prod.fst ↔ sent ∈ p.acted := by
  have hran := hp.ran sent.thread
  constructor
  · intro hmem
    have hin : sent.id ∈ ((p.worker sent.thread).ran.map Prod.fst).filter (· ∈ p.ids) :=
      List.mem_filter.mpr ⟨hmem, decide_eq_true (List.mem_map_of_mem hsent)⟩
    rw [hran] at hin
    obtain ⟨s, hs, heq⟩ := List.mem_map.mp hin
    have hacted := (List.mem_filter.mp hs).1
    exact hp.same (h.acted_asked hr hacted) hsent heq ▸ hacted
  · intro hacted
    have hin : sent.id ∈ (p.acted.filter (·.thread = sent.thread)).map Sent.id :=
      List.mem_map_of_mem (List.mem_filter.mpr ⟨hacted, decide_eq_true rfl⟩)
    rw [← hran] at hin
    exact (List.mem_filter.mp hin).1

/-- What the worker's taking of the next intent does: nothing for one it acted on, and for a new
one the thread's list of what it acted on is one longer. -/
theorem handle_cases (hp : p.Inv wire) (h : p.Refines r) (hr : r.Sound rest) {wrote : Fate}
    {compact : CompactFates} {fates : RecordFates} (hst : p.Holds wire (.handle wrote compact fates))
    {sent : Sent} {requests : List Sent} (hnext : p.requests = sent :: requests) :
    ∃ outcome,
      (sent ∈ p.acted ∧ p.handle w wire wrote compact fates =
          { p with requests := requests, answers := p.answers ++ [(sent.id, outcome)] }) ∨
      (sent ∉ p.acted ∧ ∃ thread, p.handle w wire wrote compact fates =
          { p with
            requests := requests
            answers := p.answers ++ [(sent.id, outcome)]
            worker := Function.update p.worker sent.thread thread
            acted := p.acted ++ [sent] } ∧
        thread.Inv wire ∧ ∃ went, thread.ran = (p.worker sent.thread).ran ++ [(sent.id, went)]) := by
  obtain ⟨hheld, hrecorded, hremembered⟩ := hst sent requests hnext
  have hasked : sent ∈ p.asked := h.requests_asked hr (hnext ▸ List.mem_cons_self)
  have hthread := hp.worker sent.thread
  rw [handle, hnext]
  dsimp only
  by_cases hacted : sent ∈ p.acted
  · obtain ⟨outcome, heq⟩ := intent_known (w := w) hthread hheld (hremembered hacted)
      sent.intent.act wrote compact fates
    refine ⟨outcome, .inl ⟨hacted, ?_⟩⟩
    rw [heq, if_pos rfl, Function.update_eq_self]
    rfl
  · have hnew : sent.id ∉ (p.worker sent.thread).ran.map Prod.fst := fun hmem =>
      hacted ((hp.acted_iff h hr hasked).mp hmem)
    obtain ⟨outcome, hran, hout⟩ := intent_new (w := w) hthread hheld hnew sent.intent.act wrote
      compact fates
    have hmore : (p.worker sent.thread).ran.length + 1 ≠ (p.worker sent.thread).ran.length :=
      Nat.succ_ne_self _
    refine ⟨outcome, .inr ⟨hacted, _, ?_, hthread.intent hrecorded, outcome, hran⟩⟩
    rw [hout, hran, List.length_append, List.length_singleton, if_neg hmore]
    rfl

theorem Inv.step (hp : p.Inv wire) (h : p.Refines r) (hr : r.Sound rest) {st : PostStep}
    (hst : p.Holds wire st) : (p.step w wire st).Inv wire := by
  cases st with
  | ask id thread intent =>
    obtain ⟨hnew, hran⟩ := hst
    have hids : (p.step w wire (.ask id thread intent)).ids = p.ids ++ [id] := List.map_append
    refine ⟨?_, hp.worker, fun t => ?_⟩
    · rw [hids]
      refine List.Nodup.append hp.ids (List.nodup_singleton id)
        (List.disjoint_singleton.mpr fun hmem => ?_)
      obtain ⟨s, hs, heq⟩ := List.mem_map.mp hmem
      exact hnew s hs heq
    · rw [hids]
      refine Eq.trans (List.filter_congr fun i hi => ?_) (hp.ran t)
      have hne : i ≠ id := fun heq => hran t (heq ▸ hi)
      rw [decide_eq_decide, List.mem_append, List.mem_singleton, or_iff_left hne]
  | handle wrote compact fates =>
    cases hnext : p.requests with
    | nil =>
      rw [Posted.step, handle, hnext]
      exact hp
    | cons sent requests =>
      have hsent : sent.id ∈ p.ids :=
        List.mem_map_of_mem (h.requests_asked hr (hnext ▸ List.mem_cons_self))
      obtain ⟨outcome, ⟨-, heq⟩ | ⟨-, thread, heq, hinv, went, hran⟩⟩ :=
        handle_cases (w := w) hp h hr hst hnext
      · rw [Posted.step, heq]
        exact ⟨hp.ids, hp.worker, hp.ran⟩
      · rw [Posted.step, heq]
        refine ⟨hp.ids, fun t => ?_, fun t => ?_⟩
        · by_cases ht : t = sent.thread
          · rw [ht]
            show (Function.update p.worker sent.thread thread sent.thread).Inv wire
            rwa [Function.update_self]
          · show (Function.update p.worker sent.thread thread t).Inv wire
            rw [Function.update_of_ne ht]
            exact hp.worker t
        · show ((Function.update p.worker sent.thread thread t).ran.map Prod.fst).filter
            (· ∈ p.ids) = ((p.acted ++ [sent]).filter (·.thread = t)).map Sent.id
          by_cases ht : t = sent.thread
          · rw [ht, Function.update_self, hran, List.map_append, List.filter_append, hp.ran,
              List.filter_append, List.map_append]
            congr 1
            have hthread : [sent].filter (·.thread = sent.thread) = [sent] :=
              List.filter_cons_of_pos (decide_eq_true rfl)
            rw [hthread]
            exact List.filter_cons_of_pos (decide_eq_true hsent)
          · rw [Function.update_of_ne ht, hp.ran, List.filter_append,
              List.filter_cons_of_neg (by simpa using Ne.symm ht), List.filter_nil,
              List.append_nil]
  | answered at' =>
    rw [Posted.step]
    split
    · exact hp
    · exact ⟨hp.ids, hp.worker, hp.ran⟩
  | launched =>
    have hsub : (p.asked.filter fun s => s ∈ p.acted ∨ s ∈ p.kept.sent).Sublist p.asked :=
      List.filter_sublist
    refine ⟨hp.ids.sublist (hsub.map Sent.id), hp.worker, fun t => ?_⟩
    refine Eq.trans (List.filter_congr fun i hi => ?_) (hp.ran t)
    rw [decide_eq_decide]
    constructor
    · exact fun hmem => (hsub.map Sent.id).subset hmem
    · intro hmem
      have hin : i ∈ ((p.worker t).ran.map Prod.fst).filter (· ∈ p.ids) :=
        List.mem_filter.mpr ⟨hi, decide_eq_true hmem⟩
      rw [hp.ran] at hin
      obtain ⟨s, hs, rfl⟩ := List.mem_map.mp hin
      have hacted := (List.mem_filter.mp hs).1
      exact List.mem_map_of_mem
        (List.mem_filter.mpr ⟨h.acted_asked hr hacted, decide_eq_true (.inl hacted)⟩)
  | worker thread st =>
    obtain ⟨hrecorded, hother⟩ := hst
    refine ⟨hp.ids, fun t => ?_, fun t => ?_⟩
    · show (Function.update p.worker thread _ t).Inv wire
      by_cases ht : t = thread
      · rw [ht, Function.update_self]
        exact (hp.worker thread).step hrecorded
      · rw [Function.update_of_ne ht]
        exact hp.worker t
    · refine Eq.trans ?_ (hp.ran t)
      show ((Function.update p.worker thread _ t).ran.map Prod.fst).filter (· ∈ p.ids) = _
      by_cases ht : t = thread
      · rw [ht, Function.update_self]
        rcases step_ran (p.worker thread) st with
          hsame | ⟨id, act, wrote, compact, fates, outcome, rfl, hran⟩
        · rw [hsame]
        · have hnot : id ∉ p.ids := fun hmem => by
            obtain ⟨s, hs, heq⟩ := List.mem_map.mp hmem
            exact hother id act wrote compact fates rfl s hs heq
          rw [hran, List.map_append, List.filter_append]
          exact (congrArg _ (List.filter_cons_of_neg (by simpa using hnot))).trans
            (List.append_nil _)
      · rw [Function.update_of_ne ht]
  | connected => exact ⟨hp.ids, hp.worker, hp.ran⟩
  | disconnected => exact ⟨hp.ids, hp.worker, hp.ran⟩
  | keep => exact ⟨hp.ids, hp.worker, hp.ran⟩
  | client op => exact ⟨hp.ids, hp.worker, hp.ran⟩

/-- Each step is a step of messages sent until they are answered. -/
theorem Refines.step (h : p.Refines r) (hp : p.Inv wire) (hr : r.Sound rest) {st : PostStep}
    (hst : p.Holds wire st) :
    (p.step w wire st).Refines ((resends st).foldl Resend.step r) := by
  cases st with
  | ask id thread intent =>
    refine ⟨congrArg (· ++ [_]) h.asked, congrArg (· ++ [_]) h.outbox, h.kept, h.linked, ?_,
      h.answers, h.acted⟩
    show p.requests ++ intentsOf (p.client.intentAs id thread intent).2.toList =
      if r.up then r.flight ++ [⟨id, thread, intent⟩] else r.flight
    rw [Threads.intentAs, h.linked, h.requests]
    cases r.up with
    | true => rfl
    | false => exact List.append_nil _
  | connected =>
    exact ⟨h.asked, h.outbox, h.kept, rfl, (intentsOf_connected _).trans h.outbox, h.answers,
      h.acted⟩
  | disconnected => exact ⟨h.asked, h.outbox, h.kept, rfl, rfl, rfl, h.acted⟩
  | handle wrote compact fates =>
    show (p.handle w wire wrote compact fates).Refines (r.step .act)
    cases hnext : p.requests with
    | nil =>
      have hnone : r.flight = [] := h.requests.symm.trans hnext
      rw [handle, hnext, Resend.step, hnone]
      exact h
    | cons sent requests =>
      have hflight : r.flight = sent :: requests := h.requests.symm.trans hnext
      have hanswer : ∀ outcome : Outcome, (p.answers ++ [(sent.id, outcome)]).map Prod.fst =
          (r.answers ++ [sent]).map Sent.id := by
        intro outcome
        rw [List.map_append, List.map_append, h.answers]
        rfl
      rw [Resend.step, hflight]
      obtain ⟨outcome, ⟨hacted, heq⟩ | ⟨hacted, thread, heq, -, -⟩⟩ :=
        handle_cases (w := w) hp h hr hst hnext
      · rw [heq]
        refine ⟨h.asked, h.outbox, h.kept, h.linked, rfl, hanswer outcome, ?_⟩
        rw [h.acted] at hacted
        exact h.acted.trans (if_pos hacted).symm
      · rw [heq]
        refine ⟨h.asked, h.outbox, h.kept, h.linked, rfl, hanswer outcome, ?_⟩
        rw [h.acted] at hacted
        exact (congrArg (· ++ [sent]) h.acted).trans (if_neg hacted).symm
  | answered at' =>
    have hanswers := congrArg (·[at']?) h.answers
    simp only [List.getElem?_map] at hanswers
    show (Posted.step w wire p (.answered at')).Refines (r.step (.answer at'))
    rw [Posted.step, Resend.step]
    cases hgot : r.answers[at']? with
    | none =>
      rw [hgot, Option.map_none, Option.map_eq_none_iff] at hanswers
      rw [hanswers]
      exact h
    | some sent =>
      rw [hgot, Option.map_some, Option.map_eq_some_iff] at hanswers
      obtain ⟨⟨id, outcome⟩, hanswered, rfl⟩ := hanswers
      have hmem : ∀ s ∈ p.client.outbox.sent, s ∈ p.asked := fun s hs =>
        h.asked ▸ hr.outbox.subset (h.outbox ▸ hs)
      have hsent : sent ∈ p.asked :=
        h.acted_asked hr (h.acted ▸ hr.answers (List.mem_of_getElem? hgot))
      obtain ⟨hdone, hlinked⟩ := done_outbox (c := p.client) (a := sent) fun s hs heq =>
        hp.same (hmem s hs) hsent heq
      rw [hanswered]
      refine ⟨h.asked, hdone.trans (congrArg (·.erase sent) h.outbox), h.kept,
        hlinked.trans h.linked, h.requests, ?_, h.acted⟩
      show (p.answers.eraseIdx at').map Prod.fst = (r.answers.eraseIdx at').map Sent.id
      rw [← List.eraseIdx_map, h.answers, List.eraseIdx_map]
  | keep => exact ⟨h.asked, h.outbox, h.outbox, h.linked, h.requests, h.answers, h.acted⟩
  | launched =>
    refine ⟨?_, h.kept, h.kept, rfl, rfl, rfl, h.acted⟩
    show p.asked.filter (fun s => s ∈ p.acted ∨ s ∈ p.kept.sent) =
      r.asked.filter fun s => s ∈ r.acted ∨ s ∈ r.kept
    rw [h.asked, h.acted, h.kept]
  | client op =>
    obtain ⟨houtbox, hlinked⟩ := Threads.step_aside (c := p.client) hst
    exact ⟨h.asked, (congrArg Outbox.sent houtbox).trans h.outbox, h.kept,
      hlinked.trans h.linked, h.requests, h.answers, h.acted⟩
  | worker thread st =>
    exact ⟨h.asked, h.outbox, h.kept, h.linked, h.requests, h.answers, h.acted⟩

/-- An id asked under for the first time is of a message not asked before. -/
theorem Refines.sound_step (h : p.Refines r) (hr : r.Sound rest) {st : PostStep}
    (hst : p.Holds wire st) : ∃ rest, ((resends st).foldl Resend.step r).Sound rest := by
  cases st with
  | ask id thread intent =>
    have hnew : r.Fresh (.ask ⟨id, thread, intent⟩) := fun hmem =>
      hst.1 _ (h.asked ▸ hmem) rfl
    exact hr.step _ hnew
  | connected => exact hr.step .connect trivial
  | disconnected => exact hr.step .drop trivial
  | handle wrote compact fates => exact hr.step .act trivial
  | answered at' => exact hr.step (.answer at') trivial
  | keep => exact hr.step .keep trivial
  | launched => exact hr.step .restart trivial
  | client op => exact ⟨rest, hr⟩
  | worker thread st => exact ⟨rest, hr⟩

end Step

/-- What this client asked of each thread is acted on once and in the order it was asked, and what
is not acted on yet is in the outbox and, while the link is up, on its way. -/
def InOrder (p : Posted) : Prop :=
  p.ids.Nodup ∧
    ∃ rest, p.asked = p.acted ++ rest ∧ rest ⊆ p.client.outbox.sent ∧
      (p.client.linked = true → rest <:+ p.requests) ∧
      ∀ thread, ((p.worker thread).ran.map Prod.fst).filter (· ∈ p.ids) =
        (p.acted.filter (·.thread = thread)).map Sent.id

theorem Refines.inOrder {p : Posted} {r : Resend Sent} {rest : List Sent} (h : p.Refines r)
    (hp : p.Inv wire) (hr : r.Sound rest) : p.InOrder := by
  refine ⟨hp.ids, rest, ?_, h.outbox ▸ hr.unacted, fun hup => ?_, hp.ran⟩
  · rw [h.asked, h.acted]
    exact hr.asked
  · rw [h.linked] at hup
    rcases hr.flight with ⟨-, again, hflight, -⟩ | ⟨hdown, -⟩
    · rw [h.requests, hflight]
      exact List.suffix_append _ _
    · rw [hup] at hdown
      cases hdown

open Followed (shortWires)
open Asked (twoRecords newDir openDir_newDir encode_twoRecords)

end Posted

end Slopty.Thread.Client
