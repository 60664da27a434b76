import Slopty.Hub.Phones
import Slopty.Lib.Run

/-!
A question a phone was shown stays up until it is answered or a later note takes its place, in
every run in which no finished turn of a thread is found seen while a note that the thread needs
the person waits for room.
-/

namespace Slopty.Hub

open Slopty.Lib
open Slopty.Thread (ThreadId TurnId WallMs)

namespace PushEvent

/-- A subject was found no longer to need the person, or a note about it was accepted for the
phone. -/
def Settles (client : ClientId) (about : Asked) : PushEvent → Prop
  | note c n => c = client ∧ n.about = about
  | answered p => p about = true
  | takeBack _ _ => False

/-- Whether the phone shows that a subject needs the person, after one more event. -/
def stands (client : ClientId) (about : Asked) (was : Bool) : PushEvent → Bool
  | note c n => if c = client ∧ n.about = about then decide (n.kind = .needsYou) else was
  | answered p => was && !p about
  | takeBack _ _ => was

end PushEvent

/-- Whether the last accepted note about a subject says it needs the person, and nothing has said
otherwise since. -/
def stands (log : List PushEvent) (client : ClientId) (about : Asked) : Bool :=
  log.foldl (PushEvent.stands client about) false

/-- No question is taken down: after a note that a subject needs the person, no take-back naming it
is accepted for the phone unless the subject was found no longer to need them, or a later note
about it was accepted. -/
def NeverTakenDown (log : List PushEvent) : Prop :=
  ∀ before client notice between subjects after,
    log = before ++ .note client notice :: between ++ .takeBack client subjects :: after →
    notice.kind = .needsYou → notice.about ∈ subjects →
    ∃ e ∈ between, e.Settles client notice.about

section Stands

variable {log : List PushEvent} {client : ClientId} {about : Asked}

theorem stands_append (more : List PushEvent) :
    stands (log ++ more) client about =
      more.foldl (PushEvent.stands client about) (stands log client about) :=
  List.foldl_append

theorem stands_snoc (e : PushEvent) :
    stands (log ++ [e]) client about = e.stands client about (stands log client about) := by
  rw [stands_append]
  rfl

theorem stands_of_unsettled {events : List PushEvent}
    (h : ∀ e ∈ events, ¬ e.Settles client about) :
    events.foldl (PushEvent.stands client about) true = true := by
  induction events with
  | nil => rfl
  | cons e events ih =>
    have he : e.stands client about true = true := by
      have hnot := h e List.mem_cons_self
      cases e with
      | note c n => exact if_neg hnot
      | answered p => simpa [PushEvent.stands, PushEvent.Settles] using hnot
      | takeBack c xs => rfl
    rw [List.foldl_cons, he]
    exact ih fun e he => h e (List.mem_cons_of_mem _ he)

/-- What every take-back must keep to: it names nothing that stands. -/
def TakesBackSettled (log : List PushEvent) : Prop :=
  ∀ before client subjects after, log = before ++ .takeBack client subjects :: after →
    ∀ x ∈ subjects, stands before client x = false

theorem TakesBackSettled.neverTakenDown (h : TakesBackSettled log) : NeverTakenDown log := by
  intro before client notice between subjects after hlog hkind hmem
  by_contra hnone
  have hfree : ∀ e ∈ between, ¬ e.Settles client notice.about := fun e he hs => hnone ⟨e, he, hs⟩
  have hstands : stands (before ++ .note client notice :: between) client notice.about = true := by
    rw [stands_append, List.foldl_cons]
    have hnote : (PushEvent.note client notice).stands client notice.about
        (stands before client notice.about) = true := by
      rw [PushEvent.stands, if_pos ⟨rfl, rfl⟩, hkind]
      rfl
    rw [hnote]
    exact stands_of_unsettled hfree
  have hnot := h _ client subjects after hlog notice.about hmem
  rw [hstands] at hnot
  exact absurd hnot nofun

theorem TakesBackSettled.snoc (h : TakesBackSettled log) {e : PushEvent}
    (he : ∀ client subjects, e = .takeBack client subjects →
      ∀ x ∈ subjects, stands log client x = false) : TakesBackSettled (log ++ [e]) := by
  intro before client subjects after hlog
  rcases List.append_eq_append_iff.mp hlog with ⟨more, rfl, hmore⟩ | ⟨more, rfl, hmore⟩
  · cases more with
    | nil =>
      obtain ⟨rfl, -⟩ := List.cons.inj (by simpa using hmore)
      rw [List.append_nil]
      exact he client subjects rfl
    | cons a more =>
      have hlen := congrArg List.length hmore
      simp at hlen
  · cases more with
    | nil =>
      obtain ⟨rfl, -⟩ := List.cons.inj (by simpa using hmore)
      have heq := he client subjects rfl
      rwa [List.append_nil] at heq
    | cons a more =>
      obtain ⟨rfl, rfl⟩ := List.cons.inj hmore
      exact h before client subjects more rfl

end Stands

namespace PerClient

variable {β : Type} {m : PerClient β} {client c : ClientId} {x : β}

theorem of_insert (set : List β) :
    PerClient.of (m.insert client set) c = if client = c then set else m.of c := by
  rw [of, OrdMap.get?_insert]
  split <;> rfl

theorem of_erase : PerClient.of (m.erase client) c = if c = client then [] else m.of c := by
  rw [of, OrdMap.get?_erase]
  split <;> rfl

theorem mem_of_retain {p : ClientId → List β → Bool} (h : x ∈ PerClient.of (m.retain p) c) :
    x ∈ m.of c := by
  rw [of, OrdMap.get?_retain] at h
  rw [of]
  cases hget : m.get? c with
  | none => simp [hget] at h
  | some set =>
    rw [hget, Option.filter_some] at h
    split at h
    · exact h
    · exact absurd h List.not_mem_nil

theorem mem_of_mapVal {p : β → Bool}
    (h : x ∈ PerClient.of (m.mapVal fun _ set => set.filter p) c) : x ∈ m.of c := by
  rw [of, OrdMap.get?_mapVal] at h
  rw [of]
  cases hget : m.get? c with
  | none => simp [hget] at h
  | some set =>
    rw [hget] at h
    exact (List.mem_filter.mp h).1

variable [DecidableEq β]

theorem mem_of_add {b : β} (h : x ∈ (m.add client b).of c) : client = c ∧ x = b ∨ x ∈ m.of c := by
  rw [add, of_insert] at h
  split at h
  · rename_i hc
    rcases List.mem_insert_iff.mp h with rfl | hx
    · exact Or.inl ⟨hc, rfl⟩
    · exact Or.inr (hc ▸ hx)
  · exact Or.inr h

theorem mem_of_foldl_add {ι : Type} {f : ι → β} {l : List ι}
    (h : x ∈ (l.foldl (fun m i => m.add client (f i)) m).of c) :
    x ∈ m.of c ∨ client = c ∧ ∃ i ∈ l, x = f i := by
  induction l generalizing m with
  | nil => exact Or.inl h
  | cons i l ih =>
    rcases ih h with h | ⟨hc, j, hj, hx⟩
    · rcases mem_of_add h with ⟨hc, hx⟩ | h
      · exact Or.inr ⟨hc, i, List.mem_cons_self, hx⟩
      · exact Or.inl h
    · exact Or.inr ⟨hc, j, List.mem_cons_of_mem _ hj, hx⟩

end PerClient

/-- What is told and owed is in order: nothing that stands is owed a take-back, or shown as a
finished turn. -/
structure InOrder (phones : Phones) (log : List PushEvent) : Prop where
  settled : TakesBackSettled log
  owed : ∀ client x, stands log client x = true → x ∉ phones.owed.of client
  finished : ∀ client e, e ∈ phones.shown.finished.of client →
    stands log client (.thread e.1) = false

/-- No take-back is owed of what a waiting note says needs the person. -/
def Waits (owed : PerClient Asked) (waiting : List Waiting) : Prop :=
  ∀ w ∈ waiting, w.notice.kind = .needsYou → w.notice.about ∉ owed.of w.client

namespace InOrder

variable {phones : Phones} {log : List PushEvent}

theorem mono (h : InOrder phones log) {phones' : Phones}
    (howed : ∀ c x, x ∈ phones'.owed.of c → x ∈ phones.owed.of c)
    (hfinished : ∀ c e, e ∈ phones'.shown.finished.of c → e ∈ phones.shown.finished.of c) :
    InOrder phones' log where
  settled := h.settled
  owed c x hx hmem := h.owed c x hx (howed c x hmem)
  finished c e he := h.finished c e (hfinished c e he)

theorem mem_noted_finished {shown : Shown} {client c : ClientId} {notice : Notice}
    {turn : Option TurnId} {e : ThreadAt × TurnId}
    (h : e ∈ (shown.noted client notice turn).finished.of c) :
    client = c ∧ notice.kind = .finished ∧ notice.about = .thread e.1 ∨
      ¬ (client = c ∧ notice.about = .thread e.1) ∧ e ∈ shown.finished.of c := by
  by_cases hc : client = c
  · subst hc
    unfold Shown.noted at h
    dsimp only at h
    cases habout : notice.about with
    | terminal term =>
      simp only [habout] at h
      refine Or.inr ⟨fun heq => absurd heq.2 Asked.noConfusion, ?_⟩
      split at h
      · rwa [PerClient.of_insert, if_pos rfl] at h
      · rw [PerClient.of_insert, if_pos rfl] at h
        split at h
        · rename_i hthread
          cases hthread
        · exact h
    | thread at' =>
      simp only [habout] at h
      have hkept : e ∈ (shown.finished.of client).filter (fun e => decide (e.1 ≠ at')) →
          ¬ (client = client ∧ Asked.thread at' = .thread e.1) ∧ e ∈ shown.finished.of client := by
        intro he
        obtain ⟨he, hne⟩ := List.mem_filter.mp he
        exact ⟨fun heq => of_decide_eq_true hne (Asked.thread.inj heq.2).symm, he⟩
      split at h
      · rw [PerClient.of_insert, if_pos rfl] at h
        exact Or.inr (hkept h)
      · rw [PerClient.of_insert, if_pos rfl] at h
        split at h
        · rename_i hkind hthread
          obtain rfl := Asked.thread.inj hthread
          rcases List.mem_insert_iff.mp h with rfl | hin
          · exact Or.inl ⟨rfl, hkind, rfl⟩
          · exact Or.inr (hkept hin)
        · exact Or.inr (hkept h)
  · right
    refine ⟨fun heq => hc heq.1, ?_⟩
    unfold Shown.noted at h
    dsimp only at h
    split at h
    · rwa [PerClient.of_insert, if_neg hc] at h
    · rwa [PerClient.of_insert, if_neg hc] at h

theorem noted (h : InOrder phones log) {client : ClientId} {notice : Notice}
    (hfree : notice.kind = .needsYou → notice.about ∉ phones.owed.of client)
    (turn : Option TurnId) :
    InOrder { phones with shown := phones.shown.noted client notice turn }
      (log ++ [.note client notice]) where
  settled := h.settled.snoc nofun
  owed := by
    intro c x hx
    rw [stands_snoc, PushEvent.stands] at hx
    split at hx
    · rename_i hsame
      obtain ⟨rfl, rfl⟩ := hsame
      exact hfree (of_decide_eq_true hx)
    · exact h.owed c x hx
  finished := by
    intro c e he
    rw [stands_snoc, PushEvent.stands]
    rcases mem_noted_finished he with ⟨hc, hkind, habout⟩ | ⟨hne, he⟩
    · rw [if_pos ⟨hc, habout⟩, hkind]
      rfl
    · rw [if_neg hne]
      exact h.finished c e he

theorem tookBack (h : InOrder phones log) {client : ClientId} {subjects : List Asked}
    (hfree : ∀ x ∈ subjects, stands log client x = false) :
    InOrder phones (log ++ [.takeBack client subjects]) where
  settled := by
    refine h.settled.snoc ?_
    rintro c xs heq
    cases heq
    exact hfree
  owed := by
    intro c x hx
    rw [stands_snoc] at hx
    exact h.owed c x hx
  finished := by
    intro c e he
    rw [stands_snoc]
    exact h.finished c e he

end InOrder

namespace Pushes

/-- What is told, owed and waiting is in order. -/
structure Inv (s : Pushes) : Prop where
  order : InOrder s.phones s.log
  waits : Waits s.phones.owed s.phones.owedNotes

theorem trySend_cases (s : Pushes) (push : PushEvent) :
    (∃ room, s.trySend push = (.ok, { s with room := room, log := s.log ++ [push] })) ∨
      ∃ refused room, refused ≠ .ok ∧ s.trySend push = (refused, { s with room := room }) := by
  unfold trySend
  cases hroom : s.room with
  | nil => exact Or.inr ⟨.full, s.room, nofun, rfl⟩
  | cons r room =>
    cases r with
    | ok => exact Or.inl ⟨room, rfl⟩
    | full => exact Or.inr ⟨.full, room, nofun, rfl⟩
    | closed => exact Or.inr ⟨.closed, room, nofun, rfl⟩

theorem replaced_owed {phones : Phones} {client c : ClientId} {about x : Asked}
    (h : x ∈ (replaced phones client about).owed.of c) :
    x ∈ phones.owed.of c ∧ ¬ (client = c ∧ x = about) := by
  unfold replaced at h
  cases hget : phones.owed.get? client with
  | none =>
    rw [hget] at h
    refine ⟨h, ?_⟩
    rintro ⟨rfl, -⟩
    change x ∈ (phones.owed.get? client).getD [] at h
    rw [hget] at h
    exact absurd h List.not_mem_nil
  | some owed =>
    rw [hget] at h
    dsimp only at h
    rw [PerClient.of_insert] at h
    split at h
    · rename_i hc
      obtain ⟨hx, hne⟩ := List.mem_filter.mp h
      refine ⟨?_, fun heq => of_decide_eq_true hne heq.2⟩
      rw [← hc, PerClient.of, hget]
      exact hx
    · rename_i hc
      exact ⟨h, fun heq => hc heq.1⟩

theorem replaced_inv {s : Pushes} (h : s.Inv) (client : ClientId) (about : Asked) :
    (s.setPhones (replaced s.phones client about)).Inv where
  order := h.order.mono (fun _ _ hx => (replaced_owed hx).1) fun _ _ he => he
  waits := by
    intro w hw hkind hmem
    exact h.waits w (List.mem_filter.mp hw).1 hkind (replaced_owed hmem).1

theorem sendTo_inv {s : Pushes} (h : s.Inv) (seats : OrdMap Nat Sitting) (notice : Notice)
    (how : Pushing) (e : ClientId × PushDevice) : (sendTo seats notice how s e).Inv := by
  unfold sendTo
  dsimp only
  split
  · exact h
  · have hreplaced := replaced_inv h e.1 notice.about
    have hfree : notice.about ∉ (replaced s.phones e.1 notice.about).owed.of e.1 := fun hx =>
      (replaced_owed hx).2 ⟨rfl, rfl⟩
    obtain ⟨room, htry⟩ | ⟨refused, room, hne, htry⟩ :=
      (s.setPhones (replaced s.phones e.1 notice.about)).trySend_cases (.note e.1 notice)
    · rw [htry]
      exact ⟨hreplaced.order.noted (fun _ => hfree) how.turn, hreplaced.waits⟩
    · rw [htry]
      cases refused with
      | ok => exact absurd rfl hne
      | closed => exact ⟨hreplaced.order, hreplaced.waits⟩
      | full =>
        refine ⟨⟨hreplaced.order.settled, hreplaced.order.owed, hreplaced.order.finished⟩, ?_⟩
        intro w hw hkind
        rcases List.mem_append.mp hw with hw | hw
        · exact hreplaced.waits w hw hkind
        · rw [List.mem_singleton.mp hw]
          exact hfree

theorem tidy_inv {s : Pushes} (h : s.Inv) :
    (s.setPhones { s.phones with
      owed := s.phones.owed.tidy, shown := s.phones.shown.tidy }).Inv where
  order := h.order.mono (fun _ _ => PerClient.mem_of_retain) fun _ _ => PerClient.mem_of_retain
  waits w hw hkind hmem := h.waits w hw hkind (PerClient.mem_of_retain hmem)

theorem send_inv {s : Pushes} (h : s.Inv) (seats : OrdMap Nat Sitting) (notice : Notice)
    (how : Pushing) : (s.send seats notice how).Inv := by
  unfold send
  split
  · rename_i hout
    refine tidy_inv ?_
    clear hout
    generalize s.phones.devices.entries = devices
    induction devices generalizing s with
    | nil => exact h
    | cons e devices ih => exact ih (sendTo_inv h seats notice how e)
  · exact h

/-- Along the notes that waited, those still to come wait on nothing owed. -/
theorem sendWaiting_inv {waiting : List Waiting} {s : Pushes} (h : s.Inv)
    (hwaiting : Waits s.phones.owed waiting) : (sendWaiting waiting s).Inv := by
  induction waiting generalizing s with
  | nil => exact h
  | cons w rest ih =>
    have hrest : Waits s.phones.owed rest := fun v hv => hwaiting v (List.mem_cons_of_mem _ hv)
    rw [sendWaiting]
    cases s.phones.devices.get? w.client with
    | none => exact ih h hrest
    | some device =>
      dsimp only
      obtain ⟨room, htry⟩ | ⟨refused, room, hne, htry⟩ := s.trySend_cases (.note w.client w.notice)
      · rw [htry]
        refine ih ⟨?_, h.waits⟩ hrest
        exact h.order.noted (hwaiting w List.mem_cons_self) w.turn
      · rw [htry]
        cases refused with
        | ok => exact absurd rfl hne
        | closed => exact ih ⟨h.order, h.waits⟩ hrest
        | full =>
          refine ⟨⟨h.order.settled, h.order.owed, h.order.finished⟩, ?_⟩
          intro v hv
          rcases List.mem_append.mp hv with hv | hv
          · exact h.waits v hv
          · exact hwaiting v hv

theorem sendChunks_inv {client : ClientId} {parts : List (List Asked)} {s : Pushes} (h : s.Inv)
    (hparts : ∀ part ∈ parts, ∀ x ∈ part, stands s.log client x = false) :
    (sendChunks client parts s).Inv := by
  induction parts generalizing s with
  | nil => exact h
  | cons part rest ih =>
    rw [sendChunks]
    obtain ⟨room, htry⟩ | ⟨refused, room, hne, htry⟩ := s.trySend_cases (.takeBack client part)
    · rw [htry]
      have hless : ∀ c x, x ∈ PerClient.of (s.phones.owed.insert client
          ((s.phones.owed.of client).filter fun a => !part.contains a)) c →
          x ∈ s.phones.owed.of c := by
        intro c x hx
        rw [PerClient.of_insert] at hx
        split at hx
        · rename_i hc
          exact hc ▸ (List.mem_filter.mp hx).1
        · exact hx
      refine ih ⟨?_, ?_⟩ ?_
      · exact (h.order.tookBack (hparts part List.mem_cons_self)).mono hless fun _ _ he => he
      · exact fun w hw hkind hmem => h.waits w hw hkind (hless _ _ hmem)
      · intro part' hpart' x hx
        show stands (s.log ++ [.takeBack client part]) client x = false
        rw [stands_snoc]
        exact hparts part' (List.mem_cons_of_mem _ hpart') x hx
    · rw [htry]
      cases refused with
      | ok => exact absurd rfl hne
      | full => exact ⟨h.order, h.waits⟩
      | closed => exact ⟨h.order, h.waits⟩

theorem mem_of_mem_chunks {n fuel : Nat} {l part : List Asked} {x : Asked}
    (hpart : part ∈ chunks n fuel l) (hx : x ∈ part) : x ∈ l := by
  induction fuel generalizing l with
  | zero => exact absurd hpart List.not_mem_nil
  | succ fuel ih =>
    cases l with
    | nil => exact absurd hpart List.not_mem_nil
    | cons a rest =>
      rw [chunks] at hpart
      rcases List.mem_cons.mp hpart with rfl | hpart
      · exact List.mem_of_mem_take hx
      · exact List.mem_of_mem_drop (ih hpart)

variable {iter : List Asked → List Asked} (hiter : ∀ set, (iter set).Perm set)

include hiter in
theorem sendTakeBacks_inv {s : Pushes} (h : s.Inv) (client : ClientId) :
    (sendTakeBacks iter s client).Inv := by
  unfold sendTakeBacks
  cases s.phones.devices.get? client with
  | none =>
    have hless : ∀ c x, x ∈ PerClient.of (s.phones.owed.insert client []) c →
        x ∈ s.phones.owed.of c := by
      intro c x hx
      rw [PerClient.of_insert] at hx
      split at hx
      · exact absurd hx List.not_mem_nil
      · exact hx
    exact ⟨h.order.mono hless fun _ _ he => he,
      fun w hw hkind hmem => h.waits w hw hkind (hless _ _ hmem)⟩
  | some device =>
    refine sendChunks_inv h ?_
    intro part hpart x hx
    have howed : x ∈ s.phones.owed.of client := (hiter _).mem_iff.mp (mem_of_mem_chunks hpart hx)
    cases hstands : stands s.log client x with
    | false => rfl
    | true => exact absurd howed (h.order.owed client x hstands)

include hiter in
theorem sendOwed_inv {s : Pushes} (h : s.Inv) : (s.sendOwed iter).Inv := by
  unfold sendOwed
  dsimp only
  refine tidy_inv ?_
  split
  · have hsent : (sendWaiting s.phones.owedNotes
        (s.setPhones { s.phones with owedNotes := [] })).Inv :=
      sendWaiting_inv ⟨⟨h.order.settled, h.order.owed, h.order.finished⟩, nofun⟩ h.waits
    generalize sendWaiting s.phones.owedNotes (s.setPhones { s.phones with owedNotes := [] }) = s'
      at hsent
    generalize s'.phones.owed.keys = clients
    induction clients generalizing s' with
    | nil => exact hsent
    | cons client clients ih => exact ih _ (sendTakeBacks_inv hiter hsent client)
  · exact h

theorem mem_oweAnswered {answered : Asked → Bool} {phones : Phones} {c : ClientId} {x : Asked}
    (h : x ∈ (oweAnswered answered phones).owed.of c) :
    x ∈ phones.owed.of c ∨ answered x = true := by
  unfold oweAnswered at h
  dsimp only at h
  generalize phones.shown.asked.entries = shown at h
  have hfold : ∀ {shown : List (ClientId × List Asked)} {owed : PerClient Asked},
      x ∈ PerClient.of (shown.foldl
        (fun owed e =>
          if (phones.devices.get? e.1).isSome then
            (e.2.filter answered).foldl (fun owed a => owed.add e.1 a) owed
          else owed)
        owed) c → x ∈ owed.of c ∨ answered x = true := by
    intro shown
    induction shown with
    | nil => exact fun h => Or.inl h
    | cons e shown ih =>
      intro owed h
      rcases ih h with h | h
      · dsimp only at h
        split at h
        · rcases PerClient.mem_of_foldl_add h with h | ⟨-, a, ha, rfl⟩
          · exact Or.inl h
          · exact Or.inr (List.mem_filter.mp ha).2
        · exact Or.inl h
      · exact Or.inr h
  exact (hfold h).imp_left PerClient.mem_of_retain

include hiter in
/-- Take-backs of what is answered, where the notes that go on waiting wait on nothing owed. -/
theorem takeBackWhere_inv {s : Pushes} (h : InOrder s.phones s.log) {answered : Asked → Bool}
    (hwaits : s.phones.out = true → Waits s.phones.owed (s.phones.owedNotes.filter fun w =>
      (s.phones.devices.get? w.client).isSome && !answered w.notice.about)) :
    (s.takeBackWhere iter answered).Inv := by
  have hsettled : TakesBackSettled (s.log ++ [PushEvent.answered answered]) := h.settled.snoc nofun
  have hstands : ∀ c x, stands (s.log ++ [PushEvent.answered answered]) c x = true →
      stands s.log c x = true ∧ answered x = false := by
    intro c x hx
    rw [stands_snoc, PushEvent.stands] at hx
    simpa using hx
  unfold takeBackWhere
  dsimp only
  split
  · rename_i hout
    refine sendOwed_inv hiter ⟨⟨hsettled, ?_, ?_⟩, ?_⟩
    · intro c x hx hmem
      obtain ⟨hx, hnot⟩ := hstands c x hx
      rcases mem_oweAnswered hmem with hmem | hyes
      · exact h.owed c x hx hmem
      · rw [hnot] at hyes
        exact absurd hyes nofun
    · intro c e he
      have hfalse := h.finished c e (PerClient.mem_of_retain he)
      show stands (s.log ++ [PushEvent.answered answered]) c (.thread e.1) = false
      rw [stands_snoc, PushEvent.stands, hfalse]
      rfl
    · intro w hw hkind hmem
      rcases mem_oweAnswered hmem with hmem | hyes
      · exact hwaits hout w hw hkind hmem
      · have hnot := (List.mem_filter.mp hw).2
        rw [hyes] at hnot
        simp at hnot
  · exact ⟨⟨hsettled, fun _ _ _ => List.not_mem_nil, fun _ _ he => absurd he List.not_mem_nil⟩,
      fun _ _ _ => List.not_mem_nil⟩

theorem mem_oweRead {tables : Tables} {phones : Phones} {c : ClientId} {x : Asked}
    (h : x ∈ (oweRead tables phones).owed.of c) :
    x ∈ phones.owed.of c ∨
      ∃ e ∈ phones.shown.finished.of c, read tables e = true ∧ x = .thread e.1 := by
  unfold oweRead at h
  dsimp only at h
  have hfold : ∀ {shown : List (ClientId × List (ThreadAt × TurnId))} {owed : PerClient Asked},
      x ∈ PerClient.of (shown.foldl
        (fun owed e =>
          (e.2.filter (read tables)).foldl (fun owed f => owed.add e.1 (.thread f.1)) owed)
        owed) c →
      x ∈ owed.of c ∨ ∃ e ∈ shown, e.1 = c ∧ ∃ f ∈ e.2, read tables f = true ∧ x = .thread f.1 := by
    intro shown
    induction shown with
    | nil => exact fun h => Or.inl h
    | cons e shown ih =>
      intro owed h
      rcases ih h with h | ⟨e', he', hrest⟩
      · rcases PerClient.mem_of_foldl_add h with h | ⟨hc, f, hf, hx⟩
        · exact Or.inl h
        · obtain ⟨hf, hread⟩ := List.mem_filter.mp hf
          exact Or.inr ⟨e, List.mem_cons_self, hc, f, hf, hread, hx⟩
      · exact Or.inr ⟨e', List.mem_cons_of_mem _ he', hrest⟩
  refine (hfold h).imp_right ?_
  rintro ⟨e, he, rfl, f, hf, hread, hx⟩
  refine ⟨f, ?_, hread, hx⟩
  rw [PerClient.of, OrdMap.get?_eq_some_iff.mpr he]
  exact hf

/-- A finished turn's note a phone shows is found seen while a note that its thread needs the
person, which it still does, waits for room. -/
def seenWhileWaiting (s : Pushes) (ladder : Ladder) (tables : Tables) : Bool :=
  s.phones.out && s.phones.owedNotes.any fun w =>
    decide (w.notice.kind = .needsYou) && (s.phones.devices.get? w.client).isSome &&
      !atRest ladder tables w.notice.about &&
      (s.phones.shown.finished.of w.client).any fun e =>
        decide (w.notice.about = .thread e.1) && read tables e

include hiter in
theorem takeBack_inv {s : Pushes} (h : s.Inv) {ladder : Ladder} {tables : Tables}
    (hseen : s.seenWhileWaiting ladder tables = false) : (s.takeBack iter ladder tables).Inv := by
  have horder : InOrder (oweRead tables s.phones) s.log := by
    refine ⟨h.order.settled, ?_, ?_⟩
    · intro c x hx hmem
      rcases mem_oweRead hmem with hmem | ⟨e, he, -, rfl⟩
      · exact h.order.owed c x hx hmem
      · rw [h.order.finished c e he] at hx
        exact absurd hx nofun
    · intro c e he
      exact h.order.finished c e (PerClient.mem_of_mapVal he)
  refine takeBackWhere_inv hiter (s := s.setPhones (oweRead tables s.phones)) horder ?_
  intro hout w hw hkind hmem
  obtain ⟨hw, hstays⟩ := List.mem_filter.mp hw
  rcases mem_oweRead hmem with hmem | ⟨e, he, hread, habout⟩
  · exact h.waits w hw hkind hmem
  · have hyes : s.seenWhileWaiting ladder tables = true := by
      rw [seenWhileWaiting, Bool.and_eq_true]
      refine ⟨hout, List.any_eq_true.mpr ⟨w, hw, ?_⟩⟩
      rw [Bool.and_eq_true] at hstays
      rw [Bool.and_eq_true, Bool.and_eq_true, Bool.and_eq_true]
      refine ⟨⟨⟨decide_eq_true hkind, hstays.1⟩, hstays.2⟩, List.any_eq_true.mpr ⟨e, he, ?_⟩⟩
      rw [hread, Bool.and_true]
      exact decide_eq_true habout
    rw [hseen] at hyes
    exact absurd hyes nofun

include hiter in
theorem programAnswered_inv {s : Pushes} (h : s.Inv) (term : TermRef) :
    (s.programAnswered iter term).Inv :=
  takeBackWhere_inv hiter h.order fun _ w hw => h.waits w (List.mem_filter.mp hw).1

theorem listening_inv {s : Pushes} (h : s.Inv) (client : ClientId) : (s.listening client).Inv := by
  have hless : ∀ {β : Type} {m : PerClient β} {c : ClientId} {x : β},
      x ∈ PerClient.of (m.erase client) c → x ∈ m.of c := by
    intro β m c x hx
    rw [PerClient.of_erase] at hx
    split at hx
    · exact absurd hx List.not_mem_nil
    · exact hx
  refine ⟨h.order.mono (fun _ _ => hless) fun _ _ => hless, ?_⟩
  intro w hw hkind hmem
  exact h.waits w (List.mem_filter.mp hw).1 hkind (hless hmem)

/-- The operation finds no finished turn seen while a note that its thread needs the person waits. -/
def Timely (s : Pushes) : PushOp × List TrySend → Prop
  | (.takeBack ladder tables, _) => s.seenWhileWaiting ladder tables = false
  | _ => True

include hiter in
theorem step_inv {s : Pushes} (h : s.Inv) {op : PushOp × List TrySend} (hop : s.Timely op) :
    (s.step iter op).Inv := by
  obtain ⟨op, room⟩ := op
  have h : Inv { s with room := room } := ⟨h.order, h.waits⟩
  cases op with
  | send seats notice how => exact send_inv h seats notice how
  | takeBack ladder tables => exact takeBack_inv hiter h hop
  | programAnswered term => exact programAnswered_inv hiter h term
  | listening client => exact listening_inv h client
  | sendOwed => exact sendOwed_inv hiter h
  | devices devices => exact ⟨h.order.mono (fun _ _ hx => hx) fun _ _ he => he, h.waits⟩
  | pushTo out => exact ⟨h.order.mono (fun _ _ hx => hx) fun _ _ he => he, h.waits⟩

/-- Along every run in which no finished turn of a thread is found seen while a note that the
thread needs the person waits for room, no question is taken down by an older take-back. -/
theorem question_stays_up {iter : List Asked → List Asked} (hiter : ∀ set, (iter set).Perm set)
    (phones : Phones) (hnew : phones.owedNotes = []) (ops : List (PushOp × List TrySend))
    (hops : EachStep (step iter) Timely { phones := phones } ops) :
    NeverTakenDown (ops.foldl (step iter) { phones := phones }).log := by
  have hstart : Inv { phones := phones } := by
    refine ⟨⟨?_, nofun, fun _ _ _ => rfl⟩, ?_⟩
    · intro before client subjects after hlog
      simp at hlog
    · rw [Waits, hnew]
      nofun
  exact (hops.foldl (P := Inv) (fun _ _ h hop => step_inv hiter h hop)
    hstart).order.settled.neverTakenDown

def onePhone : Phones := { devices := OrdMap.empty.insert 1 {}, out := true }

def builder : ThreadAt := ⟨1, 7⟩

/-- The builder's worker, with its thread in a phase and its turns seen up to one. -/
def builderTables (phase : Slopty.Thread.Phase) (seen : TurnId) : Tables :=
  OrdMap.empty.insert 1
    (Table.empty.put { id := 7, phase := phase, sinceMs := 0, seen := seen })

def ranking (phase : Slopty.Thread.Phase) (seen : TurnId) : PushOp :=
  .takeBack (ladder (builderTables phase seen)) (builderTables phase seen)

def finishes : PushOp :=
  .send OrdMap.empty { kind := .finished, about := .thread builder } { turn := some 5 }

def asks : PushOp := .send OrdMap.empty { kind := .needsYou, about := .thread builder } {}

/-- The question waits for room and is sent before its thread's finished turn is seen; then it is
answered. -/
def askedThenSeen : List (PushOp × List TrySend) :=
  [(finishes, [.ok]), (asks, []), (.sendOwed, [.ok]), (ranking .needsYou 5, [.ok, .ok]),
    (ranking .working 5, [.ok])]

theorem question_stays_up_answered :
    EachStep (step id) Timely { phones := onePhone } askedThenSeen ∧
      (askedThenSeen.foldl (step id) { phones := onePhone }).log.length = 5 ∧
      NeverTakenDown (askedThenSeen.foldl (step id) { phones := onePhone }).log := by
  have hops : EachStep (step id) Timely { phones := onePhone } askedThenSeen := by
    refine ⟨trivial, trivial, trivial, ?_, ?_, trivial⟩
    · show seenWhileWaiting _ _ _ = false
      decide +kernel
    · show seenWhileWaiting _ _ _ = false
      decide +kernel
  exact ⟨hops, by decide +kernel,
    question_stays_up (fun _ => List.Perm.refl _) onePhone rfl askedThenSeen hops⟩

/-- The finished turn is seen while the question waits for room; both are sent, the question
first. -/
def seenThenAsked : List (PushOp × List TrySend) :=
  [(finishes, [.ok]), (asks, []), (ranking .needsYou 5, [.ok, .ok])]

/-- The take-back of the finished turn's note takes down the question. -/
theorem question_taken_down :
    ¬ NeverTakenDown (seenThenAsked.foldl (step id) { phones := onePhone }).log := by
  intro h
  obtain ⟨e, he, -⟩ := h [.note 1 { kind := .finished, about := .thread builder },
      .answered (atRest (ladder (builderTables .needsYou 5)) (builderTables .needsYou 5))]
    1 { kind := .needsYou, about := .thread builder } [] [.thread builder] [] rfl rfl
    List.mem_cons_self
  exact absurd he List.not_mem_nil

end Pushes

end Slopty.Hub
