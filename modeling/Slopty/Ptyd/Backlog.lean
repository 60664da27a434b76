import Slopty.Ptyd.Daemon

/-!
What an attach hands out against all the output a session made: the checkpoint stands for a first
part of it, and the backlog is the rest, less what fell off the ring.
-/

namespace Slopty.Ptyd

open Slopty.Lib

def Note.session : Note → Ref
  | .opened r => r
  | .drained r _ => r
  | .tapped r _ _ => r
  | .checkpointed r _ _ => r
  | .handed r _ _ => r
  | .delivered r _ => r

/-- A session's output so far, and how much of it each worker has. -/
structure Account where
  /-- Every byte the reader drained or a worker that holds the master tapped. -/
  output : Bytes := []
  checkpoint : Bytes := []
  /-- The checkpoint was taken when its worker had exactly the first so many bytes. -/
  upTo : Option Nat := some 0
  /-- Bytes attaches handed out since the checkpoint. -/
  handed : Nat := 0
  /-- The output's length when the last attach was served. -/
  offered : Nat := 0
  /-- The first so many bytes were handed to a worker or tapped by it; `none` once it has others
  beyond a gap. -/
  seen : Worker → Option Nat := fun _ => some 0

namespace Account

def add (a : Account) : Note → Account
  | .opened _ => {}
  | .drained _ bytes => { a with output := a.output ++ bytes }
  | .tapped _ worker bytes =>
      { a with
        output := a.output ++ bytes
        seen := Function.update a.seen worker
          (if a.seen worker = some a.output.length then some (a.output.length + bytes.length)
          else none) }
  | .checkpointed _ worker state =>
      { a with checkpoint := state, upTo := a.seen worker, handed := 0 }
  | .handed _ _ handover =>
      { a with handed := a.handed + handover.backlog.length, offered := a.output.length }
  | .delivered _ worker => { a with seen := Function.update a.seen worker (some a.offered) }

/-- One session's account of what was noted. -/
def of (r : Ref) (notes : List Note) : Account :=
  (notes.filter fun n => decide (n.session = r)).foldl add {}

theorem of_append_singleton (r : Ref) (notes : List Note) (n : Note) :
    of r (notes ++ [n]) = if n.session = r then (of r notes).add n else of r notes := by
  rw [of, of, List.filter_append]
  split
  · rename_i h
    rw [List.filter_cons_of_pos (by simpa using h), List.filter_nil, List.foldl_append]
    rfl
  · rename_i h
    rw [List.filter_cons_of_neg (by simpa using h), List.filter_nil, List.append_nil]

/-- The handover stands for all the output so far. -/
def Stands (a : Account) (h : Handover) : Prop :=
  h.checkpoint = a.checkpoint ∧
    ∃ upTo, a.upTo = some upTo ∧ h.backlog = a.output.drop (upTo + h.dropped)

/-- The checkpoint, what was handed out since, what the ring dropped and what it holds are all the
output, in this order. -/
def Keeps (a : Account) (s : Session) : Prop :=
  s.checkpoint = a.checkpoint ∧
    ∃ upTo, a.upTo = some upTo ∧ s.ring.Follows (upTo + a.handed) a.output

end Account

/-- A session with the same checkpoint, and as much of the output in its ring. -/
structure Session.Carries (s t : Session) : Prop where
  checkpoint : t.checkpoint = s.checkpoint
  ring : ∀ start all, s.ring.Follows start all → t.ring.Follows start all

theorem Account.Keeps.carries {a : Account} {s t : Session} (h : a.Keeps s) (hst : s.Carries t) :
    a.Keeps t := by
  obtain ⟨hcheckpoint, upTo, hupTo, hring⟩ := h
  exact ⟨hst.checkpoint.trans hcheckpoint, upTo, hupTo, hst.ring _ _ hring⟩

theorem Session.Carries.of_eq {s t : Session} (hcheckpoint : t.checkpoint = s.checkpoint)
    (hring : t.ring = s.ring) : s.Carries t :=
  ⟨hcheckpoint, fun _ _ h => hring ▸ h⟩

namespace Session

/-- The session's output and checkpoint are not touched. -/
structure Leaves (s t : Session) : Prop where
  checkpoint : t.checkpoint = s.checkpoint
  ring : t.ring = s.ring

theorem Leaves.carries {s t : Session} (h : s.Leaves t) : s.Carries t :=
  Carries.of_eq h.checkpoint h.ring

theorem Leaves.refl (s : Session) : s.Leaves s := ⟨rfl, rfl⟩

theorem Leaves.trans {s t u : Session} (hst : s.Leaves t) (htu : t.Leaves u) : s.Leaves u :=
  ⟨htu.checkpoint.trans hst.checkpoint, htu.ring.trans hst.ring⟩

theorem leaves_pause (s : Session) : s.Leaves s.pause := by
  unfold pause
  split <;> exact ⟨rfl, rfl⟩

theorem leaves_release (s : Session) (c : ConnId) : s.Leaves (s.release c) := by
  unfold release
  split <;> exact ⟨rfl, rfl⟩

theorem leaves_resumeReader (s : Session) : s.Leaves s.resumeReader := by
  unfold resumeReader
  split <;> exact ⟨rfl, rfl⟩

theorem leaves_resumeUnlessHeld (s : Session) : s.Leaves s.resumeUnlessHeld := by
  unfold resumeUnlessHeld
  split
  · exact s.leaves_resumeReader
  · exact Leaves.refl s

theorem leaves_letGo (s : Session) (c : ConnId) : s.Leaves (s.letGo c) :=
  (s.leaves_release c).trans (leaves_resumeReader _)

theorem leaves_look (s : Session) : s.Leaves s.look := by
  unfold look
  split <;> exact ⟨rfl, rfl⟩

theorem leaves_claim {s t : Session} {c : ConnId} (h : s.claim c = some t) : s.Leaves t := by
  unfold claim at h
  split at h
  · split at h
    · cases h
    · rw [← Option.some.inj h]
      exact ⟨rfl, rfl⟩
  · rw [← Option.some.inj h]
    exact ⟨rfl, rfl⟩

theorem carries_inherit (s : Session) (backlogBytes : Nat) :
    s.Carries (inherit s.heir backlogBytes) :=
  ⟨rfl, fun _ _ h => h.holding backlogBytes⟩

theorem readLoop_eq_some {s t : Session} {io : Io} {bytes : Bytes}
    (h : s.readLoop io = some (t, bytes)) :
    bytes = [] ∧ s.Leaves t ∨
      bytes ≠ [] ∧ t.checkpoint = s.checkpoint ∧ t.ring = s.ring.push bytes := by
  unfold readLoop at h
  split at h
  · obtain ⟨rfl, rfl⟩ := Prod.mk.inj (Option.some.inj h)
    exact Or.inl ⟨rfl, s.leaves_look⟩
  · split at h
    · obtain ⟨rfl, rfl⟩ := Prod.mk.inj (Option.some.inj h)
      exact Or.inl ⟨rfl, s.leaves_look⟩
    · cases h
  · split at h
    · obtain ⟨rfl, rfl⟩ := Prod.mk.inj (Option.some.inj h)
      exact Or.inl ⟨rfl, s.leaves_look⟩
    · cases h
  · split at h
    · rename_i hread
      obtain ⟨rfl, rfl⟩ := Prod.mk.inj (Option.some.inj h)
      exact Or.inr ⟨hread.1, (leaves_look _).checkpoint, (leaves_look _).ring⟩
    · cases h
  · obtain ⟨rfl, rfl⟩ := Prod.mk.inj (Option.some.inj h)
    exact Or.inl ⟨rfl, rfl, rfl⟩
  · obtain ⟨rfl, rfl⟩ := Prod.mk.inj (Option.some.inj h)
    exact Or.inl ⟨rfl, rfl, rfl⟩
  · obtain ⟨rfl, rfl⟩ := Prod.mk.inj (Option.some.inj h)
    exact Or.inl ⟨rfl, rfl, rfl⟩
  · cases h

end Session

/-- What a note says of the session it is about, before and after. -/
def Note.Tells (s t : Session) : Note → Prop
  | .opened _ => t.checkpoint = [] ∧ t.ring.buf = [] ∧ t.ring.dropped = 0
  | .drained _ bytes => t.checkpoint = s.checkpoint ∧ t.ring = s.ring.push bytes
  | .tapped _ _ bytes => t.checkpoint = s.checkpoint ∧ t.ring = s.ring.push bytes
  | .checkpointed _ _ state => t.checkpoint = state ∧ t.ring = s.ring.clear
  | .handed _ _ handover =>
      handover.checkpoint = s.checkpoint ∧ handover.backlog = s.ring.buf ∧
        handover.dropped = s.ring.dropped ∧ t.checkpoint = s.checkpoint ∧ t.ring = s.ring.drain.2
  | .delivered _ _ => s.Leaves t

/-- A step touches the output of the session it notes something of, as it notes, and of no
other. -/
def Records (heap heap' : Ref → Session) (note : Option Note) : Prop :=
  ∀ r, (∃ n, note = some n ∧ n.session = r ∧ n.Tells (heap r) (heap' r)) ∨
    (∀ n, note = some n → n.session ≠ r) ∧ (heap r).Carries (heap' r)

theorem Note.Tells.of_leaves {s t u : Session} (hst : s.Leaves t) {n : Note}
    (h : n.Tells t u) : n.Tells s u := by
  cases n with
  | opened r => exact h
  | drained r bytes => exact ⟨h.1.trans hst.checkpoint, h.2.trans (by rw [hst.ring])⟩
  | tapped r worker bytes => exact ⟨h.1.trans hst.checkpoint, h.2.trans (by rw [hst.ring])⟩
  | checkpointed r worker state => exact ⟨h.1, h.2.trans (by rw [hst.ring])⟩
  | handed r worker handover =>
      obtain ⟨hcheckpoint, hbacklog, hdropped, hkept, hdrained⟩ := h
      exact ⟨hcheckpoint.trans hst.checkpoint, hbacklog.trans (by rw [hst.ring]),
        hdropped.trans (by rw [hst.ring]), hkept.trans hst.checkpoint,
        hdrained.trans (by rw [hst.ring])⟩
  | delivered r worker => exact hst.trans h

namespace Records

theorem carries {heap heap' : Ref → Session} (h : ∀ r, (heap r).Carries (heap' r)) :
    Records heap heap' none := by
  intro r
  refine Or.inr ⟨fun n hn => ?_, h r⟩
  cases hn

theorem leaves {heap heap' : Ref → Session} (h : ∀ r, (heap r).Leaves (heap' r)) :
    Records heap heap' none :=
  carries fun r => (h r).carries

theorem refl (heap : Ref → Session) : Records heap heap none :=
  leaves fun r => Session.Leaves.refl (heap r)

theorem of_leaves {heap heap₁ heap' : Ref → Session} {note : Option Note}
    (hleaves : ∀ r, (heap r).Leaves (heap₁ r)) (h : Records heap₁ heap' note) :
    Records heap heap' note := by
  intro r
  rcases h r with ⟨n, hn, hr, htells⟩ | ⟨hother, hcarries⟩
  · exact Or.inl ⟨n, hn, hr, htells.of_leaves (hleaves r)⟩
  · refine Or.inr ⟨hother, hcarries.checkpoint.trans (hleaves r).checkpoint, fun start all hf => ?_⟩
    exact hcarries.ring start all (by rw [(hleaves r).ring]; exact hf)

theorem update {heap : Ref → Session} {r : Ref} {t : Session} {n : Note} (hr : n.session = r)
    (htells : n.Tells (heap r) t) : Records heap (Function.update heap r t) (some n) := by
  intro r'
  by_cases heq : r' = r
  · subst heq
    rw [Function.update_self]
    exact Or.inl ⟨n, rfl, hr, htells⟩
  · rw [Function.update_of_ne heq]
    refine Or.inr ⟨fun n' hn' => ?_, (Session.Leaves.refl _).carries⟩
    rw [← Option.some.inj hn', hr]
    exact Ne.symm heq

theorem leaves_update {heap : Ref → Session} {r : Ref} {t : Session}
    (h : (heap r).Leaves t) (r' : Ref) : (heap r').Leaves (Function.update heap r t r') := by
  by_cases heq : r' = r
  · subst heq
    rw [Function.update_self]
    exact h
  · rw [Function.update_of_ne heq]
    exact Session.Leaves.refl _

end Records

namespace Daemon

variable (d : Daemon) (c : ConnId) (k : Connection)

theorem records_taken (how : Taking) (id : SessionId) (r : Ref) :
    Records d.heap (d.taken c k how id r).1.heap (d.taken c k how id r).2 := by
  unfold Daemon.taken
  split
  · exact Records.leaves (Records.leaves_update (Session.leaves_release _ c))
  · cases how with
    | attach => exact Records.update rfl ⟨rfl, rfl, rfl, rfl, rfl⟩
    | reclaim => exact Records.refl _

theorem records_take (how : Taking) (id : SessionId) :
    Records d.heap (d.take c k how id).1.heap (d.take c k how id).2 := by
  unfold Daemon.take
  split
  · exact Records.refl _
  · split
    · exact Records.refl _
    · split
      · exact Records.refl _
      · rename_i r _ _ t hclaim
        have hleaves : ∀ r', (d.heap r').Leaves ((d.setSession r t.pause).heap r') :=
          Records.leaves_update ((Session.leaves_claim hclaim).trans t.leaves_pause)
        dsimp only
        split
        · exact Records.of_leaves hleaves (records_taken _ c _ how id r)
        · exact Records.leaves hleaves

theorem records_handle (req : PtydRequest) :
    Records d.heap (d.handle c k req).1.heap (d.handle c k req).2 := by
  cases req with
  | spawn id opened =>
      simp only [Daemon.handle]
      split
      · exact Records.refl _
      · split
        · exact Records.refl _
        · cases opened with
          | error why => exact Records.refl _
          | ok child => exact Records.update rfl ⟨rfl, rfl, rfl⟩
  | attach id => exact records_take d c k .attach id
  | reclaim id => exact records_take d c k .reclaim id
  | output id bytes =>
      simp only [Daemon.handle]
      split
      · rename_i r _
        simp only [Session.tap]
        split
        · exact Records.update rfl ⟨rfl, rfl⟩
        · exact Records.leaves (Records.leaves_update (Session.Leaves.refl _))
      · exact Records.refl _
  | checkpoint id state =>
      simp only [Daemon.handle]
      split
      · exact Records.refl _
      · split
        · simp only [Session.setCheckpoint]
          split
          · exact Records.update rfl ⟨rfl, rfl⟩
          · exact Records.leaves (Records.leaves_update (Session.Leaves.refl _))
        · exact Records.refl _
  | resize id size =>
      simp only [Daemon.handle]
      split
      · exact Records.leaves (Records.leaves_update ⟨rfl, rfl⟩)
      · exact Records.refl _
  | close id =>
      simp only [Daemon.handle]
      split
      · exact Records.refl _
      · split
        · exact Records.refl _
        · exact Records.leaves (Records.leaves_update ⟨rfl, rfl⟩)
  | list => exact Records.refl _
  | adopt id opened =>
      cases opened with
      | none => exact Records.refl _
      | some opened =>
          simp only [Daemon.handle]
          split
          · exact Records.refl _
          · split
            · exact Records.refl _
            · cases opened with
              | error why => exact Records.refl _
              | ok child => exact Records.update rfl ⟨rfl, rfl, rfl⟩

theorem leaves_foldl_letGo (ids : List SessionId) (d : Daemon) (r : Ref) :
    (d.heap r).Leaves ((ids.foldl (Daemon.letGo c) d).heap r) := by
  induction ids generalizing d with
  | nil => exact Session.Leaves.refl _
  | cons id rest ih =>
      refine Session.Leaves.trans ?_ (ih (d.letGo c id))
      unfold Daemon.letGo
      split
      · exact Records.leaves_update (Session.leaves_letGo _ c) r
      · exact Session.Leaves.refl _

theorem leaves_handoverFailed (d : Daemon) (r : Ref) :
    (d.heap r).Leaves (d.handoverFailed.heap r) := by
  simp only [Daemon.handoverFailed]
  split
  · exact Session.leaves_resumeUnlessHeld _
  · exact Session.Leaves.refl _

theorem carries_gather (order : List Ref) (outcome : Outcome) (d : Daemon) (r : Ref) :
    (d.heap r).Carries ((d.gather order outcome).heap r) := by
  induction order generalizing d with
  | nil =>
      cases outcome with
      | failed => exact (leaves_handoverFailed d r).carries
      | execed backlogBytes came => exact Session.carries_inherit _ _
  | cons r₀ rest ih =>
      have hleaves : (d.heap r).Leaves ((d.setSession r₀ (d.heap r₀).pause).heap r) :=
        Records.leaves_update (Session.leaves_pause (d.heap r₀)) r
      simp only [Daemon.gather]
      split
      · have hrest := ih (d.setSession r₀ (d.heap r₀).pause)
        exact ⟨hrest.checkpoint.trans hleaves.checkpoint,
          fun start all hf => hrest.ring start all (hleaves.carries.ring start all hf)⟩
      · exact hleaves.carries

theorem records_step (ev : Event) :
    Records d.heap (d.step ev).1.heap (d.step ev).2 := by
  cases ev with
  | dial peer =>
      simp only [Daemon.step]
      split <;> exact Records.refl _
  | request c req =>
      simp only [Daemon.step, Daemon.withConn]
      split
      · split
        · exact records_handle d c _ req
        · exact Records.refl _
      · exact Records.refl _
  | parked c =>
      simp only [Daemon.step, Daemon.withConn]
      split
      · split
        · split
          · exact records_taken d c _ _ _ _
          · exact Records.refl _
        · exact Records.refl _
      · exact Records.refl _
  | sent c =>
      simp only [Daemon.step, Daemon.withConn]
      split
      · split
        · rename_i handed _
          cases handed with
          | none => exact Records.refl _
          | some r =>
              intro r'
              by_cases heq : r' = r
              · subst heq
                exact Or.inl ⟨_, rfl, rfl, Session.Leaves.refl _⟩
              · refine Or.inr ⟨fun n hn => ?_, (Session.Leaves.refl _).carries⟩
                rw [← Option.some.inj hn]
                exact Ne.symm heq
        · exact Records.refl _
      · exact Records.refl _
  | failed c =>
      simp only [Daemon.step, Daemon.withConn]
      split
      · split
        · exact Records.leaves (leaves_foldl_letGo c _ d)
        · exact Records.refl _
      · exact Records.refl _
  | hangUp c =>
      simp only [Daemon.step, Daemon.withConn]
      split
      · split
        · exact Records.leaves (leaves_foldl_letGo c _ d)
        · exact Records.refl _
      · exact Records.refl _
  | reader r io =>
      simp only [Daemon.step]
      split
      · split
        · rename_i s bytes hread
          rcases Session.readLoop_eq_some hread with ⟨hnone, hleaves⟩ | ⟨hsome, htells⟩
          · rw [if_pos hnone]
            exact Records.leaves (Records.leaves_update hleaves)
          · rw [if_neg hsome]
            exact Records.update rfl htells
        · exact Records.refl _
      · exact Records.refl _
  | grace r =>
      simp only [Daemon.step]
      split
      · refine Records.leaves (Records.leaves_update ?_)
        have hleaves := Session.leaves_resumeUnlessHeld (d.heap r)
        exact ⟨hleaves.checkpoint, hleaves.ring⟩
      · exact Records.refl _
  | succeed order outcome =>
      simp only [Daemon.step]
      split
      · exact Records.carries fun r => carries_gather order outcome { d with handover := some order } r
      · exact Records.refl _
  | gathered outcome =>
      simp only [Daemon.step]
      split
      · split
        · exact Records.carries fun r => carries_gather _ outcome d r
        · exact Records.refl _
      · exact Records.refl _
  | late =>
      simp only [Daemon.step]
      split
      · exact Records.leaves (leaves_handoverFailed d)
      · exact Records.refl _

end Daemon

/-- The custodian, with what its steps noted. -/
structure World where
  daemon : Daemon
  notes : List Note

namespace World

def start (backlogBytes : Nat) : World := { daemon := .start backlogBytes, notes := [] }

def next (w : World) (ev : Event) : World :=
  { daemon := w.daemon.next ev, notes := w.notes ++ (w.daemon.step ev).2.toList }

def run (backlogBytes : Nat) (events : List Event) : World := events.foldl next (start backlogBytes)

def account (w : World) (r : Ref) : Account := .of r w.notes

/-- What a step must meet for every attach to stand for all output: no attach since the checkpoint
had anything to hand out, and a worker checkpoints with all the output it has a checkpoint of. -/
def Careful (w : World) (ev : Event) : Prop :=
  match (w.daemon.step ev).2 with
  | some (.handed r _ _) => (w.account r).handed = 0
  | some (.checkpointed r worker _) => (w.account r).seen worker = some (w.account r).output.length
  | _ => True

instance Careful.decidable (w : World) (ev : Event) : Decidable (w.Careful ev) := by
  unfold Careful
  split <;> infer_instance

end World

theorem Account.Keeps.add {a : Account} {s t : Session} (h : a.Keeps s) {n : Note}
    (htells : n.Tells s t)
    (hcareful : ∀ r worker state, n = .checkpointed r worker state →
      a.seen worker = some a.output.length) : (a.add n).Keeps t := by
  obtain ⟨hcheckpoint, upTo, hupTo, hring⟩ := h
  cases n with
  | opened r =>
      obtain ⟨hempty, hbuf, hdropped⟩ := htells
      exact ⟨hempty, 0, rfl, by simp [Account.add, Ring.Follows, hbuf, hdropped]⟩
  | drained r bytes =>
      refine ⟨htells.1.trans hcheckpoint, upTo, hupTo, ?_⟩
      rw [htells.2]
      exact hring.push bytes
  | tapped r worker bytes =>
      refine ⟨htells.1.trans hcheckpoint, upTo, hupTo, ?_⟩
      rw [htells.2]
      exact hring.push bytes
  | checkpointed r worker state =>
      refine ⟨htells.1, a.output.length, hcareful r worker state rfl, ?_⟩
      rw [htells.2]
      simp [Account.add, Ring.Follows, Ring.clear]
  | handed r worker handover =>
      obtain ⟨-, hbacklog, -, hkept, hdrained⟩ := htells
      refine ⟨hkept.trans hcheckpoint, upTo, hupTo, ?_⟩
      have hleft := hring.drain hbacklog
      rw [Nat.add_assoc] at hleft
      rw [hdrained]
      exact hleft
  | delivered r worker =>
      refine ⟨htells.checkpoint.trans hcheckpoint, upTo, hupTo, ?_⟩
      rw [htells.ring]
      exact hring

/-- A handover taken of the ring with nothing handed out since the checkpoint. -/
theorem Account.Keeps.stands {a : Account} {s : Session} (h : a.Keeps s) {handover : Handover}
    (hcheckpoint : handover.checkpoint = s.checkpoint) (hbacklog : handover.backlog = s.ring.buf)
    (hdropped : handover.dropped = s.ring.dropped) (hhanded : a.handed = 0) :
    a.Stands handover := by
  obtain ⟨hkept, upTo, hupTo, hring⟩ := h
  refine ⟨hcheckpoint.trans hkept, upTo, hupTo, ?_⟩
  rw [hbacklog, hdropped, hring.2, hhanded, Nat.add_zero]

namespace World

/-- Every account is kept by its session, and every attach stood for all the output before it. -/
structure Inv (w : World) : Prop where
  keeps : ∀ r, (w.account r).Keeps (w.daemon.heap r)
  stood : ∀ before after r worker handover,
    w.notes = before ++ .handed r worker handover :: after → (Account.of r before).Stands handover

theorem Inv.start (backlogBytes : Nat) : (World.start backlogBytes).Inv where
  keeps r := ⟨rfl, 0, rfl, by simp [World.start, World.account, Account.of, Ring.Follows,
    Daemon.start, Session.spawn, Session.start, Ring.new]⟩
  stood before after r worker handover hnotes := by
    simp [World.start] at hnotes

theorem next_notes (w : World) (ev : Event) {n : Note} (hn : (w.daemon.step ev).2 = some n) :
    (w.next ev).notes = w.notes ++ [n] := by
  simp [next, hn]

theorem Inv.next {w : World} (h : w.Inv) {ev : Event} (hcareful : w.Careful ev) :
    (w.next ev).Inv := by
  have hrecords := w.daemon.records_step ev
  unfold Careful at hcareful
  constructor
  · intro r
    rcases hrecords r with ⟨n, hn, hr, htells⟩ | ⟨hother, hcarries⟩
    · have haccount : (w.next ev).account r = (w.account r).add n := by
        rw [account, w.next_notes ev hn, Account.of_append_singleton, if_pos hr]
        rfl
      rw [haccount]
      refine (h.keeps r).add htells fun r' worker state heq => ?_
      subst heq
      rw [hn] at hcareful
      obtain rfl : r' = r := hr
      exact hcareful
    · have haccount : (w.next ev).account r = w.account r := by
        cases hn : (w.daemon.step ev).2 with
        | none => simp [account, World.next, hn]
        | some n =>
            rw [account, w.next_notes ev hn, Account.of_append_singleton, if_neg (hother n hn)]
            rfl
      rw [haccount]
      exact (h.keeps r).carries hcarries
  · intro before after r worker handover hnotes
    cases hn : (w.daemon.step ev).2 with
    | none =>
        refine h.stood before after r worker handover ?_
        rw [← hnotes]
        simp [World.next, hn]
    | some n =>
        rw [w.next_notes ev hn] at hnotes
        rcases List.eq_nil_or_concat after with rfl | ⟨after', last, rfl⟩
        · -- The attach of this step: the ring holds all that follows the checkpoint.
          obtain ⟨hbefore, hlast⟩ := List.append_inj' hnotes rfl
          obtain rfl := List.singleton_injective hlast
          subst hbefore
          rw [hn] at hcareful
          rcases hrecords r with ⟨n', hn', hr, htells⟩ | ⟨hother, -⟩
          · rw [hn] at hn'
            obtain rfl := Option.some.inj hn'
            exact (h.keeps r).stands htells.1 htells.2.1 htells.2.2.1 hcareful
          · exact absurd rfl (hother _ hn)
        · rw [List.concat_eq_append, ← List.cons_append, ← List.append_assoc] at hnotes
          exact h.stood before after' r worker handover (List.append_inj' hnotes rfl).1

/-- In every careful run of the custodian each attach hands out a checkpoint and a backlog that
together stand for all the session's output so far. -/
theorem attach_stands_for_all_output (backlogBytes : Nat) (events : List Event)
    (hcareful : EachStep World.next Careful (.start backlogBytes) events)
    {before after : List Note} {r : Ref} {worker : Worker} {handover : Handover}
    (hnotes : (World.run backlogBytes events).notes =
      before ++ .handed r worker handover :: after) :
    (Account.of r before).Stands handover := by
  have hinv := hcareful.foldl (P := World.Inv) (fun w ev h hev => h.next hev)
    (Inv.start backlogBytes)
  exact hinv.stood before after r worker handover hnotes

def printedFirst : List Event :=
  [.dial 0, .request 1 (.spawn 7 (.ok ⟨⟨80, 24⟩, 0, "xterm"⟩)), .sent 1,
   .reader 0 .woken, .reader 0 (.read [104, 105]),
   .request 1 (.attach 7), .reader 0 .woken, .parked 1]

/-- The worker is told what was printed, taps more, leaves a checkpoint and goes; the next one is
told the checkpoint and what was printed after it. -/
def checkpointed : List Event :=
  printedFirst ++
    [.sent 1, .request 1 (.output 7 [33]), .request 1 (.checkpoint 7 [1, 2]),
     .request 1 (.output 7 [63]), .hangUp 1, .reader 0 .woken, .reader 0 (.read [10]),
     .dial 1, .request 2 (.attach 7), .reader 0 .woken, .parked 2]

theorem attach_stands_checkpointed :
    EachStep World.next Careful (.start 8) checkpointed ∧
      (Account.of 0 ((World.run 8 checkpointed).notes.take 8)).Stands
        ⟨[1, 2], [63, 10], 0, ⟨80, 24⟩, 0, "xterm"⟩ := by
  have hnotes : (World.run 8 checkpointed).notes = (World.run 8 checkpointed).notes.take 8 ++
      .handed 0 1 ⟨[1, 2], [63, 10], 0, ⟨80, 24⟩, 0, "xterm"⟩ :: [] := by
    decide
  exact ⟨by decide, attach_stands_for_all_output 8 checkpointed (by decide) hnotes⟩

/-- The worker goes while its reply is being written, and the next one is told nothing of what was
printed. -/
theorem attach_forgets_unread_reply :
    ∃ before after handover,
      (World.run 8 (printedFirst ++
        [.failed 1, .dial 1, .request 2 (.attach 7)])).notes =
          before ++ .handed 0 1 handover :: after ∧
      ¬(Account.of 0 before).Stands handover := by
  refine ⟨[.opened 0, .drained 0 [104, 105],
    .handed 0 0 ⟨[], [104, 105], 0, ⟨80, 24⟩, 0, "xterm"⟩], [],
    ⟨[], [], 0, ⟨80, 24⟩, 0, "xterm"⟩, by decide, ?_⟩
  rintro ⟨-, upTo, hupTo, hbacklog⟩
  obtain rfl : 0 = upTo := Option.some.inj hupTo
  exact absurd hbacklog (by decide)

end World

end Slopty.Ptyd
