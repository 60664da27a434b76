import Slopty.Ptyd.Daemon

/-!
What is so of the custodian's sessions and of what its connections were told, whatever requests
they make: a session somebody was told it holds is held by it and read by nobody else.
-/

namespace Slopty.Ptyd

open Slopty.Lib

namespace Session

/-- The reader says it is parked only out of the master, and a reader told to drain is not left
waiting. -/
structure Sound (s : Session) : Prop where
  parked : s.place = .within → s.parked = false
  wakes : s.reader = .drain → s.place = .out → s.unseen = true

/-- The session is not closed. -/
structure Open (s : Session) : Prop where
  reader : s.reader ≠ .discard
  place : s.place ≠ .dropping

/-- The connection holds the master, and the reader is told to stay out of it. -/
structure HeldBy (s : Session) (c : ConnId) : Prop where
  holder : s.attachedBy = some c
  paused : s.reader = .pause

/-- The connection holds the master and nobody else reads it. -/
structure ReadBy (s : Session) (c : ConnId) : Prop extends s.HeldBy c where
  out : s.place ≠ .within

/-- The reader is told to drain, and no wait keeps it from it. -/
structure Draining (s : Session) : Prop where
  reader : s.reader = .drain
  wakes : s.place = .out → s.unseen = true
  place : s.place ≠ .dropping

theorem open_start {id : SessionId} {child : Child} {ring : Ring} {checkpoint : Bytes}
    {attachedBy : Option ConnId} {reader : Reader} {grace : Bool} (h : reader ≠ .discard) :
    (start id child ring checkpoint attachedBy reader grace).Open :=
  ⟨h, by simp [start]⟩

theorem sound_start (id : SessionId) (child : Child) (ring : Ring) (checkpoint : Bytes)
    (attachedBy : Option ConnId) (reader : Reader) (grace : Bool) :
    (start id child ring checkpoint attachedBy reader grace).Sound :=
  ⟨by simp [start], by simp [start]⟩

/-- What the reader's task, and the output it or a worker brings, leave of a session. -/
structure Same (s t : Session) : Prop where
  id : t.id = s.id
  attachedBy : t.attachedBy = s.attachedBy
  reader : t.reader = s.reader
  grace : t.grace = s.grace
  sound : s.Sound → t.Sound
  dropping : s.Open → t.place ≠ .dropping
  within : s.reader = .pause → s.place ≠ .within → t.place ≠ .within

theorem Same.of_place {s t : Session} (hid : t.id = s.id) (hby : t.attachedBy = s.attachedBy)
    (hreader : t.reader = s.reader) (hgrace : t.grace = s.grace) (hunseen : t.unseen = s.unseen)
    (hparked : t.parked = s.parked) (hplace : t.place = s.place) : s.Same t where
  id := hid
  attachedBy := hby
  reader := hreader
  grace := hgrace
  sound h := by
    constructor
    · rw [hplace, hparked]
      exact h.parked
    · rw [hreader, hplace, hunseen]
      exact h.wakes
  dropping h := by
    rw [hplace]
    exact h.place
  within := by
    rw [hplace]
    exact fun _ h => h

theorem same_look (s : Session) : s.Same s.look := by
  unfold look
  split
  all_goals
    rename_i hreader
    constructor
    all_goals try rfl
  · intro h
    constructor
    · simp
    · simp [hreader]
  · intro h
    exact absurd hreader h.reader
  · simp
  · intro h
    constructor
    · simp
    · simp [hreader]
  · simp
  · simp
  · intro h
    constructor
    · simp
    · simp
  · simp
  · simp [hreader]

theorem Same.trans {s t u : Session} (hst : s.Same t) (htu : t.Same u) : s.Same u where
  id := htu.id.trans hst.id
  attachedBy := htu.attachedBy.trans hst.attachedBy
  reader := htu.reader.trans hst.reader
  grace := htu.grace.trans hst.grace
  sound h := htu.sound (hst.sound h)
  dropping h := by
    refine htu.dropping ⟨?_, hst.dropping h⟩
    rw [hst.reader]
    exact h.reader
  within hpause hout := htu.within (by rw [hst.reader, hpause]) (hst.within hpause hout)

theorem same_readLoop {s t : Session} {io : Io} {bytes : Bytes}
    (h : s.readLoop io = some (t, bytes)) : s.Same t := by
  unfold readLoop at h
  split at h
  · simp only [Option.some.injEq, Prod.mk.injEq] at h
    rw [← h.1]
    exact s.same_look
  · split at h
    · simp only [Option.some.injEq, Prod.mk.injEq] at h
      rw [← h.1]
      exact s.same_look
    · cases h
  · split at h
    · simp only [Option.some.injEq, Prod.mk.injEq] at h
      rw [← h.1]
      exact s.same_look
    · cases h
  · split at h
    · simp only [Option.some.injEq, Prod.mk.injEq] at h
      rw [← h.1]
      refine Same.trans ?_ (same_look _)
      exact Same.of_place rfl rfl rfl rfl rfl rfl rfl
    · cases h
  · rename_i hplace
    simp only [Option.some.injEq, Prod.mk.injEq] at h
    rw [← h.1]
    exact ⟨rfl, rfl, rfl, rfl, fun _ => ⟨by simp, by simp⟩, by simp, by simp⟩
  · simp only [Option.some.injEq, Prod.mk.injEq] at h
    rw [← h.1]
    exact Same.of_place rfl rfl rfl rfl rfl rfl rfl
  · simp only [Option.some.injEq, Prod.mk.injEq] at h
    rw [← h.1]
    exact ⟨rfl, rfl, rfl, rfl, fun _ => ⟨by simp, by simp⟩, by simp, by simp⟩
  · cases h

theorem same_tap (s : Session) (c : ConnId) (bytes : Bytes) : s.Same (s.tap c bytes) := by
  unfold tap
  split
  · exact Same.of_place rfl rfl rfl rfl rfl rfl rfl
  · exact Same.of_place rfl rfl rfl rfl rfl rfl rfl

theorem same_setCheckpoint (s : Session) (c : ConnId) (checkpoint : Bytes) :
    s.Same (s.setCheckpoint c checkpoint) := by
  unfold setCheckpoint
  split
  · exact Same.of_place rfl rfl rfl rfl rfl rfl rfl
  · exact Same.of_place rfl rfl rfl rfl rfl rfl rfl

theorem same_setSize (s : Session) (size : TermSize) : s.Same (s.setSize size) :=
  Same.of_place rfl rfl rfl rfl rfl rfl rfl

theorem same_handOver (s : Session) : s.Same s.handOver.2 :=
  Same.of_place rfl rfl rfl rfl rfl rfl rfl

theorem claim_eq_some {s t : Session} {c : ConnId} (h : s.claim c = some t) :
    t = { s with attachedBy := some c } ∧ ∀ other, s.attachedBy = some other → other = c := by
  unfold claim at h
  split at h
  · rename_i other hby
    split at h
    · cases h
    · rename_i hsame
      refine ⟨(Option.some.inj h).symm, ?_⟩
      intro o ho
      rw [hby] at ho
      rw [← Option.some.inj ho]
      exact not_not.mp hsame
  · rename_i hby
    refine ⟨(Option.some.inj h).symm, ?_⟩
    intro o ho
    rw [hby] at ho
    cases ho

@[simp] theorem pause_id (s : Session) : s.pause.id = s.id := by
  unfold pause
  split <;> rfl

@[simp] theorem pause_attachedBy (s : Session) : s.pause.attachedBy = s.attachedBy := by
  unfold pause
  split <;> rfl

@[simp] theorem pause_place (s : Session) : s.pause.place = s.place := by
  unfold pause
  split <;> rfl

@[simp] theorem pause_parked (s : Session) : s.pause.parked = s.parked := by
  unfold pause
  split <;> rfl

theorem pause_reader {s : Session} (h : s.reader ≠ .discard) : s.pause.reader = .pause := by
  unfold pause
  split
  · rfl
  · rename_i hdrain
    cases hreader : s.reader with
    | drain => exact absurd hreader hdrain
    | pause => rfl
    | discard => exact absurd hreader h

theorem sound_pause {s : Session} (h : s.Sound) : s.pause.Sound := by
  unfold pause
  split
  · exact ⟨h.parked, fun hdrain => by cases hdrain⟩
  · exact h

theorem heldBy_pause {s : Session} {c : ConnId} (hby : s.attachedBy = some c)
    (hopen : s.reader ≠ .discard) : s.pause.HeldBy c :=
  ⟨s.pause_attachedBy.trans hby, pause_reader hopen⟩

@[simp] theorem release_id (s : Session) (c : ConnId) : (s.release c).id = s.id := by
  unfold release
  split <;> rfl

@[simp] theorem release_reader (s : Session) (c : ConnId) : (s.release c).reader = s.reader := by
  unfold release
  split <;> rfl

@[simp] theorem release_place (s : Session) (c : ConnId) : (s.release c).place = s.place := by
  unfold release
  split <;> rfl

theorem sound_release {s : Session} (h : s.Sound) (c : ConnId) : (s.release c).Sound := by
  unfold release
  split
  · exact ⟨h.parked, h.wakes⟩
  · exact h

@[simp] theorem resumeReader_id (s : Session) : s.resumeReader.id = s.id := by
  unfold resumeReader
  split <;> rfl

@[simp] theorem resumeReader_attachedBy (s : Session) :
    s.resumeReader.attachedBy = s.attachedBy := by
  unfold resumeReader
  split <;> rfl

@[simp] theorem resumeReader_place (s : Session) : s.resumeReader.place = s.place := by
  unfold resumeReader
  split <;> rfl

theorem resumeReader_reader {s : Session} (h : s.reader ≠ .discard) :
    s.resumeReader.reader = .drain := by
  unfold resumeReader
  split
  · rfl
  · rename_i hpause
    cases hreader : s.reader with
    | drain => rfl
    | pause => exact absurd hreader hpause
    | discard => exact absurd hreader h

theorem sound_resumeReader {s : Session} (h : s.Sound) : s.resumeReader.Sound := by
  unfold resumeReader
  split
  · exact ⟨h.parked, fun _ _ => rfl⟩
  · exact h

theorem open_resumeReader {s : Session} (h : s.Open) : s.resumeReader.Open := by
  refine ⟨?_, ?_⟩
  · rw [resumeReader_reader h.reader]
    simp
  · rw [resumeReader_place]
    exact h.place

theorem open_release {s : Session} (h : s.Open) (c : ConnId) : (s.release c).Open := by
  refine ⟨?_, ?_⟩
  · rw [release_reader]
    exact h.reader
  · rw [release_place]
    exact h.place

theorem letGo_attachedBy_eq_none {s : Session} {c : ConnId}
    (h : ∀ other, s.attachedBy = some other → other = c) : (s.letGo c).attachedBy = none := by
  rw [letGo, resumeReader_attachedBy, release]
  split
  · rfl
  · rename_i hne
    cases hby : s.attachedBy with
    | none => rfl
    | some other =>
        rw [h other hby] at hby
        exact absurd hby hne

end Session

namespace Daemon

/-- The table names the object by some id. -/
def Listed (d : Daemon) (r : Ref) : Prop := ∃ id, d.sessions.get? id = some r

/-- What a connection was told, and what it waits to be told, against the sessions there are. -/
structure Told (d : Daemon) (c : ConnId) (k : Connection) : Prop where
  answered : ∀ r ∈ k.answered, r < d.nextRef ∧ (d.Listed r → (d.heap r).ReadBy c)
  parking : ∀ how id r, k.task = .parking how id r →
    r < d.nextRef ∧ (d.Listed r → (d.heap r).HeldBy c) ∧
      ∀ other, d.sessions.get? id = some other → (d.heap other).attachedBy = some c → other = r

structure Inv (d : Daemon) : Prop where
  table : ∀ id r, d.sessions.get? id = some r → r < d.nextRef ∧ (d.heap r).id = id
  opened : ∀ r, d.Listed r → (d.heap r).Open
  sound : ∀ r, (d.heap r).Sound
  /-- Whoever holds a session will let go of it when it goes. -/
  held : ∀ id r c, d.sessions.get? id = some r → (d.heap r).attachedBy = some c →
    ∃ k, d.conns c = some k ∧ id ∈ k.attached
  told : ∀ c k, d.conns c = some k → d.Told c k
  idle : ∀ r, d.Listed r → (d.heap r).attachedBy = none → d.handover = none →
    (d.heap r).grace = false → (d.heap r).reader = .drain
  fresh : ∀ c k, d.conns c = some k → c < d.nextConn

variable {d : Daemon}

theorem Inv.listed_inj (h : d.Inv) {id id' : SessionId} {r : Ref}
    (hid : d.sessions.get? id = some r) (hid' : d.sessions.get? id' = some r) : id = id' :=
  (h.table id r hid).2.symm.trans (h.table id' r hid').2

theorem Told.same {c : ConnId} {k : Connection} (h : d.Told c k) {heap : Ref → Session}
    (hsame : ∀ r, (d.heap r).Same (heap r)) : { d with heap }.Told c k where
  answered := by
    intro r hr
    refine ⟨(h.answered r hr).1, fun hlisted => ?_⟩
    have hread := (h.answered r hr).2 hlisted
    exact ⟨⟨(hsame r).attachedBy.trans hread.holder, (hsame r).reader.trans hread.paused⟩,
      (hsame r).within hread.paused hread.out⟩
  parking := by
    intro how id r htask
    obtain ⟨hlt, hheld, hother⟩ := h.parking how id r htask
    refine ⟨hlt, fun hlisted => ?_, fun other hget hby => ?_⟩
    · exact ⟨(hsame r).attachedBy.trans (hheld hlisted).holder,
        (hsame r).reader.trans (hheld hlisted).paused⟩
    · exact hother other hget ((hsame other).attachedBy.symm.trans hby)

/-- Steps of the readers and output that comes change nothing about who holds what. -/
theorem Inv.same (h : d.Inv) {heap : Ref → Session} (hsame : ∀ r, (d.heap r).Same (heap r)) :
    { d with heap }.Inv where
  table id r hget := ⟨(h.table id r hget).1, (hsame r).id.trans (h.table id r hget).2⟩
  opened r hlisted := by
    refine ⟨?_, (hsame r).dropping (h.opened r hlisted)⟩
    dsimp only
    rw [(hsame r).reader]
    exact (h.opened r hlisted).reader
  sound r := (hsame r).sound (h.sound r)
  held id r c hget hby := h.held id r c hget ((hsame r).attachedBy.symm.trans hby)
  told c k hk := (h.told c k hk).same hsame
  idle r hlisted hby hhand hgrace :=
    (hsame r).reader.trans (h.idle r hlisted ((hsame r).attachedBy.symm.trans hby) hhand
      ((hsame r).grace.symm.trans hgrace))
  fresh := h.fresh

theorem Inv.setSession_same (h : d.Inv) {r : Ref} {t : Session} (hsame : (d.heap r).Same t) :
    (d.setSession r t).Inv := by
  refine h.same fun r' => ?_
  by_cases hr : r' = r
  · subst hr
    rw [Function.update_self]
    exact hsame
  · rw [Function.update_of_ne hr]
    exact Session.Same.of_place rfl rfl rfl rfl rfl rfl rfl

/-- A connection goes on, told no more than is so, with an id for each session it holds. -/
theorem Inv.setConn (h : d.Inv) {c : ConnId} {k k' : Connection} (hk : d.conns c = some k)
    (htold : d.Told c k')
    (hheld : ∀ id r, d.sessions.get? id = some r → (d.heap r).attachedBy = some c →
      id ∈ k'.attached) : (d.setConn c k').Inv where
  table := h.table
  opened := h.opened
  sound := h.sound
  held := by
    intro id r c' hget hby
    by_cases hc : c' = c
    · subst hc
      exact ⟨k', d.setConn_conns_self c' k', hheld id r hget hby⟩
    · obtain ⟨k₀, hk₀, hmem⟩ := h.held id r c' hget hby
      exact ⟨k₀, (d.setConn_conns_of_ne hc k').trans hk₀, hmem⟩
  told := by
    intro c' k₀ hk₀
    by_cases hc : c' = c
    · subst hc
      rw [d.setConn_conns_self] at hk₀
      obtain rfl : k' = k₀ := Option.some.inj hk₀
      exact ⟨htold.answered, htold.parking⟩
    · rw [d.setConn_conns_of_ne hc] at hk₀
      have htold₀ := h.told c' k₀ hk₀
      exact ⟨htold₀.answered, htold₀.parking⟩
  idle := h.idle
  fresh := by
    intro c' k₀ hk₀
    by_cases hc : c' = c
    · subst hc
      exact h.fresh c' k hk
    · rw [d.setConn_conns_of_ne hc] at hk₀
      exact h.fresh c' k₀ hk₀

theorem Inv.mem_attached (h : d.Inv) {c : ConnId} {k : Connection} (hk : d.conns c = some k)
    {id : SessionId} {r : Ref} (hget : d.sessions.get? id = some r)
    (hby : (d.heap r).attachedBy = some c) : id ∈ k.attached := by
  obtain ⟨k₀, hk₀, hmem⟩ := h.held id r c hget hby
  rw [hk] at hk₀
  rw [Option.some.inj hk₀]
  exact hmem

/-- What an idle connection was told does not change with the reply it begins. -/
theorem Told.replying {c : ConnId} {k : Connection} (h : d.Told c k) (ev : PtydEvent)
    (handed : Option Ref) : d.Told c { k with task := .sending ev handed } where
  answered := h.answered
  parking := by
    intro how id r htask
    cases htask

theorem Inv.reply (h : d.Inv) {c : ConnId} {k : Connection} (hk : d.conns c = some k)
    (ev : PtydEvent) : (d.reply c k ev).Inv := by
  exact h.setConn hk ((h.told c k hk).replying ev none) fun id r => h.mem_attached hk

theorem setSession_induct {P : Ref → Session → Prop} {r : Ref} {t : Session} (hr : P r t)
    (hne : ∀ r', r' ≠ r → P r' (d.heap r')) (r' : Ref) : P r' ((d.setSession r t).heap r') := by
  by_cases heq : r' = r
  · subst heq
    rw [setSession_heap_self]
    exact hr
  · rw [d.setSession_heap_of_ne heq]
    exact hne r' heq

/-- One session changes, no more being told of it, or waited for, than is so. -/
theorem Inv.setSession (h : d.Inv) {r : Ref} {t : Session} (hid : t.id = (d.heap r).id)
    (hopen : d.Listed r → t.Open) (hsound : t.Sound)
    (hheld : ∀ id c, d.sessions.get? id = some r → t.attachedBy = some c →
      ∃ k, d.conns c = some k ∧ id ∈ k.attached)
    (hanswered : ∀ c k, d.Listed r → d.conns c = some k → r ∈ k.answered → t.ReadBy c)
    (hparking : ∀ c k how id, d.Listed r → d.conns c = some k → k.task = .parking how id r →
      t.HeldBy c)
    (hother : ∀ c k how id r', d.conns c = some k → k.task = .parking how id r' →
      d.sessions.get? id = some r → t.attachedBy = some c → r = r')
    (hidle : d.Listed r → t.attachedBy = none → d.handover = none → t.grace = false →
      t.reader = .drain) : (d.setSession r t).Inv := by
  constructor
  · intro id
    refine setSession_induct (P := fun r' s => d.sessions.get? id = some r' →
      r' < d.nextRef ∧ s.id = id) (fun hget => ?_) fun r' _ => h.table id r'
    exact ⟨(h.table id r hget).1, hid.trans (h.table id r hget).2⟩
  · exact setSession_induct (P := fun r' s => d.Listed r' → s.Open) hopen fun r' _ => h.opened r'
  · exact setSession_induct (P := fun _ s => s.Sound) hsound fun r' _ => h.sound r'
  · intro id r' c
    refine setSession_induct (P := fun r' s => d.sessions.get? id = some r' →
      s.attachedBy = some c → ∃ k, d.conns c = some k ∧ id ∈ k.attached) (hheld id c) ?_ r'
    exact fun r' _ => h.held id r' c
  · intro c k hk
    have hold := h.told c k hk
    constructor
    · refine setSession_induct (P := fun r' s => r' ∈ k.answered →
        r' < d.nextRef ∧ (d.Listed r' → s.ReadBy c)) (fun hr => ?_) fun r' _ => hold.answered r'
      exact ⟨(hold.answered r hr).1, fun hlisted => hanswered c k hlisted hk hr⟩
    · intro how id r' htask
      obtain ⟨hlt, hpark, hbefore⟩ := hold.parking how id r' htask
      refine ⟨hlt, ?_, ?_⟩
      · by_cases hr : r' = r
        · subst hr
          rw [setSession_heap_self]
          exact fun hlisted => hparking c k how id hlisted hk htask
        · rw [d.setSession_heap_of_ne hr]
          exact hpark
      · refine setSession_induct (P := fun other s => d.sessions.get? id = some other →
          s.attachedBy = some c → other = r') ?_ fun other _ => hbefore other
        exact hother c k how id r' hk htask
  · exact setSession_induct (P := fun r' s => d.Listed r' → s.attachedBy = none →
      d.handover = none → s.grace = false → s.reader = .drain) hidle fun r' _ => h.idle r'
  · exact h.fresh

/-- Claiming a session no other connection holds and telling its reader to stop. -/
theorem Inv.claim (h : d.Inv) {c : ConnId} {k : Connection} (hk : d.conns c = some k)
    (hidle : k.task = .idle) {id : SessionId} {r : Ref} (hget : d.sessions.get? id = some r)
    {t : Session} (hclaim : (d.heap r).claim c = some t) :
    ((d.setSession r t.pause).setConn c { k with attached := k.attached.insert id }).Inv := by
  obtain ⟨ht, hfree⟩ := Session.claim_eq_some hclaim
  have hopen := h.opened r ⟨id, hget⟩
  have hheld : t.pause.HeldBy c := by
    rw [ht]
    exact Session.heldBy_pause rfl hopen.reader
  have hplace : t.pause.place = (d.heap r).place := by
    rw [Session.pause_place, ht]
  have hparked : t.pause.parked = (d.heap r).parked := by
    rw [Session.pause_parked, ht]
  have hnamed : (d.setConn c { k with attached := k.attached.insert id }).Inv := by
    refine h.setConn hk ?_ fun id' r' hget' hby => ?_
    · exact ⟨(h.told c k hk).answered, (h.told c k hk).parking⟩
    · exact List.mem_insert_of_mem (h.mem_attached hk hget' hby)
  refine Inv.setSession hnamed ?_ ?_ ?_ ?_ ?_ ?_ ?_ ?_
  · rw [Session.pause_id, ht]
    rfl
  · intro _
    exact ⟨by rw [hheld.paused]; simp, by rw [hplace]; exact hopen.place⟩
  · refine ⟨fun hwithin => ?_, fun hdrain => ?_⟩
    · rw [hparked]
      exact (h.sound r).parked (hplace.symm.trans hwithin)
    · rw [hheld.paused] at hdrain
      cases hdrain
  · intro id' c' hget' hby
    obtain rfl : c = c' := Option.some.inj (hheld.holder.symm.trans hby)
    refine ⟨_, setConn_conns_self .., ?_⟩
    rw [h.listed_inj hget' hget]
    exact List.mem_insert_self
  · -- What a connection was told of this session it was told holding it.
    intro c' k' hlisted hk' hr
    have hread := ((hnamed.told c' k' hk').answered r hr).2 hlisted
    rw [hfree c' hread.holder]
    exact ⟨hheld, by rw [hplace]; exact hread.out⟩
  · intro c' k' how id' hlisted hk' htask
    have hpark := ((hnamed.told c' k' hk').parking how id' r htask).2.1 hlisted
    rw [hfree c' hpark.holder]
    exact hheld
  · intro c' k' how id' r' hk' htask _ hby
    obtain rfl : c = c' := Option.some.inj (hheld.holder.symm.trans hby)
    rw [setConn_conns_self] at hk'
    rw [← Option.some.inj hk', hidle] at htask
    cases htask
  · intro _ hby
    rw [hheld.holder] at hby
    cases hby

theorem setConn_setConn (d : Daemon) (c : ConnId) (k k' : Connection) :
    (d.setConn c k).setConn c k' = d.setConn c k' := by
  simp only [Daemon.setConn, Function.update_idem]

theorem setConn_setSession_setConn (d : Daemon) (c : ConnId) (r : Ref) (s : Session)
    (k k' : Connection) :
    ((d.setConn c k).setSession r s).setConn c k' = (d.setSession r s).setConn c k' :=
  setConn_setConn (d.setSession r s) c k k'

theorem Inv.giveUp (h : d.Inv) {c : ConnId} {k : Connection} (hk : d.conns c = some k)
    {id : SessionId} {r : Ref} (hheld : d.Listed r → (d.heap r).HeldBy c)
    (hother : ∀ other, d.sessions.get? id = some other → (d.heap other).attachedBy = some c →
      other = r)
    (hhanding : d.handing = true) (horderly : r ∉ k.answered) : (d.giveUp c k id r).Inv := by
  have hreplied := h.reply hk (.error (some id) .handing)
  have hnone : d.Listed r → ((d.heap r).release c).attachedBy = none := by
    intro hlisted
    rw [Session.release, if_pos (hheld hlisted).holder]
  -- The connection waits no more, then lets go of the session, then of its id.
  have hreleased := hreplied.setSession (r := r) (t := (d.heap r).release c)
    (Session.release_id _ _)
    (fun hlisted => Session.open_release (h.opened r hlisted) c)
    (Session.sound_release (h.sound r) c)
    (fun id' c' hget hby => by
      rw [hnone ⟨id', hget⟩] at hby
      cases hby)
    (fun c' k' hlisted hk' hr => by
      have hread := ((hreplied.told c' k' hk').answered r hr).2 hlisted
      obtain rfl : c' = c :=
        Option.some.inj (hread.holder.symm.trans (hheld hlisted).holder)
      rw [Daemon.reply, setConn_conns_self] at hk'
      rw [← Option.some.inj hk'] at hr
      exact absurd hr horderly)
    (fun c' k' how' id' hlisted hk' htask => by
      have hpark := ((hreplied.told c' k' hk').parking how' id' r htask).2.1 hlisted
      obtain rfl : c' = c :=
        Option.some.inj (hpark.holder.symm.trans (hheld hlisted).holder)
      rw [Daemon.reply, setConn_conns_self] at hk'
      rw [← Option.some.inj hk'] at htask
      cases htask)
    (fun c' k' how' id' r' _ _ hget hby => by
      rw [hnone ⟨id', hget⟩] at hby
      cases hby)
    (fun _ _ hnot => by
      rw [Daemon.handing] at hhanding
      rw [show d.handover = none from hnot] at hhanding
      cases hhanding)
  have hends : (((d.reply c k (.error (some id) .handing)).setSession r
      ((d.heap r).release c)).setConn c { k with
        attached := k.attached.filter (· ≠ id)
        task := .sending (.error (some id) .handing) none }) = d.giveUp c k id r :=
    setConn_setSession_setConn ..
  rw [← hends]
  refine hreleased.setConn (setConn_conns_self ..) ?_ ?_
  · have htold := hreleased.told c _ (setConn_conns_self ..)
    exact ⟨htold.answered, htold.parking⟩
  · intro id' r' hget' hby
    have hne : r' ≠ r := by
      rintro rfl
      change ((d.setSession r' ((d.heap r').release c)).heap r').attachedBy = some c at hby
      rw [setSession_heap_self, hnone ⟨id', hget'⟩] at hby
      cases hby
    change ((d.setSession r ((d.heap r).release c)).heap r').attachedBy = some c at hby
    rw [d.setSession_heap_of_ne hne] at hby
    refine List.mem_filter.mpr ⟨h.mem_attached hk hget' hby, ?_⟩
    simp only [decide_eq_true_eq]
    rintro rfl
    exact hne (hother r' hget' hby)

theorem Inv.taken (h : d.Inv) {c : ConnId} {k : Connection} (hk : d.conns c = some k)
    (how : Taking) {id : SessionId} {r : Ref} (hlt : r < d.nextRef)
    (hheld : d.Listed r → (d.heap r).HeldBy c)
    (hother : ∀ other, d.sessions.get? id = some other → (d.heap other).attachedBy = some c →
      other = r)
    (hparked : (d.heap r).parked = true) (horderly : d.handing = true → r ∉ k.answered) :
    (d.taken c k how id r).1.Inv := by
  have hout : (d.heap r).place ≠ .within := by
    intro hwithin
    rw [(h.sound r).parked hwithin] at hparked
    cases hparked
  have hanswer : ∀ {e : Daemon}, e.Inv → e.conns = d.conns → e.nextRef = d.nextRef →
      (e.Listed r → (e.heap r).ReadBy c) → ∀ ev handed,
      (e.setConn c { k with task := .sending ev handed, answered := r :: k.answered }).Inv := by
    intro e he hconns href hread ev handed
    have hke : e.conns c = some k := by
      rw [hconns]
      exact hk
    refine he.setConn hke ⟨?_, ?_⟩ fun id' r' hget hby => he.mem_attached hke hget hby
    · intro r' hr'
      rcases List.mem_cons.mp hr' with rfl | hold
      · exact ⟨href ▸ hlt, hread⟩
      · exact (he.told c k hke).answered r' hold
    · intro how' id' r' htask
      cases htask
  unfold Daemon.taken
  by_cases hhanding : d.handing = true
  · rw [if_pos hhanding]
    exact h.giveUp hk hheld hother hhanding (horderly hhanding)
  · rw [if_neg hhanding]
    cases how with
    | attach =>
        have hhanded := h.setSession_same (Session.same_handOver (d.heap r))
        refine hanswer hhanded rfl rfl (fun hlisted => ?_) _ _
        rw [setSession_heap_self]
        exact ⟨⟨(hheld hlisted).holder, (hheld hlisted).paused⟩, hout⟩
    | reclaim => exact hanswer h rfl rfl (fun hlisted => ⟨hheld hlisted, hout⟩) _ _

theorem taken_setConn (d : Daemon) (c : ConnId) (k : Connection) (how : Taking) (id : SessionId)
    (r : Ref) : (d.setConn c k).taken c k how id r = d.taken c k how id r := by
  have hhanding : (d.setConn c k).handing = d.handing := rfl
  have hgiveUp : (d.setConn c k).giveUp c k id r = d.giveUp c k id r :=
    setConn_setSession_setConn ..
  unfold Daemon.taken
  rw [hhanding, hgiveUp]
  split
  · rfl
  · cases how with
    | attach => exact Prod.ext (setConn_setSession_setConn d c r _ k _) rfl
    | reclaim => exact Prod.ext (setConn_setConn ..) rfl

theorem Inv.take (h : d.Inv) {c : ConnId} {k : Connection} (hk : d.conns c = some k)
    (hidle : k.task = .idle) (how : Taking) (id : SessionId) : (d.take c k how id).1.Inv := by
  unfold Daemon.take
  by_cases hhanding : d.handing = true
  · rw [if_pos hhanding]
    exact h.reply hk _
  · rw [if_neg hhanding]
    split
    · exact h.reply hk _
    · rename_i r hget
      split
      · exact h.reply hk _
      · rename_i t hclaim
        have hclaimed := h.claim hk hidle hget hclaim
        have hheld : t.pause.HeldBy c := by
          rw [(Session.claim_eq_some hclaim).1]
          exact Session.heldBy_pause rfl (h.opened r ⟨id, hget⟩).reader
        have hone : ∀ other, d.sessions.get? id = some other → other = r := by
          intro other hother
          exact Option.some.inj (hother.symm.trans hget)
        dsimp only
        split
        · rename_i hparked
          rw [← taken_setConn]
          refine hclaimed.taken (setConn_conns_self ..) how (h.table id r hget).1 ?_ ?_ ?_ ?_
          · intro _
            change ((d.setSession r t.pause).heap r).HeldBy c
            rw [setSession_heap_self]
            exact hheld
          · exact fun other hother _ => hone other hother
          · change ((d.setSession r t.pause).heap r).parked = true
            rw [setSession_heap_self]
            exact hparked
          · exact fun hbegun => absurd hbegun hhanding
        · rw [← setConn_setConn _ c { k with attached := k.attached.insert id }]
          refine hclaimed.setConn (setConn_conns_self ..) ⟨?_, ?_⟩ ?_
          · exact (hclaimed.told c _ (setConn_conns_self ..)).answered
          · intro how' id' r' htask
            obtain ⟨rfl, rfl, rfl⟩ := Task.parking.inj htask
            refine ⟨(h.table _ _ hget).1, fun _ => ?_, fun other hother _ => hone other hother⟩
            change ((d.setSession r t.pause).heap r).HeldBy c
            rw [setSession_heap_self]
            exact hheld
          · exact fun id' r' hget' hby => hclaimed.mem_attached (setConn_conns_self ..) hget' hby

theorem get?_insertSession {id : SessionId} {s : Session} {id' : SessionId} {r : Ref}
    (hget : (d.insertSession id s).sessions.get? id' = some r) :
    (id' = id ∧ r = d.nextRef) ∨ d.sessions.get? id' = some r := by
  change (d.sessions.insert id d.nextRef).get? id' = some r at hget
  rw [OrdMap.get?_insert] at hget
  split at hget
  · rename_i heq
    exact Or.inl ⟨heq.symm, (Option.some.inj hget).symm⟩
  · exact Or.inr hget

theorem insertSession_heap_of_lt (id : SessionId) (s : Session) {r : Ref} (hlt : r < d.nextRef) :
    (d.insertSession id s).heap r = d.heap r :=
  Function.update_of_ne (Nat.ne_of_lt hlt) ..

theorem insertSession_heap_self (d : Daemon) (id : SessionId) (s : Session) :
    (d.insertSession id s).heap d.nextRef = s :=
  Function.update_self ..

/-- A session begins under an id no other has, held by nobody or by one that has its id. -/
theorem Inv.insertSession (h : d.Inv) {id : SessionId} {s : Session} (hid : s.id = id)
    (hopen : s.Open) (hsound : s.Sound)
    (hheld : ∀ c, s.attachedBy = some c → ∃ k, d.conns c = some k ∧ k.task = .idle ∧
      id ∈ k.attached)
    (hidle : s.attachedBy = none → s.reader = .drain) : (d.insertSession id s).Inv := by
  have hlisted : ∀ r, (d.insertSession id s).Listed r → r ≠ d.nextRef → d.Listed r := by
    rintro r ⟨id', hget⟩ hne
    rcases get?_insertSession hget with ⟨-, hr⟩ | hold
    · exact absurd hr hne
    · exact ⟨id', hold⟩
  constructor
  · intro id' r hget
    rcases get?_insertSession hget with ⟨rfl, rfl⟩ | hold
    · rw [insertSession_heap_self]
      exact ⟨Nat.lt_succ_self _, hid⟩
    · rw [insertSession_heap_of_lt _ _ (h.table id' r hold).1]
      exact ⟨Nat.lt_succ_of_lt (h.table id' r hold).1, (h.table id' r hold).2⟩
  · intro r hl
    by_cases hr : r = d.nextRef
    · subst hr
      rw [insertSession_heap_self]
      exact hopen
    · obtain ⟨id', hget⟩ := hlisted r hl hr
      rw [insertSession_heap_of_lt _ _ (h.table id' r hget).1]
      exact h.opened r ⟨id', hget⟩
  · intro r
    by_cases hr : r = d.nextRef
    · subst hr
      rw [insertSession_heap_self]
      exact hsound
    · change (Function.update d.heap d.nextRef s r).Sound
      rw [Function.update_of_ne hr]
      exact h.sound r
  · intro id' r c hget hby
    rcases get?_insertSession hget with ⟨rfl, rfl⟩ | hold
    · rw [insertSession_heap_self] at hby
      obtain ⟨k, hk, -, hmem⟩ := hheld c hby
      exact ⟨k, hk, hmem⟩
    · rw [insertSession_heap_of_lt _ _ (h.table id' r hold).1] at hby
      exact h.held id' r c hold hby
  · intro c k hk
    have hold := h.told c k hk
    constructor
    · intro r hr
      obtain ⟨hlt, hread⟩ := hold.answered r hr
      refine ⟨Nat.lt_succ_of_lt hlt, fun hl => ?_⟩
      rw [insertSession_heap_of_lt _ _ hlt]
      exact hread (hlisted r hl (Nat.ne_of_lt hlt))
    · intro how id' r htask
      obtain ⟨hlt, hpark, hbefore⟩ := hold.parking how id' r htask
      refine ⟨Nat.lt_succ_of_lt hlt, fun hl => ?_, fun other hget hby => ?_⟩
      · rw [insertSession_heap_of_lt _ _ hlt]
        exact hpark (hlisted r hl (Nat.ne_of_lt hlt))
      · rcases get?_insertSession hget with ⟨rfl, rfl⟩ | hget'
        · -- Its holder is idle, so it is not the connection that waits.
          rw [insertSession_heap_self] at hby
          obtain ⟨k₀, hk₀, htask₀, -⟩ := hheld c hby
          have hsame : k₀ = k := Option.some.inj (hk₀.symm.trans hk)
          rw [hsame, htask] at htask₀
          cases htask₀
        · rw [insertSession_heap_of_lt _ _ (h.table id' other hget').1] at hby
          exact hbefore other hget' hby
  · intro r hl hby hhand hgrace
    by_cases hr : r = d.nextRef
    · subst hr
      rw [insertSession_heap_self] at hby ⊢
      exact hidle hby
    · obtain ⟨id', hget⟩ := hlisted r hl hr
      rw [insertSession_heap_of_lt _ _ (h.table id' r hget).1] at hby hgrace ⊢
      exact h.idle r ⟨id', hget⟩ hby hhand hgrace
  · exact h.fresh

/-- A worker hands a session back, which it holds on and is answered so. -/
theorem Inv.adopt (h : d.Inv) {c : ConnId} {k : Connection} (hk : d.conns c = some k)
    (hidle : k.task = .idle) (id : SessionId) (child : Child) :
    ((d.insertSession id (Session.adopt id child d.backlogBytes c)).setConn c
      { k with
        attached := k.attached.insert id
        task := .sending .ok none
        answered := d.nextRef :: k.answered }).Inv := by
  have hnamed : (d.setConn c { k with attached := k.attached.insert id }).Inv := by
    refine h.setConn hk ?_ fun id' r' hget' hby => ?_
    · exact ⟨(h.told c k hk).answered, (h.told c k hk).parking⟩
    · exact List.mem_insert_of_mem (h.mem_attached hk hget' hby)
  have hopened := hnamed.insertSession (s := Session.adopt id child d.backlogBytes c) rfl
    (Session.open_start (by simp)) (Session.sound_start ..)
    (fun c' hby => by
      obtain rfl : c = c' := Option.some.inj hby
      exact ⟨_, setConn_conns_self .., hidle, List.mem_insert_self⟩)
    (fun hby => by cases hby)
  have htold := hopened.told c _ (setConn_conns_self ..)
  rw [← setConn_setConn _ c { k with attached := k.attached.insert id }]
  refine hopened.setConn (setConn_conns_self ..) ⟨?_, ?_⟩ fun id' r' hget hby => ?_
  · intro r hr
    rcases List.mem_cons.mp hr with rfl | hold
    · refine ⟨Nat.lt_succ_self _, fun _ => ?_⟩
      change ((d.insertSession id _).heap d.nextRef).ReadBy c
      rw [insertSession_heap_self]
      exact ⟨⟨rfl, rfl⟩, by simp [Session.adopt, Session.start]⟩
    · exact htold.answered r hold
  · intro how id' r htask
    cases htask
  · exact hopened.mem_attached (setConn_conns_self ..) hget hby

theorem get?_of_erase {id id' : SessionId} {r : Ref}
    (hget : (d.sessions.erase id).get? id' = some r) : id' ≠ id ∧ d.sessions.get? id' = some r := by
  rw [OrdMap.get?_erase] at hget
  split at hget
  · cases hget
  · rename_i hne
    exact ⟨hne, hget⟩

theorem Inv.erase (h : d.Inv) (id : SessionId) :
    { d with sessions := d.sessions.erase id }.Inv := by
  have hlisted : ∀ r, { d with sessions := d.sessions.erase id }.Listed r → d.Listed r := by
    rintro r ⟨id', hget⟩
    exact ⟨id', (get?_of_erase hget).2⟩
  constructor
  · exact fun id' r hget => h.table id' r (get?_of_erase hget).2
  · exact fun r hl => h.opened r (hlisted r hl)
  · exact h.sound
  · exact fun id' r c hget hby => h.held id' r c (get?_of_erase hget).2 hby
  · intro c k hk
    have hold := h.told c k hk
    constructor
    · exact fun r hr => ⟨(hold.answered r hr).1, fun hl => (hold.answered r hr).2 (hlisted r hl)⟩
    · intro how id' r htask
      obtain ⟨hlt, hpark, hother⟩ := hold.parking how id' r htask
      exact ⟨hlt, fun hl => hpark (hlisted r hl),
        fun other hget hby => hother other (get?_of_erase hget).2 hby⟩
  · exact fun r hl => h.idle r (hlisted r hl)
  · exact h.fresh

theorem Inv.close (h : d.Inv) {c : ConnId} {k : Connection} (hk : d.conns c = some k)
    {id : SessionId} {r : Ref} (hget : d.sessions.get? id = some r) :
    (({ d with sessions := d.sessions.erase id }.setSession r (d.heap r).close).reply c
      { k with attached := k.attached.filter (· ≠ id) } .ok).Inv := by
  have herased := h.erase id
  have hnot : ∀ id', (d.sessions.erase id).get? id' ≠ some r := by
    intro id' hget'
    obtain ⟨hne, hold⟩ := get?_of_erase hget'
    exact hne (h.listed_inj hold hget)
  have hunlisted : ¬{ d with sessions := d.sessions.erase id }.Listed r := by
    rintro ⟨id', hget'⟩
    exact hnot id' hget'
  have hclosed := herased.setSession (r := r) (t := (d.heap r).close) rfl
    (fun hl => absurd hl hunlisted)
    ⟨(h.sound r).parked, fun hdrain => by cases hdrain⟩
    (fun id' _ hget' => absurd hget' (hnot id'))
    (fun _ _ hl => absurd hl hunlisted)
    (fun _ _ _ _ hl => absurd hl hunlisted)
    (fun _ _ _ id' _ _ _ hget' => absurd hget' (hnot id'))
    (fun hl => absurd hl hunlisted)
  refine hclosed.setConn hk ?_ fun id' r' hget' hby => ?_
  · have htold := (hclosed.told c k hk).replying .ok none
    exact ⟨htold.answered, htold.parking⟩
  · refine List.mem_filter.mpr ⟨hclosed.mem_attached hk hget' hby, ?_⟩
    exact decide_eq_true (get?_of_erase hget').1

theorem Inv.handle (h : d.Inv) {c : ConnId} {k : Connection} (hk : d.conns c = some k)
    (hidle : k.task = .idle) (req : PtydRequest) : (d.handle c k req).1.Inv := by
  cases req with
  | spawn id opened =>
      simp only [Daemon.handle]
      split
      · exact h.reply hk _
      · split
        · exact h.reply hk _
        · cases opened with
          | error why => exact h.reply hk _
          | ok child =>
              have hopened := h.insertSession (s := Session.spawn id child d.backlogBytes) rfl
                (Session.open_start (by simp)) (Session.sound_start ..)
                (fun c' hby => by cases hby) (fun _ => rfl)
              exact hopened.reply hk _
  | attach id => exact h.take hk hidle .attach id
  | reclaim id => exact h.take hk hidle .reclaim id
  | output id bytes =>
      simp only [Daemon.handle]
      split
      · exact h.setSession_same (Session.same_tap _ _ _)
      · exact h
  | checkpoint id state =>
      simp only [Daemon.handle]
      split
      · exact h
      · split
        · exact h.setSession_same (Session.same_setCheckpoint _ _ _)
        · exact h
  | resize id size =>
      simp only [Daemon.handle]
      split
      · exact h.setSession_same (Session.same_setSize _ _)
      · exact h
  | close id =>
      simp only [Daemon.handle]
      split
      · exact h.reply hk _
      · split
        · exact h.reply hk _
        · rename_i r hget
          exact h.close hk hget
  | list => exact h.reply hk _
  | adopt id opened =>
      cases opened with
      | none => exact h.reply hk _
      | some opened =>
          simp only [Daemon.handle]
          split
          · exact h.reply hk _
          · split
            · exact h.reply hk _
            · cases opened with
              | error why => exact h.reply hk _
              | ok child => exact h.adopt hk hidle id child

end Daemon

end Slopty.Ptyd
