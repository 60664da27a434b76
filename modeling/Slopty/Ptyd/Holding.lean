import Slopty.Ptyd.Custody

/-!
One reader for each master. A worker that was answered that it holds a session is its only reader;
a session nobody holds is drained, through connections that end and handovers that happen or fail.
-/

namespace Slopty.Ptyd

open Slopty.Lib

namespace Daemon

variable {d : Daemon}

/-- Nobody but the connection that goes holds a session it has an id for. -/
def OnlyHolder (d : Daemon) (c : ConnId) (ids : List SessionId) : Prop :=
  ∀ id ∈ ids, ∀ r ∈ d.sessions.get? id, ∀ other ∈ (d.heap r).attachedBy, other = c

/-- A connection that is told nothing and waits for nothing lets go of one session. -/
theorem Inv.letGo (h : d.Inv) {c : ConnId} {k : Connection} (hk : d.conns c = some k)
    (hidle : k.task = .idle) (hanswered : k.answered = []) {id : SessionId}
    (honly : d.OnlyHolder c [id]) : (d.letGo c id).Inv := by
  unfold Daemon.letGo
  split
  · rename_i r hget
    have hfree : ∀ other, (d.heap r).attachedBy = some other → other = c :=
      honly id (List.mem_singleton_self id) r hget
    have hopen := Session.open_release (h.opened r ⟨id, hget⟩) c
    refine h.setSession ?_ ?_ ?_ ?_ ?_ ?_ ?_ ?_
    · rw [Session.letGo, Session.resumeReader_id, Session.release_id]
    · exact fun _ => Session.open_resumeReader hopen
    · exact Session.sound_resumeReader (Session.sound_release (h.sound r) c)
    · intro id' c' _ hby
      rw [Session.letGo_attachedBy_eq_none hfree] at hby
      cases hby
    · intro c' k' hlisted hk' hr
      have hread := ((h.told c' k' hk').answered r hr).2 hlisted
      obtain rfl := hfree c' hread.holder
      obtain rfl := Option.some.inj (hk.symm.trans hk')
      rw [hanswered] at hr
      cases hr
    · intro c' k' how id' hlisted hk' htask
      have hpark := ((h.told c' k' hk').parking how id' r htask).2.1 hlisted
      obtain rfl := hfree c' hpark.holder
      obtain rfl := Option.some.inj (hk.symm.trans hk')
      rw [hidle] at htask
      cases htask
    · intro c' k' how id' r' _ _ _ hby
      rw [Session.letGo_attachedBy_eq_none hfree] at hby
      cases hby
    · exact fun _ _ _ _ => Session.resumeReader_reader hopen.reader
  · exact h

@[simp] theorem letGo_sessions (d : Daemon) (c : ConnId) (id : SessionId) :
    (d.letGo c id).sessions = d.sessions := by
  unfold Daemon.letGo
  split <;> rfl

@[simp] theorem letGo_conns (d : Daemon) (c : ConnId) (id : SessionId) :
    (d.letGo c id).conns = d.conns := by
  unfold Daemon.letGo
  split <;> rfl

theorem letGo_attachedBy (d : Daemon) (c : ConnId) (id : SessionId) (r : Ref) :
    ((d.letGo c id).heap r).attachedBy = (d.heap r).attachedBy ∨
      ((d.letGo c id).heap r).attachedBy = none := by
  unfold Daemon.letGo
  split
  · rename_i r₀ _
    by_cases hr : r = r₀
    · subst hr
      rw [setSession_heap_self, Session.letGo, Session.resumeReader_attachedBy, Session.release]
      split
      · exact Or.inr rfl
      · exact Or.inl rfl
    · rw [d.setSession_heap_of_ne hr]
      exact Or.inl rfl
  · exact Or.inl rfl

theorem OnlyHolder.letGo {c : ConnId} {ids : List SessionId} (h : d.OnlyHolder c ids)
    (id : SessionId) : (d.letGo c id).OnlyHolder c ids := by
  intro id' hid' r hget other hby
  rw [letGo_sessions] at hget
  rcases d.letGo_attachedBy c id r with hsame | hnone
  · rw [hsame] at hby
    exact h id' hid' r hget other hby
  · rw [hnone] at hby
    cases hby

/-- All the connection's ids are let go of, and then it holds none of their sessions. -/
theorem Inv.foldl_letGo {c : ConnId} {k : Connection} (hidle : k.task = .idle)
    (hanswered : k.answered = []) (ids : List SessionId) {d : Daemon} (h : d.Inv)
    (hk : d.conns c = some k) (honly : d.OnlyHolder c ids) :
    (ids.foldl (Daemon.letGo c) d).Inv ∧ (ids.foldl (Daemon.letGo c) d).conns = d.conns ∧
      (ids.foldl (Daemon.letGo c) d).sessions = d.sessions ∧
      ∀ r, (((ids.foldl (Daemon.letGo c) d).heap r).attachedBy = (d.heap r).attachedBy ∧
          ∀ id ∈ ids, d.sessions.get? id = some r → (d.heap r).attachedBy = none) ∨
        ((ids.foldl (Daemon.letGo c) d).heap r).attachedBy = none := by
  induction ids generalizing d with
  | nil => exact ⟨h, rfl, rfl, fun r => Or.inl ⟨rfl, fun id hid => by cases hid⟩⟩
  | cons id rest ih =>
      have hfirst : d.OnlyHolder c [id] := by
        intro id' hid'
        rw [List.mem_singleton.mp hid']
        exact honly id List.mem_cons_self
      have hrest : (d.letGo c id).OnlyHolder c rest := by
        refine OnlyHolder.letGo ?_ id
        exact fun id' hid' => honly id' (List.mem_cons_of_mem id hid')
      have hstep := h.letGo hk hidle hanswered hfirst
      obtain ⟨hinv, hconns, hsessions, hby⟩ :=
        ih hstep ((congrFun (d.letGo_conns c id) c).trans hk) hrest
      refine ⟨hinv, hconns.trans (d.letGo_conns c id), hsessions.trans (d.letGo_sessions c id), ?_⟩
      intro r
      rcases hby r with ⟨hsame, hdone⟩ | hnone
      · rcases d.letGo_attachedBy c id r with hkept | hnone
        · refine Or.inl ⟨hsame.trans hkept, fun id' hid' hget => ?_⟩
          rcases List.mem_cons.mp hid' with rfl | hin
          · have hfree : ∀ other, (d.heap r).attachedBy = some other → other = c :=
              hfirst id' (List.mem_singleton_self id') r hget
            rw [← hkept, Daemon.letGo, hget]
            dsimp only
            rw [setSession_heap_self]
            exact Session.letGo_attachedBy_eq_none hfree
          · rw [← hkept]
            refine hdone id' hin ?_
            rw [letGo_sessions]
            exact hget
        · exact Or.inr (hsame.trans hnone)
      · exact Or.inr hnone

theorem letGo_setConn (d : Daemon) (c c' : ConnId) (k : Connection) (id : SessionId) :
    (d.setConn c' k).letGo c id = (d.letGo c id).setConn c' k := by
  have hsessions : (d.setConn c' k).sessions = d.sessions := rfl
  unfold Daemon.letGo
  rw [hsessions]
  cases d.sessions.get? id <;> rfl

theorem foldl_letGo_setConn (c : ConnId) (k : Connection) (ids : List SessionId) (d : Daemon) :
    ids.foldl (Daemon.letGo c) (d.setConn c k) = (ids.foldl (Daemon.letGo c) d).setConn c k := by
  induction ids generalizing d with
  | nil => rfl
  | cons id rest ih =>
      rw [List.foldl_cons, letGo_setConn, ih]
      rfl

theorem Inv.remove (h : d.Inv) {c : ConnId}
    (hfree : ∀ id r, d.sessions.get? id = some r → (d.heap r).attachedBy ≠ some c) :
    { d with conns := Function.update d.conns c none }.Inv := by
  have hbefore : ∀ c' k, Function.update d.conns c none c' = some k → d.conns c' = some k := by
    intro c' k hk
    by_cases hc : c' = c
    · subst hc
      rw [Function.update_self] at hk
      cases hk
    · rwa [Function.update_of_ne hc] at hk
  constructor
  · exact h.table
  · exact h.opened
  · exact h.sound
  · intro id r c' hget hby
    have hc : c' ≠ c := by
      rintro rfl
      exact hfree id r hget hby
    obtain ⟨k, hk, hmem⟩ := h.held id r c' hget hby
    exact ⟨k, (Function.update_of_ne hc ..).trans hk, hmem⟩
  · intro c' k hk
    have hold := h.told c' k (hbefore c' k hk)
    exact ⟨hold.answered, hold.parking⟩
  · exact h.idle
  · exact fun c' k hk => h.fresh c' k (hbefore c' k hk)

theorem Inv.drop (h : d.Inv) {c : ConnId} {k : Connection} (hk : d.conns c = some k)
    (honly : d.OnlyHolder c k.attached) : (d.drop c k).Inv := by
  -- From here the connection is told nothing and waits for nothing.
  have hquiet : (d.setConn c { k with task := .idle, answered := [] }).Inv := by
    refine h.setConn hk ⟨?_, ?_⟩ fun id r hget hby => h.mem_attached hk hget hby
    · intro r hr
      cases hr
    · intro how id r htask
      cases htask
  obtain ⟨hinv, hconns, hsessions, hby⟩ := Inv.foldl_letGo rfl rfl k.attached hquiet
    (setConn_conns_self ..) honly
  have hgone := hinv.remove (c := c) fun id r hget hheld => by
    rw [hsessions] at hget
    rcases hby r with ⟨hsame, hdone⟩ | hnone
    · have hmem : id ∈ k.attached := h.mem_attached hk hget (hsame.symm.trans hheld)
      rw [hsame, hdone id hmem hget] at hheld
      cases hheld
    · rw [hnone] at hheld
      cases hheld
  rw [foldl_letGo_setConn] at hgone
  simp only [Daemon.setConn, Function.update_idem] at hgone
  exact hgone

theorem mem_values_iff_listed (d : Daemon) (r : Ref) : r ∈ d.sessions.values ↔ d.Listed r :=
  OrdMap.mem_values

/-- A session somebody holds is as it was after a handover that did not happen. -/
theorem handoverFailed_heap_of_held {r : Ref} {c : ConnId} (hby : (d.heap r).attachedBy = some c) :
    d.handoverFailed.heap r = d.heap r := by
  simp only [Daemon.handoverFailed]
  split
  · rw [Session.resumeUnlessHeld, if_neg (by simp [hby])]
  · rfl

theorem handoverFailed_heap (d : Daemon) (r : Ref) :
    d.handoverFailed.heap r = d.heap r ∨
      d.Listed r ∧ (d.heap r).attachedBy = none ∧
        d.handoverFailed.heap r = (d.heap r).resumeReader := by
  simp only [Daemon.handoverFailed]
  split
  · rename_i hmem
    rw [Session.resumeUnlessHeld]
    split
    · rename_i hby
      exact Or.inr ⟨(d.mem_values_iff_listed r).mp hmem, hby, rfl⟩
    · exact Or.inl rfl
  · exact Or.inl rfl

theorem handoverFailed_attachedBy (d : Daemon) (r : Ref) :
    (d.handoverFailed.heap r).attachedBy = (d.heap r).attachedBy := by
  rcases d.handoverFailed_heap r with hsame | ⟨-, -, hresumed⟩
  · rw [hsame]
  · rw [hresumed, Session.resumeReader_attachedBy]

theorem Inv.handoverFailed (h : d.Inv) : d.handoverFailed.Inv := by
  constructor
  · intro id r hget
    refine ⟨(h.table id r hget).1, ?_⟩
    rcases d.handoverFailed_heap r with hsame | ⟨-, -, hresumed⟩
    · rw [hsame]
      exact (h.table id r hget).2
    · rw [hresumed, Session.resumeReader_id]
      exact (h.table id r hget).2
  · intro r hlisted
    rcases d.handoverFailed_heap r with hsame | ⟨-, -, hresumed⟩
    · rw [hsame]
      exact h.opened r hlisted
    · rw [hresumed]
      exact Session.open_resumeReader (h.opened r hlisted)
  · intro r
    rcases d.handoverFailed_heap r with hsame | ⟨-, -, hresumed⟩
    · rw [hsame]
      exact h.sound r
    · rw [hresumed]
      exact Session.sound_resumeReader (h.sound r)
  · intro id r c hget hby
    rw [handoverFailed_attachedBy] at hby
    exact h.held id r c hget hby
  · intro c k hk
    have hold := h.told c k hk
    constructor
    · intro r hr
      refine ⟨(hold.answered r hr).1, fun hlisted => ?_⟩
      have hread := (hold.answered r hr).2 hlisted
      rw [handoverFailed_heap_of_held hread.holder]
      exact hread
    · intro how id r htask
      obtain ⟨hlt, hpark, hother⟩ := hold.parking how id r htask
      refine ⟨hlt, fun hlisted => ?_, fun other hget hby => ?_⟩
      · have hheld := hpark hlisted
        rw [handoverFailed_heap_of_held hheld.holder]
        exact hheld
      · rw [handoverFailed_attachedBy] at hby
        exact hother other hget hby
  · intro r hlisted hby _ _
    rw [handoverFailed_attachedBy] at hby
    have hmem : r ∈ d.sessions.values := (d.mem_values_iff_listed r).mpr hlisted
    simp only [Daemon.handoverFailed, if_pos hmem, Session.resumeUnlessHeld, if_pos hby]
    exact Session.resumeReader_reader (h.opened r hlisted).reader
  · exact h.fresh

/-- The next build's sessions are as fresh as its connections are none. -/
theorem Inv.exec (h : d.Inv) (backlogBytes : Nat) (came : List SessionId) :
    (d.exec backlogBytes came).Inv := by
  constructor
  · intro id r hget
    simp only [Daemon.exec, OrdMap.get?_retain, Option.filter_eq_some_iff] at hget
    exact h.table id r hget.1
  · intro r _
    refine Session.open_start ?_
    split <;> simp
  · exact fun r => Session.sound_start ..
  · intro id r c _ hby
    cases hby
  · intro c k hk
    cases hk
  · intro r _ _ _ hgrace
    change (if (d.heap r).heir.attached = true then Reader.pause else .drain) = .drain
    rw [if_neg]
    rw [show (d.heap r).heir.attached = false from hgrace]
    simp
  · intro c k hk
    cases hk

theorem Inv.pause (h : d.Inv) (hhanding : d.handover ≠ none) (r : Ref) :
    (d.setSession r (d.heap r).pause).Inv := by
  have hread : ∀ c, (d.heap r).reader = .pause → (d.heap r).attachedBy = some c →
      (d.heap r).pause.HeldBy c := by
    intro c hpaused hby
    exact Session.heldBy_pause hby (by rw [hpaused]; simp)
  refine h.setSession (Session.pause_id _) ?_ ?_ ?_ ?_ ?_ ?_ ?_
  · intro hlisted
    have hopen := h.opened r hlisted
    refine ⟨?_, ?_⟩
    · rw [Session.pause_reader hopen.reader]
      simp
    · rw [Session.pause_place]
      exact hopen.place
  · exact Session.sound_pause (h.sound r)
  · intro id c hget hby
    rw [Session.pause_attachedBy] at hby
    exact h.held id r c hget hby
  · intro c k hlisted hk hr
    have hread' := ((h.told c k hk).answered r hr).2 hlisted
    refine ⟨hread c hread'.paused hread'.holder, ?_⟩
    rw [Session.pause_place]
    exact hread'.out
  · intro c k how id hlisted hk htask
    have hheld := ((h.told c k hk).parking how id r htask).2.1 hlisted
    exact hread c hheld.paused hheld.holder
  · intro c k how id r' hk htask hget hby
    rw [Session.pause_attachedBy] at hby
    exact ((h.told c k hk).parking how id r' htask).2.2 r hget hby
  · exact fun _ _ hnone => absurd hnone hhanding

theorem Inv.setHandover (h : d.Inv) (todo : List Ref) : { d with handover := some todo }.Inv where
  table := h.table
  opened := h.opened
  sound := h.sound
  held := h.held
  told c k hk := ⟨(h.told c k hk).answered, (h.told c k hk).parking⟩
  idle _ _ _ hnone := by cases hnone
  fresh := h.fresh

theorem Inv.gather (order : List Ref) (outcome : Outcome) {d : Daemon} (h : d.Inv)
    (hhanding : d.handover ≠ none) : (d.gather order outcome).Inv := by
  induction order generalizing d with
  | nil =>
      cases outcome with
      | failed => exact h.handoverFailed
      | execed backlogBytes came => exact h.exec backlogBytes came
  | cons r rest ih =>
      have hpaused := h.pause hhanding r
      simp only [Daemon.gather]
      split
      · exact ih hpaused hhanding
      · exact hpaused.setHandover _

theorem Inv.dial (h : d.Inv) (peer : Worker) :
    { d.setConn d.nextConn { peer } with nextConn := d.nextConn + 1 }.Inv := by
  have hbefore : ∀ c k, (d.setConn d.nextConn { peer }).conns c = some k →
      k = { peer } ∨ d.conns c = some k := by
    intro c k hk
    by_cases hc : c = d.nextConn
    · subst hc
      rw [setConn_conns_self] at hk
      exact Or.inl (Option.some.inj hk).symm
    · rw [d.setConn_conns_of_ne hc] at hk
      exact Or.inr hk
  constructor
  · exact h.table
  · exact h.opened
  · exact h.sound
  · intro id r c hget hby
    obtain ⟨k, hk, hmem⟩ := h.held id r c hget hby
    have hc : c ≠ d.nextConn := Nat.ne_of_lt (h.fresh c k hk)
    exact ⟨k, (d.setConn_conns_of_ne hc _).trans hk, hmem⟩
  · intro c k hk
    rcases hbefore c k hk with rfl | hold
    · refine ⟨fun r hr => ?_, fun how id r htask => ?_⟩
      · cases hr
      · cases htask
    · exact ⟨(h.told c k hold).answered, (h.told c k hold).parking⟩
  · exact h.idle
  · intro c k hk
    by_cases hc : c = d.nextConn
    · subst hc
      exact Nat.lt_succ_self _
    · change (d.setConn d.nextConn { peer }).conns c = some k at hk
      rw [d.setConn_conns_of_ne hc] at hk
      exact Nat.lt_succ_of_lt (h.fresh c k hk)

theorem Inv.graceOver (h : d.Inv) (r : Ref) :
    (d.setSession r { (d.heap r).resumeUnlessHeld with grace := false }).Inv := by
  unfold Session.resumeUnlessHeld
  split
  · rename_i hby
    refine h.setSession (Session.resumeReader_id _) ?_ ?_ ?_ ?_ ?_ ?_ ?_
    · intro hlisted
      have hopen := Session.open_resumeReader (h.opened r hlisted)
      exact ⟨hopen.reader, hopen.place⟩
    · have hsound := Session.sound_resumeReader (h.sound r)
      exact ⟨hsound.parked, hsound.wakes⟩
    · intro id c _ hheld
      rw [show _ = (d.heap r).attachedBy from Session.resumeReader_attachedBy _, hby] at hheld
      cases hheld
    · intro c k hlisted hk hr
      have hread := ((h.told c k hk).answered r hr).2 hlisted
      rw [hread.holder] at hby
      cases hby
    · intro c k how id hlisted hk htask
      have hheld := ((h.told c k hk).parking how id r htask).2.1 hlisted
      rw [hheld.holder] at hby
      cases hby
    · intro c k how id r' _ _ _ hheld
      rw [show _ = (d.heap r).attachedBy from Session.resumeReader_attachedBy _, hby] at hheld
      cases hheld
    · exact fun hlisted _ _ _ => Session.resumeReader_reader (h.opened r hlisted).reader
  · rename_i hby
    refine h.setSession rfl ?_ ?_ ?_ ?_ ?_ ?_ ?_
    · exact fun hlisted => ⟨(h.opened r hlisted).reader, (h.opened r hlisted).place⟩
    · exact ⟨(h.sound r).parked, (h.sound r).wakes⟩
    · exact fun id c => h.held id r c
    · intro c k hlisted hk hr
      have hread := ((h.told c k hk).answered r hr).2 hlisted
      exact ⟨⟨hread.holder, hread.paused⟩, hread.out⟩
    · intro c k how id hlisted hk htask
      have hheld := ((h.told c k hk).parking how id r htask).2.1 hlisted
      exact ⟨hheld.holder, hheld.paused⟩
    · intro c k how id r' hk htask hget hheld
      exact ((h.told c k hk).parking how id r' htask).2.2 r hget hheld
    · exact fun _ hnone => absurd hnone hby

/-- What a step must meet for every worker to stay the only reader of what it holds: a connection
that ends has no id of a session another connection holds, and one that gives a request up was not
answered before that it holds that session. -/
def Orderly (d : Daemon) : Event → Prop
  | .failed c => ∀ k ∈ d.conns c, d.OnlyHolder c k.attached
  | .hangUp c => ∀ k ∈ d.conns c, d.OnlyHolder c k.attached
  | .parked c => ∀ k ∈ d.conns c, ∀ r ∈ k.task.waitsFor, d.handing = true → r ∉ k.answered
  | _ => True

theorem Inv.step (h : d.Inv) {ev : Event} (horderly : d.Orderly ev) : (d.next ev).Inv := by
  unfold Daemon.next
  cases ev with
  | dial peer =>
      simp only [Daemon.step]
      split
      · exact h
      · exact h.dial peer
  | request c req =>
      simp only [Daemon.step, Daemon.withConn]
      split
      · rename_i k hk
        split
        · rename_i hidle
          exact h.handle hk hidle req
        · exact h
      · exact h
  | parked c =>
      simp only [Daemon.step, Daemon.withConn]
      split
      · rename_i k hk
        split
        · rename_i how id r htask
          split
          · rename_i hparked
            obtain ⟨hlt, hheld, hother⟩ := (h.told c k hk).parking how id r htask
            refine h.taken hk how hlt hheld hother hparked ?_
            exact horderly k hk r (by rw [htask]; rfl)
          · exact h
        · exact h
      · exact h
  | sent c =>
      simp only [Daemon.step, Daemon.withConn]
      split
      · rename_i k hk
        split
        · refine h.setConn hk ⟨(h.told c k hk).answered, ?_⟩ fun id r => h.mem_attached hk
          intro how id r htask
          cases htask
        · exact h
      · exact h
  | failed c =>
      simp only [Daemon.step, Daemon.withConn]
      split
      · rename_i k hk
        split
        · exact h.drop hk (horderly k hk)
        · exact h
      · exact h
  | hangUp c =>
      simp only [Daemon.step, Daemon.withConn]
      split
      · rename_i k hk
        split
        · exact h.drop hk (horderly k hk)
        · exact h
      · exact h
  | reader r io =>
      simp only [Daemon.step]
      split
      · split
        · rename_i s bytes hread
          exact h.setSession_same (Session.same_readLoop hread)
        · exact h
      · exact h
  | grace r =>
      simp only [Daemon.step]
      split
      · exact h.graceOver r
      · exact h
  | succeed order outcome =>
      simp only [Daemon.step]
      split
      · exact (h.setHandover order).gather order outcome (by simp)
      · exact h
  | gathered outcome =>
      simp only [Daemon.step]
      split
      · rename_i r rest hhandover
        split
        · exact h.gather rest outcome (by simp [hhandover])
        · exact h
      · exact h
  | late =>
      simp only [Daemon.step]
      split
      · exact h.handoverFailed
      · exact h

theorem Inv.start (backlogBytes : Nat) : (Daemon.start backlogBytes).Inv where
  table id r hget := by cases hget
  opened r hlisted := by
    obtain ⟨id, hget⟩ := hlisted
    cases hget
  sound r := Session.sound_start ..
  held id r c hget := by cases hget
  told c k hk := by cases hk
  idle r hlisted := by
    obtain ⟨id, hget⟩ := hlisted
    cases hget
  fresh c k hk := by cases hk

/-- Whoever was answered that it holds a session is the only one that reads it, and what nobody
holds is drained. -/
structure OneReader (d : Daemon) : Prop where
  reads : ∀ c k r, d.conns c = some k → r ∈ k.answered → d.Listed r →
    (d.heap r).ReadBy c ∧ (d.heap r).place ≠ .dropping ∧
      ∀ c' k', d.conns c' = some k' → r ∈ k'.answered → c' = c
  drains : ∀ r, d.Listed r → (∀ c, (d.conns c).isSome → (d.heap r).attachedBy ≠ some c) →
    d.handing = false → (d.heap r).grace = false → (d.heap r).Draining

theorem Inv.oneReader (h : d.Inv) : d.OneReader where
  reads c k r hk hr hlisted := by
    have hread := ((h.told c k hk).answered r hr).2 hlisted
    refine ⟨hread, (h.opened r hlisted).place, fun c' k' hk' hr' => ?_⟩
    have hread' := ((h.told c' k' hk').answered r hr').2 hlisted
    exact Option.some.inj (hread'.holder.symm.trans hread.holder)
  drains r hlisted hnobody hhanding hgrace := by
    have hby : (d.heap r).attachedBy = none := by
      cases hby : (d.heap r).attachedBy with
      | none => rfl
      | some c =>
          obtain ⟨id, hget⟩ := hlisted
          obtain ⟨k, hk, -⟩ := h.held id r c hget hby
          exact absurd hby (hnobody c (by rw [hk]; rfl))
    have hdrain := h.idle r hlisted hby (by simpa [Daemon.handing] using hhanding) hgrace
    exact ⟨hdrain, (h.sound r).wakes hdrain, (h.opened r hlisted).place⟩

instance Orderly.decidable (d : Daemon) : ∀ ev, Decidable (d.Orderly ev)
  | .failed c => inferInstanceAs (Decidable (∀ k ∈ d.conns c, ∀ id ∈ k.attached,
      ∀ r ∈ d.sessions.get? id, ∀ other ∈ (d.heap r).attachedBy, other = c))
  | .hangUp c => inferInstanceAs (Decidable (∀ k ∈ d.conns c, ∀ id ∈ k.attached,
      ∀ r ∈ d.sessions.get? id, ∀ other ∈ (d.heap r).attachedBy, other = c))
  | .parked c => inferInstanceAs (Decidable (∀ k ∈ d.conns c, ∀ r ∈ k.task.waitsFor,
      d.handing = true → r ∉ k.answered))
  | .dial _ => isTrue trivial
  | .request _ _ => isTrue trivial
  | .sent _ => isTrue trivial
  | .reader _ _ => isTrue trivial
  | .grace _ => isTrue trivial
  | .succeed _ _ => isTrue trivial
  | .gathered _ => isTrue trivial
  | .late => isTrue trivial

/-- In every run of the custodian whose steps are orderly there is one reader for each master. -/
theorem one_reader_per_master (backlogBytes : Nat) (events : List Event)
    (horderly : EachStep Daemon.next Orderly (.start backlogBytes) events) :
    (Daemon.run backlogBytes events).OneReader := by
  have hinv := horderly.foldl (P := Daemon.Inv) (fun d ev h hev => h.step hev)
    (Inv.start backlogBytes)
  exact hinv.oneReader

/-- A worker takes a session, another closes it and takes one begun under the same id. -/
def idUsedAgain : List Event :=
  [.dial 0, .dial 1,
   .request 1 (.spawn 7 (.ok ⟨⟨80, 24⟩, 0, "xterm"⟩)), .sent 1,
   .request 1 (.attach 7), .reader 0 .woken, .parked 1, .sent 1,
   .request 2 (.close 7), .sent 2,
   .request 2 (.spawn 7 (.ok ⟨⟨80, 24⟩, 0, "xterm"⟩)), .sent 2,
   .request 2 (.attach 7), .reader 1 .woken, .parked 2, .sent 2]

theorem one_reader_per_id_used_again :
    EachStep Daemon.next Orderly (.start 8) idUsedAgain ∧ (Daemon.run 8 idUsedAgain).OneReader :=
  ⟨by decide, one_reader_per_master 8 idUsedAgain (by decide)⟩

/-- The first of them hangs up, and the reader is told to drain the master the second holds. -/
theorem hang_up_resumes_another_reader :
    ¬(Daemon.run 8 (idUsedAgain ++ [.hangUp 1])).OneReader := by
  intro h
  have hread := (h.reads 2 ⟨1, [7], .idle, [1]⟩ 1 (by decide) (by decide) ⟨7, by decide⟩).1
  exact absurd hread.paused (by decide)

end Daemon

end Slopty.Ptyd
