import Slopty.Items.Link

/-!
Convergence of the clients' copies, over every run whose deltas are broadcast in the order
they were applied.
-/

namespace Slopty.Items

open Slopty.Lib

/-- Nothing is under way on a link, and all its client proposed has been answered. -/
def Conn.quiet (conn : Conn) : Bool :=
  conn.uplink.isEmpty && !conn.refused && conn.posted.isEmpty && decide (conn.relay = .live) &&
    conn.events.isEmpty && conn.out.isEmpty

/-- Everything for the client has been delivered and answered. -/
def World.settled (w : World) (c : ClientId) : Bool :=
  w.pending.isEmpty && (w.conns c).any Conn.quiet

namespace World

def deltas (w : World) : List Delta := w.pending.map Prod.snd

/-- The registry stays tidy whatever the order of the steps: what the store writes to disk, and
starts from again, is tidy. -/
theorem step_tidy {w : World} (h : Tidy w.registry.items) (s : Step) :
    Tidy (w.step s).registry.items := by
  cases s with
  | connect c => exact h
  | disconnect c => exact h
  | propose c op =>
      simp only [step, propose]
      split
      · split <;> exact h
      · exact h
  | handle c =>
      simp only [step, onConn, handle]
      split
      · exact h
      · split
        · exact h
        · split
          · exact h
          · split
            · rename_i r d happly
              obtain ⟨hlogs, rfl, -⟩ := Registry.apply_logs happly
              exact hlogs.tidy h
            · exact h
  | answer c =>
      simp only [step, onConn, answer]
      repeat' split
      all_goals exact h
  | post c =>
      simp only [step, onConn, post]
      repeat' split
      all_goals exact h
  | ensureTerminal n session by' id =>
      simp only [step]
      split
      · exact h
      · rename_i r d hensure
        obtain ⟨hlogs, rfl⟩ := Registry.ensureTerminal_logs hensure
        split
        · exact h
        · exact hlogs.tidy h
  | removeSession n session by' =>
      have hremove : w.registry.removeSession session by' =
        ((w.registry.removeSession session by').1, (w.registry.removeSession session by').2) := rfl
      obtain ⟨hlogs, hr⟩ := Registry.removeSession_logs hremove
      simp only [step]
      split
      · exact h
      · exact hr ▸ hlogs.tidy h
  | broadcast task =>
      simp only [step, broadcast]
      split <;> exact h
  | relay c =>
      simp only [step, onConn, relay]
      repeat' split
      all_goals exact h
  | lag c =>
      simp only [step, onConn, lag]
      repeat' split
      all_goals exact h
  | resync c =>
      simp only [step, onConn, resync]
      repeat' split
      all_goals exact h
  | deliver c =>
      simp only [step, onConn, deliver]
      repeat' split
      all_goals exact h

structure Consistent (w : World) : Prop where
  sound : w.log.Sound
  now : w.registry = w.log.at' w.log.length
  pending : ∀ d ∈ w.deltas, d.version ≤ w.log.base.version + w.log.length
  conns : ∀ c conn, w.conns c = some conn → Linked w.log w.deltas (w.clients c) conn

theorem Consistent.agrees {w : World} (h : w.Consistent) {c : ClientId} (hs : w.settled c) :
    (w.clients c).doc.items = w.registry.items := by
  simp only [settled, Bool.and_eq_true, List.isEmpty_iff, Option.any_eq_true, Conn.quiet,
    Bool.not_eq_true', decide_eq_true_eq] at hs
  obtain ⟨hpending, conn, hconn, ⟨⟨⟨⟨huplink, hrefused⟩, hposted⟩, hrelay⟩, hevents⟩, hout⟩ := hs
  have hlink := h.conns c conn hconn
  obtain ⟨n, hcarries, hagree⟩ := hlink.stands
  have hnotOwed : ¬ conn.Owed := by simp [Conn.Owed, hrelay, hrefused, hposted, hout]
  have htip : conn.tip w.log = w.log.index conn.told := by simp [Conn.tip, hrelay]
  have hn : n = w.log.index conn.told := by
    rw [hout] at hcarries
    exact hcarries
  have hend : w.log.length ≤ conn.tip w.log := by
    have hfeed := hlink.fed.feed (by simp [hrelay])
    rw [hevents, deltas, hpending] at hfeed
    exact List.drop_eq_nil_iff.mp hfeed.symm
  have hat : n = w.log.length := by
    rw [hn, ← htip]
    exact Nat.le_antisymm hlink.fed.tip_le hend
  have hagree := hagree hnotOwed
  rw [hat, huplink, Log.since, Log.length, List.drop_length] at hagree
  rw [h.now]
  exact AgreeBut.eq hagree

/-- Deltas are broadcast in the order their ops were applied, an answer goes on a stream
nothing newer was put on, and a fact finds room in the client's copy. -/
def InOrder (w : World) : Step → Prop
  | .broadcast task => ∀ p ∈ w.pending.head?, p.1 = task
  | .post c => ∀ conn ∈ w.conns c, ∀ s ∈ conn.posted.head?, conn.told ≤ s.version
  | .deliver c => ∀ conn ∈ w.conns c, ∀ sync ∈ conn.out.head?,
      sync.fitsIn (w.clients c).doc.items
  | _ => True

instance (w : World) (s : Step) : Decidable (w.InOrder s) := by
  cases s <;> dsimp only [InOrder] <;> infer_instance

namespace Consistent

variable {w : World} {c : ClientId} {conn : Conn}

theorem start {r : Registry} (h : Tidy r.items) : Consistent { registry := r } where
  sound := ⟨h, trivial⟩
  now := rfl
  pending d hd := absurd hd List.not_mem_nil
  conns c conn hconn := by simp at hconn

theorem set (h : w.Consistent) (c : ClientId) {client : Client} {conn : Conn}
    (hlink : Linked w.log w.deltas client conn) :
    ((w.setClient c client).setConn c conn).Consistent where
  sound := h.sound
  now := h.now
  pending := h.pending
  conns c' conn' hconn' := by
    by_cases hc : c' = c
    · subst hc
      simp only [World.setConn, Function.update_self, Option.some.injEq] at hconn'
      subst hconn'
      rw [show ((w.setClient c' client).setConn c' conn).clients c' = client from
        Function.update_self _ _ _]
      exact hlink
    · simp only [World.setConn, setClient, Function.update_of_ne hc] at hconn' ⊢
      exact h.conns c' conn' hconn'

theorem setConn (h : w.Consistent) {conn : Conn}
    (hlink : Linked w.log w.deltas (w.clients c) conn) : (w.setConn c conn).Consistent := by
  have hset := h.set c hlink
  rwa [setClient, Function.update_eq_self] at hset

theorem applied (h : w.Consistent) (task : Task) {conns : ClientId → Option Conn} {r : Registry}
    {ds : List Delta} (hds : w.registry.Logs ds) (hr : r = ds.foldl Registry.advance w.registry)
    (hconns : ∀ c conn, conns c = some conn →
      Linked (w.log.extend ds) (w.deltas ++ ds) (w.clients c) conn) :
    (World.applied { w with conns := conns } task r ds).Consistent := by
  have hlogs : (w.log.at' w.log.length).Logs ds := h.now ▸ hds
  have hdeltas : (World.applied { w with conns := conns } task r ds).deltas = w.deltas ++ ds := by
    simp [deltas, World.applied, Function.comp_def]
  refine ⟨h.sound.extend hlogs, ?_, ?_, ?_⟩
  · change r = _
    rw [hr, h.now, Log.at'_length, Log.at'_length, ← List.foldl_append]
    rfl
  · intro d hd
    have hlen : w.log.length ≤ (w.log.extend ds).length := by simp [Log.length, Log.extend]
    rw [hdeltas] at hd
    rcases List.mem_append.mp hd with hmem | hmem
    · exact (h.pending d hmem).trans (Nat.add_le_add_left hlen _)
    · exact (h.sound.extend hlogs).version_le d (List.mem_append_right _ hmem)
  · intro c conn hconn
    rw [hdeltas]
    exact hconns c conn hconn

theorem applied_only (h : w.Consistent) (task : Task) {r : Registry} {ds : List Delta}
    (hds : w.registry.Logs ds) (hr : r = ds.foldl Registry.advance w.registry) :
    (w.applied task r ds).Consistent :=
  h.applied task hds hr fun c conn hconn => (h.conns c conn hconn).extend h.sound (h.now ▸ hds)

theorem handle (h : w.Consistent) (hconn : w.conns c = some conn) :
    (w.handle c conn).Consistent := by
  have hlink := h.conns c conn hconn
  simp only [World.handle]
  split
  · exact h
  · rename_i op rest huplink
    split
    · exact h
    · split
      · rename_i r d happly
        obtain ⟨hlogs, hr, hcell⟩ := Registry.apply_logs happly
        refine h.applied (.conn c) hlogs hr fun c' conn' hconn' => ?_
        by_cases hc : c' = c
        · subst hc
          simp only [Function.update_self, Option.some.injEq] at hconn'
          subst hconn'
          exact hlink.handled h.sound huplink hcell (h.now ▸ hlogs)
        · rw [Function.update_of_ne hc] at hconn'
          exact (h.conns c' conn' hconn').extend h.sound (h.now ▸ hlogs)
      · exact h.setConn (hlink.owed (Or.inr (Or.inl rfl)) (hlink.fed.congr rfl rfl rfl rfl)
          (fun _ => id) hlink.posted hlink.queued)

theorem propose (h : w.Consistent) (c : ClientId) (op : ItemOp) : (w.propose c op).Consistent := by
  have halone : w.conns c = none → ∀ client, (w.setClient c client).Consistent := by
    intro hnone client
    refine ⟨h.sound, h.now, h.pending, fun c' conn' hconn' => ?_⟩
    have hc : c' ≠ c := by
      rintro rfl
      exact absurd (hnone.symm.trans hconn') (by simp)
    rw [show (w.setClient c client).clients c' = w.clients c' from Function.update_of_ne hc _ _]
    exact h.conns c' conn' hconn'
  simp only [World.propose]
  split
  · rename_i conn hconn
    have hlink := h.conns c conn hconn
    split
    · rename_i hawaiting
      have hqueued : Linked w.log w.deltas (((w.clients c).applyOwn op).queue op) conn :=
        hlink.owed (hlink.awaiting hawaiting) hlink.fed (fun _ => id) hlink.posted
          fun hno => absurd (hawaiting.symm.trans hno) (by simp)
      have hset := h.set c hqueued
      rwa [World.setConn, show Function.update (w.setClient c _).conns c (some conn) = w.conns from
        by rw [← hconn]; exact Function.update_eq_self _ _] at hset
    · rename_i hawaiting
      exact h.set c (hlink.proposed h.sound (Bool.eq_false_iff.mpr hawaiting) op)
  · rename_i hnone
    exact halone hnone _

theorem answer (h : w.Consistent) (hconn : w.conns c = some conn) :
    (w.answer c conn).Consistent := by
  have hlink := h.conns c conn hconn
  simp only [World.answer]
  split
  · refine h.setConn (hlink.owed (Or.inr (Or.inr (Or.inl (by simp))))
      (hlink.fed.congr rfl rfl rfl rfl) (fun _ => id) (fun s hs => ?_) hlink.queued)
    rcases List.mem_append.mp hs with hmem | hmem
    · exact hlink.posted s hmem
    · exact ⟨w.log.length, Nat.le_refl _, by rw [List.mem_singleton.mp hmem, h.now]⟩
  · exact h

theorem post (h : w.Consistent) (hconn : w.conns c = some conn)
    (hnewest : ∀ s ∈ conn.posted.head?, conn.told ≤ s.version) : (w.post c conn).Consistent := by
  have hlink := h.conns c conn hconn
  simp only [World.post]
  split
  · exact h
  · rename_i s rest hposted
    have htold : conn.told ≤ s.version := hnewest s (by rw [hposted]; rfl)
    obtain ⟨m, hm, rfl⟩ := hlink.posted s (by rw [hposted]; exact List.mem_cons_self)
    refine h.setConn (hlink.owed (Or.inr (Or.inr (Or.inr ⟨_, List.mem_append_right _
      List.mem_cons_self⟩))) (hlink.fed.congr rfl rfl rfl rfl) (fun n hcarries => ?_)
      (fun s hs => hlink.posted s (by rw [hposted]; exact List.mem_cons_of_mem _ hs)) hlink.queued)
    refine hcarries.snapshot (Nat.le_refl _) ?_ hm
    have hversion := h.sound.version_at hm
    simp only [Registry.snapshot, hversion, Log.index] at htold ⊢
    omega

theorem broadcast (h : w.Consistent) {task : Task} (hfirst : ∀ p ∈ w.pending.head?, p.1 = task) :
    (w.broadcast task).Consistent := by
  simp only [World.broadcast]
  cases hpending : w.pending with
  | nil => exact h
  | cons p rest =>
      obtain ⟨t, d⟩ := p
      obtain rfl : t = task := hfirst (t, d) (by rw [hpending]; rfl)
      have hdeltas : w.deltas = d :: rest.map Prod.snd := by rw [deltas, hpending]; rfl
      have hd := h.pending d (by rw [hdeltas]; exact List.mem_cons_self)
      rw [List.find?_cons_of_pos (by simp), List.eraseP_cons_of_pos (by simp)]
      refine ⟨h.sound, h.now, fun d' hd' => h.pending d' ?_, fun c' conn' hconn' => ?_⟩
      · rw [hdeltas]
        exact List.mem_cons_of_mem _ hd'
      obtain ⟨conn, hconn, rfl⟩ := Option.map_eq_some_iff.mp hconn'
      have hlink := h.conns c' conn hconn
      rw [hdeltas] at hlink
      exact hlink.broadcast hd

theorem relay (h : w.Consistent) (hconn : w.conns c = some conn) :
    (w.relay c conn).Consistent := by
  have hlink := h.conns c conn hconn
  simp only [World.relay]
  split
  · exact h
  · rename_i s hrelay
    have htip : conn.tip w.log = w.log.index s.version := by simp only [Conn.tip, hrelay]
    refine h.setConn (hlink.owed (Or.inr (Or.inr (Or.inr ⟨s, List.mem_append_right _
      List.mem_cons_self⟩))) ((hlink.fed.sent hrelay).congr rfl rfl rfl rfl) (fun n hcarries => ?_)
      hlink.posted hlink.queued)
    have hsent := hcarries.snapshot hlink.fed.told_le (Nat.le_refl _) hlink.fed.tip_le
    rwa [← hlink.fed.sending s hrelay, htip] at hsent
  · rename_i hrelay
    split
    · exact h
    · rename_i d rest hevents
      split
      · rename_i hfloor
        exact h.setConn (hlink.relayed h.sound hrelay hevents hfloor)
      · rename_i hfloor
        exact h.setConn (hlink.skipped hevents hfloor)

theorem lag (h : w.Consistent) (hconn : w.conns c = some conn) : (w.lag c conn).Consistent := by
  have hlink := h.conns c conn hconn
  simp only [World.lag]
  split
  · exact h.setConn (hlink.owed (Or.inl (by simp)) hlink.fed.lag (fun _ => id) hlink.posted
      hlink.queued)
  · exact h

theorem resync (h : w.Consistent) (hconn : w.conns c = some conn) :
    (w.resync c conn).Consistent := by
  have hlink := h.conns c conn hconn
  simp only [World.resync]
  split
  · rw [h.now]
    exact h.setConn (hlink.owed (Or.inl (by simp)) (hlink.fed.resync h.sound h.pending)
      (fun _ => id) hlink.posted hlink.queued)
  · exact h

theorem deliver (h : w.Consistent) (hconn : w.conns c = some conn)
    (hroom : ∀ sync ∈ conn.out.head?, sync.fitsIn (w.clients c).doc.items) :
    (w.deliver c conn).Consistent := by
  have hlink := h.conns c conn hconn
  simp only [World.deliver]
  split
  · exact h
  · rename_i sync rest hout
    cases sync with
    | snapshot s => exact h.set c (hlink.deliveredSnapshot h.sound hout c)
    | delta d =>
        have hroom : roomFor (w.clients c).doc.items d.op := hroom (.delta d) (by rw [hout]; rfl)
        simp only [Client.applySync, ItemDoc.applySync_delta, List.append_nil]
        exact h.set c (hlink.deliveredDelta h.sound hout hroom _ _)

theorem step (h : w.Consistent) (s : Step) (hs : w.InOrder s) : (w.step s).Consistent := by
  have honConn : ∀ (c : ClientId) (f : Conn → World),
      (∀ conn, w.conns c = some conn → (f conn).Consistent) → (w.onConn c f).Consistent := by
    intro c f hf
    simp only [onConn]
    split
    · exact h
    · rename_i conn hconn
      exact hf conn hconn
  cases s with
  | connect c => exact h.set c (Linked.fresh w.log w.deltas (w.clients c))
  | disconnect c =>
      refine ⟨h.sound, h.now, h.pending, fun c' conn' hconn' => h.conns c' conn' ?_⟩
      simp only [World.step, Function.update_apply] at hconn'
      split at hconn'
      · cases hconn'
      · exact hconn'
  | propose c op => exact h.propose c op
  | handle c => exact honConn c _ fun conn hconn => h.handle hconn
  | answer c => exact honConn c _ fun conn hconn => h.answer hconn
  | post c => exact honConn c _ fun conn hconn => h.post hconn (hs conn hconn)
  | ensureTerminal n session by' id =>
      simp only [World.step]
      split
      · exact h
      · rename_i r d hensure
        obtain ⟨hlogs, hr⟩ := Registry.ensureTerminal_logs hensure
        split
        · exact h
        · exact h.applied_only (.own n) hlogs hr
  | removeSession n session by' =>
      have hremove : w.registry.removeSession session by' =
        ((w.registry.removeSession session by').1, (w.registry.removeSession session by').2) := rfl
      obtain ⟨hlogs, hr⟩ := Registry.removeSession_logs hremove
      simp only [World.step]
      split
      · exact h
      · exact h.applied_only (.own n) hlogs hr
  | broadcast task => exact h.broadcast hs
  | relay c => exact honConn c _ fun conn hconn => h.relay hconn
  | lag c => exact honConn c _ fun conn hconn => h.lag hconn
  | resync c => exact honConn c _ fun conn hconn => h.resync hconn
  | deliver c => exact honConn c _ fun conn hconn => h.deliver hconn (hs conn hconn)

end Consistent

/-- Once everything for a client is delivered and answered, its copy holds the registry's
items, whatever the interleaving, as long as every step was in order. -/
theorem registry_converges (r : Registry) (hr : Tidy r.items) (steps : List Step)
    (h : EachStep step InOrder { registry := r } steps) (c : ClientId)
    (hs : (run { registry := r } steps).settled c) :
    ((run { registry := r } steps).clients c).doc.items =
      (run { registry := r } steps).registry.items :=
  Consistent.agrees (h.foldl (fun _ s hw hs => Consistent.step hw s hs) (Consistent.start hr)) hs

/-- A terminal, two clients that hold it, and a rename of it from each, applied in order. -/
def renameTwice : List Step :=
  [.ensureTerminal 0 7 0 5, .broadcast (.own 0), .connect 1, .connect 2, .resync 1, .relay 1,
    .deliver 1, .resync 2, .relay 2, .deliver 2, .propose 1 (.rename 5 (some ['x'])),
    .propose 2 (.rename 5 (some ['y'])), .handle 1, .handle 2]

def hearTwice : List Step :=
  [.relay 1, .deliver 1, .relay 1, .deliver 1, .relay 2, .deliver 2, .relay 2, .deliver 2]

theorem registry_converges_twice :
    ((run { registry := ⟨0, OrdMap.empty⟩ }
        (renameTwice ++ [.broadcast (.conn 1), .broadcast (.conn 2)] ++ hearTwice)).clients 1).doc.items =
      (run { registry := ⟨0, OrdMap.empty⟩ }
        (renameTwice ++ [.broadcast (.conn 1), .broadcast (.conn 2)] ++ hearTwice)).registry.items :=
  registry_converges ⟨0, OrdMap.empty⟩ (fun _ _ hget => by simp at hget) _ (by decide +kernel) 1
    (by decide +kernel)

/-- The two renames broadcast the other way round leave the first client with its own name for
the terminal, and everything delivered. -/
theorem renames_left_apart :
    ¬ ∀ (r : Registry) (steps : List Step) (c : ClientId), Tidy r.items →
      (run { registry := r } steps).settled c →
      ((run { registry := r } steps).clients c).doc.items =
        (run { registry := r } steps).registry.items := by
  intro hall
  have hsame := hall ⟨0, OrdMap.empty⟩
    (renameTwice ++ [.broadcast (.conn 2), .broadcast (.conn 1)] ++ hearTwice) 1
    (fun _ _ hget => by simp at hget) (by decide +kernel)
  exact absurd hsame (by decide +kernel)

end World

end Slopty.Items
