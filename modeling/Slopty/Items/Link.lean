import Slopty.Items.Log

/-!
A client's link beside the registry's log. The client stands at a place in the log: what is
on its stream, at its relay and still to be broadcast carries it from there to the newest
delta, and its copy differs from the registry at that place only in the cells of its
unanswered proposals and of the deltas still to come.
-/

namespace Slopty.Items

open Slopty.Lib

namespace Log

variable {log : Log} {n m t : Nat} {d : Delta}

/-- The cells written since a place in the log. -/
def since (log : Log) (n : Nat) : List Cell := (log.deltas.drop n).map fun d => d.op.cell

theorem since_of_getElem? (h : log.deltas[n]? = some d) :
    log.since n = d.op.cell :: log.since (n + 1) := by
  obtain ⟨hn, hd⟩ := List.getElem?_eq_some_iff.mp h
  rw [since, List.drop_eq_getElem_cons hn, hd]
  rfl

theorem since_subset (hnm : n ≤ m) : log.since m ⊆ log.since n := by
  apply List.map_subset
  exact (List.drop_suffix_drop_left log.deltas hnm).subset

/-- The registry at a later place differs from an earlier one where deltas since wrote. -/
theorem Sound.agree_later (h : log.Sound) (hnm : n ≤ m) :
    AgreeBut (log.since n) (log.at' m).items (log.at' n).items := by
  induction m, hnm using Nat.le_induction with
  | base => exact AgreeBut.refl _ _
  | succ m hnm ih =>
      cases hd : log.deltas[m]? with
      | none =>
          rw [at', List.take_add_one, hd, Option.toList_none, List.append_nil]
          exact ih
      | some d =>
          rw [at'_succ hd]
          refine (ih.applyOp (h.tidy_at n) d.op false).mono ?_
          refine List.cons_subset.mpr ⟨since_subset hnm ?_, List.Subset.refl _⟩
          rw [since_of_getElem? hd]
          exact List.mem_cons_self

/-- A stream of syncs carries its reader from one place in the log to another. -/
def Carries (log : Log) : Nat → List ItemSync → Nat → Prop
  | n, [], t => n = t
  | n, .delta d :: rest, t => log.deltas[n]? = some d ∧ Carries log (n + 1) rest t
  | n, .snapshot s :: rest, t =>
      -- A snapshot may be ahead of the deltas that follow it, never behind those before.
      ∃ n' m, n ≤ n' ∧ n' ≤ m ∧ m ≤ log.length ∧ s = (log.at' m).snapshot ∧ Carries log n' rest t

theorem Carries.le {out : List ItemSync} (h : log.Carries n out t) : n ≤ t := by
  induction out generalizing n with
  | nil => exact Nat.le_of_eq h
  | cons sync rest ih =>
      cases sync with
      | delta d => exact Nat.le_of_succ_le (ih h.2)
      | snapshot s =>
          obtain ⟨n', m, hn, -, -, -, hrest⟩ := h
          exact hn.trans (ih hrest)

theorem Carries.delta {out : List ItemSync} (h : log.Carries n out t)
    (hd : log.deltas[t]? = some d) : log.Carries n (out ++ [.delta d]) (t + 1) := by
  induction out generalizing n with
  | nil =>
      obtain rfl : n = t := h
      exact ⟨hd, rfl⟩
  | cons sync rest ih =>
      cases sync with
      | delta d' => exact ⟨h.1, ih h.2⟩
      | snapshot s =>
          obtain ⟨n', m, hn, hm, hlen, hs, hrest⟩ := h
          exact ⟨n', m, hn, hm, hlen, hs, ih hrest⟩

theorem Carries.snapshot {out : List ItemSync} {t' : Nat} (h : log.Carries n out t)
    (ht : t ≤ t') (hm : t' ≤ m) (hlen : m ≤ log.length) :
    log.Carries n (out ++ [.snapshot (log.at' m).snapshot]) t' := by
  induction out generalizing n with
  | nil =>
      obtain rfl : n = t := h
      exact ⟨t', m, ht, hm, hlen, rfl, rfl⟩
  | cons sync rest ih =>
      cases sync with
      | delta d' => exact ⟨h.1, ih h.2⟩
      | snapshot s =>
          obtain ⟨n', m', hn, hm', hlen', hs, hrest⟩ := h
          exact ⟨n', m', hn, hm', hlen', hs, ih hrest⟩

theorem Carries.extend {out : List ItemSync} (h : log.Carries n out t) (ds : List Delta) :
    (log.extend ds).Carries n out t := by
  induction out generalizing n with
  | nil => exact h
  | cons sync rest ih =>
      cases sync with
      | delta d =>
          obtain ⟨hn, -⟩ := List.getElem?_eq_some_iff.mp h.1
          exact ⟨(List.getElem?_append_left hn).trans h.1, ih h.2⟩
      | snapshot s =>
          obtain ⟨n', m, hn, hm, hlen, hs, hrest⟩ := h
          refine ⟨n', m, hn, hm, ?_, by rw [at'_extend ds hlen]; exact hs, ih hrest⟩
          exact hlen.trans (by simp [length, Log.extend])

end Log

theorem snapshot_items {r : Registry} (h : Tidy r.items) :
    r.snapshot.items.foldl (fun m (i : Item) => m.insert i.id i) OrdMap.empty = r.items := by
  apply OrdMap.ext_get?
  intro id
  rw [Registry.snapshot, OrdMap.get?_foldl_insert_values r.items fun k i hget => (h k i hget).keyed,
    OrdMap.get?_empty, Option.or_none]

/-- A snapshot is on its way to the client. -/
def Conn.Owed (conn : Conn) : Prop :=
  conn.relay ≠ .live ∨ conn.refused = true ∨ conn.posted ≠ [] ∨ ∃ s, .snapshot s ∈ conn.out

/-- The place in the log the relay reads on from. -/
def Conn.tip (log : Log) (conn : Conn) : Nat :=
  match conn.relay with
  | .live => log.index conn.told
  | .lagged => log.length
  | .sending s => log.index s.version

/-- What the relay has read, and what it will, is the log from its tip on. -/
structure Fed (log : Log) (pending : List Delta) (conn : Conn) : Prop where
  told_le : log.index conn.told ≤ conn.tip log
  tip_le : conn.tip log ≤ log.length
  floor : conn.itemsFloor ≤ log.base.version + conn.tip log
  feed : conn.relay ≠ .lagged →
    (conn.events ++ pending).filter (fun d => conn.itemsFloor < d.version) =
      log.deltas.drop (conn.tip log)
  known : ∀ d ∈ conn.events, d.version ≤ log.base.version + log.length
  sending : ∀ s, conn.relay = .sending s → s = (log.at' (conn.tip log)).snapshot

/-- What holds of a client and its link, beside a log and what is still to be broadcast. -/
structure Linked (log : Log) (pending : List Delta) (client : Client) (conn : Conn) : Prop where
  stands : ∃ n, log.Carries n conn.out (log.index conn.told) ∧
    (¬ conn.Owed → AgreeBut (conn.uplink.map ItemOp.cell ++ log.since n) client.doc.items
      (log.at' n).items)
  fed : Fed log pending conn
  posted : ∀ s ∈ conn.posted, ∃ m ≤ log.length, s = (log.at' m).snapshot
  awaiting : client.awaitingSnapshot = true → conn.Owed
  queued : client.awaitingSnapshot = false → client.queued = []

namespace Fed

variable {log : Log} {pending : List Delta} {conn conn' : Conn}

theorem told_le_length (h : Fed log pending conn) : log.index conn.told ≤ log.length :=
  h.told_le.trans h.tip_le

theorem congr (h : Fed log pending conn) (hrelay : conn'.relay = conn.relay)
    (hevents : conn'.events = conn.events) (hfloor : conn'.itemsFloor = conn.itemsFloor)
    (htold : conn'.told = conn.told) : Fed log pending conn' := by
  have htip : conn'.tip log = conn.tip log := by simp only [Conn.tip, hrelay, htold]
  exact ⟨by rw [htip, htold]; exact h.told_le, htip ▸ h.tip_le,
    by rw [htip, hfloor]; exact h.floor, by rw [htip, hfloor, hevents, hrelay]; exact h.feed,
    by rw [hevents]; exact h.known, by rw [htip, hrelay]; exact h.sending⟩

theorem extend (h : Fed log pending conn) (hsound : log.Sound) {ds : List Delta}
    (hds : (log.at' log.length).Logs ds) : Fed (log.extend ds) (pending ++ ds) conn := by
  have hlen : log.length ≤ (log.extend ds).length := by simp [Log.length, Log.extend]
  have htip : conn.relay ≠ .lagged → conn.tip (log.extend ds) = conn.tip log := by
    intro hne
    cases hrelay : conn.relay with
    | lagged => exact absurd hrelay hne
    | live => simp only [Conn.tip, hrelay]; rfl
    | sending s => simp only [Conn.tip, hrelay]; rfl
  have htip_le : conn.tip log ≤ conn.tip (log.extend ds) := by
    by_cases hrelay : conn.relay = .lagged
    · simpa only [Conn.tip, hrelay] using hlen
    · exact (htip hrelay).ge
  refine ⟨h.told_le.trans htip_le, ?_, h.floor.trans (Nat.add_le_add_left htip_le _),
    fun hrelay => ?_, fun d hd => (h.known d hd).trans (Nat.add_le_add_left hlen _),
    fun s hs => ?_⟩
  · by_cases hrelay : conn.relay = .lagged
    · simp [Conn.tip, hrelay]
    · rw [htip hrelay]
      exact h.tip_le.trans hlen
  · rw [htip hrelay, ← List.append_assoc, List.filter_append, h.feed hrelay, Log.extend,
      List.drop_append_of_le_length h.tip_le]
    congr 1
    rw [List.filter_eq_self]
    intro d hd
    have hlater : log.base.version + log.length < d.version := by
      rw [← hsound.version_at (Nat.le_refl _)]
      exact hds.version_lt d hd
    exact decide_eq_true (h.floor.trans_lt (Nat.lt_of_le_of_lt
      (Nat.add_le_add_left h.tip_le _) hlater))
  · have hne : conn.relay ≠ .lagged := by simp [hs]
    rw [htip hne, Log.at'_extend ds h.tip_le]
    exact h.sending s hs

theorem broadcast {d : Delta} (h : Fed log (d :: pending) conn)
    (hd : d.version ≤ log.base.version + log.length) :
    Fed log pending { conn with events := conn.events ++ [d] } where
  told_le := h.told_le
  tip_le := h.tip_le
  floor := h.floor
  feed hrelay := by
    rw [List.append_assoc]
    exact h.feed hrelay
  known d' hd' := by
    rcases List.mem_append.mp hd' with hmem | hmem
    · exact h.known d' hmem
    · exact List.mem_singleton.mp hmem ▸ hd
  sending := h.sending

theorem lag (h : Fed log pending conn) :
    Fed log pending { conn with events := [], relay := .lagged } where
  told_le := h.told_le_length
  tip_le := Nat.le_refl _
  floor := h.floor.trans (Nat.add_le_add_left h.tip_le _)
  feed hno := absurd rfl hno
  known d hd := absurd hd List.not_mem_nil
  sending s hs := by simp at hs

theorem resync (h : Fed log pending conn) (hsound : log.Sound)
    (hpending : ∀ d ∈ pending, d.version ≤ log.base.version + log.length) :
    Fed log pending { conn with
      itemsFloor := max conn.itemsFloor (log.at' log.length).version
      relay := .sending (log.at' log.length).snapshot } := by
  have hversion := hsound.version_at (Nat.le_refl log.length)
  have htip : log.index (log.at' log.length).snapshot.version = log.length := by
    simp only [Log.index, Registry.snapshot, hversion]
    omega
  have hfloor : conn.itemsFloor ≤ log.base.version + log.length :=
    h.floor.trans (Nat.add_le_add_left h.tip_le _)
  refine ⟨?_, ?_, ?_, fun _ => ?_, h.known, ?_⟩
  · simpa only [Conn.tip, htip] using h.told_le_length
  · simp only [Conn.tip, htip, Nat.le_refl]
  · simp only [Conn.tip, htip, hversion]
    omega
  · simp only [Conn.tip, htip]
    rw [show log.deltas.drop log.length = [] from List.drop_length, List.filter_eq_nil_iff]
    intro d hd
    have hknown : d.version ≤ log.base.version + log.length := by
      rcases List.mem_append.mp hd with hmem | hmem
      · exact h.known d hmem
      · exact hpending d hmem
    simp only [hversion, decide_eq_true_eq]
    omega
  · rintro s ⟨⟩
    simp only [Conn.tip, htip]

theorem sent {s : Snapshot} (h : Fed log pending conn) (hrelay : conn.relay = .sending s) :
    Fed log pending { conn with relay := .live, told := s.version } := by
  have htip : ({ conn with relay := .live, told := s.version } : Conn).tip log = conn.tip log := by
    simp only [Conn.tip, hrelay]
  refine ⟨Nat.le_refl _, ?_, ?_, fun _ => ?_, h.known, fun s hs => by simp at hs⟩
  · rw [htip]
    exact h.tip_le
  · rw [htip]
    exact h.floor
  · rw [htip]
    exact h.feed (by simp [hrelay])

theorem skip {d : Delta} {rest : List Delta} (h : Fed log pending conn)
    (hevents : conn.events = d :: rest) (hfloor : ¬ conn.itemsFloor < d.version) :
    Fed log pending { conn with events := rest } where
  told_le := h.told_le
  tip_le := h.tip_le
  floor := h.floor
  feed hrelay := by
    have hfeed := h.feed hrelay
    rw [hevents, List.cons_append, List.filter_cons_of_neg (by simpa using hfloor)] at hfeed
    exact hfeed
  known d' hd' := h.known d' (by rw [hevents]; exact List.mem_cons_of_mem _ hd')
  sending := h.sending

theorem next {d : Delta} {rest : List Delta} (h : Fed log pending conn)
    (hrelay : conn.relay = .live) (hevents : conn.events = d :: rest)
    (hfloor : conn.itemsFloor < d.version) : log.deltas[log.index conn.told]? = some d := by
  have hfeed := h.feed (by simp [hrelay])
  rw [hevents, List.cons_append, List.filter_cons_of_pos (by simpa using hfloor)] at hfeed
  rw [← List.head?_drop]
  simp only [Conn.tip, hrelay] at hfeed
  rw [← hfeed]
  rfl

theorem pass {d : Delta} {rest : List Delta} (h : Fed log pending conn) (hsound : log.Sound)
    (hrelay : conn.relay = .live) (hevents : conn.events = d :: rest)
    (hfloor : conn.itemsFloor < d.version) :
    log.index d.version = log.index conn.told + 1 ∧
      Fed log pending { conn with events := rest, told := d.version } := by
  have hd := h.next hrelay hevents hfloor
  obtain ⟨hlt, -⟩ := List.getElem?_eq_some_iff.mp hd
  have hindex : log.index d.version = log.index conn.told + 1 := by
    rw [Log.index, (hsound.next hd).1, hsound.version_at (Nat.le_of_lt hlt)]
    omega
  have htip : ({ conn with events := rest, told := d.version } : Conn).tip log =
      log.index conn.told + 1 := by
    simp only [Conn.tip, hrelay, hindex]
  have hold : conn.tip log = log.index conn.told := by simp only [Conn.tip, hrelay]
  refine ⟨hindex, ?_, ?_, ?_, fun _ => ?_, fun d' hd' => h.known d' ?_, fun s hs => ?_⟩
  · rw [htip, hindex]
  · rw [htip]
    exact hlt
  · rw [htip]
    exact (hold ▸ h.floor).trans (by omega)
  · have hfeed := h.feed (by simp [hrelay])
    rw [hevents, List.cons_append, List.filter_cons_of_pos (by simpa using hfloor), hold,
      List.drop_eq_getElem_cons hlt] at hfeed
    rw [htip]
    exact (List.cons.inj hfeed).2
  · rw [hevents]
    exact List.mem_cons_of_mem _ hd'
  · exact absurd (hrelay.symm.trans hs) (by simp)

end Fed

theorem AgreeBut.foldl_applyOwn {e : OrdMap ItemId Item} (he : Tidy e) (ops : List ItemOp)
    {client : Client} {U : List Cell} (h : AgreeBut U client.doc.items e) :
    AgreeBut (ops.map ItemOp.cell ++ U) (ops.foldl Client.applyOwn client).doc.items e := by
  induction ops generalizing client U with
  | nil => exact h
  | cons op rest ih =>
      refine (ih (h.applyOp he op true)).mono ?_
      intro x hx
      simp only [List.map_cons, List.cons_append, List.mem_append, List.mem_cons] at hx ⊢
      tauto

theorem ItemDoc.applySync_delta (doc : ItemDoc) (me : ClientId) (d : Delta) :
    (doc.applySync me (.delta d)).1 =
      ⟨d.version, (applyOp doc.items d.op (decide (d.by' = me))).1⟩ := by
  simp only [applySync]
  split
  · rw [applyOp_mine doc.items d.op true]
  · rfl

theorem Client.applySync_snapshot (client : Client) (me : ClientId) (s : Snapshot) :
    (client.applySync me (.snapshot s)).1.awaitingSnapshot = false ∧
      (client.applySync me (.snapshot s)).1.queued = [] := by
  -- The ops put over the snapshot change the copy only.
  have hkeep : ∀ (ops : List ItemOp) (c : Client),
      (ops.foldl applyOwn c).awaitingSnapshot = c.awaitingSnapshot ∧
        (ops.foldl applyOwn c).queued = c.queued := by
    intro ops
    induction ops with
    | nil => exact fun c => ⟨rfl, rfl⟩
    | cons op rest ih => exact fun c => ih (c.applyOwn op)
  exact hkeep client.queued _

namespace Linked

variable {log : Log} {pending : List Delta} {client : Client} {conn : Conn}

theorem fresh (log : Log) (pending : List Delta) (client : Client) :
    Linked log pending { client with awaitingSnapshot := true } {} where
  stands := ⟨0, (Nat.zero_sub _).symm, fun hno => absurd (Or.inl (by simp)) hno⟩
  fed := {
    told_le := (Nat.zero_sub _).trans_le (Nat.zero_le _)
    tip_le := Nat.le_refl _
    floor := Nat.zero_le _
    feed hno := absurd rfl hno
    known d hd := absurd hd List.not_mem_nil
    sending s hs := by simp at hs }
  posted s hs := absurd hs List.not_mem_nil
  awaiting _ := Or.inl (by simp)
  queued hno := by simp at hno

theorem extend (h : Linked log pending client conn) (hsound : log.Sound) {ds : List Delta}
    (hds : (log.at' log.length).Logs ds) :
    Linked (log.extend ds) (pending ++ ds) client conn := by
  obtain ⟨n, hcarries, hagree⟩ := h.stands
  have hn : n ≤ log.length := hcarries.le.trans h.fed.told_le_length
  refine ⟨⟨n, hcarries.extend ds, fun hno => ?_⟩, h.fed.extend hsound hds, fun s hs => ?_,
    h.awaiting, h.queued⟩
  · rw [Log.at'_extend ds hn]
    refine (hagree hno).mono ?_
    refine List.append_subset.mpr ⟨List.subset_append_left _ _, ?_⟩
    refine List.Subset.trans (List.map_subset _ ?_) (List.subset_append_right _ _)
    rw [Log.extend, List.drop_append_of_le_length hn]
    exact List.subset_append_left _ _
  · obtain ⟨m, hm, rfl⟩ := h.posted s hs
    exact ⟨m, hm.trans (by simp [Log.length, Log.extend]), by rw [Log.at'_extend ds hm]⟩

theorem proposed (h : Linked log pending client conn) (hsound : log.Sound)
    (hclient : client.awaitingSnapshot = false) (op : ItemOp) :
    Linked log pending (client.applyOwn op) { conn with uplink := conn.uplink ++ [op] } where
  stands := by
    obtain ⟨n, hcarries, hagree⟩ := h.stands
    refine ⟨n, hcarries, fun hno => ?_⟩
    refine ((hagree hno).applyOp (hsound.tidy_at n) op true).mono ?_
    intro x hx
    simp only [List.map_append, List.map_cons, List.map_nil, List.mem_append, List.mem_cons,
      List.not_mem_nil, or_false] at hx ⊢
    tauto
  fed := h.fed.congr rfl rfl rfl rfl
  posted := h.posted
  awaiting hyes := absurd (hyes.symm.trans hclient) (by simp)
  queued := h.queued

/-- While a snapshot is on its way, the client's copy may be anything. -/
theorem owed {client' : Client} {conn' : Conn} (h : Linked log pending client conn)
    (howed : conn'.Owed) (hfed : Fed log pending conn')
    (hstream : ∀ n, log.Carries n conn.out (log.index conn.told) →
      log.Carries n conn'.out (log.index conn'.told))
    (hposted : ∀ s ∈ conn'.posted, ∃ m ≤ log.length, s = (log.at' m).snapshot)
    (hqueued : client'.awaitingSnapshot = false → client'.queued = []) :
    Linked log pending client' conn' := by
  obtain ⟨n, hcarries, -⟩ := h.stands
  exact ⟨⟨n, hstream n hcarries, fun hno => absurd howed hno⟩, hfed, hposted, fun _ => howed,
    hqueued⟩

/-- The proposal is in the log now, under the cell it was proposed for. -/
theorem handled (h : Linked log pending client conn) {op : ItemOp} {rest : List ItemOp} {d : Delta}
    (hsound : log.Sound) (huplink : conn.uplink = op :: rest) (hcell : d.op.cell = op.cell)
    (hd : (log.at' log.length).Logs [d]) :
    Linked (log.extend [d]) (pending ++ [d]) client { conn with uplink := rest } := by
  have hext := h.extend hsound hd
  obtain ⟨n, hcarries, hagree⟩ := hext.stands
  refine ⟨⟨n, hcarries, fun hno => (hagree hno).mono ?_⟩, hext.fed.congr rfl rfl rfl rfl,
    hext.posted, hext.awaiting, hext.queued⟩
  have hn : n ≤ log.length := by
    obtain ⟨n', hcarries', -⟩ := h.stands
    exact hcarries.le.trans h.fed.told_le_length
  have hmem : op.cell ∈ (log.extend [d]).since n := by
    rw [Log.since, Log.extend, List.drop_append_of_le_length hn, ← hcell]
    simp
  rw [huplink]
  intro x hx
  simp only [List.map_cons, List.cons_append, List.mem_cons, List.mem_append] at hx ⊢
  rcases hx with rfl | hrest | hsince
  · exact Or.inr hmem
  · exact Or.inl hrest
  · exact Or.inr hsince

theorem relayed (h : Linked log pending client conn) (hsound : log.Sound) {d : Delta}
    {rest : List Delta} (hrelay : conn.relay = .live) (hevents : conn.events = d :: rest)
    (hfloor : conn.itemsFloor < d.version) :
    Linked log pending client
      { conn with events := rest, out := conn.out ++ [.delta d], told := d.version } := by
  obtain ⟨hindex, hfed⟩ := h.fed.pass hsound hrelay hevents hfloor
  have howed : ({ conn with
      events := rest, out := conn.out ++ [.delta d], told := d.version } : Conn).Owed ↔ conn.Owed := by
    simp [Conn.Owed]
  obtain ⟨n, hcarries, hagree⟩ := h.stands
  refine ⟨⟨n, ?_, fun hno => hagree (hno ∘ howed.mpr)⟩, hfed.congr rfl rfl rfl rfl, h.posted,
    fun hawaiting => howed.mpr (h.awaiting hawaiting), h.queued⟩
  rw [hindex]
  exact hcarries.delta (h.fed.next hrelay hevents hfloor)

theorem skipped (h : Linked log pending client conn) {d : Delta} {rest : List Delta}
    (hevents : conn.events = d :: rest) (hfloor : ¬ conn.itemsFloor < d.version) :
    Linked log pending client { conn with events := rest } :=
  ⟨h.stands, h.fed.skip hevents hfloor, h.posted, h.awaiting, h.queued⟩

theorem broadcast {d : Delta} (h : Linked log (d :: pending) client conn)
    (hd : d.version ≤ log.base.version + log.length) :
    Linked log pending client { conn with events := conn.events ++ [d] } :=
  ⟨h.stands, h.fed.broadcast hd, h.posted, h.awaiting, h.queued⟩

theorem deliveredDelta (h : Linked log pending client conn) (hsound : log.Sound) {d : Delta}
    {rest : List ItemSync} (hout : conn.out = .delta d :: rest)
    (hroom : roomFor client.doc.items d.op) (mine : Bool) (version : Nat) :
    Linked log pending
      { client with doc := ⟨version, (ItemDoc.applyOp client.doc.items d.op mine).1⟩ }
      { conn with out := rest } := by
  have howed : ({ conn with out := rest } : Conn).Owed ↔ conn.Owed := by
    simp [Conn.Owed, hout]
  obtain ⟨n, hcarries, hagree⟩ := h.stands
  rw [hout] at hcarries
  refine ⟨⟨n + 1, hcarries.2, fun hno => ?_⟩, h.fed.congr rfl rfl rfl rfl, h.posted,
    fun hawaiting => howed.mpr (h.awaiting hawaiting), h.queued⟩
  have hagree := hagree (hno ∘ howed.mpr)
  rw [Log.since_of_getElem? hcarries.1] at hagree
  rw [Log.at'_succ hcarries.1]
  refine AgreeBut.applyOp_both (hagree.mono ?_) (hsound.next hcarries.1).2 hroom mine false
  intro x hx
  simp only [List.mem_append, List.mem_cons] at hx ⊢
  tauto

/-- A snapshot delivered: the copy is the registry as it was then, with what was queued here
over it. -/
theorem deliveredSnapshot (h : Linked log pending client conn) (hsound : log.Sound) {s : Snapshot}
    {rest : List ItemSync} (hout : conn.out = .snapshot s :: rest) (me : ClientId) :
    Linked log pending (client.applySync me (.snapshot s)).1
      { conn with out := rest, uplink := conn.uplink ++ client.queued } := by
  obtain ⟨n, hcarries, -⟩ := h.stands
  rw [hout] at hcarries
  obtain ⟨n', m, -, hm, -, rfl, hrest⟩ := hcarries
  obtain ⟨hawaiting, hqueued⟩ := client.applySync_snapshot me (log.at' m).snapshot
  refine ⟨⟨n', hrest, fun _ => ?_⟩, h.fed.congr rfl rfl rfl rfl, h.posted,
    fun hyes => absurd (hawaiting.symm.trans hyes) (by simp), fun _ => hqueued⟩
  have hcopy : AgreeBut (log.since n') (log.at' m).items (log.at' n').items :=
    hsound.agree_later hm
  rw [← snapshot_items (hsound.tidy_at m)] at hcopy
  refine (AgreeBut.foldl_applyOwn (hsound.tidy_at n') client.queued hcopy).mono ?_
  intro x hx
  simp only [List.map_append, List.mem_append] at hx ⊢
  tauto

end Linked

end Slopty.Items
