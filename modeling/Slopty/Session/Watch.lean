import Mathlib.Data.List.Nodup
import Slopty.Lib.Run
import Slopty.Session.Handover

/-!
No viewer is abandoned: one whose queue was dropped has a wait for room
outstanding, and is told everything again when it ends, as long as it keeps its
place among the viewers meanwhile.
-/

namespace Slopty.Session

open Slopty.Lib

variable {E : Engine} {size : TermEvent → Nat}

namespace Actor

/-- The wait of a viewer will end: a task waits for room or has found it, unless
the sink is closed. -/
def Outstanding (a : Actor E) (v : Viewer) : Prop :=
  (a.sinks v.sink).closed = true ∨ a.Waits v.client v.sink ∨ (v.client, v.sink) ∈ a.drained

/-- The viewers are told apart, and those whose queue was dropped wait for room,
the one with serial `skip` apart. -/
structure Fair (skip : Option Nat) (a : Actor E) : Prop where
  watched : ∀ v ∈ a.viewers, v.lost = true → v.waiting = true ∨ some v.serial = skip
  outstanding : ∀ v ∈ a.viewers, v.waiting = true → a.Outstanding v
  serials : (a.viewers.map Viewer.serial).Nodup
  clients : (a.viewers.map Viewer.client).Nodup
  fresh : ∀ v ∈ a.viewers, v.serial < a.nextSerial

theorem Sheds.nodup {a b : Actor E} (h : Sheds a b) {β : Type} {f : Viewer → β}
    {g : Nat × ClientId → β} (hf : ∀ v, f v = g (ident v)) (hnodup : (a.viewers.map f).Nodup) :
    (b.viewers.map f).Nodup := by
  have hmap : ∀ l : List Viewer, l.map f = (l.map ident).map g := by
    intro l
    rw [List.map_map]
    exact List.map_congr_left fun v _ => hf v
  obtain ⟨l, hperm, hsub⟩ := h.idents
  rw [hmap] at hnodup ⊢
  exact ((hperm.map g).nodup_iff).mp (hnodup.sublist (hsub.map g))

theorem Sheds.outstanding {a b : Actor E} (h : Sheds a b) {v w : Viewer} (hmoves : Moves a b v w)
    (hv : v.waiting = true → a.Outstanding v) (hw : w.waiting = true) : b.Outstanding w := by
  rw [Outstanding, hmoves.client, hmoves.sink, h.closed, h.drained]
  rcases hmoves.waiting hw with hwaiting | hwaits
  · rcases hv hwaiting with hclosed | hwaits | hdrained
    · exact Or.inl hclosed
    · exact Or.inr (Or.inl (h.waits _ _ hwaits))
    · exact Or.inr (Or.inr hdrained)
  · exact Or.inr (Or.inl hwaits)

theorem Sheds.fair {a b : Actor E} {skip : Option Nat} (h : Sheds a b) (ha : Fair skip a) :
    Fair skip b where
  watched := by
    intro w hw hlost
    obtain ⟨v, hv, hmoves⟩ := h.moves w hw
    rcases hmoves.watched hlost with hvlost | hwaiting
    · rw [hmoves.serial, (hmoves.stays hvlost).2]
      exact ha.watched v hv hvlost
    · exact Or.inl hwaiting
  outstanding := by
    intro w hw
    obtain ⟨v, hv, hmoves⟩ := h.moves w hw
    exact h.outstanding hmoves (ha.outstanding v hv)
  serials := h.nodup (g := Prod.fst) (fun _ => Eq.refl _) ha.serials
  clients := h.nodup (g := Prod.snd) (fun _ => Eq.refl _) ha.clients
  fresh := by
    intro w hw
    obtain ⟨v, hv, hmoves⟩ := h.moves w hw
    rw [hmoves.serial, h.serials]
    exact ha.fresh v hv

/-- Viewer `x` waits for its screen at place `i`, and whoever leaves from before it
has someone behind it to fill the gap. Only the viewers of `leaves` can leave. -/
structure Anchored (leaves : Nat → Bool) (i x : Nat) (a : Actor E) : Prop where
  solid : ∀ v ∈ a.viewers, a.droppable v = true → leaves v.serial = true
  place : ∃ v, a.viewers[i]? = some v ∧ v.serial = x ∧ v.lost = true
  stays : leaves x = false
  backed : Backed (fun v : Viewer => leaves v.serial) a.viewers i

theorem Grows.anchored {leaves : Nat → Bool} {i x : Nat} {a b : Actor E} (h : Grows a b)
    (ha : Anchored leaves i x a) : Anchored leaves i x b where
  solid := by
    intro w hw hdrop
    obtain ⟨v, hv, hmoves⟩ := h.sheds.moves w hw
    rw [hmoves.serial]
    refine ha.solid v hv ?_
    by_contra hsolid
    rw [hmoves.solid (by simpa using hsolid)] at hdrop
    simp at hdrop
  place := by
    obtain ⟨v, hv, hx, hlost⟩ := ha.place
    obtain ⟨w, hw, hmoves⟩ := h.getElem? hv
    exact ⟨w, hw, hmoves.serial.trans hx, (hmoves.stays hlost).1⟩
  stays := ha.stays
  backed := by
    have hserials : b.viewers.map Viewer.serial = a.viewers.map Viewer.serial := by
      have hfst := congrArg (List.map Prod.fst) h.idents
      simpa [ident, Function.comp_def] using hfst
    exact (Backed.congr_map hserials).mpr ha.backed

theorem removeOne_anchored {leaves : Nat → Bool} {i x j : Nat} {a : Actor E} {v : Viewer}
    (ha : Anchored leaves i x a) (hv : a.viewers[j]? = some v) (hleaves : leaves v.serial = true) :
    Anchored leaves i x (a.removeOne j) := by
  obtain ⟨u, hu, hx, hlost⟩ := ha.place
  obtain ⟨hviewers, hsinks⟩ := removeOne_of_some hv
  have hij : j ≠ i := by
    rintro rfl
    rw [hu] at hv
    obtain rfl := Option.some.inj hv
    rw [hx, ha.stays] at hleaves
    simp at hleaves
  obtain ⟨hkept, hbacked⟩ :=
    ha.backed.swapRemove (List.getElem?_eq_some_iff.mp hu).1 hij hv hleaves
  refine ⟨?_, ⟨u, by rw [hviewers, hkept, hu], hx, hlost⟩, ha.stays, by rwa [hviewers]⟩
  intro w hw hdrop
  rw [hviewers] at hw
  refine ha.solid w (mem_of_mem_swapRemove (List.getElem?_eq_some_iff.mp hv).1 hw) ?_
  simpa [droppable, hsinks] using hdrop

/-- Taking them out from the back, each still stands where it was found. -/
theorem remove_anchored {leaves : Nat → Bool} {i x : Nat} {a : Actor E}
    (ha : Anchored leaves i x a) {gone : List Nat} (hgone : gone.Pairwise (· < ·))
    (hall : ∀ j ∈ gone, ∃ v, a.viewers[j]? = some v ∧ leaves v.serial = true) :
    Anchored leaves i x (a.remove gone) ∧
      ∀ j, (∀ k ∈ gone, j < k) → j < a.viewers.length →
        (a.remove gone).viewers[j]? = a.viewers[j]? := by
  induction gone with
  | nil => exact ⟨ha, fun _ _ _ => Eq.refl _⟩
  | cons k rest ih =>
      rw [List.pairwise_cons] at hgone
      obtain ⟨hrest, hkept⟩ := ih hgone.2 fun j hj => hall j (List.mem_cons_of_mem k hj)
      obtain ⟨v, hv, hleaves⟩ := hall k List.mem_cons_self
      have hlen := (List.getElem?_eq_some_iff.mp hv).1
      have hvk : (a.remove rest).viewers[k]? = some v := by rw [hkept k hgone.1 hlen, hv]
      have hremove : a.remove (k :: rest) = (a.remove rest).removeOne k := by
        simp [remove, List.foldl_append]
      rw [hremove]
      refine ⟨removeOne_anchored hrest hvk hleaves, ?_⟩
      intro j hj hjlen
      have hjk := hj k List.mem_cons_self
      have hjrest := hkept j (fun m hm => hj m (List.mem_cons_of_mem k hm)) hjlen
      have hklen := (List.getElem?_eq_some_iff.mp hvk).1
      rw [(removeOne_of_some hvk).1, getElem?_swapRemove_of_lt hklen (by omega) (by omega), hjrest]

theorem eachViewer_anchored {task : Actor E → Nat → Actor E × Bool}
    (htask : ∀ a i, Handed i a (task a i)) {leaves : Nat → Bool} {i x : Nat} {a : Actor E}
    {indices : List Nat} (hindices : indices.Pairwise (· < ·)) (ha : Anchored leaves i x a) :
    Anchored leaves i x (a.eachViewer task indices) := by
  obtain ⟨hgrows, hsub, hgone⟩ := visit_handed htask indices a
  refine (remove_anchored (hgrows.anchored ha) (hindices.sublist hsub) ?_).1
  intro j hj
  obtain ⟨b, v, hab, hb, hv, hdrop⟩ := hgone j hj
  obtain ⟨w, hw, hmoves⟩ := hb.getElem? hv
  refine ⟨w, hw, ?_⟩
  rw [hmoves.serial]
  exact (hab.anchored ha).solid v (List.mem_of_getElem? hv) hdrop

theorem anchored_keeps (leaves : Nat → Bool) (i x : Nat) :
    Keeps (E := E) (Anchored leaves i x) where
  grows := Grows.anchored
  each := fun htask _ _ hindices ha => eachViewer_anchored htask hindices ha

theorem mem_setViewer {a : Actor E} {i : Nat} {u w : Viewer}
    (hw : w ∈ (a.setViewer i u).viewers) : w = u ∨ ∃ j, j ≠ i ∧ a.viewers[j]? = some w := by
  obtain ⟨j, hj⟩ := List.mem_iff_getElem?.mp hw
  simp only [setViewer, List.getElem?_set] at hj
  split at hj
  · split at hj
    · exact Or.inl (Option.some.inj hj).symm
    · simp at hj
  · rename_i hij
    exact Or.inr ⟨j, fun h => hij h.symm, hj⟩

/-- Two viewers of one client, or of one serial, stand in the same place. -/
theorem place_unique {a : Actor E} {β : Type} {f : Viewer → β} (h : (a.viewers.map f).Nodup)
    {i j : Nat} {v w : Viewer} (hv : a.viewers[i]? = some v) (hw : a.viewers[j]? = some w)
    (heq : f v = f w) : i = j := by
  obtain ⟨hi, rfl⟩ := List.getElem?_eq_some_iff.mp hv
  obtain ⟨hj, rfl⟩ := List.getElem?_eq_some_iff.mp hw
  refine (@List.Nodup.getElem_inj_iff _ _ h i (by simpa using hi) j (by simpa using hj)).mp ?_
  simpa using heq

theorem map_setViewer {a : Actor E} {β : Type} {f : Viewer → β} {i : Nat} {u v : Viewer}
    (hv : a.viewers[i]? = some v) (heq : f u = f v) :
    (a.setViewer i u).viewers.map f = a.viewers.map f := by
  obtain ⟨hi, rfl⟩ := List.getElem?_eq_some_iff.mp hv
  rw [setViewer, List.map_set, heq, ← List.getElem_map f (h := by simpa using hi),
    List.set_getElem_self]

/-- A viewer in its place is replaced by one of the same name that owes nothing. -/
theorem Fair.setViewer {a : Actor E} {skip skip' : Option Nat} {i : Nat} {u v : Viewer}
    (ha : Fair skip a) (hv : a.viewers[i]? = some v) (hserial : u.serial = v.serial)
    (hclient : u.client = v.client) (hskip : ∀ w ∈ a.viewers, some w.serial = skip →
      w.serial ≠ v.serial → some w.serial = skip')
    (hwatched : u.lost = true → u.waiting = true ∨ some u.serial = skip')
    (houtstanding : u.waiting = true → a.Outstanding u) : Fair skip' (a.setViewer i u) where
  watched := by
    intro w hw hlost
    rcases mem_setViewer hw with rfl | ⟨j, hij, hj⟩
    · exact hwatched hlost
    · have hmem := List.mem_of_getElem? hj
      refine (ha.watched w hmem hlost).imp_right fun h => hskip w hmem h ?_
      exact fun heq => hij (place_unique ha.serials hj hv heq)
  outstanding := by
    intro w hw
    rcases mem_setViewer hw with rfl | ⟨j, -, hj⟩
    · exact houtstanding
    · exact ha.outstanding w (List.mem_of_getElem? hj)
  serials := by
    rw [map_setViewer hv hserial]
    exact ha.serials
  clients := by
    rw [map_setViewer hv hclient]
    exact ha.clients
  fresh := by
    intro w hw
    rcases mem_setViewer hw with rfl | ⟨j, -, hj⟩
    · rw [hserial]
      exact ha.fresh v (List.mem_of_getElem? hv)
    · exact ha.fresh w (List.mem_of_getElem? hj)

/-- A message that a sink has room leaves the queue: the viewer it names no longer
waits for it. -/
theorem Fair.heard {a : Actor E} {client : ClientId} {sink : SinkId}
    {rest : List (ClientId × SinkId)} (ha : Fair none a)
    (hdrained : a.drained = (client, sink) :: rest) {i : Nat} {v : Viewer}
    (hv : a.viewers[i]? = some v) (hclient : v.client = client) {skip : Option Nat}
    (hskip : v.lost = true → some v.serial = skip) :
    Fair skip ({ a with drained := rest }.setViewer i { v with waiting := false }) where
  watched := by
    intro w hw hlost
    rcases mem_setViewer hw with rfl | ⟨j, -, hj⟩
    · exact Or.inr (hskip hlost)
    · refine Or.inl ((ha.watched w (List.mem_of_getElem? hj) hlost).resolve_right ?_)
      simp
  outstanding := by
    intro w hw hwaiting
    rcases mem_setViewer hw with rfl | ⟨j, hij, hj⟩
    · simp at hwaiting
    · rcases ha.outstanding w (List.mem_of_getElem? hj) hwaiting with hclosed | hwaits | hmem
      · exact Or.inl hclosed
      · exact Or.inr (Or.inl hwaits)
      · rw [hdrained] at hmem
        rcases List.mem_cons.mp hmem with heq | hmem
        · have hsame : w.client = v.client := (Prod.mk.inj heq).1.trans hclient.symm
          exact absurd (place_unique ha.clients hj hv hsame) hij
        · exact Or.inr (Or.inr hmem)
  serials := by
    have hmap : ({ a with drained := rest }.setViewer i { v with waiting := false }).viewers.map
        Viewer.serial = a.viewers.map Viewer.serial := map_setViewer hv (Eq.refl _)
    exact hmap ▸ ha.serials
  clients := by
    have hmap : ({ a with drained := rest }.setViewer i { v with waiting := false }).viewers.map
        Viewer.client = a.viewers.map Viewer.client := map_setViewer hv (Eq.refl _)
    exact hmap ▸ ha.clients
  fresh := by
    intro w hw
    rcases mem_setViewer hw with rfl | ⟨j, -, hj⟩
    · exact ha.fresh v (List.mem_of_getElem? hv)
    · exact ha.fresh w (List.mem_of_getElem? hj)

theorem drainQueue_spec {queue : List Outbound} {s t : Sink} {v w : Viewer} {all : Bool}
    (h : drainQueue queue s v = some (t, w, all)) :
    t.closed = s.closed ∧ t.capacity = s.capacity ∧
      w.serial = v.serial ∧ w.client = v.client ∧ w.sink = v.sink ∧
      w.lost = v.lost ∧ w.waiting = v.waiting ∧ (w = v ∨ s.closed = false) := by
  induction queue generalizing s v with
  | nil =>
      simp only [drainQueue, Option.some.injEq, Prod.mk.injEq] at h
      obtain ⟨rfl, rfl, -⟩ := h
      simp
  | cons out rest ih =>
      simp only [drainQueue] at h
      split at h
      · rename_i u hu
        obtain ⟨hopen, -, rfl⟩ := trySend_sent hu
        obtain ⟨hclosed, hcapacity, hserial, hclient, hsink, hlost, hwaiting, -⟩ := ih h
        exact ⟨hclosed, hcapacity, hserial, hclient, hsink, hlost, hwaiting, Or.inr hopen⟩
      · simp only [Option.some.injEq, Prod.mk.injEq] at h
        obtain ⟨rfl, rfl, -⟩ := h
        simp
      · simp at h

theorem drained_grows {a : Actor E} {i : Nat} {v w : Viewer} {t : Sink} {all : Bool}
    (hv : a.viewers[i]? = some v) (h : drainQueue v.queued (a.sinks v.sink) v = some (t, w, all)) :
    Grows a ((a.setSink v.sink t).setViewer i w) := by
  obtain ⟨hclosed, hcapacity, hserial, hclient, hsink, hlost, hwaiting, hsolid⟩ := drainQueue_spec h
  refine Grows.of_set hv (Eq.refl _) ?_ (setSink_closed hclosed)
    (fun _ _ hw => setSink_waits hcapacity hw) (Eq.refl _) (Eq.refl _) fun _ h => h
  refine ⟨hserial, hclient, hsink, fun h => ⟨hlost ▸ h, hwaiting⟩, fun h => Or.inl (hlost ▸ h),
    fun h => Or.inl (hwaiting ▸ h), ?_⟩
  intro hv'
  rcases hsolid with rfl | hopen
  · simpa [droppable, setViewer, setSink, hclosed] using hv'
  · simp [droppable, setViewer, setSink, hsink, hclosed, hopen]

theorem drainViewer_sheds {a : Actor E} {i : Nat} {v : Viewer} (hv : a.viewers[i]? = some v)
    (hlost : v.lost = false) (paced : Bool) : Sheds a (a.drainViewer size i v paced) := by
  unfold drainViewer
  split
  · exact remove_sheds a [i]
  · rename_i t w hw
    exact (drained_grows hv hw).sheds.trans (frameRoom_sheds _ paced)
  · rename_i t w hw
    have hset : ((a.setSink v.sink t).setViewer i w).viewers[i]? = some w :=
      List.getElem?_set_self (List.getElem?_eq_some_iff.mp hv).1
    obtain ⟨-, -, -, -, -, hwlost, -⟩ := drainQueue_spec hw
    exact ((drained_grows hv hw).trans (waitForRoom_grows hset (hwlost.trans hlost))).sheds

/-- The viewers that an event could find gone leave no gap before place `i` that
those behind it do not fill. -/
def KeepsPlace (a : Actor E) (i : Nat) : Prop := Backed a.droppable a.viewers i

/-- A viewer whose queue was dropped, hearing that its sink has room, keeps its
place while the others take what they are owed. -/
theorem flush_place (size : TermEvent → Nat) {a : Actor E} {skip : Option Nat} (ha : Fair skip a)
    {i : Nat} {v : Viewer} (hv : a.viewers[i]? = some v) (hlost : v.lost = true)
    (hplace : a.KeepsPlace i) :
    ∃ w, (a.flushFrame size).viewers[i]? = some w ∧ w.serial = v.serial ∧
      w.client = v.client := by
  have hleaves : ∀ w ∈ a.viewers,
      (a.viewers.any fun u => a.droppable u && u.serial == w.serial) = a.droppable w := by
    intro w hw
    cases hdrop : a.droppable w with
    | true =>
        rw [List.any_eq_true]
        exact ⟨w, hw, by simp [hdrop]⟩
    | false =>
        rw [List.any_eq_false]
        intro u hu huw
        simp only [Bool.and_eq_true, beq_iff_eq] at huw
        obtain ⟨j, hj⟩ := List.mem_iff_getElem?.mp hu
        obtain ⟨k, hk⟩ := List.mem_iff_getElem?.mp hw
        have hjk := place_unique ha.serials hj hk huw.2
        rw [hjk, hk] at hj
        obtain rfl := Option.some.inj hj
        rw [huw.1] at hdrop
        simp at hdrop
  have hanchored : Anchored (fun s => a.viewers.any fun u => a.droppable u && u.serial == s) i
      v.serial a := by
    refine ⟨?_, ⟨v, hv, Eq.refl _, hlost⟩, ?_, ?_⟩
    · intro w hw hdrop
      exact (hleaves w hw).trans hdrop
    · exact (hleaves v (List.mem_of_getElem? hv)).trans (by simp [droppable, hlost])
    · refine (Backed.congr ?_).mp hplace
      exact fun w hw => (hleaves w hw).symm
  obtain ⟨w, hw, hserial, -⟩ := ((anchored_keeps _ i v.serial).flushFrame hanchored).place
  -- The client is that of the one viewer with this serial before.
  obtain ⟨u, hu, hmoves⟩ := (flushFrame_sheds a).moves w (List.mem_of_getElem? hw)
  obtain ⟨j, hj⟩ := List.mem_iff_getElem?.mp hu
  have hji := place_unique ha.serials hj hv (hmoves.serial.symm.trans hserial)
  rw [hji, hv] at hj
  obtain rfl := Option.some.inj hj
  exact ⟨w, hw, hserial, hmoves.client⟩

theorem keepsPlace_setViewer {a : Actor E} {i : Nat} {u : Viewer} :
    (a.setViewer i u).KeepsPlace i ↔ a.KeepsPlace i := by
  have hdroppable : (a.setViewer i u).droppable = a.droppable := rfl
  rw [KeepsPlace, KeepsPlace, hdroppable, Backed, Backed, setViewer,
    List.take_set_of_le (Nat.le_refl i), List.drop_set_of_lt (Nat.lt_succ_self i)]

theorem findIdx_client {a : Actor E} {skip : Option Nat} (ha : Fair skip a) {i : Nat} {v : Viewer}
    (hv : a.viewers[i]? = some v) {p : Viewer → Bool} (hp : p v = true)
    (hclient : ∀ w, p w = true → w.client = v.client) : a.viewers.findIdx? p = some i := by
  obtain ⟨hi, hvi⟩ := List.getElem?_eq_some_iff.mp hv
  rw [List.findIdx?_eq_some_iff_getElem]
  refine ⟨hi, by rwa [hvi], ?_⟩
  intro j hj hpj
  have hlen : j < a.viewers.length := by omega
  have hji := place_unique ha.clients (List.getElem?_eq_getElem hlen) hv (hclient _ hpj)
  omega

theorem getElem?_of_findIdx {l : List Viewer} {p : Viewer → Bool} {i : Nat}
    (h : l.findIdx? p = some i) : ∃ v, l[i]? = some v ∧ p v = true := by
  rw [List.findIdx?_eq_some_iff_getElem] at h
  obtain ⟨hi, hp, -⟩ := h
  exact ⟨l[i], List.getElem?_eq_getElem hi, hp⟩

/-- The viewer told everything again is the one at its place before, and its mark
is cleared. -/
theorem tellLost_eq (size : TermEvent → Nat) {a : Actor E} {i : Nat} {v : Viewer}
    (ha : Fair (some v.serial) a) (hv : a.viewers[i]? = some v) (hlost : v.lost = true)
    (hplace : a.KeepsPlace i) :
    ∃ (b : Actor E) (w : Viewer), b.viewers[i]? = some w ∧ w.serial = v.serial ∧
      w.lost = false ∧ b.position v.client = some i ∧ Fair none b ∧
      a.tellLost size i v.client = b.catchUp size v.client := by
  obtain ⟨w, hw, hserial, hclient⟩ := flush_place size ha hv hlost hplace
  have hflushed := (@flushFrame_sheds E size a).fair ha
  have hcleared : Fair none ((a.flushFrame size).setViewer i { w with lost := false }) := by
    refine hflushed.setViewer hw (Eq.refl _) (Eq.refl _) ?_ (by simp) ?_
    · intro u hu hskip hne
      exact absurd ((Option.some.inj hskip).trans hserial.symm) hne
    · exact hflushed.outstanding w (List.mem_of_getElem? hw)
  have hset : ((a.flushFrame size).setViewer i { w with lost := false }).viewers[i]? =
      some { w with lost := false } :=
    List.getElem?_set_self (List.getElem?_eq_some_iff.mp hw).1
  refine ⟨_, _, hset, hserial, rfl, ?_, hcleared, ?_⟩
  · exact findIdx_client hcleared hset (by simp [hclient]) (by simp [hclient])
  · simp only [tellLost, hw]

theorem sinkHasRoom_eq {a : Actor E} {client : ClientId} {sink : SinkId}
    {rest : List (ClientId × SinkId)} {skip : Option Nat} (ha : Fair skip a) {i : Nat} {v : Viewer}
    (hv : a.viewers[i]? = some v) (hclient : v.client = client) (hsink : v.sink = sink)
    (paced : Bool) :
    { a with drained := rest }.sinkHasRoom size client sink paced =
      if v.lost then
        (Actor.setViewer { a with drained := rest } i { v with waiting := false }).tellLost size i client
      else
        (Actor.setViewer { a with drained := rest } i { v with waiting := false }).drainViewer size i
          { v with waiting := false } paced := by
  have hfound : a.viewers.findIdx? (fun u => u.client == client && u.sink == sink) = some i :=
    findIdx_client ha hv (by simp [hclient, hsink]) (by simp +contextual [hclient])
  simp only [sinkHasRoom, hfound, hv]

theorem sinkHasRoom_lost (size : TermEvent → Nat) {a : Actor E} {client : ClientId} {sink : SinkId}
    {rest : List (ClientId × SinkId)} (ha : Fair none a)
    (hdrained : a.drained = (client, sink) :: rest) {i : Nat} {v : Viewer}
    (hv : a.viewers[i]? = some v) (hclient : v.client = client) (hsink : v.sink = sink)
    (hlost : v.lost = true) (hplace : a.KeepsPlace i) (paced : Bool) :
    ∃ (b : Actor E) (w : Viewer), b.viewers[i]? = some w ∧ w.serial = v.serial ∧
      w.lost = false ∧ b.position client = some i ∧ Fair none b ∧
      { a with drained := rest }.sinkHasRoom size client sink paced = b.catchUp size client := by
  have hheard : Fair (some v.serial)
      (Actor.setViewer { a with drained := rest } i { v with waiting := false }) :=
    ha.heard hdrained hv hclient fun _ => rfl
  have hset : (Actor.setViewer { a with drained := rest } i { v with waiting := false }).viewers[i]? =
      some { v with waiting := false } :=
    List.getElem?_set_self (List.getElem?_eq_some_iff.mp hv).1
  have hroom := @sinkHasRoom_eq E size a client sink rest none ha i v hv hclient hsink paced
  rw [if_pos hlost] at hroom
  subst hclient
  rw [hroom]
  exact @tellLost_eq E size _ i { v with waiting := false } hheard hset hlost
    (keepsPlace_setViewer.mpr hplace)

theorem sinkHasRoom_fair {a : Actor E} {client : ClientId} {sink : SinkId}
    {rest : List (ClientId × SinkId)} (ha : Fair none a)
    (hdrained : a.drained = (client, sink) :: rest)
    (hplace : ∀ i v, a.viewers[i]? = some v → v.client = client → v.sink = sink → v.lost = true →
      a.KeepsPlace i) (paced : Bool) :
    Fair none ({ a with drained := rest }.sinkHasRoom size client sink paced) := by
  cases hfound : a.viewers.findIdx? (fun u => u.client == client && u.sink == sink) with
  | none =>
      have hsame : ({ a with drained := rest } : Actor E).sinkHasRoom size client sink paced =
          { a with drained := rest } := by
        simp only [sinkHasRoom, hfound]
      rw [hsame]
      refine ⟨ha.watched, ?_, ha.serials, ha.clients, ha.fresh⟩
      intro w hw hwaiting
      rcases ha.outstanding w hw hwaiting with hclosed | hwaits | hmem
      · exact Or.inl hclosed
      · exact Or.inr (Or.inl hwaits)
      · rw [hdrained] at hmem
        rcases List.mem_cons.mp hmem with heq | hmem
        · rw [List.findIdx?_eq_none_iff] at hfound
          have hnone := hfound w hw
          simp [(Prod.mk.inj heq).1, (Prod.mk.inj heq).2] at hnone
        · exact Or.inr (Or.inr hmem)
  | some i =>
      obtain ⟨v, hv, hp⟩ := getElem?_of_findIdx hfound
      simp only [Bool.and_eq_true, beq_iff_eq] at hp
      obtain ⟨hclient, hsink⟩ := hp
      cases hlost : v.lost with
      | true =>
          obtain ⟨b, w, -, -, -, -, hb, heq⟩ := sinkHasRoom_lost size ha hdrained hv hclient hsink
            hlost (hplace i v hv hclient hsink hlost) paced
          rw [heq]
          exact (catchUp_sheds b client).fair hb
      | false =>
          have hheard : Fair none
              (Actor.setViewer { a with drained := rest } i { v with waiting := false }) :=
            ha.heard hdrained hv hclient (by simp [hlost])
          have hset : (Actor.setViewer { a with drained := rest } i
              { v with waiting := false }).viewers[i]? = some { v with waiting := false } :=
            List.getElem?_set_self (List.getElem?_eq_some_iff.mp hv).1
          rw [sinkHasRoom_eq ha hv hclient hsink, if_neg (by simp [hlost])]
          exact (drainViewer_sheds hset hlost paced).fair hheard

theorem filter_sheds (a : Actor E) (p : Viewer → Bool) :
    Sheds a { a with viewers := a.viewers.filter p } where
  moves := fun w hw => ⟨w, List.mem_of_mem_filter hw, Moves.rfl w fun _ => Eq.refl _⟩
  idents := (List.filter_sublist.map ident).subperm
  closed := fun _ => Eq.refl _
  waits := fun _ _ h => h
  drained := Eq.refl _
  serials := Eq.refl _
  numbered := fun _ h => h

theorem setSink_grows {a : Actor E} {id : SinkId} {s : Sink}
    (hclosed : s.closed = (a.sinks id).closed) (hcapacity : s.capacity = (a.sinks id).capacity) :
    Grows a (a.setSink id s) where
  length := Eq.refl _
  moves := by
    intro i v w hv hw
    have hvw : v = w := Option.some.inj (hv.symm.trans hw)
    exact hvw ▸ Moves.rfl v (setSink_closed hclosed)
  closed := setSink_closed hclosed
  waits := fun _ _ h => setSink_waits hcapacity h
  drained := Eq.refl _
  serials := Eq.refl _
  numbered := fun _ h => h

theorem Fair.join {a : Actor E} (ha : Fair none a) (client : ClientId) (newSize : TermSize)
    (sink : SinkId) :
    Fair none { a with
      viewers := (a.viewers.filter fun v : Viewer => v.client != client) ++
        [Viewer.new client sink newSize a.nextSerial]
      nextSerial := a.nextSerial + 1 } := by
  have hkept := (filter_sheds a fun v => v.client != client).fair ha
  have hmem : ∀ {v : Viewer}, v ∈ (a.viewers.filter fun v : Viewer => v.client != client) ++
      [Viewer.new client sink newSize a.nextSerial] →
      v ∈ (a.viewers.filter fun v : Viewer => v.client != client) ∨
        v = Viewer.new client sink newSize a.nextSerial := by
    intro v hv
    simpa only [List.mem_append, List.mem_singleton] using hv
  refine ⟨?_, ?_, ?_, ?_, ?_⟩
  · intro v hv hlost
    rcases hmem hv with hv | rfl
    · exact hkept.watched v hv hlost
    · simp [Viewer.new] at hlost
  · intro v hv hwaiting
    rcases hmem hv with hv | rfl
    · exact hkept.outstanding v hv hwaiting
    · simp [Viewer.new] at hwaiting
  · rw [List.map_append, List.nodup_append]
    refine ⟨hkept.serials, by simp, ?_⟩
    intro x hx y hy
    obtain ⟨v, hv, rfl⟩ := List.mem_map.mp hx
    have hfresh := hkept.fresh v hv
    have hy' : y = a.nextSerial := by simpa [Viewer.new] using hy
    rw [hy']
    exact Nat.ne_of_lt hfresh
  · rw [List.map_append, List.nodup_append]
    refine ⟨hkept.clients, by simp, ?_⟩
    intro x hx y hy
    obtain ⟨v, hv, rfl⟩ := List.mem_map.mp hx
    have hy' : y = client := by simpa [Viewer.new] using hy
    rw [hy']
    simpa using (List.mem_filter.mp hv).2
  · intro v hv
    rcases hmem hv with hv | rfl
    · exact Nat.lt_succ_of_lt (hkept.fresh v hv)
    · exact Nat.lt_succ_self _

theorem attach_fair {a : Actor E} (ha : Fair none a) (client : ClientId) (newSize : TermSize)
    (sink : SinkId) : Fair none (a.attach size client newSize sink) := by
  have hjoined := ((@flushFrame_sheds E size a).fair ha).join client newSize sink
  unfold attach
  refine (introduce_sheds _ client).fair ?_
  simp only
  split
  · refine (applySize_sheds _ _).fair ((sendTo_grows _ client _).sheds.fair ?_)
    refine Sheds.fair ?_ hjoined
    exact Sheds.of_same rfl rfl rfl rfl rfl fun _ h => h
  · refine Sheds.fair ?_ hjoined
    exact Sheds.of_same rfl rfl rfl rfl rfl fun _ h => h

theorem detach_fair {a : Actor E} (ha : Fair none a) (client : ClientId) (sink : Option SinkId) :
    Fair none (a.detach size client sink) := by
  have hkept := (filter_sheds a fun v => v.client != client || !(sink.all fun t => t == v.sink)).fair ha
  unfold detach
  simp only
  split
  · exact (onViewerGone_sheds _ client).fair hkept
  · exact hkept

theorem wake_fair {a : Actor E} (ha : Fair none a) (k : Nat) : Fair none (a.wake k) := by
  unfold wake
  split
  · exact ha
  · rename_i client sink room hk
    have hlive : ∀ v ∈ a.viewers, a.Waits v.client v.sink →
        (v.client = client ∧ v.sink = sink) ∨
          { a with waits := a.waits.eraseIdx k }.Waits v.client v.sink := by
      intro v hv hwaits
      obtain ⟨room', hmem, hle⟩ := hwaits
      rcases Classical.em ((v.client, v.sink, room') ∈ a.waits.eraseIdx k) with hin | hout
      · exact Or.inr ⟨room', hin, hle⟩
      · left
        obtain ⟨j, hj⟩ := List.mem_iff_getElem?.mp hmem
        have hjk : j = k := by
          by_contra hne
          exact hout (List.mem_eraseIdx_iff_getElem?.mpr ⟨j, hne, hj⟩)
        rw [hjk, hk] at hj
        have heq := Option.some.inj hj
        simp only [Prod.mk.injEq] at heq
        exact ⟨heq.1.symm, heq.2.1.symm⟩
    simp only
    split
    · rename_i hclosed
      refine ⟨ha.watched, ?_, ha.serials, ha.clients, ha.fresh⟩
      intro v hv hwaiting
      rcases ha.outstanding v hv hwaiting with h | h | h
      · exact Or.inl h
      · rcases hlive v hv h with ⟨-, hsink⟩ | h
        · exact Or.inl (hsink ▸ hclosed)
        · exact Or.inr (Or.inl h)
      · exact Or.inr (Or.inr h)
    · split
      · refine ⟨ha.watched, ?_, ha.serials, ha.clients, ha.fresh⟩
        intro v hv hwaiting
        rcases ha.outstanding v hv hwaiting with h | h | h
        · exact Or.inl h
        · rcases hlive v hv h with ⟨hclient, hsink⟩ | h
          · refine Or.inr (Or.inr (List.mem_append_right _ ?_))
            rw [hclient, hsink]
            exact List.mem_singleton.mpr rfl
          · exact Or.inr (Or.inl h)
        · exact Or.inr (Or.inr (List.mem_append_left _ h))
      · exact ha

theorem close_fair {a : Actor E} (ha : Fair none a) (sink : SinkId) :
    Fair none (a.setSink sink { a.sinks sink with closed := true, buffer := [] }) where
  watched := ha.watched
  outstanding := by
    intro v hv hwaiting
    rcases ha.outstanding v hv hwaiting with h | h | h
    · left
      simp only [setSink]
      split
      · rfl
      · exact h
    · exact Or.inr (Or.inl (setSink_waits (by rfl) h))
    · exact Or.inr (Or.inr h)
  serials := ha.serials
  clients := ha.clients
  fresh := ha.fresh

/-- In this step viewer `i`, whose queue was dropped, hears that its sink has
room. -/
def hears (a : Actor E) (s : Step) (i : Nat) : Bool :=
  match s, a.drained with
  | .drained _, (client, sink) :: _ =>
      (a.viewers[i]?).any fun v => v.client == client && v.sink == sink && v.lost
  | _, _ => false

/-- The condition on a step: a viewer told everything again is not moved by those
that leave while the others take what they are owed. -/
def PlaceKept (a : Actor E) (s : Step) : Prop :=
  ∀ i < a.viewers.length, a.hears s i = true → a.KeepsPlace i

instance (a : Actor E) (i : Nat) : Decidable (a.KeepsPlace i) :=
  inferInstanceAs (Decidable (_ ≤ _))

instance (a : Actor E) (s : Step) : Decidable (a.PlaceKept s) :=
  inferInstanceAs (Decidable (∀ i < a.viewers.length, _ → _))

theorem PlaceKept.keepsPlace {a : Actor E} {paced : Bool} (h : a.PlaceKept (.drained paced))
    {client : ClientId} {sink : SinkId} {rest : List (ClientId × SinkId)}
    (hdrained : a.drained = (client, sink) :: rest) {i : Nat} {v : Viewer}
    (hv : a.viewers[i]? = some v) (hclient : v.client = client) (hsink : v.sink = sink)
    (hlost : v.lost = true) : a.KeepsPlace i := by
  refine h i (List.getElem?_eq_some_iff.mp hv).1 ?_
  simp [hears, hdrained, hv, hclient, hsink, hlost]

theorem step_fair {a : Actor E} (ha : Fair none a) {s : Step} (hs : a.PlaceKept s) :
    Fair none (a.step size s) := by
  cases s with
  | attach client newSize sink => exact attach_fair ha client newSize sink
  | detach client sink => exact detach_fair ha client sink
  | reserve client => exact (reserve_grows a client).sheds.fair ha
  | drive client take =>
      exact (drive_sheds _ client take).fair ((word_grows a client).sheds.fair ha)
  | resize client newSize =>
      exact (resizeRequest_sheds _ client newSize).fair ((word_grows a client).sheds.fair ha)
  | reached client marker paced =>
      exact (reachedRequest_sheds _ client marker paced).fair ((word_grows a client).sheds.fair ha)
  | typed client => exact (typed_grows a client).sheds.fair ha
  | rollCallOver => exact (rollCallOver_sheds a).fair ha
  | output bytes => exact (engine_same_grows a a.owed (E.write a.engine bytes)).sheds.fair ha
  | flush => exact (flushFrame_sheds a).fair ha
  | frameRoom paced => exact (frameRoom_sheds a paced).fair ha
  | news n => exact (news_sheds a n).fair ha
  | answer client text => exact (sendTo_grows a client _).sheds.fair ha
  | exited status => exact (childExited_sheds a status).fair ha
  | drained paced =>
      simp only [step]
      split
      · exact ha
      · rename_i client sink rest hdrained
        exact sinkHasRoom_fair ha hdrained (fun i v => hs.keepsPlace hdrained) paced
  | take sink =>
      simp only [step]
      split
      · exact ha
      · refine Sheds.fair (Grows.sheds ?_) ha
        exact setSink_grows rfl rfl
  | done sink k =>
      refine Sheds.fair (Grows.sheds ?_) ha
      exact setSink_grows rfl rfl
  | close sink => exact close_fair ha sink
  | wake k => exact wake_fair ha k

theorem start_fair (engine : E.State) (capacity : SinkId → Nat) (queuedMaxBytes : Nat) :
    Fair none (start (E := E) engine capacity queuedMaxBytes) := by
  refine ⟨?_, ?_, ?_, ?_, ?_⟩ <;> simp [start]

theorem run_append (a : Actor E) (before after : List Step) :
    a.run size (before ++ after) = (a.run size before).run size after :=
  List.foldl_append

/-- In every run along which a viewer told everything again keeps its place, no
viewer is abandoned: one whose queue was dropped waits for room, by a task that
will end, and hearing of it that same viewer is told everything again. -/
theorem no_viewer_abandoned (size : TermEvent → Nat) (engine : E.State) (capacity : SinkId → Nat)
    (queuedMaxBytes : Nat) (steps : List Step)
    (hkept : EachStep (step size) PlaceKept (start (E := E) engine capacity queuedMaxBytes) steps) :
    (∀ before after, steps = before ++ after →
      ∀ v ∈ ((start (E := E) engine capacity queuedMaxBytes).run size before).viewers,
        v.lost = true → v.waiting = true ∧
          ((start (E := E) engine capacity queuedMaxBytes).run size before).Outstanding v) ∧
    ∀ before paced after, steps = before ++ .drained paced :: after →
      ∀ a, a = (start (E := E) engine capacity queuedMaxBytes).run size before →
      ∀ client sink rest i v, a.drained = (client, sink) :: rest → a.viewers[i]? = some v →
        v.client = client → v.sink = sink → v.lost = true →
          ∃ (b : Actor E) (w : Viewer), b.viewers[i]? = some w ∧ w.serial = v.serial ∧
            w.lost = false ∧ b.position client = some i ∧
            a.step size (.drained paced) = b.catchUp size client := by
  have hfair : ∀ before after, steps = before ++ after →
      Fair none ((start (E := E) engine capacity queuedMaxBytes).run size before) := by
    intro before after hsplit
    rw [hsplit, EachStep.append] at hkept
    exact hkept.1.foldl (fun _ _ ha hs => step_fair ha hs) (start_fair _ _ _)
  constructor
  · intro before after hsplit v hv hlost
    have hstate := hfair before after hsplit
    have hwaiting := (hstate.watched v hv hlost).resolve_right (by simp)
    exact ⟨hwaiting, hstate.outstanding v hv hwaiting⟩
  · rintro before paced after hsplit a rfl client sink rest i v hdrained hv hclient hsink hlost
    have hstate := hfair before _ hsplit
    rw [hsplit, EachStep.append] at hkept
    have hplace := hkept.2.1.keepsPlace hdrained hv hclient hsink hlost
    obtain ⟨b, w, hw, hserial, hcleared, hposition, -, heq⟩ :=
      sinkHasRoom_lost size hstate hdrained hv hclient hsink hlost hplace paced
    exact ⟨b, w, hw, hserial, hcleared, hposition, by simp only [step, hdrained, heq]⟩

end Actor

/-- An engine whose screen is the number of its last frame. -/
def counting : Engine where
  State := Nat
  last := id
  size := fun _ => ⟨80, 24, 8, 16⟩
  write := fun s _ => s
  takeFrame := fun s => (.ok (some ⟨s + 1, false, []⟩), s + 1)
  fullFrame := fun s => (.ok ⟨s + 1, true, []⟩, s + 1)
  baselineFrame := fun s => (.ok (⟨s + 1, true, []⟩, []), s + 1)
  joinFrame := fun s => (.ok (⟨s, true, []⟩, []), s)
  drainImages := fun s => ([], s)
  discardFrame := id
  resize := fun s _ => (.ok (), s)

namespace Actor

/-- One viewer with room for a single event, whose queue is dropped. -/
def slowViewer : List Step :=
  [.attach 2 ⟨80, 24, 8, 16⟩ 20, .news (.other "a"), .news (.other "b"), .news (.other "c"),
    .take 20, .wake 0]

/-- The same beside a viewer attached before it, whose sink has closed. -/
def slowBehindClosed : List Step :=
  [.attach 1 ⟨80, 24, 8, 16⟩ 10, .attach 2 ⟨80, 24, 8, 16⟩ 20, .news (.other "a"),
    .news (.other "b"), .news (.other "c"), .close 10, .take 20, .wake 0]

def oneSlow : Actor counting := start (E := counting) (0 : Nat) (fun id => if id = 20 then 1 else 8) 100

theorem no_viewer_abandoned_slow : ∃ (b : Actor counting) (w : Viewer), b.viewers[0]? = some w ∧
    w.serial = 0 ∧ w.lost = false ∧ b.position 2 = some 0 ∧
    (oneSlow.run (fun _ => 60) slowViewer).step (fun _ => 60) (.drained true) =
      b.catchUp (fun _ => 60) 2 := by
  obtain ⟨-, htold⟩ := no_viewer_abandoned (E := counting) (fun _ => 60) (0 : Nat)
    (fun id => if id = 20 then 1 else 8) 100 (slowViewer ++ [.drained true]) (by decide +kernel)
  have hsome : ((oneSlow.run (fun _ => 60) slowViewer).viewers[0]?).isSome := by decide +kernel
  obtain ⟨v, hv⟩ := Option.isSome_iff_exists.mp hsome
  have hfields : ((oneSlow.run (fun _ => 60) slowViewer).viewers[0]?).all (fun v =>
      v.client == 2 && v.sink == 20 && v.lost && v.serial == 0) = true := by decide +kernel
  rw [hv] at hfields
  simp only [Option.all_some, Bool.and_eq_true, beq_iff_eq] at hfields
  obtain ⟨⟨⟨hclient, hsink⟩, hlost⟩, hserial⟩ := hfields
  obtain ⟨b, w, hw, hsame, hrest⟩ := htold slowViewer true [] rfl _ rfl 2 20 [] 0 v
    (by decide +kernel) hv hclient hsink hlost
  exact ⟨b, w, hw, hsame.trans hserial, hrest⟩

/-- The closed viewer leaves during the flush, the slow one takes its place, and
the mark is looked for where it was. -/
theorem slow_viewer_abandoned :
    (∃ v ∈ (oneSlow.run (fun _ => 60) (slowBehindClosed ++ [.drained true])).viewers,
      v.client = 2 ∧ v.sink = 20 ∧ v.lost = true ∧ v.waiting = false) ∧
    ((oneSlow.run (fun _ => 60) (slowBehindClosed ++ [.drained true])).sinks 20).closed = false ∧
    (oneSlow.run (fun _ => 60) (slowBehindClosed ++ [.drained true])).waits = [] ∧
    (oneSlow.run (fun _ => 60) (slowBehindClosed ++ [.drained true])).drained = [] := by
  decide +kernel

end Actor

end Slopty.Session
