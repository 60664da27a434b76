import Slopty.Session.Actor

/-!
What handing events out does to the viewers: each keeps its name and its mark of
a dropped queue, and only those whose sink closed leave.
-/

namespace Slopty.Session

open Slopty.Lib

variable {E : Engine} {size : TermEvent → Nat}

namespace Actor

/-- A viewer the next event would find gone. -/
def droppable (a : Actor E) (v : Viewer) : Bool :=
  (a.sinks v.sink).closed && !v.lost && v.queued.isEmpty

/-- A task waits for room in the client's sink, for no more than an emptied sink
has. -/
def Waits (a : Actor E) (client : ClientId) (sink : SinkId) : Prop :=
  ∃ room, (client, sink, room) ∈ a.waits ∧ room ≤ max 1 ((a.sinks sink).capacity / 2)

/-- What becomes of a viewer that stays in its place. -/
structure Moves (a a' : Actor E) (v v' : Viewer) : Prop where
  serial : v'.serial = v.serial
  client : v'.client = v.client
  sink : v'.sink = v.sink
  stays : v.lost = true → v'.lost = true ∧ v'.waiting = v.waiting
  watched : v'.lost = true → v.lost = true ∨ v'.waiting = true
  waiting : v'.waiting = true → v.waiting = true ∨ a'.Waits v.client v.sink
  solid : a.droppable v = false → a'.droppable v' = false

/-- Events are handed out and nobody leaves. -/
structure Grows (a a' : Actor E) : Prop where
  length : a'.viewers.length = a.viewers.length
  moves : ∀ (i : Nat) (v v' : Viewer), a.viewers[i]? = some v → a'.viewers[i]? = some v' →
    Moves a a' v v'
  closed : ∀ s, (a'.sinks s).closed = (a.sinks s).closed
  waits : ∀ client sink, a.Waits client sink → a'.Waits client sink
  drained : a'.drained = a.drained
  serials : a'.nextSerial = a.nextSerial
  numbered : ∀ built ∈ a.numbered, built ∈ a'.numbered

theorem Moves.rfl {a a' : Actor E} (v : Viewer)
    (hclosed : ∀ s, (a'.sinks s).closed = (a.sinks s).closed) : Moves a a' v v where
  serial := Eq.refl _
  client := Eq.refl _
  sink := Eq.refl _
  stays := fun h => ⟨h, Eq.refl _⟩
  watched := Or.inl
  waiting := Or.inl
  solid := by
    intro h
    simpa [droppable, hclosed] using h

theorem Moves.trans {a b c : Actor E} {u v w : Viewer} (h : Moves a b u v) (h' : Moves b c v w)
    (hwaits : ∀ client sink, b.Waits client sink → c.Waits client sink) : Moves a c u w where
  serial := h'.serial.trans h.serial
  client := h'.client.trans h.client
  sink := h'.sink.trans h.sink
  stays := by
    intro hu
    obtain ⟨hv, hvw⟩ := h.stays hu
    obtain ⟨hw, hww⟩ := h'.stays hv
    exact ⟨hw, hww.trans hvw⟩
  watched := by
    intro hw
    rcases h'.watched hw with hv | hww
    · rcases h.watched hv with hu | hvw
      · exact Or.inl hu
      · exact Or.inr ((h'.stays hv).2.trans hvw)
    · exact Or.inr hww
  waiting := by
    intro hw
    rcases h'.waiting hw with hv | hroom
    · rcases h.waiting hv with hu | hroom
      · exact Or.inl hu
      · exact Or.inr (hwaits _ _ hroom)
    · rw [h.client, h.sink] at hroom
      exact Or.inr hroom
  solid := fun hu => h'.solid (h.solid hu)

theorem Grows.trans {a b c : Actor E} (h : Grows a b) (h' : Grows b c) : Grows a c where
  length := h'.length.trans h.length
  moves := by
    intro i u w hu hw
    have hi : i < b.viewers.length := by
      rw [h.length]
      exact (List.getElem?_eq_some_iff.mp hu).1
    obtain ⟨v, hv⟩ : ∃ v, b.viewers[i]? = some v := ⟨_, List.getElem?_eq_getElem hi⟩
    exact (h.moves i u v hu hv).trans (h'.moves i v w hv hw) h'.waits
  closed := fun s => (h'.closed s).trans (h.closed s)
  waits := fun client sink hw => h'.waits client sink (h.waits client sink hw)
  drained := h'.drained.trans h.drained
  serials := h'.serials.trans h.serials
  numbered := fun built hb => h'.numbered built (h.numbered built hb)

theorem Grows.of_same {a a' : Actor E} (hviewers : a'.viewers = a.viewers)
    (hsinks : a'.sinks = a.sinks) (hwaits : a'.waits = a.waits) (hdrained : a'.drained = a.drained)
    (hserials : a'.nextSerial = a.nextSerial)
    (hnumbered : ∀ built ∈ a.numbered, built ∈ a'.numbered) : Grows a a' where
  length := by rw [hviewers]
  moves := by
    intro i v v' hv hv'
    rw [hviewers, hv] at hv'
    exact Option.some.inj hv' ▸ Moves.rfl v fun s => by rw [hsinks]
  closed := fun s => by rw [hsinks]
  waits := fun client sink hw => by rwa [Waits, hwaits, hsinks]
  drained := hdrained
  serials := hserials
  numbered := hnumbered

theorem Grows.rfl (a : Actor E) : Grows a a :=
  Grows.of_same (Eq.refl _) (Eq.refl _) (Eq.refl _) (Eq.refl _) (Eq.refl _) fun _ h => h

theorem Grows.of_set {a a' : Actor E} {i : Nat} {v w : Viewer} (hv : a.viewers[i]? = some v)
    (hviewers : a'.viewers = a.viewers.set i w) (hmoves : Moves a a' v w)
    (hclosed : ∀ s, (a'.sinks s).closed = (a.sinks s).closed) (hwaits : ∀ client sink, a.Waits client sink → a'.Waits client sink)
    (hdrained : a'.drained = a.drained) (hserials : a'.nextSerial = a.nextSerial)
    (hnumbered : ∀ built ∈ a.numbered, built ∈ a'.numbered) : Grows a a' where
  length := by rw [hviewers, List.length_set]
  moves := by
    intro j u u' hu hu'
    rw [hviewers, List.getElem?_set] at hu'
    split at hu'
    · rename_i hij
      subst hij
      rw [hv] at hu
      obtain rfl := Option.some.inj hu
      rw [if_pos (List.getElem?_eq_some_iff.mp hv).1] at hu'
      exact Option.some.inj hu' ▸ hmoves
    · rw [hu] at hu'
      exact Option.some.inj hu' ▸ Moves.rfl u hclosed
  closed := hclosed
  waits := hwaits
  drained := hdrained
  serials := hserials
  numbered := hnumbered

theorem setSink_waits {a : Actor E} {id : SinkId} {s : Sink}
    (h : s.capacity = (a.sinks id).capacity) {client : ClientId} {sink : SinkId}
    (hw : a.Waits client sink) : (a.setSink id s).Waits client sink := by
  obtain ⟨room, hmem, hle⟩ := hw
  refine ⟨room, hmem, ?_⟩
  simp only [setSink]
  split
  · rename_i hj
    rwa [h, ← hj]
  · exact hle

theorem setSink_closed {a : Actor E} {id : SinkId} {s : Sink}
    (h : s.closed = (a.sinks id).closed) (j : SinkId) :
    ((a.setSink id s).sinks j).closed = (a.sinks j).closed := by
  simp only [setSink]
  split
  · rename_i hj
    rw [h, hj]
  · rfl

/-- What `waitForRoom` makes of the actor: the viewer waits, by an old task or a
new one. -/
theorem waitForRoom_eq {a : Actor E} {i : Nat} {v : Viewer} (hv : a.viewers[i]? = some v) :
    ∃ waits, (∀ w ∈ a.waits, w ∈ waits) ∧
      (v.waiting = true ∨ ∃ room, (v.client, v.sink, room) ∈ waits ∧
        room ≤ max 1 ((a.sinks v.sink).capacity / 2)) ∧
      a.waitForRoom i = { a.setViewer i { v with waiting := true } with waits := waits } := by
  unfold waitForRoom
  rw [hv]
  simp only
  split
  · rename_i hwaiting
    refine ⟨a.waits, fun _ h => h, Or.inl hwaiting, ?_⟩
    have hsame : { v with waiting := true } = v := by rw [← hwaiting]
    have hset : a.viewers.set i v = a.viewers := by
      obtain ⟨hi, hvi⟩ := List.getElem?_eq_some_iff.mp hv
      rw [← hvi, List.set_getElem_self]
    rw [hsame, setViewer, hset]
  · refine ⟨_, fun w hw => List.mem_append_left _ hw, Or.inr ?_, Eq.refl _⟩
    refine ⟨_, List.mem_append_right _ (List.mem_singleton.mpr (Eq.refl _)), ?_⟩
    split
    · omega
    · split <;> omega

theorem waitForRoom_grows {a : Actor E} {i : Nat} {v : Viewer} (hv : a.viewers[i]? = some v)
    (hlost : v.lost = false) : Grows a (a.waitForRoom i) := by
  obtain ⟨waits, hsub, hwait, heq⟩ := waitForRoom_eq hv
  rw [heq]
  refine Grows.of_set hv (Eq.refl _) ?_ (fun _ => Eq.refl _)
    (fun _ _ ⟨room, hmem, hle⟩ => ⟨room, hsub _ hmem, hle⟩) (Eq.refl _) (Eq.refl _)
    fun _ h => h
  refine ⟨Eq.refl _, Eq.refl _, Eq.refl _, by simp [hlost], by simp, fun _ => hwait, ?_⟩
  intro h
  simpa [droppable, setViewer] using h

theorem enqueue_grows {a : Actor E} {i : Nat} {v : Viewer} (hv : a.viewers[i]? = some v)
    (hlost : v.lost = false) (out : Outbound) : Grows a (a.enqueue i v out) := by
  obtain ⟨hi, -⟩ := List.getElem?_eq_some_iff.mp hv
  unfold enqueue
  simp only
  generalize hw : (if a.queuedMaxBytes < satAdd 64 v.queuedBytes out.wire then _ else _) = w
  have hset : (a.setViewer i w).viewers[i]? = some w := by
    simp [setViewer, hi]
  obtain ⟨waits, hsub, hwait, heq⟩ := waitForRoom_eq hset
  have hkept : w.client = v.client ∧ w.sink = v.sink ∧ w.serial = v.serial ∧
      w.waiting = v.waiting ∧ (w.lost = true ∨ w.queued ≠ []) := by
    rw [← hw]
    split <;> simp
  obtain ⟨hclient, hsink, hserial, hwaiting, hsolid⟩ := hkept
  rw [heq]
  refine Grows.of_set (w := { w with waiting := true }) hv ?_ ?_ (fun _ => Eq.refl _)
    (fun _ _ ⟨room, hmem, hle⟩ => ⟨room, hsub _ hmem, hle⟩) (Eq.refl _) (Eq.refl _) fun _ h => h
  · simp [setViewer]
  · refine ⟨hserial, hclient, hsink, by simp [hlost], by simp, ?_, ?_⟩
    · intro _
      rw [← hclient, ← hsink, ← hwaiting]
      exact hwait
    · intro _
      rcases hsolid with hl | hq
      · simp [droppable, hl]
      · simp [droppable, hq]

theorem trySend_sent {s t : Sink} {out : Outbound} (h : s.trySend out = .sent t) :
    s.closed = false ∧ s.buffer.length < s.capacity ∧
      t = { s with buffer := s.buffer ++ [out] } := by
  unfold Sink.trySend at h
  split at h
  · simp at h
  · rename_i hopen
    split at h
    · rename_i hroom
      refine ⟨by simpa using hopen, hroom, ?_⟩
      exact (TrySend.sent.inj h).symm
    · simp at h

theorem trySend_closed {s : Sink} {out : Outbound} (h : s.trySend out = .closed) :
    s.closed = true := by
  unfold Sink.trySend at h
  split at h
  · assumption
  · split at h <;> simp at h

/-- A change of one viewer that neither drops its queue nor ends its wait. -/
theorem setViewer_grows {a : Actor E} {i : Nat} {v w : Viewer} (hv : a.viewers[i]? = some v)
    (hserial : w.serial = v.serial) (hclient : w.client = v.client) (hsink : w.sink = v.sink)
    (hlost : w.lost = v.lost) (hwaiting : w.waiting = v.waiting) (hqueued : w.queued = v.queued) :
    Grows a (a.setViewer i w) := by
  refine Grows.of_set hv (Eq.refl _) ?_ (fun _ => Eq.refl _) (fun _ _ h => h) (Eq.refl _)
    (Eq.refl _) fun _ h => h
  refine ⟨hserial, hclient, hsink, fun h => ⟨hlost ▸ h, hwaiting⟩, fun h => Or.inl (hlost ▸ h),
    fun h => Or.inl (hwaiting ▸ h), ?_⟩
  intro h
  simpa [droppable, setViewer, hsink, hlost, hqueued] using h

/-- Viewer `i` was handed events, and is reported gone only if it is. -/
structure Handed (i : Nat) (a : Actor E) (r : Actor E × Bool) : Prop where
  grows : Grows a r.1
  gone : r.2 = false → ∃ v, r.1.viewers[i]? = some v ∧ r.1.droppable v = true

theorem Handed.rfl (i : Nat) (a : Actor E) : Handed i a (a, true) :=
  ⟨Grows.rfl a, by simp⟩

theorem Handed.of_grows {i : Nat} {a b : Actor E} {r : Actor E × Bool} (h : Grows a b)
    (h' : Handed i b r) : Handed i a r :=
  ⟨h.trans h'.grows, h'.gone⟩

theorem deliver_handed (a : Actor E) (i : Nat) (out : Outbound) : Handed i a (a.deliver i out) := by
  unfold deliver
  split
  · exact Handed.rfl i a
  · rename_i v hv
    split
    · exact Handed.rfl i a
    · rename_i hlost
      have hlost' : v.lost = false := by simpa using hlost
      split
      · rename_i hempty
        split
        · rename_i s hs
          obtain ⟨hopen, -, rfl⟩ := trySend_sent hs
          refine ⟨?_, by simp⟩
          have hwaits : ∀ client sink, a.Waits client sink → (a.setSink v.sink
              { a.sinks v.sink with buffer := (a.sinks v.sink).buffer ++ [out] }).Waits client sink :=
            fun _ _ h => setSink_waits (by rfl) h
          refine Grows.of_set hv (Eq.refl _) ?_ (setSink_closed (Eq.refl _)) hwaits (Eq.refl _)
            (Eq.refl _) fun _ h => h
          refine ⟨Eq.refl _, Eq.refl _, Eq.refl _, fun h => ⟨h, Eq.refl _⟩, Or.inl, Or.inl, ?_⟩
          intro _
          simp [droppable, setViewer, setSink, hopen]
        · rename_i hs
          refine ⟨Grows.rfl a, fun _ => ⟨v, hv, ?_⟩⟩
          simp [droppable, trySend_closed hs, hlost', hempty]
        · exact ⟨enqueue_grows hv hlost' out, by simp⟩
      · exact ⟨enqueue_grows hv hlost' out, by simp⟩

/-- What is handed over one after the other, up to the first the viewer is gone
for. -/
theorem Handed.andThen {i : Nat} {a : Actor E} {r : Actor E × Bool}
    {next : Actor E → Actor E × Bool} (h : Handed i a r) (hnext : ∀ b, Handed i b (next b)) :
    Handed i a (Actor.andThen r next) := by
  obtain ⟨b, open'⟩ := r
  cases open' with
  | true => exact Handed.of_grows h.grows (hnext b)
  | false => exact h

theorem deliverAll_handed (a : Actor E) (i : Nat) (outs : List Outbound) :
    Handed i a (a.deliverAll i outs) := by
  induction outs generalizing a with
  | nil => exact Handed.rfl i a
  | cons out rest ih => exact (deliver_handed a i out).andThen ih

theorem deliverMarker_handed (a : Actor E) (i : Nat) : Handed i a (a.deliverMarker size i) := by
  have hmarked : Grows a { a with nextMarker := (a.nextMarker + 1) % 2 ^ 64 } :=
    Grows.of_same (Eq.refl _) (Eq.refl _) (Eq.refl _) (Eq.refl _) (Eq.refl _) fun _ h => h
  unfold deliverMarker
  simp only
  split
  · exact ⟨hmarked, by simp⟩
  · refine Handed.of_grows (hmarked.trans ?_) (deliver_handed _ i _)
    split
    · rename_i v hv
      exact setViewer_grows hv rfl rfl rfl rfl rfl rfl
    · exact Grows.rfl _

theorem deliverFrame_handed (a : Actor E) (i : Nat) (frame : Outbound) :
    Handed i a (a.deliverFrame size i frame) := by
  unfold deliverFrame
  split
  · exact Handed.rfl i a
  · rename_i v hv
    split
    · exact Handed.rfl i a
    · have hreach : Grows a (a.setViewer i { v with reach := (v.reach.frame frame.wire).1 }) :=
        setViewer_grows hv rfl rfl rfl rfl rfl rfl
      have hclaimed := Handed.of_grows hreach
        (deliver_handed _ i (frame.claimed v))
      refine hclaimed.andThen fun b => ?_
      split
      · exact Handed.rfl i b
      · exact deliverMarker_handed b i

theorem offerFrame_handed (images : List Outbound) (frame : Outbound) (a : Actor E) (i : Nat) :
    Handed i a (offerFrame size images frame a i) := by
  unfold offerFrame
  split
  · exact Handed.rfl i a
  · rename_i v hv
    split
    · exact Handed.rfl i a
    · split
      · exact ⟨setViewer_grows hv rfl rfl rfl rfl rfl rfl, by simp⟩
      · exact (deliverAll_handed a i images).andThen fun b => deliverFrame_handed b i frame

theorem deliverWhole_handed (whole : Whole) (a : Actor E) (i : Nat) :
    Handed i a (deliverWhole size whole a i) := by
  unfold deliverWhole
  split
  · exact Handed.rfl i a
  · rename_i v hv
    have hfresh : Grows a (a.setViewer i { v with stale := false }) :=
      setViewer_grows hv rfl rfl rfl rfl rfl rfl
    exact (Handed.of_grows hfresh (deliverAll_handed _ i whole.images)).andThen
      fun b => deliverFrame_handed b i whole.frame

theorem tellWhole_handed (whole : Except (Option Outbound) Whole) (a : Actor E) (i : Nat) :
    Handed i a (tellWhole size whole a i) := by
  unfold tellWhole
  split
  · exact deliverWhole_handed _ a i
  · exact Handed.rfl i a
  · exact deliver_handed a i _

theorem deliverInOrder_handed (out : Outbound) (afterScreen : Bool) (a : Actor E) (i : Nat) :
    Handed i a (deliverInOrder out afterScreen a i) := by
  unfold deliverInOrder
  simp only
  split
  · exact Handed.rfl i a
  · rename_i v hv
    split
    · exact ⟨setViewer_grows hv rfl rfl rfl rfl rfl rfl, by simp⟩
    · exact deliver_handed a i out

theorem releaseOne_handed (a : Actor E) (i : Nat) : Handed i a (a.releaseOne i) := by
  unfold releaseOne
  split
  · exact Handed.rfl i a
  · split
    · exact Handed.rfl i a
    · rename_i v hv
      have hreleased : Grows a (a.setViewer i { v with afterScreen := [] }) :=
        setViewer_grows hv rfl rfl rfl rfl rfl rfl
      exact Handed.of_grows hreleased (deliverAll_handed _ i v.afterScreen)

theorem Grows.getElem? {a b : Actor E} (h : Grows a b) {i : Nat} {v : Viewer}
    (hv : a.viewers[i]? = some v) : ∃ w, b.viewers[i]? = some w ∧ Moves a b v w := by
  have hi : i < b.viewers.length := by
    rw [h.length]
    exact (List.getElem?_eq_some_iff.mp hv).1
  have hw := List.getElem?_eq_getElem hi
  exact ⟨_, hw, h.moves i v _ hv hw⟩

theorem Grows.getElem?_symm {a b : Actor E} (h : Grows a b) {i : Nat} {w : Viewer}
    (hw : b.viewers[i]? = some w) : ∃ v, a.viewers[i]? = some v ∧ Moves a b v w := by
  have hi : i < a.viewers.length := by
    rw [← h.length]
    exact (List.getElem?_eq_some_iff.mp hw).1
  have hv := List.getElem?_eq_getElem hi
  exact ⟨_, hv, h.moves i _ w hv hw⟩

/-- How a viewer is told from the others. -/
def ident (v : Viewer) : Nat × ClientId := (v.serial, v.client)

theorem Grows.idents {a b : Actor E} (h : Grows a b) :
    b.viewers.map ident = a.viewers.map ident := by
  refine List.ext_getElem (by simp [h.length]) ?_
  intro i hi hi'
  rw [List.length_map] at hi hi'
  have hmoves := h.moves i _ _ (List.getElem?_eq_getElem hi') (List.getElem?_eq_getElem hi)
  simp [ident, hmoves.serial, hmoves.client]

/-- Events are handed out and those found gone leave. -/
structure Sheds (a b : Actor E) : Prop where
  moves : ∀ w ∈ b.viewers, ∃ v ∈ a.viewers, Moves a b v w
  idents : (b.viewers.map ident).Subperm (a.viewers.map ident)
  closed : ∀ s, (b.sinks s).closed = (a.sinks s).closed
  waits : ∀ client sink, a.Waits client sink → b.Waits client sink
  drained : b.drained = a.drained
  serials : b.nextSerial = a.nextSerial
  numbered : ∀ built ∈ a.numbered, built ∈ b.numbered

theorem Grows.sheds {a b : Actor E} (h : Grows a b) : Sheds a b where
  moves := by
    intro w hw
    obtain ⟨i, hi⟩ := List.mem_iff_getElem?.mp hw
    obtain ⟨v, hv, hmoves⟩ := h.getElem?_symm hi
    exact ⟨v, List.mem_of_getElem? hv, hmoves⟩
  idents := by rw [h.idents]
  closed := h.closed
  waits := h.waits
  drained := h.drained
  serials := h.serials
  numbered := h.numbered

theorem Sheds.of_same {a b : Actor E} (hviewers : b.viewers = a.viewers)
    (hsinks : b.sinks = a.sinks) (hwaits : b.waits = a.waits) (hdrained : b.drained = a.drained)
    (hserials : b.nextSerial = a.nextSerial)
    (hnumbered : ∀ built ∈ a.numbered, built ∈ b.numbered) : Sheds a b :=
  (Grows.of_same hviewers hsinks hwaits hdrained hserials hnumbered).sheds

theorem Sheds.rfl (a : Actor E) : Sheds a a := (Grows.rfl a).sheds

theorem Sheds.trans {a b c : Actor E} (h : Sheds a b) (h' : Sheds b c) : Sheds a c where
  moves := by
    intro w hw
    obtain ⟨v, hv, hvw⟩ := h'.moves w hw
    obtain ⟨u, hu, huv⟩ := h.moves v hv
    exact ⟨u, hu, huv.trans hvw h'.waits⟩
  idents := h'.idents.trans h.idents
  closed := fun s => (h'.closed s).trans (h.closed s)
  waits := fun client sink hw => h'.waits client sink (h.waits client sink hw)
  drained := h'.drained.trans h.drained
  serials := h'.serials.trans h.serials
  numbered := fun built hb => h'.numbered built (h.numbered built hb)

theorem removeOne_of_some {a : Actor E} {i : Nat} {v : Viewer} (hv : a.viewers[i]? = some v) :
    (a.removeOne i).viewers = swapRemove a.viewers i ∧ (a.removeOne i).sinks = a.sinks := by
  simp [removeOne, hv]

theorem removeOne_sheds (a : Actor E) (i : Nat) : Sheds a (a.removeOne i) := by
  unfold removeOne
  split
  · exact Sheds.rfl a
  · rename_i v hv
    have hperm := swapRemove_perm (List.getElem?_eq_some_iff.mp hv).1
    have hsub : (swapRemove a.viewers i).Subperm a.viewers :=
      ⟨_, hperm.symm, List.eraseIdx_sublist _ _⟩
    refine ⟨?_, ?_, fun _ => Eq.refl _, fun _ _ h => h, Eq.refl _, Eq.refl _, fun _ h => h⟩
    · intro w hw
      exact ⟨w, hsub.subset hw, Moves.rfl w fun _ => Eq.refl _⟩
    · exact ⟨_, (hperm.map ident).symm, (List.eraseIdx_sublist _ _).map ident⟩

theorem remove_sheds (a : Actor E) (gone : List Nat) : Sheds a (a.remove gone) := by
  unfold remove
  induction gone.reverse generalizing a with
  | nil => exact Sheds.rfl a
  | cons i rest ih => exact (removeOne_sheds a i).trans (ih _)

/-- Giving a task to the viewers in turn hands out events, and notes some whose
sinks are closed. -/
theorem visit_handed {task : Actor E → Nat → Actor E × Bool}
    (htask : ∀ a i, Handed i a (task a i)) (indices : List Nat) (a : Actor E) :
    Grows a (visit task indices a).1 ∧ (visit task indices a).2.Sublist indices ∧
      ∀ j ∈ (visit task indices a).2, ∃ b v, Grows a b ∧ Grows b (visit task indices a).1 ∧
        b.viewers[j]? = some v ∧ b.droppable v = true := by
  induction indices generalizing a with
  | nil => exact ⟨Grows.rfl a, List.Sublist.refl _, by simp [visit]⟩
  | cons i rest ih =>
      have hhanded := htask a i
      obtain ⟨hgrows, hsub, hall⟩ := ih (task a i).1
      have hall' : ∀ j ∈ (visit task rest (task a i).1).2, ∃ b v, Grows a b ∧
          Grows b (visit task rest (task a i).1).1 ∧ b.viewers[j]? = some v ∧
          b.droppable v = true := by
        intro j hj
        obtain ⟨b, v, hb, hrest⟩ := hall j hj
        exact ⟨b, v, hhanded.grows.trans hb, hrest⟩
      refine ⟨hhanded.grows.trans hgrows, ?_⟩
      simp only [visit]
      cases hkept : (task a i).2 with
      | true => exact ⟨hsub.cons i, hall'⟩
      | false =>
          obtain ⟨v, hv, hdrop⟩ := hhanded.gone hkept
          refine ⟨hsub.cons_cons i, ?_⟩
          intro j hj
          rcases List.mem_cons.mp hj with rfl | hj
          · exact ⟨_, v, hhanded.grows, hgrows, hv, hdrop⟩
          · exact hall' j hj

theorem eachViewer_sheds {task : Actor E → Nat → Actor E × Bool}
    (htask : ∀ a i, Handed i a (task a i)) (a : Actor E) (indices : List Nat) :
    Sheds a (a.eachViewer task indices) :=
  (visit_handed htask indices a).1.sheds.trans (remove_sheds _ _)

theorem engine_grows (a : Actor E) (owed : Bool) (engine : E.State) (more : List (Option Frame)) :
    Grows a { a with owed := owed, engine := engine, numbered := a.numbered ++ more } :=
  Grows.of_same (Eq.refl _) (Eq.refl _) (Eq.refl _) (Eq.refl _) (Eq.refl _)
    fun _ h => List.mem_append_left _ h

theorem engine_same_grows (a : Actor E) (owed : Bool) (engine : E.State) :
    Grows a { a with owed := owed, engine := engine } :=
  Grows.of_same (Eq.refl _) (Eq.refl _) (Eq.refl _) (Eq.refl _) (Eq.refl _) fun _ h => h

theorem wholeFrame_grows (a : Actor E) : Grows a (a.wholeFrame size).1 := by
  unfold wholeFrame
  split
  simp only
  split
  · exact engine_same_grows a a.owed _
  · split <;> exact engine_same_grows a a.owed _

/-- A property that handing out events keeps, also where those found gone leave. -/
structure Keeps (P : Actor E → Prop) : Prop where
  grows : ∀ {a b}, Grows a b → P a → P b
  each : ∀ {task : Actor E → Nat → Actor E × Bool}, (∀ a i, Handed i a (task a i)) →
    ∀ {a} {indices : List Nat}, indices.Pairwise (· < ·) → P a → P (a.eachViewer task indices)

namespace Keeps

variable {P : Actor E → Prop} (h : Keeps P)

include h

theorem sendFrame {a : Actor E} (ha : P a) (frame : Frame) : P (a.sendFrame size frame) := by
  have hdrained := h.grows (engine_same_grows a a.owed (E.drainImages a.engine).2) ha
  unfold Actor.sendFrame
  simp only
  split
  · exact hdrained
  · exact h.each (offerFrame_handed _ _) List.pairwise_lt_range hdrained

theorem sendWholeFrames {a : Actor E} (ha : P a) : P (a.sendWholeFrames size) := by
  unfold Actor.sendWholeFrames
  simp only
  split
  · exact ha
  · exact h.each (tellWhole_handed _) (List.pairwise_lt_range.filter _)
      (h.grows (wholeFrame_grows a) ha)

theorem releaseAfterScreen {a : Actor E} (ha : P a) : P a.releaseAfterScreen :=
  h.each releaseOne_handed List.pairwise_lt_range ha

theorem broadcastEvent {a : Actor E} (ha : P a) (ev : TermEvent) (afterScreen : Bool) :
    P (a.broadcastEvent size ev afterScreen) := by
  unfold Actor.broadcastEvent
  split
  · exact ha
  · split
    · exact ha
    · exact h.each (deliverInOrder_handed _ _) List.pairwise_lt_range ha

theorem sendBuilt {a : Actor E} (ha : P a) (built : Except String (Option Frame))
    (engine : E.State) (tell : Bool) : P (a.sendBuilt size built engine tell) := by
  have hengine := h.grows (engine_grows a a.owed engine (a.numbers built engine)) ha
  simp only [Actor.sendBuilt]
  split
  · exact h.sendFrame hengine _
  · exact hengine
  · split
    · exact h.broadcastEvent hengine _ false
    · exact hengine

theorem flushDiff {a : Actor E} (ha : P a) : P (a.flushDiff size) := by
  have hsame : ∀ owed engine, P { a with owed := owed, engine := engine } :=
    fun owed engine => h.grows (engine_same_grows a owed engine) ha
  simp only [Actor.flushDiff]
  split
  · exact hsame _ _
  · split
    · exact h.sendBuilt (hsame false a.engine) _ _ true
    · exact hsame true a.engine

theorem flushFrame {a : Actor E} (ha : P a) : P (a.flushFrame size) :=
  h.releaseAfterScreen (h.sendWholeFrames (h.flushDiff ha))

theorem sendFull {a : Actor E} (ha : P a) : P (a.sendFull size) := by
  simp only [Actor.sendFull]
  split
  · exact ha
  · exact h.sendBuilt ha _ _ false

theorem applySize {a : Actor E} (ha : P a) (newSize : TermSize) : P (a.applySize size newSize) := by
  have hresized := h.grows (engine_same_grows a a.owed (E.resize a.engine newSize).2) ha
  simp only [Actor.applySize]
  split
  · exact ha
  · split
    · exact hresized
    · exact h.sendFull (h.broadcastEvent hresized _ false)

end Keeps

theorem sheds_keeps (a : Actor E) : Keeps fun b => Sheds a b where
  grows := fun hgrows h => h.trans hgrows.sheds
  each := fun htask _ indices _ h => h.trans (eachViewer_sheds htask _ indices)

theorem flushFrame_sheds (a : Actor E) : Sheds a (a.flushFrame size) :=
  (sheds_keeps a).flushFrame (Sheds.rfl a)

theorem broadcast_sheds (a : Actor E) (ev : TermEvent) : Sheds a (a.broadcast size ev) :=
  (sheds_keeps a).broadcastEvent (Sheds.rfl a) ev false

theorem sendTo_grows (a : Actor E) (client : ClientId) (ev : TermEvent) :
    Grows a (a.sendTo size client ev) := by
  unfold sendTo
  split
  · exact Grows.rfl a
  · split
    · exact Grows.rfl a
    · exact (deliverInOrder_handed _ _ a _).grows

theorem frameRoom_sheds (a : Actor E) (paced : Bool) : Sheds a (a.frameRoom size paced) := by
  unfold frameRoom
  split
  · exact flushFrame_sheds a
  · exact Sheds.rfl a

theorem sendWhole_handed (a : Actor E) (i : Nat) : Handed i a (a.sendWhole size i) :=
  Handed.of_grows (wholeFrame_grows a) (tellWhole_handed _ _ i)

theorem oweWhole_sheds (a : Actor E) (i : Nat) : Sheds a (a.oweWhole size i) := by
  unfold oweWhole
  split
  · exact Sheds.rfl a
  · rename_i v hv
    have hstale : Grows a (a.setViewer i { v with stale := true }) :=
      setViewer_grows hv rfl rfl rfl rfl rfl rfl
    simp only
    split
    · have hwhole := (Handed.of_grows hstale (@sendWhole_handed E size _ i)).grows.sheds
      split
      · rename_i b hb
        rwa [hb] at hwhole
      · rename_i b hb
        rw [hb] at hwhole
        exact hwhole.trans (remove_sheds b [i])
    · exact hstale.sheds

theorem tellStanding_grows (a : Actor E) (client : ClientId) :
    Grows a (a.tellStanding size client) := by
  unfold tellStanding
  generalize a.standing = events
  induction events generalizing a with
  | nil => exact Grows.rfl a
  | cons ev rest ih => exact (sendTo_grows a client ev).trans (ih _)

theorem tellScreen_sheds (a : Actor E) (client : ClientId) : Sheds a (a.tellScreen size client) := by
  unfold tellScreen
  split
  · exact oweWhole_sheds a _
  · exact Sheds.rfl a

theorem tellExit_grows (a : Actor E) (client : ClientId) : Grows a (a.tellExit size client) := by
  unfold tellExit
  split
  · split
    · exact (deliverInOrder_handed _ _ a _).grows
    · exact Grows.rfl a
  · exact Grows.rfl a

theorem introduce_sheds (a : Actor E) (client : ClientId) : Sheds a (a.introduce size client) :=
  ((tellStanding_grows a client).sheds.trans (tellScreen_sheds _ client)).trans
    (tellExit_grows _ client).sheds

theorem applySize_sheds (a : Actor E) (newSize : TermSize) : Sheds a (a.applySize size newSize) :=
  (sheds_keeps a).applySize (Sheds.rfl a) newSize

theorem updateClient_grows (a : Actor E) (client : ClientId) {f : Viewer → Viewer}
    (hserial : ∀ v, (f v).serial = v.serial) (hclient : ∀ v, (f v).client = v.client)
    (hsink : ∀ v, (f v).sink = v.sink) (hlost : ∀ v, (f v).lost = v.lost)
    (hwaiting : ∀ v, (f v).waiting = v.waiting) (hqueued : ∀ v, (f v).queued = v.queued) :
    Grows a (a.updateClient client f) := by
  unfold updateClient
  split
  · exact Grows.rfl a
  · split
    · exact Grows.rfl a
    · rename_i v hv
      exact setViewer_grows hv (hserial v) (hclient v) (hsink v) (hlost v) (hwaiting v) (hqueued v)

theorem onViewerGone_sheds (a : Actor E) (client : ClientId) :
    Sheds a (a.onViewerGone size client) := by
  have hsame : ∀ driver, Grows a { a with orphan := none, driver := driver } :=
    fun driver => Grows.of_same rfl rfl rfl rfl rfl fun _ h => h
  unfold onViewerGone
  split
  · simp only
    split
    · exact (hsame none).sheds
    · rename_i next _
      exact ((hsame (some next.client)).trans (sendTo_grows _ next.client _)).sheds.trans
        (applySize_sheds _ _)
  · exact Sheds.rfl a

theorem reserve_grows (a : Actor E) (client : ClientId) : Grows a (a.reserve size client) := by
  have hsame : Grows a { a with orphan := none, driver := some client } :=
    Grows.of_same rfl rfl rfl rfl rfl fun _ h => h
  unfold reserve
  simp only
  split
  · split
    · exact hsame.trans (sendTo_grows _ _ _)
    · exact hsame
  · exact hsame

theorem drive_sheds (a : Actor E) (client : ClientId) (take : Bool) :
    Sheds a (a.drive size client take) := by
  unfold drive
  split
  · have htold := (@reserve_grows E size a client).trans
      (@sendTo_grows E size _ client (.driver true))
    simp only
    split
    · exact htold.sheds.trans (applySize_sheds _ _)
    · exact htold.sheds
  · split
    · have hsame : Grows a { a with driver := none } := Grows.of_same rfl rfl rfl rfl rfl fun _ h => h
      exact (hsame.trans (sendTo_grows _ client _)).sheds
    · exact Sheds.rfl a

theorem resizeRequest_sheds (a : Actor E) (client : ClientId) (newSize : TermSize) :
    Sheds a (a.resizeRequest size client newSize) := by
  have hsize := updateClient_grows a client (f := fun v => { v with size := newSize })
    (fun _ => rfl) (fun _ => rfl) (fun _ => rfl) (fun _ => rfl) (fun _ => rfl) (fun _ => rfl)
  unfold resizeRequest
  simp only
  split
  · exact hsize.sheds.trans (applySize_sheds _ _)
  · exact hsize.sheds

theorem reachedRequest_sheds (a : Actor E) (client : ClientId) (marker : Nat) (paced : Bool) :
    Sheds a (a.reachedRequest size client marker paced) := by
  have hreach := updateClient_grows a client
    (f := fun v => { v with reach := v.reach.answered marker })
    (fun _ => rfl) (fun _ => rfl) (fun _ => rfl) (fun _ => rfl) (fun _ => rfl) (fun _ => rfl)
  exact hreach.sheds.trans (frameRoom_sheds _ paced)

theorem askDriver_grows (a : Actor E) (asker : ClientId) : Grows a (a.askDriver size asker) := by
  have hroll : ∀ (b : Actor E) (roll : RollCall), Grows b { b with roll := some roll } :=
    fun b roll => Grows.of_same rfl rfl rfl rfl rfl fun _ h => h
  have hmarker : Grows a { a with nextMarker := (a.nextMarker + 1) % 2 ^ 64 } :=
    Grows.of_same rfl rfl rfl rfl rfl fun _ h => h
  unfold askDriver
  split
  · exact Grows.rfl a
  · rename_i driver hdriver
    split
    · exact Grows.rfl a
    · split
      · exact hroll a _
      · split
        · exact Grows.rfl a
        · split
          · exact Grows.rfl a
          · simp only
            split
            · exact hmarker
            · refine (hmarker.trans (Grows.trans ?_ (deliver_handed _ _ _).grows)).trans (hroll _ _)
              exact updateClient_grows _ driver (fun _ => rfl) (fun _ => rfl) (fun _ => rfl)
                (fun _ => rfl) (fun _ => rfl) (fun _ => rfl)

theorem word_grows (a : Actor E) (client : ClientId) : Grows a (a.word client) := by
  unfold word
  split
  · exact Grows.of_same rfl rfl rfl rfl rfl fun _ h => h
  · exact Grows.rfl a

theorem typed_grows (a : Actor E) (client : ClientId) : Grows a (a.typed size client) := by
  unfold typed
  split
  · exact word_grows a client
  · exact askDriver_grows a client

theorem rollCallOver_sheds (a : Actor E) : Sheds a (a.rollCallOver size) := by
  have hroll : Grows a { a with roll := none } := Grows.of_same rfl rfl rfl rfl rfl fun _ h => h
  unfold rollCallOver
  split
  · exact Sheds.rfl a
  · rename_i roll _
    simp only
    split
    · exact hroll.sheds
    · split
      · exact hroll.sheds
      · have hdriver : Grows a { a with roll := none, orphan := none, driver := some roll.asker } :=
          Grows.of_same rfl rfl rfl rfl rfl fun _ h => h
        refine Sheds.trans (Grows.sheds ?_) (applySize_sheds _ _)
        exact (hdriver.trans (sendTo_grows _ roll.driver _)).trans (sendTo_grows _ roll.asker _)

theorem childExited_sheds (a : Actor E) (status : Option Nat) :
    Sheds a (a.childExited size status) := by
  have hexited : Sheds a { a with exited := some status } :=
    Sheds.of_same rfl rfl rfl rfl rfl fun _ h => h
  have hflushed := hexited.trans (@flushFrame_sheds E size _)
  unfold childExited
  refine (sheds_keeps a).broadcastEvent ?_ _ true
  generalize Actor.flushFrame size _ = flushed at hflushed ⊢
  simp only
  split
  · refine (sheds_keeps a).broadcastEvent (hflushed.trans ?_) _ false
    exact Sheds.of_same rfl rfl rfl rfl rfl fun _ h => h
  · exact hflushed.trans (Sheds.of_same rfl rfl rfl rfl rfl fun _ h => h)

theorem news_sheds (a : Actor E) (n : News) : Sheds a (a.news size n) := by
  have htell : ∀ (b : Actor E) (ev : TermEvent), Grows a b → Sheds a (b.broadcast size ev) :=
    fun b ev h => h.sheds.trans (broadcast_sheds b ev)
  cases n <;> simp only [news]
  case title text =>
    split
    · exact Sheds.rfl a
    · exact htell _ _ (Grows.of_same rfl rfl rfl rfl rfl fun _ h => h)
  case program reports =>
    split
    · exact Sheds.rfl a
    · exact htell _ _ (Grows.of_same rfl rfl rfl rfl rfl fun _ h => h)
  all_goals exact htell _ _ (Grows.of_same rfl rfl rfl rfl rfl fun _ h => h)

theorem catchUp_sheds (a : Actor E) (client : ClientId) : Sheds a (a.catchUp size client) :=
  (sendTo_grows a client _).sheds.trans (introduce_sheds _ client)

end Actor

end Slopty.Session
