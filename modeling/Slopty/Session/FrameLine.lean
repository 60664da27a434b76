import Mathlib.Data.List.Chain
import Slopty.Session.Handover

/-!
The line of frames of one viewer: those handed to its sink and those waiting for
room in it. Here is what handing it one event does to its line.
-/

namespace Slopty.Session

open Slopty.Lib

variable {E : Engine} {size : TermEvent → Nat}

/-- A frame may come after another: it has every row, or it is the next diff. -/
def follows (f g : Frame) : Prop := g.full = true ∨ g.seq = f.seq + 1

/-- Frames a client can apply one after the other. -/
structure Chained (frames : List Frame) : Prop where
  first : ∀ f ∈ frames.head?, f.full = true
  next : frames.IsChain follows

instance : DecidableRel follows := fun f g =>
  inferInstanceAs (Decidable (g.full = true ∨ g.seq = f.seq + 1))

theorem chained_iff {frames : List Frame} :
    Chained frames ↔ frames.head?.all Frame.full = true ∧ frames.IsChain follows := by
  have hfirst : (∀ f ∈ frames.head?, f.full = true) ↔ frames.head?.all Frame.full = true := by
    cases frames.head? <;> simp
  rw [← hfirst]
  exact ⟨fun h => ⟨h.first, h.next⟩, fun h => ⟨h.1, h.2⟩⟩

instance (frames : List Frame) : Decidable (Chained frames) := decidable_of_iff' _ chained_iff

theorem Chained.nil : Chained [] := ⟨by simp, List.IsChain.nil⟩

theorem Chained.left {l r : List Frame} (h : Chained (l ++ r)) : Chained l where
  first := by
    intro f hf
    refine h.first f ?_
    rw [Option.mem_def] at hf ⊢
    rw [List.head?_append, hf]
    rfl
  next := h.next.left_of_append

theorem Chained.snoc {l : List Frame} {f : Frame} (h : Chained l)
    (hf : f.full = true ∨ ∃ n, l.getLast?.map Frame.seq = some n ∧ f.seq = n + 1) :
    Chained (l ++ [f]) where
  first := by
    intro g hg
    cases l with
    | nil =>
        have hgf : f = g := by simpa using hg
        rcases hf with hfull | ⟨n, hn, -⟩
        · rwa [← hgf]
        · simp at hn
    | cons x rest => exact h.first g (by simpa using hg)
  next := by
    rw [List.isChain_append]
    refine ⟨h.next, List.isChain_singleton f, ?_⟩
    intro g hg f' hf'
    have hff' : f = f' := by simpa using hf'
    subst hff'
    rcases hf with hfull | ⟨n, hn, hseq⟩
    · exact Or.inl hfull
    · right
      rw [Option.mem_def.mp hg] at hn
      rw [hseq, ← Option.some.inj hn]

namespace Viewer

/-- The frames a viewer was handed and those on their way to it. -/
def line (v : Viewer) : List Frame := v.handed ++ framesOf v.queued

/-- A viewer that follows the diffs has the frame numbered `n` last. -/
def Current (n : Nat) (v : Viewer) : Prop :=
  v.stale = false → v.line.getLast?.map Frame.seq = some n

end Viewer

/-- An event that is no frame and holds no place among them. -/
def Outbound.Plain (out : Outbound) : Prop := out.credit = none ∧ framesOf [out] = []

theorem framesOf_append (l r : List Outbound) : framesOf (l ++ r) = framesOf l ++ framesOf r :=
  List.filterMap_append

theorem framesOf_frame {out : Outbound} {f : Frame} (h : out.event = .frame f) :
    framesOf [out] = [f] := by
  simp [framesOf, h]

namespace Actor

/-- The places among the frames in flight of viewer `c` that a sink's events
hold. -/
def claims (a : Actor E) (id : SinkId) (c : Nat) : Nat :=
  ((a.sinks id).buffer ++ (a.sinks id).held).countP fun out => out.credit == some c

theorem inFlight_eq (a : Actor E) (v : Viewer) :
    a.inFlight v =
      (v.queued.countP fun out => out.credit == some v.serial) + a.claims v.sink v.serial := by
  rw [inFlight, claims, List.append_assoc, List.countP_append]

/-- What holds of each viewer between the steps, whatever it waits for. -/
structure Linked (a : Actor E) (v : Viewer) : Prop where
  chained : Chained v.line
  lost : v.lost = true → v.stale = true
  flight : a.inFlight v ≤ framesInFlight
  own : ∀ out ∈ v.queued, ∀ c, out.credit = some c → c = v.serial
  plain : ∀ out ∈ v.afterScreen, out.Plain

/-- Only viewer `i` was handed something. -/
structure Alone (i : Nat) (a b : Actor E) : Prop where
  others : ∀ j, j ≠ i → b.viewers[j]? = a.viewers[j]?
  place : ∀ v, a.viewers[i]? = some v →
    ∃ w, b.viewers[i]? = some w ∧ w.serial = v.serial ∧ w.sink = v.sink
  length : b.viewers.length = a.viewers.length
  claims : ∀ id c, (∀ v, a.viewers[i]? = some v → c ≠ v.serial) → b.claims id c = a.claims id c
  engine : b.engine = a.engine
  numbered : b.numbered = a.numbered
  serials : b.nextSerial = a.nextSerial

theorem Alone.rfl (i : Nat) (a : Actor E) : Alone i a a where
  others := fun _ _ => Eq.refl _
  place := fun v hv => ⟨v, hv, Eq.refl _, Eq.refl _⟩
  length := Eq.refl _
  claims := fun _ _ _ => Eq.refl _
  engine := Eq.refl _
  numbered := Eq.refl _
  serials := Eq.refl _

theorem Alone.trans {i : Nat} {a b c : Actor E} (h : Alone i a b) (h' : Alone i b c) :
    Alone i a c where
  others := fun j hj => (h'.others j hj).trans (h.others j hj)
  place := by
    intro u hu
    obtain ⟨v, hv, hserial, hsink⟩ := h.place u hu
    obtain ⟨w, hw, hserial', hsink'⟩ := h'.place v hv
    exact ⟨w, hw, hserial'.trans hserial, hsink'.trans hsink⟩
  length := h'.length.trans h.length
  claims := by
    intro id k hk
    rw [h'.claims id k, h.claims id k hk]
    intro v hv heq
    have hi : i < a.viewers.length := by
      rw [← h.length]
      exact (List.getElem?_eq_some_iff.mp hv).1
    obtain ⟨w, hw, hserial, -⟩ := h.place _ (List.getElem?_eq_getElem hi)
    rw [hv] at hw
    rw [Option.some.inj hw] at heq
    exact hk _ (List.getElem?_eq_getElem hi) (heq.trans hserial)
  engine := h'.engine.trans h.engine
  numbered := h'.numbered.trans h.numbered
  serials := h'.serials.trans h.serials

/-- The viewer in one place changes, and nothing else the frames depend on. -/
theorem Alone.of_set {i : Nat} {a b : Actor E} {v w : Viewer} (hv : a.viewers[i]? = some v)
    (hviewers : b.viewers = a.viewers.set i w) (hserial : w.serial = v.serial)
    (hsink : w.sink = v.sink) (hclaims : ∀ id c, c ≠ v.serial → b.claims id c = a.claims id c)
    (hengine : b.engine = a.engine) (hnumbered : b.numbered = a.numbered)
    (hserials : b.nextSerial = a.nextSerial) : Alone i a b where
  others := by
    intro j hj
    rw [hviewers, List.getElem?_set_ne (Ne.symm hj)]
  place := by
    intro u hu
    rw [hv] at hu
    obtain rfl := Option.some.inj hu
    refine ⟨w, ?_, hserial, hsink⟩
    rw [hviewers, List.getElem?_set_self (List.getElem?_eq_some_iff.mp hv).1]
  length := by rw [hviewers, List.length_set]
  claims := fun id c hc => hclaims id c (hc v hv)
  engine := hengine
  numbered := hnumbered
  serials := hserials

theorem claims_push {a : Actor E} {sink : SinkId} {out : Outbound} (id : SinkId) (c : Nat) :
    (a.setSink sink { a.sinks sink with buffer := (a.sinks sink).buffer ++ [out] }).claims id c =
      a.claims id c + if id = sink ∧ out.credit = some c then 1 else 0 := by
  simp only [claims, setSink]
  split
  · rename_i hid
    subst hid
    simp only [List.countP_append, List.countP_singleton, beq_iff_eq, true_and]
    omega
  · rename_i hid
    simp [hid]

/-- What handing an event to a viewer that is not lost comes to: it goes into the
sink, or finds the sink closed, or waits behind the others, or drops them all. -/
theorem deliver_cases {a : Actor E} {i : Nat} {v : Viewer} (hv : a.viewers[i]? = some v)
    (hlost : v.lost = false) (out : Outbound) :
    (v.queued = [] ∧ a.deliver i out =
      ((a.setSink v.sink { a.sinks v.sink with buffer := (a.sinks v.sink).buffer ++ [out] }).setViewer i
        { v with handed := v.handed ++ framesOf [out] }, true)) ∨
    a.deliver i out = (a, false) ∨
    ∃ w waits, a.deliver i out = ({ a.setViewer i w with waits := waits }, true) ∧
      w.serial = v.serial ∧ w.sink = v.sink ∧ w.handed = v.handed ∧
      ((w.queued = v.queued ++ [out] ∧ w.stale = v.stale ∧ w.lost = false ∧
          w.afterScreen = v.afterScreen) ∨
        (w.queued = [] ∧ w.stale = true ∧ w.lost = true ∧ w.afterScreen = [])) := by
  obtain ⟨hi, -⟩ := List.getElem?_eq_some_iff.mp hv
  have henqueue : ∃ w waits, a.enqueue i v out = { a.setViewer i w with waits := waits } ∧
      w.serial = v.serial ∧ w.sink = v.sink ∧ w.handed = v.handed ∧
      ((w.queued = v.queued ++ [out] ∧ w.stale = v.stale ∧ w.lost = false ∧
          w.afterScreen = v.afterScreen) ∨
        (w.queued = [] ∧ w.stale = true ∧ w.lost = true ∧ w.afterScreen = [])) := by
    simp only [enqueue]
    generalize hw : (if a.queuedMaxBytes < satAdd 64 v.queuedBytes out.wire then _ else _) = w
    have hset : (a.setViewer i w).viewers[i]? = some w := List.getElem?_set_self hi
    obtain ⟨waits, -, -, heq⟩ := waitForRoom_eq hset
    refine ⟨{ w with waiting := true }, waits, ?_, ?_⟩
    · rw [heq]
      simp [setViewer]
    · rw [← hw]
      split <;> simp [hlost]
  simp only [deliver, hv, hlost, Bool.false_eq_true, if_false]
  split
  · rename_i hempty
    split
    · rename_i s hs
      obtain ⟨-, -, rfl⟩ := trySend_sent hs
      exact Or.inl ⟨List.isEmpty_iff.mp hempty, Eq.refl _⟩
    · exact Or.inr (Or.inl (Eq.refl _))
    · obtain ⟨w, waits, heq, hrest⟩ := henqueue
      exact Or.inr (Or.inr ⟨w, waits, by rw [heq], hrest⟩)
  · obtain ⟨w, waits, heq, hrest⟩ := henqueue
    exact Or.inr (Or.inr ⟨w, waits, by rw [heq], hrest⟩)

/-- What events that are no frames make of a viewer: it loses its queue, or has
its line and its frames in flight as before. -/
def Eases (a b : Actor E) (v w : Viewer) : Prop :=
  w.lost = true ∨
    (w.line = v.line ∧ w.stale = v.stale ∧ w.lost = v.lost ∧ b.inFlight w = a.inFlight v)

/-- Viewer `i`, which was `v`, is `w` now that it alone was handed something. -/
structure Tells (i : Nat) (a b : Actor E) (v w : Viewer) : Prop where
  alone : Alone i a b
  place : b.viewers[i]? = some w
  linked : Linked b w
  eases : Eases a b v w

theorem Tells.current {i n : Nat} {a b : Actor E} {v w : Viewer} (h : Tells i a b v w)
    (hv : v.Current n) : w.Current n := by
  intro hstale
  rcases h.eases with hlost | ⟨hline, hsame, -, -⟩
  · rw [h.linked.lost hlost] at hstale
    simp at hstale
  · rw [hline]
    exact hv (hsame ▸ hstale)

theorem Tells.rfl {i : Nat} {a : Actor E} {v : Viewer} (hv : a.viewers[i]? = some v)
    (hl : Linked a v) : Tells i a a v v :=
  ⟨Alone.rfl i a, hv, hl, Or.inr ⟨Eq.refl _, Eq.refl _, Eq.refl _, Eq.refl _⟩⟩

theorem Tells.trans {i : Nat} {a b c : Actor E} {u v w : Viewer} (h : Tells i a b u v)
    (h' : Tells i b c v w) : Tells i a c u w where
  alone := h.alone.trans h'.alone
  place := h'.place
  linked := h'.linked
  eases := by
    rcases h'.eases with hlost | ⟨hline, hstale, hlost, hflight⟩
    · exact Or.inl hlost
    · rcases h.eases with hlost' | ⟨hline', hstale', hlost', hflight'⟩
      · exact Or.inl (hlost.trans hlost')
      · exact Or.inr ⟨hline.trans hline', hstale.trans hstale', hlost.trans hlost',
          hflight.trans hflight'⟩

/-- A viewer that differs only in what its frames do not depend on. -/
structure Alike (v w : Viewer) : Prop where
  serial : w.serial = v.serial
  sink : w.sink = v.sink
  handed : w.handed = v.handed
  queued : w.queued = v.queued
  lost : w.lost = v.lost

theorem Alike.inFlight {v w : Viewer} (h : Alike v w) {a b : Actor E}
    (hclaims : b.claims v.sink v.serial = a.claims v.sink v.serial) :
    b.inFlight w = a.inFlight v := by
  rw [inFlight_eq, inFlight_eq, h.queued, h.serial, h.sink, hclaims]

theorem Alike.linked {v w : Viewer} (h : Alike v w) {a b : Actor E} (hv : Linked a v)
    (hclaims : b.claims v.sink v.serial = a.claims v.sink v.serial)
    (hstale : w.lost = true → w.stale = true)
    (hplain : ∀ out ∈ w.afterScreen, out.Plain) : Linked b w where
  chained := by
    rw [Viewer.line, h.handed, h.queued]
    exact hv.chained
  lost := hstale
  flight := by
    rw [h.inFlight hclaims]
    exact hv.flight
  own := by
    rw [h.queued, h.serial]
    exact hv.own
  plain := hplain

theorem Linked.of_claims {a b : Actor E} {v : Viewer} (hl : Linked a v)
    (hclaims : b.claims v.sink v.serial = a.claims v.sink v.serial) : Linked b v :=
  Alike.linked ⟨Eq.refl _, Eq.refl _, Eq.refl _, Eq.refl _, Eq.refl _⟩ hl hclaims hl.lost hl.plain

theorem Alike.tells {v w : Viewer} (h : Alike v w) {i : Nat} {a : Actor E}
    (hv : a.viewers[i]? = some v) (hl : Linked a v) (hstale : w.stale = v.stale)
    (hplain : ∀ out ∈ w.afterScreen, out.Plain) : Tells i a (a.setViewer i w) v w where
  alone := Alone.of_set hv (Eq.refl _) h.serial h.sink (fun _ _ _ => Eq.refl _) (Eq.refl _)
    (Eq.refl _) (Eq.refl _)
  place := List.getElem?_set_self (List.getElem?_eq_some_iff.mp hv).1
  linked := h.linked hl (Eq.refl _) (fun hlost => hstale ▸ hl.lost (h.lost ▸ hlost)) hplain
  eases := by
    refine Or.inr ⟨?_, hstale, h.lost, h.inFlight (Eq.refl _)⟩
    rw [Viewer.line, h.handed, h.queued, Viewer.line]

/-- What handing an event over does to the line of a viewer that is not lost. -/
theorem deliver_line {a : Actor E} {i : Nat} {v : Viewer} (hv : a.viewers[i]? = some v)
    (hl : Linked a v) (hlost : v.lost = false) {out : Outbound}
    (hcredit : ∀ c, out.credit = some c → c = v.serial)
    (hroom : a.inFlight v + (if out.credit = some v.serial then 1 else 0) ≤ framesInFlight)
    (hchain : Chained (v.line ++ framesOf [out])) :
    Alone i a (a.deliver i out).1 ∧ ∃ w, (a.deliver i out).1.viewers[i]? = some w ∧
      Linked (a.deliver i out).1 w ∧
      (((a.deliver i out).2 = false ∧ (a.deliver i out).1 = a ∧ w = v) ∨ w.lost = true ∨
        (w.line = v.line ++ framesOf [out] ∧ w.stale = v.stale ∧ w.lost = false ∧
          (a.deliver i out).1.inFlight w =
            a.inFlight v + if out.credit = some v.serial then 1 else 0)) := by
  obtain ⟨hi, -⟩ := List.getElem?_eq_some_iff.mp hv
  rcases deliver_cases hv hlost out with ⟨hempty, heq⟩ | heq | ⟨w, waits, heq, hrest⟩
  · rw [heq]
    have hline : ({ v with handed := v.handed ++ framesOf [out] } : Viewer).line =
        v.line ++ framesOf [out] := by
      simp [Viewer.line, hempty, framesOf]
    have hclaims : ∀ id c, ((a.setSink v.sink
        { a.sinks v.sink with buffer := (a.sinks v.sink).buffer ++ [out] }).setViewer i
        { v with handed := v.handed ++ framesOf [out] }).claims id c =
          a.claims id c + if id = v.sink ∧ out.credit = some c then 1 else 0 := claims_push
    have hflight : ((a.setSink v.sink
        { a.sinks v.sink with buffer := (a.sinks v.sink).buffer ++ [out] }).setViewer i
        { v with handed := v.handed ++ framesOf [out] }).inFlight
          { v with handed := v.handed ++ framesOf [out] } =
        a.inFlight v + if out.credit = some v.serial then 1 else 0 := by
      rw [inFlight_eq, inFlight_eq, hclaims]
      simp only [true_and]
      omega
    refine ⟨?_, _, List.getElem?_set_self hi, ?_, Or.inr (Or.inr ⟨hline, rfl, hlost, hflight⟩)⟩
    · refine Alone.of_set hv rfl rfl rfl ?_ rfl rfl rfl
      intro id c hc
      rw [hclaims, if_neg fun h => hc (hcredit c h.2), Nat.add_zero]
    · refine ⟨?_, hl.lost, ?_, hl.own, hl.plain⟩
      · rwa [hline]
      · rwa [hflight]
  · rw [heq]
    exact ⟨Alone.rfl i a, v, hv, hl, Or.inl ⟨rfl, rfl, rfl⟩⟩
  · obtain ⟨hserial, hsink, hhanded, hqueue⟩ := hrest
    rw [heq]
    refine ⟨Alone.of_set hv rfl hserial hsink (fun _ _ _ => rfl) rfl rfl rfl, w,
      List.getElem?_set_self hi, ?_⟩
    have hclaims : ∀ id c, ({ a.setViewer i w with waits := waits } : Actor E).claims id c =
        a.claims id c := fun _ _ => rfl
    rcases hqueue with ⟨hqueued, hstale, hkept, hafter⟩ | ⟨hqueued, hstale, hdropped, hafter⟩
    · have hline : w.line = v.line ++ framesOf [out] := by
        rw [Viewer.line, Viewer.line, hhanded, hqueued, framesOf_append, List.append_assoc]
      have hflight : ({ a.setViewer i w with waits := waits } : Actor E).inFlight w =
          a.inFlight v + if out.credit = some v.serial then 1 else 0 := by
        rw [inFlight_eq, inFlight_eq, hqueued, hserial, hsink, hclaims, List.countP_append,
          List.countP_singleton]
        simp only [beq_iff_eq]
        omega
      refine ⟨⟨?_, by simp [hkept], ?_, ?_, ?_⟩, Or.inr (Or.inr ⟨hline, hstale, hkept, hflight⟩)⟩
      · rwa [hline]
      · rwa [hflight]
      · intro o ho c hc
        rw [hqueued] at ho
        rw [hserial]
        rcases List.mem_append.mp ho with ho | ho
        · exact hl.own o ho c hc
        · obtain rfl := List.mem_singleton.mp ho
          exact hcredit c hc
      · rw [hafter]
        exact hl.plain
    · refine ⟨⟨?_, fun _ => hstale, ?_, by simp [hqueued], by simp [hafter]⟩,
        Or.inr (Or.inl hdropped)⟩
      · have hline : w.line = v.handed := by simp [Viewer.line, hhanded, hqueued, framesOf]
        rw [hline]
        exact hl.chained.left
      · have hflight := hl.flight
        rw [inFlight_eq] at hflight
        rw [inFlight_eq, hqueued, hserial, hsink, hclaims, List.countP_nil]
        omega

theorem deliver_tells {a : Actor E} {i : Nat} {v : Viewer} (hv : a.viewers[i]? = some v)
    (hl : Linked a v) {out : Outbound} (hout : out.Plain) :
    ∃ w, Tells i a (a.deliver i out).1 v w := by
  cases hlost : v.lost with
  | true =>
      have heq : a.deliver i out = (a, true) := by simp [deliver, hv, hlost]
      rw [heq]
      exact ⟨v, Tells.rfl hv hl⟩
  | false =>
      have hchain : Chained (v.line ++ framesOf [out]) := by
        rw [hout.2, List.append_nil]
        exact hl.chained
      obtain ⟨halone, w, hw, hwl, hcase⟩ := deliver_line hv hl hlost (by simp [hout.1])
        (by simpa [hout.1] using hl.flight) hchain
      refine ⟨w, halone, hw, hwl, ?_⟩
      rcases hcase with ⟨-, heq, rfl⟩ | hdropped | ⟨hline, hstale, hkept, hflight⟩
      · exact Or.inr ⟨rfl, rfl, rfl, by rw [heq]⟩
      · exact Or.inl hdropped
      · refine Or.inr ⟨?_, hstale, hkept.trans hlost.symm, ?_⟩
        · rw [hline, hout.2, List.append_nil]
        · simpa [hout.1] using hflight

theorem deliverAll_tells {outs : List Outbound} (houts : ∀ out ∈ outs, out.Plain) {a : Actor E}
    {i : Nat} {v : Viewer} (hv : a.viewers[i]? = some v) (hl : Linked a v) :
    ∃ w, Tells i a (a.deliverAll i outs).1 v w := by
  induction outs generalizing a v with
  | nil => exact ⟨v, Tells.rfl hv hl⟩
  | cons out rest ih =>
      obtain ⟨u, hu⟩ := deliver_tells hv hl (houts out List.mem_cons_self)
      simp only [deliverAll, andThen]
      split
      · rename_i b hb
        rw [hb] at hu
        obtain ⟨w, hw⟩ := ih (fun o ho => houts o (List.mem_cons_of_mem out ho)) hu.place hu.linked
        exact ⟨w, hu.trans hw⟩
      · rename_i b hb
        rw [hb] at hu
        exact ⟨u, hu⟩

theorem encode_plain {ev : TermEvent} {out : Outbound} (h : encode size ev = some out)
    (hev : ∀ f, ev ≠ .frame f) : out.Plain := by
  simp only [encode] at h
  split at h
  · simp at h
  · obtain rfl := Option.some.inj h
    refine ⟨rfl, ?_⟩
    cases ev <;> simp [framesOf] at hev ⊢

theorem encode_frame {f : Frame} {out : Outbound} (h : encode size (.frame f) = some out) :
    out.event = .frame f ∧ out.credit = none := by
  simp only [encode] at h
  split at h
  · simp at h
  · obtain rfl := Option.some.inj h
    exact ⟨rfl, rfl⟩

theorem deliverMarker_tells {a : Actor E} {i : Nat} {v : Viewer} (hv : a.viewers[i]? = some v)
    (hl : Linked a v) : ∃ w, Tells i a (a.deliverMarker size i).1 v w := by
  have hmarked : Tells i a { a with nextMarker := (a.nextMarker + 1) % 2 ^ 64 } v v :=
    ⟨⟨fun _ _ => rfl, fun v hv => ⟨v, hv, rfl, rfl⟩, rfl, fun _ _ _ => rfl, rfl, rfl, rfl⟩, hv,
      hl.of_claims rfl, Or.inr ⟨rfl, rfl, rfl, rfl⟩⟩
  simp only [deliverMarker]
  split
  · exact ⟨v, hmarked⟩
  · rename_i marker hmarker
    rw [hv]
    have hreach := (Alike.tells (v := v) (w := { v with reach := v.reach.marker a.nextMarker })
      ⟨rfl, rfl, rfl, rfl, rfl⟩ hmarked.place hmarked.linked rfl hl.plain)
    obtain ⟨w, hw⟩ := deliver_tells hreach.place hreach.linked (encode_plain hmarker (by simp))
    exact ⟨w, (hmarked.trans hreach).trans hw⟩

/-- A frame for viewer `i`, which has room for it and the frame before it. -/
theorem deliverFrame_line {a : Actor E} {i : Nat} {v : Viewer} (hv : a.viewers[i]? = some v)
    (hl : Linked a v) {out : Outbound} {f : Frame} (hevent : out.event = .frame f)
    (hroom : v.lost = false → a.inFlight v < framesInFlight)
    (hnext : v.lost = false →
      f.full = true ∨ ∃ n, v.line.getLast?.map Frame.seq = some n ∧ f.seq = n + 1) :
    Alone i a (a.deliverFrame size i out).1 ∧ ∃ w, (a.deliverFrame size i out).1.viewers[i]? = some w ∧
      Linked (a.deliverFrame size i out).1 w ∧
      ((a.deliverFrame size i out).2 = true → w.Current f.seq) := by
  simp only [deliverFrame, hv]
  split
  · rename_i hlost
    refine ⟨Alone.rfl i a, v, hv, hl, ?_⟩
    intro _ hstale
    rw [hl.lost hlost] at hstale
    simp at hstale
  · rename_i hlost
    have hlost' : v.lost = false := by simpa using hlost
    have hreach := Alike.tells (v := v) (w := { v with reach := (v.reach.frame out.wire).1 })
      ⟨rfl, rfl, rfl, rfl, rfl⟩ hv hl rfl hl.plain
    have hframes : framesOf [out.claimed v] = [f] := framesOf_frame hevent
    have hchain : Chained (v.line ++ framesOf [out.claimed v]) := by
      rw [hframes]
      exact hl.chained.snoc (hnext hlost')
    have hclaim : a.inFlight v + (if (out.claimed v).credit = some v.serial then 1 else 0) ≤
        framesInFlight := by
      rw [Outbound.claimed, if_pos rfl]
      exact hroom hlost'
    obtain ⟨halone, w, hw, hwl, hcase⟩ := deliver_line hreach.place hreach.linked hlost'
      (fun c hc => (Option.some.inj hc).symm) hclaim hchain
    have hcurrent : ((a.setViewer i { v with reach := (v.reach.frame out.wire).1 }).deliver i
        (out.claimed v)).2 = true → w.Current f.seq := by
      intro hkept hstale
      rcases hcase with ⟨hgone, -⟩ | hdropped | ⟨hline, -⟩
      · rw [hgone] at hkept
        simp at hkept
      · rw [hwl.lost hdropped] at hstale
        simp at hstale
      · rw [hline, hframes, List.getLast?_append]
        simp
    simp only [andThen]
    split
    · rename_i b hb
      rw [hb] at halone hw hwl hcurrent
      have halone' := hreach.alone.trans halone
      split
      · exact ⟨halone', w, hw, hwl, fun _ => hcurrent rfl⟩
      · obtain ⟨u, hu⟩ := @deliverMarker_tells E size _ _ _ hw hwl
        exact ⟨halone'.trans hu.alone, u, hu.place, hu.linked, fun _ => hu.current (hcurrent rfl)⟩
    · rename_i b hb
      rw [hb] at halone hw hwl
      exact ⟨hreach.alone.trans halone, w, hw, hwl, by simp⟩

end Actor

end Slopty.Session
