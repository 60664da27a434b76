import Slopty.Lib.Run
import Slopty.Session.FrameLine
import Slopty.Session.Watch

/-!
Every viewer's frames chain: they start with a whole frame, each diff is numbered
one above the frame before it, and no more of them are in flight than allowed, as
long as every frame the engine numbers for everyone can be encoded.
-/

namespace Slopty.Session

open Slopty.Lib

variable {E : Engine} {size : TermEvent → Nat}

namespace Actor

/-- What holds of the viewers between any two hand-overs. -/
structure Base (a : Actor E) : Prop where
  linked : ∀ v ∈ a.viewers, Linked a v
  serials : (a.viewers.map Viewer.serial).Nodup
  fresh : ∀ v ∈ a.viewers, v.serial < a.nextSerial
  unclaimed : ∀ id c, a.nextSerial ≤ c → a.claims id c = 0

theorem Alone.map_serial {i : Nat} {a b : Actor E} (h : Alone i a b) :
    b.viewers.map Viewer.serial = a.viewers.map Viewer.serial := by
  refine List.ext_getElem? fun j => ?_
  rw [List.getElem?_map, List.getElem?_map]
  rcases Classical.em (j = i) with rfl | hj
  · cases hv : a.viewers[j]? with
    | none =>
        rw [List.getElem?_eq_none_iff] at hv
        rw [List.getElem?_eq_none (h.length ▸ hv)]
    | some v =>
        obtain ⟨w, hw, hserial, -⟩ := h.place v hv
        simp [hw, hserial]
  · rw [h.others j hj]

theorem Alone.claims_other {i j : Nat} {a b : Actor E} (h : Alone i a b)
    (hserials : (a.viewers.map Viewer.serial).Nodup) (hij : j ≠ i) {v : Viewer}
    (hv : a.viewers[j]? = some v) : b.claims v.sink v.serial = a.claims v.sink v.serial := by
  refine h.claims _ _ ?_
  intro u hu heq
  exact hij (place_unique hserials hv hu heq)

theorem Alone.base {i : Nat} {a b : Actor E} (h : Alone i a b) (ha : Base a)
    (hw : ∀ w, b.viewers[i]? = some w → Linked b w) : Base b where
  linked := by
    intro w hmem
    obtain ⟨j, hj⟩ := List.mem_iff_getElem?.mp hmem
    rcases Classical.em (j = i) with rfl | hij
    · exact hw w hj
    · rw [h.others j hij] at hj
      exact (ha.linked w (List.mem_of_getElem? hj)).of_claims (h.claims_other ha.serials hij hj)
  serials := h.map_serial ▸ ha.serials
  fresh := by
    intro w hmem
    have hserial : w.serial ∈ a.viewers.map Viewer.serial := by
      rw [← h.map_serial]
      exact List.mem_map_of_mem hmem
    obtain ⟨v, hv, heq⟩ := List.mem_map.mp hserial
    rw [h.serials, ← heq]
    exact ha.fresh v hv
  unclaimed := by
    intro id c hc
    rw [h.serials] at hc
    rw [h.claims id c, ha.unclaimed id c hc]
    intro v hv heq
    have hfresh := ha.fresh v (List.mem_of_getElem? hv)
    omega

/-- A task that hands viewer `i` something, if `Pre` holds of it, makes `Post` hold
of it unless it is gone. -/
def Serves (task : Actor E → Nat → Actor E × Bool) (Pre : Actor E → Viewer → Prop)
    (Post : Viewer → Prop) : Prop :=
  ∀ a i v, Base a → a.viewers[i]? = some v → Pre a v →
    Alone i a (task a i).1 ∧ ∃ w, (task a i).1.viewers[i]? = some w ∧
      Linked (task a i).1 w ∧ ((task a i).2 = true → Post w)

/-- A property of a viewer that handing something to another does not touch. -/
def Apart (Pre : Actor E → Viewer → Prop) : Prop :=
  ∀ a b i j v, Base a → Alone i a b → j ≠ i → a.viewers[j]? = some v → Pre a v → Pre b v

theorem visit_serves {task : Actor E → Nat → Actor E × Bool} {Pre : Actor E → Viewer → Prop}
    {Post : Viewer → Prop} (htask : Serves task Pre Post) (hapart : Apart Pre)
    {indices : List Nat} (hnodup : indices.Nodup) {a : Actor E} (ha : Base a)
    (hrange : ∀ i ∈ indices, i < a.viewers.length)
    (hpre : ∀ i ∈ indices, ∀ v, a.viewers[i]? = some v → Pre a v) :
    Base (visit task indices a).1 ∧ (visit task indices a).1.engine = a.engine ∧
      (visit task indices a).1.numbered = a.numbered ∧
      (visit task indices a).1.viewers.length = a.viewers.length ∧
      (visit task indices a).2.Sublist indices ∧
      (∀ j, j ∉ indices → (visit task indices a).1.viewers[j]? = a.viewers[j]?) ∧
      ∀ j ∈ indices, j ∉ (visit task indices a).2 → ∀ w,
        (visit task indices a).1.viewers[j]? = some w → Post w := by
  induction indices generalizing a with
  | nil => exact ⟨ha, rfl, rfl, rfl, List.Sublist.refl _, fun _ _ => rfl, by simp⟩
  | cons i rest ih =>
      rw [List.nodup_cons] at hnodup
      have hi := hrange i List.mem_cons_self
      obtain ⟨halone, w, hw, hlinked, hpost⟩ := htask a i _ ha (List.getElem?_eq_getElem hi)
        (hpre i List.mem_cons_self _ (List.getElem?_eq_getElem hi))
      have hbase : Base (task a i).1 := by
        refine halone.base ha ?_
        intro u hu
        rw [hw] at hu
        exact Option.some.inj hu ▸ hlinked
      have hne : ∀ j ∈ rest, j ≠ i := by
        rintro j hj rfl
        exact hnodup.1 hj
      have hpre' : ∀ j ∈ rest, ∀ v, (task a i).1.viewers[j]? = some v → Pre (task a i).1 v := by
        intro j hj v hv
        rw [halone.others j (hne j hj)] at hv
        exact hapart a _ i j v ha halone (hne j hj) hv (hpre j (List.mem_cons_of_mem i hj) v hv)
      obtain ⟨hb, hengine, hnumbered, hlength, hsub, hothers, hserved⟩ := ih hnodup.2 hbase
        (fun j hj => halone.length ▸ hrange j (List.mem_cons_of_mem i hj)) hpre'
      simp only [visit]
      refine ⟨hb, hengine.trans halone.engine, hnumbered.trans halone.numbered,
        hlength.trans halone.length, ?_, ?_, ?_⟩
      · split
        · exact hsub.cons i
        · exact hsub.cons_cons i
      · intro j hj
        rw [List.mem_cons, not_or] at hj
        rw [hothers j hj.2, halone.others j hj.1]
      · intro j hj hkept u hu
        rcases List.mem_cons.mp hj with rfl | hj
        · have hopen : (task a j).2 = true := by
            by_contra hgone
            rw [if_neg hgone] at hkept
            exact hkept List.mem_cons_self
          rw [hothers j hnodup.1, hw] at hu
          exact Option.some.inj hu ▸ hpost hopen
        · refine hserved j hj ?_ u hu
          intro hmem
          refine hkept ?_
          split
          · exact hmem
          · exact List.mem_cons_of_mem i hmem

theorem removeOne_kept (a : Actor E) (i : Nat) :
    (a.removeOne i).engine = a.engine ∧ (a.removeOne i).numbered = a.numbered ∧
      (a.removeOne i).nextSerial = a.nextSerial ∧ (a.removeOne i).sinks = a.sinks := by
  simp only [removeOne]
  split <;> exact ⟨rfl, rfl, rfl, rfl⟩

theorem remove_kept (a : Actor E) (gone : List Nat) :
    (a.remove gone).engine = a.engine ∧ (a.remove gone).numbered = a.numbered ∧
      (a.remove gone).nextSerial = a.nextSerial ∧ (a.remove gone).sinks = a.sinks := by
  rw [remove]
  induction gone.reverse generalizing a with
  | nil => exact ⟨rfl, rfl, rfl, rfl⟩
  | cons i rest ih =>
      obtain ⟨hengine, hnumbered, hserials, hsinks⟩ := ih (a.removeOne i)
      obtain ⟨hengine', hnumbered', hserials', hsinks'⟩ := removeOne_kept a i
      exact ⟨hengine.trans hengine', hnumbered.trans hnumbered', hserials.trans hserials',
        hsinks.trans hsinks'⟩

theorem Base.of_sheds {a b : Actor E} (ha : Base a) (h : Sheds a b)
    (hmem : ∀ v ∈ b.viewers, v ∈ a.viewers) (hsinks : b.sinks = a.sinks) : Base b where
  linked := by
    intro v hv
    refine (ha.linked v (hmem v hv)).of_claims ?_
    rw [claims, claims, hsinks]
  serials := h.nodup (g := Prod.fst) (fun _ => rfl) ha.serials
  fresh := by
    intro v hv
    rw [h.serials]
    exact ha.fresh v (hmem v hv)
  unclaimed := by
    intro id c hc
    rw [claims, hsinks]
    exact ha.unclaimed id c (h.serials ▸ hc)

/-- Who is left after those at `gone` are dropped stood elsewhere before. -/
theorem mem_remove {a : Actor E} (hserials : (a.viewers.map Viewer.serial).Nodup) {gone : List Nat}
    (hgone : gone.Pairwise (· < ·)) (hrange : ∀ j ∈ gone, j < a.viewers.length) :
    (∀ w ∈ (a.remove gone).viewers, ∃ j, j ∉ gone ∧ a.viewers[j]? = some w) ∧
      ∀ j, (∀ k ∈ gone, j < k) → j < a.viewers.length →
        (a.remove gone).viewers[j]? = a.viewers[j]? := by
  induction gone with
  | nil =>
      refine ⟨?_, fun _ _ _ => rfl⟩
      intro w hw
      obtain ⟨j, hj⟩ := List.mem_iff_getElem?.mp hw
      exact ⟨j, by simp, hj⟩
  | cons k rest ih =>
      rw [List.pairwise_cons] at hgone
      obtain ⟨hleft, hkept⟩ := ih hgone.2 fun j hj => hrange j (List.mem_cons_of_mem k hj)
      have hk := hrange k List.mem_cons_self
      have hvk : (a.remove rest).viewers[k]? = some a.viewers[k] := by
        rw [hkept k hgone.1 hk, List.getElem?_eq_getElem hk]
      have hklen := (List.getElem?_eq_some_iff.mp hvk).1
      have hremove : a.remove (k :: rest) = (a.remove rest).removeOne k := by
        simp [remove, List.foldl_append]
      have hviewers := (removeOne_of_some hvk).1
      rw [hremove, hviewers]
      constructor
      · intro w hw
        -- Serials tell the viewer that leaves from the one put in its place.
        obtain ⟨m, hmk, hm⟩ := mem_swapRemove hklen hw
        obtain ⟨j, hj, hjw⟩ := hleft w (List.mem_of_getElem? hm)
        refine ⟨j, ?_, hjw⟩
        rw [List.mem_cons, not_or]
        refine ⟨?_, hj⟩
        rintro rfl
        have hnodup := (remove_sheds a rest).nodup (g := Prod.fst) (fun _ => rfl) hserials
        rw [List.getElem?_eq_getElem hk] at hjw
        exact hmk (place_unique hnodup hm hvk (by rw [Option.some.inj hjw]))
      · intro j hj hjlen
        have hjk := hj k List.mem_cons_self
        have hjrest := hkept j (fun m hm => hj m (List.mem_cons_of_mem k hm)) hjlen
        rw [getElem?_swapRemove_of_lt hklen (by omega) (by omega), hjrest]

theorem remove_base {a : Actor E} (ha : Base a) {gone : List Nat} (hgone : gone.Pairwise (· < ·))
    (hrange : ∀ j ∈ gone, j < a.viewers.length) : Base (a.remove gone) := by
  refine ha.of_sheds (remove_sheds a gone) ?_ (remove_kept a gone).2.2.2
  intro v hv
  obtain ⟨j, -, hj⟩ := (mem_remove ha.serials hgone hrange).1 v hv
  exact List.mem_of_getElem? hj

/-- Every viewer after a task went round was served, or was not on the round. -/
theorem eachViewer_serves {task : Actor E → Nat → Actor E × Bool} {Pre : Actor E → Viewer → Prop}
    {Post : Viewer → Prop} (htask : Serves task Pre Post) (hapart : Apart Pre)
    {indices : List Nat} (hindices : indices.Pairwise (· < ·)) {a : Actor E} (ha : Base a)
    (hrange : ∀ i ∈ indices, i < a.viewers.length)
    (hpre : ∀ i ∈ indices, ∀ v, a.viewers[i]? = some v → Pre a v) :
    Base (a.eachViewer task indices) ∧ (a.eachViewer task indices).engine = a.engine ∧
      (a.eachViewer task indices).numbered = a.numbered ∧
      ∀ w ∈ (a.eachViewer task indices).viewers,
        Post w ∨ ∃ j, j ∉ indices ∧ a.viewers[j]? = some w := by
  obtain ⟨hb, hengine, hnumbered, hlength, hsub, hothers, hserved⟩ :=
    visit_serves htask hapart (hindices.imp Nat.ne_of_lt) ha hrange hpre
  have hgone := hindices.sublist hsub
  have hin : ∀ j ∈ (visit task indices a).2, j < (visit task indices a).1.viewers.length := by
    intro j hj
    rw [hlength]
    exact hrange j (hsub.subset hj)
  obtain ⟨hengine', hnumbered', -, -⟩ := remove_kept (visit task indices a).1 (visit task indices a).2
  refine ⟨remove_base hb hgone hin, hengine'.trans hengine, hnumbered'.trans hnumbered, ?_⟩
  intro w hw
  obtain ⟨j, hj, hjw⟩ := (mem_remove hb.serials hgone hin).1 w hw
  rcases Classical.em (j ∈ indices) with hmem | hnot
  · exact Or.inl (hserved j hmem hj w hjw)
  · exact Or.inr ⟨j, hnot, (hothers j hnot).symm.trans hjw⟩

theorem apart_current (n : Nat) : Apart (E := E) fun _ v => v.Current n :=
  fun _ _ _ _ _ _ _ _ _ h => h

theorem apart_room : Apart (E := E) fun a v => v.lost = false ∧ a.inFlight v < framesInFlight := by
  intro a b i j v ha halone hij hv hroom
  have hclaims := halone.claims_other ha.serials hij hv
  refine ⟨hroom.1, ?_⟩
  rw [inFlight_eq, hclaims, ← inFlight_eq]
  exact hroom.2

theorem Apart.and {P Q : Actor E → Viewer → Prop} (hP : Apart P) (hQ : Apart Q) :
    Apart fun a v => P a v ∧ Q a v :=
  fun a b i j v ha halone hij hv h => ⟨hP a b i j v ha halone hij hv h.1,
    hQ a b i j v ha halone hij hv h.2⟩

theorem serves_of_tells {task : Actor E → Nat → Actor E × Bool}
    (htask : ∀ a i v, a.viewers[i]? = some v → Linked a v → ∃ w, Tells i a (task a i).1 v w)
    (n : Nat) : Serves task (fun _ v => v.Current n) (Viewer.Current n) := by
  intro a i v ha hv hcurrent
  obtain ⟨w, hw⟩ := htask a i v hv (ha.linked v (List.mem_of_getElem? hv))
  exact ⟨hw.alone, w, hw.place, hw.linked, fun _ => hw.current hcurrent⟩

theorem deliverInOrder_tells {out : Outbound} (hout : out.Plain) (afterScreen : Bool) (a : Actor E)
    (i : Nat) (v : Viewer) (hv : a.viewers[i]? = some v) (hl : Linked a v) :
    ∃ w, Tells i a (deliverInOrder out afterScreen a i).1 v w := by
  simp only [deliverInOrder, hv]
  split
  · have halike : Alike v { v with afterScreen := v.afterScreen ++ [out] } :=
      ⟨rfl, rfl, rfl, rfl, rfl⟩
    refine ⟨_, halike.tells hv hl rfl ?_⟩
    intro o ho
    rcases List.mem_append.mp ho with ho | ho
    · exact hl.plain o ho
    · exact List.mem_singleton.mp ho ▸ hout
  · exact deliver_tells hv hl hout

theorem releaseOne_tells (a : Actor E) (i : Nat) (v : Viewer) (hv : a.viewers[i]? = some v)
    (hl : Linked a v) : ∃ w, Tells i a (a.releaseOne i).1 v w := by
  simp only [releaseOne, hv]
  split
  · exact ⟨v, Tells.rfl hv hl⟩
  · have hreleased := Alike.tells (v := v) (w := { v with afterScreen := [] })
      ⟨rfl, rfl, rfl, rfl, rfl⟩ hv hl rfl (by simp)
    obtain ⟨w, hw⟩ := deliverAll_tells hl.plain hreleased.place hreleased.linked
    exact ⟨w, hreleased.trans hw⟩

theorem setStale_linked {a : Actor E} {i : Nat} {v : Viewer} (hv : a.viewers[i]? = some v)
    (hl : Linked a v) {b : Bool} (hlost : v.lost = true → b = true) :
    Alone i a (a.setViewer i { v with stale := b }) ∧
      (a.setViewer i { v with stale := b }).viewers[i]? = some { v with stale := b } ∧
      Linked (a.setViewer i { v with stale := b }) { v with stale := b } := by
  have halike : Alike v { v with stale := b } := ⟨rfl, rfl, rfl, rfl, rfl⟩
  refine ⟨Alone.of_set hv rfl rfl rfl (fun _ _ _ => rfl) rfl rfl rfl,
    List.getElem?_set_self (List.getElem?_eq_some_iff.mp hv).1, ?_⟩
  exact halike.linked hl rfl hlost hl.plain

theorem offerFrame_serves (size : TermEvent → Nat) {images : List Outbound} (himages : ∀ out ∈ images, out.Plain)
    {frame : Outbound} {f : Frame} (hevent : frame.event = .frame f) {n : Nat} (hseq : f.seq = n + 1) :
    Serves (E := E) (offerFrame size images frame) (fun _ v => v.Current n)
      (Viewer.Current (n + 1)) := by
  intro a i v ha hv hcurrent
  have hl := ha.linked v (List.mem_of_getElem? hv)
  simp only [offerFrame, hv]
  split
  · rename_i hstale
    refine ⟨Alone.rfl i a, v, hv, hl, ?_⟩
    intro _ hfresh
    rw [hstale] at hfresh
    simp at hfresh
  · rename_i hfresh
    have hfresh' : v.stale = false := by simpa using hfresh
    split
    · obtain ⟨halone, hset, hlinked⟩ := setStale_linked hv hl (b := true) fun _ => rfl
      refine ⟨halone, _, hset, hlinked, ?_⟩
      intro _ hstale
      simp at hstale
    · rename_i htakes
      have htakes' : a.takesFrame v = true := by simpa using htakes
      simp only [takesFrame, Bool.and_eq_true, Bool.not_eq_true', decide_eq_true_eq] at htakes'
      obtain ⟨u, hu⟩ := deliverAll_tells himages hv hl
      have hroom : u.lost = false → (a.deliverAll i images).1.inFlight u < framesInFlight := by
        intro hkept
        rcases hu.eases with hlost | ⟨-, -, -, hflight⟩
        · rw [hlost] at hkept
          simp at hkept
        · rw [hflight]
          exact htakes'.1.2
      have hnext : u.lost = false →
          f.full = true ∨ ∃ m, u.line.getLast?.map Frame.seq = some m ∧ f.seq = m + 1 := by
        intro hkept
        rcases hu.eases with hlost | ⟨hline, -, -, -⟩
        · rw [hlost] at hkept
          simp at hkept
        · exact Or.inr ⟨n, by rw [hline, hcurrent hfresh'], hseq⟩
      simp only [andThen]
      split
      · rename_i b hb
        rw [hb] at hu hroom
        obtain ⟨halone, w, hw, hwl, hpost⟩ :=
          @deliverFrame_line E size _ _ _ hu.place hu.linked _ _ hevent hroom hnext
        refine ⟨hu.alone.trans halone, w, hw, hwl, ?_⟩
        rwa [hseq] at hpost
      · rename_i b hb
        rw [hb] at hu
        exact ⟨hu.alone, u, hu.place, hu.linked, by simp⟩

theorem deliverWhole_serves (size : TermEvent → Nat) {whole : Whole} (himages : ∀ out ∈ whole.images, out.Plain)
    {f : Frame} (hevent : whole.frame.event = .frame f) (hfull : f.full = true) :
    Serves (E := E) (deliverWhole size whole)
      (fun a v => v.lost = false ∧ a.inFlight v < framesInFlight) (Viewer.Current f.seq) := by
  intro a i v ha hv hroom
  have hl := ha.linked v (List.mem_of_getElem? hv)
  obtain ⟨halone, hset, hfresh⟩ := setStale_linked hv hl (b := false) (by simp [hroom.1])
  obtain ⟨u, hu⟩ := deliverAll_tells himages hset hfresh
  have hroom' : u.lost = false →
      ((a.setViewer i { v with stale := false }).deliverAll i whole.images).1.inFlight u <
        framesInFlight := by
    intro hkept
    rcases hu.eases with hlost | ⟨-, -, -, hflight⟩
    · rw [hlost] at hkept
      simp at hkept
    · rw [hflight]
      exact hroom.2
  simp only [deliverWhole, hv, andThen]
  split
  · rename_i b hb
    rw [hb] at hu hroom'
    obtain ⟨halone', w, hw, hwl, hpost⟩ := @deliverFrame_line E size _ _ _ hu.place hu.linked _ _
      hevent hroom' fun _ => Or.inl hfull
    exact ⟨(halone.trans hu.alone).trans halone', w, hw, hwl, hpost⟩
  · rename_i b hb
    rw [hb] at hu
    exact ⟨halone.trans hu.alone, u, hu.place, hu.linked, by simp⟩

end Actor

/-- The engine numbers its frames as its documentation says. A call that fails to
build a frame may have numbered it. -/
structure Engine.Numbered (E : Engine) : Prop where
  write : ∀ s bytes, E.last (E.write s bytes) = E.last s
  take : ∀ s f t, E.takeFrame s = (.ok (some f), t) → f.seq = E.last s + 1 ∧ E.last t = E.last s + 1
  idle : ∀ s t, E.takeFrame s = (.ok none, t) → E.last t = E.last s
  full : ∀ s f t, E.fullFrame s = (.ok f, t) → f.seq = E.last s + 1 ∧ E.last t = E.last s + 1
  baseline : ∀ s f images t, E.baselineFrame s = (.ok (f, images), t) →
    f.full = true ∧ f.seq = E.last t
  join : ∀ s f images t, E.joinFrame s = (.ok (f, images), t) → f.full = true ∧ f.seq = E.last t
  joined : ∀ s, E.last (E.joinFrame s).2 = E.last s
  images : ∀ s, E.last (E.drainImages s).2 = E.last s
  discard : ∀ s, E.last (E.discardFrame s) = E.last s
  resize : ∀ s newSize, E.last (E.resize s newSize).2 = E.last s

namespace Actor

/-- What holds between the steps: every viewer that follows the diffs has the last
frame. -/
structure Chain (a : Actor E) : Prop extends Base a where
  current : ∀ v ∈ a.viewers, v.Current (E.last a.engine)

/-- Every frame numbered for everyone was built, and can be encoded. -/
def Fits (size : TermEvent → Nat) (a : Actor E) : Prop :=
  ∀ built ∈ a.numbered, built.any fun f => (encode size (.frame f)).isSome

/-- The frames still chain, if those numbered on the way could be sent. -/
structure Links (size : TermEvent → Nat) (a b : Actor E) : Prop where
  numbered : ∀ built ∈ a.numbered, built ∈ b.numbered
  chain : Fits size b → Chain a → Chain b

theorem Links.rfl (a : Actor E) : Links size a a := ⟨fun _ h => h, fun _ h => h⟩

theorem Links.trans {a b c : Actor E} (h : Links size a b) (h' : Links size b c) :
    Links size a c where
  numbered := fun built hb => h'.numbered built (h.numbered built hb)
  chain := fun hfits ha => h'.chain hfits (h.chain (fun f hf => hfits f (h'.numbered f hf)) ha)

theorem Base.of_same {a b : Actor E} (ha : Base a) (hviewers : b.viewers = a.viewers)
    (hsinks : b.sinks = a.sinks) (hserials : b.nextSerial = a.nextSerial) : Base b where
  linked := by
    intro v hv
    refine (ha.linked v (hviewers ▸ hv)).of_claims ?_
    rw [claims, claims, hsinks]
  serials := hviewers ▸ ha.serials
  fresh := by
    intro v hv
    rw [hserials]
    exact ha.fresh v (hviewers ▸ hv)
  unclaimed := by
    intro id c hc
    rw [claims, hsinks]
    exact ha.unclaimed id c (hserials ▸ hc)

theorem Links.of_same {a b : Actor E} (hviewers : b.viewers = a.viewers) (hsinks : b.sinks = a.sinks)
    (hserials : b.nextSerial = a.nextSerial) (hnumbered : ∀ built ∈ a.numbered, built ∈ b.numbered)
    (hlast : E.last b.engine = E.last a.engine) : Links size a b where
  numbered := hnumbered
  chain := by
    intro _ ha
    refine ⟨ha.toBase.of_same hviewers hsinks hserials, ?_⟩
    intro v hv
    rw [hlast]
    exact ha.current v (hviewers ▸ hv)

/-- One viewer was handed something, and follows the diffs as the others do. -/
theorem Alone.chain {i : Nat} {a b : Actor E} (h : Alone i a b) (ha : Chain a)
    (hw : ∀ w, b.viewers[i]? = some w → Linked b w ∧ w.Current (E.last a.engine)) : Chain b := by
  refine ⟨h.base ha.toBase fun w hi => (hw w hi).1, ?_⟩
  intro w hmem
  rw [h.engine]
  obtain ⟨j, hj⟩ := List.mem_iff_getElem?.mp hmem
  rcases Classical.em (j = i) with rfl | hij
  · exact (hw w hj).2
  · rw [h.others j hij] at hj
    exact ha.current w (List.mem_of_getElem? hj)

theorem Links.of_tells {i : Nat} {a b : Actor E} {v : Viewer} (hgrows : Grows a b)
    (hv : a.viewers[i]? = some v) (h : Linked a v → ∃ w, Tells i a b v w) : Links size a b where
  numbered := hgrows.numbered
  chain := by
    intro _ ha
    have hmem := List.mem_of_getElem? hv
    obtain ⟨w, hw⟩ := h (ha.linked v hmem)
    refine hw.alone.chain ha fun u hu => ?_
    obtain rfl := Option.some.inj (hu.symm.trans hw.place)
    exact ⟨hw.linked, hw.current (ha.current v hmem)⟩

theorem eachViewer_links {task : Actor E → Nat → Actor E × Bool}
    (hhanded : ∀ a i, Handed i a (task a i))
    (htask : ∀ a i v, a.viewers[i]? = some v → Linked a v → ∃ w, Tells i a (task a i).1 v w)
    (a : Actor E) {indices : List Nat} (hindices : indices.Pairwise (· < ·))
    (hrange : ∀ i ∈ indices, i < a.viewers.length) :
    Links size a (a.eachViewer task indices) where
  numbered := (eachViewer_sheds hhanded a indices).numbered
  chain := by
    intro _ ha
    obtain ⟨hbase, hengine, -, hserved⟩ := eachViewer_serves
      (serves_of_tells htask (E.last a.engine)) (apart_current _) hindices ha.toBase hrange
      fun i _ v hv => ha.current v (List.mem_of_getElem? hv)
    refine ⟨hbase, ?_⟩
    intro w hw
    rw [hengine]
    rcases hserved w hw with hcurrent | ⟨j, -, hj⟩
    · exact hcurrent
    · exact ha.current w (List.mem_of_getElem? hj)

theorem range_lt {n : Nat} : ∀ i ∈ List.range n, i < n := fun _ => List.mem_range.mp

theorem releaseAfterScreen_links (a : Actor E) : Links size a a.releaseAfterScreen :=
  eachViewer_links releaseOne_handed releaseOne_tells a List.pairwise_lt_range range_lt

theorem broadcastEvent_links (a : Actor E) {ev : TermEvent} (hev : ∀ f, ev ≠ .frame f)
    (afterScreen : Bool) : Links size a (a.broadcastEvent size ev afterScreen) := by
  simp only [broadcastEvent]
  split
  · exact Links.rfl a
  · split
    · exact Links.rfl a
    · rename_i out hout
      exact eachViewer_links (deliverInOrder_handed out afterScreen)
        (deliverInOrder_tells (encode_plain hout hev) afterScreen) a List.pairwise_lt_range range_lt

theorem sendTo_links (a : Actor E) (client : ClientId) {ev : TermEvent} (hev : ∀ f, ev ≠ .frame f) :
    Links size a (a.sendTo size client ev) := by
  simp only [sendTo]
  split
  · exact Links.rfl a
  · rename_i i hi
    split
    · exact Links.rfl a
    · rename_i out hout
      obtain ⟨v, hv, -⟩ := getElem?_of_findIdx hi
      exact Links.of_tells (deliverInOrder_handed out false a i).grows hv
        (deliverInOrder_tells (encode_plain hout hev) false a i v hv)

theorem deliver_links (a : Actor E) (i : Nat) {out : Outbound} (hout : out.Plain) :
    Links size a (a.deliver i out).1 := by
  cases hv : a.viewers[i]? with
  | none =>
      have heq : a.deliver i out = (a, true) := by simp only [deliver, hv]
      rw [heq]
      exact Links.rfl a
  | some v =>
      exact Links.of_tells (deliver_handed a i out).grows hv fun hl => deliver_tells hv hl hout

/-- The next frame reaches every viewer that has the one before it, or marks it. -/
theorem sendFrame_chain (hE : E.Numbered) {a : Actor E} (ha : Base a) {n : Nat}
    (hcurrent : ∀ v ∈ a.viewers, v.Current n) (hlast : E.last a.engine = n + 1) {frame : Frame}
    (hseq : frame.seq = n + 1) (hfits : (encode size (.frame frame)).isSome) :
    Chain (a.sendFrame size frame) := by
  obtain ⟨out, hout⟩ := Option.isSome_iff_exists.mp hfits
  have himages : ∀ o ∈ (E.drainImages a.engine).1.filterMap fun u => encode size (imageEvent u),
      o.Plain := by
    intro o ho
    obtain ⟨u, -, hu⟩ := List.mem_filterMap.mp ho
    exact encode_plain hu (by simp [imageEvent])
  have hbase : Base { a with engine := (E.drainImages a.engine).2 } := ha.of_same rfl rfl rfl
  obtain ⟨hb, hengine, -, hserved⟩ := eachViewer_serves
    (offerFrame_serves size himages (encode_frame hout).1 hseq) (apart_current n)
    List.pairwise_lt_range hbase range_lt fun i _ v hv => hcurrent v (List.mem_of_getElem? hv)
  simp only [sendFrame, hout]
  refine ⟨hb, ?_⟩
  intro w hw
  rw [hengine, hE.images, hlast]
  rcases hserved w hw with hw | ⟨j, hj, hjw⟩
  · exact hw
  · exact absurd (List.mem_range.mpr (List.getElem?_eq_some_iff.mp hjw).1) hj

theorem sendFrame_numbered (a : Actor E) (frame : Frame) :
    ∀ built ∈ a.numbered, built ∈ (a.sendFrame size frame).numbered :=
  ((sheds_keeps a).sendFrame (Sheds.rfl a) frame).numbered

theorem current_of_all_stale {a : Actor E} (h : (a.viewers.all fun v => v.stale) = true) (n : Nat) :
    ∀ v ∈ a.viewers, v.Current n := by
  intro v hv hfresh
  rw [List.all_eq_true] at h
  rw [h v hv] at hfresh
  simp at hfresh

/-- Every row comes with the number the viewers that follow the diffs have. -/
structure Covers (n : Nat) (whole : Except (Option Outbound) Whole) : Prop where
  images : ∀ w, whole = .ok w → ∀ out ∈ w.images, out.Plain
  frame : ∀ w, whole = .ok w → ∃ f, w.frame.event = .frame f ∧ f.full = true ∧ f.seq = n
  error : ∀ out, whole = .error (some out) → out.Plain

theorem wholeFrame_covers (size : TermEvent → Nat) (hE : E.Numbered) {a : Actor E} (ha : Chain a) :
    Chain (a.wholeFrame size).1 ∧ (a.wholeFrame size).1.viewers = a.viewers ∧
      (a.wholeFrame size).1.sinks = a.sinks ∧
      Covers (E.last (a.wholeFrame size).1.engine) (a.wholeFrame size).2 := by
  have hjoin : ∀ engine, (∀ v ∈ a.viewers, v.Current (E.last engine)) →
      Chain { a with engine := engine } := fun engine h => ⟨ha.toBase.of_same rfl rfl rfl, h⟩
  simp only [wholeFrame]
  generalize hjoined : (if (a.viewers.all fun v => v.stale) = true then E.baselineFrame a.engine
    else E.joinFrame a.engine) = built
  obtain ⟨joined, engine⟩ := built
  have hengine : (∀ v ∈ a.viewers, v.Current (E.last engine)) ∧
      ∀ f images, joined = .ok (f, images) → f.full = true ∧ f.seq = E.last engine := by
    split at hjoined
    · rename_i hstale
      refine ⟨current_of_all_stale hstale _, ?_⟩
      rintro f images rfl
      exact hE.baseline _ _ _ _ hjoined
    · have hlast : E.last engine = E.last a.engine := by
        rw [← hE.joined a.engine, hjoined]
      refine ⟨fun v hv => hlast ▸ ha.current v hv, ?_⟩
      rintro f images rfl
      exact hE.join _ _ _ _ hjoined
  cases joined with
  | error e =>
    refine ⟨hjoin engine hengine.1, rfl, rfl, by simp, by simp, ?_⟩
    intro out hout
    exact encode_plain (Except.error.inj hout) (by simp)
  | ok pair =>
    obtain ⟨frame, images⟩ := pair
    simp only
    split
    · exact ⟨hjoin engine hengine.1, rfl, rfl, by simp, by simp, by simp⟩
    · rename_i out hout
      refine ⟨hjoin engine hengine.1, rfl, rfl, ?_, ?_, by simp⟩
      · rintro w hw o ho
        obtain rfl := Except.ok.inj hw
        obtain ⟨u, -, hu⟩ := List.mem_filterMap.mp ho
        exact encode_plain hu (by simp [imageEvent])
      · rintro w hw
        obtain rfl := Except.ok.inj hw
        exact ⟨frame, (encode_frame hout).1, hengine.2 frame images rfl⟩

theorem tellWhole_serves (size : TermEvent → Nat) {n : Nat} {whole : Except (Option Outbound) Whole} (h : Covers n whole) :
    Serves (E := E) (tellWhole size whole)
      (fun a v => v.Current n ∧ v.lost = false ∧ a.inFlight v < framesInFlight)
      (Viewer.Current n) := by
  intro a i v ha hv hpre
  match whole, h with
  | .ok w, h =>
      obtain ⟨f, hevent, hfull, hseq⟩ := h.frame w rfl
      have hserves := deliverWhole_serves size (h.images w rfl) hevent hfull a i v ha hv
        hpre.2
      rwa [hseq] at hserves
  | .error none, _ =>
      exact ⟨Alone.rfl i a, v, hv, ha.linked v (List.mem_of_getElem? hv), fun _ => hpre.1⟩
  | .error (some out), h =>
      obtain ⟨w, hw⟩ := deliver_tells hv (ha.linked v (List.mem_of_getElem? hv)) (h.error out rfl)
      exact ⟨hw.alone, w, hw.place, hw.linked, fun _ => hw.current hpre.1⟩

theorem tellWhole_chain (size : TermEvent → Nat) (hE : E.Numbered) {a : Actor E} (ha : Chain a) {indices : List Nat}
    (hindices : indices.Pairwise (· < ·)) (hrange : ∀ i ∈ indices, i < a.viewers.length)
    (hroom : ∀ i ∈ indices, ∀ v, a.viewers[i]? = some v →
      v.lost = false ∧ a.inFlight v < framesInFlight) :
    Chain ((a.wholeFrame size).1.eachViewer (tellWhole size (a.wholeFrame size).2) indices) := by
  obtain ⟨hwhole, hviewers, hsinks, hcovers⟩ := wholeFrame_covers size hE ha
  have hpre : ∀ i ∈ indices, ∀ v, (a.wholeFrame size).1.viewers[i]? = some v →
      v.Current (E.last (a.wholeFrame size).1.engine) ∧ v.lost = false ∧
        (a.wholeFrame size).1.inFlight v < framesInFlight := by
    intro i hi v hv
    refine ⟨hwhole.current v (List.mem_of_getElem? hv), ?_⟩
    rw [inFlight, hsinks]
    exact hroom i hi v (hviewers ▸ hv)
  obtain ⟨hb, hengine, -, hserved⟩ := eachViewer_serves (tellWhole_serves size hcovers)
    ((apart_current _).and apart_room) hindices hwhole.toBase
    (fun i hi => hviewers ▸ hrange i hi) hpre
  refine ⟨hb, ?_⟩
  intro w hw
  rw [hengine]
  rcases hserved w hw with hw | ⟨j, -, hj⟩
  · exact hw
  · exact hwhole.current w (List.mem_of_getElem? hj)

theorem takesFrame_room {a : Actor E} {v : Viewer} (h : a.takesFrame v = true) :
    v.lost = false ∧ a.inFlight v < framesInFlight := by
  simp only [takesFrame, Bool.and_eq_true, Bool.not_eq_true', decide_eq_true_eq] at h
  exact h.1

theorem sendWholeFrames_links (hE : E.Numbered) (a : Actor E) :
    Links size a (a.sendWholeFrames size) where
  numbered := ((sheds_keeps a).sendWholeFrames (Sheds.rfl a)).numbered
  chain := by
    intro _ ha
    simp only [sendWholeFrames]
    split
    · exact ha
    · refine tellWhole_chain size hE ha (List.pairwise_lt_range.filter _) ?_ ?_
      · exact fun i hi => range_lt i (List.mem_of_mem_filter hi)
      · intro i hi v hv
        have howed := (List.mem_filter.mp hi).2
        rw [hv, Option.any_some, Bool.and_eq_true] at howed
        exact takesFrame_room howed.2

theorem eachViewer_singleton (task : Actor E → Nat → Actor E × Bool) (a : Actor E) (i : Nat) :
    a.eachViewer task [i] =
      match task a i with
      | (b, true) => b
      | (b, false) => b.remove [i] := by
  simp only [eachViewer, visit]
  rcases task a i with ⟨b, kept⟩
  cases kept <;> rfl

theorem oweWhole_links (hE : E.Numbered) (a : Actor E) (i : Nat) :
    Links size a (a.oweWhole size i) where
  numbered := (oweWhole_sheds a i).numbered
  chain := by
    intro _ ha
    simp only [oweWhole]
    split
    · exact ha
    · rename_i v hv
      obtain ⟨halone, hset, hlinked⟩ := setStale_linked hv (ha.linked v (List.mem_of_getElem? hv))
        (b := true) fun _ => rfl
      have hstale : Chain (a.setViewer i { v with stale := true }) := by
        refine halone.chain ha fun w hw => ?_
        obtain rfl := Option.some.inj (hw.symm.trans hset)
        exact ⟨hlinked, by simp [Viewer.Current]⟩
      split
      · rename_i htakes
        rw [hset, Option.any_some] at htakes
        have hwhole := @tellWhole_chain E size hE _ hstale [i]
          (List.pairwise_singleton _ _) (by simpa using (List.getElem?_eq_some_iff.mp hset).1) (by
            intro j hj w hw
            obtain rfl := List.mem_singleton.mp hj
            obtain rfl := Option.some.inj (hw.symm.trans hset)
            exact takesFrame_room htakes)
        rwa [eachViewer_singleton] at hwhole
      · exact hstale

/-- A frame numbered for everyone is sent, or its number was not given out. -/
theorem sendBuilt_links (hE : E.Numbered) {a : Actor E} {built : Except String (Option Frame)}
    {engine : E.State} (hsome : ∀ f, built = .ok (some f) →
      f.seq = E.last a.engine + 1 ∧ E.last engine = E.last a.engine + 1)
    (hnone : built = .ok none → E.last engine = E.last a.engine) (tell : Bool) :
    Links size a (a.sendBuilt size built engine tell) := by
  refine ⟨((sheds_keeps a).sendBuilt (Sheds.rfl a) built engine tell).numbered, ?_⟩
  intro hfits ha
  have hbase : Base { a with engine := engine, numbered := a.numbered ++ a.numbers built engine } :=
    ha.toBase.of_same rfl rfl rfl
  match built with
  | .ok (some frame) =>
      obtain ⟨hseq, hlast⟩ := hsome frame rfl
      refine sendFrame_chain hE hbase ha.current hlast hseq ?_
      simpa using hfits _ (sendFrame_numbered _ frame (some frame) (by simp [numbers]))
  | .ok none => exact ⟨hbase, fun v hv => hnone rfl ▸ ha.current v hv⟩
  | .error e =>
      have htold : Links size
          { a with engine := engine, numbered := a.numbered ++ a.numbers (.error e) engine }
          (a.sendBuilt size (.error e) engine tell) := by
        simp only [sendBuilt]
        split
        · exact broadcastEvent_links _ (by simp) false
        · exact Links.rfl _
      -- Had the number been given out, `none` would stand for the frame.
      have hlast : E.last engine = E.last a.engine := by
        by_contra hnumbered
        have hmissing := hfits none (htold.numbered none (by simp [numbers, hnumbered]))
        simp at hmissing
      exact htold.chain hfits ⟨hbase, fun v hv => hlast ▸ ha.current v hv⟩

theorem flushDiff_links (hE : E.Numbered) (a : Actor E) : Links size a (a.flushDiff size) := by
  simp only [flushDiff]
  split
  · exact Links.of_same rfl rfl rfl (fun _ h => h) (hE.discard _)
  · split
    · refine Links.trans (b := { a with owed := false })
        (Links.of_same rfl rfl rfl (fun _ h => h) rfl) (sendBuilt_links hE ?_ ?_ true)
      · intro f hf
        exact hE.take a.engine f _ (Prod.ext hf rfl)
      · intro hnone
        exact hE.idle a.engine _ (Prod.ext hnone rfl)
    · exact Links.of_same rfl rfl rfl (fun _ h => h) rfl

theorem flushFrame_links (hE : E.Numbered) (a : Actor E) : Links size a (a.flushFrame size) :=
  (flushDiff_links hE a).trans ((sendWholeFrames_links hE _).trans (releaseAfterScreen_links _))

theorem frameRoom_links (hE : E.Numbered) (a : Actor E) (paced : Bool) :
    Links size a (a.frameRoom size paced) := by
  simp only [frameRoom]
  split
  · exact flushFrame_links hE a
  · exact Links.rfl a

theorem tellStanding_links (a : Actor E) (client : ClientId) :
    Links size a (a.tellStanding size client) := by
  have hplain : ∀ ev ∈ a.standing, ∀ f, ev ≠ .frame f := by
    intro ev hev f
    rintro rfl
    simp [standing] at hev
  simp only [tellStanding]
  generalize a.standing = events at hplain
  induction events generalizing a with
  | nil => exact Links.rfl a
  | cons ev rest ih =>
      exact (sendTo_links a client (hplain ev List.mem_cons_self)).trans
        (ih _ fun ev' h => hplain ev' (List.mem_cons_of_mem ev h))

theorem tellScreen_links (hE : E.Numbered) (a : Actor E) (client : ClientId) :
    Links size a (a.tellScreen size client) := by
  simp only [tellScreen]
  split
  · exact oweWhole_links hE a _
  · exact Links.rfl a

theorem tellExit_links (a : Actor E) (client : ClientId) : Links size a (a.tellExit size client) := by
  simp only [tellExit]
  split
  · rename_i status i _ hi
    split
    · rename_i out hout
      obtain ⟨v, hv, -⟩ := getElem?_of_findIdx hi
      exact Links.of_tells (deliverInOrder_handed out true a i).grows hv
        (deliverInOrder_tells (encode_plain hout (by simp)) true a i v hv)
    · exact Links.rfl a
  · exact Links.rfl a

theorem introduce_links (hE : E.Numbered) (a : Actor E) (client : ClientId) :
    Links size a (a.introduce size client) :=
  ((tellStanding_links a client).trans (tellScreen_links hE _ client)).trans (tellExit_links _ client)

theorem sendFull_links (hE : E.Numbered) (a : Actor E) : Links size a (a.sendFull size) := by
  simp only [sendFull]
  split
  · exact Links.rfl a
  · refine sendBuilt_links hE ?_ ?_ false
    · intro f hf
      cases hfull : (E.fullFrame a.engine).1 with
      | ok g =>
          rw [hfull] at hf
          simp only [Except.map, Except.ok.injEq, Option.some.injEq] at hf
          exact hE.full a.engine f _ (Prod.ext (hfull.trans (by rw [hf])) rfl)
      | error e =>
          rw [hfull] at hf
          simp [Except.map] at hf
    · intro hnone
      cases hfull : (E.fullFrame a.engine).1 <;> simp [hfull, Except.map] at hnone

theorem applySize_links (hE : E.Numbered) (a : Actor E) (newSize : TermSize) :
    Links size a (a.applySize size newSize) := by
  have hsame : Links size a { a with engine := (E.resize a.engine newSize).2 } :=
    Links.of_same rfl rfl rfl (fun _ h => h) (hE.resize _ _)
  simp only [applySize]
  split
  · exact Links.rfl a
  · split
    · exact hsame
    · refine hsame.trans (Links.trans ?_ (sendFull_links hE _))
      exact broadcastEvent_links _ (by simp) false

theorem updateClient_links (a : Actor E) (client : ClientId) {f : Viewer → Viewer}
    (halike : ∀ v, Alike v (f v)) (hstale : ∀ v, (f v).stale = v.stale)
    (hafter : ∀ v, (f v).afterScreen = v.afterScreen) (hgrows : Grows a (a.updateClient client f)) :
    Links size a (a.updateClient client f) := by
  revert hgrows
  simp only [updateClient]
  split
  · exact fun _ => Links.rfl a
  · split
    · exact fun _ => Links.rfl a
    · rename_i v hv
      intro hgrows
      refine Links.of_tells hgrows hv fun hl => ⟨f v, (halike v).tells hv hl (hstale v) ?_⟩
      rw [hafter]
      exact hl.plain

theorem onViewerGone_links (hE : E.Numbered) (a : Actor E) (client : ClientId) :
    Links size a (a.onViewerGone size client) := by
  simp only [onViewerGone]
  split
  · split
    · exact Links.of_same rfl rfl rfl (fun _ h => h) rfl
    · rename_i next _
      refine Links.trans (b := { a with orphan := none, driver := some next.client })
        (Links.of_same rfl rfl rfl (fun _ h => h) rfl) ?_
      exact (sendTo_links _ _ (by simp)).trans (applySize_links hE _ _)
  · exact Links.rfl a

theorem reserve_links (a : Actor E) (client : ClientId) : Links size a (a.reserve size client) := by
  have hsame : Links size a { a with orphan := none, driver := some client } :=
    Links.of_same rfl rfl rfl (fun _ h => h) rfl
  simp only [reserve]
  split
  · split
    · exact hsame.trans (sendTo_links _ _ (by simp))
    · exact hsame
  · exact hsame

theorem drive_links (hE : E.Numbered) (a : Actor E) (client : ClientId) (take : Bool) :
    Links size a (a.drive size client take) := by
  simp only [drive]
  split
  · have htold : Links size a ((a.reserve size client).sendTo size client (.driver true)) :=
      (reserve_links a client).trans (sendTo_links _ client (by simp))
    split
    · exact htold.trans (applySize_links hE _ _)
    · exact htold
  · split
    · refine Links.trans (b := { a with driver := none })
        (Links.of_same rfl rfl rfl (fun _ h => h) rfl) (sendTo_links _ _ (by simp))
    · exact Links.rfl a

theorem resizeRequest_links (hE : E.Numbered) (a : Actor E) (client : ClientId) (newSize : TermSize) :
    Links size a (a.resizeRequest size client newSize) := by
  have hsize : Links size a (a.updateClient client fun v => { v with size := newSize }) :=
    updateClient_links a client (fun _ => ⟨rfl, rfl, rfl, rfl, rfl⟩) (fun _ => rfl) (fun _ => rfl)
      (updateClient_grows a client (fun _ => rfl) (fun _ => rfl) (fun _ => rfl) (fun _ => rfl)
        (fun _ => rfl) fun _ => rfl)
  simp only [resizeRequest]
  split
  · exact hsize.trans (applySize_links hE _ _)
  · exact hsize

theorem reach_links (a : Actor E) (client : ClientId) (f : Reach → Reach) :
    Links size a (a.updateClient client fun v => { v with reach := f v.reach }) :=
  updateClient_links a client (fun _ => ⟨rfl, rfl, rfl, rfl, rfl⟩) (fun _ => rfl) (fun _ => rfl)
    (updateClient_grows a client (fun _ => rfl) (fun _ => rfl) (fun _ => rfl) (fun _ => rfl)
      (fun _ => rfl) fun _ => rfl)

theorem askDriver_links (a : Actor E) (asker : ClientId) : Links size a (a.askDriver size asker) := by
  have hroll : ∀ (b : Actor E) (roll : RollCall), Links size b { b with roll := some roll } :=
    fun b roll => Links.of_same rfl rfl rfl (fun _ h => h) rfl
  have hmarker : Links size a { a with nextMarker := (a.nextMarker + 1) % 2 ^ 64 } :=
    Links.of_same rfl rfl rfl (fun _ h => h) rfl
  simp only [askDriver]
  split
  · exact Links.rfl a
  · rename_i driver hdriver
    split
    · exact Links.rfl a
    · split
      · exact hroll a _
      · split
        · exact Links.rfl a
        · rename_i i hi
          split
          · exact Links.rfl a
          · split
            · exact hmarker
            · rename_i marker hout
              have hreach := hmarker.trans
                (reach_links _ driver fun reach => reach.marker a.nextMarker)
              have htold := hreach.trans (deliver_links _ i (encode_plain hout (by simp)))
              exact htold.trans (hroll _ _)

theorem word_links (a : Actor E) (client : ClientId) : Links size a (a.word client) := by
  unfold word
  split
  · exact Links.of_same rfl rfl rfl (fun _ h => h) rfl
  · exact Links.rfl a

theorem rollCallOver_links (hE : E.Numbered) (a : Actor E) : Links size a (a.rollCallOver size) := by
  have hsame : ∀ b : Actor E, b.viewers = a.viewers → b.sinks = a.sinks →
      b.nextSerial = a.nextSerial → b.numbered = a.numbered → b.engine = a.engine →
      Links size a b :=
    fun b hv hs hn hnum he => Links.of_same hv hs hn (fun _ h => hnum ▸ h) (by rw [he])
  simp only [rollCallOver]
  split
  · exact Links.rfl a
  · rename_i roll _
    split
    · exact hsame _ rfl rfl rfl rfl rfl
    · split
      · exact hsame _ rfl rfl rfl rfl rfl
      · refine Links.trans (hsame { a with roll := none, orphan := none, driver := some roll.asker }
          rfl rfl rfl rfl rfl) ?_
        exact ((sendTo_links _ roll.driver (by simp)).trans
          (sendTo_links _ roll.asker (by simp))).trans (applySize_links hE _ _)

theorem childExited_links (hE : E.Numbered) (a : Actor E) (status : Option Nat) :
    Links size a (a.childExited size status) := by
  have hexited : Links size a { a with exited := some status } :=
    Links.of_same rfl rfl rfl (fun _ h => h) rfl
  have hflushed := hexited.trans (flushFrame_links hE _)
  simp only [childExited]
  generalize Actor.flushFrame size _ = flushed at hflushed ⊢
  refine Links.trans ?_ (broadcastEvent_links _ (by simp) true)
  split
  · refine hflushed.trans (Links.trans ?_ (broadcastEvent_links _ (by simp) false))
    exact Links.of_same rfl rfl rfl (fun _ h => h) rfl
  · exact hflushed.trans (Links.of_same rfl rfl rfl (fun _ h => h) rfl)

theorem news_links (a : Actor E) (n : News) : Links size a (a.news size n) := by
  have htell : ∀ (b : Actor E) (ev : TermEvent), (∀ f, ev ≠ .frame f) → Links size a b →
      Links size a (b.broadcast size ev) :=
    fun b ev hev h => h.trans (broadcastEvent_links b hev false)
  cases n <;> simp only [news]
  case title text =>
    split
    · exact Links.rfl a
    · exact htell _ _ (by simp) (Links.of_same rfl rfl rfl (fun _ h => h) rfl)
  case program reports =>
    split
    · exact Links.rfl a
    · exact htell _ _ (by simp) (Links.of_same rfl rfl rfl (fun _ h => h) rfl)
  all_goals exact htell _ _ (by simp) (Links.of_same rfl rfl rfl (fun _ h => h) rfl)

theorem catchUp_links (hE : E.Numbered) (a : Actor E) (client : ClientId) :
    Links size a (a.catchUp size client) :=
  (sendTo_links a client (by simp)).trans (introduce_links hE _ client)

/-- The connections took events out of the sinks, or were done with some. -/
theorem Links.of_sinks {a b : Actor E} (hviewers : b.viewers = a.viewers)
    (hclaims : ∀ id c, b.claims id c ≤ a.claims id c) (hserials : b.nextSerial = a.nextSerial)
    (hnumbered : b.numbered = a.numbered) (hengine : b.engine = a.engine) : Links size a b where
  numbered := fun built h => hnumbered ▸ h
  chain := by
    intro _ ha
    refine ⟨⟨?_, hviewers ▸ ha.serials, ?_, ?_⟩, ?_⟩
    · intro v hv
      have hl := ha.linked v (hviewers ▸ hv)
      refine ⟨hl.chained, hl.lost, ?_, hl.own, hl.plain⟩
      have hflight := hl.flight
      have hle := hclaims v.sink v.serial
      rw [inFlight_eq] at hflight ⊢
      omega
    · intro v hv
      rw [hserials]
      exact ha.fresh v (hviewers ▸ hv)
    · intro id c hc
      have hle := hclaims id c
      rw [ha.unclaimed id c (hserials ▸ hc)] at hle
      omega
    · intro v hv
      rw [hengine]
      exact ha.current v (hviewers ▸ hv)

theorem claims_setSink_le {a : Actor E} {sink : SinkId} {s : Sink}
    (h : ∀ p : Outbound → Bool, (s.buffer ++ s.held).countP p ≤
      ((a.sinks sink).buffer ++ (a.sinks sink).held).countP p) (id : SinkId) (c : Nat) :
    (a.setSink sink s).claims id c ≤ a.claims id c := by
  simp only [claims, setSink]
  split
  · rename_i hid
    subst hid
    exact h _
  · exact Nat.le_refl _

theorem drainQueue_line {queue : List Outbound} {s t : Sink} {v w : Viewer} {all : Bool}
    (hqueue : v.queued = queue) (h : drainQueue queue s v = some (t, w, all)) :
    w.line = v.line ∧ w.stale = v.stale ∧ w.afterScreen = v.afterScreen ∧
      (∀ out ∈ w.queued, out ∈ v.queued) ∧
      (∀ p : Outbound → Bool, w.queued.countP p + (t.buffer ++ t.held).countP p =
        v.queued.countP p + (s.buffer ++ s.held).countP p) ∧
      ∀ p : Outbound → Bool, (∀ out ∈ queue, p out = false) →
        (t.buffer ++ t.held).countP p = (s.buffer ++ s.held).countP p := by
  induction queue generalizing s v with
  | nil =>
      simp only [drainQueue, Option.some.injEq, Prod.mk.injEq] at h
      obtain ⟨rfl, rfl, -⟩ := h
      exact ⟨rfl, rfl, rfl, fun _ h => h, fun _ => rfl, fun _ _ => rfl⟩
  | cons out rest ih =>
      simp only [drainQueue] at h
      split at h
      · rename_i u hu
        obtain ⟨-, -, rfl⟩ := trySend_sent hu
        obtain ⟨hline, hstale, hafter, hsub, hcount, hother⟩ := ih rfl h
        refine ⟨?_, hstale, hafter, ?_, ?_, ?_⟩
        · rw [hline, Viewer.line, Viewer.line, hqueue, ← List.singleton_append (l := rest),
            framesOf_append, List.append_assoc]
        · intro o ho
          rw [hqueue]
          exact List.mem_cons_of_mem out (hsub o ho)
        · intro p
          have hp := hcount p
          simp only [List.countP_append, List.countP_singleton] at hp ⊢
          rw [hqueue, List.countP_cons]
          omega
        · intro p hp
          have hout := hp out List.mem_cons_self
          have hrest := hother p fun o ho => hp o (List.mem_cons_of_mem out ho)
          simpa [List.countP_append, List.countP_singleton, hout] using hrest
      · simp only [Option.some.injEq, Prod.mk.injEq] at h
        obtain ⟨rfl, rfl, -⟩ := h
        exact ⟨rfl, rfl, rfl, fun _ h => h, fun _ => rfl, fun _ _ => rfl⟩
      · simp at h

theorem drained_tells {a : Actor E} {i : Nat} {v w : Viewer} {t : Sink} {all : Bool}
    (hv : a.viewers[i]? = some v) (hl : Linked a v)
    (h : drainQueue v.queued (a.sinks v.sink) v = some (t, w, all)) :
    Tells i a ((a.setSink v.sink t).setViewer i w) v w := by
  obtain ⟨hline, hstale, hafter, hsub, hcount, hother⟩ := drainQueue_line rfl h
  obtain ⟨-, -, hserial, -, hsink, hlost, -, -⟩ := drainQueue_spec h
  have hclaims : ∀ id c, ((a.setSink v.sink t).setViewer i w).claims id c =
      if id = v.sink then (t.buffer ++ t.held).countP fun out => out.credit == some c
      else a.claims id c := by
    intro id c
    simp only [claims, setViewer, setSink]
    split <;> rfl
  have hflight : ((a.setSink v.sink t).setViewer i w).inFlight w = a.inFlight v := by
    have hc := hcount fun out => out.credit == some v.serial
    rw [inFlight_eq, inFlight_eq, hserial, hsink, hclaims, if_pos rfl, claims]
    exact hc
  refine ⟨?_, List.getElem?_set_self (List.getElem?_eq_some_iff.mp hv).1, ?_, Or.inr ?_⟩
  · refine Alone.of_set hv rfl hserial hsink ?_ rfl rfl rfl
    intro id c hc
    rw [hclaims]
    split
    · rename_i hid
      rw [hother, claims, hid]
      intro out hout
      simp only [beq_eq_false_iff_ne, ne_eq]
      exact fun hcredit => hc (hl.own out hout c hcredit)
    · rfl
  · refine ⟨?_, ?_, ?_, ?_, ?_⟩
    · rw [hline]
      exact hl.chained
    · rw [hlost, hstale]
      exact hl.lost
    · rw [hflight]
      exact hl.flight
    · intro out hout
      rw [hserial]
      exact hl.own out (hsub out hout)
    · rw [hafter]
      exact hl.plain
  · exact ⟨hline, hstale, hlost, hflight⟩

theorem remove_links (a : Actor E) {i : Nat} (hi : i < a.viewers.length) :
    Links size a (a.remove [i]) where
  numbered := (remove_sheds a [i]).numbered
  chain := by
    intro _ ha
    have hrange : ∀ j ∈ [i], j < a.viewers.length := by simpa using hi
    refine ⟨remove_base ha.toBase (List.pairwise_singleton _ _) hrange, ?_⟩
    intro w hw
    rw [(remove_kept a [i]).1]
    obtain ⟨j, -, hj⟩ := (mem_remove ha.serials (List.pairwise_singleton _ _) hrange).1 w hw
    exact ha.current w (List.mem_of_getElem? hj)

theorem waitForRoom_links (a : Actor E) (i : Nat) : Links size a (a.waitForRoom i) := by
  simp only [waitForRoom]
  split
  · exact Links.rfl a
  · rename_i v hv
    split
    · exact Links.rfl a
    · have halike : Alike v { v with waiting := true } := ⟨rfl, rfl, rfl, rfl, rfl⟩
      refine Links.trans (b := a.setViewer i { v with waiting := true }) ⟨fun _ h => h, ?_⟩
        (Links.of_same rfl rfl rfl (fun _ h => h) rfl)
      intro _ ha
      have hmem := List.mem_of_getElem? hv
      have hl := ha.linked v hmem
      have htells := halike.tells hv hl rfl hl.plain
      refine htells.alone.chain ha fun w hw => ?_
      obtain rfl := Option.some.inj (hw.symm.trans htells.place)
      exact ⟨htells.linked, htells.current (ha.current v hmem)⟩

theorem drainViewer_links (hE : E.Numbered) {a : Actor E} {i : Nat} {v : Viewer}
    (hv : a.viewers[i]? = some v) (paced : Bool) : Links size a (a.drainViewer size i v paced) := by
  simp only [drainViewer]
  split
  · exact remove_links a (List.getElem?_eq_some_iff.mp hv).1
  · rename_i t w hw
    exact (Links.of_tells (drained_grows hv hw) hv fun hl => ⟨w, drained_tells hv hl hw⟩).trans
      (frameRoom_links hE _ paced)
  · rename_i t w hw
    exact (Links.of_tells (drained_grows hv hw) hv fun hl => ⟨w, drained_tells hv hl hw⟩).trans
      (waitForRoom_links _ i)

/-- Clearing the mark of a dropped queue leaves the viewer waiting for every row. -/
theorem clearLost_links {a : Actor E} {i : Nat} {v : Viewer} (hv : a.viewers[i]? = some v) :
    Links size a (a.setViewer i { v with lost := false }) where
  numbered := fun _ h => h
  chain := by
    intro _ ha
    have hmem := List.mem_of_getElem? hv
    have hl := ha.linked v hmem
    have halone : Alone i a (a.setViewer i { v with lost := false }) :=
      Alone.of_set hv rfl rfl rfl (fun _ _ _ => rfl) rfl rfl rfl
    have hset : (a.setViewer i { v with lost := false }).viewers[i]? = some { v with lost := false } :=
      List.getElem?_set_self (List.getElem?_eq_some_iff.mp hv).1
    refine halone.chain ha fun w hw => ?_
    obtain rfl := Option.some.inj (hw.symm.trans hset)
    exact ⟨⟨hl.chained, by simp, hl.flight, hl.own, hl.plain⟩, ha.current v hmem⟩

theorem tellLost_links (hE : E.Numbered) (a : Actor E) (i : Nat) (client : ClientId) :
    Links size a (a.tellLost size i client) := by
  simp only [tellLost]
  refine Links.trans ?_ (catchUp_links hE _ client)
  split
  · rename_i v hv
    exact (flushFrame_links hE a).trans (clearLost_links hv)
  · exact flushFrame_links hE a

theorem sinkHasRoom_links (hE : E.Numbered) (a : Actor E) (client : ClientId) (sink : SinkId)
    (paced : Bool) : Links size a (a.sinkHasRoom size client sink paced) := by
  simp only [sinkHasRoom]
  split
  · exact Links.rfl a
  · rename_i i _
    split
    · exact Links.rfl a
    · rename_i v hv
      have hset : (a.setViewer i { v with waiting := false }).viewers[i]? =
          some { v with waiting := false } :=
        List.getElem?_set_self (List.getElem?_eq_some_iff.mp hv).1
      have hheard : Links size a (a.setViewer i { v with waiting := false }) := by
        have halike : Alike v { v with waiting := false } := ⟨rfl, rfl, rfl, rfl, rfl⟩
        refine ⟨fun _ h => h, fun _ ha => ?_⟩
        have hmem := List.mem_of_getElem? hv
        have htells := halike.tells hv (ha.linked v hmem) rfl (ha.linked v hmem).plain
        refine htells.alone.chain ha fun w hw => ?_
        obtain rfl := Option.some.inj (hw.symm.trans hset)
        exact ⟨htells.linked, htells.current (ha.current v hmem)⟩
      split
      · exact hheard.trans (tellLost_links hE _ i client)
      · exact hheard.trans (drainViewer_links hE hset paced)

theorem filter_links (a : Actor E) (p : Viewer → Bool) :
    Links size a { a with viewers := a.viewers.filter p } where
  numbered := fun _ h => h
  chain := by
    intro _ ha
    have hmem : ∀ v ∈ a.viewers.filter p, v ∈ a.viewers := fun v => List.mem_of_mem_filter
    exact ⟨ha.toBase.of_sheds (filter_sheds a p) hmem rfl, fun v hv => ha.current v (hmem v hv)⟩

theorem join_links (a : Actor E) (client : ClientId) (sink : SinkId) (newSize : TermSize) :
    Links size a { a with
      viewers := a.viewers ++ [Viewer.new client sink newSize a.nextSerial]
      nextSerial := a.nextSerial + 1 } where
  numbered := fun _ h => h
  chain := by
    intro _ ha
    have hmem : ∀ {v : Viewer}, v ∈ a.viewers ++ [Viewer.new client sink newSize a.nextSerial] →
        v ∈ a.viewers ∨ v = Viewer.new client sink newSize a.nextSerial := by
      intro v hv
      simpa only [List.mem_append, List.mem_singleton] using hv
    refine ⟨⟨?_, ?_, ?_, ?_⟩, ?_⟩
    · intro v hv
      rcases hmem hv with hv | rfl
      · exact (ha.linked v hv).of_claims rfl
      · refine ⟨Chained.nil, by simp [Viewer.new], ?_, by simp [Viewer.new], by simp [Viewer.new]⟩
        have hnone : a.claims sink a.nextSerial ≤ framesInFlight := by
          rw [ha.unclaimed sink a.nextSerial (Nat.le_refl _)]
          exact Nat.zero_le _
        rw [inFlight_eq]
        simp only [Viewer.new, List.countP_nil, Nat.zero_add]
        exact hnone
    · rw [List.map_append, List.nodup_append]
      refine ⟨ha.serials, by simp, ?_⟩
      intro x hx y hy
      obtain ⟨v, hv, rfl⟩ := List.mem_map.mp hx
      have hfresh := ha.fresh v hv
      have hy' : y = a.nextSerial := by simpa [Viewer.new] using hy
      rw [hy']
      exact Nat.ne_of_lt hfresh
    · intro v hv
      rcases hmem hv with hv | rfl
      · exact Nat.lt_succ_of_lt (ha.fresh v hv)
      · exact Nat.lt_succ_self _
    · intro id c hc
      exact ha.unclaimed id c (Nat.le_of_succ_le hc)
    · intro v hv
      rcases hmem hv with hv | rfl
      · exact ha.current v hv
      · simp [Viewer.Current, Viewer.new]

theorem attach_links (hE : E.Numbered) (a : Actor E) (client : ClientId) (newSize : TermSize)
    (sink : SinkId) : Links size a (a.attach size client newSize sink) := by
  have hjoined := ((@flushFrame_links E size hE a).trans
    (filter_links _ fun v => v.client != client)).trans (join_links _ client sink newSize)
  simp only [attach]
  generalize a.flushFrame size = flushed at hjoined ⊢
  refine Links.trans ?_ (introduce_links hE _ client)
  split
  · refine (hjoined.trans ?_).trans ((sendTo_links _ client (by simp)).trans (applySize_links hE _ _))
    exact Links.of_same rfl rfl rfl (fun _ h => h) rfl
  · exact hjoined.trans (Links.of_same rfl rfl rfl (fun _ h => h) rfl)

theorem detach_links (hE : E.Numbered) (a : Actor E) (client : ClientId) (sink : Option SinkId) :
    Links size a (a.detach size client sink) := by
  simp only [detach]
  split
  · exact (filter_links a _).trans (onViewerGone_links hE _ client)
  · exact filter_links a _

theorem step_links (hE : E.Numbered) (a : Actor E) (s : Step) : Links size a (a.step size s) := by
  cases s with
  | attach client newSize sink => exact attach_links hE a client newSize sink
  | detach client sink => exact detach_links hE a client sink
  | reserve client => exact reserve_links a client
  | drive client take => exact (word_links a client).trans (drive_links hE _ client take)
  | resize client newSize =>
      exact (word_links a client).trans (resizeRequest_links hE _ client newSize)
  | reached client marker paced =>
      exact ((word_links a client).trans
        (reach_links _ client fun reach => reach.answered marker)).trans (frameRoom_links hE _ paced)
  | typed client =>
      simp only [step, typed]
      split
      · exact word_links a client
      · exact askDriver_links a client
  | rollCallOver => exact rollCallOver_links hE a
  | output bytes => exact Links.of_same rfl rfl rfl (fun _ h => h) (hE.write _ _)
  | flush => exact flushFrame_links hE a
  | frameRoom paced => exact frameRoom_links hE a paced
  | news n => exact news_links a n
  | answer client text => exact sendTo_links a client (by simp)
  | exited status => exact childExited_links hE a status
  | drained paced =>
      simp only [step]
      split
      · exact Links.rfl a
      · rename_i client sink rest _
        refine Links.trans (b := { a with drained := rest }) ?_ (sinkHasRoom_links hE _ client sink paced)
        exact Links.of_same rfl rfl rfl (fun _ h => h) rfl
  | take sink =>
      simp only [step]
      split
      · exact Links.rfl a
      · rename_i out rest hbuffer
        refine Links.of_sinks rfl (claims_setSink_le fun p => ?_) rfl rfl rfl
        rw [hbuffer]
        simp only [List.countP_append, List.countP_cons, List.countP_nil]
        omega
  | done sink k =>
      refine Links.of_sinks rfl (claims_setSink_le fun p => ?_) rfl rfl rfl
      rw [List.countP_append, List.countP_append]
      exact Nat.add_le_add_left (List.eraseIdx_sublist _ _).countP_le _
  | close sink =>
      refine Links.of_sinks rfl (claims_setSink_le fun p => ?_) rfl rfl rfl
      simp only [List.nil_append, List.countP_append]
      omega
  | wake k =>
      simp only [step, wake]
      split
      · exact Links.rfl a
      · split
        · exact Links.of_same rfl rfl rfl (fun _ h => h) rfl
        · split
          · exact Links.of_same rfl rfl rfl (fun _ h => h) rfl
          · exact Links.rfl a

theorem run_links (hE : E.Numbered) (a : Actor E) (steps : List Step) :
    Links size a (a.run size steps) := by
  induction steps generalizing a with
  | nil => exact Links.rfl a
  | cons s rest ih => exact (step_links hE a s).trans (ih _)

theorem start_chain (engine : E.State) (capacity : SinkId → Nat) (queuedMaxBytes : Nat) :
    Chain (start (E := E) engine capacity queuedMaxBytes) := by
  refine ⟨⟨?_, ?_, ?_, ?_⟩, ?_⟩ <;> simp [start, claims]

/-- In every run in which each frame numbered for everyone could be built and
encoded, in every state reached: the frames handed to a viewer, and those waiting
behind them, start with a whole frame and each diff follows the frame before it; a
viewer not marked has the last frame; and no more of its frames are in flight than
allowed. -/
theorem frames_chain (hE : E.Numbered) (size : TermEvent → Nat) (engine : E.State)
    (capacity : SinkId → Nat) (queuedMaxBytes : Nat) (steps : List Step)
    (hfits : Fits size ((start (E := E) engine capacity queuedMaxBytes).run size steps)) :
    ∀ before after, steps = before ++ after →
      ∀ v ∈ ((start (E := E) engine capacity queuedMaxBytes).run size before).viewers,
        Chained v.handed ∧ Chained (v.handed ++ framesOf v.queued) ∧
        (v.stale = false → (v.handed ++ framesOf v.queued).getLast?.map Frame.seq =
          some (E.last ((start (E := E) engine capacity queuedMaxBytes).run size before).engine)) ∧
        ((start (E := E) engine capacity queuedMaxBytes).run size before).inFlight v ≤
          framesInFlight := by
  intro before after hsplit v hv
  have hrest : Links size ((start (E := E) engine capacity queuedMaxBytes).run size before)
      ((start (E := E) engine capacity queuedMaxBytes).run size steps) := by
    rw [hsplit, run_append]
    exact run_links hE _ after
  have hchain := (run_links hE _ before).chain (fun built hb => hfits built (hrest.numbered built hb))
    (start_chain engine capacity queuedMaxBytes)
  have hl := hchain.linked v hv
  exact ⟨hl.chained.left, hl.chained, hchain.current v hv, hl.flight⟩

end Actor

theorem counting_numbered : counting.Numbered where
  write := fun _ _ => rfl
  take := by
    rintro s f t ⟨⟩
    exact ⟨rfl, rfl⟩
  idle := by
    rintro s t ⟨⟩
  full := by
    rintro s f t ⟨⟩
    exact ⟨rfl, rfl⟩
  baseline := by
    rintro s f images t ⟨⟩
    exact ⟨rfl, rfl⟩
  join := by
    rintro s f images t ⟨⟩
    exact ⟨rfl, rfl⟩
  joined := fun _ => rfl
  images := fun _ => rfl
  discard := fun _ => rfl
  resize := fun _ _ => rfl

namespace Actor

instance (size : TermEvent → Nat) (a : Actor E) : Decidable (Fits size a) :=
  inferInstanceAs (Decidable (∀ built ∈ a.numbered, _ = true))

/-- One viewer, with room for two frames, and more than that for everyone. -/
def threeFlushes : List Step := [.attach 1 ⟨80, 24, 8, 16⟩ 10, .flush, .flush, .flush]

def roomy : Actor counting := start (E := counting) (0 : Nat) (fun _ => 8) 1000

theorem frames_chain_threeFlushes :
    ∃ v ∈ (roomy.run (fun _ => 60) threeFlushes).viewers,
      v.handed.map Frame.seq = [1, 2] ∧ v.stale = false ∧ Chained v.handed ∧
      (roomy.run (fun _ => 60) threeFlushes).inFlight v ≤ framesInFlight := by
  have hhanded : ∃ v ∈ (roomy.run (fun _ => 60) threeFlushes).viewers,
      v.handed.map Frame.seq = [1, 2] ∧ v.stale = false := by
    decide +kernel
  obtain ⟨v, hv, hseqs, hstale⟩ := hhanded
  obtain ⟨hchained, -, -, hflight⟩ := frames_chain counting_numbered (fun _ => 60) (0 : Nat)
    (fun _ => 8) 1000 threeFlushes (by decide +kernel) threeFlushes [] (by simp) v hv
  exact ⟨v, hv, hseqs, hstale, hchained, hflight⟩

/-- Events whose second frame is past the codec's limit. -/
def secondTooLarge : TermEvent → Nat
  | .frame f => if f.seq = 2 then maxFrameBytes + 1 else 60
  | _ => 60

/-- The frame that cannot be encoded marks nobody, and the next diff is handed to a
viewer without the one before it. -/
theorem frames_skip_a_number :
    (∃ v ∈ (roomy.run secondTooLarge
        [.attach 1 ⟨80, 24, 8, 16⟩ 10, .flush]).viewers,
      v.stale = false ∧ v.handed = [⟨1, true, []⟩]) ∧
    ∃ v ∈ (roomy.run secondTooLarge
        [.attach 1 ⟨80, 24, 8, 16⟩ 10, .flush, .flush]).viewers,
      v.handed = [⟨1, true, []⟩, ⟨3, false, []⟩] ∧ ¬ Chained v.handed := by
  decide +kernel

end Actor

end Slopty.Session
