import Mathlib.Data.List.Perm.Subperm
import Slopty.Session.Seat

/-!
What leaves the seat alone. Handing events out, building frames and dropping viewers whose sink
closed move neither the driver nor the terminal's size, and no viewer changes its client or the
size it stated.
-/

namespace Slopty.Session

open Slopty.Lib

/-- The terminal's size is the one it was last resized to. -/
structure Engine.Sized (E : Engine) : Prop where
  write : ∀ e bytes, E.size (E.write e bytes) = E.size e
  take : ∀ e, E.size (E.takeFrame e).2 = E.size e
  full : ∀ e, E.size (E.fullFrame e).2 = E.size e
  baseline : ∀ e, E.size (E.baselineFrame e).2 = E.size e
  join : ∀ e, E.size (E.joinFrame e).2 = E.size e
  drain : ∀ e, E.size (E.drainImages e).2 = E.size e
  discard : ∀ e, E.size (E.discardFrame e) = E.size e
  resized : ∀ e newSize, (E.resize e newSize).1 = .ok () ∧ E.size (E.resize e newSize).2 = newSize

variable {E : Engine} {size : TermEvent → Nat}

def view (v : Viewer) : Nat × ClientId × TermSize := (v.serial, v.client, v.size)

namespace Actor

/-- The seat is as it was, some viewers apart that left. -/
structure Still (a b : Actor E) : Prop where
  driver : b.driver = a.driver
  size : E.size b.engine = E.size a.engine
  serials : b.nextSerial = a.nextSerial
  views : (b.viewers.map view).Subperm (a.viewers.map view)

theorem Still.of_map {a b : Actor E} (hdriver : b.driver = a.driver)
    (hsize : E.size b.engine = E.size a.engine) (hserials : b.nextSerial = a.nextSerial)
    (hviews : b.viewers.map view = a.viewers.map view) : Still a b :=
  ⟨hdriver, hsize, hserials, hviews ▸ List.Subperm.refl _⟩

theorem Still.refl (a : Actor E) : Still a a := Still.of_map rfl rfl rfl rfl

theorem Still.trans {a b c : Actor E} (h : Still a b) (h' : Still b c) : Still a c where
  driver := h'.driver.trans h.driver
  size := h'.size.trans h.size
  serials := h'.serials.trans h.serials
  views := h'.views.trans h.views

theorem setViewer_still {a : Actor E} {i : Nat} {v w : Viewer} (hv : a.viewers[i]? = some v)
    (hw : view w = view v) : Still a (a.setViewer i w) :=
  Still.of_map rfl rfl rfl (map_setViewer hv hw)

theorem waitForRoom_still (a : Actor E) (i : Nat) : Still a (a.waitForRoom i) := by
  unfold waitForRoom
  split
  · exact Still.refl a
  · rename_i v hv
    split
    · exact Still.refl a
    · exact Still.of_map rfl rfl rfl (map_setViewer hv rfl)

theorem enqueue_still {a : Actor E} {i : Nat} {v : Viewer} (hv : a.viewers[i]? = some v)
    (out : Outbound) : Still a (a.enqueue i v out) := by
  refine (setViewer_still hv ?_).trans (waitForRoom_still _ i)
  split <;> rfl

theorem deliver_still (a : Actor E) (i : Nat) (out : Outbound) : Still a (a.deliver i out).1 := by
  unfold deliver
  split
  · exact Still.refl a
  · rename_i v hv
    split
    · exact Still.refl a
    · split
      · split
        · exact Still.of_map rfl rfl rfl (map_setViewer hv rfl)
        · exact Still.refl a
        · exact enqueue_still hv out
      · exact enqueue_still hv out

theorem Still.andThen {a : Actor E} {r : Actor E × Bool} (h : Still a r.1)
    {next : Actor E → Actor E × Bool} (hnext : ∀ b, Still b (next b).1) :
    Still a (andThen r next).1 := by
  obtain ⟨b, ok⟩ := r
  cases ok with
  | true => exact h.trans (hnext b)
  | false => exact h

theorem deliverAll_still (a : Actor E) (i : Nat) (outs : List Outbound) :
    Still a (a.deliverAll i outs).1 := by
  induction outs generalizing a with
  | nil => exact Still.refl a
  | cons out rest ih => exact (deliver_still a i out).andThen fun b => ih b

theorem deliverMarker_still (a : Actor E) (i : Nat) : Still a (a.deliverMarker size i).1 := by
  have hmarker : Still a { a with nextMarker := (a.nextMarker + 1) % 2 ^ 64 } :=
    Still.of_map rfl rfl rfl rfl
  unfold deliverMarker
  dsimp only
  split
  · exact hmarker
  · refine hmarker.trans (Still.trans ?_ (deliver_still _ i _))
    split
    · rename_i v hv
      exact setViewer_still hv rfl
    · exact Still.refl _

theorem deliverFrame_still (a : Actor E) (i : Nat) (frame : Outbound) :
    Still a (a.deliverFrame size i frame).1 := by
  unfold deliverFrame
  split
  · exact Still.refl a
  · rename_i v hv
    split
    · exact Still.refl a
    · generalize v.reach.frame frame.wire = r
      obtain ⟨reach, markerDue⟩ := r
      have hset : Still a (a.setViewer i { v with reach := reach }) := setViewer_still hv rfl
      refine (hset.trans (deliver_still _ i _)).andThen fun b => ?_
      split
      · exact Still.refl b
      · exact deliverMarker_still b i

theorem removeOne_still (a : Actor E) (i : Nat) : Still a (a.removeOne i) := by
  unfold removeOne
  split
  · exact Still.refl a
  · rename_i v hv
    refine ⟨rfl, rfl, rfl, ?_⟩
    have hi := (List.getElem?_eq_some_iff.mp hv).1
    have hperm := ((swapRemove_perm hi).map view).subperm
    have hsub := ((List.eraseIdx_sublist a.viewers i).map view).subperm
    exact hperm.trans hsub

theorem remove_still (a : Actor E) (gone : List Nat) : Still a (a.remove gone) := by
  unfold remove
  generalize gone.reverse = l
  induction l generalizing a with
  | nil => exact Still.refl a
  | cons i rest ih => exact (removeOne_still a i).trans (ih _)

theorem visit_still {task : Actor E → Nat → Actor E × Bool} (htask : ∀ a i, Still a (task a i).1)
    (a : Actor E) (indices : List Nat) : Still a (visit task indices a).1 := by
  induction indices generalizing a with
  | nil => exact Still.refl a
  | cons i rest ih => exact (htask a i).trans (ih _)

theorem eachViewer_still {task : Actor E → Nat → Actor E × Bool}
    (htask : ∀ a i, Still a (task a i).1) (a : Actor E) (indices : List Nat) :
    Still a (a.eachViewer task indices) :=
  (visit_still htask a indices).trans (remove_still _ _)

theorem offerFrame_still (images : List Outbound) (frame : Outbound) (a : Actor E) (i : Nat) :
    Still a (offerFrame size images frame a i).1 := by
  unfold offerFrame
  split
  · exact Still.refl a
  · rename_i v hv
    split
    · exact Still.refl a
    · split
      · exact setViewer_still hv rfl
      · exact (deliverAll_still a i images).andThen fun b => deliverFrame_still b i frame

theorem still_engine (a : Actor E) {e : E.State} (h : E.size e = E.size a.engine) :
    Still a { a with engine := e } :=
  Still.of_map rfl h rfl rfl

theorem sendFrame_still (hE : E.Sized) (a : Actor E) (frame : Frame) :
    Still a (a.sendFrame size frame) := by
  have hdrain := still_engine a (hE.drain a.engine)
  unfold sendFrame
  dsimp only
  split
  · exact hdrain
  · exact hdrain.trans (eachViewer_still (offerFrame_still _ _) _ _)

theorem wholeFrame_still (hE : E.Sized) (a : Actor E) : Still a (a.wholeFrame size).1 := by
  have hsize : E.size
      (if a.viewers.all fun v => v.stale then E.baselineFrame a.engine
        else E.joinFrame a.engine).2 = E.size a.engine := by
    split
    · exact hE.baseline a.engine
    · exact hE.join a.engine
  have h := still_engine a hsize
  unfold wholeFrame
  generalize (if a.viewers.all fun v => v.stale then E.baselineFrame a.engine
    else E.joinFrame a.engine) = r at h
  obtain ⟨joined, engine⟩ := r
  dsimp only at h ⊢
  split
  · exact h
  · split
    · exact h
    · exact h

theorem deliverWhole_still (whole : Whole) (a : Actor E) (i : Nat) :
    Still a (deliverWhole size whole a i).1 := by
  unfold deliverWhole
  split
  · exact Still.refl a
  · rename_i v hv
    have hset : Still a (a.setViewer i { v with stale := false }) := setViewer_still hv rfl
    exact (hset.trans (deliverAll_still _ i _)).andThen fun b => deliverFrame_still b i _

theorem tellWhole_still (whole : Except (Option Outbound) Whole) (a : Actor E) (i : Nat) :
    Still a (tellWhole size whole a i).1 := by
  unfold tellWhole
  split
  · exact deliverWhole_still _ a i
  · exact Still.refl a
  · exact deliver_still a i _

theorem sendWholeFrames_still (hE : E.Sized) (a : Actor E) : Still a (a.sendWholeFrames size) := by
  unfold sendWholeFrames
  dsimp only
  split
  · exact Still.refl a
  · exact (wholeFrame_still hE a).trans (eachViewer_still (tellWhole_still _) _ _)

theorem sendWhole_still (hE : E.Sized) (a : Actor E) (i : Nat) : Still a (a.sendWhole size i).1 :=
  (wholeFrame_still hE a).trans (tellWhole_still _ _ i)

theorem deliverInOrder_still (out : Outbound) (afterScreen : Bool) (a : Actor E) (i : Nat) :
    Still a (deliverInOrder out afterScreen a i).1 := by
  unfold deliverInOrder
  dsimp only
  split
  · exact Still.refl a
  · rename_i v hv
    split
    · exact setViewer_still hv rfl
    · exact deliver_still a i out

theorem releaseOne_still (a : Actor E) (i : Nat) : Still a (a.releaseOne i).1 := by
  unfold releaseOne
  split
  · exact Still.refl a
  · split
    · exact Still.refl a
    · rename_i v hv
      have hset : Still a (a.setViewer i { v with afterScreen := [] }) := setViewer_still hv rfl
      exact hset.trans (deliverAll_still _ i _)

theorem releaseAfterScreen_still (a : Actor E) : Still a a.releaseAfterScreen :=
  eachViewer_still releaseOne_still a _

theorem broadcastEvent_still (a : Actor E) (ev : TermEvent) (afterScreen : Bool) :
    Still a (a.broadcastEvent size ev afterScreen) := by
  unfold broadcastEvent
  split
  · exact Still.refl a
  · split
    · exact Still.refl a
    · exact eachViewer_still (deliverInOrder_still _ _) a _

theorem sendTo_still (a : Actor E) (client : ClientId) (ev : TermEvent) :
    Still a (a.sendTo size client ev) := by
  unfold sendTo
  split
  · exact Still.refl a
  · split
    · exact Still.refl a
    · exact deliverInOrder_still _ _ a _

theorem sendBuilt_still (hE : E.Sized) (a : Actor E) (built : Except String (Option Frame))
    {engine : E.State} (he : E.size engine = E.size a.engine) (tell : Bool) :
    Still a (a.sendBuilt size built engine tell) := by
  have h : Still a { a with engine := engine, numbered := a.numbered ++ a.numbers built engine } :=
    Still.of_map rfl he rfl rfl
  unfold sendBuilt
  dsimp only
  split
  · exact h.trans (sendFrame_still hE _ _)
  · exact h
  · split
    · exact h.trans (broadcastEvent_still _ _ _)
    · exact h

theorem flushDiff_still (hE : E.Sized) (a : Actor E) : Still a (a.flushDiff size) := by
  have howed : ∀ owed, Still a { a with owed := owed } := fun _ => Still.of_map rfl rfl rfl rfl
  unfold flushDiff
  split
  · exact Still.of_map rfl (hE.discard a.engine) rfl rfl
  · split
    · refine (howed false).trans ?_
      exact sendBuilt_still hE { a with owed := false } _ (hE.take a.engine) true
    · exact howed true

theorem flushFrame_still (hE : E.Sized) (a : Actor E) : Still a (a.flushFrame size) :=
  ((flushDiff_still hE a).trans (sendWholeFrames_still hE _)).trans (releaseAfterScreen_still _)

theorem frameRoom_still (hE : E.Sized) (a : Actor E) (paced : Bool) :
    Still a (a.frameRoom size paced) := by
  unfold frameRoom
  split
  · exact flushFrame_still hE a
  · exact Still.refl a

theorem oweWhole_still (hE : E.Sized) (a : Actor E) (i : Nat) : Still a (a.oweWhole size i) := by
  unfold oweWhole
  split
  · exact Still.refl a
  · rename_i v hv
    have hset : Still a (a.setViewer i { v with stale := true }) := setViewer_still hv rfl
    dsimp only
    split
    · have hwhole : Still _ ((a.setViewer i { v with stale := true }).sendWhole size i).1 :=
        sendWhole_still hE _ i
      split
      · rename_i b hb
        rw [hb] at hwhole
        exact hset.trans hwhole
      · rename_i b hb
        rw [hb] at hwhole
        exact (hset.trans hwhole).trans (remove_still _ _)
    · exact hset

theorem tellStanding_still (a : Actor E) (client : ClientId) :
    Still a (a.tellStanding size client) := by
  unfold tellStanding
  generalize a.standing = l
  induction l generalizing a with
  | nil => exact Still.refl a
  | cons ev rest ih => exact (sendTo_still a client ev).trans (ih _)

theorem tellScreen_still (hE : E.Sized) (a : Actor E) (client : ClientId) :
    Still a (a.tellScreen size client) := by
  unfold tellScreen
  split
  · exact oweWhole_still hE a _
  · exact Still.refl a

theorem tellExit_still (a : Actor E) (client : ClientId) : Still a (a.tellExit size client) := by
  unfold tellExit
  split
  · split
    · exact deliverInOrder_still _ _ a _
    · exact Still.refl a
  · exact Still.refl a

theorem introduce_still (hE : E.Sized) (a : Actor E) (client : ClientId) :
    Still a (a.introduce size client) :=
  ((tellStanding_still a client).trans (tellScreen_still hE _ client)).trans
    (tellExit_still _ client)

theorem sendFull_still (hE : E.Sized) (a : Actor E) : Still a (a.sendFull size) := by
  unfold sendFull
  split
  · exact Still.refl a
  · exact sendBuilt_still hE a _ (hE.full a.engine) false

/-- The terminal comes to the new size, and the rest of the seat is as it was. -/
theorem applySize_still (hE : E.Sized) (a : Actor E) (newSize : TermSize) :
    ∃ e, E.size e = newSize ∧ Still { a with engine := e } (a.applySize size newSize) := by
  unfold applySize
  split
  · rename_i heq
    exact ⟨a.engine, heq.symm, Still.refl a⟩
  · obtain ⟨hok, hsize⟩ := hE.resized a.engine newSize
    refine ⟨(E.resize a.engine newSize).2, hsize, ?_⟩
    dsimp only
    rw [hok]
    exact (broadcastEvent_still _ _ _).trans (sendFull_still hE _)

theorem updateClient_still (a : Actor E) (client : ClientId) {f : Viewer → Viewer}
    (hf : ∀ v, view (f v) = view v) : Still a (a.updateClient client f) := by
  unfold updateClient
  split
  · exact Still.refl a
  · split
    · exact Still.refl a
    · rename_i v hv
      exact setViewer_still hv (hf v)

theorem reachedRequest_still (hE : E.Sized) (a : Actor E) (client : ClientId) (marker : Nat)
    (paced : Bool) : Still a (a.reachedRequest size client marker paced) :=
  (updateClient_still a client
    (f := fun v => { v with reach := v.reach.answered marker }) fun _ => rfl).trans
    (frameRoom_still hE _ paced)

theorem askDriver_still (a : Actor E) (asker : ClientId) : Still a (a.askDriver size asker) := by
  unfold askDriver
  split
  · exact Still.refl a
  · rename_i driver _
    split
    · exact Still.refl a
    · split
      · exact Still.of_map rfl rfl rfl rfl
      · split
        · exact Still.refl a
        · split
          · exact Still.refl a
          · rename_i i _ _
            have hmarker : Still a { a with nextMarker := (a.nextMarker + 1) % 2 ^ 64 } :=
              Still.of_map rfl rfl rfl rfl
            dsimp only
            split
            · exact hmarker
            · rename_i marker _
              have hupdate := updateClient_still
                { a with nextMarker := (a.nextMarker + 1) % 2 ^ 64 } driver
                (f := fun v => { v with reach := v.reach.marker a.nextMarker }) fun _ => rfl
              have hdeliver := (hmarker.trans hupdate).trans (deliver_still _ i marker)
              exact hdeliver.trans (Still.of_map rfl rfl rfl rfl)

theorem word_still (a : Actor E) (client : ClientId) : Still a (a.word client) := by
  unfold word
  split
  · exact Still.of_map rfl rfl rfl rfl
  · exact Still.refl a

theorem typed_still (a : Actor E) (client : ClientId) : Still a (a.typed size client) := by
  unfold typed
  split
  · exact word_still a client
  · exact askDriver_still a client

theorem childExited_still (hE : E.Sized) (a : Actor E) (status : Option Nat) :
    Still a (a.childExited size status) := by
  unfold childExited
  dsimp only
  have hexited : Still a { a with exited := some status } := Still.of_map rfl rfl rfl rfl
  have hflush : Still a (Actor.flushFrame size { a with exited := some status }) :=
    hexited.trans (flushFrame_still hE _)
  generalize Actor.flushFrame size { a with exited := some status } = b at hflush ⊢
  refine hflush.trans (Still.trans ?_ (broadcastEvent_still _ _ _))
  split
  · refine Still.trans ?_ (broadcastEvent_still _ _ _)
    exact Still.of_map rfl rfl rfl rfl
  · exact Still.of_map rfl rfl rfl rfl

theorem news_still (a : Actor E) (n : News) : Still a (a.news size n) := by
  have hsaid : ∀ {b : Actor E} ev, Still a b → Still a (b.broadcast size ev) :=
    fun ev hb => hb.trans (broadcastEvent_still _ ev false)
  cases n with
  | title text =>
    show Still a (if _ then _ else _)
    split
    · exact Still.refl a
    · exact hsaid _ (Still.of_map rfl rfl rfl rfl)
  | program reports =>
    show Still a (if _ then _ else _)
    split
    · exact Still.refl a
    · exact hsaid _ (Still.of_map rfl rfl rfl rfl)
  | place path repo branch => exact hsaid _ (Still.of_map rfl rfl rfl rfl)
  | colors overrides => exact hsaid _ (Still.of_map rfl rfl rfl rfl)
  | progress report => exact hsaid _ (Still.of_map rfl rfl rfl rfl)
  | pointer shape => exact hsaid _ (Still.of_map rfl rfl rfl rfl)
  | dropTarget accepts => exact hsaid _ (Still.of_map rfl rfl rfl rfl)
  | other text => exact hsaid _ (Still.refl a)

theorem wake_still (a : Actor E) (k : Nat) : Still a (a.wake k) := by
  unfold wake
  split
  · exact Still.refl a
  · dsimp only
    split
    · exact Still.of_map rfl rfl rfl rfl
    · split
      · exact Still.of_map rfl rfl rfl rfl
      · exact Still.refl a

theorem drainQueue_view {outs : List Outbound} {s s' : Sink} {v w : Viewer} {done : Bool}
    (h : drainQueue outs s v = some (s', w, done)) : view w = view v := by
  induction outs generalizing s v with
  | nil =>
    obtain ⟨rfl, rfl, rfl⟩ : s = s' ∧ v = w ∧ true = done := by simpa [drainQueue] using h
    rfl
  | cons out rest ih =>
    rw [drainQueue] at h
    split at h
    · rw [ih h]
      rfl
    · obtain ⟨rfl, rfl, rfl⟩ : s = s' ∧ v = w ∧ false = done := by simpa using h
      rfl
    · cases h

theorem drainViewer_still (hE : E.Sized) {a : Actor E} {i : Nat} {v : Viewer}
    (hv : a.viewers[i]? = some v) (paced : Bool) : Still a (a.drainViewer size i v paced) := by
  unfold drainViewer
  split
  · exact remove_still a [i]
  · rename_i s w hdrain
    have hset : Still a ((a.setSink v.sink s).setViewer i w) :=
      Still.of_map rfl rfl rfl (map_setViewer hv (drainQueue_view hdrain))
    exact hset.trans (frameRoom_still hE _ paced)
  · rename_i s w hdrain
    have hset : Still a ((a.setSink v.sink s).setViewer i w) :=
      Still.of_map rfl rfl rfl (map_setViewer hv (drainQueue_view hdrain))
    exact hset.trans (waitForRoom_still _ i)

end Actor

end Slopty.Session
