import Slopty.Input.Injector
import Mathlib.Data.List.Basic

/-!
What a stream's input leaves down on the worker: the keys, the buttons and the gestures under way
after the events posted so far, read off these events alone, and the injector against it.
-/

namespace Slopty.Input

open Slopty.Lib

/-- What is down after some events. A release counts even where the system would not take it. -/
structure Desk where
  keys : Nat → Bool := fun _ => false
  /-- The number of the press that holds a button, and whether it went through the tap. -/
  press : MouseButton → Option (Nat × Bool) := fun _ => none
  /-- The greatest number a press took. -/
  top : Nat := 0
  scroll : Bool := false
  coast : Bool := false
  /-- The gesture a scroll comes with. -/
  paired : Bool := false
  magnify : Bool := false
  rotate : Bool := false

namespace Desk

/-- A phase of a scroll that goes on counts once the system took it, its end at any rate. -/
def phased (under : Bool) (phase : ScrollPhase) (ok : Bool) : Bool :=
  if phase = .none then under else if underWay phase then ok || under else false

theorem phased_eq_true {under : Bool} {phase : ScrollPhase} {ok : Bool}
    (h : phased under phase ok = true) :
    under = true ∧ (phase = .none ∨ ok = false) ∨ phase ≠ .none ∧ underWay phase = true := by
  unfold phased at h
  split at h
  · exact .inl ⟨h, .inl ‹_›⟩
  · rename_i hphase
    split at h
    · exact .inr ⟨hphase, ‹_›⟩
    · exact absurd h Bool.false_ne_true

def number (d : Desk) (b : MouseButton) : Nat := (d.press b).elim 0 Prod.fst

variable {F : Type}

def take (d : Desk) (p : Post F × Bool) : Desk :=
  match p.1.event with
  | .mouse (.down _) _ b _ press =>
      { d with
        press := Function.update d.press b (some (press, isHid p.1.route)), top := max d.top press }
  | .mouse (.up _) _ b _ _ => { d with press := Function.update d.press b none }
  | .scroll _ _ _ true phase momentum _ =>
      { d with scroll := phased d.scroll phase p.2, coast := phased d.coast momentum p.2 }
  | .key vk true _ _ => { d with keys := Function.update d.keys vk (p.2 || d.keys vk) }
  | .key vk false _ _ => { d with keys := Function.update d.keys vk false }
  | .gesture _ (.scroll _ _) phase _ => { d with paired := underWay phase }
  | .gesture _ (.magnify _) phase _ => { d with magnify := underWay phase }
  | .gesture _ (.rotate _) phase _ => { d with rotate := underWay phase }
  | _ => d

/-- An event as it has to be: a press of a number of its own, a drag or a release of the number of
the press that holds its button, the left one's the way it went, and no scroll gesture that goes on
without having begun. -/
def Takes (d : Desk) (p : Post F) : Prop :=
  match p.event with
  | .mouse (.down _) _ _ _ press => d.top < press
  | .mouse .moved _ _ _ press => press = 0
  | .mouse _ _ b _ press =>
      press = d.number b ∧
        (b = .left → ∀ n hid, d.press .left = some (n, hid) → isHid p.route = hid)
  | .gesture _ (.scroll _ _) phase _ => phase = .mayBegin ∨ phase = .began ∨ d.paired = true
  | _ => True

end Desk

section Posts

variable {F : Type}

def desk (posts : List (Post F × Bool)) : Desk := posts.foldl Desk.take {}

/-- Every event was as it had to be. -/
def Proper (posts : List (Post F × Bool)) : Prop :=
  ∀ before p after, posts = before ++ p :: after → (desk before).Takes p.1

theorem desk_append (posts : List (Post F × Bool)) (p : Post F × Bool) :
    desk (posts ++ [p]) = (desk posts).take p := by
  rw [desk, List.foldl_append]
  rfl

theorem Proper.append {posts : List (Post F × Bool)} (h : Proper posts) {p : Post F × Bool}
    (hp : (desk posts).Takes p.1) : Proper (posts ++ [p]) := by
  intro before q after heq
  rcases List.append_eq_append_iff.mp heq with ⟨more, hbefore, hrest⟩ | ⟨more, hposts, hrest⟩
  · -- the event is the last one
    cases more with
    | nil =>
      obtain ⟨rfl, -⟩ := List.cons.inj hrest
      rw [List.append_nil] at hbefore
      rw [hbefore]
      exact hp
    | cons m more =>
      have hlen := congrArg List.length hrest
      rw [List.length_singleton, List.length_append, List.length_cons, List.length_cons] at hlen
      omega
  · cases more with
    | nil =>
      obtain ⟨rfl, -⟩ := List.cons.inj hrest
      rw [List.append_nil] at hposts
      exact hposts ▸ hp
    | cons m more =>
      obtain ⟨rfl, hafter⟩ := List.cons.inj hrest
      exact h before q more hposts

theorem proper_nil : Proper ([] : List (Post F × Bool)) := fun _ _ _ heq =>
  absurd heq.symm (List.append_ne_nil_of_right_ne_nil _ (List.cons_ne_nil _ _))

end Posts

variable {W F : Type}

/-- What the injector keeps covers what is down. -/
structure Covers (virtualKey : KeyCode → Option Nat) (isHeld : MouseButton → Bool) (isPlaced : Bool)
    (pressedKeys : List (KeyCode × Nat)) (opened : Open) (presses : MouseButton → Nat)
    (lastPress : Nat) (d : Desk) : Prop where
  keys : ∀ vk, d.keys vk = true → ∃ k ∈ pressedKeys, k.2 = vk
  named : ∀ k ∈ pressedKeys, (virtualKey k.1).isSome = true ∧ k.1 ≠ .capsLock
  once : ∀ k ∈ pressedKeys, ∀ k' ∈ pressedKeys, k.1 = k'.1 → k = k'
  held : ∀ b, d.press b ≠ none → isHeld b = true
  pressed : ∀ b, presses b = d.number b
  top : d.top ≤ lastPress
  scroll : d.scroll = true → opened.scroll.isSome = true
  coast : d.coast = true → opened.coast = true
  magnify : d.magnify = true → opened.magnify = true
  rotate : d.rotate = true → opened.rotate = true
  paired : opened.scroll = some true → d.paired = true
  /-- There is a place to let go at as soon as there is something to let go of. -/
  placed : isPlaced = false → (∀ b, isHeld b = false) ∧ opened.scroll = none ∧
    opened.coast = false ∧ opened.magnify = false ∧ opened.rotate = false

namespace Injector

variable (e : Env W F) (inj : Injector W F)

/-- The injector against what is down. -/
structure Sound : Prop where
  covers : Covers e.virtualKey inj.held inj.at'.isSome inj.keys inj.opened inj.presses
    inj.lastPress (desk inj.posts)
  proper : Proper inj.posts

/-- A held left press goes the way the stream's pointer goes. -/
def Way : Prop :=
  ∀ n hid, (desk inj.posts).press .left = some (n, hid) →
    hid = (inj.drag.isSome || isHid inj.route)

structure Good : Prop extends inj.Sound e where
  way : inj.Way

/-- What giving an event changes. -/
theorem give_eq (p : Post F) : ∃ w, (inj.give e p).2 =
    { inj with backend := w, posts := inj.posts ++ [(p, isOk (inj.give e p).1)] } :=
  ⟨(e.backend.post inj.backend p).2, rfl⟩

theorem isHid_bound {event : Event F} (h : isPointer event = true) :
    isHid (inj.bound event) = (inj.drag.isSome || isHid inj.route) := by
  unfold bound
  rw [h, Bool.true_and]
  cases inj.drag.isSome with
  | true => rfl
  | false =>
    rw [if_neg Bool.false_ne_true, Bool.false_or]
    split
    · rename_i hroute _ _
      rw [hroute]
      rfl
    · rfl

end Injector

namespace Injector

variable {e : Env W F} {inj : Injector W F}

/-- An event after which the same is down. -/
theorem Good.give (h : inj.Good e) {p : Post F} (hdesk : ∀ d ok, Desk.take d (p, ok) = d)
    (htakes : (desk inj.posts).Takes p) : (inj.give e p).2.Good e := by
  obtain ⟨w, hgive⟩ := inj.give_eq e p
  have hsame : desk (inj.posts ++ [(p, isOk (inj.give e p).1)]) = desk inj.posts := by
    rw [desk_append, hdesk]
  rw [hgive]
  refine ⟨⟨?_, h.proper.append htakes⟩, ?_⟩
  · dsimp only
    rw [hsame]
    exact h.covers
  · unfold Way
    dsimp only
    rw [hsame]
    exact h.way

/-- A press. -/
theorem Sound.pressed (h : inj.Sound e) {b : MouseButton} (hway : b ≠ .left → inj.Way)
    (hat : inj.at'.isSome = true) (at' : Point F) (clicks : Nat) :
    ((inj.setHeld b true).postMouse e (.down b.cg) at' b clicks).2.Good e := by
  let inj1 : Injector W F := { inj.setHeld b true with
    lastPress := inj.lastPress + 1, presses := Function.update inj.presses b (inj.lastPress + 1) }
  let p : Post F :=
    { route := (if b.cg = .right then some Route.hid else none).getD
        (inj1.bound (.mouse (.down b.cg) at' b clicks (inj.lastPress + 1)))
      flags := inj.flags
      event := .mouse (.down b.cg) at' b clicks (inj.lastPress + 1) }
  change (inj1.give e p).2.Good e
  obtain ⟨w, hgive⟩ := inj1.give_eq e p
  have hdesk : desk (inj.posts ++ [(p, isOk (inj1.give e p).1)]) =
      { desk inj.posts with
        press := Function.update (desk inj.posts).press b
          (some (inj.lastPress + 1, isHid p.route))
        top := max (desk inj.posts).top (inj.lastPress + 1) } := desk_append _ _
  rw [hgive]
  refine ⟨⟨?_, h.proper.append (Nat.lt_succ_of_le h.covers.top)⟩, ?_⟩
  · change Covers e.virtualKey (Function.update inj.held b true) inj.at'.isSome inj.keys inj.opened
      (Function.update inj.presses b (inj.lastPress + 1)) (inj.lastPress + 1)
      (desk (inj.posts ++ [(p, isOk (inj1.give e p).1)]))
    rw [hdesk]
    refine ⟨h.covers.keys, h.covers.named, h.covers.once, fun c hc => ?_, fun c => ?_, ?_,
      h.covers.scroll, h.covers.coast, h.covers.magnify, h.covers.rotate, h.covers.paired, fun hno => ?_⟩
    · by_cases hcb : c = b
      · rw [hcb, Function.update_self]
      · dsimp only at hc
        rw [Function.update_of_ne hcb] at hc ⊢
        exact h.covers.held c hc
    · by_cases hcb : c = b
      · rw [hcb, Function.update_self, Desk.number]
        dsimp only
        rw [Function.update_self]
        rfl
      · rw [Function.update_of_ne hcb, h.covers.pressed c, Desk.number, Desk.number]
        dsimp only
        rw [Function.update_of_ne hcb]
    · exact max_le (h.covers.top.trans (Nat.le_succ _)) le_rfl
    · exact absurd (hno.symm.trans hat) Bool.false_ne_true
  · intro n hid hpress
    change (desk (inj.posts ++ [(p, isOk (inj1.give e p).1)])).press .left = some (n, hid) at hpress
    rw [hdesk] at hpress
    dsimp only at hpress ⊢
    by_cases hb : b = .left
    · subst hb
      rw [Function.update_self] at hpress
      rw [← (Prod.mk.inj (Option.some.inj hpress)).2]
      exact inj1.isHid_bound rfl
    · rw [Function.update_of_ne (Ne.symm hb)] at hpress
      exact hway hb n hid hpress

/-- A release. -/
theorem Good.released (h : inj.Good e) (b : MouseButton) (at' : Point F) (clicks : Nat) :
    ((inj.setHeld b false).postMouse e (.up b.cg) at' b clicks).2.Good e := by
  let inj1 : Injector W F := { inj.setHeld b false with
    presses := Function.update inj.presses b 0 }
  let p : Post F :=
    { route := (if b.cg = .right then some Route.hid else none).getD
        (inj1.bound (.mouse (.up b.cg) at' b clicks (inj.presses b)))
      flags := inj.flags
      event := .mouse (.up b.cg) at' b clicks (inj.presses b) }
  change (inj1.give e p).2.Good e
  obtain ⟨w, hgive⟩ := inj1.give_eq e p
  have hdesk : desk (inj.posts ++ [(p, isOk (inj1.give e p).1)]) =
      { desk inj.posts with press := Function.update (desk inj.posts).press b none } :=
    desk_append _ _
  have htakes : (desk inj.posts).Takes p := by
    refine ⟨h.covers.pressed b, ?_⟩
    rintro rfl n hid hpress
    exact (inj1.isHid_bound rfl).trans (h.way n hid hpress).symm
  rw [hgive]
  refine ⟨⟨?_, h.proper.append htakes⟩, ?_⟩
  · change Covers e.virtualKey (Function.update inj.held b false) inj.at'.isSome inj.keys inj.opened
      (Function.update inj.presses b 0) inj.lastPress
      (desk (inj.posts ++ [(p, isOk (inj1.give e p).1)]))
    rw [hdesk]
    refine ⟨h.covers.keys, h.covers.named, h.covers.once, fun c hc => ?_, fun c => ?_, h.covers.top,
      h.covers.scroll, h.covers.coast, h.covers.magnify, h.covers.rotate, h.covers.paired,
      fun hno => ?_⟩
    · by_cases hcb : c = b
      · dsimp only at hc
        rw [hcb, Function.update_self] at hc
        exact absurd rfl hc
      · dsimp only at hc
        rw [Function.update_of_ne hcb] at hc ⊢
        exact h.covers.held c hc
    · by_cases hcb : c = b
      · rw [hcb, Function.update_self, Desk.number]
        dsimp only
        rw [Function.update_self]
        rfl
      · rw [Function.update_of_ne hcb, h.covers.pressed c, Desk.number, Desk.number]
        dsimp only
        rw [Function.update_of_ne hcb]
    · refine ⟨fun c => ?_, (h.covers.placed hno).2⟩
      by_cases hcb : c = b
      · rw [hcb, Function.update_self]
      · rw [Function.update_of_ne hcb]
        exact (h.covers.placed hno).1 c
  · intro n hid hpress
    change (desk (inj.posts ++ [(p, isOk (inj1.give e p).1)])).press .left = some (n, hid) at hpress
    rw [hdesk] at hpress
    dsimp only at hpress ⊢
    by_cases hb : b = .left
    · subst hb
      rw [Function.update_self] at hpress
      exact absurd hpress.symm (Option.some_ne_none _)
    · rw [Function.update_of_ne (Ne.symm hb)] at hpress
      exact h.way n hid hpress

/-- A drag. -/
theorem Good.dragged (h : inj.Good e) (c : CgButton) (b : MouseButton) (at' : Point F)
    (clicks : Nat) : (inj.postMouse e (.dragged c) at' b clicks).2.Good e := by
  refine h.give (fun _ _ => rfl) ⟨h.covers.pressed b, ?_⟩
  rintro rfl n hid hpress
  exact (inj.isHid_bound rfl).trans (h.way n hid hpress).symm

theorem Good.moved (h : inj.Good e) (b : MouseButton) (at' : Point F) (clicks : Nat) :
    (inj.postMouse e .moved at' b clicks).2.Good e :=
  h.give (fun _ _ => rfl) rfl

/-- A pointer event finds its point, and with it a place to let go at. -/
theorem point_eq (e : Env W F) (inj : Injector W F) (now : Nat) (x y : F) :
    ∃ w bounds boundsAt at' placed, (inj.point e now x y).2 =
      { inj with backend := w, bounds, boundsAt, at', placed } ∧
      (inj.at'.isSome = true → at'.isSome = true) ∧
      ∀ p, (inj.point e now x y).1 = .ok p → at' = some p := by
  have hread : ∃ w bounds boundsAt,
      (if (inj.boundsAt.all fun at' => decide (boundsTtl < now - at')) = true then
        { inj with
          backend := (e.backend.bounds inj.backend inj.target).2
          bounds := (e.backend.bounds inj.backend inj.target).1, boundsAt := some now }
      else inj) = { inj with backend := w, bounds, boundsAt } := by
    split
    · exact ⟨_, _, _, rfl⟩
    · exact ⟨_, _, _, rfl⟩
  obtain ⟨w, bounds, boundsAt, hread⟩ := hread
  unfold Injector.point
  dsimp only [asks]
  rw [hread]
  dsimp only
  cases bounds with
  | none => exact ⟨w, _, boundsAt, inj.at', inj.placed, rfl, id, fun p hp => by cases hp⟩
  | some rect =>
    dsimp only
    split
    · split
      · exact ⟨w, _, boundsAt, _, _, rfl, fun _ => rfl,
          fun p hp => congrArg some (Except.ok.inj hp)⟩
      · exact ⟨w, _, boundsAt, _, inj.placed, rfl, fun _ => rfl,
          fun p hp => congrArg some (Except.ok.inj hp)⟩
    · exact ⟨w, _, boundsAt, _, inj.placed, rfl, fun _ => rfl,
        fun p hp => congrArg some (Except.ok.inj hp)⟩

theorem Good.point (h : inj.Good e) (now : Nat) (x y : F) :
    (inj.point e now x y).2.Good e ∧
      ∀ p, (inj.point e now x y).1 = .ok p → (inj.point e now x y).2.at'.isSome = true := by
  obtain ⟨w, bounds, boundsAt, at', placed, heq, hplaced, hok⟩ := point_eq e inj now x y
  rw [heq]
  refine ⟨⟨⟨⟨h.covers.keys, h.covers.named, h.covers.once, h.covers.held, h.covers.pressed,
    h.covers.top, h.covers.scroll, h.covers.coast, h.covers.magnify, h.covers.rotate, h.covers.paired,
    fun hno => h.covers.placed ?_⟩, h.proper⟩, h.way⟩, fun p hp => ?_⟩
  · cases hat : inj.at'.isSome with
    | true => exact absurd (hno.symm.trans (hplaced hat)) Bool.false_ne_true
    | false => rfl
  · exact (congrArg Option.isSome (hok p hp)).trans rfl

/-- Making the owner active changes nothing that is down. -/
theorem ensureActive_eq (e : Env W F) (inj : Injector W F) (now : Nat) :
    ∃ w activeAt, inj.ensureActive e now = { inj with backend := w, activeAt } := by
  unfold ensureActive
  split
  · split
    · exact ⟨_, _, rfl⟩
    · dsimp only [asks]
      split
      · exact ⟨_, _, rfl⟩
      · exact ⟨_, _, rfl⟩
  · exact ⟨_, _, rfl⟩

theorem Good.ensureActive (h : inj.Good e) (now : Nat) : (inj.ensureActive e now).Good e := by
  obtain ⟨w, activeAt, heq⟩ := ensureActive_eq e inj now
  rw [heq]
  exact ⟨⟨h.covers, h.proper⟩, h.way⟩

/-- A left press may begin a drag through the tap. -/
theorem followPress_eq (e : Env W F) (inj : Injector W F) (now : Nat) (at' : Point F) :
    ∃ w placed drag, inj.followPress e now at' = { inj with backend := w, placed, drag } := by
  unfold followPress
  split
  · split
    · exact ⟨_, _, _, rfl⟩
    · dsimp only [asks]
      split
      · exact ⟨_, _, _, rfl⟩
      · exact ⟨_, _, _, rfl⟩
  · exact ⟨_, _, _, rfl⟩

theorem Sound.followPress (h : inj.Sound e) (now : Nat) (at' : Point F) :
    (inj.followPress e now at').Sound e ∧
      (inj.followPress e now at').at' = inj.at' := by
  obtain ⟨w, placed, drag, heq⟩ := followPress_eq e inj now at'
  rw [heq]
  exact ⟨⟨h.covers, h.proper⟩, rfl⟩

/-- What letting go of buttons leaves alone. -/
structure Unpressed (inj inj' : Injector W F) : Prop where
  at' : inj'.at' = inj.at'
  keys : inj'.keys = inj.keys
  opened : inj'.opened = inj.opened
  drag : inj'.drag = inj.drag
  route : inj'.route = inj.route

theorem Unpressed.refl (inj : Injector W F) : Unpressed inj inj := ⟨rfl, rfl, rfl, rfl, rfl⟩

theorem Unpressed.trans {a b c : Injector W F} (h : Unpressed a b) (h' : Unpressed b c) :
    Unpressed a c :=
  ⟨h'.at'.trans h.at', h'.keys.trans h.keys, h'.opened.trans h.opened, h'.drag.trans h.drag,
    h'.route.trans h.route⟩

theorem Good.releaseButton (h : inj.Good e) (b : MouseButton) :
    (inj.releaseButton e b).Good e ∧ Unpressed inj (inj.releaseButton e b) ∧
      ∀ c, (inj.releaseButton e b).held c = if c = b then false else inj.held c := by
  unfold Injector.releaseButton
  cases hheld : inj.held b with
  | false =>
    rw [Bool.not_false, if_pos rfl]
    refine ⟨h, .refl inj, fun c => ?_⟩
    by_cases hc : c = b
    · rw [if_pos hc, hc, hheld]
    · rw [if_neg hc]
  | true =>
    rw [Bool.not_true, if_neg Bool.false_ne_true]
    dsimp only
    split
    · rename_i hat
      have hno : inj.at'.isSome = false := congrArg Option.isSome hat
      exact absurd (((h.covers.placed hno).1 b).symm.trans hheld) Bool.false_ne_true
    · rename_i at' hat
      refine ⟨h.released b at' 1, ⟨rfl, rfl, rfl, rfl, rfl⟩, fun c => ?_⟩
      change Function.update inj.held b false c = _
      exact Function.update_apply _ _ _ _

theorem Good.releaseButtons (h : inj.Good e) :
    (inj.releaseButtons e).Good e ∧ Unpressed inj (inj.releaseButtons e) ∧
      ∀ b, (inj.releaseButtons e).held b = false := by
  have hfold : ∀ (l : List MouseButton) (inj : Injector W F), inj.Good e →
      (l.foldl (fun inj b => inj.releaseButton e b) inj).Good e ∧
        Unpressed inj (l.foldl (fun inj b => inj.releaseButton e b) inj) ∧
        ∀ b, (b ∈ l ∨ inj.held b = false) →
          (l.foldl (fun inj b => inj.releaseButton e b) inj).held b = false := by
    intro l
    induction l with
    | nil => exact fun inj h => ⟨h, .refl inj, fun b hb => hb.resolve_left List.not_mem_nil⟩
    | cons c rest ih =>
      intro inj h
      obtain ⟨hgood, hsame, hheld⟩ := h.releaseButton c
      obtain ⟨hgood', hsame', hheld'⟩ := ih _ hgood
      refine ⟨hgood', hsame.trans hsame', fun b hb => hheld' b ?_⟩
      rw [hheld]
      by_cases hbc : b = c
      · exact .inr (if_pos hbc)
      · rw [if_neg hbc]
        exact hb.imp_left fun hmem => (List.mem_cons.mp hmem).resolve_left hbc
  obtain ⟨hgood, hsame, hheld⟩ := hfold buttons inj h
  refine ⟨hgood, hsame, fun b => hheld b (.inl ?_)⟩
  cases b <;> decide

/-- With no button held the pointer may go any way. -/
theorem Good.redrag (h : inj.Good e) (hheld : ∀ b, inj.held b = false) (w : W)
    (activeAt : Option Nat) (placed : Pointer F) (drag : Option (Drag F)) :
    ({ inj with backend := w, activeAt, placed, drag } : Injector W F).Good e := by
  refine ⟨⟨h.covers, h.proper⟩, fun n hid hpress => ?_⟩
  have hleft := h.covers.held .left (hpress ▸ Option.some_ne_none _)
  exact absurd ((hheld .left).symm.trans hleft) Bool.false_ne_true

theorem Good.enterDrag (h : inj.Good e) (now : Nat) :
    (inj.enterDrag e now).Good e ∧ (inj.enterDrag e now).at' = inj.at' := by
  obtain ⟨hgood, hsame, hheld⟩ := h.releaseButtons
  unfold Injector.enterDrag
  split
  · exact ⟨h, rfl⟩
  · dsimp only
    split
    · exact ⟨hgood.redrag hheld _ _ _ _, hsame.at'⟩
    · exact ⟨hgood.redrag hheld _ _ _ _, hsame.at'⟩
    · exact ⟨hgood.redrag hheld _ _ _ _, hsame.at'⟩

theorem Good.leaveDrag (h : inj.Good e) : (inj.leaveDrag e).Good e := by
  obtain ⟨hgood, hsame, hheld⟩ := h.releaseButtons
  unfold Injector.leaveDrag
  split
  · exact h
  · dsimp only
    split
    · exact hgood
    · rename_i drag hdrag
      have hleft := hgood.redrag hheld (inj.releaseButtons e).backend
        (inj.releaseButtons e).activeAt (inj.releaseButtons e).placed none
      have hback : (({ inj.releaseButtons e with drag := none } : Injector W F).pointerBack e
          drag.home).Good e := by
        unfold pointerBack
        split
        · exact hleft
        · exact hleft.give (fun _ _ => rfl) rfl
      unfold showPlaced
      split
      · exact hback
      · split
        · exact hback
        · exact ⟨⟨hback.covers, hback.proper⟩, hback.way⟩

/-- A key that goes down is one the injector has. -/
theorem Good.keyDown (h : inj.Good e) {route : Route F} {flags : Flags} {vk : Nat}
    {modifier repeated : Bool} (keys : List (KeyCode × Nat)) (hkept : ∀ k ∈ inj.keys, k ∈ keys)
    (hnamed : ∀ k ∈ keys, (e.virtualKey k.1).isSome = true ∧ k.1 ≠ .capsLock)
    (honce : ∀ k ∈ keys, ∀ k' ∈ keys, k.1 = k'.1 → k = k')
    (hdown : isOk (inj.give e ⟨route, flags, .key vk true modifier repeated⟩).1 = true →
      ∃ k ∈ keys, k.2 = vk) :
    ({ (inj.give e ⟨route, flags, .key vk true modifier repeated⟩).2 with keys } :
      Injector W F).Good e := by
  obtain ⟨w, hgive⟩ := inj.give_eq e ⟨route, flags, .key vk true modifier repeated⟩
  have hdesk := desk_append inj.posts (⟨route, flags, .key vk true modifier repeated⟩,
    isOk (inj.give e ⟨route, flags, .key vk true modifier repeated⟩).1)
  rw [hgive]
  refine ⟨⟨?_, h.proper.append trivial⟩, ?_⟩
  · dsimp only
    rw [hdesk]
    refine ⟨fun v hv => ?_, hnamed, honce, h.covers.held, h.covers.pressed, h.covers.top,
      h.covers.scroll, h.covers.coast, h.covers.magnify, h.covers.rotate, h.covers.paired,
      h.covers.placed⟩
    have hold : (desk inj.posts).keys v = true → ∃ k ∈ keys, k.2 = v := fun hold =>
      let ⟨k, hk, hkv⟩ := h.covers.keys v hold
      ⟨k, hkept k hk, hkv⟩
    change Function.update (desk inj.posts).keys vk _ v = true at hv
    by_cases hvk : v = vk
    · rw [hvk, Function.update_self, Bool.or_eq_true] at hv
      exact hv.elim (fun hok => hvk ▸ hdown hok) fun hwas => hold (hvk ▸ hwas)
    · rw [Function.update_of_ne hvk] at hv
      exact hold hv
  · unfold Way
    dsimp only
    rw [hdesk]
    exact h.way

/-- A key let go of may be forgotten. -/
theorem Good.keyUp (h : inj.Good e) {route : Route F} {flags : Flags} {vk : Nat}
    {modifier repeated : Bool} (keys : List (KeyCode × Nat)) (hsub : ∀ k ∈ keys, k ∈ inj.keys)
    (hkept : ∀ k ∈ inj.keys, k.2 ≠ vk → k ∈ keys) :
    ({ (inj.give e ⟨route, flags, .key vk false modifier repeated⟩).2 with keys } :
      Injector W F).Good e := by
  obtain ⟨w, hgive⟩ := inj.give_eq e ⟨route, flags, .key vk false modifier repeated⟩
  have hdesk := desk_append inj.posts (⟨route, flags, .key vk false modifier repeated⟩,
    isOk (inj.give e ⟨route, flags, .key vk false modifier repeated⟩).1)
  rw [hgive]
  refine ⟨⟨?_, h.proper.append trivial⟩, ?_⟩
  · dsimp only
    rw [hdesk]
    refine ⟨fun v hv => ?_, fun k hk => h.covers.named k (hsub k hk),
      fun k hk k' hk' => h.covers.once k (hsub k hk) k' (hsub k' hk'), h.covers.held,
      h.covers.pressed, h.covers.top, h.covers.scroll, h.covers.coast, h.covers.magnify,
      h.covers.rotate, h.covers.paired, h.covers.placed⟩
    change Function.update (desk inj.posts).keys vk false v = true at hv
    by_cases hvk : v = vk
    · rw [hvk, Function.update_self] at hv
      exact absurd hv Bool.false_ne_true
    · rw [Function.update_of_ne hvk] at hv
      obtain ⟨k, hk, hkv⟩ := h.covers.keys v hv
      exact ⟨k, hkept k hk (hkv ▸ hvk), hkv⟩
  · unfold Way
    dsimp only
    rw [hdesk]
    exact h.way

theorem Good.escape (h : inj.Good e) : (inj.escape e).2.Good e := by
  unfold Injector.escape
  split
  · exact h
  · rename_i vk hvk
    dsimp only
    split
    · rename_i why hwhy
      refine h.keyDown inj.keys (fun k hk => hk) h.covers.named h.covers.once fun hok => ?_
      rw [hwhy] at hok
      exact absurd hok Bool.false_ne_true
    · -- whatever became of its press, the key is let go of
      let down : Post F := ⟨.hid, inj.flags &&& alphaShift, .key vk true false false⟩
      let up : Post F := ⟨.hid, inj.flags &&& alphaShift, .key vk false false false⟩
      change ((inj.give e down).2.give e up).2.Good e
      obtain ⟨w, hdown⟩ := inj.give_eq e down
      obtain ⟨w', hup⟩ := (inj.give e down).2.give_eq e up
      have hposts : (inj.give e down).2.posts = inj.posts ++ [(down, isOk (inj.give e down).1)] :=
        rfl
      have hproper : Proper (inj.give e down).2.posts := hposts ▸ h.proper.append trivial
      have hdesk : desk ((inj.give e down).2.posts ++
          [(up, isOk ((inj.give e down).2.give e up).1)]) =
          { desk inj.posts with keys := Function.update (desk inj.posts).keys vk false } := by
        rw [desk_append, hposts, desk_append]
        change ({ desk inj.posts with
          keys := Function.update (Function.update (desk inj.posts).keys vk _) vk false } :
          Desk) = _
        rw [Function.update_idem]
      rw [hup]
      refine ⟨⟨?_, hproper.append trivial⟩, ?_⟩
      · dsimp only
        rw [hdesk, hdown]
        refine ⟨fun v hv => ?_, h.covers.named, h.covers.once, h.covers.held, h.covers.pressed,
          h.covers.top, h.covers.scroll, h.covers.coast, h.covers.magnify, h.covers.rotate,
          h.covers.paired, h.covers.placed⟩
        dsimp only at hv
        by_cases hvk : v = vk
        · rw [hvk, Function.update_self] at hv
          exact absurd hv Bool.false_ne_true
        · rw [Function.update_of_ne hvk] at hv
          exact h.covers.keys v hv
      · unfold Way
        dsimp only
        rw [hdesk, hdown]
        exact h.way

theorem Good.cancelDrag (h : inj.Good e) : (inj.cancelDrag e).2.Good e := by
  unfold Injector.cancelDrag
  split
  · exact h
  · exact h.escape.leaveDrag

theorem Good.cancelHeld (h : inj.Good e) : (inj.cancelHeld e).2.Good e := by
  unfold Injector.cancelHeld
  split
  · exact h.cancelDrag
  · exact h.escape.releaseButtons.1

/-- A drag of what is held, or a move. -/
theorem Good.moveTo (h : inj.Good e) (now : Nat) (x y : F) : (inj.moveTo e now x y).2.Good e := by
  have hpoint := (h.point now x y).1
  unfold Injector.moveTo
  split
  · rename_i why inj1 heq
    rw [heq] at hpoint
    exact hpoint
  · rename_i at' inj1 heq
    rw [heq] at hpoint
    have hposted :
        (inj1.postMouse e inj1.moveType at' (inj1.heldButton.getD .left) 0).2.Good e := by
      unfold moveType
      split
      · exact hpoint.dragged _ _ _ _
      · split
        · exact hpoint.dragged _ _ _ _
        · split
          · exact hpoint.dragged _ _ _ _
          · exact hpoint.moved _ _ _
    split
    · rename_i why inj2 heq2
      rw [heq2] at hposted
      exact hposted
    · rename_i inj2 heq2
      rw [heq2] at hposted
      refine ⟨⟨hposted.covers, hposted.proper⟩, fun n hid hpress => ?_⟩
      rw [hposted.way n hid hpress, Option.isSome_map]

theorem Good.nudge (h : inj.Good e) (now : Nat) : (inj.nudge e now).2.Good e := by
  unfold Injector.nudge
  split
  · exact h
  · split
    · exact h
    · rename_i drag hdrag
      split
      · exact h
      · rename_i at' n _
        have hrest : ({ inj with drag := some { drag with nudge := some n } } :
            Injector W F).Good e := by
          refine ⟨⟨h.covers, h.proper⟩, fun n hid hpress => ?_⟩
          rw [h.way n hid hpress, hdrag]
          rfl
        exact hrest.dragged _ _ _ _

theorem Good.pressAt (h : inj.Good e) (now : Nat) (x y : F) : (inj.pressAt e now x y).2.Good e := by
  obtain ⟨hpoint, hplaced⟩ := h.point now x y
  unfold Injector.pressAt
  split
  · rename_i why inj1 heq
    rw [heq] at hpoint
    exact hpoint
  · rename_i at' inj1 heq
    rw [heq] at hpoint hplaced
    obtain ⟨henter, hat⟩ := hpoint.enterDrag now
    obtain ⟨hreleased, hsame, -⟩ := henter.releaseButtons
    have hat' : ((inj1.enterDrag e now).releaseButtons e).at'.isSome = true := by
      rw [hsame.at', hat]
      exact hplaced at' rfl
    have hdown : ((((inj1.enterDrag e now).releaseButtons e).setHeld .left true).postMouse e
        (.down .left) at' .left 1).2.Good e :=
      hreleased.toSound.pressed (b := .left) (fun hno => absurd rfl hno) hat' at' 1
    dsimp only
    split
    · rename_i why inj2 heq2
      rw [heq2] at hdown
      exact hdown.leaveDrag
    · rename_i inj2 heq2
      rw [heq2] at hdown
      have hstart : ∀ start : Point F, ({ inj2 with at' := some start } : Injector W F).Good e := by
        intro start
        refine ⟨⟨⟨hdown.covers.keys, hdown.covers.named, hdown.covers.once, hdown.covers.held,
          hdown.covers.pressed, hdown.covers.top, hdown.covers.scroll, hdown.covers.coast,
          hdown.covers.magnify, hdown.covers.rotate, hdown.covers.paired, fun hno => ?_⟩,
          hdown.proper⟩, hdown.way⟩
        exact absurd hno.symm Bool.false_ne_true
      generalize inj2.within e
        { at' with x := e.floats.add at'.x e.floats.dragStart } = start
      have hdrag := (hstart start).dragged .left .left start 0
      split
      · rename_i why inj3 heq3
        rw [heq3] at hdrag
        exact hdrag.leaveDrag
      · rename_i inj3 heq3
        rw [heq3] at hdrag
        have hrest : ({ inj3 with
            drag := inj3.drag.map fun d =>
              { d with
                nudge := some { at' := start, postedUs := d.us now, restUs := d.restUs } } } :
            Injector W F).Good e := by
          refine ⟨⟨hdrag.covers, hdrag.proper⟩, fun n hid hpress => ?_⟩
          rw [hdrag.way n hid hpress, Option.isSome_map]
        split
        · exact hrest.leaveDrag
        · exact hrest

theorem Good.dragStep (h : inj.Good e) (now : Nat) (step : DragStep F) :
    (inj.dragStep e now step).Good e := by
  cases step with
  | enter x y =>
    obtain ⟨henter, -⟩ := h.enterDrag now
    have hpoint := (henter.point now x y).1
    unfold Injector.dragStep
    dsimp only
    split
    · rename_i inj1 heq
      rw [heq] at hpoint
      exact hpoint
    · rename_i inj1 heq
      rw [heq] at hpoint
      exact hpoint.leaveDrag
  | press x y => exact h.pressAt now x y
  | move x y =>
    unfold Injector.dragStep
    dsimp only
    split
    · exact h.moveTo now x y
    · exact h
  | release => exact h.leaveDrag
  | cancel => exact h.cancelHeld
  | locate x y => exact (h.point now x y).1

theorem Good.postPieces (flags : Flags) (events : List (Event F))
    (hsame : ∀ ev ∈ events, ∃ piece down, ev = .text piece down) :
    ∀ {inj : Injector W F}, inj.Good e → (Injector.postPieces e flags events inj).2.Good e := by
  induction events with
  | nil => exact fun h => h
  | cons ev rest ih =>
    intro inj h
    obtain ⟨piece, down, rfl⟩ := hsame ev List.mem_cons_self
    have hgive := h.give (p := ⟨inj.route, flags, .text piece down⟩) (fun _ _ => rfl) trivial
    unfold Injector.postPieces
    split
    · rename_i why inj1 heq
      rw [heq] at hgive
      exact hgive
    · rename_i inj1 heq
      rw [heq] at hgive
      exact ih (fun ev hev => hsame ev (List.mem_cons_of_mem _ hev)) hgive

theorem Good.postText (h : inj.Good e) (text : Text) : (inj.postText e text).2.Good e := by
  refine Good.postPieces _ _ (fun ev hev => ?_) h
  obtain ⟨piece, -, hev⟩ := List.mem_flatMap.mp hev
  rcases List.mem_pair.mp hev with rfl | rfl
  · exact ⟨piece, true, rfl⟩
  · exact ⟨piece, false, rfl⟩

/-- An event of a gesture, after which others may be under way. -/
theorem Good.gestured (h : inj.Good e) {p : Post F} {o : Open} {s c g m r : Bool}
    (hat : inj.at'.isSome = true)
    (htakes : (desk inj.posts).Takes p)
    (hd : (desk inj.posts).take (p, isOk (inj.give e p).1) =
      { desk inj.posts with scroll := s, coast := c, paired := g, magnify := m, rotate := r })
    (hscroll : s = true → o.scroll.isSome = true)
    (hcoast : c = true → o.coast = true)
    (hmagnify : m = true → o.magnify = true)
    (hrotate : r = true → o.rotate = true)
    (hpaired : o.scroll = some true → g = true) :
    ({ (inj.give e p).2 with opened := o } : Injector W F).Good e := by
  obtain ⟨w, hgive⟩ := inj.give_eq e p
  have hdesk := (desk_append inj.posts (p, isOk (inj.give e p).1)).trans hd
  rw [hgive]
  refine ⟨⟨?_, h.proper.append htakes⟩, ?_⟩
  · dsimp only
    rw [hdesk]
    exact ⟨h.covers.keys, h.covers.named, h.covers.once, h.covers.held, h.covers.pressed,
      h.covers.top, hscroll, hcoast, hmagnify, hrotate, hpaired,
      fun hno => absurd (hno.symm.trans hat) Bool.false_ne_true⟩
  · unfold Way
    dsimp only
    rw [hdesk]
    exact h.way

theorem Good.stamp (h : inj.Good e) (clientUs : Nat) (phase : ScrollPhase) :
    (inj.stamp e clientUs phase).2.Good e ∧ (inj.stamp e clientUs phase).2.at' = inj.at' :=
  ⟨⟨⟨h.covers, h.proper⟩, h.way⟩, rfl⟩

theorem Good.reflag (h : inj.Good e) (flags : Flags) : ({ inj with flags } : Injector W F).Good e :=
  ⟨⟨h.covers, h.proper⟩, h.way⟩

/-- The scroll's own event, and what of it counts as under way. -/
theorem Good.scrolled (h : inj.Good e) (hat : inj.at'.isSome = true) {p : Post F} {at' : Point F}
    {dx dy : F} {phase momentum : ScrollPhase} {stamp : Nat}
    (hp : p.event = .scroll at' dx dy true phase momentum stamp) {o : Open}
    (hscroll : phase ≠ .none → underWay phase = true → o.scroll.isSome = true)
    (hstill : phase = .none → o.scroll = inj.opened.scroll)
    (hcoast : momentum ≠ .none → underWay momentum = true → o.coast = true)
    (hrolls : momentum = .none → o.coast = inj.opened.coast)
    (hmagnify : o.magnify = inj.opened.magnify) (hrotate : o.rotate = inj.opened.rotate)
    (hpaired : o.scroll = some true → inj.opened.scroll = some true)
    (hok : isOk (inj.give e p).1 = true) :
    ({ (inj.give e p).2 with opened := o } : Injector W F).Good e := by
  have htake : (desk inj.posts).take (p, isOk (inj.give e p).1) =
      { desk inj.posts with
        scroll := Desk.phased (desk inj.posts).scroll phase true
        coast := Desk.phased (desk inj.posts).coast momentum true } := by
    rw [hok]
    unfold Desk.take
    rw [hp]
  refine h.gestured hat ?_ htake (fun hs => ?_) (fun hc => ?_)
    (fun hm => hmagnify.trans (h.covers.magnify hm)) (fun hr => hrotate.trans (h.covers.rotate hr))
    fun hsome => h.covers.paired (hpaired hsome)
  · unfold Desk.Takes
    rw [hp]
    trivial
  · rcases Desk.phased_eq_true hs with ⟨hwas, hphase | hno⟩ | ⟨hphase, hunder⟩
    · rw [hstill hphase]
      exact h.covers.scroll hwas
    · exact absurd hno.symm Bool.false_ne_true
    · exact hscroll hphase hunder
  · rcases Desk.phased_eq_true hc with ⟨hwas, hphase | hno⟩ | ⟨hphase, hunder⟩
    · rw [hrolls hphase]
      exact h.covers.coast hwas
    · exact absurd hno.symm Bool.false_ne_true
    · exact hcoast hphase hunder

/-- A scroll the system would not take leaves what is under way. -/
theorem Good.unscrolled (h : inj.Good e) (hat : inj.at'.isSome = true) {p : Post F} {at' : Point F}
    {dx dy : F} {precise : Bool} {phase momentum : ScrollPhase} {stamp : Nat}
    (hp : p.event = .scroll at' dx dy precise phase momentum stamp)
    (hno : precise = true → isOk (inj.give e p).1 = false) : (inj.give e p).2.Good e := by
  cases precise with
  | false =>
    refine h.give (fun d ok => ?_) ?_
    · unfold Desk.take
      rw [hp]
    · unfold Desk.Takes
      rw [hp]
      trivial
  | true =>
    have htake : (desk inj.posts).take (p, isOk (inj.give e p).1) =
        { desk inj.posts with
          scroll := Desk.phased (desk inj.posts).scroll phase false
          coast := Desk.phased (desk inj.posts).coast momentum false } := by
      rw [hno rfl]
      unfold Desk.take
      rw [hp]
    have hstill : ∀ {under : Bool} {phase : ScrollPhase},
        Desk.phased under phase false = true → under = true := by
      intro under phase hunder
      unfold Desk.phased at hunder
      split at hunder
      · exact hunder
      · split at hunder
        · exact hunder
        · exact absurd hunder Bool.false_ne_true
    refine h.gestured (o := inj.opened) hat ?_ htake (fun hs => h.covers.scroll (hstill hs))
      (fun hc => h.covers.coast (hstill hc)) h.covers.magnify h.covers.rotate h.covers.paired
    unfold Desk.Takes
    rw [hp]
    trivial

/-- The gesture of a scroll, which goes on only where it has begun. -/
theorem Good.scrollPaired (h : inj.Good e) (hat : inj.at'.isSome = true) {p : Post F}
    {at' : Point F} {dx dy : F} {phase : ScrollPhase} {stamp : Nat}
    (hp : p.event = .gesture at' (.scroll dx dy) phase stamp) {o : Open}
    (htakes : phase = .mayBegin ∨ phase = .began ∨ (desk inj.posts).paired = true)
    (hscroll : inj.opened.scroll.isSome = true → o.scroll.isSome = true)
    (hcoast : o.coast = inj.opened.coast)
    (hmagnify : o.magnify = inj.opened.magnify) (hrotate : o.rotate = inj.opened.rotate)
    (hpaired : o.scroll = some true → underWay phase = true) :
    ({ (inj.give e p).2 with opened := o } : Injector W F).Good e := by
  refine h.gestured hat ?_ (g := underWay phase) ?_ (fun hs => hscroll (h.covers.scroll hs))
    (fun hc => hcoast.trans (h.covers.coast hc)) (fun hm => hmagnify.trans (h.covers.magnify hm))
    (fun hr => hrotate.trans (h.covers.rotate hr)) hpaired
  · unfold Desk.Takes
    rw [hp]
    exact htakes
  · unfold Desk.take
    rw [hp]

/-- How a scroll's phase leaves what is open. -/
theorem scrolled_spec (o : Open) (phase : ScrollPhase) (gestures : Bool) :
    ((o.scrolled phase gestures).1 = true →
      phase = .mayBegin ∨ phase = .began ∨ o.scroll = some true) ∧
    (o.scrolled phase gestures).2.scroll =
      if phase = .ended ∨ phase = .cancelled then none else some (o.scrolled phase gestures).1 := by
  refine ⟨fun hpaired => ?_, rfl⟩
  have hgoing : o.scroll.getD false = true → o.scroll = some true := by
    cases o.scroll with
    | none => exact fun hno => absurd hno Bool.false_ne_true
    | some paired => exact fun hp => congrArg some hp
  cases phase with
  | mayBegin => exact .inl rfl
  | began => exact .inr (.inl rfl)
  | none => exact .inr (.inr (hgoing hpaired))
  | changed => exact .inr (.inr (hgoing hpaired))
  | ended => exact .inr (.inr (hgoing hpaired))
  | cancelled => exact .inr (.inr (hgoing hpaired))

theorem underWay_iff {phase : ScrollPhase} (hphase : phase ≠ .none) :
    underWay phase = true ↔ ¬(phase = .ended ∨ phase = .cancelled) := by
  cases phase with
  | none => exact absurd rfl hphase
  | _ => decide

/-- What comes of a scroll in a phase, once its own event was taken: it goes on, with its gesture
where it comes with one, or it is over. -/
theorem Good.scrollOn (h : inj.Good e) (hat : inj.at'.isSome = true) {p : Post F} {at' : Point F}
    {dx dy : F} {phase momentum : ScrollPhase} {stamp : Nat}
    (hp : p.event = .scroll at' dx dy true phase momentum stamp)
    (hok : isOk (inj.give e p).1 = true) {coast gestures paired : Bool} {opened : Open}
    (hrolls : momentum ≠ .none → underWay momentum = true → coast = true)
    (hrests : momentum = .none → coast = inj.opened.coast) (hphase : phase ≠ .none)
    (hopened : ({ inj.opened with coast } : Open).scrolled phase gestures = (paired, opened)) :
    (if paired then
      ({ (inj.give e p).2 with opened } : Injector W F).post e none
        (.gesture at' (.scroll dx dy) phase stamp)
    else (.ok (), { (inj.give e p).2 with opened })).2.Good e := by
  obtain ⟨hpaired, hscroll⟩ := scrolled_spec { inj.opened with coast } phase gestures
  have hcoast : (({ inj.opened with coast } : Open).scrolled phase gestures).2.coast = coast := rfl
  have hmagnify : (({ inj.opened with coast } : Open).scrolled phase gestures).2.magnify =
    inj.opened.magnify := rfl
  have hrotate : (({ inj.opened with coast } : Open).scrolled phase gestures).2.rotate =
    inj.opened.rotate := rfl
  rw [hopened] at hpaired hscroll hcoast hmagnify hrotate
  dsimp only at hpaired hscroll hcoast hmagnify hrotate
  have hgoes : underWay phase = true → opened.scroll = some paired := fun hunder =>
    hscroll.trans (if_neg ((underWay_iff hphase).mp hunder))
  cases paired with
  | false =>
    refine h.scrolled hat hp (fun _ hunder => congrArg Option.isSome (hgoes hunder))
      (fun hno => absurd hno hphase) (fun hm hu => hcoast.trans (hrolls hm hu))
      (fun hm => hcoast.trans (hrests hm)) hmagnify hrotate (fun hsome => ?_) hok
    rw [hscroll] at hsome
    split at hsome
    · exact absurd hsome.symm (Option.some_ne_none _)
    · exact absurd (Option.some.inj hsome) Bool.false_ne_true
  | true =>
    -- its own event first, as if the scroll came without its gesture
    have hbare := h.scrolled hat hp (o := { opened with scroll := opened.scroll.map fun _ => false })
      (fun _ hunder => by rw [hgoes hunder]; rfl) (fun hno => absurd hno hphase)
      (fun hm hu => hcoast.trans (hrolls hm hu)) (fun hm => hcoast.trans (hrests hm)) hmagnify
      hrotate (fun hsome => ?_) hok
    · refine hbare.scrollPaired (o := opened) hat rfl ?_
        (fun hs => (Option.isSome_map ..).symm.trans hs) rfl rfl rfl fun hsome => ?_
      · refine (hpaired rfl).imp_right (Or.imp_right fun hsome => ?_)
        have hposts : desk (inj.give e p).2.posts =
            (desk inj.posts).take (p, isOk (inj.give e p).1) := desk_append _ _
        have hkept : ((desk inj.posts).take (p, isOk (inj.give e p).1)).paired =
            (desk inj.posts).paired := by
          unfold Desk.take
          rw [hp]
        exact (congrArg Desk.paired hposts).trans (hkept.trans (h.covers.paired hsome))
      · refine (underWay_iff hphase).mpr fun hended => ?_
        rw [hscroll, if_pos hended] at hsome
        exact absurd hsome.symm (Option.some_ne_none _)
    · obtain ⟨paired, -, hno⟩ := Option.map_eq_some_iff.mp hsome
      exact absurd hno Bool.false_ne_true

theorem Good.injectScroll (h : inj.Good e) (now : Nat) (dx dy : F) (precise : Bool)
    (phase momentum : ScrollPhase) (x y : F) (mods : Mods) (timeUs : Nat) :
    (inj.injectScroll e now dx dy precise phase momentum x y mods timeUs).2.Good e := by
  obtain ⟨hpoint, hplaced⟩ := h.point now x y
  unfold Injector.injectScroll
  split
  · rename_i why inj1 heq
    rw [heq] at hpoint
    exact hpoint
  rename_i at' inj1 heq
  rw [heq] at hpoint hplaced
  have hat := hplaced at' rfl
  dsimp only
  cases precise with
  | false =>
    have hgood := (hpoint.reflag (flagsFor mods)).unscrolled hat
      (p := ⟨({ inj1 with flags := flagsFor mods } : Injector W F).bound
        (.scroll at' dx dy false phase momentum 0), flagsFor mods,
        .scroll at' dx dy false phase momentum 0⟩) rfl (fun hno => absurd hno Bool.false_ne_true)
    simp only [Bool.false_eq_true, if_false, Bool.false_and]
    split
    · rename_i why inj2 heq2
      change _ = (Except.error why, inj2) at heq2
      exact (congrArg Prod.snd heq2) ▸ hgood
    · rename_i inj2 heq2
      exact (congrArg Prod.snd heq2) ▸ hgood
  | true =>
    simp only [if_true, Bool.true_and, decide_eq_true_eq]
    obtain ⟨hstamp, hat1⟩ := (hpoint.reflag (flagsFor mods)).stamp timeUs phase
    generalize ({ inj1 with flags := flagsFor mods } : Injector W F).stamp e timeUs phase = s
      at hstamp hat1 ⊢
    obtain ⟨stamp, inj2⟩ := s
    replace hat : inj2.at'.isSome = true := (congrArg Option.isSome hat1).trans hat
    let p : Post F := ⟨inj2.bound (.scroll at' dx dy true phase momentum stamp), inj2.flags,
      .scroll at' dx dy true phase momentum stamp⟩
    split
    · rename_i why inj3 heq3
      exact (congrArg Prod.snd heq3) ▸ hstamp.unscrolled hat (p := p) rfl
        fun _ => congrArg (fun done => isOk done.1) heq3
    rename_i inj3 heq3
    have hok : isOk (inj2.give e p).1 = true := congrArg (fun done => isOk done.1) heq3
    obtain rfl : (inj2.give e p).2 = inj3 := congrArg Prod.snd heq3
    have hcoast : (if momentum ≠ .none then
        { (inj2.give e p).2 with opened := { inj2.opened with coast := underWay momentum } }
        else (inj2.give e p).2) =
        { (inj2.give e p).2 with
          opened := { inj2.opened with
            coast := if momentum ≠ .none then underWay momentum else inj2.opened.coast } } := by
      split <;> rfl
    have hrolls : momentum ≠ .none → underWay momentum = true →
        (if momentum ≠ .none then underWay momentum else inj2.opened.coast) = true :=
      fun hmomentum hunder => (if_pos hmomentum).trans hunder
    have hrests : momentum = .none →
        (if momentum ≠ .none then underWay momentum else inj2.opened.coast) = inj2.opened.coast :=
      fun hmomentum => if_neg (not_not_intro hmomentum)
    have hopened : (inj2.give e p).2.opened = inj2.opened := rfl
    rw [hopened, hcoast]
    by_cases hphase : phase = .none
    · rw [if_neg (not_not_intro hphase)]
      exact hstamp.scrolled hat (p := p) rfl (fun hno => absurd hphase hno) (fun _ => rfl) hrolls
        hrests rfl rfl (fun hsome => hsome) hok
    · rw [if_pos hphase]
      exact hstamp.scrollOn hat (p := p) rfl hok hrolls hrests hphase rfl

theorem Good.injectGesture (h : inj.Good e) (now : Nat) (x y : F) (timeUs : Nat)
    (phase : ScrollPhase) {gesture : Gesture F} {under : Open → Open} {m r : Desk → Bool}
    (htakes : ∀ d route flags at' stamp,
      Desk.Takes d ⟨route, flags, .gesture at' gesture phase stamp⟩)
    (htake : ∀ d route flags at' stamp ok,
      Desk.take d (⟨route, flags, .gesture at' gesture phase stamp⟩, ok) =
        { d with magnify := m d, rotate := r d })
    (hscroll : ∀ o, (under o).scroll = o.scroll ∧ (under o).coast = o.coast)
    (hmagnify : ∀ o d, (d.magnify = true → o.magnify = true) → m d = true →
      (under o).magnify = true)
    (hrotate : ∀ o d, (d.rotate = true → o.rotate = true) → r d = true →
      (under o).rotate = true) :
    (inj.injectGesture e now x y timeUs phase gesture under).2.Good e := by
  obtain ⟨hpoint, hplaced⟩ := h.point now x y
  unfold Injector.injectGesture
  split
  · rename_i why inj1 heq
    rw [heq] at hpoint
    exact hpoint
  · rename_i at' inj1 heq
    rw [heq] at hpoint hplaced
    obtain ⟨hstamp, hat⟩ := hpoint.stamp timeUs phase
    dsimp only at hstamp hat ⊢
    refine hstamp.gestured (o := under inj1.opened)
      ((congrArg Option.isSome hat).trans (hplaced at' rfl)) (htakes ..) (htake ..) (fun hs => ?_)
      (fun hc => ?_) (hmagnify _ _ hpoint.covers.magnify) (hrotate _ _ hpoint.covers.rotate)
      fun hsome => ?_
    · rw [(hscroll _).1]
      exact hpoint.covers.scroll hs
    · rw [(hscroll _).2]
      exact hpoint.covers.coast hc
    · rw [(hscroll _).1] at hsome
      exact hpoint.covers.paired hsome

theorem Good.injectOnce (h : inj.Good e) (now : Nat) (x y : F) (phase : ScrollPhase)
    {gesture : Gesture F}
    (htakes : ∀ d route flags at' stamp,
      Desk.Takes d ⟨route, flags, .gesture at' gesture phase stamp⟩)
    (htake : ∀ d route flags at' stamp ok,
      Desk.take d (⟨route, flags, .gesture at' gesture phase stamp⟩, ok) = d) :
    (inj.injectOnce e now x y gesture phase).2.Good e := by
  have hpoint := (h.point now x y).1
  unfold Injector.injectOnce
  split
  · rename_i why inj1 heq
    rw [heq] at hpoint
    exact hpoint
  · rename_i at' inj1 heq
    rw [heq] at hpoint
    exact hpoint.give (fun _ _ => htake ..) (htakes ..)

theorem Good.injectLock (h : inj.Good e) (caps : Bool) : (inj.injectLock e caps).2.Good e := by
  have hclaim : ∃ w holding claims,
      (if inj.holding = true then inj
      else { inj with
        backend := (e.backend.capsLock inj.backend).2, holding := true
        claims := inj.claims.claim inj.who (e.backend.capsLock inj.backend).1 }) =
      { inj with backend := w, holding, claims } := by
    split
    · exact ⟨_, _, _, rfl⟩
    · exact ⟨_, _, _, rfl⟩
  obtain ⟨w, holding, claims, hclaim⟩ := hclaim
  have hset : ∀ w flags claims written, ({ inj with
      backend := w, flags, holding, claims, written } : Injector W F).Good e :=
    fun _ _ _ _ => ⟨⟨h.covers, h.proper⟩, h.way⟩
  unfold Injector.injectLock
  dsimp only [asks]
  rw [hclaim]
  dsimp only
  cases (e.backend.setCapsLock w caps).1 with
  | error why => exact hset _ _ _ _
  | ok done => exact hset _ _ _ _

/-- A press may find the way of the pointer changed for it, a release leaves it as it was. -/
theorem Good.injectButton (h : inj.Good e) (now : Nat) (button : MouseButton) (down : Bool)
    (x y : F) (clicks : Nat) (mods : Mods) :
    (inj.injectButton e now button down x y clicks mods).2.Good e := by
  obtain ⟨hpoint, hplaced⟩ := h.point now x y
  unfold Injector.injectButton
  split
  · rename_i why inj1 heq
    rw [heq] at hpoint
    exact hpoint
  rename_i at' inj1 heq
  rw [heq] at hpoint hplaced
  cases down with
  | true =>
    obtain ⟨w, activeAt, hactive⟩ := ensureActive_eq e inj1 now
    have hgood := hpoint.ensureActive now
    have hat : (inj1.ensureActive e now).at'.isSome = true := hactive ▸ hplaced at' rfl
    simp only [if_true, Bool.and_true, Bool.not_true, Bool.and_false, Bool.false_and,
      Bool.false_eq_true, if_false]
    by_cases hbutton : button = .left
    · subst hbutton
      obtain ⟨hsound, hat'⟩ := hgood.toSound.followPress now at'
      have hflags : ({ (inj1.ensureActive e now).followPress e now at' with
          flags := flagsFor mods } : Injector W F).Sound e := ⟨hsound.covers, hsound.proper⟩
      exact hflags.pressed (fun hno => absurd rfl hno) ((congrArg Option.isSome hat').trans hat)
        at' (max clicks 1)
    · rw [decide_eq_false hbutton]
      exact (hgood.reflag (flagsFor mods)).toSound.pressed
        (fun _ => (hgood.reflag (flagsFor mods)).way) hat at' (max clicks 1)
  | false =>
    have hup := (hpoint.reflag (flagsFor mods)).released button at' (max clicks 1)
    simp only [Bool.false_eq_true, if_false, Bool.and_false]
    split
    · exact hup.leaveDrag
    · exact hup

/-- A key's event, once it is known what the key goes down as, or went. -/
theorem Good.keyed (h : inj.Good e) {code : KeyCode} {vk : Nat} {held : Option Nat}
    (hcode : (e.virtualKey code).isSome = true ∧ code ≠ .capsLock)
    (hheld : held = (inj.keys.find? fun k => k.1 == code).map Prod.snd)
    (hvk : ∀ was, held = some was → vk = was) (down modifier repeated : Bool) :
    (let (done, inj) := inj.post e none (.key vk down modifier repeated)
      if !down then (done, { inj with keys := inj.keys.filter fun k => k.1 != code })
      else if isOk done && held.isNone then (done, { inj with keys := inj.keys ++ [(code, vk)] })
      else (done, inj) : Done × Injector W F).2.Good e := by
  have hnone : held = none → ∀ k ∈ inj.keys, k.1 ≠ code := by
    rintro rfl k hk rfl
    have hno := List.find?_eq_none.mp (Option.map_eq_none_iff.mp hheld.symm) k hk
    exact hno (beq_self_eq_true _)
  have hsome : ∀ was, held = some was → (code, was) ∈ inj.keys := by
    rintro was rfl
    obtain ⟨k, hk, rfl⟩ := Option.map_eq_some_iff.mp hheld.symm
    have hkcode : k.1 = code :=
      eq_of_beq (List.find?_some (p := fun k : KeyCode × Nat => k.1 == code) hk)
    exact hkcode ▸ List.mem_of_find?_eq_some hk
  dsimp only
  cases down with
  | false =>
    rw [Bool.not_false, if_pos rfl]
    refine h.keyUp (inj.keys.filter fun k => k.1 != code)
      (fun k hk => (List.mem_filter.mp hk).1) fun k hk hkvk => List.mem_filter.mpr ⟨hk, ?_⟩
    refine bne_iff_ne.mpr fun hkcode => ?_
    cases held with
    | none => exact hnone rfl k hk hkcode
    | some was =>
      have hsame := h.covers.once k hk (code, was) (hsome was rfl) hkcode
      exact hkvk (hsame ▸ (hvk was rfl).symm)
  | true =>
    rw [Bool.not_true, if_neg Bool.false_ne_true]
    cases held with
    | some was =>
      rw [Option.isNone_some, Bool.and_false, if_neg Bool.false_ne_true]
      exact h.keyDown inj.keys (fun k hk => hk) h.covers.named h.covers.once
        fun _ => ⟨(code, was), hsome was rfl, (hvk was rfl).symm⟩
    | none =>
      rw [Option.isNone_none, Bool.and_true]
      split
      · refine h.keyDown (inj.keys ++ [(code, vk)]) (fun k hk => List.mem_append_left _ hk)
          (fun k hk => ?_) (fun k hk k' hk' hkk' => ?_)
          fun _ => ⟨(code, vk), List.mem_append_right _ (List.mem_singleton.mpr rfl), rfl⟩
        · rcases List.mem_append.mp hk with hk | hk
          · exact h.covers.named k hk
          · rw [List.mem_singleton.mp hk]
            exact hcode
        · rcases List.mem_append.mp hk with hk | hk <;> rcases List.mem_append.mp hk' with hk' | hk'
          · exact h.covers.once k hk k' hk' hkk'
          · rw [List.mem_singleton.mp hk'] at hkk'
            exact absurd hkk' (hnone rfl k hk)
          · rw [List.mem_singleton.mp hk] at hkk'
            exact absurd hkk'.symm (hnone rfl k' hk')
          · rw [List.mem_singleton.mp hk, List.mem_singleton.mp hk']
      · rename_i hno
        exact h.keyDown inj.keys (fun k hk => hk) h.covers.named h.covers.once
          fun hok => absurd hok hno

theorem Good.postKey (h : inj.Good e) (code : KeyCode) (action : KeyAction) (chord : Option Text) :
    (inj.postKey e code action chord).2.Good e := by
  unfold Injector.postKey
  split
  · exact h
  rename_i at' hcode
  obtain ⟨hvirtual, hcaps⟩ := Option.filter_eq_some_iff.mp hcode
  replace hcode : (e.virtualKey code).isSome = true ∧ code ≠ .capsLock :=
    ⟨congrArg Option.isSome hvirtual, of_decide_eq_true hcaps⟩
  dsimp only
  cases hheld : (inj.keys.find? fun k => k.1 == code).map Prod.snd with
  | some vk =>
    exact h.keyed hcode hheld.symm (fun was hwas => Option.some.inj hwas) _ _ _
  | none =>
    have hno : ∀ vk was, (none : Option Nat) = some was → vk = was := fun vk was hwas =>
      absurd hwas.symm (Option.some_ne_none _)
    cases chord.filter fun _ => decide (action ≠ .release) && !isModifier code with
    | none => exact h.keyed hcode hheld.symm (hno _) _ _ _
    | some c =>
      have hplaced : ({ inj with backend := (e.backend.place inj.backend c).2 } :
          Injector W F).Good e := ⟨⟨h.covers, h.proper⟩, h.way⟩
      exact hplaced.keyed hcode hheld.symm (hno _) _ _ _

/-- What is to be posted of the client's input is posted over what is down. -/
theorem Good.inject (h : inj.Good e) (now : Nat) (input : ScreenInput F) :
    (inj.inject e now input).2.Good e := by
  cases input with
  | move x y => exact h.moveTo now x y
  | button button down x y clicks mods => exact h.injectButton now button down x y clicks mods
  | scroll dx dy precise phase momentum x y mods timeUs =>
    exact h.injectScroll now dx dy precise phase momentum x y mods timeUs
  | magnify delta phase x y timeUs =>
    exact h.injectGesture now x y timeUs phase (m := fun _ => underWay phase)
      (r := Desk.rotate) (fun _ _ _ _ _ => trivial) (fun _ _ _ _ _ _ => rfl)
      (fun _ => ⟨rfl, rfl⟩) (fun _ _ _ hunder => hunder) (fun _ _ hr => hr)
  | rotate degrees phase x y timeUs =>
    exact h.injectGesture now x y timeUs phase (m := Desk.magnify)
      (r := fun _ => underWay phase) (fun _ _ _ _ _ => trivial) (fun _ _ _ _ _ _ => rfl)
      (fun _ => ⟨rfl, rfl⟩) (fun _ _ hm => hm) (fun _ _ _ hunder => hunder)
  | smartMagnify x y =>
    exact h.injectOnce now x y .none (fun _ _ _ _ _ => trivial) (fun _ _ _ _ _ _ => rfl)
  | swipe direction x y =>
    exact h.injectOnce now x y .ended (fun _ _ _ _ _ => trivial) (fun _ _ _ _ _ _ => rfl)
  | gestures remote => exact ⟨⟨h.covers, h.proper⟩, h.way⟩
  | key code action mods chord =>
    unfold Injector.inject
    dsimp only
    split
    · exact ((h.ensureActive now).reflag _).postKey code action chord
    · exact (h.reflag _).postKey code action chord
  | pasteChord code mods => exact ((h.ensureActive now).reflag _).postKey code .press none
  | text text => exact (h.ensureActive now).postText text
  | lock caps => exact h.injectLock caps
  | media key down => exact h.give (fun _ _ => rfl) trivial
  | keyboardSource source => exact h
  | keyboardReleased => exact h
  | drag => exact h

def postAll (e : Env W F) (events : List (Event F)) (inj : Injector W F) : Injector W F :=
  events.foldl (fun inj event => (inj.post e none event).2) inj

theorem postAll_append (e : Env W F) (a b : List (Event F)) (inj : Injector W F) :
    postAll e (a ++ b) inj = postAll e b (postAll e a inj) := List.foldl_append

theorem postAll_kept (e : Env W F) (events : List (Event F)) (inj : Injector W F) :
    (postAll e events inj).at' = inj.at' ∧ (postAll e events inj).opened = inj.opened ∧
      (postAll e events inj).keys = inj.keys ∧ (postAll e events inj).held = inj.held := by
  unfold postAll
  induction events generalizing inj with
  | nil => exact ⟨rfl, rfl, rfl, rfl⟩
  | cons event rest ih => exact ih _

/-- Until it is cancelled a gesture counts as under way, though the injector has let go of it. -/
theorem Good.cancelled {opened o : Open} (h : ({ inj with opened } : Injector W F).Good e)
    (hat : inj.at'.isSome = true) (going : Bool) (event : Event F)
    (hstill : going = false → o = opened)
    (htakes : going = true → (desk inj.posts).Takes ⟨inj.bound event, inj.flags, event⟩)
    {s c g m r : Desk → Bool}
    (htake : ∀ (d : Desk) route flags ok, Desk.take d (⟨route, flags, event⟩, ok) =
      { d with scroll := s d, coast := c d, paired := g d, magnify := m d, rotate := r d })
    (hscroll : s (desk inj.posts) = true → o.scroll.isSome = true)
    (hcoast : c (desk inj.posts) = true → o.coast = true)
    (hmagnify : m (desk inj.posts) = true → o.magnify = true)
    (hrotate : r (desk inj.posts) = true → o.rotate = true)
    (hpaired : o.scroll = some true → going = true → g (desk inj.posts) = true) :
    ({ postAll e (if going then [event] else []) inj with opened := o } : Injector W F).Good e := by
  cases going with
  | false =>
    rw [hstill rfl]
    exact h
  | true =>
    exact h.gestured hat (htakes rfl) (htake ..) hscroll hcoast hmagnify hrotate
      fun hsome => hpaired hsome rfl

/-- The scroll is cancelled, and with it the gesture it came with. -/
theorem Good.closeScroll {opened : Open} (h : ({ inj with opened } : Injector W F).Good e)
    (hat : inj.at'.isSome = true) {paired : Bool} (hscroll : opened.scroll = some paired)
    (at' : Point F) (zero : F) :
    ({ postAll e (.scroll at' zero zero true .cancelled .none 0 ::
        if paired then [.gesture at' (.scroll zero zero) .cancelled 0] else []) inj with
      opened := { opened with scroll := none } } : Injector W F).Good e := by
  let inj1 : Injector W F := (inj.post e none (.scroll at' zero zero true .cancelled .none 0)).2
  have hended : ({ inj1 with
      opened := { opened with scroll := if paired then some true else none } } :
      Injector W F).Good e := by
    refine h.gestured (s := false) hat trivial rfl (fun hno => absurd hno Bool.false_ne_true)
      h.covers.coast h.covers.magnify h.covers.rotate fun hsome => h.covers.paired ?_
    rw [← hsome]
    cases paired with
    | true => exact hscroll
    | false => exact absurd hsome.symm (Option.some_ne_none _)
  refine hended.cancelled hat paired (.gesture at' (.scroll zero zero) .cancelled 0)
    (s := Desk.scroll) (c := Desk.coast) (g := fun _ => false) (m := Desk.magnify)
    (r := Desk.rotate) (fun hno => by rw [hno]; rfl) (fun hgoing => .inr (.inr ?_))
    (fun _ _ _ _ => rfl) (fun hs => ?_) hended.covers.coast hended.covers.magnify
    hended.covers.rotate fun hsome => absurd hsome.symm (Option.some_ne_none _)
  · have hpaired : (desk inj1.posts).paired = (desk inj.posts).paired :=
      (congrArg Desk.paired (desk_append inj.posts _)).trans rfl
    exact hpaired.trans (h.covers.paired (hscroll.trans (congrArg some hgoing)))
  · have hoff : (desk inj1.posts).scroll = false := congrArg Desk.scroll (desk_append _ _)
    exact absurd (hoff.symm.trans hs) Bool.false_ne_true

/-- The momentum, the magnification and the rotation are cancelled. -/
theorem Good.closeOthers {opened : Open} (h : ({ inj with opened } : Injector W F).Good e)
    (hat : inj.at'.isSome = true) (hscroll : opened.scroll = none) (at' : Point F) (zero : F) :
    ({ postAll e (if opened.rotate then [.gesture at' (.rotate zero) .cancelled 0] else [])
        (postAll e (if opened.magnify then [.gesture at' (.magnify zero) .cancelled 0] else [])
          (postAll e (if opened.coast then [.scroll at' zero zero true .none .ended 0] else [])
            inj)) with
      opened := {} } : Injector W F).Good e := by
  obtain ⟨scroll, mayBegin, coast, magnify, rotate⟩ := opened
  obtain rfl : scroll = none := hscroll
  have hcoast := h.cancelled (o := ⟨none, mayBegin, false, magnify, rotate⟩) hat coast
    (.scroll at' zero zero true .none .ended 0) (fun hno => by rw [hno]) (fun _ => trivial)
    (s := Desk.scroll) (c := fun _ => false) (g := Desk.paired) (m := Desk.magnify)
    (r := Desk.rotate) (fun _ _ _ _ => rfl) h.covers.scroll
    (fun hno => absurd hno Bool.false_ne_true) h.covers.magnify h.covers.rotate
    fun hsome => absurd hsome.symm (Option.some_ne_none _)
  have hat1 := (congrArg Option.isSome (postAll_kept e
    (if coast then [.scroll at' zero zero true .none .ended 0] else []) inj).1).trans hat
  have hmagnify := hcoast.cancelled (o := ⟨none, mayBegin, false, false, rotate⟩) hat1 magnify
    (.gesture at' (.magnify zero) .cancelled 0) (fun hno => by rw [hno]) (fun _ => trivial)
    (s := Desk.scroll) (c := Desk.coast) (g := Desk.paired) (m := fun _ => false)
    (r := Desk.rotate) (fun _ _ _ _ => rfl) hcoast.covers.scroll hcoast.covers.coast
    (fun hno => absurd hno Bool.false_ne_true) hcoast.covers.rotate
    fun hsome => absurd hsome.symm (Option.some_ne_none _)
  have hat2 := (congrArg Option.isSome (postAll_kept e
    (if magnify then [.gesture at' (.magnify zero) .cancelled 0] else []) _).1).trans hat1
  have hrotate := hmagnify.cancelled (o := ⟨none, mayBegin, false, false, false⟩) hat2 rotate
    (.gesture at' (.rotate zero) .cancelled 0) (fun hno => by rw [hno]) (fun _ => trivial)
    (s := Desk.scroll) (c := Desk.coast) (g := Desk.paired) (m := Desk.magnify)
    (r := fun _ => false) (fun _ _ _ _ => rfl) hmagnify.covers.scroll hmagnify.covers.coast
    hmagnify.covers.magnify (fun hno => absurd hno Bool.false_ne_true)
    fun hsome => absurd hsome.symm (Option.some_ne_none _)
  exact ⟨⟨⟨hrotate.covers.keys, hrotate.covers.named, hrotate.covers.once, hrotate.covers.held,
    hrotate.covers.pressed, hrotate.covers.top, hrotate.covers.scroll, hrotate.covers.coast,
    hrotate.covers.magnify, hrotate.covers.rotate, hrotate.covers.paired, hrotate.covers.placed⟩,
    hrotate.proper⟩, hrotate.way⟩

theorem Good.of_opened {o : Open} (h : ({ inj with opened := o } : Injector W F).Good e)
    (hopened : inj.opened = o) : inj.Good e := by
  subst hopened
  exact h

theorem Good.closeGestures (h : inj.Good e) :
    (inj.closeGestures e).Good e ∧ (inj.closeGestures e).keys = inj.keys ∧
      (inj.closeGestures e).held = inj.held ∧ (inj.closeGestures e).opened = {} := by
  unfold Injector.closeGestures
  dsimp only
  split
  · rename_i hat'
    obtain ⟨hheld, hscroll, hcoast, hmagnify, hrotate⟩ :=
      h.covers.placed (congrArg Option.isSome hat')
    refine ⟨⟨⟨⟨h.covers.keys, h.covers.named, h.covers.once, h.covers.held, h.covers.pressed,
      h.covers.top, fun hs => ?_, fun hc => ?_, fun hm => ?_, fun hr => ?_, fun hsome => ?_,
      fun _ => ⟨hheld, rfl, rfl, rfl, rfl⟩⟩, h.proper⟩, h.way⟩, rfl, rfl, rfl⟩
    · exact (congrArg Option.isSome hscroll).symm.trans (h.covers.scroll hs)
    · exact hcoast.symm.trans (h.covers.coast hc)
    · exact hmagnify.symm.trans (h.covers.magnify hm)
    · exact hrotate.symm.trans (h.covers.rotate hr)
    · exact absurd hsome.symm (Option.some_ne_none _)
  · rename_i at' hat'
    have hat : inj.at'.isSome = true := congrArg Option.isSome hat'
    let inj0 : Injector W F := { inj with opened := {}, timeline := {} }
    change (postAll e _ inj0).Good e ∧ (postAll e _ inj0).keys = _ ∧ (postAll e _ inj0).held = _ ∧
      (postAll e _ inj0).opened = _
    refine ⟨?_, (postAll_kept e _ inj0).2.2.1, (postAll_kept e _ inj0).2.2.2,
      (postAll_kept e _ inj0).2.1⟩
    -- stage by stage, against what has still to be cancelled
    have h0 : ({ inj0 with opened := inj.opened } : Injector W F).Good e :=
      ⟨⟨h.covers, h.proper⟩, h.way⟩
    refine Good.of_opened (o := {}) ?_ (postAll_kept e _ inj0).2.1
    rw [postAll_append, postAll_append, postAll_append]
    cases hscroll : inj.opened.scroll with
    | none => exact h0.closeOthers hat hscroll at' e.floats.zero
    | some paired =>
      have hclosed := h0.closeScroll hat hscroll at' e.floats.zero
      exact hclosed.closeOthers
        ((congrArg Option.isSome (postAll_kept e _ inj0).1).trans hat) rfl at' e.floats.zero

/-- What releasing a key leaves alone. -/
structure Lifted (code : KeyCode) (inj inj' : Injector W F) : Prop where
  held : inj'.held = inj.held
  opened : inj'.opened = inj.opened
  keys : inj'.keys = inj.keys.filter fun k => k.1 != code

theorem Lifted.of_release {code : KeyCode}
    (hcode : (e.virtualKey code).isSome = true ∧ code ≠ .capsLock) :
    Lifted code inj (inj.postKey e code .release none).2 := by
  obtain ⟨at', hat⟩ := Option.isSome_iff_exists.mp hcode.1
  unfold Injector.postKey
  rw [hat, Option.filter_some, if_pos (decide_eq_true hcode.2)]
  dsimp only
  cases inj.keys.find? fun k => k.1 == code with
  | none => exact ⟨rfl, rfl, rfl⟩
  | some k => exact ⟨rfl, rfl, rfl⟩

/-- After the releases of some keys the others are left. -/
structure LiftedAll (codes : List KeyCode) (inj inj' : Injector W F) : Prop where
  held : inj'.held = inj.held
  opened : inj'.opened = inj.opened
  keys : ∀ k ∈ inj'.keys, k ∈ inj.keys ∧ k.1 ∉ codes

theorem LiftedAll.nil (inj : Injector W F) : LiftedAll [] inj inj :=
  ⟨rfl, rfl, fun _ hk => ⟨hk, List.not_mem_nil⟩⟩

theorem Lifted.cons {code : KeyCode} {codes : List KeyCode} {a b c : Injector W F}
    (h : Lifted code a b) (h' : LiftedAll codes b c) : LiftedAll (code :: codes) a c := by
  refine ⟨h'.held.trans h.held, h'.opened.trans h.opened, fun k hk => ?_⟩
  obtain ⟨hkb, hkcodes⟩ := h'.keys k hk
  rw [h.keys] at hkb
  obtain ⟨hka, hkcode⟩ := List.mem_filter.mp hkb
  refine ⟨hka, fun hmem => ?_⟩
  rcases List.mem_cons.mp hmem with hsame | hmem
  · exact bne_iff_ne.mp hkcode hsame
  · exact hkcodes hmem

/-- Releases of keys the system has, one after another. -/
theorem Good.releaseOthers (codes : List KeyCode)
    (hcodes : ∀ c ∈ codes, (e.virtualKey c).isSome = true ∧ c ≠ .capsLock) :
    ∀ {inj : Injector W F}, inj.Good e →
      (codes.foldl (fun inj code => (inj.postKey e code .release none).2) inj).Good e ∧
        LiftedAll codes inj
          (codes.foldl (fun inj code => (inj.postKey e code .release none).2) inj) := by
  induction codes with
  | nil => exact fun {inj} h => ⟨h, .nil inj⟩
  | cons code rest ih =>
    intro inj h
    obtain ⟨hgood, hlifted⟩ := ih (fun c hc => hcodes c (List.mem_cons_of_mem _ hc))
      (h.postKey code .release none)
    exact ⟨hgood, (Lifted.of_release (hcodes code List.mem_cons_self)).cons hlifted⟩

theorem Good.releaseModifiers (codes : List KeyCode)
    (hcodes : ∀ c ∈ codes, (e.virtualKey c).isSome = true ∧ c ≠ .capsLock) :
    ∀ {inj : Injector W F}, inj.Good e → (Injector.releaseModifiers e codes inj).Good e ∧
      LiftedAll codes inj (Injector.releaseModifiers e codes inj) := by
  induction codes with
  | nil => exact fun {inj} h => ⟨h, .nil inj⟩
  | cons code rest ih =>
    intro inj h
    have hflags := h.reflag
      (rest.foldl (fun flags c => flags ||| modifierFlag c) (inj.flags &&& alphaShift))
    obtain ⟨hgood, hlifted⟩ := ih (fun c hc => hcodes c (List.mem_cons_of_mem _ hc))
      (hflags.postKey code .release none)
    have hreleased : Lifted code ({ inj with
        flags := rest.foldl (fun flags c => flags ||| modifierFlag c) (inj.flags &&& alphaShift) } :
        Injector W F) _ := .of_release (hcodes code List.mem_cons_self)
    have hlifted1 : Lifted code inj _ := ⟨hreleased.held, hreleased.opened, hreleased.keys⟩
    exact ⟨hgood, hlifted1.cons hlifted⟩

/-- Every key is let go of, whatever the system says to it. -/
theorem Good.releaseKeys (h : inj.Good e) : (inj.releaseKeys e).Good e ∧
    (inj.releaseKeys e).held = inj.held ∧ (inj.releaseKeys e).opened = inj.opened ∧
      (inj.releaseKeys e).keys = [] := by
  have hcodes : ∀ c ∈ inj.keys.map Prod.fst, (e.virtualKey c).isSome = true ∧ c ≠ .capsLock := by
    intro c hc
    obtain ⟨k, hk, rfl⟩ := List.mem_map.mp hc
    exact h.covers.named k hk
  obtain ⟨hothers, hlifted⟩ := Good.releaseOthers (e := e)
    ((inj.keys.map Prod.fst).filter fun c => !isModifier c)
    (fun c hc => hcodes c (List.mem_filter.mp hc).1) h
  obtain ⟨hmodifiers, hlifted'⟩ := Good.releaseModifiers (e := e)
    ((inj.keys.map Prod.fst).filter isModifier)
    (fun c hc => hcodes c (List.mem_filter.mp hc).1) hothers
  refine ⟨hmodifiers, hlifted'.held.trans hlifted.held, hlifted'.opened.trans hlifted.opened,
    List.eq_nil_iff_forall_not_mem.mpr fun k hk => ?_⟩
  obtain ⟨hk', hmodifier⟩ := hlifted'.keys k hk
  obtain ⟨hk'', hother⟩ := hlifted.keys k hk'
  have hcode := List.mem_map_of_mem (f := Prod.fst) hk''
  cases hkind : isModifier k.1 with
  | true => exact hmodifier (List.mem_filter.mpr ⟨hcode, hkind⟩)
  | false => exact hother (List.mem_filter.mpr ⟨hcode, congrArg Bool.not hkind⟩)

/-- Letting go of the lock changes nothing else. -/
theorem releaseLock_eq (e : Env W F) (inj : Injector W F) :
    ∃ w holding claims written, inj.releaseLock e =
      { inj with backend := w, holding, claims, written } := by
  unfold Injector.releaseLock
  split
  · exact ⟨_, _, _, _, rfl⟩
  · dsimp only [asks]
    split
    · exact ⟨_, _, _, _, rfl⟩
    · split
      · exact ⟨_, _, _, _, rfl⟩
      · exact ⟨_, _, _, _, rfl⟩

/-- Nothing is left to let go of. -/
structure Still (inj : Injector W F) : Prop where
  held : ∀ b, inj.held b = false
  opened : inj.opened = {}
  keys : inj.keys = []

theorem Good.releaseAll (h : inj.Good e) :
    (inj.releaseAll e).Good e ∧ (inj.releaseAll e).Still := by
  obtain ⟨hbuttons, -, hheld⟩ := h.cancelDrag.releaseButtons
  obtain ⟨hclosed, -, hheld', hopened⟩ := hbuttons.closeGestures
  obtain ⟨hkeys, hheld'', hopened', hnone⟩ := hclosed.releaseKeys
  obtain ⟨w, holding, claims, written, hlock⟩ := releaseLock_eq e
    ((((inj.cancelDrag e).2.releaseButtons e).closeGestures e).releaseKeys e)
  unfold Injector.releaseAll
  rw [hlock]
  exact ⟨⟨⟨hkeys.covers, hkeys.proper⟩, hkeys.way⟩,
    fun b => (congrFun (hheld''.trans hheld') b).trans (hheld b), hopened'.trans hopened, hnone⟩

/-- Nothing is down where there is nothing left to let go of. -/
theorem Good.nothing_down (h : inj.Good e) (hstill : inj.Still) :
    (∀ vk, (desk inj.posts).keys vk = false) ∧ (∀ b, (desk inj.posts).press b = none) ∧
      (desk inj.posts).scroll = false ∧ (desk inj.posts).coast = false ∧
        (desk inj.posts).magnify = false ∧ (desk inj.posts).rotate = false := by
  have hopened := hstill.opened
  refine ⟨fun vk => Bool.eq_false_iff.mpr fun hdown => ?_, fun b => ?_,
    Bool.eq_false_iff.mpr fun hs => ?_, Bool.eq_false_iff.mpr fun hc => ?_,
    Bool.eq_false_iff.mpr fun hm => ?_, Bool.eq_false_iff.mpr fun hr => ?_⟩
  · obtain ⟨k, hk, -⟩ := h.covers.keys vk hdown
    rw [hstill.keys] at hk
    exact absurd hk List.not_mem_nil
  · by_contra hdown
    exact absurd ((hstill.held b).symm.trans (h.covers.held b hdown)) Bool.false_ne_true
  · have hno := h.covers.scroll hs
    rw [hopened] at hno
    exact absurd hno Bool.false_ne_true
  · have hno := h.covers.coast hc
    rw [hopened] at hno
    exact absurd hno Bool.false_ne_true
  · have hno := h.covers.magnify hm
    rw [hopened] at hno
    exact absurd hno Bool.false_ne_true
  · have hno := h.covers.rotate hr
    rw [hopened] at hno
    exact absurd hno Bool.false_ne_true

theorem Good.act (h : inj.Good e) (op : Op F) : (inj.act e op).Good e := by
  cases op with
  | inject now input => exact h.inject now input
  | dragStep now step => exact h.dragStep now step
  | nudge now => exact h.nudge now
  | focus now =>
    unfold Injector.act focus
    dsimp only
    split
    · dsimp only [asks]
      split
      · exact ⟨⟨h.covers, h.proper⟩, h.way⟩
      · exact ⟨⟨h.covers, h.proper⟩, h.way⟩
    · exact h
  | setBounds bounds at' =>
    unfold Injector.act setBounds
    dsimp only
    split
    · exact ⟨⟨h.covers, h.proper⟩, h.way⟩
    · exact h
  | setScale scale =>
    unfold Injector.act setScale
    dsimp only
    split
    · exact ⟨⟨h.covers, h.proper⟩, h.way⟩
    · exact h
  | releaseAll => exact h.releaseAll.1
  | others presses claims =>
    exact ⟨⟨⟨h.covers.keys, h.covers.named, h.covers.once, h.covers.held, h.covers.pressed,
      h.covers.top.trans (Nat.le_add_right _ _), h.covers.scroll, h.covers.coast,
      h.covers.magnify, h.covers.rotate, h.covers.paired, h.covers.placed⟩, h.proper⟩, h.way⟩

theorem Good.acts (h : inj.Good e) (ops : List (Op F)) : (inj.acts e ops).Good e := by
  unfold Injector.acts
  induction ops generalizing inj with
  | nil => exact h
  | cons op rest ih => exact ih (h.act op)

end Injector

section Runs

variable (e : Env W F) (backend : W) (claims : CapsClaims) (target : Target) (scale : F)

theorem good_withBackend : (withBackend e backend claims target scale).Good e := by
  have hno : ∀ {P : Prop}, false = true → P := fun hno => absurd hno Bool.false_ne_true
  refine ⟨⟨⟨fun _ => hno, fun _ hk => absurd hk List.not_mem_nil,
    fun _ hk => absurd hk List.not_mem_nil, fun _ hdown => absurd rfl hdown, fun _ => rfl,
    Nat.zero_le _, hno, hno, hno, hno, fun hsome => absurd hsome.symm (Option.some_ne_none _),
    fun _ => ⟨fun _ => rfl, rfl, rfl, rfl, rfl⟩⟩, proper_nil⟩,
    fun n hid hpress => absurd hpress.symm (Option.some_ne_none _)⟩

/-- Every press takes a number no earlier press took, each drag and release carries the number of
the press that holds its button, those of the left button go the way the press went, and no scroll
gesture goes on that has not begun. -/
theorem posts_proper (ops : List (Op F)) :
    Proper ((withBackend e backend claims target scale).acts e ops).posts :=
  ((good_withBackend e backend claims target scale).acts ops).proper

end Runs

end Slopty.Input
