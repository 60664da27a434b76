import Slopty.Lib.Race
import Slopty.Lib.Run
import Slopty.Link.View
import Mathlib.Data.List.Chain
import Mathlib.Data.List.Induction

/-!
A session's frames on their two ways to the app: the stream carries each of
them, and a datagram copy of a diff goes on when it follows the last frame
passed on.
-/

namespace Slopty.Link

open Slopty.Lib Slopty.Grid

/-- Which frames of a session's stream go on to the app, from whichever copy came first. -/
structure FrameOrder where
  last : Option Nat := none

namespace FrameOrder

/-- Whether the stream's frame was already passed on from its copy; a whole frame always goes. -/
def streamHas (order : FrameOrder) (f : ViewFrame) : Bool :=
  !f.full && order.last.any fun last => decide (f.seq ≤ last)

def stream (order : FrameOrder) (f : ViewFrame) : FrameOrder × Option ViewFrame :=
  if order.streamHas f then (order, none) else (⟨some f.seq⟩, some f)

def copy (order : FrameOrder) (f : ViewFrame) : FrameOrder × Option ViewFrame :=
  if !f.full && order.last.any fun last => decide (last + 1 < 2 ^ 64 ∧ last + 1 = f.seq) then
    (⟨some f.seq⟩, some f)
  else (order, none)

end FrameOrder

/-- A session's stream with the copies of its diffs, as far as the app. -/
def frameRace : Race Unit FrameOrder ViewFrame ViewFrame ViewFrame where
  send _ f := ((), if f.full then none else some f)
  stream := FrameOrder.stream
  copy := FrameOrder.copy

/-- A frame after another on a stream: a diff is numbered one above it, in its
numbering of the lines. -/
def NextOn (f g : ViewFrame) : Prop :=
  f.seq ≤ g.seq ∧ (g.full = false → g.seq = f.seq + 1 ∧ g.epoch = f.epoch)

instance : DecidableRel NextOn := fun f g =>
  inferInstanceAs (Decidable (f.seq ≤ g.seq ∧ (g.full = false → _ ∧ _)))

/-- The frames of a session's stream: a whole one first, then diffs, and whole
ones at any time. -/
structure Streamed (frames : List ViewFrame) : Prop where
  head : ∀ f ∈ frames.head?, f.full = true
  chain : frames.IsChain NextOn
  bounded : ∀ f ∈ frames, f.seq < 2 ^ 64

/-- No copy comes that is next although a whole frame of the number before it
is still on its way. -/
def CopyInTurn (s : frameRace.State) : Race.Step ViewFrame → Prop
  | .copy i => ∀ c ∈ s.copies[i]?, ∀ f ∈ s.sent.drop s.heard, f.full = true →
      s.receiver.last = some f.seq → c.seq ≠ f.seq + 1
  | _ => True

instance (s : frameRace.State) : ∀ i, Decidable (CopyInTurn s i)
  | .copy i => inferInstanceAs (Decidable (∀ c ∈ s.copies[i]?, ∀ f ∈ s.sent.drop s.heard, _))
  | .send _ => isTrue trivial
  | .stream => isTrue trivial

section Streams

variable {frames before after : List ViewFrame}

theorem Streamed.of_append (h : Streamed (before ++ after)) : Streamed before where
  head := by
    intro f hf
    cases before with
    | nil => exact absurd hf nofun
    | cons g before => exact h.head f hf
  chain := h.chain.left_of_append
  bounded := fun f hf => h.bounded f (List.mem_append_left _ hf)

theorem Streamed.next (h : Streamed frames) {i : Nat} {f g : ViewFrame} (hf : frames[i]? = some f)
    (hg : frames[i + 1]? = some g) : NextOn f g := by
  obtain ⟨-, rfl⟩ := List.getElem?_eq_some_iff.mp hf
  obtain ⟨hlt, rfl⟩ := List.getElem?_eq_some_iff.mp hg
  exact h.chain.getElem i hlt

theorem Streamed.next_of_prefix (h : Streamed frames) {f g : ViewFrame}
    (hpart : before ++ [f] ++ [g] <+: frames) : NextOn f g := by
  have hchain := h.chain.prefix hpart
  rw [List.append_assoc] at hchain
  exact (List.isChain_append_cons_cons.mp hchain).2.1

theorem Streamed.seq_le (h : Streamed frames) {i j : Nat} {f g : ViewFrame}
    (hf : frames[i]? = some f) (hg : frames[j]? = some g) (hij : i ≤ j) : f.seq ≤ g.seq := by
  induction j, hij using Nat.le_induction generalizing g with
  | base => rw [Option.some.inj (hf.symm.trans hg)]
  | succ j hij ih =>
    have hlt := (List.getElem?_eq_some_iff.mp hg).1
    have hprev : frames[j]? = some frames[j] := List.getElem?_eq_getElem (Nat.lt_of_succ_lt hlt)
    exact (ih hprev).trans (h.next hprev hg).1

theorem Streamed.seq_lt (h : Streamed frames) {i j : Nat} {f g : ViewFrame}
    (hf : frames[i]? = some f) (hg : frames[j]? = some g) (hij : i < j) (hdiff : g.full = false) :
    f.seq < g.seq := by
  cases j with
  | zero => exact absurd hij (Nat.not_lt_zero i)
  | succ j =>
    have hlt := (List.getElem?_eq_some_iff.mp hg).1
    have hprev : frames[j]? = some frames[j] := List.getElem?_eq_getElem (Nat.lt_of_succ_lt hlt)
    have hnext := ((h.next hprev hg).2 hdiff).1
    have hle := h.seq_le hf hprev (Nat.lt_succ_iff.mp hij)
    omega

end Streams

def lastOf (frames : List ViewFrame) : Nat → Option Nat
  | 0 => none
  | n + 1 => frames[n]?.map fun f => f.seq

theorem lastOf_append {frames : List ViewFrame} {n : Nat} (h : n ≤ frames.length)
    (after : List ViewFrame) : lastOf (frames ++ after) n = lastOf frames n := by
  cases n with
  | zero => rfl
  | succ n =>
    show (frames ++ after)[n]?.map _ = frames[n]?.map _
    rw [List.getElem?_append_left h]

theorem lastOf_succ {frames : List ViewFrame} {n : Nat} {f : ViewFrame}
    (h : frames[n]? = some f) : lastOf frames (n + 1) = some f.seq := by
  show frames[n]?.map _ = _
  rw [h]
  rfl

theorem lastOf_eq_some {frames : List ViewFrame} {n last : Nat} (h : lastOf frames n = some last) :
    ∃ m f, n = m + 1 ∧ frames[m]? = some f ∧ f.seq = last := by
  cases n with
  | zero => exact absurd h nofun
  | succ m =>
    obtain ⟨f, hf, hseq⟩ := Option.map_eq_some_iff.mp h
    exact ⟨m, f, rfl, hf, hseq⟩

/-- The frames passed on are the first `n` of the stream, those past what the
stream brought being diffs. -/
structure InOrder (s : frameRace.State) (n : Nat) : Prop where
  passed : s.passed = s.sent.take n
  heard : s.heard ≤ n
  sent : n ≤ s.sent.length
  ahead : ∀ i f, s.heard ≤ i → i < n → s.sent[i]? = some f → f.full = false
  last : s.receiver.last = lastOf s.sent n
  copies : ∀ c ∈ s.copies, c ∈ s.sent ∧ c.full = false

namespace InOrder

variable {s : frameRace.State} {n : Nat}

theorem send (h : InOrder s n) (f : ViewFrame) : InOrder (s.send f) n where
  passed := by
    show s.passed = (s.sent ++ [f]).take n
    rw [List.take_append_of_le_length h.sent]
    exact h.passed
  heard := h.heard
  sent := by
    show n ≤ (s.sent ++ [f]).length
    rw [List.length_append]
    exact Nat.le_add_right_of_le h.sent
  ahead := by
    intro i g hheard hn hg
    have hg : (s.sent ++ [f])[i]? = some g := hg
    rw [List.getElem?_append_left (hn.trans_le h.sent)] at hg
    exact h.ahead i g hheard hn hg
  last := h.last.trans (lastOf_append h.sent [f]).symm
  copies := by
    intro c hc
    rcases List.mem_append.mp hc with hold | hnew
    · exact ⟨List.mem_append_left _ (h.copies c hold).1, (h.copies c hold).2⟩
    · have hnew : c ∈ (if f.full then none else some f).toList := hnew
      split at hnew
      · exact absurd hnew nofun
      · rename_i hdiff
        obtain rfl := Option.mem_toList.mp hnew |> Option.some.inj |> Eq.symm
        exact ⟨List.mem_append_right _ List.mem_cons_self, Bool.eq_false_iff.mpr hdiff⟩

theorem take_next (h : InOrder s n) {f : ViewFrame} (hf : s.sent[n]? = some f) :
    s.passed ++ [f] = s.sent.take (n + 1) := by
  obtain ⟨hlt, rfl⟩ := List.getElem?_eq_some_iff.mp hf
  rw [h.passed, List.take_succ_eq_append_getElem hlt]

/-- The stream's next frame goes on if no copy of it did, and is dropped if one did. -/
theorem stream (h : InOrder s n) (hstream : Streamed s.sent) {f : ViewFrame}
    (hf : s.sent[s.heard]? = some f) : ∃ n, InOrder (s.stream f) n := by
  by_cases hahead : s.heard < n
  · have hdiff := h.ahead s.heard f (le_refl _) hahead hf
    have hhas : s.receiver.streamHas f = true := by
      unfold FrameOrder.streamHas
      obtain ⟨m, rfl⟩ := Nat.exists_eq_succ_of_ne_zero (Nat.ne_zero_of_lt hahead)
      have hm := List.getElem?_eq_getElem h.sent
      have hle := hstream.seq_le hf hm (Nat.lt_succ_iff.mp hahead)
      rw [hdiff, h.last, lastOf_succ hm]
      exact decide_eq_true hle
    have hdropped : frameRace.stream s.receiver f = (s.receiver, none) := if_pos hhas
    refine ⟨n, ?_⟩
    exact
      { passed := by
          show s.passed ++ (frameRace.stream s.receiver f).2.toList = s.sent.take n
          rw [hdropped]
          exact (List.append_nil _).trans h.passed
        heard := hahead
        sent := h.sent
        ahead := fun i g hheard => h.ahead i g (Nat.le_of_succ_le hheard)
        last := by
          show (frameRace.stream s.receiver f).1.last = lastOf s.sent n
          rw [hdropped]
          exact h.last
        copies := h.copies }
  · obtain rfl : s.heard = n := Nat.le_antisymm h.heard (Nat.not_lt.mp hahead)
    have hnot : ¬ s.receiver.streamHas f = true := by
      intro hhas
      obtain ⟨hdiff, hany⟩ := Bool.and_eq_true_iff.mp hhas
      cases hlast : s.receiver.last with
      | none =>
        rw [hlast] at hany
        exact absurd hany nofun
      | some last =>
        rw [hlast] at hany
        obtain ⟨m, g, hm, hg, rfl⟩ := lastOf_eq_some (h.last.symm.trans hlast)
        have hlt := hstream.seq_lt hg hf (hm ▸ Nat.lt_succ_self m) (by simpa using hdiff)
        exact absurd (of_decide_eq_true hany) (Nat.not_le.mpr hlt)
    have hgoes : frameRace.stream s.receiver f = (⟨some f.seq⟩, some f) := if_neg hnot
    refine ⟨s.heard + 1, ?_⟩
    exact
      { passed := by
          show s.passed ++ (frameRace.stream s.receiver f).2.toList = s.sent.take (s.heard + 1)
          rw [hgoes]
          exact h.take_next hf
        heard := le_refl _
        sent := (List.getElem?_eq_some_iff.mp hf).1
        ahead := fun i g hheard hn => absurd hn (Nat.not_lt.mpr hheard)
        last := by
          show (frameRace.stream s.receiver f).1.last = lastOf s.sent (s.heard + 1)
          rw [hgoes]
          exact (lastOf_succ hf).symm
        copies := h.copies }

theorem copy (h : InOrder s n) (hstream : Streamed s.sent) {c : ViewFrame} (hc : c ∈ s.copies)
    (hturn : ∀ f ∈ s.sent.drop s.heard, f.full = true → s.receiver.last = some f.seq →
      c.seq ≠ f.seq + 1) : ∃ n, InOrder (s.copy c) n := by
  obtain ⟨hmem, hdiff⟩ := h.copies c hc
  by_cases hnext : ∃ last, s.receiver.last = some last ∧ c.seq = last + 1
  · obtain ⟨last, hlast, hseq⟩ := hnext
    obtain ⟨m, g, rfl, hg, rfl⟩ := lastOf_eq_some (h.last.symm.trans hlast)
    obtain ⟨j, hj⟩ := List.mem_iff_getElem?.mp hmem
    -- The copy is past the frames passed on, and no frame between is a whole one.
    have hpast : m < j := by
      refine Nat.lt_of_not_le fun hle => ?_
      have := hstream.seq_le hj hg hle
      omega
    have hf : s.sent[m + 1]? = some c := by
      rcases Nat.eq_or_lt_of_le (Nat.succ_le_of_lt hpast) with rfl | hlt
      · exact hj
      · have hbound := hlt.trans (List.getElem?_eq_some_iff.mp hj).1
        obtain ⟨f, hf⟩ : ∃ f, s.sent[m + 1]? = some f := ⟨_, List.getElem?_eq_getElem hbound⟩
        have hclimbs := (hstream.next hg hf).1
        have hbefore := hstream.seq_lt hf hj hlt hdiff
        have hsame : f.seq = g.seq := by omega
        have hwhole : f.full = true := by
          refine Bool.of_not_eq_false fun hnot => ?_
          have := ((hstream.next hg hf).2 hnot).1
          omega
        have hwaiting : f ∈ s.sent.drop s.heard := by
          refine List.mem_iff_getElem?.mpr ⟨m + 1 - s.heard, ?_⟩
          rw [List.getElem?_drop, Nat.add_sub_cancel' h.heard]
          exact hf
        rw [← hsame] at hseq hlast
        exact absurd hseq (hturn f hwaiting hwhole hlast)
    have hgoes : frameRace.copy s.receiver c = (⟨some c.seq⟩, some c) := by
      refine if_pos ?_
      have hbounded := hstream.bounded c hmem
      rw [hdiff, hlast]
      exact decide_eq_true ⟨hseq ▸ hbounded, hseq.symm⟩
    refine ⟨m + 2, ?_⟩
    exact
      { passed := by
          show s.passed ++ (frameRace.copy s.receiver c).2.toList = s.sent.take (m + 2)
          rw [hgoes]
          exact h.take_next hf
        heard := Nat.le_succ_of_le h.heard
        sent := (List.getElem?_eq_some_iff.mp hf).1
        ahead := by
          intro i f hheard hn hget
          rcases Nat.lt_succ_iff_lt_or_eq.mp hn with hlt | rfl
          · exact h.ahead i f hheard hlt hget
          · rwa [← Option.some.inj (hf.symm.trans hget)]
        last := by
          show (frameRace.copy s.receiver c).1.last = lastOf s.sent (m + 2)
          rw [hgoes]
          exact (lastOf_succ hf).symm
        copies := h.copies }
  · have hdropped : frameRace.copy s.receiver c = (s.receiver, none) := by
      refine if_neg fun hgoes => hnext ?_
      cases hlast : s.receiver.last with
      | none =>
        rw [hlast] at hgoes
        simp at hgoes
      | some last =>
        rw [hlast] at hgoes
        exact ⟨last, rfl, (of_decide_eq_true (Bool.and_eq_true_iff.mp hgoes).2).2.symm⟩
    refine ⟨n, ?_⟩
    exact
      { passed := by
          show s.passed ++ (frameRace.copy s.receiver c).2.toList = s.sent.take n
          rw [hdropped]
          exact (List.append_nil _).trans h.passed
        heard := h.heard
        sent := h.sent
        ahead := h.ahead
        last := by
          show (frameRace.copy s.receiver c).1.last = lastOf s.sent n
          rw [hdropped]
          exact h.last
        copies := h.copies }

theorem step (h : InOrder s n) {i : Race.Step ViewFrame} (hturn : CopyInTurn s i)
    (hstream : Streamed s.sent) : ∃ n, InOrder (s.step i) n := by
  cases i with
  | send f => exact ⟨n, h.send f⟩
  | stream =>
    cases hf : s.sent[s.heard]? with
    | none =>
      rw [Race.State.step, hf]
      exact ⟨n, h⟩
    | some f =>
      rw [Race.State.step, hf]
      exact h.stream hstream hf
  | copy i =>
    cases hc : s.copies[i]? with
    | none =>
      rw [Race.State.step, hc]
      exact ⟨n, h⟩
    | some c =>
      rw [Race.State.step, hc]
      exact h.copy hstream (List.mem_of_getElem? hc) (hturn c hc)

end InOrder

def newStream : frameRace.State := { sender := (), receiver := {} }

theorem newStream_inOrder : InOrder newStream 0 where
  passed := rfl
  heard := le_refl 0
  sent := le_refl 0
  ahead := fun _ _ _ hlt => absurd hlt (Nat.not_lt_zero _)
  last := rfl
  copies := nofun

theorem step_sent (s : frameRace.State) (i : Race.Step ViewFrame) :
    ∃ more, (s.step i).sent = s.sent ++ more := by
  cases i with
  | send f => exact ⟨[f], rfl⟩
  | stream =>
    refine ⟨[], ?_⟩
    rw [Race.State.step, List.append_nil]
    cases s.sent[s.heard]? <;> rfl
  | copy i =>
    refine ⟨[], ?_⟩
    rw [Race.State.step, List.append_nil]
    cases s.copies[i]? <;> rfl

/-- Along every run whose copies come in turn the frames passed on are the
stream's, in order. -/
theorem run_inOrder (steps : List (Race.Step ViewFrame))
    (hturn : EachStep Race.State.step CopyInTurn newStream steps)
    (hstream : Streamed (newStream.run steps).sent) : ∃ n, InOrder (newStream.run steps) n := by
  induction steps using List.reverseRecOn with
  | nil => exact ⟨0, newStream_inOrder⟩
  | append_singleton steps i ih =>
    obtain ⟨hbefore, hi, -⟩ := EachStep.append.mp hturn
    have hlast : newStream.run (steps ++ [i]) = (newStream.run steps).step i := List.foldl_append
    rw [hlast] at hstream ⊢
    obtain ⟨more, hmore⟩ := step_sent (newStream.run steps) i
    have hsent : Streamed (newStream.run steps).sent := (hmore ▸ hstream).of_append
    obtain ⟨n, hn⟩ := ih hbefore hsent
    exact hn.step hi hsent

namespace TermView

def shown (v : TermView) (frames : List ViewFrame) : TermView :=
  frames.foldl (fun v f => (v.applyFrame f).1) v

structure At (v : TermView) (f : ViewFrame) : Prop where
  lastSeq : v.lines.lastSeq = some f.seq
  epoch : v.lines.epoch = some f.epoch
  trusted : v.lines.relinked = false

theorem applyFrame_at {v : TermView} {f : ViewFrame}
    (hnew : v.lines.superseded f.toLineFrame = false) : At (v.applyFrame f).1 f := by
  obtain ⟨w, focus, hlines, -, hsame⟩ := applyFrame_eq hnew
  have hshown : (w.showFrame f focus).lines.lastSeq = some f.seq ∧
      (w.showFrame f focus).lines.epoch = some f.epoch ∧
      (w.showFrame f focus).lines.relinked = false := by
    rw [showFrame_lines, hlines]
    exact TermState.applyFrame_at hnew focus
  exact ⟨hsame.lastSeq.trans hshown.1, hsame.epoch.trans hshown.2.1,
    hsame.relinked.trans hshown.2.2⟩

theorem At.next {v : TermView} {f g : ViewFrame} (h : At v f) (hnext : NextOn f g)
    (hbound : g.seq < 2 ^ 64) :
    v.lines.superseded g.toLineFrame = false ∧ v.unfilled g = false := by
  unfold TermState.superseded unfilled TermState.sameNumbering
  rw [h.lastSeq, h.epoch, h.trusted]
  cases hfull : g.full with
  | true =>
    refine ⟨decide_eq_false fun hold => ?_, Bool.and_false _⟩
    rcases hold with hlt | ⟨-, hdiff⟩
    · exact absurd hlt (Nat.not_lt.mpr hnext.1)
    · exact absurd hdiff nofun
  | false =>
    obtain ⟨hseq, hepoch⟩ := hnext.2 hfull
    rw [hseq] at hbound
    refine ⟨decide_eq_false fun hold => ?_, ?_⟩
    · rw [hseq] at hold
      omega
    · have hmod : (f.seq + 1) % 2 ^ 64 = g.seq := (Nat.mod_eq_of_lt hbound).trans hseq.symm
      simp only [Option.any_some, hmod, hepoch, bne_self_eq_false, beq_self_eq_true, Bool.not_false,
        Bool.and_self, Bool.true_or, Bool.not_true, Bool.or_self, Bool.false_and]

theorem not_attach {v : TermView} {f : ViewFrame} (h : v.unfilled f = false) :
    Effect.attach ∉ (v.applyFrame f).2 := by
  unfold applyFrame
  split
  · exact List.not_mem_nil
  · dsimp only
    rw [h, Bool.false_and, if_neg Bool.false_ne_true]
    split
    · intro hmem
      obtain ⟨r, -, hr⟩ := List.mem_map.mp hmem
      exact absurd hr nofun
    · exact List.not_mem_nil

/-- Every frame of a stream whose first one is not superseded is applied, and
none asks for every row again. -/
theorem shown_next {v : TermView} {frames : List ViewFrame} (hstream : Streamed frames)
    (hfirst : ∀ f ∈ frames.head?, v.lines.superseded f.toLineFrame = false)
    {before : List ViewFrame} {f : ViewFrame} (h : before ++ [f] <+: frames) :
    (v.shown before).lines.superseded f.toLineFrame = false ∧
      (v.shown before).unfilled f = false := by
  induction before using List.reverseRecOn generalizing f with
  | nil =>
    obtain ⟨rest, rfl⟩ := h
    have hwhole := hstream.head f rfl
    refine ⟨hfirst f rfl, ?_⟩
    unfold unfilled
    rw [hwhole]
    exact Bool.and_false _
  | append_singleton before g ih =>
    have hprev : before ++ [g] <+: frames := (List.prefix_append _ [f]).trans h
    have hat : At (v.shown (before ++ [g])) g := by
      unfold shown
      rw [List.foldl_append]
      exact applyFrame_at (ih hprev).1
    exact hat.next (hstream.next_of_prefix h)
      (hstream.bounded f (h.subset (List.mem_append_right _ List.mem_cons_self)))

/-- What the app takes of a stream and its copies: the stream's frames, each
once and in order, none of them superseded or asking for every row again, and
in the end the terminal the stream alone gives. -/
structure TakenOnce (s : frameRace.State) : Prop where
  once : s.passed <+: s.sent ∧ s.heard ≤ s.passed.length
  applied : ∀ v : TermView, (∀ f ∈ s.sent.head?, v.lines.superseded f.toLineFrame = false) →
    ∀ before f, before ++ [f] <+: s.passed →
      (v.shown before).lines.superseded f.toLineFrame = false ∧
        Effect.attach ∉ ((v.shown before).applyFrame f).2
  same : s.heard = s.sent.length → ∀ v : TermView, v.shown s.passed = v.shown s.sent

/-- In every run whose copies come in turn the app takes each frame of the
stream once. -/
theorem frames_taken_once (steps : List (Race.Step ViewFrame))
    (hstream : Streamed (newStream.run steps).sent)
    (hturn : EachStep Race.State.step CopyInTurn newStream steps) :
    TakenOnce (newStream.run steps) := by
  obtain ⟨n, hn⟩ := run_inOrder steps hturn hstream
  have hpart : (newStream.run steps).passed <+: (newStream.run steps).sent := by
    rw [hn.passed]
    exact List.take_prefix n _
  refine ⟨⟨hpart, ?_⟩, fun v hfirst before f hf => ?_, fun hall v => ?_⟩
  · rw [hn.passed, List.length_take]
    exact Nat.le_min.mpr ⟨hn.heard, hn.heard.trans hn.sent⟩
  · obtain ⟨hnew, hfilled⟩ := shown_next hstream hfirst (hf.trans hpart)
    exact ⟨hnew, not_attach hfilled⟩
  · have hend : n = (newStream.run steps).sent.length :=
      Nat.le_antisymm hn.sent (hall ▸ hn.heard)
    rw [hn.passed, hend, List.take_length]

def oneCell (seq : Nat) (full : Bool) (c : Char) : ViewFrame where
  seq := seq
  full := full
  epoch := 0
  altScreen := false
  firstVisible := 0
  oldest := 0
  total := 1
  updates := [(0, { cells := [Cell.narrow c {}] })]
  cols := 1
  rows := 1

/-- A whole frame, a diff and its copy, and the next diff: the copy goes on
before the stream's. -/
def copied : List (Race.Step ViewFrame) :=
  [.send (oneCell 5 true 'a'), .send (oneCell 6 false 'b'), .stream, .copy 0, .stream,
    .send (oneCell 7 false 'c'), .stream, .copy 1]

theorem copied_streamed : Streamed (newStream.run copied).sent where
  head := by
    intro f hf
    obtain rfl := Option.some.inj hf
    rfl
  chain := show [oneCell 5 true 'a', oneCell 6 false 'b', oneCell 7 false 'c'].IsChain NextOn by
    decide
  bounded := show ∀ f ∈ [oneCell 5 true 'a', oneCell 6 false 'b', oneCell 7 false 'c'],
    f.seq < 2 ^ 64 by
      intro f hf
      simp only [List.mem_cons, List.not_mem_nil, or_false] at hf
      rcases hf with rfl | rfl | rfl <;> decide

theorem frames_taken_once_copied : TakenOnce (newStream.run copied) :=
  frames_taken_once copied copied_streamed (by decide)

/-- The diff behind a whole frame that a joiner's number is on, its copy first. -/
def overtaken : List (Race.Step ViewFrame) :=
  [.send (oneCell 5 true 'a'), .send (oneCell 6 false 'b'), .send (oneCell 6 true 'c'),
    .send { oneCell 7 false 'd' with updates := [] }, .stream, .stream, .copy 1, .stream, .stream]

theorem overtaken_streamed : Streamed (newStream.run overtaken).sent where
  head := by
    intro f hf
    obtain rfl := Option.some.inj hf
    rfl
  chain := show [oneCell 5 true 'a', oneCell 6 false 'b', oneCell 6 true 'c',
    { oneCell 7 false 'd' with updates := [] }].IsChain NextOn by decide
  bounded := show ∀ f ∈ [oneCell 5 true 'a', oneCell 6 false 'b', oneCell 6 true 'c',
    { oneCell 7 false 'd' with updates := [] }], f.seq < 2 ^ 64 by
      intro f hf
      simp only [List.mem_cons, List.not_mem_nil, or_false] at hf
      rcases hf with rfl | rfl | rfl | rfl <;> decide

/-- The copy of a diff that overtakes a whole frame of the number before it is
shown in its place: the whole frame is then superseded. -/
theorem not_frames_taken_once :
    ¬ ∀ steps : List (Race.Step ViewFrame), Streamed (newStream.run steps).sent →
      TakenOnce (newStream.run steps) := by
  intro h
  have hsame := (h overtaken overtaken_streamed).same (by decide) (new 1 1)
  have hrows := congrArg TermView.rows hsame
  revert hrows
  decide

end TermView

end Slopty.Link
