import Slopty.Media.ReassemblerState

/-!
The decode chain: the abstract receiver that a decoder can trust. It holds what
it needs next, the last frame it handed over and the frames it stepped over as
ones nothing refers to; its moves are the only ways a frame may leave it.
-/

namespace Slopty.Media.Reassemble

structure Chain where
  need : Need
  last : Option Nat
  passed : List Nat

/-- `u32::wrapping_add(1)`. -/
def nextNumber (n : Nat) : Nat := (n + 1) % 2 ^ 32

def Need.Admits : Need → FrameInfo → Prop
  | .keyframe, info => info.keyframe = true
  | .refresh, info => info.keyframe = true ∨ info.ltrRefresh = true
  | .frame n, info => info.frame = n

def Need.forced (need : Need) (keyframe : Bool) : Need :=
  if keyframe || decide (need = .keyframe) then .keyframe else .refresh

inductive Chain.Move : Chain → List Event → Chain → Prop
  | deliver (c : Chain) (info : FrameInfo) (hadmits : c.need.Admits info)
      (hlast : ∀ g ∈ c.last, g < info.frame) :
      Move c [.delivered info c.need] ⟨.frame (nextNumber info.frame), some info.frame, c.passed⟩
  | skip (c : Chain) (f : Nat) :
      Move c [.skipped f true] ⟨c.need, c.last, f :: c.passed⟩
  | pass (c : Chain) (n : Nat) (hneed : c.need = .frame n) (hpassed : n ∈ c.passed) :
      Move c [] ⟨.frame (nextNumber n), c.last, c.passed⟩
  | lose (c : Chain) (n : Nat) (hneed : c.need = .frame n) :
      Move c [] ⟨.refresh, c.last, c.passed⟩
  | force (c : Chain) (keyframe : Bool) :
      Move c [.forced keyframe] ⟨c.need.forced keyframe, c.last, c.passed⟩
  | take (c : Chain) (info : FrameInfo) : Move c [.taken info] c

/-- Moves one after another. -/
inductive Chain.Path : Chain → List Event → Chain → Prop
  | refl (c : Chain) : Path c [] c
  | tail {c d e : Chain} {es fs : List Event} (hpath : Path c es d) (hmove : Chain.Move d fs e) :
      Path c (es ++ fs) e

namespace Chain

def start : Chain := ⟨.keyframe, none, []⟩

theorem Path.single {c d : Chain} {es : List Event} (h : Move c es d) : Path c es d := by
  simpa using Path.tail (Path.refl c) h

theorem Path.trans {c d e : Chain} {es fs : List Event} (h : Path c es d) (h' : Path d fs e) :
    Path c (es ++ fs) e := by
  induction h' with
  | refl => simpa using h
  | tail _ hmove ih =>
      rw [← List.append_assoc]
      exact Path.tail ih hmove

end Chain

/-- The frames handed over, in order. -/
def deliveries (tr : List Event) : List FrameInfo :=
  tr.filterMap fun e => match e with
    | .delivered info _ => some info
    | _ => none

@[simp] theorem deliveries_append (tr tr' : List Event) :
    deliveries (tr ++ tr') = deliveries tr ++ deliveries tr' :=
  List.filterMap_append

@[simp] theorem deliveries_delivered (info : FrameInfo) (need : Need) :
    deliveries [.delivered info need] = [info] := rfl

@[simp] theorem deliveries_skipped (f : Nat) (d : Bool) : deliveries [.skipped f d] = [] := rfl

@[simp] theorem deliveries_forced (k : Bool) : deliveries [.forced k] = [] := rfl

@[simp] theorem deliveries_taken (info : FrameInfo) : deliveries [.taken info] = [] := rfl

@[simp] theorem deliveries_nil : deliveries [] = [] := rfl

/-- Frame `b` may follow frame `a` into the decoder: it restarts decoding, or
every frame between them was stepped over while known to be one nothing refers
to. `before` is the trace up to `b`. -/
def Follows (before : List Event) (a b : FrameInfo) (need : Need) : Prop :=
  b.keyframe = true ∨ (b.ltrRefresh = true ∧ need = .refresh) ∨
    ∀ m, a.frame < m → m < b.frame → Event.skipped m true ∈ before

structure DecodeSafe (tr : List Event) : Prop where
  increasing : (deliveries tr).Pairwise fun a b => a.frame < b.frame
  first : ∀ info ∈ (deliveries tr).head?, info.keyframe = true
  afterForce : ∀ pre post, tr = pre ++ .forced true :: post →
    ∀ info ∈ (deliveries post).head?, info.keyframe = true
  chained : ∀ pre mid post a needA b needB,
    tr = pre ++ .delivered a needA :: (mid ++ .delivered b needB :: post) →
    deliveries mid = [] → Follows (pre ++ .delivered a needA :: mid) a b needB

structure Chain.Ties (tr : List Event) (c : Chain) : Prop where
  safe : DecodeSafe tr
  last : c.last = ((deliveries tr).getLast?).map FrameInfo.frame
  unstarted : deliveries tr = [] → c.need = .keyframe
  waiting : ∀ pre post, tr = pre ++ .forced true :: post → deliveries post = [] →
    c.need = .keyframe
  passed : ∀ m ∈ c.passed, Event.skipped m true ∈ tr
  stepped : ∀ n g, c.need = .frame n → c.last = some g →
    ∀ m, g < m → m < n → Event.skipped m true ∈ tr

theorem snoc_eq_append_cons {tr pre post : List Event} {e x : Event}
    (h : tr ++ [e] = pre ++ x :: post) :
    (post = [] ∧ tr = pre ∧ e = x) ∨ ∃ post', post = post' ++ [e] ∧ tr = pre ++ x :: post' := by
  rcases List.eq_nil_or_concat post with rfl | ⟨post', y, rfl⟩
  · obtain ⟨htr, hx⟩ := List.append_inj' h rfl
    exact Or.inl ⟨rfl, htr, by simpa using hx⟩
  · rw [List.concat_eq_append] at h ⊢
    rw [show pre ++ x :: (post' ++ [y]) = (pre ++ x :: post') ++ [y] by simp] at h
    obtain ⟨htr, hy⟩ := List.append_inj' h rfl
    exact Or.inr ⟨post', by simpa using hy.symm, htr⟩

theorem DecodeSafe.snoc {tr : List Event} {e : Event} (h : DecodeSafe tr)
    (he : deliveries [e] = []) : DecodeSafe (tr ++ [e]) where
  increasing := by simpa [he] using h.increasing
  first := by simpa [he] using h.first
  afterForce := by
    intro pre post heq info hinfo
    rcases snoc_eq_append_cons heq with ⟨rfl, -, -⟩ | ⟨post', rfl, htr⟩
    · simp at hinfo
    · apply h.afterForce pre post' htr info
      simpa [he] using hinfo
  chained := by
    intro pre mid post a needA b needB heq hmid
    rw [← List.cons_append, ← List.append_assoc] at heq
    rcases snoc_eq_append_cons heq with ⟨-, -, rfl⟩ | ⟨post', -, htr⟩
    · simp at he
    · exact h.chained pre mid post' a needA b needB (by simpa using htr) hmid

theorem waiting_snoc {tr : List Event} {e : Event} {P : Prop}
    (hnew : e = .forced true → P)
    (hold : (∀ pre post, tr = pre ++ .forced true :: post → deliveries post = [] → P))
    (pre post : List Event) (heq : tr ++ [e] = pre ++ .forced true :: post)
    (hpost : deliveries post = []) : P := by
  rcases snoc_eq_append_cons heq with ⟨-, -, he⟩ | ⟨post', rfl, htr⟩
  · exact hnew he
  · rw [deliveries_append, List.append_eq_nil_iff] at hpost
    exact hold pre post' htr hpost.1

theorem DecodeSafe.deliver {tr : List Event} {c : Chain} {info : FrameInfo}
    (h : c.Ties tr) (hadmits : c.need.Admits info) (hlast : ∀ g ∈ c.last, g < info.frame) :
    DecodeSafe (tr ++ [.delivered info c.need]) where
  increasing := by
    rw [deliveries_append, deliveries_delivered, List.pairwise_append]
    refine ⟨h.safe.increasing, List.pairwise_singleton _ _, ?_⟩
    intro a ha b hb
    obtain rfl := List.mem_singleton.mp hb
    -- The last frame handed over is the greatest one so far.
    obtain ⟨init, z, hz⟩ := List.eq_nil_or_concat (deliveries tr) |>.resolve_left
      (List.ne_nil_of_mem ha)
    rw [List.concat_eq_append] at hz
    have hzlast : z.frame < b.frame := hlast z.frame (by rw [h.last, hz]; simp)
    rw [hz, List.mem_append, List.mem_singleton] at ha
    rcases ha with ha | rfl
    · have hinc := h.safe.increasing
      rw [hz, List.pairwise_append] at hinc
      exact (hinc.2.2 a ha z (by simp)).trans hzlast
    · exact hzlast
  first := by
    intro a ha
    cases hd : deliveries tr with
    | nil =>
        have hkey := h.unstarted hd
        rw [hkey] at hadmits
        rw [deliveries_append, hd] at ha
        have : info = a := by simpa using ha
        exact this ▸ hadmits
    | cons x xs =>
        apply h.safe.first a
        rw [deliveries_append, hd] at ha
        simpa [hd] using ha
  afterForce := by
    intro pre post heq a ha
    rcases snoc_eq_append_cons heq with ⟨rfl, -, -⟩ | ⟨post', rfl, htr⟩
    · simp at ha
    · cases hd : deliveries post' with
      | nil =>
          have hkey := h.waiting pre post' htr hd
          rw [hkey] at hadmits
          have : info = a := by simpa [hd] using ha
          exact this ▸ hadmits
      | cons y ys =>
          apply h.safe.afterForce pre post' htr a
          simpa [hd] using ha
  chained := by
    intro pre mid post a needA b needB heq hmid
    rw [← List.cons_append, ← List.append_assoc] at heq
    rcases snoc_eq_append_cons heq with ⟨-, htr, hb⟩ | ⟨post', -, htr⟩
    · obtain ⟨rfl, rfl⟩ : info = b ∧ c.need = needB := by simpa using hb
      have hlastA : c.last = some a.frame := by
        have hsplit : pre ++ Event.delivered a needA :: mid =
            pre ++ ([Event.delivered a needA] ++ mid) := by simp
        rw [h.last, htr, hsplit, deliveries_append, deliveries_append, hmid]
        simp
      cases hneed : c.need with
      | keyframe =>
          rw [hneed] at hadmits
          exact Or.inl hadmits
      | refresh =>
          rw [hneed] at hadmits
          rcases hadmits with hkey | hltr
          · exact Or.inl hkey
          · exact Or.inr (Or.inl ⟨hltr, rfl⟩)
      | frame n =>
          rw [hneed] at hadmits
          have hn : info.frame = n := hadmits
          refine Or.inr (Or.inr ?_)
          intro m ham hmb
          rw [← htr]
          exact h.stepped n a.frame hneed hlastA m ham (hn ▸ hmb)
    · exact h.safe.chained pre mid post' a needA b needB (by simpa using htr) hmid

theorem Chain.ties_start : Chain.start.Ties [] where
  safe :=
    { increasing := List.Pairwise.nil
      first := by simp
      afterForce := by simp
      chained := by simp }
  last := rfl
  unstarted := fun _ => rfl
  waiting := by simp
  passed := by simp [Chain.start]
  stepped := by simp [Chain.start]

theorem Chain.Move.ties {tr es : List Event} {c d : Chain} (hmove : Move c es d)
    (h : c.Ties tr) : d.Ties (tr ++ es) := by
  cases hmove with
  | deliver info hadmits hlast =>
      refine
        { safe := DecodeSafe.deliver h hadmits hlast
          last := by simp
          unstarted := by simp
          waiting := ?_
          passed := fun m hm => List.mem_append_left _ (h.passed m hm)
          stepped := ?_ }
      · intro pre post heq hpost
        rcases snoc_eq_append_cons heq with ⟨-, -, hx⟩ | ⟨post', rfl, -⟩
        · simp at hx
        · simp at hpost
      · intro n g hneed hg m hgm hmn
        -- The frame asked for next is the one right after the frame handed over.
        have hn : nextNumber info.frame = n := by simpa using hneed
        have hg' : info.frame = g := by simpa using hg
        have : nextNumber info.frame ≤ info.frame + 1 := Nat.mod_le _ _
        omega
  | skip f =>
      refine
        { safe := h.safe.snoc rfl
          last := by simpa using h.last
          unstarted := by simpa using h.unstarted
          waiting := waiting_snoc (by simp) h.waiting
          passed := ?_
          stepped := fun n g hneed hg m hgm hmn =>
            List.mem_append_left _ (h.stepped n g hneed hg m hgm hmn) }
      intro m hm
      rcases List.mem_cons.mp hm with rfl | hm
      · simp
      · exact List.mem_append_left _ (h.passed m hm)
  | pass n hneed hpassed =>
      have hstarted : deliveries tr ≠ [] := by
        intro hnil
        have := h.unstarted hnil
        simp [hneed] at this
      rw [List.append_nil]
      refine
        { safe := h.safe
          last := h.last
          unstarted := fun hnil => absurd hnil hstarted
          waiting := ?_
          passed := h.passed
          stepped := ?_ }
      · intro pre post heq hpost
        have := h.waiting pre post heq hpost
        simp [hneed] at this
      · intro k g hk hg m hgm hmk
        have hk' : nextNumber n = k := by simpa using hk
        have hle : nextNumber n ≤ n + 1 := Nat.mod_le _ _
        rcases Nat.lt_or_ge m n with hmn | hmn
        · exact h.stepped n g hneed hg m hgm hmn
        · have hm : m = n := by omega
          exact hm ▸ h.passed n hpassed
  | lose n hneed =>
      have hstarted : deliveries tr ≠ [] := by
        intro hnil
        have := h.unstarted hnil
        simp [hneed] at this
      rw [List.append_nil]
      refine
        { safe := h.safe
          last := h.last
          unstarted := fun hnil => absurd hnil hstarted
          waiting := ?_
          passed := h.passed
          stepped := by simp }
      intro pre post heq hpost
      have := h.waiting pre post heq hpost
      simp [hneed] at this
  | force k =>
      refine
        { safe := h.safe.snoc rfl
          last := by simpa using h.last
          unstarted := ?_
          waiting := waiting_snoc ?_ ?_
          passed := fun m hm => List.mem_append_left _ (h.passed m hm)
          stepped := ?_ }
      · intro hnil
        have hkey := h.unstarted (by simpa using hnil)
        simp [Need.forced, hkey]
      · intro hk
        have hk' : k = true := by simpa using hk
        simp [Need.forced, hk']
      · intro pre post heq hpost
        have hkey := h.waiting pre post heq hpost
        simp [Need.forced, hkey]
      · intro n g hneed
        simp only [Need.forced] at hneed
        split at hneed <;> simp at hneed
  | take info =>
      refine
        { safe := h.safe.snoc rfl
          last := by simpa using h.last
          unstarted := by simpa using h.unstarted
          waiting := waiting_snoc (by simp) h.waiting
          passed := fun m hm => List.mem_append_left _ (h.passed m hm)
          stepped := fun n g hneed hg m hgm hmn =>
            List.mem_append_left _ (h.stepped n g hneed hg m hgm hmn) }

theorem Chain.Path.ties {tr es : List Event} {c d : Chain} (hpath : Path c es d)
    (h : c.Ties tr) : d.Ties (tr ++ es) := by
  induction hpath with
  | refl => simpa using h
  | tail _ hmove ih =>
      rw [← List.append_assoc]
      exact hmove.ties ih

/-- A chain that waits for a keyframe stops waiting only by handing one over. -/
theorem Chain.Path.keyframe_left {es : List Event} {c d : Chain} (hpath : Path c es d)
    (hc : c.need = .keyframe) :
    d.need = .keyframe ∨ ∃ info, Event.delivered info .keyframe ∈ es ∧ info.keyframe = true := by
  induction hpath with
  | refl => exact Or.inl hc
  | @tail d e es fs _ hmove ih =>
      rcases ih with hkey | ⟨info, hmem, hinfo⟩
      · cases hmove with
        | deliver info hadmits hlast =>
            rw [hkey] at hadmits
            exact Or.inr ⟨info, by simp [hkey], hadmits⟩
        | skip f => exact Or.inl hkey
        | pass n hneed _ => simp [hneed] at hkey
        | lose n hneed => simp [hneed] at hkey
        | force k => exact Or.inl (by simp [Need.forced, hkey])
        | take info => exact Or.inl hkey
      · exact Or.inr ⟨info, List.mem_append_left _ hmem, hinfo⟩

end Slopty.Media.Reassemble
