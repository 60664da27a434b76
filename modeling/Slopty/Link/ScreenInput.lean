import Slopty.Lib.Race
import Mathlib.Data.List.Induction
import Mathlib.Order.Basic
import Mathlib.Algebra.Order.Group.Nat

/-!
A window's input on its two ways to the worker. Moves may overtake older moves; everything
else applies in its turn, so a request has two numbers: among all of its stream's, and among
those that apply in order.
-/

namespace Slopty.Link

open Slopty.Lib

abbrev StreamId := Nat

/-- The input to a streamed window; what no function here looks into is a number. -/
inductive ScreenInput where
  | move (x y : Nat)
  | dragMove (x y : Nat)
  | pasteChord (code : Nat)
  /-- A button, a key, a scroll, text and the rest. -/
  | event (event : Nat)
  deriving DecidableEq, Repr

def ScreenInput.inOrder : ScreenInput → Bool
  | .move _ _ | .dragMove _ _ => false
  | _ => true

def ScreenInput.isPasteChord : ScreenInput → Bool
  | .pasteChord _ => true
  | _ => false

inductive ScreenRequest where
  | input (stream : StreamId) (event : ScreenInput)
  | setQuality (stream : StreamId) (quality : Nat)
  | close (stream : StreamId)
  | other (req : Nat)
  deriving DecidableEq, Repr

/-- The stream a request is numbered for, and whether it applies only in its turn. -/
def ScreenRequest.numbered : ScreenRequest → Option (StreamId × Bool)
  | .input stream event => some (stream, event.inOrder)
  | .setQuality stream _ => some (stream, true)
  | _ => none

structure ScreenCopy where
  stream : StreamId
  seq : Nat
  ordered : Nat
  input : ScreenInput
  deriving DecidableEq, Repr

/-- Where a stream's numbering stands: requests numbered, and of those in order. -/
structure ScreenPlace where
  seq : Nat := 0
  ordered : Nat := 0
  deriving DecidableEq, Repr

abbrev ScreenNumbers := StreamId → ScreenPlace

def ScreenPlace.next (place : ScreenPlace) (inOrder : Bool) : ScreenPlace :=
  ⟨place.seq + 1, if inOrder then place.ordered + 1 else place.ordered⟩

/-- Number a request, and make the copy it gets: input, but no paste chord. -/
def ScreenNumbers.number (encodes : ScreenCopy → Bool) (n : ScreenNumbers) (req : ScreenRequest) :
    ScreenNumbers × Option ScreenCopy :=
  match req with
  | .close stream => (Function.update n stream {}, none)
  | .other _ => (n, none)
  | .setQuality stream _ => (Function.update n stream ((n stream).next true), none)
  | .input stream input =>
      let place := (n stream).next input.inOrder
      let copy : ScreenCopy := ⟨stream, place.seq, place.ordered, input⟩
      (Function.update n stream place,
        if input.isPasteChord || !encodes copy then none else some copy)

/-- One stream's numbered requests: how many the stream has brought, and of those how many are
in order; how many in-order ones have been applied, and the highest number applied. -/
structure Placed where
  heard : Nat := 0
  heardInOrder : Nat := 0
  inOrder : Nat := 0
  latest : Nat := 0
  deriving DecidableEq, Repr

namespace Placed

/-- The stream brought the next numbered request: whether it is to be applied. -/
def stream (at' : Placed) (inOrder : Bool) : Placed × Bool :=
  let heard := at'.heard + 1
  if inOrder then
    let heardInOrder := at'.heardInOrder + 1
    (⟨heard, heardInOrder, max at'.inOrder heardInOrder, max at'.latest heard⟩,
      decide (at'.inOrder < heardInOrder))
  else
    (⟨heard, at'.heardInOrder, at'.inOrder, max at'.latest heard⟩, decide (at'.latest < heard))

def goes (at' : Placed) (seq ordered : Nat) (inOrder : Bool) : Bool :=
  if inOrder then decide (ordered = at'.inOrder + 1)
  else decide (ordered = at'.inOrder) && decide (at'.latest < seq)

/-- A datagram brought a copy of request `seq`, the `ordered`-th in order: whether it is to be
applied. -/
def copy (at' : Placed) (seq ordered : Nat) (inOrder : Bool) : Placed × Bool :=
  if at'.goes seq ordered inOrder then
    ({ at' with
        inOrder := if inOrder then ordered else at'.inOrder
        latest := max at'.latest seq }, true)
  else (at', false)

end Placed

structure ScreenOrder where
  streams : StreamId → Placed := fun _ => {}
  taken : Nat := 0
  late : Nat := 0

namespace ScreenOrder

def set (order : ScreenOrder) (stream : StreamId) (at' : Placed) : ScreenOrder :=
  { order with streams := Function.update order.streams stream at' }

def stream (order : ScreenOrder) (stream : StreamId) (inOrder : Bool) : ScreenOrder × Bool :=
  let at' := (order.streams stream).stream inOrder
  (order.set stream at'.1, at'.2)

def copy (order : ScreenOrder) (stream : StreamId) (seq ordered : Nat) (inOrder : Bool) :
    ScreenOrder × Bool :=
  let at' := (order.streams stream).copy seq ordered inOrder
  ({ order.set stream at'.1 with
      taken := if at'.2 then order.taken + 1 else order.taken
      late := if at'.2 then order.late else order.late + 1 }, at'.2)

def forget (order : ScreenOrder) (stream : StreamId) : ScreenOrder := order.set stream {}

end ScreenOrder

/-- A request that went on to its window, with the number it had on its stream. -/
structure Reached where
  stream : StreamId
  seq : Nat
  req : ScreenRequest
  deriving DecidableEq, Repr

/-- The client's link and the worker's connection, as far as window input goes; `known` are
the streams the worker has open. -/
def screenInput (encodes : ScreenCopy → Bool) (known : StreamId → Bool) :
    Race ScreenNumbers ScreenOrder ScreenRequest ScreenCopy Reached where
  send n req := n.number encodes req
  stream order req :=
    match req with
    | .input stream input =>
        if known stream then
          ((order.stream stream input.inOrder).1,
            if (order.stream stream input.inOrder).2 then
              some ⟨stream, (order.streams stream).heard + 1, req⟩
            else none)
        else (order, some ⟨stream, 0, req⟩)
    | .setQuality stream _ =>
        -- A change of quality goes on whatever the order says.
        if known stream then
          ((order.stream stream true).1, some ⟨stream, (order.streams stream).heard + 1, req⟩)
        else (order, some ⟨stream, 0, req⟩)
    | .close stream => (order.forget stream, none)
    | .other _ => (order, none)
  copy order c :=
    if known c.stream then
      ((order.copy c.stream c.seq c.ordered c.input.inOrder).1,
        if (order.copy c.stream c.seq c.ordered c.input.inOrder).2 then
          some ⟨c.stream, c.seq, .input c.stream c.input⟩
        else none)
    else (order, none)

def screenStart (encodes : ScreenCopy → Bool) (known : StreamId → Bool) :
    (screenInput encodes known).State where
  sender := fun _ => {}
  receiver := {}

def ScreenRequest.inOrder (req : ScreenRequest) : Bool := req.numbered.any Prod.snd

def numberedOf (stream : StreamId) (reqs : List ScreenRequest) : List ScreenRequest :=
  reqs.filter fun req => req.numbered.any fun n => decide (n.1 = stream)

def reachedOf (stream : StreamId) (passed : List Reached) : List Reached :=
  passed.filter fun r => decide (r.stream = stream)

/-- How many of the first requests apply in order. -/
def ordered (reqs : List ScreenRequest) (n : Nat) : Nat := (reqs.take n).countP ScreenRequest.inOrder

/-- The requests among those reached that apply in order. -/
def inOrderOf (reached : List Reached) : List ScreenRequest :=
  (reached.map Reached.req).filter ScreenRequest.inOrder

theorem ordered_mono (reqs : List ScreenRequest) {m n : Nat} (h : m ≤ n) :
    ordered reqs m ≤ ordered reqs n :=
  (List.take_prefix_take_left h).sublist.countP_le

theorem ordered_succ {reqs : List ScreenRequest} {n : Nat} {req : ScreenRequest}
    (h : reqs[n]? = some req) :
    ordered reqs (n + 1) = ordered reqs n + if req.inOrder then 1 else 0 := by
  rw [ordered, List.take_add_one, h, Option.toList_some, List.countP_append]
  by_cases hreq : req.inOrder <;> simp [ordered, hreq]

/-- Where no more requests are in order than before, the in-order ones are the same. -/
theorem filter_take_eq {reqs : List ScreenRequest} {m n : Nat} (h : m ≤ n)
    (hordered : ordered reqs n = ordered reqs m) :
    (reqs.take n).filter ScreenRequest.inOrder = (reqs.take m).filter ScreenRequest.inOrder := by
  have hpre : (reqs.take m).filter ScreenRequest.inOrder <+:
      (reqs.take n).filter ScreenRequest.inOrder := (List.take_prefix_take_left h).filter _
  refine (hpre.eq_of_length ?_).symm
  rw [← List.countP_eq_length_filter, ← List.countP_eq_length_filter]
  exact hordered.symm

/-- What is known of one stream's counts beside the requests sent on it: all in-order requests
up to the newest applied have been. -/
structure Placed.Fits (at' : Placed) (reqs : List ScreenRequest) : Prop where
  heardInOrder : at'.heardInOrder = ordered reqs at'.heard
  heard_le : at'.heard ≤ at'.latest
  latest_le : at'.latest ≤ reqs.length
  inOrder : at'.inOrder = ordered reqs at'.latest

namespace Placed

variable {at' : Placed} {reqs : List ScreenRequest} {req : ScreenRequest} {n : Nat}

/-- An in-order request is newer than the newest applied when it is not among the in-order
ones applied. -/
theorem lt_iff_ordered (hget : reqs[n]? = some req) (hreq : req.inOrder) (latest : Nat) :
    ordered reqs latest < ordered reqs (n + 1) ↔ latest < n + 1 := by
  constructor
  · intro h
    by_contra hle
    exact absurd (ordered_mono reqs (Nat.le_of_not_lt hle)) (Nat.not_le_of_lt h)
  · intro h
    have hmono := ordered_mono reqs (Nat.le_of_lt_succ h)
    rw [ordered_succ hget, if_pos hreq]
    exact Nat.lt_succ_of_le hmono

theorem Fits.stream (h : at'.Fits reqs) (hget : reqs[at'.heard]? = some req) :
    (at'.stream req.inOrder).1.Fits reqs ∧
      (at'.stream req.inOrder).1.heard = at'.heard + 1 ∧
      (at'.stream req.inOrder).1.latest = max at'.latest (at'.heard + 1) ∧
      ((at'.stream req.inOrder).2 = true ↔ at'.latest < at'.heard + 1) := by
  have hlt := (List.getElem?_eq_some_iff.mp hget).1
  have hsucc := ordered_succ hget
  by_cases hreq : req.inOrder
  · rw [if_pos hreq] at hsucc
    have hiff := lt_iff_ordered hget hreq at'.latest
    simp only [Placed.stream, hreq, if_true, decide_eq_true_eq]
    refine ⟨⟨?_, Nat.le_max_right _ _, max_le h.latest_le hlt, ?_⟩, trivial, trivial, ?_⟩
    · rw [hsucc, h.heardInOrder]
    · rw [h.inOrder, h.heardInOrder, ← hsucc]
      rcases Nat.lt_or_ge at'.latest (at'.heard + 1) with hnew | hold
      · rw [Nat.max_eq_right (Nat.le_of_lt (hiff.mpr hnew)), Nat.max_eq_right (Nat.le_of_lt hnew)]
      · rw [Nat.max_eq_left hold, Nat.max_eq_left (ordered_mono reqs hold)]
    · rw [h.inOrder, h.heardInOrder, ← hsucc]
      exact hiff
  · rw [if_neg hreq] at hsucc
    simp only [Placed.stream, hreq, if_false, decide_eq_true_eq, Bool.false_eq_true]
    refine ⟨⟨?_, Nat.le_max_right _ _, max_le h.latest_le hlt, ?_⟩, trivial, trivial, trivial⟩
    · rw [hsucc, Nat.add_zero]
      exact h.heardInOrder
    · rcases Nat.lt_or_ge at'.latest (at'.heard + 1) with hnew | hold
      · have heq : at'.latest = at'.heard := Nat.le_antisymm (Nat.le_of_lt_succ hnew) h.heard_le
        rw [Nat.max_eq_right (Nat.le_of_lt hnew), hsucc, h.inOrder, heq, Nat.add_zero]
      · rw [Nat.max_eq_left hold]
        exact h.inOrder

/-- A copy that goes is newer than everything applied, with no in-order request between. -/
theorem Fits.copy_goes (h : at'.Fits reqs) (hget : reqs[n]? = some req)
    (hgoes : at'.goes (n + 1) (ordered reqs (n + 1)) req.inOrder = true) :
    at'.latest ≤ n ∧ ordered reqs n = ordered reqs at'.latest ∧
      (at'.copy (n + 1) (ordered reqs (n + 1)) req.inOrder).1 =
        { at' with inOrder := ordered reqs (n + 1), latest := n + 1 } := by
  have hsucc := ordered_succ hget
  rw [Placed.copy, if_pos hgoes]
  by_cases hreq : req.inOrder
  · have hnext : ordered reqs (n + 1) = at'.inOrder + 1 := by simpa [goes, hreq] using hgoes
    have hnew : at'.latest < n + 1 := by
      rw [← lt_iff_ordered hget hreq at'.latest, hnext, h.inOrder]
      exact Nat.lt_succ_self _
    rw [if_pos hreq, hnext] at hsucc
    refine ⟨Nat.le_of_lt_succ hnew, ?_, ?_⟩
    · rw [← h.inOrder]
      exact (Nat.succ.inj hsucc).symm
    · simp only [hreq, if_true, Nat.max_eq_right (Nat.le_of_lt hnew)]
  · obtain ⟨hnext, hnew⟩ : ordered reqs (n + 1) = at'.inOrder ∧ at'.latest < n + 1 := by
      simpa [goes, hreq] using hgoes
    rw [if_neg hreq, Nat.add_zero] at hsucc
    refine ⟨Nat.le_of_lt_succ hnew, ?_, ?_⟩
    · rw [← h.inOrder, ← hnext, hsucc, Nat.add_zero]
    · simp only [hreq, Bool.false_eq_true, if_false, Nat.max_eq_right (Nat.le_of_lt hnew), hnext]

end Placed

/-- The number of the last of the requests reached. -/
def lastSeq (reached : List Reached) : Nat := (reached.getLast?.map Reached.seq).getD 0

/-- The requests of one stream went on in the order of their numbers, and each with the
in-order ones before it. -/
structure WentOn (reqs : List ScreenRequest) (reached : List Reached) : Prop where
  request : ∀ r ∈ reached, ∃ n, r.seq = n + 1 ∧ reqs[n]? = some r.req
  increasing : (reached.map Reached.seq).Pairwise (· < ·)
  inOrder : ∀ first, first <+: reached →
    inOrderOf first = (reqs.take (lastSeq first)).filter ScreenRequest.inOrder

namespace WentOn

variable {reqs : List ScreenRequest} {reached : List Reached}

theorem nil (reqs : List ScreenRequest) : WentOn reqs [] where
  request r hr := absurd hr List.not_mem_nil
  increasing := List.Pairwise.nil
  inOrder first hfirst := by
    rw [List.prefix_nil.mp hfirst]
    rfl

theorem seq_le (h : WentOn reqs reached) : ∀ r ∈ reached, r.seq ≤ lastSeq reached := by
  induction reached using List.reverseRecOn with
  | nil => exact fun r hr => absurd hr List.not_mem_nil
  | append_singleton front last _ =>
      have hincreasing := h.increasing
      rw [List.map_append, List.pairwise_append] at hincreasing
      have hlast : lastSeq (front ++ [last]) = last.seq := by simp [lastSeq]
      intro r hr
      rw [hlast]
      rcases List.mem_append.mp hr with hmem | hmem
      · exact Nat.le_of_lt (hincreasing.2.2 _ (List.mem_map_of_mem hmem) _ (by simp))
      · rw [List.mem_singleton.mp hmem]

theorem lastSeq_le (h : WentOn reqs reached) : lastSeq reached ≤ reqs.length := by
  cases hlast : reached.getLast? with
  | none => simp [lastSeq, hlast]
  | some r =>
      obtain ⟨n, hseq, hget⟩ := h.request r (List.mem_of_getLast? hlast)
      simp only [lastSeq, hlast, Option.map_some, Option.getD_some, hseq]
      exact (List.getElem?_eq_some_iff.mp hget).1

theorem of_prefix (h : WentOn reqs reached) {first : List Reached} (hfirst : first <+: reached) :
    WentOn reqs first where
  request r hr := h.request r (hfirst.subset hr)
  increasing := h.increasing.sublist (hfirst.map _).sublist
  inOrder first' hfirst' := h.inOrder first' (hfirst'.trans hfirst)

theorem append (h : WentOn reqs reached) (more : List ScreenRequest) :
    WentOn (reqs ++ more) reached where
  request r hr := by
    obtain ⟨n, hseq, hget⟩ := h.request r hr
    have hlt := (List.getElem?_eq_some_iff.mp hget).1
    exact ⟨n, hseq, (List.getElem?_append_left hlt).trans hget⟩
  increasing := h.increasing
  inOrder first hfirst := by
    rw [List.take_append_of_le_length (h.of_prefix hfirst).lastSeq_le]
    exact h.inOrder first hfirst

/-- One more, newer than all before it with no in-order request between. -/
theorem next (h : WentOn reqs reached) {r : Reached} {n : Nat} (hseq : r.seq = n + 1)
    (hget : reqs[n]? = some r.req) (hnew : lastSeq reached ≤ n)
    (hbetween : ordered reqs n = ordered reqs (lastSeq reached)) :
    WentOn reqs (reached ++ [r]) where
  request r' hr' := by
    rcases List.mem_append.mp hr' with hmem | hmem
    · exact h.request r' hmem
    · rw [List.mem_singleton.mp hmem]
      exact ⟨n, hseq, hget⟩
  increasing := by
    rw [List.map_append, List.pairwise_append]
    refine ⟨h.increasing, List.pairwise_singleton _ _, fun a ha b hb => ?_⟩
    obtain ⟨r', hr', rfl⟩ := List.mem_map.mp ha
    rw [List.map_singleton, List.mem_singleton] at hb
    rw [hb, hseq]
    exact Nat.lt_succ_of_le ((h.seq_le r' hr').trans hnew)
  inOrder first hfirst := by
    rcases List.prefix_concat_iff.mp hfirst with rfl | hfirst
    · have hlast : lastSeq (reached ++ [r]) = n + 1 := by simp [lastSeq, hseq]
      rw [hlast, List.take_add_one, hget, Option.toList_some, List.filter_append,
        filter_take_eq hnew hbetween, ← h.inOrder reached (List.prefix_refl _)]
      simp [inOrderOf]
    · exact h.inOrder first hfirst

end WentOn

/-- What is known of one stream at the worker beside the requests sent on it: a change of
quality has no copy, so nothing after one goes before the stream brings it. -/
structure Placing (stream : StreamId) (reqs : List ScreenRequest) (at' : Placed)
    (reached : List Reached) : Prop where
  fits : at'.Fits reqs
  wentOn : WentOn reqs reached
  latest : at'.latest = lastSeq reached
  uncopied : ∀ n quality, reqs[n]? = some (.setQuality stream quality) → at'.heard ≤ n →
    at'.latest ≤ n

namespace Placing

variable {stream : StreamId} {reqs : List ScreenRequest} {at' : Placed} {reached : List Reached}
  {req : ScreenRequest} {n : Nat}

theorem start (stream : StreamId) : Placing stream [] {} [] where
  fits := ⟨rfl, Nat.le_refl _, Nat.le_refl _, rfl⟩
  wentOn := WentOn.nil []
  latest := rfl
  uncopied n quality hget := by simp at hget

theorem append (h : Placing stream reqs at' reached) (more : List ScreenRequest) :
    Placing stream (reqs ++ more) at' reached := by
  have hordered : ∀ m ≤ reqs.length, ordered (reqs ++ more) m = ordered reqs m := by
    intro m hm
    rw [ordered, ordered, List.take_append_of_le_length hm]
  refine ⟨⟨?_, h.fits.heard_le, ?_, ?_⟩, h.wentOn.append more, h.latest, fun n quality hget hle => ?_⟩
  · rw [hordered _ (h.fits.heard_le.trans h.fits.latest_le)]
    exact h.fits.heardInOrder
  · rw [List.length_append]
    exact h.fits.latest_le.trans (Nat.le_add_right _ _)
  · rw [hordered _ h.fits.latest_le]
    exact h.fits.inOrder
  · rcases Nat.lt_or_ge n reqs.length with hlt | hge
    · rw [List.getElem?_append_left hlt] at hget
      exact h.uncopied n quality hget hle
    · exact h.fits.latest_le.trans hge

/-- The stream's next request goes on unless it, or something newer, did. -/
theorem brought (h : Placing stream reqs at' reached) (hget : reqs[at'.heard]? = some req) :
    Placing stream reqs (at'.stream req.inOrder).1
      (reached ++ if (at'.stream req.inOrder).2 then [⟨stream, at'.heard + 1, req⟩] else []) := by
  obtain ⟨hfits, hheard, hlatest, hfresh⟩ := h.fits.stream hget
  have huncopied : ∀ n quality, reqs[n]? = some (.setQuality stream quality) →
      (at'.stream req.inOrder).1.heard ≤ n → (at'.stream req.inOrder).1.latest ≤ n := by
    intro n quality hquality hle
    rw [hheard] at hle
    rw [hlatest]
    exact max_le (h.uncopied n quality hquality (Nat.le_of_succ_le hle)) hle
  by_cases hgoes : (at'.stream req.inOrder).2 = true
  · have hnew := hfresh.mp hgoes
    have hat : at'.latest = at'.heard := Nat.le_antisymm (Nat.le_of_lt_succ hnew) h.fits.heard_le
    rw [if_pos hgoes]
    refine ⟨hfits, h.wentOn.next rfl hget ?_ ?_, ?_, huncopied⟩
    · rw [← h.latest, hat]
    · rw [← h.latest, hat]
    · rw [hlatest, Nat.max_eq_right (Nat.le_of_lt hnew)]
      simp [lastSeq]
  · have hold : at'.heard + 1 ≤ at'.latest := Nat.le_of_not_lt (hgoes ∘ hfresh.mpr)
    rw [if_neg hgoes, List.append_nil]
    refine ⟨hfits, h.wentOn, ?_, huncopied⟩
    rw [hlatest, Nat.max_eq_left hold]
    exact h.latest

theorem quality_fresh (h : Placing stream reqs at' reached) {quality : Nat}
    (hget : reqs[at'.heard]? = some (.setQuality stream quality)) : (at'.stream true).2 = true := by
  obtain ⟨-, -, -, hfresh⟩ := h.fits.stream hget
  exact hfresh.mpr (Nat.lt_succ_of_le (h.uncopied _ _ hget (Nat.le_refl _)))

/-- A copy of an input goes on as the next in its turn, or as the newest. -/
theorem copy (h : Placing stream reqs at' reached) {input : ScreenInput}
    (hget : reqs[n]? = some (.input stream input)) :
    Placing stream reqs (at'.copy (n + 1) (ordered reqs (n + 1)) input.inOrder).1
      (reached ++ if (at'.copy (n + 1) (ordered reqs (n + 1)) input.inOrder).2 then
        [⟨stream, n + 1, .input stream input⟩] else []) := by
  by_cases hgoes : at'.goes (n + 1) (ordered reqs (n + 1)) input.inOrder = true
  · obtain ⟨hle, hbetween, hat⟩ := h.fits.copy_goes hget hgoes
    have hlt := (List.getElem?_eq_some_iff.mp hget).1
    have hdecided : (at'.copy (n + 1) (ordered reqs (n + 1)) input.inOrder).2 = true := by
      rw [Placed.copy, if_pos hgoes]
    rw [if_pos hdecided]
    change (at'.copy (n + 1) (ordered reqs (n + 1)) input.inOrder).1 = _ at hat
    rw [hat]
    refine ⟨⟨h.fits.heardInOrder, h.fits.heard_le.trans (hle.trans (Nat.le_succ n)), hlt, rfl⟩,
      h.wentOn.next rfl hget (h.latest ▸ hle) (h.latest ▸ hbetween), ?_, ?_⟩
    · simp [lastSeq]
    · -- A change of quality before the copy would be an in-order request between.
      intro m quality hquality hheard
      have hm := h.uncopied m quality hquality hheard
      by_contra hlate
      have hmn : m ≤ n := Nat.le_of_lt_succ (Nat.lt_of_not_le hlate)
      have hne : m ≠ n := by
        rintro rfl
        rw [hget] at hquality
        cases hquality
      have hstep := ordered_succ hquality
      rw [if_pos (by rfl)] at hstep
      have hmono := ordered_mono reqs (Nat.lt_of_le_of_ne hmn hne)
      have hmono' := ordered_mono reqs hm
      rw [Nat.succ_eq_add_one, hstep, hbetween] at hmono
      exact absurd (hmono.trans hmono') (Nat.not_succ_le_self _)
  · have hstays : at'.copy (n + 1) (ordered reqs (n + 1)) input.inOrder = (at', false) := by
      rw [Placed.copy, if_neg hgoes]
    rw [hstays]
    simpa using h

end Placing

theorem numberedOf_append (stream : StreamId) (a b : List ScreenRequest) :
    numberedOf stream (a ++ b) = numberedOf stream a ++ numberedOf stream b :=
  List.filter_append _ _

theorem numberedOf_singleton (stream : StreamId) (req : ScreenRequest) :
    numberedOf stream [req] =
      if req.numbered.any (fun n => decide (n.1 = stream)) then [req] else [] := by
  rw [numberedOf, List.filter_singleton, Bool.cond_eq_ite]

theorem reachedOf_append (stream : StreamId) (a b : List Reached) :
    reachedOf stream (a ++ b) = reachedOf stream a ++ reachedOf stream b :=
  List.filter_append _ _

theorem reachedOf_decided (stream : StreamId) (r : Reached) (goes : Bool) :
    reachedOf stream (if goes then some r else none).toList =
      if goes ∧ r.stream = stream then [r] else [] := by
  cases goes <;> by_cases hr : r.stream = stream <;> simp [reachedOf, hr]

theorem ordered_length_append (a b : List ScreenRequest) :
    ordered (a ++ b) (a ++ b).length = ordered a a.length + b.countP ScreenRequest.inOrder := by
  simp only [ordered, List.take_length, List.countP_append]

/-- How one stream stands at both ends: they count its requests alike, and a copy carries the
request and the numbers it names. -/
structure Counted {encodes : ScreenCopy → Bool} {known : StreamId → Bool}
    (s : (screenInput encodes known).State) (stream : StreamId) : Prop where
  seq : (s.sender stream).seq = (numberedOf stream s.sent).length
  ordered : (s.sender stream).ordered =
    Link.ordered (numberedOf stream s.sent) (numberedOf stream s.sent).length
  heard : (s.receiver.streams stream).heard = (numberedOf stream (s.sent.take s.heard)).length
  placing : Placing stream (numberedOf stream s.sent) (s.receiver.streams stream)
    (reachedOf stream s.passed)
  copies : ∀ c ∈ s.copies, c.stream = stream → ∃ n, c.seq = n + 1 ∧
    (numberedOf stream s.sent)[n]? = some (.input stream c.input) ∧
    c.ordered = Link.ordered (numberedOf stream s.sent) (n + 1)

/-- A numbered request takes its stream's next numbers, and no other stream's; a copy carries
them. -/
theorem number_spec (encodes : ScreenCopy → Bool) (n : ScreenNumbers) {req : ScreenRequest}
    (hreq : req.numbered.isSome) (stream : StreamId) :
    ((n.number encodes req).1 stream).seq = (n stream).seq + (numberedOf stream [req]).length ∧
      ((n.number encodes req).1 stream).ordered =
        (n stream).ordered + (numberedOf stream [req]).countP ScreenRequest.inOrder ∧
      ∀ c ∈ (n.number encodes req).2, c.stream = stream →
        req = .input stream c.input ∧ c.seq = (n stream).seq + 1 ∧
          c.ordered = (n stream).ordered + (if req.inOrder then 1 else 0) := by
  cases req with
  | close s => simp [ScreenRequest.numbered] at hreq
  | other r => simp [ScreenRequest.numbered] at hreq
  | setQuality s quality =>
      refine ⟨?_, ?_, fun c hc => by simp [ScreenNumbers.number] at hc⟩
      all_goals
        by_cases hs : s = stream
        · simp [ScreenNumbers.number, ScreenPlace.next, numberedOf_singleton, ScreenRequest.numbered,
            ScreenRequest.inOrder, hs]
        · simp [ScreenNumbers.number, numberedOf_singleton, ScreenRequest.numbered, hs,
            Function.update_of_ne (Ne.symm hs)]
  | input s event =>
      refine ⟨?_, ?_, fun c hc hstream => ?_⟩
      · by_cases hs : s = stream
        · simp [ScreenNumbers.number, ScreenPlace.next, numberedOf_singleton, ScreenRequest.numbered,
            hs]
        · simp [ScreenNumbers.number, numberedOf_singleton, ScreenRequest.numbered, hs,
            Function.update_of_ne (Ne.symm hs)]
      · by_cases hs : s = stream
        · by_cases hevent : event.inOrder <;>
            simp [ScreenNumbers.number, ScreenPlace.next, numberedOf_singleton,
              ScreenRequest.numbered, ScreenRequest.inOrder, hs, hevent]
        · simp [ScreenNumbers.number, numberedOf_singleton, ScreenRequest.numbered, hs,
            Function.update_of_ne (Ne.symm hs)]
      · simp only [ScreenNumbers.number] at hc
        split at hc
        · cases hc
        · cases hc
          obtain rfl : s = stream := hstream
          refine ⟨rfl, rfl, ?_⟩
          by_cases hevent : event.inOrder <;>
            simp [ScreenPlace.next, ScreenRequest.inOrder, ScreenRequest.numbered, hevent]

/-- What the stream brings for another stream leaves this one as it is. -/
theorem screen_stream_other {encodes : ScreenCopy → Bool} {known : StreamId → Bool}
    (order : ScreenOrder) {req : ScreenRequest} {stream : StreamId} (hreq : req.numbered.isSome)
    (hother : ¬ (req.numbered.any fun n => decide (n.1 = stream)) = true) :
    ((screenInput encodes known).stream order req).1.streams stream = order.streams stream ∧
      reachedOf stream ((screenInput encodes known).stream order req).2.toList = [] := by
  cases req with
  | close c => simp [ScreenRequest.numbered] at hreq
  | other r => simp [ScreenRequest.numbered] at hreq
  | setQuality c quality =>
      have hc : c ≠ stream := by simpa [ScreenRequest.numbered] using hother
      simp only [screenInput]
      split
      · exact ⟨Function.update_of_ne (Ne.symm hc) _ _, by simp [reachedOf, hc]⟩
      · exact ⟨rfl, by simp [reachedOf, hc]⟩
  | input c event =>
      have hc : c ≠ stream := by simpa [ScreenRequest.numbered] using hother
      simp only [screenInput]
      split
      · refine ⟨Function.update_of_ne (Ne.symm hc) _ _, ?_⟩
        rw [reachedOf_decided, if_neg fun h => hc h.2]
      · exact ⟨rfl, by simp [reachedOf, hc]⟩

namespace Counted

variable {encodes : ScreenCopy → Bool} {known : StreamId → Bool}
  {s : (screenInput encodes known).State} {stream : StreamId}

theorem start (stream : StreamId) : Counted (screenStart encodes known) stream where
  seq := rfl
  ordered := rfl
  heard := rfl
  placing := Placing.start stream
  copies _ hc := absurd hc List.not_mem_nil

theorem send (h : Counted s stream) {req : ScreenRequest} (hreq : req.numbered.isSome)
    (hle : s.heard ≤ s.sent.length) : Counted (s.send req) stream := by
  obtain ⟨hseq, hordered, hcopy⟩ := number_spec encodes s.sender hreq stream
  have hsent : numberedOf stream (s.send req).sent =
      numberedOf stream s.sent ++ numberedOf stream [req] := numberedOf_append stream s.sent [req]
  refine ⟨?_, ?_, ?_, ?_, fun c hc hstream => ?_⟩
  · rw [hsent, List.length_append, ← h.seq]
    exact hseq
  · rw [hsent, ordered_length_append, ← h.ordered]
    exact hordered
  · simp only [Race.State.send]
    rw [List.take_append_of_le_length hle]
    exact h.heard
  · rw [hsent]
    exact h.placing.append _
  · rw [hsent]
    rcases List.mem_append.mp hc with hold | hnew
    · obtain ⟨n, hn, hget, hord⟩ := h.copies c hold hstream
      have hlt := (List.getElem?_eq_some_iff.mp hget).1
      refine ⟨n, hn, (List.getElem?_append_left hlt).trans hget, ?_⟩
      rw [hord, Link.ordered, Link.ordered, List.take_append_of_le_length hlt]
    · obtain ⟨rfl, hcseq, hcordered⟩ := hcopy c (Option.mem_toList.mp hnew) hstream
      have hone : numberedOf stream [.input stream c.input] = [.input stream c.input] := by
        simp [numberedOf_singleton, ScreenRequest.numbered]
      have hget : (numberedOf stream s.sent ++ [.input stream c.input])[(s.sender stream).seq]? =
          some (.input stream c.input) := by
        rw [h.seq, List.getElem?_append_right (Nat.le_refl _), Nat.sub_self]
        rfl
      rw [hone]
      refine ⟨(s.sender stream).seq, hcseq, hget, ?_⟩
      rw [hcordered, ordered_succ hget, h.ordered, h.seq, Link.ordered, Link.ordered,
        List.take_append_of_le_length (Nat.le_refl _)]

theorem worker {s' : (screenInput encodes known).State} (h : Counted s stream)
    (hsent : s'.sent = s.sent) (hsender : s'.sender = s.sender) (hcopies : s'.copies = s.copies)
    (hheard : (s'.receiver.streams stream).heard =
      (numberedOf stream (s.sent.take s'.heard)).length)
    (hplacing : Placing stream (numberedOf stream s.sent) (s'.receiver.streams stream)
      (reachedOf stream s'.passed)) : Counted s' stream := by
  refine ⟨?_, ?_, ?_, ?_, ?_⟩
  · rw [hsender, hsent]
    exact h.seq
  · rw [hsender, hsent]
    exact h.ordered
  · rw [hsent]
    exact hheard
  · rw [hsent]
    exact hplacing
  · rw [hcopies, hsent]
    exact h.copies

/-- The stream brings a request for the stream: the next by its own count. -/
theorem next (h : Counted s stream) {req : ScreenRequest} (hm : s.sent[s.heard]? = some req)
    (hstream : req.numbered.any fun n => decide (n.1 = stream)) :
    (numberedOf stream s.sent)[(s.receiver.streams stream).heard]? = some req ∧
      (s.receiver.streams stream).heard + 1 =
        (numberedOf stream (s.sent.take (s.heard + 1))).length := by
  have htake : numberedOf stream (s.sent.take (s.heard + 1)) =
      numberedOf stream (s.sent.take s.heard) ++ [req] := by
    rw [List.take_add_one, hm, Option.toList_some, numberedOf_append, numberedOf_singleton,
      if_pos hstream]
  have hall : numberedOf stream s.sent = numberedOf stream (s.sent.take s.heard) ++
      req :: numberedOf stream (s.sent.drop (s.heard + 1)) := by
    rw [List.append_cons, ← htake, ← numberedOf_append, List.take_append_drop]
  refine ⟨?_, ?_⟩
  · rw [hall, h.heard, List.getElem?_append_right (Nat.le_refl _), Nat.sub_self]
    rfl
  · rw [htake, List.length_append, h.heard]
    rfl

theorem brought (h : Counted s stream) (hknown : known stream = true) {req : ScreenRequest}
    (hm : s.sent[s.heard]? = some req) (hreq : req.numbered.isSome) :
    Counted (s.stream req) stream := by
  by_cases hstream : req.numbered.any fun n => decide (n.1 = stream)
  · obtain ⟨hget, hheard⟩ := h.next hm hstream
    have hplacing := h.placing.brought hget
    have hat : (s.stream req).receiver.streams stream =
        ((s.receiver.streams stream).stream req.inOrder).1 := by
      cases req with
      | close c => simp [ScreenRequest.numbered] at hreq
      | other r => simp [ScreenRequest.numbered] at hreq
      | setQuality c quality =>
          obtain rfl : c = stream := by simpa [ScreenRequest.numbered] using hstream
          simp [Race.State.stream, screenInput, hknown, ScreenOrder.stream, ScreenOrder.set,
            ScreenRequest.inOrder, ScreenRequest.numbered]
      | input c event =>
          obtain rfl : c = stream := by simpa [ScreenRequest.numbered] using hstream
          simp [Race.State.stream, screenInput, hknown, ScreenOrder.stream, ScreenOrder.set,
            ScreenRequest.inOrder, ScreenRequest.numbered]
    have hpassed : reachedOf stream (s.stream req).passed = reachedOf stream s.passed ++
        if ((s.receiver.streams stream).stream req.inOrder).2 then
          [⟨stream, (s.receiver.streams stream).heard + 1, req⟩] else [] := by
      simp only [Race.State.stream, reachedOf_append]
      cases req with
      | close c => simp [ScreenRequest.numbered] at hreq
      | other r => simp [ScreenRequest.numbered] at hreq
      | setQuality c quality =>
          obtain rfl : c = stream := by simpa [ScreenRequest.numbered] using hstream
          have hfresh := h.placing.quality_fresh hget
          simp [screenInput, hknown, ScreenRequest.inOrder, ScreenRequest.numbered, hfresh,
            reachedOf]
      | input c event =>
          obtain rfl : c = stream := by simpa [ScreenRequest.numbered] using hstream
          simp only [screenInput, hknown, if_true, reachedOf_decided, and_true]
          rfl
    refine h.worker rfl rfl rfl ?_ ?_
    · rw [hat, (h.placing.fits.stream hget).2.1]
      exact hheard
    · rw [hat, hpassed]
      exact hplacing
  · obtain ⟨hat, hpassed⟩ := @screen_stream_other encodes known s.receiver _ _ hreq hstream
    have htake : numberedOf stream (s.sent.take (s.heard + 1)) =
        numberedOf stream (s.sent.take s.heard) := by
      rw [List.take_add_one, hm, Option.toList_some, numberedOf_append, numberedOf_singleton,
        if_neg hstream, List.append_nil]
    refine h.worker rfl rfl rfl ?_ ?_
    · rw [Race.State.stream_heard, htake, ← h.heard]
      exact congrArg Placed.heard hat
    · rw [Race.State.stream, reachedOf_append, hpassed, List.append_nil, hat]
      exact h.placing

theorem copy (h : Counted s stream) (hknown : known stream = true) {c : ScreenCopy}
    (hc : c ∈ s.copies) : Counted (s.copy c) stream := by
  by_cases hstream : c.stream = stream
  · obtain ⟨n, hseq, hget, hordered⟩ := h.copies c hc hstream
    have hplacing := h.placing.copy hget
    have hat : (s.copy c).receiver.streams stream = ((s.receiver.streams stream).copy (n + 1)
        (Link.ordered (numberedOf stream s.sent) (n + 1)) c.input.inOrder).1 := by
      simp [Race.State.copy, screenInput, hstream, hknown, ScreenOrder.copy, ScreenOrder.set, hseq,
        hordered]
    have hheard : ((s.copy c).receiver.streams stream).heard =
        (s.receiver.streams stream).heard := by
      rw [hat, Placed.copy]
      split <;> rfl
    refine h.worker rfl rfl rfl (hheard.trans h.heard) ?_
    rw [hat, Race.State.copy, reachedOf_append]
    simp only [screenInput, hstream, hknown, if_true, reachedOf_decided, and_true, hseq, hordered]
    exact hplacing
  · have hat : (s.copy c).receiver.streams stream = s.receiver.streams stream := by
      simp only [Race.State.copy, screenInput]
      split
      · exact Function.update_of_ne (Ne.symm hstream) _ _
      · rfl
    refine h.worker rfl rfl rfl ((congrArg Placed.heard hat).trans h.heard) ?_
    have hpassed : reachedOf stream (s.copy c).passed = reachedOf stream s.passed := by
      simp only [Race.State.copy, screenInput, reachedOf_append]
      by_cases hc : known c.stream = true
      · simp only [hc, if_true, reachedOf_decided, hstream, and_false, if_false, List.append_nil]
      · simp [hc, reachedOf]
    rw [hat, hpassed]
    exact h.placing

end Counted

/-- Whatever the interleaving, the requests of a stream go on to its window in the order of
their numbers; each goes on with every in-order request sent before it, and all in-order ones
have, once the stream has brought them all. -/
theorem window_input_in_order (encodes : ScreenCopy → Bool) (known : StreamId → Bool)
    (steps : List (Race.Step ScreenRequest)) (stream : StreamId) (hknown : known stream = true)
    (hnumbered : ∀ req ∈ ((screenStart encodes known).run steps).sent, req.numbered.isSome) :
    WentOn (numberedOf stream ((screenStart encodes known).run steps).sent)
        (reachedOf stream ((screenStart encodes known).run steps).passed) ∧
      (((screenStart encodes known).run steps).heard =
          ((screenStart encodes known).run steps).sent.length →
        inOrderOf (reachedOf stream ((screenStart encodes known).run steps).passed) =
          (numberedOf stream ((screenStart encodes known).run steps).sent).filter
            ScreenRequest.inOrder) := by
  have hcounted : Counted ((screenStart encodes known).run steps) stream := by
    refine Race.State.run_invariant
      (fun s => (∀ req ∈ s.sent, req.numbered.isSome) → Counted s stream) ?_ ?_ ?_
      (Nat.le_refl 0) (fun _ => Counted.start stream) steps hnumbered
    · intro s m hle h hall
      refine (h fun req hreq => hall req (List.mem_append_left _ hreq)).send ?_ hle
      exact hall m (List.mem_append_right _ List.mem_cons_self)
    · intro s m hm h hall
      exact (h hall).brought hknown hm (hall m (List.mem_of_getElem? hm))
    · intro s c hc h hall
      exact (h hall).copy hknown hc
  refine ⟨hcounted.placing.wentOn, fun hall => ?_⟩
  have hheard := hcounted.heard
  rw [hall, List.take_length] at hheard
  have hend : (numberedOf stream ((screenStart encodes known).run steps).sent).length ≤
      lastSeq (reachedOf stream ((screenStart encodes known).run steps).passed) := by
    rw [← hheard, ← hcounted.placing.latest]
    exact hcounted.placing.fits.heard_le
  rw [hcounted.placing.wentOn.inOrder _ (List.prefix_refl _), List.take_of_length_le hend]

/-- A click, a move and a key, with the copies of the last two ahead of the stream. -/
theorem window_input_in_order_overtaken :
    WentOn (numberedOf 1 ((screenStart (fun _ => true) (fun _ => true)).run
        [.send (.input 1 (.event 7)), .send (.input 1 (.move 3 4)), .send (.input 1 (.event 8)),
          .copy 1, .copy 0, .copy 2, .stream, .copy 1, .stream, .stream]).sent)
        (reachedOf 1 ((screenStart (fun _ => true) (fun _ => true)).run
        [.send (.input 1 (.event 7)), .send (.input 1 (.move 3 4)), .send (.input 1 (.event 8)),
          .copy 1, .copy 0, .copy 2, .stream, .copy 1, .stream, .stream]).passed) :=
  (window_input_in_order _ _ _ 1 rfl (by decide)).1

end Slopty.Link
