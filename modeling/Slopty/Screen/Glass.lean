import Mathlib.Data.List.Induction
import Slopty.Media.Wire
import Slopty.Screen.Pacer

/-!
One stream's way to the glass: decoded pictures go up on the video layers the view attached and
placed, the newest alone, and the layers report from their own threads what became of each.
-/

namespace Slopty.Screen

open Slopty.Lib
open Slopty.Media.Wire (Region)

/-- Pictures put up and not yet reported that are remembered. -/
def flyingKept : Nat := 8

/-- Two stripes' pictures seen apart by more than this showed a tear. -/
def splitAfter : Duration := Duration.millis 4

/-- Captures whose stripes are remembered until both layers report. -/
def pairsKept : Nat := 8

structure Buffer where
  width : Nat
  height : Nat
  deriving DecidableEq, Repr

/-- A striped picture's lower stripe. -/
structure Lower where
  buffer : Buffer
  /-- Rows of the top stripe's picture shown. -/
  topRows : Nat
  /-- The first row of this one's shown. -/
  shownFrom : Nat
  deriving DecidableEq, Repr

/-- A decoded picture: one picture, or a striped one's top stripe and its lower one. -/
structure Picture where
  top : Buffer
  lower : Option Lower
  /-- The part of the target it shows. -/
  region : Option Region
  deriving DecidableEq, Repr

/-- How a striped picture's two pictures stack. -/
structure Seam where
  top : Nat
  topRows : Nat
  lower : Nat
  lowerFrom : Nat
  deriving DecidableEq, Repr

/-- What the view draws around the picture. -/
structure Shape where
  size : Nat × Nat
  seam : Option Seam
  region : Option Region
  deriving DecidableEq, Repr

def Shape.of (picture : Picture) : Shape :=
  let seam := picture.lower.map fun lower =>
    ({ top := picture.top.height
       topRows := lower.topRows
       lower := lower.buffer.height
       lowerFrom := lower.shownFrom } : Seam)
  let height := match seam with
    | none => picture.top.height
    | some seam => satAdd 32 seam.topRows (seam.lower - seam.lowerFrom)
  { size := (picture.top.width, height), seam := seam, region := picture.region }

/-- How the view placed the layers. -/
structure Placed where
  seam : Option Seam
  region : Option Region
  deriving DecidableEq, Repr

/-- A layer the pictures go to. -/
structure Layer where
  /-- Tells this layer's reports from a replaced one's. -/
  generation : Nat
  /-- The sequence the layer gives the next picture. -/
  next : Nat
  deriving DecidableEq, Repr

structure Slot where
  layer : Option Layer := none
  /-- The lower stripe's layer. -/
  lower : Option Layer := none
  /-- The newest picture the pacer took. -/
  last : Option Picture := none
  /-- The newest picture of the whole target. -/
  base : Option Picture := none
  /-- `last` has not been put up on a layer yet. -/
  waiting : Bool := false
  generations : Nat := 0
  placed : Option Placed := none
  deriving DecidableEq, Repr

/-- Whether `last` can go up on the layers as the view placed them. -/
def Slot.fits (s : Slot) : Bool :=
  match s.last with
  | none => false
  | some picture =>
      let shape := Shape.of picture
      s.placed.all (· == { seam := shape.seam, region := shape.region })

/-- A picture on its way to the glass. -/
structure Flying where
  generation : Nat
  sequence : Nat
  stamp : FrameStamp
  deriving DecidableEq, Repr

def Flying.key (f : Flying) : Nat × Nat := (f.generation, f.sequence)

/-- What a layer reported of a stripe's picture. -/
inductive Report where
  | shown (moment : Instant)
  | replaced
  deriving DecidableEq, Repr

/-- A capture's two stripes on their way to the glass, and what each layer reported of its. -/
structure Pair where
  stripes : (Nat × Nat) × (Nat × Nat)
  reports : Option Report × Option Report
  deriving DecidableEq, Repr

/-- How a striped stream's captures reached the glass. -/
structure Seams where
  together : Nat := 0
  split : Nat := 0
  deriving DecidableEq, Repr

structure Book where
  pacer : Pacer := {}
  flying : List Flying := []
  pairs : List Pair := []
  seams : Seams := {}
  /-- The thread inside a layer's `present` now. -/
  presenting : Option Nat := none
  deriving DecidableEq, Repr

/-- A present that has not come back from the layers: who holds the slot, and what is booked. -/
structure Presenting where
  booked : Option Flying
  /-- The lower stripe goes up on its layer too. -/
  striped : Bool
  deriving DecidableEq, Repr

/-- One stream's way to the glass. -/
structure Glass where
  slot : Slot := {}
  book : Book := {}
  putUp : Nat := 0
  shape : Option Shape := none
  /-- The slot is locked from a picture's verdict until the layers have it. -/
  busy : Option Presenting := none
  deriving DecidableEq, Repr

/-- Which of a capture's stripes a layer shows. -/
inductive Stripe where
  | top
  | lower
  deriving DecidableEq, Repr

namespace Pair

def key (pair : Pair) : Stripe → Nat × Nat
  | .top => pair.stripes.1
  | .lower => pair.stripes.2

def report (pair : Pair) (stripe : Stripe) (report : Report) : Pair :=
  match stripe with
  | .top => { pair with reports := (some report, pair.reports.2) }
  | .lower => { pair with reports := (pair.reports.1, some report) }

end Pair

namespace Book

/-- Once both of a capture's stripes have reported, it counts as shown together or apart. -/
def seamShown (seams : Seams) : Report → Report → Seams
  | .shown top, .shown lower =>
      if (max top lower).since (min top lower) ≤ splitAfter then
        { seams with together := satAdd 64 seams.together 1 }
      else { seams with split := satAdd 64 seams.split 1 }
  | .replaced, .replaced => seams
  | _, _ => { seams with split := satAdd 64 seams.split 1 }

/-- A stripe's layer reported the picture it numbered `key`: shown then, or never. -/
def stripeShown (b : Book) (stripe : Stripe) (key : Nat × Nat) (shown : Option Instant) : Book :=
  match b.pairs.findIdx? (fun pair => pair.key stripe == key) with
  | none => b
  | some found =>
      match b.pairs[found]? with
      | none => b
      | some pair =>
          let pair := pair.report stripe ((shown.map Report.shown).getD .replaced)
          match pair.reports with
          | (some top, some lower) =>
              { b with pairs := b.pairs.eraseIdx found, seams := seamShown b.seams top lower }
          | _ => { b with pairs := b.pairs.set found pair }

/-- What became of the picture a layer numbered `key`, told on `thread`. -/
def reported (b : Book) (thread : Nat) (key : Nat × Nat) (presentedAt : Option Instant) : Book :=
  let b := b.stripeShown .top key presentedAt
  match b.flying.findIdx? (fun f => f.key == key) with
  | none => b
  | some found =>
      match b.flying[found]? with
      | none => b
      | some flying =>
          let b := { b with flying := b.flying.eraseIdx found }
          match presentedAt with
          | some shown => { b with pacer := b.pacer.shown flying.stamp shown }
          | none =>
              -- a picture the layer's mailbox replaced is told from inside the present
              if b.presenting = some thread then { b with pacer := b.pacer.unshown } else b

end Book

/-- How many pictures put up the layer refused. -/
def Presenting.refused (busy : Presenting) (top : Option Nat) (flying : List Flying) : Nat :=
  match top, busy.booked with
  | none, some booked => flying.countP fun f => f.key == booked.key
  | _, _ => 0

namespace Glass

/-- Put the newest picture up on its layer, if it has one: as far as the layers' own `present`. -/
def present (g : Glass) (thread : Nat) (now : Instant) : Glass :=
  if !g.slot.fits then g
  else
    match g.slot.layer, g.slot.last with
    | some layer, some picture =>
        -- a picture shown on a replaced layer goes on the new one untimed
        let (pacer, stamp) :=
          if g.slot.waiting then g.book.pacer.painted now else (g.book.pacer, none)
        let booked := stamp.map fun stamp =>
          ({ generation := layer.generation, sequence := layer.next, stamp := stamp } : Flying)
        let flying := match booked with
          | none => g.book.flying
          | some flying => pushRecent flyingKept g.book.flying flying
        { g with
          slot := { g.slot with waiting := false }
          book := { g.book with pacer := pacer, flying := flying, presenting := some thread }
          busy := some ⟨booked, picture.lower.isSome && g.slot.lower.isSome⟩ }
    | _, _ => g

/-- A decoded picture the pacer gave its verdict on, before it goes up. -/
def taken (g : Glass) (picture : Picture) (stamp : FrameStamp) (now : Instant) : Glass × Pace :=
  let (pacer, pace) := g.book.pacer.offer stamp now
  let g := { g with book := { g.book with pacer := pacer } }
  match pace with
  | .drop => (g, .drop)
  | .present =>
      let base := if picture.region.isNone then some picture else g.slot.base
      ({ g with
          shape := some (Shape.of picture)
          slot := { g.slot with base := base, last := some picture, waiting := true } }, .present)

/-- A decoded picture: put up on the layer at once unless the pacer drops it. -/
def offer (g : Glass) (thread : Nat) (picture : Picture) (stamp : FrameStamp) (now : Instant) :
    Glass :=
  match g.taken picture stamp now with
  | (g, .drop) => g
  | (g, .present) => g.present thread now

/-- The slot with a layer of its own in the window the view moved to. -/
def attached (g : Glass) : Glass :=
  let generation := satAdd 64 g.slot.generations 1
  { g with slot := { g.slot with generations := generation, layer := some ⟨generation, 0⟩ } }

def attachedLower (g : Glass) : Glass :=
  let generation := satAdd 64 g.slot.generations 1
  { g with slot := { g.slot with generations := generation, lower := some ⟨generation, 0⟩ } }

def replaced (g : Glass) (placed : Placed) : Glass :=
  { g with slot := { g.slot with placed := some placed } }

/-- The view placed the layers: a picture that waited for it goes up now. -/
def place (g : Glass) (thread : Nat) (placed : Placed) (now : Instant) : Glass :=
  if g.slot.placed.any (· != placed) && g.slot.waiting then (g.replaced placed).present thread now
  else g.replaced placed

/-- Let go of the layers: pictures wait here until another is attached. -/
def detach (g : Glass) : Glass := { g with slot := { g.slot with layer := none, lower := none } }

/-- Both layers took their stripes, as `top` and `lower`: their reports will be of one capture. -/
def paired (g : Glass) (busy : Presenting) (top lower : Option Nat) : Glass :=
  match g.slot.layer, g.slot.lower, top, lower with
  | some layer, some below, some top, some sequence =>
      if busy.striped then
        let pair : Pair :=
          { stripes := ((layer.generation, top), (below.generation, sequence))
            reports := (none, none) }
        { g with
          slot := { g.slot with lower := some { below with next := satAdd 64 sequence 1 } }
          book := { g.book with pairs := pushRecent pairsKept g.book.pairs pair } }
      else g
  | _, _, _, _ => g

/-- The layer took the picture as `top`, or refused it. -/
def took (g : Glass) (busy : Presenting) (top : Option Nat) : Glass :=
  match top, busy.booked with
  | some sequence, _ =>
      { g with
        putUp := satAdd 64 g.putUp 1
        slot := { g.slot with
          layer := g.slot.layer.map fun layer => { layer with next := satAdd 64 sequence 1 } } }
  | none, some booked =>
      { g with book := { g.book with
          flying := g.book.flying.filter fun f => f.key != booked.key } }
  | none, none => g

/-- The layers came back with the sequences they gave, or refused. -/
def returned (g : Glass) (top lower : Option Nat) : Glass :=
  match g.busy with
  | none => g
  | some busy =>
      let g := { g with busy := none, book := { g.book with presenting := none } }
      (g.paired busy top lower).took busy top

def reported (g : Glass) (thread : Nat) (key : Nat × Nat) (presentedAt : Option Instant) : Glass :=
  { g with book := g.book.reported thread key presentedAt }

/-- The lower stripe's layer reported a picture of its. -/
def reportedLower (g : Glass) (key : Nat × Nat) (presentedAt : Option Instant) : Glass :=
  { g with book := g.book.stripeShown .lower key presentedAt }

/-- What happens to a stream's glass: calls on any thread, and the layers' own. -/
inductive Event where
  | offer (thread : Nat) (picture : Picture) (stamp : FrameStamp) (now : Instant)
  | attach (thread : Nat) (now : Instant)
  | attachLower (thread : Nat) (now : Instant)
  | place (thread : Nat) (placed : Placed) (now : Instant)
  | detach
  | returned (top lower : Option Nat)
  | reported (thread : Nat) (key : Nat × Nat) (presentedAt : Option Instant)
  | reportedLower (key : Nat × Nat) (presentedAt : Option Instant)
  deriving DecidableEq, Repr

/-- One event. A call that needs the slot while a present holds it has not happened yet. -/
def step (g : Glass) : Event → Glass
  | .offer thread picture stamp now =>
      if g.busy.isSome then g else g.offer thread picture stamp now
  | .attach thread now => if g.busy.isSome then g else g.attached.present thread now
  | .attachLower thread now => if g.busy.isSome then g else g.attachedLower.present thread now
  | .place thread placed now => if g.busy.isSome then g else g.place thread placed now
  | .detach => if g.busy.isSome then g else g.detach
  | .returned top lower => g.returned top lower
  | .reported thread key presentedAt => g.reported thread key presentedAt
  | .reportedLower key presentedAt => g.reportedLower key presentedAt

/-- What putting a picture up does: nothing while none can go up, and else the frame waiting is
painted and booked. -/
theorem present_cases (g : Glass) (thread : Nat) (now : Instant) :
    (g.present thread now = g ∧ ¬(g.slot.layer.isSome ∧ g.slot.fits = true)) ∨
      (g.slot.layer.isSome ∧ g.slot.fits = true) ∧
        ∃ busy flying pacer, g.present thread now =
            { g with
              slot := { g.slot with waiting := false }
              book := { g.book with pacer := pacer, flying := flying, presenting := some thread }
              busy := some busy } ∧
          (g.slot.waiting = false ∧ pacer = g.book.pacer ∧ flying = g.book.flying ∨
            g.slot.waiting = true ∧ pacer = (g.book.pacer.painted now).1 ∧
              (g.book.pacer.pending = none ∧ flying = g.book.flying ∨
                ∃ booked, g.book.pacer.pending = some booked.stamp ∧
                  flying = pushRecent flyingKept g.book.flying booked)) := by
  rw [present]
  cases hfits : g.slot.fits with
  | false => exact .inl ⟨rfl, fun h => absurd h.2 Bool.false_ne_true⟩
  | true =>
    rw [Bool.not_true, if_neg Bool.false_ne_true]
    cases hlayer : g.slot.layer with
    | none => exact .inl ⟨rfl, fun h => absurd h.1 Bool.false_ne_true⟩
    | some layer =>
      cases hlast : g.slot.last with
      | none =>
        rw [Slot.fits, hlast] at hfits
        cases hfits
      | some picture =>
        refine .inr ⟨⟨rfl, rfl⟩, ?_⟩
        cases hwaiting : g.slot.waiting with
        | false => exact ⟨_, _, _, rfl, .inl ⟨rfl, rfl, rfl⟩⟩
        | true =>
          refine ⟨_, _, _, rfl, .inr ⟨rfl, rfl, ?_⟩⟩
          cases hpending : g.book.pacer.pending with
          | none => exact .inl ⟨rfl, rfl⟩
          | some stamp => exact .inr ⟨⟨layer.generation, layer.next, stamp⟩, rfl, rfl⟩

/-- A picture waits for a layer exactly while the pacer holds its frame, and none waits that could
go up. -/
structure Sound (g : Glass) : Prop where
  waiting : g.slot.waiting = g.book.pacer.pending.isSome
  up : g.slot.layer.isSome → g.slot.fits = true → g.slot.waiting = false

theorem present_sound {g : Glass} (h : g.slot.waiting = g.book.pacer.pending.isSome)
    (thread : Nat) (now : Instant) : (g.present thread now).Sound := by
  obtain ⟨heq, hcannot⟩ | ⟨-, busy, flying, pacer, heq, hcase⟩ := g.present_cases thread now
  · rw [heq]
    exact ⟨h, fun hlayer hfits => absurd ⟨hlayer, hfits⟩ hcannot⟩
  · rw [heq]
    refine ⟨?_, fun _ _ => rfl⟩
    obtain ⟨hwaiting, rfl, -⟩ | ⟨-, rfl, -⟩ := hcase
    · exact hwaiting.symm.trans h
    · dsimp only
      rw [Pacer.painted_pending]
      rfl

theorem present_keeps {β : Type} {f : Pacer → β} (hpainted : ∀ p now, f (p.painted now).1 = f p)
    (g : Glass) (thread : Nat) (now : Instant) :
    f (g.present thread now).book.pacer = f g.book.pacer := by
  obtain ⟨heq, -⟩ | ⟨-, busy, flying, pacer, heq, hcase⟩ := g.present_cases thread now
  · rw [heq]
  · rw [heq]
    obtain ⟨-, rfl, -⟩ | ⟨-, rfl, -⟩ := hcase
    · rfl
    · exact hpainted _ _

theorem paired_spec (g : Glass) (busy : Presenting) (top lower : Option Nat) :
    (g.paired busy top lower).book.pacer = g.book.pacer ∧
      (g.paired busy top lower).book.flying = g.book.flying ∧
      (g.paired busy top lower).slot.waiting = g.slot.waiting ∧
      (g.paired busy top lower).slot.layer = g.slot.layer ∧
      (g.paired busy top lower).slot.fits = g.slot.fits := by
  unfold paired
  split
  · split <;> exact ⟨rfl, rfl, rfl, rfl, rfl⟩
  · exact ⟨rfl, rfl, rfl, rfl, rfl⟩

theorem took_spec (g : Glass) (busy : Presenting) (top : Option Nat) :
    (g.took busy top).book.pacer = g.book.pacer ∧
      (g.took busy top).slot.waiting = g.slot.waiting ∧
      (g.took busy top).slot.layer.isSome = g.slot.layer.isSome ∧
      (g.took busy top).slot.fits = g.slot.fits := by
  unfold took
  split
  · exact ⟨rfl, rfl, Option.isSome_map, rfl⟩
  · exact ⟨rfl, rfl, rfl, rfl⟩
  · exact ⟨rfl, rfl, rfl, rfl⟩

/-- What the layers came back with changes nothing of which frame waits and which is up. -/
theorem returned_spec (g : Glass) (top lower : Option Nat) :
    (g.returned top lower).book.pacer = g.book.pacer ∧
      (g.returned top lower).slot.waiting = g.slot.waiting ∧
      (g.returned top lower).slot.layer.isSome = g.slot.layer.isSome ∧
      (g.returned top lower).slot.fits = g.slot.fits := by
  rw [returned]
  cases g.busy with
  | none => exact ⟨rfl, rfl, rfl, rfl⟩
  | some busy =>
    obtain ⟨hpacer, -, hwaiting, hlayer, hfits⟩ := paired_spec
      { g with busy := none, book := { g.book with presenting := none } } busy top lower
    obtain ⟨hpacer', hwaiting', hlayer', hfits'⟩ := took_spec (paired
      { g with busy := none, book := { g.book with presenting := none } } busy top lower) busy top
    exact ⟨hpacer'.trans hpacer, hwaiting'.trans hwaiting,
      hlayer'.trans (congrArg Option.isSome hlayer), hfits'.trans hfits⟩

theorem stripeShown_spec (b : Book) (stripe : Stripe) (key : Nat × Nat) (shown : Option Instant) :
    (b.stripeShown stripe key shown).pacer = b.pacer ∧
      (b.stripeShown stripe key shown).flying = b.flying ∧
      (b.stripeShown stripe key shown).presenting = b.presenting := by
  unfold Book.stripeShown
  split
  · exact ⟨rfl, rfl, rfl⟩
  · split
    · exact ⟨rfl, rfl, rfl⟩
    · dsimp only
      split <;> exact ⟨rfl, rfl, rfl⟩

/-- A report of a picture on its way times it, counts it as replaced, or forgets it. -/
theorem reported_cases (b : Book) (thread : Nat) (key : Nat × Nat) (presentedAt : Option Instant) :
    (b.flying.any (fun f => f.key == key) = false ∧
        (b.reported thread key presentedAt).pacer = b.pacer ∧
        (b.reported thread key presentedAt).flying = b.flying) ∨
      ∃ found flying, b.flying[found]? = some flying ∧ flying.key = key ∧
        (b.reported thread key presentedAt).flying = b.flying.eraseIdx found ∧
        (b.reported thread key presentedAt).pacer =
          match presentedAt with
          | some shown => b.pacer.shown flying.stamp shown
          | none => if b.presenting = some thread then b.pacer.unshown else b.pacer := by
  obtain ⟨hpacer, hflying, hpresenting⟩ := stripeShown_spec b .top key presentedAt
  rw [Book.reported]
  dsimp only
  rw [hflying]
  cases hfound : b.flying.findIdx? (fun f => f.key == key) with
  | none =>
    refine .inl ⟨?_, hpacer, hflying⟩
    rw [List.any_eq_false]
    exact fun f hf => ne_true_of_eq_false (List.findIdx?_eq_none_iff.mp hfound f hf)
  | some found =>
    obtain ⟨hlt, hkey, -⟩ := List.findIdx?_eq_some_iff_getElem.mp hfound
    have hat : b.flying[found]? = some b.flying[found] := List.getElem?_eq_getElem hlt
    refine .inr ⟨found, b.flying[found], hat, eq_of_beq hkey, ?_⟩
    dsimp only
    rw [hat]
    dsimp only
    rw [hpresenting, hpacer]
    cases presentedAt with
    | some shown => exact ⟨rfl, rfl⟩
    | none =>
      dsimp only
      split <;> exact ⟨rfl, rfl⟩

/-- A report changes nothing of the pacer but what it counts and times. -/
theorem reported_keeps {β : Type} {f : Pacer → β}
    (hshown : ∀ p stamp reached, f (p.shown stamp reached) = f p)
    (hunshown : ∀ p : Pacer, f p.unshown = f p) (g : Glass) (thread : Nat) (key : Nat × Nat)
    (presentedAt : Option Instant) :
    f (g.reported thread key presentedAt).book.pacer = f g.book.pacer := by
  rw [reported]
  dsimp only
  obtain ⟨-, hpacer, -⟩ | ⟨found, flying, -, -, -, hpacer⟩ :=
    reported_cases g.book thread key presentedAt
  · rw [hpacer]
  · rw [hpacer]
    cases presentedAt with
    | some shown => exact hshown _ _ _
    | none =>
      dsimp only
      split
      · exact hunshown _
      · rfl

theorem taken_waiting {g : Glass} (h : g.slot.waiting = g.book.pacer.pending.isSome)
    (picture : Picture) (stamp : FrameStamp) (now : Instant) :
    (g.taken picture stamp now).1.slot.waiting =
      (g.taken picture stamp now).1.book.pacer.pending.isSome := by
  rw [taken, Pacer.offer_eq]
  cases g.book.pacer.isLate stamp with
  | true => exact h
  | false => rfl

/-- A frame the pacer drops leaves the pictures where they were. -/
theorem taken_drop {g : Glass} {picture : Picture} {stamp : FrameStamp} {now : Instant}
    (h : (g.taken picture stamp now).2 = .drop) :
    (g.taken picture stamp now).1.slot = g.slot := by
  rw [taken] at h ⊢
  dsimp only at h ⊢
  cases hpace : (g.book.pacer.offer stamp now).2 with
  | drop => rfl
  | present =>
    rw [hpace] at h
    cases h

theorem offer_eq (g : Glass) (thread : Nat) (picture : Picture) (stamp : FrameStamp)
    (now : Instant) : g.offer thread picture stamp now =
      if (g.taken picture stamp now).2 = .drop then (g.taken picture stamp now).1
      else (g.taken picture stamp now).1.present thread now := by
  rw [offer]
  obtain ⟨g', pace⟩ := g.taken picture stamp now
  cases pace <;> rfl

theorem offer_sound {g : Glass} (h : g.Sound) (thread : Nat) (picture : Picture)
    (stamp : FrameStamp) (now : Instant) : (g.offer thread picture stamp now).Sound := by
  have hwaiting := taken_waiting h.waiting picture stamp now
  rw [offer_eq]
  split
  · rename_i hdrop
    refine ⟨hwaiting, ?_⟩
    rw [taken_drop hdrop]
    exact h.up
  · exact present_sound hwaiting thread now

theorem place_sound {g : Glass} (h : g.Sound) (thread : Nat) (placed : Placed) (now : Instant) :
    (g.place thread placed now).Sound := by
  rw [place]
  split
  · exact present_sound (g := g.replaced placed) h.waiting thread now
  · rename_i hkept
    refine ⟨h.waiting, fun hlayer hfits => ?_⟩
    -- the picture that waits waits for a layer: the layout it was held for has not changed
    cases hwaiting : g.slot.waiting with
    | false => exact hwaiting
    | true =>
      rw [hwaiting, Bool.and_true] at hkept
      have hold : g.slot.fits = true := by
        cases hwas : g.slot.placed with
        | none =>
          rw [replaced, Slot.fits] at hfits
          rw [Slot.fits, hwas]
          cases hlast : g.slot.last with
          | none =>
            rw [hlast] at hfits
            cases hfits
          | some picture => rfl
        | some was =>
          rw [hwas, Option.any_some, bne_iff_ne, ne_eq, not_not] at hkept
          rw [replaced, Slot.fits] at hfits
          rw [Slot.fits, hwas, hkept]
          exact hfits
      exact absurd (h.up hlayer hold) (ne_false_of_eq_true hwaiting)

/-- Each event keeps a picture waiting only for a layer or a layout. -/
theorem step_sound {g : Glass} (h : g.Sound) (e : Event) : (g.step e).Sound := by
  cases e with
  | offer thread picture stamp now =>
    rw [step]
    split
    · exact h
    · exact offer_sound h thread picture stamp now
  | attach thread now =>
    rw [step]
    split
    · exact h
    · exact present_sound (g := g.attached) h.waiting thread now
  | attachLower thread now =>
    rw [step]
    split
    · exact h
    · exact present_sound (g := g.attachedLower) h.waiting thread now
  | place thread placed now =>
    rw [step]
    split
    · exact h
    · exact place_sound h thread placed now
  | detach =>
    rw [step]
    split
    · exact h
    · exact ⟨h.waiting, fun hlayer => absurd hlayer Bool.false_ne_true⟩
  | returned top lower =>
    obtain ⟨hpacer, hwaiting, hlayer, hfits⟩ := returned_spec g top lower
    refine ⟨?_, fun hl hf => ?_⟩
    · rw [step, hpacer, hwaiting]
      exact h.waiting
    · rw [step] at hl hf ⊢
      rw [hwaiting]
      exact h.up (hlayer ▸ hl) (hfits ▸ hf)
  | reported thread key presentedAt =>
    have hpending := reported_keeps (f := Pacer.pending) (fun _ _ _ => rfl) (fun _ => rfl) g thread
      key presentedAt
    refine ⟨?_, h.up⟩
    rw [step, hpending]
    exact h.waiting
  | reportedLower key presentedAt =>
    refine ⟨?_, h.up⟩
    rw [step, reportedLower]
    dsimp only
    rw [(stripeShown_spec g.book .lower key presentedAt).1]
    exact h.waiting

/-- The pictures offered by an event, once it is the slot's turn. -/
def offers (g : Glass) : Event → List FrameStamp
  | .offer _ _ stamp _ => if g.busy.isSome then [] else [stamp]
  | _ => []

/-- What neither paints nor reports change of the pacer only an offer does. -/
theorem step_keeps {β : Type} {f : Pacer → β} (hpainted : ∀ p now, f (p.painted now).1 = f p)
    (hshown : ∀ p stamp reached, f (p.shown stamp reached) = f p)
    (hunshown : ∀ p : Pacer, f p.unshown = f p) (g : Glass) (e : Event) :
    (g.offers e = [] ∧ f (g.step e).book.pacer = f g.book.pacer) ∨
      ∃ stamp now, g.offers e = [stamp] ∧
        f (g.step e).book.pacer = f (g.book.pacer.offer stamp now).1 := by
  cases e with
  | offer thread picture stamp now =>
    rw [step, offers]
    split
    · exact .inl ⟨rfl, rfl⟩
    · refine .inr ⟨stamp, now, rfl, ?_⟩
      rw [offer, taken]
      dsimp only
      cases (g.book.pacer.offer stamp now).2 with
      | drop => rfl
      | present => exact present_keeps hpainted _ thread now
  | attach thread now =>
    refine .inl ⟨rfl, ?_⟩
    rw [step]
    split
    · rfl
    · exact present_keeps hpainted _ thread now
  | attachLower thread now =>
    refine .inl ⟨rfl, ?_⟩
    rw [step]
    split
    · rfl
    · exact present_keeps hpainted _ thread now
  | place thread placed now =>
    refine .inl ⟨rfl, ?_⟩
    rw [step]
    split
    · rfl
    · rw [place]
      split
      · exact present_keeps hpainted _ thread now
      · rfl
  | detach =>
    refine .inl ⟨rfl, ?_⟩
    rw [step]
    split <;> rfl
  | returned top lower =>
    refine .inl ⟨rfl, ?_⟩
    rw [step, (returned_spec g top lower).1]
  | reported thread key presentedAt =>
    exact .inl ⟨rfl, reported_keeps hshown hunshown g thread key presentedAt⟩
  | reportedLower key presentedAt =>
    refine .inl ⟨rfl, ?_⟩
    rw [step, reportedLower]
    dsimp only
    rw [(stripeShown_spec g.book .lower key presentedAt).1]

/-- The frames the glass can say the fate of: shown, skipped, late, waiting, or on their way. -/
def accounted (g : Glass) : Nat := g.book.pacer.accounted + g.book.flying.length

/-- A glass with every frame offered to it, and how many pictures put up were never timed. -/
structure Watched where
  glass : Glass := {}
  offered : List FrameStamp := []
  untimed : Nat := 0

/-- How many pictures put up a present forgets the report of: the oldest of those in flight, when
there are as many as are remembered. -/
def forgotten (g : Glass) : Nat :=
  if g.slot.layer.isSome ∧ g.slot.fits = true ∧ g.slot.waiting = true ∧
    flyingKept ≤ g.book.flying.length then 1 else 0

/-- How many pictures put up an event leaves without a report to come: forgotten, refused by the
layer, or drawn by a display that did not say when. -/
def untimed (g : Glass) : Event → Nat
  | .offer _ picture stamp now =>
      if g.busy.isSome then 0
      else if (g.taken picture stamp now).2 = .present then (g.taken picture stamp now).1.forgotten
      else 0
  | .attach _ _ => if g.busy.isSome then 0 else g.attached.forgotten
  | .attachLower _ _ => if g.busy.isSome then 0 else g.attachedLower.forgotten
  | .place _ placed _ =>
      if g.busy.isSome then 0
      else if g.slot.placed.any (· != placed) then (g.replaced placed).forgotten
      else 0
  | .detach => 0
  | .returned top _ =>
      match g.busy with
      | none => 0
      | some busy => busy.refused top g.book.flying
  | .reported thread key presentedAt =>
      if presentedAt = none ∧ g.book.presenting ≠ some thread ∧
        g.book.flying.any (fun f => f.key == key) then 1 else 0
  | .reportedLower _ _ => 0

def Watched.step (w : Watched) (e : Event) : Watched :=
  { glass := w.glass.step e
    offered := w.offered ++ w.glass.offers e
    untimed := w.untimed + w.glass.untimed e }

def run (es : List Event) : Watched := es.foldl Watched.step {}

theorem run_sound (es : List Event) : (run es).glass.Sound := by
  have hfold : ∀ w : Watched, w.glass.Sound → (es.foldl Watched.step w).glass.Sound := by
    induction es with
    | nil => exact fun w hw => hw
    | cons e es ih => exact fun w hw => ih _ (step_sound hw e)
  exact hfold {} ⟨rfl, fun hlayer => absurd hlayer Bool.false_ne_true⟩

theorem max?_concat (l : List Nat) (x : Nat) : (l ++ [x]).max? = some (max (l.max?.getD 0) x) := by
  cases l with
  | nil => rw [List.nil_append, List.max?_nil, Option.getD_none, Nat.zero_max]; rfl
  | cons first rest =>
    rw [List.cons_append, List.max?_cons', List.max?_cons', List.foldl_append]
    rfl

/-- Whatever the layers and the view do, the newest frame the pacer took is the newest decoded. -/
theorem run_newest (es : List Event) :
    (run es).glass.book.pacer.newest = ((run es).offered.map FrameStamp.ptsUs).max? := by
  have hfold : ∀ w : Watched, w.glass.book.pacer.newest = (w.offered.map FrameStamp.ptsUs).max? →
      (es.foldl Watched.step w).glass.book.pacer.newest =
        ((es.foldl Watched.step w).offered.map FrameStamp.ptsUs).max? := by
    induction es with
    | nil => exact fun w hw => hw
    | cons e es ih =>
      intro w hw
      refine ih _ ?_
      rw [Watched.step]
      dsimp only
      obtain ⟨hoffers, hnewest⟩ | ⟨stamp, now, hoffers, hnewest⟩ :=
        step_keeps (f := Pacer.newest) Pacer.painted_newest (fun _ _ _ => rfl) (fun _ => rfl)
          w.glass e
      · rw [hnewest, hw, hoffers, List.append_nil]
      · rw [hnewest, Pacer.offer_newest, hw, hoffers, List.map_append, List.map_singleton,
          max?_concat]
  exact hfold {} rfl

/-- Present on arrival: the newest frame decoded is the one put up, and none waits, whenever there
is a layer placed for it; and until then it is the one that waits. -/
theorem newest_is_up (es : List Event) :
    ((run es).glass.slot.layer.isSome → (run es).glass.slot.fits = true →
        (run es).glass.slot.waiting = false) ∧
      ((run es).glass.slot.waiting = false →
        (run es).glass.book.pacer.shownPts = ((run es).offered.map FrameStamp.ptsUs).max?) ∧
      ((run es).glass.slot.waiting = true →
        (run es).glass.book.pacer.pending.map FrameStamp.ptsUs =
          ((run es).offered.map FrameStamp.ptsUs).max?) := by
  have hsound := run_sound es
  refine ⟨hsound.up, fun hwaiting => ?_, fun hwaiting => ?_⟩
  · rw [← run_newest, Pacer.newest]
    rw [hsound.waiting, Option.isSome_eq_false_iff, Option.isNone_iff_eq_none] at hwaiting
    rw [hwaiting]
    rfl
  · rw [← run_newest, Pacer.newest]
    rw [hsound.waiting] at hwaiting
    obtain ⟨stamp, hstamp⟩ := Option.isSome_iff_exists.mp hwaiting
    rw [hstamp]
    rfl


theorem present_accounted {g : Glass} (h : g.slot.waiting = g.book.pacer.pending.isSome)
    (thread : Nat) (now : Instant) :
    (g.present thread now).accounted + g.forgotten = g.accounted := by
  obtain ⟨heq, hcannot⟩ | ⟨⟨hlayer, hfits⟩, busy, flying, pacer, heq, hcase⟩ :=
    g.present_cases thread now
  · rw [heq, forgotten, if_neg fun hall => hcannot ⟨hall.1, hall.2.1⟩]
    rfl
  · rw [heq, accounted, accounted, forgotten]
    obtain ⟨hwaiting, rfl, rfl⟩ | ⟨hwaiting, rfl, ⟨hpending, -⟩ | ⟨booked, hpending, rfl⟩⟩ := hcase
    · rw [if_neg fun hall => absurd hall.2.2.1 (ne_true_of_eq_false hwaiting)]
      rfl
    · rw [hwaiting, hpending] at h
      cases h
    · have hpainted := Pacer.painted_accounted hpending now
      have hlen := length_pushRecent (n := flyingKept) (by decide) g.book.flying booked
      by_cases hfull : flyingKept ≤ g.book.flying.length
      · rw [if_pos ⟨hlayer, hfits, hwaiting, hfull⟩]
        rw [if_pos hfull] at hlen
        dsimp only
        omega
      · rw [if_neg fun hall => hfull hall.2.2.2]
        rw [if_neg hfull] at hlen
        dsimp only
        omega

theorem taken_accounted {g : Glass} (picture : Picture) (stamp : FrameStamp) (now : Instant)
    (hroom : g.accounted + g.book.pacer.lostInTransit stamp + 1 < 2 ^ 64) :
    (g.taken picture stamp now).1.accounted =
      g.accounted + g.book.pacer.lostInTransit stamp + 1 := by
  rw [accounted] at hroom
  have hoffer := Pacer.offer_accounted (p := g.book.pacer) stamp now (by omega)
  have htaken : (g.taken picture stamp now).1.accounted =
      (g.book.pacer.offer stamp now).1.accounted + g.book.flying.length := by
    rw [taken]
    dsimp only
    cases (g.book.pacer.offer stamp now).2 <;> rfl
  rw [htaken, hoffer, accounted]
  omega

/-- The frames lost on the way to an event's offer, and the offered one. -/
def arriving (g : Glass) (e : Event) : Nat :=
  ((g.offers e).map fun stamp => g.book.pacer.lostInTransit stamp + 1).sum

theorem offer_accounted {g : Glass} (h : g.slot.waiting = g.book.pacer.pending.isSome)
    (thread : Nat) (picture : Picture) (stamp : FrameStamp) (now : Instant)
    (hroom : g.accounted + g.book.pacer.lostInTransit stamp + 1 < 2 ^ 64) :
    (g.offer thread picture stamp now).accounted +
        (if (g.taken picture stamp now).2 = .present then (g.taken picture stamp now).1.forgotten
          else 0) =
      g.accounted + g.book.pacer.lostInTransit stamp + 1 := by
  have htaken := taken_accounted picture stamp now hroom
  rw [offer_eq]
  cases hpace : (g.taken picture stamp now).2 with
  | drop => exact htaken
  | present =>
    rw [if_neg (by decide), if_pos rfl,
      present_accounted (taken_waiting h picture stamp now) thread now]
    exact htaken

theorem took_flying (g : Glass) (busy : Presenting) (top : Option Nat) :
    (g.took busy top).book.flying.length + busy.refused top g.book.flying =
      g.book.flying.length := by
  unfold took Presenting.refused
  cases top with
  | some sequence => rfl
  | none =>
    cases busy.booked with
    | none => rfl
    | some booked =>
      have hsplit := List.length_eq_countP_add_countP (fun f : Flying => f.key == booked.key)
        (l := g.book.flying)
      have hkept : (g.book.flying.filter fun f => f.key != booked.key).length =
          g.book.flying.countP fun f => !(f.key == booked.key) := by
        rw [List.countP_eq_length_filter]
        rfl
      dsimp only
      rw [hkept]
      simp only [Bool.not_eq_true, Bool.decide_eq_false] at hsplit
      omega

theorem returned_accounted (g : Glass) (top lower : Option Nat) :
    (g.returned top lower).accounted + g.untimed (.returned top lower) = g.accounted := by
  rw [accounted, accounted, (returned_spec g top lower).1, returned, untimed]
  cases hbusy : g.busy with
  | none => rfl
  | some busy =>
    have hpaired := (paired_spec { g with busy := none, book := { g.book with presenting := none } }
      busy top lower).2.1
    have htook := took_flying (paired
      { g with busy := none, book := { g.book with presenting := none } } busy top lower) busy top
    rw [hpaired] at htook
    rw [Nat.add_assoc]
    exact congrArg (g.book.pacer.accounted + ·) htook

theorem reported_accounted {g : Glass} (hroom : g.accounted < 2 ^ 64) (thread : Nat)
    (key : Nat × Nat) (presentedAt : Option Instant) :
    (g.reported thread key presentedAt).accounted +
      g.untimed (.reported thread key presentedAt) = g.accounted := by
  rw [accounted] at hroom
  rw [accounted, accounted, reported, untimed]
  dsimp only
  obtain ⟨hnone, hpacer, hflying⟩ | ⟨found, flying, hat, hkey, hflying, hpacer⟩ :=
    reported_cases g.book thread key presentedAt
  · rw [hpacer, hflying, hnone, if_neg fun h => absurd h.2.2 Bool.false_ne_true]
    rfl
  · obtain ⟨hlt, hmem⟩ := List.getElem?_eq_some_iff.mp hat
    have hany : g.book.flying.any (fun f => f.key == key) = true :=
      List.any_eq_true.mpr ⟨flying, List.mem_of_getElem? hat, beq_iff_eq.mpr hkey⟩
    rw [hflying, List.length_eraseIdx_of_lt hlt, hpacer, hany]
    cases presentedAt with
    | some shown =>
      rw [Pacer.shown_accounted (by omega), if_neg fun h => Option.some_ne_none _ h.1]
      omega
    | none =>
      dsimp only
      by_cases hinside : g.book.presenting = some thread
      · rw [if_pos hinside, Pacer.unshown_accounted (by omega), if_neg fun h => h.2.1 hinside]
        omega
      · rw [if_neg hinside, if_pos ⟨rfl, hinside, rfl⟩]
        omega

/-- Each event accounts for the frames that arrive by it: shown, skipped, late, waiting, on their
way, or never timed. -/
theorem step_accounted {g : Glass} (h : g.Sound) (e : Event)
    (hroom : g.accounted + g.arriving e < 2 ^ 64) :
    (g.step e).accounted + g.untimed e = g.accounted + g.arriving e := by
  cases e with
  | offer thread picture stamp now =>
    rw [step, untimed]
    rw [arriving, offers] at hroom ⊢
    split
    · rfl
    · rename_i hbusy
      rw [if_neg hbusy] at hroom
      exact offer_accounted h.waiting thread picture stamp now hroom
  | attach thread now =>
    rw [step, untimed]
    split
    · rfl
    · exact present_accounted (g := g.attached) h.waiting thread now
  | attachLower thread now =>
    rw [step, untimed]
    split
    · rfl
    · exact present_accounted (g := g.attachedLower) h.waiting thread now
  | place thread placed now =>
    rw [step, untimed]
    split
    · rfl
    · rw [place]
      cases hmoved : g.slot.placed.any (· != placed) with
      | false => rfl
      | true =>
        rw [if_pos rfl, Bool.true_and]
        cases hwaiting : g.slot.waiting with
        | true =>
          rw [if_pos rfl]
          exact present_accounted (g := g.replaced placed) h.waiting thread now
        | false =>
          rw [if_neg Bool.false_ne_true, forgotten,
            if_neg fun hall => absurd hall.2.2.1 (ne_true_of_eq_false hwaiting)]
          rfl
  | detach =>
    rw [step]
    split <;> rfl
  | returned top lower => exact returned_accounted g top lower
  | reported thread key presentedAt => exact reported_accounted (by omega) thread key presentedAt
  | reportedLower key presentedAt =>
    rw [step, reportedLower, accounted]
    dsimp only
    obtain ⟨hpacer, hflying, -⟩ := stripeShown_spec g.book .lower key presentedAt
    rw [hpacer, hflying]
    rfl


/-- Numbered as the decoder hands them out, the frames offered are accounted for up to the last. -/
structure Accounts (w : Watched) : Prop where
  lastSeq : w.glass.book.pacer.lastSeq = (w.offered.map FrameStamp.decodeSeq).getLast?
  sum : w.glass.accounted + w.untimed + (w.offered.map FrameStamp.decodeSeq).headD 0 =
    ((w.offered.map FrameStamp.decodeSeq).getLast?.map (· + 1)).getD 0

theorem Accounts.room {w : Watched} (h : Accounts w)
    (hroom : ∀ stamp ∈ w.offered, stamp.decodeSeq + 1 < 2 ^ 64) : w.glass.accounted < 2 ^ 64 := by
  have hsum := h.sum
  rw [List.getLast?_map, Option.map_map] at hsum
  cases hlast : w.offered.getLast? with
  | none =>
    rw [hlast, Option.map_none, Option.getD_none] at hsum
    omega
  | some last =>
    have hle := hroom last (List.mem_of_getLast? hlast)
    rw [hlast, Option.map_some, Option.getD_some, Function.comp_apply] at hsum
    omega

/-- One frame more, numbered after all the others, is accounted for with those lost before it. -/
theorem Accounts.concat {accounted lost seq : Nat} {seqs : List Nat}
    (hlost : lost = (seqs.getLast?.map fun last => seq - last - 1).getD 0)
    (hlt : ∀ last, seqs.getLast? = some last → last < seq)
    (hsum : accounted + seqs.headD 0 = (seqs.getLast?.map (· + 1)).getD 0) :
    accounted + (lost + 1) + (seqs ++ [seq]).headD 0 = seq + 1 := by
  cases seqs with
  | nil =>
    rw [List.headD_nil, List.getLast?_nil, Option.map_none, Option.getD_none] at hsum
    rw [List.getLast?_nil, Option.map_none, Option.getD_none] at hlost
    rw [List.nil_append, List.headD_cons]
    omega
  | cons first rest =>
    obtain ⟨last, hlast⟩ := Option.isSome_iff_exists.mp
      (List.getLast?_isSome.mpr (List.cons_ne_nil first rest))
    rw [hlast, Option.map_some, Option.getD_some] at hsum hlost
    rw [List.headD_cons] at hsum
    rw [List.cons_append, List.headD_cons]
    have := hlt last hlast
    omega

theorem Accounts.step {w : Watched} (h : Accounts w) (hsound : w.glass.Sound) {e : Event}
    (hsorted : ((w.step e).offered.map FrameStamp.decodeSeq).Pairwise (· < ·))
    (hroom : ∀ stamp ∈ (w.step e).offered, stamp.decodeSeq + 1 < 2 ^ 64) :
    Accounts (w.step e) := by
  obtain ⟨hlast, hsum⟩ := h
  have haccounted := step_accounted hsound e
  rw [Watched.step] at hsorted hroom ⊢
  rw [arriving] at haccounted
  have hnow := Accounts.room ⟨hlast, hsum⟩ fun stamp hstamp =>
    hroom stamp (List.mem_append_left _ hstamp)
  obtain ⟨hoffers, hseq⟩ | ⟨stamp, now, hoffers, hseq⟩ :=
    step_keeps (f := Pacer.lastSeq) (fun p _ => by rw [Pacer.painted]; cases p.pending <;> rfl)
      (fun _ _ _ => rfl) (fun _ => rfl) w.glass e
  · rw [hoffers, List.map_nil, List.sum_nil] at haccounted
    have hsame := haccounted hnow
    refine ⟨?_, ?_⟩ <;> dsimp only <;> rw [hoffers, List.append_nil]
    · exact hseq.trans hlast
    · omega
  · rw [hoffers, List.map_singleton, List.sum_singleton] at haccounted
    rw [hoffers] at hsorted hroom
    have hbound := hroom stamp (List.mem_append_right _ List.mem_cons_self)
    rw [List.map_append, List.map_singleton] at hsorted
    have hlt : ∀ last, (w.offered.map FrameStamp.decodeSeq).getLast? = some last →
        last < stamp.decodeSeq := fun last hl =>
      (List.pairwise_append.mp hsorted).2.2 last (List.mem_of_getLast? hl) _ List.mem_cons_self
    have hlost : w.glass.book.pacer.lostInTransit stamp =
        ((w.offered.map FrameStamp.decodeSeq).getLast?.map
          fun last => stamp.decodeSeq - last - 1).getD 0 := by
      rw [Pacer.lostInTransit, hlast]
      cases (w.offered.map FrameStamp.decodeSeq).getLast? <;> rfl
    have hconcat := Accounts.concat hlost hlt hsum
    have hsame := haccounted (by omega)
    refine ⟨?_, ?_⟩ <;> dsimp only <;>
      rw [hoffers, List.map_append, List.map_singleton, List.getLast?_concat]
    · rw [hseq, Pacer.offer_eq, hlast]
      dsimp only
      cases hl : (w.offered.map FrameStamp.decodeSeq).getLast? with
      | none => rw [Option.getD_none, Nat.max_zero]
      | some last => rw [Option.getD_some, max_eq_left (hlt last hl).le]
    · rw [Option.map_some, Option.getD_some]
      omega

theorem run_accounts (es : List Event)
    (hsorted : ((run es).offered.map FrameStamp.decodeSeq).Pairwise (· < ·))
    (hroom : ∀ stamp ∈ (run es).offered, stamp.decodeSeq + 1 < 2 ^ 64) : Accounts (run es) := by
  induction es using List.reverseRecOn with
  | nil => exact ⟨rfl, rfl⟩
  | append_singleton es e ih =>
    have hstep : run (es ++ [e]) = (run es).step e := List.foldl_concat ..
    rw [hstep] at hsorted hroom ⊢
    refine Accounts.step (ih ?_ fun stamp hstamp => ?_) (run_sound es) hsorted hroom
    · rw [Watched.step, List.map_append] at hsorted
      exact (List.pairwise_append.mp hsorted).1
    · exact hroom stamp (List.mem_append_left _ hstamp)

/-- Whatever the layers, the view and the decoder do at once, every frame decoded since the first
one offered is accounted for, once: shown, skipped, late, waiting, on its way to the glass, or put
up and never timed. -/
theorem every_frame_accounted (es : List Event) (first last : FrameStamp)
    (hfirst : (run es).offered.head? = some first) (hlast : (run es).offered.getLast? = some last)
    (hsorted : ((run es).offered.map FrameStamp.decodeSeq).Pairwise (· < ·))
    (hroom : last.decodeSeq + 1 < 2 ^ 64) :
    (run es).glass.book.pacer.counters.presented + (run es).glass.book.pacer.counters.skipped +
        (run es).glass.book.pacer.counters.late +
        (if (run es).glass.book.pacer.pending.isSome then 1 else 0) +
        (run es).glass.book.flying.length + (run es).untimed + first.decodeSeq =
      last.decodeSeq + 1 := by
  have hle : ∀ stamp ∈ (run es).offered, stamp.decodeSeq ≤ last.decodeSeq := by
    obtain ⟨before, heq⟩ := List.getLast?_eq_some_iff.mp hlast
    rw [heq] at hsorted ⊢
    intro stamp hstamp
    rcases List.mem_append.mp hstamp with hstamp | hstamp
    · rw [List.map_append] at hsorted
      exact ((List.pairwise_append.mp hsorted).2.2 _ (List.mem_map_of_mem hstamp) _
        (List.mem_map_of_mem List.mem_cons_self)).le
    · rw [List.mem_singleton.mp hstamp]
  have hsum := (run_accounts es hsorted fun stamp hstamp =>
    Nat.lt_of_le_of_lt (Nat.succ_le_succ (hle stamp hstamp)) hroom).sum
  rw [List.getLast?_map, hlast, List.headD_eq_head?_getD, List.head?_map, hfirst] at hsum
  exact hsum


theorem every_frame_accounted_replaced :
    let es : List Event :=
      [.offer 1 ⟨⟨8, 8⟩, none, none⟩ ⟨1, 0, 0, 0, none⟩ 0, .attach 0 1, .returned (some 0) none,
        .offer 1 ⟨⟨8, 8⟩, none, none⟩ ⟨2, 1, 0, 0, none⟩ 2, .reported 2 (1, 0) (some 3),
        .returned (some 1) none, .offer 1 ⟨⟨8, 8⟩, none, none⟩ ⟨3, 3, 0, 0, none⟩ 4]
    (run es).glass.book.pacer.counters.presented + (run es).glass.book.pacer.counters.skipped +
        (run es).glass.book.pacer.counters.late +
        (if (run es).glass.book.pacer.pending.isSome then 1 else 0) +
        (run es).glass.book.flying.length + (run es).untimed + 0 = 3 + 1 :=
  every_frame_accounted _ ⟨1, 0, 0, 0, none⟩ ⟨3, 3, 0, 0, none⟩ rfl rfl (by decide) (by decide)


end Glass

end Slopty.Screen
