import Slopty.Lib.SwapRemove

/-!
Whose terminal history is compressed next. Sessions take turns, one at a time across the worker, and
the session that holds the most memory goes first. A turn travels through a oneshot channel, whose
receiver may be dropped before it comes, while it is in there, or never.
-/

namespace Slopty.Session.Compress

open Slopty.Lib

abbrev SessionId := Nat

/-- A oneshot channel. -/
abbrev Chan := Nat

structure Waiter where
  id : SessionId
  residentBytes : Nat
  grant : Chan
  deriving DecidableEq, Repr

structure Queue where
  /-- A turn is out. -/
  busy : Bool
  waiting : List Waiter
  deriving DecidableEq, Repr

/-- Who has the queue's lock. -/
inductive Holder where
  | nobody
  /-- An `ask`, which has looked at so many of those waiting. -/
  | ask (request : Waiter) (looked : Nat)
  /-- A `release`, with those that waited when it began. -/
  | release (began : List Waiter)
  deriving DecidableEq, Repr

/-- The queue, its channels, and the turns there are. -/
structure World where
  queue : Queue := ⟨false, []⟩
  holder : Holder := .nobody
  /-- The channels whose receiver is there. -/
  receivers : List Chan := []
  /-- Those that a turn was sent on and not read. -/
  sent : List Chan := []
  /-- Turns read off a channel. -/
  held : List Chan := []
  /-- Turns that are dropped, and wait for the queue to hand theirs on. -/
  dropped : List Chan := []
  nextChan : Chan := 0
  deriving DecidableEq, Repr

inductive Act where
  | ask (id : SessionId) (residentBytes : Nat)
  /-- Whoever has the queue goes on. -/
  | goOn
  | read (c : Chan)
  | dropReceiver (c : Chan)
  | dropTurn (c : Chan)
  /-- A turn that is dropped gets the queue. -/
  | release (c : Chan)
  deriving DecidableEq, Repr

/-- Where the largest waiter stands: the last of those as large. -/
def largest : List Waiter → Option Nat
  | [] => none
  | w :: rest =>
      match largest rest with
      | none => some 0
      | some i =>
          if (rest[i]?.map Waiter.residentBytes).getD 0 < w.residentBytes then some 0
          else some (i + 1)

namespace World

/-- `is_closed` of a waiter's sender. -/
def isClosed (w : World) (waiter : Waiter) : Bool := decide (waiter.grant ∉ w.receivers)

def setWaiting (w : World) (waiting : List Waiter) : World :=
  { w with queue := { w.queue with waiting := waiting } }

/-- Send a turn on a waiter's channel: the queue is let go with the turn out. -/
def send (w : World) (waiter : Waiter) : World :=
  { w with
    queue := { w.queue with busy := true }
    sent := waiter.grant :: w.sent
    holder := .nobody }

/-- An `ask` looks at the next of those waiting, or, past the last, waits or gets the turn. -/
def goOnAsking (w : World) (request : Waiter) (looked : Nat) : World :=
  match w.queue.waiting[looked]? with
  | some other =>
      if other.id ≠ request.id ∧ ¬ w.isClosed other then
        { w with holder := .ask request (looked + 1) }
      else w.setWaiting (w.queue.waiting.eraseIdx looked)
  | none =>
      if w.queue.busy then
        { w.setWaiting (w.queue.waiting ++ [request]) with holder := .nobody }
      else if w.isClosed request then { w with holder := .nobody }
      else w.send request

/-- A `release` tries the largest of those waiting; with none left no turn is out. -/
def goOnReleasing (w : World) : World :=
  match largest w.queue.waiting with
  | some i =>
      let left := w.setWaiting (swapRemove w.queue.waiting i)
      match w.queue.waiting[i]? with
      | some waiter => if w.isClosed waiter then left else left.send waiter
      | none => left
  | none => { w with queue := { w.queue with busy := false }, holder := .nobody }

/-- One step of the sessions' threads; what cannot happen leaves all as it is. -/
def step (w : World) : Act → World
  | .ask id residentBytes =>
      if w.holder = .nobody then
        { w with
          receivers := w.nextChan :: w.receivers
          nextChan := w.nextChan + 1
          holder := .ask ⟨id, residentBytes, w.nextChan⟩ 0 }
      else w
  | .goOn =>
      match w.holder with
      | .nobody => w
      | .ask request looked => w.goOnAsking request looked
      | .release _ => w.goOnReleasing
  | .read c =>
      if c ∈ w.receivers ∧ c ∈ w.sent then
        { w with
          receivers := w.receivers.erase c
          sent := w.sent.erase c
          held := c :: w.held }
      else w
  | .dropReceiver c =>
      if c ∈ w.receivers then
        -- a turn in the channel goes with its receiver
        { w with
          receivers := w.receivers.erase c
          sent := w.sent.erase c
          dropped := if c ∈ w.sent then c :: w.dropped else w.dropped }
      else w
  | .dropTurn c =>
      if c ∈ w.held then { w with held := w.held.erase c, dropped := c :: w.dropped } else w
  | .release c =>
      if c ∈ w.dropped ∧ w.holder = .nobody then
        { w with dropped := w.dropped.erase c, holder := .release w.queue.waiting }
      else w

/-- A worker's turns after some steps. -/
def run (acts : List Act) : World := acts.foldl step {}

end World

theorem largest_eq_none {l : List Waiter} : largest l = none ↔ l = [] := by
  cases l with
  | nil => simp [largest]
  | cons w rest =>
    rw [largest]
    cases largest rest with
    | none => simp
    | some i =>
      simp only [reduceCtorEq, iff_false]
      split <;> simp

theorem largest_spec {l : List Waiter} {i : Nat} (h : largest l = some i) :
    ∃ x, l[i]? = some x ∧ ∀ y ∈ l, y.residentBytes ≤ x.residentBytes := by
  induction l generalizing i with
  | nil => exact absurd h nofun
  | cons w rest ih =>
    rw [largest] at h
    cases hrest : largest rest with
    | none =>
      rw [hrest] at h
      obtain rfl := Option.some.inj h
      rw [largest_eq_none.mp hrest]
      exact ⟨w, rfl, fun y hy => (List.mem_singleton.mp hy) ▸ Nat.le_refl _⟩
    | some j =>
      obtain ⟨x, hx, hmost⟩ := ih hrest
      rw [hrest] at h
      simp only [hx, Option.map_some, Option.getD_some] at h
      split at h
      · rename_i hless
        obtain rfl := Option.some.inj h
        refine ⟨w, rfl, List.forall_mem_cons.mpr ⟨Nat.le_refl _, fun y hy => ?_⟩⟩
        exact Nat.le_trans (hmost y hy) (Nat.le_of_lt hless)
      · rename_i hmore
        obtain rfl := Option.some.inj h
        exact ⟨x, hx, List.forall_mem_cons.mpr ⟨Nat.le_of_not_lt hmore, hmost⟩⟩

namespace World

/-- Whether a release has the queue. -/
def releasing (w : World) : Nat :=
  match w.holder with
  | .release _ => 1
  | _ => 0

structure Inv (w : World) : Prop where
  /-- A turn is in a channel, held, or being handed on, and no more than one. -/
  turns : w.sent.length + w.held.length + w.dropped.length + w.releasing = w.queue.busy.toNat
  idle : w.queue.busy = false → w.queue.waiting = []
  readable : ∀ c ∈ w.sent, c ∈ w.receivers
  kept : ∀ began, w.holder = .release began → ∀ x ∈ w.queue.waiting, x ∈ began
  passed : ∀ began, w.holder = .release began →
    ∀ x ∈ began, x ∈ w.queue.waiting ∨ x.grant ∉ w.receivers

variable {w : World}

theorem inv_init : Inv {} :=
  ⟨rfl, fun _ => rfl, fun _ h => absurd h List.not_mem_nil, fun _ h => absurd h nofun,
    fun _ h => absurd h nofun⟩

theorem isClosed_iff {x : Waiter} : w.isClosed x = true ↔ x.grant ∉ w.receivers := by
  rw [isClosed, decide_eq_true_iff]

/-- While nothing is out a turn that is sent is the only one. -/
theorem Inv.send {x : Waiter} (hopen : x.grant ∈ w.receivers) (hsent : w.sent = [])
    (hheld : w.held = []) (hdropped : w.dropped = []) : (w.send x).Inv where
  turns := by
    simp [World.send, releasing, hsent, hheld, hdropped]
  idle h := absurd h nofun
  readable c hc := by
    rw [World.send, hsent] at hc
    obtain rfl := List.mem_singleton.mp hc
    exact hopen
  kept _ h := absurd h nofun
  passed _ h := absurd h nofun

/-- While a release has the queue, its turn is the only one. -/
theorem Inv.of_release {began : List Waiter} (h : w.Inv) (hholder : w.holder = .release began) :
    w.queue.busy = true ∧ w.sent = [] ∧ w.held = [] ∧ w.dropped = [] := by
  have hturns := h.turns
  rw [releasing, hholder] at hturns
  simp only at hturns
  have hbusy : w.queue.busy = true := by
    cases hb : w.queue.busy with
    | true => rfl
    | false =>
      rw [hb] at hturns
      exact absurd hturns (by simp)
  rw [hbusy, Bool.toNat_true] at hturns
  exact ⟨hbusy, List.length_eq_zero_iff.mp (by omega), List.length_eq_zero_iff.mp (by omega),
    List.length_eq_zero_iff.mp (by omega)⟩

theorem Inv.of_idle (h : w.Inv) (hbusy : w.queue.busy = false) :
    w.sent = [] ∧ w.held = [] ∧ w.dropped = [] ∧ w.queue.waiting = [] := by
  have hturns := h.turns
  rw [hbusy, Bool.toNat_false] at hturns
  exact ⟨List.length_eq_zero_iff.mp (by omega), List.length_eq_zero_iff.mp (by omega),
    List.length_eq_zero_iff.mp (by omega), h.idle hbusy⟩

/-- An `ask` goes on: it looks at one more of those waiting, or it waits while a turn is out, or it
gets the turn that nobody has. -/
def Asks (w : World) (request : Waiter) (looked : Nat) (after : World) : Prop :=
  (∃ looked', after.holder = .ask request looked' ∧
      after.queue.waiting.length - looked' < w.queue.waiting.length - looked) ∨
    after.holder = .nobody ∧
      (w.queue.busy = true ∧ request ∈ after.queue.waiting ∨
        w.queue.busy = false ∧ request.grant ∈ w.receivers ∧ after.sent = [request.grant] ∨
        request.grant ∉ w.receivers)

theorem goOnAsking_spec {request : Waiter} {looked : Nat} (h : w.Inv)
    (hholder : w.holder = .ask request looked) :
    (w.goOnAsking request looked).Inv ∧ w.Asks request looked (w.goOnAsking request looked) := by
  unfold goOnAsking
  have hreleasing : w.releasing = 0 := by rw [releasing, hholder]
  have hturns := h.turns
  rw [hreleasing] at hturns
  cases hget : w.queue.waiting[looked]? with
  | some other =>
    obtain ⟨hlt, -⟩ := List.getElem?_eq_some_iff.mp hget
    simp only
    split
    · refine ⟨⟨hturns, h.idle, h.readable, fun _ h => absurd h nofun, fun _ h => absurd h nofun⟩, ?_⟩
      refine Or.inl ⟨looked + 1, rfl, ?_⟩
      simp only
      omega
    · refine ⟨⟨h.turns, fun hbusy => ?_, h.readable, ?_, ?_⟩, ?_⟩
      · rw [h.idle hbusy] at hget
        exact absurd hget nofun
      · intro began hbegan
        rw [setWaiting, hholder] at hbegan
        exact absurd hbegan nofun
      · intro began hbegan
        rw [setWaiting, hholder] at hbegan
        exact absurd hbegan nofun
      · refine Or.inl ⟨looked, hholder, ?_⟩
        simp only [setWaiting, List.length_eraseIdx_of_lt hlt]
        omega
  | none =>
    simp only
    split
    · rename_i hbusy
      refine ⟨⟨hturns, fun hidle => absurd (hbusy.symm.trans hidle) nofun, h.readable,
        fun _ h => absurd h nofun, fun _ h => absurd h nofun⟩, Or.inr ⟨rfl, Or.inl ⟨hbusy, ?_⟩⟩⟩
      exact List.mem_append_right _ List.mem_cons_self
    · rename_i hbusy
      have hidle : w.queue.busy = false := Bool.eq_false_iff.mpr hbusy
      obtain ⟨hsent, hheld, hdropped, -⟩ := h.of_idle hidle
      split
      · rename_i hclosed
        exact ⟨⟨hturns, h.idle, h.readable, fun _ h => absurd h nofun, fun _ h => absurd h nofun⟩,
          Or.inr ⟨rfl, Or.inr (Or.inr (isClosed_iff.mp hclosed))⟩⟩
      · rename_i hopen
        have hopen : request.grant ∈ w.receivers := by
          by_contra hnot
          exact hopen (isClosed_iff.mpr hnot)
        refine ⟨Inv.send hopen hsent hheld hdropped, Or.inr ⟨rfl, Or.inr (Or.inl ⟨hidle, hopen, ?_⟩)⟩⟩
        rw [World.send, hsent]

/-- A release goes on: its turn goes to the largest of those whose receiver is still there, or one is
passed over, or it finds that nobody is there. -/
def HandsOn (w : World) (began : List Waiter) (after : World) : Prop :=
  (∃ x ∈ began, x.grant ∈ w.receivers ∧
      (∀ y ∈ began, y.grant ∈ w.receivers → y.residentBytes ≤ x.residentBytes) ∧
      after.sent = [x.grant] ∧ after.queue.busy = true ∧ after.holder = .nobody) ∨
    (after.holder = .release began ∧
      after.queue.waiting.length < w.queue.waiting.length) ∨
    ((∀ y ∈ began, y.grant ∉ w.receivers) ∧ after.queue = ⟨false, []⟩ ∧ after.holder = .nobody)

theorem goOnReleasing_spec {began : List Waiter} (h : w.Inv) (hholder : w.holder = .release began) :
    w.goOnReleasing.Inv ∧ w.HandsOn began w.goOnReleasing := by
  obtain ⟨hbusy, hsent, hheld, hdropped⟩ := h.of_release hholder
  unfold goOnReleasing
  cases hlargest : largest w.queue.waiting with
  | none =>
    have hnone : w.queue.waiting = [] := largest_eq_none.mp hlargest
    refine ⟨⟨?_, fun _ => hnone, h.readable, fun _ h => absurd h nofun, fun _ h => absurd h nofun⟩, ?_⟩
    · simp [releasing, hsent, hheld, hdropped]
    · refine Or.inr (Or.inr ⟨fun y hy => ?_, congrArg (Queue.mk false) hnone, rfl⟩)
      refine (h.passed began hholder y hy).resolve_left ?_
      rw [hnone]
      exact List.not_mem_nil
  | some i =>
    obtain ⟨x, hx, hmost⟩ := largest_spec hlargest
    obtain ⟨hi, -⟩ := List.getElem?_eq_some_iff.mp hx
    simp only [hx]
    split
    · rename_i hclosed
      refine ⟨⟨h.turns, fun hidle => absurd (hbusy.symm.trans hidle) nofun, h.readable, ?_, ?_⟩, ?_⟩
      · intro began' hbegan y hy
        exact h.kept began' hbegan y (mem_of_mem_swapRemove hi hy)
      · intro began' hbegan y hy
        rcases h.passed began' hbegan y hy with hwaits | hgone
        · rcases eq_or_ne y x with rfl | hne
          · exact Or.inr (isClosed_iff.mp hclosed)
          · refine Or.inl ((swapRemove_perm hi).mem_iff.mpr ?_)
            refine List.mem_eraseIdx_iff_getElem?.mpr ?_
            obtain ⟨j, hj⟩ := List.mem_iff_getElem?.mp hwaits
            refine ⟨j, ?_, hj⟩
            rintro rfl
            exact hne (Option.some.inj (hj.symm.trans hx))
        · exact Or.inr hgone
      · refine Or.inr (Or.inl ⟨hholder, ?_⟩)
        simp only [setWaiting, (swapRemove_perm hi).length_eq, List.length_eraseIdx_of_lt hi]
        omega
    · rename_i hopen
      have hopen : x.grant ∈ w.receivers := by
        by_contra hnot
        exact hopen (isClosed_iff.mpr hnot)
      refine ⟨Inv.send hopen hsent hheld hdropped, Or.inl ⟨x, ?_, hopen, ?_, ?_, rfl, rfl⟩⟩
      · exact h.kept began hholder x (List.mem_of_getElem? hx)
      · intro y hy hthere
        exact hmost y ((h.passed began hholder y hy).resolve_right fun hgone => hgone hthere)
      · simp only [World.send, setWaiting, hsent]

/-- What a step leaves, where the turns that there are only moved. -/
theorem Inv.moved (h : w.Inv) {after : World} (hqueue : after.queue = w.queue)
    (hturns : after.sent.length + after.held.length + after.dropped.length + after.releasing =
      w.sent.length + w.held.length + w.dropped.length + w.releasing)
    (hreadable : ∀ c ∈ after.sent, c ∈ after.receivers)
    (hrelease : ∀ began, after.holder = .release began →
      (w.holder = .release began ∨ began = w.queue.waiting) ∧
        ∀ c ∈ after.receivers, c ∈ w.receivers) : after.Inv where
  turns := by rw [hturns, hqueue, h.turns]
  idle := by
    rw [hqueue]
    exact h.idle
  readable := hreadable
  kept := by
    intro began hbegan
    rw [hqueue]
    rcases (hrelease began hbegan).1 with hold | rfl
    · exact h.kept began hold
    · exact fun _ hx => hx
  passed := by
    intro began hbegan x hx
    rw [hqueue]
    obtain ⟨hold | rfl, hfewer⟩ := hrelease began hbegan
    · exact (h.passed began hold x hx).imp_right fun hgone hthere => hgone (hfewer _ hthere)
    · exact Or.inl hx

/-- A turn in a channel is the only one there. -/
theorem Inv.sent_eq (h : w.Inv) {c : Chan} (hc : c ∈ w.sent) : w.sent = [c] := by
  have hturns := h.turns
  have hpos := List.length_pos_of_mem hc
  have hone : w.sent.length = 1 := by
    have := Bool.toNat_le w.queue.busy
    omega
  obtain ⟨d, hd⟩ := List.length_eq_one_iff.mp hone
  rw [hd] at hc ⊢
  rw [List.mem_singleton.mp hc]

theorem Inv.readable_erase (h : w.Inv) (c : Chan) :
    ∀ d ∈ w.sent.erase c, d ∈ w.receivers.erase c := by
  intro d hd
  have hmem := List.mem_of_mem_erase hd
  rw [h.sent_eq hmem] at hd
  have hne : d ≠ c := by
    rintro rfl
    rw [List.erase_cons_head] at hd
    exact absurd hd List.not_mem_nil
  exact (List.mem_erase_of_ne hne).mpr (h.readable d hmem)

theorem Inv.step (h : w.Inv) (act : Act) : (w.step act).Inv := by
  cases act with
  | ask id residentBytes =>
    rw [World.step]
    split
    · rename_i hholder
      have hreleasing : w.releasing = 0 := by rw [releasing, hholder]
      refine h.moved rfl ?_ (fun c hc => List.mem_cons_of_mem _ (h.readable c hc))
        fun began hbegan => absurd hbegan nofun
      rw [hreleasing]
      rfl
    · exact h
  | goOn =>
    rw [World.step]
    split
    · exact h
    · rename_i request looked hholder
      exact (goOnAsking_spec h hholder).1
    · rename_i began hholder
      exact (goOnReleasing_spec h hholder).1
  | read c =>
    rw [World.step]
    split
    · rename_i hthere
      refine h.moved rfl ?_ (h.readable_erase c) fun began hbegan =>
        ⟨Or.inl hbegan, fun d hd => List.mem_of_mem_erase hd⟩
      have := List.length_erase_add_one hthere.2
      simp only [releasing, List.length_cons]
      omega
    · exact h
  | dropReceiver c =>
    rw [World.step]
    split
    · refine h.moved rfl ?_ (h.readable_erase c) fun began hbegan =>
        ⟨Or.inl hbegan, fun d hd => List.mem_of_mem_erase hd⟩
      by_cases hsent : c ∈ w.sent
      · have := List.length_erase_add_one hsent
        simp only [releasing, if_pos hsent, List.length_cons]
        omega
      · simp only [releasing, if_neg hsent, List.erase_of_not_mem hsent]
    · exact h
  | dropTurn c =>
    rw [World.step]
    split
    · rename_i hheld
      refine h.moved rfl ?_ h.readable fun began hbegan => ⟨Or.inl hbegan, fun _ hd => hd⟩
      have := List.length_erase_add_one hheld
      simp only [releasing, List.length_cons]
      omega
    · exact h
  | release c =>
    rw [World.step]
    split
    · rename_i hready
      have hreleasing : w.releasing = 0 := by rw [releasing, hready.2]
      refine h.moved rfl ?_ h.readable fun began hbegan => ⟨Or.inr ?_, fun _ hd => hd⟩
      · have := List.length_erase_add_one hready.1
        rw [hreleasing]
        simp only [releasing]
        omega
      · exact (Holder.release.inj hbegan).symm
    · exact h

theorem inv_run (acts : List Act) : (run acts).Inv :=
  acts.foldlRecOn step inv_init fun _ h act _ => h.step act

/-- Whatever the sessions do and in whatever order: no more than one turn is in a channel or held,
the queue is busy exactly while one is or is being handed on, and whenever a session waits. A turn in
a channel can be read; one that is dropped is handed on, to the largest of those whose receiver is
still there, or nobody is; and whoever asks gets the turn when nobody has it. -/
theorem one_turn_at_a_time (acts : List Act) :
    let w := run acts
    w.sent.length + w.held.length ≤ 1 ∧
      (w.queue.busy = true ↔
        w.sent ≠ [] ∨ w.held ≠ [] ∨ w.dropped ≠ [] ∨ ∃ began, w.holder = .release began) ∧
      w.sent.length + w.held.length + w.dropped.length + w.releasing ≤ 1 ∧
      (∀ x ∈ w.queue.waiting, w.queue.busy = true) ∧
      (∀ c ∈ w.sent, c ∈ w.receivers) ∧
      (∀ began, w.holder = .release began → w.HandsOn began (w.step .goOn)) ∧
      ∀ request looked, w.holder = .ask request looked →
        w.Asks request looked (w.step .goOn) := by
  intro w
  have h : w.Inv := inv_run acts
  have hturns := h.turns
  have hle := Bool.toNat_le w.queue.busy
  refine ⟨by omega, ?_, by omega, ?_, h.readable, ?_, ?_⟩
  · constructor
    · intro hbusy
      by_contra hnone
      simp only [not_or, not_exists, not_not] at hnone
      obtain ⟨hsent, hheld, hdropped, hholder⟩ := hnone
      have hreleasing : w.releasing = 0 := by
        rw [releasing]
        split
        · rename_i began hbegan
          exact absurd hbegan (hholder began)
        · rfl
      rw [hsent, hheld, hdropped, hreleasing, hbusy] at hturns
      exact absurd hturns (by decide)
    · intro hsome
      by_contra hnot
      obtain ⟨hsent, hheld, hdropped, -⟩ := h.of_idle (Bool.eq_false_iff.mpr hnot)
      rcases hsome with hout | hout | hout | ⟨began, hholder⟩
      · exact hout hsent
      · exact hout hheld
      · exact hout hdropped
      · exact hnot (h.of_release hholder).1
  · intro x hx
    by_contra hnot
    rw [h.idle (Bool.eq_false_iff.mpr hnot)] at hx
    exact absurd hx List.not_mem_nil
  · intro began hholder
    have hspec := (goOnReleasing_spec h hholder).2
    simpa only [World.step, hholder] using hspec
  · intro request looked hholder
    have hspec := (goOnAsking_spec h hholder).2
    simpa only [World.step, hholder] using hspec

end World

end Slopty.Session.Compress
