import Slopty.Lib.Run
import Slopty.Media.Report

/-!
How often a frame is asked for. The count of a slot bounds the NACKs of its
frame as long as no slot is opened for a frame asked for before; a slot that
only waited forgets its count when the first fragment comes.
-/

namespace Slopty.Media.Reassemble

open Slopty.Lib
open Slopty.Media.Fec
open Slopty.Media.Wire
open Slopty.Media.Packetize
open Reassembler (TickClock tickVerdict tickSlot asked)

/-- It asks for fragments of `frame`. -/
def Action.asksFor (frame : Nat) : Action → Bool
  | .nack f _ => f == frame
  | .requestRefresh _ _ => false

/-- A reassembler, the NACKs it gave its owner for each frame, and how many of
them it gave while the frame's slot said nothing refers to it. -/
structure Asking where
  reassembler : Reassembler
  nacks : Nat → Nat
  idle : Nat → Nat

namespace Asking

def start (stream : UInt32) (cfg : Config) (now : Instant) : Asking where
  reassembler := .new stream cfg now
  nacks := fun _ => 0
  idle := fun _ => 0

/-- The frame is still waited for, and known to be one nothing refers to. -/
def known (s : Asking) (frame : Nat) : Bool :=
  (s.reassembler.frames.get? frame).any Slot.discardable

def step (rs : ReedSolomon) (s : Asking) : Op → Asking
  | .tick now rtt =>
      let (r, actions) := s.reassembler.tick now rtt
      { reassembler := r
        nacks := fun f => s.nacks f + actions.countP (Action.asksFor f)
        idle := fun f =>
          if s.known f then s.idle f + actions.countP (Action.asksFor f) else s.idle f }
  | op => { s with reassembler := Reassemble.step rs s.reassembler op }

def run (rs : ReedSolomon) (s : Asking) (ops : List Op) : Asking := ops.foldl (step rs) s

def OpensUnasked (s : Asking) : Op → Prop
  | .ingest datagram _ => ∀ k ∈ s.reassembler.openedBy datagram, s.nacks k = 0
  | _ => True

instance (s : Asking) : ∀ op, Decidable (s.OpensUnasked op)
  | .ingest datagram _ =>
      inferInstanceAs (Decidable (∀ k ∈ s.reassembler.openedBy datagram, s.nacks k = 0))
  | .tick _ _ | .forceRefresh _ _ | .setSourceLive _ | .nextFrame => isTrue trivial

/-- The slots know how often their frames were asked for. -/
structure Counted (s : Asking) : Prop where
  bound : ∀ f, s.nacks f ≤ s.reassembler.cfg.nackRetries
  tries : ∀ k slot n, s.reassembler.frames.get? k = some slot → slot.tries = some n → s.nacks k = n
  once : ∀ f, s.idle f ≤ 1
  only : ∀ f, 0 < s.idle f → s.nacks f = 1
  stays : ∀ k slot n, s.reassembler.frames.get? k = some slot → slot.tries = some n →
    0 < s.idle k → slot.discardable = true

theorem Counted.books {s : Asking} (hs : Counted s) {opened : Nat → Prop} {t : Reassembler}
    (h : Books opened s.reassembler t) (hopened : ∀ k, opened k → s.nacks k = 0) :
    Counted { s with reassembler := t } where
  bound := by
    intro f
    show s.nacks f ≤ t.cfg.nackRetries
    rw [h.cfg]
    exact hs.bound f
  tries := by
    intro k slot n hslot hn
    obtain ⟨old, hold, hn, -⟩ | ⟨hk, rfl⟩ := h.slots k slot n hslot hn
    · exact hs.tries k old n hold hn
    · exact hopened k hk
  once := hs.once
  only := hs.only
  stays := by
    intro k slot n hslot hn hidle
    obtain ⟨old, hold, hn, hdisc⟩ | ⟨hk, -⟩ := h.slots k slot n hslot hn
    · exact hdisc (hs.stays k old n hold hn hidle)
    · have hone := hs.only k hidle
      have hzero := hopened k hk
      omega

/-- No NACK waits to be handed out. -/
def Quiet (r : Reassembler) : Prop := ∀ a ∈ r.actions, a.isNack = false

theorem Quiet.books {r t : Reassembler} (hr : Quiet r) {opened : Nat → Prop}
    (h : Books opened r t) : Quiet t := by
  obtain ⟨more, hmore, hnone⟩ := h.actions
  intro a ha
  rw [hmore] at ha
  rcases List.mem_append.mp ha with ha | ha
  · exact hr a ha
  · exact hnone a ha

theorem countP_asksFor_of_quiet {l : List Action} (h : ∀ a ∈ l, a.isNack = false) (f : Nat) :
    l.countP (Action.asksFor f) = 0 := by
  rw [List.countP_eq_zero]
  intro a ha
  have hnack := h a ha
  cases a with
  | nack g fragments => exact absurd hnack nofun
  | requestRefresh good keyframe => exact nofun

/-- A `tick` asks for the frame's fragments. -/
def asks (r : Reassembler) (c : TickClock) (f : Nat) : Bool :=
  (r.frames.get? f).any fun slot => match tickVerdict c f slot with
    | .ask _ => true
    | .wait | .lost _ => false

theorem countP_tickFrames (r : Reassembler) (c : TickClock) (hr : Quiet r) (f : Nat) :
    (r.tickFrames c).1.actions.countP (Action.asksFor f) = if asks r c f then 1 else 0 := by
  unfold Reassembler.tickFrames
  dsimp only
  rw [List.countP_append, countP_asksFor_of_quiet hr f, Nat.zero_add, List.countP_filterMap,
    OrdMap.countP_entries r.frames]
  · unfold asks
    congr 1
    cases r.frames.get? f with
    | none => rfl
    | some slot =>
      simp only [Option.any_some]
      cases tickVerdict c f slot <;> simp [Action.asksFor]
  · rintro ⟨k, slot⟩ h
    dsimp only at h
    cases hv : tickVerdict c k slot <;> simp_all [Action.asksFor]

/-- A slot asked for was asked for fewer times than allowed, and never before
when nothing refers to its frame. -/
theorem tries_of_ask {c : TickClock} {f : Nat} {slot : Slot} {fragments : List Nat}
    (h : tickVerdict c f slot = .ask fragments) :
    ∃ n, slot.tries = some n ∧ n < c.retries ∧ (slot.discardable = true → n = 0) := by
  have hworth : ∀ discardable n, c.worthAsking f discardable n = true → discardable = true → n = 0 := by
    rintro discardable n hasks rfl
    simp only [TickClock.worthAsking, Bool.not_true, Bool.false_or, Bool.and_eq_true,
      beq_iff_eq] at hasks
    exact hasks.1
  cases slot with
  | complete out first => exact absurd h nofun
  | skipped => exact absurd h nofun
  | unknown first tries nackedAt discardable =>
    simp only [tickVerdict] at h
    split at h
    · exact absurd h nofun
    · split at h
      · rename_i hdue
        exact ⟨tries, rfl, hdue.2.1, hworth discardable tries hdue.2.2.1⟩
      · exact absurd h nofun
  | part p =>
    simp only [tickVerdict] at h
    split at h
    · exact absurd h nofun
    · split at h
      · rename_i hdue
        exact ⟨p.nacks, rfl, hdue.2.1, hworth p.discardable p.nacks hdue.2.2.1⟩
      · exact absurd h nofun

theorem tickSlot_discardable (c : TickClock) (f : Nat) (slot : Slot) :
    (tickSlot c f slot).discardable = slot.discardable := by
  unfold tickSlot
  split
  · cases slot <;> rfl
  · rfl
  · rfl

theorem tickSlot_tries {c : TickClock} (hc : c.retries < 2 ^ 8) {r : Reassembler} {f : Nat}
    {slot : Slot} (hslot : r.frames.get? f = some slot) {n : Nat}
    (hn : (tickSlot c f slot).tries = some n) :
    ∃ m, slot.tries = some m ∧ n = m + if asks r c f then 1 else 0 := by
  unfold asks
  rw [hslot, Option.any_some]
  unfold tickSlot at hn
  cases hverdict : tickVerdict c f slot with
  | ask fragments =>
    obtain ⟨m, hm, hlt, -⟩ := tries_of_ask hverdict
    refine ⟨m, hm, ?_⟩
    rw [hverdict] at hn
    cases slot with
    | unknown first tries nackedAt discardable =>
      simp only [Slot.tries, Option.some.injEq] at hm
      simp only [asked, Slot.tries, Option.some.injEq, satAdd] at hn
      simp only [if_true]
      omega
    | part p =>
      simp only [Slot.tries, Option.some.injEq] at hm
      simp only [asked, Slot.tries, Option.some.injEq, satAdd] at hn
      simp only [if_true]
      omega
    | complete out first => cases hm
    | skipped => cases hm
  | wait =>
    rw [hverdict] at hn
    exact ⟨n, hn, by simp⟩
  | lost missing =>
    rw [hverdict] at hn
    exact ⟨n, hn, by simp⟩

theorem Counted.tickFrames {s : Asking} (hs : Counted s) {c : TickClock}
    (hc : c.retries = s.reassembler.cfg.nackRetries) (hbyte : c.retries < 2 ^ 8) :
    Counted
      { reassembler := (s.reassembler.tickFrames c).1
        nacks := fun f => s.nacks f + if asks s.reassembler c f then 1 else 0
        idle := fun f =>
          if s.known f then s.idle f + if asks s.reassembler c f then 1 else 0 else s.idle f } := by
  have hask : ∀ f, asks s.reassembler c f = true → ∃ slot n,
      s.reassembler.frames.get? f = some slot ∧ slot.tries = some n ∧ n < c.retries ∧
        (slot.discardable = true → n = 0) := by
    intro f hf
    unfold asks at hf
    cases hslot : s.reassembler.frames.get? f with
    | none => simp [hslot] at hf
    | some slot =>
      rw [hslot, Option.any_some] at hf
      cases hverdict : tickVerdict c f slot with
      | ask fragments =>
        obtain ⟨n, hn⟩ := tries_of_ask hverdict
        exact ⟨slot, n, rfl, hn⟩
      | wait => simp [hverdict] at hf
      | lost missing => simp [hverdict] at hf
  have hknown : ∀ f slot, s.reassembler.frames.get? f = some slot →
      s.known f = slot.discardable := by
    intro f slot hslot
    rw [known, hslot, Option.any_some]
  -- A frame known to be idle is asked for only if it never was before.
  have hfirst : ∀ f, s.known f = true → asks s.reassembler c f = true →
      s.nacks f = 0 ∧ s.idle f = 0 := by
    intro f hf hasks
    obtain ⟨slot, n, hslot, hn, -, hzero⟩ := hask f hasks
    have hnacks := hs.tries f slot n hslot hn
    have hnone := hzero ((hknown f slot hslot).symm.trans hf)
    refine ⟨hnacks.trans hnone, ?_⟩
    by_contra hidle
    have hone := hs.only f (Nat.pos_of_ne_zero hidle)
    omega
  -- One it was asked for as idle is known to be.
  have hstill : ∀ f, 0 < s.idle f → asks s.reassembler c f = true → s.known f = true := by
    intro f hidle hasks
    obtain ⟨slot, n, hslot, hn, -, -⟩ := hask f hasks
    exact (hknown f slot hslot).trans (hs.stays f slot n hslot hn hidle)
  refine ⟨?_, ?_, ?_, ?_, ?_⟩
  · intro f
    have hbound := hs.bound f
    show _ ≤ s.reassembler.cfg.nackRetries
    dsimp only
    split
    · rename_i hasks
      obtain ⟨slot, n, hslot, hn, hlt, -⟩ := hask f hasks
      have hnacks := hs.tries f slot n hslot hn
      omega
    · exact hbound
  · intro k slot' n hslot' hn
    change (s.reassembler.frames.mapVal (tickSlot c)).get? k = some slot' at hslot'
    rw [OrdMap.get?_mapVal, Option.map_eq_some_iff] at hslot'
    obtain ⟨slot, hslot, rfl⟩ := hslot'
    obtain ⟨m, hm, rfl⟩ := tickSlot_tries hbyte hslot hn
    exact congrArg (· + _) (hs.tries k slot m hslot hm)
  · intro f
    have honce := hs.once f
    dsimp only
    split
    · rename_i hf
      split
      · rename_i hasks
        have hzero := (hfirst f hf hasks).2
        omega
      · exact honce
    · exact honce
  · intro f hidle
    dsimp only at hidle ⊢
    by_cases hasks : asks s.reassembler c f = true
    · rw [if_pos hasks] at hidle ⊢
      by_cases hf : s.known f = true
      · have hzero := (hfirst f hf hasks).1
        omega
      · rw [if_neg hf] at hidle
        exact absurd (hstill f hidle hasks) hf
    · rw [if_neg hasks] at hidle ⊢
      refine hs.only f ?_
      split at hidle <;> exact hidle
  · intro k slot' n hslot' hn hidle
    change (s.reassembler.frames.mapVal (tickSlot c)).get? k = some slot' at hslot'
    rw [OrdMap.get?_mapVal, Option.map_eq_some_iff] at hslot'
    obtain ⟨slot, hslot, rfl⟩ := hslot'
    obtain ⟨m, hm, -⟩ := tickSlot_tries hbyte hslot hn
    rw [tickSlot_discardable]
    dsimp only at hidle
    by_cases hf : s.known k = true
    · exact (hknown k slot hslot).symm.trans hf
    · rw [if_neg hf] at hidle
      exact hs.stays k slot m hslot hm hidle

/-- The state of a run between operations. -/
structure Ready (cfg : Config) (s : Asking) : Prop where
  quiet : Quiet s.reassembler
  cfg : s.reassembler.cfg = cfg
  counted : Counted s

variable {cfg : Config}

theorem Ready.books {s : Asking} (hs : Ready cfg s) {opened : Nat → Prop} {t : Reassembler}
    (h : Books opened s.reassembler t) (hopened : ∀ k, opened k → s.nacks k = 0) :
    Ready cfg { s with reassembler := t } :=
  ⟨hs.quiet.books h, h.cfg.trans hs.cfg, hs.counted.books h hopened⟩

theorem Ready.tick (rs : ReedSolomon) (hbyte : cfg.nackRetries < 2 ^ 8) {s : Asking}
    (hs : Ready cfg s) (now : Instant) (rtt : Duration) : Ready cfg (s.step rs (.tick now rtt)) := by
  have hstart : Books (fun _ => False) s.reassembler (s.reassembler.startTick now rtt) :=
    Reassembler.startTick_books _ now rtt
  have hframes : (s.reassembler.startTick now rtt).frames = s.reassembler.frames := by
    unfold Reassembler.startTick
    dsimp only
    split <;> rfl
  have hready := hs.books hstart nofun
  obtain ⟨lost, c, hc, htick⟩ := s.reassembler.tick_eq now rtt
  generalize s.reassembler.startTick now rtt = r at hframes hready hc htick
  have hretries : c.retries = cfg.nackRetries := hc.trans (congrArg Config.nackRetries hready.cfg)
  have hasked := hready.counted.tickFrames hc (hretries.symm ▸ hbyte)
  have hrest : Books (fun _ => False) (r.tickFrames c).1
      ((r.tickFrames c).1.tickRest lost c now rtt) := Reassembler.tickRest_books _ lost c now rtt
  have hfinal := hasked.books hrest nofun
  obtain ⟨more, hmore, hnone⟩ := hrest.actions
  have hcount : ∀ f, ((r.tickFrames c).1.tickRest lost c now rtt).actions.countP
      (Action.asksFor f) = if asks r c f then 1 else 0 := by
    intro f
    rw [hmore, List.countP_append, countP_asksFor_of_quiet hnone,
      countP_tickFrames r c hready.quiet f, Nat.add_zero]
  have hknown : ∀ f, known { s with reassembler := r } f = s.known f := by
    intro f
    unfold known
    rw [hframes]
  simp only [hknown] at hfinal
  simp only [step, htick _ rfl, hcount]
  exact
    { quiet := nofun
      cfg := hrest.cfg.trans hready.cfg
      counted := ⟨hfinal.bound, hfinal.tries, hfinal.once, hfinal.only, hfinal.stays⟩ }

theorem Ready.step (rs : ReedSolomon) (hbyte : cfg.nackRetries < 2 ^ 8) {s : Asking}
    (hs : Ready cfg s) {op : Op} (hop : s.OpensUnasked op) : Ready cfg (s.step rs op) := by
  cases op with
  | ingest datagram now => exact hs.books (Reassembler.ingest_books rs _ datagram now) hop
  | tick now rtt => exact hs.tick rs hbyte now rtt
  | forceRefresh now keyframe =>
    exact hs.books (Reassembler.forceRefresh_books _ now keyframe) fun _ => False.elim
  | setSourceLive live =>
    exact hs.books (Reassembler.setSourceLive_books _ live) fun _ => False.elim
  | nextFrame => exact hs.books (Reassembler.nextFrame_books _) fun _ => False.elim

theorem start_ready (stream : UInt32) (cfg : Config) (now : Instant) :
    Ready cfg (start stream cfg now) where
  quiet := nofun
  cfg := rfl
  counted := by
    refine ⟨fun f => Nat.zero_le _, ?_, fun f => Nat.zero_le _, nofun, ?_⟩
    · intro k slot n hslot
      simp [start, Reassembler.new] at hslot
    · intro k slot n hslot
      simp [start, Reassembler.new] at hslot

/-- In every run in which no slot is opened for a frame asked for before, a frame is asked for at
most as often as configured, and once at most, then never otherwise, when it was known that nothing
refers to it. -/
theorem nacks_bounded (rs : ReedSolomon) (stream : UInt32) (cfg : Config)
    (hbyte : cfg.nackRetries < 2 ^ 8) (now : Instant) (ops : List Op)
    (hops : EachStep (step rs) OpensUnasked (start stream cfg now) ops) (f : Nat) :
    (run rs (start stream cfg now) ops).nacks f ≤ cfg.nackRetries ∧
      (run rs (start stream cfg now) ops).idle f ≤ 1 ∧
      (0 < (run rs (start stream cfg now) ops).idle f →
        (run rs (start stream cfg now) ops).nacks f = 1) := by
  have hready : Ready cfg (run rs (start stream cfg now) ops) :=
    hops.foldl (fun _ _ hs hop => hs.step rs hbyte hop) (start_ready stream cfg now)
  have hbound := hready.counted.bound f
  rw [hready.cfg] at hbound
  exact ⟨hbound, hready.counted.once f, hready.counted.only f⟩

def twoPart : EncodedFrame :=
  { tinyFrame with keyframe := false, ltrToken := none, data := List.replicate 300 42 }

def atMs (n : Nat) : Instant := (n * 1000000 : Nat)

def frameMissing : List Op :=
  [.ingest (firstDatagram 0 tinyFrame) (atMs 100), .ingest (firstDatagram 2 twoPart) (atMs 100),
    .tick (atMs 106) (Duration.millis 20), .ingest (firstDatagram 3 twoPart) (atMs 110),
    .tick (atMs 132) (Duration.millis 20)]

def halfLate : List Op :=
  frameMissing ++ [.ingest (firstDatagram 1 twoPart) (atMs 135), .tick (atMs 141) (Duration.millis 20)]

theorem nacks_bounded_missing :
    EachStep (step copies) OpensUnasked (start 7 {} 0) frameMissing ∧
      (run copies (start 7 {} 0) frameMissing).nacks 1 ≤ 2 := by
  have hops : EachStep (step copies) OpensUnasked (start 7 {} 0) frameMissing := by
    decide +kernel
  exact ⟨hops, (nacks_bounded copies 7 {} (by decide) 0 frameMissing hops 1).1⟩

/-- The first fragment of a frame starts its count over. -/
theorem asked_a_third_time :
    ({} : Config).nackRetries = 2 ∧ (run copies (start 7 {} 0) halfLate).nacks 1 = 3 := by
  decide +kernel

end Asking

end Slopty.Media.Reassemble
