import Slopty.Media.Bounded

/-!
Frames nothing refers to. What the received fragments said of a frame, what its slot knows of that,
and the steps in which every frame given up was said to be one nothing refers to: they ask for no
refresh.
-/

namespace Slopty.Media.Reassemble

open Slopty.Lib
open Slopty.Media.Fec
open Slopty.Media.Wire

/-! ### What was said -/

/-- The frame's own fragments say that nothing refers to it. -/
def SelfSaid (heard : List MediaHeader) (frame : Nat) : Prop :=
  (∃ h ∈ heard, h.frame.toNat = frame) ∧
    ∀ h ∈ heard, h.frame.toNat = frame → hasFlag h.flags Flags.discardable = true

/-- A fragment of the next frame says that nothing refers to this one. -/
def NextSaid (heard : List MediaHeader) (frame : Nat) : Prop :=
  ∃ h ∈ heard, h.frame.toNat = frame + 1 ∧ hasFlag h.flags Flags.prevDiscardable = true

def Said (heard : List MediaHeader) (frame : Nat) : Prop :=
  SelfSaid heard frame ∨ NextSaid heard frame

instance (heard : List MediaHeader) (frame : Nat) : Decidable (NextSaid heard frame) :=
  inferInstanceAs (Decidable (∃ h ∈ heard, _ ∧ _))

instance (heard : List MediaHeader) (frame : Nat) : Decidable (Said heard frame) :=
  inferInstanceAs (Decidable (((∃ h ∈ heard, _) ∧ ∀ h ∈ heard, _ → _) ∨ NextSaid heard frame))

/-- A reassembler with the valid video fragments it was given. -/
structure Hearing where
  reassembler : Reassembler
  heard : List MediaHeader

/-- The header of a valid video fragment. -/
def Reassembler.hears (r : Reassembler) : Op → List MediaHeader
  | .ingest datagram _ => ((r.fragment? datagram).map Prod.fst).toList
  | .tick .. | .forceRefresh .. | .setSourceLive _ | .nextFrame => []

namespace Hearing

def start (stream : UInt32) (cfg : Config) (now : Instant) : Hearing :=
  ⟨Reassembler.new stream cfg now, []⟩

def step (rs : ReedSolomon) (s : Hearing) (op : Op) : Hearing :=
  ⟨Reassemble.step rs s.reassembler op, s.heard ++ s.reassembler.hears op⟩

def run (rs : ReedSolomon) (s : Hearing) (ops : List Op) : Hearing := ops.foldl (step rs) s

end Hearing

/-! ### The frames a step gives up -/

namespace Reassembler

/-- The frames jumped over when too many vanished at once. -/
def jumped (r : Reassembler) (frame : Nat) : List Nat :=
  match r.need with
  | .frame next =>
      if r.cfg.maxPending < frame - next then List.range' next (frame - next) else []
  | .keyframe | .refresh => []

/-- The fragment completes its frame, and the frame does not assemble. -/
def spoils (rs : ReedSolomon) (r : Reassembler) (header : MediaHeader) (payload : Bytes)
    (now : Instant) : Bool :=
  match (r.openPartial header header.frame.toNat payload now).2 with
  | none => false
  | some p =>
      let stored := p.store header.index.toNat payload header now
      !Slot.refuses header payload (.part p) && stored.complete &&
        (assemble rs header.frame.toNat stored now).isNone

/-- The frame an eviction's turn gives up. -/
def evicts (r : Reassembler) : List Nat :=
  match r.frames.first? with
  | some (frame, .unknown ..) | some (frame, .part _) => [frame]
  | some (_, .complete ..) | some (_, .skipped) | none => []

def evicted (now : Instant) : Nat → Reassembler → List Nat
  | 0, _ => []
  | fuel + 1, r =>
      match evictStep now r with
      | none => []
      | some t => r.evicts ++ evicted now fuel t

/-- A fragment put in its place, and what that completes delivered; `none` when it has no place. -/
def stored (rs : ReedSolomon) (r : Reassembler) (header : MediaHeader) (payload : Bytes)
    (now : Instant) : Option Reassembler :=
  match r.openPartial header header.frame.toNat payload now with
  | (_, none) => none
  | (r, some p) =>
      if Slot.refuses header payload (.part p) then none
      else
        let p := p.store header.index.toNat payload header now
        let r := { r with frames := r.frames.insert header.frame.toNat (.part p) }
        some ((if p.complete then r.finish rs header.frame.toNat now else r).drain now)

/-- The frames lost, timed out, evicted or failing to assemble in a step. -/
def givesUp (rs : ReedSolomon) (r : Reassembler) : Op → List Nat
  | .ingest datagram now =>
      match r.fragment? datagram with
      | none => []
      | some (header, payload) =>
          let r := r.endSilence header now
          let frame := header.frame.toNat
          if r.stale frame then []
          else
            let seen := r.beforeFragment header now
            r.jumped frame ++ (if seen.spoils rs header payload now then [frame] else []) ++
              match seen.stored rs header payload now with
              | none => []
              | some t => evicted now (weight t.frames) t
  | .tick now rtt =>
      let r := r.startTick now rtt
      (r.tickFrames (r.tickClock now rtt)).2.map Prod.fst
  | .forceRefresh .. | .setSourceLive _ | .nextFrame => []

end Reassembler

def Action.isRefresh : Action → Bool
  | .requestRefresh .. => true
  | .nack .. => false

/-! ### What the slots know -/

/-- What is known of a frame still waited for: whether anything of it came, and whether nothing
refers to it. -/
def Slot.known : Slot → Option (Bool × Bool)
  | .unknown _ _ _ discardable => some (false, discardable)
  | .part p => some (true, p.discardable)
  | .complete .. | .skipped => none

theorem Slot.discardable_of_known {s : Slot} {begun d : Bool} (h : s.known = some (begun, d)) :
    s.discardable = d := by
  cases s <;> simp_all [Slot.known, Slot.discardable]

/-- Every slot of a frame still waited for knows what was said of the frame, and a fragment came of
each that began. -/
def Told (heard : List MediaHeader) (frames : OrdMap Nat Slot) : Prop :=
  ∀ k s begun d, frames.get? k = some s → s.known = some (begun, d) →
    (Said heard k → d = true) ∧ (begun = true → ∃ h ∈ heard, h.frame.toNat = k)

/-- Frames are settled, or go on being waited for with what was known of them. -/
def Settles (m n : OrdMap Nat Slot) : Prop :=
  ∀ k s, n.get? k = some s → s.known = none ∨ ∃ t, m.get? k = some t ∧ t.known = s.known

namespace Settles

theorem rfl (m : OrdMap Nat Slot) : Settles m m := fun _ s hs => Or.inr ⟨s, hs, Eq.refl _⟩

theorem trans {m n o : OrdMap Nat Slot} (h : Settles m n) (h' : Settles n o) : Settles m o := by
  intro k s hs
  obtain hnone | ⟨t, ht, hknown⟩ := h' k s hs
  · exact Or.inl hnone
  · obtain hnone | ⟨u, hu, hknown'⟩ := h k t ht
    · exact Or.inl (hknown ▸ hnone)
    · exact Or.inr ⟨u, hu, hknown'.trans hknown⟩

theorem erase (m : OrdMap Nat Slot) (k : Nat) : Settles m (m.erase k) := by
  intro j s hs
  rw [OrdMap.get?_erase] at hs
  split at hs
  · exact absurd hs nofun
  · exact Or.inr ⟨s, hs, Eq.refl _⟩

theorem retain (m : OrdMap Nat Slot) (p : Nat → Slot → Bool) : Settles m (m.retain p) := by
  intro j s hs
  rw [OrdMap.get?_retain, Option.filter_eq_some_iff] at hs
  exact Or.inr ⟨s, hs.1, Eq.refl _⟩

theorem insert (m : OrdMap Nat Slot) (k : Nat) {s : Slot}
    (hs : s.known = none ∨ ∃ t, m.get? k = some t ∧ t.known = s.known) :
    Settles m (m.insert k s) := by
  intro j u hu
  rw [OrdMap.get?_insert] at hu
  split at hu
  · rename_i hkj
    obtain rfl := Option.some.inj hu
    exact hkj ▸ hs
  · exact Or.inr ⟨u, hu, Eq.refl _⟩

theorem mapVal (m : OrdMap Nat Slot) {f : Nat → Slot → Slot} (hf : ∀ k s, (f k s).known = s.known) :
    Settles m (m.mapVal f) := by
  intro k s hs
  rw [OrdMap.get?_mapVal, Option.map_eq_some_iff] at hs
  obtain ⟨t, ht, rfl⟩ := hs
  exact Or.inr ⟨t, ht, (hf k t).symm⟩

theorem told {m n : OrdMap Nat Slot} (h : Settles m n) {heard : List MediaHeader}
    (hm : Told heard m) : Told heard n := by
  intro k s begun d hs hknown
  obtain hnone | ⟨t, ht, hsame⟩ := h k s hs
  · exact absurd (hnone.symm.trans hknown) nofun
  · exact hm k t begun d ht (hsame.trans hknown)

end Settles

namespace Reassembler

theorem skip_settles (r : Reassembler) (k missing : Nat) :
    Settles r.frames (r.skip k missing).frames :=
  Settles.insert r.frames k (Or.inl rfl)

theorem lose_settles (r : Reassembler) (k missing : Nat) (now : Instant) :
    Settles r.frames (r.lose k missing now).frames := by
  unfold lose
  split
  · exact skip_settles r k missing
  · dsimp only
    split <;> exact Settles.erase r.frames k

theorem finish_settles (rs : ReedSolomon) (r : Reassembler) (k : Nat) (now : Instant) :
    Settles r.frames (r.finish rs k now).frames := by
  unfold finish
  split
  · dsimp only
    split
    · refine (Settles.erase r.frames k).trans ?_
      split <;> exact Settles.insert _ k (Or.inl rfl)
    · exact (Settles.erase r.frames k).trans (lose_settles _ k _ now)
  · exact Settles.erase r.frames k

theorem drainStep_settles {r t : Reassembler} {now : Instant} (h : drainStep now r = some t) :
    Settles r.frames t.frames := by
  unfold drainStep at h
  split at h
  · split at h
    · rw [(frames_deliver h).1]
      exact Settles.erase _ _
    · rw [← Option.some.inj h]
      exact Settles.erase _ _
    · split at h
      · rw [← Option.some.inj h]
        exact skip_settles r _ _
      · simp at h
    · simp at h
  all_goals
    split at h
    · simp at h
    · rw [(frames_deliver h).1]
      exact (Settles.retain _ _).trans (Settles.erase _ _)

theorem drain_settles (r : Reassembler) (now : Instant) :
    Settles r.frames (r.drain now).frames :=
  loop_induct (P := fun t : Reassembler => Settles r.frames t.frames)
    (fun _ _ hs hst => hs.trans (drainStep_settles hst)) _ (Settles.rfl _)

theorem evictStep_settles {r t : Reassembler} {now : Instant} (h : evictStep now r = some t) :
    Settles r.frames t.frames := by
  unfold evictStep at h
  split at h
  · simp at h
  · split at h
    · simp at h
    all_goals obtain rfl := Option.some.inj h
    · exact Settles.erase _ _
    · exact Settles.erase _ _
    · exact lose_settles r _ _ now
    · exact lose_settles r _ _ now

theorem evict_settles (r : Reassembler) (now : Instant) :
    Settles r.frames (r.evict now).frames :=
  loop_induct (P := fun t : Reassembler => Settles r.frames t.frames)
    (fun _ _ hs hst => hs.trans (evictStep_settles hst)) _ (Settles.rfl _)

theorem endSilence_settles (r : Reassembler) (header : MediaHeader) (now : Instant) :
    Settles r.frames (r.endSilence header now).frames := by
  apply endSilence_induct (P := fun s => Settles r.frames s.frames)
  · intro s t hst hs
    rw [hst.frames]
    exact hs
  · intro s hs
    refine hs.trans ?_
    unfold resume
    split
    · exact Settles.rfl _
    · exact Settles.mapVal s.frames fun _ s => by cases s <;> rfl
  · exact Settles.rfl _

theorem foldl_lose_settles (r : Reassembler) (lost : List (Nat × Nat)) (now : Instant) :
    Settles r.frames (lost.foldl (fun r fm => r.lose fm.1 fm.2 now) r).frames := by
  induction lost generalizing r with
  | nil => exact Settles.rfl _
  | cons fm lost ih => exact (lose_settles r fm.1 fm.2 now).trans (ih _)

/-- The state a `tick` asks its refresh from, every frame past its deadline given up. -/
def losing (r : Reassembler) (now : Instant) (rtt : Duration) : Reassembler :=
  let s := r.startTick now rtt
  let asked := s.tickFrames (s.tickClock now rtt)
  asked.2.foldl (fun r fm => r.lose fm.1 fm.2 now) asked.1

theorem tick_eq_losing (r : Reassembler) (now : Instant) (rtt : Duration) :
    r.tick now rtt =
      let t := ((r.losing now rtt).repeatRefresh ((r.startTick now rtt).tickClock now rtt) rtt).drain
        now
      ({ t with actions := [] }, t.actions) := rfl

theorem tickSlot_known (c : TickClock) (k : Nat) (s : Slot) : (tickSlot c k s).known = s.known := by
  unfold tickSlot
  split
  · cases s <;> rfl
  · rfl
  · rfl

theorem losing_settles (r : Reassembler) (now : Instant) (rtt : Duration) :
    Settles r.frames (r.losing now rtt).frames := by
  have hframes := startTick_frames r now rtt
  refine Settles.trans ?_ (foldl_lose_settles _ _ now)
  rw [← hframes]
  exact Settles.mapVal _ fun k s => tickSlot_known _ k s

theorem tick_settles (r : Reassembler) (now : Instant) (rtt : Duration) :
    Settles r.frames (r.tick now rtt).1.frames := by
  rw [tick_eq_losing]
  refine (losing_settles r now rtt).trans ?_
  refine Settles.trans ?_ (drain_settles _ now)
  rw [repeatRefresh_frames]
  exact Settles.rfl _

end Reassembler

/-! ### A fragment and what it says -/

theorem SelfSaid.of_append {heard : List MediaHeader} {header : MediaHeader} {k : Nat}
    (h : SelfSaid (heard ++ [header]) k) (hsome : ∃ h ∈ heard, h.frame.toNat = k) :
    SelfSaid heard k :=
  ⟨hsome, fun g hg => h.2 g (List.mem_append_left _ hg)⟩

/-- What a fragment says is said of its own frame and the one before. -/
theorem Said.of_append {heard : List MediaHeader} {header : MediaHeader} {k : Nat}
    (h : Said (heard ++ [header]) k) (hown : header.frame.toNat ≠ k)
    (hprev : ¬ (header.frame.toNat = k + 1 ∧ hasFlag header.flags Flags.prevDiscardable = true)) :
    Said heard k := by
  rcases h with h | ⟨g, hg, hk⟩
  · refine Or.inl (SelfSaid.of_append h ?_)
    obtain ⟨g, hg, hk⟩ := h.1
    rcases List.mem_append.mp hg with hg | hg
    · exact ⟨g, hg, hk⟩
    · rw [List.mem_singleton.mp hg] at hk
      exact absurd hk hown
  · rcases List.mem_append.mp hg with hg | hg
    · exact Or.inr ⟨g, hg, hk⟩
    · rw [List.mem_singleton.mp hg] at hk
      exact absurd hk hprev

namespace Reassembler

/-- What a fragment says comes to the slots of the frames it speaks of: what is refused as stale
says nothing new, and no frame spoken of before is opened again. When it gives a frame up on the
spot, the frame was not said to be one nothing refers to. -/
structure Heeded (rs : ReedSolomon) (r : Reassembler) (heard : List MediaHeader)
    (header : MediaHeader) (payload : Bytes) (now : Instant) : Prop where
  stale : r.stale header.frame.toNat = true → ∀ k s begun, r.frames.get? k = some s →
    s.known = some (begun, false) →
    ¬ (header.frame.toNat = k ∧ hasFlag header.flags Flags.discardable = true) ∧
      ¬ (header.frame.toNat = k + 1 ∧ hasFlag header.flags Flags.prevDiscardable = true)
  reopened : r.stale header.frame.toNat = false → ∀ k ∈ r.gapOpens header.frame.toNat,
    ¬ Said heard k
  opened : r.stale header.frame.toNat = false → r.frames.get? header.frame.toNat = none →
    NextSaid heard header.frame.toNat → hasFlag header.flags Flags.discardable = true
  jumped : r.stale header.frame.toNat = false → r.jumped header.frame.toNat ≠ [] →
    ∃ k ∈ r.jumped header.frame.toNat, ¬ Said (heard ++ [header]) k
  whole : r.stale header.frame.toNat = false →
    (r.beforeFragment header now).spoils rs header payload now = true →
    ¬ Said (heard ++ [header]) header.frame.toNat

theorem known_markDiscardable {s : Slot} {begun d : Bool}
    (h : s.markDiscardable.known = some (begun, d)) :
    d = true ∧ ∃ d', s.known = some (begun, d') := by
  cases s <;> simp_all [Slot.markDiscardable, Slot.known]

/-- The slot of a frame once a gap is opened: as it was, or opened for the gap. -/
theorem openGap_slot {r : Reassembler} {frame : Nat} {now : Instant} {k : Nat} {s : Slot}
    {begun d : Bool} (hs : (r.openGap frame now).frames.get? k = some s)
    (hknown : s.known = some (begun, d)) :
    r.frames.get? k = some s ∨ k ∈ r.gapOpens frame ∧ begun = false := by
  unfold openGap at hs
  unfold gapOpens
  cases hneed : r.need with
  | keyframe =>
    simp only [hneed] at hs
    exact Or.inl hs
  | refresh =>
    simp only [hneed] at hs
    exact Or.inl hs
  | frame next =>
    simp only [hneed] at hs
    dsimp only
    split at hs
    · have hkept : (r.frames.retain fun k _ => decide (frame ≤ k)).get? k = some s := hs
      rw [OrdMap.get?_retain, Option.filter_eq_some_iff] at hkept
      exact Or.inl hkept.1
    · rename_i hwide
      rw [if_neg hwide]
      rcases foldl_fresh_slots now _ r.frames hs with hs | ⟨hk, hnone, rfl⟩
      · exact Or.inl hs
      · refine Or.inr ⟨List.mem_filter.mpr ⟨hk, by simp [hnone]⟩, ?_⟩
        simp only [Slot.fresh, Slot.known, Option.some.injEq, Prod.mk.injEq] at hknown
        exact hknown.1.symm

theorem markPrevious_slot {r : Reassembler} {header : MediaHeader} {frame k : Nat} {s : Slot}
    {begun d : Bool} (hs : (r.markPrevious header frame).frames.get? k = some s)
    (hknown : s.known = some (begun, d)) :
    (frame = k + 1 ∧ hasFlag header.flags Flags.prevDiscardable = true → d = true) ∧
      ∃ t d', r.frames.get? k = some t ∧ t.known = some (begun, d') ∧ (d' = true → d = true) := by
  unfold markPrevious at hs
  split at hs
  · split at hs
    · rename_i slot hslot
      change (r.frames.insert (frame - 1) slot.markDiscardable).get? k = some s at hs
      rw [OrdMap.get?_insert] at hs
      split at hs
      · rename_i hk
        obtain rfl := Option.some.inj hs
        obtain ⟨hd, d', hslotKnown⟩ := known_markDiscardable hknown
        rw [hk] at hslot
        exact ⟨fun _ => hd, slot, d', hslot, hslotKnown, fun _ => hd⟩
      · refine ⟨fun h => ?_, s, d, hs, hknown, id⟩
        omega
    · rename_i hnone
      refine ⟨fun h => ?_, s, d, hs, hknown, id⟩
      have hk : frame - 1 = k := by omega
      rw [hk, hs] at hnone
      exact absurd hnone nofun
  · rename_i hflag
    refine ⟨fun h => ?_, s, d, hs, hknown, id⟩
    exact absurd ⟨h.2, by omega⟩ hflag

theorem beforeFragment_told {r : Reassembler} {heard : List MediaHeader} {header : MediaHeader}
    {now : Instant} (hr : Told heard r.frames)
    (hreopened : ∀ k ∈ r.gapOpens header.frame.toNat, ¬ Said heard k) {k : Nat}
    (hk : header.frame.toNat ≠ k) {s : Slot} {begun d : Bool}
    (hs : (r.beforeFragment header now).frames.get? k = some s)
    (hknown : s.known = some (begun, d)) :
    (Said (heard ++ [header]) k → d = true) ∧
      (begun = true → ∃ h ∈ heard ++ [header], h.frame.toNat = k) := by
  obtain ⟨hmarked, t, d', ht, htk, hd⟩ := markPrevious_slot hs hknown
  rcases openGap_slot ht htk with ht | ⟨hopened, rfl⟩
  · obtain ⟨hsaid, hbegun⟩ := hr k t begun d' ht htk
    constructor
    · intro h
      by_cases hprev : header.frame.toNat = k + 1 ∧
          hasFlag header.flags Flags.prevDiscardable = true
      · exact hmarked hprev
      · exact hd (hsaid (h.of_append hk hprev))
    · intro h
      obtain ⟨g, hg, hgk⟩ := hbegun h
      exact ⟨g, List.mem_append_left _ hg, hgk⟩
  · refine ⟨fun h => ?_, nofun⟩
    by_contra hd
    exact hreopened k hopened (h.of_append hk fun hprev => hd (hmarked hprev))

/-- What the slot of a fragment's frame knows once the fragment is in. -/
theorem openPartial_told {r : Reassembler} {heard : List MediaHeader} {header : MediaHeader}
    {payload : Bytes} {now : Instant}
    (hothers : ∀ k s begun d, header.frame.toNat ≠ k → r.frames.get? k = some s →
      s.known = some (begun, d) → (Said (heard ++ [header]) k → d = true) ∧
        (begun = true → ∃ h ∈ heard ++ [header], h.frame.toNat = k))
    (hown : ∀ s begun d, r.frames.get? header.frame.toNat = some s → s.known = some (begun, d) →
      (Said heard header.frame.toNat → d = true) ∧
        (begun = true → ∃ h ∈ heard, h.frame.toNat = header.frame.toNat))
    (hopened : r.frames.get? header.frame.toNat = none → NextSaid heard header.frame.toNat →
      hasFlag header.flags Flags.discardable = true) :
    Told (heard ++ [header])
      (r.openPartial header header.frame.toNat payload now).1.frames := by
  have hself : ∀ k, header.frame.toNat = k → ∃ h ∈ heard ++ [header], h.frame.toNat = k :=
    fun k hk => ⟨header, by simp, hk⟩
  have hflag : SelfSaid (heard ++ [header]) header.frame.toNat →
      hasFlag header.flags Flags.discardable = true := fun h => h.2 header (by simp) rfl
  have hnext : NextSaid (heard ++ [header]) header.frame.toNat →
      NextSaid heard header.frame.toNat := by
    rintro ⟨g, hg, hk, hprev⟩
    rcases List.mem_append.mp hg with hg | hg
    · exact ⟨g, hg, hk, hprev⟩
    · rw [List.mem_singleton.mp hg] at hk
      omega
  intro k s begun d hs hknown
  unfold openPartial at hs
  split at hs
  · rename_i f n a d₀ hslot
    change (r.frames.insert header.frame.toNat _).get? k = some s at hs
    rw [OrdMap.get?_insert] at hs
    split at hs
    · rename_i hk
      refine ⟨fun h => ?_, fun _ => hself k hk⟩
      obtain rfl := Option.some.inj hs
      simp only [Slot.known, Partial.new, Option.some.injEq, Prod.mk.injEq] at hknown
      rw [← hknown.2, Bool.or_eq_true]
      rw [← hk] at h
      rcases h with h | h
      · exact Or.inr (hflag h)
      · cases hget : r.frames.get? header.frame.toNat with
        | none => exact Or.inr (hopened hget (hnext h))
        | some t =>
          rw [hget] at hslot
          obtain rfl : t = .unknown f n a d₀ := hslot
          exact Or.inl ((hown _ false d₀ hget rfl).1 (Or.inr (hnext h)))
    · rename_i hk
      exact hothers k s begun d hk hs hknown
  all_goals
    by_cases hk : header.frame.toNat = k
    · subst hk
      obtain ⟨hsaid, hbegun⟩ := hown s begun d hs hknown
      refine ⟨fun h => hsaid ?_, fun _ => hself _ rfl⟩
      rcases h with h | h
      · refine Or.inl (h.of_append ?_)
        rename_i hslot
        rw [hs] at hslot
        obtain rfl := hslot
        first
          | (simp only [Slot.known, Option.some.injEq, Prod.mk.injEq] at hknown
             exact hbegun hknown.1.symm)
          | exact absurd hknown nofun
      · exact Or.inr (hnext h)
    · exact hothers k s begun d hk hs hknown

theorem openPartial_slot {r t : Reassembler} {header : MediaHeader} {frame : Nat} {payload : Bytes}
    {now : Instant} {p : Option Partial} (h : r.openPartial header frame payload now = (t, p)) :
    ∀ q, p = some q → t.frames.get? frame = some (.part q) := by
  have hbooks : Books (fun _ => True) r t ∧ _ := openPartial_books (fun _ _ _ => trivial) h
  exact hbooks.2

theorem storeFragment_settles (rs : ReedSolomon) (r : Reassembler) (header : MediaHeader)
    (payload : Bytes) (now : Instant) :
    Settles (r.openPartial header header.frame.toNat payload now).1.frames
      (r.storeFragment rs header payload now).1.frames := by
  unfold storeFragment
  dsimp only
  split
  · rename_i t hopen
    rw [hopen]
    exact Settles.rfl _
  · rename_i t p hopen
    rw [hopen]
    have hslot := (openPartial_slot hopen) p rfl
    split
    · exact Settles.rfl _
    · split
      · exact Settles.rfl _
      · exact Settles.rfl _
      · refine Settles.trans ?_ (evict_settles _ now)
        refine Settles.trans ?_ (drain_settles _ now)
        refine (Settles.insert t.frames header.frame.toNat
          (s := .part (p.store header.index.toNat payload header now))
          (Or.inr ⟨_, hslot, rfl⟩)).trans ?_
        split
        · exact finish_settles rs _ _ now
        · exact Settles.rfl _

theorem ingestVideo_told (rs : ReedSolomon) {r : Reassembler} {heard : List MediaHeader}
    {header : MediaHeader} {payload : Bytes} {now : Instant}
    (hvalid : validFragment header payload = true) (hr : Told heard r.frames)
    (h : Heeded rs r heard header payload now) :
    Told (heard ++ [header]) (r.ingestVideo rs header payload now).1.frames := by
  cases hstale : r.stale header.frame.toNat with
  | true =>
    rw [ingestVideo_of_stale rs r now hstale]
    intro k s begun d hs hknown
    obtain ⟨hsaid, hbegun⟩ := hr k s begun d hs hknown
    constructor
    · intro hk
      by_contra hd
      rw [Bool.not_eq_true] at hd
      subst hd
      obtain ⟨hown, hprev⟩ := h.stale hstale k s begun hs hknown
      by_cases hframe : header.frame.toNat = k
      · rcases hk with hk | ⟨g, hg, hgk, hflag⟩
        · exact hown ⟨hframe, hk.2 header (by simp) hframe⟩
        · rcases List.mem_append.mp hg with hg | hg
          · exact absurd (hsaid (Or.inr ⟨g, hg, hgk, hflag⟩)) nofun
          · rw [List.mem_singleton.mp hg] at hgk
            omega
      · exact absurd (hsaid (hk.of_append hframe hprev)) nofun
    · intro hb
      obtain ⟨g, hg, hgk⟩ := hbegun hb
      exact ⟨g, List.mem_append_left _ hg, hgk⟩
  | false =>
    rw [ingestVideo_of_wanted rs r now hvalid hstale]
    refine (storeFragment_settles rs _ header payload now).told ?_
    refine openPartial_told ?_ ?_ ?_
    · intro k s begun d hk hs hknown
      exact beforeFragment_told hr (h.reopened hstale) hk hs hknown
    · rw [beforeFragment_get?]
      intro s begun d hs hknown
      exact hr _ s begun d hs hknown
    · rw [beforeFragment_get?]
      exact h.opened hstale

/-! ### Steps that ask for no refresh -/

/-- No refresh is asked for, and frames that leave in order go on doing so. -/
structure Calm (r t : Reassembler) : Prop where
  refreshes : t.actions.countP Action.isRefresh = r.actions.countP Action.isRefresh
  inOrder : r.awaitingRefresh = false → t.awaitingRefresh = false

namespace Calm

theorem of_same {r t : Reassembler} (hactions : t.actions = r.actions) (hneed : t.need = r.need) :
    Calm r t :=
  ⟨by rw [hactions], by simp only [awaitingRefresh, hneed]; exact id⟩

theorem trans {r s t : Reassembler} (h : Calm r s) (h' : Calm s t) : Calm r t :=
  ⟨h'.refreshes.trans h.refreshes, fun hr => h'.inOrder (h.inOrder hr)⟩

end Calm

theorem skip_calm (r : Reassembler) (k missing : Nat) : Calm r (r.skip k missing) :=
  Calm.of_same rfl rfl

theorem lose_calm {r : Reassembler} {k : Nat} {s : Slot} (hs : r.frames.get? k = some s)
    (hd : s.discardable = true) (missing : Nat) (now : Instant) :
    r.lose k missing now = r.skip k missing := by
  have hknown : ((r.frames.get? k).map Slot.discardable).getD false = true := by
    rw [hs]
    exact hd
  rw [lose, if_pos hknown]

theorem finish_calm (rs : ReedSolomon) {r : Reassembler} {k : Nat} {now : Instant}
    (h : ∀ p, r.frames.get? k = some (.part p) → (assemble rs k p now).isSome = true) :
    Calm r (r.finish rs k now) := by
  unfold finish
  split
  · rename_i p hp
    obtain ⟨out, hout⟩ := Option.isSome_iff_exists.mp (h p hp)
    simp only [hout]
    split <;> exact Calm.of_same rfl rfl
  · exact Calm.of_same rfl rfl

theorem deliver_calm {r t : Reassembler} {k : Nat} {now : Instant}
    (h : r.deliver k now = some t) : Calm r t := by
  unfold deliver at h
  split at h
  · obtain rfl := Option.some.inj h
    exact ⟨rfl, fun _ => rfl⟩
  · exact absurd h nofun

theorem drainStep_calm {r t : Reassembler} {now : Instant} (h : drainStep now r = some t) :
    Calm r t := by
  unfold drainStep at h
  split at h
  · split at h
    · exact deliver_calm h
    · obtain rfl := Option.some.inj h
      exact ⟨rfl, fun _ => rfl⟩
    · split at h
      · obtain rfl := Option.some.inj h
        exact skip_calm r _ _
      · exact absurd h nofun
    · exact absurd h nofun
  all_goals
    split at h
    · exact absurd h nofun
    · refine Calm.trans ?_ (deliver_calm h)
      exact Calm.of_same rfl rfl

theorem drain_calm (r : Reassembler) (now : Instant) : Calm r (r.drain now) :=
  loop_induct (P := Calm r) (fun _ _ hs hst => hs.trans (drainStep_calm hst)) _
    (Calm.of_same rfl rfl)

/-- An eviction's turn asks for no refresh when the frame it gives up was said to be one nothing
refers to. -/
theorem evictStep_calm {r t : Reassembler} {now : Instant} {heard : List MediaHeader}
    (hr : Told heard r.frames) (h : evictStep now r = some t)
    (hsaid : ∀ k ∈ r.evicts, Said heard k) : Calm r t := by
  have hlose : ∀ k s missing, r.frames.first? = some (k, s) → r.evicts = [k] →
      (∃ begun d, s.known = some (begun, d)) → Calm r (r.lose k missing now) := by
    rintro k s missing hfirst hevicts ⟨begun, d, hknown⟩
    have hs := (OrdMap.first?_eq_some hfirst).1
    have hd := (hr k s begun d hs hknown).1 (hsaid k (by simp [hevicts]))
    rw [lose_calm hs ((Slot.discardable_of_known hknown).trans hd)]
    exact skip_calm r k missing
  unfold evictStep at h
  split at h
  · exact absurd h nofun
  · split at h
    · exact absurd h nofun
    · obtain rfl := Option.some.inj h
      exact Calm.of_same rfl rfl
    · rename_i frame _
      obtain rfl := Option.some.inj h
      refine ⟨rfl, fun hr => ?_⟩
      by_cases hneed : r.need = .frame frame
      · simp only [awaitingRefresh, if_pos hneed]
      · simpa only [awaitingRefresh, if_neg hneed] using hr
    · rename_i hfirst
      obtain rfl := Option.some.inj h
      exact hlose _ _ _ hfirst (by simp [evicts, hfirst]) ⟨_, _, rfl⟩
    · rename_i hfirst
      obtain rfl := Option.some.inj h
      exact hlose _ _ _ hfirst (by simp [evicts, hfirst]) ⟨_, _, rfl⟩

theorem evict_calm {heard : List MediaHeader} {now : Instant} (fuel : Nat) {r : Reassembler}
    (hr : Told heard r.frames) (hsaid : ∀ k ∈ evicted now fuel r, Said heard k) :
    Calm r (loop (evictStep now) fuel r) := by
  induction fuel generalizing r with
  | zero => exact Calm.of_same rfl rfl
  | succ fuel ih =>
    simp only [loop]
    simp only [evicted] at hsaid
    cases hstep : evictStep now r with
    | none => exact Calm.of_same rfl rfl
    | some t =>
      rw [hstep] at hsaid
      have hturn := evictStep_calm hr hstep fun k hk => hsaid k (List.mem_append_left _ hk)
      exact hturn.trans (ih ((evictStep_settles hstep).told hr) fun k hk =>
        hsaid k (List.mem_append_right _ hk))

/-! #### A fragment -/

theorem openGap_calm {r : Reassembler} {frame : Nat} {now : Instant} (h : r.jumped frame = []) :
    Calm r (r.openGap frame now) := by
  unfold jumped at h
  unfold openGap
  split
  · rename_i next hneed
    simp only [hneed] at h
    dsimp only
    split
    · rename_i hwide
      rw [if_pos hwide, List.range'_eq_nil_iff] at h
      rw [h] at hwide
      exact absurd hwide (Nat.not_lt_zero _)
    · exact Calm.of_same rfl rfl
  · exact Calm.of_same rfl rfl
  · exact Calm.of_same rfl rfl

theorem markPrevious_calm (r : Reassembler) (header : MediaHeader) (frame : Nat) :
    Calm r (r.markPrevious header frame) := by
  unfold markPrevious
  split
  · split <;> exact Calm.of_same rfl rfl
  · exact Calm.of_same rfl rfl

theorem beforeFragment_calm {r : Reassembler} {header : MediaHeader} (now : Instant)
    (h : r.jumped header.frame.toNat = []) : Calm r (r.beforeFragment header now) := by
  have harrived : Calm r { r with anyArrived := true } := Calm.of_same rfl rfl
  exact (harrived.trans (openGap_calm h)).trans (markPrevious_calm _ header _)

theorem storeFragment_eq_stored (rs : ReedSolomon) (r : Reassembler) (header : MediaHeader)
    (payload : Bytes) (now : Instant) :
    (r.storeFragment rs header payload now).1 =
      ((r.stored rs header payload now).map fun t => t.evict now).getD
        (r.openPartial header header.frame.toNat payload now).1 := by
  unfold storeFragment stored
  dsimp only
  generalize r.openPartial header header.frame.toNat payload now = opened
  obtain ⟨t, p⟩ := opened
  cases p with
  | none => rfl
  | some p =>
    dsimp only
    have hrefuses : Slot.refuses header payload (.part p) =
        (decide (p.dataCount ≠ header.dataCount.toNat ∨
          p.shards.length ≠ header.dataCount.toNat + header.parityCount.toNat ∨
          p.shardBytes ≠ payload.length) || !decide (p.shards[header.index.toNat]? = some none)) :=
      rfl
    split
    · rename_i hshape
      rw [decide_eq_true hshape, Bool.true_or] at hrefuses
      rw [if_pos hrefuses]
      rfl
    · rename_i hshape
      rw [decide_eq_false hshape, Bool.false_or] at hrefuses
      split
      · rename_i hcell
        rw [if_pos (hrefuses.trans (by rw [hcell]; rfl))]
        rfl
      · rename_i hcell
        rw [if_pos (hrefuses.trans (by rw [hcell]; rfl))]
        rfl
      · rename_i hcell
        have htakes : Slot.refuses header payload (.part p) = false :=
          hrefuses.trans (by rw [hcell]; rfl)
        simp only [htakes, Bool.false_eq_true, if_false]
        rfl

theorem stored_calm {rs : ReedSolomon} {r t : Reassembler} {header : MediaHeader} {payload : Bytes}
    {now : Instant} (h : r.stored rs header payload now = some t)
    (hwhole : r.spoils rs header payload now = false) : Calm r t := by
  unfold stored at h
  unfold spoils at hwhole
  have hopened : Calm r (r.openPartial header header.frame.toNat payload now).1 := by
    unfold openPartial
    split <;> exact Calm.of_same rfl rfl
  generalize r.openPartial header header.frame.toNat payload now = opened at h hwhole hopened
  obtain ⟨s, p⟩ := opened
  cases p with
  | none => exact absurd h nofun
  | some p =>
    dsimp only at h hwhole hopened
    split at h
    · exact absurd h nofun
    · rename_i htakes
      obtain rfl := Option.some.inj h
      refine hopened.trans (Calm.trans ?_ (drain_calm _ now))
      split
      · rename_i hcomplete
        have hplaced : Calm s { s with
            frames := s.frames.insert header.frame.toNat
              (.part (p.store header.index.toNat payload header now)) } := Calm.of_same rfl rfl
        refine hplaced.trans (finish_calm rs fun q hq => ?_)
        rw [OrdMap.get?_insert_self] at hq
        obtain rfl := Slot.part.inj (Option.some.inj hq)
        rw [Bool.not_eq_true] at htakes
        rw [htakes, hcomplete] at hwhole
        simpa using hwhole
      · exact Calm.of_same rfl rfl

theorem stored_settles {rs : ReedSolomon} {r t : Reassembler} {header : MediaHeader}
    {payload : Bytes} {now : Instant} (h : r.stored rs header payload now = some t) :
    Settles (r.openPartial header header.frame.toNat payload now).1.frames t.frames := by
  unfold stored at h
  have hslot : ∀ s p, r.openPartial header header.frame.toNat payload now = (s, some p) →
      s.frames.get? header.frame.toNat = some (.part p) := fun s p hopen => openPartial_slot hopen p rfl
  generalize r.openPartial header header.frame.toNat payload now = opened at h hslot
  obtain ⟨s, p⟩ := opened
  cases p with
  | none => exact absurd h nofun
  | some p =>
    dsimp only at h
    split at h
    · exact absurd h nofun
    · obtain rfl := Option.some.inj h
      refine Settles.trans ?_ (drain_settles _ now)
      refine (Settles.insert s.frames header.frame.toNat
        (s := .part (p.store header.index.toNat payload header now))
        (Or.inr ⟨_, hslot s p rfl, rfl⟩)).trans ?_
      split
      · exact finish_settles rs _ _ now
      · exact Settles.rfl _

/-- A fragment asks for no refresh when every frame given up over it was said to be one nothing
refers to. -/
theorem ingestVideo_calm (rs : ReedSolomon) {r : Reassembler} {heard : List MediaHeader}
    {header : MediaHeader} {payload : Bytes} {now : Instant}
    (hvalid : validFragment header payload = true) (hr : Told heard r.frames)
    (h : Heeded rs r heard header payload now)
    (hjumped : r.stale header.frame.toNat = false → ∀ k ∈ r.jumped header.frame.toNat,
      Said (heard ++ [header]) k)
    (hspoiled : r.stale header.frame.toNat = false →
      (r.beforeFragment header now).spoils rs header payload now = true →
      Said (heard ++ [header]) header.frame.toNat)
    (hevicted : r.stale header.frame.toNat = false → ∀ t,
      (r.beforeFragment header now).stored rs header payload now = some t →
      ∀ k ∈ evicted now (weight t.frames) t, Said (heard ++ [header]) k) :
    Calm r (r.ingestVideo rs header payload now).1 := by
  cases hstale : r.stale header.frame.toNat with
  | true =>
    rw [ingestVideo_of_stale rs r now hstale]
    exact Calm.of_same rfl rfl
  | false =>
    have hnojump : r.jumped header.frame.toNat = [] := by
      by_contra hne
      obtain ⟨k, hk, hnot⟩ := h.jumped hstale hne
      exact hnot (hjumped hstale k hk)
    have hwhole : (r.beforeFragment header now).spoils rs header payload now = false := by
      by_contra hspoils
      rw [Bool.not_eq_false] at hspoils
      exact h.whole hstale hspoils (hspoiled hstale hspoils)
    have hbefore := beforeFragment_calm now hnojump
    have hopen : Told (heard ++ [header]) ((r.beforeFragment header now).openPartial header
        header.frame.toNat payload now).1.frames := by
      refine openPartial_told ?_ ?_ ?_
      · intro k s begun d hk hs hknown
        exact beforeFragment_told hr (h.reopened hstale) hk hs hknown
      · rw [beforeFragment_get?]
        intro s begun d hs hknown
        exact hr _ s begun d hs hknown
      · rw [beforeFragment_get?]
        exact h.opened hstale
    rw [ingestVideo_of_wanted rs r now hvalid hstale, storeFragment_eq_stored]
    cases hstored : (r.beforeFragment header now).stored rs header payload now with
    | none =>
      refine hbefore.trans ?_
      show Calm _ ((r.beforeFragment header now).openPartial header header.frame.toNat payload now).1
      unfold openPartial
      split <;> exact Calm.of_same rfl rfl
    | some t =>
      refine (hbefore.trans (stored_calm hstored hwhole)).trans ?_
      exact evict_calm _ ((stored_settles hstored).told hopen) (hevicted hstale t hstored)

theorem endSilence_calm (r : Reassembler) (header : MediaHeader) (now : Instant) :
    Calm r (r.endSilence header now) := by
  apply endSilence_induct (P := Calm r)
  · exact fun s t hst hs => hs.trans (Calm.of_same hst.actions hst.need)
  · intro s hs
    refine hs.trans ?_
    unfold resume
    split <;> exact Calm.of_same rfl rfl
  · exact Calm.of_same rfl rfl

/-! #### A tick -/

theorem foldl_lose_calm {lost : List (Nat × Nat)} (hlost : (lost.map Prod.fst).Nodup)
    {r : Reassembler} (now : Instant)
    (hr : ∀ k ∈ lost.map Prod.fst, ∃ s, r.frames.get? k = some s ∧ s.discardable = true) :
    Calm r (lost.foldl (fun r fm => r.lose fm.1 fm.2 now) r) := by
  induction lost generalizing r with
  | nil => exact Calm.of_same rfl rfl
  | cons fm lost ih =>
    obtain ⟨hfm, hlost⟩ := List.nodup_cons.mp hlost
    obtain ⟨s, hs, hd⟩ := hr fm.1 (by simp)
    rw [List.foldl_cons, lose_calm hs hd fm.2 now]
    refine (skip_calm r fm.1 fm.2).trans (ih hlost fun k hk => ?_)
    obtain ⟨t, ht, htd⟩ := hr k (by simp [hk])
    refine ⟨t, ?_, htd⟩
    show (r.frames.insert fm.1 .skipped).get? k = some t
    rw [OrdMap.get?_insert, if_neg]
    · exact ht
    · rintro rfl
      exact hfm hk

/-- A frame past its deadline is one still waited for, as it was when the `tick` began. -/
theorem mem_tickFrames_lost {r : Reassembler} {c : TickClock} {k : Nat}
    (hk : k ∈ (r.tickFrames c).2.map Prod.fst) :
    ∃ s begun d, r.frames.get? k = some s ∧ s.known = some (begun, d) ∧
      (r.tickFrames c).1.frames.get? k = some s := by
  obtain ⟨⟨j, missing⟩, hmem, rfl⟩ := List.mem_map.mp hk
  obtain ⟨⟨j', s⟩, hentry, hverdict⟩ := List.mem_filterMap.mp hmem
  have hget := OrdMap.get?_eq_some_iff.mpr hentry
  cases hv : tickVerdict c j' s with
  | wait => simp [hv] at hverdict
  | ask fragments => simp [hv] at hverdict
  | lost n =>
    simp only [hv, Option.some.injEq, Prod.mk.injEq] at hverdict
    obtain ⟨rfl, rfl⟩ := hverdict
    have hkept : (r.tickFrames c).1.frames.get? j' = some s := by
      show (r.frames.mapVal (tickSlot c)).get? j' = some s
      rw [OrdMap.get?_mapVal, hget]
      simp [tickSlot, hv]
    cases s with
    | unknown f n a d => exact ⟨_, false, d, hget, rfl, hkept⟩
    | part p => exact ⟨_, true, p.discardable, hget, rfl, hkept⟩
    | complete out f => simp [tickVerdict] at hv
    | skipped => simp [tickVerdict] at hv

theorem nodup_tickFrames_lost (r : Reassembler) (c : TickClock) :
    ((r.tickFrames c).2.map Prod.fst).Nodup := by
  have hsub : ((r.tickFrames c).2.map Prod.fst).Sublist (r.frames.entries.map Prod.fst) := by
    unfold tickFrames
    dsimp only
    induction r.frames.entries with
    | nil => exact List.Sublist.refl _
    | cons e l ih =>
      rw [List.map_cons]
      cases hv : tickVerdict c e.1 e.2 with
      | wait =>
        rw [List.filterMap_cons_none (by simp [hv])]
        exact ih.cons _
      | ask fragments =>
        rw [List.filterMap_cons_none (by simp [hv])]
        exact ih.cons _
      | lost missing =>
        rw [List.filterMap_cons_some (b := (e.1, missing)) (by simp [hv]), List.map_cons]
        exact ih.cons_cons _
  refine hsub.nodup ?_
  rw [List.nodup_iff_pairwise_ne, List.pairwise_map]
  exact r.frames.sorted.imp fun h => h.ne

theorem tickFrames_calm (r : Reassembler) (c : TickClock) : Calm r (r.tickFrames c).1 := by
  refine ⟨?_, id⟩
  unfold tickFrames
  dsimp only
  rw [List.countP_append, Nat.add_eq_left, List.countP_eq_zero]
  intro a ha
  obtain ⟨e, -, he⟩ := List.mem_filterMap.mp ha
  split at he
  · rw [← Option.some.inj he]
    exact nofun
  · exact absurd he nofun
  · exact absurd he nofun

theorem losing_calm {r : Reassembler} {heard : List MediaHeader} (hr : Told heard r.frames)
    (now : Instant) (rtt : Duration)
    (hsaid : ∀ k ∈ ((r.startTick now rtt).tickFrames
      ((r.startTick now rtt).tickClock now rtt)).2.map Prod.fst, Said heard k) :
    Calm r (r.losing now rtt) := by
  set s := r.startTick now rtt with hs
  have hstart : Calm r s := by
    rw [hs]
    unfold startTick
    dsimp only
    split <;> exact Calm.of_same rfl rfl
  have hframes : s.frames = r.frames := startTick_frames r now rtt
  have hasked : Calm s (s.tickFrames (s.tickClock now rtt)).1 := tickFrames_calm s _
  refine (hstart.trans hasked).trans (foldl_lose_calm (nodup_tickFrames_lost s _) now ?_)
  intro k hk
  obtain ⟨u, begun, d, hu, hknown, hkept⟩ := mem_tickFrames_lost hk
  rw [hframes] at hu
  exact ⟨u, hkept,
    (Slot.discardable_of_known hknown).trans ((hr k u begun d hu hknown).1 (hsaid k hk))⟩

theorem repeatRefresh_inOrder {r : Reassembler} {c : TickClock} (h : c.inOrder = true)
    (rtt : Duration) : r.repeatRefresh c rtt = r := by
  unfold repeatRefresh
  simp [h]

end Reassembler

/-! ### Runs -/

def Heeds (rs : ReedSolomon) (s : Hearing) : Op → Prop
  | .ingest datagram now => ∀ header payload,
      s.reassembler.fragment? datagram = some (header, payload) →
      (s.reassembler.endSilence header now).Heeded rs s.heard header payload now
  | .tick .. | .forceRefresh .. | .setSourceLive _ | .nextFrame => True

open Reassembler in
theorem Told.step (rs : ReedSolomon) {s : Hearing} (hs : Told s.heard s.reassembler.frames)
    {op : Op} (hop : Heeds rs s op) :
    Told (s.step rs op).heard (s.step rs op).reassembler.frames := by
  obtain ⟨r, heard⟩ := s
  have hquiet : ∀ t : OrdMap Nat Slot, Settles r.frames t → Told (heard ++ []) t := by
    intro t ht
    rw [List.append_nil]
    exact ht.told hs
  cases op with
  | ingest datagram now =>
    show Told (heard ++ ((r.fragment? datagram).map Prod.fst).toList)
      (r.ingest rs datagram now).1.frames
    cases hfragment : r.fragment? datagram with
    | none =>
      refine hquiet _ ?_
      refine ingest_of_other rs now (P := fun t => Settles r.frames t.frames) hfragment
        (Settles.rfl _) (fun header => endSilence_settles r header now) fun t u htu ht => ?_
      rw [htu.frames]
      exact ht
    | some fragment =>
      obtain ⟨header, payload⟩ := fragment
      obtain ⟨hingest, hvalid⟩ := ingest_of_fragment rs now hfragment
      rw [hingest]
      exact ingestVideo_told rs hvalid ((endSilence_settles r header now).told hs)
        (hop header payload hfragment)
  | tick now rtt => exact hquiet _ (tick_settles r now rtt)
  | forceRefresh now keyframe =>
    refine hquiet _ ?_
    have hframes : (r.forceRefresh now keyframe).frames = r.frames := by
      unfold forceRefresh
      dsimp only
      split <;> rfl
    show Settles r.frames (r.forceRefresh now keyframe).frames
    rw [hframes]
    exact Settles.rfl _
  | setSourceLive live =>
    refine hquiet _ ?_
    have hframes : (r.setSourceLive live).frames = r.frames := by
      unfold setSourceLive
      split
      · split <;> rfl
      · rfl
    show Settles r.frames (r.setSourceLive live).frames
    rw [hframes]
    exact Settles.rfl _
  | nextFrame =>
    refine hquiet _ ?_
    have hframes : r.nextFrame.1.frames = r.frames := by
      unfold nextFrame
      split <;> rfl
    show Settles r.frames r.nextFrame.1.frames
    rw [hframes]
    exact Settles.rfl _

/-- No refresh is asked for on account of a frame: what is sent in the step holds as many requests
as before, but for a repeat of the one that is waited for; and frames that leave in order go on
doing so. -/
def Spares (rs : ReedSolomon) (r : Reassembler) : Op → Prop
  | .ingest datagram now =>
      (r.ingest rs datagram now).1.actions.countP Action.isRefresh =
        r.actions.countP Action.isRefresh ∧
      ∀ n, r.need = .frame n → ∃ m, (r.ingest rs datagram now).1.need = .frame m
  | .tick now rtt =>
      (r.losing now rtt).actions.countP Action.isRefresh = r.actions.countP Action.isRefresh ∧
      ∀ n, r.need = .frame n → (r.tick now rtt).2.countP Action.isRefresh =
        r.actions.countP Action.isRefresh ∧ ∃ m, (r.tick now rtt).1.need = .frame m
  | .forceRefresh .. | .setSourceLive _ | .nextFrame => True

open Reassembler in
theorem need_of_calm {r t : Reassembler} (h : Calm r t) {n : Nat} (hn : r.need = .frame n) :
    ∃ m, t.need = .frame m := by
  have ht := h.inOrder (by simp [awaitingRefresh, hn])
  cases hneed : t.need with
  | frame m => exact ⟨m, rfl⟩
  | keyframe => simp [awaitingRefresh, hneed] at ht
  | refresh => simp [awaitingRefresh, hneed] at ht

open Reassembler in
theorem spares_of_told (rs : ReedSolomon) {s : Hearing} (hs : Told s.heard s.reassembler.frames)
    {op : Op} (hop : Heeds rs s op)
    (hsaid : ∀ k ∈ s.reassembler.givesUp rs op, Said (s.step rs op).heard k) :
    Spares rs s.reassembler op := by
  obtain ⟨r, heard⟩ := s
  cases op with
  | ingest datagram now =>
    change ∀ k ∈ r.givesUp rs (.ingest datagram now),
      Said (heard ++ ((r.fragment? datagram).map Prod.fst).toList) k at hsaid
    unfold givesUp at hsaid
    have hcalm : Calm r (r.ingest rs datagram now).1 := by
      cases hfragment : r.fragment? datagram with
      | none =>
        exact ingest_of_other rs now (P := Calm r) hfragment (Calm.of_same rfl rfl)
          (fun header => endSilence_calm r header now)
          fun t u htu ht => ht.trans (Calm.of_same htu.actions htu.need)
      | some fragment =>
        obtain ⟨header, payload⟩ := fragment
        obtain ⟨hingest, hvalid⟩ := ingest_of_fragment rs now hfragment
        simp only [hfragment] at hsaid
        rw [hingest]
        refine (endSilence_calm r header now).trans ?_
        refine ingestVideo_calm rs hvalid ((endSilence_settles r header now).told hs)
          (hop header payload hfragment) ?_ ?_ ?_
        · intro hstale k hk
          rw [if_neg (Bool.eq_false_iff.mp hstale)] at hsaid
          exact hsaid k (List.mem_append_left _ (List.mem_append_left _ hk))
        · intro hstale hspoils
          rw [if_neg (Bool.eq_false_iff.mp hstale), if_pos hspoils] at hsaid
          exact hsaid _ (List.mem_append_left _ (List.mem_append_right _ (by simp)))
        · intro hstale t ht k hk
          rw [if_neg (Bool.eq_false_iff.mp hstale)] at hsaid
          simp only [ht] at hsaid
          exact hsaid k (List.mem_append_right _ hk)
    exact ⟨hcalm.refreshes, fun n hn => need_of_calm hcalm hn⟩
  | tick now rtt =>
    change ∀ k ∈ ((r.startTick now rtt).tickFrames ((r.startTick now rtt).tickClock now rtt)).2.map
      Prod.fst, Said (heard ++ []) k at hsaid
    rw [List.append_nil] at hsaid
    have hlosing := losing_calm hs now rtt hsaid
    refine ⟨hlosing.refreshes, fun n hn => ?_⟩
    change r.need = .frame n at hn
    have hinOrder : ((r.startTick now rtt).tickClock now rtt).inOrder = true := by
      have hneed : (r.startTick now rtt).need = r.need := by
        unfold startTick
        dsimp only
        split <;> rfl
      simp [tickClock, awaitingRefresh, hneed, hn]
    have hcalm := hlosing.trans (drain_calm (r.losing now rtt) now)
    rw [tick_eq_losing]
    simp only [repeatRefresh_inOrder hinOrder]
    exact ⟨hcalm.refreshes, need_of_calm hcalm hn⟩
  | forceRefresh now keyframe => trivial
  | setSourceLive live => trivial
  | nextFrame => trivial

/-- In every run in which what the fragments say is heeded, a step in which every frame given up was
said to be one nothing refers to asks for no refresh on their account. -/
theorem discardable_spares_refresh (rs : ReedSolomon) (stream : UInt32) (cfg : Config)
    (now : Instant) (ops : List Op) (op : Op)
    (hops : EachStep (Hearing.step rs) (Heeds rs) (Hearing.start stream cfg now) (ops ++ [op]))
    (hsaid : ∀ k ∈ ((Hearing.start stream cfg now).run rs ops).reassembler.givesUp rs op,
      Said ((Hearing.start stream cfg now).run rs (ops ++ [op])).heard k) :
    Spares rs ((Hearing.start stream cfg now).run rs ops).reassembler op := by
  obtain ⟨hbefore, hop, -⟩ := EachStep.append.mp hops
  have htold : Told ((Hearing.start stream cfg now).run rs ops).heard
      ((Hearing.start stream cfg now).run rs ops).reassembler.frames :=
    hbefore.foldl (P := fun s => Told s.heard s.reassembler.frames)
      (fun _ _ hs hop => hs.step rs hop) (fun k s begun d hk => absurd hk nofun)
  have hrun : (Hearing.start stream cfg now).run rs (ops ++ [op]) =
      ((Hearing.start stream cfg now).run rs ops).step rs op := List.foldl_append ..
  rw [hrun] at hsaid
  exact spares_of_told rs htold hop hsaid

/-- The first of `dataCount` fragments of a frame, too short to hold its prefix. -/
def stub (n : UInt32) (dataCount : UInt16) (flags : UInt8) : MediaHeader where
  channel := channelMedia
  stream := 7
  frame := n
  index := 0
  dataCount := dataCount
  parityCount := 0
  kind := Kind.videoData.toUInt8
  flags := flags
  sendMsLo := 0

def stubDatagram (n : UInt32) (dataCount : UInt16) (flags : UInt8) : Op :=
  .ingest ((stub n dataCount flags).asBytes ++ [0, 0]) (Asking.atMs 100)

/-- Frame 0 is taken; half of frame 2 comes, saying that nothing refers to it or to frame 1. -/
def saidOfTwo : List Op :=
  [.ingest (firstDatagram 0 tinyFrame) (Asking.atMs 100), stubDatagram 2 2 48]

def wholeFirst : MediaHeader × Bytes :=
  (MediaHeader.parse (firstDatagram 0 tinyFrame)).getD (stub 0 1 0, [])

theorem heeds_of_fragment {rs : ReedSolomon} {s : Hearing} {datagram : Bytes} {now : Instant}
    (header : MediaHeader) (payload : Bytes)
    (h : s.reassembler.fragment? datagram = some (header, payload))
    (hheeded : (s.reassembler.endSilence header now).Heeded rs s.heard header payload now) :
    Heeds rs s (.ingest datagram now) := by
  intro header' payload' h'
  obtain ⟨rfl, rfl⟩ := Prod.mk.inj (Option.some.inj (h.symm.trans h'))
  exact hheeded

/-- Both time out, and neither is worth a refresh. -/
theorem discardable_spares_refresh_two :
    Spares copies ((Hearing.start 7 {} 0).run copies saidOfTwo).reassembler
        (.tick (Asking.atMs 700) (Duration.millis 20)) ∧
      ((Hearing.start 7 {} 0).run copies saidOfTwo).reassembler.givesUp copies
        (.tick (Asking.atMs 700) (Duration.millis 20)) = [1, 2] := by
  have hlost : ((Hearing.start 7 {} 0).run copies saidOfTwo).reassembler.givesUp copies
      (.tick (Asking.atMs 700) (Duration.millis 20)) = [1, 2] := by decide +kernel
  refine ⟨discardable_spares_refresh copies 7 {} 0 saidOfTwo _ ?_ ?_, hlost⟩
  · refine ⟨?_, ?_, trivial, trivial⟩
    · refine heeds_of_fragment wholeFirst.1 wholeFirst.2 (by decide +kernel)
        ⟨?_, ?_, ?_, ?_, ?_⟩
      · exact fun h => absurd h (by decide +kernel)
      all_goals decide +kernel
    · refine heeds_of_fragment (stub 2 2 48) [0, 0] (by decide +kernel)
        ⟨?_, ?_, ?_, ?_, ?_⟩
      · exact fun h => absurd h (by decide +kernel)
      all_goals decide +kernel
  · rw [hlost]
    decide +kernel

/-- A frame nothing refers to comes whole, and does not assemble. -/
theorem spoiled_asks_refresh :
    let s := (Hearing.start 7 {} 0).run copies [.ingest (firstDatagram 0 tinyFrame) (Asking.atMs 100)]
    let op := stubDatagram 1 1 16
    (∀ k ∈ s.reassembler.givesUp copies op, Said (s.step copies op).heard k) ∧
      s.reassembler.need = .frame 1 ∧ (s.step copies op).reassembler.need = .refresh ∧
      (s.step copies op).reassembler.actions = [.requestRefresh 0 false] ∧
      ¬ Spares copies s.reassembler op := by
  refine ⟨by decide +kernel, by decide +kernel, by decide +kernel, by decide +kernel, ?_⟩
  rintro ⟨hrefreshes, -⟩
  revert hrefreshes
  decide +kernel

end Slopty.Media.Reassemble
