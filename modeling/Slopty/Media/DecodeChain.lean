import Slopty.Media.Reassembler

/-!
The reassembler refines the decode chain: whatever datagrams come, in whatever
order, each operation is a path of chain moves, so what it delivers is safe to
decode.
-/

namespace Slopty.Media.Reassemble

open Slopty.Lib
open Slopty.Media.Fec
open Slopty.Media.Wire

/-- The frames stepped over, newest first. -/
def skips (tr : List Event) : List Nat :=
  (tr.filterMap fun e => match e with
    | .skipped f _ => some f
    | _ => none).reverse

namespace Reassembler

def chain (r : Reassembler) : Chain := ⟨r.need, r.lastGood, skips r.trace⟩

end Reassembler

def SlotOk (c : Chain) (k : Nat) (s : Slot) : Prop :=
  k < 2 ^ 32 ∧ (∀ n, c.need = .frame n → n ≤ k) ∧
    match s with
    | .unknown .. => True
    | .part _ => ∀ g ∈ c.last, g < k
    | .complete out _ => out.info.frame = k ∧ ∀ g ∈ c.last, g < k
    | .skipped => k ∈ c.passed

/-- Every slot is accounted for. -/
def Tracked (r : Reassembler) : Prop :=
  ∀ k s, r.frames.get? k = some s → SlotOk r.chain k s

/-- An event that happens inside an operation, not by the owner's hand. -/
def Event.inner : Event → Bool
  | .delivered .. | .skipped .. => true
  | .forced _ | .taken _ => false

/-- `t` follows from `r` by the moves that record `es`; what they hand over
waits in the queue. -/
structure Adds (r : Reassembler) (es : List Event) (t : Reassembler) : Prop where
  trace : t.trace = r.trace ++ es
  path : Chain.Path r.chain es t.chain
  queue : ∃ outs, t.ready = r.ready ++ outs ∧ outs.map FrameOut.info = deliveries es
  inner : ∀ e ∈ es, e.inner = true

/-- From `r` to `t` by moves of the chain, every slot still accounted for. -/
structure Reaches (r t : Reassembler) : Prop where
  tracked : Tracked t
  adds : ∃ es, Adds r es t

theorem Adds.trans {r s t : Reassembler} {es fs : List Event} (h : Adds r es s)
    (h' : Adds s fs t) : Adds r (es ++ fs) t where
  trace := by rw [h'.trace, h.trace, List.append_assoc]
  path := h.path.trans h'.path
  queue := by
    obtain ⟨outs, hready, houts⟩ := h.queue
    obtain ⟨outs', hready', houts'⟩ := h'.queue
    refine ⟨outs ++ outs', by rw [hready', hready, List.append_assoc], ?_⟩
    rw [List.map_append, houts, houts', deliveries_append]
  inner := by
    intro e he
    rcases List.mem_append.mp he with he | he
    · exact h.inner e he
    · exact h'.inner e he

theorem Adds.ofMove {r t : Reassembler} {es : List Event} (htrace : t.trace = r.trace ++ es)
    (hmove : Chain.Move r.chain es t.chain) (hready : t.ready = r.ready)
    (hes : deliveries es = []) (hinner : ∀ e ∈ es, e.inner = true) : Adds r es t :=
  ⟨htrace, Chain.Path.single hmove, ⟨[], by rw [hready, List.append_nil], by rw [hes]; rfl⟩, hinner⟩

theorem Reaches.trans {r s t : Reassembler} (h : Reaches r s) (h' : Reaches s t) :
    Reaches r t := by
  obtain ⟨es, hes⟩ := h.adds
  obtain ⟨fs, hfs⟩ := h'.adds
  exact ⟨h'.tracked, es ++ fs, hes.trans hfs⟩

theorem Reaches.next {r s t : Reassembler} (h : Reaches r s) (h' : Tracked s → Reaches s t) :
    Reaches r t :=
  h.trans (h' h.tracked)

/-- Nothing a decoder can see moved. -/
structure Still (r t : Reassembler) : Prop where
  need : t.need = r.need
  lastGood : t.lastGood = r.lastGood
  ready : t.ready = r.ready
  trace : t.trace = r.trace

theorem Reaches.of_slots {r t : Reassembler} (hstill : Still r t)
    (hslots : ∀ k s, t.frames.get? k = some s → SlotOk r.chain k s) : Reaches r t := by
  have hchain : t.chain = r.chain := by
    simp only [Reassembler.chain, hstill.need, hstill.lastGood, hstill.trace]
  refine ⟨?_, [], ?_⟩
  · intro k s hs
    rw [hchain]
    exact hslots k s hs
  · exact
      { trace := by simpa using hstill.trace
        path := by simpa [hchain] using Chain.Path.refl r.chain
        queue := ⟨[], by simp [hstill.ready], rfl⟩
        inner := by simp }

theorem Reaches.quiet {r t : Reassembler} (h : Tracked r) (hframes : t.frames = r.frames)
    (hstill : Still r t) : Reaches r t :=
  Reaches.of_slots hstill fun k s hs => h k s (hframes ▸ hs)

theorem Reaches.still {r s t : Reassembler} (h : Reaches r s) (hframes : t.frames = s.frames)
    (hstill : Still s t) : Reaches r t :=
  h.trans (Reaches.quiet h.tracked hframes hstill)

theorem Reaches.refl {r : Reassembler} (h : Tracked r) : Reaches r r :=
  Reaches.quiet h rfl ⟨rfl, rfl, rfl, rfl⟩

theorem tracked_new (stream : UInt32) (cfg : Config) (now : Instant) :
    Tracked (Reassembler.new stream cfg now) := by
  intro k s hs
  simp [Reassembler.new] at hs

/-- A slot changed in place keeps its account when it stays of its kind. -/
def SameKind : Slot → Slot → Prop
  | .unknown .., .unknown .. => True
  | .part _, .part _ => True
  | .complete out f, .complete out' f' => out = out' ∧ f = f'
  | .skipped, .skipped => True
  | _, _ => False

theorem SlotOk.sameKind {c : Chain} {k : Nat} {s t : Slot} (h : SlotOk c k s)
    (hst : SameKind s t) : SlotOk c k t := by
  obtain ⟨hk, hneed, hs⟩ := h
  refine ⟨hk, hneed, ?_⟩
  cases s <;> cases t <;> simp_all [SameKind]

theorem Reaches.mapVal {r t : Reassembler} (h : Tracked r) (f : Nat → Slot → Slot)
    (hf : ∀ k s, SameKind s (f k s)) (hframes : t.frames = r.frames.mapVal f)
    (hstill : Still r t) : Reaches r t := by
  apply Reaches.of_slots hstill
  intro k s hs
  rw [hframes, OrdMap.get?_mapVal, Option.map_eq_some_iff] at hs
  obtain ⟨s', hs', rfl⟩ := hs
  exact (h k s' hs').sameKind (hf k s')

namespace Reassembler

theorem erase_reaches {r : Reassembler} (h : Tracked r) (k : Nat) :
    Reaches r { r with frames := r.frames.erase k } := by
  refine Reaches.of_slots ⟨rfl, rfl, rfl, rfl⟩ ?_
  intro j s hs
  rw [OrdMap.get?_erase] at hs
  split at hs
  · simp at hs
  · exact h j s hs

theorem retain_reaches {r : Reassembler} (h : Tracked r) (p : Nat → Slot → Bool) :
    Reaches r { r with frames := r.frames.retain p } := by
  refine Reaches.of_slots ⟨rfl, rfl, rfl, rfl⟩ ?_
  intro j s hs
  rw [OrdMap.get?_retain, Option.filter_eq_some_iff] at hs
  exact h j s hs.1

theorem insert_reaches {r : Reassembler} (h : Tracked r) {k : Nat} {s : Slot}
    (hs : SlotOk r.chain k s) : Reaches r { r with frames := r.frames.insert k s } := by
  refine Reaches.of_slots ⟨rfl, rfl, rfl, rfl⟩ ?_
  intro j t ht
  rw [OrdMap.get?_insert] at ht
  split at ht
  · rename_i hjk
    subst hjk
    exact Option.some.inj ht ▸ hs
  · exact h j t ht

/-- Leaving the order of frames for a refresh is a move of the chain. -/
theorem enterRefresh_reaches {r₀ r : Reassembler} (h : Reaches r₀ r) {n : Nat}
    (hneed : r.need = .frame n) (now : Instant) : Reaches r₀ (r.enterRefresh now) := by
  refine h.trans ⟨?_, [], ?_⟩
  · intro k s hs
    obtain ⟨hk, -, hslot⟩ := h.tracked k s hs
    exact ⟨hk, by simp [chain, enterRefresh, requestRefresh], hslot⟩
  · exact Adds.ofMove (by simp [enterRefresh, requestRefresh])
      (Chain.Move.lose r.chain n hneed) rfl rfl (by simp)

theorem requestRefresh_reaches {r : Reassembler} (h : Tracked r) (now : Instant) (again : Bool) :
    Reaches r (r.requestRefresh now again) :=
  Reaches.quiet h rfl ⟨rfl, rfl, rfl, rfl⟩

theorem skip_reaches {r : Reassembler} (h : Tracked r) {k : Nat} {s : Slot}
    (hs : r.frames.get? k = some s) (hd : s.discardable = true) (missing : Nat) :
    Reaches r (r.skip k missing) := by
  have hknown : ((r.frames.get? k).map Slot.discardable).getD false = true := by simp [hs, hd]
  have hchain : (r.skip k missing).chain = ⟨r.need, r.lastGood, k :: skips r.trace⟩ := by
    simp [skip, countLostDatagrams, giveUp, chain, skips]
  refine ⟨?_, [.skipped k true], ?_⟩
  · intro j t ht
    rw [hchain]
    have ht' : (r.frames.insert k .skipped).get? j = some t := ht
    rw [OrdMap.get?_insert] at ht'
    split at ht'
    · rename_i hjk
      subst hjk
      obtain ⟨hk, hneed, -⟩ := h k s hs
      refine ⟨hk, hneed, ?_⟩
      rw [← Option.some.inj ht']
      simp
    · obtain ⟨hk, hneed, hslot⟩ := h j t ht'
      refine ⟨hk, hneed, ?_⟩
      cases t with
      | skipped => exact List.mem_cons_of_mem _ hslot
      | unknown => trivial
      | part p => exact hslot
      | complete out f => exact hslot
  · refine Adds.ofMove ?_ ?_ rfl rfl (by simp [Event.inner])
    · simp [skip, countLostDatagrams, giveUp, hknown]
    · rw [hchain]
      exact Chain.Move.skip r.chain k

theorem lose_reaches {r : Reassembler} (h : Tracked r) (k missing : Nat) (now : Instant) :
    Reaches r (r.lose k missing now) := by
  unfold lose
  split
  · rename_i hknown
    cases hs : r.frames.get? k with
    | none => simp [hs] at hknown
    | some s =>
        rw [hs] at hknown
        exact skip_reaches h hs (by simpa using hknown) missing
  · have herase := erase_reaches h k
    set t : Reassembler := countLostDatagrams
      { giveUp { r with frames := r.frames.erase k } k with
        stats := { (giveUp { r with frames := r.frames.erase k } k).stats with
          framesLost := satAdd 64 (giveUp { r with frames := r.frames.erase k } k).stats.framesLost 1 }
        window := { (giveUp { r with frames := r.frames.erase k } k).window with
          framesLost :=
            satAdd 32 (giveUp { r with frames := r.frames.erase k } k).window.framesLost 1 } }
      missing with ht
    have hcounted : Reaches r t := herase.still rfl ⟨rfl, rfl, rfl, rfl⟩
    dsimp only
    split
    · rename_i n hneed
      exact enterRefresh_reaches hcounted hneed now
    · exact hcounted.trans (requestRefresh_reaches hcounted.tracked now true)
    · exact hcounted.trans (requestRefresh_reaches hcounted.tracked now true)

theorem assemble_frame {rs : ReedSolomon} {k : Nat} {p : Partial} {now : Instant} {out : FrameOut}
    (h : assemble rs k p now = some out) : out.info.frame = k := by
  unfold assemble at h
  split at h
  · simp at h
  · split at h
    · rw [← Option.some.inj h]
    · simp at h

theorem finish_reaches {rs : ReedSolomon} {r : Reassembler} (h : Tracked r) (k : Nat)
    (now : Instant) : Reaches r (r.finish rs k now) := by
  have herase := erase_reaches h k
  unfold finish
  split
  · rename_i p hp
    have hok := h k _ hp
    simp only
    split
    · rename_i out hout
      refine Reaches.of_slots ?_ ?_
      · split <;> exact ⟨rfl, rfl, rfl, rfl⟩
      · intro j s hs
        have hs' : ((r.frames.erase k).insert k (.complete out p.firstSeen)).get? j = some s := by
          split at hs <;> exact hs
        rw [OrdMap.get?_insert] at hs'
        split at hs'
        · rename_i hjk
          subst hjk
          rw [← Option.some.inj hs']
          exact ⟨hok.1, hok.2.1, assemble_frame hout, hok.2.2⟩
        · exact herase.tracked j s hs'
    · exact herase.trans (lose_reaches herase.tracked k _ now)
  · exact herase

/-- Handing over a complete frame the need admits, with nothing tracked before
it. -/
theorem deliver_reaches {r t : Reassembler} (h : Tracked r) {k : Nat} {now : Instant}
    (hmin : ∀ j s, r.frames.get? j = some s → k ≤ j)
    (hadmits : ∀ out f, r.frames.get? k = some (.complete out f) → r.need.Admits out.info)
    (ht : r.deliver k now = some t) : Reaches r t := by
  unfold deliver at ht
  split at ht
  · rename_i out f hout
    obtain ⟨hk, -, hframe, hlast⟩ := h k _ hout
    have hadm := hadmits out f hout
    obtain rfl := Option.some.inj ht
    have hnext : nextNumber k ≤ k + 1 := Nat.mod_le _ _
    refine ⟨?_, [.delivered out.info r.need], ?_⟩
    · intro j s hs
      have hs' : (r.frames.erase k).get? j = some s := hs
      rw [OrdMap.get?_erase] at hs'
      split at hs'
      · simp at hs'
      · rename_i hjk
        have hkj : k ≤ j := hmin j s hs'
        have hlt : k < j := lt_of_le_of_ne hkj (Ne.symm hjk)
        obtain ⟨hj, -, hslot⟩ := h j s hs'
        refine ⟨hj, ?_, ?_⟩
        · intro n hn
          have hn' : nextNumber k = n := by simpa [chain] using hn
          omega
        · cases s with
          | unknown => trivial
          | part p =>
              intro g hg
              have hg' : k = g := by simpa [chain] using hg
              omega
          | complete out' f' =>
              refine ⟨hslot.1, ?_⟩
              intro g hg
              have hg' : k = g := by simpa [chain] using hg
              omega
          | skipped =>
              simpa [chain, recordDelivery, skips] using hslot
    · have hmove := Chain.Move.deliver r.chain out.info hadm
        (fun g hg => by rw [hframe]; exact hlast g hg)
      rw [hframe] at hmove
      exact
        { trace := rfl
          path := by simpa [chain, recordDelivery, skips] using Chain.Path.single hmove
          queue := ⟨[{ out with hold := Instant.since now f }], rfl, rfl⟩
          inner := by simp [Event.inner] }
  · simp at ht

theorem restartFrame_spec {r : Reassembler} {accept : Bool} {k : Nat}
    (h : r.restartFrame accept = some k) :
    ∃ out f, r.frames.get? k = some (.complete out f) ∧
      (out.info.keyframe = true ∨ (accept = true ∧ out.info.ltrRefresh = true)) := by
  obtain ⟨⟨j, s⟩, hmem, hs⟩ := List.exists_of_findSome?_eq_some h
  cases s with
  | complete out f =>
      simp only at hs
      split at hs
      · rename_i hrestart
        have hjk : j = k := Option.some.inj hs
        subst hjk
        exact ⟨out, f, OrdMap.get?_eq_some_iff.mpr hmem, by simpa using hrestart⟩
      · simp at hs
  | unknown => simp at hs
  | part p => simp at hs
  | skipped => simp at hs

theorem pass_reaches {r : Reassembler} (h : Tracked r) {n : Nat} (hneed : r.need = .frame n)
    (hskip : r.frames.get? n = some .skipped) :
    Reaches r { r with frames := r.frames.erase n, need := .frame (nextNumber n) } := by
  have hnext : nextNumber n ≤ n + 1 := Nat.mod_le _ _
  refine ⟨?_, [], Adds.ofMove (by simp)
    (Chain.Move.pass r.chain n hneed (h n _ hskip).2.2) rfl rfl (by simp)⟩
  intro j s hs
  have hs' : (r.frames.erase n).get? j = some s := hs
  rw [OrdMap.get?_erase] at hs'
  split at hs'
  · simp at hs'
  · rename_i hjn
    obtain ⟨hj, hmin, hslot⟩ := h j s hs'
    refine ⟨hj, ?_, hslot⟩
    intro m hm
    have hnj : n ≤ j := hmin n hneed
    have hm' : nextNumber n = m := by simpa [chain] using hm
    omega

theorem drainStep_reaches {r t : Reassembler} (h : Tracked r) {now : Instant}
    (ht : drainStep now r = some t) : Reaches r t := by
  unfold drainStep at ht
  split at ht
  · rename_i n hneed
    have hmin : ∀ j s, r.frames.get? j = some s → n ≤ j := fun j s hs => (h j s hs).2.1 n hneed
    split at ht
    · rename_i out f hout
      refine deliver_reaches h hmin ?_ ht
      intro out' f' hout'
      rw [hneed]
      exact (h n _ hout').2.2.1
    · rename_i hskip
      obtain rfl := Option.some.inj ht
      exact pass_reaches h hneed hskip
    · rename_i slot hcomplete hskipped hslot
      split at ht
      · rename_i hd
        rw [Bool.and_eq_true] at hd
        obtain rfl := Option.some.inj ht
        exact skip_reaches h hslot hd.1 _
      · simp at ht
    · simp at ht
  all_goals
    rename_i hneed
    split at ht
    · simp at ht
    · rename_i k hk
      obtain ⟨out, f, hout, hrestart⟩ := restartFrame_spec hk
      have hretain := retain_reaches h fun j _ => decide (k ≤ j)
      refine Reaches.trans (s := { r with
        frames := r.frames.retain fun j _ => decide (k ≤ j)
        refreshRequestedAt := none
        refreshBackoff := 0 })
        (hretain.still rfl ⟨rfl, rfl, rfl, rfl⟩) ?_
      refine deliver_reaches (hretain.still rfl ⟨rfl, rfl, rfl, rfl⟩).tracked ?_ ?_ ht
      · intro j s hs
        have hs' : (r.frames.retain fun j _ => decide (k ≤ j)).get? j = some s := hs
        rw [OrdMap.get?_retain, Option.filter_eq_some_iff] at hs'
        simpa using hs'.2
      · intro out' f' hout'
        have hs' : (r.frames.retain fun j _ => decide (k ≤ j)).get? k =
          some (.complete out' f') := hout'
        rw [OrdMap.get?_retain, Option.filter_eq_some_iff, hout] at hs'
        obtain ⟨rfl, rfl⟩ : out = out' ∧ f = f' := by simpa using hs'.1
        simpa [hneed, Need.Admits] using hrestart

theorem loop_reaches {turn : Reassembler → Option Reassembler}
    (hturn : ∀ s t, Tracked s → turn s = some t → Reaches s t) {r : Reassembler} (h : Tracked r)
    (fuel : Nat) : Reaches r (loop turn fuel r) :=
  loop_induct (P := Reaches r) (fun s t hs hst => hs.trans (hturn s t hs.tracked hst)) fuel
    (Reaches.refl h)

theorem drain_reaches {r : Reassembler} (h : Tracked r) (now : Instant) :
    Reaches r (r.drain now) :=
  loop_reaches (fun _ _ hs hst => drainStep_reaches hs hst) h _

theorem evictStep_reaches {r t : Reassembler} (h : Tracked r) {now : Instant}
    (ht : evictStep now r = some t) : Reaches r t := by
  unfold evictStep at ht
  split at ht
  · simp at ht
  · split at ht
    · simp at ht
    · obtain rfl := Option.some.inj ht
      exact erase_reaches h _
    · rename_i k hfirst
      obtain ⟨hk, hmin⟩ := OrdMap.first?_eq_some hfirst
      obtain rfl := Option.some.inj ht
      by_cases hneed : r.need = .frame k
      · simpa [hneed] using pass_reaches h hneed hk
      · simpa [hneed] using erase_reaches h k
    · obtain rfl := Option.some.inj ht
      exact lose_reaches h _ _ now
    · obtain rfl := Option.some.inj ht
      exact lose_reaches h _ _ now

theorem evict_reaches {r : Reassembler} (h : Tracked r) (now : Instant) :
    Reaches r (r.evict now) :=
  loop_reaches (fun _ _ hs hst => evictStep_reaches hs hst) h _

/-- A frame a fragment may still be stored for. -/
structure Wanted (c : Chain) (k : Nat) : Prop where
  small : k < 2 ^ 32
  ahead : ∀ n, c.need = .frame n → n ≤ k
  newer : ∀ g ∈ c.last, g < k

theorem Wanted.slotOk {c : Chain} {k : Nat} (h : Wanted c k) (p : Partial) :
    SlotOk c k (.part p) :=
  ⟨h.small, h.ahead, h.newer⟩

theorem wanted_of_not_stale {r : Reassembler} {k : Nat} (hk : k < 2 ^ 32)
    (h : r.stale k = false) : Wanted r.chain k := by
  simp only [stale, Bool.or_eq_false_iff] at h
  obtain ⟨⟨-, hgood⟩, hneed⟩ := h
  refine ⟨hk, ?_, ?_⟩
  · intro n hn
    have hn' : r.need = .frame n := hn
    rw [hn'] at hneed
    simpa using hneed
  · intro g hg
    have hg' : r.lastGood = some g := hg
    rw [hg'] at hgood
    simpa using hgood

theorem foldl_fresh_slotOk {c : Chain} (now : Instant) {ks : List Nat}
    (hks : ∀ k ∈ ks, SlotOk c k (Slot.fresh now)) {m : OrdMap Nat Slot}
    (hm : ∀ k s, m.get? k = some s → SlotOk c k s) :
    ∀ k s, (ks.foldl (fun m k => if (m.get? k).isSome then m else m.insert k (Slot.fresh now))
      m).get? k = some s → SlotOk c k s := by
  induction ks generalizing m with
  | nil => exact hm
  | cons j ks ih =>
      rw [List.foldl_cons]
      refine ih (fun k hk => hks k (List.mem_cons_of_mem _ hk)) ?_
      intro k s hs
      split at hs
      · exact hm k s hs
      · rw [OrdMap.get?_insert] at hs
        split at hs
        · rename_i hkj
          rw [← Option.some.inj hs, ← hkj]
          exact hks j (by simp)
        · exact hm k s hs

theorem openGap_reaches {r : Reassembler} (h : Tracked r) {k : Nat} (hw : Wanted r.chain k)
    (now : Instant) :
    Reaches r (r.openGap k now) ∧ Wanted (r.openGap k now).chain k := by
  unfold openGap
  split
  · rename_i n hneed
    simp only
    split
    · have hretain := retain_reaches h fun j _ => decide (k ≤ j)
      refine ⟨?_, hw.small, by simp [chain, enterRefresh, requestRefresh], hw.newer⟩
      apply enterRefresh_reaches
      · exact hretain.still rfl ⟨rfl, rfl, rfl, rfl⟩
      · exact hneed
    · refine ⟨Reaches.of_slots ⟨rfl, rfl, rfl, rfl⟩ ?_, hw.small, hw.ahead, hw.newer⟩
      refine foldl_fresh_slotOk now ?_ h
      intro j hj
      obtain ⟨i, hi, rfl⟩ := List.mem_range'.mp hj
      have hnk : n ≤ k := hw.ahead n hneed
      have hk := hw.small
      refine ⟨by omega, ?_, trivial⟩
      intro m hm
      have hnm : n = m := by simpa [chain, hneed] using hm
      omega
  · exact ⟨Reaches.refl h, hw⟩
  · exact ⟨Reaches.refl h, hw⟩

theorem sameKind_markDiscardable (s : Slot) : SameKind s s.markDiscardable := by
  cases s <;> simp [Slot.markDiscardable, SameKind]

theorem markPrevious_reaches {r : Reassembler} (h : Tracked r) (header : MediaHeader) {k : Nat}
    (hw : Wanted r.chain k) :
    Reaches r (r.markPrevious header k) ∧ Wanted (r.markPrevious header k).chain k := by
  unfold markPrevious
  split
  · split
    · rename_i slot hslot
      exact ⟨insert_reaches h ((h _ _ hslot).sameKind (sameKind_markDiscardable slot)), hw⟩
    · exact ⟨Reaches.refl h, hw⟩
  · exact ⟨Reaches.refl h, hw⟩

theorem openPartial_reaches {r : Reassembler} (h : Tracked r) (header : MediaHeader) {k : Nat}
    (hw : Wanted r.chain k) (payload : Bytes) (now : Instant) :
    Reaches r (r.openPartial header k payload now).1 ∧
      Wanted (r.openPartial header k payload now).1.chain k := by
  unfold openPartial
  split
  · simp only
    have hinsert := insert_reaches h (hw.slotOk (Partial.new header payload.length now ‹Bool›))
    exact ⟨hinsert.still rfl ⟨rfl, rfl, rfl, rfl⟩, hw⟩
  · exact ⟨Reaches.refl h, hw⟩
  · exact ⟨Reaches.refl h, hw⟩
  · exact ⟨Reaches.refl h, hw⟩

theorem storeFragment_reaches {rs : ReedSolomon} {r : Reassembler} (h : Tracked r)
    {header : MediaHeader} (hw : Wanted r.chain header.frame.toNat) (payload : Bytes)
    (now : Instant) : Reaches r (r.storeFragment rs header payload now).1 := by
  obtain ⟨hopen, hw'⟩ := openPartial_reaches h header hw payload now
  unfold storeFragment
  simp only
  split
  · rename_i t hp
    rw [hp] at hopen
    exact hopen
  · rename_i t p hp
    rw [hp] at hopen hw'
    split
    · exact hopen
    · split
      · exact hopen
      · exact hopen
      · have hstore := hopen.next fun ht => insert_reaches ht
          (hw'.slotOk (p.store header.index.toNat payload header now))
        refine Reaches.next (Reaches.next ?_ fun ht => drain_reaches ht now) fun ht =>
          evict_reaches ht now
        split
        · exact hstore.next fun ht => finish_reaches ht _ now
        · exact hstore

theorem ingestVideo_reaches {rs : ReedSolomon} {r : Reassembler} (h : Tracked r)
    (header : MediaHeader) (payload : Bytes) (now : Instant) :
    Reaches r (r.ingestVideo rs header payload now).1 := by
  have harrived : Reaches r { r with anyArrived := true } :=
    Reaches.quiet h rfl ⟨rfl, rfl, rfl, rfl⟩
  unfold ingestVideo
  simp only
  split
  · exact harrived
  · split
    · exact harrived
    · rename_i hstale
      have hw := wanted_of_not_stale header.frame.toNat_lt (Bool.eq_false_iff.mpr hstale)
      obtain ⟨hgap, hw⟩ := openGap_reaches harrived.tracked hw now
      obtain ⟨hmark, hw⟩ := markPrevious_reaches hgap.tracked header hw
      exact ((harrived.trans hgap).trans hmark).next fun ht =>
        storeFragment_reaches ht hw payload now

theorem sameKind_resumeSlot (fresh now : Instant) (s : Slot) :
    SameKind s (resumeSlot fresh now s) := by
  cases s <;> simp [resumeSlot, SameKind]

theorem resume_reaches {r : Reassembler} (h : Tracked r) (now : Instant) :
    Reaches r (r.resume now) := by
  unfold resume
  split
  · exact Reaches.refl h
  · exact Reaches.mapVal h _ (fun _ s => sameKind_resumeSlot _ now s) rfl ⟨rfl, rfl, rfl, rfl⟩

/-- Only clocks and counters moved. -/
structure Quiet (r t : Reassembler) : Prop extends Still r t where
  frames : t.frames = r.frames
  givenUp : t.givenUp = r.givenUp
  cfg : t.cfg = r.cfg
  stream : t.stream = r.stream
  actions : t.actions = r.actions

/-- What clocks, counters and `resume` cannot change, `endSilence` does not. -/
theorem endSilence_induct {P : Reassembler → Prop} {r : Reassembler} (header : MediaHeader)
    (now : Instant) (hquiet : ∀ s t, Quiet s t → P s → P t)
    (hresume : ∀ s, P s → P (s.resume now)) (h : P r) : P (r.endSilence header now) := by
  unfold endSilence
  simp only
  set unexplained := Instant.since now r.arrivedAt -
    workerShare (r.readStamp header (Instant.since now r.arrivedAt)) (Instant.since now r.arrivedAt)
  generalize ha : (if r.anyArrived && decide (r.stallThreshold ≤ Instant.since now r.arrivedAt)
    then r.attributeSilence _ _ _ _ else r) = a
  have hattributed : P a := by
    rw [← ha]
    split
    · exact hquiet r _ ⟨⟨rfl, rfl, rfl, rfl⟩, rfl, rfl, rfl, rfl, rfl⟩ h
    · exact h
  generalize hb : (if r.anyArrived && decide (r.stallThreshold ≤ unexplained) then a.resume now
    else a) = b
  have hresumed : P b := by
    rw [← hb]
    split
    · exact hresume a hattributed
    · exact hattributed
  split
  · exact hquiet b _ ⟨⟨rfl, rfl, rfl, rfl⟩, rfl, rfl, rfl, rfl, rfl⟩ hresumed
  · exact hquiet b _ ⟨⟨rfl, rfl, rfl, rfl⟩, rfl, rfl, rfl, rfl, rfl⟩ hresumed

theorem endSilence_reaches {r : Reassembler} (h : Tracked r) (header : MediaHeader)
    (now : Instant) : Reaches r (r.endSilence header now) := by
  apply endSilence_induct (P := Reaches r)
  · intro s t hst hs
    exact hs.still hst.frames hst.toStill
  · intro s hs
    exact hs.next fun ht => resume_reaches ht now
  · exact Reaches.refl h

theorem ingest_reaches {rs : ReedSolomon} {r : Reassembler} (h : Tracked r) (datagram : Bytes)
    (now : Instant) : Reaches r (r.ingest rs datagram now).1 := by
  unfold ingest
  split
  · exact Reaches.refl h
  · rename_i header payload _
    split
    · exact Reaches.refl h
    · have hsilence := endSilence_reaches h header now
      simp only
      split
      · exact hsilence
      · split
        · exact hsilence
        · exact hsilence
      · split
        · exact hsilence.still rfl ⟨rfl, rfl, rfl, rfl⟩
        · exact hsilence
      · exact hsilence
      · split
        · exact hsilence
        · exact hsilence
      · exact hsilence.next fun ht => ingestVideo_reaches ht header payload now
      · exact hsilence.next fun ht => ingestVideo_reaches ht header payload now

theorem startTick_reaches {r : Reassembler} (h : Tracked r) (now : Instant) (rtt : Duration) :
    Reaches r (r.startTick now rtt) := by
  unfold startTick
  simp only
  split
  · exact Reaches.quiet h rfl ⟨rfl, rfl, rfl, rfl⟩
  · exact Reaches.quiet h rfl ⟨rfl, rfl, rfl, rfl⟩

theorem sameKind_tickSlot (c : TickClock) (k : Nat) (s : Slot) : SameKind s (tickSlot c k s) := by
  unfold tickSlot
  split <;> cases s <;> simp [asked, SameKind]

theorem tickFrames_reaches {r : Reassembler} (h : Tracked r) (c : TickClock) :
    Reaches r (r.tickFrames c).1 :=
  Reaches.mapVal h (tickSlot c) (fun k s => sameKind_tickSlot c k s) rfl ⟨rfl, rfl, rfl, rfl⟩

theorem foldl_lose_reaches {r : Reassembler} (h : Tracked r) (lost : List (Nat × Nat))
    (now : Instant) : Reaches r (lost.foldl (fun r fm => r.lose fm.1 fm.2 now) r) := by
  induction lost generalizing r with
  | nil => exact Reaches.refl h
  | cons fm lost ih =>
      have hlose := lose_reaches h fm.1 fm.2 now
      exact hlose.trans (ih hlose.tracked)

theorem repeatRefresh_reaches {r : Reassembler} (h : Tracked r) (c : TickClock) (rtt : Duration) :
    Reaches r (r.repeatRefresh c rtt) := by
  unfold repeatRefresh
  simp only
  split
  · split
    · exact Reaches.refl h
    · exact Reaches.quiet h rfl ⟨rfl, rfl, rfl, rfl⟩
  · exact Reaches.refl h

theorem tick_reaches {r : Reassembler} (h : Tracked r) (now : Instant) (rtt : Duration) :
    Reaches r (r.tick now rtt).1 := by
  have hstart := startTick_reaches h now rtt
  have hframes := hstart.next fun ht =>
    tickFrames_reaches ht ((r.startTick now rtt).tickClock now rtt)
  have hlose := hframes.next fun ht => foldl_lose_reaches ht
    ((r.startTick now rtt).tickFrames ((r.startTick now rtt).tickClock now rtt)).2 now
  have hrepeat := hlose.next fun ht =>
    repeatRefresh_reaches ht ((r.startTick now rtt).tickClock now rtt) rtt
  exact (hrepeat.next fun ht => drain_reaches ht now).still rfl ⟨rfl, rfl, rfl, rfl⟩

theorem setSourceLive_reaches {r : Reassembler} (h : Tracked r) (live : Bool) :
    Reaches r (r.setSourceLive live) := by
  unfold setSourceLive
  split
  · split
    · exact Reaches.quiet h rfl ⟨rfl, rfl, rfl, rfl⟩
    · exact Reaches.quiet h rfl ⟨rfl, rfl, rfl, rfl⟩
  · exact Reaches.refl h

theorem weight_skip_lt {r : Reassembler} {k : Nat} {s : Slot} (hs : r.frames.get? k = some s)
    (hd : s.discardable = true) (missing : Nat) :
    weight (r.skip k missing).frames < weight r.frames := by
  have hle := OrdMap.total_insert_le Slot.weight .skipped hs
  have hw : s.weight = 2 := by cases s <;> simp_all [Slot.discardable, Slot.weight]
  change (r.frames.insert k .skipped).total Slot.weight < r.frames.total Slot.weight
  have hskip : Slot.skipped.weight = 1 := rfl
  omega

theorem weight_erase_lt {m : OrdMap Nat Slot} {k : Nat} {s : Slot} (hs : m.get? k = some s) :
    weight (m.erase k) < weight m := by
  have hle := OrdMap.total_erase_le Slot.weight hs
  have hw : 0 < s.weight := by cases s <;> simp [Slot.weight]
  unfold weight
  omega

theorem frames_deliver {r t : Reassembler} {k : Nat} {now : Instant}
    (h : r.deliver k now = some t) :
    t.frames = r.frames.erase k ∧ ∃ s, r.frames.get? k = some s := by
  unfold deliver at h
  split at h
  · rename_i out f hout
    rw [← Option.some.inj h]
    exact ⟨rfl, _, hout⟩
  · simp at h

theorem weight_drainStep_lt {now : Instant} {r t : Reassembler} (h : drainStep now r = some t) :
    weight t.frames < weight r.frames := by
  unfold drainStep at h
  split at h
  · split at h
    · obtain ⟨hframes, s, hs⟩ := frames_deliver h
      rw [hframes]
      exact weight_erase_lt hs
    · rename_i hs
      rw [← Option.some.inj h]
      exact weight_erase_lt hs
    · rename_i slot _ _ hs
      split at h
      · rename_i hd
        rw [Bool.and_eq_true] at hd
        rw [← Option.some.inj h]
        exact weight_skip_lt hs hd.1 _
      · simp at h
    · simp at h
  all_goals
    split at h
    · simp at h
    · obtain ⟨hframes, s, hs⟩ := frames_deliver h
      rw [hframes]
      exact (weight_erase_lt hs).trans_le (OrdMap.total_retain_le _ _ _)

theorem drainStep_drain (r : Reassembler) (now : Instant) : drainStep now (r.drain now) = none := by
  have hdec : ∀ s t, drainStep now s = some t → weight t.frames < weight s.frames :=
    fun _ _ h => weight_drainStep_lt h
  exact loop_stuck hdec le_rfl

theorem weight_lose_lt {r : Reassembler} {k : Nat} {s : Slot} (hs : r.frames.get? k = some s)
    (missing : Nat) (now : Instant) : weight (r.lose k missing now).frames < weight r.frames := by
  unfold lose
  split
  · rename_i hd
    rw [hs] at hd
    exact weight_skip_lt hs (by simpa using hd) missing
  · simp only
    split <;> exact weight_erase_lt hs

theorem weight_evictStep_lt {now : Instant} {r t : Reassembler} (h : evictStep now r = some t) :
    weight t.frames < weight r.frames := by
  unfold evictStep at h
  split at h
  · simp at h
  · split at h
    · simp at h
    all_goals
      rename_i hfirst
      have hs := (OrdMap.first?_eq_some hfirst).1
      rw [← Option.some.inj h]
      first
        | exact weight_erase_lt hs
        | exact weight_lose_lt hs _ now

theorem size_evict_le (r : Reassembler) (now : Instant) :
    (r.evict now).frames.size ≤ (r.evict now).cfg.maxPending := by
  have hdec : ∀ s t, evictStep now s = some t → weight t.frames < weight s.frames :=
    fun _ _ h => weight_evictStep_lt h
  have hstuck : evictStep now (r.evict now) = none := loop_stuck hdec le_rfl
  unfold evictStep at hstuck
  split at hstuck
  · assumption
  · split at hstuck
    · rename_i hfirst
      rw [OrdMap.first?_eq_none hfirst]
      simp
    all_goals simp at hstuck

end Reassembler

/-- The frames the owner took, in order. -/
def takens (tr : List Event) : List FrameInfo :=
  tr.filterMap fun e => match e with
    | .taken info => some info
    | _ => none

def Event.isForced : Event → Bool
  | .forced _ => true
  | _ => false

def sinceForce (tr : List Event) : List Event :=
  (tr.reverse.takeWhile fun e => !e.isForced).reverse

/-- What is handed over is what the owner takes: in the same order, all of it
as long as no refresh is forced, which drops what waits to be taken. -/
structure HandedOver (r : Reassembler) : Prop where
  order : (takens r.trace ++ r.ready.map FrameOut.info).Sublist (deliveries r.trace)
  whole : deliveries (sinceForce r.trace) =
    takens (sinceForce r.trace) ++ r.ready.map FrameOut.info

theorem takens_append (tr tr' : List Event) : takens (tr ++ tr') = takens tr ++ takens tr' :=
  List.filterMap_append

theorem takens_inner {es : List Event} (h : ∀ e ∈ es, e.inner = true) : takens es = [] := by
  rw [takens, List.filterMap_eq_nil_iff]
  intro e he
  have := h e he
  cases e <;> simp_all [Event.inner]

theorem sinceForce_append {tr es : List Event} (h : ∀ e ∈ es, e.isForced = false) :
    sinceForce (tr ++ es) = sinceForce tr ++ es := by
  have hall : ∀ e ∈ es.reverse, (!e.isForced) = true := by
    intro e he
    simp [h e (List.mem_reverse.mp he)]
  rw [sinceForce, List.reverse_append, List.takeWhile_append_of_pos hall, List.reverse_append,
    List.reverse_reverse, sinceForce]

/-- What holds of a reassembler between two calls of its owner. -/
structure Sound (r : Reassembler) : Prop where
  tracked : Tracked r
  ties : r.chain.Ties r.trace
  handed : HandedOver r

theorem sound_new (stream : UInt32) (cfg : Config) (now : Instant) :
    Sound (Reassembler.new stream cfg now) where
  tracked := tracked_new stream cfg now
  ties := Chain.ties_start
  handed := ⟨List.Sublist.refl [], rfl⟩

theorem Sound.reaches {r t : Reassembler} (h : Sound r) (ht : Reaches r t) : Sound t := by
  obtain ⟨es, hes⟩ := ht.adds
  have hforced : ∀ e ∈ es, e.isForced = false := by
    intro e he
    have := hes.inner e he
    cases e <;> simp_all [Event.inner, Event.isForced]
  have htakens := takens_inner hes.inner
  obtain ⟨outs, hready, houts⟩ := hes.queue
  refine ⟨ht.tracked, ?_, ?_, ?_⟩
  · rw [hes.trace]
    exact hes.path.ties h.ties
  · rw [hes.trace, hready, takens_append, htakens, List.append_nil, List.map_append, houts,
      deliveries_append, ← List.append_assoc]
    exact h.handed.order.append_right _
  · rw [hes.trace, hready, sinceForce_append hforced, takens_append, htakens, List.append_nil,
      deliveries_append, h.handed.whole, List.map_append, houts, List.append_assoc]

/-- What one call of the owner does: it follows moves of the chain and leaves
what holds between calls. -/
structure Steps (r t : Reassembler) : Prop where
  sound : Sound t
  path : ∃ es, t.trace = r.trace ++ es ∧ Chain.Path r.chain es t.chain

theorem Steps.of_reaches {r t : Reassembler} (h : Sound r) (ht : Reaches r t) : Steps r t := by
  obtain ⟨es, hes⟩ := ht.adds
  exact ⟨h.reaches ht, es, hes.trace, hes.path⟩

namespace Reassembler

theorem forceRefresh_steps {r : Reassembler} (h : Sound r) (now : Instant) (keyframe : Bool) :
    Steps r (r.forceRefresh now keyframe) := by
  have hneed : (r.forceRefresh now keyframe).need = r.need.forced keyframe := by
    unfold forceRefresh; simp only; split <;> rfl
  have hlast : (r.forceRefresh now keyframe).lastGood = r.lastGood := by
    unfold forceRefresh; simp only; split <;> rfl
  have htrace : (r.forceRefresh now keyframe).trace = r.trace ++ [.forced keyframe] := by
    unfold forceRefresh; simp only; split <;> rfl
  have hready : (r.forceRefresh now keyframe).ready = [] := by
    unfold forceRefresh; simp only; split <;> rfl
  have hframes : (r.forceRefresh now keyframe).frames = r.frames := by
    unfold forceRefresh; simp only; split <;> rfl
  have hchain : (r.forceRefresh now keyframe).chain =
      ⟨r.need.forced keyframe, r.lastGood, skips r.trace⟩ := by
    simp [chain, hneed, hlast, htrace, skips]
  have hmove : Chain.Move r.chain [.forced keyframe] (r.forceRefresh now keyframe).chain := by
    rw [hchain]
    exact Chain.Move.force r.chain keyframe
  refine ⟨⟨?_, ?_, ?_, ?_⟩, [.forced keyframe], htrace, Chain.Path.single hmove⟩
  · intro k s hs
    rw [hframes] at hs
    obtain ⟨hk, -, hslot⟩ := h.tracked k s hs
    rw [hchain]
    refine ⟨hk, ?_, hslot⟩
    intro n hn
    simp only [Need.forced] at hn
    split at hn <;> simp at hn
  · rw [htrace]
    exact hmove.ties h.ties
  · rw [htrace, hready, takens_append, deliveries_append]
    have := (List.sublist_append_left _ _).trans h.handed.order
    simpa [takens] using this
  · rw [htrace, hready]
    simp [sinceForce, Event.isForced, takens]

theorem nextFrame_steps {r : Reassembler} (h : Sound r) : Steps r r.nextFrame.1 := by
  unfold nextFrame
  split
  · exact Steps.of_reaches h (Reaches.refl h.tracked)
  · rename_i out rest hready
    have hskips : skips (r.trace ++ [.taken out.info]) = skips r.trace := by simp [skips]
    have hchain : ({ r with ready := rest, trace := r.trace ++ [.taken out.info] } :
        Reassembler).chain = r.chain := by
      simp only [chain, hskips]
    have hmove := Chain.Move.take r.chain out.info
    refine ⟨⟨?_, ?_, ?_, ?_⟩, [.taken out.info], rfl, ?_⟩
    · intro k s hs
      rw [hchain]
      exact h.tracked k s hs
    · rw [hchain]
      exact hmove.ties h.ties
    · have horder := h.handed.order
      rw [hready] at horder
      simpa [takens_append, takens] using horder
    · have hwhole := h.handed.whole
      rw [hready] at hwhole
      rw [sinceForce_append (by simp [Event.isForced]), takens_append]
      simpa [takens] using hwhole
    · rw [hchain]
      exact Chain.Path.single hmove

end Reassembler

theorem step_steps (rs : ReedSolomon) {r : Reassembler} (h : Sound r) (op : Op) :
    Steps r (step rs r op) := by
  cases op with
  | ingest datagram now =>
      exact Steps.of_reaches h (Reassembler.ingest_reaches h.tracked datagram now)
  | tick now rtt => exact Steps.of_reaches h (Reassembler.tick_reaches h.tracked now rtt)
  | forceRefresh now keyframe => exact Reassembler.forceRefresh_steps h now keyframe
  | setSourceLive live =>
      exact Steps.of_reaches h (Reassembler.setSourceLive_reaches h.tracked live)
  | nextFrame => exact Reassembler.nextFrame_steps h

theorem run_sound (rs : ReedSolomon) {r : Reassembler} (h : Sound r) (ops : List Op) :
    Sound (run rs r ops) := by
  induction ops generalizing r with
  | nil => exact h
  | cons op ops ih => exact ih (step_steps rs h op).sound

/-- Whatever datagrams come and whatever the owner does, the frames delivered
are safe to decode, they are the ones the owner takes, and the need for a
keyframe ends only with one delivered. -/
theorem decode_chain_safe (rs : ReedSolomon) (stream : UInt32) (cfg : Config) (now : Instant)
    (ops : List Op) :
    DecodeSafe (run rs (.new stream cfg now) ops).trace ∧
      HandedOver (run rs (.new stream cfg now) ops) ∧
      ∀ op, (run rs (.new stream cfg now) ops).need = .keyframe →
        (run rs (.new stream cfg now) (ops ++ [op])).need = .keyframe ∨
          ∃ es info, (run rs (.new stream cfg now) (ops ++ [op])).trace =
              (run rs (.new stream cfg now) ops).trace ++ es ∧
            Event.delivered info .keyframe ∈ es ∧ info.keyframe = true := by
  have hsound := run_sound rs (sound_new stream cfg now) ops
  refine ⟨hsound.ties.safe, hsound.handed, ?_⟩
  intro op hneed
  have hrun : run rs (.new stream cfg now) (ops ++ [op]) =
      step rs (run rs (.new stream cfg now) ops) op := by
    simp [run]
  rw [hrun]
  obtain ⟨es, htrace, hpath⟩ := (step_steps rs hsound op).path
  rcases hpath.keyframe_left hneed with hkey | ⟨info, hmem, hinfo⟩
  · exact Or.inl hkey
  · exact Or.inr ⟨es, info, htrace, hmem, hinfo⟩

end Slopty.Media.Reassemble
