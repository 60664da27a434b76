import Slopty.Media.DecodeChain

/-!
What the reassembler counts. Every operation charges its running totals and the
current report alike, carries along how often each frame was asked for, and asks
for fragments in `tick` alone; a count starts over only where a datagram opens a
slot.
-/

namespace Slopty.Media.Reassemble

open Slopty.Lib
open Slopty.Media.Fec
open Slopty.Media.Wire

/-- How often a slot still waited for was asked for. -/
def Slot.tries : Slot → Option Nat
  | .unknown _ n _ _ => some n
  | .part p => some p.nacks
  | .complete _ _ | .skipped => none

/-- A total of 64 bits and a report's counter of 32 grow alike, unless one of
them stands at its largest value. -/
def Tallies (total window total' window' : Nat) : Prop :=
  total' < 2 ^ 64 - 1 → window' < 2 ^ 32 - 1 →
    total' + window = total + window' ∧ total ≤ total' ∧ window ≤ window'

namespace Tallies

variable {a b a' b' : Nat}

theorem rfl (a b : Nat) : Tallies a b a b := fun _ _ => ⟨Eq.refl _, le_refl a, le_refl b⟩

theorem trans {a'' b'' : Nat} (h : Tallies a b a' b') (h' : Tallies a' b' a'' b'') :
    Tallies a b a'' b'' := by
  intro ha hb
  obtain ⟨heq', hle', hwin'⟩ := h' ha hb
  obtain ⟨heq, hle, hwin⟩ := h (by omega) (by omega)
  omega

theorem add (a b n : Nat) : Tallies a b (satAdd 64 a n) (satAdd 32 b n) := by
  unfold Tallies satAdd
  omega

theorem addCut (a b n : Nat) :
    Tallies a b (satAdd 64 a n) (satAdd 32 b (min n (2 ^ 32 - 1))) := by
  unfold Tallies satAdd
  omega

end Tallies

/-- It asks for fragments of a frame. -/
def Action.isNack : Action → Bool
  | .nack _ _ => true
  | .requestRefresh _ _ => false

/-- What was charged on the way from `r` to `t` was charged to the totals and to
the report. -/
structure Charged (r t : Reassembler) : Prop where
  ok : Tallies r.stats.framesOk r.window.framesOk t.stats.framesOk t.window.framesOk
  lost : Tallies r.stats.framesLost r.window.framesLost t.stats.framesLost t.window.framesLost
  datagrams : Tallies r.stats.datagramsLost r.window.datagramsLost t.stats.datagramsLost
    t.window.datagramsLost

theorem Charged.trans {r s t : Reassembler} (h : Charged r s) (h' : Charged s t) : Charged r t :=
  ⟨h.ok.trans h'.ok, h.lost.trans h'.lost, h.datagrams.trans h'.datagrams⟩

/-- The counters of frames and datagrams, of all time and of the report. -/
def counts (r : Reassembler) : (Nat × Nat) × (Nat × Nat) × Nat × Nat :=
  ((r.stats.framesOk, r.window.framesOk), (r.stats.framesLost, r.window.framesLost),
    r.stats.datagramsLost, r.window.datagramsLost)

theorem counts_eq_iff {r t : Reassembler} : counts t = counts r ↔
    (t.stats.framesOk = r.stats.framesOk ∧ t.window.framesOk = r.window.framesOk) ∧
      (t.stats.framesLost = r.stats.framesLost ∧ t.window.framesLost = r.window.framesLost) ∧
      t.stats.datagramsLost = r.stats.datagramsLost ∧
      t.window.datagramsLost = r.window.datagramsLost := by
  simp [counts]

theorem Charged.of_counts {r t : Reassembler} (h : counts t = counts r) : Charged r t := by
  obtain ⟨⟨hok, hok'⟩, ⟨hlost, hlost'⟩, hdata, hdata'⟩ := counts_eq_iff.mp h
  refine ⟨?_, ?_, ?_⟩
  · rw [hok, hok']
    exact Tallies.rfl _ _
  · rw [hlost, hlost']
    exact Tallies.rfl _ _
  · rw [hdata, hdata']
    exact Tallies.rfl _ _

/-- From `r` to `t` with every counter carried along; only the frames `opened`
names start to be counted. -/
structure Books (opened : Nat → Prop) (r t : Reassembler) : Prop extends Charged r t where
  cfg : t.cfg = r.cfg
  slots : ∀ k s' n, t.frames.get? k = some s' → s'.tries = some n →
    (∃ s, r.frames.get? k = some s ∧ s.tries = some n ∧
      (s.discardable = true → s'.discardable = true)) ∨ opened k ∧ n = 0
  actions : ∃ more, t.actions = r.actions ++ more ∧ ∀ a ∈ more, a.isNack = false

namespace Books

variable {opened : Nat → Prop} {r s t : Reassembler}

theorem of_slots (hcfg : t.cfg = r.cfg) (hcounts : counts t = counts r)
    (hactions : t.actions = r.actions)
    (hslots : ∀ k s' n, t.frames.get? k = some s' → s'.tries = some n →
      (∃ s, r.frames.get? k = some s ∧ s.tries = some n ∧
        (s.discardable = true → s'.discardable = true)) ∨ opened k ∧ n = 0) : Books opened r t :=
  ⟨Charged.of_counts hcounts, hcfg, hslots, [], by simpa using hactions, by simp⟩

theorem quiet (hframes : t.frames = r.frames) (hcfg : t.cfg = r.cfg)
    (hcounts : counts t = counts r) (hactions : t.actions = r.actions) : Books opened r t := by
  refine of_slots hcfg hcounts hactions ?_
  intro k s' n hs hn
  rw [hframes] at hs
  exact Or.inl ⟨s', hs, hn, id⟩

theorem rfl (r : Reassembler) : Books opened r r := quiet (Eq.refl _) (Eq.refl _) (Eq.refl _) (Eq.refl _)

theorem trans (h : Books opened r s) (h' : Books opened s t) : Books opened r t where
  toCharged := h.toCharged.trans h'.toCharged
  cfg := h'.cfg.trans h.cfg
  slots := by
    intro k s'' n hs hn
    obtain ⟨s', hs', hn', hd'⟩ | hopened := h'.slots k s'' n hs hn
    · obtain ⟨s, hs, hn, hd⟩ | hopened := h.slots k s' n hs' hn'
      · exact Or.inl ⟨s, hs, hn, fun hdisc => hd' (hd hdisc)⟩
      · exact Or.inr hopened
    · exact Or.inr hopened
  actions := by
    obtain ⟨more, hmore, hnone⟩ := h.actions
    obtain ⟨more', hmore', hnone'⟩ := h'.actions
    refine ⟨more ++ more', by rw [hmore', hmore, List.append_assoc], ?_⟩
    intro a ha
    rcases List.mem_append.mp ha with ha | ha
    · exact hnone a ha
    · exact hnone' a ha

theorem mono {opened' : Nat → Prop} (h : Books opened r t) (hsub : ∀ k, opened k → opened' k) :
    Books opened' r t where
  toCharged := h.toCharged
  cfg := h.cfg
  slots := fun k s' n hs hn => (h.slots k s' n hs hn).imp_right fun h => ⟨hsub k h.1, h.2⟩
  actions := h.actions

end Books

namespace Reassembler

variable {opened : Nat → Prop}

theorem erase_books (r : Reassembler) (k : Nat) :
    Books opened r { r with frames := r.frames.erase k } := by
  refine Books.of_slots rfl rfl rfl ?_
  intro j s n hs hn
  rw [OrdMap.get?_erase] at hs
  split at hs
  · simp at hs
  · exact Or.inl ⟨s, hs, hn, id⟩

theorem retain_books (r : Reassembler) (p : Nat → Slot → Bool) :
    Books opened r { r with frames := r.frames.retain p } := by
  refine Books.of_slots rfl rfl rfl ?_
  intro j s n hs hn
  rw [OrdMap.get?_retain, Option.filter_eq_some_iff] at hs
  exact Or.inl ⟨s, hs.1, hn, id⟩

/-- A slot takes the place of one counted alike, or is no longer waited for. -/
theorem insert_books (r : Reassembler) {k : Nat} {s' : Slot}
    (hs' : ∀ n, s'.tries = some n → (∃ s, r.frames.get? k = some s ∧ s.tries = some n ∧
      (s.discardable = true → s'.discardable = true)) ∨ opened k ∧ n = 0) :
    Books opened r { r with frames := r.frames.insert k s' } := by
  refine Books.of_slots rfl rfl rfl ?_
  intro j s n hs hn
  rw [OrdMap.get?_insert] at hs
  split at hs
  · rename_i hjk
    subst hjk
    obtain rfl := Option.some.inj hs
    exact hs' n hn
  · exact Or.inl ⟨s, hs, hn, id⟩

theorem mapVal_books (r : Reassembler) {f : Nat → Slot → Slot}
    (hf : ∀ k s, (f k s).tries = s.tries ∧ (f k s).discardable = s.discardable) :
    Books opened r { r with frames := r.frames.mapVal f } := by
  refine Books.of_slots rfl rfl rfl ?_
  intro k s' n hs hn
  rw [OrdMap.get?_mapVal, Option.map_eq_some_iff] at hs
  obtain ⟨s, hs, rfl⟩ := hs
  obtain ⟨htries, hdisc⟩ := hf k s
  rw [htries] at hn
  exact Or.inl ⟨s, hs, hn, fun h => hdisc.trans h⟩

theorem countLostDatagrams_books (r : Reassembler) (missing : Nat) :
    Books opened r (r.countLostDatagrams missing) where
  cfg := rfl
  ok := Tallies.rfl _ _
  lost := Tallies.rfl _ _
  datagrams := Tallies.addCut _ _ missing
  slots := fun _ s _ hs hn => Or.inl ⟨s, hs, hn, id⟩
  actions := ⟨[], by simp [countLostDatagrams], by simp⟩

theorem requestRefresh_books (r : Reassembler) (now : Instant) (again : Bool) :
    Books opened r (r.requestRefresh now again) := by
  have hcounts : counts (r.requestRefresh now again) = counts r := by
    unfold requestRefresh
    cases again <;> rfl
  refine ⟨Charged.of_counts hcounts, rfl, fun _ s _ hs hn => Or.inl ⟨s, hs, hn, id⟩, _, rfl, ?_⟩
  intro a ha
  rw [List.mem_singleton.mp ha]
  rfl

theorem enterRefresh_books (r : Reassembler) (now : Instant) :
    Books opened r (r.enterRefresh now) := by
  refine Books.trans ?_ (requestRefresh_books _ now false)
  exact Books.quiet rfl rfl rfl rfl

theorem skip_books (r : Reassembler) (k missing : Nat) : Books opened r (r.skip k missing) := by
  have hinsert : Books opened r { r with frames := r.frames.insert k .skipped } :=
    insert_books r (by simp [Slot.tries])
  refine hinsert.trans (Books.trans ?_ (countLostDatagrams_books _ missing))
  exact Books.quiet rfl rfl rfl rfl

theorem lose_books (r : Reassembler) (k missing : Nat) (now : Instant) :
    Books opened r (r.lose k missing now) := by
  unfold lose
  split
  · exact skip_books r k missing
  · have herase : Books opened r (giveUp { r with frames := r.frames.erase k } k) :=
      (erase_books r k).trans (Books.quiet rfl rfl rfl rfl)
    generalize giveUp { r with frames := r.frames.erase k } k = g at herase
    have hlost : Books opened g { g with
        stats := { g.stats with framesLost := satAdd 64 g.stats.framesLost 1 }
        window := { g.window with framesLost := satAdd 32 g.window.framesLost 1 } } :=
      ⟨⟨Tallies.rfl _ _, Tallies.add _ _ 1, Tallies.rfl _ _⟩, rfl,
        fun _ s _ hs hn => Or.inl ⟨s, hs, hn, id⟩, [], by simp, by simp⟩
    have hcounted := (herase.trans hlost).trans (countLostDatagrams_books _ missing)
    dsimp only
    split
    · exact hcounted.trans (enterRefresh_books _ now)
    · exact hcounted.trans (requestRefresh_books _ now true)
    · exact hcounted.trans (requestRefresh_books _ now true)

theorem finish_books (rs : ReedSolomon) (r : Reassembler) (k : Nat) (now : Instant) :
    Books opened r (r.finish rs k now) := by
  have herase : Books opened r { r with frames := r.frames.erase k } := erase_books r k
  unfold finish
  split
  · rename_i p hp
    dsimp only
    split
    · rename_i out hout
      refine herase.trans ?_
      refine Books.trans ?_ (insert_books _ (by simp [Slot.tries]))
      refine Books.trans ?_ (countLostDatagrams_books _ _)
      split
      · exact Books.quiet rfl rfl rfl rfl
      · exact Books.rfl _
    · exact herase.trans (lose_books _ k _ now)
  · exact herase

theorem deliver_books {r t : Reassembler} {k : Nat} {now : Instant}
    (h : r.deliver k now = some t) : Books opened r t := by
  unfold deliver at h
  split at h
  · rename_i out f hout
    obtain rfl := Option.some.inj h
    refine (erase_books r k).trans ?_
    exact
      { cfg := rfl
        ok := Tallies.add _ _ 1
        lost := Tallies.rfl _ _
        datagrams := Tallies.rfl _ _
        slots := fun _ s _ hs hn => Or.inl ⟨s, hs, hn, id⟩
        actions := ⟨[], by simp [recordDelivery], by simp⟩ }
  · simp at h

theorem drainStep_books {r t : Reassembler} {now : Instant} (h : drainStep now r = some t) :
    Books opened r t := by
  unfold drainStep at h
  split at h
  · split at h
    · exact deliver_books h
    · obtain rfl := Option.some.inj h
      exact (erase_books r _).trans (Books.quiet rfl rfl rfl rfl)
    · split at h
      · obtain rfl := Option.some.inj h
        exact skip_books r _ _
      · simp at h
    · simp at h
  all_goals
    split at h
    · simp at h
    · rename_i k _
      refine (retain_books r fun j _ => decide (k ≤ j)).trans (Books.trans ?_ (deliver_books h))
      exact Books.quiet rfl rfl rfl rfl

theorem loop_books {turn : Reassembler → Option Reassembler}
    (hturn : ∀ s t, turn s = some t → Books opened s t) (r : Reassembler) (fuel : Nat) :
    Books opened r (loop turn fuel r) :=
  loop_induct (P := Books opened r) (fun s t hs hst => hs.trans (hturn s t hst)) fuel (Books.rfl r)

theorem drain_books (r : Reassembler) (now : Instant) : Books opened r (r.drain now) :=
  loop_books (fun _ _ h => drainStep_books h) r _

theorem evictStep_books {r t : Reassembler} {now : Instant} (h : evictStep now r = some t) :
    Books opened r t := by
  unfold evictStep at h
  split at h
  · simp at h
  · split at h
    · simp at h
    · obtain rfl := Option.some.inj h
      exact erase_books r _
    · obtain rfl := Option.some.inj h
      exact (erase_books r _).trans (Books.quiet rfl rfl rfl rfl)
    · obtain rfl := Option.some.inj h
      exact lose_books r _ _ now
    · obtain rfl := Option.some.inj h
      exact lose_books r _ _ now

theorem evict_books (r : Reassembler) (now : Instant) : Books opened r (r.evict now) :=
  loop_books (fun _ _ h => evictStep_books h) r _

/-- The frames a gap before `frame` starts to wait for. -/
def gapOpens (r : Reassembler) (frame : Nat) : List Nat :=
  match r.need with
  | .frame next =>
      if r.cfg.maxPending < frame - next then []
      else (List.range' next (frame - next)).filter fun k => (r.frames.get? k).isNone
  | .keyframe | .refresh => []

/-- The frames whose slots a fragment of `frame` opens: those of a gap before it,
and its own when nothing of it arrived. -/
def opens (r : Reassembler) (frame : Nat) : List Nat :=
  r.gapOpens frame ++
    match r.frames.get? frame with
    | none | some (.unknown ..) => [frame]
    | some _ => []

theorem foldl_fresh_slots (now : Instant) (ks : List Nat) (m : OrdMap Nat Slot) {k : Nat}
    {s : Slot} (h : (ks.foldl (fun m k => if (m.get? k).isSome then m
      else m.insert k (Slot.fresh now)) m).get? k = some s) :
    m.get? k = some s ∨ k ∈ ks ∧ m.get? k = none ∧ s = Slot.fresh now := by
  induction ks generalizing m with
  | nil => exact Or.inl h
  | cons j ks ih =>
    rw [List.foldl_cons] at h
    rcases ih _ h with hold | ⟨hk, hnone, hs⟩
    · split at hold
      · exact Or.inl hold
      · rename_i hj
        rw [OrdMap.get?_insert] at hold
        split at hold
        · rename_i hjk
          subst hjk
          exact Or.inr ⟨by simp, by simpa using hj, (Option.some.inj hold).symm⟩
        · exact Or.inl hold
    · split at hnone
      · exact Or.inr ⟨List.mem_cons_of_mem _ hk, hnone, hs⟩
      · rw [OrdMap.get?_insert] at hnone
        split at hnone
        · simp at hnone
        · exact Or.inr ⟨List.mem_cons_of_mem _ hk, hnone, hs⟩

theorem openGap_books (r : Reassembler) (frame : Nat) (now : Instant) :
    Books (· ∈ r.gapOpens frame) r (r.openGap frame now) := by
  unfold openGap gapOpens
  cases hneed : r.need with
  | keyframe => exact Books.rfl r
  | refresh => exact Books.rfl r
  | frame next =>
    dsimp only
    split
    · refine (retain_books r fun k _ => decide (frame ≤ k)).trans
        (Books.trans ?_ (enterRefresh_books _ now))
      exact
        { cfg := rfl
          ok := Tallies.rfl _ _
          lost := Tallies.add _ _ _
          datagrams := Tallies.rfl _ _
          slots := fun _ s _ hs hn => Or.inl ⟨s, hs, hn, id⟩
          actions := ⟨[], by simp, by simp⟩ }
    · refine Books.of_slots rfl rfl rfl ?_
      intro k s n hs hn
      rcases foldl_fresh_slots now _ r.frames hs with hs | ⟨hk, hnone, rfl⟩
      · exact Or.inl ⟨s, hs, hn, id⟩
      · exact Or.inr ⟨List.mem_filter.mpr ⟨hk, by simp [hnone]⟩, by simpa [Slot.fresh, Slot.tries] using hn.symm⟩

theorem markPrevious_books (r : Reassembler) (header : MediaHeader) (frame : Nat) :
    Books opened r (r.markPrevious header frame) := by
  unfold markPrevious
  split
  · split
    · rename_i slot hslot
      refine insert_books r ?_
      intro n hn
      refine Or.inl ⟨slot, hslot, ?_, ?_⟩
      · cases slot <;> simpa [Slot.markDiscardable, Slot.tries] using hn
      · intro hdisc
        cases slot <;> simp_all [Slot.markDiscardable, Slot.discardable]
    · exact Books.rfl r
  · exact Books.rfl r

theorem openPartial_books {r t : Reassembler} {header : MediaHeader} {frame : Nat}
    {payload : Bytes} {now : Instant} {p : Option Partial}
    (hopened : ∀ s, (r.frames.get? frame).getD (Slot.fresh now) = s →
      (∃ f n a d, s = .unknown f n a d) → opened frame)
    (h : r.openPartial header frame payload now = (t, p)) :
    Books opened r t ∧ ∀ q, p = some q → t.frames.get? frame = some (.part q) := by
  unfold openPartial at h
  split at h
  · rename_i f n a d hslot
    obtain ⟨rfl, rfl⟩ := Prod.mk.inj h
    constructor
    · refine (insert_books r ?_).trans (Books.quiet rfl rfl rfl rfl)
      intro m hm
      refine Or.inr ⟨hopened _ hslot ⟨f, n, a, d, rfl⟩, ?_⟩
      simpa [Slot.tries, Partial.new] using hm.symm
    · rintro q hq
      obtain rfl := Option.some.inj hq
      simp
  · rename_i q hslot
    obtain ⟨rfl, rfl⟩ := Prod.mk.inj h
    refine ⟨Books.rfl r, ?_⟩
    rintro q' hq
    obtain rfl := Option.some.inj hq
    cases hget : r.frames.get? frame with
    | none => simp [hget, Slot.fresh] at hslot
    | some s => simpa [hget] using hslot
  · obtain ⟨rfl, rfl⟩ := Prod.mk.inj h
    exact ⟨Books.rfl r, fun _ hq => by cases hq⟩
  · obtain ⟨rfl, rfl⟩ := Prod.mk.inj h
    exact ⟨Books.rfl r, fun _ hq => by cases hq⟩

theorem storeFragment_books (rs : ReedSolomon) (r : Reassembler) (header : MediaHeader)
    (payload : Bytes) (now : Instant)
    (hopened : ∀ s, (r.frames.get? header.frame.toNat).getD (Slot.fresh now) = s →
      (∃ f n a d, s = .unknown f n a d) → opened header.frame.toNat) :
    Books opened r (r.storeFragment rs header payload now).1 := by
  unfold storeFragment
  dsimp only
  split
  · rename_i t hopen
    exact (openPartial_books hopened hopen).1
  · rename_i t p hopen
    obtain ⟨hbooks, hslot⟩ := openPartial_books hopened hopen
    have hslot := hslot p rfl
    split
    · exact hbooks
    · split
      · exact hbooks
      · exact hbooks
      · have hstore : Books opened t { t with
            frames := t.frames.insert header.frame.toNat
              (.part (p.store header.index.toNat payload header now)) } :=
          insert_books t fun n hn => Or.inl ⟨.part p, hslot, hn, id⟩
        refine (hbooks.trans hstore).trans ?_
        refine Books.trans (Books.trans ?_ (drain_books _ now)) (evict_books _ now)
        split
        · exact finish_books rs _ _ now
        · exact Books.rfl _

theorem foldl_fresh_of_notMem (now : Instant) {ks : List Nat} (m : OrdMap Nat Slot) {k : Nat}
    (hk : k ∉ ks) :
    (ks.foldl (fun m k => if (m.get? k).isSome then m else m.insert k (Slot.fresh now))
      m).get? k = m.get? k := by
  induction ks generalizing m with
  | nil => rfl
  | cons j ks ih =>
    rw [List.foldl_cons, ih _ fun h => hk (List.mem_cons_of_mem _ h)]
    split
    · rfl
    · rw [OrdMap.get?_insert, if_neg fun h => hk (by simp [h])]

theorem openGap_get? (r : Reassembler) (frame : Nat) (now : Instant) :
    (r.openGap frame now).frames.get? frame = r.frames.get? frame := by
  unfold openGap
  split
  · rename_i next _
    dsimp only
    split
    · show (r.frames.retain fun k _ => decide (frame ≤ k)).get? frame = _
      rw [OrdMap.get?_retain]
      cases r.frames.get? frame <;> simp
    · refine foldl_fresh_of_notMem now r.frames ?_
      rw [List.mem_range'_1]
      omega
  · rfl
  · rfl

theorem markPrevious_get? (r : Reassembler) (header : MediaHeader) (frame : Nat) :
    (r.markPrevious header frame).frames.get? frame = r.frames.get? frame := by
  unfold markPrevious
  split
  · rename_i hflag
    split
    · show (r.frames.insert (frame - 1) _).get? frame = _
      rw [OrdMap.get?_insert, if_neg (by omega)]
    · rfl
  · rfl

theorem ingestVideo_books (rs : ReedSolomon) (r : Reassembler) (header : MediaHeader)
    (payload : Bytes) (now : Instant)
    (hopened : validFragment header payload = true → r.stale header.frame.toNat = false →
      ∀ k ∈ r.opens header.frame.toNat, opened k) :
    Books opened r (r.ingestVideo rs header payload now).1 := by
  have harrived : Books opened r { r with anyArrived := true } := Books.quiet rfl rfl rfl rfl
  unfold ingestVideo
  dsimp only
  split
  · exact harrived
  · rename_i hvalid
    split
    · exact harrived
    · rename_i hstale
      have hopened := hopened (by simpa using hvalid) (Bool.eq_false_iff.mpr hstale)
      have hgap : Books opened { r with anyArrived := true }
          (openGap { r with anyArrived := true } header.frame.toNat now) :=
        (openGap_books _ _ now).mono fun k hk => hopened k (List.mem_append_left _ hk)
      refine ((harrived.trans hgap).trans (markPrevious_books _ header
        header.frame.toNat)).trans ?_
      refine storeFragment_books rs _ header payload now ?_
      rw [markPrevious_get?, openGap_get?]
      rintro s hs ⟨f, n, a, d, rfl⟩
      apply hopened
      refine List.mem_append_right _ ?_
      change (r.frames.get? header.frame.toNat).getD (Slot.fresh now) = _ at hs
      cases hget : r.frames.get? header.frame.toNat with
      | none => simp
      | some s =>
        rw [hget] at hs
        obtain rfl : s = .unknown f n a d := hs
        simp

theorem resume_books (r : Reassembler) (now : Instant) : Books opened r (r.resume now) := by
  unfold resume
  split
  · exact Books.rfl r
  · refine mapVal_books r ?_
    intro _ s
    cases s <;> exact ⟨rfl, rfl⟩

theorem endSilence_books (r : Reassembler) (header : MediaHeader) (now : Instant) :
    Books opened r (r.endSilence header now) := by
  unfold endSilence
  dsimp only
  set unexplained := Instant.since now r.arrivedAt -
    workerShare (r.readStamp header (Instant.since now r.arrivedAt)) (Instant.since now r.arrivedAt)
  generalize ha : (if r.anyArrived && decide (r.stallThreshold ≤ Instant.since now r.arrivedAt)
    then r.attributeSilence _ _ _ _ else r) = a
  have hattributed : Books opened r a := by
    rw [← ha]
    split
    · exact Books.quiet rfl rfl rfl rfl
    · exact Books.rfl r
  generalize hb : (if r.anyArrived && decide (r.stallThreshold ≤ unexplained) then a.resume now
    else a) = b
  have hresumed : Books opened r b := by
    rw [← hb]
    split
    · exact hattributed.trans (resume_books a now)
    · exact hattributed
  refine hresumed.trans ?_
  split
  · exact Books.quiet rfl rfl rfl rfl
  · exact Books.quiet rfl rfl rfl rfl

/-- The frames whose slots a datagram opens. -/
def openedBy (r : Reassembler) (datagram : Bytes) : List Nat :=
  match MediaHeader.parse datagram with
  | none => []
  | some (header, payload) =>
      if header.stream ≠ r.stream then []
      else
        match header.kind? with
        | some .videoData | some .videoParity =>
            if validFragment header payload && !r.stale header.frame.toNat then
              r.opens header.frame.toNat
            else []
        | _ => []

/-- Settling a silence changes neither what is stale nor what a fragment opens. -/
theorem endSilence_opens (r : Reassembler) (header : MediaHeader) (now : Instant) (frame : Nat) :
    (r.endSilence header now).stale frame = r.stale frame ∧
      (r.endSilence header now).opens frame = r.opens frame := by
  apply endSilence_induct (P := fun s => s.stale frame = r.stale frame ∧ s.opens frame = r.opens frame)
  · intro s t hst hs
    have hstale : t.stale frame = s.stale frame := by
      simp only [stale, hst.need, hst.lastGood, hst.givenUp]
    have hopens : t.opens frame = s.opens frame := by
      simp only [opens, gapOpens, hst.need, hst.frames, hst.cfg]
    exact ⟨hstale.trans hs.1, hopens.trans hs.2⟩
  · intro s hs
    refine ⟨Eq.trans ?_ hs.1, Eq.trans ?_ hs.2⟩
    · unfold resume
      split <;> rfl
    · unfold resume
      split
      · rfl
      · simp only [opens, gapOpens, OrdMap.get?_mapVal, Option.isNone_map]
        congr 1
        cases s.frames.get? frame with
        | none => rfl
        | some u => cases u <;> rfl
  · exact ⟨rfl, rfl⟩

theorem ingest_books (rs : ReedSolomon) (r : Reassembler) (datagram : Bytes) (now : Instant) :
    Books (· ∈ r.openedBy datagram) r (r.ingest rs datagram now).1 := by
  unfold ingest openedBy
  cases MediaHeader.parse datagram with
  | none => exact Books.rfl r
  | some parsed =>
    obtain ⟨header, payload⟩ := parsed
    have hsilence : ∀ {opened : Nat → Prop}, Books opened r (r.endSilence header now) :=
      endSilence_books r header now
    obtain ⟨hstale, hopens⟩ := endSilence_opens r header now header.frame.toNat
    have hvideo : ∀ {opened : Nat → Prop},
        (validFragment header payload = true → r.stale header.frame.toNat = false →
          ∀ k ∈ r.opens header.frame.toNat, opened k) →
        Books opened r ((r.endSilence header now).ingestVideo rs header payload now).1 := by
      intro opened hopened
      refine hsilence.trans (ingestVideo_books rs _ header payload now ?_)
      rw [hstale, hopens]
      exact hopened
    dsimp only
    by_cases hstream : header.stream ≠ r.stream
    · rw [if_pos hstream, if_pos hstream]
      exact Books.rfl r
    · rw [if_neg hstream, if_neg hstream]
      cases header.kind? with
      | none => exact hsilence
      | some kind =>
        cases kind with
        | audio =>
          dsimp only
          split <;> exact hsilence
        | cursor =>
          dsimp only
          split <;> exact hsilence
        | clock => exact hsilence
        | heartbeat =>
          dsimp only
          split
          · exact hsilence.trans (Books.quiet rfl rfl rfl rfl)
          · exact hsilence
        | videoData =>
          refine hvideo fun hvalid hfresh k hk => ?_
          simpa [hvalid, hfresh] using hk
        | videoParity =>
          refine hvideo fun hvalid hfresh k hk => ?_
          simpa [hvalid, hfresh] using hk

theorem startTick_books (r : Reassembler) (now : Instant) (rtt : Duration) :
    Books opened r (r.startTick now rtt) := by
  unfold startTick
  dsimp only
  split
  · exact Books.quiet rfl rfl rfl rfl
  · exact Books.quiet rfl rfl rfl rfl

theorem foldl_lose_books (r : Reassembler) (lost : List (Nat × Nat)) (now : Instant) :
    Books opened r (lost.foldl (fun r fm => r.lose fm.1 fm.2 now) r) := by
  induction lost generalizing r with
  | nil => exact Books.rfl r
  | cons fm lost ih => exact (lose_books r fm.1 fm.2 now).trans (ih _)

theorem repeatRefresh_books (r : Reassembler) (c : TickClock) (rtt : Duration) :
    Books opened r (r.repeatRefresh c rtt) := by
  unfold repeatRefresh
  dsimp only
  split
  · split
    · exact Books.rfl r
    · refine Books.trans ?_ (requestRefresh_books _ c.now _)
      exact Books.quiet rfl rfl rfl rfl
  · exact Books.rfl r

/-- What a `tick` does after asking: losing, refreshing and delivering. -/
def tickRest (r : Reassembler) (lost : List (Nat × Nat)) (c : TickClock) (now : Instant)
    (rtt : Duration) : Reassembler :=
  ((lost.foldl (fun r fm => r.lose fm.1 fm.2 now) r).repeatRefresh c rtt).drain now

theorem tickRest_books (r : Reassembler) (lost : List (Nat × Nat)) (c : TickClock) (now : Instant)
    (rtt : Duration) : Books opened r (r.tickRest lost c now rtt) :=
  ((foldl_lose_books r lost now).trans (repeatRefresh_books _ c rtt)).trans (drain_books _ now)

/-- A `tick` asks for fragments, and hands out what it asked for with what the
rest of it asks. -/
theorem tick_eq (r : Reassembler) (now : Instant) (rtt : Duration) :
    ∃ lost c, c.retries = (r.startTick now rtt).cfg.nackRetries ∧
      ∀ t, t = ((r.startTick now rtt).tickFrames c).1.tickRest lost c now rtt →
        r.tick now rtt = ({ t with actions := [] }, t.actions) := by
  refine ⟨((r.startTick now rtt).tickFrames ((r.startTick now rtt).tickClock now rtt)).2,
    (r.startTick now rtt).tickClock now rtt, rfl, ?_⟩
  rintro t rfl
  rfl

theorem setSourceLive_books (r : Reassembler) (live : Bool) :
    Books opened r (r.setSourceLive live) := by
  unfold setSourceLive
  split
  · split
    · exact Books.quiet rfl rfl rfl rfl
    · exact Books.quiet rfl rfl rfl rfl
  · exact Books.rfl r

theorem forceRefresh_books (r : Reassembler) (now : Instant) (keyframe : Bool) :
    Books opened r (r.forceRefresh now keyframe) := by
  unfold forceRefresh
  dsimp only
  split
  · exact Books.quiet rfl rfl rfl rfl
  · refine Books.trans ?_ (requestRefresh_books _ now false)
    exact Books.quiet rfl rfl rfl rfl

theorem nextFrame_books (r : Reassembler) : Books opened r r.nextFrame.1 := by
  unfold nextFrame
  split
  · exact Books.rfl r
  · exact Books.quiet rfl rfl rfl rfl

end Reassembler

end Slopty.Media.Reassemble
