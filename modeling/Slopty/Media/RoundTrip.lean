import Mathlib.Data.List.Dedup
import Slopty.Media.DecodeChain
import Slopty.Media.Fragments
import Slopty.Media.Packetize

/-!
Packetize and reassemble undo each other: whatever order the datagrams of a
frame come in, repeated or lost, a reassembler that is ready for the frame
delivers it once enough of them came.
-/

namespace Slopty.Media.Reassemble

open Slopty.Lib
open Slopty.Media.Wire
open Slopty.Media.Fec

variable {rs : ReedSolomon}

/-- A complete frame that neither restarts the stream nor is shown in place of
frame `n`. -/
structure Harmless (need : Need) (n : Nat) (discardable : Bool) (k : Nat) (out : FrameOut) :
    Prop where
  other : k ≠ n
  inOrder : need = .frame n → discardable = true → k < n
  keyframe : need = .keyframe → out.info.keyframe = false
  refresh : need = .refresh → out.info.keyframe = false ∧ out.info.ltrRefresh = false

/-- Nothing of frame `n` is settled yet, and nothing else is about to move. -/
structure Open (fr : Fragments rs) (r : Reassembler) : Prop where
  admits : ∀ recovered, r.need.Admits (fr.info recovered)
  fresh : r.stale fr.number = false
  harmless : ∀ k out f, r.frames.get? k = some (.complete out f) →
    Harmless r.need fr.number fr.sentDiscardable k out

/-- The slot of the frame before anything of it arrived. -/
def Untouched (fr : Fragments rs) (r : Reassembler) : Prop :=
  ∀ s, r.frames.get? fr.number = some s →
    ∃ f t a d, s = .unknown f t a d ∧ (d = true → fr.sentDiscardable = true)

/-- A frame waited for: what of it came so far is held, and it is not enough. -/
structure Waiting (fr : Fragments rs) (r : Reassembler) (done : List Nat) : Prop where
  stream : r.stream = fr.header.stream
  opened : Open fr r
  room : (r.frames.insert fr.number .skipped).size ≤ r.cfg.maxPending
  slot : (Untouched fr r ∧ done = []) ∨
    ∃ p, r.frames.get? fr.number = some (.part p) ∧ Holds fr p ∧
      p.haveTotal < fr.data.length ∧ ∀ i ∈ done, ∃ b, p.shards[i]? = some (some b)

namespace Open

theorem congr {fr : Fragments rs} {r t : Reassembler} (h : Open fr r) (hneed : t.need = r.need)
    (hlast : t.lastGood = r.lastGood) (hgiven : t.givenUp = r.givenUp)
    (hcomplete : ∀ k out f, t.frames.get? k = some (.complete out f) →
      r.frames.get? k = some (.complete out f)) : Open fr t where
  admits := by
    rw [hneed]
    exact h.admits
  fresh := by
    have := h.fresh
    simp only [Reassembler.stale] at this ⊢
    rwa [hneed, hlast, hgiven]
  harmless := by
    intro k out f hout
    rw [hneed]
    exact h.harmless k out f (hcomplete k out f hout)

theorem drainStep_eq_none {fr : Fragments rs} {r : Reassembler} (h : Open fr r) {p : Partial}
    (hp : r.frames.get? fr.number = some (.part p)) (hd : p.discardable = fr.sentDiscardable)
    (now : Instant) : Reassembler.drainStep now r = none := by
  unfold Reassembler.drainStep
  split
  · rename_i n hneed
    have hn : fr.number = n := by
      have := h.admits false
      rw [hneed] at this
      exact this
    subst hn
    rw [hp]
    simp only
    refine if_neg ?_
    intro hskip
    rw [Bool.and_eq_true] at hskip
    obtain ⟨hdisc, hafter⟩ := hskip
    rw [Reassembler.completeAfter, List.any_eq_true] at hafter
    obtain ⟨⟨k, s⟩, hmem, hk⟩ := hafter
    rw [Bool.and_eq_true, decide_eq_true_eq] at hk
    cases s with
    | complete out f =>
        have hlt := (h.harmless k out f (OrdMap.get?_eq_some_iff.mpr hmem)).inOrder hneed
          (hd ▸ hdisc)
        have hsmall : fr.number < 2 ^ 32 := fr.header.frame.toNat_lt
        have hle := hk.1
        simp only [satAdd] at hle
        omega
    | unknown => simp [Slot.isComplete] at hk
    | part q => simp [Slot.isComplete] at hk
    | skipped => simp [Slot.isComplete] at hk
  all_goals
    rename_i hneed
    split
    · rfl
    · rename_i k hk
      obtain ⟨out, f, hout, hrestart⟩ := Reassembler.restartFrame_spec hk
      have hharm := h.harmless k out f hout
      exfalso
      first
        | have := hharm.keyframe hneed
          simp [hneed, this] at hrestart
        | have := hharm.refresh hneed
          simp [this] at hrestart

theorem drainStep_delivers {fr : Fragments rs} {r r' : Reassembler} (h : Open fr r)
    (hneed : r'.need = r.need) {out : FrameOut} {f : Instant} {recovered : Bool}
    (hinfo : out.info = fr.info recovered)
    (hframes : r'.frames = r.frames.insert fr.number (.complete out f)) (now : Instant) :
    ∃ t hold, Reassembler.drainStep now r' = some t ∧
      t.ready = r'.ready ++ [{ out with hold := hold }] := by
  have hat : r'.frames.get? fr.number = some (.complete out f) := by
    rw [hframes, OrdMap.get?_insert_self]
  have hadmits := h.admits recovered
  unfold Reassembler.drainStep
  split
  · rename_i n hn
    have hn' : fr.number = n := by
      rw [← hneed, hn] at hadmits
      exact hadmits
    subst hn'
    rw [hat]
    simp only [Reassembler.deliver, hat]
    exact ⟨_, _, rfl, rfl⟩
  all_goals
    rename_i hn
    -- No other complete frame restarts the stream.
    have honly : ∀ k, r'.restartFrame (decide (r'.need = .refresh)) = some k → k = fr.number := by
      intro k hk
      by_contra hne
      obtain ⟨out', f', hout', hrestart⟩ := Reassembler.restartFrame_spec hk
      rw [hframes, OrdMap.get?_insert, if_neg (Ne.symm hne)] at hout'
      have hharm := h.harmless k out' f' hout'
      rw [← hneed] at hharm
      first
        | simp [hn, hharm.keyframe hn] at hrestart
        | simp [hharm.refresh hn] at hrestart
    have hsome : r'.restartFrame (decide (r'.need = .refresh)) ≠ none := by
      intro hnone
      rw [Reassembler.restartFrame, List.findSome?_eq_none_iff] at hnone
      have := hnone _ (OrdMap.get?_eq_some_iff.mp hat)
      rw [← hneed, hn] at hadmits
      simp_all [Need.Admits]
    obtain ⟨k, hk⟩ := Option.ne_none_iff_exists'.mp hsome
    obtain rfl := honly k hk
    rw [hk]
    have hkept : (r'.frames.retain fun j _ => decide (fr.number ≤ j)).get? fr.number =
        some (.complete out f) := by
      rw [OrdMap.get?_retain, hat]
      simp
    simp only [Reassembler.deliver, hkept]
    exact ⟨_, _, rfl, rfl⟩

end Open

namespace Reassembler

theorem drain_eq_self {r : Reassembler} {now : Instant} (h : drainStep now r = none) :
    r.drain now = r :=
  loop_eq_self h _

theorem evict_eq_self {r : Reassembler} (h : r.frames.size ≤ r.cfg.maxPending) (now : Instant) :
    r.evict now = r := by
  have hstep : evictStep now r = none := if_pos h
  exact loop_eq_self hstep _

theorem drain_eq_loop {r t : Reassembler} {now : Instant} (h : drainStep now r = some t) :
    ∃ fuel, r.drain now = loop (drainStep now) fuel t := by
  have hlt := weight_drainStep_lt h
  unfold drain
  cases hw : weight r.frames with
  | zero => omega
  | succ fuel => exact ⟨fuel, by simp [loop, h]⟩

theorem drainStep_ready {r t : Reassembler} {now : Instant} (h : drainStep now r = some t) :
    ∃ outs, t.ready = r.ready ++ outs := by
  have hdeliver : ∀ (s : Reassembler) (k : Nat), s.ready = r.ready → s.deliver k now = some t →
      ∃ outs, t.ready = r.ready ++ outs := by
    intro s k hs hk
    unfold deliver at hk
    split at hk
    · rw [← Option.some.inj hk, ← hs]
      exact ⟨_, rfl⟩
    · simp at hk
  unfold drainStep at h
  split at h
  · split at h
    · exact hdeliver r _ rfl h
    · rw [← Option.some.inj h]
      exact ⟨[], by simp⟩
    · split at h
      · rw [← Option.some.inj h]
        exact ⟨[], by simp [skip, giveUp, countLostDatagrams]⟩
      · simp at h
    · simp at h
  all_goals
    split at h
    · simp at h
    · refine hdeliver _ _ ?_ h
      rfl

theorem evictStep_ready {r t : Reassembler} {now : Instant} (h : evictStep now r = some t) :
    t.ready = r.ready := by
  have hlose : ∀ k missing, (r.lose k missing now).ready = r.ready := by
    intro k missing
    unfold lose
    split
    · rfl
    · simp only
      split <;> rfl
  unfold evictStep at h
  split at h
  · simp at h
  · split at h
    · simp at h
    all_goals
      obtain rfl := Option.some.inj h
      first
        | rfl
        | exact hlose _ _

theorem settle_ready {r t : Reassembler} {now : Instant} (h : drainStep now r = some t) :
    ∃ outs, ((r.drain now).evict now).ready = t.ready ++ outs := by
  obtain ⟨fuel, hfuel⟩ := drain_eq_loop h
  have hdrained : ∃ outs, (r.drain now).ready = t.ready ++ outs := by
    rw [hfuel]
    refine loop_induct (P := fun s : Reassembler => ∃ outs, s.ready = t.ready ++ outs) ?_ fuel ⟨[], by simp⟩
    rintro u v ⟨outs, hu⟩ huv
    obtain ⟨outs', hv⟩ := drainStep_ready huv
    exact ⟨outs ++ outs', by rw [hv, hu, List.append_assoc]⟩
  obtain ⟨outs, houts⟩ := hdrained
  refine ⟨outs, ?_⟩
  refine loop_induct (P := fun s : Reassembler => s.ready = t.ready ++ outs) ?_ _ houts
  intro u v hu huv
  rw [evictStep_ready huv, hu]

end Reassembler

namespace Waiting

variable {fr : Fragments rs} {r : Reassembler} {done : List Nat}

theorem quiet {t : Reassembler} (h : Waiting fr r done) (hquiet : Reassembler.Quiet r t) :
    Waiting fr t done where
  stream := hquiet.stream.trans h.stream
  opened := h.opened.congr hquiet.need hquiet.lastGood hquiet.givenUp fun k out f hout =>
    hquiet.frames ▸ hout
  room := by
    rw [hquiet.frames, hquiet.cfg]
    exact h.room
  slot := by
    unfold Untouched
    rw [hquiet.frames]
    exact h.slot

theorem insert_other {k : Nat} {s s' : Slot} (h : Waiting fr r done) (hk : k ≠ fr.number)
    (hs : r.frames.get? k = some s) (hkind : SameKind s s') :
    Waiting fr { r with frames := r.frames.insert k s' } done where
  stream := h.stream
  opened := by
    refine h.opened.congr rfl rfl rfl ?_
    intro j out f hout
    have hout' : (r.frames.insert k s').get? j = some (.complete out f) := hout
    rw [OrdMap.get?_insert] at hout'
    split at hout'
    · rename_i hkj
      obtain rfl := Option.some.inj hout'
      cases s with
      | complete out' f' =>
          obtain ⟨rfl, rfl⟩ := hkind
          exact hkj ▸ hs
      | unknown => simp [SameKind] at hkind
      | part p => simp [SameKind] at hkind
      | skipped => simp [SameKind] at hkind
    · exact hout'
  room := by
    have hroom := h.room
    rw [OrdMap.size_insert] at hroom ⊢
    have hget : (r.frames.insert k s').get? fr.number = r.frames.get? fr.number := by
      rw [OrdMap.get?_insert, if_neg hk]
    have hsize : (r.frames.insert k s').size = r.frames.size := by
      rw [OrdMap.size_insert, hs]
      rfl
    rw [hget, hsize]
    exact hroom
  slot := by
    have hget : (r.frames.insert k s').get? fr.number = r.frames.get? fr.number := by
      rw [OrdMap.get?_insert, if_neg hk]
    unfold Untouched
    simp only [hget]
    exact h.slot

theorem resume (h : Waiting fr r done) (now : Instant) : Waiting fr (r.resume now) done := by
  unfold Reassembler.resume
  split
  · exact h
  · have hget : ∀ k, (r.frames.mapVal fun _ s => Reassembler.resumeSlot (now - r.nackDelay) now s).get? k =
        (r.frames.get? k).map (Reassembler.resumeSlot (now - r.nackDelay) now) := fun k =>
      OrdMap.get?_mapVal _ _ k
    refine ⟨h.stream, h.opened.congr rfl rfl rfl ?_, ?_, ?_⟩
    · intro k out f hout
      simp only [hget, Option.map_eq_some_iff] at hout
      obtain ⟨s, hs, hsout⟩ := hout
      cases s with
      | complete out' f' =>
          rw [hs]
          exact congrArg some hsout
      | unknown => simp [Reassembler.resumeSlot] at hsout
      | part p => simp [Reassembler.resumeSlot] at hsout
      | skipped => simp [Reassembler.resumeSlot] at hsout
    · have hroom := h.room
      rw [OrdMap.size_insert] at hroom ⊢
      simpa [hget] using hroom
    · rcases h.slot with ⟨huntouched, hdone⟩ | ⟨p, hp, hholds, hshort, hhas⟩
      · refine Or.inl ⟨?_, hdone⟩
        intro s hs
        simp only [hget, Option.map_eq_some_iff] at hs
        obtain ⟨s', hs', rfl⟩ := hs
        obtain ⟨f, t, a, d, rfl, hd⟩ := huntouched s' hs'
        exact ⟨_, _, _, d, rfl, hd⟩
      · refine Or.inr ⟨{ p with
          firstSeen := now - r.nackDelay
          lastSeen := now - r.nackDelay
          nackedAt := if 0 < p.nacks then some now else none }, ?_, ?_, hshort, hhas⟩
        · simp only [hget, hp]
          rfl
        exact
          { dataCount := hholds.dataCount
            parityCount := hholds.parityCount
            shardBytes := hholds.shardBytes
            flags := hholds.flags
            length := hholds.length
            honest := hholds.honest
            haveData := hholds.haveData
            haveTotal := hholds.haveTotal
            retransmitted := hholds.retransmitted
            discardable := hholds.discardable }

theorem endSilence (h : Waiting fr r done) (header : MediaHeader) (now : Instant) :
    Waiting fr (r.endSilence header now) done :=
  Reassembler.endSilence_induct (P := fun s => Waiting fr s done) header now
    (fun _ _ hst hs => hs.quiet hst) (fun _ hs => hs.resume now) h

/-- The frame is the one needed, or the order of frames does not matter: no gap
is opened before it. -/
theorem openGap_eq (h : Waiting fr r done) (now : Instant) :
    r.openGap fr.number now = r := by
  unfold Reassembler.openGap
  split
  · rename_i n hneed
    have hn : fr.number = n := by
      have := h.opened.admits false
      rw [hneed] at this
      exact this
    subst hn
    simp
  · rfl
  · rfl

theorem markPrevious (h : Waiting fr r done) (header : MediaHeader) :
    Waiting fr (r.markPrevious header fr.number) done := by
  unfold Reassembler.markPrevious
  split
  · rename_i hflag
    split
    · rename_i s hs
      exact h.insert_other (by omega) hs (Reassembler.sameKind_markDiscardable s)
    · exact h
  · exact h

theorem insert_part (h : Waiting fr r done) {p : Partial} {done' : List Nat}
    (hp : Holds fr p) (hshort : p.haveTotal < fr.data.length)
    (hhas : ∀ i ∈ done', ∃ b, p.shards[i]? = some (some b)) :
    Waiting fr { r with frames := r.frames.insert fr.number (.part p) } done' where
  stream := h.stream
  opened := by
    refine h.opened.congr rfl rfl rfl ?_
    intro k out f hout
    simp only at hout
    rw [OrdMap.get?_insert] at hout
    split at hout
    · simp at hout
    · exact hout
  room := by
    have hroom := h.room
    rw [OrdMap.size_insert, OrdMap.get?_insert_self]
    simp only [Option.isSome_some, if_true]
    rw [OrdMap.size_insert] at hroom ⊢
    exact hroom
  slot := Or.inr ⟨p, by simp, hp, hshort, hhas⟩

theorem size_le (h : Waiting fr r done) : r.frames.size ≤ r.cfg.maxPending := by
  have hroom := h.room
  rw [OrdMap.size_insert] at hroom
  split at hroom <;> omega

theorem openPartial (h : Waiting fr r done) {i : Nat} {b : Bytes} (hb : fr.shards[i]? = some b)
    (now : Instant) :
    ∃ t p, r.openPartial (fr.headerAt i) fr.number b now = (t, some p) ∧ Waiting fr t done ∧
      t.ready = r.ready ∧ t.frames.get? fr.number = some (.part p) ∧ Holds fr p ∧
      p.haveTotal < fr.data.length ∧ ∀ i ∈ done, ∃ b, p.shards[i]? = some (some b) := by
  unfold Reassembler.openPartial
  rcases h.slot with ⟨huntouched, hdone⟩ | ⟨p, hp, hholds, hshort, hhas⟩
  · obtain ⟨f, t, a, d, hslot, hd⟩ : ∃ f t a d,
        (r.frames.get? fr.number).getD (Slot.fresh now) = .unknown f t a d ∧
          (d = true → fr.sentDiscardable = true) := by
      cases hs : r.frames.get? fr.number with
      | none => exact ⟨now, 0, none, false, rfl, by simp⟩
      | some s =>
          obtain ⟨f, t, a, d, rfl, hd⟩ := huntouched s hs
          exact ⟨f, t, a, d, rfl, hd⟩
    rw [hslot]
    simp only
    have hholds := Holds.new (d := d) now hb hd
    have hshort : (Partial.new (fr.headerAt i) b.length now d).haveTotal < fr.data.length :=
      fr.some_data
    have hhas : ∀ j ∈ done, ∃ c, (Partial.new (fr.headerAt i) b.length now d).shards[j]? =
        some (some c) := by
      simp [hdone]
    have hwaiting := h.insert_part hholds hshort hhas
    exact ⟨_, _, rfl, hwaiting.quiet ⟨⟨rfl, rfl, rfl, rfl⟩, rfl, rfl, rfl, rfl, rfl⟩, rfl, by simp,
      hholds, hshort, hhas⟩
  · rw [hp]
    exact ⟨r, p, rfl, h, rfl, hp, hholds, hshort, hhas⟩

/-- The last fragment needed: the frame is put together and delivered. -/
theorem finish_delivers (hmds : rs.Mds) (h : Waiting fr r done) {p : Partial} (hp : Holds fr p)
    (henough : fr.data.length ≤ p.haveTotal) (now : Instant) :
    ∃ out more, fr.Shows out ∧
      (((Reassembler.finish rs { r with frames := r.frames.insert fr.number (.part p) } fr.number
        now).drain now).evict now).ready = r.ready ++ out :: more := by
  obtain ⟨out, hout, hshows⟩ := hp.assemble_shows hmds henough now
  obtain ⟨recovered, hinfo⟩ := hshows.info
  set t := Reassembler.finish rs { r with frames := r.frames.insert fr.number (.part p) } fr.number
    now with ht
  have hframes : t.frames = r.frames.insert fr.number (.complete out p.firstSeen) := by
    have hsettled : t.frames = ((r.frames.insert fr.number (.part p)).erase fr.number).insert
        fr.number (.complete out p.firstSeen) := by
      rw [ht]
      simp only [Reassembler.finish, OrdMap.get?_insert_self, hout]
      split <;> rfl
    rw [hsettled]
    apply OrdMap.ext_get?
    intro k
    rw [OrdMap.get?_insert, OrdMap.get?_insert, OrdMap.get?_erase, OrdMap.get?_insert]
    by_cases hk : fr.number = k
    · simp [hk]
    · simp [hk, Ne.symm hk]
  have hneed : t.need = r.need := by
    rw [ht]
    simp only [Reassembler.finish, OrdMap.get?_insert_self, hout]
    split <;> rfl
  have hready : t.ready = r.ready := by
    rw [ht]
    simp only [Reassembler.finish, OrdMap.get?_insert_self, hout]
    split <;> rfl
  obtain ⟨u, hold, hu, huready⟩ := h.opened.drainStep_delivers hneed hinfo hframes now
  obtain ⟨more, hmore⟩ := Reassembler.settle_ready hu
  refine ⟨{ out with hold := hold }, more, ⟨hshows.data, recovered, hinfo⟩, ?_⟩
  rw [hmore, huready, hready]
  simp

/-- One more fragment: the frame is still waited for, or it is delivered. -/
theorem storeFragment (hmds : rs.Mds) (h : Waiting fr r done) {i : Nat} {b : Bytes}
    (hb : fr.shards[i]? = some b) (now : Instant) (t : Reassembler)
    (ht : (r.storeFragment rs (fr.headerAt i) b now).1 = t) :
    (Waiting fr t (i :: done) ∧ t.ready = r.ready) ∨
      ∃ out more, fr.Shows out ∧ t.ready = r.ready ++ out :: more := by
  obtain ⟨u, p, hopen, hu, hready, hat, hholds, hshort, hhas⟩ := h.openPartial hb now
  have hi : i < fr.shards.length := (List.getElem?_eq_some_iff.mp hb).1
  have hindex : (fr.headerAt i).index.toNat = i := by
    have := fr.addressable
    rw [Fragments.shards, List.length_append] at hi
    simp only [Fragments.headerAt, UInt16.toNat_ofNat']
    omega
  have hmatches : ¬(p.dataCount ≠ (fr.headerAt i).dataCount.toNat ∨
      p.shards.length ≠ (fr.headerAt i).dataCount.toNat + (fr.headerAt i).parityCount.toNat ∨
      p.shardBytes ≠ b.length) := by
    have hshard := fr.shard_length b (List.mem_of_getElem? hb)
    have hd := fr.data_length
    have hp := fr.parity_length
    simp only [Fragments.headerAt, hholds.dataCount, hholds.length, hholds.shardBytes,
      Fragments.shards, List.length_append, hshard, ← hd, ← hp]
    simp
  obtain ⟨s, hs⟩ : ∃ s, p.shards[i]? = some s :=
    ⟨_, List.getElem?_eq_getElem (hholds.length ▸ hi)⟩
  have hframe : (fr.headerAt i).frame.toNat = fr.number := rfl
  unfold Reassembler.storeFragment at ht
  simp only [hframe, hopen, if_neg hmatches, hindex, hs] at ht
  cases s with
  | some c =>
      simp only at ht
      subst ht
      refine Or.inl ⟨⟨hu.stream, hu.opened, hu.room, Or.inr ⟨p, hat, hholds, hshort, ?_⟩⟩, hready⟩
      intro j hj
      rcases List.mem_cons.mp hj with rfl | hj
      · exact ⟨c, hs⟩
      · exact hhas j hj
  | none =>
      simp only at ht
      have hstored : Holds fr (p.store i b (fr.headerAt i) now) :=
        hholds.store now hs hb fr.original
      have hhas' : ∀ j ∈ i :: done,
          ∃ c, (p.store i b (fr.headerAt i) now).shards[j]? = some (some c) := by
        intro j hj
        simp only [Partial.store, List.getElem?_set]
        by_cases hij : i = j
        · exact ⟨b, by simp [hij ▸ hholds.length ▸ hi, hij]⟩
        · simp only [hij, if_false]
          exact hhas j ((List.mem_cons.mp hj).resolve_left (Ne.symm hij))
      by_cases henough : fr.data.length ≤ (p.store i b (fr.headerAt i) now).haveTotal
      · rw [if_pos (hstored.complete_iff.mpr henough)] at ht
        obtain ⟨out, more, hshows, hout⟩ := hu.finish_delivers hmds hstored henough now
        exact Or.inr ⟨out, more, hshows, by rw [← ht, hout, hready]⟩
      · have hincomplete : (p.store i b (fr.headerAt i) now).complete ≠ true := fun hc =>
          henough (hstored.complete_iff.mp hc)
        rw [if_neg hincomplete] at ht
        have hwaiting := hu.insert_part hstored (by omega) hhas'
        have hdrain := Reassembler.drain_eq_self
          (hwaiting.opened.drainStep_eq_none (OrdMap.get?_insert_self _ _ _)
            hstored.discardable now)
        rw [hdrain, Reassembler.evict_eq_self hwaiting.size_le] at ht
        subst ht
        exact Or.inl ⟨hwaiting, hready⟩

theorem validFragment_headerAt {i : Nat} {b : Bytes} (hb : fr.shards[i]? = some b) :
    validFragment (fr.headerAt i) b = true := by
  have hi : i < fr.data.length + fr.parity.length := by
    have := (List.getElem?_eq_some_iff.mp hb).1
    rwa [Fragments.shards, List.length_append] at this
  have hindex : (fr.headerAt i).index.toNat = i := by
    have := fr.addressable
    simp only [Fragments.headerAt, UInt16.toNat_ofNat']
    omega
  have hlen := fr.shard_length b (List.mem_of_getElem? hb)
  have hcount : (fr.headerAt i).dataCount.toNat = fr.data.length := fr.data_length.symm
  have hparity : (fr.headerAt i).parityCount.toNat = fr.parity.length := fr.parity_length.symm
  have hkind : (fr.headerAt i).isParity = decide (fr.data.length ≤ i) := by
    simp only [MediaHeader.isParity, Fragments.headerAt]
    by_cases hdata : i < fr.data.length
    · simp [hdata, Kind.toUInt8]
    · simp [hdata, Nat.le_of_not_lt hdata]
  have hpos := fr.some_data
  have hshard := fr.shard_pos
  have hnonempty : b ≠ [] := by
    rintro rfl
    simp only [List.length_nil] at hlen
    omega
  simp [validFragment, hindex, hcount, hparity, hkind, hlen, fr.shard_even, fr.shard_small, hpos,
    hi, hnonempty]

theorem ingest (hmds : rs.Mds) (h : Waiting fr r done) {i : Nat} {b : Bytes}
    (hb : fr.shards[i]? = some b) (now : Instant) :
    (Waiting fr (r.ingest rs (fr.datagram i b) now).1 (i :: done) ∧
        (r.ingest rs (fr.datagram i b) now).1.ready = r.ready) ∨
      ∃ out more, fr.Shows out ∧
        (r.ingest rs (fr.datagram i b) now).1.ready = r.ready ++ out :: more := by
  have hparse : MediaHeader.parse (fr.datagram i b) = some (fr.headerAt i, b) :=
    MediaHeader.parse_asBytes_append _ _ fr.channel_eq
  have hstream : ¬(fr.headerAt i).stream ≠ r.stream := fun hne => hne h.stream.symm
  have hvideo : (fr.headerAt i).kind? = some .videoData ∨
      (fr.headerAt i).kind? = some .videoParity := by
    simp only [MediaHeader.kind?, Fragments.headerAt]
    split <;> simp
  have hsilence := h.endSilence (fr.headerAt i) now
  have hsilent : (r.endSilence (fr.headerAt i) now).ready = r.ready :=
    Reassembler.endSilence_induct (P := fun s => s.ready = r.ready) _ now
      (fun _ _ hst hs => hst.ready.trans hs)
      (fun s hs => by unfold Reassembler.resume; split <;> exact hs) rfl
  unfold Reassembler.ingest
  rw [hparse]
  simp only [if_neg hstream]
  set s := r.endSilence (fr.headerAt i) now
  have hstep : (Waiting fr (s.ingestVideo rs (fr.headerAt i) b now).1 (i :: done) ∧
        (s.ingestVideo rs (fr.headerAt i) b now).1.ready = s.ready) ∨
      ∃ out more, fr.Shows out ∧
        (s.ingestVideo rs (fr.headerAt i) b now).1.ready = s.ready ++ out :: more := by
    have harrived : Waiting fr { s with anyArrived := true } done :=
      hsilence.quiet ⟨⟨rfl, rfl, rfl, rfl⟩, rfl, rfl, rfl, rfl, rfl⟩
    have hmarked := harrived.markPrevious (fr.headerAt i)
    have hready : (Reassembler.markPrevious { s with anyArrived := true } (fr.headerAt i)
        fr.number).ready = s.ready := by
      unfold Reassembler.markPrevious
      split
      · split <;> rfl
      · rfl
    have hfresh := harrived.opened.fresh
    have hgap := harrived.openGap_eq now
    have heq : s.ingestVideo rs (fr.headerAt i) b now =
        (Reassembler.markPrevious { s with anyArrived := true } (fr.headerAt i)
          fr.number).storeFragment rs (fr.headerAt i) b now := by
      have hframe : (fr.headerAt i).frame.toNat = fr.number := rfl
      unfold Reassembler.ingestVideo
      simp [hframe, validFragment_headerAt hb, hfresh, hgap]
    have hstore := hmarked.storeFragment hmds hb now _ rfl
    rw [hready] at hstore
    rw [heq]
    exact hstore
  rw [hsilent] at hstep
  rcases hvideo with hkind | hkind
  · simpa only [hkind] using hstep
  · simpa only [hkind] using hstep

end Waiting

/-- Feed datagrams one after another, each at its time. -/
def ingestAll (rs : ReedSolomon) (r : Reassembler) (arrivals : List (Bytes × Instant)) :
    Reassembler :=
  arrivals.foldl (fun r a => (r.ingest rs a.1 a.2).1) r

theorem ingestAll_ready (rs : ReedSolomon) {r : Reassembler} (h : Sound r)
    (arrivals : List (Bytes × Instant)) :
    Sound (ingestAll rs r arrivals) ∧
      ∃ outs, (ingestAll rs r arrivals).ready = r.ready ++ outs := by
  induction arrivals generalizing r with
  | nil => exact ⟨h, [], by simp [ingestAll]⟩
  | cons a arrivals ih =>
      have hreach : Reaches r (r.ingest rs a.1 a.2).1 :=
        Reassembler.ingest_reaches h.tracked a.1 a.2
      obtain ⟨hsound, outs', houts'⟩ := ih (h.reaches hreach)
      obtain ⟨es, hes⟩ := hreach.adds
      obtain ⟨outs, hready, -⟩ := hes.queue
      refine ⟨hsound, outs ++ outs', ?_⟩
      rw [← List.append_assoc, ← hready]
      exact houts'

/-- Once enough distinct fragments came, the frame is delivered; it never is
twice. -/
theorem Waiting.ingestAll_delivers (hmds : rs.Mds) {fr : Fragments rs} {r : Reassembler}
    {done : List Nat} (hsound : Sound r) (h : Waiting fr r done)
    (arrivals : List (Nat × Instant)) (hin : ∀ a ∈ arrivals, a.1 < fr.shards.length)
    (henough : fr.data.length ≤ (arrivals.map Prod.fst ++ done).dedup.length) :
    ∃ out more, fr.Shows out ∧
      (ingestAll rs r (arrivals.map fun a =>
        (fr.datagram a.1 ((fr.shards[a.1]?).getD []), a.2))).ready = r.ready ++ out :: more := by
  induction arrivals generalizing r done with
  | nil =>
      exfalso
      simp only [List.map_nil, List.nil_append] at henough
      rcases h.slot with ⟨-, rfl⟩ | ⟨p, -, hholds, hshort, hhas⟩
      · have hpos := fr.some_data
        rw [List.dedup_nil, List.length_nil] at henough
        omega
      · have := hholds.length_le_haveTotal (List.nodup_dedup done)
          (fun i hi => hhas i (List.mem_dedup.mp hi))
        omega
  | cons a arrivals ih =>
      obtain ⟨b, hb⟩ : ∃ b, fr.shards[a.1]? = some b :=
        ⟨_, List.getElem?_eq_getElem (hin a (by simp))⟩
      have hreach : Reaches r (r.ingest rs (fr.datagram a.1 b) a.2).1 :=
        Reassembler.ingest_reaches hsound.tracked _ a.2
      simp only [List.map_cons, hb, Option.getD_some]
      rw [show ∀ d ds, ingestAll rs r (d :: ds) = ingestAll rs (r.ingest rs d.1 d.2).1 ds from
        fun _ _ => rfl]
      rcases h.ingest hmds hb a.2 with ⟨hwaiting, hready⟩ | ⟨out, more, hshows, hout⟩
      · rw [← hready]
        refine ih (hsound.reaches hreach) hwaiting (fun x hx => hin x (List.mem_cons_of_mem _ hx)) ?_
        refine henough.trans (le_of_eq ?_)
        apply List.Perm.length_eq
        apply List.Perm.dedup
        simpa using List.perm_middle.symm
      · obtain ⟨-, outs, houts⟩ := ingestAll_ready rs (hsound.reaches hreach)
          (arrivals.map fun a => (fr.datagram a.1 ((fr.shards[a.1]?).getD []), a.2))
        exact ⟨out, more ++ outs, hshows, by rw [houts, hout]; simp⟩

open Slopty.Media.Packetize

/-- What a frame handed to `packetize` should read as at the other end: later
frames are predicted from a keyframe, a refresh and a long-term reference
whatever the encoder says, and a region of no size is the whole target. -/
def expectedInfo (pk : Packetizer) (frame : EncodedFrame) (recovered : Bool) : FrameInfo where
  frame := pk.nextFrame.toNat
  keyframe := frame.keyframe
  ltrToken := frame.ltrToken
  ltrRefresh := frame.ltrRefresh
  discardable := frame.discardable && !frame.keyframe && !frame.ltrRefresh && frame.ltrToken.isNone
  captureTsUs := frame.captureTsUs
  stripes := frame.stripes
  build := pk.build
  region := frame.region.filter fun g => decide (0 < g.w) && decide (0 < g.h)
  recovered := recovered

/-- A reassembler ready for the frame. -/
structure Receptive (r : Reassembler) (stream : UInt32) (info : FrameInfo) : Prop where
  stream : r.stream = stream
  admits : r.need.Admits info
  fresh : r.stale info.frame = false
  untouched : ∀ s, r.frames.get? info.frame = some s →
    ∃ f t a d, s = .unknown f t a d ∧ (d = true → info.discardable = true)
  room : (r.frames.insert info.frame .skipped).size ≤ r.cfg.maxPending
  idle : ∀ now, Reassembler.drainStep now r = none
  shown : info.discardable = true → r.completeAfter info.frame = false

theorem region?_regionOf (p : FramePrefix) (g : Option Region)
    (h : p.region = FramePrefix.regionOf g) :
    p.region? = g.filter fun g => decide (0 < g.w) && decide (0 < g.h) := by
  unfold FramePrefix.region?
  rw [h]
  cases g with
  | none => rfl
  | some g =>
      by_cases hsize : 0 < g.w ∧ 0 < g.h
      · simp [FramePrefix.regionOf, Option.filter, hsize]
      · have hsize' : (decide (0 < g.w) && decide (0 < g.h)) = false := by
          simpa using fun hw => hsize ∘ And.intro hw
        simp [FramePrefix.regionOf, Option.filter, hsize, hsize']

/-- What a frame cut by `packetize` is made of. -/
structure CutFrom (pk : Packetizer) (frame : EncodedFrame) (sent : SentFrame)
    (fr : Fragments rs) : Prop where
  stream : fr.header.stream = pk.stream
  dataCount : fr.data.length = sent.layout.dataCount.toNat
  body : fr.body = frame.data
  info : ∀ recovered, fr.info recovered = expectedInfo pk frame recovered
  datagrams : sent.datagrams = fr.shards.zipIdx.map fun si => fr.datagram si.2 si.1

theorem info_eq_expectedInfo {pk : Packetizer} {frame : EncodedFrame} {l : Layout}
    {sendMsLo : UInt8} {fr : Fragments rs} (hheader : fr.header = pk.mediaHeader frame l sendMsLo)
    (hopening : fr.opening = pk.framePrefix frame) (recovered : Bool) :
    fr.info recovered = expectedInfo pk frame recovered := by
  obtain ⟨hdisc, -, hkey, hltr, hrefresh, -⟩ := hasFlag_flagBits
    (frame.discardable && !frame.keyframe && !frame.ltrRefresh && frame.ltrToken.isNone)
    pk.previousDiscardable frame.keyframe frame.ltrToken.isSome frame.ltrRefresh
  have hregion := region?_regionOf (pk.framePrefix frame) frame.region rfl
  simp only [Fragments.info, Fragments.number, Fragments.sentDiscardable, hheader, hopening,
    Packetizer.mediaHeader, frameFlags, hkey, hltr, hrefresh, hdisc, hregion, expectedInfo]
  cases ht : frame.ltrToken <;> simp [Packetizer.framePrefix, ht]

theorem datagrams_eq {header : MediaHeader} {kind : Kind} {start : Nat} {shards : List Bytes}
    {datagram : Nat → Bytes → Bytes} (hsmall : start + shards.length ≤ 65536)
    (hdatagram : ∀ i b, start ≤ i → i < start + shards.length → datagram i b =
      { header with index := UInt16.ofNat i, kind := kind.toUInt8 : MediaHeader }.asBytes ++ b) :
    datagrams header kind start shards =
      (shards.zipIdx start).map fun si => datagram si.2 si.1 := by
  unfold datagrams
  apply List.map_congr_left
  rintro ⟨b, i⟩ hbi
  have hle := List.le_snd_of_mem_zipIdx hbi
  have hlt := List.snd_lt_add_of_mem_zipIdx hbi
  simp only at hle hlt ⊢
  rw [hdatagram i b hle hlt, Nat.min_eq_left (by omega)]

/-- The shards `packetize` cuts, with the parity the engine made of them. -/
theorem exists_cutFrom {pk : Packetizer} {frame : EncodedFrame} {l : Layout} {sendMsLo : UInt8}
    {parity : List Bytes} {number : UInt32} (hfits : l.Fits frame.data.length)
    (hcount : parity.length = l.parityCount.toNat)
    (hshard : ∀ s ∈ parity, s.length = l.shardBytes)
    (hencoded : parity = [] ∨ rs.encode l.dataCount.toNat l.parityCount.toNat l.shardBytes
      (cutShards l.shardBytes l.dataCount.toNat (pk.framePrefix frame).asBytes frame.data) =
        some parity) :
    ∃ fr : Fragments rs, CutFrom pk frame
      { frame := number
        layout := l
        datagrams :=
          datagrams (pk.mediaHeader frame l sendMsLo) .videoData 0
            (cutShards l.shardBytes l.dataCount.toNat (pk.framePrefix frame).asBytes frame.data) ++
          datagrams (pk.mediaHeader frame l sendMsLo) .videoParity l.dataCount.toNat parity } fr := by
  set data := cutShards l.shardBytes l.dataCount.toNat (pk.framePrefix frame).asBytes frame.data
    with hdata
  have hopening : (pk.framePrefix frame).asBytes.length ≤ l.shardBytes := by
    rw [FramePrefix.asBytes_length]
    exact hfits.holds_prefix
  have hlength : data.length = l.dataCount.toNat := cutShards_length _ _ _ _
  have hfew := hfits.few_data
  have hbyte := l.parityCount.toNat_lt
  have hmost : maxDataFragments = 32768 := rfl
  have hpayload : Wire.maxPayload = 1182 := rfl
  have hpre : framePrefixBytes = 28 := rfl
  have hroom : (pk.framePrefix frame).asBytes.length + frame.data.length ≤
      l.dataCount.toNat * l.shardBytes := by
    rw [FramePrefix.asBytes_length, Nat.add_comm]
    exact hfits.covers
  obtain ⟨padding, hpadding⟩ := flatten_cutShards hopening hroom
  have hlen : frame.data.length < 2 ^ 32 := by
    have hcovers := hfits.covers
    have : l.dataCount.toNat * l.shardBytes ≤ 32768 * 1182 :=
      Nat.mul_le_mul (by omega) (by have := hfits.small; omega)
    omega
  let fr : Fragments rs :=
    { header := pk.mediaHeader frame l sendMsLo
      data := data
      parity := parity
      shardBytes := l.shardBytes
      opening := pk.framePrefix frame
      body := frame.data
      padding := padding
      channel_eq := rfl
      data_length := hlength
      parity_length := hcount
      some_data := hlength ▸ hfits.some_data
      addressable := by omega
      shard_length := by
        intro s hs
        rcases List.mem_append.mp hs with hs | hs
        · exact length_of_mem_cutShards hopening hs
        · exact hshard s hs
      shard_pos := by have := hfits.holds_prefix; omega
      shard_even := hfits.even
      shard_small := hfits.small
      original := (hasFlag_flagBits _ _ _ _ _).2.2.2.2.2
      encoded := by
        rw [hlength, hcount]
        exact hencoded
      flatten_data := hpadding
      opening_len := by
        simp only [Packetizer.framePrefix, UInt32.toNat_ofNat']
        omega }
  refine ⟨fr, rfl, hlength, rfl, info_eq_expectedInfo rfl rfl, ?_⟩
  have hsplit : fr.shards.zipIdx = data.zipIdx ++ parity.zipIdx l.dataCount.toNat := by
    rw [← hlength, Fragments.shards, List.zipIdx_append, Nat.zero_add]
  rw [hsplit, List.map_append]
  refine congrArg₂ (· ++ ·) ?_ ?_
  · apply datagrams_eq (by omega)
    intro i b _ hi
    have : i < fr.data.length := by simpa using hi
    simp [Fragments.datagram, Fragments.headerAt, this, fr]
  · apply datagrams_eq (by omega)
    intro i b hi _
    have : ¬i < fr.data.length := by
      change ¬i < data.length
      omega
    simp [Fragments.datagram, Fragments.headerAt, this, fr]

theorem packetize_cutFrom (hmds : rs.Mds) {pk : Packetizer} {frame : EncodedFrame}
    {sendMsLo : UInt8} {sent : SentFrame}
    (h : (pk.packetize rs frame sendMsLo).result = .ok sent) :
    ∃ fr : Fragments rs, CutFrom pk frame sent fr := by
  unfold Packetizer.packetize at h
  split at h
  · simp at h
  · rename_i l hl
    have hfits := layout_fits hl
    simp only at h
    split at h
    · rename_i hnone
      obtain rfl := Except.ok.inj h
      have hzero : ([] : List Bytes).length = l.parityCount.toNat := by simp [hnone]
      obtain ⟨fr, hfr⟩ := @exists_cutFrom rs pk frame l sendMsLo [] pk.nextFrame hfits hzero
        (by simp) (Or.inl rfl)
      exact ⟨fr, by simpa [datagrams] using hfr⟩
    · split at h
      · simp at h
      · rename_i parity hparity
        obtain rfl := Except.ok.inj h
        exact exists_cutFrom hfits (hmds.encode_length _ _ _ _ _ hparity)
          (hmds.encode_shard _ _ _ _ _ hparity) (Or.inr hparity)

theorem Reassembler.not_restart_of_idle {r : Reassembler} {now : Instant}
    (h : Reassembler.drainStep now r = none) (hneed : ∀ n, r.need ≠ .frame n) {k : Nat}
    {out : FrameOut} {f : Instant} (hout : r.frames.get? k = some (.complete out f)) :
    (out.info.keyframe || (decide (r.need = .refresh) && out.info.ltrRefresh)) = false := by
  have hnone : r.restartFrame (decide (r.need = .refresh)) = none := by
    by_contra hsome
    obtain ⟨j, hj⟩ := Option.ne_none_iff_exists'.mp hsome
    obtain ⟨out', f', hout', -⟩ := Reassembler.restartFrame_spec hj
    have hkept : (r.frames.retain fun i _ => decide (j ≤ i)).get? j = some (.complete out' f') := by
      rw [OrdMap.get?_retain, hout']
      simp
    unfold Reassembler.drainStep at h
    split at h
    · rename_i n hn
      exact hneed n hn
    all_goals simp [hj, Reassembler.deliver, hkept] at h
  rw [Reassembler.restartFrame, List.findSome?_eq_none_iff] at hnone
  simpa using hnone _ (OrdMap.get?_eq_some_iff.mp hout)

theorem Receptive.waiting {r : Reassembler} {fr : Fragments rs} {info : FrameInfo}
    (h : Receptive r fr.header.stream info) (hinfo : ∀ recovered, fr.info recovered =
      { info with recovered := recovered }) : Waiting fr r [] := by
  have hnumber : info.frame = fr.number := (congrArg FrameInfo.frame (hinfo false)).symm
  have hdisc : info.discardable = fr.sentDiscardable :=
    (congrArg FrameInfo.discardable (hinfo false)).symm
  refine ⟨h.stream, ⟨?_, hnumber ▸ h.fresh, ?_⟩, hnumber ▸ h.room, Or.inl ⟨?_, rfl⟩⟩
  · intro recovered
    have hadmits := h.admits
    rw [hinfo]
    cases hneed : r.need <;> simpa [hneed, Need.Admits] using hadmits
  · intro k out f hout
    have hother : k ≠ fr.number := by
      rintro rfl
      obtain ⟨_, _, _, _, hunknown, -⟩ := h.untouched _ (hnumber ▸ hout)
      simp at hunknown
    refine ⟨hother, ?_, ?_, ?_⟩
    · intro _ hd
      have hshown := h.shown (hdisc ▸ hd)
      rw [hnumber, Reassembler.completeAfter, List.any_eq_false] at hshown
      have hk : ¬satAdd 32 fr.number 1 ≤ k := by
        simpa [Slot.isComplete] using
          hshown (k, .complete out f) (OrdMap.get?_eq_some_iff.mp hout)
      have hsmall : fr.number < 2 ^ 32 := fr.header.frame.toNat_lt
      simp only [satAdd] at hk
      omega
    · intro hneed
      have := Reassembler.not_restart_of_idle (h.idle 0) (by simp [hneed]) hout
      simpa [hneed] using this
    · intro hneed
      have := Reassembler.not_restart_of_idle (h.idle 0) (by simp [hneed]) hout
      simpa [hneed] using this
  · intro s hs
    obtain ⟨f, t, a, d, hs', hd⟩ := h.untouched s (hnumber ▸ hs)
    exact ⟨f, t, a, d, hs', hdisc ▸ hd⟩

theorem CutFrom.indices {pk : Packetizer} {frame : EncodedFrame} {sent : SentFrame}
    {fr : Fragments rs} (h : CutFrom pk frame sent fr) {arrivals : List (Bytes × Instant)}
    (hmem : ∀ a ∈ arrivals, a.1 ∈ sent.datagrams) :
    ∃ indices : List (Nat × Instant), (∀ i ∈ indices, i.1 < fr.shards.length) ∧
      arrivals = indices.map fun i => (fr.datagram i.1 ((fr.shards[i.1]?).getD []), i.2) := by
  induction arrivals with
  | nil => exact ⟨[], by simp⟩
  | cons a arrivals ih =>
      obtain ⟨indices, hin, hmap⟩ := ih fun x hx => hmem x (List.mem_cons_of_mem _ hx)
      have ha := hmem a (by simp)
      rw [h.datagrams, List.mem_map] at ha
      obtain ⟨⟨b, i⟩, hbi, hdatagram⟩ := ha
      have hb : fr.shards[i]? = some b := List.mem_zipIdx_iff_getElem?.mp hbi
      refine ⟨(i, a.2) :: indices, ?_, ?_⟩
      · intro j hj
        rcases List.mem_cons.mp hj with rfl | hj
        · exact (List.getElem?_eq_some_iff.mp hb).1
        · exact hin j hj
      · simp only [List.map_cons, hb, Option.getD_some, ← hmap, hdatagram]

theorem length_dedup_map_le {α β : Type} [DecidableEq α] [DecidableEq β] (f : α → β)
    (l : List α) : (l.map f).dedup.length ≤ l.dedup.length := by
  have hsub : (l.map f).dedup ⊆ l.dedup.map f := by
    intro b hb
    rw [List.mem_dedup, List.mem_map] at hb
    obtain ⟨a, ha, rfl⟩ := hb
    exact List.mem_map_of_mem (List.mem_dedup.mpr ha)
  have := (List.subperm_of_subset (List.nodup_dedup _) hsub).length_le
  rwa [List.length_map] at this

theorem Sound.ready_increasing {r : Reassembler} (h : Sound r) :
    r.ready.Pairwise fun a b => a.info.frame < b.info.frame := by
  have hsub := (List.sublist_append_right (takens r.trace) _).trans h.handed.order
  have hincreasing := h.ties.safe.increasing.sublist hsub
  rwa [List.pairwise_map] at hincreasing

/-- Packetize and reassemble undo each other, for a reassembler that is ready
for the frame: whatever order its datagrams come in and however often, once
`data_count` distinct ones came the frame is in the queue, and only once. -/
theorem packetize_reassemble (rs : ReedSolomon) (hmds : rs.Mds) (pk : Packetizer)
    (frame : EncodedFrame) (sendMsLo : UInt8) (sent : SentFrame)
    (hsent : (pk.packetize rs frame sendMsLo).result = .ok sent)
    (stream : UInt32) (cfg : Config) (start : Instant) (ops : List Op)
    (hready : Receptive (run rs (.new stream cfg start) ops) pk.stream
      (expectedInfo pk frame false))
    (arrivals : List (Bytes × Instant)) (hmem : ∀ a ∈ arrivals, a.1 ∈ sent.datagrams)
    (henough : sent.layout.dataCount.toNat ≤ (arrivals.map Prod.fst).dedup.length) :
    ∃ out more,
      (ingestAll rs (run rs (.new stream cfg start) ops) arrivals).ready =
        (run rs (.new stream cfg start) ops).ready ++ out :: more ∧
      out.data = frame.data ∧ (∃ recovered, out.info = expectedInfo pk frame recovered) ∧
      (∀ o ∈ (run rs (.new stream cfg start) ops).ready, o.info.frame < pk.nextFrame.toNat) ∧
      ∀ o ∈ more, pk.nextFrame.toNat < o.info.frame := by
  obtain ⟨fr, hfr⟩ := packetize_cutFrom hmds hsent
  obtain ⟨indices, hin, rfl⟩ := hfr.indices hmem
  have hsound := run_sound rs (sound_new stream cfg start) ops
  generalize run rs (.new stream cfg start) ops = r at hready hsound ⊢
  rw [← hfr.stream] at hready
  have hwaiting : Waiting fr r [] := hready.waiting fun recovered => hfr.info recovered
  have hcount : fr.data.length ≤ (indices.map Prod.fst ++ []).dedup.length := by
    rw [hfr.dataCount, List.append_nil]
    refine henough.trans ?_
    rw [List.map_map]
    have := length_dedup_map_le (fun i => fr.datagram i ((fr.shards[i]?).getD []))
      (indices.map Prod.fst)
    rwa [List.map_map] at this
  obtain ⟨out, more, hshows, hout⟩ :=
    hwaiting.ingestAll_delivers hmds hsound indices hin hcount
  obtain ⟨recovered, hinfo⟩ := hshows.info
  rw [hfr.info] at hinfo
  have hincreasing := (ingestAll_ready rs hsound (indices.map fun i =>
    (fr.datagram i.1 ((fr.shards[i.1]?).getD []), i.2))).1.ready_increasing
  rw [hout, List.pairwise_append] at hincreasing
  have hnumber : out.info.frame = pk.nextFrame.toNat := by
    rw [hinfo]
    rfl
  refine ⟨out, more, hout, hshows.data.trans hfr.body, ⟨recovered, hinfo⟩, ?_, ?_⟩
  · intro o ho
    rw [← hnumber]
    exact hincreasing.2.2 o ho out (by simp)
  · intro o ho
    rw [← hnumber]
    exact (List.pairwise_cons.mp hincreasing.2.1).1 o ho

/-- A code for a single data shard: every parity shard is a copy of it. -/
def copies : ReedSolomon where
  encode := fun dataCount parityCount shardBytes shards =>
    match shards with
    | [s] =>
        if dataCount = 1 ∧ s.length = shardBytes then some (List.replicate parityCount s) else none
    | _ => none
  decode := fun dataCount _ _ _ recovery =>
    if dataCount = 1 then
      some fun i => if i = 0 then recovery.head?.map Prod.snd else none
    else none

theorem copies_mds : copies.Mds where
  encode_length := by
    intro dataCount parityCount shardBytes shards parity h
    simp only [copies] at h
    split at h
    · split at h
      · rw [← Option.some.inj h, List.length_replicate]
      · simp at h
    · simp at h
  encode_shard := by
    intro dataCount parityCount shardBytes shards parity h s hs
    simp only [copies] at h
    split at h
    · split at h
      · rename_i hone
        rw [← Option.some.inj h] at hs
        rw [List.eq_of_mem_replicate hs]
        exact hone.2
      · simp at h
    · simp at h
  restores := by
    intro dataCount parityCount shardBytes shards parity original recovery hlen h horiginal hrecovery
      henough
    simp only [copies] at h
    split at h
    · rename_i s
      split at h
      · rename_i hone
        refine ⟨_, if_pos hone.1, ?_⟩
        intro i b hb hmissing
        obtain ⟨rfl, rfl⟩ : i = 0 ∧ s = b := by
          cases i with
          | zero => simpa using hb
          | succ i => simp at hb
        have hnone : original = [] := by
          cases original with
          | nil => rfl
          | cons ib rest =>
              have hib := horiginal.honest ib (by simp)
              have hzero : ib.1 ≠ 0 := hmissing ib (by simp)
              obtain ⟨j, hj⟩ := Nat.exists_eq_succ_of_ne_zero hzero
              simp [hj] at hib
        cases recovery with
        | nil => simp [hnone, hone.1] at henough
        | cons ib rest =>
            have hib := hrecovery.honest ib (by simp)
            rw [← Option.some.inj h] at hib
            have := List.eq_of_mem_replicate (List.mem_of_getElem? hib)
            simp [this]
      · simp at h
    · simp at h

def tinyFrame : EncodedFrame where
  data := [42]
  keyframe := true
  ltrToken := some 9
  ltrRefresh := false
  discardable := false
  captureTsUs := 1000
  stripes := 0
  region := some ⟨1, 2, 3, 4⟩

/-- The second parity datagram alone brings the frame. -/
theorem packetize_reassemble_tinyFrame : ∃ sent,
    ((Packetizer.new 7).packetize copies tinyFrame 3).result = .ok sent ∧ ∃ out more,
      (ingestAll copies (run copies (.new 7 {} 0) []) [(sent.datagrams.getD 2 [], 5)]).ready =
        (run copies (.new 7 {} 0) []).ready ++ out :: more ∧
      out.data = tinyFrame.data ∧
      (∃ recovered, out.info = expectedInfo (Packetizer.new 7) tinyFrame recovered) ∧
      (∀ o ∈ (run copies (.new 7 {} 0) []).ready, o.info.frame < (0 : UInt32).toNat) ∧
      ∀ o ∈ more, (0 : UInt32).toNat < o.info.frame := by
  refine ⟨_, rfl, packetize_reassemble copies copies_mds (Packetizer.new 7) tinyFrame 3 _ rfl 7 {} 0
    [] ?_ _ ?_ ?_⟩
  · exact
      { stream := rfl
        admits := rfl
        fresh := rfl
        untouched := by simp [run, Reassembler.new]
        room := by decide
        idle := fun _ => rfl
        shown := by decide }
  · decide
  · decide

/-- What comes of a frame when every one of its datagrams is fed in turn. -/
def delivered (rs : ReedSolomon) (pk : Packetizer) (frame : EncodedFrame) (r : Reassembler) :
    List FrameOut :=
  match (pk.packetize rs frame 3).result with
  | .ok sent => (ingestAll rs r (sent.datagrams.map fun d => (d, 5))).ready
  | .error _ => []

/-- Some of what `packetize` is given does not come back as given, and a
reassembler whose need admits a frame may still have no use or no room for it:
a keyframe called discardable, a region of no width, a keyframe number that was
delivered before, a frame in two fragments with no slot to wait in. -/
theorem packetize_reassemble_not_verbatim :
    ((delivered copies (.new 7) { tinyFrame with discardable := true } (.new 7 {} 0)).map
        fun o => o.info.discardable) = [false] ∧
      ((delivered copies (.new 7) { tinyFrame with region := some ⟨1, 2, 0, 4⟩ } (.new 7 {} 0)).map
        fun o => o.info.region) = [none] ∧
      (let again := Reassembler.forceRefresh
        (ingestAll copies (.new 7 {} 0)
          (match ((Packetizer.new 7).packetize copies tinyFrame 3).result with
          | .ok sent => sent.datagrams.map fun d => (d, 5)
          | .error _ => [])) 6 true
      again.need = .keyframe ∧ delivered copies (.new 7) tinyFrame again = []) ∧
      delivered copies { Packetizer.new 7 with parityPermille := 0, maxPayload := 256 }
        { tinyFrame with data := List.replicate 300 42 }
        (.new 7 { maxPending := 0 } 0) = [] := by
  decide +kernel

end Slopty.Media.Reassemble
