import Slopty.Media.Asking

/-!
How many frames a reassembler tracks. A fragment taken in is followed by an eviction down to the
limit; one that its frame's slot refuses is not, and what was opened for the gap before it stays.
-/

namespace Slopty.Media.Reassemble

open Slopty.Lib
open Slopty.Media.Fec
open Slopty.Media.Wire

/-- Whether a fragment has no place in its frame's slot: the frame is settled, the fragment is
shaped unlike those before it, or it came before. -/
def Slot.refuses (header : MediaHeader) (payload : Bytes) : Slot → Bool
  | .unknown .. => false
  | .part p =>
      decide (p.dataCount ≠ header.dataCount.toNat ∨
        p.shards.length ≠ header.dataCount.toNat + header.parityCount.toNat ∨
        p.shardBytes ≠ payload.length) ||
      !decide (p.shards[header.index.toNat]? = some none)
  | .complete _ _ | .skipped => true

namespace Reassembler

/-- Whether the slot a fragment belongs in refuses it. -/
def refuses (r : Reassembler) (header : MediaHeader) (payload : Bytes) : Bool :=
  ((r.frames.get? header.frame.toNat).map (Slot.refuses header payload)).getD false

def fragment? (r : Reassembler) (datagram : Bytes) : Option (MediaHeader × Bytes) :=
  match MediaHeader.parse datagram with
  | none => none
  | some (header, payload) =>
      if header.stream = r.stream ∧ validFragment header payload = true then
        match header.kind? with
        | some .videoData | some .videoParity => some (header, payload)
        | _ => none
      else none

/-- A fragment its slot refuses, ahead of more frames not tracked yet than there is room for. -/
def overfills (r : Reassembler) (datagram : Bytes) : Bool :=
  match r.fragment? datagram with
  | none => false
  | some (header, payload) =>
      !r.stale header.frame.toNat && r.refuses header payload &&
        decide (r.cfg.maxPending < r.frames.size + (r.gapOpens header.frame.toNat).length)

/-! ### Losing, delivering and evicting -/

theorem size_skip {r : Reassembler} {k : Nat} {s : Slot} (hs : r.frames.get? k = some s)
    (missing : Nat) : (r.skip k missing).frames.size = r.frames.size := by
  show (r.frames.insert k .skipped).size = r.frames.size
  rw [OrdMap.size_insert, hs]
  rfl

theorem size_lose_le (r : Reassembler) (k missing : Nat) (now : Instant) :
    (r.lose k missing now).frames.size ≤ r.frames.size := by
  unfold lose
  split
  · rename_i hknown
    cases hs : r.frames.get? k with
    | none => simp [hs] at hknown
    | some s => exact (size_skip hs missing).le
  · dsimp only
    split <;> exact OrdMap.size_erase_le r.frames k

theorem size_drainStep_le {now : Instant} {r t : Reassembler} (h : drainStep now r = some t) :
    t.frames.size ≤ r.frames.size := by
  unfold drainStep at h
  split at h
  · split at h
    · rw [(frames_deliver h).1]
      exact OrdMap.size_erase_le _ _
    · rw [← Option.some.inj h]
      exact OrdMap.size_erase_le _ _
    · rename_i hs
      split at h
      · rw [← Option.some.inj h]
        exact (size_skip hs _).le
      · simp at h
    · simp at h
  all_goals
    split at h
    · simp at h
    · rw [(frames_deliver h).1]
      exact (OrdMap.size_erase_le _ _).trans (OrdMap.size_retain_le _ _)

theorem size_drain_le (r : Reassembler) (now : Instant) :
    (r.drain now).frames.size ≤ r.frames.size :=
  loop_induct (P := fun t : Reassembler => t.frames.size ≤ r.frames.size)
    (fun _ _ hs hst => (size_drainStep_le hst).trans hs) _ le_rfl

theorem startTick_frames (r : Reassembler) (now : Instant) (rtt : Duration) :
    (r.startTick now rtt).frames = r.frames := by
  unfold startTick
  dsimp only
  split <;> rfl

theorem repeatRefresh_frames (r : Reassembler) (c : TickClock) (rtt : Duration) :
    (r.repeatRefresh c rtt).frames = r.frames := by
  unfold repeatRefresh
  dsimp only
  split
  · split <;> rfl
  · rfl

theorem size_tick_le (r : Reassembler) (now : Instant) (rtt : Duration) :
    (r.tick now rtt).1.frames.size ≤ r.frames.size := by
  have hlost : ∀ (lost : List (Nat × Nat)) (s : Reassembler),
      (lost.foldl (fun r fm => r.lose fm.1 fm.2 now) s).frames.size ≤ s.frames.size := by
    intro lost
    induction lost with
    | nil => exact fun s => le_rfl
    | cons fm lost ih => exact fun s => (ih _).trans (size_lose_le s fm.1 fm.2 now)
  refine (size_drain_le _ now).trans ?_
  rw [repeatRefresh_frames]
  refine (hlost _ _).trans ?_
  show ((r.startTick now rtt).frames.mapVal _).size ≤ r.frames.size
  rw [OrdMap.size_mapVal, startTick_frames]

/-! ### A fragment -/

theorem size_foldl_fresh (now : Instant) {ks : List Nat} (hks : ks.Nodup) (m : OrdMap Nat Slot) :
    (ks.foldl (fun m k => if (m.get? k).isSome then m else m.insert k (Slot.fresh now)) m).size =
      m.size + (ks.filter fun k => (m.get? k).isNone).length := by
  induction ks generalizing m with
  | nil => rfl
  | cons k ks ih =>
    obtain ⟨hk, hks⟩ := List.nodup_cons.mp hks
    rw [List.foldl_cons, ih hks]
    cases hget : m.get? k with
    | some s => simp [hget]
    | none =>
      have hrest : (ks.filter fun j => ((m.insert k (Slot.fresh now)).get? j).isNone) =
          ks.filter fun j => (m.get? j).isNone := by
        refine List.filter_congr fun j hj => ?_
        rw [OrdMap.get?_insert, if_neg]
        rintro rfl
        exact hk hj
      simp only [Option.isSome_none, Bool.false_eq_true, if_false]
      rw [hrest, OrdMap.size_insert, hget, List.filter_cons_of_pos (by simp [hget])]
      simp only [Option.isSome_none, Bool.false_eq_true, if_false, List.length_cons]
      omega

/-- The gap before a frame adds what it opens, or, too wide to wait for, drops what is before it. -/
theorem size_openGap (r : Reassembler) (frame : Nat) (now : Instant)
    (hfits : r.frames.size ≤ r.cfg.maxPending) :
    (r.openGap frame now).frames.size ≤ r.cfg.maxPending ↔
      r.frames.size + (r.gapOpens frame).length ≤ r.cfg.maxPending := by
  unfold openGap gapOpens
  cases r.need with
  | keyframe => rfl
  | refresh => rfl
  | frame next =>
    dsimp only
    split
    · refine iff_of_true ?_ hfits
      exact (OrdMap.size_retain_le r.frames _).trans hfits
    · show (OrdMap.size (List.foldl _ r.frames _)) ≤ _ ↔ _
      rw [size_foldl_fresh now List.nodup_range']

theorem size_markPrevious (r : Reassembler) (header : MediaHeader) (frame : Nat) :
    (r.markPrevious header frame).frames.size = r.frames.size := by
  unfold markPrevious
  split
  · split
    · rename_i slot hslot
      show (r.frames.insert (frame - 1) slot.markDiscardable).size = r.frames.size
      rw [OrdMap.size_insert, hslot]
      rfl
    · rfl
  · rfl

theorem storeFragment_of_refuses (rs : ReedSolomon) {r : Reassembler} {header : MediaHeader}
    {payload : Bytes} (now : Instant) (h : r.refuses header payload = true) :
    (r.storeFragment rs header payload now).1 = r := by
  unfold refuses at h
  cases hget : r.frames.get? header.frame.toNat with
  | none => simp [hget] at h
  | some s =>
    rw [hget] at h
    cases s with
    | unknown f n a d => simp [Slot.refuses] at h
    | part p =>
      have hopen : r.openPartial header header.frame.toNat payload now = (r, some p) := by
        simp only [openPartial, hget, Option.getD_some]
      unfold storeFragment
      simp only [hopen]
      split
      · rfl
      · rename_i hshape
        simp only [Option.map_some, Option.getD_some, Slot.refuses] at h
        rw [decide_eq_false hshape, Bool.false_or, Bool.not_eq_true', decide_eq_false_iff_not] at h
        split
        · rfl
        · rfl
        · rename_i hcell
          exact absurd hcell h
    | complete out f =>
      have hopen : r.openPartial header header.frame.toNat payload now = (r, none) := by
        simp only [openPartial, hget, Option.getD_some]
      simp only [storeFragment, hopen]
    | skipped =>
      have hopen : r.openPartial header header.frame.toNat payload now = (r, none) := by
        simp only [openPartial, hget, Option.getD_some]
      simp only [storeFragment, hopen]

theorem new_takes {header : MediaHeader} {payload : Bytes} (now : Instant) (d : Bool)
    (hvalid : validFragment header payload = true) :
    Slot.refuses header payload (.part (Partial.new header payload.length now d)) = false := by
  have hindex : header.index.toNat < header.dataCount.toNat + header.parityCount.toNat := by
    simp only [validFragment, Bool.and_eq_true, decide_eq_true_eq] at hvalid
    exact hvalid.1.1.1.1.2
  have hcell : (Partial.new header payload.length now d).shards[header.index.toNat]? = some none := by
    simp [Partial.new, hindex]
  simp only [Slot.refuses, hcell]
  simp [Partial.new]

theorem storeFragment_of_takes (rs : ReedSolomon) {r : Reassembler} {header : MediaHeader}
    {payload : Bytes} (now : Instant) (hvalid : validFragment header payload = true)
    (h : r.refuses header payload = false) :
    ∃ t : Reassembler, (r.storeFragment rs header payload now).1 = t.evict now := by
  have htakes : ∀ (t : Reassembler) (p : Partial),
      r.openPartial header header.frame.toNat payload now = (t, some p) →
      Slot.refuses header payload (.part p) = false →
      ∃ u : Reassembler, (r.storeFragment rs header payload now).1 = u.evict now := by
    intro t p hopen hp
    simp only [Slot.refuses, Bool.or_eq_false_iff, decide_eq_false_iff_not, Bool.not_eq_false',
      decide_eq_true_eq] at hp
    unfold storeFragment
    simp only [hopen, if_neg hp.1, hp.2]
    exact ⟨_, rfl⟩
  unfold refuses at h
  cases hget : r.frames.get? header.frame.toNat with
  | none =>
    exact htakes _ _ (by simp only [openPartial, hget]; rfl) (new_takes now false hvalid)
  | some s =>
    rw [hget] at h
    cases s with
    | unknown f n a d =>
      exact htakes _ _ (by simp only [openPartial, hget, Option.getD_some]; rfl) (new_takes now d hvalid)
    | part p =>
      exact htakes r p (by simp only [openPartial, hget, Option.getD_some]) h
    | complete out f => simp [Slot.refuses] at h
    | skipped => simp [Slot.refuses] at h

theorem ingestVideo_of_invalid (rs : ReedSolomon) (r : Reassembler) {header : MediaHeader}
    {payload : Bytes} (now : Instant) (h : validFragment header payload = false) :
    (r.ingestVideo rs header payload now).1 = { r with anyArrived := true } := by
  simp only [ingestVideo, h, Bool.not_false, if_true]

theorem ingestVideo_of_stale (rs : ReedSolomon) (r : Reassembler) {header : MediaHeader}
    {payload : Bytes} (now : Instant) (h : r.stale header.frame.toNat = true) :
    (r.ingestVideo rs header payload now).1 = { r with anyArrived := true } := by
  have hstale : ({ r with anyArrived := true } : Reassembler).stale header.frame.toNat = true := h
  simp only [ingestVideo, hstale, if_true]
  split <;> rfl

def beforeFragment (r : Reassembler) (header : MediaHeader) (now : Instant) : Reassembler :=
  (openGap { r with anyArrived := true } header.frame.toNat now).markPrevious header
    header.frame.toNat

theorem ingestVideo_of_wanted (rs : ReedSolomon) (r : Reassembler) {header : MediaHeader}
    {payload : Bytes} (now : Instant) (hvalid : validFragment header payload = true)
    (h : r.stale header.frame.toNat = false) :
    r.ingestVideo rs header payload now =
      (r.beforeFragment header now).storeFragment rs header payload now := by
  have hstale : ¬ ({ r with anyArrived := true } : Reassembler).stale header.frame.toNat = true :=
    Bool.eq_false_iff.mp h
  unfold ingestVideo beforeFragment
  dsimp only
  rw [if_neg (by simp [hvalid]), if_neg hstale]

theorem beforeFragment_get? (r : Reassembler) (header : MediaHeader) (now : Instant) :
    (r.beforeFragment header now).frames.get? header.frame.toNat =
      r.frames.get? header.frame.toNat := by
  rw [beforeFragment, markPrevious_get?, openGap_get?]

theorem beforeFragment_cfg (r : Reassembler) (header : MediaHeader) (now : Instant) :
    (r.beforeFragment header now).cfg = r.cfg :=
  ((openGap_books { r with anyArrived := true } header.frame.toNat now).trans
    (markPrevious_books _ header header.frame.toNat)).cfg

theorem size_ingestVideo (rs : ReedSolomon) (r : Reassembler) {header : MediaHeader}
    {payload : Bytes} (now : Instant) (hvalid : validFragment header payload = true)
    (hfits : r.frames.size ≤ r.cfg.maxPending) :
    (r.ingestVideo rs header payload now).1.frames.size ≤ r.cfg.maxPending ↔
      ¬ (r.stale header.frame.toNat = false ∧ r.refuses header payload = true ∧
        r.cfg.maxPending < r.frames.size + (r.gapOpens header.frame.toNat).length) := by
  cases hstale : r.stale header.frame.toNat with
  | true =>
    rw [ingestVideo_of_stale rs r now hstale]
    exact iff_of_true hfits (by simp)
  | false =>
    rw [ingestVideo_of_wanted rs r now hvalid hstale]
    have hslot : (r.beforeFragment header now).refuses header payload =
        r.refuses header payload := by
      unfold refuses
      rw [beforeFragment_get?]
    cases hrefuses : r.refuses header payload with
    | false =>
      refine iff_of_true ?_ (by simp)
      obtain ⟨t, ht⟩ := storeFragment_of_takes rs now hvalid (hslot.trans hrefuses)
      have hkept : Books (fun _ => True) _ _ :=
        storeFragment_books rs (r.beforeFragment header now) header payload now
          fun _ _ _ => trivial
      have hle := size_evict_le t now
      rw [← ht, hkept.cfg, beforeFragment_cfg] at hle
      exact hle
    | true =>
      rw [storeFragment_of_refuses rs now (hslot.trans hrefuses), beforeFragment,
        size_markPrevious]
      have hgap := size_openGap { r with anyArrived := true } header.frame.toNat now hfits
      refine Iff.trans hgap ?_
      show r.frames.size + (r.gapOpens header.frame.toNat).length ≤ r.cfg.maxPending ↔ _
      simp

/-- Settling a silence changes neither how much is tracked nor what a fragment's slot makes of it. -/
theorem endSilence_tracks (r : Reassembler) (header : MediaHeader) (payload : Bytes) (now : Instant) :
    (r.endSilence header now).frames.size = r.frames.size ∧
      (r.endSilence header now).cfg = r.cfg ∧
      (r.endSilence header now).refuses header payload = r.refuses header payload := by
  apply endSilence_induct (P := fun s => s.frames.size = r.frames.size ∧ s.cfg = r.cfg ∧
    s.refuses header payload = r.refuses header payload)
  · intro s t hst hs
    have hrefuses : t.refuses header payload = s.refuses header payload := by
      simp only [refuses, hst.frames]
    exact ⟨by rw [hst.frames]; exact hs.1, hst.cfg.trans hs.2.1, hrefuses.trans hs.2.2⟩
  · intro s hs
    unfold resume
    split
    · exact hs
    · refine ⟨?_, hs.2.1, Eq.trans ?_ hs.2.2⟩
      · show (s.frames.mapVal _).size = _
        rw [OrdMap.size_mapVal]
        exact hs.1
      · simp only [refuses, OrdMap.get?_mapVal]
        cases s.frames.get? header.frame.toNat with
        | none => rfl
        | some u => cases u <;> rfl
  · exact ⟨rfl, rfl, rfl⟩

theorem endSilence_gapOpens (r : Reassembler) (header : MediaHeader) (now : Instant) (frame : Nat) :
    (r.endSilence header now).gapOpens frame = r.gapOpens frame := by
  apply endSilence_induct (P := fun s => s.gapOpens frame = r.gapOpens frame)
  · intro s t hst hs
    refine Eq.trans ?_ hs
    simp only [gapOpens, hst.need, hst.frames, hst.cfg]
  · intro s hs
    refine Eq.trans ?_ hs
    unfold resume
    split
    · rfl
    · simp only [gapOpens, OrdMap.get?_mapVal, Option.isNone_map]
  · rfl

theorem ingest_of_fragment (rs : ReedSolomon) {r : Reassembler} {datagram : Bytes}
    {header : MediaHeader} {payload : Bytes} (now : Instant)
    (h : r.fragment? datagram = some (header, payload)) :
    r.ingest rs datagram now = (r.endSilence header now).ingestVideo rs header payload now ∧
      validFragment header payload = true := by
  unfold fragment? at h
  unfold ingest
  cases hparse : MediaHeader.parse datagram with
  | none => simp [hparse] at h
  | some parsed =>
    obtain ⟨header', payload'⟩ := parsed
    simp only [hparse] at h
    split at h
    · rename_i hours
      have hstream : ¬ header'.stream ≠ r.stream := not_not.mpr hours.1
      cases hkind : header'.kind? with
      | none => simp [hkind] at h
      | some kind =>
        cases kind with
        | videoData =>
          simp only [hkind, Option.some.injEq, Prod.mk.injEq] at h
          obtain ⟨rfl, rfl⟩ := h
          simp only [if_neg hstream, hkind]
          exact ⟨trivial, hours.2⟩
        | videoParity =>
          simp only [hkind, Option.some.injEq, Prod.mk.injEq] at h
          obtain ⟨rfl, rfl⟩ := h
          simp only [if_neg hstream, hkind]
          exact ⟨trivial, hours.2⟩
        | audio => simp [hkind] at h
        | cursor => simp [hkind] at h
        | heartbeat => simp [hkind] at h
        | clock => simp [hkind] at h
    · exact absurd h nofun

theorem ingest_of_other (rs : ReedSolomon) {r : Reassembler} {datagram : Bytes} (now : Instant)
    {P : Reassembler → Prop} (h : r.fragment? datagram = none) (hr : P r)
    (hsilence : ∀ header, P (r.endSilence header now))
    (hquiet : ∀ s t, Quiet s t → P s → P t) :
    P (r.ingest rs datagram now).1 := by
  unfold fragment? at h
  unfold ingest
  cases hparse : MediaHeader.parse datagram with
  | none => exact hr
  | some parsed =>
    obtain ⟨header, payload⟩ := parsed
    simp only [hparse] at h
    dsimp only
    by_cases hstream : header.stream ≠ r.stream
    · rw [if_pos hstream]
      exact hr
    · rw [if_neg hstream]
      have hsettled := hsilence header
      have hours : header.stream = r.stream := not_not.mp hstream
      have hbad : ∀ kind, header.kind? = some kind → kind = .videoData ∨ kind = .videoParity →
          validFragment header payload = false := by
        intro kind hkind hvideo
        by_contra hvalid
        rw [if_pos ⟨hours, by simpa using hvalid⟩, hkind] at h
        rcases hvideo with rfl | rfl <;> exact absurd h nofun
      cases hkind : header.kind? with
      | none => exact hsettled
      | some kind =>
        cases kind with
        | audio =>
          dsimp only
          split <;> exact hsettled
        | cursor =>
          dsimp only
          split <;> exact hsettled
        | clock => exact hsettled
        | heartbeat =>
          dsimp only
          split
          · exact hquiet (r.endSilence header now) _ ⟨⟨rfl, rfl, rfl, rfl⟩, rfl, rfl, rfl, rfl, rfl⟩ hsettled
          · exact hsettled
        | videoData =>
          dsimp only
          rw [ingestVideo_of_invalid rs _ now (hbad _ hkind (Or.inl rfl))]
          exact hquiet (r.endSilence header now) _ ⟨⟨rfl, rfl, rfl, rfl⟩, rfl, rfl, rfl, rfl, rfl⟩ hsettled
        | videoParity =>
          dsimp only
          rw [ingestVideo_of_invalid rs _ now (hbad _ hkind (Or.inr rfl))]
          exact hquiet (r.endSilence header now) _ ⟨⟨rfl, rfl, rfl, rfl⟩, rfl, rfl, rfl, rfl, rfl⟩ hsettled

theorem size_ingest (rs : ReedSolomon) (r : Reassembler) (datagram : Bytes) (now : Instant)
    (hfits : r.frames.size ≤ r.cfg.maxPending) :
    (r.ingest rs datagram now).1.frames.size ≤ r.cfg.maxPending ↔ r.overfills datagram = false := by
  unfold overfills
  cases hfragment : r.fragment? datagram with
  | none =>
    refine iff_of_true ?_ rfl
    refine ingest_of_other rs now (P := fun s => s.frames.size ≤ r.cfg.maxPending) hfragment hfits
      (fun header => ?_) fun s t hst hs => ?_
    · exact (endSilence_tracks r header [] now).1.trans_le hfits
    · rw [hst.frames]
      exact hs
  | some fragment =>
    obtain ⟨header, payload⟩ := fragment
    obtain ⟨hingest, hvalid⟩ := ingest_of_fragment rs now hfragment
    obtain ⟨hsize, hcfg, hrefuses⟩ := endSilence_tracks r header payload now
    have hgap := endSilence_gapOpens r header now header.frame.toNat
    have hstale := (endSilence_opens r header now header.frame.toNat).1
    have hvideo := size_ingestVideo rs (r.endSilence header now) now hvalid
      (by rw [hcfg, hsize]; exact hfits)
    rw [hcfg, hstale, hrefuses, hsize, hgap] at hvideo
    rw [hingest]
    refine hvideo.trans ?_
    simp

end Reassembler

/-! ### Runs -/

/-- The datagram is not one that overfills. -/
def Fits (r : Reassembler) : Op → Prop
  | .ingest datagram _ => r.overfills datagram = false
  | .tick .. | .forceRefresh .. | .setSourceLive _ | .nextFrame => True

instance Fits.decidable (r : Reassembler) : ∀ op, Decidable (Fits r op)
  | .ingest datagram _ => inferInstanceAs (Decidable (r.overfills datagram = false))
  | .tick .. | .forceRefresh .. | .setSourceLive _ | .nextFrame => isTrue trivial

open Reassembler in
theorem step_cfg (rs : ReedSolomon) (r : Reassembler) (op : Op) : (step rs r op).cfg = r.cfg := by
  cases op with
  | ingest datagram now => exact (ingest_books rs r datagram now).cfg
  | tick now rtt =>
    obtain ⟨lost, c, -, htick⟩ := tick_eq r now rtt
    have hstart : Books (fun _ => True) r (r.startTick now rtt) := startTick_books r now rtt
    have hrest : Books (fun _ => True) ((r.startTick now rtt).tickFrames c).1 _ :=
      tickRest_books _ lost c now rtt
    show (r.tick now rtt).1.cfg = r.cfg
    rw [htick _ rfl]
    exact hrest.cfg.trans hstart.cfg
  | forceRefresh now keyframe =>
    have hforced : Books (fun _ => True) r (r.forceRefresh now keyframe) :=
      forceRefresh_books r now keyframe
    exact hforced.cfg
  | setSourceLive live =>
    have hset : Books (fun _ => True) r (r.setSourceLive live) := setSourceLive_books r live
    exact hset.cfg
  | nextFrame =>
    have htaken : Books (fun _ => True) r r.nextFrame.1 := nextFrame_books r
    exact htaken.cfg

open Reassembler in
theorem size_step (rs : ReedSolomon) (r : Reassembler) (op : Op)
    (hfits : r.frames.size ≤ r.cfg.maxPending) :
    (step rs r op).frames.size ≤ r.cfg.maxPending ↔ Fits r op := by
  cases op with
  | ingest datagram now => exact size_ingest rs r datagram now hfits
  | tick now rtt => exact iff_of_true ((size_tick_le r now rtt).trans hfits) trivial
  | forceRefresh now keyframe =>
    refine iff_of_true ?_ trivial
    have hframes : (r.forceRefresh now keyframe).frames = r.frames := by
      unfold forceRefresh
      dsimp only
      split <;> rfl
    show (r.forceRefresh now keyframe).frames.size ≤ _
    rw [hframes]
    exact hfits
  | setSourceLive live =>
    refine iff_of_true ?_ trivial
    have hframes : (r.setSourceLive live).frames = r.frames := by
      unfold setSourceLive
      split
      · split <;> rfl
      · rfl
    show (r.setSourceLive live).frames.size ≤ _
    rw [hframes]
    exact hfits
  | nextFrame =>
    refine iff_of_true ?_ trivial
    have hframes : r.nextFrame.1.frames = r.frames := by
      unfold nextFrame
      split <;> rfl
    show r.nextFrame.1.frames.size ≤ _
    rw [hframes]
    exact hfits

/-- No more than `max_pending` frames are tracked after any step of a run exactly when no step of it
is a refused fragment ahead of more untracked frames than there is room for. -/
theorem tracked_bounded (rs : ReedSolomon) (stream : UInt32) (cfg : Config) (now : Instant)
    (ops : List Op) :
    (∀ before, before <+: ops →
      (run rs (Reassembler.new stream cfg now) before).frames.size ≤ cfg.maxPending) ↔
      EachStep (step rs) Fits (Reassembler.new stream cfg now) ops := by
  have hstep : ∀ (r : Reassembler) (op : Op), r.cfg = cfg ∧ r.frames.size ≤ cfg.maxPending →
      ((step rs r op).cfg = cfg ∧ (step rs r op).frames.size ≤ cfg.maxPending ↔ Fits r op) := by
    rintro r op ⟨rfl, hfits⟩
    rw [step_cfg, size_step rs r op hfits]
    exact and_iff_right rfl
  have hcfg : ∀ before : List Op, (run rs (Reassembler.new stream cfg now) before).cfg = cfg := by
    intro before
    induction before using List.reverseRecOn with
    | nil => rfl
    | append_singleton before op ih =>
      rw [run, List.foldl_append, List.foldl_cons, List.foldl_nil, step_cfg]
      exact ih
  rw [← EachStep.iff_everywhere hstep ⟨rfl, Nat.zero_le _⟩]
  exact forall₂_congr fun before _ => (and_iff_right (hcfg before)).symm

/-- Half of frame 5 comes before the keyframe, and the same half again after it. -/
def halfAgain : List Op :=
  [.ingest (firstDatagram 5 Asking.twoPart) 1, .ingest (firstDatagram 3 tinyFrame) 2,
    .ingest (firstDatagram 5 Asking.twoPart) 3]

theorem tracked_past_limit :
    ¬ ∀ before, before <+: halfAgain →
      (run copies (.new 7 { maxPending := 1 } 0) before).frames.size ≤ 1 := by
  intro h
  have hsize : (run copies (.new 7 { maxPending := 1 } 0) halfAgain).frames.size = 2 := by
    decide +kernel
  have hle := h halfAgain List.prefix_rfl
  omega

end Slopty.Media.Reassemble
