import Slopty.Media.Reassembler

/-!
Putting one frame back together: what a partial frame holds of the fragments
that were sent, and the body its shards give once there are enough of them.
-/

namespace Slopty.Media.Reassemble

open Slopty.Lib
open Slopty.Media.Wire
open Slopty.Media.Fec

/-- The fragments of one frame as a sender cuts them. -/
structure Fragments (rs : ReedSolomon) where
  header : MediaHeader
  data : List Bytes
  parity : List Bytes
  shardBytes : Nat
  opening : FramePrefix
  body : Bytes
  padding : Bytes
  channel_eq : header.channel = channelMedia
  data_length : data.length = header.dataCount.toNat
  parity_length : parity.length = header.parityCount.toNat
  some_data : 0 < data.length
  addressable : data.length + parity.length < 2 ^ 16
  shard_length : ∀ s ∈ data ++ parity, s.length = shardBytes
  shard_pos : 0 < shardBytes
  shard_even : shardBytes % 2 = 0
  shard_small : shardBytes ≤ maxPayload
  original : hasFlag header.flags Flags.retransmit = false
  encoded : parity = [] ∨
    rs.encode data.length parity.length shardBytes data = some parity
  flatten_data : data.flatten = opening.asBytes ++ body ++ padding
  opening_len : opening.len.toNat = body.length

namespace Fragments

variable {rs : ReedSolomon} (fr : Fragments rs)

def shards : List Bytes := fr.data ++ fr.parity

def number : Nat := fr.header.frame.toNat

def headerAt (i : Nat) : MediaHeader :=
  { fr.header with
    index := UInt16.ofNat i
    kind := (if i < fr.data.length then Kind.videoData else Kind.videoParity).toUInt8 }

def datagram (i : Nat) (shard : Bytes) : Bytes := (fr.headerAt i).asBytes ++ shard

def sentDiscardable : Bool := hasFlag fr.header.flags Flags.discardable

def info (recovered : Bool) : FrameInfo where
  frame := fr.number
  keyframe := hasFlag fr.header.flags Flags.keyframe
  ltrToken := if hasFlag fr.header.flags Flags.ltr then some fr.opening.ltrToken else none
  ltrRefresh := hasFlag fr.header.flags Flags.ltrRefresh
  discardable := fr.sentDiscardable
  captureTsUs := fr.opening.captureTsUs
  stripes := fr.opening.stripes
  build := fr.opening.build
  region := fr.opening.region?
  recovered := recovered

structure Shows (out : FrameOut) : Prop where
  data : out.data = fr.body
  info : ∃ recovered, out.info = fr.info recovered

end Fragments

structure Holds {rs : ReedSolomon} (fr : Fragments rs) (p : Partial) : Prop where
  dataCount : p.dataCount = fr.data.length
  parityCount : p.parityCount = fr.parity.length
  shardBytes : p.shardBytes = fr.shardBytes
  flags : p.flags = fr.header.flags
  length : p.shards.length = fr.shards.length
  honest : ∀ (i : Nat) (b : Bytes), p.shards[i]? = some (some b) → fr.shards[i]? = some b
  haveData : p.haveData = (p.shards.take p.dataCount).countP Option.isSome
  haveTotal : p.haveTotal = p.shards.countP Option.isSome
  retransmitted : p.retransmitted = false
  discardable : p.discardable = fr.sentDiscardable

theorem gather_eq_some {α : Type} {l : List (Option α)} {xs : List α} (h : l = xs.map some) :
    gather l = some xs := by
  subst h
  induction xs with
  | nil => rfl
  | cons x xs ih => simp [gather, ih]

theorem length_present (shards : List (Option Bytes)) :
    (present shards).length = shards.countP Option.isSome := by
  have hmap : shards = shards.zipIdx.map Prod.fst := by simp
  rw [present, List.length_filterMap_eq_countP, hmap, List.countP_map, ← hmap]
  congr 1
  funext si
  simp

theorem mem_present {shards : List (Option Bytes)} {i : Nat} {b : Bytes} :
    (i, b) ∈ present shards ↔ shards[i]? = some (some b) := by
  simp only [present, List.mem_filterMap, Option.map_eq_some_iff, Prod.exists, Prod.mk.injEq]
  constructor
  · rintro ⟨s, j, hmem, c, rfl, rfl, rfl⟩
    exact List.mem_zipIdx_iff_getElem?.mp hmem
  · intro h
    exact ⟨some b, i, List.mem_zipIdx_iff_getElem?.mpr h, b, rfl, rfl, rfl⟩

theorem pairwise_zipIdx_snd {α : Type} (l : List α) (k : Nat) :
    (l.zipIdx k).Pairwise fun a b => a.2 < b.2 := by
  induction l generalizing k with
  | nil => simp
  | cons x l ih =>
      rw [List.zipIdx_cons, List.pairwise_cons]
      refine ⟨?_, ih (k + 1)⟩
      rintro ⟨y, j⟩ hy
      have := List.le_snd_of_mem_zipIdx hy
      simp only at this ⊢
      omega

theorem pairwise_present (shards : List (Option Bytes)) :
    (present shards).Pairwise fun a b => a.1 < b.1 := by
  rw [present, List.pairwise_filterMap]
  refine (pairwise_zipIdx_snd shards 0).imp ?_
  intro a b hab x hx y hy
  obtain ⟨c, -, rfl⟩ := Option.map_eq_some_iff.mp hx
  obtain ⟨d, -, rfl⟩ := Option.map_eq_some_iff.mp hy
  exact hab

namespace Holds

variable {rs : ReedSolomon} {fr : Fragments rs} {p : Partial}

theorem shardsOf_original (h : Holds fr p) : ShardsOf fr.data p.originalShards where
  places := pairwise_present _
  honest := by
    rintro ⟨i, b⟩ hib
    have hat := mem_present.mp hib
    rw [List.getElem?_take] at hat
    split at hat
    · rename_i hi
      have := h.honest i b hat
      rw [h.dataCount] at hi
      rwa [Fragments.shards, List.getElem?_append_left hi] at this
    · simp at hat

theorem shardsOf_recovery (h : Holds fr p) : ShardsOf fr.parity p.recoveryShards where
  places := pairwise_present _
  honest := by
    rintro ⟨i, b⟩ hib
    have hat := mem_present.mp hib
    rw [List.getElem?_drop, h.dataCount] at hat
    have := h.honest _ b hat
    rwa [Fragments.shards, List.getElem?_append_right (by omega), Nat.add_sub_cancel_left] at this

theorem length_shardsOf (h : Holds fr p) :
    p.originalShards.length + p.recoveryShards.length = p.haveTotal := by
  rw [Partial.originalShards, Partial.recoveryShards, length_present, length_present,
    ← List.countP_append, List.take_append_drop, h.haveTotal]

theorem haveData_le (h : Holds fr p) : p.haveData ≤ fr.data.length := by
  rw [h.haveData]
  refine List.countP_le_length.trans ?_
  rw [List.length_take, h.dataCount]
  exact Nat.min_le_left _ _

theorem length_take (h : Holds fr p) : (p.shards.take p.dataCount).length = fr.data.length := by
  rw [List.length_take, h.length, h.dataCount, Fragments.shards, List.length_append]
  omega

theorem take_eq_of_whole (h : Holds fr p) (hwhole : ¬p.haveData < p.dataCount) :
    p.shards.take p.dataCount = fr.data.map some := by
  have hlen := h.length_take
  have hall : ∀ s ∈ p.shards.take p.dataCount, s.isSome = true := by
    rw [← List.countP_eq_length, ← h.haveData, hlen]
    have := h.haveData_le
    have := h.dataCount
    omega
  apply List.ext_getElem?
  intro i
  rw [List.getElem?_map]
  rcases Nat.lt_or_ge i fr.data.length with hi | hi
  · obtain ⟨s, hs⟩ : ∃ s, (p.shards.take p.dataCount)[i]? = some s :=
      ⟨_, List.getElem?_eq_getElem (hlen ▸ hi)⟩
    obtain ⟨b, rfl⟩ := Option.isSome_iff_exists.mp (hall s (List.mem_of_getElem? hs))
    have hb := h.shardsOf_original.honest (i, b) (mem_present.mpr hs)
    rw [hs, hb]
    rfl
  · rw [List.getElem?_eq_none (hlen ▸ hi), List.getElem?_eq_none hi]
    rfl

theorem fill_eq (h : Holds fr p) {restored : Nat → Option Bytes}
    (hrestored : ∀ i b, fr.data[i]? = some b → (∀ ib ∈ p.originalShards, ib.1 ≠ i) →
      restored i = some b) :
    ((p.shards.take p.dataCount).zipIdx.map fun si => si.1.or (restored si.2)) =
      fr.data.map some := by
  have hlen := h.length_take
  apply List.ext_getElem?
  intro i
  rw [List.getElem?_map, List.getElem?_map, List.getElem?_zipIdx]
  rcases Nat.lt_or_ge i fr.data.length with hi | hi
  · obtain ⟨s, hs⟩ : ∃ s, (p.shards.take p.dataCount)[i]? = some s :=
      ⟨_, List.getElem?_eq_getElem (hlen ▸ hi)⟩
    obtain ⟨b, hb⟩ : ∃ b, fr.data[i]? = some b := ⟨_, List.getElem?_eq_getElem hi⟩
    rw [hs, hb]
    cases s with
    | some c =>
        have hc := h.shardsOf_original.honest (i, c) (mem_present.mpr hs)
        rw [hb] at hc
        simpa using hc.symm
    | none =>
        have hmissing : ∀ ib ∈ p.originalShards, ib.1 ≠ i := by
          rintro ⟨j, c⟩ hjc rfl
          rw [mem_present.mp hjc] at hs
          simp at hs
        simpa using hrestored i b hb hmissing
  · rw [List.getElem?_eq_none (hlen ▸ hi), List.getElem?_eq_none hi]
    rfl

theorem body_eq (hmds : rs.Mds) (h : Holds fr p) (henough : fr.data.length ≤ p.haveTotal) :
    p.body rs = some fr.data.flatten := by
  unfold Partial.body
  split
  · rename_i hpart
    -- Something is missing and yet enough is at hand, so there is parity.
    have hencoded : rs.encode fr.data.length fr.parity.length fr.shardBytes fr.data =
        some fr.parity := by
      refine fr.encoded.resolve_left ?_
      intro hnone
      have hdrop : p.shards.drop p.dataCount = [] := by
        rw [List.drop_eq_nil_iff, h.length, Fragments.shards, hnone, h.dataCount]
        simp
      have hsplit := h.length_shardsOf
      rw [Partial.originalShards, Partial.recoveryShards, hdrop, length_present, ← h.haveData]
        at hsplit
      rw [h.dataCount] at hpart
      simp [present] at hsplit
      omega
    obtain ⟨restored, hdecode, hrestored⟩ := hmds.restores fr.data.length fr.parity.length
      fr.shardBytes fr.data fr.parity p.originalShards p.recoveryShards rfl hencoded
      h.shardsOf_original h.shardsOf_recovery (by rw [h.length_shardsOf]; exact henough)
    rw [← h.dataCount, ← h.parityCount, ← h.shardBytes] at hdecode
    rw [hdecode]
    simp only
    rw [gather_eq_some (h.fill_eq hrestored)]
    rfl
  · rename_i hwhole
    rw [gather_eq_some (h.take_eq_of_whole hwhole)]
    rfl

theorem complete_iff (h : Holds fr p) : p.complete = true ↔ fr.data.length ≤ p.haveTotal := by
  have hsplit := h.length_shardsOf
  have horiginal : p.originalShards.length = p.haveData := by
    rw [Partial.originalShards, length_present, h.haveData]
  have hle := h.haveData_le
  have hrecovery : p.recoveryShards.length ≤ fr.parity.length := by
    rw [Partial.recoveryShards, length_present]
    refine List.countP_le_length.trans ?_
    rw [List.length_drop, h.length, h.dataCount, Fragments.shards, List.length_append]
    omega
  simp only [Partial.complete, h.dataCount, h.parityCount, Bool.or_eq_true, decide_eq_true_eq,
    Bool.and_eq_true]
  omega

theorem store (h : Holds fr p) {i : Nat} {b : Bytes} {header : MediaHeader} (now : Instant)
    (hfree : p.shards[i]? = some none) (hb : fr.shards[i]? = some b)
    (hheader : hasFlag header.flags Flags.retransmit = false) :
    Holds fr (p.store i b header now) := by
  obtain ⟨hi, hnone⟩ := List.getElem?_eq_some_iff.mp hfree
  refine
    { dataCount := h.dataCount
      parityCount := h.parityCount
      shardBytes := h.shardBytes
      flags := h.flags
      length := by simpa [Partial.store] using h.length
      honest := ?_
      haveData := ?_
      haveTotal := ?_
      retransmitted := by simp [Partial.store, h.retransmitted, hheader]
      discardable := h.discardable }
  · intro j c hc
    simp only [Partial.store] at hc
    rw [List.getElem?_set] at hc
    split at hc
    · rename_i hij
      subst hij
      rw [hb]
      simpa [hi] using hc
    · exact h.honest j c hc
  · simp only [Partial.store]
    rw [List.take_set]
    split
    · rename_i hdata
      have hi' : i < (p.shards.take p.dataCount).length := by
        rw [List.length_take]
        omega
      rw [List.countP_set hi', h.haveData]
      simp [hnone]
    · rename_i hdata
      rw [List.set_eq_of_length_le, h.haveData]
      rw [List.length_take]
      omega
  · simp only [Partial.store]
    rw [List.countP_set hi, h.haveTotal]
    simp [hnone]

theorem new {i : Nat} {b : Bytes} {d : Bool} (now : Instant) (hb : fr.shards[i]? = some b)
    (hd : d = true → fr.sentDiscardable = true) :
    Holds fr (Partial.new (fr.headerAt i) b.length now d) := by
  refine
    { dataCount := fr.data_length.symm
      parityCount := fr.parity_length.symm
      shardBytes := fr.shard_length b (List.mem_of_getElem? hb)
      flags := rfl
      length := ?_
      honest := ?_
      haveData := ?_
      haveTotal := ?_
      retransmitted := rfl
      discardable := ?_ }
  · simp [Partial.new, Fragments.headerAt, Fragments.shards, fr.data_length, fr.parity_length]
  · intro j c hc
    simp only [Partial.new] at hc
    have := List.mem_of_getElem? hc
    simp at this
  · simp [Partial.new, List.countP_replicate]
  · simp [Partial.new, List.countP_replicate]
  · change (d || fr.sentDiscardable) = fr.sentDiscardable
    cases d with
    | false => rfl
    | true => simp [hd rfl]

theorem assemble_shows (hmds : rs.Mds) (h : Holds fr p) (henough : fr.data.length ≤ p.haveTotal)
    (now : Instant) : ∃ out, assemble rs fr.number p now = some out ∧ fr.Shows out := by
  have hparse : (p.body rs).bind FramePrefix.parse = some (fr.opening, fr.body ++ fr.padding) := by
    rw [h.body_eq hmds henough, fr.flatten_data, List.append_assoc]
    exact FramePrefix.parse_asBytes_append _ _
  have hlen : fr.opening.len.toNat ≤ (fr.body ++ fr.padding).length := by
    rw [fr.opening_len, List.length_append]
    omega
  unfold assemble
  rw [hparse]
  simp only
  rw [if_pos hlen]
  refine ⟨_, rfl, ?_, ?_⟩
  · rw [fr.opening_len, List.take_left]
  · refine ⟨decide (p.haveData < p.dataCount) || p.retransmitted, ?_⟩
    rw [h.flags, h.discardable]
    rfl

theorem length_le_haveTotal (h : Holds fr p) {done : List Nat} (hnodup : done.Nodup)
    (hdone : ∀ i ∈ done, ∃ b, p.shards[i]? = some (some b)) : done.length ≤ p.haveTotal := by
  rw [h.haveTotal, ← length_present, ← List.length_map Prod.fst]
  apply List.Subperm.length_le
  apply List.subperm_of_subset hnodup
  intro i hi
  obtain ⟨b, hb⟩ := hdone i hi
  exact List.mem_map.mpr ⟨(i, b), mem_present.mpr hb, rfl⟩

end Holds

end Slopty.Media.Reassemble
