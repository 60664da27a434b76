import Slopty.Media.Wire
import Slopty.Media.ReedSolomon

/-!
Worker side: split an encoded frame into datagrams and add parity.
-/

namespace Slopty.Media.Packetize

open Slopty.Lib
open Slopty.Media.Wire
open Slopty.Media.Fec

def maxDataFragments : Nat := 32768

def maxParityFragments : Nat := 255

def minParityFragments : Nat := 2

def defaultParityPermille : Nat := 200

def historyFrames : Nat := 32

def minPayload : Nat := 256

/-- `Redundancy::MIN`. -/
def redundancyMin : Nat := 50

structure EncodedFrame where
  data : Bytes
  keyframe : Bool
  ltrToken : Option UInt64
  ltrRefresh : Bool
  discardable : Bool
  captureTsUs : UInt32
  stripes : UInt8
  region : Option Region
  deriving DecidableEq, Repr

/-- How a frame is cut up. -/
structure Layout where
  dataCount : UInt16
  shardBytes : Nat
  parityCount : UInt8
  deriving DecidableEq, Repr

inductive MediaError where
  | empty
  | frameTooLarge (len : Nat)
  | fec
  deriving DecidableEq, Repr

/-- `max_payload` as `layout` takes it: within bounds, and even. -/
def evenPayload (maxPayload : Nat) : Nat :=
  (if maxPayload < minPayload then minPayload
    else if Wire.maxPayload < maxPayload then Wire.maxPayload
    else maxPayload) / 2 * 2

def parityFor (dataCount parityPermille : Nat) : Nat :=
  let floor := if redundancyMin < parityPermille then minParityFragments else 1
  if parityPermille = 0 then 0
  else
    let share := divCeil (satMul 64 dataCount parityPermille) 1000
    if share < floor then floor
    else if maxParityFragments < share then maxParityFragments
    else share

/-- Choose fragment count and size for `len` bitstream bytes. -/
def layout (len parityPermille maxPayload : Nat) : Except MediaError Layout :=
  if len = 0 then .error .empty
  else
    let maxPayload := evenPayload maxPayload
    let total := satAdd 64 len framePrefixBytes
    let dataCount := divCeil total maxPayload
    if maxDataFragments < dataCount then .error (.frameTooLarge len)
    else
      .ok
        { dataCount := UInt16.ofNat (min dataCount 65535)
          shardBytes := min (divCeil (divCeil total dataCount) 2 * 2) maxPayload
          parityCount := UInt8.ofNat (min (parityFor dataCount parityPermille) 255) }

/-- What a layout promises for a frame of `len` bytes. -/
structure Layout.Fits (l : Layout) (len : Nat) : Prop where
  some_data : 0 < l.dataCount.toNat
  few_data : l.dataCount.toNat ≤ maxDataFragments
  even : l.shardBytes % 2 = 0
  holds_prefix : framePrefixBytes ≤ l.shardBytes
  small : l.shardBytes ≤ Wire.maxPayload
  covers : len + framePrefixBytes ≤ l.dataCount.toNat * l.shardBytes

theorem evenPayload_bounds (m : Nat) :
    evenPayload m % 2 = 0 ∧ minPayload ≤ evenPayload m ∧ evenPayload m ≤ Wire.maxPayload := by
  have hmin : minPayload = 256 := rfl
  have hmax : Wire.maxPayload = 1182 := rfl
  unfold evenPayload
  split
  · omega
  · split <;> omega

/-- A shard balanced over the fragments still covers the whole body. -/
theorem covers_of_balanced {total count payload : Nat} (hcount : 0 < count)
    (hpayload : total ≤ count * payload) :
    total ≤ count * min (divCeil (divCeil total count) 2 * 2) payload := by
  rcases Nat.le_total (divCeil (divCeil total count) 2 * 2) payload with hle | hle
  · rw [Nat.min_eq_left hle]
    calc total ≤ divCeil total count * count := le_divCeil_mul hcount
      _ ≤ divCeil (divCeil total count) 2 * 2 * count :=
          Nat.mul_le_mul_right _ (le_divCeil_mul (by decide))
      _ = count * (divCeil (divCeil total count) 2 * 2) := Nat.mul_comm _ _
  · rwa [Nat.min_eq_right hle]

theorem prefix_le_balanced {total payload : Nat} (htotal : framePrefixBytes < total)
    (hpayload : minPayload ≤ payload) :
    framePrefixBytes ≤
      min (divCeil (divCeil total (divCeil total payload)) 2 * 2) payload := by
  have hprefix : framePrefixBytes = 28 := rfl
  have hmin : minPayload = 256 := rfl
  have hcount_le : total ≤ divCeil total payload * payload := le_divCeil_mul (by omega)
  have hcount_lt : divCeil total payload * payload < total + payload :=
    divCeil_mul_lt (by omega)
  generalize divCeil total payload = count at hcount_le hcount_lt ⊢
  have hcount : 0 < count := by
    rcases Nat.eq_zero_or_pos count with rfl | h
    · omega
    · exact h
  have hshard : total ≤ divCeil total count * count := le_divCeil_mul hcount
  have heven : divCeil total count ≤ divCeil (divCeil total count) 2 * 2 :=
    le_divCeil_mul (by decide)
  rw [Nat.le_min]
  refine ⟨?_, by omega⟩
  by_contra hshort
  have hq : divCeil total count ≤ 28 := by omega
  have htotal' : total ≤ 28 * count := hshard.trans (Nat.mul_le_mul_right _ hq)
  have hpay : 256 * count ≤ payload * count := Nat.mul_le_mul_right _ (by omega)
  rw [Nat.mul_comm payload count] at hpay
  rcases Nat.lt_or_ge count 2 with hone | htwo
  · have : count = 1 := by omega
    subst this
    omega
  · -- With two fragments the last but one is full, so the body is at least half the payload.
    have : payload * 2 ≤ payload * count := Nat.mul_le_mul_left _ htwo
    rw [Nat.mul_comm payload count] at this
    omega

theorem divCeil_le {total payload count : Nat} (hpayload : 0 < payload)
    (h : total ≤ count * payload) : divCeil total payload ≤ count := by
  rw [divCeil, ← Nat.lt_succ_iff, Nat.div_lt_iff_lt_mul hpayload, Nat.succ_mul]
  omega

theorem parityFor_le (dataCount parityPermille : Nat) : parityFor dataCount parityPermille ≤ 255 := by
  have hfloor : (if redundancyMin < parityPermille then minParityFragments else 1) ≤ 255 := by
    split <;> decide
  have hmax : maxParityFragments = 255 := rfl
  simp only [parityFor]
  split
  · exact Nat.zero_le 255
  · by_cases hshort : divCeil (satMul 64 dataCount parityPermille) 1000 <
        if redundancyMin < parityPermille then minParityFragments else 1
    · rwa [if_pos hshort]
    · rw [if_neg hshort]
      split
      · exact hmax.le
      · rename_i hfew
        exact Nat.le_of_not_lt hfew

/-- A layout by its numbers: nothing saturates, and every count fits its field. -/
theorem layout_eq {len parityPermille maxPayload : Nat} {l : Layout}
    (h : layout len parityPermille maxPayload = .ok l) :
    0 < len ∧ l.dataCount.toNat = divCeil (len + framePrefixBytes) (evenPayload maxPayload) ∧
      l.dataCount.toNat ≤ maxDataFragments ∧
      l.shardBytes = min (divCeil (divCeil (len + framePrefixBytes) l.dataCount.toNat) 2 * 2)
        (evenPayload maxPayload) ∧
      l.parityCount.toNat = parityFor l.dataCount.toNat parityPermille := by
  obtain ⟨-, hmin, hmax⟩ := evenPayload_bounds maxPayload
  have hprefix : framePrefixBytes = 28 := rfl
  have hminp : minPayload = 256 := rfl
  have hmaxp : Wire.maxPayload = 1182 := rfl
  have hfrag : maxDataFragments = 32768 := rfl
  unfold layout at h
  split at h
  · simp at h
  · rename_i hlen
    simp only at h
    split at h
    · simp at h
    · rename_i hfew
      have hcount_le : satAdd 64 len framePrefixBytes ≤
          divCeil (satAdd 64 len framePrefixBytes) (evenPayload maxPayload) *
            evenPayload maxPayload := le_divCeil_mul (by omega)
      have hmost : divCeil (satAdd 64 len framePrefixBytes) (evenPayload maxPayload) *
          evenPayload maxPayload ≤ maxDataFragments * 1182 :=
        Nat.mul_le_mul (by omega) (by omega)
      -- A total that saturates would need far more fragments than are allowed.
      have htotal : satAdd 64 len framePrefixBytes = len + framePrefixBytes := by
        unfold satAdd at hcount_le hmost ⊢
        omega
      rw [htotal] at h hfew
      obtain rfl := Except.ok.inj h
      have hcount : (UInt16.ofNat (min (divCeil (len + framePrefixBytes)
          (evenPayload maxPayload)) 65535)).toNat =
          divCeil (len + framePrefixBytes) (evenPayload maxPayload) := by
        rw [UInt16.toNat_ofNat', Nat.mod_eq_of_lt] <;> omega
      have hparity := parityFor_le (divCeil (len + framePrefixBytes) (evenPayload maxPayload))
        parityPermille
      simp only [hcount]
      refine ⟨Nat.pos_of_ne_zero hlen, trivial, by omega, trivial, ?_⟩
      rw [UInt8.toNat_ofNat', Nat.mod_eq_of_lt] <;> omega

theorem layout_fits {len parityPermille maxPayload : Nat} {l : Layout}
    (h : layout len parityPermille maxPayload = .ok l) : l.Fits len := by
  obtain ⟨heven, hmin, hmax⟩ := evenPayload_bounds maxPayload
  obtain ⟨hlen, hcount, hfew, hshard, -⟩ := layout_eq h
  have hminp : minPayload = 256 := rfl
  have hcount_le : len + framePrefixBytes ≤ l.dataCount.toNat * evenPayload maxPayload := by
    rw [hcount]
    exact le_divCeil_mul (by omega)
  have hpos : 0 < l.dataCount.toNat := by
    by_contra hnone
    rw [Nat.eq_zero_of_not_pos hnone] at hcount_le
    omega
  have hprefix := @prefix_le_balanced (len + framePrefixBytes) (evenPayload maxPayload) (by omega) hmin
  rw [← hcount, ← hshard] at hprefix
  exact
    { some_data := hpos
      few_data := hfew
      even := by omega
      holds_prefix := hprefix
      small := by omega
      covers := hshard ▸ covers_of_balanced hpos hcount_le }

/-- What a layout keeps to for a frame of `len` bytes, under a limit on the payload and with an
engine that takes some counts. -/
structure Layout.Sound (l : Layout) (len parityPermille maxPayload : Nat)
    (supports : Nat → Nat → Bool) : Prop where
  even : l.shardBytes % 2 = 0
  limit : l.shardBytes ≤ evenPayload maxPayload
  asked : minPayload ≤ maxPayload → l.shardBytes ≤ maxPayload
  covers : len + framePrefixBytes ≤ l.dataCount.toNat * l.shardBytes
  minimal : ∀ count shardBytes, shardBytes ≤ evenPayload maxPayload →
    len + framePrefixBytes ≤ count * shardBytes → l.dataCount.toNat ≤ count
  padding : l.dataCount.toNat * l.shardBytes - (len + framePrefixBytes) < 2 * l.dataCount.toNat
  holds_prefix : framePrefixBytes ≤ l.shardBytes
  header : l.parityCount.toNat = parityFor l.dataCount.toNat parityPermille
  field : l.dataCount.toNat + l.parityCount.toNat ≤ 2 ^ 16
  engine : 0 < l.parityCount.toNat → supports l.dataCount.toNat l.parityCount.toNat = true

/-- Rounding up to whole bytes and then to even costs less than two bytes for each fragment. -/
theorem balanced_lt {total count : Nat} (hcount : 0 < count) :
    count * (divCeil (divCeil total count) 2 * 2) < total + 2 * count := by
  have heven : divCeil (divCeil total count) 2 * 2 < divCeil total count + 2 :=
    divCeil_mul_lt (by decide)
  have hbalanced : divCeil total count * count < total + count := divCeil_mul_lt hcount
  calc count * (divCeil (divCeil total count) 2 * 2)
      ≤ count * (divCeil total count + 1) := Nat.mul_le_mul_left _ (by omega)
    _ = divCeil total count * count + count := by rw [Nat.mul_succ, Nat.mul_comm]
    _ < total + 2 * count := by omega

theorem evenPayload_le {maxPayload : Nat} (h : minPayload ≤ maxPayload) :
    evenPayload maxPayload ≤ maxPayload := by
  rw [evenPayload, if_neg (Nat.not_lt.mpr h)]
  split <;> omega

theorem layout_sound {len parityPermille maxPayload : Nat} {l : Layout}
    {supports : Nat → Nat → Bool} (hsupports : Documented supports)
    (h : layout len parityPermille maxPayload = .ok l) :
    l.Sound len parityPermille maxPayload supports := by
  have hfits := layout_fits h
  obtain ⟨-, hcount, hfew, hshard, hparity⟩ := layout_eq h
  obtain ⟨-, hmin, -⟩ := evenPayload_bounds maxPayload
  have hminp : minPayload = 256 := rfl
  have hfrag : maxDataFragments = 32768 := rfl
  have hlimit : l.shardBytes ≤ evenPayload maxPayload := hshard ▸ Nat.min_le_right _ _
  have hbyte := parityFor_le l.dataCount.toNat parityPermille
  rw [← hparity] at hbyte
  refine
    { even := hfits.even
      limit := hlimit
      asked := fun hasked => hlimit.trans (evenPayload_le hasked)
      covers := hfits.covers
      minimal := fun count shardBytes hshardBytes hcovers => ?_
      padding := ?_
      holds_prefix := hfits.holds_prefix
      header := hparity
      field := by omega
      engine := fun hsome => ?_ }
  · rw [hcount]
    exact divCeil_le (by omega) (hcovers.trans (Nat.mul_le_mul_left _ hshardBytes))
  · have hpos := hfits.some_data
    have hbalanced : l.dataCount.toNat * l.shardBytes < len + framePrefixBytes + 2 * l.dataCount.toNat :=
      (Nat.mul_le_mul_left _ (hshard ▸ Nat.min_le_left _ _)).trans_lt (balanced_lt hpos)
    omega
  · exact hsupports _ _ hfits.some_data (by omega) hsome (by omega)

theorem layout_sound_five :
    Layout.Sound ⟨5, 1006, 1⟩ 5000 50 1182
      fun dataCount parityCount =>
        decide (1 ≤ dataCount ∧ dataCount ≤ 32768 ∧ 1 ≤ parityCount ∧ parityCount ≤ 32768) :=
  layout_sound (fun _ _ hdata hfew hparity hlittle => decide_eq_true ⟨hdata, hfew, hparity, hlittle⟩)
    (by decide)

/-- A packetized frame: its datagrams in send order, data first, then parity. -/
structure SentFrame where
  frame : UInt32
  layout : Layout
  datagrams : List Bytes
  deriving DecidableEq, Repr

structure Packetizer where
  stream : UInt32
  nextFrame : UInt32
  parityPermille : Nat
  maxPayload : Nat
  history : List SentFrame
  datagramsSent : Nat
  previousDiscardable : Bool
  build : UInt8
  deriving DecidableEq, Repr

def flagBits (discardable prevDiscardable keyframe ltr ltrRefresh : Bool) : UInt8 :=
  (if discardable then Flags.discardable else 0) |||
    (if prevDiscardable then Flags.prevDiscardable else 0) |||
    (if keyframe then Flags.keyframe else 0) |||
    (if ltr then Flags.ltr else 0) |||
    (if ltrRefresh then Flags.ltrRefresh else 0)

def frameFlags (frame : EncodedFrame) (previousDiscardable : Bool) : UInt8 :=
  flagBits
    (frame.discardable && !frame.keyframe && !frame.ltrRefresh && frame.ltrToken.isNone)
    previousDiscardable frame.keyframe frame.ltrToken.isSome frame.ltrRefresh

/-- Every flag reads back as it was set, and no retransmit flag is. -/
theorem hasFlag_flagBits : ∀ d p k l r : Bool,
    hasFlag (flagBits d p k l r) Flags.discardable = d ∧
      hasFlag (flagBits d p k l r) Flags.prevDiscardable = p ∧
      hasFlag (flagBits d p k l r) Flags.keyframe = k ∧
      hasFlag (flagBits d p k l r) Flags.ltr = l ∧
      hasFlag (flagBits d p k l r) Flags.ltrRefresh = r ∧
      hasFlag (flagBits d p k l r) Flags.retransmit = false := by
  decide

/-- The frame body in shards: what opens the first one, the bitstream, then
zeros to the last shard's end. -/
def cutShards (shardBytes : Nat) : Nat → Bytes → Bytes → List Bytes
  | 0, _, _ => []
  | count + 1, opening, rest =>
      let room := shardBytes - opening.length
      let now := rest.take room
      (opening ++ now ++ List.replicate (room - now.length) 0) ::
        cutShards shardBytes count [] (rest.drop room)

theorem cutShards_length (shardBytes count : Nat) (opening rest : Bytes) :
    (cutShards shardBytes count opening rest).length = count := by
  induction count generalizing opening rest with
  | zero => rfl
  | succ count ih => simp [cutShards, ih]

theorem length_of_mem_cutShards {shardBytes count : Nat} {opening rest shard : Bytes}
    (hopening : opening.length ≤ shardBytes)
    (h : shard ∈ cutShards shardBytes count opening rest) : shard.length = shardBytes := by
  induction count generalizing opening rest with
  | zero => simp [cutShards] at h
  | succ count ih =>
      simp only [cutShards, List.mem_cons] at h
      rcases h with rfl | h
      · simp only [List.length_append, List.length_take, List.length_replicate]
        omega
      · exact ih (by simp) h

theorem flatten_cutShards {shardBytes count : Nat} {opening rest : Bytes}
    (hopening : opening.length ≤ shardBytes)
    (hfits : opening.length + rest.length ≤ count * shardBytes) :
    ∃ padding, (cutShards shardBytes count opening rest).flatten = opening ++ rest ++ padding := by
  induction count generalizing opening rest with
  | zero =>
      have hopen : opening = [] := List.eq_nil_of_length_eq_zero (by omega)
      have hrest : rest = [] := List.eq_nil_of_length_eq_zero (by omega)
      exact ⟨[], by simp [cutShards, hopen, hrest]⟩
  | succ count ih =>
      simp only [cutShards, List.flatten_cons]
      rw [Nat.succ_mul] at hfits
      rcases Nat.lt_or_ge (shardBytes - opening.length) rest.length with hlong | hshort
      · have hfits' : ([] : Bytes).length + (rest.drop (shardBytes - opening.length)).length ≤
            count * shardBytes := by
          simp only [List.length_nil, List.length_drop]
          omega
        obtain ⟨padding, hpadding⟩ := ih (by simp) hfits'
        refine ⟨padding, ?_⟩
        have hnow : (rest.take (shardBytes - opening.length)).length =
            shardBytes - opening.length := by
          rw [List.length_take]
          omega
        rw [hpadding, hnow, Nat.sub_self, List.replicate_zero, List.append_nil, List.nil_append]
        simp only [List.append_assoc]
        rw [← List.append_assoc (rest.take _), List.take_append_drop]
      · rw [List.take_of_length_le hshort]
        exact ⟨_, by simp only [List.append_assoc]; rfl⟩

/-- Shards as datagrams, numbered from `start`. -/
def datagrams (header : MediaHeader) (kind : Kind) (start : Nat) (shards : List Bytes) :
    List Bytes :=
  (shards.zipIdx start).map fun si =>
    { header with
      index := UInt16.ofNat (min si.2 65535)
      kind := kind.toUInt8 : MediaHeader }.asBytes ++ si.1

/-- A datagram again, its header's flags with the retransmit flag. -/
def retransmission (original : Bytes) : Bytes :=
  if original.length < headerBytes then original
  else original.modify 15 fun flags => flags ||| Flags.retransmit

/-- What a call of `packetize` leaves behind: the packetizer, the batches
handed to `ship`, and its result. -/
structure Cut where
  packetizer : Packetizer
  shipped : List (List Bytes)
  result : Except MediaError SentFrame

namespace Packetizer

def new (stream : UInt32) : Packetizer where
  stream := stream
  nextFrame := 0
  parityPermille := defaultParityPermille
  maxPayload := Wire.maxPayload
  history := []
  datagramsSent := 0
  previousDiscardable := false
  build := 0

def setParityPermille (pk : Packetizer) (permille : Nat) : Packetizer :=
  { pk with parityPermille := if 1000 < permille then 1000 else permille }

def setMaxDatagram (pk : Packetizer) (bytes : Nat) : Packetizer :=
  { pk with maxPayload := bytes - headerBytes }

def setBuild (pk : Packetizer) (build : UInt8) : Packetizer := { pk with build := build }

def framePrefix (pk : Packetizer) (frame : EncodedFrame) : FramePrefix where
  len := UInt32.ofNat (min frame.data.length (2 ^ 32 - 1))
  captureTsUs := frame.captureTsUs
  ltrToken := frame.ltrToken.getD 0
  stripes := frame.stripes
  build := pk.build
  reserved := (0, 0)
  region := FramePrefix.regionOf frame.region

/-- The header every datagram of the frame starts from. -/
def mediaHeader (pk : Packetizer) (frame : EncodedFrame) (l : Layout) (sendMsLo : UInt8) :
    MediaHeader where
  channel := channelMedia
  stream := pk.stream
  frame := pk.nextFrame
  index := 0
  dataCount := l.dataCount
  parityCount := l.parityCount
  kind := Kind.videoData.toUInt8
  flags := frameFlags frame pk.previousDiscardable
  sendMsLo := sendMsLo

/-- Keep a sent frame for NACK replies. -/
def remember (pk : Packetizer) (sent : SentFrame) : Packetizer :=
  { pk with
    datagramsSent := satAdd 64 pk.datagramsSent sent.datagrams.length
    history := (if historyFrames ≤ pk.history.length then pk.history.drop 1 else pk.history) ++
      [sent] }

/-- Cut `frame` into datagrams and add parity. -/
def packetize (rs : ReedSolomon) (pk : Packetizer) (frame : EncodedFrame) (sendMsLo : UInt8) :
    Cut :=
  match layout frame.data.length pk.parityPermille pk.maxPayload with
  | .error e => ⟨pk, [], .error e⟩
  | .ok l =>
      let number := pk.nextFrame
      let header := pk.mediaHeader frame l sendMsLo
      let shards := cutShards l.shardBytes l.dataCount.toNat (pk.framePrefix frame).asBytes
        frame.data
      let data := datagrams header .videoData 0 shards
      let pk := { pk with
        nextFrame := number + 1
        previousDiscardable := hasFlag header.flags Flags.discardable }
      if l.parityCount = 0 then
        let sent := { frame := number, layout := l, datagrams := data }
        ⟨pk.remember sent, [data], .ok sent⟩
      else
        match rs.encode l.dataCount.toNat l.parityCount.toNat l.shardBytes shards with
        | none => ⟨pk, [data], .error .fec⟩
        | some recovery =>
            let parity := datagrams header .videoParity l.dataCount.toNat recovery
            let sent := { frame := number, layout := l, datagrams := data ++ parity }
            ⟨pk.remember sent, [data, parity], .ok sent⟩

/-- Answer a request for fragments: the data fragments asked for, as they were sent but for the
retransmit flag; every one for no fragments at all, and nothing for a frame outside the history. -/
def retransmit (pk : Packetizer) (frame : UInt32) (fragments : List UInt16) :
    Packetizer × List Bytes :=
  match pk.history.find? fun s => s.frame == frame with
  | none => (pk, [])
  | some sent =>
      let dataCount := sent.layout.dataCount.toNat
      let out :=
        if fragments = [] then (sent.datagrams.take dataCount).map retransmission
        else
          (((fragments.map UInt16.toNat).filter fun i => decide (i < dataCount)).filterMap
            fun i => sent.datagrams[i]?).map retransmission
      ({ pk with datagramsSent := satAdd 64 pk.datagramsSent out.length }, out)

end Packetizer

end Slopty.Media.Packetize
