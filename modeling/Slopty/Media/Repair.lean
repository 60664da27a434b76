import Slopty.Media.Packetize
import Mathlib.Data.List.Basic

/-!
What a packetizer answers when fragments are asked for again, over whole runs: the frames cut
last are kept as they were sent, and a frame that is refused is as if it never came.
-/

namespace Slopty.Media.Packetize

open Slopty.Lib
open Slopty.Media.Wire
open Slopty.Media.Fec

/-- What the engine takes: any layout of a frame, with as many parity shards as asked for. -/
structure Supports (rs : ReedSolomon) : Prop where
  encodes : ∀ dataCount parityCount shardBytes shards, 0 < dataCount →
    dataCount ≤ maxDataFragments → 0 < parityCount → parityCount ≤ maxParityFragments →
    0 < shardBytes → shardBytes % 2 = 0 → shards.length = dataCount →
    (∀ s ∈ shards, s.length = shardBytes) →
    ∃ parity, rs.encode dataCount parityCount shardBytes shards = some parity
  encode_length : ∀ dataCount parityCount shardBytes shards parity,
    rs.encode dataCount parityCount shardBytes shards = some parity → parity.length = parityCount

/-- Whether a frame is sent as one that no later frame needs. -/
def sentDiscardable (frame : EncodedFrame) : Bool :=
  frame.discardable && !frame.keyframe && !frame.ltrRefresh && frame.ltrToken.isNone

/-- A frame that was cut: what was handed to `ship`, batch by batch, and what is kept of it. -/
structure Cutting where
  frame : EncodedFrame
  shipped : List (List Bytes)
  sent : SentFrame

namespace Cutting

def data (c : Cutting) : List Bytes := c.shipped.headD []

def datagrams (c : Cutting) : List Bytes := c.shipped.flatten

end Cutting

inductive Op where
  | packetize (frame : EncodedFrame) (sendMsLo : UInt8)
  | retransmit (frame : UInt32) (fragments : List UInt16)
  | setParityPermille (permille : Nat)
  | setMaxDatagram (bytes : Nat)
  | setBuild (build : UInt8)

/-- A packetizer, and every frame it has cut. -/
structure Sender where
  packetizer : Packetizer
  log : List Cutting

namespace Sender

def new (stream : UInt32) : Sender := ⟨Packetizer.new stream, []⟩

def step (rs : ReedSolomon) (s : Sender) : Op → Sender
  | .packetize frame sendMsLo =>
      let cut := s.packetizer.packetize rs frame sendMsLo
      match cut.result with
      | .error _ => { s with packetizer := cut.packetizer }
      | .ok sent => ⟨cut.packetizer, s.log ++ [⟨frame, cut.shipped, sent⟩]⟩
  | .retransmit frame fragments =>
      { s with packetizer := (s.packetizer.retransmit frame fragments).1 }
  | .setParityPermille permille =>
      { s with packetizer := s.packetizer.setParityPermille permille }
  | .setMaxDatagram bytes => { s with packetizer := s.packetizer.setMaxDatagram bytes }
  | .setBuild build => { s with packetizer := s.packetizer.setBuild build }

def run (rs : ReedSolomon) (stream : UInt32) (ops : List Op) : Sender :=
  ops.foldl (step rs) (new stream)

end Sender

theorem retransmission_asBytes (header : MediaHeader) (payload : Bytes) :
    retransmission (header.asBytes ++ payload) =
      { header with flags := header.flags ||| Flags.retransmit : MediaHeader }.asBytes ++
        payload := by
  have hlong : ¬ (header.asBytes ++ payload).length < headerBytes := by
    rw [List.length_append, MediaHeader.asBytes_length]
    omega
  rw [retransmission, if_neg hlong]
  rfl

/-- A datagram's header names its frame and its place in it, and has these flags. -/
def Headed (number : UInt32) (flags : UInt8) (i : Nat) (datagram : Bytes) : Prop :=
  ∃ (header : MediaHeader) (payload : Bytes), datagram = header.asBytes ++ payload ∧
    header.channel = channelMedia ∧ header.frame = number ∧ header.index.toNat = i ∧
    header.flags = flags

theorem headed_datagrams {header : MediaHeader} (hchannel : header.channel = channelMedia)
    (kind : Kind) {start : Nat} {shards : List Bytes} (hsmall : start + shards.length ≤ 2 ^ 16)
    {i : Nat} {d : Bytes} (hd : (datagrams header kind start shards)[i]? = some d) :
    Headed header.frame header.flags (start + i) d := by
  rw [datagrams, List.getElem?_map, List.getElem?_zipIdx] at hd
  cases hshard : shards[i]? with
  | none => simp [hshard] at hd
  | some shard =>
      have hlt := (List.getElem?_eq_some_iff.mp hshard).1
      simp only [hshard, Option.map_some, Option.some.injEq] at hd
      refine ⟨_, shard, hd.symm, hchannel, rfl, ?_, rfl⟩
      simp only [UInt16.toNat_ofNat']
      omega

theorem flags_frameFlags (frame : EncodedFrame) (previous : Bool) :
    hasFlag (frameFlags frame previous) Flags.discardable = sentDiscardable frame ∧
      hasFlag (frameFlags frame previous) Flags.prevDiscardable = previous ∧
      hasFlag (frameFlags frame previous) Flags.retransmit = false := by
  obtain ⟨hdiscardable, hprevious, -, -, -, hretransmit⟩ := hasFlag_flagBits
    (frame.discardable && !frame.keyframe && !frame.ltrRefresh && frame.ltrToken.isNone)
    previous frame.keyframe frame.ltrToken.isSome frame.ltrRefresh
  exact ⟨hdiscardable, hprevious, hretransmit⟩

/-- What cutting a frame made of it. -/
structure CutAs (frame : EncodedFrame) (number : UInt32) (previous : Bool)
    (shipped : List (List Bytes)) (sent : SentFrame) : Prop where
  named : sent.frame = number
  datagrams : sent.datagrams = shipped.flatten
  data : shipped.headD [] = sent.datagrams.take sent.layout.dataCount.toNat
  count : (shipped.headD []).length = sent.layout.dataCount.toNat
  headed : ∀ i d, sent.datagrams[i]? = some d → Headed number (frameFlags frame previous) i d

variable {rs : ReedSolomon}

/-- A frame is refused and changes nothing, or it is cut, remembered and counted. -/
theorem packetize_cases (hrs : Supports rs) (pk : Packetizer) (frame : EncodedFrame)
    (sendMsLo : UInt8) :
    (∃ e, pk.packetize rs frame sendMsLo = ⟨pk, [], .error e⟩) ∨
      ∃ shipped sent, CutAs frame pk.nextFrame pk.previousDiscardable shipped sent ∧
        pk.packetize rs frame sendMsLo =
          ⟨({ pk with
              nextFrame := pk.nextFrame + 1
              previousDiscardable := sentDiscardable frame } : Packetizer).remember sent,
            shipped, .ok sent⟩ := by
  have hdiscardable := (flags_frameFlags frame pk.previousDiscardable).1
  rw [Packetizer.packetize]
  cases hlayout : layout frame.data.length pk.parityPermille pk.maxPayload with
  | error e => exact Or.inl ⟨e, rfl⟩
  | ok l =>
      refine Or.inr ?_
      have hfits := layout_fits hlayout
      have hmost : maxDataFragments = 32768 := rfl
      have hfew := hfits.few_data
      have hprefix := hfits.holds_prefix
      have hpre : framePrefixBytes = 28 := rfl
      have hopening : (pk.framePrefix frame).asBytes.length ≤ l.shardBytes := by
        rw [FramePrefix.asBytes_length]
        exact hprefix
      have hflags : (pk.mediaHeader frame l sendMsLo).flags =
          frameFlags frame pk.previousDiscardable := rfl
      simp only [hflags, hdiscardable]
      have hlength := cutShards_length l.shardBytes l.dataCount.toNat
        (pk.framePrefix frame).asBytes frame.data
      have hshard : ∀ s ∈ cutShards l.shardBytes l.dataCount.toNat
          (pk.framePrefix frame).asBytes frame.data, s.length = l.shardBytes :=
        fun s hs => length_of_mem_cutShards hopening hs
      generalize cutShards l.shardBytes l.dataCount.toNat (pk.framePrefix frame).asBytes
        frame.data = shards at hlength hshard ⊢
      have hdata : ∀ kind, (datagrams (pk.mediaHeader frame l sendMsLo) kind 0 shards).length =
          l.dataCount.toNat := by
        intro kind
        rw [datagrams, List.length_map, List.length_zipIdx, hlength]
      have hheaded : ∀ i d, (datagrams (pk.mediaHeader frame l sendMsLo) .videoData 0
          shards)[i]? = some d →
            Headed pk.nextFrame (frameFlags frame pk.previousDiscardable) i d := by
        intro i d hd
        have := headed_datagrams rfl .videoData (by omega) hd
        rwa [Nat.zero_add] at this
      split
      · refine ⟨_, _, ?_, rfl⟩
        refine ⟨rfl, ?_, ?_, hdata _, hheaded⟩
        · rw [List.flatten_singleton]
        · rw [List.take_of_length_le (by rw [hdata])]
          rfl
      · rename_i hparity
        have hbyte := l.parityCount.toNat_lt
        have hpositive : 0 < l.parityCount.toNat :=
          Nat.pos_of_ne_zero fun h => hparity (UInt8.toNat_inj.mp h)
        have hmaxparity : maxParityFragments = 255 := rfl
        obtain ⟨recovery, hrecovery⟩ := hrs.encodes l.dataCount.toNat l.parityCount.toNat
          l.shardBytes shards hfits.some_data hfew hpositive (by omega) (by omega) hfits.even
          hlength hshard
        have hcount := hrs.encode_length _ _ _ _ _ hrecovery
        rw [hrecovery]
        refine ⟨_, _, ?_, rfl⟩
        refine ⟨rfl, ?_, ?_, hdata _, ?_⟩
        · rw [List.flatten_cons, List.flatten_singleton]
        · simp only
          rw [List.take_left' (hdata _)]
          rfl
        · intro i d hd
          by_cases hi : i < l.dataCount.toNat
          · rw [List.getElem?_append_left (by rwa [hdata])] at hd
            exact hheaded i d hd
          · rw [List.getElem?_append_right (by rw [hdata]; omega), hdata] at hd
            have := headed_datagrams rfl .videoParity (by omega) hd
            rwa [Nat.add_sub_cancel' (by omega)] at this

/-- Whether the frame cut before the `k`th was sent discardable. -/
def previousOf (log : List Cutting) : Nat → Bool
  | 0 => false
  | k + 1 => (log[k]?).any fun c => sentDiscardable c.frame

/-- The packetizer's state against every frame it has cut. -/
structure Kept (s : Sender) : Prop where
  history : s.packetizer.history =
    (s.log.drop (s.log.length - historyFrames)).map Cutting.sent
  number : s.packetizer.nextFrame = UInt32.ofNat s.log.length
  previous : s.packetizer.previousDiscardable = previousOf s.log s.log.length
  cut : ∀ k c, s.log[k]? = some c →
    CutAs c.frame (UInt32.ofNat k) (previousOf s.log k) c.shipped c.sent

theorem previousOf_append (log after : List Cutting) {k : Nat} (h : k ≤ log.length) :
    previousOf (log ++ after) k = previousOf log k := by
  cases k with
  | zero => rfl
  | succ k => rw [previousOf, previousOf, List.getElem?_append_left h]

theorem Kept.new (stream : UInt32) : Kept (Sender.new stream) :=
  ⟨rfl, rfl, rfl, fun _ _ h => absurd h nofun⟩

theorem Kept.step (hrs : Supports rs) {s : Sender} (h : Kept s) (op : Op) :
    Kept (s.step rs op) := by
  cases op with
  | packetize frame sendMsLo =>
      rcases packetize_cases hrs s.packetizer frame sendMsLo with ⟨e, hcut⟩ |
        ⟨shipped, sent, hmade, hcut⟩
      · simp only [Sender.step, hcut]
        exact h
      · simp only [Sender.step, hcut]
        have hlast : (s.log ++ [⟨frame, shipped, sent⟩])[s.log.length]? =
            some ⟨frame, shipped, sent⟩ := List.getElem?_concat_length
        refine ⟨?_, ?_, ?_, ?_⟩
        · have hlen : s.packetizer.history.length = min historyFrames s.log.length := by
            rw [h.history, List.length_map, List.length_drop]
            omega
          simp only [Packetizer.remember, List.length_append, List.length_singleton]
          split
          · rename_i hfull
            rw [hlen] at hfull
            have hdrop : s.log.length + 1 - historyFrames =
                (s.log.length - historyFrames) + 1 := by omega
            rw [h.history, hdrop, List.drop_append_of_le_length (by
              have : historyFrames = 32 := rfl
              omega), List.map_append, ← List.map_drop, List.drop_drop]
            rfl
          · rename_i hroom
            rw [hlen] at hroom
            have hzero : s.log.length - historyFrames = 0 := by omega
            have hzero' : s.log.length + 1 - historyFrames = 0 := by omega
            rw [h.history, hzero, hzero', List.drop_zero, List.drop_zero, List.map_append]
            rfl
        · simp only [Packetizer.remember, List.length_append, List.length_singleton, h.number]
          rw [← UInt32.ofNat_one, ← UInt32.ofNat_add]
        · simp only [Packetizer.remember, List.length_append, List.length_singleton]
          rw [previousOf, hlast]
          rfl
        · intro k c hc
          rcases Nat.lt_or_ge k s.log.length with hlt | hge
          · rw [List.getElem?_append_left hlt] at hc
            rw [previousOf_append _ _ hlt.le]
            exact h.cut k c hc
          · have hk : k = s.log.length := by
              have := (List.getElem?_eq_some_iff.mp hc).1
              rw [List.length_append, List.length_singleton] at this
              omega
            subst hk
            obtain rfl := Option.some.inj (hlast.symm.trans hc)
            rw [previousOf_append _ _ (le_refl _), ← h.previous, ← h.number]
            exact hmade
  | retransmit number fragments =>
      have hsame : ∃ n, (s.packetizer.retransmit number fragments).1 =
          { s.packetizer with datagramsSent := n } := by
        rw [Packetizer.retransmit]
        split
        · exact ⟨s.packetizer.datagramsSent, rfl⟩
        · exact ⟨_, rfl⟩
      obtain ⟨n, hn⟩ := hsame
      simp only [Sender.step, hn]
      exact ⟨h.history, h.number, h.previous, h.cut⟩
  | setParityPermille permille => exact ⟨h.history, h.number, h.previous, h.cut⟩
  | setMaxDatagram bytes => exact ⟨h.history, h.number, h.previous, h.cut⟩
  | setBuild build => exact ⟨h.history, h.number, h.previous, h.cut⟩

theorem kept_run (hrs : Supports rs) (stream : UInt32) (ops : List Op) :
    Kept (Sender.run rs stream ops) :=
  List.foldlRecOn ops _ (Kept.new stream) fun _ h op _ => h.step hrs op

theorem ofNat_ne_ofNat {j k : Nat} (hlt : j < k) (hnear : k < j + 2 ^ 32) :
    UInt32.ofNat j ≠ UInt32.ofNat k := by
  intro h
  have := congrArg UInt32.toNat h
  rw [UInt32.toNat_ofNat', UInt32.toNat_ofNat'] at this
  omega

theorem Kept.find_recent {s : Sender} (h : Kept s) {k : Nat} {c : Cutting}
    (hc : s.log[k]? = some c) (hrecent : s.log.length ≤ k + historyFrames) :
    (s.packetizer.history.find? fun t => t.frame == UInt32.ofNat k) = some c.sent := by
  have hk := (List.getElem?_eq_some_iff.mp hc).1
  have hplace : ∀ j, s.packetizer.history[j]? =
      (s.log[s.log.length - historyFrames + j]?).map Cutting.sent := by
    intro j
    rw [h.history, List.getElem?_map, List.getElem?_drop]
  have hhistory : historyFrames = 32 := rfl
  have hfound : s.packetizer.history[k - (s.log.length - historyFrames)]? = some c.sent := by
    rw [hplace, Nat.add_sub_cancel' (by omega), hc]
    rfl
  obtain ⟨hlt, hat⟩ := List.getElem?_eq_some_iff.mp hfound
  rw [List.find?_eq_some_iff_getElem]
  refine ⟨beq_iff_eq.mpr (h.cut k c hc).named, _, hlt, hat, fun j hj => ?_⟩
  have hj' : s.packetizer.history[j]? = some s.packetizer.history[j] :=
    List.getElem?_eq_getElem (hj.trans hlt)
  rw [hplace] at hj'
  obtain ⟨b, hb, hsent⟩ := Option.map_eq_some_iff.mp hj'
  have hne := ofNat_ne_ofNat (j := s.log.length - historyFrames + j) (k := k) (by omega) (by omega)
  rw [← hsent, (h.cut _ b hb).named]
  simpa using hne

theorem Kept.find_past {s : Sender} (h : Kept s) {number : UInt32}
    (hpast : ∀ k < s.log.length, s.log.length ≤ k + historyFrames → UInt32.ofNat k ≠ number) :
    (s.packetizer.history.find? fun t => t.frame == number) = none := by
  rw [List.find?_eq_none]
  intro t ht heq
  obtain ⟨j, hj⟩ := List.mem_iff_getElem?.mp ht
  rw [h.history, List.getElem?_map, List.getElem?_drop] at hj
  obtain ⟨c, hc, rfl⟩ := Option.map_eq_some_iff.mp hj
  have hlt := (List.getElem?_eq_some_iff.mp hc).1
  exact hpast _ hlt (by omega) ((h.cut _ c hc).named.symm.trans (beq_iff_eq.mp heq))

theorem Kept.retransmit_recent {s : Sender} (h : Kept s) {k : Nat} {c : Cutting}
    (hc : s.log[k]? = some c) (hrecent : s.log.length ≤ k + historyFrames)
    (fragments : List UInt16) :
    (s.packetizer.retransmit (UInt32.ofNat k) fragments).2 =
      (if fragments = [] then c.data
        else fragments.filterMap fun i => c.data[i.toNat]?).map retransmission := by
  have hcut := h.cut k c hc
  rw [Packetizer.retransmit, h.find_recent hc hrecent]
  simp only [← hcut.data]
  split
  · rfl
  · rw [List.filterMap_filter, List.filterMap_map]
    refine congrArg _ (List.filterMap_congr fun i _ => ?_)
    rw [Cutting.data, hcut.data, List.getElem?_take]
    simp

/-- Over any run: a frame of the last 32 is answered with the data datagrams that were sent for
the fragments asked for, or every one where none is named, with the retransmit flag added and
nothing else changed; any other number is answered with nothing; a frame that is refused leaves
the packetizer as it was; and a frame says of the one cut before it whether that was sent
discardable. -/
theorem repair_of_run {rs : ReedSolomon} (hrs : Supports rs) (stream : UInt32) (ops : List Op) :
    let s := Sender.run rs stream ops
    (∀ k c, s.log[k]? = some c →
      (s.log.length ≤ k + historyFrames → ∀ fragments,
        (s.packetizer.retransmit (UInt32.ofNat k) fragments).2 =
          (if fragments = [] then c.data
            else fragments.filterMap fun i => c.data[i.toNat]?).map retransmission) ∧
      c.data <+: c.datagrams ∧
      ∀ i d, c.datagrams[i]? = some d →
        ∃ (header : MediaHeader) (payload : Bytes), d = header.asBytes ++ payload ∧
          header.frame = UInt32.ofNat k ∧ header.index.toNat = i ∧
          hasFlag header.flags Flags.retransmit = false ∧
          retransmission d =
            { header with flags := header.flags ||| Flags.retransmit : MediaHeader }.asBytes ++
              payload ∧
          hasFlag header.flags Flags.discardable = sentDiscardable c.frame ∧
          hasFlag header.flags Flags.prevDiscardable = previousOf s.log k) ∧
    (∀ number, (∀ k < s.log.length, s.log.length ≤ k + historyFrames →
        UInt32.ofNat k ≠ number) →
      ∀ fragments, (s.packetizer.retransmit number fragments).2 = []) ∧
    ∀ frame sendMsLo e, (s.packetizer.packetize rs frame sendMsLo).result = .error e →
      (s.packetizer.packetize rs frame sendMsLo).packetizer = s.packetizer := by
  intro s
  have h : Kept s := kept_run hrs stream ops
  refine ⟨fun k c hc => ⟨fun hrecent => h.retransmit_recent hc hrecent, ?_, ?_⟩, ?_, ?_⟩
  · have hcut := h.cut k c hc
    rw [Cutting.data, hcut.data, Cutting.datagrams, ← hcut.datagrams]
    exact List.take_prefix _ _
  · intro i d hd
    have hcut := h.cut k c hc
    rw [Cutting.datagrams, ← hcut.datagrams] at hd
    obtain ⟨header, payload, rfl, -, hnumber, hindex, hflags⟩ := hcut.headed i d hd
    obtain ⟨hdiscardable, hprevious, hretransmit⟩ :=
      flags_frameFlags c.frame (previousOf s.log k)
    rw [← hflags] at hdiscardable hprevious hretransmit
    exact ⟨header, payload, rfl, hnumber, hindex, hretransmit,
      retransmission_asBytes header payload, hdiscardable, hprevious⟩
  · intro number hpast fragments
    rw [Packetizer.retransmit, h.find_past hpast]
  · intro frame sendMsLo e he
    rcases packetize_cases hrs s.packetizer frame sendMsLo with ⟨e', hcut⟩ | ⟨_, _, -, hcut⟩
    · rw [hcut]
    · rw [hcut] at he
      exact absurd he nofun

/-- An engine whose parity shards are copies of the first data shard, as they are of a frame of
one shard. -/
def repeats : ReedSolomon where
  encode := fun _ parityCount _ shards => some (List.replicate parityCount (shards.headD []))
  decode := fun _ _ _ _ _ => none

theorem repeats_supports : Supports repeats where
  encodes := fun _ _ _ _ _ _ _ _ _ _ _ _ => ⟨_, rfl⟩
  encode_length := by
    intro _ parityCount _ shards parity h
    obtain rfl := Option.some.inj h
    exact List.length_replicate

def oneByte : EncodedFrame where
  data := [42]
  keyframe := false
  ltrToken := none
  ltrRefresh := false
  discardable := true
  captureTsUs := 5
  stripes := 0
  region := none

theorem repair_of_run_oneByte :
    ∃ c, (Sender.run repeats 9 [.packetize oneByte 1]).log[0]? = some c ∧
      ((Sender.run repeats 9 [.packetize oneByte 1]).packetizer.retransmit 0 [0]).2 =
        (([0] : List UInt16).filterMap fun i => c.data[i.toNat]?).map retransmission := by
  have hrun := (repair_of_run repeats_supports 9 [.packetize oneByte 1]).1 0 _ rfl
  exact ⟨_, rfl, hrun.1 (by decide) [0]⟩

/-- A parity datagram was sent, and is not sent again; every data fragment is where none is
named. -/
theorem parity_not_repeated :
    (∃ c d, (Sender.run repeats 9 [.packetize oneByte 1]).log = [c] ∧
      c.datagrams[1]? = some d ∧ Headed 0 Flags.discardable 1 d) ∧
      ((Sender.run repeats 9 [.packetize oneByte 1]).packetizer.retransmit 0 [1]).2 = [] ∧
      ((Sender.run repeats 9 [.packetize oneByte 1]).packetizer.retransmit 0 []).2 ≠ [] := by
  refine ⟨?_, by decide, by decide⟩
  have h := kept_run repeats_supports 9 [.packetize oneByte 1]
  have hcut := h.cut 0 _ rfl
  have hsecond : ∃ d, (((Sender.run repeats 9 [.packetize oneByte 1]).log.flatMap
      Cutting.datagrams)[1]?) = some d := ⟨_, rfl⟩
  obtain ⟨d, hd⟩ := hsecond
  refine ⟨_, d, rfl, hd, hcut.headed 1 d ?_⟩
  rw [hcut.datagrams]
  exact hd

end Slopty.Media.Packetize
