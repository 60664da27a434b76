import Slopty.Media.Wire

/-!
The audio datagram: one Opus packet, and the packets before it carried again.
-/

namespace Slopty.Media.Audio

open Slopty.Lib Slopty.Media.Wire

/-- Most earlier packets an audio datagram carries again. -/
def maxAudioCopies : Nat := 2

def copyLength : Nat := 2

def beBytes (n : Nat) : Bytes := [UInt8.ofNat (n / 256), UInt8.ofNat n]

def ofBe (hi lo : UInt8) : Nat := hi.toNat * 256 + lo.toNat

theorem ofBe_beBytes (n : Nat) (h : n < 65536) :
    ofBe (UInt8.ofNat (n / 256)) (UInt8.ofNat n) = n := by
  simp only [ofBe, UInt8.toNat_ofNat']
  omega

theorem beBytes_ofBe (hi lo : UInt8) : beBytes (ofBe hi lo) = [hi, lo] := by
  have hhi := hi.toNat_lt
  have hlo := lo.toNat_lt
  have hdiv : ofBe hi lo / 256 = hi.toNat := by
    unfold ofBe
    omega
  have hmod : ofBe hi lo % 256 = lo.toNat := by
    unfold ofBe
    omega
  have hlow : UInt8.ofNat (ofBe hi lo) = lo := by
    apply UInt8.toNat_inj.mp
    rw [UInt8.toNat_ofNat']
    exact hmod
  rw [beBytes, hdiv, hlow, UInt8.ofNat_toNat]

def putCopy (copy : Bytes) : Bytes := beBytes (min copy.length 65535) ++ copy

@[simp] theorem putCopy_length (copy : Bytes) :
    (putCopy copy).length = copyLength + copy.length := by
  simp [putCopy, beBytes, copyLength]
  omega

/-- The copies taken while they fit: a packet that is empty or does not fit
leaves off the ones past it. -/
def fitting (size : Nat) : List Bytes → List Bytes
  | [] => []
  | copy :: rest =>
      if copy ≠ [] ∧ size + copyLength + copy.length ≤ maxPayload then
        copy :: fitting (size + copyLength + copy.length) rest
      else []

def audioHeader (stream seq : UInt32) (sendMsLo : UInt8) (dataCount : UInt16) : MediaHeader where
  channel := channelMedia
  stream := stream
  frame := seq
  index := 0
  dataCount := dataCount
  parityCount := 0
  kind := Kind.audio.toUInt8
  flags := 0
  sendMsLo := sendMsLo

/-- One Opus packet as a datagram, carrying `earlier` again, nearest first;
`none` when the packet itself does not fit. -/
def audioDatagram (stream seq : UInt32) (sendMsLo : UInt8) (opus : Bytes)
    (earlier : List Bytes) : Option Bytes :=
  if maxPayload < opus.length then none
  else
    let copies := (fitting opus.length (earlier.take maxAudioCopies)).length
    let header := audioHeader stream seq sendMsLo (UInt16.ofNat (copies + 1))
    some (header.asBytes ++ ((earlier.take copies).flatMap putCopy ++ opus))

/-- An audio datagram's packets: `earlier[0]` is the one before `packet`. -/
structure AudioPackets where
  packet : Bytes
  earlier : Vector (Option Bytes) maxAudioCopies
  deriving DecidableEq

def AudioPackets.of (packet : Bytes) (copies : List Bytes) : AudioPackets where
  packet := packet
  earlier := Vector.ofFn fun i => copies[i.val]?

def AudioPackets.copies (p : AudioPackets) : List Bytes :=
  p.earlier.toList.filterMap id

/-- `count` copies off the front of a payload, and what is behind them. -/
def takeCopies : Nat → Bytes → Option (List Bytes × Bytes)
  | 0, payload => some ([], payload)
  | count + 1, hi :: lo :: behind =>
      if ofBe hi lo = 0 ∨ behind.length < ofBe hi lo then none
      else (takeCopies count (behind.drop (ofBe hi lo))).map fun (copies, rest) =>
        (behind.take (ofBe hi lo) :: copies, rest)
  | _ + 1, _ => none

/-- Split an audio datagram's payload by its header's `data_count`. -/
def parseAudio (dataCount : UInt16) (payload : Bytes) : Option AudioPackets :=
  if dataCount = 0 ∨ maxAudioCopies < dataCount.toNat - 1 then none
  else
    match takeCopies (dataCount.toNat - 1) payload with
    | none => none
    | some (copies, packet) => if packet = [] then none else some (.of packet copies)

/-- What the far end reads from a datagram: its number, and its packets. -/
def heard (datagram : Bytes) : Option (UInt32 × AudioPackets) :=
  match MediaHeader.parse datagram with
  | none => none
  | some (header, payload) =>
      (parseAudio header.dataCount payload).map fun packets => (header.frame, packets)

/-- The payload bytes of a packet with copies ahead of it. -/
def carried (packet : Bytes) (copies : List Bytes) : Nat :=
  packet.length + (copies.map fun copy => copyLength + copy.length).sum

@[simp] theorem carried_nil (packet : Bytes) : carried packet [] = packet.length := rfl

theorem flatMap_putCopy_length (copies : List Bytes) (packet : Bytes) :
    (copies.flatMap putCopy ++ packet).length = carried packet copies := by
  simp [carried, List.length_flatMap, Nat.add_comm]

/-- Copies within the size limit and the copy limit. -/
structure Fits (packet : Bytes) (copies : List Bytes) : Prop where
  size : carried packet copies ≤ maxPayload
  count : copies.length ≤ maxAudioCopies

/-- The longest run of `earlier` that has `P`. -/
structure LongestPrefix (P : List Bytes → Prop) (earlier copies : List Bytes) : Prop where
  start : copies <+: earlier
  holds : P copies
  longest : ∀ other, other <+: earlier → P other → other.length ≤ copies.length

theorem fitting_isPrefix (size : Nat) (earlier : List Bytes) : fitting size earlier <+: earlier := by
  induction earlier generalizing size with
  | nil => exact List.prefix_rfl
  | cons copy rest ih =>
      unfold fitting
      split
      · exact List.prefix_cons_inj copy |>.mpr (ih _)
      · exact List.nil_prefix

theorem ne_nil_of_mem_fitting (size : Nat) (earlier : List Bytes) :
    ∀ copy ∈ fitting size earlier, copy ≠ [] := by
  induction earlier generalizing size with
  | nil => exact nofun
  | cons copy rest ih =>
      unfold fitting
      split
      · rename_i h
        intro other hother
        rcases List.mem_cons.mp hother with rfl | hin
        · exact h.1
        · exact ih _ other hin
      · exact nofun

theorem fitting_size (size : Nat) (earlier : List Bytes) (h : size ≤ maxPayload) :
    size + ((fitting size earlier).map fun copy => copyLength + copy.length).sum ≤ maxPayload := by
  induction earlier generalizing size with
  | nil => simpa [fitting] using h
  | cons copy rest ih =>
      unfold fitting
      split
      · rename_i hfit
        have := ih _ hfit.2
        simp only [List.map_cons, List.sum_cons]
        omega
      · simpa using h

/-- A run of non-empty packets within the size limit is no longer than what the
copies were counted to. -/
theorem length_le_fitting (size : Nat) (earlier other : List Bytes) (hstart : other <+: earlier)
    (hfull : ∀ copy ∈ other, copy ≠ [])
    (hsize : size + (other.map fun copy => copyLength + copy.length).sum ≤ maxPayload) :
    other.length ≤ (fitting size earlier).length := by
  induction other generalizing size earlier with
  | nil => exact Nat.zero_le _
  | cons copy other ih =>
      obtain ⟨behind, rfl⟩ := hstart
      simp only [List.map_cons, List.sum_cons] at hsize
      have hcopy : copy ≠ [] ∧ size + copyLength + copy.length ≤ maxPayload :=
        ⟨hfull copy List.mem_cons_self, by omega⟩
      have hrest := ih (size + copyLength + copy.length) (other ++ behind) ⟨behind, rfl⟩
        (fun c hc => hfull c (List.mem_cons_of_mem _ hc)) (by omega)
      simp only [List.cons_append, fitting, if_pos hcopy, List.length_cons]
      omega

theorem takeCopies_putCopy (copies : List Bytes) (packet : Bytes)
    (hfull : ∀ copy ∈ copies, copy ≠ []) (hshort : ∀ copy ∈ copies, copy.length < 65536) :
    takeCopies copies.length (copies.flatMap putCopy ++ packet) = some (copies, packet) := by
  induction copies with
  | nil => rfl
  | cons copy rest ih =>
      have hlen : ofBe (UInt8.ofNat (copy.length / 256)) (UInt8.ofNat copy.length) = copy.length :=
        ofBe_beBytes _ (hshort copy List.mem_cons_self)
      have hmin : min copy.length 65535 = copy.length := by
        have := hshort copy List.mem_cons_self
        omega
      have hpos : copy.length ≠ 0 := by
        simpa using hfull copy List.mem_cons_self
      have hrest := ih (fun c hc => hfull c (List.mem_cons_of_mem _ hc))
        (fun c hc => hshort c (List.mem_cons_of_mem _ hc))
      simp only [List.flatMap_cons, putCopy, hmin, beBytes, List.cons_append, List.nil_append,
        List.append_assoc, List.length_cons, takeCopies, hlen]
      rw [if_neg (by simp [hpos])]
      simp [hrest]

/-- Taken copies are what the payload begins with, in their written form. -/
theorem takeCopies_eq_some {count : Nat} {payload packet : Bytes} {copies : List Bytes}
    (h : takeCopies count payload = some (copies, packet)) :
    copies.length = count ∧ payload = copies.flatMap putCopy ++ packet ∧
      ∀ copy ∈ copies, copy ≠ [] := by
  induction count, payload using takeCopies.induct generalizing copies with
  | case1 payload =>
      cases h
      exact ⟨rfl, rfl, nofun⟩
  | case2 count hi lo behind hbad =>
      rw [takeCopies, if_pos hbad] at h
      cases h
  | case3 count hi lo behind hgood ih =>
      rw [takeCopies, if_neg hgood] at h
      obtain ⟨⟨later, rest⟩, hlater, hcopies⟩ := Option.map_eq_some_iff.mp h
      obtain ⟨rfl, rfl⟩ := Prod.ext_iff.mp hcopies
      obtain ⟨hcount, hbytes, hfull⟩ := ih hlater
      have hcut : (behind.take (ofBe hi lo)).length = ofBe hi lo := by
        rw [List.length_take]
        omega
      have hsmall : ofBe hi lo ≤ 65535 := by
        have hhi := hi.toNat_lt
        have hlo := lo.toNat_lt
        unfold ofBe
        omega
      refine ⟨by simp [hcount], ?_, ?_⟩
      · have hput : putCopy (behind.take (ofBe hi lo)) = hi :: lo :: behind.take (ofBe hi lo) := by
          rw [putCopy, hcut, Nat.min_eq_left hsmall, beBytes_ofBe]
          rfl
        rw [List.flatMap_cons, hput, List.append_assoc, ← hbytes]
        simp
      · intro copy hcopy
        rcases List.mem_cons.mp hcopy with rfl | hin
        · intro hnil
          rw [hnil] at hcut
          exact hgood (.inl hcut.symm)
        · exact hfull copy hin
  | case4 count payload hshort =>
      rw [takeCopies] at h
      · cases h
      · exact hshort

/-- The copies a datagram carries. -/
def chosen (packet : Bytes) (earlier : List Bytes) : List Bytes :=
  fitting packet.length (earlier.take maxAudioCopies)

/-- What a datagram can carry: packets within its limits, none of them empty. -/
def Carried (packet : Bytes) (copies : List Bytes) : Prop :=
  Fits packet copies ∧ ∀ copy ∈ copies, copy ≠ []

theorem chosen_longest (packet : Bytes) (earlier : List Bytes) (h : packet.length ≤ maxPayload) :
    LongestPrefix (Carried packet) earlier (chosen packet earlier) where
  start := (fitting_isPrefix _ _).trans (List.take_prefix _ _)
  holds := by
    have hcount := (fitting_isPrefix packet.length (earlier.take maxAudioCopies)).length_le
    rw [List.length_take] at hcount
    exact ⟨⟨fitting_size _ _ h, by unfold chosen; omega⟩, ne_nil_of_mem_fitting _ _⟩
  longest := by
    intro other hstart hother
    refine length_le_fitting _ _ other ?_ hother.2 hother.1.size
    rw [List.prefix_take_iff]
    exact ⟨hstart, hother.1.count⟩

theorem length_lt_of_carried {packet : Bytes} {copies : List Bytes} (h : Carried packet copies) :
    ∀ copy ∈ copies, copy.length < 65536 := by
  intro copy hcopy
  obtain ⟨before, behind, rfl⟩ := List.append_of_mem hcopy
  have hsize := h.1.size
  have hpayload : maxPayload < 65536 := by decide
  simp only [carried, List.map_append, List.map_cons, List.sum_append, List.sum_cons] at hsize
  omega

theorem audioDatagram_eq (stream seq : UInt32) (sendMsLo : UInt8) (packet : Bytes)
    (earlier : List Bytes) (h : packet.length ≤ maxPayload) :
    audioDatagram stream seq sendMsLo packet earlier =
      some ((audioHeader stream seq sendMsLo
          (UInt16.ofNat ((chosen packet earlier).length + 1))).asBytes ++
        ((chosen packet earlier).flatMap putCopy ++ packet)) := by
  have htake : earlier.take (chosen packet earlier).length = chosen packet earlier :=
    (List.prefix_iff_eq_take.mp (chosen_longest packet earlier h).start).symm
  simp only [audioDatagram, if_neg (Nat.not_lt.mpr h)]
  rw [← chosen, htake]

theorem parseAudio_flatMap (packet : Bytes) (copies : List Bytes) (hpacket : packet ≠ [])
    (h : Carried packet copies) :
    parseAudio (UInt16.ofNat (copies.length + 1)) (copies.flatMap putCopy ++ packet) =
      some (.of packet copies) := by
  have hcount : copies.length ≤ 2 := h.1.count
  have hnat : (UInt16.ofNat (copies.length + 1)).toNat = copies.length + 1 := by
    rw [UInt16.toNat_ofNat']
    omega
  have hne : UInt16.ofNat (copies.length + 1) ≠ 0 := by
    intro hzero
    rw [hzero] at hnat
    exact absurd hnat nofun
  have hgo : ¬ (UInt16.ofNat (copies.length + 1) = 0 ∨
      maxAudioCopies < (UInt16.ofNat (copies.length + 1)).toNat - 1) := by
    rw [hnat]
    simp only [hne, false_or, Nat.not_lt]
    exact h.1.count
  rw [parseAudio, if_neg hgo, hnat, Nat.add_sub_cancel,
    takeCopies_putCopy copies packet h.2 (length_lt_of_carried h)]
  simp [hpacket]

theorem heard_datagram (stream seq : UInt32) (sendMsLo : UInt8) (packet : Bytes)
    (earlier : List Bytes) (hpacket : packet ≠ []) (h : packet.length ≤ maxPayload) :
    (audioDatagram stream seq sendMsLo packet earlier).bind heard =
      some (seq, .of packet (chosen packet earlier)) := by
  rw [audioDatagram_eq stream seq sendMsLo packet earlier h]
  simp only [Option.bind_some, heard]
  rw [MediaHeader.parse_asBytes_append _ _ rfl]
  simp only [audioHeader]
  rw [parseAudio_flatMap packet _ hpacket (chosen_longest packet earlier h).holds]
  rfl

theorem copies_of (packet : Bytes) (copies : List Bytes) (h : copies.length ≤ maxAudioCopies) :
    (AudioPackets.of packet copies).copies = copies := by
  match copies, h with
  | [], _ => rfl
  | [_], _ => rfl
  | [_, _], _ => rfl

theorem parseAudio_eq_some {dataCount : UInt16} {payload : Bytes} {packets : AudioPackets}
    (h : parseAudio dataCount payload = some packets) :
    packets.packet ≠ [] ∧ packets.copies.length ≤ maxAudioCopies ∧
      dataCount = UInt16.ofNat (packets.copies.length + 1) ∧
      (∀ copy ∈ packets.copies, copy ≠ []) ∧
      payload = packets.copies.flatMap putCopy ++ packets.packet := by
  unfold parseAudio at h
  split at h
  · cases h
  · rename_i hgo
    split at h
    · cases h
    · rename_i copies packet htaken
      split at h
      · cases h
      · rename_i hpacket
        cases h
        obtain ⟨hcount, hbytes, hfull⟩ := takeCopies_eq_some htaken
        simp only [not_or, Nat.not_lt] at hgo
        have hfew : copies.length ≤ maxAudioCopies := by
          rw [hcount]
          exact hgo.2
        rw [copies_of packet copies hfew]
        refine ⟨hpacket, hfew, ?_, hfull, hbytes⟩
        have hpos : dataCount.toNat ≠ 0 := by
          intro hzero
          exact hgo.1 (UInt16.toNat_inj.mp hzero)
        have hone : copies.length + 1 = dataCount.toNat := by
          omega
        rw [hone, UInt16.ofNat_toNat]

/-- Packets that fill a payload to its last byte are all carried again. -/
theorem chosen_eq_self {packet : Bytes} {copies : List Bytes} (h : Carried packet copies) :
    chosen packet copies = copies := by
  have hpacket : packet.length ≤ maxPayload := by
    have hsize := h.1.size
    unfold carried at hsize
    omega
  have hlongest := chosen_longest packet copies hpacket
  exact hlongest.start.eq_of_length_le (hlongest.longest copies List.prefix_rfl h)

/-- A packet reads back with the longest run of the earlier ones that its
datagram can carry, and an accepted payload is written again as it was, unless
it is longer than a datagram's. -/
theorem audio_round_trip :
    (∀ stream seq sendMsLo packet earlier, packet ≠ [] → packet.length ≤ maxPayload →
      ∃ copies, LongestPrefix (Carried packet) earlier copies ∧
        (audioDatagram stream seq sendMsLo packet earlier).bind heard =
          some (seq, .of packet copies)) ∧
    (∀ stream seq sendMsLo packet earlier, maxPayload < packet.length →
      audioDatagram stream seq sendMsLo packet earlier = none) ∧
    ∀ stream seq sendMsLo dataCount payload packets, parseAudio dataCount payload = some packets →
      (audioDatagram stream seq sendMsLo packets.packet packets.copies =
          some ((audioHeader stream seq sendMsLo dataCount).asBytes ++ payload) ↔
        payload.length ≤ maxPayload) := by
  refine ⟨?_, ?_, ?_⟩
  · intro stream seq sendMsLo packet earlier hpacket hlen
    exact ⟨chosen packet earlier, chosen_longest packet earlier hlen,
      heard_datagram stream seq sendMsLo packet earlier hpacket hlen⟩
  · intro stream seq sendMsLo packet earlier hlen
    rw [audioDatagram, if_pos hlen]
  · intro stream seq sendMsLo dataCount payload packets hparse
    obtain ⟨hpacket, hfew, hcount, hfull, hbytes⟩ := parseAudio_eq_some hparse
    have hlen : payload.length = carried packets.packet packets.copies := by
      rw [← flatMap_putCopy_length, ← hbytes]
    constructor
    · intro hsame
      have hfits : packets.packet.length ≤ maxPayload := by
        by_contra hlong
        rw [audioDatagram, if_pos (Nat.not_le.mp hlong)] at hsame
        cases hsame
      rw [audioDatagram_eq stream seq sendMsLo _ _ hfits, Option.some_inj] at hsame
      have hsizes := congrArg List.length hsame
      have hsize := (chosen_longest packets.packet packets.copies hfits).holds.1.size
      rw [← flatMap_putCopy_length] at hsize
      simp only [List.length_append, MediaHeader.asBytes_length] at hsizes hsize
      omega
    · intro hshort
      rw [hlen] at hshort
      have hcarried : Carried packets.packet packets.copies := ⟨⟨hshort, hfew⟩, hfull⟩
      have hfits : packets.packet.length ≤ maxPayload := by
        unfold carried at hshort
        omega
      rw [audioDatagram_eq stream seq sendMsLo _ _ hfits, chosen_eq_self hcarried, ← hcount,
        ← hbytes]

/-- A packet behind one that went empty, and the payload that reads as it. -/
theorem audio_round_trip_past_empty :
    (∃ copies, LongestPrefix (Carried [9]) [[8], [], [7]] copies ∧
      (audioDatagram 1 9 0 [9] [[8], [], [7]]).bind heard = some (9, .of [9] copies)) ∧
    audioDatagram 1 9 0 (List.replicate 1183 9) [] = none ∧
    audioDatagram 1 9 0 [9] (AudioPackets.of [9] [[5]]).copies =
      some ((audioHeader 1 9 0 2).asBytes ++ [0, 1, 5, 9]) :=
  ⟨audio_round_trip.1 1 9 0 [9] [[8], [], [7]] nofun (by decide),
    audio_round_trip.2.1 1 9 0 _ [] (by rw [List.length_replicate]; decide),
    (audio_round_trip.2.2 1 9 0 2 [0, 1, 5, 9] (.of [9] [[5]]) (by decide)).mpr (by decide)⟩

theorem parseAudio_alone (packet : Bytes) (h : packet ≠ []) :
    parseAudio 1 packet = some (.of packet []) := by
  simp [parseAudio, takeCopies, h]

/-- An empty packet ends the copies though it fits the limits, a packet longer
than a payload has no datagram, and one read from such a payload has none
either. -/
theorem audio_copies_end_at_empty :
    ¬ (∀ stream seq sendMsLo packet earlier, packet ≠ [] →
        ∃ copies, LongestPrefix (Fits packet) earlier copies ∧
          (audioDatagram stream seq sendMsLo packet earlier).bind heard =
            some (seq, .of packet copies)) ∧
      ¬ ∀ stream seq sendMsLo dataCount payload packets,
        parseAudio dataCount payload = some packets →
          audioDatagram stream seq sendMsLo packets.packet packets.copies =
            some ((audioHeader stream seq sendMsLo dataCount).asBytes ++ payload) := by
  constructor
  · intro hread
    obtain ⟨copies, hlongest, hheard⟩ := hread 1 9 0 [9] [[], [7]] nofun
    have hnone : (audioDatagram 1 9 0 [9] [[], [7]]).bind heard = some (9, .of [9] []) := by
      decide
    have htwo := hlongest.longest [[], [7]] List.prefix_rfl ⟨by decide, by decide⟩
    rw [hnone] at hheard
    have hcopies : (AudioPackets.of [9] []).copies = (AudioPackets.of [9] copies).copies :=
      congrArg AudioPackets.copies (Prod.ext_iff.mp (Option.some_inj.mp hheard)).2
    rw [copies_of _ copies hlongest.holds.count] at hcopies
    rw [← hcopies] at htwo
    exact absurd htwo (by decide)
  · intro hwritten
    have hread := parseAudio_alone (List.replicate 1183 9)
      (List.cons_ne_nil 9 (List.replicate 1182 9))
    have hwrite := hwritten 1 9 0 1 _ _ hread
    rw [audioDatagram, if_pos (by rw [AudioPackets.of, List.length_replicate]; decide)] at hwrite
    cases hwrite

end Slopty.Media.Audio
