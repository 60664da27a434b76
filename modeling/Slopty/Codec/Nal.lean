import Slopty.Lib.Machine
import Mathlib.Data.List.TakeWhile

/-!
Framing of NAL units: an access unit is its units one after another, each behind its length in
four bytes, most significant first. A keyframe carries its parameter sets in front, as units of
their own.
-/

namespace Slopty.Codec.Nal

open Slopty.Lib

inductive CodecError where
  | malformedNal (offset : Nat)
  deriving DecidableEq, Repr

/-- The 4-byte length in front of a NAL unit. -/
def prefixBytes : Nat := 4

def lengthBytes (len : Nat) : Bytes := (leBytes prefixBytes len).reverse

/-- The number that a length's bytes spell. -/
def lengthOf (bytes : Bytes) : Nat := ofLe bytes.reverse

/-- The first unit and what follows it; `none` at the end, an error for a length that runs past
it, a tail too short for a length, or a unit of no bytes. -/
def splitFirst (bytes : Bytes) : Except Unit (Option (Bytes × Bytes)) :=
  if bytes = [] then .ok none
  else if bytes.length < prefixBytes then .error ()
  else
    let len := lengthOf (bytes.take prefixBytes)
    let rest := bytes.drop prefixBytes
    if len = 0 then .error ()
    else if rest.length < len then .error ()
    else .ok (some (rest.take len, rest.drop len))

def unitsWith : Nat → Bytes → List Bytes
  | 0, _ => []
  | fuel + 1, rest =>
      match splitFirst rest with
      | .ok (some (unit, next)) => unit :: unitsWith fuel next
      | _ => []

/-- The NAL units of an access unit, without their lengths. The walk stops at a length that runs
past the end. -/
def units (accessUnit : Bytes) : List Bytes := unitsWith (accessUnit.length + 1) accessUnit

def checkWith (total : Nat) : Nat → Bytes → Except CodecError Unit
  | 0, _ => .ok ()
  | fuel + 1, rest =>
      let offset := total - rest.length
      match splitFirst rest with
      | .ok (some (_, next)) => checkWith total fuel next
      | .ok none => .ok ()
      | .error () => .error (.malformedNal offset)

/-- Whether every length of an access unit lands on the next one and the last on its end. -/
def check (accessUnit : Bytes) : Except CodecError Unit :=
  checkWith accessUnit.length (accessUnit.length + 1) accessUnit

/-- Append a unit behind its length. -/
def push (out nal : Bytes) : Except CodecError Bytes :=
  if nal.length < 2 ^ 32 ∧ nal.length ≠ 0 then .ok (out ++ lengthBytes nal.length ++ nal)
  else .error (.malformedNal out.length)

/-- The parameter sets in front of an access unit, and where the picture's units start. -/
structure AccessUnit where
  parameterSets : List Bytes
  picture : Nat
  deriving DecidableEq, Repr

namespace AccessUnit

def parseWith (isParameterSet : Bytes → Bool) (total : Nat) :
    Nat → Bytes → List Bytes → Option Nat → Except CodecError AccessUnit
  | 0, _, sets, picture => .ok ⟨sets, picture.getD total⟩
  | fuel + 1, rest, sets, picture =>
      let offset := total - rest.length
      match splitFirst rest with
      | .ok (some (unit, next)) =>
          if picture.isNone then
            if isParameterSet unit then
              parseWith isParameterSet total fuel next (sets ++ [unit]) picture
            else parseWith isParameterSet total fuel next sets (some offset)
          else parseWith isParameterSet total fuel next sets picture
      | .ok none => .ok ⟨sets, picture.getD total⟩
      | .error () => .error (.malformedNal offset)

/-- Walk an access unit once. -/
def parse (accessUnit : Bytes) (isParameterSet : Bytes → Bool) : Except CodecError AccessUnit :=
  parseWith isParameterSet accessUnit.length (accessUnit.length + 1) accessUnit [] none

end AccessUnit

/-- A unit that can stand in an access unit. -/
def Fits (unit : Bytes) : Prop := unit ≠ [] ∧ unit.length < 2 ^ 32

/-- A unit behind its length. -/
def framed (unit : Bytes) : Bytes := lengthBytes unit.length ++ unit

/-- Units behind their lengths, end to end. -/
def frames (us : List Bytes) : Bytes := us.flatMap framed

def Wrong (rest : Bytes) : Prop :=
  rest ≠ [] ∧ (rest.length < prefixBytes ∨ lengthOf (rest.take prefixBytes) = 0 ∨
    (rest.drop prefixBytes).length < lengthOf (rest.take prefixBytes))

@[simp] theorem length_lengthBytes (len : Nat) : (lengthBytes len).length = prefixBytes := by
  simp [lengthBytes]

theorem lengthOf_lengthBytes {len : Nat} (h : len < 2 ^ 32) : lengthOf (lengthBytes len) = len := by
  rw [lengthOf, lengthBytes, List.reverse_reverse, ofLe_leBytes]
  exact Nat.mod_eq_of_lt h

theorem ofLe_lt (bytes : Bytes) : ofLe bytes < 256 ^ bytes.length := by
  induction bytes with
  | nil => exact Nat.one_pos
  | cons b rest ih =>
      have hb := b.toNat_lt
      rw [ofLe, List.length_cons, Nat.pow_succ]
      omega

theorem leBytes_ofLe (bytes : Bytes) : leBytes bytes.length (ofLe bytes) = bytes := by
  induction bytes with
  | nil => rfl
  | cons b rest ih =>
      have hb := b.toNat_lt
      have hhigh : (b.toNat + 256 * ofLe rest) / 256 = ofLe rest := by omega
      rw [ofLe, List.length_cons, leBytes, hhigh, ih]
      refine congrArg (fun x => x :: rest) (UInt8.toNat_inj.mp ?_)
      rw [UInt8.toNat_ofNat']
      omega

theorem lengthBytes_lengthOf {bytes : Bytes} (h : bytes.length = prefixBytes) :
    lengthBytes (lengthOf bytes) = bytes := by
  rw [lengthBytes, lengthOf, ← h, ← List.length_reverse, leBytes_ofLe, List.reverse_reverse]

theorem lengthOf_lt {bytes : Bytes} (h : bytes.length = prefixBytes) : lengthOf bytes < 2 ^ 32 := by
  have := ofLe_lt bytes.reverse
  rw [List.length_reverse, h] at this
  exact this

theorem splitFirst_framed {unit : Bytes} (hunit : Fits unit) (next : Bytes) :
    splitFirst (framed unit ++ next) = .ok (some (unit, next)) := by
  have hpos : 0 < unit.length := List.length_pos_iff.mpr hunit.1
  have hsplit : framed unit ++ next = lengthBytes unit.length ++ (unit ++ next) :=
    List.append_assoc _ _ _
  have hlen : prefixBytes ≤ (framed unit ++ next).length := by
    rw [hsplit, List.length_append, length_lengthBytes]
    exact Nat.le_add_right _ _
  have htake : (framed unit ++ next).take prefixBytes = lengthBytes unit.length := by
    rw [hsplit]
    exact List.take_left' (length_lengthBytes _)
  have hdrop : (framed unit ++ next).drop prefixBytes = unit ++ next := by
    rw [hsplit]
    exact List.drop_left' (length_lengthBytes _)
  have hsome : framed unit ++ next ≠ [] := by
    intro h
    rw [h] at hlen
    exact absurd hlen (by decide)
  rw [splitFirst, if_neg hsome, if_neg (not_lt.mpr hlen)]
  simp only [htake, hdrop, lengthOf_lengthBytes hunit.2]
  rw [if_neg (by omega), if_neg (by rw [List.length_append]; omega), List.take_left,
    List.drop_left]

theorem splitFirst_wrong {rest : Bytes} (h : Wrong rest) : splitFirst rest = .error () := by
  obtain ⟨hsome, hwrong⟩ := h
  rw [splitFirst, if_neg hsome]
  split
  · rfl
  · rename_i hlong
    simp only
    split
    · rfl
    · rename_i hzero
      rw [if_pos ((hwrong.resolve_left hlong).resolve_left hzero)]

/-- Bytes are at their end, start with a length that is wrong, or with a unit. -/
theorem split_cases (bytes : Bytes) :
    bytes = [] ∨ Wrong bytes ∨ ∃ unit next, Fits unit ∧ bytes = framed unit ++ next := by
  by_cases hnil : bytes = []
  · exact Or.inl hnil
  · by_cases hwrong : Wrong bytes
    · exact Or.inr (Or.inl hwrong)
    · refine Or.inr (Or.inr ?_)
      have hright : ¬ (bytes.length < prefixBytes ∨ lengthOf (bytes.take prefixBytes) = 0 ∨
          (bytes.drop prefixBytes).length < lengthOf (bytes.take prefixBytes)) :=
        fun h => hwrong ⟨hnil, h⟩
      rw [not_or, not_or] at hright
      obtain ⟨hlong, hzero, hruns⟩ := hright
      have htake : (bytes.take prefixBytes).length = prefixBytes := by
        rw [List.length_take]
        omega
      have hunit : ((bytes.drop prefixBytes).take (lengthOf (bytes.take prefixBytes))).length =
          lengthOf (bytes.take prefixBytes) := by
        rw [List.length_take]
        omega
      refine ⟨(bytes.drop prefixBytes).take (lengthOf (bytes.take prefixBytes)),
        (bytes.drop prefixBytes).drop (lengthOf (bytes.take prefixBytes)), ⟨?_, ?_⟩, ?_⟩
      · intro h
        rw [h, List.length_nil] at hunit
        exact hzero hunit.symm
      · rw [hunit]
        exact lengthOf_lt htake
      · rw [framed, hunit, lengthBytes_lengthOf htake, List.append_assoc, List.take_append_drop,
          List.take_append_drop]

theorem length_framed (unit : Bytes) : (framed unit).length = prefixBytes + unit.length := by
  rw [framed, List.length_append, length_lengthBytes]

theorem frames_cons (u : Bytes) (us : List Bytes) : frames (u :: us) = framed u ++ frames us := rfl

theorem frames_append (us vs : List Bytes) : frames (us ++ vs) = frames us ++ frames vs :=
  List.flatMap_append

theorem length_le_frames (us : List Bytes) : us.length ≤ (frames us).length := by
  induction us with
  | nil => exact Nat.le_refl 0
  | cons u us ih =>
      have : prefixBytes = 4 := rfl
      rw [frames_cons, List.length_append, length_framed, List.length_cons]
      omega

def Stops (rest : Bytes) : Prop := rest = [] ∨ Wrong rest

/-- Any bytes are units behind their lengths, then nothing or a length that is wrong. -/
theorem exists_frames (bytes : Bytes) :
    ∃ us rest, (∀ u ∈ us, Fits u) ∧ Stops rest ∧ bytes = frames us ++ rest := by
  suffices hany : ∀ n (bytes : Bytes), bytes.length ≤ n →
      ∃ us rest, (∀ u ∈ us, Fits u) ∧ Stops rest ∧ bytes = frames us ++ rest from
    hany _ bytes (Nat.le_refl _)
  intro n
  induction n with
  | zero =>
      intro bytes hn
      exact ⟨[], bytes, by simp, Or.inl (List.eq_nil_of_length_eq_zero (Nat.le_zero.mp hn)), rfl⟩
  | succ n ih =>
      intro bytes hn
      rcases split_cases bytes with hnil | hwrong | ⟨unit, next, hunit, rfl⟩
      · exact ⟨[], bytes, by simp, Or.inl hnil, rfl⟩
      · exact ⟨[], bytes, by simp, Or.inr hwrong, rfl⟩
      · have : prefixBytes = 4 := rfl
        rw [List.length_append, length_framed] at hn
        obtain ⟨us, rest, hus, hrest, rfl⟩ := ih next (by omega)
        refine ⟨unit :: us, rest, ?_, hrest, ?_⟩
        · rintro u (_ | ⟨_, hu⟩)
          · exact hunit
          · exact hus u hu
        · rw [frames_cons, List.append_assoc]

theorem splitFirst_stops {rest : Bytes} (h : Stops rest) :
    (rest = [] ∧ splitFirst rest = .ok none) ∨ (Wrong rest ∧ splitFirst rest = .error ()) := by
  rcases h with rfl | hwrong
  · exact Or.inl ⟨rfl, rfl⟩
  · exact Or.inr ⟨hwrong, splitFirst_wrong hwrong⟩

theorem unitsWith_frames {us : List Bytes} (hus : ∀ u ∈ us, Fits u) {rest : Bytes}
    (hrest : Stops rest) {fuel : Nat} (hfuel : us.length ≤ fuel) :
    unitsWith fuel (frames us ++ rest) = us := by
  induction us generalizing fuel with
  | nil =>
      cases fuel with
      | zero => rfl
      | succ fuel =>
          rcases splitFirst_stops hrest with ⟨-, h⟩ | ⟨-, h⟩ <;>
            simp [unitsWith, frames, h]
  | cons u us ih =>
      rw [List.length_cons] at hfuel
      obtain ⟨fuel, rfl⟩ : ∃ n, fuel = n + 1 := ⟨fuel - 1, by omega⟩
      rw [frames_cons, List.append_assoc, unitsWith, splitFirst_framed (hus u List.mem_cons_self)]
      simp only
      rw [ih (fun v hv => hus v (List.mem_cons_of_mem _ hv)) (by omega)]

theorem units_frames {us : List Bytes} (hus : ∀ u ∈ us, Fits u) {rest : Bytes}
    (hrest : Stops rest) : units (frames us ++ rest) = us := by
  have := length_le_frames us
  refine unitsWith_frames hus hrest ?_
  rw [List.length_append]
  omega

theorem checkWith_frames {us : List Bytes} (hus : ∀ u ∈ us, Fits u) {rest : Bytes}
    (hrest : Stops rest) (total : Nat) {fuel : Nat} (hfuel : us.length < fuel) :
    checkWith total fuel (frames us ++ rest) =
      if rest = [] then .ok () else .error (.malformedNal (total - rest.length)) := by
  induction us generalizing fuel with
  | nil =>
      obtain ⟨fuel, rfl⟩ : ∃ n, fuel = n + 1 := ⟨fuel - 1, by omega⟩
      rcases splitFirst_stops hrest with ⟨rfl, h⟩ | ⟨hwrong, h⟩
      · rfl
      · simp [checkWith, frames, h, hwrong.1]
  | cons u us ih =>
      rw [List.length_cons] at hfuel
      obtain ⟨fuel, rfl⟩ : ∃ n, fuel = n + 1 := ⟨fuel - 1, by omega⟩
      rw [frames_cons, List.append_assoc, checkWith, splitFirst_framed (hus u List.mem_cons_self)]
      exact ih (fun v hv => hus v (List.mem_cons_of_mem _ hv)) (by omega)

theorem check_frames {us : List Bytes} (hus : ∀ u ∈ us, Fits u) {rest : Bytes}
    (hrest : Stops rest) :
    check (frames us ++ rest) =
      if rest = [] then .ok () else .error (.malformedNal (frames us).length) := by
  have := length_le_frames us
  rw [check, checkWith_frames hus hrest _ (by rw [List.length_append]; omega), List.length_append,
    Nat.add_sub_cancel]

namespace AccessUnit

theorem parseWith_picture {us : List Bytes} (hus : ∀ u ∈ us, Fits u) {rest : Bytes}
    (hrest : Stops rest) (isParameterSet : Bytes → Bool) (total : Nat) {fuel : Nat}
    (hfuel : us.length < fuel) (sets : List Bytes) (picture : Nat) :
    parseWith isParameterSet total fuel (frames us ++ rest) sets (some picture) =
      if rest = [] then .ok ⟨sets, picture⟩
      else .error (.malformedNal (total - rest.length)) := by
  induction us generalizing fuel with
  | nil =>
      obtain ⟨fuel, rfl⟩ : ∃ n, fuel = n + 1 := ⟨fuel - 1, by omega⟩
      rcases splitFirst_stops hrest with ⟨rfl, h⟩ | ⟨hwrong, h⟩
      · rfl
      · simp [parseWith, frames, h, hwrong.1]
  | cons u us ih =>
      rw [List.length_cons] at hfuel
      obtain ⟨fuel, rfl⟩ : ∃ n, fuel = n + 1 := ⟨fuel - 1, by omega⟩
      rw [frames_cons, List.append_assoc, parseWith, splitFirst_framed (hus u List.mem_cons_self)]
      exact ih (fun v hv => hus v (List.mem_cons_of_mem _ hv)) (by omega)

theorem parseWith_frames {us : List Bytes} (hus : ∀ u ∈ us, Fits u) {rest : Bytes}
    (hrest : Stops rest) (isParameterSet : Bytes → Bool) (total : Nat) {fuel : Nat}
    (hfuel : us.length < fuel) (sets : List Bytes) :
    parseWith isParameterSet total fuel (frames us ++ rest) sets none =
      if rest = [] then
        .ok ⟨sets ++ us.takeWhile isParameterSet,
          total - (frames (us.dropWhile isParameterSet)).length⟩
      else .error (.malformedNal (total - rest.length)) := by
  induction us generalizing fuel sets with
  | nil =>
      obtain ⟨fuel, rfl⟩ : ∃ n, fuel = n + 1 := ⟨fuel - 1, by omega⟩
      rcases splitFirst_stops hrest with ⟨rfl, h⟩ | ⟨hwrong, h⟩
      · simp [parseWith, frames, h]
      · simp [parseWith, frames, h, hwrong.1]
  | cons u us ih =>
      rw [List.length_cons] at hfuel
      obtain ⟨fuel, rfl⟩ : ∃ n, fuel = n + 1 := ⟨fuel - 1, by omega⟩
      have hus' : ∀ v ∈ us, Fits v := fun v hv => hus v (List.mem_cons_of_mem _ hv)
      rw [frames_cons, List.append_assoc, parseWith, splitFirst_framed (hus u List.mem_cons_self)]
      simp only [Option.isNone_none, if_true]
      by_cases hset : isParameterSet u = true
      · rw [if_pos hset, ih hus' (by omega), List.takeWhile_cons_of_pos hset,
          List.dropWhile_cons_of_pos hset, List.append_assoc, List.singleton_append]
      · rw [if_neg hset, parseWith_picture hus' hrest _ _ (by omega),
          List.takeWhile_cons_of_neg hset, List.dropWhile_cons_of_neg hset, List.append_nil,
          frames_cons, ← List.append_assoc]
        split
        · rename_i hend
          rw [hend, List.append_nil]
        · rfl

theorem parse_frames {us : List Bytes} (hus : ∀ u ∈ us, Fits u) {rest : Bytes}
    (hrest : Stops rest) (isParameterSet : Bytes → Bool) :
    parse (frames us ++ rest) isParameterSet =
      if rest = [] then
        .ok ⟨us.takeWhile isParameterSet, (frames (us.takeWhile isParameterSet)).length⟩
      else .error (.malformedNal (frames us).length) := by
  have hfuel := length_le_frames us
  rw [parse, parseWith_frames hus hrest _ _ (by rw [List.length_append]; omega), List.nil_append]
  split
  · rename_i hend
    have hsplit : (frames (us.takeWhile isParameterSet)).length +
        (frames (us.dropWhile isParameterSet)).length = (frames us).length := by
      rw [← List.length_append, ← frames_append, List.takeWhile_append_dropWhile]
    rw [hend, List.append_nil, ← hsplit, Nat.add_sub_cancel]
  · rw [List.length_append, Nat.add_sub_cancel]

end AccessUnit

theorem push_eq_ok {out nal bytes : Bytes} :
    push out nal = .ok bytes ↔ Fits nal ∧ bytes = out ++ framed nal := by
  have hfits : Fits nal ↔ nal.length < 2 ^ 32 ∧ nal.length ≠ 0 := by
    rw [Fits, and_comm, ne_eq, ne_eq, List.length_eq_zero_iff]
  unfold push
  split
  · rename_i h
    rw [Except.ok.injEq, List.append_assoc, and_iff_right (hfits.mpr h)]
    exact eq_comm
  · rename_i h
    exact iff_of_false nofun fun hboth => h (hfits.mp hboth.1)

theorem foldlM_push_eq_ok {us : List Bytes} {out bytes : Bytes} :
    us.foldlM push out = .ok bytes ↔ (∀ u ∈ us, Fits u) ∧ bytes = out ++ frames us := by
  induction us generalizing out with
  | nil =>
      have hpure : ([] : List Bytes).foldlM push out = .ok out := rfl
      rw [hpure, Except.ok.injEq, frames, List.flatMap_nil, List.append_nil]
      exact ⟨fun h => ⟨by simp, h.symm⟩, fun h => h.2.symm⟩
  | cons u us ih =>
      rw [List.foldlM_cons, List.forall_mem_cons, frames_cons]
      cases hpush : push out u with
      | error e =>
          refine iff_of_false nofun fun h => ?_
          rw [push_eq_ok.mpr ⟨h.1.1, rfl⟩] at hpush
          exact absurd hpush nofun
      | ok next =>
          obtain ⟨hu, rfl⟩ := push_eq_ok.mp hpush
          have hbind : (Except.ok (out ++ framed u) >>= fun b => us.foldlM push b) =
              us.foldlM push (out ++ framed u) := rfl
          rw [hbind, ih, List.append_assoc, and_iff_right hu]

/-- The walkers over an access unit and its writer agree: units come back as they were pushed,
exactly what is pushed passes, anything else is refused at its first wrong length, and an access
unit split at its picture is put together again. -/
theorem access_units_agree :
    (∀ us : List Bytes, (∀ u ∈ us, Fits u) →
      ∃ bytes, us.foldlM push [] = .ok bytes ∧ units bytes = us) ∧
    (∀ bytes : Bytes,
      (check bytes = .ok () ↔
        ∃ us : List Bytes, (∀ u ∈ us, Fits u) ∧ us.foldlM push [] = .ok bytes) ∧
      ∀ e, check bytes = .error e ↔
        ∃ (us : List Bytes) (front rest : Bytes), us.foldlM push [] = .ok front ∧
          bytes = front ++ rest ∧ Wrong rest ∧ e = .malformedNal front.length) ∧
    ∀ (bytes : Bytes) (isParameterSet : Bytes → Bool) (unit : AccessUnit),
      AccessUnit.parse bytes isParameterSet = .ok unit →
        check bytes = .ok () ∧
        unit.parameterSets = (units bytes).takeWhile isParameterSet ∧
        ∃ front, unit.parameterSets.foldlM push [] = .ok front ∧
          front ++ bytes.drop unit.picture = bytes := by
  refine ⟨fun us hus => ?_, fun bytes => ?_, fun bytes isParameterSet unit hparse => ?_⟩
  · refine ⟨frames us, foldlM_push_eq_ok.mpr ⟨hus, rfl⟩, ?_⟩
    have := units_frames hus (Or.inl rfl)
    rwa [List.append_nil] at this
  · obtain ⟨us, rest, hus, hrest, rfl⟩ := exists_frames bytes
    have hcheck := check_frames hus hrest
    constructor
    · constructor
      · intro hok
        rw [hcheck] at hok
        split at hok
        · rename_i hend
          exact ⟨us, hus, foldlM_push_eq_ok.mpr ⟨hus, by rw [hend, List.append_nil]; rfl⟩⟩
        · exact absurd hok nofun
      · rintro ⟨vs, hvs, hpush⟩
        rw [(foldlM_push_eq_ok.mp hpush).2]
        have := check_frames hvs (Or.inl rfl)
        rwa [List.append_nil] at this
    · intro e
      constructor
      · intro herr
        rw [hcheck] at herr
        split at herr
        · exact absurd herr nofun
        · rename_i hend
          exact ⟨us, frames us, rest, foldlM_push_eq_ok.mpr ⟨hus, rfl⟩, rfl,
            hrest.resolve_left hend, (Except.error.inj herr).symm⟩
      · rintro ⟨vs, front, after, hpush, hbytes, hwrong, rfl⟩
        obtain ⟨hvs, rfl⟩ := foldlM_push_eq_ok.mp hpush
        rw [hbytes, List.nil_append, check_frames hvs (Or.inr hwrong), if_neg hwrong.1]
  · obtain ⟨us, rest, hus, hrest, rfl⟩ := exists_frames bytes
    rw [AccessUnit.parse_frames hus hrest] at hparse
    split at hparse
    · rename_i hend
      obtain rfl := Except.ok.inj hparse
      have hsets : ∀ u ∈ us.takeWhile isParameterSet, Fits u := fun u hu =>
        hus u (List.takeWhile_prefix _ |>.subset hu)
      have hsplit : frames us = frames (us.takeWhile isParameterSet) ++
          frames (us.dropWhile isParameterSet) := by
        rw [← frames_append, List.takeWhile_append_dropWhile]
      refine ⟨by rw [check_frames hus hrest, if_pos hend], by rw [units_frames hus hrest],
        frames (us.takeWhile isParameterSet), foldlM_push_eq_ok.mpr ⟨hsets, rfl⟩, ?_⟩
      rw [hsplit, List.append_assoc, List.drop_left]
    · exact absurd hparse nofun

theorem access_units_agree_two :
    (∃ bytes, [[0x40, 1], [0x26, 0xff, 7]].foldlM push [] = .ok bytes ∧
      units bytes = [[0x40, 1], [0x26, 0xff, 7]]) ∧
    ([[0x40, 1]].takeWhile fun u => u.head? = some 0x40) =
      (units [0, 0, 0, 2, 0x40, 1, 0, 0, 0, 1, 0x26]).takeWhile fun u => u.head? = some 0x40 := by
  have hfits : ∀ u ∈ [[0x40, 1], [0x26, 0xff, 7]], Fits u := by
    intro u hu
    simp only [List.mem_cons, List.not_mem_nil, or_false] at hu
    rcases hu with rfl | rfl <;> exact ⟨by decide, by decide⟩
  have hparse := access_units_agree.2.2 [0, 0, 0, 2, 0x40, 1, 0, 0, 0, 1, 0x26]
    (fun u => u.head? = some 0x40) ⟨[[0x40, 1]], 6⟩ (by decide)
  exact ⟨access_units_agree.1 _ hfits, hparse.2.1⟩

end Slopty.Codec.Nal
