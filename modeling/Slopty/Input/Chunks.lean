import Slopty.Lib.Text
import Mathlib.Data.List.Basic

/-!
Text cut to what one key event carries: pieces of so many UTF-16 units, cut between the sequences a
person sees as one character, and never within a character.

Where such a sequence ends is a given function.
-/

namespace Slopty.Input.Chunks

open Slopty.Lib

/-- The most UTF-16 units one event carries. -/
def mostUnits : Nat := 20

/-- The units of a character: one, or a pair. -/
def encode (c : Char) : List Nat :=
  if c.toNat < 0x10000 then [c.toNat]
  else [0xD800 + (c.toNat - 0x10000) / 0x400, 0xDC00 + (c.toNat - 0x10000) % 0x400]

def units (text : Text) : List Nat := text.flatMap encode

/-- The second half of a pair. -/
def isLow (u : Nat) : Bool := 0xDC00 ≤ u && u < 0xE000

def piece (us : List Nat) (start stop : Nat) : List Nat := (us.drop start).take (stop - start)

/-- Not between the halves of a pair. -/
def cutAt (us : List Nat) (start : Nat) : Nat :=
  if us[start + mostUnits]?.any isLow then start + mostUnits - 1 else start + mostUnits

theorem lt_cutAt (us : List Nat) (start : Nat) :
    start < cutAt us start ∧ cutAt us start ≤ start + mostUnits := by
  unfold cutAt mostUnits
  split
  · omega
  · omega

/-- What is longer than one event carries is cut, though it be one sequence. -/
def cutLong (us : List Nat) (start at' : Nat) (pieces : List (List Nat)) :
    Nat × List (List Nat) :=
  if mostUnits < at' - start then
    cutLong us (cutAt us start) at' (pieces ++ [piece us start (cutAt us start)])
  else (start, pieces)
termination_by at' - start
decreasing_by
  have h := lt_cutAt us start
  omega

/-- The pieces from a sequence on: `start` is where the next one begins. -/
def chunksFrom (us : List Nat) (sequenceEnd : Nat → Nat) (start at' : Nat)
    (pieces : List (List Nat)) : List (List Nat) :=
  if at' < us.length then
    let stop := min (max (sequenceEnd at') (at' + 1)) us.length
    let (start, pieces) :=
      if mostUnits < stop - start ∧ start < at' then (at', pieces ++ [piece us start at'])
      else (start, pieces)
    let (start, pieces) := cutLong us start stop pieces
    chunksFrom us sequenceEnd start stop pieces
  else if start < us.length then pieces ++ [piece us start us.length]
  else pieces
termination_by us.length - at'

/-- The text of some units, half a pair replaced. -/
def fromUtf16Lossy : List Nat → Text
  | [] => []
  | [u] => [if u < 0xD800 ∨ 0xE000 ≤ u then Char.ofNat u else Char.ofNat 0xFFFD]
  | u :: v :: rest =>
      if u < 0xD800 ∨ 0xE000 ≤ u then Char.ofNat u :: fromUtf16Lossy (v :: rest)
      else if u < 0xDC00 ∧ isLow v = true then
        Char.ofNat (0x10000 + (u - 0xD800) * 0x400 + (v - 0xDC00)) :: fromUtf16Lossy rest
      else Char.ofNat 0xFFFD :: fromUtf16Lossy (v :: rest)

def chunks (sequenceEnd : Nat → Nat) (text : Text) : List Text :=
  (chunksFrom (units text) sequenceEnd 0 0 []).map fromUtf16Lossy

theorem encode_spec (c : Char) :
    (∃ u, encode c = [u] ∧ isLow u = false) ∨
      ∃ u v, encode c = [u, v] ∧ isLow u = false ∧ isLow v = true := by
  unfold encode
  split
  · refine .inl ⟨_, rfl, ?_⟩
    have hvalid := c.valid
    unfold isLow
    rw [Bool.and_eq_false_iff, decide_eq_false_iff_not, decide_eq_false_iff_not]
    rcases hvalid with hlow | ⟨hhigh, -⟩
    · left
      change c.toNat < 0xD800 at hlow
      omega
    · right
      change 0xDFFF < c.toNat at hhigh
      omega
  · refine .inr ⟨_, _, rfl, ?_, ?_⟩
    · have hsmall : c.toNat < 0x110000 := by
        rcases c.valid with hlow | ⟨-, hmost⟩
        · change c.toNat < 0xD800 at hlow
          omega
        · exact hmost
      unfold isLow
      rw [Bool.and_eq_false_iff, decide_eq_false_iff_not]
      left
      omega
    · unfold isLow
      rw [Bool.and_eq_true, decide_eq_true_eq, decide_eq_true_eq]
      omega

theorem units_cons (c : Char) (rest : Text) : units (c :: rest) = encode c ++ units rest := rfl

theorem units_append (a b : Text) : units (a ++ b) = units a ++ units b := List.flatMap_append

/-- Whether a place is within a pair. -/
def Splits (us : List Nat) (at' : Nat) : Prop := us[at']?.any isLow = true

/-- A place that is within no pair is between two characters. -/
theorem units_split (text : Text) {at' : Nat} (hat : at' ≤ (units text).length)
    (hlow : ¬Splits (units text) at') :
    ∃ before after, text = before ++ after ∧ (units before).length = at' := by
  induction text generalizing at' with
  | nil => exact ⟨[], [], rfl, (Nat.le_zero.mp hat).symm⟩
  | cons c rest ih =>
    by_cases hzero : at' = 0
    · exact ⟨[], c :: rest, rfl, hzero.symm⟩
    · rcases encode_spec c with ⟨u, hencode, -⟩ | ⟨u, v, hencode, -, hv⟩
      · obtain ⟨n, rfl⟩ := Nat.exists_eq_succ_of_ne_zero hzero
        rw [units_cons, hencode] at hat hlow
        obtain ⟨before, after, rfl, hbefore⟩ := ih (Nat.le_of_succ_le_succ hat) hlow
        refine ⟨c :: before, after, rfl, ?_⟩
        rw [units_cons, hencode, List.length_append, hbefore]
        exact Nat.add_comm ..
      · rw [units_cons, hencode] at hat hlow
        obtain ⟨n, rfl⟩ := Nat.exists_eq_succ_of_ne_zero hzero
        cases n with
        | zero => exact absurd hv hlow
        | succ n =>
          obtain ⟨before, after, rfl, hbefore⟩ :=
            ih (Nat.le_of_succ_le_succ (Nat.le_of_succ_le_succ hat)) hlow
          refine ⟨c :: before, after, rfl, ?_⟩
          rw [units_cons, hencode, List.length_append, hbefore]
          exact Nat.add_comm ..

/-- No two places in a row are within a pair. -/
theorem not_splits_before (text : Text) {at' : Nat} (hlow : Splits (units text) (at' + 1)) :
    ¬Splits (units text) at' := by
  induction text generalizing at' with
  | nil => exact absurd hlow Bool.false_ne_true
  | cons c rest ih =>
    rcases encode_spec c with ⟨u, hencode, hu⟩ | ⟨u, v, hencode, hu, hv⟩
    · rw [units_cons, hencode] at hlow ⊢
      cases at' with
      | zero => exact fun hno => Bool.false_ne_true (hu.symm.trans hno)
      | succ n => exact ih hlow
    · rw [units_cons, hencode] at hlow ⊢
      cases at' with
      | zero => exact fun hno => Bool.false_ne_true (hu.symm.trans hno)
      | succ n =>
        cases n with
        | zero =>
          -- the next character begins here
          cases rest with
          | nil => exact absurd hlow Bool.false_ne_true
          | cons d rest =>
            rcases encode_spec d with ⟨w, hd, hw⟩ | ⟨w, x, hd, hw, -⟩
            · rw [units_cons, hd] at hlow
              exact absurd (hw.symm.trans hlow) Bool.false_ne_true
            · rw [units_cons, hd] at hlow
              exact absurd (hw.symm.trans hlow) Bool.false_ne_true
        | succ n => exact ih hlow

theorem not_splits_cutAt (text : Text) (start : Nat) :
    ¬Splits (units text) (cutAt (units text) start) := by
  unfold cutAt
  split
  · rename_i hlow
    have hone : start + mostUnits - 1 + 1 = start + mostUnits := by
      unfold mostUnits
      omega
    exact not_splits_before text (hone.symm ▸ hlow)
  · rename_i hlow
    exact hlow

/-- The pieces so far are parts of the text, one after another, up to a place in it; where one ends
is a fair place to cut. -/
structure Cut (fair : Nat → Prop) (text : Text) (start : Nat) (pieces : List (List Nat))
    (parts : List Text) (after : Text) : Prop where
  text_eq : text = parts.flatten ++ after
  pieces_eq : pieces = parts.map units
  length : (units parts.flatten).length = start
  sizes : ∀ part ∈ parts, part ≠ [] ∧ (units part).length ≤ mostUnits
  cuts : ∀ before, before <+: parts → fair (units before.flatten).length

def CutTo (fair : Nat → Prop) (text : Text) (start : Nat) (pieces : List (List Nat)) : Prop :=
  ∃ parts after, Cut fair text start pieces parts after

variable {fair : Nat → Prop} {text : Text} {start stop : Nat} {pieces : List (List Nat)}

theorem CutTo.add (h : CutTo fair text start pieces) (hstart : start < stop)
    (hstop : stop ≤ (units text).length) (hmost : stop - start ≤ mostUnits)
    (hlow : ¬Splits (units text) stop) (hfair : fair stop) :
    CutTo fair text stop (pieces ++ [piece (units text) start stop]) := by
  obtain ⟨parts, after, h⟩ := h
  obtain ⟨before, rest, hsplit, hbefore⟩ := units_split text hstop hlow
  have heq := h.text_eq.symm.trans hsplit
  have hlength := h.length
  rcases List.append_eq_append_iff.mp heq with ⟨part, hpart, hafter⟩ | ⟨part, hpart, -⟩
  · have hunits : (units part).length = stop - start := by
      rw [hpart, units_append, List.length_append, hlength] at hbefore
      omega
    have hpiece : piece (units text) start stop = units part := by
      unfold piece
      rw [h.text_eq, hafter, units_append, units_append, List.drop_left' hlength, ← hunits,
        List.take_left]
    have hflatten : (parts ++ [part]).flatten = before := by
      rw [List.flatten_append, List.flatten_singleton, ← hpart]
    refine ⟨parts ++ [part], rest, ?_, ?_, ?_, fun p hp => ?_, fun early hearly => ?_⟩
    · rw [hflatten]
      exact hsplit
    · rw [h.pieces_eq, hpiece, List.map_append]
      rfl
    · rw [hflatten]
      exact hbefore
    · rcases List.mem_append.mp hp with hp | hp
      · exact h.sizes p hp
      · rw [List.mem_singleton.mp hp, hunits]
        refine ⟨fun hnil => ?_, hmost⟩
        rw [hnil] at hunits
        change 0 = stop - start at hunits
        omega
    · rcases List.prefix_concat_iff.mp hearly with hearly | hearly
      · rw [hearly, hflatten, hbefore]
        exact hfair
      · exact h.cuts early hearly
  · rw [hpart, units_append, List.length_append, hbefore] at hlength
    omega

theorem CutTo.le (h : CutTo fair text start pieces) : start ≤ (units text).length := by
  obtain ⟨parts, after, h⟩ := h
  rw [h.text_eq, units_append, List.length_append, h.length]
  exact Nat.le_add_right ..

/-- After the long ones are cut what is left fits one event. -/
theorem CutTo.cutLong (h : CutTo fair text start pieces) (hstart : start ≤ stop)
    (hstop : stop ≤ (units text).length)
    (hfair : ∀ n, start < n → n < stop → mostUnits < stop - start → fair n) :
    CutTo fair text (cutLong (units text) start stop pieces).1
        (cutLong (units text) start stop pieces).2 ∧
      (cutLong (units text) start stop pieces).1 ≤ stop ∧
        stop - (cutLong (units text) start stop pieces).1 ≤ mostUnits := by
  fun_induction Chunks.cutLong (units text) start stop pieces with
  | case1 start pieces hlong ih =>
    obtain ⟨hlt, hle⟩ := lt_cutAt (units text) start
    have hcut : cutAt (units text) start < stop := by omega
    refine ih (h.add hlt (hcut.le.trans hstop) (Nat.sub_le_iff_le_add'.mpr hle)
      (not_splits_cutAt text start) (hfair _ hlt hcut hlong)) hcut.le fun n hn hbelow hstill => ?_
    exact hfair n (hlt.trans hn) hbelow hlong
  | case2 start pieces hshort => exact ⟨h, hstart, Nat.le_of_not_lt hshort⟩

/-- Sequences end after the place asked about, within the text and not within a character. -/
def Whole (text : Text) (sequenceEnd : Nat → Nat) : Prop :=
  ∀ n, n < (units text).length → n < sequenceEnd n ∧ sequenceEnd n ≤ (units text).length ∧
    ¬Splits (units text) (sequenceEnd n)

/-- The ends of sequences, one after another from the text's start. -/
inductive Reached (sequenceEnd : Nat → Nat) : Nat → Prop where
  | start : Reached sequenceEnd 0
  | next {n : Nat} (h : Reached sequenceEnd n) : Reached sequenceEnd (sequenceEnd n)

/-- Between two sequences, or within one longer than an event carries. -/
def Fair (sequenceEnd : Nat → Nat) (n : Nat) : Prop :=
  Reached sequenceEnd n ∨
    ∃ m, Reached sequenceEnd m ∧ m < n ∧ n < sequenceEnd m ∧ mostUnits < sequenceEnd m - m

theorem CutTo.chunksFrom {sequenceEnd : Nat → Nat} (hwhole : Whole text sequenceEnd) {at' : Nat}
    (h : CutTo (Fair sequenceEnd) text start pieces) (hstart : start ≤ at')
    (hat : at' ≤ (units text).length) (hmost : at' - start ≤ mostUnits)
    (hlow : ¬Splits (units text) at') (hreached : Reached sequenceEnd at') :
    CutTo (Fair sequenceEnd) text (units text).length
      (chunksFrom (units text) sequenceEnd start at' pieces) := by
  fun_induction Chunks.chunksFrom (units text) sequenceEnd start at' pieces with
  | case1 start at' pieces hmore stop start1 pieces1 hcut start2 pieces2 hlong ih =>
    obtain ⟨hafter, hwithin, hends⟩ := hwhole at' hmore
    have hstop : stop = sequenceEnd at' := by
      change min (max (sequenceEnd at') (at' + 1)) (units text).length = _
      rw [max_eq_left hafter, min_eq_left hwithin]
    clear_value stop
    subst hstop
    have hcuts : CutTo (Fair sequenceEnd) text start1 pieces1 ∧ start1 ≤ at' ∧
        (mostUnits < sequenceEnd at' - start1 → start1 = at') := by
      split at hcut
      · rename_i hsecond
        obtain ⟨rfl, rfl⟩ := Prod.mk.inj hcut
        exact ⟨h.add hsecond.2 hat hmost hlow (.inl hreached), le_rfl, fun _ => rfl⟩
      · rename_i hsecond
        obtain ⟨rfl, rfl⟩ := Prod.mk.inj hcut
        exact ⟨h, hstart, fun hover => Nat.le_antisymm hstart
          (Nat.le_of_not_lt fun hlt => hsecond ⟨hover, hlt⟩)⟩
    obtain ⟨hcuts, hbelow, hwhole1⟩ := hcuts
    have hrest := hcuts.cutLong (hbelow.trans hafter.le) hwithin fun n hn hless hover => by
      obtain rfl := hwhole1 hover
      exact .inr ⟨start1, hreached, hn, hless, hover⟩
    rw [hlong] at hrest
    exact ih hrest.1 hrest.2.1 hwithin hrest.2.2 hends hreached.next
  | case2 start at' pieces hdone hleft =>
    obtain rfl : at' = (units text).length := by omega
    exact h.add hleft le_rfl hmost hlow (.inl hreached)
  | case3 start at' pieces hdone hleft =>
    obtain rfl : start = (units text).length := Nat.le_antisymm h.le (Nat.le_of_not_lt hleft)
    exact h

theorem units_eq_nil {text : Text} (h : units text = []) : text = [] := by
  cases text with
  | nil => rfl
  | cons c rest =>
    rw [units_cons] at h
    rcases encode_spec c with ⟨u, hencode, -⟩ | ⟨u, v, hencode, -, -⟩
    · rw [hencode] at h
      exact absurd h (List.cons_ne_nil _ _)
    · rw [hencode] at h
      exact absurd h (List.cons_ne_nil _ _)

theorem fromUtf16Lossy_cons {u : Nat} (hu : u < 0xD800 ∨ 0xE000 ≤ u) (rest : List Nat) :
    fromUtf16Lossy (u :: rest) = Char.ofNat u :: fromUtf16Lossy rest := by
  cases rest with
  | nil => exact congrArg (fun c => [c]) (if_pos hu)
  | cons v rest => rw [fromUtf16Lossy, if_pos hu]

theorem fromUtf16Lossy_units (text : Text) : fromUtf16Lossy (units text) = text := by
  induction text with
  | nil => rfl
  | cons c rest ih =>
    rw [units_cons]
    unfold encode
    split
    · have hplain : c.toNat < 0xD800 ∨ 0xE000 ≤ c.toNat := by
        rcases c.valid with hlow | ⟨hhigh, -⟩
        · exact .inl hlow
        · exact .inr hhigh
      rw [List.singleton_append, fromUtf16Lossy_cons hplain, ih, Char.ofNat_toNat]
    · have hsmall : c.toNat < 0x110000 := by
        rcases c.valid with hlow | ⟨-, hmost⟩
        · change c.toNat < 0xD800 at hlow
          omega
        · exact hmost
      have hlow : isLow (0xDC00 + (c.toNat - 0x10000) % 0x400) = true := by
        unfold isLow
        rw [Bool.and_eq_true, decide_eq_true_eq, decide_eq_true_eq]
        omega
      rw [List.cons_append, List.singleton_append, fromUtf16Lossy, if_neg (by omega),
        if_pos ⟨by omega, hlow⟩, ih]
      have hback : 0x10000 + (0xD800 + (c.toNat - 0x10000) / 0x400 - 0xD800) * 0x400 +
          (0xDC00 + (c.toNat - 0x10000) % 0x400 - 0xDC00) = c.toNat := by omega
      rw [hback, Char.ofNat_toNat]

/-- The pieces are the text in order, none empty, each of at most so many units, cut between two
sequences or within one that is too long, and never within a character. -/
theorem chunks_are_parts (text : Text) (sequenceEnd : Nat → Nat) (hwhole : Whole text sequenceEnd) :
    (chunks sequenceEnd text).flatten = text ∧
      (∀ part ∈ chunks sequenceEnd text, part ≠ [] ∧ (units part).length ≤ mostUnits) ∧
        ∀ before, before <+: chunks sequenceEnd text →
          Fair sequenceEnd (units before.flatten).length := by
  have hstart : CutTo (Fair sequenceEnd) text 0 [] :=
    ⟨[], text, rfl, rfl, rfl, fun _ hp => absurd hp List.not_mem_nil, fun before hbefore => by
      rw [List.prefix_nil.mp hbefore]
      exact .inl .start⟩
  have hlow : ¬Splits (units text) 0 := by
    cases text with
    | nil => exact Bool.false_ne_true
    | cons c rest =>
      rcases encode_spec c with ⟨u, hencode, hu⟩ | ⟨u, v, hencode, hu, -⟩
      · rw [units_cons, hencode]
        exact fun hno => Bool.false_ne_true (hu.symm.trans hno)
      · rw [units_cons, hencode]
        exact fun hno => Bool.false_ne_true (hu.symm.trans hno)
  obtain ⟨parts, after, h⟩ :=
    hstart.chunksFrom hwhole le_rfl (Nat.zero_le _) (Nat.zero_le _) hlow .start
  have hafter : after = [] := by
    have hlength := congrArg (fun t => (units t).length) h.text_eq
    rw [units_append, List.length_append, h.length] at hlength
    exact units_eq_nil (List.eq_nil_of_length_eq_zero (by omega))
  have hchunks : chunks sequenceEnd text = parts := by
    rw [chunks, h.pieces_eq, List.map_map]
    exact List.map_congr_left (fun part _ => fromUtf16Lossy_units part) |>.trans (List.map_id _)
  have htext := h.text_eq
  rw [hafter, List.append_nil] at htext
  rw [hchunks]
  exact ⟨htext.symm, h.sizes, h.cuts⟩

/-- One letter too many goes in an event of its own. -/
theorem chunks_are_parts_letters :
    (chunks (· + 1) (List.replicate 21 'a')).flatten = List.replicate 21 'a' :=
  have hsplits : ∀ n, ¬Splits (units (List.replicate 21 'a')) n := fun n hno => by
    rw [Splits, show units (List.replicate 21 'a') = List.replicate 21 97 from rfl,
      List.getElem?_replicate] at hno
    split at hno
    · exact absurd hno (by decide)
    · exact Bool.false_ne_true hno
  (chunks_are_parts (List.replicate 21 'a') (· + 1)
    fun n hn => ⟨Nat.lt_succ_self n, hn, hsplits _⟩).1

end Slopty.Input.Chunks
