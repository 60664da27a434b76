import Slopty.Lib.Machine
import Slopty.Lib.Text

/-!
Text as the bytes that spell it in UTF-8: what is read of bytes that may spell
no text, and the longest start of a text that fits a number of bytes.
-/

namespace Slopty.Lib

namespace Text

def toUtf8 (t : Text) : Bytes := t.flatMap String.utf8EncodeChar

/-- The character that `bytes` start with. -/
def leadChar? (bytes : Bytes) : Option Char := bytes.toByteArray.utf8DecodeChar? 0

def isContinuation (b : UInt8) : Bool := b &&& 192 == 128

/-- Whether `b` may come after the first byte `a` of a character of three bytes or four. -/
def maySecond (a b : UInt8) : Bool :=
  (a == 0xE0 && decide (0xA0 ≤ b ∧ b ≤ 0xBF)) ||
    (decide (0xE1 ≤ a ∧ a ≤ 0xEC) && decide (0x80 ≤ b ∧ b ≤ 0xBF)) ||
    (a == 0xED && decide (0x80 ≤ b ∧ b ≤ 0x9F)) ||
    (decide (0xEE ≤ a ∧ a ≤ 0xEF) && decide (0x80 ≤ b ∧ b ≤ 0xBF)) ||
    (a == 0xF0 && decide (0x90 ≤ b ∧ b ≤ 0xBF)) ||
    (decide (0xF1 ≤ a ∧ a ≤ 0xF3) && decide (0x80 ≤ b ∧ b ≤ 0xBF)) ||
    (a == 0xF4 && decide (0x80 ≤ b ∧ b ≤ 0x8F))

/-- How many of the bytes at the front, which start with no character, could begin one: they
are replaced together. -/
def badLen : Bytes → Nat
  | [] => 0
  | a :: rest =>
      if maySecond a (rest.getD 0 0) then
        if 0xF0 ≤ a ∧ isContinuation (rest.getD 1 0) then 3 else 2
      else 1

/-- What stands for bytes that spell no character. -/
def replacement : Char := '\uFFFD'

/-- `fromUtf8Lossy`, of at most `fuel` characters. -/
def lossyWith : Nat → Bytes → Text
  | 0, _ => []
  | _ + 1, [] => []
  | fuel + 1, b :: rest =>
      match leadChar? (b :: rest) with
      | some c => c :: lossyWith fuel ((b :: rest).drop c.utf8Size)
      | none => replacement :: lossyWith fuel ((b :: rest).drop (badLen (b :: rest)))

/-- The text that `bytes` spell, with a replacement for what spells none. -/
def fromUtf8Lossy (bytes : Bytes) : Text := lossyWith bytes.length bytes

@[simp] theorem toUtf8_nil : toUtf8 [] = [] := rfl

theorem toUtf8_cons (c : Char) (t : Text) : toUtf8 (c :: t) = String.utf8EncodeChar c ++ toUtf8 t :=
  List.flatMap_cons

theorem utf8Len_cons (c : Char) (t : Text) : utf8Len (c :: t) = c.utf8Size + utf8Len t := by
  simp [utf8Len]

theorem length_toUtf8 (t : Text) : (toUtf8 t).length = t.utf8Len := by
  simp [toUtf8, utf8Len, List.length_flatMap]

theorem leadChar?_append (c : Char) (bytes : Bytes) :
    leadChar? (String.utf8EncodeChar c ++ bytes) = some c := by
  rw [leadChar?, List.toByteArray_append]
  exact ByteArray.utf8DecodeChar?_utf8EncodeChar_append

theorem lossyWith_toUtf8 {t : Text} {fuel : Nat} (hfuel : t.length ≤ fuel) :
    lossyWith fuel (toUtf8 t) = t := by
  induction t generalizing fuel with
  | nil => cases fuel <;> rfl
  | cons c t ih =>
      rw [List.length_cons] at hfuel
      obtain ⟨fuel, rfl⟩ : ∃ n, fuel = n + 1 := ⟨fuel - 1, by omega⟩
      have hlead : leadChar? (toUtf8 (c :: t)) = some c := by
        rw [toUtf8_cons]
        exact leadChar?_append c _
      have hrest : (toUtf8 (c :: t)).drop c.utf8Size = toUtf8 t := by
        rw [toUtf8_cons, ← String.length_utf8EncodeChar c, List.drop_left]
      have htail := @ih fuel (by omega)
      cases hbytes : toUtf8 (c :: t) with
      | nil =>
          have hlen := congrArg List.length hbytes
          rw [toUtf8_cons, List.length_append, String.length_utf8EncodeChar] at hlen
          have := c.utf8Size_pos
          simp only [List.length_nil] at hlen
          omega
      | cons b rest =>
          rw [hbytes] at hlead hrest
          simp only [lossyWith, hlead, hrest, htail]

theorem length_le_utf8Len (t : Text) : t.length ≤ t.utf8Len := by
  induction t with
  | nil => exact Nat.le_refl 0
  | cons c t ih =>
      have hpos := c.utf8Size_pos
      rw [utf8Len_cons, List.length_cons]
      omega

@[simp] theorem fromUtf8Lossy_toUtf8 (t : Text) : fromUtf8Lossy (toUtf8 t) = t :=
  lossyWith_toUtf8 (by rw [length_toUtf8]; exact t.length_le_utf8Len)

def asciiChar (b : UInt8) : Char := Char.ofNat b.toNat

theorem utf8EncodeChar_ascii {b : UInt8} (hb : b < 128) :
    String.utf8EncodeChar (asciiChar b) = [b] := by
  have hlt : b.toNat < 128 := UInt8.lt_iff_toNat_lt.mp hb
  have hval : (asciiChar b).val.toNat = b.toNat := by
    have hvalid : b.toNat.isValidChar := Or.inl (by omega)
    rw [asciiChar, Char.ofNat, dif_pos hvalid]
    rfl
  have hsize : (asciiChar b).utf8Size = 1 := by
    rw [Char.utf8Size_eq_one_iff, UInt32.le_iff_toNat_le, hval]
    exact Nat.le_of_lt_succ hlt
  rw [String.utf8EncodeChar_eq_singleton hsize]
  refine congrArg (fun x => [x]) (UInt8.toNat_inj.mp ?_)
  rw [UInt32.toNat_toUInt8, hval]
  omega

theorem toUtf8_map_asciiChar {bytes : Bytes} (h : ∀ b ∈ bytes, b < 128) :
    toUtf8 (bytes.map asciiChar) = bytes := by
  induction bytes with
  | nil => rfl
  | cons b rest ih =>
      rw [List.map_cons, toUtf8_cons, utf8EncodeChar_ascii (h b List.mem_cons_self),
        ih fun c hc => h c (List.mem_cons_of_mem _ hc)]
      rfl

theorem leadChar?_eq_some {bytes : Bytes} {c : Char} :
    leadChar? bytes = some c ↔ ∃ rest, bytes = String.utf8EncodeChar c ++ rest := by
  constructor
  · intro h
    have hsplit := ByteArray.eq_of_utf8DecodeChar?_eq_some h
    refine ⟨(bytes.toByteArray.extract c.utf8Size bytes.toByteArray.size).data.toList, ?_⟩
    have := congrArg (fun b : ByteArray => b.data.toList) hsplit
    simpa using this
  · rintro ⟨rest, rfl⟩
    exact leadChar?_append c rest

theorem and_high_ascii {a : UInt8} (ha : a < 128) : a &&& 128 = 0 := by
  have hbits : ∀ x : BitVec 8, x < 128 → x &&& 128 = 0 := by decide
  exact UInt8.toBitVec_inj.mp (hbits a.toBitVec ha)

/-- What the bytes start with is told by those before the next ASCII byte. -/
theorem leadChar?_append_ascii {bytes : Bytes} (hsome : bytes ≠ []) {a : UInt8} (ha : a < 128)
    (more : Bytes) : leadChar? (bytes ++ a :: more) = leadChar? bytes := by
  cases hlead : leadChar? (bytes ++ a :: more) with
  | none =>
      cases hbytes : leadChar? bytes with
      | none => rfl
      | some c =>
          obtain ⟨rest, rfl⟩ := leadChar?_eq_some.mp hbytes
          rw [List.append_assoc, leadChar?_append] at hlead
          exact hlead.symm
  | some c =>
      obtain ⟨rest, hrest⟩ := leadChar?_eq_some.mp hlead
      rcases List.append_eq_append_iff.mp hrest with ⟨mid, hmid, hafter⟩ | ⟨mid, hmid, hafter⟩
      · -- The character would have the ASCII byte inside it.
        cases mid with
        | nil =>
            rw [List.append_nil] at hmid
            exact (leadChar?_eq_some.mpr ⟨[], by rw [List.append_nil, hmid]⟩).symm
        | cons d mid =>
            obtain ⟨rfl, -⟩ := List.cons.inj hafter
            have hat : bytes.length < (String.utf8EncodeChar c).length := by
              rw [hmid]
              simp
            have hbyte : (String.utf8EncodeChar c)[bytes.length] = a := by
              simp [hmid]
            have hfirst : (String.utf8EncodeChar c)[bytes.length].IsUTF8FirstByte := by
              rw [hbyte]
              exact Or.inl (and_high_ascii ha)
            have := UInt8.isUTF8FirstByte_getElem_utf8EncodeChar.mp hfirst
            exact absurd (List.eq_nil_of_length_eq_zero this) hsome
      · exact (leadChar?_eq_some.mpr ⟨mid, hmid⟩).symm

theorem isContinuation_ascii {a : UInt8} (ha : a < 128) : isContinuation a = false := by
  have hbits : ∀ x : BitVec 8, x < 128 → x &&& 192 ≠ 128 := by decide
  exact beq_eq_false_iff_ne.mpr fun h => hbits a.toBitVec ha (congrArg UInt8.toBitVec h)

theorem maySecond_ascii (b : UInt8) {a : UInt8} (ha : a < 128) : maySecond b a = false := by
  have hlow : ∀ n : UInt8, 128 ≤ n → ¬ n ≤ a := fun n hn hle => by
    rw [UInt8.le_iff_toNat_le] at hn hle
    rw [UInt8.lt_iff_toNat_lt] at ha
    omega
  simp [maySecond, hlow 0xA0 (by decide), hlow 0x80 (by decide), hlow 0x90 (by decide)]

theorem badLen_append_ascii {bytes : Bytes} (hsome : bytes ≠ []) {a : UInt8} (ha : a < 128)
    (more : Bytes) : badLen (bytes ++ a :: more) = badLen bytes := by
  have hzero : (0 : UInt8) < 128 := by decide
  match bytes, hsome with
  | [b], _ => simp [badLen, maySecond_ascii b ha, maySecond_ascii b hzero]
  | [b, c], _ => simp [badLen, isContinuation_ascii ha, isContinuation_ascii hzero]
  | b :: c :: d :: rest, _ => rfl

theorem badLen_le (bytes : Bytes) : badLen bytes ≤ bytes.length := by
  have hzero : (0 : UInt8) < 128 := by decide
  match bytes with
  | [] => exact Nat.le_refl 0
  | [b] => simp [badLen, maySecond_ascii b hzero]
  | [b, c] =>
      simp only [badLen, List.getD_cons_zero, List.getD_cons_succ, List.getD_nil,
        isContinuation_ascii hzero]
      split <;> simp
  | b :: c :: d :: rest =>
      simp only [badLen, List.length_cons]
      split
      · split <;> omega
      · omega

theorem badLen_pos (b : UInt8) (rest : Bytes) : 0 < badLen (b :: rest) := by
  rw [badLen]
  split
  · split <;> decide
  · decide

theorem lossyWith_eq {fuel : Nat} {bytes : Bytes} (h : bytes.length ≤ fuel) :
    lossyWith fuel bytes = fromUtf8Lossy bytes := by
  suffices hany : ∀ n fuel fuel' : Nat, ∀ bytes : Bytes, bytes.length ≤ n → bytes.length ≤ fuel →
      bytes.length ≤ fuel' → lossyWith fuel bytes = lossyWith fuel' bytes from
    hany _ _ _ bytes (Nat.le_refl _) h (Nat.le_refl _)
  intro n
  induction n with
  | zero =>
      intro fuel fuel' bytes hn hf hf'
      obtain rfl := List.eq_nil_of_length_eq_zero (Nat.le_zero.mp hn)
      cases fuel <;> cases fuel' <;> rfl
  | succ n ih =>
      intro fuel fuel' bytes hn hf hf'
      cases bytes with
      | nil => cases fuel <;> cases fuel' <;> rfl
      | cons b rest =>
          simp only [List.length_cons] at hn hf hf'
          obtain ⟨fuel, rfl⟩ : ∃ m, fuel = m + 1 := ⟨fuel - 1, by omega⟩
          obtain ⟨fuel', rfl⟩ : ∃ m, fuel' = m + 1 := ⟨fuel' - 1, by omega⟩
          have hdrop : ∀ k, 0 < k → lossyWith fuel ((b :: rest).drop k) =
              lossyWith fuel' ((b :: rest).drop k) := fun k hk => by
            have hlen : ((b :: rest).drop k).length ≤ rest.length := by
              rw [List.length_drop, List.length_cons]
              omega
            exact ih fuel fuel' _ (by omega) (by omega) (by omega)
          simp only [lossyWith]
          cases leadChar? (b :: rest) with
          | some c => exact congrArg _ (hdrop _ c.utf8Size_pos)
          | none => exact congrArg _ (hdrop _ (badLen_pos b rest))

theorem fromUtf8Lossy_append_ascii (bytes : Bytes) {a : UInt8} (ha : a < 128) (more : Bytes) :
    fromUtf8Lossy (bytes ++ a :: more) =
      fromUtf8Lossy bytes ++ asciiChar a :: fromUtf8Lossy more := by
  suffices hany : ∀ n : Nat, ∀ bytes : Bytes, bytes.length ≤ n →
      fromUtf8Lossy (bytes ++ a :: more) =
        fromUtf8Lossy bytes ++ asciiChar a :: fromUtf8Lossy more from
    hany _ bytes (Nat.le_refl _)
  intro n
  induction n with
  | zero =>
      intro bytes hn
      obtain rfl := List.eq_nil_of_length_eq_zero (Nat.le_zero.mp hn)
      have hlead : leadChar? (a :: more) = some (asciiChar a) :=
        leadChar?_eq_some.mpr ⟨more, by rw [utf8EncodeChar_ascii ha]; rfl⟩
      have hsize : (asciiChar a).utf8Size = 1 := by
        rw [← String.length_utf8EncodeChar, utf8EncodeChar_ascii ha]
        rfl
      rw [List.nil_append, fromUtf8Lossy, List.length_cons, lossyWith]
      simp only [hlead, hsize, List.drop_one, List.tail_cons, lossyWith_eq (Nat.le_refl _)]
      rfl
  | succ n ih =>
      intro bytes hn
      cases hbytes : bytes with
      | nil => exact ih [] (Nat.zero_le _)
      | cons b rest =>
          rw [hbytes, List.length_cons] at hn
          have hlead := leadChar?_append_ascii (List.cons_ne_nil b rest) ha more
          have hbad := badLen_append_ascii (List.cons_ne_nil b rest) ha more
          have hstep : ∀ k, 0 < k → k ≤ (b :: rest).length →
              lossyWith (rest ++ a :: more).length (((b :: rest) ++ a :: more).drop k) =
                lossyWith rest.length ((b :: rest).drop k) ++
                  asciiChar a :: fromUtf8Lossy more := fun k hk hle => by
            have hlen : ((b :: rest).drop k).length ≤ rest.length := by
              rw [List.length_drop, List.length_cons]
              omega
            rw [List.drop_append_of_le_length hle, lossyWith_eq hlen,
              lossyWith_eq (by simp only [List.length_append]; omega), ih _ (by omega)]
          rw [List.cons_append] at hlead hbad hstep ⊢
          rw [fromUtf8Lossy, fromUtf8Lossy, List.length_cons, List.length_cons, lossyWith,
            lossyWith, hlead, hbad]
          cases hsome : leadChar? (b :: rest) with
          | none =>
              simp only [List.cons_append]
              exact congrArg _ (hstep _ (badLen_pos b rest) (badLen_le _))
          | some c =>
              have hfits : c.utf8Size ≤ (b :: rest).length := by
                obtain ⟨tail, htail⟩ := leadChar?_eq_some.mp hsome
                rw [htail, List.length_append, String.length_utf8EncodeChar]
                exact Nat.le_add_right _ _
              simp only [List.cons_append]
              exact congrArg _ (hstep _ c.utf8Size_pos hfits)

/-- The text that `bytes` spell, if they spell one. -/
def fromUtf8? (bytes : Bytes) : Option Text :=
  if (fromUtf8Lossy bytes).toUtf8 = bytes then some (fromUtf8Lossy bytes) else none

theorem fromUtf8?_eq_some {bytes : Bytes} {t : Text} :
    fromUtf8? bytes = some t ↔ t.toUtf8 = bytes := by
  unfold fromUtf8?
  constructor
  · intro h
    split at h
    · rename_i hspells
      exact (Option.some.inj h) ▸ hspells
    · simp at h
  · rintro rfl
    rw [fromUtf8Lossy_toUtf8, if_pos rfl]

/-- The characters before the last boundary at or below byte `index`. -/
def floorBoundary : Nat → Text → Text
  | _, [] => []
  | index, c :: t => if c.utf8Size ≤ index then c :: floorBoundary (index - c.utf8Size) t else []

theorem floorBoundary_prefix (index : Nat) (t : Text) : floorBoundary index t <+: t := by
  induction t generalizing index with
  | nil => exact List.nil_prefix
  | cons c t ih =>
      rw [floorBoundary]
      split
      · exact (List.cons_prefix_cons).mpr ⟨rfl, ih _⟩
      · exact List.nil_prefix

theorem utf8Len_floorBoundary_le (index : Nat) (t : Text) : (floorBoundary index t).utf8Len ≤ index := by
  induction t generalizing index with
  | nil => exact Nat.zero_le _
  | cons c t ih =>
      rw [floorBoundary]
      split
      · rename_i hfits
        have hrest := ih (index - c.utf8Size)
        rw [utf8Len_cons]
        omega
      · exact Nat.zero_le _

theorem prefix_floorBoundary {index : Nat} {s t : Text} (hs : s <+: t) (hlen : s.utf8Len ≤ index) :
    s <+: floorBoundary index t := by
  induction t generalizing index s with
  | nil => exact hs
  | cons c t ih =>
      cases s with
      | nil => exact List.nil_prefix
      | cons d s =>
          obtain ⟨rfl, htail⟩ := (List.cons_prefix_cons).mp hs
          rw [utf8Len_cons] at hlen
          rw [floorBoundary, if_pos (by omega)]
          exact (List.cons_prefix_cons).mpr ⟨rfl, ih htail (by omega)⟩

end Text

end Slopty.Lib
