import Slopty.Lib.Utf8

/-!
The directory a shell reports, as a URL writes it: its percent-encoded path read back.
-/

namespace Slopty.Engine.Percent

open Slopty.Lib

def percentSign : UInt8 := 0x25

def plusSign : UInt8 := 0x2B

/-- The value of a hexadecimal digit, of either case. -/
def hexValue? (b : UInt8) : Option Nat :=
  if 0x30 ≤ b ∧ b ≤ 0x39 then some (b.toNat - 0x30)
  else if 0x61 ≤ b ∧ b ≤ 0x66 then some (b.toNat - 0x61 + 10)
  else if 0x41 ≤ b ∧ b ≤ 0x46 then some (b.toNat - 0x41 + 10)
  else none

/-- The number that hexadecimal digits spell, with or without a plus sign before them. -/
def fromStrRadix16 (text : Bytes) : Option UInt8 :=
  let digits := if text.head? = some plusSign then text.tail else text
  if digits = [] then none
  else
    (digits.foldlM (fun n b => (hexValue? b).map fun d => 16 * n + d) 0).bind fun n =>
      if n < 256 then some (UInt8.ofNat n) else none

/-- The byte that `b` stands for with the two bytes after it. -/
def decoded (b : UInt8) (hex : Bytes) : Option UInt8 :=
  if b = percentSign then
    (Text.fromUtf8? hex).bind fun hex => fromStrRadix16 hex.toUtf8
  else none

def percentDecodeBytes : Bytes → Bytes
  | b :: h :: l :: rest =>
      match decoded b [h, l] with
      | some v => v :: percentDecodeBytes rest
      | none => b :: percentDecodeBytes (h :: l :: rest)
  | b :: rest => b :: percentDecodeBytes rest
  | [] => []

def percentDecode (s : Text) : Text := Text.fromUtf8Lossy (percentDecodeBytes s.toUtf8)

/-- Percent-encoding read back: from the left, a percent sign and two hexadecimal digits are the
byte they name, and every other byte is itself. -/
inductive Decodes : Bytes → Bytes → Prop where
  | nil : Decodes [] []
  | escape {h l : UInt8} {x y : Nat} {rest out : Bytes} : hexValue? h = some x →
      hexValue? l = some y → Decodes rest out →
      Decodes (percentSign :: h :: l :: rest) (UInt8.ofNat (16 * x + y) :: out)
  | other {b : UInt8} {rest out : Bytes} :
      (∀ h l more, b = percentSign → rest = h :: l :: more →
        hexValue? h = none ∨ hexValue? l = none) →
      Decodes rest out → Decodes (b :: rest) (b :: out)

def Signed (s : Bytes) : Prop :=
  ∃ before h rest, s = before ++ percentSign :: plusSign :: h :: rest ∧ (hexValue? h).isSome

/-- A way to percent-encode: a byte is itself, unless it is a percent sign, or it is escaped. -/
inductive Encodes : Bytes → Bytes → Prop where
  | nil : Encodes [] []
  | plain {b : UInt8} {rest out : Bytes} : b ≠ percentSign → Encodes rest out →
      Encodes (b :: rest) (b :: out)
  | escape {b h l : UInt8} {x y : Nat} {rest out : Bytes} : hexValue? h = some x →
      hexValue? l = some y → b = UInt8.ofNat (16 * x + y) → Encodes rest out →
      Encodes (b :: rest) (percentSign :: h :: l :: out)

theorem hexValue?_bounds {b : UInt8} {x : Nat} (h : hexValue? b = some x) :
    x < 16 ∧ b < 128 ∧ b ≠ percentSign ∧ b ≠ plusSign := by
  have hsign : percentSign.toNat = 37 ∧ plusSign.toNat = 43 := by decide
  simp only [hexValue?, UInt8.le_iff_toNat_le, UInt8.lt_iff_toNat_lt, ne_eq,
    ← UInt8.toNat_inj] at h ⊢
  simp only [UInt8.reduceToNat] at h ⊢
  split at h
  · have := Option.some.inj h
    omega
  · split at h
    · have := Option.some.inj h
      omega
    · split at h
      · have := Option.some.inj h
        omega
      · simp at h

theorem fromStrRadix16_plus (l : UInt8) :
    fromStrRadix16 [plusSign, l] = (hexValue? l).map UInt8.ofNat := by
  unfold fromStrRadix16
  cases hy : hexValue? l with
  | none => simp [hy]
  | some y =>
      obtain ⟨hy16, -⟩ := hexValue?_bounds hy
      have hbyte : y < 256 := by omega
      simp [hy, hbyte]

theorem fromStrRadix16_pair {h : UInt8} (hplus : h ≠ plusSign) (l : UInt8) :
    fromStrRadix16 [h, l] =
      (hexValue? h).bind fun x => (hexValue? l).map fun y => UInt8.ofNat (16 * x + y) := by
  unfold fromStrRadix16
  cases hx : hexValue? h with
  | none => simp [hx, hplus]
  | some x =>
      cases hy : hexValue? l with
      | none => simp [hx, hy, hplus]
      | some y =>
          obtain ⟨hx16, -⟩ := hexValue?_bounds hx
          obtain ⟨hy16, -⟩ := hexValue?_bounds hy
          have hbyte : 16 * x + y < 256 := by omega
          simp [hx, hy, hplus, hbyte]

theorem decoded_ascii {h l : UInt8} (hh : h < 128) (hl : l < 128) :
    decoded percentSign [h, l] = fromStrRadix16 [h, l] := by
  have hascii : ∀ b ∈ [h, l], b < 128 := by simp [hh, hl]
  have hspells := Text.fromUtf8?_eq_some.mpr (Text.toUtf8_map_asciiChar hascii)
  rw [decoded, if_pos rfl, hspells, Option.bind_some, Text.toUtf8_map_asciiChar hascii]

theorem decoded_hex {h l : UInt8} {x y : Nat} (hx : hexValue? h = some x)
    (hy : hexValue? l = some y) : decoded percentSign [h, l] = some (UInt8.ofNat (16 * x + y)) := by
  obtain ⟨-, hh, -, hplus⟩ := hexValue?_bounds hx
  obtain ⟨-, hl, -⟩ := hexValue?_bounds hy
  rw [decoded_ascii hh hl, fromStrRadix16_pair hplus, hx, hy]
  rfl

theorem decoded_plus {l : UInt8} {y : Nat} (hy : hexValue? l = some y) :
    decoded percentSign [plusSign, l] = some (UInt8.ofNat y) := by
  obtain ⟨-, hl, -⟩ := hexValue?_bounds hy
  rw [decoded_ascii (by decide) hl, fromStrRadix16_plus, hy]
  rfl

theorem decoded_cases {b h l v : UInt8} (hv : decoded b [h, l] = some v) :
    b = percentSign ∧ ∃ y, hexValue? l = some y ∧
      ((∃ x, hexValue? h = some x ∧ v = UInt8.ofNat (16 * x + y)) ∨
        (h = plusSign ∧ v = UInt8.ofNat y)) := by
  unfold decoded at hv
  split at hv
  · rename_i hb
    obtain ⟨t, ht, hv⟩ := Option.bind_eq_some_iff.mp hv
    rw [Text.fromUtf8?_eq_some.mp ht] at hv
    refine ⟨hb, ?_⟩
    by_cases hplus : h = plusSign
    · rw [hplus, fromStrRadix16_plus] at hv
      obtain ⟨y, hy, rfl⟩ := Option.map_eq_some_iff.mp hv
      exact ⟨y, hy, Or.inr ⟨hplus, rfl⟩⟩
    · rw [fromStrRadix16_pair hplus] at hv
      obtain ⟨x, hx, hv⟩ := Option.bind_eq_some_iff.mp hv
      obtain ⟨y, hy, rfl⟩ := Option.map_eq_some_iff.mp hv
      exact ⟨y, hy, Or.inl ⟨x, hx, rfl⟩⟩
  · simp at hv

/-- What follows a byte that stands for itself is decoded by itself. -/
theorem percentDecodeBytes_plain {b : UInt8} {rest : Bytes}
    (hb : ∀ h l more, rest = h :: l :: more → decoded b [h, l] = none) :
    percentDecodeBytes (b :: rest) = b :: percentDecodeBytes rest := by
  match rest with
  | [] => rfl
  | [h] => rfl
  | h :: l :: more => rw [percentDecodeBytes, hb h l more rfl]

theorem percentDecodeBytes_escape {h l v : UInt8} (rest : Bytes)
    (hv : decoded percentSign [h, l] = some v) :
    percentDecodeBytes (percentSign :: h :: l :: rest) = v :: percentDecodeBytes rest := by
  rw [percentDecodeBytes, hv]

theorem signed_cons {b : UInt8} {rest : Bytes} :
    Signed (b :: rest) ↔
      (b = percentSign ∧ ∃ h more, rest = plusSign :: h :: more ∧ (hexValue? h).isSome) ∨
        Signed rest := by
  constructor
  · rintro ⟨before, h, more, heq, hh⟩
    cases before with
    | nil =>
        obtain ⟨rfl, rfl⟩ := List.cons.inj heq
        exact Or.inl ⟨rfl, h, more, rfl, hh⟩
    | cons c before =>
        obtain ⟨rfl, rfl⟩ := List.cons.inj heq
        exact Or.inr ⟨before, h, more, rfl, hh⟩
  · rintro (⟨rfl, h, more, rfl, hh⟩ | ⟨before, h, more, rfl, hh⟩)
    · exact ⟨[], h, more, rfl, hh⟩
    · exact ⟨b :: before, h, more, rfl, hh⟩

theorem signed_cons_of_ne {b : UInt8} {rest : Bytes} (hb : b ≠ percentSign) :
    Signed (b :: rest) ↔ Signed rest := by
  rw [signed_cons]
  exact or_iff_right fun h => hb h.1

theorem signed_escape {h l : UInt8} {x y : Nat} {rest : Bytes} (hx : hexValue? h = some x)
    (hy : hexValue? l = some y) : Signed (percentSign :: h :: l :: rest) ↔ Signed rest := by
  obtain ⟨-, -, hh, hplus⟩ := hexValue?_bounds hx
  obtain ⟨-, -, hl, -⟩ := hexValue?_bounds hy
  rw [signed_cons, signed_cons_of_ne hh, signed_cons_of_ne hl]
  refine or_iff_right ?_
  rintro ⟨-, d, more, heq, -⟩
  exact hplus (List.cons.inj heq).1

theorem Decodes.unique {s out out' : Bytes} (h : Decodes s out) (h' : Decodes s out') :
    out = out' := by
  induction h generalizing out' with
  | nil => cases h'; rfl
  | escape hx hy _ ih =>
      cases h' with
      | escape hx' hy' hrest =>
          rw [hx] at hx'
          rw [hy] at hy'
          rw [Option.some.inj hx', Option.some.inj hy', ih hrest]
      | other hb _ =>
          rcases hb _ _ _ rfl rfl with hno | hno
          · rw [hx] at hno
            simp at hno
          · rw [hy] at hno
            simp at hno
  | other hb _ ih =>
      cases h' with
      | escape hx' hy' _ =>
          rcases hb _ _ _ rfl rfl with hno | hno
          · rw [hx'] at hno
            simp at hno
          · rw [hy'] at hno
            simp at hno
      | other _ hrest => rw [ih hrest]

theorem exists_decodes (s : Bytes) : ∃ out, Decodes s out := by
  suffices hany : ∀ n (s : Bytes), s.length ≤ n → ∃ out, Decodes s out from
    hany _ s (Nat.le_refl _)
  intro n
  induction n with
  | zero =>
      intro s hs
      obtain rfl := List.eq_nil_of_length_eq_zero (Nat.le_zero.mp hs)
      exact ⟨[], .nil⟩
  | succ n ih =>
      intro s hs
      match s with
      | [] => exact ⟨[], .nil⟩
      | b :: rest =>
          rw [List.length_cons] at hs
          by_cases hesc : ∃ h l more x y, b = percentSign ∧ rest = h :: l :: more ∧
              hexValue? h = some x ∧ hexValue? l = some y
          · obtain ⟨h, l, more, x, y, rfl, rfl, hx, hy⟩ := hesc
            simp only [List.length_cons] at hs
            obtain ⟨out, hout⟩ := ih more (by omega)
            exact ⟨_, .escape hx hy hout⟩
          · obtain ⟨out, hout⟩ := ih rest (by omega)
            refine ⟨b :: out, .other (fun h l more hb hrest => ?_) hout⟩
            by_contra hboth
            rw [not_or] at hboth
            obtain ⟨x, hx⟩ := Option.ne_none_iff_exists'.mp hboth.1
            obtain ⟨y, hy⟩ := Option.ne_none_iff_exists'.mp hboth.2
            exact hesc ⟨h, l, more, x, y, hb, hrest, hx, hy⟩

/-- Past a percent sign with a plus sign and a digit after it the two part: one byte of less
than 16 stands where the percent sign should. -/
theorem percentDecodeBytes_of_decodes {s out : Bytes} (h : Decodes s out) :
    (¬ Signed s ∧ percentDecodeBytes s = out) ∨
      (Signed s ∧ ∃ p v r r', v < 16 ∧ percentDecodeBytes s = p ++ v :: r ∧
        out = p ++ percentSign :: r') := by
  induction h with
  | nil => exact Or.inl ⟨fun ⟨before, _, _, heq, _⟩ => by cases before <;> simp at heq, rfl⟩
  | @escape h l x y rest out hx hy _ ih =>
      rw [signed_escape hx hy, percentDecodeBytes_escape rest (decoded_hex hx hy)]
      rcases ih with ⟨hno, heq⟩ | ⟨hsigned, p, v, r, r', hv, heq, rfl⟩
      · exact Or.inl ⟨hno, by rw [heq]⟩
      · exact Or.inr ⟨hsigned, _ :: p, v, r, r', hv, by rw [heq]; rfl, rfl⟩
  | @other b rest out hb _ ih =>
      by_cases hplus : ∃ d more y, b = percentSign ∧ rest = plusSign :: d :: more ∧
          hexValue? d = some y
      · obtain ⟨d, more, y, rfl, rfl, hy⟩ := hplus
        obtain ⟨hy16, -⟩ := hexValue?_bounds hy
        refine Or.inr ⟨signed_cons.mpr (Or.inl ⟨rfl, d, more, rfl, by simp [hy]⟩), [],
          UInt8.ofNat y, percentDecodeBytes more, out, ?_, ?_, rfl⟩
        · rw [UInt8.lt_iff_toNat_lt, UInt8.toNat_ofNat']
          exact Nat.lt_of_le_of_lt (Nat.mod_le _ _) hy16
        · exact percentDecodeBytes_escape more (decoded_plus hy)
      · have hplain : ∀ d l more, rest = d :: l :: more → decoded b [d, l] = none := by
          intro d l more hrest
          rw [Option.eq_none_iff_forall_ne_some]
          intro v hv
          obtain ⟨rfl, y, hy, ⟨x, hx, -⟩ | ⟨rfl, -⟩⟩ := decoded_cases hv
          · rcases hb d l more rfl hrest with hno | hno
            · rw [hx] at hno
              simp at hno
            · rw [hy] at hno
              simp at hno
          · exact hplus ⟨l, more, y, rfl, hrest, hy⟩
        have hsigned : Signed (b :: rest) ↔ Signed rest := by
          rw [signed_cons]
          refine or_iff_right ?_
          rintro ⟨rfl, d, more, rfl, hd⟩
          obtain ⟨y, hy⟩ := Option.isSome_iff_exists.mp hd
          exact hplus ⟨d, more, y, rfl, rfl, hy⟩
        rw [hsigned, percentDecodeBytes_plain hplain]
        rcases ih with ⟨hno, heq⟩ | ⟨hyes, p, v, r, r', hv, heq, rfl⟩
        · exact Or.inl ⟨hno, by rw [heq]⟩
        · exact Or.inr ⟨hyes, b :: p, v, r, r', hv, by rw [heq]; rfl, rfl⟩

theorem percentDecodeBytes_decodes_iff (s : Bytes) :
    Decodes s (percentDecodeBytes s) ↔ ¬ Signed s := by
  obtain ⟨out, hout⟩ := exists_decodes s
  rcases percentDecodeBytes_of_decodes hout with ⟨hno, heq⟩ | ⟨hyes, p, v, r, r', hv, heq, hpart⟩
  · rw [heq]
    exact iff_of_true hout hno
  · refine iff_of_false (fun h => ?_) (not_not.mpr hyes)
    rw [h.unique hout, hpart] at heq
    have hsame := (List.cons.inj (List.append_cancel_left heq)).1
    rw [← hsame] at hv
    exact absurd hv (by decide)

/-- As text, with what spells none replaced, the two differ as well. -/
theorem percentDecode_reads_iff (s : Text) :
    (∃ out, Decodes s.toUtf8 out ∧ percentDecode s = Text.fromUtf8Lossy out) ↔
      ¬ Signed s.toUtf8 := by
  constructor
  · rintro ⟨out, hout, hsame⟩
    rcases percentDecodeBytes_of_decodes hout with ⟨hno, -⟩ | ⟨-, p, v, r, r', hv, heq, hpart⟩
    · exact hno
    · exfalso
      have hascii : v < 128 := UInt8.lt_trans hv (by decide)
      rw [percentDecode, heq, hpart, Text.fromUtf8Lossy_append_ascii p hascii,
        Text.fromUtf8Lossy_append_ascii p (by decide)] at hsame
      have hchar := (List.cons.inj (List.append_cancel_left hsame)).1
      have hbyte := congrArg String.utf8EncodeChar hchar
      rw [Text.utf8EncodeChar_ascii hascii, Text.utf8EncodeChar_ascii (by decide)] at hbyte
      rw [(List.cons.inj hbyte).1] at hv
      exact absurd hv (by decide)
  · intro hno
    exact ⟨_, (percentDecodeBytes_decodes_iff _).mpr hno, rfl⟩

/-- An encoding is read back as what was encoded, and has no sign after a percent sign. -/
theorem Encodes.decodes {path enc : Bytes} (h : Encodes path enc) :
    ¬ Signed enc ∧ percentDecodeBytes enc = path := by
  induction h with
  | nil => exact ⟨fun ⟨before, _, _, heq, _⟩ => by cases before <;> simp at heq, rfl⟩
  | @plain b rest out hb _ ih =>
      have hplain : ∀ h l more, out = h :: l :: more → decoded b [h, l] = none :=
        fun _ _ _ _ => if_neg hb
      rw [signed_cons_of_ne hb, percentDecodeBytes_plain hplain, ih.2]
      exact ⟨ih.1, rfl⟩
  | @escape b h l x y rest out hx hy hb _ ih =>
      rw [signed_escape hx hy, percentDecodeBytes_escape out (decoded_hex hx hy), ih.2, hb]
      exact ⟨ih.1, rfl⟩

end Slopty.Engine.Percent
