import Slopty.Lib.Utf8

/-!
What each end of a link says before its first message: that it is Slopty, and which wire it
speaks.
-/

namespace Slopty.Proto.Wire

open Slopty.Lib

/-- The first bytes of every control stream, both ways. -/
def magic : Bytes := [0x53, 0x4C, 0x4F, 0x50, 0x54, 0x59]

def headBytes : Nat := magic.length + 8 + 1

def buildMax : Nat := 255

/-- One end's word on its wire. -/
structure Prefix where
  fingerprint : UInt64
  build : Text
  deriving DecidableEq, Repr

inductive NotSlopty where
  | notSlopty
  deriving DecidableEq, Repr

namespace Prefix

/-- The bytes on the stream. -/
def encode (p : Prefix) : Bytes :=
  let build := (Text.floorBoundary buildMax p.build).toUtf8
  magic ++ leBytes 8 p.fingerprint.toNat ++ [UInt8.ofNat (min build.length 255)] ++ build

/-- The prefix at the start of `buf` and how many bytes it took; `none` until all of it is
there. -/
def decode (buf : Bytes) : Except NotSlopty (Option (Prefix × Nat)) :=
  if (buf.take magic.length).isPrefixOf magic then
    if buf.length < headBytes then .ok none
    else
      let fingerprint := UInt64.ofNat (ofLe ((buf.drop magic.length).take 8))
      let stop := headBytes + (buf.getD (headBytes - 1) 0).toNat
      if buf.length < stop then .ok none
      else
        let build := Text.fromUtf8Lossy ((buf.take stop).drop headBytes)
        .ok (some (⟨fingerprint, build⟩, stop))
  else .error .notSlopty

/-- The prefix as the other end reads it: its build cut at a character boundary. -/
def cut (p : Prefix) : Prefix := { p with build := Text.floorBoundary buildMax p.build }

theorem encode_eq (p : Prefix) :
    p.encode = magic ++ (leBytes 8 p.fingerprint.toNat ++
      (UInt8.ofNat p.cut.build.toUtf8.length :: p.cut.build.toUtf8)) := by
  have hlen : p.cut.build.toUtf8.length ≤ 255 := by
    rw [Text.length_toUtf8]
    exact Text.utf8Len_floorBoundary_le _ _
  simp only [encode, cut] at hlen ⊢
  rw [Nat.min_eq_left hlen]
  simp

theorem length_encode (p : Prefix) : p.encode.length = headBytes + p.cut.build.toUtf8.length := by
  rw [encode_eq]
  simp only [List.length_append, leBytes_length, List.length_cons, headBytes]
  omega

/-- A stream is refused exactly when a byte of it differs from the magic's. -/
theorem decode_error_iff (buf : Bytes) :
    decode buf = .error .notSlopty ↔
      ∃ i b, i < magic.length ∧ buf[i]? = some b ∧ magic[i]? ≠ some b := by
  have hopens : (buf.take magic.length).isPrefixOf magic = false ↔
      ∃ i b, i < magic.length ∧ buf[i]? = some b ∧ magic[i]? ≠ some b := by
    rw [Bool.eq_false_iff, ne_eq, List.isPrefixOf_iff_prefix, List.prefix_iff_getElem?]
    constructor
    · intro h
      obtain ⟨i, hi, hne⟩ := not_forall₂.mp h
      have hlt : i < magic.length := by
        rw [List.length_take] at hi
        omega
      refine ⟨i, (buf.take magic.length)[i], hlt, ?_, hne⟩
      rw [← List.getElem?_take_of_lt hlt, List.getElem?_eq_getElem hi]
    · rintro ⟨i, b, hlt, hb, hne⟩ h
      have htake : (buf.take magic.length)[i]? = some b := by rw [List.getElem?_take_of_lt hlt, hb]
      obtain ⟨hi, hget⟩ := List.getElem?_eq_some_iff.mp htake
      exact hne (hget ▸ h i hi)
  rw [← hopens]
  unfold decode
  cases (buf.take magic.length).isPrefixOf magic with
  | false => simp
  | true =>
      simp only [if_true, Bool.true_eq_false, iff_false]
      split
      · exact nofun
      · split <;> exact nofun

/-- A stream not refused whose head is not all there is waited for. -/
theorem decode_short {buf : Bytes} (hopens : decode buf ≠ .error .notSlopty)
    (hlen : buf.length < headBytes) : decode buf = .ok none := by
  unfold decode at hopens ⊢
  split at hopens
  · rename_i h
    rw [if_pos h, if_pos hlen]
  · exact absurd rfl hopens

theorem getD_encode_append (p : Prefix) (rest : Bytes) :
    (p.encode ++ rest).getD (headBytes - 1) 0 = UInt8.ofNat p.cut.build.toUtf8.length := by
  have hsplit : p.encode ++ rest = (magic ++ leBytes 8 p.fingerprint.toNat) ++
      (UInt8.ofNat p.cut.build.toUtf8.length :: (p.cut.build.toUtf8 ++ rest)) := by
    rw [encode_eq]
    simp
  have hat : (magic ++ leBytes 8 p.fingerprint.toNat).length = headBytes - 1 := by
    simp [headBytes, magic]
  rw [List.getD_eq_getElem?_getD, hsplit, ← hat, List.getElem?_append_right (Nat.le_refl _)]
  simp

theorem stop_encode (p : Prefix) :
    headBytes + (UInt8.ofNat p.cut.build.toUtf8.length).toNat = p.encode.length := by
  have hlen : p.cut.build.toUtf8.length ≤ 255 := by
    rw [Text.length_toUtf8]
    exact Text.utf8Len_floorBoundary_le _ _
  rw [length_encode, UInt8.toNat_ofNat', Nat.mod_eq_of_lt (by omega)]

theorem decode_encode_append (p : Prefix) (rest : Bytes) :
    decode (p.encode ++ rest) = .ok (some (p.cut, p.encode.length)) := by
  have hopens : ((p.encode ++ rest).take magic.length).isPrefixOf magic = true := by
    rw [encode_eq, List.append_assoc, List.take_left]
    rfl
  have hlonger : p.encode.length ≤ (p.encode ++ rest).length := by simp
  have hfinger : ((p.encode ++ rest).drop magic.length).take 8 = leBytes 8 p.fingerprint.toNat := by
    rw [encode_eq, List.append_assoc, List.drop_left, List.append_assoc]
    exact List.take_left' (leBytes_length 8 _)
  have hbuild : ((p.encode ++ rest).take p.encode.length).drop headBytes = p.cut.build.toUtf8 := by
    rw [List.take_left]
    have hsplit : p.encode = (magic ++ leBytes 8 p.fingerprint.toNat ++
        [UInt8.ofNat p.cut.build.toUtf8.length]) ++ p.cut.build.toUtf8 := by
      rw [encode_eq]
      simp
    have hat : (magic ++ leBytes 8 p.fingerprint.toNat ++
        [UInt8.ofNat p.cut.build.toUtf8.length]).length = headBytes := by
      simp [headBytes, magic]
    rw [hsplit, ← hat, List.drop_left]
  unfold decode
  rw [if_pos hopens, getD_encode_append, stop_encode, hfinger]
  dsimp only
  rw [hbuild]
  have hmost := length_encode p
  rw [if_neg (by omega), if_neg (by omega), Text.fromUtf8Lossy_toUtf8]
  have hnumber : UInt64.ofNat (ofLe (leBytes 8 p.fingerprint.toNat)) = p.fingerprint := by
    apply UInt64.toNat_inj.mp
    have hlt := p.fingerprint.toNat_lt
    rw [ofLe_leBytes, UInt64.toNat_ofNat', Nat.mod_mod_of_dvd _ (by decide),
      Nat.mod_eq_of_lt (by omega)]
  rw [hnumber]
  rfl

/-- The start of an encoding says that it is Slopty, however short it is. -/
theorem opens_take_encode (p : Prefix) (n : Nat) :
    ((p.encode.take n).take magic.length).isPrefixOf magic = true := by
  rw [List.isPrefixOf_iff_prefix, List.take_take, encode_eq,
    List.take_append_of_le_length (Nat.min_le_left _ _)]
  exact List.take_prefix _ _

theorem decode_take_encode (p : Prefix) {n : Nat} (hn : n < p.encode.length) :
    decode (p.encode.take n) = .ok none := by
  have hlength : (p.encode.take n).length = n := by
    rw [List.length_take]
    omega
  unfold decode
  rw [if_pos (opens_take_encode p n), hlength]
  split
  · rfl
  · rename_i hhead
    have hplace : headBytes - 1 < n := by
      have : 0 < headBytes := by decide
      omega
    -- The head is there, and says how long the whole is.
    have hsize : (p.encode.take n).getD (headBytes - 1) 0 = UInt8.ofNat p.cut.build.toUtf8.length := by
      rw [List.getD_eq_getElem?_getD, List.getElem?_take_of_lt hplace, ← List.getD_eq_getElem?_getD]
      have := getD_encode_append p []
      rwa [List.append_nil] at this
    rw [hsize, stop_encode]
    exact if_pos hn

/-- The longest start of `t` of at most `limit` bytes that cuts no character. -/
def LongestWithin (limit : Nat) (t cut : Text) : Prop :=
  cut <+: t ∧ cut.utf8Len ≤ limit ∧ ∀ s : Text, s <+: t → s.utf8Len ≤ limit → s <+: cut

theorem cut_longest (p : Prefix) : LongestWithin buildMax p.build p.cut.build :=
  ⟨Text.floorBoundary_prefix _ _, Text.utf8Len_floorBoundary_le _ _,
    fun _ hs hlen => Text.prefix_floorBoundary hs hlen⟩

/-- A prefix is read back with its build cut, is waited for until all of it is there, and nothing
else is taken for one: a stream is refused at the first byte where it differs from the magic. -/
theorem prefix_answers :
    (∀ p : Prefix, ∃ cut, LongestWithin buildMax p.build cut ∧
      decode p.encode = .ok (some ({ p with build := cut }, p.encode.length)) ∧
      ∀ n, n < p.encode.length → decode (p.encode.take n) = .ok none) ∧
    ∀ (buf : Bytes) (i : Nat) (b : UInt8), i < magic.length → buf[i]? = some b →
      magic[i]? ≠ some b → (∀ j, j < i → buf[j]? = magic[j]?) →
      ∀ n, decode (buf.take n) = if i < n then .error .notSlopty else .ok none := by
  constructor
  · intro p
    refine ⟨p.cut.build, p.cut_longest, ?_, fun n hn => decode_take_encode p hn⟩
    have := decode_encode_append p []
    rwa [List.append_nil] at this
  · intro buf i b hi hb hne hbefore n
    split
    · rename_i hn
      rw [decode_error_iff]
      exact ⟨i, b, hi, by rw [List.getElem?_take_of_lt hn, hb], hne⟩
    · rename_i hn
      have hhead : magic.length < headBytes := by decide
      refine decode_short ?_ (by rw [List.length_take]; omega)
      rw [ne_eq, decode_error_iff]
      rintro ⟨j, d, -, hd, hdiffers⟩
      have hj : j < n := by
        by_contra hge
        rw [List.getElem?_take_eq_none (not_lt.mp hge)] at hd
        exact absurd hd (by simp)
      rw [List.getElem?_take_of_lt hj, hbefore j (by omega)] at hd
      exact hdiffers hd

theorem prefix_answers_one :
    decode ((⟨0x0123456789abcdef, "0.1.0+é".toList⟩ : Prefix).encode.take 20) = .ok none ∧
      decode ([0x53, 0x4C, 0x58].take 3) = .error .notSlopty ∧
      decode ([0x53, 0x4C, 0x58].take 2) = .ok none := by
  obtain ⟨cut, -, -, hwait⟩ := prefix_answers.1 ⟨0x0123456789abcdef, "0.1.0+é".toList⟩
  have hrefuse := prefix_answers.2 [0x53, 0x4C, 0x58] 2 0x58 (by decide) rfl (by decide)
    (by decide)
  exact ⟨hwait 20 (by decide), hrefuse 3, hrefuse 2⟩

end Prefix

end Slopty.Proto.Wire
