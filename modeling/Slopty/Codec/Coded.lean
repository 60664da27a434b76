import Slopty.Codec.Conformance

/-!
What the bit-level codes keep: an escaped unit holds no start code and gives its RBSP back, and
codes written one after another are read back from where they were begun.
-/

namespace Slopty.Codec.Conformance

open Slopty.Lib

section Escaping

theorem not_infix_cons {b x : UInt8} {bytes : Bytes} (hx : x ≠ 0) (h : ¬ [0, 0, b] <:+: bytes) :
    ¬ [0, 0, b] <:+: x :: bytes := by
  rw [List.infix_cons_iff, List.cons_prefix_cons]
  rintro (⟨hzero, -⟩ | hinfix)
  · exact hx hzero.symm
  · exact h hinfix

/-- Zeros before a byte that does not go on from them. -/
theorem not_infix_zeros_append {b x : UInt8} {zeros : Nat} {bytes : Bytes} (hx : x ≠ 0)
    (hzeros : zeros ≤ 2) (hlast : zeros = 2 → x ≠ b) (h : ¬ [0, 0, b] <:+: bytes) :
    ¬ [0, 0, b] <:+: List.replicate zeros 0 ++ x :: bytes := by
  have hcons := not_infix_cons hx h
  obtain rfl | rfl | rfl : zeros = 0 ∨ zeros = 1 ∨ zeros = 2 := by omega
  · exact hcons
  · change ¬ _ <:+: 0 :: x :: bytes
    rw [List.infix_cons_iff, List.cons_prefix_cons, List.cons_prefix_cons]
    rintro (⟨-, hzero, -⟩ | hinfix)
    · exact hx hzero.symm
    · exact hcons hinfix
  · change ¬ _ <:+: 0 :: 0 :: x :: bytes
    rw [List.infix_cons_iff, List.infix_cons_iff, List.cons_prefix_cons, List.cons_prefix_cons,
      List.cons_prefix_cons, List.cons_prefix_cons, List.cons_prefix_cons]
    rintro (⟨-, -, hb, -⟩ | ⟨-, hzero, -⟩ | hinfix)
    · exact hlast rfl hb.symm
    · exact hx hzero.symm
    · exact hcons hinfix

/-- Behind as many zeros as the escaping has counted, what it writes holds no start code. -/
theorem not_infix_escapeWith {b : UInt8} (hb : b ≤ 2) {zeros : Nat} (hzeros : zeros ≤ 2)
    (rbsp : Bytes) : ¬ [0, 0, b] <:+: List.replicate zeros 0 ++ escapeWith zeros rbsp := by
  induction rbsp generalizing zeros with
  | nil =>
    intro h
    have hlength := h.length_le
    rw [escapeWith, List.append_nil, List.length_replicate, List.length_cons, List.length_cons,
      List.length_singleton] at hlength
    omega
  | cons c rest ih =>
    simp only [escapeWith]
    split
    · -- the byte put in stops the zeros, and the counting begins again at `c`
      refine not_infix_zeros_append (by decide) hzeros (fun _ h => ?_) ?_
      · exact absurd (h ▸ hb) (by decide)
      · by_cases hc : c = 0
        · rw [if_pos hc, hc]
          exact ih (by decide : 1 ≤ 2)
        · rw [if_neg hc]
          exact not_infix_cons hc (ih (Nat.zero_le 2))
    · rename_i hplain
      by_cases hc : c = 0
      · have hfew : zeros + 1 ≤ 2 := by
          by_contra hmany
          exact hplain ⟨by omega, hc ▸ by decide⟩
        rw [if_pos hc, hc, List.append_cons, ← List.replicate_succ']
        exact ih hfew
      · rw [if_neg hc]
        refine not_infix_zeros_append hc hzeros (fun htwo h => ?_) (ih (Nat.zero_le 2))
        exact hplain ⟨htwo.ge, UInt8.le_trans (h ▸ hb) (by decide)⟩

end Escaping

section Codes

open Parse

/-- One code as it is written: a number that has an Exp-Golomb code, or a bit. -/
inductive Code where
  | ue (v : Fin (2 ^ 32 - 1))
  | bit (set : Bool)

inductive Kind where
  | ue
  | flag

namespace Code

def kind : Code → Kind
  | ue _ => .ue
  | bit _ => .flag

def write (out : BitWriter) : Code → BitWriter
  | ue v => out.ue v
  | bit set => out.bit set

def bits : Code → List Bool
  | ue v => ueBits v
  | bit set => [set]

theorem write_eq (out : BitWriter) (code : Code) : code.write out = code.bits.foldl BitWriter.bit out := by
  cases code with
  | ue v => exact BitWriter.ue_eq out v
  | bit set => rfl

end Code

/-- What is read where a code of a kind is expected, a number or a bit. -/
def Kind.read : Kind → Parse (Nat ⊕ Bool)
  | ue => Parse.ue.map .inl
  | flag => Parse.flag.map .inr

def Code.value : Code → Nat ⊕ Bool
  | ue v => .inl v
  | bit set => .inr set

def readAll : List Kind → Parse (List (Nat ⊕ Bool))
  | [] => ok []
  | kind :: kinds => kind.read.andThen fun value => (readAll kinds).map (value :: ·)

theorem Code.reads (code : Code) : code.kind.read.Reads code.value code.bits := by
  cases code with
  | ue v =>
    have hv : v.val + 1 < 2 ^ 32 := by omega
    exact (ue_reads hv).map Sum.inl
  | bit set => exact (Reads.flag set).map Sum.inr

theorem readAll_reads (codes : List Code) :
    (readAll (codes.map Code.kind)).Reads (codes.map Code.value) (codes.flatMap Code.bits) := by
  induction codes with
  | nil => exact Reads.ok []
  | cons code codes ih => exact code.reads.andThen (ih.map (code.value :: ·))

theorem foldl_write (out : BitWriter) (codes : List Code) :
    codes.foldl (fun out code => code.write out) out =
      (codes.flatMap Code.bits).foldl BitWriter.bit out := by
  induction codes generalizing out with
  | nil => rfl
  | cons code codes ih => rw [List.foldl_cons, ih, Code.write_eq, List.flatMap_cons, List.foldl_append]

/-- The bit a writer has got to. -/
def bitsWritten (out : BitWriter) : Nat :=
  if out.used = 0 then 8 * out.bytes.length else 8 * (out.bytes.length - 1) + out.used

theorem bitsWritten_of_holds {out : BitWriter} {bits : List Bool} (h : out.Holds bits) :
    bitsWritten out = bits.length := by
  obtain ⟨pad, hpad, hpadded⟩ := h.padded
  have hlength := congrArg List.length hpadded
  rw [length_bitsOf, List.length_append, List.length_replicate] at hlength
  have hused := h.used
  rw [bitsWritten]
  split
  · omega
  · omega

/-- A reader of some bytes that has got to a bit. -/
def readerAt (bytes : Bytes) (pos : Nat) : BitReader := ⟨(bitsOf bytes).drop pos, pos⟩

theorem codes_read_back (before : List Bool) (codes : List Code) :
    let began := before.foldl BitWriter.bit .empty
    let out := codes.foldl (fun out code => code.write out) began
    readAll (codes.map Code.kind) (readerAt out.bytes (bitsWritten began)) =
      some (codes.map Code.value, readerAt out.bytes (bitsWritten out)) := by
  intro began out
  have hbegan : began.Holds before := BitWriter.holds_empty.foldl_bit before
  have hout : out.Holds (before ++ codes.flatMap Code.bits) := by
    have := hbegan.foldl_bit (codes.flatMap Code.bits)
    rwa [← foldl_write] at this
  obtain ⟨pad, -, hpadded⟩ := hout.padded
  rw [readerAt, readerAt, bitsWritten_of_holds hbegan, bitsWritten_of_holds hout, hpadded,
    List.drop_left, List.append_assoc, List.drop_left, readAll_reads, List.length_append]

end Codes

/-- Escaping keeps an RBSP and lets no start code into it, and codes are read back as they were
written, from wherever in a byte they were begun. -/
theorem bit_codes_round_trip (rbsp : Bytes) (before : List Bool) (codes : List Code) :
    unescape (escape rbsp) = rbsp ∧
      (∀ b : UInt8, b ≤ 2 → ¬ [0, 0, b] <:+: escape rbsp) ∧
      let began := before.foldl BitWriter.bit .empty
      let out := codes.foldl (fun out code => code.write out) began
      readAll (codes.map Code.kind) (readerAt out.bytes (bitsWritten began)) =
        some (codes.map Code.value, readerAt out.bytes (bitsWritten out)) :=
  ⟨unescape_escape rbsp, fun _ hb => not_infix_escapeWith hb (Nat.zero_le 2) rbsp,
    codes_read_back before codes⟩

end Slopty.Codec.Conformance
