import Slopty.Thread.Coalesce

/-!
Texts cut to a cap that go on growing: what is kept of one, and whether the counts are still of the
whole once more is appended.
-/

namespace Slopty.Thread

open Slopty.Lib

/-- A clipping limit: whichever of the two is reached first. -/
structure Clip where
  lines : Nat
  chars : Nat
  deriving DecidableEq, Repr

/-- A text's lines, each with its end. -/
def splitInclusive : Text → List Text
  | [] => []
  | '\n' :: rest => ['\n'] :: splitInclusive rest
  | c :: rest =>
      match splitInclusive rest with
      | [] => [[c]]
      | line :: lines => (c :: line) :: lines

/-- Whole lines while there is room, and what fits of the one that does not. -/
def headLines (chars : Nat) : List Text → Nat → Text
  | [], _ => []
  | line :: rest, used =>
      if chars < used + line.length then line.take (chars - used) ++ ['…']
      else line ++ headLines chars rest (used + line.length)

def keepHead (text : Text) (clip : Clip) : Text :=
  (headLines clip.chars ((splitInclusive text).take clip.lines) 0).rdropWhile (· == '\n')

/-- Whole lines from the last one back while there is room, and the end of the one that does not
fit. -/
def tailLines (chars : Nat) : List Text → Nat → List Text
  | [], _ => []
  | line :: rest, used =>
      if chars < used + (line.length + 1) then ['…' :: line.drop (line.length - (chars - used))]
      else line :: tailLines chars rest (used + (line.length + 1))

def keepTail (text : Text) (clip : Clip) : Text :=
  let trimmed := text.rdropWhile (· == '\n')
  ['\n'].intercalate
    (tailLines clip.chars ((trimmed.splitOn '\n').reverse.take clip.lines) 0).reverse

/-- The text is within the cap. -/
def Clip.fits (clip : Clip) (text : Text) : Prop :=
  lineCount text ≤ clip.lines ∧ text.length ≤ clip.chars

instance (clip : Clip) (text : Text) : Decidable (clip.fits text) :=
  inferInstanceAs (Decidable (_ ∧ _))

namespace Clipped

def cut (text : Text) (clip : Clip) (full : Option String) (fromEnd : Bool) : Clipped :=
  if clip.fits text then whole text
  else
    { text := if fromEnd then keepTail text clip else keepHead text clip
      lines := lineCount text
      chars := text.length
      full := full }

/-- The first lines of a text within a cap. -/
def head (text : Text) (clip : Clip) (full : Option String) : Clipped := cut text clip full false

/-- The last lines of a text within a cap. -/
def tail (text : Text) (clip : Clip) (full : Option String) : Clipped := cut text clip full true

def Counts (c : Clipped) (whole : Text) : Prop :=
  c.lines = lineCount whole ∧ c.chars = whole.length

end Clipped

def EndsLine (text : Text) : Prop := text.getLast? = some '\n'

instance (text : Text) : Decidable (EndsLine text) := inferInstanceAs (Decidable (_ = _))

theorem joins_eq_false {text : Text} : joins text = false ↔ text = [] ∨ EndsLine text := by
  rw [joins, decide_eq_false_iff_not, not_and_or, not_not, not_not]
  rfl

theorem lineCount_append {more : Text} (h : more ≠ []) (text : Text) :
    lineCount (text ++ more) + (joins text).toNat = lineCount text + lineCount more := by
  rw [lineCount_eq, lineCount_eq text, lineCount_eq more, joins_append h, List.count_append]
  omega

namespace Clipped

/-- Counts of a text stay the whole's exactly when what is kept ends as the text did. -/
theorem counts_append {c : Clipped} {text more : Text} (hc : c.Counts text) (hmore : more ≠ []) :
    (c.append more).Counts (text ++ more) ↔ joins c.text = joins text := by
  have hlines := lineCount_append hmore text
  have hpos := lineCount_pos hmore
  have hle : (joins c.text).toNat ≤ 1 := Bool.toNat_le _
  have hle' : (joins text).toNat ≤ 1 := Bool.toNat_le _
  rw [append_of_ne_nil c hmore, Counts, hc.1, hc.2, List.length_append]
  constructor
  · rintro ⟨hcount, -⟩
    have hsame : (joins c.text).toNat = (joins text).toNat := by
      dsimp only at hcount
      omega
    cases hkept : joins c.text <;> cases hwhole : joins text <;> simp [hkept, hwhole] at hsame ⊢
  · intro hsame
    rw [hsame]
    dsimp only
    exact ⟨by omega, rfl⟩

theorem counts_whole (text : Text) : (whole text).Counts text := ⟨rfl, rfl⟩

theorem counts_append_whole (text more : Text) :
    ((whole text).append more).Counts (text ++ more) := by
  by_cases hmore : more = []
  · rw [hmore, append_nil, List.append_nil]
    exact counts_whole text
  · exact (counts_append (counts_whole text) hmore).mpr rfl

/-- What was cut counts the whole still exactly when its last line is open as the whole's is. -/
theorem counts_append_cut {text more : Text} {clip : Clip} (full : Option String) (fromEnd : Bool) :
    ((cut text clip full fromEnd).append more).Counts (text ++ more) ↔
      more = [] ∨ clip.fits text ∨
        joins (if fromEnd then keepTail text clip else keepHead text clip) = joins text := by
  by_cases hmore : more = []
  · subst hmore
    have hcounts : (cut text clip full fromEnd).Counts text := by
      unfold cut
      split <;> exact ⟨rfl, rfl⟩
    rw [append_nil, List.append_nil]
    exact ⟨fun _ => .inl rfl, fun _ => hcounts⟩
  · by_cases hfits : clip.fits text
    · rw [cut, if_pos hfits]
      exact ⟨fun _ => .inr (.inl hfits), fun _ => counts_append_whole text more⟩
    · rw [cut, if_neg hfits, counts_append ⟨rfl, rfl⟩ hmore]
      simp [hmore, hfits]

end Clipped

section Head

theorem headLines_of_fit {chars : Nat} {lines : List Text} {used : Nat}
    (h : used + lines.flatten.length ≤ chars) : headLines chars lines used = lines.flatten := by
  induction lines generalizing used with
  | nil => rfl
  | cons line rest ih =>
    rw [List.flatten_cons, List.length_append] at h
    rw [headLines, if_neg (by omega), ih (by omega), List.flatten_cons]

theorem headLines_of_cut {chars : Nat} {lines : List Text} {used : Nat} (hused : used ≤ chars)
    (h : chars < used + lines.flatten.length) : ∃ kept, headLines chars lines used = kept ++ ['…'] := by
  induction lines generalizing used with
  | nil =>
    simp only [List.flatten_nil, List.length_nil] at h
    omega
  | cons line rest ih =>
    rw [List.flatten_cons, List.length_append] at h
    rw [headLines]
    split
    · exact ⟨_, rfl⟩
    · obtain ⟨kept, hkept⟩ := @ih (used + line.length) (by omega) (by omega)
      exact ⟨line ++ kept, by rw [hkept, List.append_assoc]⟩

/-- The first lines of the cap hold nothing but line ends, and the cap has room for them. -/
def HeadBlank (text : Text) (clip : Clip) : Prop :=
  let first := ((splitInclusive text).take clip.lines).flatten
  (∀ c ∈ first, c = '\n') ∧ first.length ≤ clip.chars

instance (text : Text) (clip : Clip) : Decidable (HeadBlank text clip) :=
  inferInstanceAs (Decidable (_ ∧ _))

theorem not_endsLine_rdropWhile (text : Text) : ¬EndsLine (text.rdropWhile (· == '\n')) := by
  intro h
  obtain ⟨init, hinit⟩ := List.getLast?_eq_some_iff.mp h
  have hne : text.rdropWhile (· == '\n') ≠ [] := by simp [hinit]
  have hlast := List.rdropWhile_last_not (· == '\n') text hne
  simp [hinit] at hlast

theorem keepHead_eq_nil {text : Text} {clip : Clip} :
    keepHead text clip = [] ↔ HeadBlank text clip := by
  unfold keepHead HeadBlank
  dsimp only
  rw [List.rdropWhile_eq_nil_iff]
  by_cases hfit : ((splitInclusive text).take clip.lines).flatten.length ≤ clip.chars
  · rw [headLines_of_fit (by omega)]
    simp only [beq_iff_eq]
    exact ⟨fun h => ⟨h, hfit⟩, And.left⟩
  · obtain ⟨kept, hkept⟩ := headLines_of_cut (Nat.zero_le clip.chars)
      (show clip.chars < 0 + ((splitInclusive text).take clip.lines).flatten.length by omega)
    rw [hkept]
    constructor
    · intro hall
      exact absurd (hall '…' (by simp)) (by decide)
    · exact fun h => absurd h.2 hfit

theorem joins_keepHead {text : Text} {clip : Clip} :
    joins (keepHead text clip) = false ↔ HeadBlank text clip := by
  rw [joins_eq_false, ← keepHead_eq_nil]
  exact ⟨fun h => h.resolve_right (not_endsLine_rdropWhile _), .inl⟩

end Head

section Tail

/-- The cap has no line, or the text nothing but line ends and the cap room for one character. -/
def TailBlank (text : Text) (clip : Clip) : Prop :=
  clip.lines = 0 ∨ ((∀ c ∈ text, c = '\n') ∧ 1 ≤ clip.chars)

instance (text : Text) (clip : Clip) : Decidable (TailBlank text clip) :=
  inferInstanceAs (Decidable (_ ∨ _))

/-- A text that does not end with a line end has a last piece, and it says whether there is any
text. -/
theorem splitOn_last {text : Text} (h : ¬EndsLine text) :
    ∃ pieces last, text.splitOn '\n' = pieces ++ [last] ∧ '\n' ∉ last ∧
      (last = [] ↔ text = []) := by
  by_cases hmem : '\n' ∈ text
  · obtain ⟨after, before, hreverse, hafter⟩ :=
      List.eq_append_cons_of_mem (List.mem_reverse.mpr hmem)
    have htext : text = before.reverse ++ '\n' :: after.reverse := by
      rw [← List.reverse_reverse text, hreverse]
      simp
    have hlast : '\n' ∉ after.reverse := fun hc => hafter (List.mem_reverse.mp hc)
    refine ⟨before.reverse.splitOn '\n', after.reverse, ?_, hlast, ?_⟩
    · have hone : after.reverse.splitOn '\n' = [after.reverse] := List.splitOn_eq_singleton hlast
      rw [htext, List.splitOn_append_cons_self, hone]
    · constructor
      · intro hnil
        rw [htext, hnil] at h
        exact absurd (List.getLast?_concat ..) h
      · intro hnil
        rw [hnil] at hmem
        exact absurd hmem List.not_mem_nil
  · exact ⟨[], text, List.splitOn_eq_singleton hmem, hmem, Iff.rfl⟩

theorem getLast?_intercalate (pieces : List Text) {last : Text} (h : last ≠ []) :
    (['\n'].intercalate (pieces ++ [last])).getLast? = last.getLast? := by
  induction pieces with
  | nil => simp
  | cons piece rest ih =>
    have hcons : ∃ next more, rest ++ [last] = next :: more := by
      cases rest with
      | nil => exact ⟨last, [], rfl⟩
      | cons next more => exact ⟨next, more ++ [last], rfl⟩
    obtain ⟨next, more, hnext⟩ := hcons
    have hne : ['\n'].intercalate (rest ++ [last]) ≠ [] := by
      intro hnil
      rw [hnil] at ih
      exact h (List.getLast?_eq_none_iff.mp ih.symm)
    rw [List.cons_append, hnext, List.intercalate_cons_cons, ← hnext, List.getLast?_append,
      List.getLast?_append, ih]
    cases hlast : last.getLast? with
    | none => exact absurd (List.getLast?_eq_none_iff.mp hlast) h
    | some c => rfl

theorem joins_keepTail {text : Text} {clip : Clip} :
    joins (keepTail text clip) = false ↔ TailBlank text clip := by
  unfold keepTail TailBlank
  dsimp only
  obtain ⟨pieces, last, hsplit, hlast, hnil⟩ := splitOn_last (not_endsLine_rdropWhile text)
  have hblank : text.rdropWhile (· == '\n') = [] ↔ ∀ c ∈ text, c = '\n' := by
    rw [List.rdropWhile_eq_nil_iff]
    simp only [beq_iff_eq]
  rw [hsplit, List.reverse_append, List.reverse_singleton, List.singleton_append, joins_eq_false]
  cases hlines : clip.lines with
  | zero => simp [tailLines]
  | succ n =>
    rw [List.take_succ_cons, tailLines]
    have hkept : ∀ (rest : List Text) {kept : Text}, kept ≠ [] → kept.getLast? ≠ some '\n' →
        ¬((['\n'].intercalate (kept :: rest).reverse = []) ∨
          EndsLine (['\n'].intercalate (kept :: rest).reverse)) := by
      intro rest kept hne hend
      have hlast := getLast?_intercalate rest.reverse hne
      rw [← List.reverse_cons] at hlast
      rintro (hempty | hends)
      · rw [hempty] at hlast
        exact hne (List.getLast?_eq_none_iff.mp hlast.symm)
      · exact hend (hlast.symm.trans hends)
    have hplain : ∀ {kept : Text}, '\n' ∉ kept → kept.getLast? ≠ some '\n' :=
      fun hnot hends => hnot (List.mem_of_getLast? hends)
    split
    · -- the last line is cut: something of it shows
      rename_i hover
      have hcut : '\n' ∉ '…' :: last.drop (last.length - (clip.chars - 0)) := by
        rw [List.mem_cons, not_or]
        exact ⟨by decide, fun hc => hlast (List.mem_of_mem_drop hc)⟩
      refine iff_of_false (hkept [] (List.cons_ne_nil _ _) (hplain hcut)) ?_
      rintro (hzero | ⟨hall, hroom⟩)
      · exact absurd hzero (Nat.succ_ne_zero n)
      · rw [hnil.mpr (hblank.mpr hall), List.length_nil] at hover
        omega
    · rename_i hroom
      by_cases hempty : last = []
      · subst hempty
        have htrimmed := hnil.mp rfl
        have hpieces : pieces = [] := by
          rw [htrimmed, List.splitOn_nil] at hsplit
          have hlen := congrArg List.length hsplit
          simp only [List.length_append, List.length_cons, List.length_nil] at hlen
          exact List.eq_nil_of_length_eq_zero (by omega)
        rw [hpieces]
        refine iff_of_true (.inl (by simp [tailLines])) (.inr ⟨hblank.mp htrimmed, ?_⟩)
        rw [List.length_nil] at hroom
        omega
      · refine iff_of_false (hkept _ hempty (hplain hlast)) ?_
        rintro (hzero | ⟨hall, -⟩)
        · exact absurd hzero (Nat.succ_ne_zero n)
        · exact hempty (hnil.mpr (hblank.mpr hall))

end Tail

namespace Clipped

theorem fits_nil (clip : Clip) : clip.fits [] := ⟨Nat.zero_le _, Nat.zero_le _⟩

/-- What is appended to a text that was cut counts on from the whole exactly where the text ended
with a line end just when nothing of it was kept to join. -/
theorem counts_of_whole_and_cut (text more : Text) (clip : Clip) (full : Option String) :
    ((whole text).append more).Counts (text ++ more) ∧
      (((head text clip full).append more).Counts (text ++ more) ↔
        more = [] ∨ clip.fits text ∨ (HeadBlank text clip ↔ EndsLine text)) ∧
      (((tail text clip full).append more).Counts (text ++ more) ↔
        more = [] ∨ clip.fits text ∨ (TailBlank text clip ↔ EndsLine text)) := by
  have hsame : ∀ {a b : Bool}, a = b ↔ (a = false ↔ b = false) := by decide
  have hends : ∀ blank : Prop, (clip.fits text ∨ (blank ↔ text = [] ∨ EndsLine text)) ↔
      clip.fits text ∨ (blank ↔ EndsLine text) := by
    intro blank
    by_cases hnil : text = []
    · subst hnil
      exact iff_of_true (.inl (fits_nil clip)) (.inl (fits_nil clip))
    · simp only [hnil, false_or]
  refine ⟨counts_append_whole text more, ?_, ?_⟩
  · rw [head, counts_append_cut, if_neg Bool.false_ne_true, hsame, joins_keepHead, joins_eq_false,
      hends]
  · rw [tail, counts_append_cut, if_pos rfl, hsame, joins_keepTail, joins_eq_false, hends]

/-- Two lines cut to one: the line appended is not counted. -/
theorem counts_of_cut_lost :
    ¬∀ (text more : Text) (clip : Clip) (full : Option String),
      ((head text clip full).append more).Counts (text ++ more) ∧
        ((tail text clip full).append more).Counts (text ++ more) := by
  intro hclaim
  have hlost := (hclaim ['a', '\n', 'b', '\n'] ['c'] ⟨1, 100⟩ (some "turn/1")).1
  exact absurd hlost.1 (by decide)

end Clipped

end Slopty.Thread
