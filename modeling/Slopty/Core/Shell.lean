import Slopty.Lib.Shell

/-!
Words typed into a shell.
-/

namespace Slopty.Core.Shell

open Slopty.Lib Slopty.Lib.Shell

def plain (c : Char) : Bool := c.isAlphanum || decide (c ∈ "/._-+,:@%=~".toList)

/-- A word as a shell reads it back as one word: as is when every character is plain, else in single
quotes, a quote inside closing, escaping and reopening them. -/
def shellQuote (word : Text) : Text :=
  let expands := decide (word.head? = some '~') || decide (word.head? = some '=')
  if word ≠ [] ∧ ¬ expands ∧ word.all plain then word
  else '\'' :: word.flatMap (fun c => if c = '\'' then ['\'', '\\', '\'', '\''] else [c]) ++ ['\'']

/-- A shell that reads the quoted word as an argument has one field for it, which is the word, and
expands nothing of it. -/
def ReadBack (word : Text) : Prop :=
  ∃ f, arguments (shellQuote word) = some [f] ∧ f.text = word ∧ ¬ f.Expands

/-- Every character of the word is plain, and it has the shape of an assignment with a tilde right
after its first equals sign, or after a colon behind that. -/
def PlainWithTilde (word : Text) : Prop :=
  word.all plain = true ∧ ∃ name op value, word = name ++ op ++ value ∧ IsName name ∧
    (op = ['='] ∨ op = ['+', '=']) ∧ (value.head? = some '~' ∨ [':', '~'] <:+: value)

theorem plain_not_special {c : Char} (h : plain c = true) : c ∉ Reader.special := by
  intro hc
  have hnone : Reader.special.any plain = false := by decide
  exact List.any_eq_false.mp hnone c hc h

theorem plain_not_expandable {c : Char} (h : plain c = true) : c ∉ expandable := by
  intro hc
  have hnone : expandable.any plain = false := by decide
  exact List.any_eq_false.mp hnone c hc h

/-- Between single quotes every character comes out quoted, a quote too. -/
theorem foldlM_escaped {word : Text} (hnul : '\x00' ∉ word) (f : Field) (fields : List Field) :
    (word.flatMap fun c => if c = '\'' then ['\'', '\\', '\'', '\''] else [c]).foldlM Reader.step
        ⟨.single, some f, fields⟩ = some ⟨.single, some (f ++ Field.quoted word), fields⟩ := by
  induction word generalizing f with
  | nil => simp [Field.quoted]
  | cons c word ih =>
    obtain ⟨hc, hword⟩ := not_or.mp (List.mem_cons.not.mp hnul)
    have hone : (if c = '\'' then ['\'', '\\', '\'', '\''] else [c]).foldlM Reader.step
        ⟨.single, some f, fields⟩ = some ⟨.single, some (f ++ [⟨c, true⟩]), fields⟩ := by
      by_cases hquote : c = '\''
      · rw [if_pos hquote, hquote]
        exact Reader.foldlM_reopen f fields
      · rw [if_neg hquote]
        exact Reader.foldlM_single (by simpa using ⟨Ne.symm hc, hquote⟩) f fields
    rw [List.flatMap_cons, List.foldlM_append, hone, Option.bind_eq_bind, Option.bind_some, ih hword,
      Field.quoted, Field.quoted, List.map_cons, List.append_assoc, List.singleton_append]

theorem arguments_quoted {word : Text} (hnul : '\x00' ∉ word) :
    arguments ('\'' :: word.flatMap (fun c => if c = '\'' then ['\'', '\\', '\'', '\''] else [c]) ++
      ['\'']) = some [Field.quoted word] := by
  have hopen : Reader.step .init '\'' = some ⟨.single, some [], []⟩ := rfl
  rw [arguments, List.cons_append, List.foldlM_cons, hopen, Option.bind_eq_bind, Option.bind_some,
    List.foldlM_append, foldlM_escaped hnul]
  rfl

/-- A quoted word without a NUL is read back as one word exactly if it is not a plain one with an
assignment's tilde. -/
theorem quoted_word_reads_back_iff (word : Text) (hnul : '\x00' ∉ word) :
    ReadBack word ↔ ¬ PlainWithTilde word := by
  by_cases hbare : word ≠ [] ∧
      ¬ (decide (word.head? = some '~') || decide (word.head? = some '=')) = true ∧
        word.all plain = true
  · have hquote : shellQuote word = word := if_pos hbare
    obtain ⟨hne, hexpands, hplain⟩ := hbare
    have hall := List.all_eq_true.mp hplain
    rw [ReadBack, hquote, arguments_bare hne fun c hc => plain_not_special (hall c hc)]
    simp only [Option.some.injEq, List.cons.injEq, and_true, exists_eq_left', Field.text_bare, true_and]
    rw [not_iff_not, PlainWithTilde, and_iff_right hplain, ← Field.assignsTilde_bare]
    refine ⟨fun h => ?_, fun h => Or.inr (Or.inr (Or.inr h))⟩
    simp only [Bool.or_eq_true, decide_eq_true_eq, not_or] at hexpands
    rcases h with ⟨l, hl, -, hexpand⟩ | hh | hh | h
    · obtain ⟨c, hc, rfl⟩ := List.mem_map.mp hl
      exact absurd hexpand (plain_not_expandable (hall c hc))
    · exact absurd (Field.head?_bare.mp hh) hexpands.1
    · exact absurd (Field.head?_bare.mp hh) hexpands.2
    · exact h
  · have hquote : shellQuote word = _ := if_neg hbare
    rw [ReadBack, hquote]
    refine iff_of_true ⟨_, arguments_quoted hnul, Field.text_quoted word, Field.not_expands_quoted word⟩ ?_
    -- a plain word that begins with a name is not quoted
    rintro ⟨hplain, name, op, value, rfl, ⟨⟨c, hc, hstart⟩, -⟩, -⟩
    obtain ⟨rest, rfl⟩ : ∃ rest, name = c :: rest := by
      cases name with
      | nil => exact absurd hc nofun
      | cons d rest => exact ⟨rest, by rw [Option.some.inj hc]⟩
    refine hbare ⟨List.cons_ne_nil _ _, ?_, hplain⟩
    have htilde : c ≠ '~' := by
      rintro rfl
      exact absurd hstart (by decide)
    have hequals : c ≠ '=' := by
      rintro rfl
      exact absurd hstart (by decide)
    simp [htilde, hequals]

theorem quoted_word_reads_back_quote : ReadBack "it's".toList :=
  (quoted_word_reads_back_iff "it's".toList (by decide)).mpr fun h => absurd h.1 (by decide)

/-- A word with the shape of an assignment is typed as it is, and a shell expands its tilde. -/
theorem assigned_tilde_expanded : '\x00' ∉ "a=~/x".toList ∧ ¬ ReadBack "a=~/x".toList := by
  refine ⟨by decide, ?_⟩
  rintro ⟨f, hf, -, hkept⟩
  have hquote : shellQuote "a=~/x".toList = "a=~/x".toList := by decide
  have hplain : ∀ c ∈ "a=~/x".toList, plain c = true := List.all_eq_true.mp (by decide)
  rw [hquote, arguments_bare (by decide) fun c hc => plain_not_special (hplain c hc)] at hf
  obtain rfl := (List.cons.inj (Option.some.inj hf)).1
  refine hkept (Or.inr (Or.inr (Or.inr (Field.assignsTilde_bare.mpr ?_))))
  have hname : IsName ['a'] := ⟨⟨'a', rfl, rfl⟩, List.all_eq_true.mp (by decide)⟩
  exact ⟨['a'], ['='], ['~', '/', 'x'], rfl, hname, Or.inl rfl, Or.inl rfl⟩

end Slopty.Core.Shell
