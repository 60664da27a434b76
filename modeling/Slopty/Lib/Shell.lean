import Slopty.Lib.Text

/-!
How a shell reads the arguments of a command: the quoting rules of POSIX, and where a field is
expanded, with what bash and zsh expand besides.
-/

namespace Slopty.Lib.Shell

open Slopty.Lib

/-- A character of a field, quoted or as it is. -/
structure Lit where
  char : Char
  quoted : Bool
  deriving DecidableEq, Repr

abbrev Field := List Lit

inductive Mode where
  | plain
  /-- After a backslash. -/
  | escaped
  | single
  | double
  /-- After a backslash in double quotes. -/
  | doubleEscaped
  deriving DecidableEq, Repr

def backtick : Char := Char.ofNat 96

structure Reader where
  mode : Mode
  /-- The field that is being read, when one was begun. -/
  field : Option Field
  fields : List Field
  deriving DecidableEq, Repr

namespace Reader

def init : Reader := ⟨.plain, none, []⟩

def push (r : Reader) (c : Char) (quoted : Bool) : Reader :=
  { r with field := some (r.field.getD [] ++ [⟨c, quoted⟩]) }

/-- Characters that end a simple command or one of its words. -/
def operators : List Char := ['|', '&', ';', '<', '>', '(', ')', '\n']

def stepPlain (r : Reader) (c : Char) : Option Reader :=
  if c = '\'' then some { r with mode := .single, field := some (r.field.getD []) }
  else if c = '"' then some { r with mode := .double, field := some (r.field.getD []) }
  else if c = '\\' then some { r with mode := .escaped }
  else if c = ' ' ∨ c = '\t' then
    some { r with field := none, fields := r.fields ++ r.field.toList }
  else if c ∈ operators ∨ c = '#' ∧ r.field = none then none
  else some (r.push c false)

/-- One more character; `none` where the command has more than arguments, and at a NUL. -/
def step (r : Reader) (c : Char) : Option Reader :=
  if c = '\x00' then none
  else
    match r.mode with
    | .plain => r.stepPlain c
    | .escaped =>
        some (if c = '\n' then { r with mode := .plain } else { r.push c true with mode := .plain })
    | .single => some (if c = '\'' then { r with mode := .plain } else r.push c true)
    | .double =>
        some
          (if c = '"' then { r with mode := .plain }
          else if c = '\\' then { r with mode := .doubleEscaped }
          else r.push c (decide (c ≠ '$' ∧ c ≠ backtick)))
    | .doubleEscaped =>
        some
          (if c = '\n' then { r with mode := .double }
          else if c ∈ ['$', backtick, '"', '\\'] then { r.push c true with mode := .double }
          else { (r.push '\\' true).push c true with mode := .double })

def finish (r : Reader) : Option (List Field) :=
  if r.mode = .plain then some (r.fields ++ r.field.toList) else none

end Reader

/-- The fields of a command's arguments, before expansion. -/
def arguments (t : Text) : Option (List Field) := (t.foldlM Reader.step .init).bind Reader.finish

namespace Field

/-- A field as a program is given it where nothing is expanded. -/
def text (f : Field) : Text := f.map Lit.char

def bare (t : Text) : Field := t.map fun c => ⟨c, false⟩

def quoted (t : Text) : Field := t.map fun c => ⟨c, true⟩

end Field

/-- Characters that begin an expansion wherever they stand unquoted. -/
def expandable : List Char := ['$', backtick, '*', '?', '[', '{', '!']

def isNameStart (c : Char) : Bool := c.isAlpha || c == '_'

def isNameChar (c : Char) : Bool := c.isAlphanum || c == '_'

/-- The name of a variable. -/
def IsName (name : Text) : Prop :=
  (∃ c ∈ name.head?, isNameStart c = true) ∧ ∀ c ∈ name, isNameChar c = true

/-- A field shaped like an assignment has a tilde right after its first equals sign, or after a
colon behind that. -/
def Field.AssignsTilde (f : Field) : Prop :=
  ∃ name op value, f = Field.bare (name ++ op) ++ value ∧ IsName name ∧
    (op = ['='] ∨ op = ['+', '=']) ∧
    (value.head? = some ⟨'~', false⟩ ∨ Field.bare [':', '~'] <:+: value)

/-- Something of a field is expanded. -/
def Field.Expands (f : Field) : Prop :=
  (∃ l ∈ f, l.quoted = false ∧ l.char ∈ expandable) ∨
    f.head? = some ⟨'~', false⟩ ∨ f.head? = some ⟨'=', false⟩ ∨ f.AssignsTilde

namespace Reader

/-- Characters that the reader does not take as they are. -/
def special : List Char := ['\x00', '\'', '"', '\\', ' ', '\t', '#'] ++ operators

/-- What is not special is taken as it is. -/
theorem step_bare {c : Char} (hc : c ∉ special) (field : Option Field) (fields : List Field) :
    step ⟨.plain, field, fields⟩ c =
      some ⟨.plain, some (field.getD [] ++ [⟨c, false⟩]), fields⟩ := by
  simp only [special, List.mem_append, List.mem_cons, List.not_mem_nil, or_false, not_or] at hc
  obtain ⟨⟨hnul, hsingle, hdouble, hback, hspace, htab, hhash⟩, hop⟩ := hc
  simp [step, stepPlain, push, hnul, hsingle, hdouble, hback, hspace, htab, hhash, hop]

theorem foldlM_bare {t : Text} (h : ∀ c ∈ t, c ∉ special) (f : Field) (fields : List Field) :
    t.foldlM step ⟨.plain, some f, fields⟩ = some ⟨.plain, some (f ++ Field.bare t), fields⟩ := by
  induction t generalizing f with
  | nil => simp [Field.bare]
  | cons c t ih =>
    obtain ⟨hc, ht⟩ := List.forall_mem_cons.mp h
    rw [List.foldlM_cons, step_bare hc, Option.bind_eq_bind, Option.bind_some, Option.getD_some, ih ht,
      Field.bare, Field.bare, List.map_cons, List.append_assoc, List.singleton_append]

theorem foldlM_single {t : Text} (h : ∀ c ∈ t, c ≠ '\x00' ∧ c ≠ '\'') (f : Field)
    (fields : List Field) :
    t.foldlM step ⟨.single, some f, fields⟩ = some ⟨.single, some (f ++ Field.quoted t), fields⟩ := by
  induction t generalizing f with
  | nil => simp [Field.quoted]
  | cons c t ih =>
    obtain ⟨⟨hnul, hquote⟩, ht⟩ := List.forall_mem_cons.mp h
    have hstep : step ⟨.single, some f, fields⟩ c =
        some ⟨.single, some (f ++ [⟨c, true⟩]), fields⟩ := by
      simp [step, push, hnul, hquote]
    rw [List.foldlM_cons, hstep, Option.bind_eq_bind, Option.bind_some, ih ht, Field.quoted,
      Field.quoted, List.map_cons, List.append_assoc, List.singleton_append]

/-- Quotes closed, a quote escaped, and quotes opened again are one quote more. -/
theorem foldlM_reopen (f : Field) (fields : List Field) :
    ['\'', '\\', '\'', '\''].foldlM step ⟨.single, some f, fields⟩ =
      some ⟨.single, some (f ++ [⟨'\'', true⟩]), fields⟩ := by
  simp [step, stepPlain, push]

end Reader

theorem arguments_bare {t : Text} (hne : t ≠ []) (h : ∀ c ∈ t, c ∉ Reader.special) :
    arguments t = some [Field.bare t] := by
  obtain ⟨c, t, rfl⟩ := List.exists_cons_of_ne_nil hne
  obtain ⟨hc, ht⟩ := List.forall_mem_cons.mp h
  rw [arguments, List.foldlM_cons, Reader.init, Reader.step_bare hc, Option.bind_eq_bind,
    Option.bind_some, Reader.foldlM_bare ht]
  rfl

namespace Field

@[simp] theorem text_bare (t : Text) : (bare t).text = t := by
  rw [text, bare, List.map_map]
  exact List.map_id t

@[simp] theorem text_quoted (t : Text) : (quoted t).text = t := by
  rw [text, quoted, List.map_map]
  exact List.map_id t

theorem not_expands_quoted (t : Text) : ¬ (quoted t).Expands := by
  have hquoted : ∀ l ∈ quoted t, l.quoted = true := by
    intro l hl
    obtain ⟨c, -, rfl⟩ := List.mem_map.mp hl
    rfl
  have hhead (c : Char) : (quoted t).head? ≠ some ⟨c, false⟩ := fun hh =>
    absurd (hquoted _ (List.mem_of_mem_head? hh)) nofun
  rintro (⟨l, hl, hbare, -⟩ | hh | hh | ⟨name, op, value, heq, ⟨⟨c, hc, -⟩, -⟩, -⟩)
  · rw [hquoted l hl] at hbare
    exact absurd hbare nofun
  · exact hhead _ hh
  · exact hhead _ hh
  · obtain ⟨rest, rfl⟩ : ∃ rest, name = c :: rest := by
      cases name with
      | nil => exact absurd hc nofun
      | cons d rest => exact ⟨rest, by rw [Option.some.inj hc]⟩
    exact hhead c (by rw [heq]; rfl)

theorem head?_bare {t : Text} {c : Char} : (bare t).head? = some ⟨c, false⟩ ↔ t.head? = some c := by
  cases t <;> simp [bare]

theorem bare_infix {s t : Text} : bare s <:+: bare t ↔ s <:+: t := by
  refine ⟨fun h => ?_, fun h => h.map _⟩
  have := h.map Lit.char
  rwa [← text, ← text, text_bare, text_bare] at this

theorem assignsTilde_bare {t : Text} : (bare t).AssignsTilde ↔
    ∃ name op value, t = name ++ op ++ value ∧ IsName name ∧ (op = ['='] ∨ op = ['+', '=']) ∧
      (value.head? = some '~' ∨ [':', '~'] <:+: value) := by
  constructor
  · rintro ⟨name, op, value, heq, hname, hop, htilde⟩
    obtain ⟨front, back, rfl, hfront, rfl⟩ := List.map_eq_append_iff.mp heq
    have hsame : front = name ++ op := by
      rw [← text_bare front, bare, hfront]
      exact text_bare _
    rw [← bare, head?_bare, bare_infix] at htilde
    exact ⟨name, op, back, by rw [hsame], hname, hop, htilde⟩
  · rintro ⟨name, op, value, rfl, hname, hop, htilde⟩
    refine ⟨name, op, bare value, List.map_append, hname, hop, ?_⟩
    rwa [head?_bare, bare_infix]

end Field

end Slopty.Lib.Shell
