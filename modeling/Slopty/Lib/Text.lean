import Mathlib.Algebra.Order.Ring.Int
import Mathlib.Data.Char
import Mathlib.Data.List.Lex
import Mathlib.Data.List.DropRight
import Mathlib.Logic.Equiv.List
import Mathlib.Data.Countable.Basic

/-!
Text as a list of characters, with the classes of characters and the trimming that
standard string types have.
-/

namespace Slopty.Lib

abbrev Text := List Char

instance countable_char : Countable Char :=
  Function.Injective.countable (f := Char.toNat) fun _ _ h => Char.ext (UInt32.toNat.inj h)

instance countable_string : Countable String :=
  Function.Injective.countable (f := String.toList) fun _ _ h => String.toList_inj.mp h

/-- The Unicode `White_Space` property. -/
def isWhitespace (c : Char) : Bool :=
  let n := c.toNat
  (9 ≤ n && n ≤ 13) || n == 0x20 || n == 0x85 || n == 0xA0 || n == 0x1680 ||
    (0x2000 ≤ n && n ≤ 0x200A) || n == 0x2028 || n == 0x2029 || n == 0x202F || n == 0x205F ||
    n == 0x3000

/-- The Unicode category `Cc`. -/
def isControl (c : Char) : Bool := c.toNat < 0x20 || (0x7F ≤ c.toNat && c.toNat < 0xA0)

namespace Text

def trim (t : Text) : Text := ((t.dropWhile isWhitespace).reverse.dropWhile isWhitespace).reverse

def utf8Len (t : Text) : Nat := (t.map Char.utf8Size).sum

/-- The text on either side of the first place where `sep` is. -/
def splitOnce (sep : Text) : Text → Option (Text × Text)
  | [] => if sep = [] then some ([], []) else none
  | c :: rest =>
      if sep.isPrefixOf (c :: rest) then some ([], (c :: rest).drop sep.length)
      else (splitOnce sep rest).map fun sides => (c :: sides.1, sides.2)

/-- The text on either side of the last `sep`. -/
def rsplitOnce (sep : Char) : Text → Option (Text × Text)
  | [] => none
  | c :: rest =>
      match rsplitOnce sep rest with
      | some sides => some (c :: sides.1, sides.2)
      | none => if c = sep then some ([], rest) else none

def stripPrefix (start t : Text) : Option Text :=
  if start.isPrefixOf t then some (t.drop start.length) else none

/-- An unsigned number of 64 bits in decimal digits, with or without a plus before it. -/
def parseU64 (t : Text) : Option Nat :=
  let digits : Text := match t with
    | '+' :: rest => rest
    | t => t
  let n : Nat := digits.foldl (fun n c => 10 * n + (c.toNat - '0'.toNat)) 0
  if digits ≠ [] ∧ digits.all Char.isDigit ∧ n < 2 ^ 64 then some n else none

def parseU32 (t : Text) : Option Nat := (parseU64 t).filter (· < 2 ^ 32)

theorem rsplitOnce_eq_none {sep : Char} {t : Text} : rsplitOnce sep t = none ↔ sep ∉ t := by
  induction t with
  | nil => simp [rsplitOnce]
  | cons c rest ih =>
    rw [rsplitOnce, List.mem_cons, not_or, ← ih]
    cases rsplitOnce sep rest with
    | none => simp [eq_comm]
    | some sides => simp

theorem rsplitOnce_append {sep : Char} {after : Text} (h : sep ∉ after) (before : Text) :
    rsplitOnce sep (before ++ sep :: after) = some (before, after) := by
  induction before with
  | nil => rw [List.nil_append, rsplitOnce, rsplitOnce_eq_none.mpr h, if_pos rfl]
  | cons c before ih => rw [List.cons_append, rsplitOnce, ih]

theorem rsplitOnce_eq_some {sep : Char} {t before after : Text}
    (h : rsplitOnce sep t = some (before, after)) : t = before ++ sep :: after ∧ sep ∉ after := by
  induction t generalizing before with
  | nil => exact absurd h nofun
  | cons c rest ih =>
    rw [rsplitOnce] at h
    cases hrest : rsplitOnce sep rest with
    | some sides =>
      simp only [hrest] at h
      obtain ⟨rfl, rfl⟩ := Prod.mk.inj (Option.some.inj h)
      obtain ⟨hsplit, hafter⟩ := ih hrest
      exact ⟨congrArg (c :: ·) hsplit, hafter⟩
    | none =>
      simp only [hrest, Option.ite_none_right_eq_some, Option.some.injEq, Prod.mk.injEq] at h
      obtain ⟨hsep, rfl, rfl⟩ := h
      exact ⟨by rw [hsep, List.nil_append], rsplitOnce_eq_none.mp hrest⟩

theorem dropWhile_eq_self {t : Text} (h : ∀ c ∈ t, isWhitespace c = false) :
    t.dropWhile isWhitespace = t := by
  cases t with
  | nil => rfl
  | cons c rest => simp [h c List.mem_cons_self]

theorem trim_eq_self {t : Text} (h : ∀ c ∈ t, isWhitespace c = false) : trim t = t := by
  have hreverse : ∀ c ∈ t.reverse, isWhitespace c = false := fun c hc => h c (List.mem_reverse.mp hc)
  rw [trim, dropWhile_eq_self h, dropWhile_eq_self hreverse, List.reverse_reverse]

theorem trim_eq (t : Text) : t.trim = (t.dropWhile isWhitespace).rdropWhile isWhitespace := rfl

theorem dropWhile_rdropWhile {t : Text} (h : t.dropWhile isWhitespace = t) :
    (t.rdropWhile isWhitespace).dropWhile isWhitespace = t.rdropWhile isWhitespace := by
  rw [List.dropWhile_eq_self_iff] at h ⊢
  intro hkept
  have hpre : t.rdropWhile isWhitespace <+: t := List.rdropWhile_prefix _ _
  rw [hpre.getElem hkept]
  exact h (Nat.lt_of_lt_of_le hkept hpre.length_le)

theorem trim_trim (t : Text) : t.trim.trim = t.trim := by
  rw [trim_eq t, trim_eq, dropWhile_rdropWhile (List.dropWhile_idempotent _ _),
    List.rdropWhile_idempotent]

end Text

end Slopty.Lib
