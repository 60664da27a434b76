import Mathlib.Data.List.Infix
import Mathlib.Algebra.Order.Ring.Int

/-!
Lines one after another in one list, each ended by a separator that no line has in it, and where a
line starts in the list: counted from the front, or from the end.
-/

namespace Slopty.Lib

universe u

variable {α : Type u}

/-- The lines, each with its separator behind it. -/
def lined (sep : α) (lines : List (List α)) : List α := lines.flatMap (· ++ [sep])

@[simp] theorem lined_nil (sep : α) : lined sep [] = [] := rfl

theorem lined_cons (sep : α) (line : List α) (lines : List (List α)) :
    lined sep (line :: lines) = line ++ sep :: lined sep lines := by
  rw [lined, List.flatMap_cons, List.append_assoc]
  rfl

theorem lined_append (sep : α) (before after : List (List α)) :
    lined sep (before ++ after) = lined sep before ++ lined sep after := List.flatMap_append

theorem drop_lined (sep : α) (before after : List (List α)) :
    (lined sep (before ++ after)).drop (lined sep before).length = lined sep after := by
  rw [lined_append, List.drop_left]

variable [DecidableEq α]

/-- The pieces between the separators, without the empty one behind the last. -/
def splitTerminator (sep : α) (l : List α) : List (List α) :=
  let pieces := l.splitOn sep
  if pieces.getLast? = some [] then pieces.dropLast else pieces

theorem splitOn_lined {sep : α} {lines : List (List α)} (h : ∀ line ∈ lines, sep ∉ line)
    (rest : List α) : (lined sep lines ++ rest).splitOn sep = lines ++ rest.splitOn sep := by
  induction lines with
  | nil => rfl
  | cons line lines ih =>
    obtain ⟨hline, hlines⟩ := List.forall_mem_cons.mp h
    rw [lined_cons, List.append_assoc, List.cons_append,
      List.splitOn_append_cons_self_of_not_mem hline, ih hlines]
    rfl

theorem splitTerminator_lined {sep : α} {lines : List (List α)}
    (h : ∀ line ∈ lines, sep ∉ line) : splitTerminator sep (lined sep lines) = lines := by
  have hsplit := splitOn_lined h []
  rw [List.append_nil, List.splitOn_nil] at hsplit
  rw [splitTerminator, hsplit, List.getLast?_concat, if_pos rfl, List.dropLast_concat]

theorem not_mem_of_mem_splitOn {sep : α} {l line : List α} (h : line ∈ l.splitOn sep) :
    sep ∉ line := by
  induction l generalizing line with
  | nil =>
    rw [List.splitOn_nil, List.mem_singleton] at h
    rw [h]
    exact List.not_mem_nil
  | cons a l ih =>
    rw [List.splitOn_cons_eq_if_modifyHead] at h
    split at h
    · rcases List.mem_cons.mp h with rfl | hmem
      · exact List.not_mem_nil
      · exact ih hmem
    · rename_i hne
      cases hpieces : l.splitOn sep with
      | nil => exact absurd hpieces (List.splitOn_ne_nil sep l)
      | cons piece pieces =>
        rw [hpieces, List.modifyHead_cons] at h
        rw [hpieces] at ih
        rcases List.mem_cons.mp h with rfl | hmem
        · rw [List.mem_cons, not_or]
          exact ⟨fun heq => hne (by rw [heq, beq_self_eq_true]), ih List.mem_cons_self⟩
        · exact ih (List.mem_cons_of_mem _ hmem)

theorem idxOf?_append_cons {sep : α} {line : List α} (h : sep ∉ line) (rest : List α) :
    (line ++ sep :: rest).idxOf? sep = some line.length := by
  induction line with
  | nil => rw [List.nil_append, List.idxOf?_cons, beq_self_eq_true, if_pos rfl, List.length_nil]
  | cons a line ih =>
    obtain ⟨hne, hline⟩ := not_or.mp (List.mem_cons.not.mp h)
    rw [List.cons_append, List.idxOf?_cons, beq_eq_false_iff_ne.mpr (Ne.symm hne),
      if_neg Bool.false_ne_true, ih hline, List.length_cons]
    rfl

/-- Where the line after the one at `at'` starts, or the end. -/
def nextLine (sep : α) (l : List α) (at' : Nat) : Nat :=
  match (l.drop at').idxOf? sep with
  | none => l.length
  | some n => at' + n + 1

/-- Where the line so many lines on starts. -/
def skipLines (sep : α) (l : List α) : Nat → Nat → Nat
  | 0, at' => at'
  | n + 1, at' => skipLines sep l n (nextLine sep l at')

theorem skipLines_lined {sep : α} {l : List α} {at' : Nat} {gone rest : List (List α)}
    (hgone : ∀ line ∈ gone, sep ∉ line) (h : l.drop at' = lined sep (gone ++ rest)) :
    skipLines sep l gone.length at' = at' + (lined sep gone).length := by
  induction gone generalizing at' with
  | nil => rfl
  | cons line gone ih =>
    obtain ⟨hline, hgone⟩ := List.forall_mem_cons.mp hgone
    rw [List.cons_append, lined_cons] at h
    have hnext : nextLine sep l at' = at' + line.length + 1 := by
      rw [nextLine, h, idxOf?_append_cons hline]
    have hdrop : l.drop (at' + line.length + 1) = lined sep (gone ++ rest) := by
      rw [Nat.add_assoc, ← List.drop_drop, h, List.drop_append, List.drop_of_length_le (by omega),
        Nat.add_sub_cancel_left]
      rfl
    rw [List.length_cons, skipLines, hnext, ih hgone hdrop, lined_cons, List.length_append,
      List.length_cons]
    omega

/-- Where the separator is last. -/
def memrchr (sep : α) (l : List α) : Option Nat :=
  (l.reverse.idxOf? sep).map fun n => l.length - 1 - n

theorem memrchr_append_cons {sep : α} {line : List α} (h : sep ∉ line) (before : List α) :
    memrchr sep (before ++ sep :: line) = some before.length := by
  have hreverse : (before ++ sep :: line).reverse = line.reverse ++ sep :: before.reverse := by
    rw [List.reverse_append, List.reverse_cons, List.append_assoc]
    rfl
  rw [memrchr, hreverse, idxOf?_append_cons (mt List.mem_reverse.mp h), Option.map_some,
    List.length_reverse, List.length_append, List.length_cons]
  congr 1
  omega

/-- Where the line that ends at `at'` starts; `floor` when nothing ends before it. -/
def prevLine (sep : α) (l : List α) (floor at' : Nat) : Nat :=
  match memrchr sep (l.take (at' - 1)) with
  | none => floor
  | some n => n + 1

def backLines (sep : α) (l : List α) (floor : Nat) : Nat → Nat → Nat
  | 0, at' => at'
  | n + 1, at' => backLines sep l floor n (prevLine sep l floor at')

/-- Where the last so many lines start. -/
def tailStart (sep : α) (l : List α) (lines floor : Nat) : Nat :=
  max (backLines sep l floor lines l.length) floor

theorem backLines_lined {sep : α} (before rest : List α) {tail : List (List α)}
    (htail : ∀ line ∈ tail, sep ∉ line) (floor : Nat) :
    backLines sep (before ++ sep :: lined sep tail ++ rest) floor tail.length
      (before ++ sep :: lined sep tail).length = before.length + 1 := by
  induction tail using List.reverseRecOn generalizing rest with
  | nil =>
    rw [lined_nil, List.length_append, List.length_singleton]
    rfl
  | append_singleton tail line ih =>
    have hline := htail line (List.mem_append_right _ List.mem_cons_self)
    have hbefore : ∃ head, before ++ sep :: lined sep tail = head ++ [sep] := by
      induction tail using List.reverseRecOn with
      | nil => exact ⟨before, rfl⟩
      | append_singleton tail last _ =>
        refine ⟨before ++ sep :: (lined sep tail ++ last), ?_⟩
        rw [lined_append, lined_cons, lined_nil]
        simp only [List.cons_append, List.append_assoc]
    obtain ⟨head, hhead⟩ := hbefore
    have hwhole : before ++ sep :: lined sep (tail ++ [line]) = head ++ sep :: line ++ [sep] := by
      rw [lined_append, lined_cons, lined_nil, ← List.cons_append, ← List.append_assoc, hhead]
      simp only [List.append_assoc, List.cons_append, List.nil_append]
    have hprev : prevLine sep (before ++ sep :: lined sep (tail ++ [line]) ++ rest) floor
        (before ++ sep :: lined sep (tail ++ [line])).length =
          (before ++ sep :: lined sep tail).length := by
      rw [hwhole, hhead, prevLine, List.length_append, List.length_singleton, Nat.add_sub_cancel,
        List.append_assoc, List.take_left, memrchr_append_cons hline, List.length_append]
      rfl
    have hmore : before ++ sep :: lined sep (tail ++ [line]) ++ rest =
        before ++ sep :: lined sep tail ++ (line ++ sep :: rest) := by
      rw [hwhole, hhead]
      simp only [List.append_assoc, List.cons_append, List.nil_append]
    rw [List.length_append, List.length_singleton, backLines, hprev, hmore,
      ih _ fun l hl => htail l (List.mem_append_left _ hl)]

theorem tailStart_lined {sep : α} {before : List α} {tail : List (List α)}
    (htail : ∀ line ∈ tail, sep ∉ line) {floor : Nat} (hfloor : floor ≤ before.length + 1) :
    tailStart sep (before ++ sep :: lined sep tail) tail.length floor = before.length + 1 := by
  have hback := backLines_lined before [] htail floor
  rw [List.append_nil] at hback
  rw [tailStart, hback, max_eq_left hfloor]

end Slopty.Lib
