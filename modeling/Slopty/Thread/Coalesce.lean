import Slopty.Thread.State

/-!
Runs of appends to one part of one item, merged into one: the state comes out as the appends one
by one would leave it.
-/

namespace Slopty.Thread

open Slopty.Lib

/-- Put an action after those merged so far: into the last one when both append to the same
part. -/
def mergeLast (out : List Action) (action : Action) : List Action :=
  match action, out.getLast? with
  | .append item part text, some (.append lastItem lastPart lastText) =>
      if lastItem = item ∧ lastPart = part then
        out.dropLast ++ [.append lastItem lastPart (lastText ++ text)]
      else out ++ [action]
  | _, _ => out ++ [action]

def coalesce (actions : List Action) : List Action := actions.foldl mergeLast []

/-- Whether a text's last line has no end yet. -/
def joins (text : List Char) : Bool := decide (text ≠ [] ∧ text.getLast? ≠ some '\n')

theorem lineCount_eq (text : List Char) :
    lineCount text = text.count '\n' + (joins text).toNat := by
  rw [lineCount, joins]
  by_cases hnil : text = []
  · simp [hnil]
  · by_cases hlast : text.getLast? = some '\n' <;> simp [hnil, hlast]

theorem lineCount_pos {text : List Char} (h : text ≠ []) : 0 < lineCount text := by
  rw [lineCount]
  split
  · rename_i hend
    have hlast := hend.resolve_left h
    have hmem : '\n' ∈ text := List.mem_of_getLast? hlast
    exact Nat.add_pos_left (List.count_pos_iff.mpr hmem) 0
  · omega

theorem joins_append {more : List Char} (h : more ≠ []) (text : List Char) :
    joins (text ++ more) = joins more := by
  rw [joins, joins, List.getLast?_append_of_ne_nil text h]
  simp [h]

namespace Clipped

theorem append_nil (c : Clipped) : c.append [] = c := if_pos rfl

theorem append_of_ne_nil (c : Clipped) {more : List Char} (h : more ≠ []) :
    c.append more =
      { c with
        lines := c.lines + (lineCount more - (joins c.text).toNat)
        chars := c.chars + more.length
        text := c.text ++ more } :=
  if_neg h

/-- Two texts appended one after the other count as the one they make. -/
theorem append_append (c : Clipped) (text more : List Char) :
    (c.append text).append more = c.append (text ++ more) := by
  by_cases htext : text = []
  · rw [htext, append_nil, List.nil_append]
  by_cases hmore : more = []
  · rw [hmore, append_nil, List.append_nil]
  have hboth : text ++ more ≠ [] := List.append_ne_nil_of_left_ne_nil htext more
  rw [append_of_ne_nil c htext, append_of_ne_nil c hboth, append_of_ne_nil _ hmore]
  have hlines : c.lines + (lineCount text - (joins c.text).toNat) +
      (lineCount more - (joins (c.text ++ text)).toNat) =
      c.lines + (lineCount (text ++ more) - (joins c.text).toNat) := by
    have hpos := lineCount_pos htext
    have hposMore := lineCount_pos hmore
    have hle : (joins c.text).toNat ≤ 1 := Bool.toNat_le _
    have hleText : (joins text).toNat ≤ 1 := Bool.toNat_le _
    rw [joins_append htext]
    rw [lineCount_eq text] at hpos ⊢
    rw [lineCount_eq more] at hposMore ⊢
    rw [lineCount_eq (text ++ more), joins_append hmore, List.count_append]
    omega
  simp only [hlines, List.append_assoc, List.length_append, Nat.add_assoc]

end Clipped

theorem appendBody_appendBody (body : ItemBody) (part : PartKey) (text more : List Char) :
    appendBody (appendBody body part text) part more = appendBody body part (text ++ more) := by
  cases body <;> cases part <;> simp [appendBody, Clipped.append_append]

theorem rposition_modify {α : Type} {p : α → Bool} {f : α → α} (hf : ∀ a, p (f a) = p a)
    (l : List α) (i : Nat) : rposition p (l.modify i f) = rposition p l := by
  induction l generalizing i with
  | nil => simp
  | cons a rest ih =>
      cases i with
      | zero => simp [rposition, hf]
      | succ i => simp [rposition, ih]

namespace ThreadState

theorem apply_append_append (s : ThreadState) (item : ItemId) (part : PartKey)
    (text more : List Char) :
    (s.apply (.append item part text)).apply (.append item part more) =
      s.apply (.append item part (text ++ more)) := by
  simp only [apply]
  cases hat : s.itemIndex item with
  | none => simp only [hat]
  | some at' =>
      -- the item stays where it is: only its body changed
      have hindex : rposition (fun i => decide (i.id = item))
          (s.items.modify at' fun i => { i with body := appendBody i.body part text }) = some at' := by
        rw [rposition_modify]
        · exact hat
        · intro i
          rfl
      simp only [itemIndex] at hat ⊢
      simp only [hindex]
      rw [List.modify_modify_eq]
      simp only [Function.comp_def, appendBody_appendBody]

theorem applyAll_mergeLast (s : ThreadState) (out : List Action) (action : Action) :
    s.applyAll (mergeLast out action) = (s.applyAll out).apply action := by
  have hplain : s.applyAll (out ++ [action]) = (s.applyAll out).apply action :=
    applyAll_append s out [action]
  simp only [mergeLast]
  split
  · rename_i item part text lastItem lastPart lastText hlast
    split
    · rename_i hsame
      obtain ⟨rfl, rfl⟩ := hsame
      obtain ⟨init, rfl⟩ := List.getLast?_eq_some_iff.mp hlast
      rw [List.dropLast_concat, applyAll_append, applyAll_append]
      exact (apply_append_append _ _ _ _ _).symm
    · exact hplain
  · exact hplain

theorem applyAll_coalesce (s : ThreadState) (actions : List Action) :
    s.applyAll (coalesce actions) = s.applyAll actions := by
  have hfrom : ∀ out, s.applyAll (actions.foldl mergeLast out) = (s.applyAll out).applyAll actions := by
    induction actions with
    | nil =>
        intro out
        rfl
    | cons a rest ih =>
        intro out
        rw [List.foldl_cons, ih, applyAll_mergeLast]
        rfl
  exact hfrom []

/-- Coalescing preserves what a list of actions does: to any state, its actions one after the other
do what the list's did. -/
theorem foldl_apply_coalesce (s : ThreadState) (actions : List Action) :
    (coalesce actions).foldl apply s = actions.foldl apply s :=
  s.applyAll_coalesce actions

end ThreadState

end Slopty.Thread
