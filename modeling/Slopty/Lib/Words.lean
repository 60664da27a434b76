import Mathlib.Data.List.Lex
import Mathlib.Data.List.Pairwise
import Slopty.Lib.Search

/-!
Lists in order, cut at points found by search: two of them put together as one, and the words that
begin with a word, which stand together.
-/

namespace Slopty.Lib

universe u

variable {α : Type u}

/-- Where the elements end that a condition holds of, in a list that has those in front. -/
def partitionPoint (p : α → Bool) (l : List α) : Nat := (l.takeWhile p).length

theorem take_partitionPoint (p : α → Bool) (l : List α) :
    l.take (partitionPoint p l) = l.takeWhile p := by
  conv_lhs => rw [← List.takeWhile_append_dropWhile (p := p) (l := l)]
  exact List.take_left' (by rw [List.takeWhile_append_dropWhile, partitionPoint])

theorem drop_partitionPoint (p : α → Bool) (l : List α) :
    l.drop (partitionPoint p l) = l.dropWhile p := by
  conv_lhs => rw [← List.takeWhile_append_dropWhile (p := p) (l := l)]
  exact List.drop_left' (by rw [List.takeWhile_append_dropWhile, partitionPoint])

section Ordered

variable [LinearOrder α]

/-- In order, without repeats. -/
abbrev Ascending (l : List α) : Prop := l.Pairwise (· < ·)

/-- The elements put in order. -/
def sorted (l : List α) : List α := l.mergeSort fun a b => decide (a ≤ b)

theorem mem_sorted {l : List α} {a : α} : a ∈ sorted l ↔ a ∈ l :=
  (List.mergeSort_perm l _).mem_iff

theorem pairwise_sorted (l : List α) : (sorted l).Pairwise (· ≤ ·) := by
  have h : (sorted l).Pairwise fun a b => decide (a ≤ b) = true :=
    List.pairwise_mergeSort (by simpa using fun a b c => le_trans) (by simpa using le_total) l
  exact h.imp of_decide_eq_true

theorem ascending_sorted {l : List α} (hl : l.Nodup) : Ascending (sorted l) :=
  ((pairwise_sorted l).and ((List.mergeSort_perm l _).nodup_iff.mpr hl)).imp fun h =>
    lt_of_le_of_ne h.1 h.2

theorem Ascending.ext {l l' : List α} (hl : Ascending l) (hl' : Ascending l')
    (h : ∀ a, a ∈ l ↔ a ∈ l') : l = l' := by
  have hnodup {l : List α} (hl : Ascending l) : l.Nodup := hl.imp ne_of_lt
  refine ((List.perm_ext_iff_of_nodup (hnodup hl) (hnodup hl')).mpr h).eq_of_pairwise ?_ hl hl'
  exact fun a b _ _ hab hba => absurd (hab.trans hba) (lt_irrefl a)

/-- Where the elements before `a` end. -/
def startOf (a : α) (l : List α) : Nat := partitionPoint (fun b => decide (b < a)) l

/-- One step of a merge: what is put out, what is left of the old ones, and how many of them were
taken. -/
def mergeStep (state : List α × List α × Nat) (next : α × Nat × Bool) : List α × List α × Nat :=
  let (out, old, taken) := state
  let (a, cut, held) := next
  let out := out ++ old.take (cut - taken)
  (if held then out else out ++ [a], old.drop (cut - taken), max taken cut)

/-- Two lists, each in order without repeats, as one: a search for each new element, and the old
ones moved in runs between them. -/
def merged (old fresh : List α) : List α :=
  let cuts := fresh.map fun a =>
    let cut := startOf a old
    (cut, decide (old[cut]? = some a))
  let state := (fresh.zip cuts).foldl mergeStep ([], old, 0)
  state.1 ++ state.2.1

theorem takeWhile_lt_eq_filter {l : List α} (hl : l.Pairwise (· < ·)) (a : α) :
    (l.takeWhile fun b => decide (b < a)) = l.filter fun b => decide (b < a) := by
  induction l with
  | nil => rfl
  | cons b l ih =>
    obtain ⟨hb, hl⟩ := List.pairwise_cons.mp hl
    by_cases hlt : b < a
    · rw [List.takeWhile_cons_of_pos (by simpa using hlt), List.filter_cons_of_pos (by simpa using hlt),
        ih hl]
    · rw [List.takeWhile_cons_of_neg (by simpa using hlt), List.filter_cons_of_neg (by simpa using hlt)]
      refine (List.filter_eq_nil_iff.mpr fun c hc => ?_).symm
      simpa using (not_lt.mp hlt).trans (hb c hc).le

theorem dropWhile_lt_eq_filter {l : List α} (hl : l.Pairwise (· < ·)) (a : α) :
    (l.dropWhile fun b => decide (b < a)) = l.filter fun b => decide (a ≤ b) := by
  induction l with
  | nil => rfl
  | cons b l ih =>
    obtain ⟨hb, hl⟩ := List.pairwise_cons.mp hl
    by_cases hlt : b < a
    · rw [List.dropWhile_cons_of_pos (by simpa using hlt), List.filter_cons_of_neg (by simpa using hlt),
        ih hl]
    · rw [List.dropWhile_cons_of_neg (by simpa using hlt)]
      refine (List.filter_eq_self.mpr fun c hc => ?_).symm
      rcases List.mem_cons.mp hc with rfl | hc
      · simpa using hlt
      · simpa using (not_lt.mp hlt).trans (hb c hc).le

/-- What a merge puts out of the old elements left and the new ones. -/
def mergeRest : List α → List α → List α
  | old, [] => old
  | old, a :: fresh =>
      let before := old.filter fun b => decide (b < a)
      let after := old.filter fun b => decide (a ≤ b)
      before ++ (if a ∈ after then [] else [a]) ++ mergeRest after fresh

theorem mem_mergeRest {old fresh : List α} {x : α} :
    x ∈ mergeRest old fresh ↔ x ∈ old ∨ x ∈ fresh := by
  induction fresh generalizing old with
  | nil => simp [mergeRest]
  | cons a fresh ih =>
    simp only [mergeRest, List.mem_append, List.mem_filter, ih, List.mem_cons, decide_eq_true_eq]
    constructor
    · rintro ((⟨hx, -⟩ | hx) | ⟨hx, -⟩ | hx)
      · exact Or.inl hx
      · split at hx
        · exact absurd hx List.not_mem_nil
        · exact Or.inr (Or.inl (List.mem_singleton.mp hx))
      · exact Or.inl hx
      · exact Or.inr (Or.inr hx)
    · rintro (hx | rfl | hx)
      · rcases lt_or_ge x a with hlt | hge
        · exact Or.inl (Or.inl ⟨hx, hlt⟩)
        · exact Or.inr (Or.inl ⟨hx, hge⟩)
      · by_cases hheld : x ∈ old.filter fun b => decide (x ≤ b)
        · exact Or.inr (Or.inl ⟨(List.mem_filter.mp hheld).1, le_rfl⟩)
        · refine Or.inl (Or.inr ?_)
          rw [if_neg (by simpa using hheld)]
          exact List.mem_singleton_self x
      · exact Or.inr (Or.inr hx)

theorem sorted_mergeRest {old fresh : List α} (hold : old.Pairwise (· < ·))
    (hfresh : fresh.Pairwise (· < ·)) : (mergeRest old fresh).Pairwise (· < ·) := by
  induction fresh generalizing old with
  | nil => exact hold
  | cons a fresh ih =>
    obtain ⟨ha, hfresh⟩ := List.pairwise_cons.mp hfresh
    have hrest := ih (hold.filter fun b => decide (a ≤ b)) hfresh
    -- what is left from `a` on
    have hge : ∀ x ∈ mergeRest (old.filter fun b => decide (a ≤ b)) fresh, a ≤ x := by
      intro x hx
      rcases mem_mergeRest.mp hx with hx | hx
      · simpa using (List.mem_filter.mp hx).2
      · exact (ha x hx).le
    rw [mergeRest, List.append_assoc, List.pairwise_append]
    refine ⟨hold.filter _, ?_, ?_⟩
    · by_cases hheld : a ∈ old.filter fun b => decide (a ≤ b)
      · rw [if_pos hheld, List.nil_append]
        exact hrest
      · rw [if_neg hheld, List.singleton_append, List.pairwise_cons]
        refine ⟨fun x hx => lt_of_le_of_ne (hge x hx) ?_, hrest⟩
        rintro rfl
        rcases mem_mergeRest.mp hx with hx | hx
        · exact hheld hx
        · exact lt_irrefl _ (ha a hx)
    · intro x hx y hy
      have hxa : x < a := by simpa using (List.mem_filter.mp hx).2
      rcases List.mem_append.mp hy with hy | hy
      · split at hy
        · exact absurd hy List.not_mem_nil
        · exact List.mem_singleton.mp hy ▸ hxa
      · exact hxa.trans_le (hge y hy)

theorem take_startOf {l : List α} (hl : l.Pairwise (· < ·)) (a : α) :
    l.take (startOf a l) = l.filter fun b => decide (b < a) := by
  rw [startOf, take_partitionPoint, takeWhile_lt_eq_filter hl]

theorem drop_startOf {l : List α} (hl : l.Pairwise (· < ·)) (a : α) :
    l.drop (startOf a l) = l.filter fun b => decide (a ≤ b) := by
  rw [startOf, drop_partitionPoint, dropWhile_lt_eq_filter hl]

theorem getElem?_startOf {l : List α} (hl : l.Pairwise (· < ·)) (a : α) :
    l[startOf a l]? = some a ↔ a ∈ l.filter fun b => decide (a ≤ b) := by
  have hdrop := drop_startOf hl a
  have hsorted := hl.filter fun b => decide (a ≤ b)
  have hget : l[startOf a l]? = (l.drop (startOf a l)).head? := by
    rw [List.head?_drop]
  rw [hget, hdrop]
  constructor
  · exact List.mem_of_head?
  · intro ha
    cases hrest : l.filter fun b => decide (a ≤ b) with
    | nil => rw [hrest] at ha; exact absurd ha List.not_mem_nil
    | cons b rest =>
      rw [hrest] at ha hsorted
      rcases List.mem_cons.mp ha with rfl | ha
      · rfl
      · have hle : a ≤ b := by
          have hb : b ∈ l.filter fun b => decide (a ≤ b) := hrest ▸ List.mem_cons_self
          simpa using (List.mem_filter.mp hb).2
        exact absurd ((List.pairwise_cons.mp hsorted).1 a ha) (not_lt.mpr hle)

theorem startOf_drop {l : List α} (hl : l.Pairwise (· < ·)) {a : α} {taken : Nat}
    (hlen : taken ≤ l.length) (htaken : ∀ b ∈ l.take taken, b < a) :
    startOf a l = taken + startOf a (l.drop taken) := by
  have hdrop : (l.drop taken).Pairwise (· < ·) := hl.sublist (List.drop_sublist _ _)
  have hbefore : (l.take taken).filter (fun b => decide (b < a)) = l.take taken :=
    List.filter_eq_self.mpr fun b hb => decide_eq_true (htaken b hb)
  have hcount (l : List α) (hl : l.Pairwise (· < ·)) :
      startOf a l = (l.filter fun b => decide (b < a)).length := by
    rw [startOf, partitionPoint, takeWhile_lt_eq_filter hl]
  rw [hcount l hl, hcount _ hdrop]
  conv_lhs => rw [← List.take_append_drop taken l]
  rw [List.filter_append, hbefore, List.length_append, List.length_take, Nat.min_eq_left hlen]

theorem foldl_mergeStep {old fresh : List α} (hold : old.Pairwise (· < ·))
    (hfresh : fresh.Pairwise (· < ·)) {taken : Nat} (hlen : taken ≤ old.length)
    (htaken : ∀ a ∈ fresh, ∀ b ∈ old.take taken, b < a) (out : List α) :
    let cuts := fresh.map fun a =>
      let cut := startOf a old
      (cut, decide (old[cut]? = some a))
    let state := (fresh.zip cuts).foldl mergeStep (out, old.drop taken, taken)
    state.1 ++ state.2.1 = out ++ mergeRest (old.drop taken) fresh := by
  induction fresh generalizing taken out with
  | nil => rfl
  | cons a fresh ih =>
    obtain ⟨ha, hfresh⟩ := List.pairwise_cons.mp hfresh
    have hdrop : (old.drop taken).Pairwise (· < ·) := hold.sublist (List.drop_sublist _ _)
    have hcut := startOf_drop hold hlen (htaken a List.mem_cons_self)
    have hsub : startOf a old - taken = startOf a (old.drop taken) := by omega
    have hmax : max taken (startOf a old) = startOf a old := by omega
    have hrest : old.drop (startOf a old) = (old.drop taken).filter fun b => decide (a ≤ b) := by
      rw [hcut, ← List.drop_drop, drop_startOf hdrop]
    have hheld : old[startOf a old]? = some a ↔
        a ∈ (old.drop taken).filter fun b => decide (a ≤ b) := by
      rw [getElem?_startOf hold, ← drop_startOf hold, hrest]
    have hle : startOf a old ≤ old.length := by
      rw [startOf, partitionPoint]
      exact (List.takeWhile_sublist _).length_le
    have hnext : ∀ f ∈ fresh, ∀ b ∈ old.take (startOf a old), b < f := by
      intro f hf b hb
      rw [take_startOf hold] at hb
      exact lt_trans (by simpa using (List.mem_filter.mp hb).2) (ha f hf)
    have ih := ih hfresh hle hnext
    simp only [List.map_cons, List.zip_cons_cons, List.foldl_cons, mergeStep, hsub, hmax,
      take_startOf hdrop, drop_startOf hdrop, hheld, mergeRest]
    rw [← hrest]
    by_cases hmem : a ∈ old.drop (startOf a old)
    · simp only [hmem, decide_true, if_true, List.append_nil]
      exact (ih _).trans (List.append_assoc _ _ _)
    · simp only [hmem, decide_false, Bool.false_eq_true, if_false]
      refine (ih _).trans ?_
      simp only [List.append_assoc]

theorem sorted_merged {old fresh : List α} (hold : old.Pairwise (· < ·))
    (hfresh : fresh.Pairwise (· < ·)) :
    (merged old fresh).Pairwise (· < ·) ∧ ∀ x, x ∈ merged old fresh ↔ x ∈ old ∨ x ∈ fresh := by
  have heq : merged old fresh = mergeRest old fresh :=
    foldl_mergeStep hold hfresh (Nat.zero_le _) (by simp) []
  rw [heq]
  exact ⟨sorted_mergeRest hold hfresh, fun _ => mem_mergeRest⟩

/-- Elements in order, from the first that is not before `a` on: those in front that a condition
holds of are all it holds of, when it holds of none before `a` nor of any past one that it does not
hold of. -/
theorem run_eq_filter {l : List α} (hl : l.Pairwise (· < ·)) {a : α} {p : α → Bool}
    (hstart : ∀ b, p b = true → a ≤ b) (hbetween : ∀ b c, a ≤ b → b < c → p c = true → p b = true) :
    ((l.drop (startOf a l)).take (partitionPoint p (l.drop (startOf a l)))) = l.filter p := by
  rw [take_partitionPoint, drop_startOf hl]
  induction l with
  | nil => rfl
  | cons b l ih =>
    obtain ⟨hb, hl⟩ := List.pairwise_cons.mp hl
    by_cases hle : a ≤ b
    · rw [List.filter_cons_of_pos (by simpa using hle)]
      by_cases hp : p b = true
      · rw [List.takeWhile_cons_of_pos hp, List.filter_cons_of_pos hp, ih hl]
      · rw [List.takeWhile_cons_of_neg hp, List.filter_cons_of_neg hp]
        exact (List.filter_eq_nil_iff.mpr fun c hc hpc => hp (hbetween b c hle (hb c hc) hpc)).symm
    · rw [List.filter_cons_of_neg (by simpa using hle), ih hl,
        List.filter_cons_of_neg fun hp => hle (hstart b hp)]

end Ordered

/-- A run that holds all a condition holds of: the places where it holds. -/
theorem range_eq_run {l : List α} {p : α → Bool} {i n : Nat}
    (hrun : (l.drop i).take n = l.filter p) (hlength : i + n ≤ l.length) :
    (List.range l.length).filter (fun k => (l[k]?).any p) = List.range' i n := by
  have hsplit : l = l.take i ++ ((l.drop i).take n ++ (l.drop i).drop n) := by
    rw [List.take_append_drop, List.take_append_drop]
  have hself : ((l.drop i).take n).filter p = l.filter p := by
    rw [hrun, List.filter_eq_self]
    exact fun a ha => (List.mem_filter.mp ha).2
  have hlengths := congrArg List.length (congrArg (List.filter p) hsplit)
  rw [List.filter_append, List.filter_append, List.length_append, List.length_append, hself]
    at hlengths
  have hfront : (l.take i).filter p = [] := List.eq_nil_of_length_eq_zero (by omega)
  have hback : ((l.drop i).drop n).filter p = [] := List.eq_nil_of_length_eq_zero (by omega)
  refine Ascending.ext (List.pairwise_lt_range.filter _) (List.pairwise_lt_range' ..) fun k => ?_
  rw [List.mem_filter, List.mem_range, List.mem_range'_1]
  constructor
  · rintro ⟨hk, hp⟩
    rw [List.getElem?_eq_getElem hk, Option.any_some] at hp
    by_contra hout
    by_cases hlt : k < i
    · exact List.filter_eq_nil_iff.mp hfront l[k] (List.mem_take_iff_getElem.mpr
        ⟨k, lt_min hlt hk, rfl⟩) hp
    · refine List.filter_eq_nil_iff.mp hback l[k] ?_ hp
      rw [List.drop_drop]
      refine List.mem_drop_iff_getElem.mpr ⟨k - (i + n), ?_, ?_⟩
      · omega
      · congr 1
        omega
  · rintro ⟨hle, hlt⟩
    have hk : k < l.length := by omega
    refine ⟨hk, ?_⟩
    rw [List.getElem?_eq_getElem hk, Option.any_some]
    have hmem : l[k] ∈ (l.drop i).take n := by
      refine List.mem_take_iff_getElem.mpr ⟨k - i, ?_, ?_⟩
      · rw [List.length_drop]
        omega
      · rw [List.getElem_drop]
        congr 1
        omega
    rw [hrun] at hmem
    exact (List.mem_filter.mp hmem).2

section Prefixes

variable [LinearOrder α]

/-- Between a word and one that begins with it stand only words that begin with it. -/
theorem isPrefix_of_between {w p q : List α} (hwp : ¬ p < w) (hpq : p < q) (hwq : w <+: q) :
    w <+: p := by
  induction w generalizing p q with
  | nil => exact List.nil_prefix
  | cons a w ih =>
    obtain ⟨tail, rfl⟩ := hwq
    cases p with
    | nil => exact absurd (List.nil_lt_cons a w) hwp
    | cons b p =>
      rw [List.cons_append, List.cons_lt_cons_iff] at hpq
      rw [List.cons_lt_cons_iff, not_or, not_and] at hwp
      rcases hpq with hlt | ⟨rfl, hpq⟩
      · exact absurd hlt hwp.1
      · exact List.cons_prefix_cons.mpr ⟨rfl, ih (hwp.2 rfl) hpq (List.prefix_append _ _)⟩

theorem not_lt_of_isPrefix {w p : List α} (h : w <+: p) : ¬ p < w := by
  induction w generalizing p with
  | nil => exact List.not_lt_nil p
  | cons a w ih =>
    obtain ⟨tail, rfl⟩ := h
    rw [List.cons_append, List.cons_lt_cons_iff]
    rintro (hlt | ⟨-, hlt⟩)
    · exact lt_irrefl a hlt
    · exact ih (List.prefix_append _ _) hlt

end Prefixes

end Slopty.Lib
