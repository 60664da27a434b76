import Slopty.Lib.Text
import Mathlib.Data.List.Sort

/-!
The key that types a chord's character under one keyboard layout.

What a character is in lower case is a given function.
-/

namespace Slopty.Input

open Slopty.Lib

/-- A virtual key code, with what the key types bare and shifted. -/
structure LayoutKey where
  vk : Nat
  base : Option Char
  shifted : Option Char

/-- A character in lower case, when that is one character. -/
def lowered (toLowercase : Char → Text) (c : Char) : Char :=
  match toLowercase c with
  | [one] => one
  | _ => c

/-- The key that types each character. -/
structure ChordTable where
  places : List (Char × Nat) := []

namespace ChordTable

variable (toLowercase : Char → Text)

def get (t : ChordTable) (c : Char) : Option Nat :=
  (t.places.find? fun p => p.1 == c).map Prod.snd

/-- A character goes to the first key that types it. -/
def orInsert (t : ChordTable) (typed : Option Char) (vk : Nat) : ChordTable :=
  match typed with
  | none => t
  | some c =>
      if (t.get (lowered toLowercase c)).isSome then t
      else { places := t.places ++ [(lowered toLowercase c, vk)] }

def fromKeys (keys : List LayoutKey) : ChordTable :=
  let keys := keys.mergeSort fun a b => decide (a.vk ≤ b.vk)
  let bare := keys.foldl (fun t key => t.orInsert toLowercase key.base key.vk) {}
  keys.foldl (fun t key => t.orInsert toLowercase key.shifted key.vk) bare

def place (t : ChordTable) (c : Char) : Option Nat := t.get (lowered toLowercase c)

/-- Of the chord of one character, under a layout that was read. -/
def placeOf (layout : Option ChordTable) (chord : Text) : Option Nat :=
  match chord with
  | [c] => layout.bind fun t => t.place toLowercase c
  | _ => none

/-- Whether a key types a character, in lower case. -/
def Types (typed : LayoutKey → Option Char) (c : Char) (key : LayoutKey) : Prop :=
  (typed key).map (lowered toLowercase) = some c

instance (typed : LayoutKey → Option Char) (c : Char) (key : LayoutKey) :
    Decidable (Types toLowercase typed c key) := inferInstanceAs (Decidable (_ = _))

variable {toLowercase}

theorem get_orInsert (t : ChordTable) (typed : Option Char) (vk : Nat) (c : Char) :
    (t.orInsert toLowercase typed vk).get c =
      (t.get c).or (if typed.map (lowered toLowercase) = some c then some vk else none) := by
  cases typed with
  | none => exact (Option.or_none).symm
  | some d =>
    unfold orInsert
    dsimp only
    by_cases hd : lowered toLowercase d = c
    · subst hd
      rw [Option.map_some, if_pos rfl]
      cases hget : t.get (lowered toLowercase d) with
      | some was =>
        rw [Option.isSome_some, if_pos rfl, hget]
        rfl
      | none =>
        rw [Option.isSome_none, if_neg Bool.false_ne_true]
        have hnone := Option.map_eq_none_iff.mp hget
        rw [get, List.find?_append, hnone, Option.none_or]
        simp
    · have hne : (Option.map (lowered toLowercase) (some d)) ≠ some c := fun hsame =>
        hd (Option.some.inj hsame)
      rw [if_neg hne, Option.or_none]
      split
      · rfl
      · rw [get, get, List.find?_append, List.find?_cons_of_neg, List.find?_nil, Option.or_none]
        exact fun hsame => hd (beq_iff_eq.mp hsame)

/-- After the keys of a list, the first of them that types a character has it, unless it was
taken. -/
theorem get_foldl (typed : LayoutKey → Option Char) (keys : List LayoutKey) (t : ChordTable)
    (c : Char) :
    (keys.foldl (fun t key => t.orInsert toLowercase (typed key) key.vk) t).get c =
      (t.get c).or ((keys.find? fun key => decide (Types toLowercase typed c key)).map
        LayoutKey.vk) := by
  induction keys generalizing t with
  | nil => exact (Option.or_none).symm
  | cons key rest ih =>
    rw [List.foldl_cons, ih, get_orInsert, Option.or_assoc]
    congr 1
    by_cases htypes : (typed key).map (lowered toLowercase) = some c
    · have hfound : decide (Types toLowercase typed c key) = true := decide_eq_true htypes
      rw [if_pos htypes, List.find?_cons, hfound]
      rfl
    · have hpassed : decide (Types toLowercase typed c key) = false := decide_eq_false htypes
      rw [if_neg htypes, List.find?_cons, hpassed]
      rfl

variable (toLowercase) in
/-- The lowest of the keys that type a character. -/
def Lowest (typed : LayoutKey → Option Char) (keys : List LayoutKey) (c : Char) (vk : Nat) : Prop :=
  (∃ key ∈ keys, Types toLowercase typed c key ∧ key.vk = vk) ∧
    ∀ key ∈ keys, Types toLowercase typed c key → vk ≤ key.vk

/-- In the order of their codes no key that types a character comes before the first found. -/
theorem first_lowest {typed : LayoutKey → Option Char} {sorted : List LayoutKey} {c : Char}
    {key : LayoutKey} (hsorted : sorted.Pairwise fun a b => decide (a.vk ≤ b.vk) = true)
    (hfound : sorted.find? (fun key => decide (Types toLowercase typed c key)) = some key) :
    key ∈ sorted ∧ Types toLowercase typed c key ∧
      ∀ other ∈ sorted, Types toLowercase typed c other → key.vk ≤ other.vk := by
  obtain ⟨htypes, before, after, rfl, hbefore⟩ := List.find?_eq_some_iff_append.mp hfound
  refine ⟨List.mem_append_right _ List.mem_cons_self, of_decide_eq_true htypes,
    fun other hother htoo => ?_⟩
  rcases List.mem_append.mp hother with hin | hin
  · have hnot := hbefore other hin
    rw [decide_eq_true htoo] at hnot
    exact absurd hnot (by decide)
  · rcases List.mem_cons.mp hin with rfl | hin
    · exact le_rfl
    · have hrest := (List.pairwise_append.mp hsorted).2.1
      exact of_decide_eq_true ((List.pairwise_cons.mp hrest).1 other hin)

/-- The keys in the order of their codes. -/
theorem sorted_by_code (keys : List LayoutKey) :
    (keys.mergeSort fun a b => decide (a.vk ≤ b.vk)).Pairwise
      fun a b => decide (a.vk ≤ b.vk) = true := by
  apply List.pairwise_mergeSort
  · intro a b d hab hbd
    exact decide_eq_true ((of_decide_eq_true hab).trans (of_decide_eq_true hbd))
  · intro a b
    rw [Bool.or_eq_true, decide_eq_true_eq, decide_eq_true_eq]
    exact Nat.le_total ..

variable (toLowercase) in
/-- In the order of their codes the first key found is the lowest. -/
theorem find_sorted (typed : LayoutKey → Option Char) (keys : List LayoutKey) (c : Char) (vk : Nat) :
    ((keys.mergeSort fun a b => decide (a.vk ≤ b.vk)).find?
        fun key => decide (Types toLowercase typed c key)).map LayoutKey.vk = some vk ↔
      Lowest toLowercase typed keys c vk := by
  have hsorted := sorted_by_code keys
  have hmem : ∀ key, key ∈ keys.mergeSort (fun a b => decide (a.vk ≤ b.vk)) ↔ key ∈ keys :=
    fun key => List.mem_mergeSort
  generalize keys.mergeSort (fun a b => decide (a.vk ≤ b.vk)) = sorted at hsorted hmem
  constructor
  · intro hfound
    obtain ⟨key, hkey, rfl⟩ := Option.map_eq_some_iff.mp hfound
    obtain ⟨hin, htypes, hlowest⟩ := first_lowest hsorted hkey
    exact ⟨⟨key, (hmem key).mp hin, htypes, rfl⟩, fun other hother =>
      hlowest other ((hmem other).mpr hother)⟩
  · rintro ⟨⟨key, hin, htypes, rfl⟩, hlowest⟩
    cases hfound : sorted.find? fun key => decide (Types toLowercase typed c key) with
    | none =>
      have hnot := List.find?_eq_none.mp hfound key ((hmem key).mpr hin)
      exact absurd (decide_eq_true htypes) hnot
    | some first =>
      obtain ⟨hin', htypes', hlowest'⟩ := first_lowest hsorted hfound
      exact congrArg some (Nat.le_antisymm (hlowest' key ((hmem key).mpr hin) htypes)
        (hlowest first ((hmem first).mp hin') htypes'))

/-- A character is typed by the lowest key that types it bare, else by the lowest that types it
shifted, and by none where no key types it. -/
theorem place_fromKeys (keys : List LayoutKey) (c : Char) (vk : Nat) :
    (fromKeys toLowercase keys).place toLowercase c = some vk ↔
      Lowest toLowercase LayoutKey.base keys (lowered toLowercase c) vk ∨
        (∀ key ∈ keys, ¬Types toLowercase LayoutKey.base (lowered toLowercase c) key) ∧
          Lowest toLowercase LayoutKey.shifted keys (lowered toLowercase c) vk := by
  have hbase := find_sorted toLowercase LayoutKey.base keys
    (lowered toLowercase c) vk
  have hshifted := find_sorted toLowercase LayoutKey.shifted keys
    (lowered toLowercase c) vk
  have hempty : ({} : ChordTable).get (lowered toLowercase c) = none := rfl
  unfold place fromKeys
  dsimp only
  rw [get_foldl, get_foldl, hempty, Option.none_or, Option.or_eq_some_iff, hbase, hshifted,
    Option.map_eq_none_iff, List.find?_eq_none]
  refine or_congr_right (and_congr_left' ?_)
  constructor
  · exact fun hnone key hkey htypes =>
      hnone key (List.mem_mergeSort.mpr hkey) (decide_eq_true htypes)
  · exact fun hnone key hkey htypes =>
      hnone key (List.mem_mergeSort.mp hkey) (of_decide_eq_true htypes)

end ChordTable

end Slopty.Input
