import Mathlib.Data.Finset.Card
import Slopty.Lib.Decimal
import Slopty.Lib.Machine

/-!
Names for the entries of a transfer that keeps both: a name that is taken is numbered before
its extension until one is free.
-/

namespace Slopty.Xfer.Numbered

open Slopty.Lib

/-- Names tried for one entry before it is refused. -/
def numberedMost : Nat := 10000

/-- A transfer's file name as the components of a path under the transfer's root. -/
def relativePath (name : Text) : Option (List Text) :=
  let components := name.splitOn '/'
  let refused := components.any fun c => c.isEmpty || c == ".".toList || c == "..".toList
  if name.isEmpty || name.contains (Char.ofNat 0) || refused
  then none else some components

/-- A name that is one component of a path. -/
def Component (name : Text) : Prop := relativePath name = some [name]

instance (name : Text) : Decidable (Component name) :=
  inferInstanceAs (Decidable (relativePath name = some [name]))

def partialOf (target : Text) : Text := target ++ ".partial".toList

/-- What stands before both of a tarball's extensions, its last one taken off already. -/
def tarStem (stem : Text) : Text :=
  match Text.rsplitOnce '.' stem with
  | some (before, tar) => if before ≠ [] ∧ tar.map Char.toLower = "tar".toList then before else stem
  | none => stem

/-- A name as its stem and its extension, dot included. -/
def splitExtension (name : Text) : Text × Text :=
  match Text.rsplitOnce '.' name with
  | some (stem, ext) =>
      if stem = [] ∨ ext = [] ∨ ' ' ∈ ext then (name, [])
      else name.splitAt (tarStem stem).length
  | none => (name, [])

/-- The number a stem ends in, and what stands before it. -/
def countedFrom (stem : Text) : Text × Nat :=
  match Text.rsplitOnce ' ' stem with
  | some (base, digits) =>
      if base ≠ [] ∧ digits.head? ≠ some '0' ∧ digits.all Char.isDigit then
        match Text.parseU32 digits with
        | some number => (base, number)
        | none => (stem, 1)
      else (stem, 1)
  | none => (stem, 1)

def stemAndExtension (name : Text) (dir : Bool) : Text × Text :=
  if dir then (name, []) else splitExtension name

/-- The name an entry is given after `n` others were taken. -/
def numbered (name : Text) (n : Nat) (dir : Bool) : Text :=
  if n = 0 then name
  else
    let (stem, ext) := stemAndExtension name dir
    let (base, number) := countedFrom stem
    base ++ ' ' :: Nat.toDigits 10 (satAdd 32 number n) ++ ext

example : numbered "archive.tar.gz".toList 1 false = "archive 2.tar.gz".toList := by decide

section Disk

variable {E : Type}

/-- What the file system answers a call that makes a name. -/
inductive Answer (E : Type) where
  | made
  | alreadyExists
  | failed (e : E)

inductive XferError (E : Type) where
  | io (e : E)
  | crowded (name : Text)

inductive LandError (E : Type) where
  | io (e : E)
  | noFreeName

/-- A directory: what stands in it, what other transfers will land there, and what its file
system answers. -/
structure Disk (E : Type) where
  ready : Except E Unit
  there : Text → Bool
  claimed : Text → Bool
  createDir : Text → Answer E
  renameNew : Text → Answer E

/-- One name tried for an entry: nothing when it is taken. -/
def Disk.tryEntry (disk : Disk E) (dir : Bool) (entry : Text) : Option (Except (XferError E) Text) :=
  if disk.there entry || disk.there (partialOf entry) || disk.claimed entry then none
  else if !dir then some (.ok entry)
  else
    match disk.createDir entry with
    | .made => some (.ok entry)
    | .alreadyExists => none
    | .failed e => some (.error (.io e))

/-- Where a top-level entry lands. -/
def choose (disk : Disk E) (top : Text) (dir : Bool) : Except (XferError E) Text :=
  match if dir then disk.ready else .ok () with
  | .error e => .error (.io e)
  | .ok () =>
      ((List.range numberedMost).findSome? fun n => disk.tryEntry dir (numbered top n dir)).getD
        (.error (.crowded top))

def candidate (target : Text) (n : Nat) : Text := if n = 0 then target else numbered target n false

/-- One name tried for a file that is whole: nothing when it is taken. -/
def Disk.tryLanding (disk : Disk E) (target : Text) (n : Nat) : Option (Except (LandError E) Text) :=
  if n > 0 && disk.there (partialOf (candidate target n)) then none
  else
    match disk.renameNew (candidate target n) with
    | .made => some (.ok (candidate target n))
    | .alreadyExists => none
    | .failed e => some (.error (.io e))

/-- Renames a file that is whole into place, never over anything. -/
def landBeside (disk : Disk E) (target : Text) : Except (LandError E) Text :=
  ((List.range numberedMost).findSome? (disk.tryLanding target)).getD (.error .noFreeName)

/-- The file system does what it is asked, except where a name is taken. -/
structure Disk.Working (disk : Disk E) : Prop where
  ready : disk.ready = .ok ()
  createDir : ∀ entry e, disk.createDir entry ≠ .failed e
  renameNew : ∀ entry e, disk.renameNew entry ≠ .failed e

end Disk

/-! ### Taking a name apart -/

/-- An extension, dot included: none, one part, or both parts of a tarball's. -/
inductive Extension : Text → Prop where
  | none : Extension []
  | plain {ext : Text} (hne : ext ≠ []) (hdot : '.' ∉ ext) (hspace : ' ' ∉ ext) :
      Extension ('.' :: ext)
  | tarball {tar ext : Text} (htar : tar.map Char.toLower = "tar".toList) (hdotTar : '.' ∉ tar)
      (hne : ext ≠ []) (hdot : '.' ∉ ext) (hspace : ' ' ∉ ext) :
      Extension ('.' :: tar ++ '.' :: ext)

/-- A name before an extension that its own last part does not run into. -/
def Apart (stem : Text) : Prop :=
  stem ≠ [] ∧ ∀ before last, Text.rsplitOnce '.' stem = some (before, last) → ' ' ∈ last

theorem tarStem_of_apart {stem : Text} (h : Apart stem) : tarStem stem = stem := by
  rw [tarStem]
  cases hsplit : Text.rsplitOnce '.' stem with
  | none => rfl
  | some sides =>
    obtain ⟨before, last⟩ := sides
    have hspace := h.2 before last hsplit
    have htar : last.map Char.toLower ≠ "tar".toList := by
      intro htar
      have : Char.toLower ' ' ∈ "tar".toList := htar ▸ List.mem_map_of_mem hspace
      exact absurd this (by decide)
    exact if_neg fun hboth => htar hboth.2

theorem splitExtension_append {stem ext : Text} (hstem : Apart stem) (hext : Extension ext) :
    splitExtension (stem ++ ext) = (stem, ext) := by
  cases hext with
  | none =>
    rw [List.append_nil, splitExtension]
    cases hsplit : Text.rsplitOnce '.' stem with
    | none => rfl
    | some sides => exact if_pos (.inr (.inr (hstem.2 sides.1 sides.2 hsplit)))
  | @plain ext hne hdot hspace =>
    rw [splitExtension, Text.rsplitOnce_append hdot]
    simp only [hstem.1, hne, hspace, or_self, if_false]
    rw [tarStem_of_apart hstem, List.splitAt_eq, List.take_left, List.drop_left]
  | @tarball tar ext htar hdotTar hne hdot hspace =>
    have htarStem : tarStem (stem ++ '.' :: tar) = stem := by
      rw [tarStem, Text.rsplitOnce_append hdotTar]
      exact if_pos ⟨hstem.1, htar⟩
    rw [← List.append_assoc, splitExtension, Text.rsplitOnce_append hdot]
    simp only [List.append_eq_nil_iff, hstem.1, hne, hspace, false_and, or_self, if_false]
    rw [htarStem, List.append_assoc, List.splitAt_eq, List.take_left, List.drop_left]

theorem tarStem_cases (stem : Text) :
    tarStem stem = stem ∨ ∃ tar, tar.map Char.toLower = "tar".toList ∧ '.' ∉ tar ∧
      tarStem stem ≠ [] ∧ stem = tarStem stem ++ '.' :: tar := by
  rw [tarStem]
  cases hsplit : Text.rsplitOnce '.' stem with
  | none => exact .inl rfl
  | some sides =>
    obtain ⟨before, tar⟩ := sides
    obtain ⟨hstem, hdot⟩ := Text.rsplitOnce_eq_some hsplit
    by_cases hboth : before ≠ [] ∧ tar.map Char.toLower = "tar".toList
    · simp only [if_pos hboth]
      exact .inr ⟨tar, hboth.2, hdot, hboth.1, hstem⟩
    · exact .inl (if_neg hboth)

/-- A name is its stem and its extension. -/
theorem splitExtension_spec {name : Text} (hname : name ≠ []) :
    (splitExtension name).1 ≠ [] ∧ Extension (splitExtension name).2 ∧
      name = (splitExtension name).1 ++ (splitExtension name).2 := by
  have hwhole : (name, ([] : Text)).1 ≠ [] ∧ Extension (name, ([] : Text)).2 ∧
      name = (name, ([] : Text)).1 ++ (name, ([] : Text)).2 :=
    ⟨hname, .none, (List.append_nil name).symm⟩
  rw [splitExtension]
  cases hsplit : Text.rsplitOnce '.' name with
  | none => exact hwhole
  | some sides =>
    obtain ⟨stem, ext⟩ := sides
    obtain ⟨rfl, hdot⟩ := Text.rsplitOnce_eq_some hsplit
    by_cases hbare : stem = [] ∨ ext = [] ∨ ' ' ∈ ext
    · simp only [if_pos hbare]
      exact hwhole
    · simp only [if_neg hbare]
      obtain ⟨hstem, hne, hspace⟩ := not_or.mp hbare |>.imp id not_or.mp
      rcases tarStem_cases stem with hplain | ⟨tar, htar, hdotTar, hbefore, heq⟩
      · rw [hplain, List.splitAt_eq, List.take_left, List.drop_left]
        exact ⟨hstem, .plain hne hdot hspace, rfl⟩
      · have hname : stem ++ '.' :: ext = tarStem stem ++ ('.' :: tar ++ '.' :: ext) := by
          conv_lhs => rw [heq, List.append_assoc]
        rw [hname, List.splitAt_eq, List.take_left, List.drop_left]
        exact ⟨hbefore, .tarball htar hdotTar hne hdot hspace, rfl⟩

theorem apart_space {base digits : Text} (hdigits : ∀ c ∈ digits, c.isDigit = true) :
    Apart (base ++ ' ' :: digits) := by
  refine ⟨List.append_ne_nil_of_right_ne_nil _ (List.cons_ne_nil _ _), ?_⟩
  intro before last hsplit
  obtain ⟨heq, -⟩ := Text.rsplitOnce_eq_some hsplit
  rcases List.append_eq_append_iff.mp heq with ⟨between, -, hafter⟩ | ⟨between, -, hafter⟩
  · cases between with
    | nil => exact absurd (List.cons.inj hafter).1 (by decide)
    | cons c between =>
      have hdot : '.' ∈ digits := (List.cons.inj hafter).2 ▸ List.mem_append_cons_self
      exact absurd (hdigits '.' hdot) (by decide)
  · cases between with
    | nil => exact absurd (List.cons.inj hafter).1 (by decide)
    | cons c between => exact (List.cons.inj hafter).2 ▸ List.mem_append_cons_self

/-! ### Numbering it -/

/-- A stem goes on from the number it ends in, or from one. -/
theorem countedFrom_cases (stem : Text) :
    countedFrom stem = (stem, 1) ∨ ∃ base number, base ≠ [] ∧ 0 < number ∧ number < 2 ^ 32 ∧
      stem = base ++ ' ' :: Nat.toDigits 10 number ∧ countedFrom stem = (base, number) := by
  cases hsplit : Text.rsplitOnce ' ' stem with
  | none => exact .inl (by rw [countedFrom, hsplit])
  | some sides =>
    obtain ⟨base, digits⟩ := sides
    obtain ⟨hstem, -⟩ := Text.rsplitOnce_eq_some hsplit
    by_cases hdigits : base ≠ [] ∧ digits.head? ≠ some '0' ∧ digits.all Char.isDigit
    · cases hparse : Text.parseU32 digits with
      | none =>
        left
        simp only [countedFrom, hsplit, if_pos hdigits, hparse]
      | some number =>
        right
        have hcounted : countedFrom stem = (base, number) := by
          simp only [countedFrom, hsplit, if_pos hdigits, hparse]
        obtain ⟨hbase, hzero, hall⟩ := hdigits
        have hall := List.all_eq_true.mp hall
        have hne : digits ≠ [] := by
          rintro rfl
          exact absurd (hparse.symm.trans (by decide : Text.parseU32 [] = none)) nofun
        rw [Decimal.parseU32_eq hne hall, Option.ite_none_right_eq_some] at hparse
        obtain ⟨hroom, hnumber⟩ := hparse
        obtain rfl := Option.some.inj hnumber
        refine ⟨base, _, hbase, Decimal.ofDigitChars_pos hne hall hzero, hroom, ?_, hcounted⟩
        rw [Decimal.toDigits_ofDigitChars hne hall hzero]
        exact hstem
    · left
      simp only [countedFrom, hsplit, if_neg hdigits]

theorem countedFrom_number {base : Text} {number : Nat} (hbase : base ≠ []) (hpos : 0 < number)
    (hroom : number < 2 ^ 32) :
    countedFrom (base ++ ' ' :: Nat.toDigits 10 number) = (base, number) := by
  have hdigits : ∀ c ∈ Nat.toDigits 10 number, c.isDigit = true :=
    fun c hc => Decimal.isDigit_toDigits hc
  have hspace : ' ' ∉ Nat.toDigits 10 number := fun h => absurd (hdigits ' ' h) (by decide)
  have hparse : Text.parseU32 (Nat.toDigits 10 number) = some number := by
    rw [Decimal.parseU32_eq Nat.toDigits_ne_nil hdigits, Nat.ofDigitChars_ten_toDigits, if_pos hroom]
  rw [countedFrom, Text.rsplitOnce_append hspace]
  simp only [hparse]
  exact if_pos ⟨hbase, Decimal.head_toDigits hpos, List.all_eq_true.mpr hdigits⟩

/-- How a name is taken apart before it is numbered, for either kind of entry. -/
theorem stemAndExtension_spec {name : Text} (hname : name ≠ []) (dir : Bool) :
    (stemAndExtension name dir).1 ≠ [] ∧ Extension (stemAndExtension name dir).2 ∧
      name = (stemAndExtension name dir).1 ++ (stemAndExtension name dir).2 := by
  cases dir with
  | false => exact splitExtension_spec hname
  | true => exact ⟨hname, .none, (List.append_nil name).symm⟩

theorem numbered_pos (name : Text) {n : Nat} (hn : 0 < n) (dir : Bool) :
    numbered name n dir =
      (countedFrom (stemAndExtension name dir).1).1 ++
        ' ' :: Nat.toDigits 10 (satAdd 32 (countedFrom (stemAndExtension name dir).1).2 n) ++
        (stemAndExtension name dir).2 := by
  rw [numbered, if_neg hn.ne']

/-- The stem of a name ends in a number so near the last that the names tried run past it. -/
def EndsNearLast (name : Text) (dir : Bool) : Prop :=
  ∃ base number, base ≠ [] ∧ number < 2 ^ 32 ∧ 2 ^ 32 ≤ number + (numberedMost - 1) ∧
    (stemAndExtension name dir).1 = base ++ ' ' :: Nat.toDigits 10 number

theorem satAdd_eq {number n : Nat} (h : number + n < 2 ^ 32) : satAdd 32 number n = number + n :=
  Nat.min_eq_left (by omega)

theorem spelled_injective {base ext : Text} {a b : Nat}
    (h : base ++ ' ' :: Nat.toDigits 10 a ++ ext = base ++ ' ' :: Nat.toDigits 10 b ++ ext) : a = b := by
  have hdigits := List.append_cancel_left (List.append_cancel_right h)
  exact Decimal.toDigits_injective (List.cons.inj hdigits).2

theorem numbered_differ {name : Text} {dir : Bool} (hname : name ≠ []) (hlast : ¬ EndsNearLast name dir)
    {m n : Nat} (hmn : m < n) (hn : n < numberedMost) : numbered name m dir ≠ numbered name n dir := by
  intro heq
  obtain ⟨-, -, hparts⟩ := stemAndExtension_spec hname dir
  rw [numbered_pos name (by omega : 0 < n)] at heq
  rw [numberedMost] at hn
  rcases countedFrom_cases (stemAndExtension name dir).1 with
    hone | ⟨base, number, hbase, hpos, hroom, hstem, hcounted⟩
  · rw [hone, satAdd_eq (by omega)] at heq
    rcases Nat.eq_zero_or_pos m with rfl | hm
    · rw [numbered, if_pos rfl] at heq
      have hlength := congrArg List.length (hparts.symm.trans heq)
      simp only [List.length_append, List.length_cons] at hlength
      omega
    · rw [numbered_pos name hm, hone, satAdd_eq (by omega)] at heq
      have := spelled_injective heq
      omega
  · have hfar : number + 9999 < 2 ^ 32 := by
      by_contra hnear
      exact hlast ⟨base, number, hbase, hroom, by rw [numberedMost]; omega, hstem⟩
    rw [hcounted, satAdd_eq (by omega)] at heq
    rcases Nat.eq_zero_or_pos m with rfl | hm
    · rw [numbered, if_pos rfl] at heq
      have hsame := spelled_injective ((hstem ▸ hparts.symm).trans heq)
      omega
    · rw [numbered_pos name hm, hcounted, satAdd_eq (by omega)] at heq
      have := spelled_injective heq
      omega

/-- A stem that ends near the last number stops there. -/
theorem numbered_stops {name base : Text} {dir : Bool} {number n : Nat} (hname : name ≠ [])
    (hbase : base ≠ []) (hpos : 0 < number) (hroom : number < 2 ^ 32)
    (hstem : (stemAndExtension name dir).1 = base ++ ' ' :: Nat.toDigits 10 number)
    (hn : 2 ^ 32 - 1 ≤ number + n) :
    numbered name n dir =
      base ++ ' ' :: Nat.toDigits 10 (2 ^ 32 - 1) ++ (stemAndExtension name dir).2 := by
  rcases Nat.eq_zero_or_pos n with rfl | hn'
  · obtain ⟨-, -, hparts⟩ := stemAndExtension_spec hname dir
    have hnumber : number = 2 ^ 32 - 1 := by omega
    rw [numbered, if_pos rfl, ← hnumber, ← hstem]
    exact hparts
  · have hcounted : countedFrom (stemAndExtension name dir).1 = (base, number) := by
      rw [hstem]
      exact countedFrom_number hbase hpos hroom
    rw [numbered_pos name hn', hcounted, satAdd, Nat.min_eq_right hn]

theorem numbered_coincide {name : Text} {dir : Bool} (hname : name ≠ []) (h : EndsNearLast name dir) :
    ∃ m n, m < n ∧ n < numberedMost ∧ numbered name m dir = numbered name n dir := by
  obtain ⟨base, number, hbase, hroom, hnear, hstem⟩ := h
  rw [numberedMost] at hnear
  have hstops : ∀ n, 2 ^ 32 - 1 ≤ number + n → numbered name n dir = _ :=
    fun n => numbered_stops hname hbase (by omega) hroom hstem
  refine ⟨2 ^ 32 - 1 - number, 2 ^ 32 - number, by omega, by rw [numberedMost]; omega, ?_⟩
  rw [hstops _ (by omega), hstops _ (by omega)]

/-! ### One component, and the extension kept -/

theorem component_iff {name : Text} :
    Component name ↔ name ≠ [] ∧ Char.ofNat 0 ∉ name ∧ '/' ∉ name ∧ name ≠ ".".toList ∧
      name ≠ "..".toList := by
  have hsingle : '/' ∉ name → name.splitOn '/' = [name] := List.splitOn_eq_singleton
  constructor
  · intro h
    rw [Component, relativePath] at h
    simp only [Option.ite_none_left_eq_some, Option.some.injEq, Bool.or_eq_true, not_or,
      List.isEmpty_iff, List.contains_iff_mem] at h
    obtain ⟨⟨⟨hne, hnul⟩, hrefused⟩, hsplit⟩ := h
    rw [hsplit] at hrefused
    simp only [List.any_cons, List.any_nil, Bool.or_false, Bool.or_eq_true, not_or, List.isEmpty_iff,
      beq_iff_eq] at hrefused
    obtain ⟨⟨-, hdot⟩, hdots⟩ := hrefused
    have hslash : '/' ∉ name := by
      intro hslash
      obtain ⟨before, after, heq⟩ := List.append_of_mem hslash
      rw [heq, List.splitOn_append_cons_self] at hsplit
      have hlength := congrArg List.length hsplit
      rw [List.length_append, List.length_singleton] at hlength
      have := List.length_pos_of_ne_nil (List.splitOn_ne_nil '/' before)
      have := List.length_pos_of_ne_nil (List.splitOn_ne_nil '/' after)
      omega
    exact ⟨hne, hnul, hslash, hdot, hdots⟩
  · rintro ⟨hne, hnul, hslash, hdot, hdots⟩
    rw [Component, relativePath]
    simp only [hsingle hslash, List.any_cons, List.any_nil, Bool.or_false]
    refine if_neg ?_
    simp only [Bool.or_eq_true, not_or, List.isEmpty_iff, List.contains_iff_mem, beq_iff_eq]
    exact ⟨⟨hne, hnul⟩, ⟨hne, hdot⟩, hdots⟩

theorem countedFrom_fst_subset (stem : Text) : (countedFrom stem).1 ⊆ stem := by
  rcases countedFrom_cases stem with hone | ⟨base, number, -, -, -, hstem, hcounted⟩
  · rw [hone]
    exact List.Subset.refl stem
  · rw [hcounted, hstem]
    exact List.subset_append_left _ _

/-- What a numbered name is made of. -/
theorem mem_numbered {name : Text} (hname : name ≠ []) {n : Nat} {dir : Bool} {c : Char}
    (h : c ∈ numbered name n dir) : c ∈ name ∨ c = ' ' ∨ c.isDigit = true := by
  rcases Nat.eq_zero_or_pos n with rfl | hn
  · exact .inl (by rwa [numbered, if_pos rfl] at h)
  · obtain ⟨-, -, hparts⟩ := stemAndExtension_spec hname dir
    rw [numbered_pos name hn, List.append_assoc, List.mem_append, List.cons_append, List.mem_cons,
      List.mem_append] at h
    rcases h with hbase | hspace | hdigit | hext
    · rw [hparts]
      exact .inl (List.mem_append_left _ (countedFrom_fst_subset _ hbase))
    · exact .inr (.inl hspace)
    · exact .inr (.inr (Decimal.isDigit_toDigits hdigit))
    · rw [hparts]
      exact .inl (List.mem_append_right _ hext)

theorem numbered_component {name : Text} (h : Component name) (n : Nat) (dir : Bool) :
    Component (numbered name n dir) := by
  rcases Nat.eq_zero_or_pos n with rfl | hn
  · rwa [numbered, if_pos rfl]
  obtain ⟨hne, hnul, hslash, -, -⟩ := component_iff.mp h
  have hspace : ' ' ∈ numbered name n dir := by
    rw [numbered_pos name hn]
    exact List.mem_append_left _ List.mem_append_cons_self
  have hout : ∀ c, c ∉ name → c ≠ ' ' → c.isDigit = false → c ∉ numbered name n dir := by
    intro c hc hnot hdigit hmem
    rcases mem_numbered hne hmem with hmem | hmem | hmem
    · exact hc hmem
    · exact hnot hmem
    · exact absurd (hmem.symm.trans hdigit) nofun
  refine component_iff.mpr ⟨List.ne_nil_of_mem hspace, hout _ hnul (by decide) (by decide),
    hout _ hslash (by decide) (by decide), ?_, ?_⟩
  · intro hdot
    exact absurd (hdot ▸ hspace) (by decide)
  · intro hdots
    exact absurd (hdots ▸ hspace) (by decide)

theorem numbered_extension {name : Text} (hname : name ≠ []) (n : Nat) :
    (splitExtension (numbered name n false)).2 = (splitExtension name).2 := by
  rcases Nat.eq_zero_or_pos n with rfl | hn
  · rw [numbered, if_pos rfl]
  obtain ⟨-, hext, -⟩ := splitExtension_spec hname
  obtain ⟨stem, hsplit⟩ : ∃ stem, splitExtension (numbered name n false) =
      (stem, (splitExtension name).2) := by
    rw [numbered_pos name hn]
    exact ⟨_, splitExtension_append (apart_space fun c hc => Decimal.isDigit_toDigits hc) hext⟩
  rw [hsplit]

/-! ### A free name -/

section Free

variable {E : Type}

/-- The names of those tried that are taken. -/
def takenNames {β : Type} (names : Nat → Text) (tries : Nat → Option β) : Finset Text :=
  ((Finset.range numberedMost).filter fun n => (tries n).isNone).image names

theorem exists_free {β : Type} {names : Nat → Text} {tries : Nat → Option β}
    (hdiffer : Set.InjOn names (Finset.range numberedMost))
    (hfew : (takenNames names tries).card < numberedMost) :
    ∃ n < numberedMost, ∃ out, tries n = some out ∧
      (List.range numberedMost).findSome? tries = some out := by
  have hfound : (List.range numberedMost).findSome? tries ≠ none := by
    intro hnone
    have htaken : takenNames names tries = (Finset.range numberedMost).image names := by
      rw [takenNames, Finset.filter_true_of_mem]
      intro n hn
      rw [List.findSome?_eq_none_iff.mp hnone n (List.mem_range.mpr (Finset.mem_range.mp hn))]
      rfl
    rw [htaken, Finset.card_image_of_injOn hdiffer, Finset.card_range] at hfew
    exact Nat.lt_irrefl _ hfew
  obtain ⟨out, hout⟩ := Option.ne_none_iff_exists'.mp hfound
  obtain ⟨n, hn, htry⟩ := List.exists_of_findSome?_eq_some hout
  exact ⟨n, List.mem_range.mp hn, out, htry, hout⟩

theorem tryEntry_ok {disk : Disk E} (hworks : disk.Working) {dir : Bool} {entry : Text}
    {out : Except (XferError E) Text} (h : disk.tryEntry dir entry = some out) : out = .ok entry := by
  unfold Disk.tryEntry at h
  split at h
  · exact absurd h nofun
  · split at h
    · exact (Option.some.inj h).symm
    · split at h
      · exact (Option.some.inj h).symm
      · exact absurd h nofun
      · rename_i e hfailed
        exact absurd hfailed (hworks.createDir entry e)

theorem tryLanding_ok {disk : Disk E} (hworks : disk.Working) {target : Text} {n : Nat}
    {out : Except (LandError E) Text} (h : disk.tryLanding target n = some out) :
    out = .ok (candidate target n) := by
  unfold Disk.tryLanding at h
  split at h
  · exact absurd h nofun
  · split at h
    · exact (Option.some.inj h).symm
    · exact absurd h nofun
    · rename_i e hfailed
      exact absurd hfailed (hworks.renameNew _ e)

theorem candidate_eq (target : Text) : candidate target = (numbered target · false) := by
  funext n
  rcases Nat.eq_zero_or_pos n with rfl | hn
  · rfl
  · exact if_neg hn.ne'

end Free

/-- What keeping both promises of the names of an entry. -/
structure KeepsBoth (name : Text) (dir : Bool) : Prop where
  differ : Set.InjOn (numbered name · dir) (Finset.range numberedMost)
  component : ∀ n < numberedMost, Component (numbered name n dir)
  extension : dir = false → ∀ n < numberedMost,
    (splitExtension (numbered name n dir)).2 = (splitExtension name).2
  chosen : ∀ (E : Type) (disk : Disk E), disk.Working →
    (takenNames (numbered name · dir) (fun n => disk.tryEntry dir (numbered name n dir))).card <
      numberedMost →
    ∃ n < numberedMost, disk.tryEntry dir (numbered name n dir) ≠ none ∧
      choose disk name dir = .ok (numbered name n dir)
  landed : dir = false → ∀ (E : Type) (disk : Disk E), disk.Working →
    (takenNames (numbered name · dir) (disk.tryLanding name)).card < numberedMost →
    ∃ n < numberedMost, disk.tryLanding name n ≠ none ∧
      landBeside disk name = .ok (numbered name n dir)

theorem keepsBoth_iff (name : Text) (dir : Bool) (h : Component name) :
    KeepsBoth name dir ↔ ¬ EndsNearLast name dir := by
  have hname := (component_iff.mp h).1
  constructor
  · intro hkeeps hlast
    obtain ⟨m, n, hmn, hn, heq⟩ := numbered_coincide hname hlast
    have hsame := hkeeps.differ (Finset.mem_coe.mpr (Finset.mem_range.mpr (hmn.trans hn)))
      (Finset.mem_coe.mpr (Finset.mem_range.mpr hn)) heq
    omega
  · intro hlast
    have hdiffer : Set.InjOn (numbered name · dir) (Finset.range numberedMost) := by
      intro m hm n hn heq
      rw [Finset.mem_coe, Finset.mem_range] at hm hn
      rcases Nat.lt_trichotomy m n with hlt | hsame | hlt
      · exact absurd heq (numbered_differ hname hlast hlt hn)
      · exact hsame
      · exact absurd heq.symm (numbered_differ hname hlast hlt hm)
    refine ⟨hdiffer, fun n _ => numbered_component h n dir, ?_, ?_, ?_⟩
    · rintro rfl n -
      exact numbered_extension hname n
    · intro E disk hworks hfew
      obtain ⟨n, hn, out, htry, hfound⟩ := exists_free hdiffer hfew
      refine ⟨n, hn, htry ▸ nofun, ?_⟩
      have hchoose : choose disk name dir = out := by
        rw [choose, hworks.ready, ite_self, hfound, Option.getD_some]
      rw [hchoose, tryEntry_ok hworks htry]
    · rintro rfl E disk hworks hfew
      obtain ⟨n, hn, out, htry, hfound⟩ := exists_free hdiffer hfew
      refine ⟨n, hn, htry ▸ nofun, ?_⟩
      have hlanded : landBeside disk name = out := by
        rw [landBeside, hfound, Option.getD_some]
      rw [hlanded, tryLanding_ok hworks htry, candidate_eq]

theorem keepsBoth_report : KeepsBoth "report 2.tar.gz".toList false := by
  refine (keepsBoth_iff "report 2.tar.gz".toList false (by decide)).mpr ?_
  rintro ⟨base, number, hbase, hroom, hnear, hstem⟩
  rw [numberedMost] at hnear
  have hcounted := countedFrom_number hbase (by omega) hroom
  rw [← hstem] at hcounted
  have hnumber : 2 = number := congrArg Prod.snd hcounted
  omega

/-- A name taken once in a directory that holds nothing else. -/
def lastTaken : Disk Empty where
  ready := .ok ()
  there := fun name => name == "a 4294967295".toList
  claimed := fun _ => false
  createDir := fun _ => .made
  renameNew := fun name => if name = "a 4294967295".toList then .alreadyExists else .made

/-- An entry numbered with the last number is tried under that one name until it is refused. -/
theorem last_number_crowded :
    Component "a 4294967295".toList ∧ ¬ KeepsBoth "a 4294967295".toList false ∧
      choose lastTaken "a 4294967295".toList false = .error (.crowded "a 4294967295".toList) ∧
      landBeside lastTaken "a 4294967295".toList = .error .noFreeName := by
  have hcomponent : Component "a 4294967295".toList := by decide
  have hname := (component_iff.mp hcomponent).1
  have hstem : (stemAndExtension "a 4294967295".toList false).1 =
      "a".toList ++ ' ' :: Nat.toDigits 10 (2 ^ 32 - 1) := by decide
  have hstays : ∀ n, numbered "a 4294967295".toList n false = "a 4294967295".toList := by
    intro n
    rw [numbered_stops hname (by decide) (by decide) (by decide) hstem (Nat.le_add_right _ _)]
    decide
  refine ⟨hcomponent, ?_, ?_, ?_⟩
  · intro hkeeps
    have hmost : 1 < numberedMost := by decide
    have hsame := hkeeps.differ (Finset.mem_coe.mpr (Finset.mem_range.mpr (Nat.zero_lt_of_lt hmost)))
      (Finset.mem_coe.mpr (Finset.mem_range.mpr hmost)) ((hstays 0).trans (hstays 1).symm)
    exact absurd hsame nofun
  · have htaken : lastTaken.tryEntry false "a 4294967295".toList = none := rfl
    have hnone : ((List.range numberedMost).findSome? fun n =>
        lastTaken.tryEntry false (numbered "a 4294967295".toList n false)) = none := by
      rw [List.findSome?_eq_none_iff]
      intro n _
      rw [hstays, htaken]
    rw [choose, if_neg Bool.false_ne_true, hnone, Option.getD_none]
  · have hnothing : lastTaken.there (partialOf "a 4294967295".toList) = false := by decide
    have hnone : (List.range numberedMost).findSome? (lastTaken.tryLanding "a 4294967295".toList) =
        none := by
      rw [List.findSome?_eq_none_iff]
      intro n _
      rw [Disk.tryLanding, candidate_eq]
      simp only [hstays]
      rw [hnothing, Bool.and_false, if_neg Bool.false_ne_true]
      rfl
    rw [landBeside, hnone, Option.getD_none]

end Slopty.Xfer.Numbered
