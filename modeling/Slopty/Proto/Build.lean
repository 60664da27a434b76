import Slopty.Lib.Rank
import Slopty.Lib.Text
import Mathlib.Data.Prod.Lex
import Mathlib.Order.Compare
import Mathlib.Order.CountableDenseLinearOrder

/-!
Which of two builds is the newer: by version, on one version by the commit each was made from when
both say one, and else by when the wire of each last changed.
-/

namespace Slopty.Proto.Build

open Slopty.Lib

/-- Major, minor and patch, in that order. -/
abbrev Version := ℕ ×ₗ ℕ ×ₗ ℕ

/-- A build's text read back. -/
structure Parts where
  version : Option Version
  /-- When its wire last changed, when it says. -/
  wireChanged : Option Text
  /-- The commit it was made from and that commit's time, when it says. -/
  commit : Option (Text × Text)

inductive Newer where
  | here
  | there
  deriving DecidableEq, Repr

def parseVersion (version : Text) : Option Version :=
  match (version.splitOn '.').map Text.parseU64 with
  | [some major, some minor, some patch] => some (toLex (major, toLex (minor, patch)))
  | _ => none

def Parts.of (build : Text) : Parts :=
  let (version, metadata) := (Text.splitOnce "+".toList build).getD (build, [])
  let (wire, commit) := (Text.splitOnce ".commit.".toList metadata).getD (metadata, [])
  let wireChanged := (Text.stripPrefix "wire.".toList wire).bind fun wire => (wire.splitOn '.')[1]?
  { version := parseVersion version
    wireChanged := wireChanged.filter fun t => decide (t ≠ [])
    commit := (Text.splitOnce ".".toList commit).filter fun (hash, made) =>
      decide (hash ≠ [] ∧ made ≠ []) }

/-- Two stamps compare only when they are as long as each other. -/
def sameLength (a b : Text) : Option Ordering :=
  if a.utf8Len = b.utf8Len then some (cmp a b) else none

def compareMade (here there : Parts) : Option Ordering :=
  match here.commit, there.commit with
  | some (hereHash, hereMade), some (thereHash, thereMade) =>
      if hereHash = thereHash then some .eq else sameLength hereMade thereMade
  | _, _ =>
      match here.wireChanged, there.wireChanged with
      | some hereWire, some thereWire => sameLength hereWire thereWire
      | _, _ => none

def compareParts (here there : Parts) : Option Ordering :=
  match here.version, there.version with
  | some hereVersion, some thereVersion =>
      match cmp hereVersion thereVersion with
      | .eq => compareMade here there
      | order => some order
  | _, _ => none

/-- Which of `here` and `there` is the newer; a build that says nothing is older than any. -/
def newer (here there : Text) : Option Newer :=
  if there = [] then some .here
  else
    match compareParts (Parts.of here) (Parts.of there) with
    | some .gt => some .here
    | some .lt => some .there
    | _ => none

theorem sameLength_swap (a b : Text) : sameLength b a = (sameLength a b).map Ordering.swap := by
  unfold sameLength
  by_cases hlen : a.utf8Len = b.utf8Len
  · rw [if_pos hlen, if_pos hlen.symm, Option.map_some, cmp_swap]
  · rw [if_neg hlen, if_neg fun h => hlen h.symm, Option.map_none]

theorem compareMade_swap (a b : Parts) :
    compareMade b a = (compareMade a b).map Ordering.swap := by
  unfold compareMade
  cases a.commit with
  | none =>
    cases b.commit <;> cases a.wireChanged <;> cases b.wireChanged <;>
      first | rfl | exact sameLength_swap _ _
  | some ac =>
    cases b.commit with
    | none =>
      cases a.wireChanged <;> cases b.wireChanged <;> first | rfl | exact sameLength_swap _ _
    | some bc =>
      dsimp only
      by_cases hhash : ac.1 = bc.1
      · rw [if_pos hhash, if_pos hhash.symm]
        rfl
      · rw [if_neg hhash, if_neg fun h => hhash h.symm]
        exact sameLength_swap _ _

theorem compareParts_swap (a b : Parts) :
    compareParts b a = (compareParts a b).map Ordering.swap := by
  unfold compareParts
  cases a.version with
  | none => cases b.version <;> rfl
  | some av =>
    cases b.version with
    | none => rfl
    | some bv =>
      dsimp only
      rw [← cmp_swap av bv]
      cases cmp av bv with
      | lt => rfl
      | eq => exact compareMade_swap a b
      | gt => rfl

/-- Of two builds that say something each end tells the same one to be the newer. -/
theorem newer_here_iff {a b : Text} (ha : a ≠ []) (hb : b ≠ []) :
    newer a b = some .here ↔ newer b a = some .there := by
  unfold newer
  rw [if_neg ha, if_neg hb, compareParts_swap (Parts.of a) (Parts.of b)]
  cases compareParts (Parts.of a) (Parts.of b) with
  | none => simp
  | some order => cases order <;> simp

/-- Texts by length, then in order. -/
def stamp (t : Text) : ℕ ×ₗ Text := toLex (t.utf8Len, t)

theorem cmp_text_gt {a b : Text} : cmp a b = .gt ↔ b < a := by
  unfold cmp cmpUsing
  split
  · rename_i hlt
    exact ⟨nofun, fun hgt => absurd hgt (lt_asymm hlt)⟩
  · split
    · rename_i hgt
      exact ⟨fun _ => hgt, fun _ => rfl⟩
    · rename_i hle
      exact ⟨nofun, fun hgt => absurd hgt hle⟩

theorem sameLength_gt {a b : Text} (h : sameLength a b = some .gt) :
    a.utf8Len = b.utf8Len ∧ stamp b < stamp a := by
  unfold sameLength at h
  split at h
  · rename_i hlen
    have hlt : b < a := cmp_text_gt.mp (Option.some.inj h)
    refine ⟨hlen, Prod.Lex.toLex_lt_toLex.mpr (Or.inr ⟨hlen.symm, hlt⟩)⟩
  · cases h

theorem sameLength_of_lt {a b : Text} (hlen : a.utf8Len = b.utf8Len) (h : b < a) :
    sameLength a b = some .gt := by
  rw [sameLength, if_pos hlen, cmp_text_gt.mpr h]

theorem compareMade_gt {a b : Parts} (h : compareMade a b = some .gt) :
    (∃ ac bc, a.commit = some ac ∧ b.commit = some bc ∧ stamp bc.2 < stamp ac.2) ∨
      (a.commit = none ∨ b.commit = none) ∧
        ∃ aw bw, a.wireChanged = some aw ∧ b.wireChanged = some bw ∧ stamp bw < stamp aw := by
  unfold compareMade at h
  cases hac : a.commit with
  | some ac =>
    cases hbc : b.commit with
    | some bc =>
      rw [hac, hbc] at h
      dsimp only at h
      split at h
      · exact absurd (Option.some.inj h) nofun
      · exact Or.inl ⟨ac, bc, rfl, rfl, (sameLength_gt h).2⟩
    | none =>
      rw [hac, hbc] at h
      dsimp only at h
      split at h
      · rename_i aw bw haw hbw
        exact Or.inr ⟨Or.inr rfl, aw, bw, haw, hbw, (sameLength_gt h).2⟩
      · exact absurd h nofun
  | none =>
    rw [hac] at h
    dsimp only at h
    split at h
    · rename_i aw bw haw hbw
      exact Or.inr ⟨Or.inl rfl, aw, bw, haw, hbw, (sameLength_gt h).2⟩
    · exact absurd h nofun

theorem newer_here {a b : Text} (hb : b ≠ []) (h : newer a b = some .here) :
    ∃ av bv, (Parts.of a).version = some av ∧ (Parts.of b).version = some bv ∧
      (bv < av ∨ bv = av ∧ compareMade (Parts.of a) (Parts.of b) = some .gt) := by
  unfold newer at h
  rw [if_neg hb] at h
  split at h
  · rename_i hgt
    unfold compareParts at hgt
    split at hgt
    · rename_i av bv hav hbv
      refine ⟨av, bv, hav, hbv, ?_⟩
      split at hgt
      · rename_i heq
        exact Or.inr ⟨((cmp_eq_eq_iff av bv).mp heq).symm, hgt⟩
      · exact Or.inl ((cmp_eq_gt_iff _ _).mp (Option.some.inj hgt))
    · exact absurd hgt nofun
  · exact absurd h nofun
  · exact absurd h nofun

def WireFollows (a b : Parts) : Prop :=
  ∃ aw bw, a.wireChanged = some aw ∧ b.wireChanged = some bw ∧ aw.utf8Len = bw.utf8Len ∧ bw ≤ aw

/-- Beside a build of a version that names no commit, the wire stamps of the others of it do not
go back from a commit to a later one. -/
def WiresFollow (builds : Set Text) : Prop :=
  ∀ a ∈ builds, ∀ b ∈ builds, ∀ c ∈ builds,
    (Parts.of a).version = (Parts.of b).version → (Parts.of c).version = (Parts.of b).version →
      (Parts.of a).commit.isSome → (Parts.of b).commit.isSome → (Parts.of c).commit = none →
        newer a b = some .here → WireFollows (Parts.of a) (Parts.of b)

def NewerIn (builds : Set Text) (a b : Text) : Prop :=
  a ∈ builds ∧ b ∈ builds ∧ newer a b = some .here

/-- Some build of a version names no commit. -/
def Uncommitted (builds : Set Text) (version : Option Version) : Prop :=
  ∃ c ∈ builds, (Parts.of c).version = version ∧ (Parts.of c).commit = none

open Classical in
/-- Builds by version, beside one without a commit by their wire, and then by commit. -/
noncomputable def rank (builds : Set Text) (a : Text) :
    Version ×ₗ (ℕ ×ₗ Text) ×ₗ (ℕ ×ₗ Text) :=
  let parts := Parts.of a
  toLex (parts.version.getD (toLex (0, toLex (0, 0))),
    toLex (if Uncommitted builds parts.version then stamp (parts.wireChanged.getD [])
      else stamp [],
      stamp ((parts.commit.map Prod.snd).getD [])))

theorem rank_lt {builds : Set Text} (hsaid : ∀ b ∈ builds, b ≠ []) (hwires : WiresFollow builds)
    {a b : Text} (h : NewerIn builds a b) : rank builds b < rank builds a := by
  obtain ⟨ha, hb, hnewer⟩ := h
  obtain ⟨av, bv, hav, hbv, hcases⟩ := newer_here (hsaid b hb) hnewer
  unfold rank
  dsimp only
  rw [hav, hbv, Option.getD_some, Option.getD_some]
  rcases hcases with hlt | ⟨rfl, hmade⟩
  · exact Prod.Lex.toLex_lt_toLex.mpr (Or.inl hlt)
  · refine Prod.Lex.toLex_lt_toLex.mpr (Or.inr ⟨rfl, ?_⟩)
    rcases compareMade_gt hmade with ⟨ac, bc, hac, hbc, hlt⟩ | ⟨hnone, aw, bw, haw, hbw, hlt⟩
    · rw [hac, hbc]
      by_cases hmixed : Uncommitted builds (some bv)
      · -- By the wire where it moved on, and by the commit where it did not.
        obtain ⟨c, hc, hcv, hcnone⟩ := hmixed
        obtain ⟨aw, bw, haw, hbw, hlen, hle⟩ := hwires a ha b hb c hc (hav.trans hbv.symm)
          (hcv.trans hbv.symm) (by rw [hac]; rfl) (by rw [hbc]; rfl) hcnone hnewer
        rw [if_pos ⟨c, hc, hcv, hcnone⟩, if_pos ⟨c, hc, hcv, hcnone⟩, haw, hbw]
        rcases hle.lt_or_eq with hbefore | rfl
        · refine Prod.Lex.toLex_lt_toLex.mpr (Or.inl ?_)
          exact Prod.Lex.toLex_lt_toLex.mpr (Or.inr ⟨hlen.symm, hbefore⟩)
        · exact Prod.Lex.toLex_lt_toLex.mpr (Or.inr ⟨rfl, hlt⟩)
      · rw [if_neg hmixed, if_neg hmixed]
        exact Prod.Lex.toLex_lt_toLex.mpr (Or.inr ⟨rfl, hlt⟩)
    · have hmixed : Uncommitted builds (some bv) := by
        rcases hnone with hnone | hnone
        · exact ⟨a, ha, hav, hnone⟩
        · exact ⟨b, hb, hbv, hnone⟩
      rw [if_pos hmixed, if_pos hmixed, haw, hbw]
      exact Prod.Lex.toLex_lt_toLex.mpr (Or.inl hlt)

/-- On one version, a later commit with an earlier wire and a build without a commit between the
two wires go round in a circle. -/
theorem straddled_cycle {a b c : Text} {v : Version} {ac bc : Text × Text} {aw bw cw : Text}
    (hav : (Parts.of a).version = some v) (hbv : (Parts.of b).version = some v)
    (hcv : (Parts.of c).version = some v) (hac : (Parts.of a).commit = some ac)
    (hbc : (Parts.of b).commit = some bc) (hcc : (Parts.of c).commit = none)
    (haw : (Parts.of a).wireChanged = some aw) (hbw : (Parts.of b).wireChanged = some bw)
    (hcw : (Parts.of c).wireChanged = some cw) (ha : a ≠ []) (hb : b ≠ []) (hc : c ≠ [])
    (hhash : ac.1 ≠ bc.1) (hmade : ac.2.utf8Len = bc.2.utf8Len ∧ bc.2 < ac.2)
    (hac' : aw.utf8Len = cw.utf8Len ∧ aw < cw) (hcb' : cw.utf8Len = bw.utf8Len ∧ cw < bw) :
    newer a b = some .here ∧ newer b c = some .here ∧ newer c a = some .here := by
  have hsame : ∀ v : Version, cmp v v = .eq := fun v => (cmp_eq_eq_iff v v).mpr rfl
  refine ⟨?_, ?_, ?_⟩
  · simp only [newer, if_neg hb, compareParts, hav, hbv, hsame, compareMade, hac, hbc,
      if_neg hhash, sameLength_of_lt hmade.1 hmade.2]
  · simp only [newer, if_neg hc, compareParts, hbv, hcv, hsame, compareMade, hbc, hcc, hbw, hcw,
      sameLength_of_lt hcb'.1.symm hcb'.2]
  · simp only [newer, if_neg ha, compareParts, hcv, hav, hsame, compareMade, hac, hcc, haw, hcw,
      sameLength_of_lt hac'.1.symm hac'.2]

def laterCommit : Text :=
  "0.1.0+wire.0badf00d.20261001T0000Z.commit.aaaaaaaaaaaa.20261009T0000Z".toList

def earlierCommit : Text :=
  "0.1.0+wire.feedface.20261003T0000Z.commit.cccccccccccc.20261005T0000Z".toList

def plainBuild : Text := "0.1.0+wire.cafebabe.20261002T0000Z".toList

end Slopty.Proto.Build
