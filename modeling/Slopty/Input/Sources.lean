import Slopty.Input.Caps
import Slopty.Lib.Text
import Mathlib.Data.List.Basic
import Mathlib.Logic.Function.Basic

/-!
The worker's keyboard input source, under which it types what the streams mean: the last to ask
wins, and what the worker had before comes back. Each ask and release runs whole, one after
another; in between the person at the worker may pick a source by hand.
-/

namespace Slopty.Input

open Slopty.Lib

/-- What to do once a claim went: select one source, then turn some off. -/
structure Restore where
  select : Option Text := none
  disable : List Text := []
  /-- The source the claims last selected. -/
  ours : Option Text := none

/-- What is kept on disk while a claim holds. -/
structure Kept where
  original : Option Text := none
  enabled : List Text := []
  selected : Option Text := none
  deriving DecidableEq

namespace Kept

def line (key id : Text) : Text := key ++ ' ' :: id

/-- One line each: the original, the selected, then each enabled. -/
def lines (k : Kept) : List Text :=
  k.original.toList.map (line "original".toList) ++
    k.selected.toList.map (line "selected".toList) ++ k.enabled.map (line "enabled".toList)

def toText (k : Kept) : Text := k.lines.flatMap fun l => l ++ ['\n']

/-- A line it does not know is skipped. -/
def readLine (k : Kept) (l : Text) : Kept :=
  match Text.splitOnce " ".toList l with
  | none => k
  | some (key, id) =>
      if id = [] then k
      else if key = "original".toList then { k with original := some id }
      else if key = "selected".toList then { k with selected := some id }
      else if key = "enabled".toList then { k with enabled := k.enabled ++ [id] }
      else k

def parse (text : Text) : Kept := (linesFrom [] text).foldl readLine {}

def restore (k : Kept) : Restore :=
  { select := k.original, disable := k.enabled, ours := k.selected }

/-- The ids a line can carry. -/
def Plain (id : Text) : Prop := id ≠ [] ∧ '\n' ∉ id ∧ id.getLast? ≠ some '\r'

theorem linesFrom_line {l : Text} (hl : '\n' ∉ l) (rest : Text) :
    ∀ acc : Text, (acc ++ l).getLast? ≠ some '\r' →
      linesFrom acc (l ++ '\n' :: rest) = (acc ++ l) :: linesFrom [] rest := by
  induction l with
  | nil =>
    intro acc hacc
    rw [List.append_nil] at hacc ⊢
    rw [List.nil_append, linesFrom, if_pos rfl, if_neg hacc]
  | cons c l ih =>
    intro acc hacc
    obtain ⟨hc, hl⟩ := not_or.mp (List.mem_cons.not.mp hl)
    rw [List.cons_append, linesFrom, if_neg (Ne.symm hc), ih hl]
    · rw [List.append_assoc, List.singleton_append]
    · rw [List.append_assoc, List.singleton_append]
      exact hacc

theorem linesFrom_flatMap (ls : List Text)
    (hls : ∀ l ∈ ls, '\n' ∉ l ∧ l.getLast? ≠ some '\r') :
    linesFrom [] (ls.flatMap fun l => l ++ ['\n']) = ls := by
  induction ls with
  | nil => rfl
  | cons l rest ih =>
    obtain ⟨hl, hlast⟩ := hls l List.mem_cons_self
    rw [List.flatMap_cons, List.append_assoc, List.singleton_append, linesFrom_line hl _ [] hlast,
      ih fun l hl => hls l (List.mem_cons_of_mem _ hl)]
    rfl

theorem line_plain {key id : Text} (hkey : '\n' ∉ key) (hid : Plain id) :
    '\n' ∉ line key id ∧ (line key id).getLast? ≠ some '\r' := by
  obtain ⟨hne, hbreak, hlast⟩ := hid
  refine ⟨fun hmem => ?_, ?_⟩
  · rcases List.mem_append.mp hmem with hmem | hmem
    · exact hkey hmem
    · exact hbreak ((List.mem_cons.mp hmem).resolve_left (by decide))
  · rcases List.eq_nil_or_concat id with rfl | ⟨start, c, rfl⟩
    · exact absurd rfl hne
    · rw [List.concat_eq_append, List.getLast?_concat] at hlast
      rw [line, List.concat_eq_append, ← List.cons_append, ← List.append_assoc,
        List.getLast?_concat]
      exact hlast

theorem lines_plain (k : Kept) (horiginal : ∀ id ∈ k.original, Plain id)
    (hselected : ∀ id ∈ k.selected, Plain id) (henabled : ∀ id ∈ k.enabled, Plain id) :
    ∀ l ∈ k.lines, '\n' ∉ l ∧ l.getLast? ≠ some '\r' := by
  intro l hl
  rcases List.mem_append.mp hl with hl | hl
  · rcases List.mem_append.mp hl with hl | hl
    · obtain ⟨id, hid, rfl⟩ := List.mem_map.mp hl
      exact line_plain (by decide) (horiginal id (Option.mem_toList.mp hid))
    · obtain ⟨id, hid, rfl⟩ := List.mem_map.mp hl
      exact line_plain (by decide) (hselected id (Option.mem_toList.mp hid))
  · obtain ⟨id, hid, rfl⟩ := List.mem_map.mp hl
    exact line_plain (by decide) (henabled id hid)

theorem readLine_original (k : Kept) {id : Text} (hid : id ≠ []) :
    k.readLine (line "original".toList id) = { k with original := some id } :=
  if_neg hid

theorem readLine_selected (k : Kept) {id : Text} (hid : id ≠ []) :
    k.readLine (line "selected".toList id) = { k with selected := some id } :=
  if_neg hid

theorem readLine_enabled (k : Kept) {id : Text} (hid : id ≠ []) :
    k.readLine (line "enabled".toList id) = { k with enabled := k.enabled ++ [id] } :=
  if_neg hid

theorem foldl_readLine_enabled (ids : List Text) (hids : ∀ id ∈ ids, id ≠ []) (k : Kept) :
    (ids.map (line "enabled".toList)).foldl readLine k =
      { k with enabled := k.enabled ++ ids } := by
  induction ids generalizing k with
  | nil =>
    rw [List.append_nil]
    rfl
  | cons id rest ih =>
    rw [List.map_cons, List.foldl_cons, readLine_enabled k (hids id List.mem_cons_self),
      ih fun id hid => hids id (List.mem_cons_of_mem _ hid)]
    rw [List.append_assoc, List.singleton_append]

/-- What was written is read back. -/
theorem parse_toText (k : Kept) (horiginal : ∀ id ∈ k.original, Plain id)
    (hselected : ∀ id ∈ k.selected, Plain id) (henabled : ∀ id ∈ k.enabled, Plain id) :
    parse k.toText = k := by
  obtain ⟨original, enabled, selected⟩ := k
  have horiginals : (original.toList.map (line "original".toList)).foldl readLine {} =
      { original } := by
    cases original with
    | none => rfl
    | some own => exact readLine_original {} (horiginal own rfl).1
  have hselecteds : (selected.toList.map (line "selected".toList)).foldl readLine { original } =
      { original, selected } := by
    cases selected with
    | none => rfl
    | some ours => exact readLine_selected { original } (hselected ours rfl).1
  rw [parse, toText, linesFrom_flatMap _ (lines_plain _ horiginal hselected henabled), lines,
    List.foldl_append, List.foldl_append, horiginals, hselecteds,
    foldl_readLine_enabled _ fun id hid => (henabled id hid).1]
  rfl

end Kept

/-- Which claimants asked for which source, the newest last. -/
structure Claims where
  asked : List (Nat × Text) := []
  /-- The worker's own source, read when the first claimant asked. -/
  original : Option Text := none
  /-- What the worker turned on for them. -/
  enabled : List Text := []
  selected : Option Text := none

namespace Claims

variable (c : Claims)

def claim (who : Nat) (source : Text) (current : Option Text) : Claims :=
  { c with
    original := if c.asked.isEmpty then current else c.original
    asked := (c.asked.filter fun a => a.1 != who) ++ [(who, source)] }

def select (source : Text) (enabled : Bool) : Claims :=
  if c.asked.isEmpty then c
  else
    { c with
      enabled :=
        if enabled && !c.enabled.contains source then c.enabled ++ [source] else c.enabled
      selected := some source }

def releaseAll : Restore × Claims :=
  ({ select := c.original, disable := c.enabled, ours := c.selected }, {})

def release (who : Nat) : Restore × Claims :=
  let wasLatest := c.asked.getLast?.any fun a => a.1 == who
  let left := { c with asked := c.asked.filter fun a => a.1 != who }
  if left.asked.length = c.asked.length then ({}, left)
  else
    match left.asked.getLast? with
    | none => left.releaseAll
    | some (_, source) =>
        if wasLatest then ({ select := some source, ours := left.selected }, left) else ({}, left)

def kept : Option Kept :=
  if c.asked.isEmpty then none
  else some { original := c.original, enabled := c.enabled, selected := c.selected }

def of (who : Nat) : Option Text := (c.asked.find? fun a => a.1 == who).map Prod.snd

end Claims

/-- How a claim was answered. -/
inductive Claimed where
  | current
  | switched
  | refused
  deriving DecidableEq

/-- The sources of the worker, and the claims on them. -/
structure Sources where
  /-- The one selected, and those turned on. -/
  current : Option Text
  on : Text → Bool
  claims : Claims := {}
  hearing : Bool := false
  heard : Option Text := none
  /-- Whether there is a file to keep the worker's own source in, and what was written there. -/
  keeps : Bool := false
  written : Option Kept := none

namespace Sources

variable (s : Sources)

/-- The system selects a source, turned on first where it is off, or does not take it. -/
def choose (id : Text) (takes : Bool) : Option Bool × Sources :=
  if takes then (some (!s.on id), { s with current := some id, on := Function.update s.on id true })
  else (none, s)

/-- A source was selected here: heard at once when the platform reports no switches. -/
def selected (source : Text) : Sources :=
  if s.hearing then s else { s with heard := some source }

def keep : Sources :=
  if s.keeps && decide (s.written ≠ s.claims.kept) then { s with written := s.claims.kept } else s

def turnOff (source : Text) : Sources :=
  if s.current = some source then s else { s with on := Function.update s.on source false }

/-- The source to go back to is selected only while the worker is under what the claims last
selected. -/
def bring (back : Restore) (takes : Bool) : Sources :=
  match back.select with
  | none => s
  | some source =>
      if back.ours.isSome && decide (s.current = back.ours) then
        match s.choose source takes with
        | (none, s) => s
        | (some enabled, s) => { s with claims := s.claims.select source enabled }.selected source
      else s

/-- The source the worker is under is never turned off. -/
def restore (back : Restore) (takes : Bool) : Sources :=
  back.disable.foldl turnOff (s.bring back takes)

/-- Someone asks for a source; `takes` says whether the system takes it, and `back` whether it
takes the one before where it did not. -/
def claim (who : Nat) (source : Text) (takes back : Bool) : Claimed × Sources :=
  let current := s.current
  let s := { s with claims := s.claims.claim who source current }
  if current = some source then (.current, s.keep)
  else
    match s.choose source takes with
    | (some enabled, s) =>
        (.switched,
          ({ s with claims := s.claims.select source enabled }.selected source).keep)
    | (none, s) =>
        let (restore, claims) := s.claims.release who
        (.refused, ({ s with claims }.restore restore back).keep)

def release (who : Nat) (takes : Bool) : Sources :=
  let (restore, claims) := s.claims.release who
  ({ s with claims }.restore restore takes).keep

def releaseAll (takes : Bool) : Sources :=
  let (restore, claims) := s.claims.releaseAll
  ({ s with claims }.restore restore takes).keep

/-- What a run that ended without letting go left on disk is brought back. -/
def keepAt (file : Option Text) (takes : Bool) : Sources :=
  match file with
  | none => { s with keeps := true, written := none }
  | some text => { s.restore (Kept.parse text).restore takes with keeps := true, written := none }

/-- The person at the worker picks a source by hand. -/
def pick (source : Text) : Sources :=
  { s with current := some source, on := Function.update s.on source true }

/-- Input sources of the worker before anyone asked. -/
def start (own : Text) (on : Text → Bool) (keeps hearing : Bool) : Sources :=
  { current := some own, on := Function.update on own true, keeps, hearing }

end Sources

/-- What the streams do, and the person at the worker. -/
inductive SourceOp where
  | claim (who : Nat) (source : Text) (takes back : Bool)
  | release (who : Nat) (takes : Bool)
  | releaseAll (takes : Bool)
  | pick (source : Text)

def Sources.act (s : Sources) : SourceOp → Sources
  | .claim who source takes back => (s.claim who source takes back).2
  | .release who takes => s.release who takes
  | .releaseAll takes => s.releaseAll takes
  | .pick source => s.pick source

def Sources.acts (s : Sources) (ops : List SourceOp) : Sources := ops.foldl Sources.act s

/-- Nobody picks a source by hand, and one the worker goes back to is taken. -/
def SourceOp.Quiet : SourceOp → Prop
  | .claim _ _ _ back => back = true
  | .release _ takes | .releaseAll takes => takes = true
  | .pick _ => False

namespace Sources

variable {s : Sources}

theorem foldl_turnOff (sources : List Text) (s : Sources) :
    sources.foldl turnOff s =
      { s with on := fun x => s.on x && !(sources.contains x && decide (s.current ≠ some x)) } := by
  induction sources generalizing s with
  | nil =>
    have hon : s.on = fun x => s.on x && !(([] : List Text).contains x &&
        decide (s.current ≠ some x)) := by
      funext x
      rw [List.contains_nil, Bool.false_and, Bool.not_false, Bool.and_true]
    rw [← hon]
    rfl
  | cons source rest ih =>
    rw [List.foldl_cons, ih]
    unfold turnOff
    split
    · rename_i hcurrent
      congr 1
      funext x
      by_cases hx : x = source
      · rw [hx, hcurrent]
        simp
      · rw [List.contains_cons, beq_false_of_ne hx, Bool.false_or]
    · rename_i hcurrent
      congr 1
      funext x
      dsimp only
      by_cases hx : x = source
      · rw [hx, Function.update_self]
        simp [hcurrent]
      · rw [Function.update_of_ne hx, List.contains_cons, beq_false_of_ne hx, Bool.false_or]

theorem keep_eq (s : Sources) : s.keep = { s with written := s.keep.written } := by
  unfold keep
  split <;> rfl

theorem keep_written (s : Sources) (hkeeps : s.keeps = true) : s.keep.written = s.claims.kept := by
  unfold keep
  rw [hkeeps, Bool.true_and]
  by_cases hwritten : s.written = s.claims.kept
  · rw [if_neg (by simpa using hwritten)]
    exact hwritten
  · rw [if_pos (decide_eq_true hwritten)]

/-- What holds of the sources whoever is the latest to have asked: those on are those of before
and those the claims turned on, and the claims know where they left the worker. -/
structure Under (s : Sources) (own : Text) (base : Text → Bool) : Prop where
  base_own : base own = true
  original : s.claims.asked ≠ [] → s.claims.original = some own
  fresh : s.claims.selected = none → s.current = some own
  tracks : ∀ x, s.claims.selected = some x → s.current = some x
  on : ∀ x, s.on x = (base x || s.claims.enabled.contains x)
  off : ∀ x ∈ s.claims.enabled, base x = false

/-- The worker is under the source of the latest claim, or its own. -/
structure Settled (s : Sources) (own : Text) (base : Text → Bool) : Prop
    extends s.Under own base where
  latest : ∀ a, s.claims.asked.getLast? = some a → s.current = some a.2
  plain : s.claims.selected = none → ∀ a ∈ s.claims.asked, a.2 = own
  idle : s.claims.asked = [] → s.claims.enabled = [] ∧ s.claims.selected = none

variable {own : Text} {base : Text → Bool}

/-- The sources after one is selected for a claim. -/
def chosen (s : Sources) (source : Text) : Sources :=
  { s with
    current := some source, on := Function.update s.on source true
    claims := s.claims.select source (!s.on source) }.selected source

theorem selected_kept (s : Sources) (source : Text) :
    (s.selected source).current = s.current ∧ (s.selected source).on = s.on ∧
      (s.selected source).claims = s.claims := by
  unfold selected
  split
  · exact ⟨rfl, rfl, rfl⟩
  · exact ⟨rfl, rfl, rfl⟩

theorem Under.chosen (h : s.Under own base) (hasked : s.claims.asked ≠ []) (source : Text) :
    (s.chosen source).Under own base ∧ (s.chosen source).current = some source ∧
      (s.chosen source).claims.asked = s.claims.asked ∧
        (s.chosen source).claims.selected = some source := by
  obtain ⟨hcurrent, hon, hclaims⟩ := selected_kept { s with
    current := some source, on := Function.update s.on source true
    claims := s.claims.select source (!s.on source) } source
  have hselect : s.claims.select source (!s.on source) =
      { s.claims with
        enabled := if !s.on source && !s.claims.enabled.contains source then
          s.claims.enabled ++ [source] else s.claims.enabled
        selected := some source } := by
    unfold Claims.select
    rw [if_neg (fun hempty => hasked (List.isEmpty_iff.mp hempty))]
  rw [hselect] at hcurrent hon hclaims
  unfold Sources.chosen
  rw [hselect]
  refine ⟨⟨h.base_own, fun _ => ?_, fun hno => ?_, fun x hx => ?_, fun x => ?_, fun x hx => ?_⟩,
    hcurrent, ?_, ?_⟩
  · rw [hclaims]
    exact h.original hasked
  · rw [hclaims] at hno
    exact absurd hno (Option.some_ne_none _)
  · rw [hclaims] at hx
    exact hcurrent.trans hx
  · rw [hon, hclaims]
    dsimp only
    by_cases hx : x = source
    · rw [hx, Function.update_self]
      cases hwas : s.on source with
      | true =>
        rw [Bool.not_true, Bool.false_and, if_neg Bool.false_ne_true]
        exact hwas.symm.trans (h.on source)
      | false =>
        have hout := (h.on source).symm.trans hwas
        rw [(Bool.or_eq_false_iff.mp hout).2, Bool.not_false, Bool.true_and, if_pos rfl]
        simp
    · rw [Function.update_of_ne hx, h.on x]
      split
      · simp [hx]
      · rfl
  · rw [hclaims] at hx
    dsimp only at hx
    split at hx
    · rename_i hnew
      rcases List.mem_append.mp hx with hx | hx
      · exact h.off x hx
      · rw [List.mem_singleton.mp hx]
        rw [Bool.and_eq_true, Bool.not_eq_true', Bool.not_eq_true', h.on source,
          Bool.or_eq_false_iff] at hnew
        exact hnew.1.1
    · exact h.off x hx
  · rw [hclaims]
  · rw [hclaims]

theorem bring_of_select {back : Restore} {source : Text} (hselect : back.select = some source)
    (hours : back.ours.isSome = true) (hcurrent : s.current = back.ours) :
    s.bring back true = s.chosen source := by
  unfold bring Sources.chosen choose
  rw [hselect, hours, hcurrent, Bool.true_and]
  dsimp only
  rw [if_pos (decide_eq_true rfl), if_pos rfl]

theorem bring_of_none {back : Restore} {takes : Bool} (hours : back.ours = none) :
    s.bring back takes = s := by
  unfold bring
  rw [hours]
  split
  · rfl
  · rw [Option.isSome_none, Bool.false_and, if_neg Bool.false_ne_true]

theorem filter_getLast? {asked : List (Nat × Text)} {who : Nat} {a : Nat × Text}
    (hlast : asked.getLast? = some a) (ha : a.1 ≠ who) :
    (asked.filter fun a => a.1 != who).getLast? = some a := by
  obtain ⟨before, rfl⟩ := List.getLast?_eq_some_iff.mp hlast
  have hkept : [a].filter (fun a => a.1 != who) = [a] := by
    rw [List.filter_singleton, bne_iff_ne.mpr ha]
    rfl
  rw [List.filter_append, hkept, List.getLast?_concat]

/-- The last claim goes: the worker is as it was. -/
theorem Under.freed (h : s.Under own base) (hasked : s.claims.asked ≠ []) :
    ({ s with claims := {} }.restore s.claims.releaseAll.1 true).Settled own base := by
  have hbring : ({ s with claims := {} } : Sources).bring s.claims.releaseAll.1 true =
      { s with claims := {} } ∧ s.current = some own ∨
      ({ s with claims := {} } : Sources).bring s.claims.releaseAll.1 true =
        ({ s with claims := {} } : Sources).chosen own := by
    cases hours : s.claims.selected with
    | none => exact .inl ⟨bring_of_none hours, h.fresh hours⟩
    | some ours =>
      refine .inr (bring_of_select (h.original hasked) (congrArg Option.isSome hours) ?_)
      exact (h.tracks ours hours).trans hours.symm
  have hon : Function.update s.on own true = s.on := by
    rw [Function.update_eq_self_iff, h.on own, h.base_own, Bool.true_or]
  have hbrought : ∃ heard, ({ s with claims := {} } : Sources).bring s.claims.releaseAll.1 true =
      { s with current := some own, claims := {}, heard } := by
    rcases hbring with ⟨hbring, hcurrent⟩ | hbring
    · refine ⟨s.heard, ?_⟩
      rw [hbring, ← hcurrent]
    · rw [hbring]
      unfold Sources.chosen selected
      dsimp only
      rw [hon]
      split
      · exact ⟨_, rfl⟩
      · exact ⟨_, rfl⟩
  obtain ⟨heard, hbrought⟩ := hbrought
  unfold restore
  rw [hbrought, foldl_turnOff]
  refine ⟨⟨h.base_own, fun hno => absurd rfl hno, fun _ => rfl,
    fun x hx => absurd hx.symm (Option.some_ne_none x), fun x => ?_,
    fun x hx => absurd hx List.not_mem_nil⟩, fun a ha => absurd ha.symm (Option.some_ne_none a),
    fun _ a ha => absurd ha List.not_mem_nil, fun _ => ⟨rfl, rfl⟩⟩
  change (s.on x && !(s.claims.enabled.contains x && decide (some own ≠ some x))) =
    (base x || ([] : List Text).contains x)
  rw [List.contains_nil, Bool.or_false, h.on x]
  cases hin : s.claims.enabled.contains x with
  | false => rw [Bool.or_false, Bool.false_and, Bool.not_false, Bool.and_true]
  | true =>
    have hbase := h.off x (List.contains_iff_mem.mp hin)
    have hne : (some own : Option Text) ≠ some x := fun hsame => by
      rw [← Option.some.inj hsame, h.base_own] at hbase
      exact absurd hbase.symm Bool.false_ne_true
    rw [hbase, decide_eq_true hne]
    rfl

/-- The source of the latest claim left comes back. -/
theorem Under.back (h : s.Under own base) {w : Nat} {source : Text}
    (hlast : s.claims.asked.getLast? = some (w, source))
    (hplain : s.claims.selected = none → ∀ a ∈ s.claims.asked, a.2 = own) :
    (s.restore { select := some source, ours := s.claims.selected } true).Settled own base := by
  have hasked : s.claims.asked ≠ [] := fun hnone => by
    rw [hnone] at hlast
    exact absurd hlast.symm (Option.some_ne_none _)
  change (s.bring { select := some source, ours := s.claims.selected } true).Settled own base
  cases hselected : s.claims.selected with
  | none =>
    rw [bring_of_none rfl]
    refine ⟨h, fun a ha => ?_, hplain, fun hnone => absurd hnone hasked⟩
    rw [hplain hselected a (List.mem_of_getLast? ha)]
    exact h.fresh hselected
  | some ours =>
    rw [bring_of_select rfl rfl (h.tracks ours hselected)]
    obtain ⟨hchosen, hcurrent, hsame, hours⟩ := h.chosen hasked source
    refine ⟨hchosen, fun a ha => ?_, fun hno => ?_, fun hnone => ?_⟩
    · rw [hsame] at ha
      rw [hcurrent, ← Option.some.inj (hlast.symm.trans ha)]
    · exact absurd (hours.symm.trans hno) (Option.some_ne_none _)
    · exact absurd (hsame.symm.trans hnone) hasked

/-- A claim goes: the source of the latest one left comes back, and after the last the worker's
own. -/
theorem Under.release (h : s.Under own base) (who : Nat)
    (hplain : s.claims.selected = none → ∀ a ∈ s.claims.asked, a.1 ≠ who → a.2 = own)
    (hlatest : ∀ a, s.claims.asked.getLast? = some a → a.1 ≠ who → s.current = some a.2)
    (hidle : s.claims.asked = [] → s.claims.enabled = [] ∧ s.claims.selected = none) :
    ({ s with claims := (s.claims.release who).2 }.restore
      (s.claims.release who).1 true).Settled own base := by
  let left : Claims := { s.claims with asked := s.claims.asked.filter fun a => a.1 != who }
  have hmem : ∀ a ∈ left.asked, a ∈ s.claims.asked ∧ a.1 ≠ who := fun a ha =>
    (List.mem_filter.mp ha).imp_right bne_iff_ne.mp
  have hasked : left.asked ≠ [] → s.claims.asked ≠ [] := fun hleft hnone =>
    hleft (by rw [show left.asked = s.claims.asked.filter _ from rfl, hnone, List.filter_nil])
  have hunder : ({ s with claims := left } : Sources).Under own base :=
    ⟨h.base_own, fun hleft => h.original (hasked hleft), h.fresh, h.tracks, h.on, h.off⟩
  have hplain' : left.selected = none → ∀ a ∈ left.asked, a.2 = own := fun hno a ha =>
    hplain hno a (hmem a ha).1 (hmem a ha).2
  unfold Claims.release
  dsimp only
  split
  · rename_i hsame
    have hall : left.asked = s.claims.asked := by
      refine List.filter_eq_self.mpr ?_
      exact List.length_filter_eq_length_iff.mp hsame
    refine ⟨hunder, fun a ha => ?_, hplain', fun hnone => hidle (hall.symm.trans hnone)⟩
    have hlast := ha
    change left.asked.getLast? = some a at hlast
    exact hlatest a (hall ▸ hlast) (hmem a (List.mem_of_getLast? hlast)).2
  · rename_i hdiffers
    have hheld : s.claims.asked ≠ [] := fun hnone => hdiffers (by rw [hnone, List.filter_nil])
    split
    · exact h.freed hheld
    · rename_i w source hlast
      change left.asked.getLast? = some (w, source) at hlast
      have hleft : left.asked ≠ [] := fun hnone => by
        rw [hnone] at hlast
        exact absurd hlast.symm (Option.some_ne_none _)
      split
      · exact hunder.back hlast hplain'
      · rename_i hnot
        refine ⟨hunder, fun a ha => ?_, hplain', fun hnone => absurd hnone hleft⟩
        obtain ⟨b, hb⟩ := Option.isSome_iff_exists.mp (List.getLast?_isSome.mpr hheld)
        have hbwho : b.1 ≠ who := fun hsame => hnot (by
          rw [hb, Option.any_some]
          exact beq_iff_eq.mpr hsame)
        have hsame := (filter_getLast? hb hbwho).symm.trans ha
        rw [← Option.some.inj hsame]
        exact hlatest b hb hbwho

theorem Settled.keep (h : s.Settled own base) : s.keep.Settled own base := by
  rw [keep_eq]
  exact ⟨⟨h.base_own, h.original, h.fresh, h.tracks, h.on, h.off⟩, h.latest, h.plain, h.idle⟩

theorem Settled.releaseAll (h : s.Settled own base) : (s.releaseAll true).Settled own base := by
  refine Settled.keep ?_
  by_cases hasked : s.claims.asked = []
  · obtain ⟨henabled, hselected⟩ := h.idle hasked
    change (({ s with claims := {} } : Sources).restore s.claims.releaseAll.1 true).Settled own base
    unfold restore
    rw [bring_of_none (show s.claims.releaseAll.1.ours = none from hselected),
      show s.claims.releaseAll.1.disable = [] from henabled]
    refine ⟨⟨h.base_own, fun hno => absurd rfl hno, fun _ => h.fresh hselected,
      fun _ hx => absurd hx.symm (Option.some_ne_none _), fun x => ?_,
      fun _ hx => absurd hx List.not_mem_nil⟩,
      fun _ ha => absurd ha.symm (Option.some_ne_none _),
      fun _ _ ha => absurd ha List.not_mem_nil, fun _ => ⟨rfl, rfl⟩⟩
    have hon := h.on x
    rw [henabled] at hon
    exact hon
  · exact h.toUnder.freed hasked

/-- An ask, taken or refused. -/
theorem Settled.claim (h : s.Settled own base) (who : Nat) (source : Text) (takes : Bool) :
    (s.claim who source takes true).2.Settled own base := by
  let asking : Sources := { s with claims := s.claims.claim who source s.current }
  have hlast : asking.claims.asked.getLast? = some (who, source) := List.getLast?_concat
  have hasked : asking.claims.asked ≠ [] := List.append_ne_nil_of_right_ne_nil _
    (List.cons_ne_nil _ _)
  have hunder : asking.Under own base := by
    refine ⟨h.base_own, fun _ => ?_, h.fresh, h.tracks, h.on, h.off⟩
    change (if s.claims.asked.isEmpty then s.current else s.claims.original) = some own
    split
    · rename_i hempty
      exact h.fresh (h.idle (List.isEmpty_iff.mp hempty)).2
    · rename_i hempty
      exact h.original fun hnone => hempty (List.isEmpty_iff.mpr hnone)
  have hothers : asking.claims.selected = none → ∀ a ∈ asking.claims.asked, a.1 ≠ who →
      a.2 = own := by
    intro hno a ha hwho
    rcases List.mem_append.mp ha with ha | ha
    · exact h.plain hno a (List.mem_filter.mp ha).1
    · rw [List.mem_singleton.mp ha] at hwho
      exact absurd rfl hwho
  unfold Sources.claim
  dsimp only
  split
  · rename_i hcurrent
    refine Settled.keep ⟨hunder, fun a ha => ?_, fun hno a ha => ?_,
      fun hnone => absurd hnone hasked⟩
    · rw [← Option.some.inj (hlast.symm.trans ha)]
      exact hcurrent
    · by_cases hwho : a.1 = who
      · rcases List.mem_append.mp ha with ha | ha
        · exact absurd hwho (bne_iff_ne.mp (List.mem_filter.mp ha).2)
        · rw [List.mem_singleton.mp ha]
          exact Option.some.inj (hcurrent.symm.trans (h.fresh hno))
      · exact hothers hno a ha hwho
  · cases takes with
    | true =>
      obtain ⟨hchosen, hcurrent, hsame, hours⟩ := hunder.chosen hasked source
      refine Settled.keep (s := asking.chosen source) ⟨hchosen, fun a ha => ?_, fun hno => ?_,
        fun hnone => absurd (hsame.symm.trans hnone) hasked⟩
      · rw [hsame] at ha
        rw [hcurrent, ← Option.some.inj (hlast.symm.trans ha)]
      · exact absurd (hours.symm.trans hno) (Option.some_ne_none _)
    | false =>
      refine Settled.keep (hunder.release who hothers (fun a ha hwho => ?_)
        fun hnone => absurd hnone hasked)
      rw [← Option.some.inj (hlast.symm.trans ha)] at hwho
      exact absurd rfl hwho

theorem Settled.act (h : s.Settled own base) {op : SourceOp} (hop : op.Quiet) :
    (s.act op).Settled own base := by
  cases op with
  | claim who source takes back =>
    obtain rfl : back = true := hop
    exact h.claim who source takes
  | release who takes =>
    obtain rfl : takes = true := hop
    exact (h.toUnder.release who (fun hno a ha _ => h.plain hno a ha)
      (fun a ha _ => h.latest a ha) h.idle).keep
  | releaseAll takes =>
    obtain rfl : takes = true := hop
    exact h.releaseAll
  | pick source => exact absurd hop id

theorem settled_start (own : Text) (on : Text → Bool) (keeps hearing : Bool) :
    (start own on keeps hearing).Settled own (Function.update on own true) :=
  ⟨⟨Function.update_self .., fun hno => absurd rfl hno, fun _ => rfl,
    fun _ hx => absurd hx.symm (Option.some_ne_none _), fun _ => (Bool.or_false _).symm,
    fun _ hx => absurd hx List.not_mem_nil⟩, fun _ ha => absurd ha.symm (Option.some_ne_none _),
    fun _ _ ha => absurd ha List.not_mem_nil, fun _ => ⟨rfl, rfl⟩⟩

theorem Settled.acts (h : s.Settled own base) (ops : List SourceOp)
    (hops : ∀ op ∈ ops, op.Quiet) : (s.acts ops).Settled own base := by
  unfold Sources.acts
  induction ops generalizing s with
  | nil => exact h
  | cons op rest ih =>
    exact ih (h.act (hops op List.mem_cons_self)) fun op hop =>
      hops op (List.mem_cons_of_mem _ hop)

theorem keep_kept (s : Sources) : s.keep.current = s.current ∧ s.keep.on = s.on ∧
    s.keep.claims = s.claims ∧ s.keep.keeps = s.keeps := by
  rw [keep_eq]
  exact ⟨rfl, rfl, rfl, rfl⟩

theorem bring_cases (s : Sources) (back : Restore) (takes : Bool) :
    s.bring back takes = s ∨ s.current = back.ours ∧
      ∃ source, s.bring back takes = s.chosen source := by
  unfold bring
  split
  · exact .inl rfl
  · rename_i source _
    split
    · rename_i hours
      rw [Bool.and_eq_true, decide_eq_true_eq] at hours
      cases takes with
      | true => exact .inr ⟨hours.2, source, rfl⟩
      | false => exact .inl rfl
    · exact .inl rfl

theorem chosen_asked (s : Sources) (source : Text) :
    (s.chosen source).claims.asked = s.claims.asked ∧ (s.chosen source).keeps = s.keeps := by
  unfold Sources.chosen selected Claims.select
  dsimp only
  split
  · split
    · exact ⟨rfl, rfl⟩
    · exact ⟨rfl, rfl⟩
  · split
    · exact ⟨rfl, rfl⟩
    · exact ⟨rfl, rfl⟩

theorem restore_asked (s : Sources) (back : Restore) (takes : Bool) :
    (s.restore back takes).claims.asked = s.claims.asked ∧
      (s.restore back takes).keeps = s.keeps := by
  unfold restore
  rw [foldl_turnOff]
  rcases bring_cases s back takes with hbring | ⟨-, source, hbring⟩
  · rw [hbring]
    exact ⟨rfl, rfl⟩
  · rw [hbring]
    exact s.chosen_asked source

theorem release_spec (c : Claims) (who : Nat) :
    (c.release who).2.asked = (c.asked.filter fun a => a.1 != who) ∧
      (∀ x ∈ (c.release who).2.enabled, x ∈ c.enabled) ∧
        (∀ x ∈ (c.release who).1.disable, x ∈ c.enabled) ∧
          ((c.release who).1.ours = none ∨ (c.release who).1.ours = c.selected) := by
  unfold Claims.release
  dsimp only
  split
  · exact ⟨rfl, fun _ hx => hx, fun _ hx => absurd hx List.not_mem_nil, .inl rfl⟩
  · split
    · rename_i hnone
      exact ⟨(List.getLast?_eq_none_iff.mp hnone).symm, fun _ hx => absurd hx List.not_mem_nil,
        fun _ hx => hx, .inr rfl⟩
    · split
      · exact ⟨rfl, fun _ hx => hx, fun _ hx => absurd hx List.not_mem_nil, .inr rfl⟩
      · exact ⟨rfl, fun _ hx => hx, fun _ hx => absurd hx List.not_mem_nil, .inl rfl⟩

end Sources

/-- The claims that stand after an operation, the newest last: one refused does not. -/
def SourceOp.stands (s : Sources) (standing : List (Nat × Text)) : SourceOp → List (Nat × Text)
  | .claim who source takes back =>
      (standing.filter fun a => a.1 != who) ++
        if (s.claim who source takes back).1 = .refused then [] else [(who, source)]
  | .release who _ => standing.filter fun a => a.1 != who
  | .releaseAll _ => []
  | .pick _ => standing

/-- The claims that stand after a run. -/
def standing (s : Sources) (stood : List (Nat × Text)) : List SourceOp → List (Nat × Text)
  | [] => stood
  | op :: rest => standing (s.act op) (op.stands s stood) rest

namespace Sources

variable {s : Sources}

theorem asked_act (s : Sources) (op : SourceOp) :
    (s.act op).claims.asked = op.stands s s.claims.asked := by
  cases op with
  | claim who source takes back =>
    unfold act SourceOp.stands Sources.claim
    dsimp only
    split
    · rw [(keep_kept _).2.2.1]
      rfl
    · cases takes with
      | true =>
        exact (congrArg Claims.asked (keep_kept _).2.2.1).trans
          (chosen_asked { s with claims := s.claims.claim who source s.current } source).1
      | false =>
        refine (congrArg Claims.asked (keep_kept _).2.2.1).trans ((restore_asked _ _ _).1.trans ?_)
        refine (release_spec _ who).1.trans ?_
        change ((s.claims.asked.filter fun a => a.1 != who) ++ [(who, source)]).filter _ =
          (s.claims.asked.filter fun a => a.1 != who) ++ []
        rw [List.filter_append, List.filter_filter, List.filter_singleton, bne_self_eq_false]
        simp
  | release who takes =>
    exact (congrArg Claims.asked (keep_kept _).2.2.1).trans
      ((restore_asked _ _ _).1.trans (release_spec _ who).1)
  | releaseAll takes =>
    exact (congrArg Claims.asked (keep_kept _).2.2.1).trans (restore_asked _ _ _).1
  | pick source => rfl

theorem asked_acts (s : Sources) (ops : List SourceOp) :
    (s.acts ops).claims.asked = standing s s.claims.asked ops := by
  unfold acts
  induction ops generalizing s with
  | nil => rfl
  | cons op rest ih =>
    rw [List.foldl_cons, ih, asked_act]
    rfl

/-- What is on and not by the claims' doing stays on. -/
def Spares (s : Sources) (x : Text) : Prop := s.on x = true ∧ x ∉ s.claims.enabled

theorem Spares.chosen {x : Text} (h : s.Spares x) (source : Text) : (s.chosen source).Spares x := by
  obtain ⟨-, hon, hclaims⟩ := selected_kept { s with
    current := some source, on := Function.update s.on source true
    claims := s.claims.select source (!s.on source) } source
  unfold Spares Sources.chosen
  rw [hon, hclaims]
  refine ⟨?_, ?_⟩
  · by_cases hx : x = source
    · rw [hx]
      exact Function.update_self ..
    · exact (Function.update_of_ne hx ..).trans h.1
  · unfold Claims.select
    split
    · exact h.2
    · dsimp only
      split
      · rename_i hnew
        intro hmem
        rcases List.mem_append.mp hmem with hmem | hmem
        · exact h.2 hmem
        · rw [Bool.and_eq_true, ← List.mem_singleton.mp hmem, h.1] at hnew
          exact absurd hnew.1 Bool.false_ne_true
      · exact h.2

theorem Spares.restore {x : Text} (h : s.Spares x) {back : Restore} (hback : x ∉ back.disable)
    (takes : Bool) : (s.restore back takes).Spares x := by
  have hbring : (s.bring back takes).Spares x := by
    rcases bring_cases s back takes with hbring | ⟨-, source, hbring⟩
    · rw [hbring]
      exact h
    · rw [hbring]
      exact h.chosen source
  unfold Sources.restore
  rw [foldl_turnOff]
  refine ⟨?_, hbring.2⟩
  change ((s.bring back takes).on x && !(back.disable.contains x && _)) = true
  rw [hbring.1, Bool.true_and]
  cases hin : back.disable.contains x with
  | false => rfl
  | true => exact absurd (List.contains_iff_mem.mp hin) hback

theorem Spares.keep {x : Text} (h : s.Spares x) : s.keep.Spares x := by
  obtain ⟨-, hon, hclaims, -⟩ := keep_kept s
  unfold Spares
  rw [hon, hclaims]
  exact h

theorem Spares.release {x : Text} (h : s.Spares x) (who : Nat) (takes : Bool) :
    (({ s with claims := (s.claims.release who).2 } : Sources).restore
      (s.claims.release who).1 takes).Spares x := by
  obtain ⟨-, henabled, hdisable, -⟩ := release_spec s.claims who
  have hleft : ({ s with claims := (s.claims.release who).2 } : Sources).Spares x :=
    ⟨h.1, fun hmem => h.2 (henabled x hmem)⟩
  exact hleft.restore (fun hmem => h.2 (hdisable x hmem)) takes

theorem Spares.act {x : Text} (h : s.Spares x) (op : SourceOp) : (s.act op).Spares x := by
  cases op with
  | claim who source takes back =>
    have hasking : ({ s with claims := s.claims.claim who source s.current } :
      Sources).Spares x := h
    unfold Sources.act Sources.claim
    dsimp only
    split
    · exact hasking.keep
    · cases takes with
      | true => exact (hasking.chosen source).keep
      | false => exact (hasking.release who back).keep
  | release who takes => exact (h.release who takes).keep
  | releaseAll takes =>
    have hfree : ({ s with claims := {} } : Sources).Spares x := ⟨h.1, List.not_mem_nil⟩
    exact (hfree.restore h.2 takes).keep
  | pick source =>
    refine ⟨?_, h.2⟩
    by_cases hx : x = source
    · rw [hx]
      exact Function.update_self ..
    · exact (Function.update_of_ne hx ..).trans h.1

theorem Spares.acts {x : Text} (h : s.Spares x) (ops : List SourceOp) : (s.acts ops).Spares x := by
  unfold Sources.acts
  induction ops generalizing s with
  | nil => exact h
  | cons op rest ih => exact ih (h.act op)

theorem restore_current (s : Sources) (back : Restore) (takes : Bool) :
    (s.restore back takes).current = (s.bring back takes).current := by
  unfold restore
  rw [foldl_turnOff]

/-- A source the claims did not select last is left. -/
theorem restore_stays {back : Restore} {ours : Option Text} (hours : s.current ≠ ours)
    (hback : back.ours = none ∨ back.ours = ours) (takes : Bool) :
    (s.restore back takes).current = s.current := by
  rw [restore_current]
  rcases hback with hnone | hback
  · rw [bring_of_none hnone]
  · rcases bring_cases s back takes with hbring | ⟨hcurrent, -⟩
    · rw [hbring]
    · exact absurd (hcurrent.trans hback) hours

/-- What an ended run left on disk brings the worker's own source back. -/
theorem keepAt_current {left : Kept} {own ours : Text} (hown : left.original = some own)
    (hours : left.selected = some ours) (hcurrent : s.current = some ours) (hplain : Kept.Plain own)
    (hplain' : Kept.Plain ours) (henabled : ∀ id ∈ left.enabled, Kept.Plain id) :
    (s.keepAt (some left.toText) true).current = some own := by
  refine (s.restore_current (Kept.parse left.toText).restore true).trans ?_
  rw [left.parse_toText (fun id hid => Option.some.inj (hown.symm.trans hid) ▸ hplain)
    (fun id hid => Option.some.inj (hours.symm.trans hid) ▸ hplain') henabled]
  rw [show s.bring left.restore true = s.chosen own from
    bring_of_select hown (congrArg Option.isSome hours) (hcurrent.trans hours.symm)]
  exact (selected_kept _ own).1

/-- What is kept on disk is what is to be brought back. -/
def Written (s : Sources) : Prop := s.keeps = true → s.written = s.claims.kept

theorem written_keep (s : Sources) : s.keep.Written := by
  intro hkeeps
  obtain ⟨-, -, hclaims, hsame⟩ := keep_kept s
  rw [hclaims]
  exact keep_written s (hsame.symm.trans hkeeps)

theorem Written.act (h : s.Written) (op : SourceOp) : (s.act op).Written := by
  cases op with
  | claim who source takes back =>
    unfold Sources.act Sources.claim
    dsimp only
    split
    · exact written_keep _
    · cases takes with
      | true => exact written_keep _
      | false => exact written_keep _
  | release who takes => exact written_keep _
  | releaseAll takes => exact written_keep _
  | pick source => exact h

theorem Written.acts (h : s.Written) (ops : List SourceOp) : (s.acts ops).Written := by
  unfold Sources.acts
  induction ops generalizing s with
  | nil => exact h
  | cons op rest ih => exact ih (h.act op)

end Sources

section Runs

variable (own : Text) (on : Text → Bool) (keeps hearing : Bool)

end Runs

end Slopty.Input
