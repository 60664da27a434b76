import Slopty.Lib.Text
import Mathlib.Data.List.Basic

/-!
The claim all streams share on the worker's Caps Lock: the state the first of them found it in,
given back as the last lets go, and kept on disk meanwhile.
-/

namespace Slopty.Input

open Slopty.Lib

/-- What is kept on disk while a stream holds the lock. -/
structure CapsKept where
  original : Bool
  /-- The state the claim last set. -/
  set : Bool
  deriving DecidableEq

def onOff (on : Bool) : Text := if on then "on".toList else "off".toList

/-- The lines of a text, a carriage return before a line's end left out. -/
def linesFrom (line : Text) : Text → List Text
  | [] => if line.isEmpty then [] else [line]
  | c :: rest =>
      if c = '\n' then
        (if line.getLast? = some '\r' then line.dropLast else line) :: linesFrom [] rest
      else linesFrom (line ++ [c]) rest

namespace CapsKept

def toText (k : CapsKept) : Text :=
  "original ".toList ++ onOff k.original ++ "\nset ".toList ++ onOff k.set ++ "\n".toList

/-- A line read: what is found so far, of either key. -/
def readLine (found : Option Bool × Option Bool) (line : Text) :
    Option (Option Bool × Option Bool) :=
  match Text.splitOnce " ".toList line with
  | none => none
  | some (key, value) =>
      let on := if value = "on".toList then some true
        else if value = "off".toList then some false else none
      match on with
      | none => none
      | some on =>
          if key = "original".toList then some (some on, found.2)
          else if key = "set".toList then some (found.1, some on)
          else none

def parse (text : Text) : Option CapsKept :=
  match (linesFrom [] text).foldlM readLine (none, none) with
  | some (some original, some set) => some { original, set }
  | _ => none

/-- The state to put back: the worker's own, unless the lock is no longer as the claim set it. -/
def restore (k : CapsKept) (current : Option Bool) : Option Bool :=
  if current = some k.set ∧ k.set ≠ k.original then some k.original else none

theorem parse_toText (k : CapsKept) : parse k.toText = some k := by
  obtain ⟨original, set⟩ := k
  cases original <;> cases set <;> rfl

end CapsKept

structure CapsClaims where
  holders : List Nat := []
  /-- The worker's own state, as the first holder found it. -/
  original : Option Bool := none
  set : Option Bool := none
  next : Nat := 0
  /-- Where the state is kept on disk. -/
  keptAt : Option Text := none

namespace CapsClaims

/-- What is to be written where; nothing for a file to be removed. -/
abbrev Write := Text × Option CapsKept

variable (c : CapsClaims)

def id : Nat × CapsClaims := (c.next + 1, { c with next := c.next + 1 })

def claim (who : Nat) (current : Option Bool) : CapsClaims :=
  if c.holders.contains who then c
  else if c.holders.isEmpty then { c with original := current, set := none, holders := [who] }
  else { c with holders := c.holders ++ [who] }

def snapshot : Option CapsKept :=
  match c.original, c.set with
  | some original, some set => some { original, set }
  | _, _ => none

def kept : Option Write :=
  c.keptAt.map fun path => (path, if c.holders.isEmpty then none else c.snapshot)

def sets (on : Bool) : Option Write × CapsClaims :=
  ({ c with set := some on }.kept, { c with set := some on })

def release (who : Nat) : (Option CapsKept × Option Write) × CapsClaims :=
  let left := { c with holders := c.holders.filter (· != who) }
  if left.holders.length = c.holders.length ∨ left.holders ≠ [] then ((none, none), left)
  else
    let free := { left with original := none, set := none }
    ((left.snapshot, free.kept), free)

variable {c}

theorem snapshot_eq_some {k : CapsKept} :
    c.snapshot = some k ↔ c.original = some k.original ∧ c.set = some k.set := by
  unfold snapshot
  cases c.original with
  | none => exact ⟨fun hno => absurd hno.symm (Option.some_ne_none _),
      fun hno => absurd hno.1.symm (Option.some_ne_none _)⟩
  | some original =>
    cases c.set with
    | none => exact ⟨fun hno => absurd hno.symm (Option.some_ne_none _),
        fun hno => absurd hno.2.symm (Option.some_ne_none _)⟩
    | some set =>
      refine ⟨fun hk => ?_, fun ⟨horiginal, hset⟩ => ?_⟩
      · rw [← Option.some.inj hk]
        exact ⟨rfl, rfl⟩
      · rw [Option.some.inj horiginal, Option.some.inj hset]

theorem release_holders (c : CapsClaims) (who : Nat) :
    (c.release who).2.holders = c.holders.filter (· != who) := by
  unfold release
  dsimp only
  split
  · rfl
  · rfl

end CapsClaims

/-- What the streams do with their claim. -/
inductive CapsCall where
  | claim (who : Nat) (current : Option Bool)
  | set (on : Bool)
  | release (who : Nat)

def CapsClaims.call (c : CapsClaims) : CapsCall → CapsClaims
  | .claim who current => c.claim who current
  | .set on => (c.sets on).2
  | .release who => (c.release who).2

def capsAfter (calls : List CapsCall) : CapsClaims := calls.foldl CapsClaims.call {}

/-- Whether a stream holds the lock after some calls: its last one is a claim. -/
def holds (who : Nat) (calls : List CapsCall) : Bool :=
  calls.foldl (fun held call => match call with
    | .claim w _ => held || w == who
    | .set _ => held
    | .release w => held && w != who) false

/-- Nobody holds the lock. -/
def Idle (calls : List CapsCall) : Prop := ∀ who, holds who calls = false

/-- The state the lock was last set to. -/
def lastSet (calls : List CapsCall) : Option Bool :=
  calls.foldl (fun set call => match call with
    | .set on => some on
    | _ => set) none

/-- The lock has been held, by one stream or another, since a claim that found it so. -/
def HeldSince (calls period : List CapsCall) (current : Option Bool) : Prop :=
  ∃ before first, calls = before ++ .claim first current :: period ∧ Idle before ∧
    ∀ part, part <+: period → ¬Idle (before ++ .claim first current :: part)

theorem capsAfter_concat (calls : List CapsCall) (call : CapsCall) :
    capsAfter (calls ++ [call]) = (capsAfter calls).call call := by
  rw [capsAfter, List.foldl_append]
  rfl

theorem holds_claim (calls : List CapsCall) (who w : Nat) (current : Option Bool) :
    holds who (calls ++ [.claim w current]) = (holds who calls || w == who) := by
  rw [holds, List.foldl_append]
  rfl

theorem holds_set (calls : List CapsCall) (who : Nat) (on : Bool) :
    holds who (calls ++ [.set on]) = holds who calls := by
  rw [holds, List.foldl_append]
  rfl

theorem holds_release (calls : List CapsCall) (who w : Nat) :
    holds who (calls ++ [.release w]) = (holds who calls && w != who) := by
  rw [holds, List.foldl_append]
  rfl

theorem lastSet_concat (calls : List CapsCall) (call : CapsCall) (h : ∀ on, call ≠ .set on) :
    lastSet (calls ++ [call]) = lastSet calls := by
  rw [lastSet, List.foldl_append]
  cases call with
  | set on => exact absurd rfl (h on)
  | claim _ _ => rfl
  | release _ => rfl

theorem lastSet_set (calls : List CapsCall) (on : Bool) :
    lastSet (calls ++ [.set on]) = some on := by
  rw [lastSet, List.foldl_append]
  rfl

theorem HeldSince.concat {calls period : List CapsCall} {current : Option Bool} {call : CapsCall}
    (h : HeldSince calls period current) (hheld : ¬Idle (calls ++ [call])) :
    HeldSince (calls ++ [call]) (period ++ [call]) current := by
  obtain ⟨before, first, rfl, hidle, hparts⟩ := h
  refine ⟨before, first, List.append_assoc _ _ _, hidle, fun part hpart => ?_⟩
  rcases List.prefix_concat_iff.mp hpart with rfl | hpart
  · rw [← List.cons_append, ← List.append_assoc]
    exact hheld
  · exact hparts part hpart

/-- No idle stretch of the calls ends within a period the lock was held. -/
theorem not_idle_within {before before' more period period' : List CapsCall} {first first' : Nat}
    {current current' : Option Bool}
    (heq : before ++ .claim first current :: period = before' ++ .claim first' current' :: period')
    (hmore : before' = before ++ more) (hidle : Idle before')
    (hparts : ∀ part, part <+: period → ¬Idle (before ++ .claim first current :: part)) :
    more = [] := by
  cases more with
  | nil => rfl
  | cons call part =>
    rw [hmore, List.append_assoc, List.append_cancel_left_eq, List.cons_append] at heq
    obtain ⟨rfl, hperiod⟩ := List.cons.inj heq
    exact absurd (hmore ▸ hidle) (hparts part ⟨_, hperiod.symm⟩)

/-- The lock was found once, since it is held. -/
theorem HeldSince.unique {calls period period' : List CapsCall} {current current' : Option Bool}
    (h : HeldSince calls period current) (h' : HeldSince calls period' current') :
    period = period' ∧ current = current' := by
  obtain ⟨before, first, hcalls, hidle, hparts⟩ := h
  obtain ⟨before', first', hcalls', hidle', hparts'⟩ := h'
  have heq := hcalls.symm.trans hcalls'
  have hbefore : before' = before := by
    rcases List.append_eq_append_iff.mp heq with ⟨more, hmore, -⟩ | ⟨more, hmore, -⟩
    · rw [hmore, not_idle_within heq hmore hidle' hparts, List.append_nil]
    · rw [hmore, not_idle_within heq.symm hmore hidle hparts', List.append_nil]
  rw [hbefore, List.append_cancel_left_eq] at heq
  obtain ⟨hclaim, hperiod⟩ := List.cons.inj heq
  exact ⟨hperiod, (CapsCall.claim.inj hclaim).2⟩

/-- The claim as the calls so far leave it. -/
structure CapsClaims.After (c : CapsClaims) (calls : List CapsCall) : Prop where
  holders : ∀ who, who ∈ c.holders ↔ holds who calls = true
  since : c.holders ≠ [] → ∃ period, HeldSince calls period c.original ∧ c.set = lastSet period

namespace CapsClaims.After

variable {c : CapsClaims} {calls : List CapsCall}

theorem idle_iff (h : c.After calls) : Idle calls ↔ c.holders = [] := by
  rw [List.eq_nil_iff_forall_not_mem]
  refine forall_congr' fun who => ?_
  rw [h.holders, Bool.not_eq_true]

theorem concat (h : c.After calls) {c' : CapsClaims} {call : CapsCall}
    (hholders : ∀ who, who ∈ c'.holders ↔ holds who (calls ++ [call]) = true)
    (hwas : c'.holders ≠ [] → c.holders ≠ [])
    (horiginal : c'.holders ≠ [] → c'.original = c.original)
    (hset : c'.holders ≠ [] → ∀ period, c.set = lastSet period →
      c'.set = lastSet (period ++ [call])) :
    c'.After (calls ++ [call]) := by
  refine ⟨hholders, fun hheld => ?_⟩
  obtain ⟨period, hsince, hlast⟩ := h.since (hwas hheld)
  refine ⟨period ++ [call], ?_, hset hheld period hlast⟩
  rw [horiginal hheld]
  refine hsince.concat fun hidle => hheld (List.eq_nil_iff_forall_not_mem.mpr fun who hwho => ?_)
  exact absurd ((hholders who).mp hwho) (Bool.eq_false_iff.mp (hidle who))

theorem claim (h : c.After calls) (who : Nat) (current : Option Bool) :
    (c.claim who current).After (calls ++ [.claim who current]) := by
  unfold CapsClaims.claim
  split
  · rename_i hmem
    have hheld : who ∈ c.holders := List.contains_iff_mem.mp hmem
    refine h.concat (fun w => ?_) (fun hheld => hheld) (fun _ => rfl) fun _ period hlast => ?_
    · rw [holds_claim, Bool.or_eq_true, h.holders w, beq_iff_eq]
      refine ⟨.inl, fun hw => hw.elim (fun hwas => hwas) fun hw => ?_⟩
      exact (h.holders w).mp (hw ▸ hheld)
    · rw [lastSet_concat _ _ fun _ hno => CapsCall.noConfusion hno]
      exact hlast
  · split
    · rename_i hempty
      have hnone : c.holders = [] := List.isEmpty_iff.mp hempty
      have hidle : Idle calls := h.idle_iff.mpr hnone
      have hholds : ∀ w, holds w (calls ++ [.claim who current]) = (who == w) := by
        intro w
        rw [holds_claim, hidle w, Bool.false_or]
      refine ⟨fun w => ?_, fun _ => ⟨[], ⟨calls, who, rfl, hidle, fun part hpart => ?_⟩, rfl⟩⟩
      · rw [hholds, beq_iff_eq]
        exact List.mem_singleton.trans eq_comm
      · rw [List.prefix_nil.mp hpart]
        intro hno
        have := (hholds who).symm.trans (hno who)
        rw [beq_self_eq_true] at this
        exact absurd this.symm Bool.false_ne_true
    · rename_i hempty
      refine h.concat (fun w => ?_) (fun _ hnone => hempty (List.isEmpty_iff.mpr hnone))
        (fun _ => rfl) fun _ period hlast => ?_
      · rw [holds_claim, Bool.or_eq_true, ← h.holders w, beq_iff_eq]
        exact List.mem_append.trans (or_congr_right (List.mem_singleton.trans eq_comm))
      · rw [lastSet_concat _ _ fun _ hno => CapsCall.noConfusion hno]
        exact hlast

theorem sets (h : c.After calls) (on : Bool) : (c.sets on).2.After (calls ++ [.set on]) := by
  refine h.concat (fun w => ?_) (fun hheld => hheld) (fun _ => rfl)
    fun _ period _ => (lastSet_set period on).symm
  rw [holds_set]
  exact h.holders w

theorem release (h : c.After calls) (who : Nat) :
    (c.release who).2.After (calls ++ [.release who]) := by
  have hholders : ∀ w, w ∈ c.holders.filter (· != who) ↔
      holds w (calls ++ [.release who]) = true := by
    intro w
    rw [List.mem_filter, h.holders w, holds_release, Bool.and_eq_true, bne_iff_ne, bne_iff_ne]
    exact and_congr_right fun _ => ne_comm
  have hwas : c.holders.filter (· != who) ≠ [] → c.holders ≠ [] := fun hleft hnone =>
    hleft (by rw [hnone]; rfl)
  unfold CapsClaims.release
  dsimp only
  split
  · refine h.concat hholders hwas (fun _ => rfl) fun _ period hlast => ?_
    rw [lastSet_concat _ _ fun _ hno => CapsCall.noConfusion hno]
    exact hlast
  · rename_i hlast
    have hnone : c.holders.filter (· != who) = [] := by
      by_contra hleft
      exact hlast (.inr hleft)
    exact ⟨hholders, fun hleft => absurd hnone hleft⟩

end CapsClaims.After

theorem capsAfter_after (calls : List CapsCall) : (capsAfter calls).After calls := by
  induction calls using List.reverseRecOn with
  | nil => exact ⟨fun who => ⟨fun hno => absurd hno List.not_mem_nil, fun hno =>
      absurd hno Bool.false_ne_true⟩, fun hno => absurd rfl hno⟩
  | append_singleton calls call ih =>
    rw [capsAfter_concat]
    cases call with
    | claim who current => exact ih.claim who current
    | set on => exact ih.sets on
    | release who => exact ih.release who

/-- The one who lets go last is told what to put back: the state the lock was in when the first of
those that held it claimed it, against the one it was last set to since. Nobody else is told
anything. -/
theorem gives_back_what_was_found (calls : List CapsCall) (who : Nat) (k : CapsKept) :
    ((capsAfter calls).release who).1.1 = some k ↔
      holds who calls = true ∧ Idle (calls ++ [.release who]) ∧
        ∃ period, HeldSince calls period (some k.original) ∧ lastSet period = some k.set := by
  have h := capsAfter_after calls
  have hidle : Idle (calls ++ [.release who]) ↔
      (capsAfter calls).holders.filter (· != who) = [] := by
    rw [(h.release who).idle_iff, CapsClaims.release_holders]
  rw [hidle]
  unfold CapsClaims.release
  dsimp only
  split
  · rename_i hstays
    refine ⟨fun hno => absurd hno.symm (Option.some_ne_none _), fun ⟨hheld, hnone, _⟩ => ?_⟩
    have hsame := hstays.resolve_right (not_not_intro hnone)
    rw [hnone, List.length_nil] at hsame
    have hmem := (h.holders who).mpr hheld
    rw [List.eq_nil_of_length_eq_zero hsame.symm] at hmem
    exact absurd hmem List.not_mem_nil
  · rename_i hstays
    obtain ⟨hgone, hleft⟩ := not_or.mp hstays
    have hnone := not_not.mp hleft
    have hheld : who ∈ (capsAfter calls).holders := by
      by_contra hno
      refine hgone (congrArg List.length (List.filter_eq_self.mpr fun w hw => ?_))
      exact bne_iff_ne.mpr fun hsame => hno (hsame ▸ hw)
    obtain ⟨period, hsince, hlast⟩ := h.since (List.ne_nil_of_mem hheld)
    rw [CapsClaims.snapshot_eq_some]
    refine ⟨fun ⟨horiginal, hset⟩ => ⟨(h.holders who).mp hheld, hnone, period, ?_, ?_⟩, ?_⟩
    · rw [← horiginal]
      exact hsince
    · rw [← hlast]
      exact hset
    · rintro ⟨-, -, period', hsince', hlast'⟩
      obtain ⟨hperiod, hfound⟩ := hsince.unique hsince'
      exact ⟨hfound, hlast.trans (hperiod ▸ hlast')⟩

end Slopty.Input
