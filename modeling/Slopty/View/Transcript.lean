import Slopty.Lib.Text
import Slopty.Lib.Behind

/-!
A transcript's changes as a frame: the whole of it, or the entries put in and replaced, the text
added at the end of parts, and the entries removed.
-/

namespace Slopty.View

open Slopty.Lib

/-- Who an entry is from. -/
inductive MessageRole where
  | user
  | assistant
  | system
  deriving DecidableEq, Repr

inductive MessageStatus where
  | streaming
  | complete
  | aborted
  deriving DecidableEq, Repr

/-- One part of an entry; `other` is a part of any further kind, with all that it says. -/
inductive MessagePart (Other : Type) where
  | text (id : String) (text : Text)
  | reasoning (id : String) (text : Text) (thoughtMs : Option Nat)
  | other (id : String) (said : Other)
  deriving DecidableEq, Repr

structure SessionMessageEntry (Other : Type) where
  id : String
  role : MessageRole
  parts : List (MessagePart Other)
  createdAt : Int
  deviceId : String
  status : Option MessageStatus
  durationMs : Option Int
  deriving DecidableEq, Repr

/-- An inserted or replaced entry, and the one it goes after; none for the head. -/
structure TranscriptUpsert (Other : Type) where
  after : Option String
  entry : SessionMessageEntry Other
  deriving DecidableEq, Repr

/-- Text added to the end of one part; `len` is the part's length then, in bytes. -/
structure TextAppend where
  entry : String
  part : String
  text : Text
  len : Nat
  deriving DecidableEq, Repr

inductive TranscriptFrame (Other : Type) where
  | reset (entries : List (SessionMessageEntry Other))
  | delta (upsert : List (TranscriptUpsert Other)) (append : List TextAppend)
      (remove : List String) (count : Nat)
  deriving DecidableEq, Repr

/-- Why a frame could not be applied. -/
inductive TranscriptDesync where
  | missingAnchor (anchor : String)
  | missingAppendEntry (entry : String)
  | missingAppendPart (part : String)
  | appendLength (entry part : String) (have_ expected : Nat)
  | count (have_ expected : Nat)
  deriving DecidableEq, Repr

def TranscriptDesync.message : TranscriptDesync → String
  | .missingAnchor anchor => s!"missing anchor {anchor}"
  | .missingAppendEntry entry => s!"missing append entry {entry}"
  | .missingAppendPart part => s!"missing append part {part}"
  | .appendLength entry part have_ expected =>
      s!"append length mismatch on {entry}#{part}: have {have_}, expected {expected}"
  | .count have_ expected => s!"count mismatch: have {have_}, expected {expected}"

variable {Other : Type} [DecidableEq Other]

namespace MessagePart

def id : MessagePart Other → String
  | .text id _ | .reasoning id _ _ | .other id _ => id

end MessagePart

/-- The ids and texts of two parts of text that differ in nothing else. -/
def textsOf : MessagePart Other → MessagePart Other → Option ((String × Text) × (String × Text))
  | .text pid pt, .text nid nt => some ((pid, pt), (nid, nt))
  | .reasoning pid pt was, .reasoning nid nt is =>
      if was ≠ is then none else some ((pid, pt), (nid, nt))
  | _, _ => none

/-- Walk two entries' parts side by side: `append` is the one text that grew so far. -/
def appendOf (entry : String) : List (MessagePart Other × MessagePart Other) →
    Option TextAppend → Option TextAppend
  | [], append => append
  | (p, n) :: rest, append =>
      if p = n then appendOf entry rest append
      else
        match textsOf p n with
        | none => none
        | some ((pid, pt), (nid, nt)) =>
            if pid ≠ nid ∨ ¬ pt <+: nt ∨ append.isSome then none
            else appendOf entry rest (some ⟨entry, nid, nt.drop pt.length, nt.utf8Len⟩)

/-- The text added when `next` is `prev` with text appended to exactly one part. -/
def tryTextAppend (prev next : SessionMessageEntry Other) : Option TextAppend :=
  if prev.id ≠ next.id ∨ prev.role ≠ next.role ∨ prev.createdAt ≠ next.createdAt ∨
      prev.deviceId ≠ next.deviceId ∨ prev.status ≠ next.status ∨
      prev.durationMs ≠ next.durationMs ∨ prev.parts.length ≠ next.parts.length then none
  else appendOf next.id (prev.parts.zip next.parts) none

/-- The id of the entry before the one at `ix`; none for the head. -/
def before (entries : List (SessionMessageEntry Other)) (ix : Nat) : Option String :=
  beforePlace (entries.map SessionMessageEntry.id) ix

/-- What an entry of the new transcript is to the old one. -/
inductive Change where
  | same
  | append (text : TextAppend)
  | upsert
  deriving DecidableEq, Repr

/-- Where an id stands, and its entry; the last one of it. -/
def entryOf (entries : List (SessionMessageEntry Other)) (id : String) :
    Option (SessionMessageEntry Other × Nat) :=
  entries.zipIdx.reverse.find? fun e => e.1.id == id

def changeOf (prev next : List (SessionMessageEntry Other)) (entry : SessionMessageEntry Other)
    (i : Nat) : Change :=
  let after := before next i
  match entryOf prev entry.id with
  | some (prevEntry, prevIx) =>
      let prevAfter := before prev prevIx
      if prevEntry = entry ∧ prevAfter = after then .same
      else if prevAfter = after then
        match tryTextAppend prevEntry entry with
        | some text => .append text
        | none => .upsert
      else .upsert
  | none => .upsert

/-- What an entry at its place is sent as, when it is sent whole. -/
def upsertAt (prev next : List (SessionMessageEntry Other)) (e : SessionMessageEntry Other × Nat) :
    Option (TranscriptUpsert Other) :=
  if changeOf prev next e.1 e.2 = .upsert then some ⟨before next e.2, e.1⟩ else none

def appendAt (prev next : List (SessionMessageEntry Other)) (e : SessionMessageEntry Other × Nat) :
    Option TextAppend :=
  match changeOf prev next e.1 e.2 with
  | .append text => some text
  | _ => none

def diffTranscript (prev next : List (SessionMessageEntry Other)) : TranscriptFrame Other :=
  let remove := (prev.filter fun e => !(next.map SessionMessageEntry.id).contains e.id).map
    SessionMessageEntry.id
  let upsert := next.zipIdx.filterMap (upsertAt prev next)
  let append := next.zipIdx.filterMap (appendAt prev next)
  -- a delta touching most rows serializes like a reset but applies slower
  if max next.length 1 ≤ upsert.length * 2 ∧ 4 < next.length then .reset next
  else .delta upsert append remove next.length

/-- Put an entry in behind its anchor, wherever it stood. -/
def place (current : List (SessionMessageEntry Other)) (u : TranscriptUpsert Other) :
    Except TranscriptDesync (List (SessionMessageEntry Other)) :=
  let current := current.eraseP fun e => e.id == u.entry.id
  match u.after with
  | none => .ok (u.entry :: current)
  | some anchor =>
      match current.findIdx? fun e => e.id == anchor with
      | some ix => .ok (current.insertIdx (ix + 1) u.entry)
      | none => .error (.missingAnchor anchor)

/-- Add text to the first part of text that has the id. -/
def appendToPart (a : TextAppend) : List (MessagePart Other) →
    Except TranscriptDesync (List (MessagePart Other))
  | [] => .error (.missingAppendPart a.part)
  | p :: rest =>
      let grown := fun (text : Text) (part : Text → MessagePart Other) =>
        let text := text ++ a.text
        if text.utf8Len ≠ a.len then .error (.appendLength a.entry a.part text.utf8Len a.len)
        else .ok (part text :: rest)
      match p with
      | .text id text =>
          if id = a.part then grown text (.text id)
          else (appendToPart a rest).map (p :: ·)
      | .reasoning id text thoughtMs =>
          if id = a.part then grown text (.reasoning id · thoughtMs)
          else (appendToPart a rest).map (p :: ·)
      | .other _ _ => (appendToPart a rest).map (p :: ·)

def appendToEntry (a : TextAppend) : List (SessionMessageEntry Other) →
    Except TranscriptDesync (List (SessionMessageEntry Other))
  | [] => .error (.missingAppendEntry a.entry)
  | e :: rest =>
      if e.id = a.entry then (appendToPart a e.parts).map fun parts => { e with parts } :: rest
      else (appendToEntry a rest).map (e :: ·)

def applyTranscriptFrame (current : List (SessionMessageEntry Other)) :
    TranscriptFrame Other → Except TranscriptDesync (List (SessionMessageEntry Other))
  | .reset entries => .ok entries
  | .delta upsert append remove count => do
      let current :=
        if remove = [] then current else current.filter fun e => !remove.contains e.id
      let current ← upsert.foldlM place current
      let current ← append.foldlM (fun current a => appendToEntry a current) current
      if current.length ≠ count then .error (.count current.length count) else .ok current

theorem appendOf_some {entry : String} {pairs : List (MessagePart Other × MessagePart Other)}
    {b a : TextAppend} (h : appendOf entry pairs (some b) = some a) :
    a = b ∧ ∀ q ∈ pairs, q.1 = q.2 := by
  induction pairs with
  | nil => exact ⟨(Option.some.inj h).symm, by simp⟩
  | cons q pairs ih =>
      rw [appendOf] at h
      split at h
      · rename_i hpn
        obtain ⟨ha, hpairs⟩ := ih h
        exact ⟨ha, List.forall_mem_cons.mpr ⟨hpn, hpairs⟩⟩
      · split at h
        · exact absurd h nofun
        · simp at h

omit [DecidableEq Other] in
theorem appendToPart_ne {a : TextAppend} {p : MessagePart Other} (h : p.id ≠ a.part)
    (rest : List (MessagePart Other)) :
    appendToPart a (p :: rest) = (appendToPart a rest).map (p :: ·) := by
  cases p with
  | text id text | reasoning id text thoughtMs => exact if_neg h
  | other id said => rfl

omit [DecidableEq Other] in
theorem appendToPart_grown {p n : MessagePart Other} {pid nid : String} {pt nt : Text}
    (hne : textsOf p n = some ((pid, pt), (nid, nt))) (hid : pid = nid) (hstarts : pt <+: nt)
    (entry : String) (rest : List (MessagePart Other)) :
    p.id = nid ∧ appendToPart ⟨entry, nid, nt.drop pt.length, nt.utf8Len⟩ (p :: rest) =
      .ok (n :: rest) := by
  have htext : pt ++ nt.drop pt.length = nt := (List.prefix_append_drop hstarts).symm
  cases p <;> cases n <;> simp only [textsOf, reduceCtorEq, Option.some.injEq, Prod.mk.injEq] at hne
  case text.text =>
    obtain ⟨⟨rfl, rfl⟩, rfl, rfl⟩ := hne
    subst hid
    refine ⟨rfl, ?_⟩
    simp only [appendToPart, if_true, htext, ne_eq, not_true, if_false]
  case reasoning.reasoning =>
    split at hne
    · exact absurd hne nofun
    · rename_i hthought
      simp only [Option.some.injEq, Prod.mk.injEq, not_not] at hne hthought
      obtain ⟨⟨rfl, rfl⟩, rfl, rfl⟩ := hne
      subst hid hthought
      refine ⟨rfl, ?_⟩
      simp only [appendToPart, if_true, htext, ne_eq, not_true, if_false]

/-- The text that the walk found, added to the parts as they were, makes them what they are. -/
theorem appendOf_none {entry : String} {pairs : List (MessagePart Other × MessagePart Other)}
    {a : TextAppend} (hids : ((pairs.map Prod.fst).map MessagePart.id).Nodup)
    (h : appendOf entry pairs none = some a) :
    a.entry = entry ∧ a.part ∈ (pairs.map Prod.fst).map MessagePart.id ∧
      appendToPart a (pairs.map Prod.fst) = .ok (pairs.map Prod.snd) := by
  induction pairs with
  | nil => exact absurd h nofun
  | cons q pairs ih =>
      obtain ⟨p, n⟩ := q
      rw [List.map_cons, List.map_cons, List.nodup_cons] at hids
      rw [appendOf] at h
      rw [List.map_cons, List.map_cons, List.map_cons]
      split at h
      · rename_i hpn
        subst hpn
        obtain ⟨hentry, hpart, happly⟩ := ih hids.2 h
        have hne : p.id ≠ a.part := fun heq => hids.1 (heq ▸ hpart)
        refine ⟨hentry, List.mem_cons_of_mem _ hpart, ?_⟩
        rw [appendToPart_ne hne, happly]
        rfl
      · split at h
        · exact absurd h nofun
        · rename_i pid pt nid nt htexts
          split at h
          · exact absurd h nofun
          · rename_i hfits
            simp only [not_or, ne_eq, not_not] at hfits
            obtain ⟨rfl, hsame⟩ := appendOf_some h
            obtain ⟨hpart, hgrown⟩ :=
              appendToPart_grown htexts hfits.1 hfits.2.1 entry (pairs.map Prod.fst)
            refine ⟨rfl, ?_, ?_⟩
            · rw [hpart]
              exact List.mem_cons_self
            · rw [hgrown, List.map_congr_left hsame]

theorem tryTextAppend_spec {p n : SessionMessageEntry Other} {a : TextAppend}
    (hids : (p.parts.map MessagePart.id).Nodup) (h : tryTextAppend p n = some a) :
    a.entry = n.id ∧ p.id = n.id ∧ appendToPart a p.parts = .ok n.parts ∧
      { p with parts := n.parts } = n := by
  unfold tryTextAppend at h
  split at h
  · exact absurd h nofun
  · rename_i hsame
    simp only [not_or, ne_eq, not_not] at hsame
    obtain ⟨hid, hrole, hcreated, hdevice, hstatus, hduration, hlen⟩ := hsame
    have hfst : (p.parts.zip n.parts).map Prod.fst = p.parts := List.map_fst_zip (le_of_eq hlen)
    have hsnd : (p.parts.zip n.parts).map Prod.snd = n.parts :=
      List.map_snd_zip (le_of_eq hlen.symm)
    obtain ⟨hentry, -, happly⟩ := appendOf_none (by rwa [hfst]) h
    rw [hfst, hsnd] at happly
    obtain ⟨pid, role, parts, createdAt, deviceId, status, durationMs⟩ := p
    obtain ⟨nid, role', parts', createdAt', deviceId', status', durationMs'⟩ := n
    simp only at hid hrole hcreated hdevice hstatus hduration
    subst hid hrole hcreated hdevice hstatus hduration
    exact ⟨hentry, rfl, happly, rfl⟩

def idsOf (entries : List (SessionMessageEntry Other)) : List String :=
  entries.map SessionMessageEntry.id

omit [DecidableEq Other] in
theorem entryOf_eq_some {l : List (SessionMessageEntry Other)} (hl : (idsOf l).Nodup)
    {id : String} {e : SessionMessageEntry Other} {i : Nat} :
    entryOf l id = some (e, i) ↔ l[i]? = some e ∧ e.id = id := by
  have hunique : ∀ {e' : SessionMessageEntry Other} {j : Nat}, l[i]? = some e → l[j]? = some e' →
      e.id = e'.id → i = j := by
    intro e' j hi hj hid
    refine place_unique hl (x := e.id) ?_ ?_
    · rw [idsOf, List.getElem?_map, hi]
      rfl
    · rw [idsOf, List.getElem?_map, hj, hid]
      rfl
  have hmem : ∀ {e' : SessionMessageEntry Other} {j : Nat},
      (e', j) ∈ l.zipIdx.reverse ↔ l[j]? = some e' := by
    intro e' j
    rw [List.mem_reverse, List.mem_zipIdx_iff_getElem?]
  rw [entryOf]
  constructor
  · intro h
    exact ⟨hmem.mp (List.mem_of_find?_eq_some h), by simpa using List.find?_some h⟩
  · rintro ⟨hi, rfl⟩
    cases hfind : l.zipIdx.reverse.find? fun x => x.1.id == e.id with
    | none =>
        exact absurd (beq_self_eq_true e.id) (List.find?_eq_none.mp hfind (e, i) (hmem.mpr hi))
    | some x =>
        obtain ⟨e', j⟩ := x
        have hj := hmem.mp (List.mem_of_find?_eq_some hfind)
        have hid : e'.id = e.id := by simpa using List.find?_some hfind
        obtain rfl := hunique hi hj hid.symm
        rw [Option.some.inj (hi.symm.trans hj)]

omit [DecidableEq Other] in
theorem entryOf_eq_none {l : List (SessionMessageEntry Other)} {id : String} :
    entryOf l id = none ↔ id ∉ idsOf l := by
  rw [entryOf, List.find?_eq_none, idsOf, List.mem_map]
  constructor
  · rintro h ⟨e, he, rfl⟩
    obtain ⟨i, hi⟩ := List.mem_iff_getElem?.mp he
    exact h (e, i) (List.mem_reverse.mpr (List.mem_zipIdx_iff_getElem?.mpr hi)) (by simp)
  · rintro h ⟨e, i⟩ hi hid
    exact h ⟨e, List.mem_of_getElem? (List.mem_zipIdx_iff_getElem?.mp (List.mem_reverse.mp hi)),
      by simpa using hid⟩

/-- An entry stays where it is: behind the same one in both transcripts, and the same in both or
with text added to the end of one part. -/
def staysPut (prev next : List (SessionMessageEntry Other)) (id : String) : Bool :=
  match entryOf prev id, entryOf next id with
  | some (p, i), some (n, j) =>
      decide (before prev i = before next j) && (decide (p = n) || (tryTextAppend p n).isSome)
  | _, _ => false

/-- The entries that stay where they are are in one order in both transcripts. -/
def OrderKept (prev next : List (SessionMessageEntry Other)) : Prop :=
  (idsOf prev).filter (staysPut prev next) = (idsOf next).filter (staysPut prev next)

/-- At least half of the entries change, of more than four. -/
def MostChanged (prev next : List (SessionMessageEntry Other)) : Prop :=
  max next.length 1 ≤ ((idsOf next).filter fun id => !staysPut prev next id).length * 2 ∧
    4 < next.length

section Apply

variable {prev next : List (SessionMessageEntry Other)}

theorem changeOf_eq_upsert (hnext : (idsOf next).Nodup) {n : SessionMessageEntry Other} {i : Nat}
    (hn : next[i]? = some n) :
    changeOf prev next n i = .upsert ↔ staysPut prev next n.id = false := by
  have hentry : entryOf next n.id = some (n, i) := (entryOf_eq_some hnext).mpr ⟨hn, rfl⟩
  rw [changeOf, staysPut, hentry]
  cases hp : entryOf prev n.id with
  | none => simp
  | some p =>
      obtain ⟨p, j⟩ := p
      simp only
      by_cases hbefore : before prev j = before next i
      · by_cases hsame : p = n
        · simp [hbefore, hsame]
        · cases htext : tryTextAppend p n <;> simp [hbefore, hsame]
      · simp [hbefore]

omit [DecidableEq Other] in
theorem eraseP_id {l : List (SessionMessageEntry Other)} (hl : (idsOf l).Nodup) (id : String) :
    (l.eraseP fun e => e.id == id) = l.filter fun e => e.id != id := by
  induction l with
  | nil => rfl
  | cons e l ih =>
      rw [idsOf, List.map_cons, List.nodup_cons] at hl
      by_cases heq : e.id = id
      · rw [List.eraseP_cons_of_pos (by simpa using heq), List.filter_cons_of_neg (by simpa using heq)]
        refine (List.filter_eq_self.mpr fun x hx => ?_).symm
        have : x.id ≠ id := fun hid => hl.1 (heq ▸ hid ▸ List.mem_map_of_mem hx)
        simpa using this
      · rw [List.eraseP_cons_of_neg (by simpa using heq), List.filter_cons_of_pos (by simpa using heq),
          ih hl.2]

omit [DecidableEq Other] in
theorem idsOf_filter (l : List (SessionMessageEntry Other)) (p : String → Bool) :
    idsOf (l.filter fun e => p e.id) = (idsOf l).filter p := by
  rw [idsOf, idsOf, List.filter_map]
  rfl

/-- What putting an entry in behind its anchor does: the entry is there and behind it, and the
others are as they were. -/
structure Placed (u : TranscriptUpsert Other) (l l' : List (SessionMessageEntry Other)) :
    Prop where
  nodup : (idsOf l').Nodup
  mem : ∀ e, e ∈ l' ↔ e = u.entry ∨ e ∈ l ∧ e.id ≠ u.entry.id
  behind : Behind u.after u.entry.id (idsOf l')
  others : ∀ after x, Behind after x (idsOf l) → x ≠ u.entry.id → after ≠ some u.entry.id →
    after ≠ u.after → Behind after x (idsOf l')
  filter : ∀ p : String → Bool, p u.entry.id = false →
    (l'.filter fun e => p e.id) = l.filter fun e => p e.id

omit [DecidableEq Other] in
theorem place_spec {l : List (SessionMessageEntry Other)} (hl : (idsOf l).Nodup)
    {u : TranscriptUpsert Other}
    (hafter : ∀ a, u.after = some a → a ∈ idsOf l ∧ a ≠ u.entry.id) :
    ∃ l', place l u = .ok l' ∧ Placed u l l' := by
  obtain ⟨after, entry⟩ := u
  rw [place, eraseP_id hl]
  have hrest : idsOf (l.filter fun e => e.id != entry.id) =
      (idsOf l).filter fun id => id != entry.id := idsOf_filter l fun id => id != entry.id
  have hnodup : (idsOf (l.filter fun e => e.id != entry.id)).Nodup := by
    rw [hrest]
    exact hl.filter _
  have hgone : entry.id ∉ idsOf (l.filter fun e => e.id != entry.id) := by
    rw [hrest]
    simp
  have hmem : ∀ e, e ∈ l.filter (fun e => e.id != entry.id) ↔ e ∈ l ∧ e.id ≠ entry.id := by
    intro e
    rw [List.mem_filter, bne_iff_ne]
  have hothers : ∀ after x, Behind after x (idsOf l) → x ≠ entry.id → after ≠ some entry.id →
      Behind after x (idsOf (l.filter fun e => e.id != entry.id)) := by
    intro after x h hx ha
    rw [hrest]
    refine h.filter ?_ (bne_iff_ne.mpr hx)
    rintro a rfl
    exact bne_iff_ne.mpr fun heq => ha (congrArg some heq)
  have hfilter : ∀ p : String → Bool, p entry.id = false →
      ((l.filter fun e => e.id != entry.id).filter fun e => p e.id) = l.filter fun e => p e.id := by
    intro p hp
    rw [List.filter_filter]
    refine List.filter_congr fun e _ => ?_
    by_cases heq : e.id = entry.id
    · simp [heq, hp]
    · simp [heq]
  generalize l.filter (fun e => e.id != entry.id) = m at hnodup hgone hmem hothers hfilter ⊢
  cases after with
  | none =>
      refine ⟨entry :: m, rfl, ?_, ?_, ?_, ?_, ?_⟩
      · exact List.nodup_cons.mpr ⟨hgone, hnodup⟩
      · intro e
        rw [List.mem_cons, hmem]
      · exact ⟨idsOf m, rfl⟩
      · intro after x h hx ha hne
        cases after with
        | none => exact absurd rfl hne
        | some a => exact (hothers _ _ h hx ha).cons entry.id
      · intro p hp
        rw [List.filter_cons_of_neg (by simp [hp])]
        exact hfilter p hp
  | some a =>
      obtain ⟨ha, hne⟩ := hafter a rfl
      have ham : a ∈ idsOf m := by
        obtain ⟨c, hc, rfl⟩ := List.mem_map.mp ha
        exact List.mem_map_of_mem ((hmem c).mpr ⟨hc, hne⟩)
      obtain ⟨c, hc, rfl⟩ := List.mem_map.mp ham
      obtain ⟨s, t, rfl⟩ := List.append_of_mem hc
      have hids : idsOf (s ++ c :: t) = idsOf s ++ c.id :: idsOf t := by simp [idsOf]
      have hids' : idsOf (s ++ c :: entry :: t) = idsOf s ++ c.id :: entry.id :: idsOf t := by
        simp [idsOf]
      have hbefore : ∀ e ∈ s, ¬ (e.id == c.id) = true := by
        intro e he heq
        rw [hids, List.nodup_append] at hnodup
        exact hnodup.2.2 e.id (List.mem_map_of_mem he) c.id List.mem_cons_self (beq_iff_eq.mp heq)
      have hfind : ((s ++ c :: t).findIdx? fun e => e.id == c.id) = some s.length := by
        rw [List.findIdx?_append, List.findIdx?_eq_none_iff.mpr (by simpa using hbefore),
          List.findIdx?_cons]
        simp
      simp only [hfind, insertIdx_behind]
      refine ⟨_, rfl, ?_, ?_, ?_, ?_, ?_⟩
      · rw [hids', nodup_behind, ← hids]
        exact ⟨hgone, hnodup⟩
      · intro e
        rw [← hmem]
        simp only [List.mem_append, List.mem_cons]
        tauto
      · rw [hids']
        exact behind_inserted _ _ _ _
      · intro after x h hx hafter' hne'
        rw [hids']
        have := hothers _ _ h hx hafter'
        rw [hids] at this
        exact this.insert hne' entry.id
      · intro p hp
        rw [← hfilter p hp, List.filter_append, List.filter_append]
        cases hc' : p c.id <;> simp [hc', hp]

/-- The ids that are in an old transcript, among the entries of the new one before place `i`, or
both. -/
structure Midway (prev next : List (SessionMessageEntry Other)) (i : Nat)
    (l : List (SessionMessageEntry Other)) : Prop where
  nodup : (idsOf l).Nodup
  mem : ∀ id, id ∈ idsOf l ↔ id ∈ idsOf next ∧ (id ∈ idsOf prev ∨ id ∈ idsOf (next.take i))
  behind : ∀ j < i, ∀ n, next[j]? = some n → staysPut prev next n.id = false →
    n ∈ l ∧ Behind (before next j) n.id (idsOf l)
  kept : (l.filter fun e => staysPut prev next e.id) =
    prev.filter fun e => staysPut prev next e.id

omit [DecidableEq Other] in
theorem id_of_getElem? {l : List (SessionMessageEntry Other)} {i : Nat}
    {n : SessionMessageEntry Other} (h : l[i]? = some n) : (idsOf l)[i]? = some n.id := by
  rw [idsOf, List.getElem?_map, h]
  rfl

omit [DecidableEq Other] in
theorem mem_idsOf_take_succ {l : List (SessionMessageEntry Other)} {i : Nat}
    {n : SessionMessageEntry Other} (h : l[i]? = some n) (id : String) :
    id ∈ idsOf (l.take (i + 1)) ↔ id ∈ idsOf (l.take i) ∨ id = n.id := by
  rw [List.take_add_one, h, Option.toList_some, idsOf, List.map_append, List.mem_append]
  simp [idsOf]

theorem staysPut_mem {id : String} (h : staysPut prev next id = true) :
    id ∈ idsOf prev ∧ id ∈ idsOf next := by
  rw [staysPut] at h
  split at h
  · rename_i p i n j hp hn
    constructor
    · by_contra hno
      rw [entryOf_eq_none.mpr hno] at hp
      exact absurd hp nofun
    · by_contra hno
      rw [entryOf_eq_none.mpr hno] at hn
      exact absurd hn nofun
  · exact absurd h nofun

theorem Midway.start (hprev : (idsOf prev).Nodup) :
    Midway prev next 0 (prev.filter fun e => (idsOf next).contains e.id) where
  nodup := by
    rw [idsOf_filter prev fun id => (idsOf next).contains id]
    exact hprev.filter _
  mem := by
    intro id
    rw [idsOf_filter prev fun id => (idsOf next).contains id, List.mem_filter,
      List.contains_iff_mem, List.take_zero, and_comm]
    simp [idsOf]
  behind := fun j hj => absurd hj (Nat.not_lt_zero j)
  kept := by
    rw [List.filter_filter]
    refine List.filter_congr fun e _ => ?_
    cases hstays : staysPut prev next e.id with
    | false => rfl
    | true => simp [(staysPut_mem hstays).2]

theorem Midway.stay {i : Nat} {l : List (SessionMessageEntry Other)} (h : Midway prev next i l)
    {n : SessionMessageEntry Other} (hn : next[i]? = some n)
    (hstays : staysPut prev next n.id = true) : Midway prev next (i + 1) l where
  nodup := h.nodup
  mem := by
    intro id
    rw [h.mem, mem_idsOf_take_succ hn, ← or_assoc]
    constructor
    · exact fun ⟨hin, hold⟩ => ⟨hin, Or.inl hold⟩
    · rintro ⟨hin, hold | rfl⟩
      · exact ⟨hin, hold⟩
      · exact ⟨hin, Or.inl (staysPut_mem hstays).1⟩
  behind := by
    intro j hj m hm hmoves
    rcases Nat.lt_succ_iff_lt_or_eq.mp hj with hlt | rfl
    · exact h.behind j hlt m hm hmoves
    · obtain rfl := Option.some.inj (hn.symm.trans hm)
      rw [hstays] at hmoves
      exact absurd hmoves nofun
  kept := h.kept

/-- Any other is put behind the one it is behind in the new transcript, which is there. -/
theorem Midway.place (hnext : (idsOf next).Nodup) {i : Nat} {l : List (SessionMessageEntry Other)}
    (h : Midway prev next i l) {n : SessionMessageEntry Other} (hn : next[i]? = some n)
    (hmoves : staysPut prev next n.id = false) :
    ∃ l', View.place l ⟨before next i, n⟩ = .ok l' ∧ Midway prev next (i + 1) l' := by
  have hlen := (List.getElem?_eq_some_iff.mp hn).1
  have hid := id_of_getElem? hn
  have hafter : ∀ a, before next i = some a → a ∈ idsOf l ∧ a ≠ n.id := by
    intro a ha
    rw [before, beforePlace] at ha
    split at ha
    · cases ha
    · rename_i hpos
      obtain ⟨b, hb, rfl⟩ : ∃ b, next[i - 1]? = some b ∧ b.id = a := by
        rw [List.getElem?_map] at ha
        exact Option.map_eq_some_iff.mp ha
      have hold : b.id ∈ idsOf (next.take i) := by
        refine List.mem_map_of_mem (List.mem_of_getElem? (i := i - 1) ?_)
        rw [List.getElem?_take, if_pos (by omega), hb]
      refine ⟨(h.mem b.id).mpr ⟨List.mem_map_of_mem (List.mem_of_getElem? hb), Or.inr hold⟩, ?_⟩
      intro heq
      have := place_unique hnext (id_of_getElem? hb) (heq ▸ hid)
      omega
  obtain ⟨l', hplace, hplaced⟩ := place_spec h.nodup (u := ⟨before next i, n⟩) hafter
  refine ⟨l', hplace, hplaced.nodup, ?_, ?_, ?_⟩
  · intro id
    rw [mem_idsOf_take_succ hn, ← or_assoc]
    constructor
    · intro hin
      obtain ⟨e, he, rfl⟩ := List.mem_map.mp hin
      rcases (hplaced.mem e).mp he with rfl | ⟨hold, -⟩
      · exact ⟨List.mem_map_of_mem (List.mem_of_getElem? hn), Or.inr rfl⟩
      · obtain ⟨hin', hwas⟩ := (h.mem e.id).mp (List.mem_map_of_mem hold)
        exact ⟨hin', Or.inl hwas⟩
    · rintro ⟨hin, hwas⟩
      by_cases heq : id = n.id
      · rw [heq]
        exact List.mem_map_of_mem ((hplaced.mem n).mpr (Or.inl rfl))
      · obtain ⟨e, he, rfl⟩ := List.mem_map.mp ((h.mem id).mpr ⟨hin, hwas.resolve_right heq⟩)
        exact List.mem_map_of_mem ((hplaced.mem e).mpr (Or.inr ⟨he, heq⟩))
  · intro j hj m hm hmoves'
    rcases Nat.lt_succ_iff_lt_or_eq.mp hj with hlt | rfl
    · obtain ⟨hin, hbehind⟩ := h.behind j hlt m hm hmoves'
      have hmid := id_of_getElem? hm
      have hne : m.id ≠ n.id := fun heq => by
        have := place_unique hnext hmid (heq ▸ hid)
        omega
      refine ⟨(hplaced.mem m).mpr (Or.inr ⟨hin, hne⟩), hplaced.others _ _ hbehind hne ?_ ?_⟩
      · intro heq
        rw [before, beforePlace] at heq
        split at heq
        · cases heq
        · have := place_unique hnext heq hid
          omega
      · intro heq
        have hlen' : (idsOf next).length = next.length := List.length_map _
        have := beforePlace_inj hnext (by omega) (by omega) heq
        omega
    · obtain rfl := Option.some.inj (hn.symm.trans hm)
      exact ⟨(hplaced.mem n).mpr (Or.inl rfl), hplaced.behind⟩
  · rw [hplaced.filter (fun id => staysPut prev next id) hmoves]
    exact h.kept

theorem foldlM_place (hnext : (idsOf next).Nodup) {i : Nat} {l : List (SessionMessageEntry Other)}
    (h : Midway prev next i l) (hi : i ≤ next.length) :
    ∃ l', ((next.zipIdx.drop i).filterMap (upsertAt prev next)).foldlM View.place l = .ok l' ∧
      Midway prev next next.length l' := by
  obtain ⟨k, hk⟩ : ∃ k, i + k = next.length := ⟨next.length - i, by omega⟩
  induction k generalizing i l with
  | zero =>
      obtain rfl : i = next.length := hk
      refine ⟨l, ?_, h⟩
      rw [List.drop_eq_nil_of_le (by rw [List.length_zipIdx])]
      rfl
  | succ k ih =>
      have hlt : i < next.length := by omega
      have hn : next[i]? = some next[i] := List.getElem?_eq_getElem hlt
      have hdrop : next.zipIdx.drop i = (next[i], i) :: next.zipIdx.drop (i + 1) := by
        rw [List.drop_eq_getElem_cons (by rwa [List.length_zipIdx]), List.getElem_zipIdx,
          Nat.zero_add]
      have hchange : changeOf prev next next[i] i = .upsert ↔
          staysPut prev next next[i].id = false := changeOf_eq_upsert hnext hn
      rw [hdrop]
      cases hstays : staysPut prev next next[i].id with
      | true =>
          have hnone : upsertAt prev next (next[i], i) = none :=
            if_neg fun heq => by rw [hchange.mp heq] at hstays; exact absurd hstays nofun
          rw [List.filterMap_cons_none hnone]
          exact ih (h.stay hn hstays) (by omega) (by omega)
      | false =>
          have hsome : upsertAt prev next (next[i], i) = some ⟨before next i, next[i]⟩ :=
            if_pos (hchange.mpr hstays)
          obtain ⟨l', hplace, hl'⟩ := h.place hnext hn hstays
          obtain ⟨l'', hrest, hl''⟩ := ih hl' (by omega) (by omega)
          refine ⟨l'', ?_, hl''⟩
          rw [List.filterMap_cons_some hsome, List.foldlM_cons, hplace]
          exact hrest

omit [DecidableEq Other] in
theorem eq_of_id_eq {l : List (SessionMessageEntry Other)} (hl : (idsOf l).Nodup)
    {e x : SessionMessageEntry Other} (he : e ∈ l) (hx : x ∈ l) (hid : e.id = x.id) : e = x :=
  List.inj_on_of_nodup_map hl he hx hid

omit [DecidableEq Other] in
theorem appendToEntry_eq {a : TextAppend} {l : List (SessionMessageEntry Other)}
    (hl : (idsOf l).Nodup) {e n : SessionMessageEntry Other} (he : e ∈ l) (hid : e.id = a.entry)
    {parts : List (MessagePart Other)} (hparts : appendToPart a e.parts = .ok parts)
    (hn : { e with parts } = n) :
    appendToEntry a l = .ok (l.map fun x => if x.id = a.entry then n else x) := by
  induction l with
  | nil => exact absurd he List.not_mem_nil
  | cons x l ih =>
      rw [idsOf, List.map_cons, List.nodup_cons] at hl
      rw [appendToEntry, List.map_cons]
      by_cases hx : x.id = a.entry
      · have hxe : x = e := by
          rcases List.mem_cons.mp he with rfl | hmem
          · rfl
          · exact absurd (hx.trans hid.symm ▸ List.mem_map_of_mem hmem) hl.1
        subst hxe
        have hothers : (l.map fun y => if y.id = a.entry then n else y) = l := by
          refine (List.map_congr_left fun y hy => if_neg fun hya => ?_).trans (List.map_id l)
          exact hl.1 (hx.trans hya.symm ▸ List.mem_map_of_mem hy)
        rw [if_pos hx, if_pos hx, hparts, hothers, ← hn]
        rfl
      · have hmem : e ∈ l := (List.mem_cons.mp he).resolve_left fun heq => hx (heq ▸ hid)
        rw [if_neg hx, if_neg hx, ih hl.2 hmem]
        rfl

/-- An entry once the changes of the new one's entries before place `i` have reached it. -/
def reached (next : List (SessionMessageEntry Other)) (i : Nat)
    (e : SessionMessageEntry Other) : SessionMessageEntry Other :=
  match entryOf next e.id with
  | some (n, j) => if j < i then n else e
  | none => e

omit [DecidableEq Other] in
theorem reached_at (hnext : (idsOf next).Nodup) {i : Nat} {n e : SessionMessageEntry Other}
    (hn : next[i]? = some n) (hid : e.id = n.id) : reached next i e = e := by
  have hentry : entryOf next e.id = some (n, i) := (entryOf_eq_some hnext).mpr ⟨hn, hid.symm⟩
  rw [reached, hentry]
  exact if_neg (lt_irrefl i)

omit [DecidableEq Other] in
theorem reached_succ (hnext : (idsOf next).Nodup) {i : Nat} {n : SessionMessageEntry Other}
    (hn : next[i]? = some n) (e : SessionMessageEntry Other) :
    reached next (i + 1) e = if e.id = n.id then n else reached next i e := by
  split
  · rename_i hid
    have hentry : entryOf next e.id = some (n, i) := (entryOf_eq_some hnext).mpr ⟨hn, hid.symm⟩
    rw [reached, hentry]
    exact if_pos (Nat.lt_succ_self i)
  · rename_i hid
    rw [reached, reached]
    split
    · rename_i m j hentry
      obtain ⟨hj, hmid⟩ := (entryOf_eq_some hnext).mp hentry
      have hne : j ≠ i := by
        rintro rfl
        obtain rfl := Option.some.inj (hj.symm.trans hn)
        exact hid hmid.symm
      by_cases hlt : j < i
      · rw [if_pos hlt, if_pos (by omega)]
      · rw [if_neg hlt, if_neg (by omega)]
    · rfl

omit [DecidableEq Other] in
theorem reached_id (hnext : (idsOf next).Nodup) (i : Nat) (e : SessionMessageEntry Other) :
    (reached next i e).id = e.id := by
  rw [reached]
  split
  · rename_i n j hentry
    split
    · exact ((entryOf_eq_some hnext).mp hentry).2
    · rfl
  · rfl

omit [DecidableEq Other] in
theorem idsOf_reached (hnext : (idsOf next).Nodup) (i : Nat)
    (l : List (SessionMessageEntry Other)) : idsOf (l.map (reached next i)) = idsOf l := by
  rw [idsOf, List.map_map]
  exact List.map_congr_left fun e _ => reached_id hnext i e

/-- Once every upsert is placed, an entry is the new one or waits for its text. -/
theorem Midway.content (hprev : (idsOf prev).Nodup) (hnext : (idsOf next).Nodup)
    {l : List (SessionMessageEntry Other)} (h : Midway prev next next.length l) {i : Nat}
    {n e : SessionMessageEntry Other} (hn : next[i]? = some n) (he : e ∈ l) (hid : e.id = n.id) :
    match changeOf prev next n i with
    | .append text => e ∈ prev ∧ tryTextAppend e n = some text
    | _ => e = n := by
  cases hstays : staysPut prev next n.id with
  | false =>
      rw [(changeOf_eq_upsert hnext hn).mpr hstays]
      have hlt := (List.getElem?_eq_some_iff.mp hn).1
      exact eq_of_id_eq h.nodup he (h.behind i hlt n hn hstays).1 hid
  | true =>
      have hkept : e ∈ prev := by
        have hin : e ∈ l.filter fun x => staysPut prev next x.id :=
          List.mem_filter.mpr ⟨he, by rw [hid]; exact hstays⟩
        rw [h.kept] at hin
        exact (List.mem_filter.mp hin).1
      have hentry : entryOf next n.id = some (n, i) := (entryOf_eq_some hnext).mpr ⟨hn, rfl⟩
      rw [staysPut, hentry] at hstays
      rw [changeOf]
      cases hp : entryOf prev n.id with
      | none =>
          rw [hp] at hstays
          exact absurd hstays nofun
      | some p =>
          obtain ⟨p, j⟩ := p
          obtain ⟨hj, hpid⟩ := (entryOf_eq_some hprev).mp hp
          obtain rfl : e = p :=
            eq_of_id_eq hprev hkept (List.mem_of_getElem? hj) (hid.trans hpid.symm)
          simp only [hp, Bool.and_eq_true, Bool.or_eq_true, decide_eq_true_eq] at hstays
          simp only
          by_cases hsame : e = n
          · rw [if_pos ⟨hsame, hstays.1⟩]
            exact hsame
          · obtain ⟨text, htext⟩ := Option.isSome_iff_exists.mp (hstays.2.resolve_left hsame)
            rw [if_neg fun hboth => hsame hboth.1, if_pos hstays.1, htext]
            exact ⟨hkept, rfl⟩

theorem foldlM_append (hprev : (idsOf prev).Nodup) (hnext : (idsOf next).Nodup)
    (hparts : ∀ p ∈ prev, (p.parts.map MessagePart.id).Nodup)
    {l : List (SessionMessageEntry Other)} (h : Midway prev next next.length l) {i : Nat}
    (hi : i ≤ next.length) :
    ((next.zipIdx.drop i).filterMap (appendAt prev next)).foldlM
        (fun current a => appendToEntry a current) (l.map (reached next i)) =
      .ok (l.map (reached next next.length)) := by
  obtain ⟨k, hk⟩ : ∃ k, i + k = next.length := ⟨next.length - i, by omega⟩
  induction k generalizing i with
  | zero =>
      obtain rfl : i = next.length := hk
      rw [List.drop_eq_nil_of_le (by rw [List.length_zipIdx])]
      rfl
  | succ k ih =>
      have hlt : i < next.length := by omega
      have hn : next[i]? = some next[i] := List.getElem?_eq_getElem hlt
      have hdrop : next.zipIdx.drop i = (next[i], i) :: next.zipIdx.drop (i + 1) := by
        rw [List.drop_eq_getElem_cons (by rwa [List.length_zipIdx]), List.getElem_zipIdx,
          Nat.zero_add]
      have hcontent := fun e he hid => h.content hprev hnext hn (e := e) he hid
      have hrest := ih (i := i + 1) (by omega) (by omega)
      rw [hdrop]
      generalize next[i] = n at hn hcontent ⊢
      -- the next entry's append, where there is one, is what brings the list one place on
      cases hchange : changeOf prev next n i with
      | append text =>
          have hsome : appendAt prev next (n, i) = some text := by rw [appendAt, hchange]
          have hin : n.id ∈ idsOf l := (h.mem n.id).mpr
            ⟨List.mem_map_of_mem (List.mem_of_getElem? hn), Or.inr (by
              rw [List.take_length]
              exact List.mem_map_of_mem (List.mem_of_getElem? hn))⟩
          obtain ⟨e, he, hid⟩ := List.mem_map.mp hin
          have he' := hcontent e he hid
          rw [hchange] at he'
          obtain ⟨hold, htext⟩ := he'
          obtain ⟨hentry, -, hgrown, hsame⟩ := tryTextAppend_spec (hparts e hold) htext
          have hnodup : (idsOf (l.map (reached next i))).Nodup := by
            rw [idsOf_reached hnext]
            exact h.nodup
          have hmem : e ∈ l.map (reached next i) :=
            List.mem_map.mpr ⟨e, he, reached_at hnext hn hid⟩
          rw [List.filterMap_cons_some hsome, List.foldlM_cons,
            appendToEntry_eq hnodup hmem (hid.trans hentry.symm) hgrown hsame, List.map_map]
          have hstep : (l.map ((fun x => if x.id = text.entry then n else x) ∘ reached next i)) =
              l.map (reached next (i + 1)) := by
            refine List.map_congr_left fun x _ => ?_
            rw [Function.comp_apply, reached_id hnext, reached_succ hnext hn, hentry]
          rw [hstep]
          exact hrest
      | same | upsert =>
          have hnone : appendAt prev next (n, i) = none := by rw [appendAt, hchange]
          have hstep : l.map (reached next i) = l.map (reached next (i + 1)) := by
            refine List.map_congr_left fun x hx => ?_
            rw [reached_succ hnext hn]
            split
            · rename_i hid
              have hxn := hcontent x hx hid
              rw [hchange] at hxn
              rw [reached_at hnext hn hid]
              exact hxn
            · rfl
          rw [List.filterMap_cons_none hnone, hstep]
          exact hrest

theorem length_upserts (hnext : (idsOf next).Nodup) :
    (next.zipIdx.filterMap (upsertAt prev next)).length =
      ((idsOf next).filter fun id => !staysPut prev next id).length := by
  have hsent : ∀ e ∈ next.zipIdx, (upsertAt prev next e).isSome =
      ((fun e => !staysPut prev next e.id) ∘ Prod.fst) e := by
    intro e he
    have hchange : changeOf prev next e.1 e.2 = .upsert ↔ staysPut prev next e.1.id = false :=
      changeOf_eq_upsert hnext (List.mem_zipIdx_iff_getElem?.mp he)
    rw [upsertAt, Function.comp_apply]
    cases hstays : staysPut prev next e.1.id with
    | true => rw [if_neg fun h => by rw [hchange.mp h] at hstays; exact absurd hstays nofun]; rfl
    | false => rw [if_pos (hchange.mpr hstays)]; rfl
  rw [List.length_filterMap_eq_countP, List.countP_congr fun e he => by rw [hsent e he],
    ← List.countP_map, List.zipIdx_map_fst, ← List.countP_eq_length_filter, idsOf,
    List.countP_map]
  rfl

omit [DecidableEq Other] in
theorem removed_eq (prev next : List (SessionMessageEntry Other)) :
    (let remove := (prev.filter fun e => !(next.map SessionMessageEntry.id).contains e.id).map
        SessionMessageEntry.id
      if remove = [] then prev else prev.filter fun e => !remove.contains e.id) =
        prev.filter fun e => (idsOf next).contains e.id := by
  have hgone : ∀ e ∈ prev,
      (!((prev.filter fun e => !(idsOf next).contains e.id).map
        SessionMessageEntry.id).contains e.id) = (idsOf next).contains e.id := by
    intro e he
    cases hin : (idsOf next).contains e.id with
    | true =>
        rw [Bool.not_eq_true', ← Bool.not_eq_true, List.contains_iff_mem, List.mem_map]
        rintro ⟨x, hx, hid⟩
        have := (List.mem_filter.mp hx).2
        rw [hid, hin] at this
        exact absurd this nofun
    | false =>
        rw [Bool.not_eq_false', List.contains_iff_mem]
        exact List.mem_map_of_mem (List.mem_filter.mpr ⟨he, by rw [hin]; rfl⟩)
  simp only
  split
  · rename_i hnone
    rw [List.map_eq_nil_iff, List.filter_eq_nil_iff] at hnone
    refine (List.filter_eq_self.mpr fun e he => ?_).symm
    have hin := hnone e he
    rwa [Bool.not_eq_true', Bool.not_eq_false] at hin
  · exact List.filter_congr hgone

theorem Midway.ids_final {l : List (SessionMessageEntry Other)}
    (h : Midway prev next next.length l) (id : String) : id ∈ idsOf l ↔ id ∈ idsOf next := by
  rw [h.mem, List.take_length]
  exact ⟨fun hboth => hboth.1, fun hin => ⟨hin, Or.inr hin⟩⟩

/-- The ids come out in the new order exactly when those that stay are in one order. -/
theorem Midway.ids_eq_iff (hnext : (idsOf next).Nodup) {l : List (SessionMessageEntry Other)}
    (h : Midway prev next next.length l) : idsOf l = idsOf next ↔ OrderKept prev next := by
  have hkept : (idsOf l).filter (staysPut prev next) = (idsOf prev).filter (staysPut prev next) := by
    rw [← idsOf_filter, ← idsOf_filter, h.kept]
  constructor
  · intro heq
    rw [OrderKept, ← hkept, heq]
  · intro horder
    refine eq_of_behind h.nodup hnext h.ids_final (hkept.trans horder) ?_
    intro i x hx hmoves
    rw [idsOf, List.getElem?_map] at hx
    obtain ⟨n, hn, rfl⟩ := Option.map_eq_some_iff.mp hx
    exact (h.behind i (List.getElem?_eq_some_iff.mp hn).1 n hn hmoves).2

omit [DecidableEq Other] in
theorem map_reached_eq_iff (hnext : (idsOf next).Nodup)
    (l : List (SessionMessageEntry Other)) : l.map (reached next next.length) = next ↔ idsOf l = idsOf next := by
  constructor
  · intro heq
    rw [← idsOf_reached hnext next.length l, heq]
  · intro heq
    refine List.ext_getElem? fun i => ?_
    have hplace : (idsOf l)[i]? = (idsOf next)[i]? := by rw [heq]
    rw [idsOf, idsOf, List.getElem?_map, List.getElem?_map] at hplace
    rw [List.getElem?_map]
    cases hn : next[i]? with
    | none =>
        rw [hn, Option.map_none, Option.map_eq_none_iff] at hplace
        rw [hplace]
        rfl
    | some n =>
        rw [hn, Option.map_some] at hplace
        obtain ⟨e, he, hid⟩ := Option.map_eq_some_iff.mp hplace
        have hentry : entryOf next e.id = some (n, i) :=
          (entryOf_eq_some hnext).mpr ⟨hn, hid.symm⟩
        rw [he, Option.map_some, reached, hentry]
        exact congrArg some (if_pos (List.getElem?_eq_some_iff.mp hn).1)

end Apply

/-- A transcript's changes always apply, and give the new transcript exactly when they are sent
as a whole or the entries that stay where they are are in one order in both. -/
theorem delta_reaches_iff (prev next : List (SessionMessageEntry Other))
    (hprev : (idsOf prev).Nodup) (hnext : (idsOf next).Nodup)
    (hparts : ∀ e ∈ prev, (e.parts.map MessagePart.id).Nodup) :
    ∃ result, applyTranscriptFrame prev (diffTranscript prev next) = .ok result ∧
      (result = next ↔ MostChanged prev next ∨ OrderKept prev next) := by
  have hmost : MostChanged prev next ↔
      max next.length 1 ≤ (next.zipIdx.filterMap (upsertAt prev next)).length * 2 ∧
        4 < next.length := by
    rw [MostChanged, length_upserts hnext]
  rw [diffTranscript]
  split
  · rename_i hreset
    exact ⟨next, rfl, iff_of_true rfl (Or.inl (hmost.mpr hreset))⟩
  · rename_i hdelta
    have hstart : Midway prev next 0 (prev.filter fun e => (idsOf next).contains e.id) :=
      Midway.start hprev
    obtain ⟨l, hplaced, hl⟩ := foldlM_place hnext hstart (Nat.zero_le next.length)
    have happended := foldlM_append hprev hnext hparts hl (Nat.zero_le next.length)
    have hfresh : l.map (reached next 0) = l := by
      refine (List.map_congr_left fun e _ => ?_).trans (List.map_id l)
      rw [reached]
      split
      · exact if_neg (Nat.not_lt_zero _)
      · rfl
    have hcount : (l.map (reached next next.length)).length = next.length := by
      have := ((List.perm_ext_iff_of_nodup hl.nodup hnext).mpr hl.ids_final).length_eq
      rwa [idsOf, idsOf, List.length_map, List.length_map, ← List.length_map (reached next _)]
        at this
    refine ⟨l.map (reached next next.length), ?_, ?_⟩
    · have hremoved := removed_eq prev next
      simp only at hremoved
      rw [List.drop_zero] at hplaced happended
      rw [hfresh] at happended
      have hbind : ∀ {β : Type} (a : List (SessionMessageEntry Other))
          (f : List (SessionMessageEntry Other) → Except TranscriptDesync β),
          (Except.ok a >>= f) = f a := fun _ _ => rfl
      simp only [applyTranscriptFrame, hremoved, hplaced, hbind, happended]
      rw [if_neg (not_not.mpr hcount)]
    · rw [map_reached_eq_iff hnext, hl.ids_eq_iff hnext]
      exact ⟨Or.inr, fun h => h.resolve_left fun hreset => hdelta (hmost.mp hreset)⟩

/-- An entry of one text. -/
def saying (id : String) (text : Text) : SessionMessageEntry Empty where
  id := id
  role := .assistant
  parts := [.text "t0" text]
  createdAt := 0
  deviceId := "dev"
  status := none
  durationMs := none

theorem delta_reaches_iff_moved :
    ∃ result, applyTranscriptFrame [saying "a" ['x'], saying "b" []]
        (diffTranscript [saying "a" ['x'], saying "b" []] [saying "b" [], saying "a" ['x', 'y']]) =
          .ok result ∧
      (result = [saying "b" [], saying "a" ['x', 'y']] ↔
        MostChanged [saying "a" ['x'], saying "b" []] [saying "b" [], saying "a" ['x', 'y']] ∨
          OrderKept [saying "a" ['x'], saying "b" []] [saying "b" [], saying "a" ['x', 'y']]) :=
  delta_reaches_iff _ _ (by decide) (by decide) (by decide)

/-- Two halves of a transcript trade places: the frame applies, to another order. -/
theorem halves_traded :
    applyTranscriptFrame [saying "a" [], saying "b" [], saying "c" [], saying "d" []]
        (diffTranscript [saying "a" [], saying "b" [], saying "c" [], saying "d" []]
          [saying "c" [], saying "d" [], saying "a" [], saying "b" []]) =
      .ok [saying "c" [], saying "b" [], saying "d" [], saying "a" []] ∧
    [saying "c" [], saying "b" [], saying "d" [], saying "a" []] ≠
      [saying "c" [], saying "d" [], saying "a" [], saying "b" []] := by
  decide

end Slopty.View
