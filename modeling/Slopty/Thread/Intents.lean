import Slopty.Lib.Recent
import Slopty.Thread.Follow

/-!
The intents a thread was asked, by id, and how each went: a client resends what it never heard
back on under the same id, and the repeat gets the first outcome without being acted on again. The
last `kept` ids are held, and are on disk in a file of records that is written anew when it has
grown to twice that.
-/

namespace Slopty.Thread

open Slopty.Lib Slopty.Proto.Codec

abbrev IntentId := Nat

/-- A repository's setup in a worktree: the file it was read from and its last lines of output. -/
structure Setup where
  fromFile : String
  tail : List String
  deriving DecidableEq, Countable

inductive Outcome where
  | done
  | started (thread : Nat)
  | refused (reason : String)
  | setupFailed (setup : Setup) (code : Option Int)
  deriving DecidableEq, Countable

abbrev Record := IntentId × Outcome

namespace Intents

def kept : Nat := 512

end Intents

/-- The file of records; `file` tells the one now at its path from those it replaced. -/
structure IntentFile where
  bytes : Bytes := []
  file : Nat := 0

/-- Append to the file held open; one that was replaced takes the bytes with it. -/
def IntentFile.write (f : IntentFile) (file : Nat) (bytes : Bytes) : IntentFile :=
  if file = f.file then { f with bytes := f.bytes ++ bytes } else f

structure Intents where
  order : List IntentId := []
  outcomes : OrdMap IntentId Outcome := OrdMap.empty
  /-- The file held open. -/
  file : Nat
  onDisk : Nat := 0

/-- Whether the OS obeys each step of writing the file anew. -/
structure RewriteFates where
  wrote : Bool := true
  renamed : Bool := true
  opened : Bool := true

structure RecordFates where
  /-- The record is refused after so many bytes. -/
  refused : Option Nat := none
  rewrite : RewriteFates := {}

namespace Intents

/-- The loop of `remember`: the oldest ids go until `kept` are left. -/
def trimOrder : List IntentId → OrdMap IntentId Outcome → List IntentId × OrdMap IntentId Outcome
  | [], outcomes => ([], outcomes)
  | id :: rest, outcomes =>
      if kept < rest.length + 1 then trimOrder rest (outcomes.erase id) else (id :: rest, outcomes)

def remember (s : Intents) (record : Record) : Intents :=
  let order := match s.outcomes.get? record.1 with
    | none => s.order ++ [record.1]
    | some _ => s.order
  let trimmed := trimOrder order (s.outcomes.insert record.1 record.2)
  { s with order := trimmed.1, outcomes := trimmed.2 }

def outcome (s : Intents) (id : IntentId) : Option Outcome := s.outcomes.get? id

/-- The frames of the records remembered, unless one cannot be encoded. -/
def body (wire : Postcard Record) (s : Intents) : List IntentId → Except CodecError Bytes
  | [] => .ok []
  | id :: rest =>
      match s.outcomes.get? id with
      | none => s.body wire rest
      | some outcome =>
          match encode wire (id, outcome), s.body wire rest with
          | .error e, _ => .error e
          | .ok _, .error e => .error e
          | .ok frame, .ok frames => .ok (frame ++ frames)

/-- Write the file anew with what is remembered, and hold it open. The flag says that all of it
was done. -/
def rewrite (wire : Postcard Record) (s : Intents) (f : IntentFile) (fates : RewriteFates) :
    Intents × IntentFile × Bool :=
  match s.body wire s.order with
  | .error _ => (s, f, false)
  | .ok bytes =>
      if fates.wrote && fates.renamed then
        let f : IntentFile := { bytes := bytes, file := f.file + 1 }
        if fates.opened then ({ s with file := f.file, onDisk := s.order.length }, f, true)
        else (s, f, false)
      else (s, f, false)

/-- The intents recorded in the file: every record up to the first that is torn or does not
decode. What is left then makes the file be written anew. -/
def openFile (wire : Postcard Record) (f : IntentFile) (opened : Bool) (fates : RewriteFates) :
    IntentFile × Option Intents :=
  if opened then
    let read := takeAll wire f.bytes.length f.bytes
    let s : Intents := read.1.foldl
      (fun s r => { s.remember r.1 with onDisk := s.onDisk + 1 }) { file := f.file }
    if read.2.isEmpty then (f, some s)
    else
      match s.rewrite wire f fates with
      | (s, f, true) => (f, some s)
      | (_, f, false) => (f, none)
  else (f, none)

/-- Record how an intent went. It is remembered even when it cannot be written. -/
def record (wire : Postcard Record) (s : Intents) (f : IntentFile) (r : Record)
    (fates : RecordFates) : Intents × IntentFile :=
  match encode wire r with
  | .error _ => (s, f)
  | .ok frame =>
      let s := s.remember r
      match fates.refused with
      | some n => (s, f.write s.file (frame.take n))
      | none =>
          let f := f.write s.file frame
          let s := { s with onDisk := s.onDisk + 1 }
          if kept * 2 ≤ s.onDisk then
            let r := s.rewrite wire f fates.rewrite
            (r.1, r.2.1)
          else (s, f)

end Intents

def Own.of (state : ThreadState) (seated : List (String × String)) : Own :=
  { seat := state.threadMeta.facts.get? seatFact
    seated := seated
    parent := state.threadMeta.parent }

structure Hosted where
  log : Log
  own : Own
  intents : Intents

/-- One thread of the host, its files and what was asked of it. -/
structure Asked where
  dir : Dir
  file : IntentFile := {}
  hosted : Option Hosted := none
  /-- Its files are there to be opened. -/
  cold : Bool := true
  /-- Every intent acted on and how it went, the newest last. -/
  ran : List Record := []
  /-- A record did not get into the file whole since the file was last written anew. -/
  missed : Bool := false

inductive AskStep where
  | intent (id : IntentId) (act : ThreadState → Outcome × List Action) (wrote : Fate)
      (compact : CompactFates) (fates : RecordFates)
  | apply (actions : List Action) (wrote : Fate) (compact : CompactFates)
  /-- The thread's files are read, as its first use after a start does. -/
  | load (limits : Limits) (seated : List (String × String)) (log : OpenFates) (opened : Bool)
      (rewrite : RewriteFates)
  /-- The worker is restarted, or the thread leaves its memory at rest. -/
  | restart

/-- The host's `apply`. The worker goes on whatever comes of the log's write. -/
def Hosted.apply (w : Wires) (h : Hosted) (dir : Dir) (actions : List Action) (wrote : Fate)
    (compact : CompactFates) : Hosted × Dir :=
  let marked := h.own.mark actions
  let r := h.log.append w dir marked.2 wrote compact
  ({ h with own := marked.1, log := r.1 }, r.2.1)

namespace Asked

/-- Whether the record of an intent is in the file now, with every one before it that was. -/
def misses (wire : Postcard Record) (m : Asked) (h : Hosted) (r : Record) (fates : RecordFates) :
    Bool :=
  let missed := m.missed || fates.refused.isSome || decide (h.intents.file ≠ m.file.file)
  let rewritten := (h.intents.record wire m.file r fates).2.file ≠ m.file.file
  missed && !rewritten

/-- Act on an intent once: a repeat of the id gets the outcome back and acts on nothing. `none`
for a thread not held. -/
def intent (w : Wires) (wire : Postcard Record) (m : Asked) (id : IntentId)
    (act : ThreadState → Outcome × List Action) (wrote : Fate) (compact : CompactFates)
    (fates : RecordFates) : Asked × Option Outcome :=
  match m.hosted with
  | none => (m, none)
  | some h =>
      match h.intents.outcome id with
      | some outcome => (m, some outcome)
      | none =>
          let acted := act h.log.state
          let applied := if acted.2.isEmpty then (h, m.dir) else h.apply w m.dir acted.2 wrote compact
          let recorded := h.intents.record wire m.file (id, acted.1) fates
          ({ m with
              dir := applied.2
              file := recorded.2
              hosted := some { applied.1 with intents := recorded.1 }
              ran := m.ran ++ [(id, acted.1)]
              missed := m.misses wire h (id, acted.1) fates }, some acted.1)

/-- Open a cold thread. One whose files do not open is no longer held. -/
def load (w : Wires) (wire : Postcard Record) (m : Asked) (limits : Limits)
    (seated : List (String × String)) (log : OpenFates) (opened : Bool) (rewrite : RewriteFates) :
    Asked :=
  if m.hosted.isNone && m.cold then
    match Log.openDir w limits m.dir log with
    | (dir, .error _) => { m with dir := dir, cold := false }
    | (dir, .ok log) =>
        match Intents.openFile wire m.file opened rewrite with
        | (file, none) => { m with dir := dir, file := file, cold := false }
        | (file, some intents) =>
            { m with
              dir := dir
              file := file
              hosted := some { log := log, own := Own.of log.state seated, intents := intents }
              cold := false }
  else m

def step (w : Wires) (wire : Postcard Record) (m : Asked) : AskStep → Asked
  | .intent id act wrote compact fates => (m.intent w wire id act wrote compact fates).1
  | .apply actions wrote compact =>
      match m.hosted with
      | none => m
      | some h =>
          let applied := h.apply w m.dir actions wrote compact
          { m with hosted := some applied.1, dir := applied.2 }
  | .load limits seated log opened rewrite => m.load w wire limits seated log opened rewrite
  | .restart => { m with hosted := none, cold := true }

/-- An intent that fewer than `kept` others were acted on after was not acted on again, and is
answered with how it went, with nothing done. -/
def ActsOnce (w : Wires) (wire : Postcard Record) (m : Asked) : Prop :=
  ∀ before id outcome after, m.ran = before ++ (id, outcome) :: after →
    (((after.map Prod.fst).filter (· ≠ id)).dedup).length < Intents.kept →
    id ∉ after.map Prod.fst ∧
      (m.hosted ≠ none → ∀ act wrote compact fates,
        m.intent w wire id act wrote compact fates = (m, some outcome))

/-- Every intent acted on has a record that fits a frame, and the thread is only loaded from a file
that has every record. -/
def Recorded (wire : Postcard Record) (m : Asked) : AskStep → Prop
  | .intent id act _ _ _ => ∀ h, m.hosted = some h → h.intents.outcome id = none →
      (wire.toBytes (id, (act h.log.state).1)).length ≤ maxFrameBytes
  | .load _ _ _ _ _ => m.hosted = none → m.cold = true → m.missed = false
  | _ => True

end Asked

namespace Intents

variable {wire : Postcard Record} {s : Intents} {ran : List Record}

/-- What is remembered is the last `kept` of what was acted on. -/
structure Holds (s : Intents) (ran : List Record) : Prop where
  order : s.order = (recent kept ran).map Prod.fst
  outcomes : ∀ id outcome, s.outcomes.get? id = some outcome ↔ (id, outcome) ∈ recent kept ran

theorem trimOrder_of_le {order : List IntentId} (h : order.length ≤ kept)
    (outcomes : OrdMap IntentId Outcome) : trimOrder order outcomes = (order, outcomes) := by
  cases order with
  | nil => rfl
  | cons id rest =>
      rw [List.length_cons] at h
      rw [trimOrder, if_neg (not_lt.mpr h)]

theorem trimOrder_cons {order : List IntentId} (h : order.length = kept) (id : IntentId)
    (outcomes : OrdMap IntentId Outcome) :
    trimOrder (id :: order) outcomes = (order, outcomes.erase id) := by
  rw [trimOrder, if_pos (by omega), trimOrder_of_le h.le]

theorem Holds.fresh (h : s.Holds ran) {id : IntentId} (hnone : s.outcomes.get? id = none) :
    id ∉ recent kept (ran.map Prod.fst) := by
  rw [recent_map]
  intro hmem
  obtain ⟨⟨id', outcome⟩, hr, rfl⟩ := List.mem_map.mp hmem
  rw [(h.outcomes id' outcome).mpr hr] at hnone
  cases hnone

theorem remember_fresh (s : Intents) (r : Record) (hnone : s.outcomes.get? r.1 = none) :
    (s.remember r).order = (trimOrder (s.order ++ [r.1]) (s.outcomes.insert r.1 r.2)).1 ∧
      (s.remember r).outcomes = (trimOrder (s.order ++ [r.1]) (s.outcomes.insert r.1 r.2)).2 := by
  simp only [remember, hnone, and_self]

theorem Holds.remember (h : s.Holds ran) (hspaced : Spaced kept (ran.map Prod.fst)) {r : Record}
    (hnone : s.outcomes.get? r.1 = none) : (s.remember r).Holds (ran ++ [r]) := by
  obtain ⟨horder, houtcomes⟩ := remember_fresh s r hnone
  have hinsert : ∀ id outcome, (s.outcomes.insert r.1 r.2).get? id = some outcome ↔
      (id, outcome) ∈ recent kept ran ++ [r] := by
    intro id outcome
    rw [OrdMap.get?_insert, List.mem_append, List.mem_singleton, ← h.outcomes]
    by_cases hid : r.1 = id
    · subst hid
      rw [if_pos rfl, hnone]
      simp [Prod.ext_iff, eq_comm]
    · rw [if_neg hid]
      constructor
      · exact Or.inl
      · rintro (hmem | rfl)
        · exact hmem
        · exact absurd rfl hid
  have hpos : 0 < kept := by decide
  have hlength := length_recent kept ran
  rw [h.order] at horder houtcomes
  by_cases hlt : ran.length < kept
  · have hshort : ((recent kept ran).map Prod.fst ++ [r.1]).length ≤ kept := by
      rw [List.length_append, List.length_map, List.length_singleton]
      omega
    rw [trimOrder_of_le hshort] at horder houtcomes
    have hrecent : recent kept (ran ++ [r]) = recent kept ran ++ [r] := by
      rw [recent_concat hpos, if_pos hlt]
    refine ⟨?_, fun id outcome => ?_⟩
    · rw [horder, hrecent, List.map_append]
      rfl
    · rw [houtcomes, hrecent]
      exact hinsert id outcome
  · -- the oldest goes, and no other has its id
    have hnodup := hspaced.nodup_recent
    rw [recent_map] at hnodup
    have hrecent : recent kept (ran ++ [r]) = (recent kept ran).tail ++ [r] := by
      rw [recent_concat hpos, if_neg hlt]
    have hnot := h.fresh hnone
    rw [recent_map] at hnot
    cases hcons : recent kept ran with
    | nil =>
        rw [hcons, List.length_nil] at hlength
        omega
    | cons x rest =>
        rw [hcons] at horder houtcomes hinsert hnodup hlength hnot hrecent
        rw [List.tail_cons] at hrecent
        rw [List.length_cons] at hlength
        rw [List.map_cons, List.nodup_cons] at hnodup
        rw [List.map_cons, List.mem_cons, not_or] at hnot
        have hfull : (rest.map Prod.fst ++ [r.1]).length = kept := by
          rw [List.length_append, List.length_map, List.length_singleton]
          omega
        rw [List.map_cons, List.cons_append, trimOrder_cons hfull] at horder houtcomes
        refine ⟨?_, fun id outcome => ?_⟩
        · rw [horder, hrecent, List.map_append]
          rfl
        · rw [houtcomes, OrdMap.get?_erase, hrecent]
          have hx : ∀ p ∈ rest ++ [r], p.1 ≠ x.1 := by
            intro p hp heq
            rcases List.mem_append.mp hp with hp | hp
            · exact hnodup.1 (heq ▸ List.mem_map_of_mem hp)
            · rw [List.mem_singleton.mp hp] at heq
              exact hnot.1 heq
          split
          · rename_i heq
            constructor
            · intro hno
              cases hno
            · intro hmem
              exact absurd heq (hx _ hmem)
          · rename_i hne
            rw [hinsert, List.cons_append, List.mem_cons]
            constructor
            · rintro (rfl | hmem)
              · exact absurd rfl hne
              · exact hmem
            · exact Or.inr

theorem holds_foldl {l : List Record} (hspaced : Spaced kept (l.map Prod.fst)) (file : Nat) :
    ((sized wire l).foldl (fun s r => { s.remember r.1 with onDisk := s.onDisk + 1 })
      ({ file := file } : Intents)).Holds l := by
  induction l using List.reverseRecOn with
  | nil => exact ⟨rfl, fun id outcome => by simp [sized, recent]⟩
  | append_singleton l r ih =>
      have hbefore : Spaced kept (l.map Prod.fst) := by
        have htake := hspaced.take l.length
        rw [← List.map_take, List.take_left' rfl] at htake
        exact htake
      have hheld := ih hbefore
      rw [sized, List.map_append, List.foldl_append, ← sized]
      generalize (sized wire l).foldl _ _ = s at hheld
      have hnone : s.outcomes.get? r.1 = none := by
        -- an id that is held comes again within `kept` places
        rw [Option.eq_none_iff_forall_ne_some]
        intro outcome hsome
        rw [hheld.outcomes, recent, List.mem_drop_iff_getElem] at hsome
        obtain ⟨i, hi, heq⟩ := hsome
        have hi' : l.length - kept + i < l.length := by omega
        refine hspaced (l.length - kept + i) l.length hi' (by omega) r.1 ?_ ?_
        · rw [List.getElem?_map, List.getElem?_append_left hi', List.getElem?_eq_getElem hi', heq]
          rfl
        · rw [List.getElem?_map, List.getElem?_append_right (le_refl _), Nat.sub_self]
          rfl
      have hr := hheld.remember hbefore hnone
      show ({ s.remember r with onDisk := s.onDisk + 1 } : Intents).Holds (l ++ [r])
      exact ⟨hr.order, hr.outcomes⟩

theorem body_eq {l : List Record} (hfit : Fit wire l)
    (hget : ∀ r ∈ l, s.outcomes.get? r.1 = some r.2) :
    s.body wire (l.map Prod.fst) = .ok (frames wire l) := by
  induction l with
  | nil => rfl
  | cons r rest ih =>
      have hr : encode wire r = .ok (framed (wire.toBytes r)) := by
        rw [encode]
        exact if_neg (not_lt.mpr (hfit r List.mem_cons_self))
      have hrest := ih (fun x hx => hfit x (List.mem_cons_of_mem _ hx))
        (fun x hx => hget x (List.mem_cons_of_mem _ hx))
      simp only [List.map_cons, body, hget r List.mem_cons_self, hr, hrest, frames_cons]

/-- Written anew, the file has what is remembered; and nothing is forgotten over it. -/
theorem Holds.rewrite (h : s.Holds ran) (hfit : Fit wire ran) (f : IntentFile)
    (fates : RewriteFates) :
    (s.rewrite wire f fates).1.Holds ran ∧
      ((s.rewrite wire f fates).2.1 = f ∨
        (s.rewrite wire f fates).2.1 = { bytes := frames wire (recent kept ran), file := f.file + 1 }) := by
  have hbody : s.body wire s.order = .ok (frames wire (recent kept ran)) := by
    rw [h.order]
    apply body_eq
    · exact fun r hr => hfit r (List.mem_of_mem_drop hr)
    · exact fun r hr => (h.outcomes r.1 r.2).mpr hr
  simp only [Intents.rewrite, hbody]
  split
  · split
    · exact ⟨⟨h.order, h.outcomes⟩, Or.inr rfl⟩
    · exact ⟨h, Or.inr rfl⟩
  · exact ⟨h, Or.inl rfl⟩

/-- A record is remembered whatever comes of its write. The file is written anew with it, or has
what was written of it behind what it had. -/
theorem Holds.record (h : s.Holds ran) (hspaced : Spaced kept (ran.map Prod.fst)) {r : Record}
    (hnone : s.outcomes.get? r.1 = none) (hfit : Fit wire (ran ++ [r])) (f : IntentFile)
    (fates : RecordFates) :
    (s.record wire f r fates).1.Holds (ran ++ [r]) ∧
      ((s.record wire f r fates).2.file = f.file ∧
          (fates.refused = none → s.file = f.file →
            (s.record wire f r fates).2.bytes = f.bytes ++ framed (wire.toBytes r)) ∨
        (s.record wire f r fates).2.file = f.file + 1 ∧
          (s.record wire f r fates).2.bytes = frames wire (recent kept (ran ++ [r]))) := by
  have hcode : encode wire r = .ok (framed (wire.toBytes r)) := by
    rw [encode]
    exact if_neg (not_lt.mpr (hfit r (List.mem_append_right _ List.mem_cons_self)))
  have hheld := h.remember hspaced hnone
  have hfile : (s.remember r).file = s.file := rfl
  have hwrite : ∀ bytes, (f.write (s.remember r).file bytes).file = f.file := by
    intro bytes
    rw [IntentFile.write]
    split <;> rfl
  have hwhole : s.file = f.file → (f.write (s.remember r).file (framed (wire.toBytes r))).bytes =
      f.bytes ++ framed (wire.toBytes r) := by
    intro heq
    rw [IntentFile.write, hfile, if_pos heq]
  simp only [Intents.record, hcode]
  cases fates.refused with
  | some n => exact ⟨hheld, Or.inl ⟨hwrite _, fun hno => by cases hno⟩⟩
  | none =>
      have hheld' : ({ s.remember r with onDisk := (s.remember r).onDisk + 1 } : Intents).Holds
          (ran ++ [r]) := ⟨hheld.order, hheld.outcomes⟩
      dsimp only
      split
      · obtain ⟨hnew, hsame | hput⟩ := hheld'.rewrite hfit
          (f.write (s.remember r).file (framed (wire.toBytes r))) fates.rewrite
        · refine ⟨hnew, Or.inl ?_⟩
          rw [hsame]
          exact ⟨hwrite _, fun _ => hwhole⟩
        · refine ⟨hnew, Or.inr ?_⟩
          simp only [hput, hwrite, and_self]
      · exact ⟨hheld', Or.inl ⟨hwrite _, fun _ => hwhole⟩⟩

/-- Every record of a whole file is read, and nothing is left of it. -/
theorem openFile_frames {l : List Record} (hspaced : Spaced kept (l.map Prod.fst))
    (hfit : Fit wire l) {f : IntentFile} (hbytes : f.bytes = frames wire l) (opened : Bool)
    (fates : RewriteFates) :
    (openFile wire f opened fates).1 = f ∧
      ∀ s, (openFile wire f opened fates).2 = some s → s.Holds l := by
  have hread : takeAll wire f.bytes.length f.bytes = (sized wire l, []) := by
    have hlen : f.bytes.length = l.length + (f.bytes.length - l.length) := by
      have hge := length_frames_ge wire l
      rw [hbytes]
      omega
    have hnil : ∀ fuel, takeAll wire fuel [] = ([], []) := by
      intro fuel
      cases fuel with
      | zero => rfl
      | succ fuel => rfl
    have hall := takeAll_frames wire hfit [] (f.bytes.length - l.length)
    rw [← hlen, List.append_nil, hnil, List.append_nil] at hall
    rw [hbytes] at hall ⊢
    exact hall
  rw [openFile, hread]
  cases opened with
  | false => exact ⟨rfl, fun s hs => (nomatch hs)⟩
  | true =>
      refine ⟨rfl, fun s hs => ?_⟩
      cases hs
      exact holds_foldl hspaced f.file

end Intents

namespace Asked

variable {w : Wires} {wire : Postcard Record} {m : Asked}

/-- What is remembered and what is on disk are the last of what was acted on. -/
structure Inv (wire : Postcard Record) (m : Asked) : Prop where
  spaced : Spaced Intents.kept (m.ran.map Prod.fst)
  fit : Fit wire m.ran
  disk : m.missed = false →
    ∃ n ≤ m.ran.length - Intents.kept, m.file.bytes = frames wire (m.ran.drop n)
  held : ∀ h, m.hosted = some h → h.intents.Holds m.ran

theorem Inv.actsOnce (hm : m.Inv wire) : m.ActsOnce w wire := by
  intro before id outcome after hran hfew
  have hspaced := hm.spaced
  rw [hran, List.map_append, List.map_cons] at hspaced
  obtain ⟨hlen, hnot⟩ := hspaced.after hfew
  refine ⟨hnot, fun hheld act wrote compact fates => ?_⟩
  obtain ⟨h, hh⟩ := Option.ne_none_iff_exists'.mp hheld
  rw [List.length_map] at hlen
  have hget : h.intents.outcome id = some outcome := by
    rw [Intents.outcome, (hm.held h hh).outcomes, hran]
    exact mem_recent_of_after hlen
  simp only [intent, hh, hget]

theorem Inv.intent (hm : m.Inv wire) {id : IntentId} {act : ThreadState → Outcome × List Action}
    {wrote : Fate} {compact : CompactFates} {fates : RecordFates}
    (hc : m.Recorded wire (.intent id act wrote compact fates)) :
    (m.intent w wire id act wrote compact fates).1.Inv wire := by
  cases hhosted : m.hosted with
  | none =>
      simp only [Asked.intent, hhosted]
      exact hm
  | some h =>
      cases hknown : h.intents.outcome id with
      | some outcome =>
          simp only [Asked.intent, hhosted, hknown]
          exact hm
      | none =>
          simp only [Asked.intent, hhosted, hknown]
          have hheld := hm.held h hhosted
          have hfit : Fit wire (m.ran ++ [(id, (act h.log.state).1)]) := by
            intro r hr
            rcases List.mem_append.mp hr with hr | hr
            · exact hm.fit r hr
            · rw [List.mem_singleton.mp hr]
              exact hc h hhosted hknown
          obtain ⟨hnew, hfile⟩ :=
            hheld.record (r := (id, (act h.log.state).1)) hm.spaced hknown hfit m.file fates
          refine ⟨?_, hfit, fun hmissed => ?_, fun h' hh' => ?_⟩
          · show Spaced Intents.kept ((m.ran ++ [(id, (act h.log.state).1)]).map Prod.fst)
            rw [List.map_append]
            exact hm.spaced.concat (hheld.fresh hknown)
          · show ∃ n ≤ (m.ran ++ [(id, (act h.log.state).1)]).length - Intents.kept, _
            rw [List.length_append, List.length_singleton]
            rcases hfile with ⟨hsame, hput⟩ | ⟨hnext, hput⟩
            · -- the file was not written anew, so the record went in behind the others
              simp only [misses, hsame, ne_eq, not_true_eq_false, decide_false, Bool.not_false,
                Bool.and_true, Bool.or_eq_false_iff, Option.isSome_eq_false_iff,
                Option.isNone_iff_eq_none, decide_eq_false_iff_not, not_not] at hmissed
              obtain ⟨⟨hmissed, hrefused⟩, hopen⟩ := hmissed
              obtain ⟨n, hn, hbytes⟩ := hm.disk hmissed
              refine ⟨n, by omega, ?_⟩
              rw [hput hrefused hopen, hbytes, List.drop_append_of_le_length (by omega),
                frames_append]
              simp [frames]
            · exact ⟨_, le_refl _, by rw [hput, recent, List.length_append]; rfl⟩
          · cases hh'
            exact hnew

theorem Inv.load (hm : m.Inv wire) {limits : Limits} {seated : List (String × String)}
    {log : OpenFates} {opened : Bool} {rewrite : RewriteFates}
    (hc : m.Recorded wire (.load limits seated log opened rewrite)) :
    (m.load w wire limits seated log opened rewrite).Inv wire := by
  rw [Asked.load]
  split
  · rename_i hcold
    rw [Bool.and_eq_true, Option.isNone_iff_eq_none] at hcold
    obtain ⟨n, hn, hbytes⟩ := hm.disk (hc hcold.1 hcold.2)
    have hspaced : Spaced Intents.kept ((m.ran.drop n).map Prod.fst) := by
      rw [List.map_drop]
      exact hm.spaced.drop n
    have hfit : Fit wire (m.ran.drop n) := fun r hr => hm.fit r (List.mem_of_mem_drop hr)
    obtain ⟨hfile, hopen⟩ := Intents.openFile_frames hspaced hfit hbytes opened rewrite
    have hnone : ∀ h, m.hosted = some h → h.intents.Holds m.ran := hm.held
    split
    · exact ⟨hm.spaced, hm.fit, hm.disk, hnone⟩
    · generalize Intents.openFile wire m.file opened rewrite = got at hfile hopen
      obtain ⟨file, made⟩ := got
      obtain rfl : file = m.file := hfile
      cases made with
      | none => exact ⟨hm.spaced, hm.fit, hm.disk, hnone⟩
      | some s =>
          refine ⟨hm.spaced, hm.fit, hm.disk, fun h hh => ?_⟩
          cases hh
          have hheld := hopen s rfl
          refine ⟨?_, ?_⟩
          · rw [hheld.order, recent_drop hn]
          · rw [← recent_drop hn]
            exact hheld.outcomes
  · exact hm

theorem Inv.step (hm : m.Inv wire) {st : AskStep} (hc : m.Recorded wire st) :
    (m.step w wire st).Inv wire := by
  cases st with
  | intent id act wrote compact fates => exact hm.intent hc
  | load limits seated log opened rewrite => exact hm.load hc
  | restart => exact ⟨hm.spaced, hm.fit, hm.disk, fun h hh => (nomatch hh)⟩
  | apply actions wrote compact =>
      cases hhosted : m.hosted with
      | none =>
          simp only [Asked.step, hhosted]
          exact hm
      | some h =>
          simp only [Asked.step, hhosted]
          refine ⟨hm.spaced, hm.fit, hm.disk, fun h' hh' => ?_⟩
          cases hh'
          exact hm.held h hhosted

/-- Through every intent, restart and load, with the OS refusing what it will, an intent that fewer
than `kept` others came after is answered as it was and not acted on again, as long as every
record fits a frame and no thread is loaded from a file that lacks one. -/
theorem intents_act_once (w : Wires) (wire : Postcard Record) (dir : Dir) (steps : List AskStep)
    (h : EachStep (step w wire) (Recorded wire) { dir := dir } steps) :
    (steps.foldl (step w wire) { dir := dir }).ActsOnce w wire := by
  have hstart : Inv wire { dir := dir } :=
    ⟨Spaced.nil, fun r hr => absurd hr List.not_mem_nil, fun _ => ⟨0, Nat.zero_le _, rfl⟩,
      fun h hh => (nomatch hh)⟩
  exact (EachStep.foldl (fun _ _ hm hc => Inv.step hm hc) h hstart).actsOnce

open Followed (shortWires)

noncomputable def twoRecords : Postcard Record :=
  Postcard.ofShort [(1, .done), (2, .done)] (by decide)

theorem encode_twoRecords : encode twoRecords (1, .done) = .ok (framed []) ∧
    encode twoRecords (2, .done) = .ok (framed [0]) := by
  constructor
  · exact encode_ofShort_of_mem (by decide) (by decide)
  · exact encode_ofShort_of_mem (by decide) (by decide)

theorem encode_shortHead : encode shortWires.tailHead ⟨7, 0⟩ = .ok (framed []) :=
  encode_ofShort_of_mem (by decide) (by decide)

noncomputable def newDir : Dir :=
  { snapshot := some (shortWires.stored.toBytes (⟨7, 0⟩, { threadMeta := { id := 1 } }))
    tail := some (framed [])
    tailFile := 1 }

theorem openDir_newDir : ∃ log, Log.openDir shortWires {} newDir {} = (newDir, .ok log) := by
  have hbody : shortWires.tailHead.toBytes ⟨7, 0⟩ = [] := by
    have h := (encode_eq_ok encode_shortHead).1
    simpa [framed] using congrArg List.length h
  have hread : newDir.readTail shortWires ⟨7, 0⟩ = ([], some (framed []).length) := by
    have htake : tryTake (framed []) = .ok (some ([], [])) := by decide
    have hfrom := shortWires.tailHead.from_to ⟨7, 0⟩
    rw [hbody] at hfrom
    simp only [Dir.readTail, newDir, htake, hfrom, if_true]
    rfl
  have hstored : newDir.snapshot.bind shortWires.stored.fromBytes =
      some (⟨7, 0⟩, { threadMeta := { id := 1 } }) := shortWires.stored.from_to _
  have htail : newDir.tail.map (List.take (framed []).length) = newDir.tail := by
    rw [newDir, Option.map_some, List.take_length]
  simp only [Log.openDir, hstored, hread, Fate.halt, htail]
  exact ⟨_, rfl⟩

/-- An intent is acted on, the worker is restarted, and its record is read back. -/
theorem intents_act_once_restarted :
    ([.load {} [] {} true {}, .intent 1 (fun _ => (.done, [])) .done {} {}, .restart,
      .load {} [] {} true {}].foldl (step shortWires twoRecords) { dir := newDir }).ActsOnce
        shortWires twoRecords := by
  obtain ⟨log, hopen⟩ := openDir_newDir
  obtain ⟨hone, -⟩ := encode_twoRecords
  apply intents_act_once
  refine ⟨fun _ _ => rfl, ?_, trivial, ?_, trivial⟩
  · intro h hh _
    exact (encode_eq_ok hone).2
  · intro _ _
    simp [step, load, hopen, Intents.openFile, intent, Intents.outcome, takeAll, misses]

/-- A record is torn after two bytes and the next one is written behind it: at the next start
neither is read, and the second intent is acted on again. -/
theorem torn_record_hides_the_next :
    ¬ ∀ (w : Wires) (wire : Postcard Record) (dir : Dir) (steps : List AskStep),
      (steps.foldl (step w wire) { dir := dir }).ActsOnce w wire := by
  intro hall
  obtain ⟨log, hopen⟩ := openDir_newDir
  obtain ⟨hone, htwo⟩ := encode_twoRecords
  have htorn : takeAll twoRecords ((framed []).take 2 ++ framed [0]).length
      ((framed []).take 2 ++ framed [0]) = ([], (framed []).take 2 ++ framed [0]) := by
    have htake : tryTake ((framed []).take 2 ++ framed [0]) = .ok none := by decide
    rw [show ((framed []).take 2 ++ framed [0]).length = 6 + 1 by decide, takeAll, htake]
  have honce := hall shortWires twoRecords newDir
    ([.load {} [] {} true {}, .intent 1 (fun _ => (.done, [])) .done {} { refused := some 2 },
      .intent 2 (fun _ => (.done, [])) .done {} {}] ++ [.restart, .load {} [] {} true {}])
  rw [List.foldl_append] at honce
  generalize hasked : List.foldl (step shortWires twoRecords) { dir := newDir } _ = asked at honce
  have hbefore : asked.dir = newDir ∧ asked.ran = [(1, .done), (2, .done)] ∧
      asked.file = { bytes := (framed []).take 2 ++ framed [0], file := 0 } := by
    rw [← hasked]
    simp [step, load, hopen, Intents.openFile, intent, Intents.outcome, takeAll, Intents.record,
      hone, htwo, Intents.remember, Intents.trimOrder, Intents.kept, IntentFile.write,
      OrdMap.get?_insert]
  obtain ⟨hdir, hran, hfile⟩ := hbefore
  have hread : Intents.openFile twoRecords asked.file true {} =
      ({ bytes := [], file := 1 }, some { file := 1 }) := by
    rw [hfile, Intents.openFile, if_pos rfl, htorn]
    rfl
  have hloaded : ∃ m : Asked, ∃ h, List.foldl (step shortWires twoRecords) asked
      [.restart, .load {} [] {} true {}] = m ∧ m.ran = asked.ran ∧ m.hosted = some h ∧
        h.intents.outcome 2 = none := by
    simp [step, load, hdir, hopen, hread, Intents.outcome]
  obtain ⟨m, h, hm, hsame, hhosted, hnone⟩ := hloaded
  rw [hm] at honce
  have hagain := (honce [(1, .done)] 2 .done [] (hsame.trans hran) (by decide)).2 (by rw [hhosted]; simp)
    (fun _ => (.done, [])) .done {} {}
  have hmore := congrArg (fun r => r.1.ran.length) hagain
  simp [intent, hhosted, hnone] at hmore

end Asked

end Slopty.Thread
