import Slopty.Thread.Tail

/-!
What a thread's files hold of its log when the process stops. A log is created, appended to,
reset, headed and opened again; every write may be refused part way, the process may stop between
two file operations, and the tail file may then be cut at any byte.
-/

namespace Slopty.Thread

open Slopty.Lib Slopty.Proto.Codec

/-- Every action fits a frame. -/
def encodable (w : Wires) (actions : List Action) : Bool :=
  actions.all fun a => match encode w.action a with
    | .ok _ => true
    | .error _ => false

def Fate.isRefused : Fate → Bool
  | .refused _ => true
  | _ => false

/-- A thread's files, the log open on them, and what was done since the last reset. -/
structure Kept where
  dir : Dir
  /-- None while no process has it open. -/
  log : Option Log
  epoch : Nat
  /-- The state the epoch began with. -/
  base : ThreadState
  /-- The actions appended since, the newest last. -/
  acted : List Action := []
  /-- An append failed since the tail file was started or opened. -/
  behind : Bool := false
  /-- Nothing failed since the log was created or opened. -/
  whole : Bool := true

inductive KeptStep where
  | append (actions : List Action) (wrote : Fate) (fates : CompactFates)
  | reset (state : ThreadState) (fates : CompactFates)
  | writeHead (row : ThreadRow) (wrote renamed : Fate)
  /-- The process stops. -/
  | stop
  /-- What the OS had not written of the tail file is lost with it. -/
  | cut (n : Nat)
  | openDir (limits : Limits) (fates : OpenFates)

namespace Kept

def create (w : Wires) (limits : Limits) (epoch : Nat) (state : ThreadState)
    (fates : CompactFates) : Kept :=
  let made := Log.create w limits epoch state fates
  { dir := made.1
    log := made.2.toOption
    epoch := epoch
    base := state }

/-- A log a function leaves, unless the process stopped in it. -/
def alive (log : Log) (halt : Option Halt) : Option Log :=
  if halt = some .stopped then none else some log

def append (w : Wires) (k : Kept) (log : Log) (actions : List Action) (wrote : Fate)
    (fates : CompactFates) : Kept :=
  let r := log.append w k.dir actions wrote fates
  { k with
    dir := r.2.1
    log := alive r.1 r.2.2
    acted := k.acted ++ reached w actions
    behind := k.behind || !encodable w actions || wrote.isRefused
    whole := k.whole && encodable w actions && r.2.2.isNone }

/-- A reset counts once it has its snapshot in place; one the process stopped in before that
never was. -/
def reset (w : Wires) (k : Kept) (log : Log) (state : ThreadState) (fates : CompactFates) : Kept :=
  let r := log.reset w k.dir state fates
  let placed := (k.dir.writeSnapshot w (log.restarted state).cursor state fates.wroteSnapshot
    fates.renamedSnapshot).2
  if placed = some .stopped then { k with dir := r.2.1, log := none }
  else
    { k with
      dir := r.2.1
      log := alive r.1 r.2.2
      epoch := k.epoch + 1
      base := state
      acted := []
      behind := false
      whole := k.whole && r.2.2.isNone }

def openDir (w : Wires) (k : Kept) (limits : Limits) (fates : OpenFates) : Kept :=
  match Log.openDir w limits k.dir fates with
  | (dir, .error _) => { k with dir := dir }
  | (dir, .ok log) =>
      { k with
        dir := dir
        log := some log
        acted := k.acted.take log.cursor.seq
        behind := false
        whole := true }

def step (w : Wires) (k : Kept) : KeptStep → Kept
  | .append actions wrote fates =>
      match k.log with
      | some log => k.append w log actions wrote fates
      | none => k
  | .reset state fates =>
      match k.log with
      | some log => k.reset w log state fates
      | none => k
  | .writeHead row wrote renamed =>
      match k.log with
      | some log =>
          let r := log.writeHead w k.dir row wrote renamed
          { k with dir := r.1, log := alive log r.2 }
      | none => k
  | .stop => { k with log := none }
  | .cut n =>
      match k.log with
      | some _ => k
      | none => { k with dir := { k.dir with tail := k.dir.tail.map (List.take n) } }
  | .openDir limits fates =>
      match k.log with
      | some _ => k
      | none => k.openDir w limits fates

/-- What opening a directory gives: a state and a cursor, read without writing too, and given
whenever the files obey. -/
def Opens (w : Wires) (dir : Dir) (state : ThreadState) (cursor : Cursor) : Prop :=
  Log.read w dir = some state ∧
    (∀ limits fates dir' log, Log.openDir w limits dir fates = (dir', .ok log) →
      log.state = state ∧ log.cursor = cursor) ∧
    ((∃ frame, encode w.tailHead cursor = .ok frame) → ∀ limits,
      ∃ dir' log, Log.openDir w limits dir {} = (dir', .ok log))

/-- Opening gives the state and the cursor that a first part of the actions since the last reset
reaches, and the log's own when nothing failed; a head that is taken is that state's. -/
structure Recovers (w : Wires) (k : Kept) : Prop where
  firstPart : k.dir.snapshot ≠ none →
    ∃ n ≤ k.acted.length, Opens w k.dir (k.base.applyAll (k.acted.take n)) ⟨k.epoch, n⟩
  held : ∀ log, k.log = some log → k.whole = true → Opens w k.dir log.state log.cursor
  head : ∀ h, Log.head w k.dir = some h →
    ∃ state, Log.read w k.dir = some state ∧ h.state = { state with items := [] }

def snapshotCursor (w : Wires) (k : Kept) : Option Cursor :=
  (k.dir.snapshot.bind w.stored.fromBytes).map Prod.fst

/-- The length of the tail that the head on disk was written over, when it names this tail. -/
def named (w : Wires) (k : Kept) : Option Nat :=
  (k.dir.head.bind w.storedHead.fromBytes).bind fun stored =>
    (k.dir.tailMark w).bind fun mark =>
      if mark.1 = stored.fromCursor then stored.len else none

def continues (w : Wires) (k : Kept) : Bool :=
  decide ((k.dir.tailMark w).map Prod.fst = k.snapshotCursor w)

def TailPlaced (w : Wires) (k : Kept) (fates : CompactFates) : Prop :=
  (∃ frame, encode w.tailHead ⟨k.epoch + 1, 0⟩ = .ok frame) ∧
    fates.tail.wrote = .done ∧ fates.tail.renamed = .done

/-- What keeps the files in step with the log. Nothing is appended after an append that failed,
until the tail is started or opened again; a reset gets its snapshot in place, and its tail too
unless no head is taken; a head is written only over a tail that holds all of the log, or that no
head can name; and the tail is not cut back to what a head names. -/
def InStep (w : Wires) (k : Kept) : KeptStep → Prop
  | .append _ _ _ => k.behind = false
  | .reset _ fates =>
      fates.wroteSnapshot.isRefused = false ∧ fates.renamedSnapshot.isRefused = false ∧
        (fates.wroteSnapshot = .stopped ∨ fates.renamedSnapshot = .stopped ∨
          Log.head w k.dir = none ∨ k.TailPlaced w fates)
  | .writeHead _ _ _ =>
      ∀ log, k.log = some log → log.tailLen = none ∨ log.file ≠ k.dir.tailFile ∨
        k.behind = false ∧ k.snapshotCursor w = some log.tailFrom
  | .cut n => ∀ len, k.named w = some len → len < n ∨ len = n ∧ k.continues w = true
  | _ => True

end Kept

def Cursor.Before (c d : Cursor) : Prop := c.epoch < d.epoch ∨ c.epoch = d.epoch ∧ c.seq < d.seq

theorem Cursor.Before.ne {c d : Cursor} (h : c.Before d) : c ≠ d := by
  rintro rfl
  rcases h with h | h <;> omega

theorem Cursor.Before.trans {c d e : Cursor} (hcd : c.Before d) (hde : d.Before e) : c.Before e := by
  rcases hcd with h | h <;> rcases hde with h' | h'
  · exact Or.inl (h.trans h')
  · exact Or.inl (h'.1 ▸ h)
  · exact Or.inl (h.1 ▸ h')
  · exact Or.inr ⟨h.1.trans h'.1, h.2.trans h'.2⟩

/-- The first frame of a tail that continues from a cursor. -/
def tailHead (w : Wires) (c : Cursor) : Bytes := framed (w.tailHead.toBytes c)

def TailFits (w : Wires) (c : Cursor) : Prop := (w.tailHead.toBytes c).length ≤ maxFrameBytes

namespace Dir

def tailLength (d : Dir) : Nat := (d.tail.getD []).length

theorem readTail_none {w : Wires} {d : Dir} {cursor : Cursor}
    (h : (d.readTail w cursor).2 = none) : (d.readTail w cursor).1 = [] := by
  simp only [readTail] at h ⊢
  split at h
  · rfl
  · split at h
    · split at h
      · simp at h
      · rename_i hne
        rw [if_neg hne]
    · rfl

/-- The tail continues from a cursor, with something behind its head, and may be cut. -/
def TailIs (w : Wires) (d : Dir) (c : Cursor) (body : Bytes) (n : Nat) : Prop :=
  TailFits w c ∧ d.tail = some ((tailHead w c ++ body).take n)

section TailIs

variable {w : Wires} {d : Dir} {c : Cursor} {body : Bytes} {n : Nat}

theorem TailIs.length (h : d.TailIs w c body n) :
    d.tailLength = min n ((tailHead w c).length + body.length) := by
  rw [tailLength, h.2, Option.getD_some, List.length_take, List.length_append]

theorem TailIs.readTail_of_ne (h : d.TailIs w c body n) {snap : Cursor} (hne : c ≠ snap) :
    d.readTail w snap = ([], none) := by
  simp only [readTail, h.2]
  rw [tailHead, tryTake_take h.1]
  split
  · rename_i body' rest heq
    split at heq
    · obtain ⟨rfl, -⟩ := Prod.mk.inj (Option.some.inj (Except.ok.inj heq))
      rw [w.tailHead.from_to, if_neg (fun h => hne (Option.some.inj h))]
    · simp at heq
  · rfl

theorem TailIs.tailMark (h : d.TailIs w c body n) :
    d.tailMark w =
      if (tailHead w c).length ≤ min tailHeadRead n then some (c, d.tailLength) else none := by
  have htake := tryTake_take h.1 body (min tailHeadRead n)
  rw [← tailHead] at htake
  by_cases hn : (tailHead w c).length ≤ min tailHeadRead n
  · rw [if_pos hn] at htake ⊢
    simp only [Dir.tailMark, h.2, Option.bind_some, List.take_take, htake, w.tailHead.from_to,
      Option.map_some, tailLength, Option.getD_some]
  · rw [if_neg hn] at htake ⊢
    simp only [Dir.tailMark, h.2, Option.bind_some, List.take_take, htake]

end TailIs

/-- A tail of actions is read up to where it is cut: not at all inside its head, and else as a
first part of them, every one that is whole. -/
theorem TailIs.readTail {w : Wires} {d : Dir} {c : Cursor} {on : List Action} {n : Nat}
    (h : d.TailIs w c (frames w.action on) n) (hfit : Fit w.action on) :
    n < (tailHead w c).length ∧ d.readTail w c = ([], none) ∨
      (tailHead w c).length ≤ n ∧ ∃ i ≤ on.length, d.readTail w c =
          (sized w.action (on.take i),
            some ((tailHead w c).length + (frames w.action (on.take i)).length)) ∧
        (tailHead w c).length + (frames w.action (on.take i)).length ≤ d.tailLength ∧
        ∀ i' ≤ on.length,
          (tailHead w c).length + (frames w.action (on.take i')).length ≤ n → i' ≤ i := by
  by_cases hn : (tailHead w c).length ≤ n
  · right
    obtain ⟨i, hi, hread, hlen, hall⟩ := takeAll_take w.action hfit (n - (tailHead w c).length)
    have hbytes : ((tailHead w c ++ frames w.action on).take n).length -
        ((frames w.action on).take (n - (tailHead w c).length)).length = (tailHead w c).length := by
      rw [List.length_take, List.length_append, List.length_take]
      omega
    refine ⟨hn, i, hi, ?_, ?_, fun i' hi' hle => hall i' hi' (by omega)⟩
    · have htake : tryTake ((tailHead w c ++ frames w.action on).take n) =
          .ok (some (w.tailHead.toBytes c,
            (frames w.action on).take (n - (tailHead w c).length))) := by
        rw [tailHead, tryTake_take h.1]
        exact if_pos hn
      simp only [Dir.readTail, h.2, htake, w.tailHead.from_to, if_true, hread, sum_sized, hbytes]
    · rw [h.length]
      rw [List.length_take] at hlen
      omega
  · left
    have htake : tryTake ((tailHead w c ++ frames w.action on).take n) = .ok none := by
      rw [tailHead, tryTake_take h.1]
      exact if_neg hn
    refine ⟨not_le.mp hn, ?_⟩
    simp only [Dir.readTail, h.2, htake]

end Dir

theorem Log.replay_spec (log : Log) (read : List (Action × Nat)) :
    (log.replay read).state = log.state.applyAll (read.map Prod.fst) ∧
      (log.replay read).cursor = { log.cursor with seq := log.cursor.seq + read.length } ∧
      (log.replay read).file = log.file ∧ (log.replay read).tailFrom = log.tailFrom ∧
      (log.replay read).tailLen = log.tailLen := by
  induction read generalizing log with
  | nil => exact ⟨rfl, rfl, rfl, rfl, rfl⟩
  | cons r rest ih =>
      obtain ⟨hstate, hcursor, hfile, hfrom, hlen⟩ :=
        ih { (log.act r.1).keep r.1 r.2 with onDisk := log.onDisk + 1 }
      refine ⟨hstate, hcursor.trans ?_, hfile, hfrom, hlen⟩
      simp only [keep, act, List.length_cons, Nat.add_assoc, Nat.add_comm 1]

/-- What opening gives is the snapshot with the actions read after it. -/
theorem Kept.opens_of_readTail {w : Wires} {d : Dir} {snap : Cursor} {state : ThreadState}
    (hsnap : d.snapshot = some (w.stored.toBytes (snap, state))) {actions : List Action}
    (hread : (d.readTail w snap).1.map Prod.fst = actions) :
    Kept.Opens w d (state.applyAll actions) ⟨snap.epoch, snap.seq + actions.length⟩ := by
  have hstored : d.snapshot.bind w.stored.fromBytes = some (snap, state) := by
    rw [hsnap, Option.bind_some, w.stored.from_to]
  have hlength : (d.readTail w snap).1.length = actions.length := by
    rw [← hread, List.length_map]
  refine ⟨?_, ?_, ?_⟩
  · rw [Log.read, hstored, Option.map_some, hread]
  · intro limits fates dir' log hopen
    have hlog : ∃ file len,
        log = (Log.ofSnapshot limits snap state file len).replay (d.readTail w snap).1 := by
      simp only [Log.openDir, hstored] at hopen
      split at hopen
      · split at hopen
        · simp at hopen
        · simp at hopen
        · exact ⟨_, _, (Except.ok.inj (Prod.mk.inj hopen).2).symm⟩
      · split at hopen
        · simp at hopen
        · exact ⟨_, _, (Except.ok.inj (Prod.mk.inj hopen).2).symm⟩
    obtain ⟨file, len, rfl⟩ := hlog
    obtain ⟨hstate, hcursor, -⟩ :=
      Log.replay_spec (Log.ofSnapshot limits snap state file len) (d.readTail w snap).1
    rw [hstate, hcursor, hread, hlength]
    exact ⟨rfl, rfl⟩
  · rintro ⟨frame, hframe⟩ limits
    cases hwhole : (d.readTail w snap).2 with
    | some len =>
        simp only [Log.openDir, hstored, hwhole, Fate.halt]
        exact ⟨_, _, rfl⟩
    | none =>
        have hnone : actions.length = 0 := by
          rw [← hlength, Dir.readTail_none hwhole]
          rfl
        have htail : encode w.tailHead snap = .ok frame := by
          rw [← hframe, hnone]
          rfl
        simp only [Log.openDir, hstored, hwhole, Dir.startTail, htail, Dir.replace, Fate.halt]
        exact ⟨_, _, rfl⟩

end Slopty.Thread
