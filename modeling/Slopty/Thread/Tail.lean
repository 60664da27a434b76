import Slopty.Thread.Log
import Slopty.Lib.Run

/-!
What a log's tail lets a follower catch up with. The log is followed through every append and
reset, with the cursors it stood at, the states it held there and the actions of its epoch.
-/

namespace Slopty.Thread

open Slopty.Lib Slopty.Proto.Codec

/-- The actions of an append that reach the state: all of them, or up to the first that cannot
be encoded. -/
def reached (w : Wires) : List Action → List Action
  | [] => []
  | a :: rest =>
      match encode w.action a with
      | .error _ => [a]
      | .ok _ => a :: reached w rest

/-- The cursors a run of actions brings a log to, and its states there. -/
def trail (cursor : Cursor) (state : ThreadState) : List Action → List (Cursor × ThreadState)
  | [] => []
  | a :: rest =>
      let cursor := { cursor with seq := cursor.seq + 1 }
      (cursor, state.apply a) :: trail cursor (state.apply a) rest

/-- A log, and what those who follow it may hold. -/
structure Followed where
  log : Log
  dir : Dir
  /-- Every cursor the log stood at, and the state it held there. -/
  stood : List (Cursor × ThreadState)
  /-- The actions of this epoch, the newest last. -/
  acted : List Action

inductive LogStep where
  | append (actions : List Action) (wrote : Fate) (fates : CompactFates)
  | reset (state : ThreadState) (fates : CompactFates)

namespace Followed

/-- A log as its files give it: the snapshot, and the actions its tail holds. -/
def opened (limits : Limits) (cursor : Cursor) (state : ThreadState) (read : List (Action × Nat))
    (len : Nat) (dir : Dir) : Followed :=
  { log := (Log.ofSnapshot limits cursor state dir.tailFile len).replay read
    dir := dir
    stood := (cursor, state) :: trail cursor state (read.map Prod.fst)
    acted := read.map Prod.fst }

def step (w : Wires) (m : Followed) : LogStep → Followed
  | .append actions wrote fates =>
      let r := m.log.append w m.dir actions wrote fates
      { log := r.1
        dir := r.2.1
        stood := m.stood ++ trail m.log.cursor m.log.state (reached w actions)
        acted := m.acted ++ reached w actions }
  | .reset state fates =>
      let r := m.log.reset w m.dir state fates
      { log := r.1
        dir := r.2.1
        stood := m.stood ++ [(r.1.cursor, state)]
        acted := [] }

/-- The tail is the newest actions of the epoch, and whoever holds the state at a cursor the log
stood at is given the actions from there to the present state, or a snapshot of it. -/
def CatchesUp (m : Followed) : Prop :=
  m.log.tail.length ≤ m.acted.length ∧
    m.log.tail.map Prod.fst = m.acted.drop (m.acted.length - m.log.tail.length) ∧
    ∀ cursor state, (cursor, state) ∈ m.stood → ∀ turns,
      m.log.since (some cursor) turns = .snapshot m.log.cursor (m.log.state.window turns) ∨
        ∃ actions, m.log.since (some cursor) turns = .actions cursor actions ∧
          cursor.seq + actions.length = m.log.cursor.seq ∧
          actions = m.acted.drop (m.acted.length - actions.length) ∧
          state.applyAll actions = m.log.state

end Followed

/-- No action is reached that cannot be encoded while the tail holds any. -/
def Log.Numbered (w : Wires) (log : Log) : List Action → Prop
  | [] => True
  | a :: rest =>
      match encode w.action a with
      | .error _ => log.tail = []
      | .ok frame => ((log.act a).keep a frame.length).Numbered w rest

def LogStep.Numbered (w : Wires) (m : Followed) : LogStep → Prop
  | .append actions _ _ => m.log.Numbered w actions
  | .reset _ _ => True

theorem trimTail_suffix (limits : Limits) (tail : List (Action × Nat)) (bytes : Nat) :
    (trimTail limits tail bytes).1 <:+ tail := by
  induction tail generalizing bytes with
  | nil => exact List.suffix_refl _
  | cons r rest ih =>
      obtain ⟨a, n⟩ := r
      simp only [trimTail]
      split
      · exact (ih _).trans (List.suffix_cons _ _)
      · exact List.suffix_refl _

namespace Log

def Ends (log : Log) (acted : List Action) : Prop := log.tail.map Prod.fst <:+ acted

theorem ends_keep {log : Log} {acted : List Action} (h : log.Ends acted) (a : Action)
    (bytes : Nat) : ((log.act a).keep a bytes).Ends (acted ++ [a]) := by
  have hkept : ((log.act a).keep a bytes).tail <:+ log.tail ++ [(a, bytes)] :=
    trimTail_suffix _ _ _
  have hmap := hkept.map Prod.fst
  rw [List.map_append] at hmap
  obtain ⟨before, hbefore⟩ := h
  refine hmap.trans ⟨before, ?_⟩
  rw [← hbefore, List.append_assoc]
  rfl

theorem take_spec (w : Wires) (log : Log) (frames : Bytes) (turnEnded : Bool)
    (actions : List Action) :
    (log.take w frames turnEnded actions).1.state = log.state.applyAll (reached w actions) ∧
      (log.take w frames turnEnded actions).1.cursor =
        { log.cursor with seq := log.cursor.seq + (reached w actions).length } := by
  induction actions generalizing log frames turnEnded with
  | nil => exact ⟨rfl, rfl⟩
  | cons a rest ih =>
      simp only [take, reached]
      cases encode w.action a with
      | error e => exact ⟨rfl, rfl⟩
      | ok frame =>
          obtain ⟨hstate, hcursor⟩ :=
            ih ((log.act a).keep a frame.length) (frames ++ frame) (turnEnded || a.isTurnEnded)
          refine ⟨hstate, hcursor.trans ?_⟩
          simp only [act, keep, List.length_cons, Nat.add_assoc, Nat.add_comm 1]

theorem ends_take {w : Wires} {log : Log} {acted actions : List Action} (h : log.Ends acted)
    (hn : log.Numbered w actions) (frames : Bytes) (turnEnded : Bool) :
    (log.take w frames turnEnded actions).1.Ends (acted ++ reached w actions) := by
  induction actions generalizing log acted frames turnEnded with
  | nil => simpa only [take, reached, List.append_nil] using h
  | cons a rest ih =>
      simp only [Numbered] at hn
      simp only [take, reached]
      cases hcode : encode w.action a with
      | error e =>
          simp only [hcode] at hn
          rw [Ends, act, hn]
          exact List.nil_suffix
      | ok frame =>
          simp only [hcode] at hn
          have hrest := ih (ends_keep h a frame.length) hn (frames ++ frame)
            (turnEnded || a.isTurnEnded)
          rwa [List.append_assoc] at hrest

theorem compact_spec (w : Wires) (log : Log) (dir : Dir) (fates : CompactFates) :
    (log.compact w dir fates).1.state = log.state ∧
      (log.compact w dir fates).1.cursor = log.cursor ∧
      (log.compact w dir fates).1.tail = log.tail := by
  simp only [compact]
  split
  · exact ⟨rfl, rfl, rfl⟩
  · split <;> exact ⟨rfl, rfl, rfl⟩

/-- An append leaves the state, the cursor and the tail as its loop does, whatever comes of the
files. -/
theorem append_spec (w : Wires) (log : Log) (dir : Dir) (actions : List Action) (wrote : Fate)
    (fates : CompactFates) :
    (log.append w dir actions wrote fates).1.state = (log.take w [] false actions).1.state ∧
      (log.append w dir actions wrote fates).1.cursor = (log.take w [] false actions).1.cursor ∧
      (log.append w dir actions wrote fates).1.tail = (log.take w [] false actions).1.tail := by
  simp only [append]
  generalize log.take w [] false actions = taken
  obtain ⟨log', frames⟩ := taken
  cases frames with
  | none => exact ⟨rfl, rfl, rfl⟩
  | some r =>
      cases wrote with
      | stopped => exact ⟨rfl, rfl, rfl⟩
      | refused n => exact ⟨rfl, rfl, rfl⟩
      | done =>
          dsimp only
          split
          · exact compact_spec w _ _ fates
          · exact ⟨rfl, rfl, rfl⟩

end Log

theorem mem_trail {cursor c : Cursor} {state s : ThreadState} {actions : List Action}
    (h : (c, s) ∈ trail cursor state actions) :
    ∃ k ≤ actions.length, c = { cursor with seq := cursor.seq + k } ∧
      s = state.applyAll (actions.take k) := by
  induction actions generalizing cursor state with
  | nil => simp [trail] at h
  | cons a rest ih =>
      simp only [trail] at h
      rcases List.mem_cons.mp h with heq | hmem
      · obtain ⟨rfl, rfl⟩ := Prod.mk.inj heq
        exact ⟨1, by simp, rfl, rfl⟩
      · obtain ⟨k, hk, hc, hs⟩ := ih hmem
        refine ⟨k + 1, by simpa using hk, hc.trans ?_, hs⟩
        simp only [Nat.add_assoc, Nat.add_comm 1]

namespace Followed

/-- The log's epoch from a number and a state on: its actions, the end of them in the tail, and
the cursors stood at, each with the state its actions give. -/
structure Told (m : Followed) (start : Nat) (base : ThreadState) : Prop where
  seq : m.log.cursor.seq = start + m.acted.length
  state : m.log.state = base.applyAll m.acted
  tail : m.log.Ends m.acted
  stood : ∀ c s, (c, s) ∈ m.stood → c.epoch < m.log.cursor.epoch ∨
    c.epoch = m.log.cursor.epoch ∧ ∃ k ≤ m.acted.length,
      c.seq = start + k ∧ s = base.applyAll (m.acted.take k)

theorem Told.more {m : Followed} {start : Nat} {base : ThreadState} (hm : m.Told start base)
    (log : Log) (actions : List Action) (hstate : log.state = m.log.state.applyAll actions)
    (hcursor : log.cursor = { m.log.cursor with seq := m.log.cursor.seq + actions.length })
    (htail : log.Ends (m.acted ++ actions)) (dir : Dir) :
    Told ⟨log, dir, m.stood ++ trail m.log.cursor m.log.state actions, m.acted ++ actions⟩
      start base where
  seq := by
    have hseq := hm.seq
    simp only [hcursor, List.length_append]
    omega
  state := by
    simp only [hstate, hm.state]
    exact (ThreadState.applyAll_append _ _ _).symm
  tail := htail
  stood := by
    intro c s hmem
    simp only [hcursor]
    rcases List.mem_append.mp hmem with hold | hnew
    · refine (hm.stood c s hold).imp id ?_
      rintro ⟨hepoch, k, hk, hseq, hs⟩
      refine ⟨hepoch, k, ?_, hseq, ?_⟩
      · rw [List.length_append]
        omega
      · rw [hs, List.take_append_of_le_length hk]
    · obtain ⟨k, hk, hc, hs⟩ := mem_trail hnew
      have hseq := hm.seq
      refine Or.inr ⟨by rw [hc], m.acted.length + k, ?_, ?_, ?_⟩
      · rw [List.length_append]
        omega
      · rw [hc]
        simp only
        omega
      · rw [hs, hm.state, List.take_length_add_append, ThreadState.applyAll_append]

theorem Told.append {m : Followed} {start : Nat} {base : ThreadState} (hm : m.Told start base)
    {w : Wires} {actions : List Action} (hn : m.log.Numbered w actions) (wrote : Fate)
    (fates : CompactFates) : (m.step w (.append actions wrote fates)).Told start base := by
  obtain ⟨hstate, hcursor, htail⟩ := Log.append_spec w m.log m.dir actions wrote fates
  obtain ⟨htake, hseq⟩ := Log.take_spec w m.log [] false actions
  refine hm.more _ _ (hstate.trans htake) (hcursor.trans hseq) ?_ _
  rw [Log.Ends, htail]
  exact Log.ends_take hm.tail hn [] false

theorem Told.reset {m : Followed} {start : Nat} {base : ThreadState} (hm : m.Told start base)
    (w : Wires) (state : ThreadState) (fates : CompactFates) :
    (m.step w (.reset state fates)).Told 0 state := by
  obtain ⟨hstate, hcursor, htail⟩ := Log.compact_spec w (m.log.restarted state) m.dir fates
  refine ⟨by simp only [step, Log.reset, hcursor]; rfl, hstate, ?_, ?_⟩
  · rw [Log.Ends]
    simp only [step, Log.reset, htail]
    exact List.nil_suffix
  · intro c s hmem
    simp only [step, Log.reset, hcursor] at hmem ⊢
    rcases List.mem_append.mp hmem with hold | hnew
    · left
      have hle : c.epoch ≤ m.log.cursor.epoch :=
        (hm.stood c s hold).elim le_of_lt fun h => h.1.le
      exact Nat.lt_succ_of_le hle
    · obtain ⟨rfl, rfl⟩ := Prod.mk.inj (List.mem_singleton.mp hnew)
      exact Or.inr ⟨rfl, 0, le_refl _, rfl, rfl⟩

theorem Told.step {m : Followed} {start : Nat} {base : ThreadState} (hm : m.Told start base)
    (w : Wires) {st : LogStep} (hst : st.Numbered w m) :
    ∃ start' base', (m.step w st).Told start' base' := by
  cases st with
  | append actions wrote fates => exact ⟨start, base, hm.append hst wrote fates⟩
  | reset state fates => exact ⟨0, state, hm.reset w state fates⟩

theorem told_replay {m : Followed} {start : Nat} {base : ThreadState} (hm : m.Told start base)
    (read : List (Action × Nat)) :
    Told ⟨m.log.replay read, m.dir,
      m.stood ++ trail m.log.cursor m.log.state (read.map Prod.fst),
      m.acted ++ read.map Prod.fst⟩ start base := by
  induction read generalizing m with
  | nil => simpa [Log.replay, trail] using hm
  | cons r rest ih =>
      have hone := hm.more { (m.log.act r.1).keep r.1 r.2 with onDisk := m.log.onDisk + 1 } [r.1]
        rfl rfl (Log.ends_keep hm.tail r.1 r.2) m.dir
      have hall := ih hone
      simp only [List.append_assoc] at hall
      exact hall

theorem told_opened (limits : Limits) (cursor : Cursor) (state : ThreadState)
    (read : List (Action × Nat)) (len : Nat) (dir : Dir) :
    (opened limits cursor state read len dir).Told cursor.seq state := by
  have hstart : Told ⟨Log.ofSnapshot limits cursor state dir.tailFile len, dir,
      [(cursor, state)], []⟩ cursor.seq state :=
    { seq := rfl
      state := rfl
      tail := List.nil_suffix
      stood := by
        intro c s hmem
        obtain ⟨rfl, rfl⟩ := Prod.mk.inj (List.mem_singleton.mp hmem)
        exact Or.inr ⟨rfl, 0, le_refl _, rfl, rfl⟩ }
  exact told_replay hstart read

theorem Told.catchesUp {m : Followed} {start : Nat} {base : ThreadState}
    (hm : m.Told start base) : m.CatchesUp := by
  have hlen : m.log.tail.length ≤ m.acted.length := by
    simpa using hm.tail.length_le
  have htail : m.log.tail.map Prod.fst = m.acted.drop (m.acted.length - m.log.tail.length) := by
    have h := List.suffix_iff_eq_drop.mp hm.tail
    rwa [List.length_map] at h
  refine ⟨hlen, htail, ?_⟩
  intro c s hmem turns
  simp only [Log.since]
  split
  · rename_i hin
    obtain ⟨hepoch, hfirst, hle⟩ := hin
    rcases hm.stood c s hmem with hlt | ⟨-, k, hk, hseq, hs⟩
    · exact absurd hepoch (ne_of_lt hlt)
    have hnumber := hm.seq
    -- the tail from the follower's number on is the epoch's actions after its first `k`
    have hactions : (m.log.tail.drop (c.seq - (m.log.cursor.seq - m.log.tail.length))).map Prod.fst =
        m.acted.drop k := by
      rw [List.map_drop, htail, List.drop_drop]
      congr 1
      omega
    refine Or.inr ⟨_, rfl, ?_, ?_, ?_⟩
    · rw [hactions, List.length_drop]
      omega
    · rw [hactions, List.length_drop]
      congr 1
      omega
    · rw [hactions, hs, ← ThreadState.applyAll_append, List.take_append_drop, hm.state]
  · exact Or.inl rfl

/-- Through every append and reset, refused writes and compactions among them, a follower of
the log can be caught up from any cursor it stood at, as long as no action that cannot be encoded
is met by a tail that holds any. -/
theorem since_catches_up (w : Wires) (limits : Limits) (cursor : Cursor) (state : ThreadState)
    (read : List (Action × Nat)) (len : Nat) (dir : Dir) (steps : List LogStep)
    (h : EachStep (step w) (fun m st => st.Numbered w m)
      (opened limits cursor state read len dir) steps) :
    (steps.foldl (step w) (opened limits cursor state read len dir)).CatchesUp := by
  have htold : ∃ start base,
      (steps.foldl (step w) (opened limits cursor state read len dir)).Told start base :=
    EachStep.foldl (P := fun m => ∃ start base, m.Told start base)
      (fun m st ⟨start, base, hm⟩ hst => hm.step w hst) h
      ⟨_, _, told_opened limits cursor state read len dir⟩
  obtain ⟨start, base, hm⟩ := htold
  exact hm.catchesUp

def longItem : Action :=
  .itemCompleted ⟨"a", 1, 0, .text
    { text := List.replicate (maxFrameBytes + 1) 'a', lines := 1, chars := maxFrameBytes + 1 }⟩

/-- Wires on which a short action fits a frame and `longItem` does not. -/
noncomputable def shortWires : Wires where
  action := Postcard.ofShort [.seen 1] (by decide)
  stored := Postcard.ofShort [] (Nat.zero_le _)
  tailHead := Postcard.ofShort [⟨7, 0⟩] (by decide)
  storedHead := Postcard.ofShort [] (Nat.zero_le _)

theorem encode_seen : encode shortWires.action (.seen 1) = .ok (framed []) :=
  encode_ofShort_of_mem (by decide) List.mem_cons_self

theorem encode_longItem : ∃ e, encode shortWires.action longItem = .error e :=
  encode_ofShort_of_notMem (by decide) (by simp [longItem])

/-- An action too large to encode is met by an empty tail, and a write is refused after two
bytes: the log still catches its followers up. -/
theorem since_catches_up_refused :
    ([.append [longItem] .done {}, .append [.seen 1] (.refused 2) {}].foldl (step shortWires)
      (opened {} ⟨7, 0⟩ { threadMeta := { id := 1 } } [] 0 {})).CatchesUp := by
  obtain ⟨e, hlong⟩ := encode_longItem
  apply since_catches_up
  refine ⟨?_, ?_, trivial⟩
  · simp only [LogStep.Numbered, Log.Numbered, hlong]
    rfl
  · simp only [LogStep.Numbered, Log.Numbered, encode_seen]

/-- An action is kept, then one too large to encode is applied and numbered without being kept:
the tail is one behind its number. -/
theorem tail_one_behind :
    ¬ ∀ (w : Wires) (limits : Limits) (cursor : Cursor) (state : ThreadState)
      (read : List (Action × Nat)) (len : Nat) (dir : Dir) (steps : List LogStep),
      (steps.foldl (step w) (opened limits cursor state read len dir)).CatchesUp := by
  intro hall
  obtain ⟨e, hlong⟩ := encode_longItem
  obtain ⟨-, htail, -⟩ := hall shortWires {} ⟨7, 0⟩ { threadMeta := { id := 1 } } [] 0 {}
    [.append [.seen 1] .done {}, .append [longItem] .done {}]
  simp [step, Log.append, Log.take, reached, encode_seen, hlong, opened, Log.replay,
    Log.ofSnapshot, Log.keep, Log.act, trimTail, Action.isTurnEnded, framed, prefixBytes] at htail
  exact absurd htail (by simp [longItem])

end Followed

end Slopty.Thread
