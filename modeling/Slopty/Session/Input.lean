import Mathlib.Data.List.Induction
import Slopty.Lib.Machine

/-!
Input on its way to the PTY: what is typed, clicked or pasted, and what the
engine answers, written as the tty takes it and acknowledged behind it.
-/

namespace Slopty.Session

open Slopty.Lib

def inputMaxBytes : Nat := 16 * 1024 * 1024

/-- How input came: a viewer typed, clicked or pasted it, with the key number it
carried, or the engine answered a query. -/
inductive Origin where
  | viewer (key : Option Nat)
  | engine
  deriving DecidableEq, Repr

structure Input where
  pending : Bytes := []
  queued : Nat := 0
  written : Nat := 0
  /-- Where each request's bytes end in the stream, and where they came from. -/
  ends : List (Nat × Origin) := []
  deriving DecidableEq, Repr

/-- What one write to the tty did: the bytes it took at most, none when it would
have waited, or an error. -/
inductive TryWrite where
  | took (count : Nat)
  | failed
  deriving DecidableEq, Repr

/-- What became of a byte that was queued. -/
inductive Fate where
  | wrote
  | failed
  | restarted
  deriving DecidableEq, Repr

/-- A request with a key number: the bytes of the stream it is, and the number. -/
structure Asked where
  start : Nat
  stop : Nat
  key : Nat
  deriving DecidableEq, Repr

/-- A session's input. The last four are history variables: every byte queued,
what became of those that left, the bytes the tty was handed, and the requests
that carried a key number. -/
structure Typing where
  input : Input := {}
  writtenSeq : Nat := 0
  ptyClosed : Bool
  exited : Bool
  stream : Bytes := []
  gone : List (UInt8 × Fate) := []
  tty : Bytes := []
  asked : List Asked := []
  deriving DecidableEq, Repr

namespace Typing

/-- A new session's, with the program's end known or not. -/
def start (exited : Bool) : Typing where
  ptyClosed := exited
  exited := exited

/-- The tty takes up to `count` bytes off the front. -/
def took (t : Typing) (count : Nat) : Typing :=
  let bytes := t.input.pending.take count
  { t with
    input := { t.input with
      pending := t.input.pending.drop count
      written := t.input.written + bytes.length }
    gone := t.gone ++ bytes.map fun b => (b, .wrote)
    tty := t.tty ++ bytes }

/-- What still waits is dropped, and the requests with it. -/
def dropped (t : Typing) (fate : Fate) : Typing :=
  { t with
    input := { t.input with
      pending := []
      ends := []
      written := t.input.queued }
    gone := t.gone ++ t.input.pending.map fun b => (b, fate) }

def inputFailed (t : Typing) : Typing := t.dropped .failed

/-- The loop of `write_input`: `false` when a write failed. -/
def writeLoop (t : Typing) : List TryWrite → Typing × Bool
  | [] => (t, true)
  | w :: rest =>
      if t.input.pending = [] then (t, true)
      else
        match w with
        | .failed => (t.inputFailed, false)
        | .took 0 => (t, true)
        | .took (n + 1) => (t.took (n + 1)).writeLoop rest

/-- The requests whose bytes are all written are done with, and the newest key
number among them is acknowledged. -/
def acknowledge (written seq : Nat) : List (Nat × Origin) → List (Nat × Origin) × Nat
  | [] => ([], seq)
  | (stop, origin) :: rest =>
      if written < stop then ((stop, origin) :: rest, seq)
      else
        match origin with
        | .viewer (some key) => acknowledge written (max seq key) rest
        | _ => acknowledge written seq rest

/-- Write as much of the queued input as the tty takes without waiting. -/
def writeInput (t : Typing) (writes : List TryWrite) : Typing :=
  match t.writeLoop writes with
  | (t, false) => t
  | (t, true) =>
      let (ends, seq) := acknowledge t.input.written t.writtenSeq t.input.ends
      { t with input := { t.input with ends := ends }, writtenSeq := seq }

def askedOf (start stop : Nat) : Origin → List Asked
  | .viewer (some key) => [⟨start, stop, key⟩]
  | _ => []

/-- Queue bytes behind whatever is still waiting, unless they would take the
queue past its limit, and write what fits now. -/
def queueInput (t : Typing) (bytes : Bytes) (origin : Origin) (writes : List TryWrite) : Typing :=
  if bytes = [] ∨ t.ptyClosed = true then t
  else if inputMaxBytes < t.input.pending.length + bytes.length then t
  else
    let queued := t.input.queued + bytes.length
    let t : Typing := { t with
      input := { t.input with
        pending := t.input.pending ++ bytes
        queued := queued
        ends := t.input.ends ++ [(queued, origin)] }
      stream := t.stream ++ bytes
      asked := t.asked ++ askedOf t.stream.length (t.stream.length + bytes.length) origin }
    t.writeInput writes

/-- Another program in the place of one that ended, unless its terminal could
not be set up. -/
def restart (t : Typing) (ready : Bool) : Typing :=
  if t.exited = true ∧ ready = true then
    { t.dropped .restarted with exited := false, ptyClosed := false }
  else t

inductive Op where
  | queueInput (bytes : Bytes) (origin : Origin) (writes : List TryWrite)
  /-- The tty may take input again, or the wait for that failed. -/
  | writable (writes : Option (List TryWrite))
  | ptyClosed
  | exited
  | restart (ready : Bool)
  deriving DecidableEq, Repr

def step (t : Typing) : Op → Typing
  | .queueInput bytes origin writes => t.queueInput bytes origin writes
  | .writable writes =>
      if t.input.pending = [] ∨ t.ptyClosed = true then t
      else
        match writes with
        | some writes => t.writeInput writes
        | none => t.inputFailed
  | .ptyClosed => { t with ptyClosed := true }
  | .exited => { t with exited := true }
  | .restart ready => t.restart ready

/-- The bytes of a request that left were all written. -/
def Wrote (gone : List (UInt8 × Fate)) (a : Asked) : Prop :=
  ∀ i, a.start ≤ i → i < a.stop → ∀ b, gone[i]? = some b → b.2 = .wrote

/-- Every byte queued leaves once and in order, the tty is handed the ones that
are written, and the acknowledged key number is that of a request whose bytes
are all written, with nothing queued before them still waiting. -/
structure Accounted (t : Typing) : Prop where
  counted : t.input.written + t.input.pending.length = t.input.queued
  streamed : t.gone.map Prod.fst ++ t.input.pending = t.stream
  length_gone : t.gone.length = t.input.written
  handed : t.tty = (t.gone.filter fun b => b.2 == .wrote).map Prod.fst
  acknowledged : t.writtenSeq = 0 ∨
    ∃ a ∈ t.asked, a.key = t.writtenSeq ∧ a.stop ≤ t.gone.length ∧ Wrote t.gone a

/-- A request still waited for: what left of its bytes was written. -/
structure Inv (t : Typing) : Prop extends Accounted t where
  waiting : ∀ stop key, (stop, Origin.viewer (some key)) ∈ t.input.ends →
    ∃ a ∈ t.asked, a.stop = stop ∧ a.key = key ∧ Wrote t.gone a

variable {t : Typing}

theorem start_inv (exited : Bool) : Inv (start exited) where
  counted := rfl
  streamed := rfl
  length_gone := rfl
  handed := rfl
  acknowledged := .inl rfl
  waiting := nofun

theorem Wrote.append {gone more : List (UInt8 × Fate)} {a : Asked} (h : Wrote gone a)
    (hmore : a.stop ≤ gone.length ∨ ∀ b ∈ more, b.2 = .wrote) : Wrote (gone ++ more) a := by
  intro i hstart hstop b hb
  rw [List.getElem?_append] at hb
  split at hb
  · exact h i hstart hstop b hb
  · rename_i hpast
    rcases hmore with hend | hwrote
    · omega
    · exact hwrote b (List.mem_of_getElem? hb)

theorem map_fst_map (bytes : Bytes) (fate : Fate) :
    (bytes.map fun b => (b, fate)).map Prod.fst = bytes := by
  simp [Function.comp_def]

theorem mem_map_fate {bytes : Bytes} {fate : Fate} :
    ∀ b ∈ bytes.map fun b => (b, fate), b.2 = fate := by
  intro b hb
  obtain ⟨_, _, rfl⟩ := List.mem_map.mp hb
  rfl

theorem Inv.took (h : Inv t) (count : Nat) : Inv (t.took count) where
  counted := by
    have hcounted := h.counted
    simp only [Typing.took, List.length_take, List.length_drop]
    omega
  streamed := by
    simp only [Typing.took]
    rw [List.map_append, map_fst_map, List.append_assoc, List.take_append_drop, h.streamed]
  length_gone := by
    simp only [Typing.took, List.length_append, List.length_map, h.length_gone]
  handed := by
    have hall : ∀ bytes : Bytes, (bytes.map fun b => (b, Fate.wrote)).filter
        (fun b => b.2 == .wrote) = bytes.map fun b => (b, Fate.wrote) := fun bytes =>
      List.filter_eq_self.mpr fun b hb => by simp [mem_map_fate b hb]
    simp only [Typing.took]
    rw [List.filter_append, List.map_append, hall, map_fst_map, ← h.handed]
  acknowledged := by
    refine h.acknowledged.imp_right ?_
    rintro ⟨a, ha, hkey, hstop, hwrote⟩
    refine ⟨a, ha, hkey, ?_, hwrote.append (.inl hstop)⟩
    exact hstop.trans (by simp [Typing.took])
  waiting := by
    intro stop key hmem
    obtain ⟨a, ha, hstop, hkey, hwrote⟩ := h.waiting stop key hmem
    exact ⟨a, ha, hstop, hkey, hwrote.append (.inr mem_map_fate)⟩

/-- What is dropped counts as gone, and nothing waits for it any more. -/
theorem Inv.dropped (h : Inv t) {fate : Fate} (hfate : fate ≠ .wrote) :
    Inv (t.dropped fate) where
  counted := Nat.add_zero _
  streamed := by
    simp only [Typing.dropped]
    rw [List.map_append, map_fst_map, List.append_nil, h.streamed]
  length_gone := by
    have hcounted := h.counted
    simp only [Typing.dropped, List.length_append, List.length_map, h.length_gone, hcounted]
  handed := by
    have hnone : (t.input.pending.map fun b => (b, fate)).filter
        (fun b => b.2 == .wrote) = [] :=
      List.filter_eq_nil_iff.mpr fun b hb => by simp [mem_map_fate b hb, hfate]
    simp only [Typing.dropped]
    rw [List.filter_append, hnone, List.append_nil, ← h.handed]
  acknowledged := by
    refine h.acknowledged.imp_right ?_
    rintro ⟨a, ha, hkey, hstop, hwrote⟩
    refine ⟨a, ha, hkey, ?_, hwrote.append (.inl hstop)⟩
    exact hstop.trans (by simp [Typing.dropped])
  waiting := nofun

theorem Inv.writeLoop (h : Inv t) (writes : List TryWrite) : Inv (t.writeLoop writes).1 := by
  induction writes generalizing t with
  | nil => exact h
  | cons w rest ih =>
      unfold Typing.writeLoop
      split
      · exact h
      · split
        · exact h.dropped nofun
        · exact h
        · exact ih (h.took _)

/-- The requests left are among those there were, and a number that is
acknowledged is of one whose bytes are all written. -/
theorem acknowledge_spec (written seq : Nat) (ends : List (Nat × Origin)) :
    (∀ e ∈ (acknowledge written seq ends).1, e ∈ ends) ∧
      ((acknowledge written seq ends).2 = seq ∨
        ∃ stop, (stop, Origin.viewer (some (acknowledge written seq ends).2)) ∈ ends ∧
          stop ≤ written) := by
  induction ends generalizing seq with
  | nil => exact ⟨fun e h => h, .inl rfl⟩
  | cons head rest ih =>
      obtain ⟨stop, origin⟩ := head
      unfold acknowledge
      split
      · exact ⟨fun e h => h, .inl rfl⟩
      · rename_i hwritten
        split
        · rename_i key
          obtain ⟨hsub, hseq⟩ := ih (max seq key)
          refine ⟨fun e he => List.mem_cons_of_mem _ (hsub e he), ?_⟩
          rcases hseq with hseq | ⟨stop', hmem, hle⟩
          · rcases Nat.le_total key seq with hkey | hkey
            · rw [max_eq_left hkey] at hseq
              rw [max_eq_left hkey]
              exact .inl hseq
            · rw [max_eq_right hkey] at hseq
              refine .inr ⟨stop, ?_, Nat.not_lt.mp hwritten⟩
              rw [max_eq_right hkey, hseq]
              exact List.mem_cons_self
          · exact .inr ⟨stop', List.mem_cons_of_mem _ hmem, hle⟩
        · obtain ⟨hsub, hseq⟩ := ih seq
          refine ⟨fun e he => List.mem_cons_of_mem _ (hsub e he), hseq.imp_right ?_⟩
          rintro ⟨stop', hmem, hle⟩
          exact ⟨stop', List.mem_cons_of_mem _ hmem, hle⟩

theorem Inv.writeInput (h : Inv t) (writes : List TryWrite) : Inv (t.writeInput writes) := by
  have hloop := h.writeLoop writes
  unfold Typing.writeInput
  split
  · rename_i t' heq
    rwa [heq] at hloop
  · rename_i t' heq
    rw [heq] at hloop
    have hloop : Inv t' := hloop
    obtain ⟨hsub, hseq⟩ := acknowledge_spec t'.input.written t'.writtenSeq t'.input.ends
    refine
      { counted := hloop.counted
        streamed := hloop.streamed
        length_gone := hloop.length_gone
        handed := hloop.handed
        acknowledged := ?_
        waiting := fun stop key hmem => hloop.waiting stop key (hsub _ hmem) }
    rcases hseq with hsame | ⟨stop, hmem, hle⟩
    · dsimp only
      rw [hsame]
      exact hloop.acknowledged
    · obtain ⟨a, ha, rfl, hkey, hwrote⟩ := hloop.waiting stop _ hmem
      exact .inr ⟨a, ha, hkey, hle.trans_eq hloop.length_gone.symm, hwrote⟩

theorem Inv.queueInput (h : Inv t) (bytes : Bytes) (origin : Origin) (writes : List TryWrite) :
    Inv (t.queueInput bytes origin writes) := by
  unfold Typing.queueInput
  split
  · exact h
  · split
    · exact h
    · apply Inv.writeInput
      have hqueued : t.input.queued = t.stream.length := by
        rw [← h.counted, ← h.streamed, List.length_append, List.length_map, h.length_gone]
      have hbefore : t.gone.length ≤ t.stream.length := by
        rw [← h.streamed, List.length_append, List.length_map]
        exact Nat.le_add_right _ _
      refine
        { counted := ?_
          streamed := ?_
          length_gone := h.length_gone
          handed := h.handed
          acknowledged := ?_
          waiting := ?_ }
      · have hcounted := h.counted
        simp only [List.length_append]
        omega
      · dsimp only
        rw [← List.append_assoc, h.streamed]
      · refine h.acknowledged.imp_right ?_
        rintro ⟨a, ha, hrest⟩
        exact ⟨a, List.mem_append_left _ ha, hrest⟩
      · intro stop key hmem
        rcases List.mem_append.mp hmem with hold | hnew
        · obtain ⟨a, ha, hrest⟩ := h.waiting stop key hold
          exact ⟨a, List.mem_append_left _ ha, hrest⟩
        · obtain ⟨rfl, horigin⟩ := Prod.mk.inj (List.mem_singleton.mp hnew)
          subst horigin
          refine ⟨⟨t.stream.length, t.stream.length + bytes.length, key⟩, ?_, ?_, rfl, ?_⟩
          · exact List.mem_append_right _ List.mem_cons_self
          · exact (congrArg (· + bytes.length) hqueued).symm
          · intro i hstart _ b hb
            have hi := (List.getElem?_eq_some_iff.mp hb).1
            have hstart : t.stream.length ≤ i := hstart
            have hi : i < t.gone.length := hi
            omega

theorem Inv.step (h : Inv t) (op : Op) : Inv (t.step op) := by
  cases op with
  | queueInput bytes origin writes => exact h.queueInput bytes origin writes
  | writable writes =>
      unfold Typing.step
      dsimp only
      split
      · exact h
      · split
        · exact h.writeInput _
        · exact h.dropped nofun
  | ptyClosed => exact { h with }
  | exited => exact { h with }
  | restart ready =>
      unfold Typing.step Typing.restart
      dsimp only
      split
      · have hdropped : Inv (t.dropped .restarted) := h.dropped nofun
        exact { hdropped with }
      · exact h

theorem run_inv (exited : Bool) (ops : List Op) : Inv (ops.foldl step (start exited)) := by
  induction ops using List.reverseRecOn with
  | nil => exact start_inv exited
  | append_singleton ops op ih =>
      rw [List.foldl_append]
      exact ih.step op

/-- Along every run of input queued, written in parts, failed and started over,
what is queued is accounted for to the byte and acknowledged only behind it. -/
theorem input_accounted (exited : Bool) (ops : List Op) :
    Accounted (ops.foldl step (start exited)) :=
  (run_inv exited ops).toAccounted

/-- A restart drops what the program that ended never took, and the next key is
acknowledged over it. -/
theorem acknowledged_past_restart :
    ¬ ∀ (exited : Bool) (ops : List Op), (ops.foldl step (start exited)).writtenSeq ≠ 0 →
      ∃ a ∈ (ops.foldl step (start exited)).asked,
        a.key = (ops.foldl step (start exited)).writtenSeq ∧
        a.stop ≤ (ops.foldl step (start exited)).gone.length ∧
        ∀ b ∈ (ops.foldl step (start exited)).gone.take a.stop, b.2 = .wrote ∨ b.2 = .failed := by
  intro hclaim
  have hacked := hclaim false
    [.queueInput [97] (.viewer (some 1)) [.took 0], .exited, .restart true,
      .queueInput [98] (.viewer (some 2)) [.took 1]] (by decide)
  exact absurd hacked (by decide)

end Typing

end Slopty.Session
