import Slopty.Thread.Reopen

/-!
A log no write of which failed: its files hold all of it, so opening them gives the state and the
cursor it stood at, whatever build or run of the worker wrote what they began with.
-/

namespace Slopty.Thread

open Slopty.Lib Slopty.Proto.Codec

/-- A tail file that continues from a cursor reads to its end as these actions. -/
structure TailReads (w : Wires) (c : Cursor) (bytes : Bytes) (read : List (Action × Nat)) :
    Prop where
  split : ∃ head front body, bytes = head ++ front ∧
    (∀ more, tryTake (head ++ more) = .ok (some (body, more))) ∧
    w.tailHead.fromBytes body = some c ∧ front.length = (read.map Prod.snd).sum ∧
    read.length ≤ front.length ∧
    ∀ more fuel, takeAll w.action (read.length + fuel) (front ++ more) =
      (read ++ (takeAll w.action fuel more).1, (takeAll w.action fuel more).2)

namespace TailReads

variable {w : Wires} {c : Cursor} {bytes : Bytes} {read : List (Action × Nat)}

theorem takeAll_nil (w : Wires) (fuel : Nat) : takeAll w.action fuel [] = ([], []) := by
  cases fuel with
  | zero => rfl
  | succ fuel => simp [takeAll, tryTake, prefixBytes]

theorem readTail (h : TailReads w c bytes read) {d : Dir} (hd : d.tail = some bytes) :
    d.readTail w c = (read, some bytes.length) := by
  obtain ⟨head, front, body, rfl, htake, hbody, hlen, hle, hall⟩ := h.split
  obtain ⟨extra, hextra⟩ := Nat.exists_eq_add_of_le hle
  have hread : takeAll w.action front.length front = (read, []) := by
    have hfront := hall [] extra
    rw [List.append_nil, ← hextra] at hfront
    rw [hfront, takeAll_nil, List.append_nil]
  simp only [Dir.readTail, hd, htake, hbody, if_true, hread]
  rw [List.length_append, Nat.add_sub_cancel, hlen]

theorem of_framed {c : Cursor} {frame : Bytes} (h : encode w.tailHead c = .ok frame) :
    TailReads w c frame [] := by
  obtain ⟨rfl, hfit⟩ := encode_eq_ok h
  refine ⟨framed (w.tailHead.toBytes c), [], w.tailHead.toBytes c, (List.append_nil _).symm,
    fun more => tryTake_framed hfit more, w.tailHead.from_to c, rfl, le_refl _, fun more fuel => ?_⟩
  rw [List.length_nil, Nat.zero_add]
  rfl

theorem append (h : TailReads w c bytes read) {actions : List Action} (hfit : Fit w.action actions) :
    TailReads w c (bytes ++ frames w.action actions) (read ++ sized w.action actions) := by
  obtain ⟨head, front, body, rfl, htake, hbody, hlen, hle, hall⟩ := h.split
  have hsized : (sized w.action actions).length = actions.length := List.length_map ..
  refine ⟨head, front ++ frames w.action actions, body, List.append_assoc .., htake, hbody, ?_, ?_,
    fun more fuel => ?_⟩
  · rw [List.length_append, List.map_append, List.sum_append, sum_sized, hlen]
  · rw [List.length_append, List.length_append, hsized]
    exact Nat.add_le_add hle (length_frames_ge w.action actions)
  · rw [List.length_append, hsized, Nat.add_assoc, List.append_assoc, hall,
      takeAll_frames w.action hfit, List.append_assoc]

theorem of_readTail {d : Dir} {len : Nat} (h : d.readTail w c = (read, some len)) {bytes : Bytes}
    (hd : d.tail = some bytes) : TailReads w c (bytes.take len) read := by
  simp only [Dir.readTail, hd] at h
  split at h
  · rename_i body rest htake
    split at h
    · rename_i hbody
      obtain ⟨hread, hlen⟩ := Prod.mk.inj h
      obtain ⟨head, hbytes, -, hagain⟩ := tryTake_split htake
      obtain ⟨front, left, hrest, hfront, hle, hall⟩ := takeAll_split w.action rest.length rest
      rw [hread] at hfront hle hall
      have hcut : bytes.take len = head ++ front := by
        have hwhole : len = (head ++ front).length := by
          rw [← Option.some.inj hlen, hread, ← hfront, hbytes, List.length_append,
            List.length_append]
          omega
        rw [hwhole, hbytes, hrest, ← List.append_assoc, List.take_left' rfl]
      exact ⟨head, front, body, hcut, hagain, hbody, hfront, hle, hall⟩
    · cases h
  · cases h

end TailReads

/-- Opening the files gives this state and cursor. -/
def Dir.Reads (w : Wires) (d : Dir) (state : ThreadState) (cursor : Cursor) : Prop :=
  ∃ c s bytes read, d.snapshot.bind w.stored.fromBytes = some (c, s) ∧ d.tail = some bytes ∧
    TailReads w c bytes read ∧ state = s.applyAll (read.map Prod.fst) ∧
    cursor = ⟨c.epoch, c.seq + read.length⟩

structure Log.Whole (w : Wires) (log : Log) (d : Dir) : Prop where
  reads : d.Reads w log.state log.cursor
  file : log.file = d.tailFile

theorem Dir.Reads.openDir {w : Wires} {d : Dir} {state : ThreadState} {cursor : Cursor}
    (h : d.Reads w state cursor) {limits : Limits} {fates : OpenFates} {d' : Dir} {log : Log}
    (hopen : Log.openDir w limits d fates = (d', .ok log)) :
    log.state = state ∧ log.cursor = cursor := by
  obtain ⟨c, s, bytes, read, hsnap, htail, hreads, rfl, rfl⟩ := h
  simp only [Log.openDir, hsnap, hreads.readTail htail] at hopen
  split at hopen
  · cases (Prod.mk.inj hopen).2
  · cases (Prod.mk.inj hopen).2
  · obtain ⟨-, hlog⟩ := Prod.mk.inj hopen
    obtain ⟨hstate, hcursor, -⟩ :=
      Log.replay_spec (Log.ofSnapshot limits c s d.tailFile bytes.length) read
    rw [← Except.ok.inj hlog, hstate, hcursor]
    exact ⟨rfl, rfl⟩

theorem Dir.Reads.of_eq {w : Wires} {d d' : Dir} {state : ThreadState} {cursor : Cursor}
    (h : d.Reads w state cursor) (hsnap : d'.snapshot = d.snapshot) (htail : d'.tail = d.tail) :
    d'.Reads w state cursor := by
  obtain ⟨c, s, bytes, read, hs, ht, hrest⟩ := h
  exact ⟨c, s, bytes, read, by rw [hsnap, hs], by rw [htail, ht], hrest⟩

theorem Log.writeHead_dir (log : Log) (w : Wires) (d : Dir) (row : ThreadRow)
    (wrote renamed : Fate) :
    (log.writeHead w d row wrote renamed).1.snapshot = d.snapshot ∧
      (log.writeHead w d row wrote renamed).1.tail = d.tail ∧
      (log.writeHead w d row wrote renamed).1.tailFile = d.tailFile := by
  simp only [Log.writeHead, Dir.replace]
  split
  · exact ⟨rfl, rfl, rfl⟩
  · split <;> exact ⟨rfl, rfl, rfl⟩

theorem Dir.startTail_ok {w : Wires} {d d' : Dir} {c : Cursor} {fates : Dir.TailFates} {len : Nat}
    (h : d.startTail w c fates = (d', .ok len)) :
    d'.snapshot = d.snapshot ∧ d'.tail = some (framed (w.tailHead.toBytes c)) ∧
      TailReads w c (framed (w.tailHead.toBytes c)) [] := by
  simp only [Dir.startTail] at h
  split at h
  · cases (Prod.mk.inj h).2
  · rename_i frame hframe
    have hframed := (encode_eq_ok hframe).1
    simp only [Dir.replace] at h
    split at h
    · cases (Prod.mk.inj h).2
    · rename_i hput
      split at hput
      · cases (Prod.mk.inj hput).2
      · split at hput
        · cases (Prod.mk.inj hput).2
        · split at h
          · cases (Prod.mk.inj h).2
          · rw [← (Prod.mk.inj h).1, ← (Prod.mk.inj hput).1, ← hframed]
            exact ⟨rfl, rfl, TailReads.of_framed hframe⟩

theorem Dir.Reads.restarted {w : Wires} {log : Log} {d : Dir} {wrote renamed : Fate}
    {fates : Dir.TailFates} {d₁ d₂ : Dir} {len : Nat}
    (hsnap : d.writeSnapshot w log.cursor log.state wrote renamed = (d₁, none))
    (htail : d₁.startTail w log.cursor fates = (d₂, .ok len)) :
    d₂.Reads w log.state log.cursor := by
  have hd₁ : d₁.snapshot = some (w.stored.toBytes (log.cursor, log.state)) := by
    simp only [Dir.writeSnapshot, Dir.replace] at hsnap
    split at hsnap
    · cases (Prod.mk.inj hsnap).2
    · split at hsnap
      · cases (Prod.mk.inj hsnap).2
      · rw [← (Prod.mk.inj hsnap).1]
  obtain ⟨hkept, hnew, hreads⟩ := Dir.startTail_ok htail
  refine ⟨log.cursor, log.state, _, [], ?_, hnew, hreads, rfl, rfl⟩
  rw [hkept, hd₁, Option.bind_some, w.stored.from_to]

theorem Log.Whole.compact {w : Wires} {log : Log} {d : Dir} {fates : CompactFates}
    (h : (log.compact w d fates).2.2 = none) :
    (log.compact w d fates).1.Whole w (log.compact w d fates).2.1 := by
  obtain ⟨hstate, hcursor, -⟩ := Log.compact_spec w log d fates
  have hreads : ∀ {d' : Dir}, d'.Reads w log.state log.cursor →
      d'.Reads w (log.compact w d fates).1.state (log.compact w d fates).1.cursor := by
    intro d' hd'
    rwa [hstate, hcursor]
  simp only [Log.compact] at h hreads ⊢
  split
  · rename_i heq
    rw [heq] at h
    cases h
  · rename_i d₁ hsnap
    rw [hsnap] at h
    dsimp only at h
    split
    · rename_i heq
      rw [heq] at h
      cases h
    · rename_i d₂ len htail
      exact ⟨Dir.Reads.restarted hsnap htail, rfl⟩

/-- A log opened is whole, whatever its files went through: the end that does not read is cut
off. -/
theorem Log.Whole.openDir {w : Wires} {limits : Limits} {d d' : Dir} {fates : OpenFates} {log : Log}
    (h : Log.openDir w limits d fates = (d', .ok log)) : log.Whole w d' := by
  simp only [Log.openDir] at h
  split at h
  · cases (Prod.mk.inj h).2
  · rename_i c s hsnap
    split at h
    · rename_i len hlen
      split at h
      · cases (Prod.mk.inj h).2
      · cases (Prod.mk.inj h).2
      · obtain ⟨hdir, hlog⟩ := Prod.mk.inj h
        obtain ⟨hstate, hcursor, hfile, -⟩ :=
          Log.replay_spec (Log.ofSnapshot limits c s d.tailFile len) (d.readTail w c).1
        cases htail : d.tail with
        | none =>
            rw [Dir.readTail, htail] at hlen
            cases hlen
        | some bytes =>
            have hread : d.readTail w c = ((d.readTail w c).1, some len) := by rw [← hlen]
            rw [← hdir, ← Except.ok.inj hlog]
            refine ⟨⟨c, s, bytes.take len, (d.readTail w c).1, hsnap, ?_,
              TailReads.of_readTail hread htail, hstate, hcursor⟩, hfile⟩
            simp only [htail, Option.map_some]
    · rename_i hlen
      split at h
      · cases (Prod.mk.inj h).2
      · rename_i d₁ len htail
        obtain ⟨hdir, hlog⟩ := Prod.mk.inj h
        have hnone := Dir.readTail_none hlen
        have hd₁ := Dir.startTail_ok htail
        rw [← hdir, ← Except.ok.inj hlog, hnone]
        refine ⟨⟨c, s, _, [], ?_, hd₁.2.1, hd₁.2.2, rfl, rfl⟩, rfl⟩
        rw [hd₁.1]
        exact hsnap

theorem Log.Whole.append {w : Wires} {log : Log} {d : Dir} (h : log.Whole w d)
    {actions : List Action} {wrote : Fate} {fates : CompactFates}
    (hcode : encodable w actions = true) (hdone : (log.append w d actions wrote fates).2.2 = none) :
    (log.append w d actions wrote fates).1.Whole w (log.append w d actions wrote fates).2.1 := by
  obtain ⟨hreached, hfit⟩ := reached_of_encodable hcode
  obtain ⟨hfile, -, -, -, htaken⟩ := Log.take_frames w log [] false actions
  obtain ⟨ended, heq, -⟩ := htaken hcode
  obtain ⟨hstate, hcursor⟩ := Log.take_spec w log [] false actions
  rw [List.nil_append] at heq
  rw [hreached] at hstate hcursor
  obtain ⟨⟨c, s, bytes, read, hsnap, htail, hreads, hat, hnumber⟩, hheld⟩ := h
  generalize htake : log.take w [] false actions = taken at *
  obtain ⟨log', frames'⟩ := taken
  dsimp only at heq hfile hstate hcursor
  subst heq
  simp only [Log.append, htake] at hdone ⊢
  cases wrote with
  | stopped => cases hdone
  | refused n => cases hdone
  | done =>
      dsimp only at hdone ⊢
      have hwritten : (d.write log'.file (frames w.action actions)).Reads w log'.state
          log'.cursor := by
        rw [hfile, hheld, Dir.write, if_pos rfl]
        refine ⟨c, s, bytes ++ frames w.action actions, read ++ sized w.action actions, hsnap, ?_,
          hreads.append hfit, ?_, ?_⟩
        · simp only [htail, Option.map_some]
        · rw [hstate, hat, List.map_append, map_fst_sized, ThreadState.applyAll_append]
        · rw [hcursor, hnumber, List.length_append, sized, List.length_map, Nat.add_assoc]
      split
      · rename_i hcompact
        rw [if_pos hcompact] at hdone
        exact Log.Whole.compact hdone
      · refine ⟨hwritten, ?_⟩
        simp only [Dir.write]
        split
        · exact hfile.trans hheld
        · exact hfile.trans hheld

/-- A head written or not changes nothing of what the log's files give. -/
theorem Log.Whole.writeHead {w : Wires} {log : Log} {d : Dir} (h : log.Whole w d)
    (held : Log) (row : ThreadRow) (wrote renamed : Fate) :
    log.Whole w (held.writeHead w d row wrote renamed).1 := by
  obtain ⟨hsnap, htail, hfile⟩ := held.writeHead_dir w d row wrote renamed
  exact ⟨h.reads.of_eq hsnap htail, h.file.trans hfile.symm⟩

end Slopty.Thread
