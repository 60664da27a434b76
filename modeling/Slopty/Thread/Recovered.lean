import Slopty.Thread.Recover

/-!
The files stay in step with the log. The snapshot is of some of the actions; the tail holds
further ones, or continues an older cursor and is not read; a head that names the tail was written
over a part of it that stays.
-/

namespace Slopty.Thread

open Slopty.Lib Slopty.Proto.Codec

/-- What the tail file is to the snapshot beside it. -/
inductive TailMode where
  | missing
  /-- It continues the snapshot, with these actions, and may be cut. -/
  | live (on : List Action) (n : Nat)
  /-- It continues a cursor before the snapshot's. -/
  | stale (c : Cursor) (body : Bytes) (n : Nat)

def Headed (w : Wires) (d : Dir) (h : StoredHead) (len : Nat) : Prop :=
  d.head.bind w.storedHead.fromBytes = some h ∧ h.len = some len

namespace TailMode

def cursor (snap : Cursor) : TailMode → Cursor
  | missing => snap
  | live _ _ => snap
  | stale c _ _ => c

def Holds (w : Wires) (d : Dir) (snap : Cursor) (after : List Action) : TailMode → Prop
  | missing => d.tail = none
  | live on n => on <+: after ∧ Fit w.action on ∧ d.TailIs w snap (frames w.action on) n
  | stale c body n => c.Before snap ∧ d.TailIs w c body n

/-- The length a head names is of a part of the tail that is there still, and the head is the
state's there; or the tail has moved past it and is not read. -/
def Names (w : Wires) (d : Dir) (snap : Cursor) (state : ThreadState) (h : StoredHead) (len : Nat) :
    TailMode → Prop
  | missing => False
  | live on _ =>
      len ≤ d.tailLength ∧ ∃ i ≤ on.length,
        len = (tailHead w snap).length + (frames w.action (on.take i)).length ∧
          h.state = { state.applyAll (on.take i) with items := [] }
  | stale _ _ _ => len < d.tailLength

/-- A head on disk is of an older tail, or of this one in the way `Names` says. -/
def Heads (w : Wires) (d : Dir) (snap : Cursor) (state : ThreadState) (m : TailMode) : Prop :=
  ∀ h len, Headed w d h len → h.fromCursor.Before (m.cursor snap) ∨
    h.fromCursor = m.cursor snap ∧
      (Dir.tailHeadRead < (tailHead w (m.cursor snap)).length ∨
        (tailHead w (m.cursor snap)).length ≤ len ∧ m.Names w d snap state h len)

/-- The mode once the snapshot moves on and the tail stays. -/
def passed (w : Wires) (snap : Cursor) : TailMode → TailMode
  | missing => missing
  | live on n => stale snap (frames w.action on) n
  | stale c body n => stale c body n

end TailMode

/-- The log's file is the tail on disk, whole in its head, or one that tail replaced. -/
def Grip (w : Wires) (l : Log) (d : Dir) (c : Cursor) : Prop :=
  l.file = d.tailFile ∧ l.tailFrom = c ∧ (tailHead w c).length ≤ d.tailLength ∨
    l.file < d.tailFile ∧ l.tailFrom.Before c

/-- The tail file holds all the log has done since the snapshot. -/
def Synced (w : Wires) (k : Kept) (l : Log) (snap : Cursor) (m : TailMode) : Prop :=
  l.file = k.dir.tailFile ∧ l.tailLen = some k.dir.tailLength ∧ k.behind = false ∧
    ∃ n, m = .live (k.acted.drop snap.seq) n ∧
      (tailHead w snap).length + (frames w.action (k.acted.drop snap.seq)).length ≤ n

structure Handle (w : Wires) (k : Kept) (l : Log) (snap : Cursor) (m : TailMode) : Prop where
  cursor : l.cursor = ⟨k.epoch, k.acted.length⟩
  state : l.state = k.base.applyAll k.acted
  grip : Grip w l k.dir (m.cursor snap)
  whole : k.whole = true → Synced w k l snap m
  /-- No head was written over a tail whose file the log does not have. -/
  old : l.file < k.dir.tailFile → ∀ h len, Headed w k.dir h len → h.fromCursor.Before (m.cursor snap)
  live : l.file = k.dir.tailFile → k.behind = false → ∀ on n, m = .live on n → Synced w k l snap m

/-- The files of a log whose snapshot is of its first `j` actions. -/
structure InvAt (w : Wires) (k : Kept) (j : Nat) (m : TailMode) : Prop where
  le : j ≤ k.acted.length
  snapshot : k.dir.snapshot =
    some (w.stored.toBytes (⟨k.epoch, j⟩, k.base.applyAll (k.acted.take j)))
  tail : m.Holds w k.dir ⟨k.epoch, j⟩ (k.acted.drop j)
  heads : m.Heads w k.dir ⟨k.epoch, j⟩ (k.base.applyAll (k.acted.take j))
  log : ∀ l, k.log = some l → Handle w k l ⟨k.epoch, j⟩ m

/-- No snapshot was ever in place, and nothing else is; or the files are in step. -/
def Kept.Inv (w : Wires) (k : Kept) : Prop :=
  k.dir.snapshot = none ∧ k.log = none ∧ k.dir.head = none ∨ ∃ j m, InvAt w k j m

theorem take_eq_of_isPrefix {α : Type} {on l : List α} (h : on <+: l) (i : Nat) :
    on.take i = l.take (min i on.length) := by
  obtain ⟨rest, rfl⟩ := h
  by_cases hi : i ≤ on.length
  · rw [min_eq_left hi, List.take_append_of_le_length hi]
  · rw [min_eq_right (not_le.mp hi).le, List.take_left' rfl, List.take_of_length_le (not_le.mp hi).le]

theorem applyAll_take_drop (base : ThreadState) (acted on : List Action) {j : Nat}
    (hj : j ≤ acted.length) (hon : on <+: acted.drop j) (i : Nat) :
    ∃ n ≤ acted.length, n = j + (on.take i).length ∧
      (base.applyAll (acted.take j)).applyAll (on.take i) = base.applyAll (acted.take n) := by
  have hle : on.length ≤ acted.length - j := by
    have h := hon.length_le
    rwa [List.length_drop] at h
  refine ⟨j + (on.take i).length, ?_, rfl, ?_⟩
  · rw [List.length_take]
    omega
  · rw [← ThreadState.applyAll_append, take_eq_of_isPrefix hon i, List.take_add, List.length_take,
      List.length_drop]
    congr 3
    omega

/-- What is read of the tail: some of the actions after the snapshot, and all of them when it
holds them whole. -/
theorem TailMode.Holds.readTail {w : Wires} {d : Dir} {snap : Cursor} {after : List Action}
    {m : TailMode} (h : m.Holds w d snap after) :
    ∃ on i, on <+: after ∧ (d.readTail w snap).1.map Prod.fst = on.take i ∧
      ∀ n, m = .live after n →
        (tailHead w snap).length + (frames w.action after).length ≤ n → on.take i = after := by
  cases m with
  | missing =>
      have htail : d.tail = none := h
      refine ⟨[], 0, List.nil_prefix, ?_, fun n hm => by cases hm⟩
      simp [Dir.readTail, htail]
  | stale c body n =>
      refine ⟨[], 0, List.nil_prefix, ?_, fun n hm => by cases hm⟩
      rw [h.2.readTail_of_ne h.1.ne]
      rfl
  | live on n =>
      obtain ⟨hon, hfit, htail⟩ := h
      rcases htail.readTail hfit with ⟨hcut, hread⟩ | ⟨-, i, hi, hread, -, hall⟩
      · refine ⟨on, 0, hon, by rw [hread]; rfl, ?_⟩
        intro n' hm hle
        cases hm
        omega
      · refine ⟨on, i, hon, ?_, ?_⟩
        · rw [hread, map_fst_sized]
        · intro n' hm hle
          cases hm
          have hwhole := hall after.length (le_refl _) (by rw [List.take_length]; exact hle)
          exact List.take_of_length_le hwhole

/-- A tail as long as some of its actions take holds exactly those. -/
theorem Dir.TailIs.of_length {w : Wires} {d : Dir} {c : Cursor} {on : List Action} {n i : Nat}
    (h : d.TailIs w c (frames w.action on) n)
    (hlen : d.tailLength = (tailHead w c).length + (frames w.action (on.take i)).length) :
    d.TailIs w c (frames w.action (on.take i))
      ((tailHead w c).length + (frames w.action (on.take i)).length) := by
  refine ⟨h.1, ?_⟩
  have hsplit : tailHead w c ++ frames w.action on =
      (tailHead w c ++ frames w.action (on.take i)) ++ frames w.action (on.drop i) := by
    rw [List.append_assoc, ← frames_append, List.take_append_drop]
  have hn : min n (tailHead w c ++ frames w.action on).length =
      (tailHead w c ++ frames w.action (on.take i)).length := by
    rw [h.length] at hlen
    rw [List.length_append, List.length_append]
    exact hlen
  rw [h.2, List.take_eq_take_min, hn, hsplit, List.take_left' rfl, ← List.length_append,
    List.take_length]

/-- A head that is taken is on disk and names the tail as it stands. -/
theorem Log.head_eq_some {w : Wires} {d : Dir} {hd : Head} (h : Log.head w d = some hd) :
    ∃ stored len, Headed w d stored len ∧ hd.state = stored.state ∧
      d.tailMark w = some (stored.fromCursor, len) := by
  rw [Log.head, Option.bind_eq_some_iff] at h
  obtain ⟨stored, hstored, h⟩ := h
  rw [Option.bind_eq_some_iff] at h
  obtain ⟨mark, hmark, h⟩ := h
  split at h
  · rename_i hsame
    refine ⟨stored, mark.2, ⟨hstored, hsame.2⟩, ?_, ?_⟩
    · rw [← Option.some.inj h]
    · rw [hmark, ← hsame.1]
  · simp at h

theorem TailMode.Heads.head {w : Wires} {d : Dir} {snap : Cursor} {after : List Action}
    {state : ThreadState} {m : TailMode} (hheads : m.Heads w d snap state)
    (hholds : m.Holds w d snap after) {hd : Head} (h : Log.head w d = some hd) :
    hd.state = { state.applyAll ((d.readTail w snap).1.map Prod.fst) with items := [] } := by
  obtain ⟨stored, len, hheaded, hstate, hmark⟩ := Log.head_eq_some h
  cases m with
  | missing =>
      have htail : d.tail = none := hholds
      simp [Dir.tailMark, htail] at hmark
  | stale c body n =>
      rw [hholds.2.tailMark] at hmark
      split at hmark
      · rename_i hshort
        obtain ⟨hfrom, hlen⟩ := Prod.mk.inj (Option.some.inj hmark)
        rcases hheads stored len hheaded with hold | ⟨-, hlong | ⟨-, hnames⟩⟩
        · exact absurd hfrom.symm hold.ne
        · exact absurd hlong (not_lt.mpr ((le_min_iff.mp hshort).1))
        · exact absurd hlen.symm (ne_of_lt hnames)
      · simp at hmark
  | live on n =>
      obtain ⟨-, hfit, htail⟩ := hholds
      rw [htail.tailMark] at hmark
      split at hmark
      · rename_i hshort
        obtain ⟨hfrom, hlen⟩ := Prod.mk.inj (Option.some.inj hmark)
        rcases hheads stored len hheaded with hold | ⟨-, hlong | ⟨-, -, i, -, hi, hs⟩⟩
        · exact absurd hfrom.symm hold.ne
        · exact absurd hlong (not_lt.mpr ((le_min_iff.mp hshort).1))
        · have hpart := htail.of_length (hlen.trans hi)
          have hfitPart : Fit w.action (on.take i) := fun a ha => hfit a (List.mem_of_mem_take ha)
          rcases hpart.readTail hfitPart with ⟨hcut, -⟩ | ⟨-, i', -, hread, -, hall⟩
          · omega
          · have hall' : (on.take i).take i' = on.take i := by
              apply List.take_of_length_le
              exact hall _ (le_refl _) (by rw [List.take_length])
            rw [hstate, hs, hread, hall', map_fst_sized]
      · simp at hmark

theorem InvAt.recovers {w : Wires} {k : Kept} {j : Nat} {m : TailMode} (h : InvAt w k j m) :
    k.Recovers w := by
  obtain ⟨on, i, hon, hread, hall⟩ := h.tail.readTail
  obtain ⟨n, hn, hj, hstate⟩ := applyAll_take_drop k.base k.acted on h.le hon i
  have hopens := Kept.opens_of_readTail h.snapshot hread
  refine ⟨?_, ?_, ?_⟩
  · intro _
    refine ⟨n, hn, ?_⟩
    rw [← hstate, hj]
    exact hopens
  · intro l hl hwhole
    have hlog := h.log l hl
    obtain ⟨-, -, -, n', hm, hle⟩ := hlog.whole hwhole
    rw [hall n' hm hle, ← ThreadState.applyAll_append, List.take_append_drop, ← hlog.state] at hopens
    have hcursor : (⟨k.epoch, j + (k.acted.drop j).length⟩ : Cursor) = l.cursor := by
      rw [hlog.cursor, List.length_drop, Nat.add_sub_cancel' h.le]
    rw [hcursor] at hopens
    exact hopens
  · intro hd hhead
    refine ⟨_, hopens.1, ?_⟩
    rw [h.heads.head h.tail hhead, hread]

theorem Kept.Inv.recovers {w : Wires} {k : Kept} (h : k.Inv w) : k.Recovers w := by
  rcases h with ⟨hsnap, hlog, hhead⟩ | ⟨j, m, hat⟩
  · refine ⟨fun hne => absurd hsnap hne, ?_, ?_⟩
    · intro l hl
      rw [hlog] at hl
      cases hl
    · intro hd hh
      rw [Log.head, hhead] at hh
      cases hh
  · exact hat.recovers

section Steps

variable {w : Wires} {d d' : Dir} {snap snap' : Cursor} {after after' : List Action}
  {state state' : ThreadState} {m : TailMode}

theorem tailHead_pos (w : Wires) (c : Cursor) : 0 < (tailHead w c).length := by
  rw [tailHead, framed_length, prefixBytes]
  omega

theorem Grip.ne_missing {l : Log} (h : Grip w l d (m.cursor snap)) (hholds : m.Holds w d snap after)
    (hfile : l.file = d.tailFile) : m ≠ .missing := by
  rintro rfl
  have htail : d.tail = none := hholds
  rcases h with ⟨-, -, hle⟩ | ⟨hlt, -⟩
  · have hpos := tailHead_pos w (TailMode.missing.cursor snap)
    rw [Dir.tailLength, htail] at hle
    exact absurd (hpos.trans_le hle) (lt_irrefl _)
  · omega

theorem TailMode.Holds.passed (h : m.Holds w d snap after) (hb : snap.Before snap')
    (htail : d'.tail = d.tail) (after' : List Action) : (m.passed w snap).Holds w d' snap' after' := by
  cases m with
  | missing => exact htail.trans h
  | live on n => exact ⟨hb, h.2.2.1, htail.trans h.2.2.2⟩
  | stale c body n => exact ⟨h.1.trans hb, h.2.1, htail.trans h.2.2⟩

/-- Heads are no newer than the tail, and the tail is no newer than the snapshot. -/
theorem TailMode.Heads.before (h : m.Heads w d snap state) (hholds : m.Holds w d snap after)
    (hb : snap.Before snap') {hd : StoredHead} {len : Nat} (hheaded : Headed w d hd len) :
    hd.fromCursor.Before snap' := by
  have hcursor : (m.cursor snap).Before snap' := by
    cases m with
    | missing => exact hb
    | live on n => exact hb
    | stale c body n => exact hholds.1.trans hb
  rcases h hd len hheaded with hold | ⟨heq, -⟩
  · exact hold.trans hcursor
  · rw [heq]
    exact hcursor

/-- No head names the tail as it stands. -/
def Unnamed (w : Wires) (d : Dir) (c : Cursor) : Prop :=
  ∀ hd len, Headed w d hd len → hd.fromCursor = c →
    Dir.tailHeadRead < (tailHead w c).length ∨ len < d.tailLength

theorem TailMode.Heads.passed (h : m.Heads w d snap state) (hb : snap.Before snap')
    (hun : Unnamed w d (m.cursor snap)) (hhead : d'.head = d.head) (htail : d'.tail = d.tail)
    (state' : ThreadState) : (m.passed w snap).Heads w d' snap' state' := by
  intro hd len hheaded
  have hheaded' : Headed w d hd len := by rwa [Headed, hhead] at hheaded
  have hlength : d'.tailLength = d.tailLength := by rw [Dir.tailLength, htail, Dir.tailLength]
  rcases h hd len hheaded' with hold | ⟨heq, hnames⟩
  · cases m with
    | missing => exact Or.inl (hold.trans hb)
    | live on n => exact Or.inl hold
    | stale c body n => exact Or.inl hold
  · cases m with
    | missing =>
        rw [heq]
        exact Or.inl hb
    | live on n =>
        refine Or.inr ⟨heq, ?_⟩
        rcases hun hd len hheaded' heq with hlong | hlt
        · exact Or.inl hlong
        · refine hnames.imp id fun hle => ⟨hle.1, ?_⟩
          show len < d'.tailLength
          rw [hlength]
          exact hlt
    | stale c body n =>
        refine Or.inr ⟨heq, hnames.imp id fun hle => ⟨hle.1, ?_⟩⟩
        show len < d'.tailLength
        rw [hlength]
        exact hle.2

theorem TailMode.Heads.unnamed (h : m.Heads w d snap state) (hholds : m.Holds w d snap after)
    (hhead : Log.head w d = none) : Unnamed w d (m.cursor snap) := by
  intro hd len hheaded heq
  rcases h hd len hheaded with hold | ⟨-, hlong | ⟨hle, hnames⟩⟩
  · exact absurd heq hold.ne
  · exact Or.inl hlong
  · cases m with
    | missing => exact absurd hnames id
    | stale c body n => exact Or.inr hnames
    | live on n =>
        by_cases hlong : Dir.tailHeadRead < (tailHead w snap).length
        · exact Or.inl hlong
        · right
          refine lt_of_le_of_ne hnames.1 ?_
          intro hlen
          have htail := hholds.2.2
          have hn : (tailHead w snap).length ≤ n := by
            have hle' : (tailHead w snap).length ≤ d.tailLength := hle.trans hnames.1
            rw [htail.length] at hle'
            exact hle'.trans (min_le_left _ _)
          have hmark : d.tailMark w = some (snap, d.tailLength) := by
            rw [htail.tailMark, if_pos (le_min (not_lt.mp hlong) hn)]
          have hsame : snap = hd.fromCursor ∧ hd.len = some d.tailLength :=
            ⟨heq.symm, by rw [hheaded.2, hlen]⟩
          rw [Log.head, hheaded.1, Option.bind_some, hmark, Option.bind_some, if_pos hsame] at hhead
          cases hhead

/-- What is left of a tail that is started: nothing of it, or the new tail in place, open or
not. -/
theorem Dir.startTail_cases (w : Wires) (d : Dir) (c : Cursor) (fates : Dir.TailFates) :
    (∃ h, d.startTail w c fates = (d, .error h) ∧
      ¬ ((∃ frame, encode w.tailHead c = .ok frame) ∧ fates.wrote = .done ∧ fates.renamed = .done)) ∨
    (∃ h, TailFits w c ∧ d.startTail w c fates =
      ({ d with tail := some (tailHead w c), tailFile := d.tailFile + 1 }, .error h)) ∨
    TailFits w c ∧ d.startTail w c fates =
      ({ d with tail := some (tailHead w c), tailFile := d.tailFile + 1 },
        .ok (tailHead w c).length) := by
  simp only [Dir.startTail]
  cases hcode : encode w.tailHead c with
  | error e => exact Or.inl ⟨_, rfl, by simp⟩
  | ok frame =>
      obtain ⟨rfl, hfits⟩ := encode_eq_ok hcode
      simp only [Dir.replace]
      cases hwrote : fates.wrote.halt with
      | some h =>
          refine Or.inl ⟨h, rfl, ?_⟩
          rintro ⟨-, hdone, -⟩
          rw [hdone] at hwrote
          cases hwrote
      | none =>
          cases hrenamed : fates.renamed.halt with
          | some h =>
              refine Or.inl ⟨h, rfl, ?_⟩
              rintro ⟨-, -, hdone⟩
              rw [hdone] at hrenamed
              cases hrenamed
          | none =>
              right
              cases fates.opened.halt with
              | some h => exact Or.inl ⟨h, hfits, rfl⟩
              | none => exact Or.inr ⟨hfits, rfl⟩

theorem Dir.writeSnapshot_eq (w : Wires) (d : Dir) (c : Cursor) (st : ThreadState)
    (wrote renamed : Fate) :
    (∃ h, d.writeSnapshot w c st wrote renamed = (d, some h)) ∨
      d.writeSnapshot w c st wrote renamed =
        ({ d with snapshot := some (w.stored.toBytes (c, st)) }, none) := by
  simp only [Dir.writeSnapshot, Dir.replace]
  cases wrote.halt with
  | some h => exact Or.inl ⟨h, rfl⟩
  | none =>
      cases renamed.halt with
      | some h => exact Or.inl ⟨h, rfl⟩
      | none => exact Or.inr rfl

/-- A new tail is in place, and every head is of an older one, or cannot be taken. -/
theorem TailMode.live_nil (hfits : TailFits w snap)
    (htail : d.tail = some (tailHead w snap))
    (hold : ∀ hd len, Headed w d hd len → hd.fromCursor.Before snap ∨
      hd.fromCursor = snap ∧ Dir.tailHeadRead < (tailHead w snap).length)
    (after : List Action) (state : ThreadState) :
    (TailMode.live [] (tailHead w snap).length).Holds w d snap after ∧
      (TailMode.live [] (tailHead w snap).length).Heads w d snap state := by
  have hfit : Fit w.action [] := fun a ha => absurd ha List.not_mem_nil
  refine ⟨⟨List.nil_prefix, hfit, hfits, ?_⟩, fun hd len hheaded => ?_⟩
  · rw [htail, frames, List.flatMap_nil, List.append_nil, List.take_length]
  · exact (hold hd len hheaded).imp id fun hlong => ⟨hlong.1, Or.inl hlong.2⟩

/-- A compaction that has its snapshot in place leaves the files in step, whatever comes of the
tail; a tail that stays must be one that no head names. -/
theorem compacted {l : Log} {fates : CompactFates} (hholds : m.Holds w d snap after)
    (hheads : m.Heads w d snap state) (hgrip : Grip w l d (m.cursor snap))
    (hb : snap.Before l.cursor)
    (hplaced : (d.writeSnapshot w l.cursor l.state fates.wroteSnapshot fates.renamedSnapshot).2 = none)
    (hun : Unnamed w d (m.cursor snap) ∨ (∃ frame, encode w.tailHead l.cursor = .ok frame) ∧
      fates.tail.wrote = .done ∧ fates.tail.renamed = .done)
    (hold : l.file < d.tailFile → ∀ hd len, Headed w d hd len → hd.fromCursor.Before (m.cursor snap))
    {k : Kept} (hdir : k.dir = (l.compact w d fates).2.1)
    (hlog : k.log = Kept.alive (l.compact w d fates).1 (l.compact w d fates).2.2)
    (hcursor : l.cursor = ⟨k.epoch, k.acted.length⟩) (hstate : l.state = k.base.applyAll k.acted)
    (hwhole : (l.compact w d fates).2.2 ≠ none → k.whole = false) (hbehind : k.behind = false) :
    ∃ m', InvAt w k k.acted.length m' := by
  rcases d.writeSnapshot_eq w l.cursor l.state fates.wroteSnapshot fates.renamedSnapshot with
    ⟨h, heq⟩ | heq
  · rw [heq] at hplaced
    cases hplaced
  have hsnapshot : some (w.stored.toBytes (l.cursor, l.state)) =
      some (w.stored.toBytes (⟨k.epoch, k.acted.length⟩,
        k.base.applyAll (k.acted.take k.acted.length))) := by
    rw [List.take_length, hcursor, hstate]
  have hfrom : l.tailFrom.Before l.cursor := by
    have hle : (m.cursor snap).Before l.cursor := by
      cases m with
      | missing => exact hb
      | live on n => exact hb
      | stale c body n => exact hholds.1.trans hb
    rcases hgrip with ⟨-, hf, -⟩ | ⟨-, hf⟩
    · rw [hf]
      exact hle
    · exact hf.trans hle
  have hfile : l.file ≤ d.tailFile := by
    rcases hgrip with ⟨hf, -⟩ | ⟨hf, -⟩ <;> omega
  generalize hd1 : ({ d with snapshot := some (w.stored.toBytes (l.cursor, l.state)) } : Dir) = d1
    at heq
  have htail1 : d1.tail = d.tail := by rw [← hd1]
  have hhead1 : d1.head = d.head := by rw [← hd1]
  have hfile1 : d1.tailFile = d.tailFile := by rw [← hd1]
  have hsnap1 : d1.snapshot = some (w.stored.toBytes (l.cursor, l.state)) := by rw [← hd1]
  have hbefore : ∀ hd len, Headed w d hd len → hd.fromCursor.Before l.cursor :=
    fun hd len hheaded => hheads.before hholds hb hheaded
  have hheaded1 : ∀ hd len, Headed w d1 hd len → Headed w d hd len := by
    intro hd len hh
    rwa [Headed, hhead1] at hh
  rw [hcursor] at hb hbefore
  rcases d1.startTail_cases w l.cursor fates.tail with ⟨h, htail, hnot⟩ | ⟨h, hfits, htail⟩ | ⟨hfits, htail⟩
  · -- the old tail stays, behind the snapshot
    have hcompact : l.compact w d fates = (l, d1, some h) := by
      simp only [Log.compact, heq, htail]
    rw [hcompact] at hdir hlog hwhole
    have hun' := hun.resolve_right hnot
    refine ⟨m.passed w snap, le_refl _, by rw [hdir, hsnap1]; exact hsnapshot, ?_, ?_, ?_⟩
    · rw [hdir]
      exact hholds.passed hb htail1 _
    · rw [hdir]
      exact hheads.passed hb hun' hhead1 htail1 _
    · intro l' hl'
      have hsame : l' = l := by
        rw [hlog, Kept.alive] at hl'
        split at hl'
        · cases hl'
        · exact (Option.some.inj hl').symm
      subst hsame
      have hcursor' : ∀ hne : m ≠ .missing,
          (m.passed w snap).cursor ⟨k.epoch, k.acted.length⟩ = m.cursor snap := by
        intro hne
        cases m with
        | missing => exact absurd rfl hne
        | live on n => rfl
        | stale c body n => rfl
      refine ⟨hcursor, hstate, ?_, fun hw => ?_, ?_, ?_⟩
      · rcases hgrip with ⟨hf, hfr, hle⟩ | ⟨hf, hfr⟩
        · have hne := Grip.ne_missing (Or.inl ⟨hf, hfr, hle⟩) hholds hf
          rw [hcursor' hne, hdir]
          left
          rw [hfile1, Dir.tailLength, htail1]
          exact ⟨hf, hfr, hle⟩
        · right
          rw [hdir, hfile1]
          refine ⟨hf, ?_⟩
          cases m with
          | missing => exact hfr.trans hb
          | live on n => exact hfr
          | stale c body n => exact hfr
      · rw [hwhole (by simp)] at hw
        cases hw
      · intro hlt hd len hheaded
        rw [hdir] at hheaded hlt
        rw [hfile1] at hlt
        have hold' := hold hlt hd len (hheaded1 hd len hheaded)
        cases m with
        | missing => exact hold'.trans hb
        | live on n => exact hold'
        | stale c body n => exact hold'
      · intro _ _ on n hm
        cases m <;> cases hm
  · -- the new tail is in place, and the log has the one it replaced
    have hcompact : l.compact w d fates =
        (l, { d1 with tail := some (tailHead w l.cursor), tailFile := d1.tailFile + 1 }, some h) := by
      simp only [Log.compact, heq, htail]
    rw [hcompact] at hdir hlog hwhole
    rw [hcursor] at hfits hdir
    have hold2 : ∀ hd len, Headed w k.dir hd len →
        hd.fromCursor.Before ⟨k.epoch, k.acted.length⟩ := by
      intro hd len hheaded
      rw [hdir] at hheaded
      exact hbefore hd len (hheaded1 hd len hheaded)
    have hlive := TailMode.live_nil hfits (by rw [hdir])
      (fun hd len hheaded => Or.inl (hold2 hd len hheaded)) (k.acted.drop k.acted.length)
      (k.base.applyAll (k.acted.take k.acted.length))
    have hlt : l.file < k.dir.tailFile := by
      rw [hdir]
      show l.file < d1.tailFile + 1
      omega
    refine ⟨_, le_refl _, by rw [hdir]; exact hsnap1.trans hsnapshot, hlive.1, hlive.2, ?_⟩
    intro l' hl'
    have hsame : l' = l := by
      rw [hlog, Kept.alive] at hl'
      split at hl'
      · cases hl'
      · exact (Option.some.inj hl').symm
    subst hsame
    refine ⟨hcursor, hstate, Or.inr ⟨hlt, hcursor ▸ hfrom⟩, fun hw => ?_, fun _ => hold2, ?_⟩
    · rw [hwhole (by simp)] at hw
      cases hw
    · intro hfile'
      omega
  · -- everything in place: the log goes on in the new tail
    have hcompact : l.compact w d fates =
        ({ l with
            file := d1.tailFile + 1
            tailFrom := l.cursor
            tailLen := some (tailHead w l.cursor).length
            onDisk := 0 },
          { d1 with tail := some (tailHead w l.cursor), tailFile := d1.tailFile + 1 }, none) := by
      simp only [Log.compact, heq, htail]
    rw [hcompact] at hdir hlog
    rw [hcursor] at hfits hdir
    have hold2 : ∀ hd len, Headed w k.dir hd len →
        hd.fromCursor.Before ⟨k.epoch, k.acted.length⟩ := by
      intro hd len hheaded
      rw [hdir] at hheaded
      exact hbefore hd len (hheaded1 hd len hheaded)
    have hlive := TailMode.live_nil hfits (by rw [hdir])
      (fun hd len hheaded => Or.inl (hold2 hd len hheaded)) (k.acted.drop k.acted.length)
      (k.base.applyAll (k.acted.take k.acted.length))
    refine ⟨_, le_refl _, by rw [hdir]; exact hsnap1.trans hsnapshot, hlive.1, hlive.2, ?_⟩
    intro l' hl'
    have hsame : l' = { l with
        file := d1.tailFile + 1
        tailFrom := l.cursor
        tailLen := some (tailHead w l.cursor).length
        onDisk := 0 } := by
      rw [hlog] at hl'
      exact (Option.some.inj hl').symm
    subst hsame
    have hlength : k.dir.tailLength = (tailHead w ⟨k.epoch, k.acted.length⟩).length := by
      rw [hdir]
      rfl
    have hsynced : Synced w k { l with
        file := d1.tailFile + 1
        tailFrom := l.cursor
        tailLen := some (tailHead w l.cursor).length
        onDisk := 0 } ⟨k.epoch, k.acted.length⟩
        (.live [] (tailHead w ⟨k.epoch, k.acted.length⟩).length) := by
      refine ⟨by rw [hdir], by rw [hlength, hcursor], hbehind,
        (tailHead w ⟨k.epoch, k.acted.length⟩).length, ?_, ?_⟩
      · rw [List.drop_length]
      · rw [List.drop_length]
        exact le_refl _
    refine ⟨hcursor, hstate, Or.inl ⟨by rw [hdir], hcursor, by rw [hlength]; exact le_refl _⟩,
      fun _ => hsynced, fun _ => hold2, fun _ _ _ _ _ => hsynced⟩

end Steps

end Slopty.Thread
