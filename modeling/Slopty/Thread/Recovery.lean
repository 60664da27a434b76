import Slopty.Thread.Recovered

/-!
Every step keeps a thread's files in step with its log, as long as it meets the conditions for it;
so opening them gives a first part of what was appended.
-/

namespace Slopty.Thread

open Slopty.Lib Slopty.Proto.Codec

section Steps

variable {w : Wires} {k : Kept} {j : Nat} {m : TailMode}

theorem InvAt.stop (h : InvAt w k j m) : InvAt w { k with log := none } j m :=
  ⟨h.le, h.snapshot, h.tail, h.heads, fun l hl => by cases hl⟩

theorem InvAt.snapshotCursor (h : InvAt w k j m) : k.snapshotCursor w = some ⟨k.epoch, j⟩ := by
  rw [Kept.snapshotCursor, h.snapshot, Option.bind_some, w.stored.from_to, Option.map_some]

theorem Dir.TailIs.cut {d : Dir} {c : Cursor} {body : Bytes} {n : Nat} (h : d.TailIs w c body n)
    (n' : Nat) :
    Dir.TailIs w { d with tail := d.tail.map (List.take n') } c body (min n' n) := by
  refine ⟨h.1, ?_⟩
  rw [h.2, Option.map_some, List.take_take]

theorem Dir.tailLength_cut (d : Dir) (n : Nat) :
    ({ d with tail := d.tail.map (List.take n) } : Dir).tailLength = min n d.tailLength := by
  rw [Dir.tailLength, Dir.tailLength]
  cases d.tail with
  | none => simp
  | some bytes => simp

theorem TailMode.Heads.named (hheads : m.Heads w k.dir ⟨k.epoch, j⟩ (k.base.applyAll (k.acted.take j)))
    (hholds : m.Holds w k.dir ⟨k.epoch, j⟩ (k.acted.drop j)) {hd : StoredHead} {len : Nat}
    (hheaded : Headed w k.dir hd len) :
    hd.fromCursor.Before (m.cursor ⟨k.epoch, j⟩) ∨ hd.fromCursor = m.cursor ⟨k.epoch, j⟩ ∧
      (Dir.tailHeadRead < (tailHead w (m.cursor ⟨k.epoch, j⟩)).length ∨
        (tailHead w (m.cursor ⟨k.epoch, j⟩)).length ≤ len ∧
          m.Names w k.dir ⟨k.epoch, j⟩ (k.base.applyAll (k.acted.take j)) hd len ∧
          k.named w = some len ∧
          (k.dir.tailMark w).map Prod.fst = some (m.cursor ⟨k.epoch, j⟩)) := by
  rcases hheads hd len hheaded with hold | ⟨heq, hnames⟩
  · exact Or.inl hold
  refine Or.inr ⟨heq, ?_⟩
  by_cases hlong : Dir.tailHeadRead < (tailHead w (m.cursor ⟨k.epoch, j⟩)).length
  · exact Or.inl hlong
  obtain ⟨hle, hnames⟩ := hnames.resolve_left hlong
  refine Or.inr ⟨hle, hnames, ?_⟩
  have hmark : k.dir.tailMark w = some (m.cursor ⟨k.epoch, j⟩, k.dir.tailLength) := by
    have hin : ∀ {body n}, k.dir.TailIs w (m.cursor ⟨k.epoch, j⟩) body n → len ≤ k.dir.tailLength →
        k.dir.tailMark w = some (m.cursor ⟨k.epoch, j⟩, k.dir.tailLength) := by
      intro body n htail hlen
      rw [htail.length] at hlen
      rw [htail.tailMark, if_pos (le_min (not_lt.mp hlong)
        (hle.trans (hlen.trans (min_le_left _ _))))]
    cases m with
    | missing => exact absurd hnames id
    | live on n => exact hin hholds.2.2 hnames.1
    | stale c body n => exact hin hholds.2 (Nat.le_of_lt hnames)
  refine ⟨?_, by rw [hmark]; rfl⟩
  rw [Kept.named, hheaded.1, Option.bind_some, hmark, Option.bind_some, if_pos heq.symm]
  exact hheaded.2

theorem InvAt.cut (h : InvAt w k j m) (hlog : k.log = none) {n : Nat} (hc : k.InStep w (.cut n)) :
    ∃ m', InvAt w { k with dir := { k.dir with tail := k.dir.tail.map (List.take n) } } j m' := by
  have hnone : ∀ l, k.log = some l → False := by
    intro l hl
    rw [hlog] at hl
    cases hl
  cases m with
  | missing =>
      have htail : k.dir.tail = none := h.tail
      refine ⟨.missing, h.le, h.snapshot, ?_, ?_, fun l hl => (hnone l hl).elim⟩
      · show Option.map _ k.dir.tail = none
        rw [htail]
        rfl
      · intro hd len hheaded
        exact h.heads hd len hheaded
  | live on n₀ =>
      refine ⟨.live on (min n n₀), h.le, h.snapshot,
        ⟨h.tail.1, h.tail.2.1, h.tail.2.2.cut n⟩, ?_, fun l hl => (hnone l hl).elim⟩
      intro hd len hheaded
      rcases h.heads.named h.tail hheaded with hold | ⟨heq, hlong | ⟨hle, hnames, hnamed, -⟩⟩
      · exact Or.inl hold
      · exact Or.inr ⟨heq, Or.inl hlong⟩
      · refine Or.inr ⟨heq, Or.inr ⟨hle, ?_, hnames.2⟩⟩
        rw [Dir.tailLength_cut]
        have hn : len ≤ n := by
          rcases hc len hnamed with hlt | ⟨heq', -⟩ <;> omega
        exact le_min hn hnames.1
  | stale c body n₀ =>
      refine ⟨.stale c body (min n n₀), h.le, h.snapshot,
        ⟨h.tail.1, h.tail.2.cut n⟩, ?_, fun l hl => (hnone l hl).elim⟩
      intro hd len hheaded
      rcases h.heads.named h.tail hheaded with hold | ⟨heq, hlong | ⟨hle, hnames, hnamed, hmark⟩⟩
      · exact Or.inl hold
      · exact Or.inr ⟨heq, Or.inl hlong⟩
      · refine Or.inr ⟨heq, Or.inr ⟨hle, ?_⟩⟩
        show len < _
        rw [Dir.tailLength_cut]
        refine lt_min ?_ hnames
        rcases hc len hnamed with hlt | ⟨-, hcont⟩
        · exact hlt
        · -- a stale tail does not continue the snapshot
          rw [Kept.continues, hmark, h.snapshotCursor, decide_eq_true_eq] at hcont
          exact absurd (Option.some.inj hcont) h.tail.1.ne

/-- A head written over the tail the log is in step with names all of it. -/
theorem InvAt.writeHead (h : InvAt w k j m) {l : Log} (hl : k.log = some l) {row : ThreadRow}
    {wrote renamed : Fate} (hc : k.InStep w (.writeHead row wrote renamed)) :
    InvAt w { k with
      dir := (l.writeHead w k.dir row wrote renamed).1
      log := Kept.alive l (l.writeHead w k.dir row wrote renamed).2 } j m := by
  have hlog := h.log l hl
  have halive : ∀ halt l', Kept.alive l halt = some l' → l' = l := by
    intro halt l' hl'
    rw [Kept.alive] at hl'
    split at hl'
    · cases hl'
    · exact (Option.some.inj hl').symm
  have hsame : ∀ halt, InvAt w { k with log := Kept.alive l halt } j m := by
    intro halt
    refine ⟨h.le, h.snapshot, h.tail, h.heads, fun l' hl' => ?_⟩
    rw [halive halt l' hl']
    exact ⟨hlog.cursor, hlog.state, hlog.grip, hlog.whole, hlog.old, hlog.live⟩
  simp only [Log.writeHead, Dir.replace]
  cases wrote.halt with
  | some halt => exact hsame _
  | none =>
    cases renamed.halt with
    | some halt => exact hsame _
    | none =>
      dsimp only
      generalize hd' : ({ k.dir with head := some (w.storedHead.toBytes
        { fromCursor := l.tailFrom, len := l.tailLen, row := row,
          state := { l.state with items := [] } }) } : Dir) = d'
      have htail : d'.tail = k.dir.tail := by rw [← hd']
      have hfile : d'.tailFile = k.dir.tailFile := by rw [← hd']
      have hlength : d'.tailLength = k.dir.tailLength := by rw [Dir.tailLength, htail, Dir.tailLength]
      have hheaded : ∀ hd len, Headed w d' hd len → hd.fromCursor = l.tailFrom ∧
          l.tailLen = some len ∧ hd.state = { l.state with items := [] } := by
        rintro hd len ⟨hstored, hlen⟩
        rw [← hd', Option.bind_some, w.storedHead.from_to] at hstored
        rw [← Option.some.inj hstored] at hlen ⊢
        exact ⟨rfl, hlen, rfl⟩
      have hholds : m.Holds w d' ⟨k.epoch, j⟩ (k.acted.drop j) := by
        cases m with
        | missing => exact htail.trans h.tail
        | live on n => exact ⟨h.tail.1, h.tail.2.1, h.tail.2.2.1, htail.trans h.tail.2.2.2⟩
        | stale c body n => exact ⟨h.tail.1, h.tail.2.1, htail.trans h.tail.2.2⟩
      have hsynced : ∀ {m'}, Synced w k l ⟨k.epoch, j⟩ m' →
          Synced w { k with dir := d', log := Kept.alive l none } l ⟨k.epoch, j⟩ m' := by
        rintro m' ⟨hf, hlen, hrest⟩
        exact ⟨hf.trans hfile.symm, by rw [hlen, ← hlength], hrest⟩
      refine ⟨h.le, ?_, hholds, ?_, fun l' hl' => ?_⟩
      · show d'.snapshot = _
        rw [← hd']
        exact h.snapshot
      · intro hd len hh
        obtain ⟨hfrom, hlen, hstate⟩ := hheaded hd len hh
        rw [hfrom]
        rcases hlog.grip with ⟨hf, hfr, -⟩ | ⟨-, hfr⟩
        · rcases hc l hl with hnone | hne | ⟨hbehind, hcursor⟩
          · rw [hnone] at hlen
            cases hlen
          · exact absurd hf hne
          · -- the snapshot is what the tail continues, so the tail holds all of the log
            rw [h.snapshotCursor] at hcursor
            have hsnap : m.cursor ⟨k.epoch, j⟩ = ⟨k.epoch, j⟩ :=
              hfr.symm.trans (Option.some.inj hcursor).symm
            cases m with
            | missing => exact absurd rfl (hlog.grip.ne_missing h.tail hf)
            | stale c body n => exact absurd hsnap h.tail.1.ne
            | live on n =>
                obtain ⟨-, htl, -, n', hm, hle⟩ := hlog.live hf hbehind on n rfl
                cases hm
                have htotal : k.dir.tailLength = (tailHead w ⟨k.epoch, j⟩).length +
                    (frames w.action (k.acted.drop j)).length := by
                  rw [h.tail.2.2.length]
                  exact min_eq_right hle
                have hlen' : len = k.dir.tailLength := Option.some.inj (hlen.symm.trans htl)
                refine Or.inr ⟨hfr, Or.inr ⟨?_, ?_, (k.acted.drop j).length, le_refl _, ?_, ?_⟩⟩
                · show (tailHead w ⟨k.epoch, j⟩).length ≤ len
                  omega
                · show len ≤ d'.tailLength
                  omega
                · rw [List.take_length, hlen', htotal]
                · rw [hstate, List.take_length, ← ThreadState.applyAll_append,
                    List.take_append_drop, ← hlog.state]
        · exact Or.inl hfr
      · rw [halive none l' hl']
        refine ⟨hlog.cursor, hlog.state, ?_, fun hw => hsynced (hlog.whole hw), ?_, ?_⟩
        · rw [Grip, hfile, hlength]
          exact hlog.grip
        · intro hlt hd len hh
          obtain ⟨hfrom, -, -⟩ := hheaded hd len hh
          rw [hfrom]
          rcases hlog.grip with ⟨hf, -⟩ | ⟨-, hfr⟩
          · rw [hfile] at hlt
            omega
          · exact hfr
        · intro hf hbehind on n hm
          rw [hfile] at hf
          exact hsynced (hlog.live hf hbehind on n hm)

/-- Where the tail gives nothing, no head is of it, or none can be taken. -/
theorem TailMode.Heads.of_unread {d : Dir} {snap : Cursor} {state : ThreadState}
    {after : List Action} (hheads : m.Heads w d snap state) (hholds : m.Holds w d snap after)
    (hread : (d.readTail w snap).2 = none) {hd : StoredHead} {len : Nat}
    (hheaded : Headed w d hd len) :
    hd.fromCursor.Before snap ∨
      hd.fromCursor = snap ∧ Dir.tailHeadRead < (tailHead w snap).length := by
  cases m with
  | missing =>
      rcases hheads hd len hheaded with hold | ⟨heq, hlong | ⟨-, hnames⟩⟩
      · exact Or.inl hold
      · exact Or.inr ⟨heq, hlong⟩
      · exact absurd hnames id
  | stale c body n =>
      left
      rcases hheads hd len hheaded with hold | ⟨heq, -⟩
      · exact hold.trans hholds.1
      · rw [heq]
        exact hholds.1
  | live on n =>
      obtain ⟨-, hfit, htail⟩ := hholds
      rcases hheads hd len hheaded with hold | ⟨heq, hlong | ⟨hle, hlen, -⟩⟩
      · exact Or.inl hold
      · exact Or.inr ⟨heq, hlong⟩
      · rcases htail.readTail hfit with ⟨hcut, -⟩ | ⟨-, i, -, hsome, -⟩
        · -- a tail torn in its head is shorter than any length a head names
          have hle' : (tailHead w snap).length ≤ d.tailLength := hle.trans hlen
          rw [htail.length] at hle'
          exact absurd (hle'.trans (min_le_left _ _)) (not_le.mpr hcut)
        · rw [hsome] at hread
          cases hread

theorem frames_take_mono (on : List Action) {i i' : Nat} (h : i' ≤ i) :
    (frames w.action (on.take i')).length ≤ (frames w.action (on.take i)).length := by
  have htake : (on.take i).take i' = on.take i' := by rw [List.take_take, min_eq_left h]
  rw [← List.take_append_drop i' (on.take i), htake, frames_append, List.length_append]
  exact Nat.le_add_right _ _

/-- Opening a tail that continues the snapshot keeps its whole actions and cuts off the rest. -/
theorem InvAt.openTail (h : InvAt w k j m) {len : Nat}
    (hread : (k.dir.readTail w ⟨k.epoch, j⟩).2 = some len) (limits : Limits) :
    ∃ m', InvAt w
      { k with
        dir := { k.dir with tail := k.dir.tail.map (List.take len) }
        log := some ((Log.ofSnapshot limits ⟨k.epoch, j⟩ (k.base.applyAll (k.acted.take j))
          k.dir.tailFile len).replay (k.dir.readTail w ⟨k.epoch, j⟩).1)
        acted := k.acted.take (j + (k.dir.readTail w ⟨k.epoch, j⟩).1.length)
        behind := false
        whole := true } j m' := by
  cases m with
  | missing =>
      have htail : k.dir.tail = none := h.tail
      simp [Dir.readTail, htail] at hread
  | stale c body n =>
      rw [h.tail.2.readTail_of_ne h.tail.1.ne] at hread
      cases hread
  | live on n =>
      obtain ⟨hon, hfit, htail⟩ := h.tail
      rcases htail.readTail hfit with ⟨-, hnone⟩ | ⟨-, i, hi, hsome, hlen, hall⟩
      · rw [hnone] at hread
        cases hread
      rw [hsome] at hread
      cases hread
      obtain ⟨p, hp, hpeq, hstate⟩ := applyAll_take_drop k.base k.acted on h.le hon i
      have hcount : (k.dir.readTail w ⟨k.epoch, j⟩).1.length = (on.take i).length := by
        rw [hsome, ← List.length_map Prod.fst, map_fst_sized]
      obtain ⟨hls, hlc, hlf, hlfrom, hll⟩ := Log.replay_spec (Log.ofSnapshot limits ⟨k.epoch, j⟩
        (k.base.applyAll (k.acted.take j)) k.dir.tailFile
        ((tailHead w ⟨k.epoch, j⟩).length + (frames w.action (on.take i)).length))
        (k.dir.readTail w ⟨k.epoch, j⟩).1
      rw [hcount, ← hpeq]
      generalize hlog : Log.replay _ _ = l at hls hlc hlf hlfrom hll ⊢
      generalize hN : (tailHead w ⟨k.epoch, j⟩).length + (frames w.action (on.take i)).length = N
        at hlen hll ⊢
      generalize hd' : ({ k.dir with tail := k.dir.tail.map (List.take N) } : Dir) = d'
      have hfile : d'.tailFile = k.dir.tailFile := by rw [← hd']
      have hlength : d'.tailLength = N := by
        rw [← hd', Dir.tailLength_cut]
        exact min_eq_left hlen
      have htail' : d'.TailIs w ⟨k.epoch, j⟩ (frames w.action (on.take i)) N := by
        have hcut := htail.cut N
        rw [hd'] at hcut
        have hof := hcut.of_length (hlength.trans hN.symm)
        rwa [hN] at hof
      have hafter : (k.acted.take p).drop j = on.take i := by
        rw [List.drop_take, hpeq, Nat.add_sub_cancel_left, take_eq_of_isPrefix hon i,
          List.length_take, List.length_drop]
        congr 1
        have hle := hon.length_le
        rw [List.length_drop] at hle
        omega
      have hbefore : (k.acted.take p).take j = k.acted.take j := by
        rw [List.take_take, min_eq_left (by omega)]
      have hcount' : (k.acted.take p).length = p := List.length_take_of_le hp
      have hsynced : Synced w
          { k with dir := d', log := some l, acted := k.acted.take p, behind := false, whole := true }
          l ⟨k.epoch, j⟩ (.live (on.take i) N) := by
        refine ⟨hlf.trans hfile.symm, hll.trans (by rw [hlength]; rfl), rfl, N, ?_, ?_⟩
        · rw [hafter]
        · rw [hafter]
          exact hN.le
      refine ⟨.live (on.take i) N, ?_, ?_, ⟨?_, ?_, htail'⟩, ?_, ?_⟩
      · show j ≤ (k.acted.take p).length
        omega
      · show d'.snapshot = some (w.stored.toBytes
          (⟨k.epoch, j⟩, k.base.applyAll ((k.acted.take p).take j)))
        rw [hbefore, ← hd']
        exact h.snapshot
      · show on.take i <+: (k.acted.take p).drop j
        rw [hafter]
      · exact fun a ha => hfit a (List.mem_of_mem_take ha)
      · -- a head's length is of whole actions, so it stays within what is kept
        intro hd len hheaded
        have hheaded' : Headed w k.dir hd len := by
          rw [Headed, ← hd'] at hheaded
          exact hheaded
        rcases h.heads hd len hheaded' with hold | ⟨heq, hlong | ⟨hle, hlen', i', hi', hlen'', hs⟩⟩
        · exact Or.inl hold
        · exact Or.inr ⟨heq, Or.inl hlong⟩
        · have hii : i' ≤ i := by
            apply hall i' hi'
            rw [← hlen'']
            rw [htail.length] at hlen'
            exact hlen'.trans (min_le_left _ _)
          have htake : (on.take i).take i' = on.take i' := by rw [List.take_take, min_eq_left hii]
          refine Or.inr ⟨heq, Or.inr ⟨hle, ?_, i', ?_, ?_, ?_⟩⟩
          · show len ≤ d'.tailLength
            have hmono := frames_take_mono (w := w) on hii
            omega
          · rw [List.length_take]
            exact le_min hii hi'
          · rw [htake]
            exact hlen''
          · show hd.state = { (k.base.applyAll ((k.acted.take p).take j)).applyAll
              ((on.take i).take i') with items := [] }
            rw [hbefore, htake]
            exact hs
      · intro l' hl'
        cases hl'
        refine ⟨?_, ?_, Or.inl ⟨hlf.trans hfile.symm, hlfrom, ?_⟩, fun _ => hsynced, ?_,
          fun _ _ _ _ _ => hsynced⟩
        · show l.cursor = ⟨k.epoch, (k.acted.take p).length⟩
          rw [hlc, hcount, hcount', hpeq]
          rfl
        · rw [hls, hsome, map_fst_sized]
          exact hstate
        · show (tailHead w ⟨k.epoch, j⟩).length ≤ d'.tailLength
          omega
        · intro hlt
          have hlt' : l.file < d'.tailFile := hlt
          rw [hlf, hfile] at hlt'
          exact absurd hlt' (lt_irrefl _)

/-- Opening over a tail that gives nothing starts a new one, if it gets that far. -/
theorem InvAt.openNew (h : InvAt w k j m) (hlog : k.log = none)
    (hread : (k.dir.readTail w ⟨k.epoch, j⟩).2 = none) (limits : Limits) (fates : Dir.TailFates) :
    (∀ halt, (k.dir.startTail w ⟨k.epoch, j⟩ fates).2 = .error halt →
      ∃ m', InvAt w { k with dir := (k.dir.startTail w ⟨k.epoch, j⟩ fates).1 } j m') ∧
    ∀ len, (k.dir.startTail w ⟨k.epoch, j⟩ fates).2 = .ok len →
      ∃ m', InvAt w
        { k with
          dir := (k.dir.startTail w ⟨k.epoch, j⟩ fates).1
          log := some ((Log.ofSnapshot limits ⟨k.epoch, j⟩ (k.base.applyAll (k.acted.take j))
            (k.dir.startTail w ⟨k.epoch, j⟩ fates).1.tailFile len).replay [])
          acted := k.acted.take j
          behind := false
          whole := true } j m' := by
  have hnone : ∀ l, k.log = some l → False := by
    intro l hl
    rw [hlog] at hl
    cases hl
  have hold : ∀ hd len, Headed w
      { k.dir with
        tail := some (tailHead w ⟨k.epoch, j⟩)
        tailFile := k.dir.tailFile + 1 } hd len → hd.fromCursor.Before ⟨k.epoch, j⟩ ∨
      hd.fromCursor = ⟨k.epoch, j⟩ ∧ Dir.tailHeadRead < (tailHead w ⟨k.epoch, j⟩).length :=
    fun hd len hheaded => h.heads.of_unread h.tail hread hheaded
  have hbefore : (k.acted.take j).take j = k.acted.take j := by rw [List.take_take, min_self]
  have hcount : (k.acted.take j).length = j := List.length_take_of_le h.le
  have hafter : (k.acted.take j).drop j = [] := List.drop_eq_nil_of_le hcount.le
  rcases k.dir.startTail_cases w ⟨k.epoch, j⟩ fates with
    ⟨halt, heq, -⟩ | ⟨halt, hfits, heq⟩ | ⟨hfits, heq⟩
  · rw [heq]
    refine ⟨fun _ _ => ⟨m, h⟩, fun len hlen => by cases hlen⟩
  · rw [heq]
    obtain ⟨hholds, hheads⟩ := TailMode.live_nil hfits rfl hold (k.acted.drop j)
      (k.base.applyAll (k.acted.take j))
    exact ⟨fun _ _ => ⟨_, h.le, h.snapshot, hholds, hheads, fun l hl => (hnone l hl).elim⟩,
      fun len hlen => by cases hlen⟩
  · rw [heq]
    obtain ⟨hholds, hheads⟩ := TailMode.live_nil hfits rfl hold ((k.acted.take j).drop j)
      (k.base.applyAll ((k.acted.take j).take j))
    refine ⟨fun _ he => (nomatch he), fun len hlen => ?_⟩
    cases hlen
    refine ⟨_, hcount.ge, ?_, hholds, hheads, ?_⟩
    · show k.dir.snapshot = _
      rw [hbefore]
      exact h.snapshot
    · intro l hl
      cases hl
      have hsynced : ∀ k' : Kept, ∀ l', k'.acted = k.acted.take j → k'.behind = false →
          l'.file = k'.dir.tailFile → l'.tailLen = some k'.dir.tailLength →
          Synced w k' l' ⟨k.epoch, j⟩ (.live [] (tailHead w ⟨k.epoch, j⟩).length) := by
        intro k' l' hacted hbehind hfile hlength
        refine ⟨hfile, hlength, hbehind, (tailHead w ⟨k.epoch, j⟩).length, ?_, ?_⟩
        · rw [hacted, hafter]
        · rw [hacted, hafter]
          exact le_refl _
      refine ⟨?_, ?_, Or.inl ⟨rfl, rfl, le_refl _⟩, fun _ => hsynced _ _ rfl rfl rfl rfl, ?_,
        fun _ _ _ _ _ => hsynced _ _ rfl rfl rfl rfl⟩
      · show (⟨k.epoch, j⟩ : Cursor) = ⟨k.epoch, (k.acted.take j).length⟩
        rw [hcount]
      · rfl
      · intro hlt
        exact absurd hlt (lt_irrefl _)

theorem InvAt.openDir (h : InvAt w k j m) (hlog : k.log = none) (limits : Limits)
    (fates : OpenFates) : ∃ m', InvAt w (k.openDir w limits fates) j m' := by
  have hstored : k.dir.snapshot.bind w.stored.fromBytes =
      some (⟨k.epoch, j⟩, k.base.applyAll (k.acted.take j)) := by
    rw [h.snapshot, Option.bind_some, w.stored.from_to]
  cases hread : (k.dir.readTail w ⟨k.epoch, j⟩).2 with
  | some len =>
      obtain ⟨m', hm'⟩ := h.openTail hread limits
      have hseq : ∀ st, ((Log.ofSnapshot limits ⟨k.epoch, j⟩ st k.dir.tailFile len).replay
          (k.dir.readTail w ⟨k.epoch, j⟩).1).cursor.seq =
            j + (k.dir.readTail w ⟨k.epoch, j⟩).1.length := by
        intro st
        rw [(Log.replay_spec _ _).2.1]
        rfl
      simp only [Kept.openDir, Log.openDir, hstored, hread]
      cases fates.opened.halt with
      | some halt => exact ⟨m, h⟩
      | none =>
          cases fates.cut.halt with
          | some halt => exact ⟨m, h⟩
          | none =>
              simp only [hseq]
              exact ⟨m', hm'⟩
  | none =>
      obtain ⟨herror, hok⟩ := h.openNew hlog hread limits fates.tail
      simp only [Kept.openDir, Log.openDir, hstored, hread, Dir.readTail_none hread]
      cases hstart : k.dir.startTail w ⟨k.epoch, j⟩ fates.tail with
      | mk d' made =>
          rw [hstart] at herror hok
          cases made with
          | error halt => exact herror halt rfl
          | ok len => exact hok len rfl

theorem Fate.halt_ne_refused {f : Fate} (h : f.isRefused = false) : f.halt ≠ some .refused := by
  cases f with
  | done => simp [Fate.halt]
  | refused n => cases h
  | stopped => simp [Fate.halt]

/-- A snapshot none of whose writes is refused is in place, or the process stopped before that. -/
theorem Dir.writeSnapshot_placed {d : Dir} {c : Cursor} {st : ThreadState} {wrote renamed : Fate}
    (hwrote : wrote.isRefused = false) (hrenamed : renamed.isRefused = false) :
    (d.writeSnapshot w c st wrote renamed).2 ≠ some .refused := by
  simp only [Dir.writeSnapshot, Dir.replace]
  cases hw : wrote.halt with
  | some halt =>
      rintro ⟨rfl⟩
      exact Fate.halt_ne_refused hwrote hw
  | none =>
      cases hr : renamed.halt with
      | some halt =>
          rintro ⟨rfl⟩
          exact Fate.halt_ne_refused hrenamed hr
      | none => simp

theorem Dir.writeSnapshot_stopped {d : Dir} {c : Cursor} {st : ThreadState} {wrote renamed : Fate}
    (hnone : (d.writeSnapshot w c st wrote renamed).2 = none) :
    wrote ≠ .stopped ∧ renamed ≠ .stopped := by
  constructor
  · rintro rfl
    cases hnone
  · rintro rfl
    simp only [Dir.writeSnapshot, Dir.replace] at hnone
    cases hw : wrote.halt with
    | some halt =>
        rw [hw] at hnone
        cases hnone
    | none =>
        rw [hw] at hnone
        cases hnone

theorem InvAt.reset (h : InvAt w k j m) {l : Log} (hl : k.log = some l) {state : ThreadState}
    {fates : CompactFates} (hc : k.InStep w (.reset state fates)) :
    ∃ j' m', InvAt w (k.reset w l state fates) j' m' := by
  have hlog := h.log l hl
  obtain ⟨hwrote, hrenamed, hhead⟩ := hc
  have hcursor : (l.restarted state).cursor = ⟨k.epoch + 1, 0⟩ := by
    rw [Log.restarted, hlog.cursor]
  cases hplaced : (k.dir.writeSnapshot w (l.restarted state).cursor state fates.wroteSnapshot
      fates.renamedSnapshot).2 with
  | some halt =>
      cases halt with
      | refused => exact absurd hplaced (Dir.writeSnapshot_placed hwrote hrenamed)
      | stopped =>
          -- the process stopped before the new epoch was there
          rcases k.dir.writeSnapshot_eq w (l.restarted state).cursor state fates.wroteSnapshot
            fates.renamedSnapshot with ⟨halt, heq⟩ | heq
          · have hdir : (l.reset w k.dir state fates).2.1 = k.dir := by
              simp only [Log.reset, Log.compact]
              rw [show (l.restarted state).state = state from rfl, heq]
            simp only [Kept.reset, hplaced, if_true, hdir]
            exact ⟨j, m, h.stop⟩
          · rw [heq] at hplaced
            cases hplaced
  | none =>
      obtain ⟨hw, hr⟩ := Dir.writeSnapshot_stopped hplaced
      have hun : Unnamed w k.dir (m.cursor ⟨k.epoch, j⟩) ∨
          (∃ frame, encode w.tailHead (l.restarted state).cursor = .ok frame) ∧
            fates.tail.wrote = .done ∧ fates.tail.renamed = .done := by
        rcases hhead with hs | hs | hnone | hput
        · exact absurd hs hw
        · exact absurd hs hr
        · exact Or.inl (h.heads.unnamed h.tail hnone)
        · rw [hcursor]
          exact Or.inr hput
      have hb : (⟨k.epoch, j⟩ : Cursor).Before (l.restarted state).cursor := by
        rw [hcursor]
        exact Or.inl (Nat.lt_succ_self _)
      simp only [Kept.reset, hplaced, reduceCtorEq, if_false]
      refine ⟨_, compacted (l := l.restarted state) h.tail h.heads hlog.grip hb hplaced hun hlog.old
        rfl rfl hcursor rfl ?_ rfl⟩
      intro hhalt
      show (k.whole && _) = false
      rw [Bool.and_eq_false_iff]
      right
      rw [Log.reset]
      exact Option.isNone_eq_false_iff.mpr (Option.isSome_iff_ne_none.mpr hhalt)

end Steps

end Slopty.Thread
