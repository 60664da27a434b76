import Slopty.Thread.Recovery

/-!
An append keeps a thread's files in step with its log, and with every other step of a run it makes
opening them give a first part of what was appended.
-/

namespace Slopty.Thread

open Slopty.Lib Slopty.Proto.Codec

theorem reached_of_encodable {w : Wires} {actions : List Action} (h : encodable w actions = true) :
    reached w actions = actions ∧ Fit w.action actions := by
  induction actions with
  | nil => exact ⟨rfl, fun a ha => absurd ha List.not_mem_nil⟩
  | cons a rest ih =>
      rw [encodable, List.all_cons, Bool.and_eq_true] at h
      obtain ⟨ha, hrest⟩ := h
      obtain ⟨hreached, hfit⟩ := ih hrest
      cases hcode : encode w.action a with
      | error e =>
          rw [hcode] at ha
          cases ha
      | ok frame =>
          refine ⟨?_, ?_⟩
          · simp only [reached, hcode, hreached]
          · intro b hb
            rcases List.mem_cons.mp hb with rfl | hb
            · exact (encode_eq_ok hcode).2
            · exact hfit b hb

/-- What the loop of `append` leaves alone, and the frames it gathers when every action has one. -/
theorem Log.take_frames (w : Wires) (log : Log) (before : Bytes) (turnEnded : Bool)
    (actions : List Action) :
    (log.take w before turnEnded actions).1.file = log.file ∧
      (log.take w before turnEnded actions).1.tailFrom = log.tailFrom ∧
      (log.take w before turnEnded actions).1.tailLen = log.tailLen ∧
      (encodable w actions = false → (log.take w before turnEnded actions).2 = none) ∧
      (encodable w actions = true → ∃ ended,
        (log.take w before turnEnded actions).2 = some (before ++ frames w.action actions, ended) ∧
          (ended = true → turnEnded = true ∨ actions ≠ [])) := by
  induction actions generalizing log before turnEnded with
  | nil =>
      refine ⟨rfl, rfl, rfl, fun h => (nomatch h), fun _ => ⟨turnEnded, ?_, Or.inl⟩⟩
      simp [Log.take, frames]
  | cons a rest ih =>
      simp only [Log.take, encodable, List.all_cons]
      cases hcode : encode w.action a with
      | error e =>
          refine ⟨rfl, rfl, rfl, fun _ => rfl, fun h => ?_⟩
          rw [Bool.false_and] at h
          cases h
      | ok frame =>
          obtain ⟨hfile, hfrom, hlen, hnone, hsome⟩ :=
            ih ((log.act a).keep a frame.length) (before ++ frame) (turnEnded || a.isTurnEnded)
          obtain ⟨rfl, -⟩ := encode_eq_ok hcode
          rw [Bool.true_and]
          refine ⟨hfile, hfrom, hlen, hnone, fun h => ?_⟩
          obtain ⟨ended, heq, -⟩ := hsome h
          refine ⟨ended, ?_, fun _ => Or.inr (List.cons_ne_nil _ _)⟩
          rw [heq, frames_cons, List.append_assoc]

section Append

variable {w : Wires} {k : Kept} {j : Nat} {m : TailMode}

/-- What a write of some of the frames of further actions leaves of the files. -/
structure Written (w : Wires) (k : Kept) (l : Log) (j : Nat) (m : TailMode) (actions : List Action)
    (q : Nat) (d : Dir) (m' : TailMode) : Prop where
  snapshot : d.snapshot = k.dir.snapshot
  file : d.tailFile = k.dir.tailFile
  tail : m'.Holds w d ⟨k.epoch, j⟩ ((k.acted ++ actions).drop j)
  heads : m'.Heads w d ⟨k.epoch, j⟩ (k.base.applyAll (k.acted.take j))
  cursor : m'.cursor ⟨k.epoch, j⟩ = m.cursor ⟨k.epoch, j⟩
  grip : Grip w l d (m'.cursor ⟨k.epoch, j⟩)
  old : l.file < d.tailFile → ∀ h len, Headed w d h len →
    h.fromCursor.Before (m'.cursor ⟨k.epoch, j⟩)
  /-- A tail that held all of the log takes what is written of them. -/
  live : l.file = d.tailFile → ∀ on n, m = .live on n ∨ m' = .live on n →
    m' = .live ((k.acted ++ actions).drop j) ((tailHead w ⟨k.epoch, j⟩).length +
        (frames w.action (k.acted.drop j)).length + q) ∧
      l.tailLen.map (· + ((frames w.action actions).take q).length) = some d.tailLength
  unnamed : (frames w.action actions).take q ≠ [] → Unnamed w d (m'.cursor ⟨k.epoch, j⟩)

theorem InvAt.written_old (h : InvAt w k j m) {l : Log} (hl : k.log = some l)
    (hfile : l.file < k.dir.tailFile) (actions : List Action) (q : Nat) :
    Written w k l j m actions q (k.dir.write l.file ((frames w.action actions).take q)) m := by
  have hlog := h.log l hl
  have hdir : k.dir.write l.file ((frames w.action actions).take q) = k.dir := by
    rw [Dir.write, if_neg hfile.ne]
  rw [hdir]
  refine ⟨rfl, rfl, ?_, h.heads, rfl, hlog.grip, hlog.old, fun heq => absurd heq hfile.ne, ?_⟩
  · cases m with
    | missing => exact h.tail
    | stale c body n => exact h.tail
    | live on n =>
        refine ⟨h.tail.1.trans ?_, h.tail.2⟩
        rw [List.drop_append_of_le_length h.le]
        exact List.prefix_append _ _
  · intro _ hd len hheaded heq
    exact absurd heq (hlog.old hfile hd len hheaded).ne

theorem Dir.tailLength_write {d : Dir} {file : Nat} {tail : Bytes} (bytes : Bytes)
    (hfile : file = d.tailFile) (htail : d.tail = some tail) :
    (d.write file bytes).tail = some (tail ++ bytes) ∧
      (d.write file bytes).tailLength = d.tailLength + bytes.length := by
  rw [Dir.write, if_pos hfile]
  have hnew : d.tail.map (· ++ bytes) = some (tail ++ bytes) := by
    rw [htail, Option.map_some]
  refine ⟨hnew, ?_⟩
  rw [Dir.tailLength, Dir.tailLength]
  show ((d.tail.map (· ++ bytes)).getD []).length = _
  rw [hnew, htail, Option.getD_some, Option.getD_some, List.length_append]

theorem InvAt.written_live {on : List Action} {n : Nat} (h : InvAt w k j (.live on n)) {l : Log}
    (hl : k.log = some l) (hfile : l.file = k.dir.tailFile) (hbehind : k.behind = false)
    {actions : List Action} (hfit : Fit w.action actions) (q : Nat) :
    Written w k l j (.live on n) actions q (k.dir.write l.file ((frames w.action actions).take q))
      (.live ((k.acted ++ actions).drop j) ((tailHead w ⟨k.epoch, j⟩).length +
        (frames w.action (k.acted.drop j)).length + q)) := by
  have hlog := h.log l hl
  obtain ⟨-, htailLen, -, n', hm, hle⟩ := hlog.live hfile hbehind on n rfl
  cases hm
  obtain ⟨-, hfitOn, htail⟩ := h.tail
  have hdrop : (k.acted ++ actions).drop j = k.acted.drop j ++ actions :=
    List.drop_append_of_le_length h.le
  have hbytes : k.dir.tail = some (tailHead w ⟨k.epoch, j⟩ ++ frames w.action (k.acted.drop j)) := by
    rw [htail.2, List.take_of_length_le (by rw [List.length_append]; exact hle)]
  obtain ⟨hnew, hlength⟩ := Dir.tailLength_write
    ((frames w.action actions).take q) hfile hbytes
  generalize hd' : k.dir.write l.file ((frames w.action actions).take q) = d' at hnew hlength ⊢
  have hrest : d'.snapshot = k.dir.snapshot ∧ d'.head = k.dir.head ∧
      d'.tailFile = k.dir.tailFile := by
    rw [← hd', Dir.write, if_pos hfile]
    exact ⟨rfl, rfl, rfl⟩
  have hheaded : ∀ hd len, Headed w d' hd len → Headed w k.dir hd len := by
    intro hd len hh
    rwa [Headed, hrest.2.1] at hh
  refine ⟨hrest.1, hrest.2.2, ⟨List.prefix_refl _, ?_, htail.1, ?_⟩, ?_, rfl, ?_, ?_, ?_, ?_⟩
  · rw [hdrop]
    intro a ha
    rcases List.mem_append.mp ha with ha | ha
    · exact hfitOn a ha
    · exact hfit a ha
  · rw [hnew, hdrop, frames_append, ← List.append_assoc, ← List.length_append,
      List.take_length_add_append]
  · intro hd len hh
    rcases h.heads hd len (hheaded hd len hh) with hold | ⟨heq, hlong | ⟨hle', hlen, i, hi, hlen', hs⟩⟩
    · exact Or.inl hold
    · exact Or.inr ⟨heq, Or.inl hlong⟩
    · have htake : (k.acted.drop j ++ actions).take i = (k.acted.drop j).take i :=
        List.take_append_of_le_length hi
      refine Or.inr ⟨heq, Or.inr ⟨hle', ?_, i, ?_, ?_, ?_⟩⟩
      · show len ≤ d'.tailLength
        rw [hlength]
        exact hlen.trans (Nat.le_add_right _ _)
      · rw [hdrop, List.length_append]
        exact hi.trans (Nat.le_add_right _ _)
      · rw [hdrop, htake]
        exact hlen'
      · rw [hdrop, htake]
        exact hs
  · left
    refine ⟨hfile.trans hrest.2.2.symm, ?_, ?_⟩
    · rcases hlog.grip with ⟨-, hfrom, -⟩ | ⟨hlt, -⟩
      · exact hfrom
      · exact absurd hfile hlt.ne
    · rcases hlog.grip with ⟨-, -, hlen⟩ | ⟨hlt, -⟩
      · exact hlen.trans (by omega)
      · exact absurd hfile hlt.ne
  · intro hlt
    rw [hrest.2.2] at hlt
    exact absurd hfile hlt.ne
  · intro _ _ _ _
    refine ⟨rfl, ?_⟩
    rw [htailLen, Option.map_some, hlength]
  · intro hne hd len hh heq
    have hpos := List.length_pos_of_ne_nil hne
    rcases h.heads hd len (hheaded hd len hh) with hold | ⟨-, hlong | ⟨-, hlen, -⟩⟩
    · exact absurd heq hold.ne
    · exact Or.inl hlong
    · right
      omega

/-- A tail the snapshot has passed grows by what is written, and is not read. -/
theorem InvAt.written_stale {c : Cursor} {body : Bytes} {n : Nat} (h : InvAt w k j (.stale c body n))
    {l : Log} (hl : k.log = some l) (hfile : l.file = k.dir.tailFile) (actions : List Action)
    (q : Nat) :
    ∃ body' n', Written w k l j (.stale c body n) actions q
      (k.dir.write l.file ((frames w.action actions).take q)) (.stale c body' n') := by
  have hlog := h.log l hl
  obtain ⟨hb, htail⟩ := h.tail
  have hgrip : l.tailFrom = c ∧ (tailHead w c).length ≤ k.dir.tailLength := by
    rcases hlog.grip with ⟨-, hfrom, hlen⟩ | ⟨hlt, -⟩
    · exact ⟨hfrom, hlen⟩
    · exact absurd hfile hlt.ne
  obtain ⟨hnew, hlength⟩ := Dir.tailLength_write
    ((frames w.action actions).take q) hfile htail.2
  generalize hd' : k.dir.write l.file ((frames w.action actions).take q) = d' at hnew hlength ⊢
  have hrest : d'.snapshot = k.dir.snapshot ∧ d'.head = k.dir.head ∧
      d'.tailFile = k.dir.tailFile := by
    rw [← hd', Dir.write, if_pos hfile]
    exact ⟨rfl, rfl, rfl⟩
  have hheaded : ∀ hd len, Headed w d' hd len → Headed w k.dir hd len := by
    intro hd len hh
    rwa [Headed, hrest.2.1] at hh
  have hn : (tailHead w c).length ≤ n := by
    have hle := hgrip.2
    rw [htail.length] at hle
    exact hle.trans (min_le_left _ _)
  -- the head is whole, so what is there is the head and something behind it
  obtain ⟨rest, hwhole⟩ : ∃ rest, (tailHead w c ++ body).take n = tailHead w c ++ rest :=
    ⟨body.take (n - (tailHead w c).length), by rw [List.take_append, List.take_of_length_le hn]⟩
  rw [hwhole, List.append_assoc] at hnew
  refine ⟨rest ++ (frames w.action actions).take q,
    (tailHead w c ++ (rest ++ (frames w.action actions).take q)).length, hrest.1, hrest.2.2,
    ⟨hb, htail.1, by rw [hnew, List.take_length]⟩, ?_, rfl, ?_, ?_, ?_, ?_⟩
  · intro hd len hh
    rcases h.heads hd len (hheaded hd len hh) with hold | ⟨heq, hlong | ⟨hle', hlen⟩⟩
    · exact Or.inl hold
    · exact Or.inr ⟨heq, Or.inl hlong⟩
    · refine Or.inr ⟨heq, Or.inr ⟨hle', ?_⟩⟩
      have hlt : len < k.dir.tailLength := hlen
      show len < d'.tailLength
      omega
  · left
    refine ⟨hfile.trans hrest.2.2.symm, hgrip.1, hgrip.2.trans ?_⟩
    omega
  · intro hlt
    rw [hrest.2.2] at hlt
    exact absurd hfile hlt.ne
  · rintro - on n' (hm | hm) <;> cases hm
  · intro hne hd len hh heq
    rcases h.heads hd len (hheaded hd len hh) with hold | ⟨-, hlong | ⟨-, hlen⟩⟩
    · exact absurd heq hold.ne
    · exact Or.inl hlong
    · right
      have hlt : len < k.dir.tailLength := hlen
      omega

theorem InvAt.written (h : InvAt w k j m) {l : Log} (hl : k.log = some l) (hbehind : k.behind = false)
    {actions : List Action} (hfit : Fit w.action actions) (q : Nat) :
    ∃ m', Written w k l j m actions q
      (k.dir.write l.file ((frames w.action actions).take q)) m' := by
  have hlog := h.log l hl
  rcases hlog.grip with ⟨hfile, -⟩ | ⟨hfile, -⟩
  · cases m with
    | missing => exact absurd rfl (hlog.grip.ne_missing h.tail hfile)
    | live on n => exact ⟨_, h.written_live hl hfile hbehind hfit q⟩
    | stale c body n =>
        obtain ⟨body', n', hwritten⟩ := h.written_stale hl hfile actions q
        exact ⟨_, hwritten⟩
  · exact ⟨m, h.written_old hl hfile actions q⟩

theorem InvAt.take_more (h : InvAt w k j m) (actions : List Action) :
    j ≤ (k.acted ++ actions).length ∧ (k.acted ++ actions).take j = k.acted.take j := by
  constructor
  · rw [List.length_append]
    exact h.le.trans (Nat.le_add_right _ _)
  · exact List.take_append_of_le_length h.le

/-- A log whose last write leaves it in step, or behind. -/
structure LogAfter (k : Kept) (l : Log) (actions : List Action) (l' : Log) : Prop where
  cursor : l'.cursor = ⟨k.epoch, (k.acted ++ actions).length⟩
  state : l'.state = k.base.applyAll (k.acted ++ actions)
  file : l'.file = l.file
  tailFrom : l'.tailFrom = l.tailFrom

theorem Grip.log {l l' : Log} {d : Dir} {c : Cursor} (h : Grip w l d c) (hfile : l'.file = l.file)
    (hfrom : l'.tailFrom = l.tailFrom) : Grip w l' d c := by
  rw [Grip, hfile, hfrom]
  exact h

/-- Actions that reach the state alone: the log is behind from then on, or gone. -/
theorem InvAt.more (h : InvAt w k j m) (actions : List Action) (lg : Option Log)
    (behind whole : Bool)
    (hlog : ∀ l', lg = some l' → behind = true ∧ whole = false ∧
      ∃ l, k.log = some l ∧ LogAfter k l actions l') :
    InvAt w { k with
      log := lg
      acted := k.acted ++ actions
      behind := behind
      whole := whole } j m := by
  obtain ⟨hle, htake⟩ := h.take_more actions
  refine ⟨hle, ?_, ?_, ?_, ?_⟩
  · show k.dir.snapshot = some (w.stored.toBytes
      (⟨k.epoch, j⟩, k.base.applyAll ((k.acted ++ actions).take j)))
    rw [htake]
    exact h.snapshot
  · cases m with
    | missing => exact h.tail
    | stale c body n => exact h.tail
    | live on n =>
        refine ⟨h.tail.1.trans ?_, h.tail.2⟩
        show k.acted.drop j <+: (k.acted ++ actions).drop j
        rw [List.drop_append_of_le_length h.le]
        exact List.prefix_append _ _
  · show m.Heads w k.dir ⟨k.epoch, j⟩ (k.base.applyAll ((k.acted ++ actions).take j))
    rw [htake]
    exact h.heads
  · intro l' hl'
    obtain ⟨rfl, rfl, l, hl, hafter⟩ := hlog l' hl'
    have hold := h.log l hl
    refine ⟨hafter.cursor, hafter.state, hold.grip.log hafter.file hafter.tailFrom, ?_, ?_, ?_⟩
    · intro hw
      cases hw
    · intro hlt
      rw [hafter.file] at hlt
      exact hold.old hlt
    · intro _ hb
      cases hb

/-- What is written of further actions leaves the files in step with the log that has them. -/
theorem Written.invAt (h : InvAt w k j m) {l : Log} (hl : k.log = some l) {actions : List Action}
    {q : Nat} {d : Dir} {m' : TailMode} (hw : Written w k l j m actions q d m') {lg : Option Log}
    {behind whole : Bool}
    (hlog : ∀ l', lg = some l' → LogAfter k l actions l' ∧
      (whole = true → k.whole = true ∧ behind = false) ∧
      (behind = false → (frames w.action actions).length ≤ q ∧
        l'.tailLen = l.tailLen.map (· + (frames w.action actions).length))) :
    InvAt w { k with
      dir := d
      log := lg
      acted := k.acted ++ actions
      behind := behind
      whole := whole } j m' := by
  obtain ⟨hle, htake⟩ := h.take_more actions
  have hdrop : (k.acted ++ actions).drop j = k.acted.drop j ++ actions :=
    List.drop_append_of_le_length h.le
  refine ⟨hle, ?_, hw.tail, ?_, ?_⟩
  · show d.snapshot = some (w.stored.toBytes
      (⟨k.epoch, j⟩, k.base.applyAll ((k.acted ++ actions).take j)))
    rw [htake, hw.snapshot]
    exact h.snapshot
  · show m'.Heads w d ⟨k.epoch, j⟩ (k.base.applyAll ((k.acted ++ actions).take j))
    rw [htake]
    exact hw.heads
  · intro l' hl'
    obtain ⟨hafter, hwhole, hbehind⟩ := hlog l' hl'
    have hold := h.log l hl
    have hsynced : l.file = d.tailFile → behind = false → ∀ on n, m = .live on n ∨ m' = .live on n →
        Synced w { k with
          dir := d
          log := lg
          acted := k.acted ++ actions
          behind := behind
          whole := whole } l' ⟨k.epoch, j⟩ m' := by
      intro hfile hb on n hm
      obtain ⟨hm', hlen⟩ := hw.live hfile on n hm
      obtain ⟨hq, hlen'⟩ := hbehind hb
      refine ⟨hafter.file.trans hfile, ?_, hb, _, hm', ?_⟩
      · rw [hlen', ← hlen, List.take_of_length_le hq]
      · show _ + (frames w.action ((k.acted ++ actions).drop j)).length ≤ _
        rw [hdrop, frames_append, List.length_append]
        omega
    refine ⟨hafter.cursor, hafter.state, hw.grip.log hafter.file hafter.tailFrom, ?_, ?_, ?_⟩
    · intro hwh
      obtain ⟨hk, hb⟩ := hwhole hwh
      obtain ⟨hfile, -, -, n, hm, -⟩ := hold.whole hk
      exact hsynced (hfile.trans hw.file.symm) hb _ n (Or.inl hm)
    · intro hlt
      rw [hafter.file] at hlt
      exact hw.old hlt
    · intro hfile hb on n hm
      rw [hafter.file] at hfile
      exact hsynced hfile hb on n (Or.inr hm)

theorem alive_eq_some {l l' : Log} {halt : Option Halt} (h : Kept.alive l halt = some l') :
    l' = l := by
  rw [Kept.alive] at h
  split at h
  · cases h
  · exact (Option.some.inj h).symm

theorem InvAt.logAfter (h : InvAt w k j m) {l : Log} (hl : k.log = some l) (actions : List Action) :
    LogAfter k l (reached w actions) (l.take w [] false actions).1 := by
  have hlog := h.log l hl
  obtain ⟨hstate, hcursor⟩ := l.take_spec w [] false actions
  obtain ⟨hfile, hfrom, -⟩ := l.take_frames w [] false actions
  refine ⟨?_, ?_, hfile, hfrom⟩
  · rw [hcursor, hlog.cursor, List.length_append]
  · rw [hstate, hlog.state, ThreadState.applyAll_append]

/-- All of an append is in the tail file, and the log may be compacted. -/
theorem InvAt.append_done (h : InvAt w k j m) {l : Log} (hl : k.log = some l)
    (hbehind : k.behind = false) {actions : List Action} (hcode : encodable w actions = true)
    (fates : CompactFates) : ∃ j' m', InvAt w (k.append w l actions .done fates) j' m' := by
  obtain ⟨hreached, hfit⟩ := reached_of_encodable hcode
  obtain ⟨-, -, hlen, -, hsome⟩ := l.take_frames w [] false actions
  obtain ⟨ended, hout, hended⟩ := hsome hcode
  have hafter := h.logAfter hl actions
  rw [hreached] at hafter
  obtain ⟨m', hw⟩ := h.written hl hbehind hfit (frames w.action actions).length
  rw [List.take_length] at hw
  -- the log as it stands once the tail file has the frames
  generalize hl2 : ({ (l.take w [] false actions).1 with
      onDisk := (l.take w [] false actions).1.onDisk + actions.length
      tailLen := l.tailLen.map (· + (frames w.action actions).length) } : Log) = l2
  have hafter2 : LogAfter k l actions l2 := by
    rw [← hl2]
    exact ⟨hafter.cursor, hafter.state, hafter.file, hafter.tailFrom⟩
  have htailLen : l2.tailLen = l.tailLen.map (· + (frames w.action actions).length) := by
    rw [← hl2]
  have hr : l.append w k.dir actions .done fates =
      if ended && decide (l2.limits.compactAfter ≤ l2.onDisk) then
        l2.compact w (k.dir.write l.file (frames w.action actions)) fates
      else (l2, k.dir.write l.file (frames w.action actions), none) := by
    rw [Log.append, ← hl2]
    generalize l.take w [] false actions = out at hout hafter hlen
    obtain ⟨l1, got⟩ := out
    simp only at hout hafter hlen
    subst hout
    simp only [List.nil_append, hafter.file, hlen]
  have hgeneral : ∀ {lg : Option Log} {whole : Bool}, (∀ l', lg = some l' → l' = l2) →
      (whole = true → k.whole = true) → InvAt w { k with
        dir := k.dir.write l.file (frames w.action actions)
        log := lg
        acted := k.acted ++ actions
        behind := false
        whole := whole } j m' := by
    intro lg whole hlg hwhole
    apply Written.invAt h hl hw
    intro l' hl'
    rw [hlg l' hl']
    exact ⟨hafter2, fun hwh => ⟨hwhole hwh, rfl⟩, fun _ => ⟨le_refl _, htailLen⟩⟩
  have hflags : k.append w l actions .done fates =
      { k with
        dir := (l.append w k.dir actions .done fates).2.1
        log := Kept.alive (l.append w k.dir actions .done fates).1
          (l.append w k.dir actions .done fates).2.2
        acted := k.acted ++ actions
        behind := false
        whole := k.whole && (l.append w k.dir actions .done fates).2.2.isNone } := by
    simp only [Kept.append, hreached, hbehind, hcode, Fate.isRefused, Bool.and_true, Bool.not_true,
      Bool.or_false]
  rw [hflags, hr]
  split
  · rename_i hcompact
    rcases Dir.writeSnapshot_eq w (k.dir.write l.file (frames w.action actions)) l2.cursor l2.state
      fates.wroteSnapshot fates.renamedSnapshot with ⟨halt, heq⟩ | heq
    · have hfailed : l2.compact w (k.dir.write l.file (frames w.action actions)) fates =
          (l2, k.dir.write l.file (frames w.action actions), some halt) := by
        simp only [Log.compact, heq]
      rw [hfailed]
      refine ⟨j, m', hgeneral (fun l' hl' => alive_eq_some hl') fun hwh => ?_⟩
      rw [Bool.and_eq_true] at hwh
      exact hwh.1
    · have hne : actions ≠ [] := by
        rw [Bool.and_eq_true] at hcompact
        exact (hended hcompact.1).resolve_left (by simp)
      have hpos := List.length_pos_of_ne_nil hne
      have hframes : (frames w.action actions).take (frames w.action actions).length ≠ [] := by
        rw [List.take_length]
        intro hnil
        have hge := length_frames_ge w.action actions
        rw [hnil, List.length_nil] at hge
        omega
      have hb : (⟨k.epoch, j⟩ : Cursor).Before l2.cursor := by
        rw [hafter2.cursor]
        refine Or.inr ⟨rfl, ?_⟩
        show j < (k.acted ++ actions).length
        have hle := h.le
        rw [List.length_append]
        omega
      refine ⟨_, compacted hw.tail hw.heads (hw.grip.log hafter2.file hafter2.tailFrom) hb ?_
        (Or.inl (hw.unnamed hframes)) ?_ rfl rfl hafter2.cursor hafter2.state ?_ rfl⟩
      · rw [heq]
      · intro hlt
        rw [hafter2.file] at hlt
        exact hw.old hlt
      · intro hhalt
        rw [Bool.and_eq_false_iff]
        exact Or.inr (Option.isNone_eq_false_iff.mpr (Option.isSome_iff_ne_none.mpr hhalt))
  · refine ⟨j, m', hgeneral (fun l' hl' => alive_eq_some hl') fun hwh => ?_⟩
    rw [Bool.and_eq_true] at hwh
    exact hwh.1

theorem InvAt.append (h : InvAt w k j m) {l : Log} (hl : k.log = some l) (hbehind : k.behind = false)
    (actions : List Action) (wrote : Fate) (fates : CompactFates) :
    ∃ j' m', InvAt w (k.append w l actions wrote fates) j' m' := by
  have hafter := h.logAfter hl actions
  obtain ⟨-, -, -, hnone, hsome⟩ := l.take_frames w [] false actions
  cases hcode : encodable w actions with
  | false =>
      have hr : l.append w k.dir actions wrote fates =
          ((l.take w [] false actions).1, k.dir, some .refused) := by
        rw [Log.append]
        generalize l.take w [] false actions = out at hnone
        obtain ⟨l1, got⟩ := out
        have hgot : got = none := hnone hcode
        subst hgot
        rfl
      refine ⟨j, m, ?_⟩
      have hinv := h.more (reached w actions)
        (Kept.alive (l.take w [] false actions).1 (some .refused)) true false
        (fun l' hl' => ⟨rfl, rfl, l, hl, alive_eq_some hl' ▸ hafter⟩)
      simp only [Kept.append, hr, hcode, hbehind, Bool.and_false, Bool.false_and, Bool.not_false,
        Bool.false_or, Bool.true_or]
      exact hinv
  | true =>
      obtain ⟨hreached, hfit⟩ := reached_of_encodable hcode
      obtain ⟨ended, hout, -⟩ := hsome hcode
      rw [hreached] at hafter
      cases wrote with
      | done => exact h.append_done hl hbehind hcode fates
      | stopped =>
          -- the process stopped with the actions in its memory alone
          have hr : ∃ l1, l.append w k.dir actions .stopped fates = (l1, k.dir, some .stopped) := by
            rw [Log.append]
            generalize l.take w [] false actions = out at hout
            obtain ⟨l1, got⟩ := out
            have hgot : got = some ([] ++ frames w.action actions, ended) := hout
            subst hgot
            exact ⟨_, rfl⟩
          obtain ⟨l1, hr⟩ := hr
          refine ⟨j, m, ?_⟩
          simp only [Kept.append, hr, hreached]
          exact h.more actions _ _ _ (fun l' hl' => by cases hl')
      | refused n =>
          obtain ⟨m', hw⟩ := h.written hl hbehind hfit n
          have hr : ∃ l1, LogAfter k l actions l1 ∧ l.append w k.dir actions (.refused n) fates =
              (l1, k.dir.write l.file ((frames w.action actions).take n), some .refused) := by
            rw [Log.append]
            generalize l.take w [] false actions = out at hout hafter
            obtain ⟨l1, got⟩ := out
            have hgot : got = some ([] ++ frames w.action actions, ended) := hout
            subst hgot
            refine ⟨{ l1 with onDisk := l1.onDisk + actions.length, tailLen := none },
              ⟨hafter.cursor, hafter.state, hafter.file, hafter.tailFrom⟩, ?_⟩
            rw [← hafter.file]
            rfl
          obtain ⟨l1, hafter1, hr⟩ := hr
          refine ⟨j, m', ?_⟩
          simp only [Kept.append, hr, hreached, hcode, hbehind, Fate.isRefused, Option.isNone_some,
            Bool.and_false, Bool.not_true, Bool.false_or]
          apply Written.invAt h hl hw
          intro l' hl'
          rw [alive_eq_some hl']
          exact ⟨hafter1, fun hwh => (by cases hwh), fun hb => (by cases hb)⟩

end Append

namespace Kept

theorem create_inv (w : Wires) (limits : Limits) (epoch : Nat) (state : ThreadState)
    (fates : CompactFates) : (create w limits epoch state fates).Inv w := by
  rcases ({} : Dir).writeSnapshot_eq w ⟨epoch, 0⟩ state fates.wroteSnapshot fates.renamedSnapshot with
    ⟨halt, heq⟩ | heq
  · left
    have hcreate : create w limits epoch state fates =
        { dir := {}, log := none, epoch := epoch, base := state } := by
      simp only [create, Log.create, heq]
      rfl
    rw [hcreate]
    exact ⟨rfl, rfl, rfl⟩
  right
  generalize hd : ({ ({} : Dir) with snapshot := some (w.stored.toBytes (⟨epoch, 0⟩, state)) } : Dir) =
    d at heq
  have hd' : d.snapshot = some (w.stored.toBytes (⟨epoch, 0⟩, state)) ∧ d.tail = none ∧
      d.head = none := by
    rw [← hd]
    exact ⟨rfl, rfl, rfl⟩
  have hhead : ∀ {d' : Dir} {hd len}, d'.head = none → Headed w d' hd len → False := by
    intro d' hd len hnone hh
    rw [Headed, hnone] at hh
    cases hh.1
  refine ⟨0, ?_⟩
  rcases d.startTail_cases w ⟨epoch, 0⟩ fates.tail with
    ⟨halt, htail, -⟩ | ⟨halt, hfits, htail⟩ | ⟨hfits, htail⟩
  · simp only [create, Log.create, heq, htail]
    exact ⟨.missing, le_refl _, hd'.1, hd'.2.1, fun _ _ hh => (hhead hd'.2.2 hh).elim,
      fun l hl => by cases hl⟩
  · simp only [create, Log.create, heq, htail]
    obtain ⟨hholds, hheads⟩ := TailMode.live_nil
      (d := { d with tail := some (tailHead w ⟨epoch, 0⟩), tailFile := d.tailFile + 1 }) hfits rfl
      (fun _ _ hh => (hhead hd'.2.2 hh).elim) [] state
    exact ⟨_, le_refl _, hd'.1, hholds, hheads, fun l hl => by cases hl⟩
  · simp only [create, Log.create, heq, htail]
    obtain ⟨hholds, hheads⟩ := TailMode.live_nil
      (d := { d with tail := some (tailHead w ⟨epoch, 0⟩), tailFile := d.tailFile + 1 }) hfits rfl
      (fun _ _ hh => (hhead hd'.2.2 hh).elim) [] state
    refine ⟨_, le_refl _, hd'.1, hholds, hheads, fun l hl => ?_⟩
    cases hl
    exact ⟨rfl, rfl, Or.inl ⟨rfl, rfl, le_refl _⟩, fun _ => ⟨rfl, rfl, rfl, _, rfl, le_refl _⟩,
      fun hlt => absurd hlt (lt_irrefl _), fun _ _ _ _ _ => ⟨rfl, rfl, rfl, _, rfl, le_refl _⟩⟩

theorem Inv.step {w : Wires} {k : Kept} (h : k.Inv w) {st : KeptStep} (hc : k.InStep w st) :
    (k.step w st).Inv w := by
  rcases h with ⟨hsnap, hlog, hhead⟩ | ⟨j, m, hat⟩
  · -- no process has the log open, and there is nothing to open
    left
    obtain ⟨d, log, epoch, base, acted, behind, whole⟩ := k
    obtain rfl : log = none := hlog
    cases st with
    | append actions wrote fates => exact ⟨hsnap, rfl, hhead⟩
    | reset state fates => exact ⟨hsnap, rfl, hhead⟩
    | writeHead row wrote renamed => exact ⟨hsnap, rfl, hhead⟩
    | stop => exact ⟨hsnap, rfl, hhead⟩
    | cut n => exact ⟨hsnap, rfl, hhead⟩
    | openDir limits fates =>
        have hopen : Log.openDir w limits d fates = (d, .error .refused) := by
          rw [Log.openDir, show d.snapshot = none from hsnap]
          rfl
        rw [Kept.step, Kept.openDir, hopen]
        exact ⟨hsnap, rfl, hhead⟩
  · right
    cases st with
    | append actions wrote fates =>
        cases hlog : k.log with
        | none =>
            simp only [Kept.step, hlog]
            exact ⟨j, m, hat⟩
        | some l =>
            simp only [Kept.step, hlog]
            exact hat.append hlog hc actions wrote fates
    | reset state fates =>
        cases hlog : k.log with
        | none =>
            simp only [Kept.step, hlog]
            exact ⟨j, m, hat⟩
        | some l =>
            simp only [Kept.step, hlog]
            exact hat.reset hlog hc
    | writeHead row wrote renamed =>
        cases hlog : k.log with
        | none =>
            simp only [Kept.step, hlog]
            exact ⟨j, m, hat⟩
        | some l =>
            simp only [Kept.step, hlog]
            exact ⟨j, m, hat.writeHead hlog hc⟩
    | stop => exact ⟨j, m, hat.stop⟩
    | cut n =>
        cases hlog : k.log with
        | some l =>
            simp only [Kept.step, hlog]
            exact ⟨j, m, hat⟩
        | none =>
            simp only [Kept.step, hlog]
            exact ⟨j, hlog ▸ hat.cut hlog hc⟩
    | openDir limits fates =>
        cases hlog : k.log with
        | some l =>
            simp only [Kept.step, hlog]
            exact ⟨j, m, hat⟩
        | none =>
            simp only [Kept.step, hlog]
            exact ⟨j, hat.openDir hlog limits fates⟩

/-- Through every append, reset, head and compaction, whatever of them is refused part way,
wherever the process stops and whatever is cut off the tail file then, opening the log gives a
first part of what was appended since the last reset, as long as every step keeps the files in step
with it. -/
theorem opens_to_first_part (w : Wires) (limits : Limits) (epoch : Nat) (state : ThreadState)
    (fates : CompactFates) (steps : List KeptStep)
    (h : EachStep (step w) (InStep w) (create w limits epoch state fates) steps) :
    (steps.foldl (step w) (create w limits epoch state fates)).Recovers w :=
  (EachStep.foldl (fun _ _ hk hc => Inv.step hk hc) h
    (create_inv w limits epoch state fates)).recovers

noncomputable def threeWires : Wires where
  action := Postcard.ofShort [.seen 1, .seen 2, .seen 3] (by decide)
  stored := Postcard.ofShort [] (Nat.zero_le _)
  tailHead := Postcard.ofShort [⟨7, 0⟩, ⟨7, 2⟩] (by decide)
  storedHead := Postcard.ofShort [] (Nat.zero_le _)

theorem encode_three : encode threeWires.tailHead ⟨7, 0⟩ = .ok (framed []) ∧
    encode threeWires.tailHead ⟨7, 2⟩ = .ok (framed [0]) ∧
    encode threeWires.action (.seen 1) = .ok (framed []) ∧
    encode threeWires.action (.seen 2) = .ok (framed [0]) ∧
    encode threeWires.action (.seen 3) = .ok (framed [0, 0]) := by
  refine ⟨?_, ?_, ?_, ?_, ?_⟩
  · exact encode_ofShort_of_mem (by decide) (by decide)
  · exact encode_ofShort_of_mem (by decide) (by decide)
  · exact encode_ofShort_of_mem (by decide) (by decide)
  · exact encode_ofShort_of_mem (by decide) (by decide)
  · exact encode_ofShort_of_mem (by decide) (by decide)

/-- A write is refused after two bytes, the process stops and the file is cut in the torn frame:
the log opens without that action. -/
theorem opens_to_first_part_cut :
    ([.append [.seen 1] (.refused 2) {}, .stop, .cut 5, .openDir {} {}].foldl (step threeWires)
      (create threeWires {} 7 { threadMeta := { id := 1 } } {})).Recovers threeWires := by
  obtain ⟨hhead, -, hone, -, -⟩ := encode_three
  apply opens_to_first_part
  refine ⟨rfl, trivial, ?_, trivial, trivial⟩
  intro len hlen
  simp [named, step, create, Log.create, Dir.writeSnapshot, Dir.replace, Fate.halt, Dir.startTail,
    hhead, Except.toOption, Kept.append, Log.append, Log.take, hone, Dir.write, Log.keep, Log.act,
    Log.ofSnapshot] at hlen

/-- A write is refused before its first byte and the next one is not: the action in the middle is
missing from the tail, and the one after it is read in its place. -/
theorem action_missing_in_the_middle :
    ¬ ∀ (w : Wires) (limits : Limits) (epoch : Nat) (state : ThreadState) (fates : CompactFates)
      (steps : List KeptStep),
      (steps.foldl (step w) (create w limits epoch state fates)).Recovers w := by
  intro hall
  obtain ⟨hhead, hhead2, hone, htwo, hthree⟩ := encode_three
  have hrec := hall threeWires {} 7 { threadMeta := { id := 1 } } {}
    [.append [.seen 1] .done {}, .append [.seen 2] (.refused 0) {}, .append [.seen 3] .done {}]
  generalize hk : List.foldl (step threeWires) _ _ = k at hrec
  have hfields : k.epoch = 7 ∧ k.base = { threadMeta := { id := 1 } } ∧
      k.acted = [.seen 1, .seen 2, .seen 3] ∧
      k.dir.snapshot = some (threeWires.stored.toBytes (⟨7, 0⟩, { threadMeta := { id := 1 } })) ∧
      k.dir.tail = some (framed [] ++ (framed [] ++ framed [0, 0])) := by
    rw [← hk]
    simp [step, create, Log.create, Dir.writeSnapshot, Dir.replace, Fate.halt, Dir.startTail,
      hhead, Except.toOption, Kept.append, Log.append, Log.take, hone, htwo, hthree, Dir.write,
      Log.keep, Log.act, Log.ofSnapshot, Action.isTurnEnded, alive, reached]
  obtain ⟨hepoch, hbase, hacted, hsnap, htail⟩ := hfields
  have hfit : Fit threeWires.action [.seen 1, .seen 3] := by
    intro a ha
    rcases List.mem_cons.mp ha with rfl | ha
    · exact (encode_eq_ok hone).2
    · rw [List.mem_singleton.mp ha]
      exact (encode_eq_ok hthree).2
  have hbytes : tailHead threeWires ⟨7, 0⟩ ++ frames threeWires.action [.seen 1, .seen 3] =
      framed [] ++ (framed [] ++ framed [0, 0]) := by
    rw [tailHead, frames_cons, frames_cons, ← (encode_eq_ok hhead).1, ← (encode_eq_ok hone).1,
      ← (encode_eq_ok hthree).1, frames, List.flatMap_nil, List.append_nil]
  have hholds : (TailMode.live [.seen 1, .seen 3] (tailHead threeWires ⟨7, 0⟩ ++
      frames threeWires.action [.seen 1, .seen 3]).length).Holds threeWires k.dir ⟨7, 0⟩
        [.seen 1, .seen 3] := by
    refine ⟨List.prefix_refl _, hfit, (encode_eq_ok hhead).2, ?_⟩
    rw [List.take_length, hbytes, htail]
  obtain ⟨on, i, -, hread, hwhole⟩ := hholds.readTail
  rw [hwhole _ rfl (by rw [List.length_append])] at hread
  have hopens := opens_of_readTail hsnap hread
  obtain ⟨n, hn, hopens'⟩ := hrec.firstPart (by rw [hsnap]; simp)
  rw [hepoch, hbase, hacted] at hopens'
  -- the cursor says that two of them were read, and the state that the last was
  have hseq : n = 2 := by
    obtain ⟨d', log, hopen⟩ := hopens.2.2 ⟨_, hhead2⟩ {}
    have hcursor := (hopens.2.1 _ _ _ _ hopen).2.symm.trans (hopens'.2.1 _ _ _ _ hopen).2
    exact (congrArg Cursor.seq hcursor).symm
  subst hseq
  have hstate := Option.some.inj (hopens.1.symm.trans hopens'.1)
  exact absurd (congrArg ThreadState.seen hstate) (by decide)

end Kept

end Slopty.Thread
