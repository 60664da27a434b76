import Mathlib.Data.List.DropRight
import Mathlib.Data.Nat.Digits.Defs
import Slopty.Lib.Text
import Slopty.Lib.Run
import Slopty.Lib.Words

/-!
A worktree's paths in memory for quick open: walked whole once, and caught up after that with the
directories whose entries changed, each listed alone and only what is new in it walked.
-/

namespace Slopty.Find

open Slopty.Lib

/-- A path relative to the top, `/` between names, a directory ending in `/`; the top itself is the
empty one. -/
abbrev Path := Text

def maxPaths : Nat := 2000000

def isDir (p : Path) : Bool := p.getLast? = some '/'

/-- What follows a directory names an entry of it: no `/` but a last one. -/
def isEntry (rest : Path) : Bool := decide ('/' ∉ rest.rdropWhile (· == '/'))

/-- What a walk of the disk sees: every path it finds, each directory above one among them. -/
structure Worktree where
  paths : List Path
  nodup : paths.Nodup
  named : ∀ p ∈ paths, p ≠ [] ∧ p.head? ≠ some '/'
  above : ∀ p ∈ paths, ∀ dir, dir <+: p → isDir dir → dir ∈ paths

namespace Worktree

/-- The paths that a walk from a directory finds, its own with them. -/
def under (t : Worktree) (dir : Path) : List Path := t.paths.filter fun p => dir.isPrefixOf p

/-- The entries of a directory; nothing when it is not one any more. -/
def list (t : Worktree) (dir : Path) : List Path :=
  (t.under dir).filter fun p => decide (p.drop dir.length ≠ []) && isEntry (p.drop dir.length)

end Worktree

/-- What the threads of a walk and a hash map leave open: which paths a walk finds before it has as
many as it may, and in which order a directory's entries are taken. -/
structure Walker where
  found : Nat → List Path → List Path
  iter : List Path → List Path
  found_subperm : ∀ budget l, List.Subperm (found budget l) l
  length_found : ∀ budget l, (found budget l).length = min budget l.length
  iter_perm : ∀ l, (iter l).Perm l

structure Tree where
  /-- In order, so a directory's contents follow it as one run. -/
  paths : List Path
  /-- Each directory listed. -/
  dirs : OrdMap Path Unit

namespace Tree

/-- Where the run of paths under a directory starts and ends. -/
def under (tree : Tree) (dir : Path) : Nat × Nat :=
  let start := startOf dir tree.paths
  (start, start + partitionPoint (fun p => dir.isPrefixOf p) (tree.paths.drop start))

/-- The paths under a directory, each without the directory in front. -/
def below (tree : Tree) (dir : Path) : List Path :=
  let (start, stop) := tree.under dir
  (((tree.paths.drop start).take (stop - start)).map fun p => p.drop dir.length).filter (· ≠ [])

end Tree

def walk (w : Walker) (t : Worktree) (source : Path) (budget : Nat) : List Path :=
  w.found budget (t.under source)

def insertDirs (dirs : OrdMap Path Unit) (found : List Path) : OrdMap Path Unit :=
  (found.filter isDir).foldl (fun dirs d => dirs.insert d ()) dirs

def walkAll (w : Walker) (t : Worktree) : Tree :=
  let found := walk w t [] maxPaths
  { paths := sorted found
    dirs := insertDirs (OrdMap.empty.insert [] ()) found }

/-- One entry of a directory listed again: nothing more when it was there before, else its path, and
all under it where it is a directory. -/
def addEntry (w : Walker) (t : Worktree) (tree : Tree) (before added : List Path) (path : Path) :
    List Path :=
  if path ∈ before then added
  else
    let below :=
      if isDir path then
        let budget := maxPaths - (tree.paths.length + added.length)
        (walk w t path budget).filter (· ≠ path)
      else []
    added ++ below ++ [path]

/-- List a directory again: its entries gone go with the ones gone, and each new one with the ones
added, a new directory walked whole. -/
def relist (w : Walker) (t : Worktree) (tree : Tree) (dir : Path) (changes : List Path × List Path) :
    List Path × List Path :=
  let now := w.iter (t.list dir)
  let before := ((tree.below dir).filter isEntry).map (dir ++ ·)
  (changes.1 ++ before.filter (· ∉ now), now.foldl (addEntry w t tree before) changes.2)

/-- Whether a path goes: it is gone, or a directory above it is. -/
def went (gone : List Path) (p : Path) : Bool :=
  decide (p ∈ gone) || (List.range p.length).any fun i =>
    decide (p[i]? = some '/') && decide (p.take (i + 1) ∈ gone)

/-- Take the ones gone out of the tree, each with all under it, and put the ones added in. -/
def applyChanges (tree : Tree) (gone added : List Path) : Tree :=
  let tree :=
    if gone = [] then tree
    else
      { paths := tree.paths.filter fun p => !went gone p
        dirs := tree.dirs.retain fun d _ => d.isEmpty || !went gone d }
  if added = [] then tree
  else
    { paths := merged tree.paths (dedupRuns (sorted added))
      dirs := insertDirs tree.dirs added }

/-- What a catch-up takes out and puts in. -/
def changesOf (w : Walker) (t : Worktree) (tree : Tree) (dirs : List Path) : List Path × List Path :=
  dirs.foldl (fun changes dir =>
    -- a directory the index no longer holds went with its parent's listing
    if (tree.dirs.get? dir).isSome then relist w t tree dir changes else changes) ([], [])

/-- What changed under a worktree since its index last caught up. -/
inductive Pending where
  | everything
  | dirs (dirs : List Path)

/-- Bring the tree up to what the disk holds. -/
def catchUp (w : Walker) (t : Worktree) (pending : Pending) (tree : Tree) : Tree :=
  match pending with
  | .everything => walkAll w t
  | .dirs dirs =>
      let changes := changesOf w t tree dirs
      applyChanges tree changes.1 changes.2

section Naming

theorem isDir_iff {d : Path} : isDir d = true ↔ ∃ name, d = name ++ ['/'] := by
  rw [isDir, decide_eq_true_eq, List.getLast?_eq_some_iff]

theorem rdropWhile_slashes (name : Path) (k : Nat) :
    (name ++ List.replicate k '/').rdropWhile (· == '/') = name.rdropWhile (· == '/') := by
  induction k with
  | zero => rw [List.replicate_zero, List.append_nil]
  | succ k ih =>
    rw [List.replicate_succ', ← List.append_assoc, List.rdropWhile_concat_pos _ _ _ rfl, ih]

theorem isEntry_iff {rest : Path} :
    isEntry rest = true ↔ ∃ name k, rest = name ++ List.replicate k '/' ∧ '/' ∉ name := by
  rw [isEntry, decide_eq_true_eq]
  constructor
  · intro hnot
    refine ⟨_, (rest.rtakeWhile (· == '/')).length, ?_, hnot⟩
    have hslashes : rest.rtakeWhile (· == '/') =
        List.replicate (rest.rtakeWhile (· == '/')).length '/' :=
      List.eq_replicate_iff.mpr ⟨rfl, fun c hc => by simpa using List.mem_rtakeWhile_imp hc⟩
    rw [← hslashes, List.rdropWhile_append_rtakeWhile]
  · rintro ⟨name, k, rfl, hname⟩ hmem
    rw [rdropWhile_slashes] at hmem
    exact hname ((List.rdropWhile_prefix _ _).subset hmem)

/-- A path is an entry of the top or of a directory in front of it. -/
theorem exists_parent {p : Path} (hnil : p ≠ []) (hhead : p.head? ≠ some '/') :
    ∃ dir rest, p = dir ++ rest ∧ rest ≠ [] ∧ isEntry rest = true ∧ (dir = [] ∨ isDir dir = true) := by
  have hsplit : p.rdropWhile (· == '/') ++ p.rtakeWhile (· == '/') = p :=
    List.rdropWhile_append_rtakeWhile
  generalize hbody : p.rdropWhile (· == '/') = body at hsplit
  generalize hslashes : p.rtakeWhile (· == '/') = slashes at hsplit
  have hall : slashes = List.replicate slashes.length '/' := by
    refine List.eq_replicate_iff.mpr ⟨rfl, fun c hc => ?_⟩
    rw [← hslashes] at hc
    simpa using List.mem_rtakeWhile_imp hc
  have hbodynil : body ≠ [] := by
    rintro rfl
    rw [List.nil_append] at hsplit
    cases hlen : slashes.length with
    | zero => exact hnil (hsplit ▸ List.length_eq_zero_iff.mp hlen)
    | succ n =>
      rw [hlen] at hall
      exact hhead (by rw [← hsplit, hall]; rfl)
  have hlast : ¬ body.getLast hbodynil = '/' := by
    have := List.rdropWhile_last_not (· == '/') p (by rw [hbody]; exact hbodynil)
    simpa only [hbody, beq_iff_eq] using this
  have hbodysplit : body.rdropWhile (· != '/') ++ body.rtakeWhile (· != '/') = body :=
    List.rdropWhile_append_rtakeWhile
  generalize hdir : body.rdropWhile (· != '/') = dir at hbodysplit
  generalize hname : body.rtakeWhile (· != '/') = name at hbodysplit
  have hnoslash : '/' ∉ name := by
    intro hmem
    rw [← hname] at hmem
    simpa using List.mem_rtakeWhile_imp hmem
  have hdirlast : dir = [] ∨ isDir dir = true := by
    by_cases hd : dir = []
    · exact Or.inl hd
    · refine Or.inr ?_
      have := List.rdropWhile_last_not (· != '/') body (by rw [hdir]; exact hd)
      rw [isDir, decide_eq_true_eq, List.getLast?_eq_some_getLast hd]
      simpa only [hdir, bne_iff_ne, ne_eq, not_not, Option.some.injEq] using this
  refine ⟨dir, name ++ slashes, ?_, ?_, isEntry_iff.mpr ⟨name, _, by rw [← hall], hnoslash⟩, hdirlast⟩
  · rw [← List.append_assoc, hbodysplit, hsplit]
  · intro hrest
    have hnamenil := (List.append_eq_nil_iff.mp hrest).1
    rw [hnamenil, List.append_nil] at hbodysplit
    subst hbodysplit
    rcases hdirlast with hd | hd
    · exact hbodynil hd
    · rw [isDir, decide_eq_true_eq, List.getLast?_eq_some_getLast hbodynil] at hd
      exact hlast (Option.some.inj hd)

end Naming

namespace Worktree

variable {t : Worktree}

theorem mem_under {dir p : Path} : p ∈ t.under dir ↔ p ∈ t.paths ∧ dir <+: p := by
  rw [under, List.mem_filter, List.isPrefixOf_iff_prefix]

theorem mem_list {dir p : Path} :
    p ∈ t.list dir ↔ p ∈ t.paths ∧ ∃ rest, p = dir ++ rest ∧ rest ≠ [] ∧ isEntry rest = true := by
  simp only [list, List.mem_filter, mem_under, Bool.and_eq_true, decide_eq_true_eq]
  constructor
  · rintro ⟨⟨hp, rest, rfl⟩, hne, hentry⟩
    rw [List.drop_left] at hne hentry
    exact ⟨hp, rest, rfl, hne, hentry⟩
  · rintro ⟨hp, rest, rfl, hne, hentry⟩
    rw [List.drop_left]
    exact ⟨⟨hp, List.prefix_append _ _⟩, hne, hentry⟩

def IsListed (t : Worktree) (d : Path) : Prop := d = [] ∨ d ∈ t.paths ∧ isDir d = true

theorem exists_list {p : Path} (hp : p ∈ t.paths) : ∃ dir, t.IsListed dir ∧ p ∈ t.list dir := by
  obtain ⟨hnil, hhead⟩ := t.named p hp
  obtain ⟨dir, rest, rfl, hrest, hentry, hdir⟩ := exists_parent hnil hhead
  refine ⟨dir, hdir.imp_right fun hd => ⟨t.above _ hp dir (List.prefix_append _ _) hd, hd⟩, ?_⟩
  exact mem_list.mpr ⟨hp, rest, rfl, hrest, hentry⟩

/-- A path on one disk and not on another is under an entry that is new to a directory listed on
both, or is one. -/
theorem exists_new_entry {old : Worktree} {q : Path} (hq : q ∈ t.paths) (hold : q ∉ old.paths) :
    ∃ dir p, old.IsListed dir ∧ p ∈ t.list dir ∧ p ∉ old.paths ∧
      (p = q ∨ isDir p = true ∧ p <+: q) := by
  generalize hn : q.length = n
  induction n using Nat.strong_induction_on generalizing q with
  | h n ih =>
    obtain ⟨dir, hdir, hlist⟩ := t.exists_list hq
    by_cases hlisted : old.IsListed dir
    · exact ⟨dir, q, hlisted, hlist, hold, Or.inl rfl⟩
    · obtain ⟨hmem, hslash⟩ : dir ∈ t.paths ∧ isDir dir = true :=
        hdir.resolve_left fun hnil => hlisted (Or.inl hnil)
      have hnew : dir ∉ old.paths := fun h => hlisted (Or.inr ⟨h, hslash⟩)
      obtain ⟨-, rest, rfl, hrest, -⟩ := mem_list.mp hlist
      have hshort : dir.length < n := by
        have := List.length_pos_iff.mpr hrest
        rw [← hn, List.length_append]
        omega
      obtain ⟨above, p, habove, hp, hpold, hpq⟩ := ih _ hshort hmem hnew rfl
      refine ⟨above, p, habove, hp, hpold, Or.inr ?_⟩
      rcases hpq with rfl | ⟨hpdir, hpq⟩
      · exact ⟨hslash, List.prefix_append _ _⟩
      · exact ⟨hpdir, hpq.trans (List.prefix_append _ _)⟩

end Worktree

/-- The index holds what is on the disk: its paths in order, and as directories the top and those
among its paths. -/
structure Exact (tree : Tree) (t : Worktree) : Prop where
  ascending : Ascending tree.paths
  paths : ∀ p, p ∈ tree.paths ↔ p ∈ t.paths
  dirs : ∀ d, (tree.dirs.get? d).isSome ↔ t.IsListed d

theorem Exact.length_eq {tree : Tree} {t : Worktree} (h : Exact tree t) :
    tree.paths.length = t.paths.length :=
  ((List.perm_ext_iff_of_nodup h.ascending.nodup t.nodup).mpr h.paths).length_eq

namespace Tree

variable {tree : Tree} {t : Worktree}

theorem mem_below (h : Ascending tree.paths) {dir rest : Path} :
    rest ∈ tree.below dir ↔ rest ≠ [] ∧ dir ++ rest ∈ tree.paths := by
  have hrun := run_eq_filter h (a := dir) (p := fun p => dir.isPrefixOf p)
    (fun b hb => not_lt.mp (not_lt_of_isPrefix (List.isPrefixOf_iff_prefix.mp hb)))
    fun b c hab hbc hc => List.isPrefixOf_iff_prefix.mpr
      (isPrefix_of_between (not_lt.mpr hab) hbc (List.isPrefixOf_iff_prefix.mp hc))
  simp only [below, under, Nat.add_sub_cancel_left, hrun, List.mem_filter, List.mem_map,
    List.isPrefixOf_iff_prefix, decide_eq_true_eq]
  constructor
  · rintro ⟨⟨p, ⟨hp, rest', rfl⟩, rfl⟩, hne⟩
    rw [List.drop_left] at hne ⊢
    exact ⟨hne, hp⟩
  · rintro ⟨hne, hp⟩
    exact ⟨⟨_, ⟨hp, List.prefix_append _ _⟩, List.drop_left⟩, hne⟩

theorem mem_before (h : Exact tree t) {dir p : Path} :
    p ∈ ((tree.below dir).filter isEntry).map (dir ++ ·) ↔ p ∈ t.list dir := by
  simp only [List.mem_map, List.mem_filter, mem_below h.ascending, h.paths, Worktree.mem_list]
  constructor
  · rintro ⟨rest, ⟨⟨hne, hp⟩, hentry⟩, rfl⟩
    exact ⟨hp, rest, rfl, hne, hentry⟩
  · rintro ⟨hp, rest, rfl, hne, hentry⟩
    exact ⟨rest, ⟨⟨hne, hp⟩, hentry⟩, rfl⟩

end Tree

theorem got_insertDirs {found : List Path} {dirs : OrdMap Path Unit} {d : Path} :
    ((insertDirs dirs found).get? d).isSome ↔
      (dirs.get? d).isSome ∨ d ∈ found ∧ isDir d = true := by
  unfold insertDirs
  rw [← List.mem_filter]
  generalize found.filter isDir = fresh
  induction fresh generalizing dirs with
  | nil => simp
  | cons e fresh ih =>
    rw [List.foldl_cons, ih, OrdMap.get?_insert, List.mem_cons]
    by_cases he : e = d
    · simp [he]
    · simp [he, Ne.symm he]

theorem walk_perm {w : Walker} {t : Worktree} {source : Path} {budget : Nat}
    (h : (t.under source).length ≤ budget) : (walk w t source budget).Perm (t.under source) :=
  (w.found_subperm _ _).perm_of_length_le
    (by rw [w.length_found, Nat.min_eq_right h])

theorem under_top (t : Worktree) : t.under [] = t.paths :=
  List.filter_eq_self.mpr fun _ _ => rfl

theorem walkAll_exact {w : Walker} {t : Worktree} (h : t.paths.length ≤ maxPaths) :
    Exact (walkAll w t) t := by
  have hperm : (walk w t [] maxPaths).Perm t.paths := by
    rw [← under_top t] at h ⊢
    exact walk_perm h
  have hdirs (d : Path) : ((walkAll w t).dirs.get? d).isSome ↔ t.IsListed d := by
    rw [walkAll, got_insertDirs, OrdMap.get?_insert, hperm.mem_iff, Worktree.IsListed]
    by_cases hd : [] = d
    · simp [hd]
    · simp [hd, Ne.symm hd]
  exact
    { ascending := ascending_sorted (hperm.nodup_iff.mpr t.nodup)
      paths := fun p => mem_sorted.trans hperm.mem_iff
      dirs := hdirs }

/-- An index that holds what is on the disk is what a whole walk makes. -/
theorem Exact.eq_walkAll {w : Walker} {t : Worktree} {tree : Tree} (h : Exact tree t)
    (hsmall : t.paths.length ≤ maxPaths) : tree = walkAll w t := by
  have hwalk := walkAll_exact (w := w) hsmall
  have hpaths : tree.paths = (walkAll w t).paths :=
    h.ascending.ext hwalk.ascending fun p => (h.paths p).trans (hwalk.paths p).symm
  have hdirs : tree.dirs = (walkAll w t).dirs := by
    refine OrdMap.ext_get? fun d => ?_
    have hsome := (h.dirs d).trans (hwalk.dirs d).symm
    cases hget : tree.dirs.get? d with
    | none =>
      rw [hget] at hsome
      exact (Option.not_isSome_iff_eq_none.mp fun h => absurd (hsome.mpr h) (by simp)).symm
    | some u =>
      rw [hget] at hsome
      obtain ⟨v, hv⟩ := Option.isSome_iff_exists.mp (hsome.mp rfl)
      rw [hv]
  cases tree
  cases hw : walkAll w t
  rw [hw] at hpaths hdirs
  exact congrArg₂ Tree.mk hpaths hdirs

/-- The paths that come with an entry when a directory is listed again. -/
def entryCount (t : Worktree) (tree : Tree) (p : Path) : Nat :=
  if p ∈ tree.paths then 0 else if isDir p then (t.under p).length else 1

/-- The paths new with the entries of a directory. -/
def newCount (t : Worktree) (tree : Tree) (dir : Path) : Nat :=
  ((t.list dir).map (entryCount t tree)).sum

/-- What a new entry brings: its own path, and all under it. -/
def Brings (t : Worktree) (tree : Tree) (p q : Path) : Prop :=
  p ∉ tree.paths ∧ (p = q ∨ isDir p = true ∧ p <+: q ∧ q ∈ t.paths)

section Relisting

variable {w : Walker} {t : Worktree} {tree : Tree} {before : List Path}

theorem addEntry_spec (added : List Path) {p : Path} (hp : p ∈ t.paths)
    (hbefore : p ∈ before ↔ p ∈ tree.paths)
    (hroom : p ∉ tree.paths → isDir p = true →
      tree.paths.length + added.length + (t.under p).length ≤ maxPaths) :
    (addEntry w t tree before added p).length ≤ added.length + entryCount t tree p ∧
      ∀ q, q ∈ addEntry w t tree before added p ↔ q ∈ added ∨ Brings t tree p q := by
  unfold addEntry entryCount Brings
  by_cases hheld : p ∈ tree.paths
  · rw [if_pos (hbefore.mpr hheld), if_pos hheld]
    exact ⟨le_rfl, fun q => ⟨Or.inl, fun h => h.resolve_right fun h => h.1 hheld⟩⟩
  · rw [if_neg fun h => hheld (hbefore.mp h), if_neg hheld]
    by_cases hdir : isDir p = true
    · have hperm : (walk w t p (maxPaths - (tree.paths.length + added.length))).Perm (t.under p) :=
        walk_perm (by have := hroom hheld hdir; omega)
      have hself : p ∈ t.under p := Worktree.mem_under.mpr ⟨hp, List.prefix_refl p⟩
      simp only [hdir, if_true]
      generalize walk w t p (maxPaths - (tree.paths.length + added.length)) = found at hperm ⊢
      have hless : (found.filter (· ≠ p)).length < (t.under p).length := by
        rw [← hperm.length_eq, List.length_filter_lt_length_iff_exists]
        exact ⟨p, hperm.mem_iff.mpr hself, by simp⟩
      constructor
      · simp only [List.length_append, List.length_singleton]
        omega
      · intro q
        simp only [List.mem_append, List.mem_filter, hperm.mem_iff, Worktree.mem_under,
          decide_eq_true_eq, List.mem_singleton]
        constructor
        · rintro ((hq | ⟨⟨hq, hpq⟩, -⟩) | rfl)
          · exact Or.inl hq
          · exact Or.inr ⟨hheld, Or.inr ⟨trivial, hpq, hq⟩⟩
          · exact Or.inr ⟨hheld, Or.inl rfl⟩
        · rintro (hq | ⟨-, rfl | ⟨-, hpq, hq⟩⟩)
          · exact Or.inl (Or.inl hq)
          · exact Or.inr rfl
          · by_cases heq : q = p
            · exact Or.inr heq
            · exact Or.inl (Or.inr ⟨⟨hq, hpq⟩, heq⟩)
    · simp only [hdir, Bool.false_eq_true, if_false, List.append_nil, List.length_append,
        List.length_singleton, List.mem_append, List.mem_singleton, false_and, or_false]
      exact ⟨le_rfl, fun q => or_congr_right ⟨fun h => ⟨hheld, h.symm⟩, fun h => h.2.symm⟩⟩

theorem foldl_addEntry {es added : List Path}
    (hes : ∀ p ∈ es, p ∈ t.paths ∧ (p ∈ before ↔ p ∈ tree.paths))
    (hroom : (∃ p ∈ es, p ∉ tree.paths ∧ isDir p = true) →
      tree.paths.length + added.length + (es.map (entryCount t tree)).sum ≤ maxPaths) :
    (es.foldl (addEntry w t tree before) added).length ≤
        added.length + (es.map (entryCount t tree)).sum ∧
      ∀ q, q ∈ es.foldl (addEntry w t tree before) added ↔
        q ∈ added ∨ ∃ p ∈ es, Brings t tree p q := by
  induction es generalizing added with
  | nil => simp
  | cons e es ih =>
    obtain ⟨he, hes⟩ := List.forall_mem_cons.mp hes
    have hcount : isDir e = true → e ∉ tree.paths → entryCount t tree e = (t.under e).length := by
      intro hdir hnew
      rw [entryCount, if_neg hnew, if_pos hdir]
    rw [List.map_cons, List.sum_cons] at hroom ⊢
    obtain ⟨hlen, hmem⟩ := addEntry_spec (w := w) added he.1 he.2 fun hnew hdir => by
      have := hroom ⟨e, List.mem_cons_self, hnew, hdir⟩
      rw [hcount hdir hnew] at this
      omega
    obtain ⟨hlen', hmem'⟩ := @ih (addEntry w t tree before added e) hes (by
      rintro ⟨p, hp, hnew, hdir⟩
      have := hroom ⟨p, List.mem_cons_of_mem _ hp, hnew, hdir⟩
      omega)
    refine ⟨by rw [List.foldl_cons]; omega, fun q => ?_⟩
    rw [List.foldl_cons, hmem', hmem, or_assoc, List.exists_mem_cons_iff]

/-- What listing a directory again adds to what is gone and to what is added. -/
theorem relist_spec {old : Worktree} (h : Exact tree old) {dir : Path}
    {changes : List Path × List Path}
    (hroom : (∃ p ∈ t.list dir, p ∉ tree.paths ∧ isDir p = true) →
      tree.paths.length + changes.2.length + newCount t tree dir ≤ maxPaths) :
    let after := relist w t tree dir changes
    after.2.length ≤ changes.2.length + newCount t tree dir ∧
      (∀ p, p ∈ after.1 ↔ p ∈ changes.1 ∨ p ∈ old.list dir ∧ p ∉ t.list dir) ∧
      ∀ q, q ∈ after.2 ↔ q ∈ changes.2 ∨ ∃ p ∈ t.list dir, Brings t tree p q := by
  have hperm := w.iter_perm (t.list dir)
  have hsum : ((w.iter (t.list dir)).map (entryCount t tree)).sum = newCount t tree dir :=
    (hperm.map _).sum_eq
  have hentries : ∀ p ∈ w.iter (t.list dir), p ∈ t.paths ∧
      (p ∈ ((tree.below dir).filter isEntry).map (dir ++ ·) ↔ p ∈ tree.paths) := by
    intro p hp
    obtain ⟨hmem, hrest⟩ := Worktree.mem_list.mp (hperm.mem_iff.mp hp)
    rw [Tree.mem_before h, Worktree.mem_list, h.paths]
    exact ⟨hmem, fun h => h.1, fun h => ⟨h, hrest⟩⟩
  obtain ⟨hlen, hmem⟩ := foldl_addEntry (w := w) hentries (by
    rintro ⟨p, hp, hnew⟩
    rw [hsum]
    exact hroom ⟨p, hperm.mem_iff.mp hp, hnew⟩)
  refine ⟨hsum ▸ hlen, fun p => ?_, fun q => ?_⟩
  · simp only [relist, List.mem_append, List.mem_filter, Tree.mem_before h, decide_eq_true_eq,
      hperm.mem_iff]
  · simp only [relist, hmem, hperm.mem_iff]

end Relisting

def newIn (t : Worktree) (tree : Tree) (dirs : List Path) : Nat :=
  ((dirs.filter fun d => (tree.dirs.get? d).isSome).map (newCount t tree)).sum

/-- Wherever a directory is new, the paths held before number at most `maxPaths` together with those
new in the directories listed so far. -/
def HasRoom (t : Worktree) (tree : Tree) (dirs : List Path) : Prop :=
  ∀ front dir back, dirs = front ++ dir :: back → (tree.dirs.get? dir).isSome →
    (∃ p ∈ t.list dir, p ∉ tree.paths ∧ isDir p = true) →
    tree.paths.length + newIn t tree (front ++ [dir]) ≤ maxPaths

theorem newIn_append (t : Worktree) (tree : Tree) (front back : List Path) :
    newIn t tree (front ++ back) = newIn t tree front + newIn t tree back := by
  rw [newIn, List.filter_append, List.map_append, List.sum_append, newIn, newIn]

theorem newIn_cons (t : Worktree) (tree : Tree) (dir : Path) (dirs : List Path) :
    newIn t tree (dir :: dirs) =
      (if (tree.dirs.get? dir).isSome then newCount t tree dir else 0) + newIn t tree dirs := by
  rw [newIn, newIn]
  by_cases hlisted : (tree.dirs.get? dir).isSome <;> simp [hlisted]

section Applying

variable {w : Walker} {t old : Worktree} {tree : Tree}

theorem changesOf_spec (h : Exact tree old) {dirs : List Path} (hroom : HasRoom t tree dirs) :
    (changesOf w t tree dirs).2.length ≤ newIn t tree dirs ∧
      (∀ p, p ∈ (changesOf w t tree dirs).1 ↔
        ∃ dir ∈ dirs, old.IsListed dir ∧ p ∈ old.list dir ∧ p ∉ t.list dir) ∧
      ∀ q, q ∈ (changesOf w t tree dirs).2 ↔
        ∃ dir ∈ dirs, old.IsListed dir ∧ ∃ p ∈ t.list dir, Brings t tree p q := by
  induction dirs using List.reverseRecOn with
  | nil => simp [changesOf, newIn]
  | append_singleton dirs dir ih =>
    have hfront : HasRoom t tree dirs := by
      intro front d back hsplit
      exact hroom front d (back ++ [dir]) (by rw [hsplit, List.append_assoc, List.cons_append])
    obtain ⟨hlen, hgone, hadded⟩ := ih hfront
    have hstep : changesOf w t tree (dirs ++ [dir]) =
        if (tree.dirs.get? dir).isSome then relist w t tree dir (changesOf w t tree dirs)
        else changesOf w t tree dirs := by
      rw [changesOf, List.foldl_append]
      rfl
    have hnew : newIn t tree (dirs ++ [dir]) = newIn t tree dirs +
        if (tree.dirs.get? dir).isSome then newCount t tree dir else 0 := by
      rw [newIn_append, newIn_cons]
      rfl
    simp only [List.mem_append, List.mem_singleton, or_and_right, exists_or, exists_eq_left]
    by_cases hlisted : (tree.dirs.get? dir).isSome
    · rw [if_pos hlisted] at hstep hnew
      have hfits (hopens : ∃ p ∈ t.list dir, p ∉ tree.paths ∧ isDir p = true) :
          tree.paths.length + (changesOf w t tree dirs).2.length + newCount t tree dir ≤ maxPaths := by
        have := hroom dirs dir [] rfl hlisted hopens
        rw [hnew] at this
        omega
      obtain ⟨hlen', hgone', hadded'⟩ := relist_spec (w := w) h hfits
      rw [hstep, hnew]
      have hold := (h.dirs dir).mp hlisted
      refine ⟨by omega, fun p => ?_, fun q => ?_⟩
      · rw [hgone', hgone, and_iff_right hold]
      · rw [hadded', hadded, and_iff_right hold]
    · rw [if_neg hlisted] at hstep hnew
      have hold : ¬ old.IsListed dir := fun hl => hlisted ((h.dirs dir).mpr hl)
      rw [hstep, hnew, Nat.add_zero]
      refine ⟨hlen, fun p => ?_, fun q => ?_⟩
      · rw [hgone, or_iff_left fun h => hold h.1]
      · rw [hadded, or_iff_left fun h => hold h.1]

theorem went_iff {gone : List Path} {p : Path} :
    went gone p = true ↔ ∃ g ∈ gone, g = p ∨ isDir g = true ∧ g <+: p := by
  simp only [went, Bool.or_eq_true, decide_eq_true_eq, List.any_eq_true, List.mem_range,
    Bool.and_eq_true]
  constructor
  · rintro (hp | ⟨i, hi, hslash, hgone⟩)
    · exact ⟨p, hp, Or.inl rfl⟩
    · refine ⟨_, hgone, Or.inr ⟨isDir_iff.mpr ⟨p.take i, ?_⟩, List.take_prefix _ _⟩⟩
      obtain ⟨_, hget⟩ := List.getElem?_eq_some_iff.mp hslash
      rw [← hget, List.take_concat_get']
  · rintro ⟨g, hg, rfl | ⟨hdir, tail, rfl⟩⟩
    · exact Or.inl hg
    · obtain ⟨name, rfl⟩ := isDir_iff.mp hdir
      refine Or.inr ⟨name.length, by simp, by simp, ?_⟩
      rw [List.take_left' (by simp)]
      exact hg

end Applying

section CatchingUp

variable {w : Walker} {t old : Worktree} {tree : Tree}

theorem applyChanges_spec (h : Ascending tree.paths) (gone added : List Path) :
    Ascending (applyChanges tree gone added).paths ∧
      (∀ p, p ∈ (applyChanges tree gone added).paths ↔
        p ∈ tree.paths ∧ ¬ went gone p = true ∨ p ∈ added) ∧
      ∀ d, ((applyChanges tree gone added).dirs.get? d).isSome ↔
        (tree.dirs.get? d).isSome ∧ (d = [] ∨ ¬ went gone d = true) ∨
          d ∈ added ∧ isDir d = true := by
  -- the tree without the paths that went
  obtain ⟨kept, hkept, hascending, hpaths, hdirs⟩ : ∃ kept : Tree,
      kept = (if gone = [] then tree
        else
          { paths := tree.paths.filter fun p => !went gone p
            dirs := tree.dirs.retain fun d _ => d.isEmpty || !went gone d }) ∧
        Ascending kept.paths ∧
        (∀ p, p ∈ kept.paths ↔ p ∈ tree.paths ∧ ¬ went gone p = true) ∧
        ∀ d, (kept.dirs.get? d).isSome ↔
          (tree.dirs.get? d).isSome ∧ (d = [] ∨ ¬ went gone d = true) := by
    refine ⟨_, rfl, ?_⟩
    by_cases hgone : gone = []
    · have hnone (p : Path) : ¬ went gone p = true := by
        rw [went_iff, hgone]
        rintro ⟨g, hg, -⟩
        exact absurd hg List.not_mem_nil
      rw [if_pos hgone]
      exact ⟨h, fun p => (and_iff_left (hnone p)).symm,
        fun d => (and_iff_left (Or.inr (hnone d))).symm⟩
    · rw [if_neg hgone]
      refine ⟨h.filter _, fun p => by simp, fun d => ?_⟩
      rw [OrdMap.get?_retain]
      cases tree.dirs.get? d <;> simp
  unfold applyChanges
  simp only [← hkept]
  by_cases hadded : added = []
  · rw [if_pos hadded, hadded]
    simp only [List.not_mem_nil, or_false, false_and]
    exact ⟨hascending, hpaths, hdirs⟩
  · rw [if_neg hadded]
    obtain ⟨hsorted, hmem⟩ :=
      sorted_merged hascending (sorted_dedupRuns (pairwise_sorted added))
    refine ⟨hsorted, fun p => ?_, fun d => ?_⟩
    · rw [hmem, hpaths, mem_dedupRuns, mem_sorted]
    · rw [got_insertDirs, hdirs]

/-- A catch-up is told each directory listed whose entries changed. -/
def TellsEnough (tree : Tree) (old t : Worktree) (dirs : List Path) : Prop :=
  ∀ d, (tree.dirs.get? d).isSome → (∃ p, ¬ (p ∈ old.list d ↔ p ∈ t.list d)) → d ∈ dirs

theorem mem_caughtUp (h : Exact tree old) {dirs : List Path} (htold : TellsEnough tree old t dirs)
    (hroom : HasRoom t tree dirs) (q : Path) :
    q ∈ tree.paths ∧ ¬ went (changesOf w t tree dirs).1 q = true ∨
        q ∈ (changesOf w t tree dirs).2 ↔ q ∈ t.paths := by
  obtain ⟨-, hgone, hadded⟩ := changesOf_spec (w := w) h hroom
  have htells {d p : Path} (hd : old.IsListed d) (hp : ¬ (p ∈ old.list d ↔ p ∈ t.list d)) : d ∈ dirs :=
    htold d ((h.dirs d).mpr hd) ⟨p, hp⟩
  constructor
  · rintro (⟨hq, hstays⟩ | hq)
    · -- a path that is not on the disk is gone from its directory's listing
      by_contra hnot
      obtain ⟨dir, hdir, hlist⟩ := old.exists_list ((h.paths q).mp hq)
      have hnew : q ∉ t.list dir := fun hl => hnot (Worktree.mem_list.mp hl).1
      refine hstays (went_iff.mpr ⟨q, (hgone q).mpr ⟨dir, ?_, hdir, hlist, hnew⟩, Or.inl rfl⟩)
      exact htells hdir fun hiff => hnew (hiff.mp hlist)
    · obtain ⟨dir, -, -, p, hp, -, rfl | ⟨-, -, hmem⟩⟩ := (hadded q).mp hq
      · exact (Worktree.mem_list.mp hp).1
      · exact hmem
  · intro hq
    by_cases hold : q ∈ old.paths
    · refine Or.inl ⟨(h.paths q).mpr hold, fun hwent => ?_⟩
      obtain ⟨g, hg, hgq⟩ := went_iff.mp hwent
      obtain ⟨dir, -, -, hlist, hnot⟩ := (hgone g).mp hg
      obtain ⟨-, hentry⟩ := Worktree.mem_list.mp hlist
      refine hnot (Worktree.mem_list.mpr ⟨?_, hentry⟩)
      rcases hgq with rfl | ⟨hdir, hpre⟩
      · exact hq
      · exact t.above q hq g hpre hdir
    · obtain ⟨dir, p, hdir, hlist, hnew, hpq⟩ := t.exists_new_entry hq hold
      refine Or.inr ((hadded q).mpr ⟨dir, ?_, hdir, p, hlist, ?_, ?_⟩)
      · exact htells hdir fun hiff => hnew (Worktree.mem_list.mp (hiff.mpr hlist)).1
      · exact fun hmem => hnew ((h.paths p).mp hmem)
      · exact hpq.imp_right fun hpq => ⟨hpq.1, hpq.2, hq⟩

theorem catchUp_dirs_exact (h : Exact tree old) {dirs : List Path}
    (htold : TellsEnough tree old t dirs) (hroom : HasRoom t tree dirs) :
    Exact (catchUp w t (.dirs dirs) tree) t := by
  obtain ⟨hascending, hpaths, hdirs⟩ := applyChanges_spec h.ascending
    (changesOf w t tree dirs).1 (changesOf w t tree dirs).2
  refine ⟨hascending, fun p => (hpaths p).trans (mem_caughtUp h htold hroom p), fun d => ?_⟩
  refine (hdirs d).trans ?_
  rw [h.dirs, Worktree.IsListed, Worktree.IsListed, ← mem_caughtUp (w := w) h htold hroom d, ← h.paths]
  by_cases hd : d = []
  · simp [hd]
  · simp only [hd, false_or]
    constructor
    · rintro (⟨⟨hmem, hdir⟩, hstays⟩ | ⟨hmem, hdir⟩)
      · exact ⟨Or.inl ⟨hmem, hstays⟩, hdir⟩
      · exact ⟨Or.inr hmem, hdir⟩
    · rintro ⟨⟨hmem, hstays⟩ | hmem, hdir⟩
      · exact Or.inl ⟨⟨hmem, hdir⟩, hstays⟩
      · exact Or.inr ⟨hmem, hdir⟩

end CatchingUp

/-- An index, and what the disk held when it last caught up. -/
structure Kept where
  tree : Tree
  disk : Worktree

/-- A catch-up: what the disk holds by then, what it is told, and how its walks go. -/
structure CatchUp where
  disk : Worktree
  pending : Pending
  walker : Walker

namespace Kept

def built (w : Walker) (t : Worktree) : Kept := ⟨walkAll w t, t⟩

def step (k : Kept) (c : CatchUp) : Kept := ⟨catchUp c.walker c.disk c.pending k.tree, c.disk⟩

end Kept

/-- The disk has no more paths than an index may hold, and the catch-up is told at least every
directory listed whose entries changed. -/
def Promised (k : Kept) (c : CatchUp) : Prop :=
  c.disk.paths.length ≤ maxPaths ∧
    match c.pending with
    | .everything => True
    | .dirs dirs => TellsEnough k.tree k.disk c.disk dirs

/-- The paths held before leave room for those new with a directory. -/
def Roomy (k : Kept) (c : CatchUp) : Prop :=
  match c.pending with
  | .everything => True
  | .dirs dirs => HasRoom c.disk k.tree dirs

theorem step_exact {k : Kept} {c : CatchUp} (h : Exact k.tree k.disk) (hpromised : Promised k c)
    (hroomy : Roomy k c) : Exact (k.step c).tree (k.step c).disk := by
  obtain ⟨disk, pending, walker⟩ := c
  obtain ⟨hsmall, htold⟩ := hpromised
  cases pending with
  | everything => exact walkAll_exact hsmall
  | dirs dirs => exact catchUp_dirs_exact h htold hroomy

/-- While each catch-up is told enough and has room, the index holds after each exactly what a whole
walk would find. -/
theorem index_exact {w : Walker} {first : Worktree} (hfirst : first.paths.length ≤ maxPaths)
    {steps : List CatchUp}
    (hsteps : EachStep Kept.step (fun k c => Promised k c ∧ Roomy k c) (Kept.built w first) steps)
    {before : List CatchUp} (hbefore : before <+: steps) :
    let k := before.foldl Kept.step (Kept.built w first)
    Exact k.tree k.disk ∧ ∀ w', k.tree = walkAll w' k.disk := by
  obtain ⟨after, rfl⟩ := hbefore
  have hexact := (EachStep.append.mp hsteps).1.foldl
    (P := fun k => Exact k.tree k.disk ∧ k.disk.paths.length ≤ maxPaths)
    (fun k c h hc => ⟨step_exact h.1 hc.1 hc.2, hc.1.1⟩) ⟨walkAll_exact hfirst, hfirst⟩
  exact ⟨hexact.1, fun w' => hexact.1.eq_walkAll hexact.2⟩

/-- One thread, and entries as the disk lists them. -/
def Walker.plain : Walker where
  found budget l := l.take budget
  iter l := l
  found_subperm _ _ := (List.take_sublist _ _).subperm
  length_found _ _ := List.length_take
  iter_perm l := List.Perm.refl l

section Folder

def fileName (i : Nat) : Path := (Nat.digits 2 (i + 1)).map fun d => if d = 0 then 'o' else 'x'

theorem slash_not_mem_fileName (i : Nat) : '/' ∉ fileName i := by
  rw [fileName, List.mem_map]
  rintro ⟨d, -, hd⟩
  split at hd <;> exact absurd hd (by decide)

theorem fileName_ne_nil (i : Nat) : fileName i ≠ [] := by
  rw [fileName, ne_eq, List.map_eq_nil_iff]
  exact Nat.digits_ne_nil_iff_ne_zero.mpr (Nat.succ_ne_zero i)

theorem fileName_injective : Function.Injective fileName := by
  have hread (i : Nat) :
      Nat.ofDigits 2 ((fileName i).map fun c => if c = 'x' then 1 else 0) = i + 1 := by
    have hdigits : (fileName i).map (fun c => if c = 'x' then 1 else 0) = Nat.digits 2 (i + 1) := by
      rw [fileName, List.map_map, List.map_congr_left, List.map_id]
      intro d hd
      have hlt := Nat.digits_lt_base (by decide) hd
      rcases d with _ | _ | d
      · rfl
      · rfl
      · omega
    rw [hdigits, Nat.ofDigits_digits]
  intro i j hij
  have h := hread i
  rw [hij, hread j] at h
  omega

def folderPaths (c : Char) (n : Nat) : List Path :=
  [c, '/'] :: (List.range n).map fun i => c :: '/' :: fileName i

theorem mem_folderPaths {c : Char} {n : Nat} {p : Path} :
    p ∈ folderPaths c n ↔ p = [c, '/'] ∨ ∃ i < n, p = c :: '/' :: fileName i := by
  simp [folderPaths, eq_comm]

/-- The only directory in front of a path in a folder is the folder. -/
theorem folder_above {c : Char} (hc : c ≠ '/') {name dir : Path} (hname : '/' ∉ name)
    (hpre : dir <+: c :: '/' :: name) (hdir : isDir dir = true) : dir = [c, '/'] := by
  obtain ⟨tail, htail⟩ := hpre
  obtain ⟨front, rfl⟩ := isDir_iff.mp hdir
  rw [List.append_assoc, List.singleton_append] at htail
  match front, htail with
  | [], htail => exact absurd (List.cons.inj htail).1.symm hc
  | [d], htail =>
    obtain ⟨rfl, -⟩ := List.cons.inj htail
    rfl
  | d :: e :: front, htail =>
    obtain ⟨-, htail⟩ := List.cons.inj htail
    obtain ⟨-, htail⟩ := List.cons.inj htail
    exact absurd (htail ▸ List.mem_append_right front List.mem_cons_self) hname

/-- A folder of that many files, and nothing else. -/
def folder (c : Char) (hc : c ≠ '/') (n : Nat) : Worktree where
  paths := folderPaths c n
  nodup := by
    refine List.nodup_cons.mpr ⟨?_, ?_⟩
    · rw [List.mem_map]
      rintro ⟨i, -, hi⟩
      exact fileName_ne_nil i (List.cons.inj (List.cons.inj hi).2).2
    · refine List.Nodup.map (fun i j hij => fileName_injective ?_) List.nodup_range
      exact (List.cons.inj (List.cons.inj hij).2).2
  named p hp := by
    rcases mem_folderPaths.mp hp with rfl | ⟨i, -, rfl⟩ <;>
      exact ⟨List.cons_ne_nil _ _, fun h => hc (Option.some.inj h)⟩
  above p hp dir hpre hdir := by
    refine mem_folderPaths.mpr (Or.inl ?_)
    rcases mem_folderPaths.mp hp with rfl | ⟨i, -, rfl⟩
    · exact folder_above hc List.not_mem_nil hpre hdir
    · exact folder_above hc (slash_not_mem_fileName i) hpre hdir

theorem length_folder (c : Char) (hc : c ≠ '/') (n : Nat) : (folder c hc n).paths.length = n + 1 := by
  simp [folder, folderPaths]

theorem list_top_folder (c : Char) (hc : c ≠ '/') (n : Nat) : (folder c hc n).list [] = [[c, '/']] := by
  have hfile (i : Nat) : ¬ isEntry (c :: '/' :: fileName i) = true := by
    rw [isEntry_iff]
    rintro ⟨name, k, hsplit, hname⟩
    cases k with
    | zero =>
      rw [List.replicate_zero, List.append_nil] at hsplit
      exact hname (hsplit ▸ by simp)
    | succ k =>
      have hlast := congrArg List.getLast? hsplit
      rw [List.replicate_succ', ← List.append_assoc, List.getLast?_concat, List.getLast?_cons_cons,
        List.getLast?_cons, List.getLast?_eq_some_getLast (fileName_ne_nil i), Option.getD_some] at hlast
      have hmem := List.getLast_mem (fileName_ne_nil i)
      rw [Option.some.inj hlast] at hmem
      exact slash_not_mem_fileName i hmem
  have hone : isEntry [c, '/'] = true := isEntry_iff.mpr ⟨[c], 1, rfl, by simpa using hc.symm⟩
  rw [Worktree.list, under_top]
  show (folderPaths c n).filter _ = _
  rw [folderPaths, List.filter_cons_of_pos (by simpa using hone), List.filter_eq_nil_iff.mpr]
  intro p hp
  obtain ⟨i, -, rfl⟩ := List.mem_map.mp hp
  simpa using hfile i

theorem list_other_folder {c d : Char} (hc : c ≠ '/') (hcd : c ≠ d) (n : Nat) :
    (folder c hc n).list [d, '/'] = [] := by
  have hunder : (folder c hc n).under [d, '/'] = [] := by
    refine List.filter_eq_nil_iff.mpr fun p hp hpre => hcd ?_
    have hpre := List.isPrefixOf_iff_prefix.mp hpre
    rcases mem_folderPaths.mp hp with rfl | ⟨i, -, rfl⟩ <;>
      exact (List.cons_prefix_cons.mp hpre).1.symm
  rw [Worktree.list, hunder]
  rfl

end Folder


section Renamed

variable {w w' : Walker} {c d : Char} {hc : c ≠ '/'} {hd : d ≠ '/'} {n : Nat}

/-- A folder renamed, told the top and the folder: each directory whose entries changed. -/
def renamed (w : Walker) (c d : Char) (hd : d ≠ '/') (n : Nat) : CatchUp :=
  ⟨folder d hd n, .dirs [[], [c, '/']], w⟩

theorem promised_renamed (hn : n < maxPaths) :
    Promised (Kept.built w (folder c hc n)) (renamed w' c d hd n) := by
  have hsmall (e : Char) (he : e ≠ '/') : (folder e he n).paths.length ≤ maxPaths := by
    rw [length_folder]
    exact hn
  refine ⟨hsmall d hd, fun dir hdir _ => ?_⟩
  rcases ((walkAll_exact (hsmall c hc)).dirs dir).mp hdir with rfl | ⟨hmem, hisDir⟩
  · exact List.mem_cons_self
  · have hfolder : dir = [c, '/'] := by
      rcases mem_folderPaths.mp hmem with rfl | ⟨i, -, rfl⟩
      · rfl
      · exact folder_above hc (slash_not_mem_fileName i) (List.prefix_refl _) hisDir
    rw [hfolder]
    exact List.mem_cons_of_mem _ List.mem_cons_self

/-- A folder of at most half of what an index may hold has room for its new name. -/
theorem roomy_renamed (hcd : c ≠ d) (hn : 2 * (n + 1) ≤ maxPaths) :
    Roomy (Kept.built w (folder c hc n)) (renamed w' c d hd n) := by
  have hlen := (walkAll_exact (w := w) (t := folder c hc n) (by rw [length_folder]; omega)).length_eq
  rw [length_folder] at hlen
  show HasRoom (folder d hd n) (walkAll w (folder c hc n)) [[], [c, '/']]
  generalize walkAll w (folder c hc n) = tree at hlen ⊢
  have htop : newCount (folder d hd n) tree [] ≤ n + 1 := by
    have hunder := List.length_filter_le (fun p => List.isPrefixOf [d, '/'] p) (folder d hd n).paths
    rw [length_folder] at hunder
    rw [newCount, list_top_folder, List.map_singleton, List.sum_singleton, entryCount]
    split
    · exact Nat.zero_le _
    · exact hunder
  have hother : newCount (folder d hd n) tree [c, '/'] = 0 := by
    rw [newCount, list_other_folder hd hcd.symm]
    rfl
  have hnew : newIn (folder d hd n) tree [[], [c, '/']] ≤ n + 1 := by
    rw [newIn_cons, newIn_cons, hother, ite_self]
    exact (Nat.add_le_add_right (ite_le_sup _ _ _) _).trans (by simpa [newIn] using htop)
  rintro front dir back hsplit - -
  have hpart := newIn_append (folder d hd n) tree (front ++ [dir]) back
  rw [List.append_assoc, List.singleton_append, ← hsplit] at hpart
  omega

theorem length_addEntry_le (t : Worktree) (tree : Tree) (before added : List Path) (p : Path) :
    (addEntry w t tree before added p).length ≤
      added.length + (maxPaths - (tree.paths.length + added.length)) + 1 := by
  unfold addEntry
  by_cases hbefore : p ∈ before
  · rw [if_pos hbefore]
    omega
  · rw [if_neg hbefore, List.length_append, List.length_append, List.length_singleton]
    split
    · have hfilter := List.length_filter_le (· ≠ p)
        (walk w t p (maxPaths - (tree.paths.length + added.length)))
      have hwalk := w.length_found (maxPaths - (tree.paths.length + added.length)) (t.under p)
      rw [walk] at hfilter
      simp only [walk]
      omega
    · rw [List.length_nil]
      omega

/-- The walk of the renamed folder stops where the paths under both names reach the most. -/
theorem length_added_renamed {tree : Tree} (hcd : c ≠ d) (hlen : tree.paths.length = n + 1) :
    (changesOf w (folder d hd n) tree [[], [c, '/']]).2.length ≤ maxPaths - (n + 1) + 1 := by
  have htop : (relist w (folder d hd n) tree [] ([], [])).2.length ≤ maxPaths - (n + 1) + 1 := by
    have hone : w.iter ((folder d hd n).list []) = [[d, '/']] := by
      rw [list_top_folder]
      exact List.perm_singleton.mp (w.iter_perm _)
    rw [relist, hone, List.foldl_cons, List.foldl_nil]
    refine (length_addEntry_le _ _ _ _ _).trans ?_
    rw [hlen, List.length_nil]
    omega
  have hother (changes : List Path × List Path) :
      (relist w (folder d hd n) tree [c, '/'] changes).2 = changes.2 := by
    have hnone : w.iter ((folder d hd n).list [c, '/']) = [] := by
      rw [list_other_folder hd hcd.symm]
      exact List.perm_nil.mp (w.iter_perm _)
    rw [relist, hnone, List.foldl_nil]
  rw [changesOf, List.foldl_cons, List.foldl_cons, List.foldl_nil]
  have hfirst : (if (tree.dirs.get? []).isSome then relist w (folder d hd n) tree [] ([], [])
      else ([], [])).2.length ≤ maxPaths - (n + 1) + 1 := by
    split
    · exact htop
    · exact Nat.zero_le _
  split
  · rw [hother]
    exact hfirst
  · exact hfirst

/-- A folder of more than half of what an index may hold is not held whole once renamed. -/
theorem not_exact_renamed (hcd : c ≠ d) (hn : n < maxPaths) (hhalf : maxPaths < 2 * n + 1) :
    ¬ Exact ((Kept.built w (folder c hc n)).step (renamed w' c d hd n)).tree (folder d hd n) := by
  intro hexact
  have hbuilt : Exact (walkAll w (folder c hc n)) (folder c hc n) :=
    walkAll_exact (by rw [length_folder]; exact hn)
  have hlen := hbuilt.length_eq.trans (length_folder c hc n)
  -- every path under the new name was added
  have hadded : (folder d hd n).paths ⊆
      (changesOf w' (folder d hd n) (walkAll w (folder c hc n)) [[], [c, '/']]).2 := by
    intro p hp
    refine (((applyChanges_spec hbuilt.ascending _ _).2.1 p).mp ((hexact.paths p).mpr hp)).resolve_left ?_
    rintro ⟨hold, -⟩
    have hhead : p.head? = some c := by
      rcases mem_folderPaths.mp ((hbuilt.paths p).mp hold) with rfl | ⟨i, -, rfl⟩ <;> rfl
    rcases mem_folderPaths.mp hp with rfl | ⟨i, -, rfl⟩ <;>
      exact hcd (Option.some.inj hhead).symm
  have hle := (List.subperm_of_subset (folder d hd n).nodup hadded).length_le
  rw [length_folder] at hle
  have := hle.trans (length_added_renamed hcd hlen)
  omega

/-- A folder of 1,200,000 files renamed: the index misses some of its paths. -/
theorem renamed_folder_not_held :
    let first := folder 'a' (by decide) 1200000
    let c := renamed Walker.plain 'a' 'b' (by decide) 1200000
    first.paths.length ≤ maxPaths ∧ Promised (Kept.built Walker.plain first) c ∧
      ¬ Exact ((Kept.built Walker.plain first).step c).tree c.disk := by
  refine ⟨?_, promised_renamed (by decide), not_exact_renamed (by decide) (by decide) (by decide)⟩
  rw [length_folder]
  decide

/-- A folder renamed and told. -/
theorem index_exact_renamed :
    let c := renamed Walker.plain 'a' 'b' (by decide) 2
    Exact ((Kept.built Walker.plain (folder 'a' (by decide) 2)).step c).tree c.disk := by
  have hsteps : EachStep Kept.step (fun k c => Promised k c ∧ Roomy k c)
      (Kept.built Walker.plain (folder 'a' (by decide) 2))
      [renamed Walker.plain 'a' 'b' (by decide) 2] :=
    ⟨⟨promised_renamed (by decide), roomy_renamed (by decide) (by decide)⟩, trivial⟩
  exact (index_exact (by rw [length_folder]; decide) hsteps (List.prefix_refl _)).1

end Renamed

end Slopty.Find
