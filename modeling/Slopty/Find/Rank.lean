import Mathlib.Data.Prod.Lex
import Slopty.Find.Index
import Slopty.Lib.Best
import Slopty.Lib.Chunks

/-!
What a query finds among a worktree's paths: the best matches first, scored by as many threads as
there is work for, and for a query typed on from the last one, among the last one's matches alone.
-/

namespace Slopty.Find

open Slopty.Lib

/-- Characters that give a word of the query a meaning of its own. -/
def special : List Char := ['!', '^', '$', '\'', '\\']

/-- Candidates each thread scores at least. -/
def perThread : Nat := 16384

/-- The fuzzy matcher: whether a query has a word in it, and how well it matches a path. -/
structure Matcher where
  hasWord : Text → Bool
  score : Text → Path → Option Nat

/-- Whether every path `later` matches is one `earlier` matched: a query typed on with plain
characters. -/
def narrows (earlier later : Text) : Bool :=
  earlier.isPrefixOf later && !later.any special.contains

/-- What the matcher's users rely on: a query typed on with plain characters only narrows, and one
of plain characters has a word in it unless it is blank. -/
structure Matcher.Documented (m : Matcher) : Prop where
  narrows : ∀ earlier later path, narrows earlier later = true →
    (m.score later path).isSome → (m.score earlier path).isSome
  hasWord : ∀ query : Text, query.any special.contains = false → query.trim ≠ [] →
    m.hasWord query = true

/-- A path's place in the ranking: its score, then the shorter, then by name, then where it is. -/
abbrev Key := ℕ ×ₗ (ℕᵒᵈ ×ₗ (Pathᵒᵈ ×ₗ ℕ))

def keyOf (score : Nat) (path : Path) (at' : Nat) : Key :=
  toLex (score, toLex (OrderDual.toDual path.utf8Len, toLex (OrderDual.toDual path, at')))

def Key.at' (key : Key) : Nat := (ofLex (ofLex (ofLex key).2).2).2

structure Ranking where
  /-- Every candidate that matched, in the candidates' order. -/
  matched : List Nat := []
  /-- The best of them, best first. -/
  best : List Nat := []
  deriving DecidableEq

section Ranks

variable (m : Matcher) (paths : List Path) (skip : Nat) (query : Text)

/-- The key of a candidate that matches, seen without the first `skip` characters. -/
def keyAt (at' : Nat) : Option Key :=
  match paths[at']? with
  | none => none
  | some path =>
      if skip ≤ path.length then
        (m.score query (path.drop skip)).map fun score => keyOf score (path.drop skip) at'
      else none

/-- One candidate more: whether it matches, and whether it is among the best so far. -/
def scoreOne (limit : Nat) (found : List Nat × List Key) (at' : Nat) : List Nat × List Key :=
  match keyAt m paths skip query at' with
  | none => found
  | some key => (found.1 ++ [at'], keep limit found.2 key)

/-- One thread's share: the candidates that match, and the best `limit` of them. -/
def score (limit : Nat) (candidates : List Nat) : List Nat × List Key :=
  candidates.foldl (scoreOne m paths skip query limit) ([], [])

/-- Rank the candidates, on as many threads as there are cores and shares. -/
def rank (cores : Nat) (candidates : List Nat) (limit : Nat) : Ranking :=
  if !m.hasWord query || limit == 0 then {}
  else
    let threads := min (max (candidates.length / perThread) 1) cores
    let parts :=
      if threads = 1 then [score m paths skip query limit candidates]
      else (chunks (divCeil candidates.length threads) candidates).map
        (score m paths skip query limit)
    { matched := parts.flatMap Prod.fst
      best := (best limit (parts.flatMap Prod.snd)).map Key.at' }

variable {m paths skip query}

theorem foldl_scoreOne (limit : Nat) (candidates : List Nat) (found : List Nat × List Key) :
    candidates.foldl (scoreOne m paths skip query limit) found =
      (found.1 ++ candidates.filter (fun at' => (keyAt m paths skip query at').isSome),
        (candidates.filterMap (keyAt m paths skip query)).foldl (keep limit) found.2) := by
  induction candidates generalizing found with
  | nil => rw [List.foldl_nil, List.filter_nil, List.append_nil, List.filterMap_nil, List.foldl_nil]
  | cons at' rest ih =>
    rw [List.foldl_cons, ih, scoreOne, List.filter_cons, List.filterMap_cons]
    cases keyAt m paths skip query at' with
    | none => rfl
    | some key => simp

theorem score_spec (limit : Nat) (candidates : List Nat) :
    (score m paths skip query limit candidates).1 =
        candidates.filter (fun at' => (keyAt m paths skip query at').isSome) ∧
      ((score m paths skip query limit candidates).2).Perm
        (best limit (candidates.filterMap (keyAt m paths skip query))) := by
  rw [score, foldl_scoreOne]
  exact ⟨List.nil_append _, foldl_keep_perm limit _⟩

/-- Shared out among any number of threads, the ranking is the one of a single thread. -/
theorem rank_eq {cores : Nat} (hcores : 0 < cores) (candidates : List Nat) {limit : Nat}
    (hasked : (!m.hasWord query || limit == 0) = false) :
    rank m paths skip query cores candidates limit =
      { matched := candidates.filter fun at' => (keyAt m paths skip query at').isSome
        best := (best limit (candidates.filterMap (keyAt m paths skip query))).map Key.at' } := by
  have hparts : ∀ pieces : List (List Nat), pieces.flatten = candidates →
      (pieces.map (score m paths skip query limit)).flatMap Prod.fst =
          candidates.filter (fun at' => (keyAt m paths skip query at').isSome) ∧
        best limit ((pieces.map (score m paths skip query limit)).flatMap Prod.snd) =
          best limit (candidates.filterMap (keyAt m paths skip query)) := by
    rintro pieces rfl
    rw [List.flatMap_map, List.flatMap_map]
    constructor
    · rw [List.filter_flatten, ← List.flatMap_def]
      exact List.flatMap_congr fun piece _ => (score_spec limit piece).1
    · have hperm : (pieces.flatMap fun piece => (score m paths skip query limit piece).2).Perm
          ((pieces.map (List.filterMap (keyAt m paths skip query))).flatMap (best limit)) := by
        rw [List.flatMap_map]
        exact List.Perm.flatMap_left _ fun piece _ => (score_spec limit piece).2
      rw [best_perm hperm, best_flatMap_best, List.filterMap_flatten]
  rw [rank, if_neg (ne_true_of_eq_false hasked)]
  dsimp only
  split
  · obtain ⟨hmatched, hbest⟩ := hparts [candidates] (List.flatten_singleton)
    rw [List.map_singleton] at hmatched hbest
    rw [hmatched, hbest]
  · rename_i hmany
    have hthreads : 0 < min (max (candidates.length / perThread) 1) cores :=
      lt_min (lt_max_of_lt_right Nat.zero_lt_one) hcores
    have hsome : 0 < candidates.length := by
      refine Nat.pos_of_ne_zero fun hzero => hmany ?_
      rw [hzero, Nat.zero_div, max_eq_right (Nat.zero_le 1), min_eq_left hcores]
    have hchunk : 0 < divCeil candidates.length
        (min (max (candidates.length / perThread) 1) cores) := by
      rw [divCeil]
      exact Nat.div_pos (by omega) hthreads
    obtain ⟨hmatched, hbest⟩ := hparts _ (flatten_chunks hchunk candidates)
    rw [hmatched, hbest]

end Ranks

/-- A query's matches, kept for the query typed on from it. -/
structure Last where
  /-- The tree's version whose paths they are places in. -/
  version : Nat
  dir : Path
  query : Text
  matched : List Nat

structure Index where
  tree : Tree
  version : Nat := 0
  last : Option Last := none

namespace Index

/-- Bring the tree up to what the disk holds; a tree that changed is of another version. -/
def catchUp (c : CatchUp) (index : Index) : Index :=
  match c.pending with
  | .everything => { index with tree := walkAll c.walker c.disk, version := index.version + 1 }
  | .dirs dirs =>
      let changes := changesOf c.walker c.disk index.tree dirs
      if changes = ([], []) then index
      else
        { index with
          tree := applyChanges index.tree changes.1 changes.2
          version := index.version + 1 }

/-- The paths under a directory that a query matches, best first, each without the directory in
front. A query typed on from the last one, with the tree unchanged, scores the last one's matches
alone. -/
def matching (m : Matcher) (c : CatchUp) (cores : Nat) (index : Index) (dir : Path) (query : Text)
    (limit : Nat) : Index × List Path :=
  let index := index.catchUp c
  let all :=
    let (start, stop) := index.tree.under dir
    List.range' start (stop - start)
  let candidates := match index.last with
    | some last =>
        if last.version == index.version && last.dir == dir && narrows last.query query then
          last.matched
        else all
    | none => all
  let ranking := rank m index.tree.paths dir.length query cores candidates limit
  ({ index with last := some ⟨index.version, dir, query, ranking.matched⟩ },
    ranking.best.filterMap fun at' => (index.tree.paths[at']?).map fun p => p.drop dir.length)

/-- What the worker is asked for; a blank query is for the files changed lately. -/
inductive Op where
  | matching (c : CatchUp) (cores : Nat) (dir : Path) (query : Text) (limit : Nat)
  | recent (c : CatchUp)

def step (m : Matcher) (index : Index) : Op → Index
  | .matching c cores dir query limit =>
      if limit = 0 then index
      else if query.trim = [] then index.catchUp c
      else (index.matching m c cores dir query limit).1
  | .recent c => index.catchUp c

/-- The places of the paths under a directory. -/
def placesUnder (tree : Tree) (dir : Path) : List Nat :=
  (List.range tree.paths.length).filter fun at' => (tree.paths[at']?).any dir.isPrefixOf

/-- What a query finds when every path under the directory is scored, and all that match put in
order. -/
def found (m : Matcher) (tree : Tree) (dir : Path) (query : Text) (limit : Nat) : List Path :=
  if m.hasWord query then
    (best limit ((placesUnder tree dir).filterMap (keyAt m tree.paths dir.length query))).filterMap
      fun key => (tree.paths[key.at']?).map fun p => p.drop dir.length
  else []

/-- The last query's matches are those among all the paths under its directory. -/
structure Kept (m : Matcher) (index : Index) : Prop where
  ascending : Ascending index.tree.paths
  version : ∀ last, index.last = some last → last.version ≤ index.version
  asked : ∀ last, index.last = some last → last.query.trim ≠ []
  matched : ∀ last, index.last = some last → last.version = index.version →
    m.hasWord last.query = true →
      last.matched = (placesUnder index.tree last.dir).filter fun at' =>
        (keyAt m index.tree.paths last.dir.length last.query at').isSome

variable {m : Matcher} {index : Index}

theorem range_under (h : Ascending index.tree.paths) (dir : Path) :
    List.range' (index.tree.under dir).1 ((index.tree.under dir).2 - (index.tree.under dir).1) =
      placesUnder index.tree dir := by
  have hrun := run_eq_filter h (a := dir) (p := fun p => dir.isPrefixOf p)
    (fun b hb => not_lt.mp (not_lt_of_isPrefix (List.isPrefixOf_iff_prefix.mp hb)))
    fun b c hab hbc hc => List.isPrefixOf_iff_prefix.mpr
      (isPrefix_of_between (not_lt.mpr hab) hbc (List.isPrefixOf_iff_prefix.mp hc))
  rw [Tree.under, placesUnder, Nat.add_sub_cancel_left]
  refine (range_eq_run hrun ?_).symm
  have hstart : startOf dir index.tree.paths ≤ index.tree.paths.length :=
    (List.takeWhile_prefix _).length_le
  have hstop : partitionPoint (fun p => dir.isPrefixOf p)
      (index.tree.paths.drop (startOf dir index.tree.paths)) ≤
        (index.tree.paths.drop (startOf dir index.tree.paths)).length :=
    (List.takeWhile_prefix _).length_le
  refine (Nat.add_le_add_left hstop _).trans ?_
  rw [List.length_drop]
  omega

/-- The tree is brought up to date as before, and what was kept of the last query is kept. -/
theorem catchUp_spec (c : CatchUp) (index : Index) :
    (index.catchUp c).tree = Find.catchUp c.walker c.disk c.pending index.tree ∧
      (index.catchUp c).last = index.last ∧ index.version ≤ (index.catchUp c).version ∧
      ((index.catchUp c).version = index.version → (index.catchUp c).tree = index.tree) := by
  obtain ⟨disk, pending, walker⟩ := c
  cases pending with
  | everything => exact ⟨rfl, rfl, Nat.le_succ _, fun h => absurd h (Nat.succ_ne_self _)⟩
  | dirs dirs =>
    simp only [catchUp, Find.catchUp]
    split
    · rename_i hnone
      refine ⟨?_, rfl, le_refl _, fun _ => rfl⟩
      rw [hnone, applyChanges]
      rfl
    · exact ⟨rfl, rfl, Nat.le_succ _, fun h => absurd h (Nat.succ_ne_self _)⟩

theorem ascending_catchUp (index : Index) (h : Ascending index.tree.paths) (c : CatchUp) :
    Ascending (index.catchUp c).tree.paths := by
  rw [(catchUp_spec c index).1]
  obtain ⟨disk, pending, walker⟩ := c
  cases pending with
  | everything =>
    obtain ⟨found, hperm, hsub⟩ := (walker.found_subperm maxPaths (disk.under [])).trans
      List.filter_sublist.subperm
    exact ascending_sorted (hperm.nodup_iff.mp (disk.nodup.sublist hsub))
  | dirs dirs => exact (applyChanges_spec h _ _).1

theorem Kept.catchUp (h : Kept m index) (c : CatchUp) : Kept m (index.catchUp c) := by
  obtain ⟨-, hlast, hversion, hsame⟩ := catchUp_spec c index
  refine ⟨ascending_catchUp index h.ascending c, ?_, ?_, ?_⟩
  · intro last hl
    exact (h.version last (hlast ▸ hl)).trans hversion
  · intro last hl
    exact h.asked last (hlast ▸ hl)
  · intro last hl heq hword
    rw [hlast] at hl
    have hold : last.version = index.version :=
      le_antisymm (h.version last hl) (heq ▸ hversion)
    rw [hsame (heq.symm.trans hold)]
    exact h.matched last hl hold hword

theorem keyAt_isSome_of_narrows (hm : m.Documented) {earlier later : Text}
    (hnarrows : narrows earlier later = true) (paths : List Path) (skip at' : Nat)
    (h : (keyAt m paths skip later at').isSome) : (keyAt m paths skip earlier at').isSome := by
  rw [keyAt] at h ⊢
  split at h
  · exact h
  · split at h
    · rename_i hskip
      rw [Option.isSome_map] at h
      rw [if_pos hskip, Option.isSome_map]
      exact hm.narrows earlier later _ hnarrows h
    · exact absurd h Bool.false_ne_true

/-- The matches of a query among those of an earlier one are all its matches. -/
theorem filterMap_narrowed (hm : m.Documented) {earlier later : Text}
    (hnarrows : narrows earlier later = true) (paths : List Path) (skip : Nat)
    (places : List Nat) :
    (places.filter fun at' => (keyAt m paths skip earlier at').isSome).filterMap
        (keyAt m paths skip later) = places.filterMap (keyAt m paths skip later) ∧
      (places.filter fun at' => (keyAt m paths skip earlier at').isSome).filter
          (fun at' => (keyAt m paths skip later at').isSome) =
        places.filter fun at' => (keyAt m paths skip later at').isSome := by
  have himp := keyAt_isSome_of_narrows hm hnarrows paths skip
  constructor
  · rw [List.filterMap_filter]
    refine List.filterMap_congr fun at' _ => ?_
    split
    · rfl
    · rename_i hnot
      exact (Option.not_isSome_iff_eq_none.mp (mt (himp at') hnot)).symm
  · rw [List.filter_filter]
    refine List.filter_congr fun at' _ => ?_
    exact Bool.and_eq_left_iff_imp.mpr (himp at')

/-- The places a query is looked for at are enough to find all its matches. -/
theorem candidates_spec (hm : m.Documented) (h : Kept m index) (dir : Path) (query : Text)
    {candidates : List Nat}
    (hcandidates : (match index.last with
      | some last => if last.version == index.version && last.dir == dir && narrows last.query query
          then last.matched else placesUnder index.tree dir
      | none => placesUnder index.tree dir) = candidates) :
    candidates.filterMap (keyAt m index.tree.paths dir.length query) =
        (placesUnder index.tree dir).filterMap (keyAt m index.tree.paths dir.length query) ∧
      candidates.filter (fun at' => (keyAt m index.tree.paths dir.length query at').isSome) =
        (placesUnder index.tree dir).filter fun at' =>
          (keyAt m index.tree.paths dir.length query at').isSome := by
  subst hcandidates
  split
  · rename_i last hlast
    split
    · rename_i hsame
      rw [Bool.and_eq_true, Bool.and_eq_true, beq_iff_eq, beq_iff_eq] at hsame
      obtain ⟨⟨hversion, rfl⟩, hnarrows⟩ := hsame
      have hplain : last.query.any special.contains = false := by
        obtain ⟨hfront, hnone⟩ := (Bool.and_eq_true _ _).mp hnarrows
        obtain ⟨rest, hrest⟩ := List.isPrefixOf_iff_prefix.mp hfront
        rw [Bool.not_eq_true', ← hrest, List.any_append, Bool.or_eq_false_iff] at hnone
        exact hnone.1
      rw [h.matched last hlast hversion (hm.hasWord _ hplain (h.asked last hlast))]
      exact filterMap_narrowed hm hnarrows _ _ _
    · exact ⟨rfl, rfl⟩
  · exact ⟨rfl, rfl⟩

theorem Kept.remember (h : Kept m index) (dir : Path) {query : Text} (hquery : query.trim ≠ [])
    {matched : List Nat}
    (hmatched : m.hasWord query = true → matched = (placesUnder index.tree dir).filter fun at' =>
      (keyAt m index.tree.paths dir.length query at').isSome) :
    Kept m { index with last := some ⟨index.version, dir, query, matched⟩ } where
  ascending := h.ascending
  version last hlast := by
    rw [← Option.some.inj hlast]
  asked last hlast := by
    rw [← Option.some.inj hlast]
    exact hquery
  matched last hlast _ hword := by
    rw [← Option.some.inj hlast] at hword ⊢
    exact hmatched hword

/-- However the last query was, this one finds what it would find with every path scored. -/
theorem matching_spec (hm : m.Documented) (h : Kept m index) (c : CatchUp) {cores : Nat}
    (hcores : 0 < cores) (dir : Path) {query : Text} (hquery : query.trim ≠ []) {limit : Nat}
    (hlimit : limit ≠ 0) :
    (index.matching m c cores dir query limit).2 =
        found m (index.catchUp c).tree dir query limit ∧
      Kept m (index.matching m c cores dir query limit).1 := by
  have hkept := h.catchUp c
  rw [matching]
  generalize index.catchUp c = index at hkept
  dsimp only
  rw [range_under hkept.ascending]
  generalize hcandidates : (match index.last with
    | some last => if (last.version == index.version && last.dir == dir &&
        narrows last.query query) = true then last.matched else placesUnder index.tree dir
    | none => placesUnder index.tree dir) = candidates
  obtain ⟨hkeys, hplaces⟩ := candidates_spec hm hkept dir query hcandidates
  cases hword : m.hasWord query with
  | false =>
    have hnothing : rank m index.tree.paths dir.length query cores candidates limit = {} := by
      rw [rank, hword]
      rfl
    rw [hnothing, found, hword]
    exact ⟨rfl, hkept.remember dir hquery fun htrue => absurd (hword.symm.trans htrue) Bool.false_ne_true⟩
  | true =>
    have hasked : (!m.hasWord query || limit == 0) = false := by
      rw [hword, beq_false_of_ne hlimit]
      rfl
    rw [rank_eq hcores candidates hasked, hkeys, hplaces, found, if_pos hword]
    refine ⟨?_, hkept.remember dir hquery fun _ => rfl⟩
    rw [List.filterMap_map]
    rfl

theorem Kept.step (hm : m.Documented) (h : Kept m index) (op : Op)
    (hcores : ∀ c cores dir query limit, op = .matching c cores dir query limit → 0 < cores) :
    Kept m (index.step m op) := by
  cases op with
  | matching c cores dir query limit =>
    rw [Index.step]
    split
    · exact h
    · rename_i hlimit
      split
      · exact h.catchUp c
      · rename_i hquery
        exact (matching_spec hm h c (hcores c cores dir query limit rfl) dir hquery hlimit).2
  | recent c => exact h.catchUp c

/-- A machine has a core to run on. -/
def HasCore (_ : Index) : Op → Prop
  | .matching _ cores _ _ _ => 0 < cores
  | .recent _ => True

/-- Whatever was asked of an index before and however the disk changed meanwhile, a query finds the
best of all the paths under its directory that match, as if each had been scored anew by one
thread. -/
theorem typed_on_finds_the_same (m : Matcher) (hm : m.Documented) (w : Walker) (t : Worktree)
    (ops : List Op) (hops : EachStep (step m) HasCore { tree := walkAll w t } ops) (c : CatchUp)
    (cores : Nat) (hcores : 0 < cores) (dir : Path) (query : Text) (hquery : query.trim ≠ [])
    (limit : Nat) (hlimit : limit ≠ 0) :
    let index := ops.foldl (step m) { tree := walkAll w t }
    (index.matching m c cores dir query limit).2 =
      found m (index.catchUp c).tree dir query limit := by
  have hstart : Kept m { tree := walkAll w t } :=
    { ascending := ascending_catchUp { tree := ⟨[], .empty⟩ } List.Pairwise.nil
        ⟨t, .everything, w⟩
      version := fun _ h => absurd h.symm (Option.some_ne_none _)
      asked := fun _ h => absurd h.symm (Option.some_ne_none _)
      matched := fun _ h => absurd h.symm (Option.some_ne_none _) }
  have hkept := EachStep.foldl (P := Kept m) (fun index op hk hop => hk.step hm op (by
    rintro c cores dir query limit rfl
    exact hop)) hops hstart
  exact (matching_spec hm hkept c hcores dir hquery hlimit).1

end Index

/-- Words whose letters are in a path in order, all matches alike. -/
def lettersInOrder : Matcher where
  hasWord query := query.any (· != ' ')
  score query path := if (query.filter (· != ' ')).isSublist path then some 0 else none

theorem documented_lettersInOrder : lettersInOrder.Documented where
  narrows earlier later path hnarrows h := by
    obtain ⟨rest, rfl⟩ := List.isPrefixOf_iff_prefix.mp ((Bool.and_eq_true _ _).mp hnarrows).1
    have hall : (earlier.filter (· != ' ')).Sublist ((earlier ++ rest).filter (· != ' ')) :=
      (List.sublist_append_left earlier rest).filter _
    rw [lettersInOrder] at h ⊢
    dsimp only at h ⊢
    split at h
    · rename_i hlater
      rw [if_pos (List.isSublist_iff_sublist.mpr (hall.trans (List.isSublist_iff_sublist.mp hlater)))]
      rfl
    · exact absurd h Bool.false_ne_true
  hasWord query _ hquery := by
    by_contra hnone
    refine hquery ?_
    have hblank : ∀ c ∈ query, isWhitespace c = true := by
      intro c hc
      have hspace : c = ' ' := by
        by_contra hne
        exact hnone (List.any_eq_true.mpr ⟨c, hc, bne_iff_ne.mpr hne⟩)
      rw [hspace]
      rfl
    rw [Text.trim, List.dropWhile_eq_nil_iff.mpr hblank]
    rfl

def twoFiles : Worktree where
  paths := ["lib.rs".toList, "main.rs".toList]
  nodup := by decide
  named p hp := by
    obtain rfl | rfl : p = "lib.rs".toList ∨ p = "main.rs".toList := by simpa using hp
    all_goals decide
  above p hp dir hdir hisDir := by
    have hslash : '/' ∈ p := by
      rw [isDir, decide_eq_true_eq] at hisDir
      exact hdir.subset (List.mem_of_getLast? hisDir)
    obtain rfl | rfl : p = "lib.rs".toList ∨ p = "main.rs".toList := by simpa using hp
    all_goals exact absurd hslash (by decide)

namespace Index

theorem typed_on_finds_the_same_main :
    let index := step lettersInOrder { tree := walkAll Walker.plain twoFiles }
      (.matching ⟨twoFiles, .dirs [], Walker.plain⟩ 1 [] "m".toList 8)
    (index.matching lettersInOrder ⟨twoFiles, .dirs [], Walker.plain⟩ 4 [] "ma".toList 8).2 =
      found lettersInOrder (index.catchUp ⟨twoFiles, .dirs [], Walker.plain⟩).tree []
        "ma".toList 8 :=
  typed_on_finds_the_same lettersInOrder documented_lettersInOrder Walker.plain twoFiles
    [.matching ⟨twoFiles, .dirs [], Walker.plain⟩ 1 [] "m".toList 8] ⟨Nat.one_pos, trivial⟩ _ 4
    (by decide) [] "ma".toList (by decide) 8 (by decide)

end Index

end Slopty.Find
