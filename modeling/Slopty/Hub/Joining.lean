import Mathlib.Data.List.MinMax
import Mathlib.Order.Synonym
import Slopty.Hub.Counting
import Slopty.Lib.Search

/-!
Standings joined, and the standing of some of a ladder's tiles: neither the order of the threads
nor how they are grouped tells.
-/

namespace Slopty.Hub

open Slopty.Lib
open Slopty.Thread (WallMs)

namespace Rung

/-- The rungs, highest first. -/
def down : List Rung := [needsYou, failed, working, waiting, idle]

end Rung

namespace Standing

/-- Take in every thread another standing is of, which must be apart from this one's. -/
def join (s other : Standing) : Standing :=
  let s := { s with
    counts := Rung.down.foldl (fun counts rung => counts.add rung (other.counts.on rung)) s.counts }
  match other.top with
  | some top => s.lead top other.rung other.sinceMs
  | none => s

end Standing

/-- What a tile is kept by: its worker and its session. -/
abbrev TileKey := WorkerId ×ₗ SessionId

/-- Where a tile's threads stand, when it has any. -/
def Ladder.tile (l : Ladder) (tile : TileKey) : Option (TileKey × Standing) :=
  (binarySearch (fun e => cmp e.1 tile) l.tiles.entries).toOption.bind fun at' =>
    l.tiles.entries[at']?

/-- Where the threads of tiles stand together. -/
def Ladder.over (l : Ladder) (tiles : List TileKey) : Standing :=
  (dedupRuns (tiles.insertionSort (· ≤ ·))).foldl
    (fun sum tile =>
      match l.tile tile with
      | some (_, standing) => sum.join standing
      | none => sum)
    {}

/-- What puts a thread ahead: its rung, then how long, then its name. -/
abbrev Place := Rung ×ₗ (WallMs ×ₗ ThreadAt)ᵒᵈ

def Ranked.place (r : Ranked) : Place := toLex (r.rung, OrderDual.toDual (toLex (r.sinceMs, r.at')))

/-- A thread that no other of some goes before: on the highest rung, there longest, and of those the
first by name. -/
def Leads (threads : List Ranked) (r : Ranked) : Prop :=
  r ∈ threads ∧ ∀ u ∈ threads, u.rung < r.rung ∨
    u.rung = r.rung ∧ (r.sinceMs < u.sinceMs ∨ r.sinceMs = u.sinceMs ∧ r.at' ≤ u.at')

theorem place_le_iff {u r : Ranked} : u.place ≤ r.place ↔
    u.rung < r.rung ∨
      u.rung = r.rung ∧ (r.sinceMs < u.sinceMs ∨ r.sinceMs = u.sinceMs ∧ r.at' ≤ u.at') := by
  unfold Ranked.place
  rw [Prod.Lex.toLex_le_toLex, OrderDual.toDual_le_toDual, Prod.Lex.toLex_le_toLex]

namespace Counts

theorem ext_on {a b : Counts} (h : ∀ rung, a.on rung = b.on rung) : a = b := by
  obtain ⟨a1, a2, a3, a4, a5⟩ := a
  obtain ⟨b1, b2, b3, b4, b5⟩ := b
  have h1 : a1 = b1 := h .needsYou
  have h2 : a2 = b2 := h .failed
  have h3 : a3 = b3 := h .working
  have h4 : a4 = b4 := h .waiting
  have h5 : a5 = b5 := h .idle
  rw [h1, h2, h3, h4, h5]

end Counts

namespace Standing

variable {s t : Standing}

/-- The place of the thread at the top. -/
def best (s : Standing) : WithBot Place :=
  match s.top with
  | some top => ((⟨top, s.rung, s.sinceMs⟩ : Ranked).place : Place)
  | none => ⊥

/-- With no thread at the top there is nothing said of one. -/
def Plain (s : Standing) : Prop := s.top = none → s.rung = .idle ∧ s.sinceMs = 0

theorem ext_best (hs : s.Plain) (ht : t.Plain) (hcounts : s.counts = t.counts)
    (hbest : s.best = t.best) : s = t := by
  obtain ⟨rung, counts, top, since⟩ := s
  obtain ⟨rung', counts', top', since'⟩ := t
  obtain rfl : counts = counts' := hcounts
  cases top with
  | none =>
    cases top' with
    | none =>
      obtain ⟨hr, hm⟩ := hs rfl
      obtain ⟨hr', hm'⟩ := ht rfl
      simp only at hr hm hr' hm'
      rw [hr, hm, hr', hm']
    | some top' => exact absurd hbest.symm (WithBot.coe_ne_bot)
  | some top =>
    cases top' with
    | none => exact absurd hbest WithBot.coe_ne_bot
    | some top' =>
      have hplace := WithBot.coe_injective hbest
      obtain ⟨hr, hrest⟩ := Prod.mk.inj (toLex.injective hplace)
      obtain ⟨hm, ha⟩ := Prod.mk.inj (toLex.injective (OrderDual.toDual.injective hrest))
      simp only at hr hm ha
      rw [hr, hm, ha]

theorem lead_counts (s : Standing) (at' : ThreadAt) (rung : Rung) (sinceMs : WallMs) :
    (s.lead at' rung sinceMs).counts = s.counts := by
  unfold lead
  dsimp only
  split <;> rfl

theorem lead_plain (hs : s.Plain) (at' : ThreadAt) (rung : Rung) (sinceMs : WallMs) :
    (s.lead at' rung sinceMs).Plain := by
  unfold lead
  dsimp only
  split
  · exact fun h => absurd h nofun
  · exact hs

/-- The top after a lead is the one of the two whose place is higher. -/
theorem lead_best (s : Standing) (r : Ranked) :
    (s.lead r.at' r.rung r.sinceMs).best = max s.best (r.place : WithBot Place) := by
  have hnew : ∀ counts : Counts,
      best ⟨r.rung, counts, some r.at', r.sinceMs⟩ = (r.place : WithBot Place) := fun _ => rfl
  unfold lead
  cases htop : s.top with
  | none =>
    have hbot : s.best = ⊥ := by
      rw [best, htop]
    simp only [Option.all_none, if_true, hnew, hbot]
    exact (max_eq_right bot_le).symm
  | some top =>
    have hbest : s.best = ((⟨top, s.rung, s.sinceMs⟩ : Ranked).place : WithBot Place) := by
      rw [best, htop]
    have hahead : (s.rung < r.rung ∨
        r.rung = s.rung ∧ toLex (r.sinceMs, r.at') < toLex (s.sinceMs, top)) ↔
        (⟨top, s.rung, s.sinceMs⟩ : Ranked).place < r.place := by
      unfold Ranked.place
      rw [Prod.Lex.toLex_lt_toLex (x := (s.rung, _)), OrderDual.toDual_lt_toDual,
        eq_comm (a := r.rung)]
    simp only [Option.all_some, decide_eq_true_eq]
    by_cases hlt : (⟨top, s.rung, s.sinceMs⟩ : Ranked).place < r.place
    · rw [if_pos (hahead.mpr hlt), hnew, hbest]
      exact (max_eq_right (WithBot.coe_lt_coe.mpr hlt).le).symm
    · rw [if_neg fun h => hlt (hahead.mp h), hbest]
      exact (max_eq_left (WithBot.coe_le_coe.mpr (not_lt.mp hlt))).symm

theorem add_best (s : Standing) (r : Ranked) :
    (s.add r).best = max s.best (r.place : WithBot Place) :=
  lead_best { s with counts := s.counts.count r.rung } r

theorem of_concat (threads : List Ranked) (r : Ranked) :
    of (threads ++ [r]) = (of threads).add r := by
  rw [of, List.foldl_append]
  rfl

theorem of_plain (threads : List Ranked) : (of threads).Plain := by
  induction threads using List.reverseRecOn with
  | nil => exact fun _ => ⟨rfl, rfl⟩
  | append_singleton threads r ih =>
    rw [of_concat]
    exact lead_plain (s := { of threads with counts := (of threads).counts.count r.rung }) ih _ _ _

theorem of_best (threads : List Ranked) :
    (of threads).best = (threads.map Ranked.place).maximum := by
  induction threads using List.reverseRecOn with
  | nil => rfl
  | append_singleton threads r ih =>
    rw [of_concat, add_best, ih, List.map_append, List.map_singleton, List.maximum_concat]

theorem join_counts (s other : Standing) (rung : Rung) :
    (s.join other).counts.on rung = min u32Max (s.counts.on rung + other.counts.on rung) := by
  have hcounts : (s.join other).counts =
      Rung.down.foldl (fun counts rung => counts.add rung (other.counts.on rung)) s.counts := by
    unfold join
    dsimp only
    split
    · exact lead_counts _ _ _ _
    · rfl
  rw [hcounts]
  cases rung <;> rfl

theorem join_best (s other : Standing) : (s.join other).best = max s.best other.best := by
  unfold join
  dsimp only
  cases htop : other.top with
  | none =>
    have hbot : other.best = ⊥ := by
      rw [best, htop]
    rw [hbot]
    exact (max_eq_left bot_le).symm
  | some top =>
    have hbest : other.best = ((⟨top, other.rung, other.sinceMs⟩ : Ranked).place : WithBot Place) := by
      rw [best, htop]
    rw [hbest]
    exact lead_best { s with counts := _ } ⟨top, other.rung, other.sinceMs⟩

theorem join_plain (hs : s.Plain) (other : Standing) : (s.join other).Plain := by
  unfold join
  dsimp only
  generalize Rung.down.foldl _ s.counts = counts
  split
  · exact lead_plain (s := { s with counts := counts }) hs _ _ _
  · exact hs

theorem maximum_map_append (a b : List Ranked) :
    ((a ++ b).map Ranked.place).maximum =
      max (a.map Ranked.place).maximum (b.map Ranked.place).maximum := by
  rw [List.map_append]
  induction b using List.reverseRecOn with
  | nil => simp
  | append_singleton b r ih =>
    rw [List.map_append, ← List.append_assoc, List.map_singleton, List.maximum_concat, ih,
      List.maximum_concat, max_assoc]

theorem join_of (a b : List Ranked) : (of a).join (of b) = of (a ++ b) := by
  refine ext_best (join_plain (of_plain a) _) (of_plain _) (Counts.ext_on fun rung => ?_) ?_
  · rw [join_counts, counts_of, counts_of, counts_of, List.countP_append]
    omega
  · rw [join_best, of_best, of_best, of_best, maximum_map_append]

theorem maximum_perm {a b : List Ranked} (h : a.Perm b) :
    (a.map Ranked.place).maximum = (b.map Ranked.place).maximum := by
  have hle : ∀ {a b : List Ranked}, a.Perm b →
      (a.map Ranked.place).maximum ≤ (b.map Ranked.place).maximum := by
    intro a b h
    refine List.maximum_le_of_forall_le fun p hp => ?_
    exact List.le_maximum_of_mem' ((h.map _).mem_iff.mp hp)
  exact le_antisymm (hle h) (hle h.symm)

theorem of_perm {a b : List Ranked} (h : a.Perm b) : of a = of b := by
  refine ext_best (of_plain a) (of_plain b) (Counts.ext_on fun rung => ?_) ?_
  · rw [counts_of, counts_of, h.countP_eq]
  · rw [of_best, of_best, maximum_perm h]

theorem of_leads {threads : List Ranked} (h : threads ≠ []) :
    ∃ r, Leads threads r ∧ (of threads).top = some r.at' ∧ (of threads).rung = r.rung ∧
      (of threads).sinceMs = r.sinceMs := by
  have hbest := of_best threads
  cases htop : (of threads).top with
  | none =>
    rw [best, htop, eq_comm] at hbest
    have hnil := List.maximum_eq_bot.mp hbest
    exact absurd (List.map_eq_nil_iff.mp hnil) h
  | some top =>
    rw [best, htop, eq_comm] at hbest
    obtain ⟨hmem, hmax⟩ := List.maximum_eq_coe_iff.mp hbest
    obtain ⟨r, hr, hplace⟩ := List.mem_map.mp hmem
    obtain ⟨hrung, hrest⟩ := Prod.mk.inj (toLex.injective hplace)
    obtain ⟨hsince, hat⟩ := Prod.mk.inj (toLex.injective (OrderDual.toDual.injective hrest))
    refine ⟨r, ⟨hr, fun u hu => ?_⟩, congrArg some hat.symm, hrung.symm, hsince.symm⟩
    have hle := hmax u.place (List.mem_map_of_mem hu)
    rw [← hplace] at hle
    exact place_le_iff.mp hle

end Standing

/-! ### The tiles of a ladder -/

section Tiles

variable (tables : Tables)

def tileOf (r : Root) : Option TileKey :=
  (seatOf r.row).map fun session => toLex (r.ranked.at'.worker, session)

def seatedOn (tiles : List TileKey) : List Ranked :=
  (tables.roots.filter fun r => (tileOf r).any fun t => decide (t ∈ tiles)).map Root.ranked

theorem tile_eq (t : TileKey) :
    (ladder tables).tile t =
      if (tables.roots.filter fun r => decide (tileOf r = some t)).map Root.ranked = [] then none
      else some (t, Standing.of
        ((tables.roots.filter fun r => decide (tileOf r = some t)).map Root.ranked)) := by
  show (binarySearch (fun e => cmp e.1 t) (ladder tables).tiles.entries).toOption.bind _ = _
  rw [OrdMap.binarySearch_entries]
  have hget : (ladder tables).tiles.get? t = _ :=
    (congrArg (fun m => OrdMap.get? m t) (Tables.rollUp_eq tileOf tables.roots)).trans
      (get?_rollUp _ t)
  rw [hget, Tables.takenInto_rollUp]
  split <;> rfl

theorem foldl_join_tiles (keys : List TileKey) (threads : List Ranked) :
    keys.foldl (fun sum t =>
        match (ladder tables).tile t with
        | some (_, standing) => sum.join standing
        | none => sum) (Standing.of threads) =
      Standing.of (threads ++ keys.flatMap fun t =>
        (tables.roots.filter fun r => decide (tileOf r = some t)).map Root.ranked) := by
  induction keys generalizing threads with
  | nil => rw [List.flatMap_nil, List.append_nil, List.foldl_nil]
  | cons t keys ih =>
    rw [List.foldl_cons, tile_eq, List.flatMap_cons, ← List.append_assoc]
    split
    · rename_i hsome
      split at hsome
      · exact absurd hsome nofun
      · obtain ⟨rfl, rfl⟩ := Prod.mk.inj (Option.some.inj hsome)
        rw [Standing.join_of, ih]
    · rename_i hnone
      split at hnone
      · rename_i hnil
        rw [hnil, List.append_nil, ih]
      · exact absurd hnone nofun

/-- Tiles in any order, with any repeats, stand as the threads seated on them. -/
theorem over_eq (tiles : List TileKey) :
    (ladder tables).over tiles = Standing.of (seatedOn tables tiles) := by
  have hsorted := sorted_dedupRuns (List.pairwise_insertionSort (· ≤ ·) tiles)
  have hnodup : (dedupRuns (tiles.insertionSort (· ≤ ·))).Nodup := hsorted.imp fun h => h.ne
  have hmem : ∀ t, t ∈ dedupRuns (tiles.insertionSort (· ≤ ·)) ↔ t ∈ tiles := fun t =>
    mem_dedupRuns.trans (List.mem_insertionSort _)
  have hperm := (flatMap_filter_perm tileOf tables.roots hnodup).map Root.ranked
  rw [List.map_flatMap] at hperm
  have hfold := foldl_join_tiles tables (dedupRuns (tiles.insertionSort (· ≤ ·))) []
  refine hfold.trans ?_
  rw [List.nil_append, Standing.of_perm hperm]
  simp only [hmem]
  rfl

end Tiles

/-- Where threads stand together tells neither their order nor how they were grouped. -/
theorem standing_of_group :
    (∀ a b : List Ranked, a.Perm b → Standing.of a = Standing.of b) ∧
      (∀ a b : List Ranked, (Standing.of a).join (Standing.of b) = Standing.of (a ++ b)) ∧
      (∀ threads : List Ranked, threads ≠ [] → ∃ r, Leads threads r ∧
        (Standing.of threads).top = some r.at' ∧ (Standing.of threads).rung = r.rung ∧
        (Standing.of threads).sinceMs = r.sinceMs) ∧
      ∀ (tables : Tables) (tiles : List TileKey),
        (ladder tables).over tiles = Standing.of (seatedOn tables tiles) :=
  ⟨fun _ _ => Standing.of_perm, Standing.join_of, fun _ => Standing.of_leads, over_eq⟩

end Slopty.Hub
