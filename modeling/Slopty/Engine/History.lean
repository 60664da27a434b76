import Slopty.Engine.Search
import Slopty.Lib.Run

/-!
The search's own copy of the rows that scrolled up: each is formatted once and scanned once for a
needle, so that a search repeated while a program writes looks into the new rows and the screen
alone. It finds what a search of the whole text finds.
-/

namespace Slopty.Engine.Search

open Slopty.Lib

/-- One needle's hits in the rows it has scanned. -/
structure Hits where
  needle : Text
  regex : Bool
  max : Nat
  /-- One past the last row scanned, and where its text starts. -/
  scanned : Nat
  scannedAt : Nat
  /-- Lines with hits and how many, oldest first. -/
  rows : List (Nat × Nat) := []
  total : Nat := 0
  /-- The newest `max` hits, oldest first. -/
  newest : List SearchMatch := []

structure History where
  /-- The numbering the rows are of. -/
  epoch : Option Nat := none
  cols : Nat := 0
  /-- Absolute line of the row whose text is at `start`. -/
  first : Nat := 0
  /-- One past the last row held. -/
  endAt : Nat := 0
  /-- Each row's text and a newline; what is before `start` is of rows evicted since. -/
  text : Text := []
  start : Nat := 0
  /-- Whether each row held soft-wraps into the next. -/
  wraps : List Bool := []
  /-- The last needle's hits in the rows held. -/
  hits : Option Hits := none

/-- The hits of the rows evicted go. -/
def Hits.evict (h : Hits) (first start : Nat) : Hits :=
  { h with
    rows := h.rows.dropWhile fun r => decide (r.1 < first)
    total := (h.rows.takeWhile fun r => decide (r.1 < first)).foldl (fun total r => total - r.2)
      h.total
    newest := h.newest.dropWhile fun m => decide (m.line < first)
    scanned := if h.scanned < first then first else h.scanned
    scannedAt := if h.scanned < first then start else h.scannedAt }

namespace History

def reset (epoch cols at' : Nat) : History :=
  { epoch := some epoch, cols := cols, first := at', endAt := at' }

/-- Forget the rows above `base`. Their text goes once it is half of all. -/
def evict (h : History) (base : Nat) : History :=
  let gone := min base h.endAt - h.first
  let at' := skipLines '\n' h.text gone h.start
  let hits := h.hits.map fun s => s.evict (h.first + gone) at'
  let h := { h with first := h.first + gone, wraps := h.wraps.drop (min gone h.wraps.length) }
  if h.text.utf8Len / 2 < Text.utf8Len (h.text.take at') then
    { h with
      text := h.text.drop at'
      start := 0
      hits := hits.map fun s => { s with scannedAt := s.scannedAt - at' } }
  else { h with start := at', hits := hits }

/-- Bring the record to a history of rows `base` to `endAt`: the rows it lacks. -/
def missing (h : History) (epoch cols base endAt : Nat) : History × Option (Nat × Nat) :=
  let h :=
    if h.epoch ≠ some epoch ∨ h.cols ≠ cols ∨ endAt < h.endAt ∨ h.endAt ≤ base then
      reset epoch cols (min base endAt)
    else if h.first < base then h.evict base
    else h
  (h, if h.endAt < endAt then some (h.endAt, endAt) else none)

/-- The next rows below those held, blank rows at the end left out of the text. -/
def append (h : History) (formatted : Text) (rows : Nat) (wraps : List Bool) : History :=
  let lines := (formatted.splitOn '\n').take rows
  { h with
    wraps := h.wraps ++ (List.range rows).map fun i => (wraps[i]?).getD false
    text := h.text ++ lined '\n' lines ++ List.replicate (rows - lines.length) '\n'
    endAt := h.endAt + rows }

/-- The text of some rows when they are all held. -/
def rows (h : History) (epoch first endAt : Nat) : Option (List Text) :=
  if h.epoch ≠ some epoch ∨ first < h.first ∨ h.endAt < endAt then none
  else
    some (((splitTerminator '\n' (h.text.drop h.start)).drop (first - h.first)).take
      (endAt - first))

/-- Where the last line that ends among the rows ends, or the last one scanned. -/
def completeOf (scanned : Nat) (wrapOf : Nat → Bool) : Nat → Nat
  | 0 => 0
  | n + 1 => if scanned < n + 1 ∧ wrapOf n = true then completeOf scanned wrapOf n else n + 1

/-- What the needle has scanned so far; nothing when another was searched last. -/
def hitsFor (h : History) (needle : Text) (regex : Bool) (max : Nat) : Hits :=
  let fresh : Hits :=
    { needle := needle, regex := regex, max := max, scanned := h.first, scannedAt := h.start }
  match h.hits with
  | none => fresh
  | some held =>
      if held.needle = needle ∧ held.regex = regex ∧ held.max = max then held else fresh

variable (t : Tables) (pattern : Pattern)

/-- Find `pattern` in the rows held, then in `screen` below them. -/
def find (h : History) (needle : Text) (regex : Bool) (max : Nat) (screen : List Row) :
    History × Found :=
  if pattern.isEmpty then (h, {})
  else
    let hits := h.hitsFor needle regex max
    let wrapOf (row : Nat) : Bool := (h.wraps[row - h.first]?).getD false
    let complete := completeOf hits.scanned wrapOf h.endAt
    let rows := (splitTerminator '\n' (h.text.drop hits.scannedAt)).zip
      (h.wraps.drop (hits.scanned - h.first))
    let completeRows := complete - hits.scanned
    let hits :=
      if 0 < completeRows then
        let found := scan t pattern max h.cols (rows.take completeRows) hits.scanned
        { hits with
          total := satAdd 64 hits.total (found.rows.map Prod.snd).sum
          rows := hits.rows ++ found.rows
          newest := recent max (hits.newest ++ found.found)
          scanned := complete
          scannedAt := tailStart '\n' h.text (h.endAt - complete) hits.scannedAt }
      else hits
    let below := scan t pattern max h.cols (rows.drop completeRows ++ screen) complete
    let total := satAdd 64 hits.total (below.rows.map Prod.snd).sum
    let older := max - below.found.length
    ({ h with hits := some hits },
      { total := min total u32Max
        found := hits.newest.drop (hits.newest.length - older) ++ below.found })

end History

/-- The terminal as a search sees it: the rows scrolled up that it keeps, and the screen. -/
structure Shown where
  epoch : Nat
  cols : Nat
  /-- Absolute line of the oldest row kept. -/
  base : Nat
  history : List Row
  screen : List Row

structure Query where
  needle : Text
  regex : Bool
  max : Nat

variable (t : Tables)

section Engine

-- formats rows as plain text, one line each, and leaves blank ones at the end out
variable (plainRows : List Text → Text)

def Shown.screenText (s : Shown) : Text :=
  if s.screen.isEmpty then [] else plainRows (s.screen.map Prod.fst)

/-- The record brought to the history rows kept: those it lacks are formatted. -/
def History.brought (h : History) (s : Shown) : History :=
  let r := h.missing s.epoch s.cols s.base (s.base + s.history.length)
  match r.2 with
  | none => r.1
  | some (from', upTo) =>
      let rows := (s.history.drop (from' - s.base)).take (upTo - from')
      r.1.append (plainRows (rows.map Prod.fst)) (upTo - from') (rows.map Prod.snd)

/-- The engine's search: history rows are formatted once, the screen every time. -/
def search (h : History) (s : Shown) (q : Query) : History × Except Text Found :=
  if q.needle.isEmpty then (h, .ok {})
  else
    match Pattern.new t q.needle q.regex with
    | .error e => (h, .error e)
    | .ok pattern =>
        let screen := rowsOf (s.screenText plainRows) (s.screen.map Prod.snd)
        let r := (h.brought plainRows s).find t pattern q.needle q.regex q.max screen
        (r.1, .ok r.2)

/-- A search of the whole text formatted afresh. -/
def wholeSearch (s : Shown) (q : Query) : Except Text Found :=
  if q.needle.isEmpty then .ok {}
  else
    match Pattern.new t q.needle q.regex with
    | .error e => .error e
    | .ok pattern =>
        .ok (Search.find t pattern q.max s.cols
          (lined '\n' (s.history.map Prod.fst) ++ s.screenText plainRows)
          (s.history.map Prod.snd ++ s.screen.map Prod.snd) s.base)

/-- The text of rows, cut from the search's own copy when it has them. -/
def rowsText (h : History) (s : Shown) (first endAt : Nat) : List Text :=
  let first := max first s.base
  if endAt ≤ first then []
  else
    let count := endAt - first
    let rows :=
      match h.rows s.epoch first endAt with
      | some held => held
      | none =>
          let shown := ((s.history ++ s.screen).drop (first - s.base)).take count
          ((plainRows (shown.map Prod.fst)).splitOn '\n').take count
    rows.take count ++ List.replicate (count - rows.length) []

end Engine

theorem foldl_sub (l : List (Nat × Nat)) (total : Nat) :
    l.foldl (fun total r => total - r.2) total = total - (l.map Prod.snd).sum := by
  induction l generalizing total with
  | nil => rfl
  | cons r l ih =>
    rw [List.foldl_cons, ih, List.map_cons, List.sum_cons]
    omega

theorem foldl_satAdd (l : List (Nat × Nat)) :
    l.foldl (fun sum r => satAdd 32 sum r.2) 0 = min (l.map Prod.snd).sum u32Max := by
  induction l using List.reverseRecOn with
  | nil => rfl
  | append_singleton l r ih =>
    rw [List.foldl_append, ih, List.map_append, List.sum_append]
    simp only [List.foldl_cons, List.foldl_nil, List.map_cons, List.map_nil, List.sum_cons,
      List.sum_nil, satAdd, u32Max]
    omega

variable {t : Tables} {pattern : Pattern} {cols : Nat}

theorem length_linesFrom_le (rows : List Row) (first row : Nat) (parts : List Text) :
    (linesFrom t cols first parts row rows).length ≤
      rows.length + if parts.isEmpty then 0 else 1 := by
  induction rows generalizing first row parts with
  | nil =>
    rw [linesFrom]
    split <;> exact le_rfl
  | cons r rest ih =>
    rw [linesFrom, List.length_cons]
    split
    · have hnext := ih (if parts.isEmpty then row else first) (row + 1) (parts ++ [r.1])
      have hsome : ¬(parts ++ [r.1]).isEmpty := by simp
      rw [if_neg hsome] at hnext
      omega
    · have hnext := ih (if parts.isEmpty then row else first) (row + 1) []
      rw [List.isEmpty_nil, if_pos rfl] at hnext
      rw [List.length_cons]
      omega

theorem sum_countsOf_le (lines : List Logical) :
    ((countsOf pattern lines).map Prod.snd).sum ≤ lines.length * u32Max := by
  have hle : ∀ n ∈ (countsOf pattern lines).map Prod.snd, n ≤ u32Max := by
    intro n hn
    obtain ⟨r, hr, rfl⟩ := List.mem_map.mp hn
    obtain ⟨line, -, rfl⟩ := List.mem_map.mp hr
    exact min_le_right _ _
  refine (List.sum_le_card_nsmul _ _ hle).trans ?_
  rw [nsmul_eq_mul, Nat.cast_id, List.length_map, countsOf, List.length_map]
  exact Nat.mul_le_mul_right _ (List.length_filter_le _ _)

/-- So few rows have fewer hits than a counter holds. -/
theorem sum_countsOf_lt (t : Tables) (pattern : Pattern) (cols : Nat) {rows : List Row}
    (h : rows.length ≤ 2 ^ 32) (base : Nat) :
    ((countsOf pattern (lines t cols base rows)).map Prod.snd).sum < 2 ^ 64 := by
  have hlines : (lines t cols base rows).length ≤ rows.length :=
    length_linesFrom_le rows base base []
  have hsum : ((countsOf pattern (lines t cols base rows)).map Prod.snd).sum ≤ 2 ^ 32 * u32Max :=
    (sum_countsOf_le _).trans (Nat.mul_le_mul_right _ (hlines.trans h))
  have hbound : 2 ^ 32 * u32Max < 2 ^ 64 := by decide
  omega

/-- What a needle's hits are after its scan of some rows. -/
structure Hits.Has (t : Tables) (cols first start : Nat) (h : Hits) (done : List Row) : Prop where
  scanned : h.scanned = first + done.length
  scannedAt : h.scannedAt = start + (lined '\n' (done.map Prod.fst)).length
  ends : EndsLine done
  counted : ∃ pattern, Pattern.new t h.needle h.regex = .ok pattern ∧
    h.rows = countsOf pattern (lines t cols first done) ∧
    h.total = ((countsOf pattern (lines t cols first done)).map Prod.snd).sum ∧
    h.newest = (recent h.max (hitsOf pattern (lines t cols first done))).map (layOut t cols)

/-- The record has these rows, and the hits of the first of them. -/
structure History.Holds (t : Tables) (h : History) (rows : List Row) : Prop where
  endAt : h.endAt = h.first + rows.length
  start : h.start ≤ h.text.length
  text : h.text.drop h.start = lined '\n' (rows.map Prod.fst)
  wraps : h.wraps = rows.map Prod.snd
  plain : ∀ r ∈ rows, '\n' ∉ r.1
  hits : ∀ hits, h.hits = some hits →
    ∃ done todo, rows = done ++ todo ∧ hits.Has t h.cols h.first h.start done

theorem plain_map {rows : List Row} (h : ∀ r ∈ rows, '\n' ∉ r.1) :
    ∀ line ∈ rows.map Prod.fst, '\n' ∉ line := by
  intro line hline
  obtain ⟨r, hr, rfl⟩ := List.mem_map.mp hline
  exact h r hr

theorem endsLine_nil : EndsLine [] := fun r hr => absurd hr (Option.some_ne_none r).symm

/-- The hits on lines of some rows are laid out on those rows. -/
theorem line_of_mem_hitsOf {rows : List Row} {base : Nat} {h : Logical × Nat × Nat}
    (hh : h ∈ hitsOf pattern (lines t cols base rows)) :
    base ≤ (layOut t cols h).line ∧ (layOut t cols h).line < base + rows.length := by
  obtain ⟨line, hline, hmem⟩ := List.mem_flatMap.mp hh
  obtain ⟨hit, -, rfl⟩ := List.mem_map.mp hmem
  obtain ⟨hge, hle, hstarts⟩ := linesFrom_within (fun hnil => absurd rfl hnil) line hline
  rw [List.isEmpty_nil, if_pos rfl] at hge
  obtain ⟨hfrom, hupTo⟩ := layOut_within t cols (line, hit) hstarts
  dsimp only at hfrom hupTo
  omega

theorem row_of_mem_countsOf {rows : List Row} {base : Nat} {r : Nat × Nat}
    (hr : r ∈ countsOf pattern (lines t cols base rows)) :
    base ≤ r.1 ∧ r.1 < base + rows.length := by
  obtain ⟨line, hline, rfl⟩ := List.mem_map.mp hr
  obtain ⟨hge, hle, hstarts⟩ :=
    linesFrom_within (fun hnil => absurd rfl hnil) line (List.mem_filter.mp hline).1
  rw [List.isEmpty_nil, if_pos rfl] at hge
  have hpos := List.length_pos_iff.mpr hstarts
  dsimp only
  omega

/-- Hits all of whose lines are evicted. -/
theorem Hits.Has.evict_all {h : Hits} {first start start' : Nat} {done rest : List Row}
    (hh : h.Has t cols first start done)
    (hstart : start' = start + (lined '\n' ((done ++ rest).map Prod.fst)).length) :
    (h.evict (first + (done ++ rest).length) start').Has t cols (first + (done ++ rest).length)
      start' [] := by
  obtain ⟨pattern, hpattern, hrows, htotal, hnewest⟩ := hh.counted
  have hgone : ∀ r ∈ h.rows, decide (r.1 < first + (done ++ rest).length) = true := by
    intro r hr
    have hlt := (row_of_mem_countsOf (hrows ▸ hr)).2
    rw [List.length_append]
    exact decide_eq_true (by omega)
  have hnone : ∀ m ∈ h.newest, decide (m.line < first + (done ++ rest).length) = true := by
    intro m hm
    rw [hnewest] at hm
    obtain ⟨hit, hhit, rfl⟩ := List.mem_map.mp hm
    have hlt := (line_of_mem_hitsOf (List.mem_of_mem_drop hhit)).2
    rw [List.length_append]
    exact decide_eq_true (by omega)
  have hscanned := hh.scanned
  refine ⟨?_, ?_, endsLine_nil, pattern, hpattern, ?_, ?_, ?_⟩
  · rw [Hits.evict, hscanned, List.length_append, List.length_nil]
    dsimp only
    split <;> omega
  · rw [Hits.evict, hscanned, hh.scannedAt, hstart, List.length_append, List.map_append,
      lined_append, List.length_append, List.map_nil, lined_nil, List.length_nil]
    dsimp only
    split
    · rfl
    · have hrest : rest = [] := List.length_eq_zero_iff.mp (by omega)
      rw [hrest]
      rfl
  · exact List.dropWhile_eq_nil_iff.mpr hgone
  · rw [Hits.evict]
    dsimp only
    rw [List.takeWhile_eq_self_iff.mpr hgone, foldl_sub, htotal, hrows, Nat.sub_self]
    rfl
  · show h.newest.dropWhile _ = (List.drop _ []).map _
    rw [List.dropWhile_eq_nil_iff.mpr hnone, List.drop_nil, List.map_nil]

/-- Hits of which some lines are evicted, up to the end of one. -/
theorem Hits.Has.evict_some {h : Hits} {first start start' : Nat} {gone rest : List Row}
    (hh : h.Has t cols first start (gone ++ rest)) (hends : EndsLine gone) (hrest : rest ≠ [])
    (hstart : start' = start + (lined '\n' (gone.map Prod.fst)).length) :
    (h.evict (first + gone.length) start').Has t cols (first + gone.length) start' rest := by
  obtain ⟨pattern, hpattern, hrows, htotal, hnewest⟩ := hh.counted
  have hscanned := hh.scanned
  have hpos := List.length_pos_iff.mpr hrest
  rw [List.length_append] at hscanned
  have hstays : ¬h.scanned < first + gone.length := by omega
  rw [lines_append hends, countsOf_append] at hrows htotal
  rw [lines_append hends, hitsOf_append] at hnewest
  have hgone : ∀ r ∈ countsOf pattern (lines t cols first gone),
      decide (r.1 < first + gone.length) = true := fun r hr =>
    decide_eq_true (row_of_mem_countsOf hr).2
  have hkeep : ∀ r ∈ countsOf pattern (lines t cols (first + gone.length) rest),
      ¬decide (r.1 < first + gone.length) = true := fun r hr =>
    by simpa using (row_of_mem_countsOf hr).1
  refine ⟨?_, ?_, ?_, pattern, hpattern, ?_, ?_, ?_⟩
  · rw [Hits.evict]
    dsimp only
    rw [if_neg hstays]
    omega
  · rw [Hits.evict]
    dsimp only
    rw [if_neg hstays, hh.scannedAt, List.map_append, lined_append, List.length_append, hstart,
      Nat.add_assoc]
  · intro r hr
    refine hh.ends r ?_
    rw [List.getLast?_append, hr]
    rfl
  · show h.rows.dropWhile _ = _
    rw [hrows, List.dropWhile_append_of_pos hgone]
    exact List.dropWhile_eq_self_iff.mpr fun hl => hkeep _ (List.getElem_mem hl)
  · rw [Hits.evict]
    dsimp only
    rw [foldl_sub, htotal, hrows, List.takeWhile_append_of_pos hgone]
    have hnone : (countsOf pattern (lines t cols (first + gone.length) rest)).takeWhile
        (fun r => decide (r.1 < first + gone.length)) = [] :=
      List.takeWhile_eq_nil_iff.mpr fun hl => hkeep _ (List.getElem_mem hl)
    rw [hnone, List.append_nil, List.map_append, List.sum_append, Nat.add_sub_cancel_left]
  · show h.newest.dropWhile _ = _
    rw [hnewest, ← recent_map, ← recent_map, List.map_append]
    apply dropWhile_recent_append
    · intro m hm
      obtain ⟨hit, hhit, rfl⟩ := List.mem_map.mp hm
      exact decide_eq_true (line_of_mem_hitsOf hhit).2
    · intro m hm
      obtain ⟨hit, hhit, rfl⟩ := List.mem_map.mp hm
      exact decide_eq_false (not_lt.mpr (line_of_mem_hitsOf hhit).1)

theorem Hits.Has.moved {h : Hits} {first start : Nat} {done : List Row}
    (hh : h.Has t cols first start done) :
    Hits.Has t cols first 0 { h with scannedAt := h.scannedAt - start } done := by
  refine ⟨hh.scanned, ?_, hh.ends, hh.counted⟩
  dsimp only
  rw [hh.scannedAt, Nat.add_sub_cancel_left, Nat.zero_add]

namespace History.Holds

variable {h : History}

/-- Evicting rows leaves the others, when it does not cut a line that was scanned. -/
theorem evict {gone rest : List Row} (hh : h.Holds t (gone ++ rest)) (hrest : rest ≠ [])
    (hcut : ∀ hits, h.hits = some hits → h.first + gone.length < hits.scanned → EndsLine gone) :
    (h.evict (h.first + gone.length)).Holds t rest := by
  have hend := hh.endAt
  have hlen := List.length_pos_iff.mpr hrest
  rw [List.length_append] at hend
  have hends : h.endAt = h.first + gone.length + rest.length := by omega
  have hgone : min (h.first + gone.length) h.endAt - h.first = gone.length := by omega
  have hplain := plain_map hh.plain
  have htext := hh.text
  rw [List.map_append] at htext hplain
  let at' := h.start + (lined '\n' (gone.map Prod.fst)).length
  have hskip : skipLines '\n' h.text gone.length h.start = at' := by
    have hskip := skipLines_lined (fun l hl => hplain l (List.mem_append_left _ hl)) htext
    rwa [List.length_map] at hskip
  have hdrop : h.text.drop at' = lined '\n' (rest.map Prod.fst) := by
    rw [← List.drop_drop, htext, drop_lined]
  have hle : at' ≤ h.text.length := by
    have hlength := congrArg List.length htext
    rw [List.length_drop, lined_append, List.length_append] at hlength
    have hstart := hh.start
    show h.start + _ ≤ _
    omega
  have hwraps : h.wraps.drop (min gone.length h.wraps.length) = rest.map Prod.snd := by
    rw [hh.wraps, List.length_map, List.length_append, List.map_append,
      min_eq_left (Nat.le_add_right _ _)]
    exact List.drop_left' (List.length_map _)
  have hhas : ∀ hits, h.hits = some hits → ∃ done todo, rest = done ++ todo ∧
      (hits.evict (h.first + gone.length) at').Has t h.cols (h.first + gone.length) at' done := by
    intro hits hhits
    obtain ⟨done, todo, hsplit, hdone⟩ := hh.hits hits hhits
    rcases List.append_eq_append_iff.mp hsplit with ⟨more, rfl, rfl⟩ | ⟨more, rfl, rfl⟩
    · by_cases hmore : more = []
      · subst hmore
        refine ⟨[], todo, rfl, ?_⟩
        rw [List.append_nil] at hdone
        have hall := hdone.evict_all (by rw [List.append_nil _])
        rwa [List.append_nil] at hall
      · have hscanned := hdone.scanned
        have hpos := List.length_pos_iff.mpr hmore
        rw [List.length_append] at hscanned
        exact ⟨more, todo, rfl, hdone.evict_some (hcut hits hhits (by omega)) hmore rfl⟩
    · exact ⟨[], rest, rfl, hdone.evict_all rfl⟩
  rw [History.evict, hgone, hskip]
  dsimp only
  split
  · refine ⟨hends, Nat.zero_le _, hdrop, hwraps, fun r hr =>
      hh.plain r (List.mem_append_right _ hr), fun hits hhits => ?_⟩
    obtain ⟨was, hwas, rfl⟩ := Option.map_eq_some_iff.mp hhits
    obtain ⟨held, hheld, rfl⟩ := Option.map_eq_some_iff.mp hwas
    obtain ⟨done, todo, hsplit, hdone⟩ := hhas held hheld
    exact ⟨done, todo, hsplit, hdone.moved⟩
  · refine ⟨hends, hle, hdrop, hwraps, fun r hr =>
      hh.plain r (List.mem_append_right _ hr), fun hits hhits => ?_⟩
    obtain ⟨held, hheld, rfl⟩ := Option.map_eq_some_iff.mp hhits
    exact hhas held hheld

theorem reset (epoch cols at' : Nat) : (History.reset epoch cols at').Holds t [] :=
  ⟨rfl, le_rfl, rfl, rfl, fun _ hr => absurd hr List.not_mem_nil,
    fun hits hhits => absurd hhits (Option.some_ne_none hits).symm⟩

/-- Rows appended are held behind the others. -/
theorem append {rows more : List Row} (hh : h.Holds t rows) (hplain : ∀ r ∈ more, '\n' ∉ r.1)
    {formatted : Text} {blank : Nat}
    (hformatted : formatted.splitOn '\n' ++ List.replicate blank [] = more.map Prod.fst) :
    (h.append formatted more.length (more.map Prod.snd)).Holds t (rows ++ more) := by
  have hlength := congrArg List.length hformatted
  rw [List.length_append, List.length_replicate, List.length_map] at hlength
  have htake : (formatted.splitOn '\n').take more.length = formatted.splitOn '\n' :=
    List.take_of_length_le (by omega)
  have hblank : more.length - (formatted.splitOn '\n').length = blank := by omega
  have hlined : ∀ n, lined '\n' (List.replicate n []) = List.replicate n '\n' := by
    intro n
    induction n with
    | zero => rfl
    | succ n ih =>
      rw [List.replicate_succ, lined_cons, ih]
      rfl
  have htext : lined '\n' (formatted.splitOn '\n') ++ List.replicate blank '\n' =
      lined '\n' (more.map Prod.fst) := by
    rw [← hformatted, lined_append, hlined]
  have hwraps : (List.range more.length).map (fun i => ((more.map Prod.snd)[i]?).getD false) =
      more.map Prod.snd := by
    apply List.ext_getElem
    · rw [List.length_map, List.length_range, List.length_map]
    · intro i hi hi'
      rw [List.getElem_map, List.getElem_range, List.getElem?_eq_getElem hi', Option.getD_some]
  rw [History.append, htake, hblank, hwraps, List.append_assoc, htext]
  refine ⟨?_, ?_, ?_, ?_, ?_, ?_⟩
  · dsimp only
    rw [hh.endAt, List.length_append, Nat.add_assoc]
  · dsimp only
    rw [List.length_append]
    exact hh.start.trans (Nat.le_add_right _ _)
  · dsimp only
    rw [List.drop_append_of_le_length hh.start, hh.text, List.map_append, lined_append]
  · dsimp only
    rw [hh.wraps, List.map_append]
  · intro r hr
    rcases List.mem_append.mp hr with hmem | hmem
    · exact hh.plain r hmem
    · exact hplain r hmem
  · intro hits hhits
    obtain ⟨done, todo, rfl, hdone⟩ := hh.hits hits hhits
    exact ⟨done, todo ++ more, List.append_assoc _ _ _, hdone⟩

/-- The rows cut from the record are the rows held. -/
theorem rows {rows : List Row} (hh : h.Holds t rows) {epoch first endAt : Nat}
    {texts : List Text} (htexts : h.rows epoch first endAt = some texts) :
    h.epoch = some epoch ∧ h.first ≤ first ∧ endAt ≤ h.endAt ∧
      texts = ((rows.map Prod.fst).drop (first - h.first)).take (endAt - first) := by
  rw [History.rows] at htexts
  split at htexts
  · cases htexts
  · rename_i hheld
    obtain ⟨hepoch, hfrom, hto⟩ := not_or.mp hheld |>.imp_right not_or.mp
    rw [hh.text, splitTerminator_lined (plain_map hh.plain)] at htexts
    exact ⟨not_not.mp hepoch, not_lt.mp hfrom, not_lt.mp hto, (Option.some.inj htexts).symm⟩

end History.Holds

theorem le_completeOf {scanned : Nat} (wrapOf : Nat → Bool) {endAt : Nat} (h : scanned ≤ endAt) :
    scanned ≤ History.completeOf scanned wrapOf endAt ∧
      History.completeOf scanned wrapOf endAt ≤ endAt ∧
      (scanned < History.completeOf scanned wrapOf endAt →
        wrapOf (History.completeOf scanned wrapOf endAt - 1) = false) := by
  induction endAt with
  | zero =>
    rw [Nat.le_zero.mp h]
    exact ⟨le_rfl, le_rfl, fun hlt => absurd hlt (lt_irrefl _)⟩
  | succ n ih =>
    rw [History.completeOf]
    split
    · rename_i hwraps
      obtain ⟨hge, hle, hends⟩ := ih (Nat.lt_succ_iff.mp hwraps.1)
      exact ⟨hge, hle.trans (Nat.le_succ n), hends⟩
    · rename_i hends
      refine ⟨h, le_rfl, fun hlt => ?_⟩
      rw [not_and] at hends
      exact eq_false_of_ne_true (hends hlt)

theorem zip_map_fst_snd (rows : List Row) : (rows.map Prod.fst).zip (rows.map Prod.snd) = rows := by
  rw [List.zip_map']
  exact List.map_id rows

section Find

variable {h : History} {rows done todo : List Row} {needle : Text} {regex : Bool} {max : Nat}

theorem History.Holds.hitsFor (hh : h.Holds t rows)
    (hpattern : Pattern.new t needle regex = .ok pattern) (max : Nat) :
    ∃ done todo, rows = done ++ todo ∧
      (h.hitsFor needle regex max).Has t h.cols h.first h.start done ∧
      (h.hitsFor needle regex max).needle = needle ∧ (h.hitsFor needle regex max).regex = regex ∧
      (h.hitsFor needle regex max).max = max := by
  have hfresh : Hits.Has t h.cols h.first h.start
      { needle := needle, regex := regex, max := max, scanned := h.first, scannedAt := h.start }
      [] := by
    refine ⟨rfl, rfl, endsLine_nil, pattern, hpattern, rfl, rfl, ?_⟩
    show [] = (List.drop _ []).map _
    rw [List.drop_nil, List.map_nil]
  rw [History.hitsFor]
  cases hhits : h.hits with
  | none => exact ⟨[], rows, rfl, hfresh, rfl, rfl, rfl⟩
  | some held =>
    dsimp only
    split
    · rename_i hsame
      obtain ⟨done, todo, hsplit, hdone⟩ := hh.hits held hhits
      exact ⟨done, todo, hsplit, hdone, hsame⟩
    · exact ⟨[], rows, rfl, hfresh, rfl, rfl, rfl⟩

/-- What a needle's hits are after it scanned more rows, up to the end of a line. -/
theorem Hits.Has.scan {hits : Hits} {first start at' : Nat} {more : List Row}
    (hh : hits.Has t cols first start done) (hpattern : Pattern.new t hits.needle hits.regex = .ok pattern)
    (hends : EndsLine (done ++ more)) (hfew : (done ++ more).length ≤ 2 ^ 32)
    (hat : at' = start + (lined '\n' ((done ++ more).map Prod.fst)).length) :
    Hits.Has t cols first start
      { hits with
        total := satAdd 64 hits.total
          ((Search.scan t pattern hits.max cols more hits.scanned).rows.map Prod.snd).sum
        rows := hits.rows ++ (Search.scan t pattern hits.max cols more hits.scanned).rows
        newest := recent hits.max
          (hits.newest ++ (Search.scan t pattern hits.max cols more hits.scanned).found)
        scanned := first + (done ++ more).length
        scannedAt := at' } (done ++ more) := by
  obtain ⟨pattern', hpattern', hrows, htotal, hnewest⟩ := hh.counted
  obtain rfl : pattern = pattern' := Except.ok.inj (hpattern.symm.trans hpattern')
  have hlt := sum_countsOf_lt t pattern cols hfew first
  rw [lines_append hh.ends, countsOf_append, List.map_append, List.sum_append] at hlt
  refine ⟨rfl, hat, hends, pattern, hpattern, ?_, ?_, ?_⟩
  · dsimp only
    rw [hrows, scan_eq, lines_append hh.ends, countsOf_append, hh.scanned]
  · dsimp only
    rw [htotal, scan_eq, lines_append hh.ends, countsOf_append, hh.scanned, List.map_append,
      List.sum_append]
    exact satAdd_of_lt hlt
  · dsimp only
    rw [hnewest, scan_eq, lines_append hh.ends, hitsOf_append, hh.scanned, ← recent_map,
      ← recent_map, recent_recent_append_recent, ← List.map_append, recent_map]

/-- What is found in the rows scanned before and in those below is what is found in all of them. -/
theorem Hits.Has.found {hits : Hits} {first start : Nat} {below : List Row}
    (hh : hits.Has t cols first start done)
    (hpattern : Pattern.new t hits.needle hits.regex = .ok pattern)
    (hfew : (done ++ below).length ≤ 2 ^ 32) :
    let found := Search.scan t pattern hits.max cols below hits.scanned
    ({ total := min (satAdd 64 hits.total (found.rows.map Prod.snd).sum) u32Max
       found := hits.newest.drop (hits.newest.length - (hits.max - found.found.length)) ++
         found.found } : Found) =
      let all := Search.scan t pattern hits.max cols (done ++ below) first
      { total := all.rows.foldl (fun sum r => satAdd 32 sum r.2) 0, found := all.found } := by
  obtain ⟨pattern', hpattern', -, htotal, hnewest⟩ := hh.counted
  obtain rfl : pattern = pattern' := Except.ok.inj (hpattern.symm.trans hpattern')
  have hlt := sum_countsOf_lt t pattern cols hfew first
  rw [lines_append hh.ends, countsOf_append, List.map_append, List.sum_append] at hlt
  dsimp only
  rw [foldl_satAdd, scan_eq, scan_eq, hh.scanned, lines_append hh.ends, hitsOf_append,
    countsOf_append, htotal, hnewest]
  dsimp only
  rw [satAdd_of_lt hlt, List.map_append, List.sum_append, ← recent_map, ← recent_map,
    ← recent_map, List.map_append, ← recent_append_recent]
  rfl

/-- The rows that were not scanned, as the search cuts them from the text. -/
theorem History.Holds.unscanned {hits : Hits} (hh : h.Holds t (done ++ todo))
    (hdone : hits.Has t h.cols h.first h.start done) :
    (splitTerminator '\n' (h.text.drop hits.scannedAt)).zip
      (h.wraps.drop (hits.scanned - h.first)) = todo := by
  have htext : h.text.drop hits.scannedAt = lined '\n' (todo.map Prod.fst) := by
    rw [hdone.scannedAt, ← List.drop_drop, hh.text, List.map_append, drop_lined]
  have hwraps : h.wraps.drop (hits.scanned - h.first) = todo.map Prod.snd := by
    rw [hdone.scanned, Nat.add_sub_cancel_left, hh.wraps, List.map_append]
    exact List.drop_left' (List.length_map _)
  rw [htext, hwraps, splitTerminator_lined (plain_map fun r hr =>
    hh.plain r (List.mem_append_right _ hr)), zip_map_fst_snd]

/-- Where the rows below a scanned line start in the text, found from its end. -/
theorem History.Holds.tailStart {floor : Nat} (hh : h.Holds t (done ++ todo)) (hdone : done ≠ [])
    (hfloor : floor ≤ h.start + (lined '\n' (done.map Prod.fst)).length) :
    tailStart '\n' h.text todo.length floor =
      h.start + (lined '\n' (done.map Prod.fst)).length := by
  have hplain := plain_map hh.plain
  rw [List.map_append] at hplain
  obtain ⟨before, last, rfl⟩ : ∃ before last, done = before ++ [last] :=
    ⟨done.dropLast, done.getLast hdone, (List.dropLast_append_getLast hdone).symm⟩
  have hlength : h.start + (lined '\n' ((before ++ [last]).map Prod.fst)).length =
      (h.text.take h.start ++ lined '\n' (before.map Prod.fst) ++ last.1).length + 1 := by
    rw [List.length_append, List.length_append, List.length_take_of_le hh.start, List.map_append,
      lined_append, List.length_append, List.map_singleton, lined_cons, lined_nil,
      List.length_append, List.length_singleton]
    omega
  have htext : h.text = h.text.take h.start ++ lined '\n' (before.map Prod.fst) ++ last.1 ++
      '\n' :: lined '\n' (todo.map Prod.fst) := by
    conv_lhs => rw [← List.take_append_drop h.start h.text, hh.text]
    rw [List.map_append, List.map_append, lined_append, lined_append, List.map_singleton,
      lined_cons, lined_nil]
    simp only [List.append_assoc, List.cons_append, List.nil_append]
  rw [hlength] at hfloor ⊢
  have htail := tailStart_lined (fun l hl => hplain l (List.mem_append_right _ hl)) hfloor
  rw [← htext, List.length_map] at htail
  exact htail

/-- A search finds in the rows held and the screen what a scan of all of them finds. -/
theorem History.Holds.find {screen : List Row} (hh : h.Holds t rows)
    (hpattern : Pattern.new t needle regex = .ok pattern) (max : Nat)
    (hfew : (rows ++ screen).length ≤ 2 ^ 32) :
    (h.find t pattern needle regex max screen).1.Holds t rows ∧
      (h.find t pattern needle regex max screen).1.epoch = h.epoch ∧
      (h.find t pattern needle regex max screen).1.cols = h.cols ∧
      (h.find t pattern needle regex max screen).1.first = h.first ∧
      (h.find t pattern needle regex max screen).2 =
        if pattern.isEmpty then {}
        else
          let found := Search.scan t pattern max h.cols (rows ++ screen) h.first
          { total := found.rows.foldl (fun sum r => satAdd 32 sum r.2) 0, found := found.found } := by
  rw [History.find]
  by_cases hempty : pattern.isEmpty = true
  · rw [if_pos hempty, if_pos hempty]
    exact ⟨hh, rfl, rfl, rfl, rfl⟩
  rw [if_neg hempty, if_neg hempty]
  obtain ⟨done, todo, rfl, hdone, hneedle, hregex, hmax⟩ :=
    hh.hitsFor hpattern max
  generalize h.hitsFor needle regex max = hits at hdone hneedle hregex hmax
  subst hneedle hregex hmax
  have hend := hh.endAt
  rw [List.length_append] at hend
  have hscanned := hdone.scanned
  have hle : hits.scanned ≤ h.endAt := by omega
  obtain ⟨hge, hto, hends⟩ :=
    le_completeOf (fun row => (h.wraps[row - h.first]?).getD false) hle
  generalize hcomplete : History.completeOf hits.scanned
    (fun row => (h.wraps[row - h.first]?).getD false) h.endAt = complete at hge hto hends
  dsimp only
  rw [hcomplete, hh.unscanned hdone]
  generalize hk : complete - hits.scanned = k
  have hktodo : k ≤ todo.length := by omega
  have hsplit : done ++ todo = (done ++ todo.take k) ++ todo.drop k := by
    rw [List.append_assoc, List.take_append_drop]
  have hlength : (done ++ todo.take k).length = done.length + k := by
    rw [List.length_append, List.length_take_of_le hktodo]
  have hcut : EndsLine (done ++ todo.take k) := by
    intro r hr
    by_cases hzero : k = 0
    · rw [hzero, List.take_zero, List.append_nil] at hr
      exact hdone.ends r hr
    · have hwrap := hends (by omega)
      have hat : complete - 1 - h.first = done.length + k - 1 := by omega
      have hlast : (done ++ todo)[done.length + k - 1]? = some r := by
        rw [List.getLast?_eq_getElem?, hlength] at hr
        rw [hsplit, List.getElem?_append_left (by omega)]
        exact hr
      rw [hat, hh.wraps, List.getElem?_map, hlast] at hwrap
      exact hwrap
  have hbefore : (done ++ todo.take k).length ≤ 2 ^ 32 := by
    rw [List.length_append, List.length_append] at hfew
    omega
  have hat : 0 < k → Slopty.Lib.tailStart '\n' h.text (h.endAt - complete) hits.scannedAt =
      h.start + (lined '\n' ((done ++ todo.take k).map Prod.fst)).length := by
    intro hpos
    have hrest : h.endAt - complete = (todo.drop k).length := by
      rw [List.length_drop]
      omega
    have hne : done ++ todo.take k ≠ [] := fun hnil => by
      rw [hnil, List.length_nil] at hlength
      omega
    rw [hrest]
    refine History.Holds.tailStart (hsplit ▸ hh) hne ?_
    rw [hdone.scannedAt, List.map_append, lined_append, List.length_append]
    omega
  obtain ⟨now, hnow, hhas, hsame, hsame', hsame''⟩ : ∃ now : Hits,
      now = (if 0 < k then
        { hits with
          total := satAdd 64 hits.total
            ((Search.scan t pattern hits.max h.cols (todo.take k) hits.scanned).rows.map
              Prod.snd).sum
          rows := hits.rows ++
            (Search.scan t pattern hits.max h.cols (todo.take k) hits.scanned).rows
          newest := recent hits.max (hits.newest ++
            (Search.scan t pattern hits.max h.cols (todo.take k) hits.scanned).found)
          scanned := complete
          scannedAt := Slopty.Lib.tailStart '\n' h.text (h.endAt - complete) hits.scannedAt }
        else hits) ∧
      now.Has t h.cols h.first h.start (done ++ todo.take k) ∧ now.needle = hits.needle ∧
        now.regex = hits.regex ∧ now.max = hits.max := by
    refine ⟨_, rfl, ?_⟩
    split
    · rename_i hpos
      have hcompletes : complete = h.first + (done ++ todo.take k).length := by omega
      have hscan := hdone.scan hpattern hcut hbefore (hat hpos)
      rw [hcompletes] at hscan ⊢
      exact ⟨hscan, rfl, rfl, rfl⟩
    · rename_i hzero
      have hk0 : k = 0 := by omega
      rw [hk0, List.take_zero, List.append_nil]
      exact ⟨hdone, rfl, rfl, rfl⟩
  rw [← hnow]
  have hbelow : complete = now.scanned := by
    rw [hhas.scanned, hlength]
    omega
  refine ⟨⟨hh.endAt, hh.start, hh.text, hh.wraps, hh.plain, fun got hgot => ?_⟩, rfl, rfl, rfl, ?_⟩
  · rw [← Option.some.inj hgot]
    exact ⟨done ++ todo.take k, todo.drop k, hsplit, hhas⟩
  · have hall : done ++ todo ++ screen = (done ++ todo.take k) ++ (todo.drop k ++ screen) := by
      rw [hsplit, List.append_assoc]
    rw [hall] at hfew
    have hfound := hhas.found (hsame ▸ hsame' ▸ hpattern) hfew
    dsimp only at hfound
    rw [hsame''] at hfound
    rw [hall, hbelow]
    exact hfound

end Find

section Run

variable {plainRows : List Text → Text} {world : Nat → Nat → Row} {h : History} {s : Shown}

/-- Rows formatted are their text line by line, without the blank ones at the end. -/
def Formats (plainRows : List Text → Text) : Prop :=
  ∀ rows : List Text, rows ≠ [] → (∀ line ∈ rows, '\n' ∉ line) →
    ∃ blank, (plainRows rows).splitOn '\n' ++ List.replicate blank [] = rows

/-- What a terminal shows: `world` has each numbering's rows, which stay as they are once scrolled
up. Those kept are the newest; within a numbering they are only evicted from the top and added to
below, and what was scanned of a line is not cut off from the rest of it. -/
structure Shown.Of (world : Nat → Nat → Row) (h : History) (s : Shown) : Prop where
  history : s.history = (List.range' s.base s.history.length).map (world s.epoch)
  plain : ∀ r ∈ s.history ++ s.screen, '\n' ∉ r.1
  few : s.history.length + s.screen.length < 2 ^ 32
  above : h.epoch = some s.epoch → h.first ≤ s.base
  below : h.epoch = some s.epoch → h.endAt ≤ s.base + s.history.length
  cut : h.epoch = some s.epoch → ∀ hits, h.hits = some hits → h.first < s.base →
    s.base < hits.scanned → (world s.epoch (s.base - 1)).2 = false

/-- The record has rows of the world. -/
def History.Records (t : Tables) (world : Nat → Nat → Row) (h : History) : Prop :=
  ∃ rows, h.Holds t rows ∧
    ∀ epoch, h.epoch = some epoch → rows = (List.range' h.first rows.length).map (world epoch)

theorem take_history (hs : s.Of world h) (n : Nat) (hn : n ≤ s.history.length) :
    s.history.take n = (List.range' s.base n).map (world s.epoch) := by
  rw [hs.history, ← List.map_take, List.take_range'_of_length_ge hn]

theorem History.evict_fields (h : History) (base : Nat) :
    (h.evict base).epoch = h.epoch ∧ (h.evict base).cols = h.cols ∧
      (h.evict base).first = h.first + (min base h.endAt - h.first) ∧
        (h.evict base).endAt = h.endAt := by
  rw [History.evict]
  dsimp only
  split <;> exact ⟨rfl, rfl, rfl, rfl⟩

/-- Brought to what is shown, the record has the first of its history rows. -/
theorem History.Records.missing (hh : h.Records t world) (hs : s.Of world h) :
    ∃ n ≤ s.history.length,
      (h.missing s.epoch s.cols s.base (s.base + s.history.length)).1.Holds t (s.history.take n) ∧
      (h.missing s.epoch s.cols s.base (s.base + s.history.length)).1.epoch = some s.epoch ∧
      (h.missing s.epoch s.cols s.base (s.base + s.history.length)).1.cols = s.cols ∧
      (h.missing s.epoch s.cols s.base (s.base + s.history.length)).1.first = s.base ∧
      (h.missing s.epoch s.cols s.base (s.base + s.history.length)).2 =
        if n < s.history.length then some (s.base + n, s.base + s.history.length) else none := by
  obtain ⟨rows, hrows, hworld⟩ := hh
  have hend := hrows.endAt
  rw [History.missing]
  dsimp only
  split
  · have hmin : min s.base (s.base + s.history.length) = s.base := by omega
    rw [hmin]
    refine ⟨0, Nat.zero_le _, History.Holds.reset _ _ _, rfl, rfl, rfl, ?_⟩
    rw [History.reset]
    dsimp only
    simp only [Nat.lt_add_right_iff_pos, Nat.add_zero]
  · rename_i hsame
    simp only [not_or, not_not, not_lt, not_le] at hsame
    obtain ⟨hepoch, hcols, hto, hlt⟩ := hsame
    have hrows' := hworld s.epoch hepoch
    have habove := hs.above hepoch
    split
    · rename_i hfirst
      obtain ⟨hepoch', hcols', hfirst', hend'⟩ := h.evict_fields s.base
      have hmin : h.first + (min s.base h.endAt - h.first) = s.base := by omega
      have hsplit : rows = rows.take (s.base - h.first) ++ rows.drop (s.base - h.first) :=
        (List.take_append_drop _ _).symm
      have hgone : (rows.take (s.base - h.first)).length = s.base - h.first :=
        List.length_take_of_le (by omega)
      have hrest : rows.drop (s.base - h.first) =
          (List.range' s.base (rows.length - (s.base - h.first))).map (world s.epoch) := by
        rw [hrows', ← List.map_drop, List.drop_range', List.length_map, List.length_range',
          Nat.mul_one, Nat.add_sub_of_le habove]
      have hne : rows.drop (s.base - h.first) ≠ [] := fun hnil => by
        have hlength := congrArg List.length hnil
        rw [List.length_drop, List.length_nil] at hlength
        omega
      have hcut : ∀ hits, h.hits = some hits →
          h.first + (rows.take (s.base - h.first)).length < hits.scanned →
            EndsLine (rows.take (s.base - h.first)) := by
        intro hits hhits hscanned r hr
        have hat : h.first + (s.base - h.first - 1) = s.base - 1 := by omega
        have hlast : rows[s.base - h.first - 1]? = some (world s.epoch (s.base - 1)) := by
          rw [hrows', List.getElem?_map, List.getElem?_range' (by omega), Nat.one_mul, hat]
          rfl
        rw [List.getLast?_eq_getElem?, hgone, List.getElem?_take_of_lt (by omega), hlast] at hr
        rw [← Option.some.inj hr]
        exact hs.cut hepoch hits hhits hfirst (by omega)
      have hevict := (hsplit ▸ hrows : h.Holds t _).evict hne hcut
      rw [hgone, Nat.add_sub_of_le habove] at hevict
      refine ⟨rows.length - (s.base - h.first), by omega, ?_, hepoch'.trans hepoch,
        hcols'.trans hcols, hfirst'.trans hmin, ?_⟩
      · rw [take_history hs _ (by omega), ← hrest]
        exact hevict
      · rw [hend', hend, show h.first + rows.length = s.base + (rows.length - (s.base - h.first)) by
          omega]
        simp only [Nat.add_lt_add_iff_left]
    · rename_i hfirst
      have hbase : h.first = s.base := by omega
      refine ⟨rows.length, by omega, ?_, hepoch, hcols, hbase, ?_⟩
      · rw [take_history hs _ (by omega), ← hbase, ← hrows']
        exact hrows
      · rw [hend, hbase]
        simp only [Nat.add_lt_add_iff_left]

/-- It has every history row that is kept. -/
theorem History.Records.brought (hformats : Formats plainRows) (hh : h.Records t world)
    (hs : s.Of world h) :
    (h.brought plainRows s).Holds t s.history ∧ (h.brought plainRows s).epoch = some s.epoch ∧
      (h.brought plainRows s).cols = s.cols ∧ (h.brought plainRows s).first = s.base := by
  obtain ⟨n, hn, hheld, hepoch, hcols, hfirst, hlacks⟩ := hh.missing hs
  rw [History.brought, hlacks]
  by_cases hall : n < s.history.length
  · rw [if_pos hall]
    have hmore : (s.history.drop (s.base + n - s.base)).take
        (s.base + s.history.length - (s.base + n)) = s.history.drop n := by
      rw [Nat.add_sub_cancel_left, List.take_of_length_le]
      rw [List.length_drop]
      omega
    have hcount : s.base + s.history.length - (s.base + n) = (s.history.drop n).length := by
      rw [List.length_drop]
      omega
    have hplain : ∀ r ∈ s.history.drop n, '\n' ∉ r.1 := fun r hr =>
      hs.plain r (List.mem_append_left _ (List.mem_of_mem_drop hr))
    have hne : (s.history.drop n).map Prod.fst ≠ [] := fun hnil => by
      have hlength := congrArg List.length hnil
      rw [List.length_map, List.length_drop, List.length_nil] at hlength
      omega
    obtain ⟨blank, hblank⟩ := hformats _ hne (plain_map hplain)
    have happend := hheld.append hplain hblank
    rw [List.take_append_drop] at happend
    dsimp only
    rw [hmore, hcount]
    exact ⟨happend, hepoch, hcols, hfirst⟩
  · have hsame : n = s.history.length := by omega
    rw [if_neg hall]
    rw [hsame, List.take_length] at hheld
    exact ⟨hheld, hepoch, hcols, hfirst⟩

/-- The rows of the whole text are the history's and the screen's. -/
theorem rowsOf_lined {rows : List Row} (hplain : ∀ r ∈ rows, '\n' ∉ r.1) (text : Text)
    (wraps : List Bool) :
    rowsOf (lined '\n' (rows.map Prod.fst) ++ text) (rows.map Prod.snd ++ wraps) =
      rows ++ rowsOf text wraps := by
  rw [rowsOf, splitOn_lined (plain_map hplain), List.mapIdx_append, rowsOf]
  congr 1
  · apply List.ext_getElem
    · rw [List.length_mapIdx, List.length_map]
    · intro i hi hi'
      rw [List.getElem_mapIdx, List.getElem_map, List.getElem?_append_left (by
        rw [List.length_map]; exact hi'), List.getElem?_map, List.getElem?_eq_getElem hi']
      rfl
  · congr 1
    funext i line
    rw [List.length_map, List.getElem?_append_right (by rw [List.length_map]; omega),
      List.length_map, Nat.add_sub_cancel]

theorem length_rowsOf_screenText (hformats : Formats plainRows) (hs : s.Of world h)
    (wraps : List Bool) :
    (rowsOf (s.screenText plainRows) wraps).length ≤ s.screen.length + 1 := by
  rw [rowsOf, List.length_mapIdx, Shown.screenText]
  split
  · exact Nat.le_add_left _ _
  · rename_i hsome
    have hne : s.screen.map Prod.fst ≠ [] := fun hnil =>
      hsome (List.isEmpty_iff.mpr (List.map_eq_nil_iff.mp hnil))
    obtain ⟨blank, hblank⟩ := hformats _ hne
      (plain_map fun r hr => hs.plain r (List.mem_append_right _ hr))
    have hlength := congrArg List.length hblank
    rw [List.length_append, List.length_map] at hlength
    omega

/-- One search finds what a search of the whole text finds, and leaves a true record. -/
theorem search_step (hformats : Formats plainRows) (hh : h.Records t world) (hs : s.Of world h)
    (q : Query) :
    (search t plainRows h s q).1.Records t world ∧
      (search t plainRows h s q).2 = wholeSearch t plainRows s q := by
  rw [search, wholeSearch]
  by_cases hneedle : q.needle.isEmpty = true
  · rw [if_pos hneedle, if_pos hneedle]
    exact ⟨hh, rfl⟩
  rw [if_neg hneedle, if_neg hneedle]
  cases hpattern : Pattern.new t q.needle q.regex with
  | error e => exact ⟨hh, rfl⟩
  | ok pattern =>
    obtain ⟨hheld, hepoch, hcols, hfirst⟩ := hh.brought hformats hs
    have hlength := length_rowsOf_screenText hformats hs (s.screen.map Prod.snd)
    have hfew : (s.history ++ rowsOf (s.screenText plainRows) (s.screen.map Prod.snd)).length ≤
        2 ^ 32 := by
      have hrows := hs.few
      rw [List.length_append]
      omega
    obtain ⟨hfound, hepoch', hcols', hfirst', hanswer⟩ :=
      hheld.find hpattern q.max hfew
    have hplain : ∀ r ∈ s.history, '\n' ∉ r.1 := fun r hr =>
      hs.plain r (List.mem_append_left _ hr)
    refine ⟨⟨s.history, hfound, fun epoch hsame => ?_⟩, ?_⟩
    · have heq : epoch = s.epoch := by
        have hboth := (hepoch'.trans hepoch).symm.trans hsame
        exact (Option.some.inj hboth).symm
      rw [heq, hfirst', hfirst]
      exact hs.history
    · refine congrArg Except.ok (hanswer.trans ?_)
      rw [Search.find, rowsOf_lined hplain, hcols, hfirst]

/-- The text of rows is cut from a true record as it would be formatted. -/
theorem rowsText_eq (hformats : Formats plainRows) (hh : h.Records t world) (hs : s.Of world h)
    {first endAt : Nat} (hend : endAt ≤ s.base + (s.history ++ s.screen).length) :
    rowsText plainRows h s first endAt =
      (((s.history ++ s.screen).map Prod.fst).drop (max first s.base - s.base)).take
        (endAt - max first s.base) := by
  rw [rowsText]
  dsimp only
  have hbase : s.base ≤ max first s.base := le_max_right _ _
  generalize max first s.base = top at hbase
  split
  · rename_i hnone
    rw [Nat.sub_eq_zero_of_le hnone, List.take_zero]
  · rename_i hsome
    let shown := ((s.history ++ s.screen).drop (top - s.base)).take (endAt - top)
    have hshown : (((s.history ++ s.screen).map Prod.fst).drop (top - s.base)).take (endAt - top) =
        shown.map Prod.fst := by
      rw [List.map_take, List.map_drop]
    have hlength : shown.length = endAt - top := by
      rw [List.length_take_of_le]
      rw [List.length_drop]
      omega
    have hresize : ∀ (rows : List Text) (blank : Nat),
        rows ++ List.replicate blank [] = shown.map Prod.fst →
          rows.take (endAt - top) ++ List.replicate (endAt - top - rows.length) [] =
            shown.map Prod.fst := by
      intro rows blank hrows
      have hcount := congrArg List.length hrows
      rw [List.length_append, List.length_replicate, List.length_map, hlength] at hcount
      rw [List.take_of_length_le (by omega), ← hrows]
      congr 2
      omega
    rw [hshown]
    cases hgot : h.rows s.epoch top endAt with
    | some held =>
      obtain ⟨rows, hrows, hworld⟩ := hh
      obtain ⟨hepoch, hfirst, hto, rfl⟩ := hrows.rows hgot
      have hheld := hrows.endAt
      have hbelow := hs.below hepoch
      refine hresize _ 0 ?_
      rw [List.replicate_zero, List.append_nil, ← List.map_drop, ← List.map_take]
      have habove := hs.above hepoch
      have hslice : ∀ (base n : Nat), base ≤ top → endAt ≤ base + n →
          (((List.range' base n).map (world s.epoch)).drop (top - base)).take (endAt - top) =
            (List.range' top (endAt - top)).map (world s.epoch) := by
        intro base n hle hupTo
        rw [← List.map_drop, List.drop_range', Nat.mul_one, Nat.add_sub_of_le hle, ← List.map_take,
          List.take_range'_of_length_ge (by omega)]
      have hleft : (rows.drop (top - h.first)).take (endAt - top) =
          (List.range' top (endAt - top)).map (world s.epoch) := by
        rw [hworld s.epoch hepoch]
        exact hslice h.first rows.length hfirst (by omega)
      have hright : shown = (List.range' top (endAt - top)).map (world s.epoch) := by
        show ((s.history ++ s.screen).drop (top - s.base)).take (endAt - top) = _
        rw [List.drop_append_of_le_length (by omega), List.take_append_of_le_length (by
          rw [List.length_drop]; omega), hs.history]
        exact hslice s.base s.history.length hbase (by omega)
      rw [hleft, hright]
    | none =>
      have hne : shown.map Prod.fst ≠ [] := fun hnil => by
        have hcount := congrArg List.length hnil
        rw [List.length_map, hlength, List.length_nil] at hcount
        omega
      obtain ⟨blank, hblank⟩ := hformats _ hne (plain_map fun r hr =>
        hs.plain r (List.mem_of_mem_drop (List.mem_of_mem_take hr)))
      have hcount := congrArg List.length hblank
      rw [List.length_append, List.length_map, hlength] at hcount
      dsimp only
      rw [List.take_of_length_le (l := (plainRows (shown.map Prod.fst)).splitOn '\n') (by omega)]
      exact hresize _ blank hblank

/-- However the terminal writes, evicts and is numbered anew between searches, and whatever needles
are searched, each search finds what a search of the whole text finds, and the text of rows is
what they would be formatted as. -/
theorem search_finds_afresh (hformats : Formats plainRows) (steps : List (Shown × Query))
    (h : EachStep (fun h st => (search t plainRows h st.1 st.2).1) (fun h st => st.1.Of world h)
      ({} : History) steps) (s : Shown) (q : Query)
    (hs : s.Of world (steps.foldl (fun h st => (search t plainRows h st.1 st.2).1) {})) :
    (search t plainRows (steps.foldl (fun h st => (search t plainRows h st.1 st.2).1) {}) s q).2 =
        wholeSearch t plainRows s q ∧
      ∀ first endAt, endAt ≤ s.base + (s.history ++ s.screen).length →
        rowsText plainRows (steps.foldl (fun h st => (search t plainRows h st.1 st.2).1) {}) s first
            endAt =
          (((s.history ++ s.screen).map Prod.fst).drop (max first s.base - s.base)).take
            (endAt - max first s.base) := by
  have hstart : ({} : History).Records t world :=
    ⟨[], ⟨rfl, le_rfl, rfl, rfl, fun _ hr => absurd hr List.not_mem_nil,
      fun hits hhits => absurd hhits (Option.some_ne_none hits).symm⟩, fun _ _ => rfl⟩
  have hrecords := h.foldl (P := fun h => h.Records t world)
    (fun _ st hh hst => (search_step hformats hh hst st.2).1) hstart
  exact ⟨(search_step hformats hrecords hs q).2, fun first endAt hend =>
    rowsText_eq hformats hrecords hs hend⟩

end Run

/-- Tables by which an expression matches the lines that are it. -/
def wholeLines : Tables :=
  { isUppercase := fun _ => false
    escape := id
    build := fun source _ => .ok fun line => if line = source then [⟨0, line⟩] else []
    graphemeWidth := fun _ => (1, 1) }

/-- Between two searches a row is evicted and another scrolls up. -/
theorem search_finds_afresh_evicted :
    let row : Row := (['a'], false)
    let step := fun h (st : Shown × Query) =>
      (search wholeLines (['\n'].intercalate ·) h st.1 st.2).1
    let steps : List (Shown × Query) := [(⟨0, 5, 0, [row, row], [row]⟩, ⟨['a'], false, 1⟩)]
    let s : Shown := ⟨0, 5, 1, [row, row], [row]⟩
    (search wholeLines (['\n'].intercalate ·) (steps.foldl step {}) s ⟨['a'], false, 2⟩).2 =
        wholeSearch wholeLines (['\n'].intercalate ·) s ⟨['a'], false, 2⟩ ∧
      ∀ first endAt, endAt ≤ s.base + (s.history ++ s.screen).length →
        rowsText (['\n'].intercalate ·) (steps.foldl step {}) s first endAt =
          (((s.history ++ s.screen).map Prod.fst).drop (max first s.base - s.base)).take
            (endAt - max first s.base) := by
  have hformats : Formats (['\n'].intercalate ·) := fun rows hne hplain =>
    ⟨0, (List.append_nil _).trans (List.splitOn_intercalate '\n' hplain hne)⟩
  have hplain : ∀ r ∈ [((['a'], false) : Row), (['a'], false), (['a'], false)], '\n' ∉ r.1 := by
    simp
  have hfirst : Shown.Of (fun _ _ => (['a'], false)) ({} : History)
      ⟨0, 5, 0, [(['a'], false), (['a'], false)], [(['a'], false)]⟩ :=
    ⟨rfl, hplain, by decide, fun h => absurd h (by decide), fun h => absurd h (by decide),
      fun h => absurd h (by decide)⟩
  exact search_finds_afresh hformats [_] ⟨hfirst, trivial⟩ _ _
    ⟨rfl, hplain, by decide, fun _ => Nat.zero_le 1, fun _ => Nat.le_succ 2,
      fun _ _ _ _ _ => rfl⟩

end Slopty.Engine.Search
