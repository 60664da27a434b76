import Slopty.Session.Still

/-!
The driver's terminal. Along every run the seat's viewer has the terminal at its size, and no other
was last told that it drives; the colours come along wherever a seat a detach leaves passes to a
viewer whose colours the terminal has already.
-/

namespace Slopty.Session

open Slopty.Lib

namespace Seated

variable {E : Engine} {size : TermEvent → Nat}

/-- Serial, client and stated size of each viewer. -/
def views (s : Seated E) : List (Nat × ClientId × TermSize) := s.actor.viewers.map view

theorem mem_views {s : Seated E} {v : Viewer} (hv : v ∈ s.actor.viewers) : view v ∈ s.views :=
  List.mem_map_of_mem hv

/-- Each client has one viewer, and each viewer a serial of its own. -/
structure Placed (s : Seated E) : Prop where
  clients : (s.views.map fun u => u.2.1).Nodup
  serials : (s.views.map fun u => u.1).Nodup
  fresh : ∀ u ∈ s.views, u.1 < s.actor.nextSerial

/-- Nobody but `client` was last told that it drives. -/
def ToldOnly (s : Seated E) (client : ClientId) : Prop :=
  ∀ u ∈ s.views, s.told u.1 = some true → u.2.1 = client

structure Fits (s : Seated E) : Prop extends Placed s where
  told : ∀ u ∈ s.views, s.told u.1 = some true → s.actor.driver = some u.2.1
  size : ∀ u ∈ s.views, s.actor.driver = some u.2.1 → E.size s.actor.engine = u.2.2
  colors : ∀ u ∈ s.views, s.actor.driver = some u.2.1 →
    ∀ c, s.colors u.1 = some c → s.defaults = c

theorem nodup_subperm {α β : Type} {l l' : List α} {f : α → β} (h : l'.Subperm l)
    (hl : (l.map f).Nodup) : (l'.map f).Nodup := by
  obtain ⟨m, hperm, hsub⟩ := h
  exact (hperm.map f).nodup_iff.mp ((hsub.map f).nodup hl)

theorem Placed.still {s : Seated E} (hs : Placed s) {b : Actor E} (h : Actor.Still s.actor b) :
    Placed { s with actor := b } where
  clients := nodup_subperm h.views hs.clients
  serials := nodup_subperm h.views hs.serials
  fresh := by
    intro u hu
    have hlt := hs.fresh u (h.views.subset hu)
    rw [← h.serials] at hlt
    exact hlt

theorem Fits.still {s : Seated E} (hs : Fits s) {b : Actor E} (h : Actor.Still s.actor b) :
    Fits { s with actor := b } where
  toPlaced := hs.toPlaced.still h
  told := by
    intro u hu htold
    exact h.driver.trans (hs.told u (h.views.subset hu) htold)
  size := by
    intro u hu hdriver
    exact h.size.trans (hs.size u (h.views.subset hu) (h.driver.symm.trans hdriver))
  colors := by
    intro u hu hdriver
    exact hs.colors u (h.views.subset hu) (h.driver.symm.trans hdriver)

theorem Placed.eq_of_client {s : Seated E} (hs : Placed s) {u w : Nat × ClientId × TermSize}
    (hu : u ∈ s.views) (hw : w ∈ s.views) (h : u.2.1 = w.2.1) : u = w :=
  List.inj_on_of_nodup_map hs.clients hu hw h

theorem Placed.eq_of_serial {s : Seated E} (hs : Placed s) {u w : Nat × ClientId × TermSize}
    (hu : u ∈ s.views) (hw : w ∈ s.views) (h : u.1 = w.1) : u = w :=
  List.inj_on_of_nodup_map hs.serials hu hw h

theorem find_some {s : Seated E} {client : ClientId} {v : Viewer} (h : s.find client = some v) :
    view v ∈ s.views ∧ v.client = client := by
  have hclient := List.find?_some h
  exact ⟨mem_views (List.mem_of_find?_eq_some h), by simpa using hclient⟩

theorem find_none {s : Seated E} {client : ClientId} (h : s.find client = none)
    {u : Nat × ClientId × TermSize} (hu : u ∈ s.views) : u.2.1 ≠ client := by
  obtain ⟨v, hv, rfl⟩ := List.mem_map.mp hu
  have hnot : v.client ≠ client := by simpa using List.find?_eq_none.mp h v hv
  exact hnot

theorem tell_told {s : Seated E} (hs : Placed s) (client : ClientId) (you : Bool)
    {u : Nat × ClientId × TermSize} (hu : u ∈ s.views) :
    (s.tell size client you).told u.1 = if u.2.1 = client then some you else s.told u.1 := by
  unfold tell
  dsimp only
  cases hfind : s.find client with
  | none => rw [if_neg (find_none hfind hu)]
  | some v =>
    obtain ⟨hmem, hclient⟩ := find_some hfind
    by_cases hsame : u.2.1 = client
    · obtain rfl := hs.eq_of_client hu hmem (hsame.trans hclient.symm)
      rw [if_pos hsame]
      exact Function.update_self _ _ _
    · rw [if_neg hsame]
      apply Function.update_of_ne
      intro hserial
      obtain rfl := hs.eq_of_serial hu hmem hserial
      exact hsame hclient

theorem tell_still (s : Seated E) (client : ClientId) (you : Bool) :
    Actor.Still s.actor (s.tell size client you).actor :=
  Actor.sendTo_still s.actor client _

theorem tell_placed {s : Seated E} (hs : Placed s) (client : ClientId) (you : Bool) :
    Placed (s.tell size client you) :=
  let h := hs.still (tell_still s client you)
  ⟨h.clients, h.serials, h.fresh⟩

theorem tell_views {s : Seated E} {client : ClientId} {you : Bool}
    {u : Nat × ClientId × TermSize} (hu : u ∈ (s.tell size client you).views) : u ∈ s.views :=
  (tell_still s client you).views.subset hu

theorem ToldOnly.tell {s : Seated E} {client : ClientId} (h : s.ToldOnly client) (hs : Placed s) :
    (s.tell size client true).ToldOnly client := by
  intro u hu htold
  have hu := tell_views hu
  rw [tell_told hs client true hu] at htold
  split at htold
  · assumption
  · exact h u hu htold

theorem applyColorsOf_actor (s : Seated E) (client : ClientId) :
    (s.applyColorsOf client).actor = s.actor ∧ (s.applyColorsOf client).told = s.told ∧
      (s.applyColorsOf client).colors = s.colors := by
  unfold applyColorsOf
  split
  · exact ⟨rfl, rfl, rfl⟩
  · exact ⟨rfl, rfl, rfl⟩

theorem applyColorsOf_defaults {s : Seated E} (hs : Placed s) {client : ClientId}
    {u : Nat × ClientId × TermSize} (hu : u ∈ s.views) (hclient : u.2.1 = client)
    {c : TermColors} (hc : s.colors u.1 = some c) : (s.applyColorsOf client).defaults = c := by
  unfold applyColorsOf
  cases hfind : s.find client with
  | none => exact absurd hclient (find_none hfind hu)
  | some v =>
    obtain ⟨hmem, hv⟩ := find_some hfind
    obtain rfl := hs.eq_of_client hu hmem (hclient.trans hv.symm)
    have hcolors : s.colors v.serial = some c := hc
    simp only [Option.bind_some, hcolors]

/-- The seat is `client`'s, and the terminal is at its size. -/
structure Seats (s : Seated E) (client : ClientId) : Prop extends Placed s where
  driver : s.actor.driver = some client
  told : s.ToldOnly client
  size : ∀ u ∈ s.views, u.2.1 = client → E.size s.actor.engine = u.2.2

theorem Seats.fits {s : Seated E} {client : ClientId} (hs : s.Seats client)
    (hcolors : ∀ u ∈ s.views, u.2.1 = client → ∀ c, s.colors u.1 = some c → s.defaults = c) :
    Fits s := by
  have hmine : ∀ u : Nat × ClientId × TermSize, s.actor.driver = some u.2.1 → u.2.1 = client := by
    intro u hu
    exact (Option.some.inj (hs.driver.symm.trans hu)).symm
  refine ⟨hs.toPlaced, ?_, ?_, ?_⟩
  · intro u hu hyes
    rw [hs.driver, hs.told u hu hyes]
  · intro u hu hdrives
    exact hs.size u hu (hmine u hdrives)
  · intro u hu hdrives
    exact hcolors u hu (hmine u hdrives)

theorem applySize_views (hE : E.Sized) {s : Seated E} {newSize : TermSize}
    {u : Nat × ClientId × TermSize} (hu : u ∈ (s.applySize size newSize).views) : u ∈ s.views := by
  obtain ⟨e, -, hstill⟩ : ∃ e, E.size e = newSize ∧
      Actor.Still { s.actor with engine := e } (s.actor.applySize size newSize) :=
    Actor.applySize_still hE s.actor newSize
  exact hstill.views.subset hu

theorem applySize_seats (hE : E.Sized) {t : Seated E} (hplaced : Placed t) {client : ClientId}
    {newSize : TermSize} (hseat : t.actor.driver = some client) (hshown : t.ToldOnly client)
    (hstated : ∀ u ∈ t.views, u.2.1 = client → u.2.2 = newSize) :
    (t.applySize size newSize).Seats client := by
  obtain ⟨e, he, hstill⟩ : ∃ e, E.size e = newSize ∧
      Actor.Still { t.actor with engine := e } (t.actor.applySize size newSize) :=
    Actor.applySize_still hE t.actor newSize
  have hviews : ∀ u ∈ (t.applySize size newSize).views, u ∈ t.views := fun u hu =>
    applySize_views hE hu
  refine ⟨⟨?_, ?_, ?_⟩, ?_, ?_, ?_⟩
  · exact nodup_subperm hstill.views hplaced.clients
  · exact nodup_subperm hstill.views hplaced.serials
  · intro u hu
    exact (hplaced.fresh u (hviews u hu)).trans_eq hstill.serials.symm
  · exact hstill.driver.trans hseat
  · intro u hu hyes
    exact hshown u (hviews u hu) hyes
  · intro u hu hclient
    exact (hstill.size.trans he).trans (hstated u (hviews u hu) hclient).symm

/-- Whoever takes the seat is told, and the terminal comes to its size. -/
theorem tell_applySize_seats (hE : E.Sized) {s : Seated E} (hs : Placed s) {client : ClientId}
    {newSize : TermSize} (hdriver : s.actor.driver = some client) (htold : s.ToldOnly client)
    (hsize : ∀ u ∈ s.views, u.2.1 = client → u.2.2 = newSize) :
    ((s.tell size client true).applySize size newSize).Seats client :=
  applySize_seats hE (tell_placed hs client true)
    ((tell_still s client true).driver.trans hdriver) (htold.tell hs)
    fun u hu => hsize u (tell_views hu)

theorem Seats.applyColorsOf {s : Seated E} {client : ClientId} (hs : s.Seats client) :
    Fits (s.applyColorsOf client) := by
  obtain ⟨hactor, htold, hcolors⟩ := applyColorsOf_actor s client
  have hdefaults : ∀ u ∈ s.views, u.2.1 = client →
      ∀ c, s.colors u.1 = some c → (s.applyColorsOf client).defaults = c :=
    fun u hu hclient c hc => applyColorsOf_defaults hs.toPlaced hu hclient hc
  generalize s.applyColorsOf client = t at hactor htold hcolors hdefaults ⊢
  obtain ⟨a, colors, defaults, told⟩ := t
  obtain rfl : a = s.actor := hactor
  obtain rfl : told = s.told := htold
  obtain rfl : colors = s.colors := hcolors
  have hseats : Seats ⟨s.actor, s.colors, defaults, s.told⟩ client :=
    ⟨⟨hs.clients, hs.serials, hs.fresh⟩, hs.driver, hs.told, hs.size⟩
  exact hseats.fits hdefaults

theorem Fits.tell {s : Seated E} (hs : Fits s) {client : ClientId} {you : Bool}
    (hyou : you = true → s.actor.driver = some client) : Fits (s.tell size client you) := by
  have hstill : Actor.Still s.actor (s.tell size client you).actor := tell_still s client you
  have h := hs.still hstill
  refine ⟨tell_placed hs.toPlaced client you, ?_, h.size, h.colors⟩
  intro u hu hyes
  rw [tell_told hs.toPlaced client you (tell_views hu)] at hyes
  rw [hstill.driver]
  split at hyes
  · rename_i hclient
    rw [hclient]
    exact hyou (Option.some.inj hyes)
  · exact hs.told u (tell_views hu) hyes

theorem join_views (s : Seated E) (client : ClientId) (newSize : TermSize) (sink : SinkId) :
    (s.join client newSize sink).views =
      (s.views.filter fun u => u.2.1 != client) ++ [(s.actor.nextSerial, client, newSize)] := by
  show List.map view (s.actor.viewers.filter _ ++ [Viewer.new _ _ _ _]) = _
  rw [List.map_append, views, List.filter_map]
  rfl

/-- After a join a viewer is the joiner, or another client's that was there. -/
theorem mem_join {s : Seated E} {client : ClientId} {newSize : TermSize} {sink : SinkId}
    {u : Nat × ClientId × TermSize} (hu : u ∈ (s.join client newSize sink).views) :
    (u ∈ s.views ∧ u.2.1 ≠ client) ∨ u = (s.actor.nextSerial, client, newSize) := by
  rw [join_views, List.mem_append, List.mem_filter, List.mem_singleton] at hu
  exact hu.imp_left fun h => ⟨h.1, by simpa using h.2⟩

theorem join_placed {s : Seated E} (hs : Placed s) (client : ClientId) (newSize : TermSize)
    (sink : SinkId) : Placed (s.join client newSize sink) := by
  refine ⟨?_, ?_, ?_⟩
  · rw [join_views, List.map_append, List.nodup_append]
    refine ⟨(List.filter_sublist.map _).nodup hs.clients, List.nodup_singleton _, ?_⟩
    intro x hx y hy
    obtain ⟨u, hu, rfl⟩ := List.mem_map.mp hx
    obtain rfl : y = client := by simpa using hy
    simpa using (List.mem_filter.mp hu).2
  · rw [join_views, List.map_append, List.nodup_append]
    refine ⟨(List.filter_sublist.map _).nodup hs.serials, List.nodup_singleton _, ?_⟩
    intro x hx y hy
    obtain ⟨u, hu, rfl⟩ := List.mem_map.mp hx
    obtain rfl : y = s.actor.nextSerial := by simpa using hy
    exact (hs.fresh u (List.mem_filter.mp hu).1).ne
  · intro u hu
    obtain ⟨hold, -⟩ | rfl := mem_join hu
    · exact (hs.fresh u hold).trans (Nat.lt_succ_self _)
    · exact Nat.lt_succ_self _

theorem join_told {s : Seated E} (hs : Placed s) {client : ClientId} {newSize : TermSize}
    {sink : SinkId} {u : Nat × ClientId × TermSize}
    (hu : u ∈ (s.join client newSize sink).views)
    (hyes : (s.join client newSize sink).told u.1 = some true) :
    u ∈ s.views ∧ u.2.1 ≠ client ∧ s.told u.1 = some true := by
  obtain ⟨hold, hother⟩ | rfl := mem_join hu
  · refine ⟨hold, hother, ?_⟩
    rwa [show (s.join client newSize sink).told u.1 = s.told u.1 from
      Function.update_of_ne (hs.fresh u hold).ne _ _] at hyes
  · rw [show (s.join client newSize sink).told s.actor.nextSerial = none from
      Function.update_self _ _ _] at hyes
    exact absurd hyes nofun

theorem attach_fits (hE : E.Sized) {s : Seated E} (hs : Fits s) (client : ClientId)
    (newSize : TermSize) (sink : SinkId) : Fits (s.attach size client newSize sink) := by
  unfold attach
  have hs : Fits { s with actor := s.actor.flushFrame size } :=
    hs.still (Actor.flushFrame_still hE s.actor)
  generalize { s with actor := s.actor.flushFrame size } = s at hs
  have hjoined := join_placed hs.toPlaced client newSize sink
  dsimp only
  refine Fits.still ?_ (Actor.introduce_still hE _ client)
  split
  · rename_i hfree
    have hplaced : Placed
        { s.join client newSize sink with
          actor := { (s.join client newSize sink).actor with driver := some client } } :=
      ⟨hjoined.clients, hjoined.serials, hjoined.fresh⟩
    refine Seats.applyColorsOf (tell_applySize_seats hE hplaced rfl ?_ ?_)
    · intro u hu hyes
      obtain ⟨hold, hother, hyes⟩ := join_told hs.toPlaced hu hyes
      have hdrives : s.actor.driver = some u.2.1 := hs.told u hold hyes
      obtain hnone | hsame : s.actor.driver = none ∨ s.actor.driver = some client := hfree
      · exact absurd (hnone.symm.trans hdrives) nofun
      · exact Option.some.inj (hdrives.symm.trans hsame)
    · intro u hu hclient
      obtain ⟨-, hother⟩ | rfl := mem_join hu
      · exact absurd hclient hother
      · rfl
  · rename_i htaken
    have hother : ∀ u ∈ (s.join client newSize sink).views, s.actor.driver = some u.2.1 →
        u ∈ s.views := by
      intro u hu hdrives
      obtain ⟨hold, -⟩ | rfl := mem_join hu
      · exact hold
      · exact absurd (Or.inr hdrives) htaken
    refine ⟨hjoined, ?_, ?_, ?_⟩
    · intro u hu hyes
      obtain ⟨hold, -, hyes⟩ := join_told hs.toPlaced hu hyes
      exact hs.told u hold hyes
    · intro u hu hdrives
      exact hs.size u (hother u hu hdrives) hdrives
    · intro u hu hdrives c hc
      have hold := hother u hu hdrives
      rw [show (s.join client newSize sink).colors u.1 = s.colors u.1 from
        Function.update_of_ne (hs.fresh u hold).ne _ _] at hc
      exact hs.colors u hold hdrives c hc

/-- A detach that takes the driver's seat passes it to a viewer that stated no colours, or the
ones the terminal has. -/
def PassesColors (s : Seated E) (client : ClientId) (sink : Option SinkId) : Prop :=
  (s.detached client sink).2 = true → s.actor.driver = some client →
    ((s.detached client sink).1.any fun v => v.client == client) = false →
      ∀ next ∈ (s.detached client sink).1.head?, ∀ c ∈ s.colors next.serial, s.defaults = c

theorem detach_fits (hE : E.Sized) {s : Seated E} (hs : Fits s) {client : ClientId}
    {sink : Option SinkId} (hpass : s.PassesColors client sink) :
    Fits (s.detach size client sink) := by
  have hsub : ((s.detached client sink).1.map view).Subperm s.views :=
    ((List.filter_sublist).map view).subperm
  have hkept : Fits { s with actor := { s.actor with viewers := (s.detached client sink).1 } } :=
    hs.still ⟨rfl, rfl, rfl, hsub⟩
  unfold detach
  dsimp only
  unfold PassesColors at hpass
  generalize (s.detached client sink).1 = kept at hpass hkept
  split
  · rename_i hgone
    unfold onViewerGone
    dsimp only
    split
    · rename_i hseat
      obtain ⟨hdriver, hnone⟩ := hseat
      have hpass := hpass hgone hdriver hnone
      have hleft : ∀ u ∈ kept.map view, s.told u.1 ≠ some true := by
        intro u hu hyes
        have hdrives := hkept.told u hu hyes
        obtain ⟨v, hv, rfl⟩ := List.mem_map.mp hu
        have hclient : v.client ≠ client := by
          simpa using List.any_eq_false.mp hnone v hv
        exact hclient (Option.some.inj (hdrives.symm.trans hdriver))
      split
      · rename_i hempty
        have hempty : kept = [] := List.head?_eq_none_iff.mp hempty
        subst hempty
        exact ⟨⟨List.nodup_nil, List.nodup_nil, nofun⟩, nofun, nofun, nofun⟩
      · rename_i next hnext
        have hmem : view next ∈ kept.map view :=
          List.mem_map_of_mem (List.mem_of_head? hnext)
        have hplaced : Placed
            { s with
              actor := { s.actor with viewers := kept, orphan := none, driver := some next.client } } :=
          ⟨hkept.clients, hkept.serials, hkept.fresh⟩
        refine Seats.fits (tell_applySize_seats hE hplaced rfl ?_ ?_) ?_
        · intro u hu hyes
          exact absurd hyes (hleft u hu)
        · intro u hu hclient
          rw [hkept.eq_of_client hu hmem hclient]
          rfl
        · intro u hu hclient c hc
          have hu := tell_views (applySize_views hE hu)
          rw [hkept.eq_of_client hu hmem hclient] at hc
          exact hpass next hnext c hc
    · exact hkept
  · exact hkept

/-- A seat taken over is nobody else's: the one who had it was told. -/
theorem reserve_told {s : Seated E} (hs : Fits s) (client : ClientId) :
    Placed (s.reserve size client) ∧ (s.reserve size client).actor.driver = some client ∧
      (s.reserve size client).ToldOnly client ∧
      ∀ u ∈ (s.reserve size client).views, u ∈ s.views := by
  have hplaced : Placed
      { s with actor := { s.actor with orphan := none, driver := some client } } :=
    ⟨hs.clients, hs.serials, hs.fresh⟩
  unfold reserve
  dsimp only
  split
  · rename_i old hold
    split
    · refine ⟨tell_placed hplaced old false, (tell_still _ old false).driver, ?_, ?_⟩
      rotate_left
      · intro u hu
        have hu := tell_views hu
        exact hu
      intro u hu hyes
      have hu := tell_views hu
      rw [tell_told hplaced old false hu] at hyes
      split at hyes
      · exact absurd hyes nofun
      · rename_i hother
        have hdrives := hs.told u hu hyes
        exact absurd (Option.some.inj (hdrives.symm.trans hold)) hother
    · rename_i hsame
      refine ⟨hplaced, rfl, ?_, fun u hu => hu⟩
      intro u hu hyes
      have hdrives := hs.told u hu hyes
      exact (Option.some.inj (hdrives.symm.trans hold)).trans (not_not.mp hsame)
  · rename_i hnone
    refine ⟨hplaced, rfl, ?_, fun u hu => hu⟩
    intro u hu hyes
    exact absurd (hnone.symm.trans (hs.told u hu hyes)) nofun

theorem reserve_fits {s : Seated E} (hs : Fits s) {client : ClientId}
    (hnew : ∀ v ∈ s.actor.viewers, v.client ≠ client) : Fits (s.reserve size client) := by
  obtain ⟨hplaced, hdriver, htold, hviews⟩ := reserve_told hs client
  have hnobody : ∀ u ∈ (s.reserve size client).views, u.2.1 ≠ client := by
    intro u hu
    obtain ⟨v, hv, rfl⟩ := List.mem_map.mp (hviews u hu)
    exact hnew v hv
  have hseats : (s.reserve size client).Seats client :=
    ⟨hplaced, hdriver, htold, fun u hu hclient => absurd hclient (hnobody u hu)⟩
  exact hseats.fits fun u hu hclient => absurd hclient (hnobody u hu)

theorem sizeOf_eq (s : Seated E) (client : ClientId) :
    s.actor.sizeOf client = (s.find client).map Viewer.size := rfl

theorem sizeOf_view {s : Seated E} (hs : Placed s) {client : ClientId} {newSize : TermSize}
    (h : s.actor.sizeOf client = some newSize) {u : Nat × ClientId × TermSize} (hu : u ∈ s.views)
    (hclient : u.2.1 = client) : u.2.2 = newSize := by
  rw [sizeOf_eq, Option.map_eq_some_iff] at h
  obtain ⟨v, hv, rfl⟩ := h
  obtain ⟨hmem, hsame⟩ := find_some hv
  rw [hs.eq_of_client hu hmem (hclient.trans hsame.symm)]
  rfl

theorem sizeOf_none {s : Seated E} {client : ClientId} (h : s.actor.sizeOf client = none)
    {u : Nat × ClientId × TermSize} (hu : u ∈ s.views) : u.2.1 ≠ client := by
  rw [sizeOf_eq, Option.map_eq_none_iff] at h
  exact find_none h hu

/-- Whoever drives by request is told, and the terminal comes to its size if it has one. -/
theorem drive_seats (hE : E.Sized) {s : Seated E} (hs : Placed s) {client : ClientId}
    (hdriver : s.actor.driver = some client) (htold : s.ToldOnly client) :
    (match (s.tell size client true).actor.sizeOf client with
      | some newSize => (s.tell size client true).applySize size newSize
      | none => s.tell size client true).Seats client := by
  have hplaced : Placed (s.tell size client true) := tell_placed hs client true
  have hseat : (s.tell size client true).actor.driver = some client :=
    (tell_still s client true).driver.trans hdriver
  split
  · rename_i newSize hsize
    exact applySize_seats hE hplaced hseat (htold.tell hs) fun u hu => sizeOf_view hplaced hsize hu
  · rename_i hsize
    exact ⟨hplaced, hseat, htold.tell hs, fun u hu hclient => absurd hclient (sizeOf_none hsize hu)⟩

theorem release_fits {s : Seated E} (hs : Fits s) {client : ClientId}
    (hdriver : s.actor.driver = some client) :
    Fits ({ s with actor := { s.actor with driver := none } }.tell size client false) := by
  have hplaced : Placed { s with actor := { s.actor with driver := none } } :=
    ⟨hs.clients, hs.serials, hs.fresh⟩
  have hstill : Actor.Still _
      ({ s with actor := { s.actor with driver := none } }.tell size client false).actor :=
    tell_still _ client false
  refine ⟨tell_placed hplaced client false, ?_, ?_, ?_⟩
  · intro u hu hyes
    have hu := tell_views hu
    rw [tell_told hplaced client false hu] at hyes
    split at hyes
    · exact absurd hyes nofun
    · rename_i hother
      have hdrives := hs.told u hu hyes
      exact absurd (Option.some.inj (hdrives.symm.trans hdriver)) hother
  · intro u _ hdrives
    exact absurd (hstill.driver.symm.trans hdrives) nofun
  · intro u _ hdrives
    exact absurd (hstill.driver.symm.trans hdrives) nofun

theorem drive_fits (hE : E.Sized) {s : Seated E} (hs : Fits s) (client : ClientId) (take : Bool) :
    Fits (s.drive size client take) := by
  unfold drive
  split
  · obtain ⟨hplaced, hdriver, htold, -⟩ :
        Placed (s.reserve size client) ∧ (s.reserve size client).actor.driver = some client ∧
          (s.reserve size client).ToldOnly client ∧ _ := reserve_told hs client
    exact (drive_seats hE hplaced hdriver htold).applyColorsOf
  · split
    · rename_i hdriver
      exact release_fits hs hdriver
    · exact hs

theorem rollCallOver_fits (hE : E.Sized) {s : Seated E} (hs : Fits s) :
    Fits (s.rollCallOver size) := by
  unfold rollCallOver
  split
  · exact hs
  · rename_i roll _
    have hs : Fits { s with actor := { s.actor with roll := none } } :=
      hs.still (Actor.Still.of_map rfl rfl rfl rfl)
    dsimp only
    split
    · exact hs
    · rename_i hdriver
      split
      · exact hs
      · rename_i newSize hsize
        have hplaced : Placed
            { s with
              actor := { s.actor with roll := none, orphan := none, driver := some roll.asker } } :=
          ⟨hs.clients, hs.serials, hs.fresh⟩
        refine Seats.applyColorsOf (tell_applySize_seats hE (tell_placed hplaced roll.driver false)
          ((tell_still _ roll.driver false).driver) ?_ ?_)
        · intro u hu hyes
          have hu := tell_views hu
          rw [tell_told hplaced roll.driver false hu] at hyes
          split at hyes
          · exact absurd hyes nofun
          · rename_i hother
            have hdrives := hs.told u hu hyes
            exact absurd (Option.some.inj (hdrives.symm.trans (not_not.mp hdriver))) hother
        · intro u hu hclient
          have hu := tell_views hu
          exact sizeOf_view hs.toPlaced hsize hu hclient

theorem restated_fits {s : Seated E} (hs : Fits s) {client : ClientId}
    {colors : Nat → Option TermColors}
    (hsame : ∀ u ∈ s.views, u.2.1 ≠ client → colors u.1 = s.colors u.1) :
    Fits (if s.actor.driver = some client then
      { s with colors := colors }.applyColorsOf client else { s with colors := colors }) := by
  split
  · rename_i hdriver
    have hseats : Seats { s with colors := colors } client := by
      refine ⟨⟨hs.clients, hs.serials, hs.fresh⟩, hdriver, ?_, ?_⟩
      · intro u hu hyes
        exact Option.some.inj ((hs.told u hu hyes).symm.trans hdriver)
      · intro u hu hclient
        exact hs.size u hu (hclient ▸ hdriver)
    exact hseats.applyColorsOf
  · rename_i hdriver
    refine ⟨⟨hs.clients, hs.serials, hs.fresh⟩, hs.told, hs.size, ?_⟩
    intro u hu hdrives c' hc'
    have hne : u.2.1 ≠ client := fun h => hdriver (h ▸ hdrives)
    exact hs.colors u hu hdrives c' ((hsame u hu hne).symm.trans hc')

theorem colorsRequest_fits {s : Seated E} (hs : Fits s) (client : ClientId) (c : TermColors) :
    Fits (s.colorsRequest client c) := by
  unfold colorsRequest
  cases hfind : s.find client with
  | none => exact restated_fits hs fun _ _ _ => rfl
  | some v =>
    obtain ⟨hmem, hclient⟩ := find_some hfind
    refine restated_fits hs fun u hu hne => ?_
    apply Function.update_of_ne
    intro hserial
    obtain rfl := hs.eq_of_serial hu hmem hserial
    exact hne hclient

theorem tellLost_fits (hE : E.Sized) {s : Seated E} (hs : Fits s) (i : Nat) (client : ClientId) :
    Fits (s.tellLost size i client) := by
  unfold tellLost
  have hflush : Fits { s with actor := s.actor.flushFrame size } :=
    hs.still (Actor.flushFrame_still hE s.actor)
  generalize s.actor.flushFrame size = flushed at hflush ⊢
  dsimp only
  refine Fits.still ?_ (Actor.introduce_still hE _ client)
  refine Fits.tell ?_ fun h => of_decide_eq_true h
  refine hflush.still ?_
  dsimp only
  split
  · rename_i v hv
    exact Actor.setViewer_still hv rfl
  · exact Actor.Still.refl _

theorem sinkHasRoom_fits (hE : E.Sized) {s : Seated E} (hs : Fits s) (client : ClientId)
    (sink : SinkId) (paced : Bool) : Fits (s.sinkHasRoom size client sink paced) := by
  unfold sinkHasRoom
  split
  · exact hs
  · rename_i i _
    split
    · exact hs
    · rename_i v hv
      have hset : Actor.Still s.actor (s.actor.setViewer i { v with waiting := false }) :=
        Actor.setViewer_still hv rfl
      have hplace : (s.actor.setViewer i { v with waiting := false }).viewers[i]? =
          some { v with waiting := false } := by
        have hi := (List.getElem?_eq_some_iff.mp hv).1
        exact List.getElem?_set_self hi
      dsimp only
      split
      · exact tellLost_fits hE (hs.still hset) i client
      · exact hs.still (hset.trans (Actor.drainViewer_still hE hplace paced))

theorem resized_map {β : Type} {f : Viewer → β} (a : Actor E) (client : ClientId)
    (newSize : TermSize) (hf : ∀ v : Viewer, f { v with size := newSize } = f v) :
    (a.updateClient client fun v => { v with size := newSize }).viewers.map f =
      a.viewers.map f := by
  unfold Actor.updateClient
  split
  · rfl
  · split
    · rfl
    · rename_i v hv
      exact Actor.map_setViewer hv (hf v)

/-- The client's viewer states the new size, and every other is as it was. -/
theorem mem_resized {s : Seated E} (hs : Placed s) {client : ClientId} {newSize : TermSize}
    {v : Viewer} (hv : v ∈ (s.actor.updateClient client fun v => { v with size := newSize }).viewers) :
    v.client = client ∧ v.size = newSize ∨ v.client ≠ client ∧ v ∈ s.actor.viewers := by
  unfold Actor.updateClient at hv
  cases hposition : s.actor.position client with
  | none =>
    rw [hposition] at hv
    have hnone : s.find client = none := by
      rw [find, List.find?_eq_none]
      intro v hv
      simp [List.findIdx?_eq_none_iff.mp hposition v hv]
    exact Or.inr ⟨find_none hnone (mem_views hv), hv⟩
  | some i =>
    obtain ⟨w, hw, hclient⟩ := Actor.getElem?_of_findIdx hposition
    simp only [hposition, hw] at hv
    obtain rfl | ⟨j, hj, hv⟩ := Actor.mem_setViewer hv
    · exact Or.inl ⟨by simpa using hclient, rfl⟩
    · refine Or.inr ⟨?_, List.mem_of_getElem? hv⟩
      intro hsame
      have hclients : (s.actor.viewers.map Viewer.client).Nodup := by
        have h := hs.clients
        rwa [views, List.map_map] at h
      have hwhose : w.client = client := by simpa using hclient
      exact hj (Actor.place_unique hclients hv hw (hsame.trans hwhose.symm))

theorem updateClient_viewers (a : Actor E) (client : ClientId) (f : Viewer → Viewer) :
    a.updateClient client f = { a with viewers := (a.updateClient client f).viewers } := by
  unfold Actor.updateClient
  split
  · rfl
  · split <;> rfl

theorem Placed.rekey {s : Seated E} (hs : Placed s) {viewers : List Viewer}
    (hkeys : viewers.map (fun v => (v.serial, v.client)) =
      s.actor.viewers.map fun v => (v.serial, v.client)) :
    Placed { s with actor := { s.actor with viewers := viewers } } := by
  have hmap : ∀ {β : Type} (f : Nat × ClientId → β),
      (viewers.map view).map (fun u => f (u.1, u.2.1)) = s.views.map fun u => f (u.1, u.2.1) := by
    intro β f
    have h := congrArg (List.map f) hkeys
    simpa [views, List.map_map, Function.comp_def, view] using h
  refine ⟨?_, ?_, ?_⟩
  · show ((viewers.map view).map fun u => u.2.1).Nodup
    rw [hmap Prod.snd]
    exact hs.clients
  · show ((viewers.map view).map fun u => u.1).Nodup
    rw [hmap Prod.fst]
    exact hs.serials
  · intro u hu
    have hserial : u.1 ∈ (viewers.map view).map fun u => u.1 := List.mem_map_of_mem hu
    rw [hmap Prod.fst] at hserial
    obtain ⟨w, hw, heq⟩ := List.mem_map.mp hserial
    have hlt := hs.fresh w hw
    rwa [heq] at hlt

theorem resize_fits (hE : E.Sized) {s : Seated E} (hs : Fits s) (client : ClientId)
    (newSize : TermSize) :
    Fits { s with actor := s.actor.resizeRequest size client newSize } := by
  have hkeys := resized_map (f := fun v : Viewer => (v.serial, v.client)) s.actor client newSize
    fun _ => rfl
  have hmem : ∀ v ∈ (s.actor.updateClient client fun v => { v with size := newSize }).viewers, _ :=
    fun v hv => mem_resized hs.toPlaced hv
  unfold Actor.resizeRequest
  dsimp only
  rw [updateClient_viewers]
  generalize (s.actor.updateClient client fun v => { v with size := newSize }).viewers = viewers
    at hkeys hmem ⊢
  have hplaced := hs.toPlaced.rekey hkeys
  have hold : ∀ u ∈ viewers.map view, ∃ w ∈ s.views, w.1 = u.1 ∧ w.2.1 = u.2.1 := by
    intro u hu
    obtain ⟨v, hv, rfl⟩ := List.mem_map.mp hu
    have hkey : (v.serial, v.client) ∈ viewers.map fun v => (v.serial, v.client) :=
      List.mem_map_of_mem hv
    rw [hkeys] at hkey
    obtain ⟨w, hw, heq⟩ := List.mem_map.mp hkey
    exact ⟨view w, mem_views hw, by simpa [view] using heq⟩
  have htold : ∀ u ∈ viewers.map view, s.told u.1 = some true → s.actor.driver = some u.2.1 := by
    intro u hu hyes
    obtain ⟨w, hw, hserial, hclient⟩ := hold u hu
    rw [← hclient]
    exact hs.told w hw (hserial ▸ hyes)
  have hcolors : ∀ u ∈ viewers.map view, s.actor.driver = some u.2.1 →
      ∀ c, s.colors u.1 = some c → s.defaults = c := by
    intro u hu hdrives c hc
    obtain ⟨w, hw, hserial, hclient⟩ := hold u hu
    exact hs.colors w hw (hclient ▸ hdrives) c (hserial ▸ hc)
  split
  · rename_i hdriver
    have hseats : ({ s with actor := { s.actor with viewers := viewers } }.applySize size
        newSize).Seats client := by
      refine applySize_seats hE hplaced hdriver ?_ ?_
      · intro u hu hyes
        exact Option.some.inj ((htold u hu hyes).symm.trans hdriver)
      · intro u hu hclient
        obtain ⟨v, hv, rfl⟩ := List.mem_map.mp hu
        obtain ⟨-, hsize⟩ | ⟨hother, -⟩ := hmem v hv
        · exact hsize
        · exact absurd hclient hother
    refine hseats.fits fun u hu hclient => ?_
    have hu := applySize_views hE hu
    exact hcolors u hu (hclient ▸ hdriver)
  · rename_i hdriver
    refine ⟨hplaced, htold, ?_, hcolors⟩
    intro u hu hdrives
    obtain ⟨v, hv, rfl⟩ := List.mem_map.mp hu
    obtain ⟨hclient, -⟩ | ⟨-, hv⟩ := hmem v hv
    · exact absurd (hclient ▸ hdrives) hdriver
    · exact hs.size (view v) (mem_views hv) hdrives

theorem resizeUnviewed_fits (hE : E.Sized) {s : Seated E} (hs : Fits s) (newSize : TermSize) :
    Fits (if s.actor.viewers.isEmpty then s.applySize size newSize else s) := by
  split
  · rename_i hempty
    have hnobody : (s.applySize size newSize).views = [] := by
      rw [List.eq_nil_iff_forall_not_mem]
      intro u hu
      have hu := applySize_views hE hu
      rw [views, List.isEmpty_iff.mp hempty] at hu
      exact absurd hu nofun
    have hnone : ∀ {P : Nat × ClientId × TermSize → Prop},
        ∀ u ∈ (s.applySize size newSize).views, P u := by
      intro P u hu
      rw [hnobody] at hu
      exact absurd hu nofun
    refine ⟨⟨?_, ?_, hnone⟩, hnone, hnone, hnone⟩
    · rw [hnobody]
      exact List.nodup_nil
    · rw [hnobody]
      exact List.nodup_nil
  · exact hs

/-- A seat is reserved before its client attaches, and one that a detach leaves passes to a viewer
whose colours, if it stated any, the terminal has. -/
def SeatPasses (s : Seated E) : SeatStep → Prop
  | .actor (.reserve client) => ∀ v ∈ s.actor.viewers, v.client ≠ client
  | .actor (.detach client sink) => s.PassesColors client sink
  | _ => True

instance (s : Seated E) (client : ClientId) (sink : Option SinkId) :
    Decidable (s.PassesColors client sink) := by
  unfold PassesColors
  infer_instance

instance (s : Seated E) : ∀ st, Decidable (s.SeatPasses st)
  | .actor (.reserve client) =>
      inferInstanceAs (Decidable (∀ v ∈ s.actor.viewers, v.client ≠ client))
  | .actor (.detach client sink) => inferInstanceAs (Decidable (s.PassesColors client sink))
  | .colors _ _ | .resizeUnviewed _ => isTrue trivial
  | .actor (.attach _ _ _) | .actor (.drive _ _) | .actor (.resize _ _) | .actor (.reached _ _ _)
  | .actor (.typed _) | .actor .rollCallOver | .actor (.output _) | .actor .flush
  | .actor (.frameRoom _) | .actor (.news _) | .actor (.answer _ _) | .actor (.exited _)
  | .actor (.drained _) | .actor (.take _) | .actor (.done _ _) | .actor (.close _)
  | .actor (.wake _) => isTrue trivial

theorem step_fits (hE : E.Sized) {s : Seated E} (hs : Fits s) {st : SeatStep}
    (hst : s.SeatPasses st) : Fits (s.step size st) := by
  cases st with
  | colors client c =>
    exact colorsRequest_fits (hs.still (Actor.word_still s.actor client)) client c
  | resizeUnviewed newSize => exact resizeUnviewed_fits hE hs newSize
  | actor st =>
    cases st with
    | attach client newSize sink => exact attach_fits hE hs client newSize sink
    | detach client sink => exact detach_fits hE hs hst
    | reserve client => exact reserve_fits hs hst
    | drive client take =>
      exact drive_fits hE (hs.still (Actor.word_still s.actor client)) client take
    | resize client newSize =>
      exact resize_fits hE (hs.still (Actor.word_still s.actor client)) client newSize
    | reached client marker paced =>
      exact hs.still ((Actor.word_still s.actor client).trans
        (Actor.reachedRequest_still hE _ client marker paced))
    | typed client => exact hs.still (Actor.typed_still s.actor client)
    | rollCallOver => exact rollCallOver_fits hE hs
    | output bytes => exact hs.still (Actor.still_engine s.actor (hE.write s.actor.engine bytes))
    | flush => exact hs.still (Actor.flushFrame_still hE s.actor)
    | frameRoom paced => exact hs.still (Actor.frameRoom_still hE s.actor paced)
    | news n => exact hs.still (Actor.news_still s.actor n)
    | answer client text => exact hs.still (Actor.sendTo_still s.actor client _)
    | exited status => exact hs.still (Actor.childExited_still hE s.actor status)
    | drained paced =>
      simp only [step]
      split
      · exact hs
      · refine sinkHasRoom_fits hE ?_ _ _ paced
        exact hs.still (Actor.Still.of_map rfl rfl rfl rfl)
    | take sink =>
      refine hs.still ?_
      simp only [Actor.step]
      split
      · exact Actor.Still.refl _
      · exact Actor.Still.of_map rfl rfl rfl rfl
    | done sink k => exact hs.still (Actor.Still.of_map rfl rfl rfl rfl)
    | close sink => exact hs.still (Actor.Still.of_map rfl rfl rfl rfl)
    | wake k => exact hs.still (Actor.wake_still s.actor k)

/-- A session nobody has attached to. -/
def start (engine : E.State) (capacity : SinkId → Nat) (queuedMaxBytes : Nat)
    (defaults : TermColors) : Seated E where
  actor := Actor.start engine capacity queuedMaxBytes
  defaults := defaults

theorem start_fits (engine : E.State) (capacity : SinkId → Nat) (queuedMaxBytes : Nat)
    (defaults : TermColors) :
    Fits (start (E := E) engine capacity queuedMaxBytes defaults) :=
  ⟨⟨List.nodup_nil, List.nodup_nil, nofun⟩, nofun, nofun, nofun⟩

/-- The terminal is the driver's: where it is an attached viewer the size is the one it stated, the
default colours are those it stated if it stated any, and nobody else was last told that it drives;
each client has one viewer. -/
def Driven (s : Seated E) : Prop :=
  (s.actor.viewers.map Viewer.client).Nodup ∧
    ∀ v ∈ s.actor.viewers, s.actor.driver = some v.client →
      E.size s.actor.engine = v.size ∧ (∀ c, s.colors v.serial = some c → s.defaults = c) ∧
        ∀ w ∈ s.actor.viewers, w.client ≠ v.client → s.told w.serial ≠ some true

theorem Fits.driven {s : Seated E} (hs : Fits s) : s.Driven := by
  constructor
  · have h := hs.clients
    rwa [views, List.map_map] at h
  · intro v hv hdrives
    refine ⟨hs.size (view v) (mem_views hv) hdrives, hs.colors (view v) (mem_views hv) hdrives, ?_⟩
    intro w hw hother hyes
    have hseat := hs.told (view w) (mem_views hw) hyes
    exact hother (Option.some.inj (hseat.symm.trans hdrives))

theorem reserve_actor (s : Seated E) (client : ClientId) :
    (s.reserve size client).actor = s.actor.reserve size client := by
  unfold reserve Actor.reserve
  cases s.actor.driver with
  | none => rfl
  | some old =>
    dsimp only
    split <;> rfl

theorem onViewerGone_actor (s : Seated E) (client : ClientId) :
    (s.onViewerGone size client).actor = s.actor.onViewerGone size client := by
  unfold onViewerGone Actor.onViewerGone
  split
  · dsimp only
    cases s.actor.viewers.head? with
    | none => rfl
    | some next => rfl
  · rfl

theorem detach_actor (s : Seated E) (client : ClientId) (sink : Option SinkId) :
    (s.detach size client sink).actor = s.actor.detach size client sink := by
  unfold detach
  by_cases hgone : (s.detached client sink).2 = true
  · refine (congrArg Seated.actor (if_pos hgone)).trans ((onViewerGone_actor _ client).trans ?_)
    exact (if_pos hgone).symm
  · exact (congrArg Seated.actor (if_neg hgone)).trans (if_neg hgone).symm

theorem attach_actor (s : Seated E) (client : ClientId) (newSize : TermSize) (sink : SinkId) :
    (s.attach size client newSize sink).actor = s.actor.attach size client newSize sink := by
  unfold attach Actor.attach
  dsimp only
  generalize s.actor.flushFrame size = a
  by_cases hfree : a.driver = none ∨ a.driver = some client
  · have hfree' : ({ s with actor := a }.join client newSize sink).actor.driver = none ∨
        ({ s with actor := a }.join client newSize sink).actor.driver = some client := hfree
    rw [if_pos hfree, if_pos hfree', (applyColorsOf_actor _ client).1]
    rfl
  · have hfree' : ¬ (({ s with actor := a }.join client newSize sink).actor.driver = none ∨
        ({ s with actor := a }.join client newSize sink).actor.driver = some client) := hfree
    rw [if_neg hfree, if_neg hfree']
    rfl

theorem drive_actor (s : Seated E) (client : ClientId) (take : Bool) :
    (s.drive size client take).actor = s.actor.drive size client take := by
  unfold drive Actor.drive
  split
  · dsimp only
    rw [(applyColorsOf_actor _ client).1]
    have htell : ((s.reserve size client).tell size client true).actor =
        (s.actor.reserve size client).sendTo size client (.driver true) := by
      rw [← reserve_actor]
      rfl
    rw [htell]
    cases ((s.actor.reserve size client).sendTo size client (.driver true)).sizeOf client with
    | none => exact htell
    | some newSize =>
      show Actor.applySize size _ newSize = _
      rw [htell]
  · split <;> rfl

theorem rollCallOver_actor (s : Seated E) :
    (s.rollCallOver size).actor = s.actor.rollCallOver size := by
  unfold rollCallOver Actor.rollCallOver
  cases s.actor.roll with
  | none => rfl
  | some roll =>
    dsimp only
    by_cases hdriver : s.actor.driver ≠ some roll.driver
    · rw [if_pos hdriver, if_pos hdriver]
    · rw [if_neg hdriver, if_neg hdriver]
      cases { s.actor with roll := none }.sizeOf roll.asker with
      | none => rfl
      | some newSize => exact (applyColorsOf_actor _ roll.asker).1

theorem tellLost_actor (s : Seated E) (i : Nat) (client : ClientId) :
    (s.tellLost size i client).actor = s.actor.tellLost size i client := by
  cases hv : (s.actor.flushFrame size).viewers[i]? with
  | none => simp only [tellLost, Actor.tellLost, Actor.catchUp, tell, hv]
  | some v => simp only [tellLost, Actor.tellLost, Actor.catchUp, tell, hv]

theorem sinkHasRoom_actor (s : Seated E) (client : ClientId) (sink : SinkId) (paced : Bool) :
    (s.sinkHasRoom size client sink paced).actor =
      s.actor.sinkHasRoom size client sink paced := by
  unfold sinkHasRoom Actor.sinkHasRoom
  cases s.actor.viewers.findIdx? fun v => v.client == client && v.sink == sink with
  | none => rfl
  | some i =>
    dsimp only
    cases s.actor.viewers[i]? with
    | none => rfl
    | some v =>
      dsimp only
      by_cases hlost : v.lost = true
      · rw [if_pos hlost, if_pos hlost]
        exact tellLost_actor _ i client
      · rw [if_neg hlost, if_neg hlost]

theorem step_actor (s : Seated E) (st : Step) :
    (s.step size (.actor st)).actor = s.actor.step size st := by
  cases st with
  | attach client newSize sink => exact attach_actor s client newSize sink
  | detach client sink => exact detach_actor s client sink
  | reserve client => exact reserve_actor s client
  | drive client take => exact drive_actor _ client take
  | rollCallOver => exact rollCallOver_actor s
  | drained paced =>
    simp only [step, Actor.step]
    cases s.actor.drained with
    | nil => rfl
    | cons first rest => exact sinkHasRoom_actor _ _ _ paced
  | resize client newSize => simp only [step]
  | reached client marker paced => simp only [step]
  | typed client => simp only [step]
  | output bytes => simp only [step]
  | flush => simp only [step]
  | frameRoom paced => simp only [step]
  | news n => simp only [step]
  | answer client text => simp only [step]
  | exited status => simp only [step]
  | take sink => simp only [step]
  | done sink k => simp only [step]
  | close sink => simp only [step]
  | wake k => simp only [step]

end Seated

/-- An engine with nothing on its screen, at the size it was last given. -/
def blank : Engine where
  State := Nat × TermSize
  last := Prod.fst
  size := Prod.snd
  write := fun s _ => s
  takeFrame := fun s => (.ok (some ⟨s.1 + 1, false, []⟩), (s.1 + 1, s.2))
  fullFrame := fun s => (.ok ⟨s.1 + 1, true, []⟩, (s.1 + 1, s.2))
  baselineFrame := fun s => (.ok (⟨s.1 + 1, true, []⟩, []), (s.1 + 1, s.2))
  joinFrame := fun s => (.ok (⟨s.1, true, []⟩, []), s)
  drainImages := fun s => ([], s)
  discardFrame := id
  resize := fun s newSize => (.ok (), (s.1, newSize))

theorem blank_sized : blank.Sized where
  write _ _ := rfl
  take _ := rfl
  full _ := rfl
  baseline _ := rfl
  join _ := rfl
  drain _ := rfl
  discard _ := rfl
  resized _ _ := ⟨rfl, rfl⟩

namespace Seated

def laptop : TermSize := ⟨200, 50, 8, 16⟩

def phone : TermSize := ⟨40, 20, 8, 16⟩

def dark : TermColors := ⟨(255, 255, 255), (0, 0, 0), (255, 255, 255), []⟩

def light : TermColors := ⟨(0, 0, 0), (255, 255, 255), (0, 0, 0), []⟩

def unviewed : Seated blank := start (E := blank) (0, laptop) (fun _ => 8) 1000 dark

/-- The phone takes the seat, gives it back, and leaves while it does not drive. -/
def seatPassed : List SeatStep :=
  [.actor (.attach 1 laptop 10), .actor (.attach 2 phone 20), .colors 2 light,
    .actor (.drive 2 true), .actor (.drive 1 true), .actor (.detach 2 none)]

/-- The laptop leaves while it drives, and the phone is left with the seat. -/
def laptopLeaves : List SeatStep :=
  [.actor (.attach 1 laptop 10), .actor (.attach 2 phone 20), .colors 2 light,
    .actor (.detach 1 none)]

end Seated

end Slopty.Session
