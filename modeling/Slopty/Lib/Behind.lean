import Mathlib.Data.List.Basic
import Mathlib.Data.List.Infix
import Mathlib.Data.List.Nodup

/-!
Which element of a list stands right behind which, under removals and insertions, and when that
and the order of the elements left alone settle the whole list.
-/

namespace Slopty.Lib

universe u

variable {α : Type u}

/-- `x` stands right behind `after`, first where that is `none`. -/
def Behind (after : Option α) (x : α) (l : List α) : Prop :=
  match after with
  | none => [x] <+: l
  | some a => [a, x] <:+: l

/-- What stands right before place `i`. -/
def beforePlace (l : List α) (i : Nat) : Option α := if i = 0 then none else l[i - 1]?

theorem Behind.filter {after : Option α} {x : α} {l : List α} (h : Behind after x l)
    {p : α → Bool} (hafter : ∀ a, after = some a → p a = true) (hx : p x = true) :
    Behind after x (l.filter p) := by
  cases after with
  | none =>
      have := List.IsPrefix.filter p h
      rwa [List.filter_cons_of_pos hx, List.filter_nil] at this
  | some a =>
      have := List.IsInfix.filter p h
      rwa [List.filter_cons_of_pos (hafter a rfl), List.filter_cons_of_pos hx,
        List.filter_nil] at this

theorem Behind.insert {after : Option α} {x c : α} {s t : List α}
    (h : Behind after x (s ++ c :: t)) (hc : after ≠ some c) (y : α) :
    Behind after x (s ++ c :: y :: t) := by
  cases after with
  | none =>
      obtain ⟨rest, hrest⟩ := h
      cases s with
      | nil =>
          obtain rfl : x = c := (List.cons.inj hrest).1
          exact ⟨y :: t, rfl⟩
      | cons z s =>
          obtain rfl : x = z := (List.cons.inj hrest).1
          exact ⟨s ++ c :: y :: t, rfl⟩
  | some a =>
      obtain ⟨u, v, huv⟩ := h
      have hac : a ≠ c := fun h => hc (congrArg some h)
      rw [List.append_assoc] at huv
      rcases List.append_eq_append_iff.mp huv with ⟨m, rfl, hm⟩ | ⟨m, rfl, hm⟩
      · -- the pair ends in front of `c`, or `c` is its second half
        cases m with
        | nil => exact absurd (List.cons.inj hm).1 hac
        | cons z m =>
            obtain rfl : a = z := (List.cons.inj hm).1
            have hm := (List.cons.inj hm).2
            cases m with
            | nil =>
                obtain rfl : x = c := (List.cons.inj hm).1
                exact ⟨u, y :: t, by simp⟩
            | cons w m =>
                obtain rfl : x = w := (List.cons.inj hm).1
                exact ⟨u, m ++ c :: y :: t, by simp⟩
      · cases m with
        | nil => exact absurd (List.cons.inj hm).1.symm hac
        | cons z m =>
            obtain rfl : c = z := (List.cons.inj hm).1
            have hm := (List.cons.inj hm).2
            exact ⟨s ++ c :: y :: m, v, by simp [hm]⟩

theorem Behind.cons {a x : α} {l : List α} (h : Behind (some a) x l) (y : α) :
    Behind (some a) x (y :: l) := List.infix_cons h

theorem insertIdx_behind (s : List α) (c y : α) (t : List α) :
    (s ++ c :: t).insertIdx (s.length + 1) y = s ++ c :: y :: t := by
  induction s with
  | nil => rfl
  | cons z s ih => rw [List.cons_append, List.length_cons, List.insertIdx_succ_cons, ih,
      List.cons_append]

theorem nodup_behind {s t : List α} {c y : α} :
    (s ++ c :: y :: t).Nodup ↔ y ∉ s ++ c :: t ∧ (s ++ c :: t).Nodup := by
  have hsplit : s ++ c :: y :: t = (s ++ [c]) ++ y :: t := by simp
  rw [hsplit, List.nodup_middle, List.nodup_cons, List.append_assoc, List.singleton_append]

theorem behind_inserted (s : List α) (c y : α) (t : List α) :
    Behind (some c) y (s ++ c :: y :: t) := ⟨s, t, by simp⟩

theorem Behind.places {a x : α} {l : List α} (h : Behind (some a) x l) :
    ∃ k, l[k]? = some a ∧ l[k + 1]? = some x := by
  obtain ⟨u, v, rfl⟩ := h
  refine ⟨u.length, ?_, ?_⟩ <;> rw [List.append_assoc, List.getElem?_append_right (by omega)] <;>
    simp

theorem place_unique {l : List α} (hl : l.Nodup) {i j : Nat} {x : α} (hi : l[i]? = some x)
    (hj : l[j]? = some x) : i = j := by
  obtain ⟨hi', rfl⟩ := List.getElem?_eq_some_iff.mp hi
  obtain ⟨hj', heq⟩ := List.getElem?_eq_some_iff.mp hj
  exact (hl.getElem_inj_iff.mp heq).symm

theorem beforePlace_inj {l : List α} (hl : l.Nodup) {i j : Nat} (hi : i < l.length)
    (hj : j < l.length) (h : beforePlace l i = beforePlace l j) : i = j := by
  have hsome : ∀ k, k < l.length → ∃ x, l[k - 1]? = some x := fun k hk =>
    ⟨_, List.getElem?_eq_getElem (by omega)⟩
  obtain ⟨x, hx⟩ := hsome i hi
  obtain ⟨y, hy⟩ := hsome j hj
  rw [beforePlace, beforePlace, hx, hy] at h
  split at h <;> split at h
  · omega
  · exact absurd h nofun
  · exact absurd h nofun
  · obtain rfl := Option.some.inj h
    have := place_unique hl hx hy
    omega

/-- A list whose elements all stand where another's do, each not kept behind the one it is behind
there and those kept in the order they are in there, is that list. -/
theorem eq_of_behind {l m : List α} {kept : α → Bool} (hl : l.Nodup) (hm : m.Nodup)
    (hmem : ∀ x, x ∈ l ↔ x ∈ m) (hkept : l.filter kept = m.filter kept)
    (hbehind : ∀ i x, m[i]? = some x → kept x = false → Behind (beforePlace m i) x l) :
    l = m := by
  have hlength : l.length = m.length :=
    ((List.perm_ext_iff_of_nodup hl hm).mpr hmem).length_eq
  -- one place after another, what stands there is the same
  have hfront : ∀ i ≤ m.length, m.take i <+: l := by
    intro i
    induction i with
    | zero => exact fun _ => List.nil_prefix
    | succ i ih =>
        intro hi
        obtain ⟨r, hr⟩ := ih (by omega)
        have hx : m[i]? = some m[i] := List.getElem?_eq_getElem (by omega)
        suffices hplace : l[i]? = some m[i] by
          have hhead : r[0]? = some m[i] := by
            have := hplace
            rw [← hr, List.getElem?_append_right (by rw [List.length_take]; omega),
              List.length_take, min_eq_left (by omega), Nat.sub_self] at this
            exact this
          cases r with
          | nil => exact absurd hhead nofun
          | cons y r =>
              obtain rfl : y = m[i] := Option.some.inj hhead
              refine ⟨r, ?_⟩
              rw [List.take_add_one, hx, Option.toList_some, List.append_assoc,
                List.singleton_append]
              exact hr
        have hsame : ∀ j < i, l[j]? = m[j]? := by
          intro j hj
          rw [← hr, List.getElem?_append_left (by rw [List.length_take]; omega),
            List.getElem?_take, if_pos hj]
        cases hkeep : kept m[i] with
        | false =>
            have hb := hbehind i m[i] hx hkeep
            cases i with
            | zero =>
                obtain ⟨rest, hrest⟩ := hb
                rw [← hrest]
                rfl
            | succ i =>
                have hbefore : beforePlace m (i + 1) = some m[i] := by
                  rw [beforePlace, if_neg (Nat.succ_ne_zero i), Nat.add_sub_cancel]
                  exact List.getElem?_eq_getElem (by omega)
                rw [hbefore] at hb
                obtain ⟨k, hk, hnext⟩ := hb.places
                have hki : k = i := place_unique hl hk (by
                  rw [hsame i (Nat.lt_succ_self i)]
                  exact List.getElem?_eq_getElem (by omega))
                rwa [hki] at hnext
        | true =>
            have hrest : r.filter kept = m[i] :: (m.drop (i + 1)).filter kept := by
              have hsplit : m = m.take i ++ m[i] :: m.drop (i + 1) := by
                rw [List.cons_getElem_drop_succ, List.take_append_drop]
              have : (m.take i ++ r).filter kept =
                  (m.take i ++ m[i] :: m.drop (i + 1)).filter kept := by
                rw [hr, hkept, ← hsplit]
              rw [List.filter_append, List.filter_append, List.filter_cons_of_pos hkeep] at this
              exact List.append_cancel_left this
            cases r with
            | nil => exact absurd hrest nofun
            | cons y r =>
                have hy : l[i]? = some y := by
                  rw [← hr, List.getElem?_append_right (by rw [List.length_take]; omega),
                    List.length_take, min_eq_left (by omega), Nat.sub_self]
                  rfl
                cases hykeep : kept y with
                | true =>
                    rw [List.filter_cons_of_pos hykeep] at hrest
                    rw [hy, (List.cons.inj hrest).1]
                | false =>
                    -- what is not kept would stand behind another than it does
                    exfalso
                    obtain ⟨j, hj⟩ :=
                      List.mem_iff_getElem?.mp ((hmem y).mp (List.mem_of_getElem? hy))
                    have hlt := (List.getElem?_eq_some_iff.mp hj).1
                    have hji : i < j := by
                      rcases Nat.lt_trichotomy j i with hlt' | rfl | hgt
                      · exact absurd (place_unique hl (by rw [hsame j hlt', hj]) hy) (by omega)
                      · rw [hx] at hj
                        rw [Option.some.inj hj, hykeep] at hkeep
                        exact absurd hkeep nofun
                      · exact hgt
                    have hb := hbehind j y hj hykeep
                    have hbefore : beforePlace m j = some m[j - 1] := by
                      rw [beforePlace, if_neg (by omega)]
                      exact List.getElem?_eq_getElem (by omega)
                    rw [hbefore] at hb
                    obtain ⟨k, hk, hnext⟩ := hb.places
                    have hki : k + 1 = i := place_unique hl hnext hy
                    rw [hsame k (by omega)] at hk
                    have := place_unique hm hk (List.getElem?_eq_getElem (by omega))
                    omega
  have hall := hfront m.length (le_refl _)
  rw [List.take_length] at hall
  exact (hall.eq_of_length hlength.symm).symm

end Slopty.Lib
