import Slopty.Items.World
import Slopty.Items.Agree

/-!
The registry as the log of its deltas: where it stood after each of them, and that every
task that applies to it extends the log by ops the registry took.
-/

namespace Slopty.Items

open Slopty.Lib

namespace Registry

def advance (r : Registry) (d : Delta) : Registry :=
  ⟨d.version, (ItemDoc.applyOp r.items d.op false).1⟩

/-- Deltas that follow on the registry one by one, each with an op it took. -/
def Logs : Registry → List Delta → Prop
  | _, [] => True
  | r, d :: rest => d.version = r.version + 1 ∧ Taken r.items d.op ∧ Logs (r.advance d) rest

end Registry

theorem Tidy.advance {r : Registry} {d : Delta} (h : Tidy r.items) (htaken : Taken r.items d.op) :
    Tidy (r.advance d).items := by
  intro id item hget
  obtain ⟨version, by', op⟩ := d
  simp only [Registry.advance, ItemDoc.get?_applyOp] at hget
  split at hget
  · rename_i hid
    subst hid
    cases op with
    | add item' => exact Option.some.inj hget ▸ htaken
    | remove id => exact absurd hget (by simp [ItemDoc.revise])
    | rename id name =>
        obtain ⟨old, hold, rfl⟩ := Option.map_eq_some_iff.mp hget
        exact ⟨(h _ _ hold).keyed, (h _ _ hold).trimmed⟩
    | setFact id key value =>
        obtain ⟨old, hold, rfl⟩ := Option.map_eq_some_iff.mp hget
        have hkept := h _ _ hold
        cases value with
        | none =>
            refine ⟨hkept.keyed, fun k hk => ?_⟩
            rw [Item.edited_forget, OrdMap.get?_erase]
            split
            · rfl
            · exact hkept.trimmed k hk
        | some value =>
            rw [Item.edited_setFact]
            split
            · refine ⟨hkept.keyed, fun k hk => ?_⟩
              have hne : key ≠ k := by
                rintro rfl
                exact hk htaken.trimmed
              rw [OrdMap.get?_insert, if_neg hne]
              exact hkept.trimmed k hk
            · exact hkept
  · exact h _ _ hget

theorem cleanFacts_trimmed {facts kept : OrdMap Text Text} (h : cleanFacts facts = .ok kept)
    {key : Text} (hkey : key.trim ≠ key) : kept.get? key = none := by
  simp only [cleanFacts] at h
  split at h
  · cases h
  · rename_i hbounds
    cases h
    rw [Bool.or_eq_true, not_or] at hbounds
    by_contra hsome
    obtain ⟨value, hvalue⟩ := Option.ne_none_iff_exists'.mp hsome
    have hmem := OrdMap.get?_eq_some_iff.mp hvalue
    have hfits : factFits key value := by
      have hall := hbounds.2
      simp only [List.any_eq_true, not_exists, not_and, Bool.not_eq_true,
        Bool.not_eq_false'] at hall
      exact hall _ hmem
    exact hkey (trim_of_factFits hfits)

/-- What the registry checks of a proposal changes neither the cell it writes nor, for the
item it adds, its id; an item added is tidy. -/
theorem sanitize_cell {op op' : ItemOp} (h : sanitize op = .ok op') : op'.cell = op.cell := by
  cases op with
  | add item =>
      simp only [sanitize, bind, Except.bind, pure, Except.pure] at h
      split at h
      · cases h
      · split at h
        · cases h
        · cases h
          rfl
  | remove id => cases h; rfl
  | rename id name =>
      simp only [sanitize, bind, Except.bind, pure, Except.pure] at h
      split at h
      · cases h
      · cases h
        rfl
  | setFact id key value =>
      simp only [sanitize] at h
      split at h
      · cases h
      · cases h
        simp only [ItemOp.cell, Text.trim_trim]

/-- The bounds of a proposal that passed its checks. -/
def ItemOp.InBounds : ItemOp → Prop
  | .add item => ∀ key : Text, key.trim ≠ key → item.facts.get? key = none
  | .setFact _ key none => key.trim = key
  | .setFact _ key (some value) => factFits key value = true
  | _ => True

theorem sanitize_inBounds {op op' : ItemOp} (h : sanitize op = .ok op') : op'.InBounds := by
  cases op with
  | add item =>
      simp only [sanitize, bind, Except.bind, pure, Except.pure] at h
      split at h
      · cases h
      · split at h
        · cases h
        · rename_i hfacts
          cases h
          exact fun key hkey => cleanFacts_trimmed hfacts hkey
  | remove id => cases h; trivial
  | rename id name =>
      simp only [sanitize, bind, Except.bind, pure, Except.pure] at h
      split at h
      · cases h
      · cases h
        trivial
  | setFact id key value =>
      simp only [sanitize] at h
      split at h
      · cases h
      · rename_i hfits
        cases h
        generalize (value.map Text.trim).filter (fun v => !v.isEmpty) = kept at hfits
        cases kept with
        | none => exact Text.trim_trim key
        | some v => simpa [ItemOp.InBounds] using hfits

namespace Registry

theorem editIn_ok {items items' : OrdMap ItemId Item} {op : ItemOp}
    (h : editIn items op = .ok items') :
    ∃ item edited, items.get? op.id = some item ∧ (∃ changed, item.apply op = .ok (edited, changed)) ∧
      items' = items.insert op.id edited := by
  simp only [editIn] at h
  split at h
  · cases h
  · rename_i item hitem
    split at h
    · rename_i edited changed hedited
      cases h
      exact ⟨item, edited, hitem, ⟨changed, hedited⟩, rfl⟩
    · cases h

theorem editIn_eq_edit {items items' : OrdMap ItemId Item} {op : ItemOp}
    (h : editIn items op = .ok items') : items' = (ItemDoc.edit items op).1 := by
  obtain ⟨item, edited, hitem, ⟨changed, hedited⟩, rfl⟩ := editIn_ok h
  simp only [ItemDoc.edit, hitem, hedited]

/-- The registry and a client's copy make the same of an op the registry takes. -/
theorem applyIn_eq_applyOp {items items' : OrdMap ItemId Item} {op : ItemOp}
    (h : applyIn items op = .ok items') : items' = (ItemDoc.applyOp items op false).1 := by
  cases op with
  | add item =>
      simp only [applyIn] at h
      split at h
      · cases h
      · cases h
        rfl
  | remove id =>
      simp only [applyIn] at h
      split at h
      · cases h
      · cases h
        rfl
  | rename id name => exact editIn_eq_edit h
  | setFact id key value => exact editIn_eq_edit h

theorem room_of_apply {item edited : Item} {id : ItemId} {key value : Text} {changed : Bool}
    (h : item.apply (.setFact id key (some value)) = .ok (edited, changed)) : item.room key := by
  simp only [Item.apply] at h
  split at h
  · cases h
  · rename_i hbounds
    simp only [Bool.or_eq_true, not_or, Bool.not_eq_true, Bool.not_eq_false'] at hbounds
    exact hbounds.2

theorem taken_of_applyIn {op op' : ItemOp} {items items' : OrdMap ItemId Item}
    (h : sanitize op = .ok op') (hin : applyIn items op' = .ok items') : Taken items op' := by
  have hbounds := sanitize_inBounds h
  cases op' with
  | add item => exact ⟨rfl, hbounds⟩
  | remove id => trivial
  | rename id name => trivial
  | setFact id key value =>
      cases value with
      | none => exact hbounds
      | some value =>
          refine ⟨hbounds, fun item hitem => ?_⟩
          obtain ⟨item', edited, hitem', ⟨changed, hedited⟩, -⟩ := editIn_ok hin
          obtain rfl : item = item' := Option.some.inj (hitem.symm.trans hitem')
          exact room_of_apply hedited

/-- A proposal applied is one more delta of the log, with the cell that was proposed. -/
theorem apply_logs {r r' : Registry} {op : ItemOp} {c : ClientId} {d : Delta}
    (h : r.apply op c = .ok (r', d)) :
    r.Logs [d] ∧ r' = r.advance d ∧ d.op.cell = op.cell := by
  simp only [apply, bind, Except.bind, pure, Except.pure] at h
  split at h
  · cases h
  · rename_i op' hop'
    split at h
    · cases h
    · rename_i items hitems
      cases h
      exact ⟨⟨rfl, taken_of_applyIn hop' hitems, trivial⟩,
        by rw [advance, ← applyIn_eq_applyOp hitems], sanitize_cell hop'⟩

theorem ensureTerminal_logs {r r' : Registry} {session : SessionId} {c : ClientId} {id : ItemId}
    {d : Delta} (h : r.ensureTerminal session c id = some (r', d)) :
    r.Logs [d] ∧ r' = r.advance d := by
  simp only [ensureTerminal] at h
  split at h
  · cases h
  · cases h
    exact ⟨⟨rfl, ⟨rfl, fun _ _ => rfl⟩, trivial⟩, rfl⟩

theorem Logs.append {r : Registry} {before after : List Delta} :
    r.Logs (before ++ after) ↔ r.Logs before ∧ (before.foldl advance r).Logs after := by
  induction before generalizing r with
  | nil => simp [Logs]
  | cons d rest ih => simp [Logs, ih, and_assoc]

theorem Logs.tidy {r : Registry} {ds : List Delta} (hr : Tidy r.items) (h : r.Logs ds) :
    Tidy (ds.foldl advance r).items := by
  induction ds generalizing r with
  | nil => exact hr
  | cons d rest ih => exact ih (hr.advance h.2.1) h.2.2

theorem Logs.version_lt {r : Registry} {ds : List Delta} (h : r.Logs ds) :
    ∀ d ∈ ds, r.version < d.version := by
  induction ds generalizing r with
  | nil => exact fun d hd => absurd hd List.not_mem_nil
  | cons d rest ih =>
      have hd : r.version < d.version := h.1 ▸ Nat.lt_succ_self _
      rintro d' (_ | ⟨_, hmem⟩)
      · exact hd
      · exact hd.trans (ih h.2.2 d' hmem)

theorem removeSession_logs {r r' : Registry} {session : SessionId} {c : ClientId}
    {ds : List Delta} (h : r.removeSession session c = (r', ds)) :
    r.Logs ds ∧ r' = ds.foldl advance r := by
  -- Over the ids removed so far: their deltas are logged and lead where the registry is.
  have hgo : ∀ (ids : List ItemId) (acc : Registry × List Delta),
      r.Logs acc.2 ∧ acc.1 = acc.2.foldl advance r →
      ∀ out, ids.foldl (fun (rd : Registry × List Delta) id =>
          ((⟨rd.1.version + 1, rd.1.items.erase id⟩ : Registry),
            rd.2 ++ [⟨rd.1.version + 1, c, .remove id⟩])) acc = out →
        r.Logs out.2 ∧ out.1 = out.2.foldl advance r := by
    intro ids
    induction ids with
    | nil =>
        rintro acc hacc out rfl
        exact hacc
    | cons id rest ih =>
        intro acc hacc out hout
        refine ih _ ⟨?_, ?_⟩ out hout
        · rw [Logs.append, ← hacc.2]
          exact ⟨hacc.1, rfl, trivial, trivial⟩
        · rw [List.foldl_append, ← hacc.2]
          rfl
  exact hgo _ (r, []) ⟨trivial, rfl⟩ _ h

end Registry

namespace Log

/-- The registry after so many deltas. -/
def at' (log : Log) (n : Nat) : Registry := (log.deltas.take n).foldl Registry.advance log.base

def length (log : Log) : Nat := log.deltas.length

def index (log : Log) (version : Nat) : Nat := version - log.base.version

/-- A log that starts tidy, each delta one the registry took then. -/
structure Sound (log : Log) : Prop where
  tidy : Tidy log.base.items
  logs : log.base.Logs log.deltas

def extend (log : Log) (ds : List Delta) : Log := { log with deltas := log.deltas ++ ds }

variable {log : Log} {n : Nat} {d : Delta}

theorem at'_succ (h : log.deltas[n]? = some d) : log.at' (n + 1) = (log.at' n).advance d := by
  rw [at', List.take_add_one, h, Option.toList_some, List.foldl_append]
  rfl

theorem at'_extend (ds : List Delta) (hn : n ≤ log.length) : (log.extend ds).at' n = log.at' n := by
  simp only [at', extend]
  rw [List.take_append_of_le_length hn]

theorem at'_length : log.at' log.length = log.deltas.foldl Registry.advance log.base := by
  rw [at', length, List.take_length]

namespace Sound

theorem split (h : log.Sound) (n : Nat) :
    log.base.Logs (log.deltas.take n) ∧ (log.at' n).Logs (log.deltas.drop n) := by
  have hlogs := h.logs
  rw [← List.take_append_drop n log.deltas, Registry.Logs.append] at hlogs
  exact hlogs

theorem next (h : log.Sound) (hd : log.deltas[n]? = some d) :
    d.version = (log.at' n).version + 1 ∧ Taken (log.at' n).items d.op := by
  have hafter := (h.split n).2
  rw [List.drop_eq_getElem?_toList_append, hd] at hafter
  exact ⟨hafter.1, hafter.2.1⟩

theorem tidy_at (h : log.Sound) : ∀ n, Tidy (log.at' n).items
  | 0 => h.tidy
  | n + 1 => by
      cases hd : log.deltas[n]? with
      | none =>
          rw [at', List.take_add_one, hd, Option.toList_none, List.append_nil]
          exact h.tidy_at n
      | some d =>
          rw [at'_succ hd]
          exact (h.tidy_at n).advance (h.next hd).2

theorem version_at (h : log.Sound) (hn : n ≤ log.length) :
    (log.at' n).version = log.base.version + n := by
  induction n with
  | zero => rfl
  | succ n ih =>
      have hd : log.deltas[n]? = some log.deltas[n] := List.getElem?_eq_getElem hn
      rw [at'_succ hd]
      calc log.deltas[n].version = (log.at' n).version + 1 := (h.next hd).1
        _ = log.base.version + (n + 1) := by rw [ih (Nat.le_of_succ_le hn), Nat.add_assoc]

theorem version_le (h : log.Sound) (d : Delta) (hd : d ∈ log.deltas) :
    d.version ≤ log.base.version + log.length := by
  obtain ⟨n, hn, rfl⟩ := List.getElem_of_mem hd
  rw [(h.next (List.getElem?_eq_getElem hn)).1, h.version_at (Nat.le_of_lt hn)]
  exact Nat.add_le_add_left hn _

theorem extend (h : log.Sound) {ds : List Delta} (hds : (log.at' log.length).Logs ds) :
    (log.extend ds).Sound := by
  rw [at'_length] at hds
  exact ⟨h.tidy, Registry.Logs.append.mpr ⟨h.logs, hds⟩⟩

end Sound

end Log

end Slopty.Items
