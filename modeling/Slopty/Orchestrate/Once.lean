import Slopty.Orchestrate.Idempotency

/-!
No interleaving of calls, effects and time starts a keyed verb twice while its slot lives. Every
slot carries a run of its own key, and a run that goes on has its slot; what a claim drops was
lapsed or answered.
-/

namespace Slopty.Orchestrate

open Slopty.Lib

namespace Ledger

variable {V D α : Type}

/-- What ties the slots to the runs they carry. -/
structure Inv (digest : V → Except String D) (s : Ledger V D α) : Prop where
  room : s.slots.size ≤ s.capacity
  slot : ∀ key slot, s.slots.get? key = some slot → ∃ run, s.runs[slot.run]? = some run ∧
    run.key = key ∧ digest run.verb = .ok slot.digest ∧
      (slot.answered = none ∧ (run.phase = .running ∨ run.phase = .dead) ∨
        slot.answered ≠ none ∧ ∃ outcome, run.phase = .finished outcome ∨ run.phase = .sent outcome)
  running : ∀ r run, s.runs[r]? = some run → run.phase = .running →
    ∃ slot, s.slots.get? run.key = some slot ∧ slot.run = r
  told : ∀ c ∈ s.callers, ∀ r, c.claim.bind Claim.awaits = some r →
    ∃ run, s.runs[r]? = some run ∧ run.key = c.key ∧ run.verb = c.verb ∧
      ∀ outcome, c.answer = some outcome →
        run.phase = .sent outcome ∨ run.phase = .dead ∧ outcome = lost

theorem lapsed_sub {s : Ledger V D α} {slot : Slot D} {now : Nat} (h : s.lapsed slot now = false)
    (ago : Nat) : s.lapsed slot (now - ago) = false := by
  rw [lapsed] at h ⊢
  cases hanswered : slot.answered with
  | none =>
      rw [hanswered] at h
      exact h
  | some time =>
      rw [hanswered] at h
      simp only [decide_eq_false_iff_not] at h ⊢
      omega

theorem lapsed_of_running {s : Ledger V D α} {slot : Slot D} (hr : s.isRunning slot.run)
    (hnone : slot.answered = none) (now : Nat) : s.lapsed slot now = false := by
  rw [isRunning] at hr
  simp only [lapsed, hnone, closed, hr]

theorem oldest_eq_some {rank : IdempotencyKey → Nat} {slots : OrdMap IdempotencyKey (Slot D)}
    {key : IdempotencyKey} (h : oldest rank slots = some key) :
    ∃ slot, slots.get? key = some slot ∧ slot.answered ≠ none := by
  rw [oldest, Option.map_eq_some_iff] at h
  obtain ⟨⟨key', slot⟩, hmin, rfl⟩ := h
  obtain ⟨hmem, hanswered⟩ := List.mem_filter.mp (List.argmin_mem hmin)
  exact ⟨slot, OrdMap.get?_eq_some_iff.mpr hmem, Option.isSome_iff_ne_none.mp hanswered⟩

theorem oldest_eq_none {rank : IdempotencyKey → Nat} {slots : OrdMap IdempotencyKey (Slot D)}
    (h : oldest rank slots = none) {key : IdempotencyKey} {slot : Slot D}
    (hget : slots.get? key = some slot) : slot.answered = none := by
  rw [oldest, Option.map_eq_none_iff, List.argmin_eq_none] at h
  by_contra hne
  have hmem : (key, slot) ∈ slots.entries.filter fun e => e.2.answered.isSome :=
    List.mem_filter.mpr ⟨OrdMap.get?_eq_some_iff.mp hget, Option.isSome_iff_ne_none.mpr hne⟩
  rw [h] at hmem
  cases hmem

/-- Room is made by dropping what has lapsed, else one that was answered. -/
theorem makeRoom_spec (s : Ledger V D α) (now : Nat) (rank : IdempotencyKey → Nat) :
    (∀ key slot, (s.makeRoom now rank).1.get? key = some slot → s.slots.get? key = some slot) ∧
      (∀ key slot, s.slots.get? key = some slot → s.lapsed slot now = false →
        (s.makeRoom now rank).1.get? key = some slot ∨ slot.answered ≠ none) ∧
      ((s.makeRoom now rank).2 = true → (s.makeRoom now rank).1.size < s.slots.size) ∧
      ((s.makeRoom now rank).2 = false → (s.makeRoom now rank).1.size ≤ s.slots.size ∧
        ∀ key slot, s.slots.get? key = some slot →
          s.lapsed slot now = false ∧ slot.answered = none) := by
  have hkept : ∀ key slot,
      (s.slots.retain fun _ slot => !s.lapsed slot now).get? key = some slot ↔
        s.slots.get? key = some slot ∧ s.lapsed slot now = false := by
    intro key slot
    rw [OrdMap.get?_retain, Option.filter_eq_some_iff]
    simp
  have hle := s.slots.size_retain_le fun _ slot => !s.lapsed slot now
  rw [makeRoom]
  have hlt : ∀ key slot, s.slots.get? key = some slot → s.lapsed slot now = true →
      (s.slots.retain fun _ slot => !s.lapsed slot now).size < s.slots.size := by
    intro key slot hget hlapsed
    exact OrdMap.size_retain_lt hget (by rw [hlapsed]; rfl)
  generalize (s.slots.retain fun _ slot => !s.lapsed slot now) = kept at hkept hle hlt
  split
  · rename_i hsize
    refine ⟨fun key slot h => ((hkept key slot).mp h).1,
      fun key slot h hlapsed => Or.inl ((hkept key slot).mpr ⟨h, hlapsed⟩), fun _ => hsize, ?_⟩
    intro hno
    cases hno
  · rename_i hsize
    cases hold : oldest rank kept with
    | some gone =>
        obtain ⟨slot₀, hget₀, hanswered₀⟩ := oldest_eq_some hold
        have herase : ∀ key slot, (kept.erase gone).get? key = some slot ↔
            kept.get? key = some slot ∧ key ≠ gone := by
          intro key slot
          rw [OrdMap.get?_erase]
          split
          · rename_i heq
            simp [heq]
          · rename_i hne
            simp [Ne.symm hne, eq_comm]
        refine ⟨?_, ?_, fun _ => (OrdMap.size_erase_lt hget₀).trans_le hle, fun hno => (nomatch hno)⟩
        · intro key slot h
          exact ((hkept key slot).mp ((herase key slot).mp h).1).1
        · intro key slot h hlapsed
          have hin := (hkept key slot).mpr ⟨h, hlapsed⟩
          by_cases heq : key = gone
          · right
            rw [heq, hget₀] at hin
            rw [← Option.some.inj hin]
            exact hanswered₀
          · exact Or.inl ((herase key slot).mpr ⟨hin, heq⟩)
    | none =>
        refine ⟨fun key slot h => ((hkept key slot).mp h).1,
          fun key slot h hlapsed => Or.inl ((hkept key slot).mpr ⟨h, hlapsed⟩),
          fun hno => (nomatch hno), fun _ => ⟨hle, ?_⟩⟩
        intro key slot h
        have hlapsed : s.lapsed slot now = false := by
          rw [← Bool.not_eq_true]
          exact fun hlapsed => hsize (hlt key slot h hlapsed)
        exact ⟨hlapsed, oldest_eq_none hold ((hkept key slot).mpr ⟨h, hlapsed⟩)⟩

/-- What a claim finds: a slot that has not lapsed, a table that is full of running verbs, or room
for its own slot. -/
theorem claim_cases [DecidableEq D] (s : Ledger V D α) (hroom : s.slots.size ≤ s.capacity)
    (key : IdempotencyKey) (d : D) (verb : V) (now : Nat)
    (rank : IdempotencyKey → Nat) :
    (∃ slot, s.slots.get? key = some slot ∧ s.lapsed slot now = false ∧
      s.claim key d verb now rank = (s, if slot.digest = d then .wait slot.run else .reused)) ∨
    (∀ slot, s.slots.get? key = some slot → s.lapsed slot now = true) ∧
      ∃ slots, (∀ key slot, slots.get? key = some slot → s.slots.get? key = some slot) ∧
        (∀ key slot, s.slots.get? key = some slot → s.lapsed slot now = false →
          slots.get? key = some slot ∨ slot.answered ≠ none ∧ s.capacity ≤ s.slots.size) ∧
        (slots.size ≤ s.capacity ∧ s.claim key d verb now rank = ({ s with slots := slots }, .full) ∧
            (∀ key slot, s.slots.get? key = some slot →
              s.lapsed slot now = false ∧ slot.answered = none) ∨
          slots.size < s.capacity ∧ s.claim key d verb now rank = s.start slots key d verb) := by
  cases hfind : (s.slots.get? key).filter fun slot => !s.lapsed slot now with
  | some slot =>
      left
      obtain ⟨hget, hlapsed⟩ := Option.filter_eq_some_iff.mp hfind
      rw [Bool.not_eq_true'] at hlapsed
      exact ⟨slot, hget, hlapsed, by simp only [claim, hfind]⟩
  | none =>
      right
      constructor
      · intro slot hget
        rw [hget, Option.filter_eq_none_iff] at hfind
        simpa using hfind slot rfl
      · simp only [claim, hfind]
        split
        · rename_i hfull
          obtain ⟨hsub, hkept, hmade, hnone⟩ := s.makeRoom_spec now rank
          have hkept' : ∀ key slot, s.slots.get? key = some slot → s.lapsed slot now = false →
              (s.makeRoom now rank).1.get? key = some slot ∨
                slot.answered ≠ none ∧ s.capacity ≤ s.slots.size :=
            fun key slot hget hlapsed => (hkept key slot hget hlapsed).imp id fun h => ⟨h, hfull⟩
          generalize s.makeRoom now rank = made at hsub hkept' hmade hnone
          obtain ⟨slots, ok⟩ := made
          refine ⟨slots, hsub, hkept', ?_⟩
          cases ok with
          | false => exact Or.inl ⟨(hnone rfl).1.trans hroom, rfl, (hnone rfl).2⟩
          | true => exact Or.inr ⟨(hmade rfl).trans_le hroom, rfl⟩
        · rename_i hsize
          exact ⟨s.slots, fun _ _ h => h, fun _ _ h _ => Or.inl h, Or.inr ⟨not_le.mp hsize, rfl⟩⟩

section Steps

variable {digest : V → Except String D} {s : Ledger V D α}

theorem getElem?_setPhase (s : Ledger V D α) (r r' : Nat) (phase : Phase α) :
    (s.setPhase r phase).runs[r']? =
      (s.runs[r']?).map fun run => if r = r' then { run with phase := phase } else run := by
  rw [setPhase, List.getElem?_modify]
  split <;> rfl

theorem Inv.told_setPhase (hs : s.Inv digest) {r : Nat} {run : Started V α}
    (hrun : s.runs[r]? = some run) (hnot : (∀ o, run.phase ≠ .sent o) ∧ run.phase ≠ .dead)
    (phase : Phase α) :
    ∀ c ∈ s.callers, ∀ r', c.claim.bind Claim.awaits = some r' →
      ∃ run', (s.setPhase r phase).runs[r']? = some run' ∧ run'.key = c.key ∧ run'.verb = c.verb ∧
        ∀ outcome, c.answer = some outcome →
          run'.phase = .sent outcome ∨ run'.phase = .dead ∧ outcome = lost := by
  intro c hc r' hawaits
  obtain ⟨run', hrun', hkey, hverb, htold⟩ := hs.told c hc r' hawaits
  rw [getElem?_setPhase, hrun']
  by_cases heq : r = r'
  · subst heq
    obtain rfl := Option.some.inj (hrun.symm.trans hrun')
    refine ⟨_, rfl, by simpa using hkey, by simpa using hverb, ?_⟩
    intro outcome hanswer
    rcases htold outcome hanswer with hsent | ⟨hdead, -⟩
    · exact absurd hsent (hnot.1 outcome)
    · exact absurd hdead hnot.2
  · refine ⟨run', by simp [heq], hkey, hverb, htold⟩

theorem Inv.slot_key (hs : s.Inv digest) {key : IdempotencyKey} {slot : Slot D} {run : Started V α}
    (hget : s.slots.get? key = some slot) (hrun : s.runs[slot.run]? = some run) : run.key = key := by
  obtain ⟨run', hrun', hkey, -⟩ := hs.slot key slot hget
  rw [hrun] at hrun'
  rw [Option.some.inj hrun']
  exact hkey

/-- The task of a run moves on, with the answer noted in its slot when the effect is over. -/
theorem Inv.setPhase (hs : s.Inv digest) {r : Nat} {run : Started V α} (hrun : s.runs[r]? = some run)
    (hnot : (∀ o, run.phase ≠ .sent o) ∧ run.phase ≠ .dead) {phase : Phase α}
    (hphase : phase ≠ .running) (slots : OrdMap IdempotencyKey (Slot D))
    (hsize : slots.size = s.slots.size)
    (hother : ∀ key, key ≠ run.key → slots.get? key = s.slots.get? key)
    (hown : ∀ slot, slots.get? run.key = some slot → ∃ slot₀, s.slots.get? run.key = some slot₀ ∧
      slot.run = slot₀.run ∧ slot.digest = slot₀.digest ∧ (slot₀.run ≠ r → slot = slot₀) ∧
      (slot₀.run = r → slot.answered = none ∧ phase = .dead ∨
        slot.answered ≠ none ∧ ∃ o, phase = .finished o ∨ phase = .sent o))
    (hkeep : ∀ slot₀, s.slots.get? run.key = some slot₀ →
      ∃ slot, slots.get? run.key = some slot ∧ slot.run = slot₀.run) :
    ({ s.setPhase r phase with slots := slots } : Ledger V D α).Inv digest := by
  have hsame : ∀ r' run', r ≠ r' → s.runs[r']? = some run' →
      (s.setPhase r phase).runs[r']? = some run' := by
    intro r' run' hne hrun'
    rw [getElem?_setPhase, hrun', Option.map_some, if_neg hne]
  have hmoved : (s.setPhase r phase).runs[r]? = some { run with phase := phase } := by
    rw [getElem?_setPhase, hrun, Option.map_some, if_pos rfl]
  refine ⟨hsize ▸ hs.room, ?_, ?_, hs.told_setPhase hrun hnot phase⟩
  · intro key slot hget
    by_cases hkey : key = run.key
    · subst hkey
      obtain ⟨slot₀, hget₀, hr₀, hd₀, hne, hmine⟩ := hown slot hget
      obtain ⟨run₀, hrun₀, hkey₀, hdigest₀, hrest₀⟩ := hs.slot run.key slot₀ hget₀
      by_cases hr : slot₀.run = r
      · rw [hr, hrun] at hrun₀
        obtain rfl := Option.some.inj hrun₀
        refine ⟨{ run with phase := phase }, ?_, rfl, ?_, ?_⟩
        · show (s.setPhase r phase).runs[slot.run]? = _
          rw [hr₀, hr]
          exact hmoved
        · rw [hd₀]
          exact hdigest₀
        · exact (hmine hr).imp (fun h => ⟨h.1, Or.inr h.2⟩) id
      · rw [hne hr]
        exact ⟨run₀, hsame _ _ (Ne.symm hr) hrun₀, hkey₀, hdigest₀, hrest₀⟩
    · have hget' : slots.get? key = some slot := hget
      rw [hother key hkey] at hget'
      obtain ⟨run₀, hrun₀, hkey₀, hdigest₀, hrest₀⟩ := hs.slot key slot hget'
      have hne : r ≠ slot.run := by
        rintro rfl
        exact hkey (hs.slot_key hget' hrun).symm
      exact ⟨run₀, hsame _ _ hne hrun₀, hkey₀, hdigest₀, hrest₀⟩
  · intro r' run' hrun' hrunning
    have hget : (s.setPhase r phase).runs[r']? = some run' := hrun'
    have hne : r ≠ r' := by
      rintro rfl
      rw [hmoved] at hget
      rw [← Option.some.inj hget] at hrunning
      exact hphase hrunning
    have hbefore : s.runs[r']? = some run' := by
      rw [getElem?_setPhase, Option.map_eq_some_iff] at hget
      obtain ⟨run₀, hrun₀, heq⟩ := hget
      rw [if_neg hne] at heq
      rw [hrun₀, heq]
    obtain ⟨slot, hslot, hr⟩ := hs.running r' run' hbefore hrunning
    by_cases hkey : run'.key = run.key
    · rw [hkey] at hslot
      obtain ⟨slot', hslot', hr'⟩ := hkeep slot hslot
      exact ⟨slot', by rw [hkey]; exact hslot', hr'.trans hr⟩
    · exact ⟨slot, (hother _ hkey).trans hslot, hr⟩

theorem Inv.finish (hs : s.Inv digest) {r : Nat} {key : IdempotencyKey} {verb : V}
    (hrun : s.runs[r]? = some ⟨key, verb, .running⟩) (outcome : Outcome α) :
    ((s.answered key).setPhase r (.finished outcome)).Inv digest := by
  obtain ⟨slot, hget, hr⟩ := hs.running r _ hrun rfl
  have hanswered : (s.answered key).setPhase r (.finished outcome) =
      { s.setPhase r (.finished outcome) with
        slots := s.slots.insert key { slot with answered := some s.now } } := by
    rw [answered, show s.slots.get? key = some slot from hget]
    rfl
  have hgot : (s.slots.insert key { slot with answered := some s.now }).get? key =
      some { slot with answered := some s.now } := OrdMap.get?_insert_self _ _ _
  rw [hanswered]
  refine hs.setPhase hrun ⟨by simp, by simp⟩ (by simp) _ ?_ ?_ ?_ ?_
  · rw [OrdMap.size_insert, show s.slots.get? key = some slot from hget]
    rfl
  · intro key' hne
    rw [OrdMap.get?_insert, if_neg (Ne.symm hne)]
  · intro slot' hget'
    rw [hgot] at hget'
    obtain rfl := Option.some.inj hget'
    exact ⟨slot, hget, rfl, rfl, fun hne => absurd hr hne, fun _ => Or.inr ⟨by simp, outcome, Or.inl rfl⟩⟩
  · intro slot₀ hget₀
    obtain rfl := Option.some.inj (hget.symm.trans hget₀)
    exact ⟨_, hgot, rfl⟩

theorem Inv.send (hs : s.Inv digest) {r : Nat} {key : IdempotencyKey} {verb : V}
    {outcome : Outcome α} (hrun : s.runs[r]? = some ⟨key, verb, .finished outcome⟩) :
    (s.setPhase r (.sent outcome)).Inv digest := by
  refine hs.setPhase hrun ⟨by simp, by simp⟩ (by simp) s.slots rfl (fun _ _ => rfl) ?_
    fun slot hget => ⟨slot, hget, rfl⟩
  intro slot hget
  refine ⟨slot, hget, rfl, rfl, fun _ => rfl, fun hr => Or.inr ⟨?_, outcome, Or.inr rfl⟩⟩
  obtain ⟨run, hrun', -, -, ⟨-, hphase⟩ | ⟨hanswered, -⟩⟩ := hs.slot key slot hget
  · rw [hr, hrun] at hrun'
    rw [← Option.some.inj hrun'] at hphase
    rcases hphase with hphase | hphase <;> cases hphase
  · exact hanswered

theorem Inv.die (hs : s.Inv digest) {r : Nat} {key : IdempotencyKey} {verb : V}
    (hrun : s.runs[r]? = some ⟨key, verb, .running⟩) : (s.setPhase r .dead).Inv digest := by
  refine hs.setPhase hrun ⟨by simp, by simp⟩ (by simp) s.slots rfl (fun _ _ => rfl) ?_
    fun slot hget => ⟨slot, hget, rfl⟩
  intro slot hget
  refine ⟨slot, hget, rfl, rfl, fun _ => rfl, fun hr => Or.inl ⟨?_, rfl⟩⟩
  obtain ⟨run, hrun', -, -, ⟨hanswered, -⟩ | ⟨-, outcome, hphase⟩⟩ := hs.slot key slot hget
  · exact hanswered
  · rw [hr, hrun] at hrun'
    rw [← Option.some.inj hrun'] at hphase
    rcases hphase with hphase | hphase <;> cases hphase

theorem Inv.wake (hs : s.Inv digest) (i : Nat) :
    ({ s with callers := s.callers.modify i s.wakeCaller } : Ledger V D α).Inv digest := by
  refine ⟨hs.room, hs.slot, hs.running, fun c hc r hawaits => ?_⟩
  obtain ⟨j, hj⟩ := List.mem_iff_getElem?.mp hc
  rw [List.getElem?_modify, Option.map_eq_map, Option.map_eq_some_iff] at hj
  obtain ⟨c₀, hc₀, heq⟩ := hj
  have hmem := List.mem_of_getElem? hc₀
  by_cases hij : i = j
  · rw [if_pos hij] at heq
    subst heq
    rw [wakeCaller] at hawaits ⊢
    split at hawaits
    · rename_i r' hnone hawaits'
      obtain ⟨run, hrun, hkey, hverb, -⟩ := hs.told c₀ hmem r' hawaits'
      have hr : r' = r := Option.some.inj (hawaits'.symm.trans hawaits)
      subst hr
      refine ⟨run, hrun, hkey, hverb, fun outcome hanswer => ?_⟩
      have hsent : s.answer r' = some outcome := hanswer
      rw [answer, hrun, Option.map_some] at hsent
      cases hphase : run.phase with
      | running =>
          rw [hphase] at hsent
          cases hsent
      | finished o =>
          rw [hphase] at hsent
          cases hsent
      | sent o =>
          rw [hphase] at hsent
          exact Or.inl (congrArg Phase.sent (Option.some.inj hsent))
      | dead =>
          rw [hphase] at hsent
          exact Or.inr ⟨rfl, (Option.some.inj hsent).symm⟩
    · exact hs.told c₀ hmem r hawaits
  · rw [if_neg hij] at heq
    rw [← heq] at hawaits ⊢
    exact hs.told c₀ hmem r hawaits

/-- A slot that carries a running verb has no answer and has not lapsed. -/
theorem Inv.running_slot (hs : s.Inv digest) {r : Nat} {run : Started V α}
    (hrun : s.runs[r]? = some run) (hrunning : run.phase = .running) (now : Nat) :
    ∃ slot, s.slots.get? run.key = some slot ∧ slot.run = r ∧ slot.answered = none ∧
      s.lapsed slot now = false := by
  obtain ⟨slot, hget, rfl⟩ := hs.running r run hrun hrunning
  obtain ⟨run', hrun', -, -, ⟨hnone, -⟩ | ⟨-, outcome, hphase⟩⟩ := hs.slot _ slot hget
  · refine ⟨slot, hget, rfl, hnone, lapsed_of_running ?_ hnone now⟩
    rw [isRunning, hrun, Option.map_some, hrunning]
  · rw [hrun] at hrun'
    rw [← Option.some.inj hrun', hrunning] at hphase
    rcases hphase with hphase | hphase <;> cases hphase

theorem Inv.caller (hs : s.Inv digest) {c : Caller V α}
    (hc : ∀ r, c.claim.bind Claim.awaits = some r → ∃ run, s.runs[r]? = some run ∧
      run.key = c.key ∧ run.verb = c.verb ∧ c.answer = none) :
    ({ s with callers := s.callers ++ [c] } : Ledger V D α).Inv digest := by
  refine ⟨hs.room, hs.slot, hs.running, fun c' hc' r hawaits => ?_⟩
  rcases List.mem_append.mp hc' with hmem | hmem
  · exact hs.told c' hmem r hawaits
  · rw [List.mem_singleton.mp hmem] at hawaits ⊢
    obtain ⟨run, hrun, hkey, hverb, hnone⟩ := hc r hawaits
    refine ⟨run, hrun, hkey, hverb, fun outcome hanswer => ?_⟩
    rw [hnone] at hanswer
    cases hanswer

theorem Inv.slots (hs : s.Inv digest) {slots : OrdMap IdempotencyKey (Slot D)} {now : Nat}
    (hroom : slots.size ≤ s.capacity)
    (hsub : ∀ key slot, slots.get? key = some slot → s.slots.get? key = some slot)
    (hkept : ∀ key slot, s.slots.get? key = some slot → s.lapsed slot now = false →
      slots.get? key = some slot ∨ slot.answered ≠ none ∧ s.capacity ≤ s.slots.size) :
    ({ s with slots := slots } : Ledger V D α).Inv digest := by
  refine ⟨hroom, fun key slot hget => hs.slot key slot (hsub key slot hget), ?_, hs.told⟩
  intro r run hrun hrunning
  obtain ⟨slot, hget, hr, hnone, hlapsed⟩ := hs.running_slot hrun hrunning now
  rcases hkept _ slot hget hlapsed with hin | ⟨hne, -⟩
  · exact ⟨slot, hin, hr⟩
  · exact absurd hnone hne

theorem Inv.start (hs : s.Inv digest) {slots : OrdMap IdempotencyKey (Slot D)} {now : Nat}
    {key : IdempotencyKey} {d : D} {verb : V} (hdigest : digest verb = .ok d)
    (hfree : ∀ slot, s.slots.get? key = some slot → s.lapsed slot now = true)
    (hroom : slots.size < s.capacity)
    (hsub : ∀ key slot, slots.get? key = some slot → s.slots.get? key = some slot)
    (hkept : ∀ key slot, s.slots.get? key = some slot → s.lapsed slot now = false →
      slots.get? key = some slot ∨ slot.answered ≠ none ∧ s.capacity ≤ s.slots.size) :
    (s.start slots key d verb).1.Inv digest := by
  have hold := hs.slots hroom.le hsub hkept
  have hlast : (s.runs ++ [(⟨key, verb, .running⟩ : Started V α)])[s.runs.length]? =
      some ⟨key, verb, .running⟩ := by
    rw [List.getElem?_append_right (le_refl _), Nat.sub_self]
    rfl
  have hbefore : ∀ {r : Nat} {run}, s.runs[r]? = some run →
      (s.runs ++ [(⟨key, verb, .running⟩ : Started V α)])[r]? = some run := by
    intro r run hrun
    rw [List.getElem?_append_left (List.getElem?_eq_some_iff.mp hrun).1]
    exact hrun
  refine ⟨?_, ?_, ?_, ?_⟩
  · show (slots.insert key _).size ≤ s.capacity
    rw [OrdMap.size_insert]
    split <;> omega
  · intro key' slot hget
    have hget' : (slots.insert key _).get? key' = some slot := hget
    rw [OrdMap.get?_insert] at hget'
    split at hget'
    · rename_i heq
      obtain rfl := Option.some.inj hget'
      exact ⟨⟨key, verb, .running⟩, hlast, heq, hdigest, Or.inl ⟨rfl, Or.inl rfl⟩⟩
    · obtain ⟨run, hrun, hrest⟩ := hold.slot key' slot hget'
      exact ⟨run, hbefore hrun, hrest⟩
  · intro r run hrun hrunning
    have hrun' : (s.runs ++ [(⟨key, verb, .running⟩ : Started V α)])[r]? = some run := hrun
    show ∃ slot, (slots.insert key _).get? run.key = some slot ∧ slot.run = r
    rw [List.getElem?_append] at hrun'
    split at hrun'
    · obtain ⟨slot, hget, hr⟩ := hold.running r run hrun' hrunning
      have hne : key ≠ run.key := by
        -- the slot of a running verb has not lapsed
        rintro rfl
        obtain ⟨slot', hget', -, -, hlapsed⟩ := hs.running_slot hrun' hrunning now
        rw [hfree slot' hget'] at hlapsed
        cases hlapsed
      exact ⟨slot, by rw [OrdMap.get?_insert, if_neg hne]; exact hget, hr⟩
    · rename_i hge
      have hr : r = s.runs.length := by
        have hlt := (List.getElem?_eq_some_iff.mp hrun').1
        rw [List.length_singleton] at hlt
        omega
      subst hr
      rw [Nat.sub_self] at hrun'
      obtain rfl := Option.some.inj hrun'
      exact ⟨_, OrdMap.get?_insert_self _ _ _, rfl⟩
  · intro c hc r hawaits
    obtain ⟨run, hrun, hrest⟩ := hs.told c hc r hawaits
    exact ⟨run, hbefore hrun, hrest⟩

theorem Inv.call [DecidableEq D] (hs : s.Inv digest)
    (hinj : ∀ v v' d, digest v = .ok d → digest v' = .ok d → v = v') (key : IdempotencyKey)
    (verb : V) (ago : Nat) (rank : IdempotencyKey → Nat) :
    (s.call digest key verb ago rank).Inv digest := by
  rw [Ledger.call]
  cases hdigest : digest verb with
  | error e => exact hs.caller fun r hawaits => nomatch hawaits
  | ok d =>
      dsimp only
      rcases s.claim_cases hs.room key d verb (s.now - ago) rank with
        ⟨slot, hget, -, hclaim⟩ | ⟨hfree, slots, hsub, hkept, ⟨hroom, hclaim, -⟩ | ⟨hroom, hclaim⟩⟩
      · rw [hclaim]
        split
        · -- the same arguments, since the digests are the same
          rename_i hd
          apply hs.caller
          intro r hawaits
          obtain rfl : slot.run = r := Option.some.inj hawaits
          obtain ⟨run, hrun, hkey, hdigest', -⟩ := hs.slot key slot hget
          exact ⟨run, hrun, hkey, hinj _ _ d (hd ▸ hdigest') hdigest, rfl⟩
        · exact hs.caller fun r hawaits => nomatch hawaits
      · rw [hclaim]
        exact (hs.slots hroom hsub hkept).caller fun r hawaits => nomatch hawaits
      · rw [hclaim]
        apply (hs.start hdigest hfree hroom hsub hkept).caller
        intro r hawaits
        obtain rfl : s.runs.length = r := Option.some.inj hawaits
        refine ⟨⟨key, verb, .running⟩, ?_, rfl, rfl, rfl⟩
        show (s.runs ++ [(⟨key, verb, .running⟩ : Started V α)])[s.runs.length]? = _
        rw [List.getElem?_append_right (le_refl _), Nat.sub_self]
        rfl

theorem Inv.step [DecidableEq D] (hs : s.Inv digest)
    (hinj : ∀ v v' d, digest v = .ok d → digest v' = .ok d → v = v') (st : LedgerStep V α) :
    (s.step digest st).Inv digest := by
  cases st with
  | call key verb ago rank => exact hs.call hinj key verb ago rank
  | finish r outcome =>
      rw [Ledger.step]
      split
      · rename_i key verb hrun
        exact hs.finish hrun outcome
      · exact hs
  | send r =>
      rw [Ledger.step]
      split
      · rename_i key verb outcome hrun
        exact hs.send hrun
      · exact hs
  | die r =>
      rw [Ledger.step]
      split
      · rename_i key verb hrun
        exact hs.die hrun
      · exact hs
  | wake c => exact hs.wake c
  | advance time => exact ⟨hs.room, hs.slot, hs.running, hs.told⟩

theorem starts_setPhase (s : Ledger V D α) (r : Nat) (phase : Phase α) (key : IdempotencyKey) :
    (s.setPhase r phase).starts key = s.starts key := by
  have hkeys : (s.setPhase r phase).runs.map Started.key = s.runs.map Started.key := by
    apply List.ext_getElem?
    intro i
    rw [List.getElem?_map, List.getElem?_map, getElem?_setPhase, Option.map_map]
    congr 1
    funext run
    show Started.key (if r = i then _ else run) = run.key
    split <;> rfl
  have hcount : ∀ l : List (Started V α),
      l.countP (·.key = key) = (l.map Started.key).countP (· = key) := by
    intro l
    rw [List.countP_map]
    rfl
  rw [starts, starts, hcount, hcount, hkeys]

theorem Inv.claim_of_lives [DecidableEq D] (hs : s.Inv digest) {key : IdempotencyKey} {r : Nat}
    (hlives : s.Lives key r) (d : D) (verb : V) (ago : Nat) (rank : IdempotencyKey → Nat) :
    ∃ slot, s.slots.get? key = some slot ∧ slot.run = r ∧
      s.claim key d verb (s.now - ago) rank =
        (s, if slot.digest = d then .wait slot.run else .reused) := by
  obtain ⟨slot, hget, hr, hlapsed⟩ := hlives
  rcases s.claim_cases hs.room key d verb (s.now - ago) rank with ⟨slot', hget', -, hclaim⟩ | ⟨hfree, -⟩
  · obtain rfl := Option.some.inj (hget.symm.trans hget')
    exact ⟨slot, hget, hr, hclaim⟩
  · have hlapsed' := lapsed_sub hlapsed ago
    rw [hfree slot hget] at hlapsed'
    cases hlapsed'

/-- A step starts the effect of a key only when its slot does not live. -/
theorem Inv.starts_step [DecidableEq D] (hs : s.Inv digest) {key : IdempotencyKey} {r : Nat}
    (hlives : s.Lives key r) (st : LedgerStep V α) :
    (s.step digest st).starts key = s.starts key := by
  cases st with
  | call key' verb ago rank =>
      rw [Ledger.step, Ledger.call]
      cases hdigest : digest verb with
      | error e => rfl
      | ok d =>
          by_cases hkey : key' = key
          · subst hkey
            obtain ⟨slot, -, -, hclaim⟩ := hs.claim_of_lives hlives d verb ago rank
            dsimp only
            rw [hclaim]
            rfl
          · dsimp only
            rcases s.claim_cases hs.room key' d verb (s.now - ago) rank with
              ⟨slot, -, -, hclaim⟩ | ⟨-, slots, -, -, ⟨-, hclaim, -⟩ | ⟨-, hclaim⟩⟩
            · rw [hclaim]
              rfl
            · rw [hclaim]
              rfl
            · rw [hclaim]
              show (s.runs ++ [(⟨key', verb, .running⟩ : Started V α)]).countP _ = s.starts key
              rw [List.countP_append, List.countP_singleton, starts]
              simp [hkey]
  | finish r' outcome =>
      rw [Ledger.step]
      split
      · rw [starts_setPhase, answered]
        split <;> rfl
      · rfl
  | send r' =>
      rw [Ledger.step]
      split
      · exact starts_setPhase _ _ _ _
      · rfl
  | die r' =>
      rw [Ledger.step]
      split
      · exact starts_setPhase _ _ _ _
      · rfl
  | wake c => rfl
  | advance time => rfl

/-- A slot that lives goes only to make room, and only once it was answered. -/
theorem Inv.stays [DecidableEq D] (hs : s.Inv digest) (st : LedgerStep V α) {key : IdempotencyKey}
    {r : Nat} (hlives : s.Lives key r) :
    (∃ slot, (s.step digest st).slots.get? key = some slot ∧ slot.run = r) ∨
      s.capacity ≤ s.slots.size ∧ ¬ s.isRunning r ∧
        ∃ key' verb ago rank, st = .call key' verb ago rank := by
  obtain ⟨slot, hget, hr, hlapsed⟩ := hlives
  have hidle : slot.answered ≠ none → ¬ s.isRunning r := by
    intro hanswered hrunning
    obtain ⟨run, hrun, -, -, ⟨hnone, -⟩ | ⟨-, outcome, hphase⟩⟩ := hs.slot key slot hget
    · exact hanswered hnone
    · rw [isRunning, ← hr, hrun, Option.map_some] at hrunning
      rw [Option.some.inj hrunning] at hphase
      rcases hphase with hphase | hphase <;> cases hphase
  cases st with
  | call key' verb ago rank =>
      rw [Ledger.step, Ledger.call]
      cases hdigest : digest verb with
      | error e => exact Or.inl ⟨slot, hget, hr⟩
      | ok d =>
          dsimp only
          have hlapsed' := lapsed_sub hlapsed ago
          rcases s.claim_cases hs.room key' d verb (s.now - ago) rank with
            ⟨slot', -, -, hclaim⟩ | ⟨hfree, slots, -, hkept, ⟨-, hclaim, -⟩ | ⟨-, hclaim⟩⟩
          · rw [hclaim]
            exact Or.inl ⟨slot, hget, hr⟩
          · rw [hclaim]
            rcases hkept key slot hget hlapsed' with hin | ⟨hanswered, hfull⟩
            · exact Or.inl ⟨slot, hin, hr⟩
            · exact Or.inr ⟨hfull, hidle hanswered, key', verb, ago, rank, rfl⟩
          · rw [hclaim]
            rcases hkept key slot hget hlapsed' with hin | ⟨hanswered, hfull⟩
            · have hne : key' ≠ key := by
                rintro rfl
                rw [hfree slot hget] at hlapsed'
                cases hlapsed'
              refine Or.inl ⟨slot, ?_, hr⟩
              show (slots.insert key' _).get? key = some slot
              rw [OrdMap.get?_insert, if_neg hne]
              exact hin
            · exact Or.inr ⟨hfull, hidle hanswered, key', verb, ago, rank, rfl⟩
  | finish r' outcome =>
      left
      rw [Ledger.step]
      split
      · rename_i key' verb' hrun
        show ∃ slot, (s.answered key').slots.get? key = some slot ∧ slot.run = r
        rw [answered]
        split
        · rename_i slot' hget'
          show ∃ slot, (s.slots.insert key' _).get? key = some slot ∧ slot.run = r
          by_cases hkey : key' = key
          · subst hkey
            obtain rfl := Option.some.inj (hget.symm.trans hget')
            exact ⟨_, OrdMap.get?_insert_self _ _ _, hr⟩
          · rw [OrdMap.get?_insert, if_neg hkey]
            exact ⟨slot, hget, hr⟩
        · exact ⟨slot, hget, hr⟩
      · exact ⟨slot, hget, hr⟩
  | send r' =>
      left
      rw [Ledger.step]
      split <;> exact ⟨slot, hget, hr⟩
  | die r' =>
      left
      rw [Ledger.step]
      split <;> exact ⟨slot, hget, hr⟩
  | wake c => exact Or.inl ⟨slot, hget, hr⟩
  | advance time => exact Or.inl ⟨slot, hget, hr⟩

theorem Inv.repeated [DecidableEq D] (hs : s.Inv digest)
    (hinj : ∀ v v' d, digest v = .ok d → digest v' = .ok d → v = v') {key : IdempotencyKey}
    {r : Nat} (hlives : s.Lives key r) :
    ∃ run, s.runs[r]? = some run ∧ run.key = key ∧
      ∀ verb ago rank d, digest verb = .ok d →
        (verb = run.verb → (s.call digest key verb ago rank).callers =
          s.callers ++ [⟨key, verb, some (.wait r), none⟩]) ∧
        (verb ≠ run.verb → (s.call digest key verb ago rank).callers =
          s.callers ++ [⟨key, verb, some .reused, some key.reused⟩]) := by
  obtain ⟨slot, hget, hr, hlapsed⟩ := hlives
  obtain ⟨run, hrun, hkey, hdigest, -⟩ := hs.slot key slot hget
  rw [hr] at hrun
  refine ⟨run, hrun, hkey, fun verb ago rank d hd => ?_⟩
  obtain ⟨slot', hget', -, hclaim⟩ := hs.claim_of_lives ⟨slot, hget, hr, hlapsed⟩ d verb ago rank
  obtain rfl := Option.some.inj (hget.symm.trans hget')
  simp only [Ledger.call, hd, hclaim]
  constructor
  · rintro rfl
    have hsame : slot.digest = d := Except.ok.inj (hdigest.symm.trans hd)
    rw [if_pos hsame, hr]
  · intro hne
    have hother : slot.digest ≠ d := by
      rintro rfl
      exact hne (hinj _ _ _ hd hdigest)
    rw [if_neg hother]

theorem Inv.guarded [DecidableEq D] (hs : s.Inv digest)
    (hinj : ∀ v v' d, digest v = .ok d → digest v' = .ok d → v = v') : s.Guarded digest := by
  refine ⟨hs.room, hs.running, fun st key r => hs.stays st, ?_, fun key r => hs.repeated hinj,
    hs.told, ?_, ?_⟩
  · intro key r steps hsteps
    have hrun : (steps.foldl (Ledger.step digest) s).Inv digest ∧
        (steps.foldl (Ledger.step digest) s).starts key = s.starts key := by
      refine EachStep.foldl (P := fun s' => s'.Inv digest ∧ s'.starts key = s.starts key) ?_ hsteps
        ⟨hs, rfl⟩
      rintro s' st ⟨hs', hstarts⟩ hlives
      exact ⟨hs'.step hinj st, (hs'.starts_step hlives st).trans hstarts⟩
    exact hrun.2
  · intro i c r outcome hc hawaits hnone hsent
    have hanswer : s.answer r = some outcome := by
      rw [answer, hsent]
    show ((s.callers.modify i s.wakeCaller)[i]?).bind Caller.answer = some outcome
    rw [List.getElem?_modify, hc]
    simp only [if_true, Option.map_eq_map, Option.map_some, Option.bind_some, wakeCaller, hnone,
      hawaits, hanswer]
  · intro key d verb now rank hfull key' slot hget
    rcases s.claim_cases hs.room key d verb now rank with
      ⟨slot', -, -, hclaim⟩ | ⟨-, slots, -, -, ⟨-, -, hall⟩ | ⟨-, hclaim⟩⟩
    · rw [hclaim] at hfull
      dsimp only at hfull
      split at hfull <;> cases hfull
    · obtain ⟨hlapsed, hnone⟩ := hall key' slot hget
      obtain ⟨run, hrun, -, -, ⟨-, hrunning | hdead⟩ | ⟨hne, -⟩⟩ := hs.slot key' slot hget
      · rw [isRunning, hrun, Option.map_some, hrunning]
      · rw [lapsed, hnone] at hlapsed
        simp only [closed, hrun, Option.map_some, hdead] at hlapsed
        cases hlapsed
      · exact absurd hnone hne
    · rw [hclaim] at hfull
      cases hfull

end Steps

/-- Whatever the calls, the effects that finish or die and the time that passes, keyed verbs run at
most once, when no two verbs have one digest. -/
theorem keyed_verbs_run_once [DecidableEq D] (digest : V → Except String D)
    (hinj : ∀ v v' d, digest v = .ok d → digest v' = .ok d → v = v') (capacity lifetime : Nat)
    (steps : List (LedgerStep V α)) :
    (steps.foldl (step digest) (new capacity lifetime)).Guarded digest := by
  have hnew : (new capacity lifetime : Ledger V D α).Inv digest := by
    refine ⟨Nat.zero_le _, ?_, ?_, ?_⟩
    · intro key slot hget
      cases hget
    · intro r run hrun
      cases hrun
    · intro c hc
      cases hc
  have hinv : (steps.foldl (step digest) (new capacity lifetime)).Inv digest := by
    induction steps using List.reverseRecOn with
    | nil => exact hnew
    | append_singleton steps st ih =>
        rw [List.foldl_append]
        exact ih.step hinj st
  exact hinv.guarded hinj

/-- A repeat waits while the first runs, and is told what it came to. -/
theorem keyed_verbs_run_once_repeat :
    ([.call "a" 1 0 fun _ => 0, .call "a" 1 0 fun _ => 0, .finish 0 (.answer ()), .send 0,
      .wake 1].foldl (step fun v => .ok v) (new 2 600 : Ledger Nat Nat Unit)).Guarded
        (fun v => .ok v) :=
  keyed_verbs_run_once _ (fun _ _ _ hv hv' => Except.ok.inj (hv.trans hv'.symm)) 2 600 _

end Ledger

end Slopty.Orchestrate
