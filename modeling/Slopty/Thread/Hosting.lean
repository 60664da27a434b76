import Slopty.Thread.Host

/-!
What a host holds of each of its threads: open or at rest, never both, its row listed, its files
those of its log. An operation on one thread leaves the others as they are.
-/

namespace Slopty.Thread

open Slopty.Lib Slopty.Proto.Codec

structure Cell where
  files : Files
  thread : Option OpenThread
  cold : Option Head
  /-- Its row is in the table. -/
  listed : Bool
  rested : Option (ThreadState × Cursor)

namespace Cell

def setFiles (files : Files) (c : Cell) : Cell := { c with files }

def setThread (thread : Option OpenThread) (c : Cell) : Cell := { c with thread }

def setCold (cold : Option Head) (c : Cell) : Cell := { c with cold }

def list (listed : Bool) (c : Cell) : Cell := { c with listed }

def setRested (rested : Option (ThreadState × Cursor)) (c : Cell) : Cell := { c with rested }

/-- A thread is open or at rest, or not listed; its state is its own, and its files give the state
and the cursor it stands at, or stood at when it was put to rest, if no write failed. -/
structure Right (w : HostWires) (t : ThreadId) (c : Cell) : Prop where
  apart : c.thread = none ∨ c.cold = none
  listed : c.listed = (c.thread.isSome || c.cold.isSome)
  own : ∀ o, c.thread = some o → o.hosted.log.state.threadMeta.id = t
  whole : ∀ o, c.thread = some o → o.whole = true → o.hosted.log.Whole w.toWires c.files.log
  rested : ∀ s, c.rested = some s → c.cold.isSome ∧ c.files.log.Reads w.toWires s.1 s.2

namespace Right

variable {w : HostWires} {t : ThreadId} {c : Cell}

theorem not_cold (h : c.Right w t) {o : OpenThread} (ho : c.thread = some o) : c.cold = none :=
  h.apart.resolve_left (by rw [ho]; exact Option.some_ne_none o)

theorem not_rested (h : c.Right w t) (hcold : c.cold = none) (s : ThreadState × Cursor) :
    c.rested ≠ some s := by
  intro hs
  have hsome := (h.rested s hs).1
  rw [hcold] at hsome
  exact absurd hsome nofun

theorem of_closed (hclosed : c.thread = none) (hlisted : c.listed = c.cold.isSome)
    (hrested : ∀ s, c.rested = some s → c.cold.isSome ∧ c.files.log.Reads w.toWires s.1 s.2) :
    c.Right w t where
  apart := .inl hclosed
  listed := by
    rw [hlisted, hclosed]
    rfl
  own := fun o ho => absurd (hclosed.symm.trans ho).symm (Option.some_ne_none o)
  whole := fun o ho => absurd (hclosed.symm.trans ho).symm (Option.some_ne_none o)
  rested := hrested

theorem of_gone (hclosed : c.thread = none) (hcold : c.cold = none) (hlisted : c.listed = false)
    (hrested : c.rested = none) : c.Right w t := by
  refine of_closed hclosed ?_ fun s hs => ?_
  · rw [hlisted, hcold]
    rfl
  · exact absurd (hrested.symm.trans hs).symm (Option.some_ne_none s)

end Right

end Cell

namespace Host

def cell (h : Host) (t : ThreadId) : Cell where
  files := h.files t
  thread := h.threads.get? t
  cold := h.cold.get? t
  listed := (h.table.rows.get? t).isSome
  rested := h.rested t

structure Does (h h' : Host) (t : ThreadId) (f : Cell → Cell) : Prop where
  here : h'.cell t = f (h.cell t)
  others : ∀ u, u ≠ t → h'.cell u = h.cell u

variable {h h₁ h₂ : Host} {t : ThreadId} {f g : Cell → Cell}

theorem Does.refl (h : Host) (t : ThreadId) : Does h h t id := ⟨rfl, fun _ _ => rfl⟩

theorem Does.trans (h₁₂ : Does h h₁ t f) (h₂₃ : Does h₁ h₂ t g) : Does h h₂ t (g ∘ f) where
  here := h₂₃.here.trans (congrArg g h₁₂.here)
  others := fun u hu => (h₂₃.others u hu).trans (h₁₂.others u hu)

theorem isSome_put (table : Table) (row : ThreadRow) (found : Option Place) (u : ThreadId) :
    ((table.put row found).rows.get? u).isSome =
      if row.id = u then true else (table.rows.get? u).isSome := by
  have hid := table.places.fill_id row found
  simp only [Table.put]
  generalize table.places.fill row found = filled at hid ⊢
  obtain ⟨places, said⟩ := filled
  simp only at hid ⊢
  rw [← hid]
  split
  · rename_i hrow
    split
    · split
      · rename_i heq
        rw [← heq, hrow]
        rfl
      · rfl
    · dsimp only [Table.bump]
      rw [OrdMap.get?_insert]
      split <;> rfl
  · dsimp only [Table.bump]
    rw [OrdMap.get?_insert]
    split <;> rfl

theorem isSome_remove (table : Table) (t u : ThreadId) :
    ((table.remove t).rows.get? u).isSome =
      if u = t then false else (table.rows.get? u).isSome := by
  simp only [Table.remove]
  split
  · rename_i hnone
    split
    · rename_i heq
      rw [heq, hnone]
      rfl
    · rfl
  · dsimp only [Table.bump]
    rw [OrdMap.get?_erase]
    split <;> rfl

theorem does_setFiles (h : Host) (t : ThreadId) (files : Files) :
    Does h (h.setFiles t files) t (Cell.setFiles files) where
  here := by
    simp only [cell, Cell.setFiles, setFiles, Host.files, OrdMap.get?_insert, if_true,
      Option.getD_some]
  others := by
    intro u hu
    simp only [cell, setFiles, Host.files, OrdMap.get?_insert, if_neg (Ne.symm hu)]

theorem does_setThread (h : Host) (t : ThreadId) (o : OpenThread) :
    Does h (h.setThread t o) t (Cell.setThread (some o)) where
  here := by simp only [cell, Cell.setThread, setThread, Host.files, OrdMap.get?_insert, if_true]
  others := by
    intro u hu
    simp only [cell, setThread, Host.files, OrdMap.get?_insert, if_neg (Ne.symm hu)]

theorem does_eraseThread (h : Host) (t : ThreadId) :
    Does h { h with threads := h.threads.erase t } t (Cell.setThread none) where
  here := by simp only [cell, Cell.setThread, Host.files, OrdMap.get?_erase, if_true]
  others := by
    intro u hu
    simp only [cell, Host.files, OrdMap.get?_erase, if_neg hu]

theorem does_insertCold (h : Host) (t : ThreadId) (head : Head) :
    Does h { h with cold := h.cold.insert t head } t (Cell.setCold (some head)) where
  here := by simp only [cell, Cell.setCold, Host.files, OrdMap.get?_insert, if_true]
  others := by
    intro u hu
    simp only [cell, Host.files, OrdMap.get?_insert, if_neg (Ne.symm hu)]

theorem does_eraseCold (h : Host) (t : ThreadId) :
    Does h { h with cold := h.cold.erase t } t (Cell.setCold none) where
  here := by simp only [cell, Cell.setCold, Host.files, OrdMap.get?_erase, if_true]
  others := by
    intro u hu
    simp only [cell, Host.files, OrdMap.get?_erase, if_neg hu]

theorem does_put (h : Host) {row : ThreadRow} (hrow : row.id = t) (env : Env) :
    Does h (h.put row env) t (Cell.list true) where
  here := by simp only [cell, Cell.list, put, Host.files, isSome_put, if_pos hrow]
  others := by
    intro u hu
    have hother : ¬ row.id = u := fun heq => hu (heq.symm.trans hrow)
    simp only [cell, put, Host.files, isSome_put, if_neg hother]

theorem does_unlist (h : Host) (t : ThreadId) :
    Does h { h with table := h.table.remove t } t (Cell.list false) where
  here := by simp only [cell, Cell.list, Host.files, isSome_remove, if_true]
  others := by
    intro u hu
    simp only [cell, Host.files, isSome_remove, if_neg hu]

theorem does_setRested (h : Host) (t : ThreadId) (s : Option (ThreadState × Cursor)) :
    Does h { h with rested := Function.update h.rested t s } t (Cell.setRested s) where
  here := by simp only [cell, Cell.setRested, Host.files, Function.update_self]
  others := by
    intro u hu
    simp only [cell, Host.files, Function.update_of_ne hu]

end Host

section Names

variable {t : ThreadId} {actions : List Action}

/-- The actions that say what a thread is say it of this one. -/
def NamesOnly (t : ThreadId) (actions : List Action) : Prop :=
  ∀ m, Action.threadMeta m ∈ actions → m.id = t

theorem ThreadState.apply_threadMeta (s : ThreadState) {a : Action}
    (h : ∀ m, a ≠ .threadMeta m) : (s.apply a).threadMeta = s.threadMeta := by
  cases a with
  | threadMeta m => exact absurd rfl (h m)
  | turnStarted turn =>
    simp only [apply, putTurn]
    split <;> rfl
  | turnEnded turn state usage endedMs =>
    simp only [apply]
    split <;> rfl
  | itemStarted item | itemCompleted item =>
    simp only [apply, putItem]
    split <;> rfl
  | itemUpdated item =>
    simp only [apply, putItem]
    split <;> split <;> rfl
  | append item part text =>
    simp only [apply]
    split <;> rfl
  | itemRemoved item =>
    simp only [apply]
    split <;> rfl
  | callNoted item note =>
    simp only [apply]
    split <;> rfl
  | _ => rfl

theorem ThreadState.applyAll_id {s : ThreadState} (h : s.threadMeta.id = t)
    (hn : NamesOnly t actions) : (s.applyAll actions).threadMeta.id = t := by
  induction actions generalizing s with
  | nil => exact h
  | cons a rest ih =>
    refine ih ?_ fun m hm => hn m (List.mem_cons_of_mem _ hm)
    by_cases hmeta : ∃ m, a = .threadMeta m
    · obtain ⟨m, rfl⟩ := hmeta
      exact hn m List.mem_cons_self
    · rw [s.apply_threadMeta fun m heq => hmeta ⟨m, heq⟩]
      exact h

theorem Own.fill_id (own : Own) (m : ThreadMeta) : (own.fill m).2.id = m.id := rfl

theorem NamesOnly.mark (h : NamesOnly t actions) (own : Own) :
    NamesOnly t (own.mark actions).2 := by
  induction actions generalizing own with
  | nil => exact h
  | cons a rest ih =>
    have hrest : NamesOnly t rest := fun m hm => h m (List.mem_cons_of_mem _ hm)
    intro m hm
    by_cases hmeta : ∃ said, a = .threadMeta said
    · obtain ⟨said, rfl⟩ := hmeta
      rcases List.mem_cons.mp hm with heq | hm
      · rw [Action.threadMeta.inj heq]
        exact h said List.mem_cons_self
      · exact ih hrest _ m hm
    · have hmark : (own.mark (a :: rest)).2 = a :: (own.mark rest).2 := by
        cases a with
        | threadMeta said => exact absurd ⟨said, rfl⟩ hmeta
        | _ => rfl
      rw [hmark] at hm
      rcases List.mem_cons.mp hm with heq | hm
      · exact absurd ⟨m, heq.symm⟩ hmeta
      · exact ih hrest own m hm

theorem mem_of_mem_reached {w : Wires} {a : Action} (h : a ∈ reached w actions) : a ∈ actions := by
  induction actions with
  | nil => exact h
  | cons b rest ih =>
    unfold reached at h
    split at h
    · rw [List.mem_singleton.mp h]
      exact List.mem_cons_self
    · rcases List.mem_cons.mp h with rfl | hrest
      · exact List.mem_cons_self
      · exact List.mem_cons_of_mem _ (ih hrest)

theorem Log.append_id {w : Wires} {log : Log} {dir : Dir} {wrote : Fate} {fates : CompactFates}
    (h : log.state.threadMeta.id = t) (hn : NamesOnly t actions) :
    (log.append w dir actions wrote fates).1.state.threadMeta.id = t := by
  rw [(Log.append_spec w log dir actions wrote fates).1, (Log.take_spec w log [] false actions).1]
  exact ThreadState.applyAll_id h fun m hm => hn m (mem_of_mem_reached hm)

end Names

namespace Host

variable {w : HostWires} {h h' : Host} {t : ThreadId} {f : Cell → Cell} {env : Env}

def Held (w : HostWires) (h : Host) : Prop := ∀ t, (h.cell t).Right w t

theorem Does.held (hd : Does h h' t f) (hh : h.Held w) (hr : (f (h.cell t)).Right w t) :
    h'.Held w := by
  intro u
  by_cases hu : u = t
  · rw [hu, hd.here]
    exact hr
  · rw [hd.others u hu]
    exact hh u

/-- What reading a thread's files gives is that thread. -/
def ReadsOwn (w : HostWires) (h : Host) (t : ThreadId) (env : Env) : Prop :=
  ∀ files hosted, (h.files t).openThread w h.limits env.load = (files, some hosted) →
    hosted.log.state.threadMeta.id = t

theorem openFiles_log {files files' : Files} {log : Log} {opened : Bool} {rewrite : RewriteFates}
    {hosted : Option Hosted} (ho : Hosted.openFiles w files log opened rewrite = (files', hosted)) :
    files'.log = files.log ∧ ∀ o, hosted = some o → o.log = log := by
  unfold Hosted.openFiles at ho
  split at ho
  · obtain ⟨rfl, rfl⟩ := Prod.mk.inj ho
    exact ⟨rfl, fun o heq => absurd heq.symm (Option.some_ne_none o)⟩
  · obtain ⟨rfl, rfl⟩ := Prod.mk.inj ho
    refine ⟨rfl, fun o heq => ?_⟩
    rw [← Option.some.inj heq]

theorem openThread_whole {files files' : Files} {limits : Limits} {fates : LoadFates}
    {hosted : Hosted} (ho : files.openThread w limits fates = (files', some hosted)) :
    hosted.log.Whole w.toWires files'.log := by
  unfold Files.openThread at ho
  split at ho
  · split at ho
    · exact absurd (Prod.mk.inj ho).2 nofun
    · rename_i dir log hopen
      obtain ⟨hfiles, hlog⟩ := openFiles_log ho
      rw [hfiles, hlog hosted rfl]
      exact Log.Whole.openDir hopen
  · exact absurd (Prod.mk.inj ho).2 nofun

theorem load_held (hh : h.Held w) (hown : h.ReadsOwn w t env) : (h.load w t env).Held w := by
  have hright := hh t
  unfold load
  cases hthread : h.threads.get? t with
  | some o =>
    have hopen : (h.cell t).thread = some o := hthread
    refine (does_setThread h t { o with used := env.now }).held hh
      ⟨.inr (hright.not_cold hopen), ?_, ?_, ?_, hright.rested⟩
    · rw [Cell.setThread, hright.listed, hopen]
      rfl
    · intro o' ho'
      rw [← Option.some.inj ho']
      exact hright.own o hopen
    · intro o' ho' hwhole
      rw [← Option.some.inj ho'] at hwhole ⊢
      exact hright.whole o hopen hwhole
  | none =>
    cases hcold : h.cold.get? t with
    | none => exact hh
    | some head =>
      dsimp only
      have hlet := (does_eraseCold h t).trans (does_setRested _ t none)
      have hfiles : Host.files ({ h with cold := h.cold.erase t }.forget t) t = h.files t := rfl
      rw [hfiles]
      split
      · rename_i files hosted hopen
        have hid : (hosted.log.state.row w head.row.updatedMs).id = t := hown files hosted hopen
        refine (((hlet.trans (does_setFiles _ t files)).trans (does_put _ hid env)).trans
          (does_setThread _ t { hosted, used := env.now })).held hh ?_
        refine ⟨.inr rfl, rfl, ?_, ?_, ?_⟩
        · intro o ho
          rw [← Option.some.inj ho]
          exact hid
        · intro o ho _
          rw [← Option.some.inj ho]
          exact openThread_whole hopen
        · intro s hs
          exact absurd hs.symm (Option.some_ne_none s)
      · rename_i files hopen
        have hleft := hlet.trans (does_setFiles _ t (files.unreadable w env.load))
        have hgone := hleft.trans (does_unlist _ t)
        have hclosed : (h.cell t).thread = none := hthread
        exact hgone.held hh (.of_gone hclosed rfl rfl rfl)

/-- A new thread whose log could be made gets its intents open too. -/
def IntentsOpen (w : HostWires) (h : Host) (m : ThreadMeta) (env : Env) : Prop :=
  h.holds m.id = false → env.create.mkdir = true →
    ∀ dir log, Log.createOver w.toWires h.limits env.epoch (ThreadState.new m) (h.files m.id).log
        env.create.compact = (dir, .ok log) →
      (Intents.openFile w.record (h.files m.id).intents env.create.intents
        env.create.rewrite).2 ≠ none

theorem createOver_whole {limits : Limits} {epoch : Nat} {state : ThreadState} {d d' : Dir}
    {fates : CompactFates} {log : Log}
    (hc : Log.createOver w.toWires limits epoch state d fates = (d', .ok log)) :
    log.Whole w.toWires d' ∧ log.state = state := by
  simp only [Log.createOver] at hc
  split at hc
  · exact absurd (Prod.mk.inj hc).2 nofun
  · rename_i d₁ hsnap
    split at hc
    · exact absurd (Prod.mk.inj hc).2 nofun
    · rename_i d₂ len htail
      obtain ⟨rfl, hlog⟩ := Prod.mk.inj hc
      rw [← Except.ok.inj hlog]
      exact ⟨⟨@Dir.Reads.restarted w.toWires (Log.ofSnapshot limits ⟨epoch, 0⟩ state d₂.tailFile len)
        d _ _ _ d₁ d₂ len hsnap htail, rfl⟩, rfl⟩

theorem openFiles_none {files files' : Files} {log : Log} {opened : Bool} {rewrite : RewriteFates}
    (ho : Hosted.openFiles w files log opened rewrite = (files', none)) :
    (Intents.openFile w.record files.intents opened rewrite).2 = none := by
  unfold Hosted.openFiles at ho
  split at ho
  · rename_i heq
    rw [heq]
  · exact absurd (Prod.mk.inj ho).2 (Option.some_ne_none _)

theorem create_held (hh : h.Held w) {m : ThreadMeta} (hintents : h.IntentsOpen w m env) :
    (h.create w m env).1.Held w ∧
      ∀ t, (h.create w m env).2 = .refused t → (h.create w m env).1.holds t = false := by
  unfold create
  cases hheld : h.holds m.id with
  | true => exact ⟨hh, nofun⟩
  | false =>
    rw [if_neg Bool.false_ne_true]
    have hnone : (h.cell m.id).thread = none ∧ (h.cell m.id).cold = none := by
      obtain ⟨hthread, hcold⟩ := Bool.or_eq_false_iff.mp hheld
      exact ⟨Option.not_isSome_iff_eq_none.mp (Bool.eq_false_iff.mp hthread),
        Option.not_isSome_iff_eq_none.mp (Bool.eq_false_iff.mp hcold)⟩
    have hright := hh m.id
    cases hmkdir : env.create.mkdir with
    | false =>
      rw [if_neg Bool.false_ne_true]
      refine ⟨hh, fun t ht => ?_⟩
      rw [← Made.refused.inj ht]
      exact hheld
    | true =>
      rw [if_pos rfl]
      split
      · rename_i dir e hmade
        have hdoes := does_setFiles h m.id { h.files m.id with log := dir }
        refine ⟨hdoes.held hh ?_, fun t ht => ?_⟩
        · refine ⟨hright.apart, hright.listed, hright.own, fun o ho => ?_, fun s hs => ?_⟩
          · exact absurd (hnone.1.symm.trans ho) (Option.some_ne_none o).symm
          · exact absurd hs (hright.not_rested hnone.2 s)
        · rw [← Made.refused.inj ht]
          exact hheld
      · rename_i dir log hmade
        obtain ⟨hwhole, hstate⟩ := createOver_whole hmade
        dsimp only
        have hid : (log.state.row w env.wall).id = m.id := by rw [hstate]; rfl
        have hput := (does_setFiles h m.id { h.files m.id with log := dir }).trans
          (does_put _ hid env)
        have hfiles : ((h.setFiles m.id { h.files m.id with log := dir }).put
            (log.state.row w env.wall) env).files m.id = { h.files m.id with log := dir } :=
          congrArg Cell.files hput.here
        rw [hfiles]
        split
        · rename_i files hopen
          exact absurd (openFiles_none hopen) (hintents hheld hmkdir dir log hmade)
        · rename_i files hosted hopen
          obtain ⟨hlog, hhosted⟩ := openFiles_log hopen
          have hown : hosted.log.state.threadMeta.id = m.id := by
            rw [hhosted hosted rfl, hstate]
            rfl
          rw [hown]
          refine ⟨?_, nofun⟩
          refine ((hput.trans (does_setFiles _ m.id files)).trans
            (does_setThread _ m.id { hosted, used := env.now })).held hh ?_
          refine ⟨.inr hnone.2, ?_, ?_, ?_, fun s hs => ?_⟩
          · rfl
          · intro o ho
            rw [← Option.some.inj ho]
            exact hown
          · intro o ho _
            rw [← Option.some.inj ho]
            show hosted.log.Whole w.toWires files.log
            rw [hlog, hhosted hosted rfl]
            exact hwhole
          · exact absurd hs (hright.not_rested hnone.2 s)

theorem headDir_whole {log : Log} {dir : Dir} (hwhole : log.Whole w.toWires dir) (row : ThreadRow)
    (fates : WriteFates) : log.Whole w.toWires (headDir w log dir row fates) := by
  unfold headDir
  split
  · exact hwhole
  · exact hwhole.writeHead log row _ _

theorem applyTo_held (hh : h.Held w) {o : OpenThread} (ho : h.threads.get? t = some o)
    {actions : List Action} (hn : NamesOnly t actions) : (h.applyTo w t o actions env).1.Held w := by
  have hopen : (h.cell t).thread = some o := ho
  have hright := hh t
  unfold applyTo
  dsimp only
  generalize hmarked : o.hosted.own.mark actions = marked
  have hnames : NamesOnly t marked.2 := hmarked ▸ hn.mark o.hosted.own
  have hown : (o.hosted.log.append w.toWires (h.files t).log marked.2 env.write.wrote
      env.write.compact).1.state.threadMeta.id = t := Log.append_id (hright.own o hopen) hnames
  generalize hr : o.hosted.log.append w.toWires (h.files t).log marked.2 env.write.wrote
    env.write.compact = r at hown ⊢
  have hid : (r.1.state.row w env.wall).id = t := hown
  refine (((does_setFiles h t _).trans (does_put _ hid env)).trans
    (does_setThread _ t _)).held hh ?_
  refine ⟨.inr (hright.not_cold hopen), rfl, ?_, ?_, fun s hs => ?_⟩
  · intro o' ho'
    rw [← Option.some.inj ho']
    exact hown
  · intro o' ho' hwhole
    rw [← Option.some.inj ho'] at hwhole ⊢
    obtain ⟨hbefore, hdone⟩ := Bool.and_eq_true_iff.mp hwhole
    obtain ⟨hbefore, hcode⟩ := Bool.and_eq_true_iff.mp hbefore
    have hkept := (hright.whole o hopen hbefore).append hcode
      (Option.isNone_iff_eq_none.mp (hr ▸ hdone))
    rw [show (h.cell t).files.log = (h.files t).log from rfl, hr] at hkept
    exact headDir_whole hkept _ _
  · exact absurd hs (hright.not_rested (hright.not_cold hopen) s)

theorem restart_held (hh : h.Held w) {o : OpenThread} (ho : h.threads.get? t = some o)
    {state : ThreadState} (hid : state.threadMeta.id = t) :
    (h.restart w t o state env).1.Held w := by
  have hopen : (h.cell t).thread = some o := ho
  have hright := hh t
  unfold restart
  dsimp only
  generalize hstate : { state with
    threadMeta := (o.hosted.own.fill state.threadMeta).2
    seen := o.hosted.log.state.seen
    named := o.hosted.log.state.named } = state'
  have hown : (o.hosted.log.reset w.toWires (h.files t).log state'
      env.write.compact).1.state.threadMeta.id = t := by
    rw [Log.reset, (Log.compact_spec ..).1, Log.restarted, ← hstate]
    exact hid
  generalize hr : o.hosted.log.reset w.toWires (h.files t).log state' env.write.compact = r at hown ⊢
  split
  · refine ((does_setFiles h t _).trans (does_setThread _ t _)).held hh ?_
    refine ⟨.inr (hright.not_cold hopen), ?_, ?_, ?_, fun s hs => ?_⟩
    · show (h.cell t).listed = true
      rw [hright.listed, hopen]
      rfl
    · intro o' ho'
      rw [← Option.some.inj ho']
      exact hown
    · intro o' ho' hwhole
      rw [← Option.some.inj ho'] at hwhole
      cases hwhole
    · exact absurd hs (hright.not_rested (hright.not_cold hopen) s)
  · rename_i hdone
    have hrow : (r.1.state.row w env.wall).id = t := hown
    refine (((does_setFiles h t _).trans (does_put _ hrow env)).trans
      (does_setThread _ t _)).held hh ?_
    refine ⟨.inr (hright.not_cold hopen), rfl, ?_, ?_, fun s hs => ?_⟩
    · intro o' ho'
      rw [← Option.some.inj ho']
      exact hown
    · intro o' ho' _
      rw [← Option.some.inj ho']
      have hwhole : r.1.Whole w.toWires r.2.1 := by
        rw [← hr] at hdone ⊢
        exact Log.Whole.compact hdone
      exact headDir_whole hwhole _ _
    · exact absurd hs (hright.not_rested (hright.not_cold hopen) s)

theorem change_held (hh : h.Held w) {look : ThreadState → List Action}
    (hn : ∀ o, h.threads.get? t = some o → NamesOnly t (look o.hosted.log.state)) :
    (h.change w t look env).Held w := by
  unfold change
  split
  · exact hh
  · rename_i o ho
    dsimp only
    split
    · exact hh
    · exact applyTo_held hh ho (hn o ho)

theorem restOne_held (hh : h.Held w) (fates : Fate × Fate) : (h.restOne w t fates env).Held w := by
  have hright := hh t
  unfold restOne
  split
  · exact hh
  · rename_i o ho
    have hopen : (h.cell t).thread = some o := ho
    dsimp only
    generalize ((h.table.rows.get? t).map Prod.fst).getD (o.hosted.log.state.row w env.wall) = row
    obtain ⟨hsnap, htail, -⟩ := o.hosted.log.writeHead_dir w.toWires (h.files t).log row fates.1 fates.2
    have hdoes := (((does_setFiles h t { h.files t with
      log := (o.hosted.log.writeHead w.toWires (h.files t).log row fates.1 fates.2).1 }).trans
      (does_eraseThread _ t)).trans
      (does_insertCold _ t ⟨row, { o.hosted.log.state with items := [] }⟩)).trans
      (does_setRested _ t (if o.whole then some (o.hosted.log.state, o.hosted.log.cursor) else none))
    refine hdoes.held hh (.of_closed rfl ?_ ?_)
    · show (h.cell t).listed = true
      rw [hright.listed, hopen]
      rfl
    · intro s hs
      have hs : (if o.whole then some (o.hosted.log.state, o.hosted.log.cursor) else none) =
        some s := hs
      split at hs
      · rename_i hwhole
        obtain rfl := Option.some.inj hs
        exact ⟨rfl, (hright.whole o hopen hwhole).reads.of_eq hsnap htail⟩
      · exact absurd hs.symm (Option.some_ne_none s)

theorem rest_held (hh : h.Held w) (before : Option Nat) (followed : ThreadId → Bool)
    (fates : ThreadId → Fate × Fate) : (h.rest w before followed fates env).Held w := by
  unfold rest
  split
  · exact hh
  · rename_i before
    generalize (h.threads.retain (resting before followed)).keys = going
    induction going generalizing h with
    | nil => exact hh
    | cons t rest ih => exact ih (restOne_held hh _)

theorem remove_held (hh : h.Held w) (left : Files) : (h.remove t left).Held w := by
  have hright := hh t
  have hlet := (does_unlist h t).trans (does_setRested _ t none)
  unfold remove
  dsimp only
  split
  · rename_i head hcold
    have hcold : (h.cell t).cold = some head := hcold
    have hclosed : (h.cell t).thread = none :=
      hright.apart.resolve_right (by rw [hcold]; exact Option.some_ne_none head)
    exact ((hlet.trans (does_eraseCold _ t)).trans (does_setFiles _ t left)).held hh
      (.of_gone hclosed rfl rfl rfl)
  · rename_i hcold
    have hcold : (h.cell t).cold = none := hcold
    split
    · exact ((hlet.trans (does_eraseThread _ t)).trans (does_setFiles _ t left)).held hh
        (.of_gone rfl hcold rfl rfl)
    · rename_i hthread
      exact hlet.held hh (.of_gone hthread hcold rfl rfl)

/-- A thread at rest, or not held, and nothing remembered of it: all there is when a host opens. -/
structure Opening (h : Host) : Prop where
  closed : ∀ t, (h.cell t).thread = none
  listed : ∀ t, (h.cell t).listed = (h.cell t).cold.isSome
  rested : ∀ t, (h.cell t).rested = none

theorem Opening.held (hh : h.Opening) : h.Held w := fun t =>
  .of_closed (hh.closed t) (hh.listed t) fun s hs =>
    absurd ((hh.rested t).symm.trans hs).symm (Option.some_ne_none s)

theorem Does.opening (hd : Does h h' t f) (hh : h.Opening) (hclosed : (f (h.cell t)).thread = none)
    (hlisted : (f (h.cell t)).listed = (f (h.cell t)).cold.isSome)
    (hrested : (f (h.cell t)).rested = none) : h'.Opening := by
  have hcell : ∀ u, h'.cell u = h.cell u ∨ h'.cell u = f (h.cell t) := by
    intro u
    by_cases hu : u = t
    · rw [hu]
      exact .inr hd.here
    · exact .inl (hd.others u hu)
  refine ⟨fun u => ?_, fun u => ?_, fun u => ?_⟩
  · rcases hcell u with heq | heq <;> rw [heq]
    · exact hh.closed u
    · exact hclosed
  · rcases hcell u with heq | heq <;> rw [heq]
    · exact hh.listed u
    · exact hlisted
  · rcases hcell u with heq | heq <;> rw [heq]
    · exact hh.rested u
    · exact hrested

theorem Opening.setFiles (hh : h.Opening) (t : ThreadId) (files : Files) :
    (h.setFiles t files).Opening :=
  (does_setFiles h t files).opening hh (hh.closed t) (hh.listed t) (hh.rested t)

theorem Opening.coldRow (hh : h.Opening) (row : ThreadRow) (head : Head) (env : Env) :
    ({ h.put row env with cold := (h.put row env).cold.insert row.id head } : Host).Opening :=
  ((does_put h rfl env).trans (does_insertCold _ row.id head)).opening hh (hh.closed row.id) rfl
    (hh.rested row.id)

theorem openEntry_opening (hh : h.Opening) (t : ThreadId) : (h.openEntry w t env).Opening := by
  unfold openEntry
  split
  · exact hh.coldRow _ _ env
  · split
    · exact hh.setFiles t _
    · exact (hh.setFiles t _).coldRow _ _ env

/-- Nothing given to an operation names another thread's id, nothing it reads of a thread's files
does, and a thread whose log it makes gets its intents open. -/
def Orderly (w : HostWires) (h : Host) (env : Env) : HostOp → Prop
  | .create m => h.IntentsOpen w m env
  | .createOrUpdate m look => h.ReadsOwn w m.id env ∧ (h.load w m.id env).IntentsOpen w m env ∧
      ∀ o, (h.load w m.id env).threads.get? m.id = some o → NamesOnly m.id (look o.hosted.log.state)
  | .begin state retell => h.ReadsOwn w state.threadMeta.id env ∧
      (h.load w state.threadMeta.id env).IntentsOpen w state.threadMeta env ∧
      ∀ o, (h.load w state.threadMeta.id env).threads.get? state.threadMeta.id = some o →
        (retell o.hosted.log.state.threadMeta).id = state.threadMeta.id
  | .apply t actions => h.ReadsOwn w t env ∧ NamesOnly t actions
  | .update t look => h.ReadsOwn w t env ∧
      ∀ o, (h.load w t env).threads.get? t = some o → NamesOnly t (look o.hosted.log.state)
  | .intent t _ act _ => h.ReadsOwn w t env ∧
      ∀ o, (h.load w t env).threads.get? t = some o → NamesOnly t (act o.hosted.log.state).2
  | .reset t state => h.ReadsOwn w t env ∧ state.threadMeta.id = t
  | .use t => h.ReadsOwn w t env
  | .rest _ _ _ => True
  | .remove _ _ => True
  | .start id asked _ => h.starts.outcome id = none → ∀ m, asked = .ok m → h.IntentsOpen w m env

theorem intent_held (hh : h.Held w) {id : IntentId} {act : ThreadState → Outcome × List Action}
    {fates : RecordFates} (hown : h.ReadsOwn w t env)
    (hn : ∀ o, (h.load w t env).threads.get? t = some o →
      NamesOnly t (act o.hosted.log.state).2) : (h.intent w t id act fates env).Held w := by
  have hload := load_held hh hown
  unfold intent
  dsimp only
  split
  · exact hload
  · rename_i o ho
    split
    · exact hload
    · have hchange : ((h.load w t env).change w t (fun _ => (act o.hosted.log.state).2) env).Held w :=
        change_held hload fun _ _ => hn o ho
      split
      · exact hchange
      · rename_i o' ho'
        have hopen : ((Host.change w (h.load w t env) t
          (fun _ => (act o.hosted.log.state).2) env).cell t).thread = some o' := ho'
        have hright := hchange t
        refine ((does_setFiles _ t _).trans (does_setThread _ t _)).held hchange ?_
        refine ⟨.inr (hright.not_cold hopen), ?_, ?_, ?_, fun s hs => ?_⟩
        · show (Host.cell _ t).listed = true
          rw [hright.listed, hopen]
          rfl
        · intro o'' ho''
          rw [← Option.some.inj ho'']
          exact hright.own o' hopen
        · intro o'' ho'' hwhole
          rw [← Option.some.inj ho''] at hwhole ⊢
          exact hright.whole o' hopen hwhole
        · exact absurd hs (hright.not_rested (hright.not_cold hopen) s)

/-- An operation leaves every thread as it should be, and no thread it could not make is held. -/
theorem op_held (hh : h.Held w) {op : HostOp} (ho : h.Orderly w env op) :
    (h.op w env op).1.Held w ∧
      ∀ t, (h.op w env op).2 = some (.refused t) → (h.op w env op).1.holds t = false := by
  cases op with
  | create m =>
    obtain ⟨hheld, hrefused⟩ := create_held hh ho
    exact ⟨hheld, fun t ht => hrefused t (Option.some.inj ht)⟩
  | createOrUpdate m look =>
    obtain ⟨hown, hintents, hn⟩ := ho
    have hload := load_held hh hown
    simp only [op, createOrUpdate]
    split
    · obtain ⟨hheld, hrefused⟩ := create_held hload hintents
      exact ⟨hheld, fun t ht => hrefused t (Option.some.inj ht)⟩
    · exact ⟨change_held hload hn, nofun⟩
  | begin state retell =>
    obtain ⟨hown, hintents, hid⟩ := ho
    have hload := load_held hh hown
    simp only [op, begin]
    split
    · obtain ⟨hheld, hrefused⟩ := create_held hload hintents
      exact ⟨hheld, fun t ht => hrefused t (Option.some.inj ht)⟩
    · rename_i o ho
      exact ⟨restart_held hload ho (hid o ho), nofun⟩
  | apply t actions =>
    obtain ⟨hown, hn⟩ := ho
    have hload := load_held hh hown
    simp only [op, apply]
    split
    · exact ⟨hload, nofun⟩
    · rename_i o ho
      exact ⟨applyTo_held hload ho hn, nofun⟩
  | update t look =>
    obtain ⟨hown, hn⟩ := ho
    exact ⟨change_held (load_held hh hown) hn, nofun⟩
  | intent t id act fates =>
    obtain ⟨hown, hn⟩ := ho
    exact ⟨intent_held hh hown hn, nofun⟩
  | reset t state =>
    obtain ⟨hown, hid⟩ := ho
    have hload := load_held hh hown
    simp only [op, reset]
    split
    · exact ⟨hload, nofun⟩
    · rename_i o ho
      exact ⟨restart_held hload ho hid, nofun⟩
  | use t => exact ⟨load_held hh ho, nofun⟩
  | rest before followed fates => exact ⟨rest_held hh before followed fates, nofun⟩
  | remove t left => exact ⟨remove_held hh left, nofun⟩
  | start id asked fates =>
    simp only [op, start]
    split
    · exact ⟨hh, nofun⟩
    · rename_i hnone
      cases asked with
      | error reason => exact ⟨hh, nofun⟩
      | ok m =>
        obtain ⟨hheld, hrefused⟩ := create_held hh (ho hnone m rfl)
        dsimp only
        split <;> rename_i heq <;> rw [heq] at hheld hrefused
        · exact ⟨hheld, nofun⟩
        · exact ⟨hheld, nofun⟩
        · exact ⟨hheld, fun t ht => hrefused t (Option.some.inj ht)⟩

/-- Nothing is open and at rest; the rows are those of the threads held; a thread put to rest and
used again has the state and the cursor it had, if no write failed; and nothing is left of a
thread that could not be made. -/
structure Consistent (w : HostWires) (h : Host) (last : Option Made) : Prop where
  apart : ∀ t, h.threads.get? t = none ∨ h.cold.get? t = none
  listed : ∀ t, (h.table.rows.get? t).isSome = h.holds t
  again : ∀ t s env o, h.rested t = some s → (h.load w t env).threads.get? t = some o →
    (o.hosted.log.state, o.hosted.log.cursor) = s
  refused : ∀ t, last = some (.refused t) → h.holds t = false ∧ h.table.rows.get? t = none

theorem openThread_reads {files files' : Files} {limits : Limits} {fates : LoadFates}
    {hosted : Hosted} {state : ThreadState} {cursor : Cursor}
    (hreads : files.log.Reads w.toWires state cursor)
    (ho : files.openThread w limits fates = (files', some hosted)) :
    (hosted.log.state, hosted.log.cursor) = (state, cursor) := by
  unfold Files.openThread at ho
  split at ho
  · split at ho
    · exact absurd (Prod.mk.inj ho).2 nofun
    · rename_i dir log hopen
      obtain ⟨hstate, hcursor⟩ := hreads.openDir hopen
      rw [(openFiles_log ho).2 hosted rfl, hstate, hcursor]
  · exact absurd (Prod.mk.inj ho).2 nofun

theorem load_again (hh : h.Held w) {s : ThreadState × Cursor} {o : OpenThread}
    (hs : h.rested t = some s) (ho : (h.load w t env).threads.get? t = some o) :
    (o.hosted.log.state, o.hosted.log.cursor) = s := by
  have hright := hh t
  obtain ⟨hcold, hreads⟩ := hright.rested s hs
  obtain ⟨head, hhead⟩ := Option.isSome_iff_exists.mp hcold
  have hhead : h.cold.get? t = some head := hhead
  have hclosed : h.threads.get? t = none :=
    hright.apart.resolve_right fun hnone => absurd (hhead.symm.trans hnone) (Option.some_ne_none head)
  unfold load at ho
  simp only [hclosed, hhead] at ho
  split at ho
  · rename_i files hosted hopen
    have hget : ((h.threads.insert t { hosted, used := env.now }).get? t) = some o := ho
    rw [OrdMap.get?_insert, if_pos rfl] at hget
    rw [← Option.some.inj hget]
    exact openThread_reads hreads hopen
  · exact absurd (hclosed.symm.trans ho).symm (Option.some_ne_none o)

theorem Held.consistent (hh : h.Held w) {last : Option Made}
    (hlast : ∀ t, last = some (.refused t) → h.holds t = false) : h.Consistent w last where
  apart := fun t => (hh t).apart
  listed := fun t => (hh t).listed
  again := fun _ _ _ _ hs ho => load_again hh hs ho
  refused := by
    intro t ht
    have hnone := hlast t ht
    have hlisted := (hh t).listed
    refine ⟨hnone, Option.not_isSome_iff_eq_none.mp (Bool.eq_false_iff.mp ?_)⟩
    exact hlisted.trans hnone

end Host

namespace Hosting

def Consistent (w : HostWires) (m : Hosting) : Prop :=
  match m.worker with
  | .down _ _ => True
  | .up h => h.Consistent w m.last

/-- The operations of a worker that is up are orderly. -/
def Orderly (w : HostWires) (m : Hosting) : WorkerStep → Prop
  | .openHost _ _ _ _ _ _ => True
  | .op op env => ∀ h, m.worker = .up h → env.goesOn = true → h.Orderly w env op

/-- A worker that is up has every thread as it should be. -/
def Right (w : HostWires) (m : Hosting) : Prop :=
  ∀ h, m.worker = .up h →
    h.Held w ∧ ∀ t, m.last = some (.refused t) → h.holds t = false

variable {w : HostWires} {m : Hosting}

theorem openHost_held {disk : OrdMap ThreadId Files} {startsFile : IntentFile} {limits : Limits}
    {epoch : Nat} {order : List ThreadId} {env : ThreadId → Env} {opened : Bool}
    {rewrite : RewriteFates} {h : Host}
    (ho : openHost w disk startsFile limits epoch order env opened rewrite = .up h) : h.Held w := by
  have hrun : ∀ (order : List ThreadId) (h : Host), h.Opening →
      (order.foldl (fun h t => h.openEntry w t (env t)) h).Opening := by
    intro order
    induction order with
    | nil => exact fun _ hh => hh
    | cons t rest ih => exact fun h hh => ih _ (Host.openEntry_opening hh t)
  unfold openHost at ho
  dsimp only at ho
  split at ho
  · exact absurd ho nofun
  · rename_i file starts _
    have hempty := hrun order
      { disk, startsFile, limits, table := { cursor := ⟨epoch, 0⟩ },
        starts := { file := startsFile.file } } ⟨fun _ => rfl, fun _ => rfl, fun _ => rfl⟩
    rw [← Worker.up.inj ho]
    exact Host.Opening.held ⟨hempty.closed, hempty.listed, hempty.rested⟩

theorem step_right (hm : m.Right w) {i : WorkerStep} (hi : m.Orderly w i) :
    (m.step w i).Right w := by
  cases i with
  | openHost limits epoch order env opened rewrite =>
    intro h hup
    unfold step at hup ⊢
    cases hworker : m.worker with
    | down disk startsFile =>
      rw [hworker] at hup
      exact ⟨openHost_held hup, nofun⟩
    | up before =>
      rw [hworker] at hup
      exact ⟨openHost_held hup, nofun⟩
  | op op env =>
    unfold step
    cases hworker : m.worker with
    | down disk startsFile => exact hm
    | up before =>
      dsimp only
      split
      · rename_i hgoes
        intro h hup
        rw [← Worker.up.inj hup]
        exact Host.op_held (hm before hworker).1 (hi before hworker hgoes)
      · exact hm

noncomputable def shortHost : HostWires where
  toWires := Followed.shortWires
  record := Asked.twoRecords
  say := fun _ => ""

theorem createOver_short : ∃ dir log, Log.createOver shortHost.toWires {} 7
    (ThreadState.new { id := 1 }) {} {} = (dir, .ok log) := by
  have hhead := Asked.encode_shortHead
  simp only [Log.createOver, Dir.writeSnapshot, Dir.replace, Fate.halt, Dir.startTail, shortHost,
    hhead]
  exact ⟨_, _, rfl⟩

/-- A worker starts over an empty directory and hosts a thread. -/
noncomputable def hostsOne (intents : Bool) : List WorkerStep :=
  [.openHost {} 7 [] (fun _ => {}) true {},
    .op (.create { id := 1 }) { epoch := 7, create := { intents } }]

def noThreads : Host where
  disk := .empty
  startsFile := {}
  limits := {}
  table := { cursor := ⟨7, 0⟩ }
  starts := { file := 0 }

theorem openHost_noThreads :
    openHost shortHost .empty {} {} 7 [] (fun _ => {}) true {} = .up noThreads := by
  simp [openHost, Intents.openFile, takeAll, noThreads]

end Hosting

end Slopty.Thread
