import Mathlib.Tactic.Common
import Switchyard.Proofs.Engine.Calls

/-!
# The run state of an engine

What holds of an engine after any calls: a pending step belongs to a running engine
and to a target that can run, the target is a controller of the engine, and in a
stopped engine nothing is under way (`Coherent`, `coherent_follow`).

A turn is looked at once (`turn_cases`), and the turns of a tick through what each
turn keeps (`turns_cases`).
-/

namespace Switchyard.Engine

/-- Whether a controller could run a step. -/
def Controller.Runnable (c : Controller) : Prop := c.enabled = true ∧ c.task.isSome = true

/-- Nothing is under way: no cycle is in progress, and no line is current. -/
def Controller.Resting (c : Controller) : Prop := c.executing = false ∧ c.currentLine = none

/-- The parts of the run state fit together. -/
structure Coherent (e : Engine) : Prop where
  /-- A pending step waits in a running engine, for a target that is there, enabled and has a program. -/
  step : e.stepPending = true →
    e.run = .running ∧ ∃ id c, e.target = some id ∧ e.controllers.get? id = some c ∧ c.Runnable
  target : ∀ id, e.target = some id → e.controllers.contains id = true
  stopped : e.run = .stopped → e.stepPending = false ∧ ∀ id c, e.controllers.get? id = some c → c.Resting

variable {e e' : Engine} {id : String} {c c' : Controller} {now : Millis}

theorem contains_of_get? (h : e.controllers.get? id = some c) : e.controllers.contains id = true := by
  rw [SortedMap.contains, h]
  rfl

theorem get?_of_contains (h : e.controllers.contains id = true) : ∃ c, e.controllers.get? id = some c :=
  Option.isSome_iff_exists.1 h

/-- A controller that is there stays when another one is put in. -/
theorem contains_insert (other : String) (h : e.controllers.contains other = true) :
    (e.controllers.insert id c).contains other = true := by
  by_cases ho : other = id
  · rw [ho, SortedMap.contains, SortedMap.get?_insert_self]
    rfl
  · rw [SortedMap.contains, SortedMap.get?_insert_of_ne _ _ ho]
    exact h

theorem Controller.resting_reset (c : Controller) : c.reset.Resting := by
  refine ⟨?_, rfl⟩
  cases h : c.task with
  | none => simp [Controller.executing, Controller.execution?, Controller.reset, h]
  | some t => simp [Controller.executing, Controller.execution?, Controller.reset, h]

theorem Controller.resting_ofConfig (config : ControllerConfig) (rate : Millis) (capacity : Nat) :
    (Controller.ofConfig config rate capacity).Resting := ⟨rfl, rfl⟩

theorem Controller.resting_install (c : Controller) (program : Script.Program) (scope : Script.Scope) :
    (c.install program scope).Resting := ⟨rfl, rfl⟩

/-- A text that is installed puts its program in the place of the present one. -/
theorem Controller.load_eq_ok {source : String} (h : c.load source now = .ok c') :
    ∃ program scope, Controller.prepare source now = .ok (program, scope) ∧ c' = c.install program scope := by
  rw [Controller.load] at h
  cases hp : Controller.prepare source now with
  | error _ => rw [hp] at h; cases h
  | ok ready =>
    rw [hp] at h
    cases h
    exact ⟨ready.1, ready.2, rfl, rfl⟩

/-- The part of a controller that running statements leaves alone. -/
def Controller.lasting (c : Controller) : Controller :=
  { c with breakpoints := ∅, currentLine := none, history := [], logs := [] }

/-- **Running statements** changes nothing else of a controller than what it counts, notes and logs. -/
theorem Progress.lasting_run (stepping : Bool) (now : Millis) (budget : ℕ) (p : Progress) :
    (p.run stepping now budget).2.controller.lasting = p.controller.lasting := by
  have harrive (p : Progress) (line : UInt32) :
      (p.arrive line now).2.controller.lasting = p.controller.lasting := by
    simp only [Progress.arrive]
    split <;> rfl
  induction budget generalizing p with
  | zero => rfl
  | succ budget ih =>
    have hstep : (p.step now).2.controller.lasting = p.controller.lasting := rfl
    rw [Progress.run]
    rcases hs : p.step now with ⟨_ | line | _, q⟩
    all_goals rw [hs] at hstep
    · exact hstep
    · have hq : (q.arrive line now).2.controller.lasting = p.controller.lasting := (harrive q line).trans hstep
      simp only
      split
      · exact hq
      · exact (ih _).trans hq
    · exact hstep

/-- **A turn keeps a controller able to run.** -/
theorem Controller.runnable_turn (h : c.Runnable) (s : Substation) (budget : ℕ) (stepping : Bool) (now : Millis) :
    (c.turn s budget stepping now).2.1.Runnable := by
  obtain ⟨t, ht⟩ := Option.isSome_iff_exists.1 h.2
  simp only [Controller.turn, ht]
  refine ⟨?_, rfl⟩
  exact (congrArg Controller.enabled (Progress.lasting_run stepping now budget _)).trans h.1

/-- A controller at rest among controllers at rest. -/
theorem resting_insert (hc : c.Resting) (hrest : ∀ other d, e.controllers.get? other = some d → d.Resting) :
    ∀ other d, (e.controllers.insert id c).get? other = some d → d.Resting := by
  intro other d hd
  by_cases ho : other = id
  · rw [ho, SortedMap.get?_insert_self] at hd
    cases hd
    exact hc
  · rw [SortedMap.get?_insert_of_ne _ _ ho] at hd
    exact hrest other d hd

/-- A controller is changed and stays as able to run and, in a stopped engine, as much at rest as it was. -/
theorem Coherent.replace (h : Coherent e) (hc : e.controllers.get? id = some c)
    (hrunnable : c.Runnable → c'.Runnable) (hresting : e.run = .stopped → c.Resting → c'.Resting) :
    Coherent { e with controllers := e.controllers.insert id c' } where
  step hstep := by
    obtain ⟨hrun, other, d, htarget, hd, hready⟩ := h.step hstep
    refine ⟨hrun, other, ?_⟩
    -- the controller that changes may be the one that the step waits for
    by_cases ho : other = id
    · subst ho
      obtain rfl : c = d := Option.some.inj (hc.symm.trans hd)
      exact ⟨c', htarget, SortedMap.get?_insert_self _ _ _, hrunnable hready⟩
    · exact ⟨d, htarget, (SortedMap.get?_insert_of_ne _ _ ho).trans hd, hready⟩
  target other htarget := contains_insert other (h.target other htarget)
  stopped hrun := by
    obtain ⟨hstep, hrest⟩ := h.stopped hrun
    exact ⟨hstep, resting_insert (hresting hrun (hrest id c hc)) hrest⟩

/-- An edit of a controller keeps the parts together if controllers can run and rest after it as before. -/
theorem Coherent.modifyController {f : Controller → Controller} (h : Coherent e)
    (hok : e.modifyController id f = .ok e') (hrunnable : ∀ c, c.Runnable → (f c).Runnable)
    (hresting : ∀ c, c.Resting → (f c).Resting) : Coherent e' := by
  obtain ⟨c, hc, rfl⟩ := modifyController_eq_ok hok
  exact h.replace hc (hrunnable c) fun _ => hresting c

/-- Nothing waits for the controller under an id: no step is pending, or the target is another one. -/
def Spare (e : Engine) (id : String) : Prop := e.stepPending = false ∨ e.target ≠ some id

theorem stepPending_dropStep (e : Engine) : e.dropStep.stepPending = false := by
  rw [dropStep]
  cases hs : e.stepPending with
  | true => rfl
  | false => exact hs

theorem controllers_dropStep (e : Engine) : e.dropStep.controllers = e.controllers := by
  rw [dropStep]
  split <;> rfl

/-- It does not matter whether the step is given up before the controllers change or after. -/
theorem dropStep_withControllers (e : Engine) (controllers : SortedMap String Controller) :
    ({ e with controllers } : Engine).dropStep = { e.dropStep with controllers } := by
  simp only [dropStep]
  split <;> rfl

/-- A step that is pending may be dropped at any time. -/
theorem Coherent.dropStep (h : Coherent e) : Coherent e.dropStep where
  step hs := by simp [stepPending_dropStep] at hs
  target := by
    rw [Engine.dropStep]
    split <;> exact h.target
  stopped hr := by
    rw [Engine.dropStep] at hr ⊢
    split at hr
    · cases hr
    · rename_i hs
      rw [if_neg hs]
      exact h.stopped hr

/-- Giving up the step of a controller leaves nothing that waits for it. -/
theorem spare_dropStep (e : Engine) (id : String) : Spare (if e.target = some id then e.dropStep else e) id := by
  split
  · exact .inl (stepPending_dropStep e)
  · exact .inr ‹_›

/-- Without a pending step, the engine may look at any of its controllers, or at none. -/
theorem Coherent.retarget (h : Coherent e) (hs : e.stepPending = false) {target : Option String}
    (ht : ∀ id, target = some id → e.controllers.contains id = true) : Coherent { e with target } where
  step hstep := absurd hstep (by simp [hs])
  target := ht
  stopped := h.stopped

/-- A controller that nothing waits for may be put in place, or changed, in any way that leaves it at rest. -/
theorem Coherent.insert (h : Coherent e) (hspare : Spare e id) (hresting : c.Resting) :
    Coherent { e with controllers := e.controllers.insert id c } where
  step hstep := by
    obtain ⟨hrun, other, d, htarget, hd, hready⟩ := h.step hstep
    -- the step waits for another controller
    have ho : other ≠ id := by
      rintro rfl
      rcases hspare with hs | ht
      · exact absurd hstep (by simp [hs])
      · exact ht htarget
    exact ⟨hrun, other, d, htarget, (SortedMap.get?_insert_of_ne _ _ ho).trans hd, hready⟩
  target other htarget := contains_insert other (h.target other htarget)
  stopped hrun := by
    obtain ⟨hstep, hrest⟩ := h.stopped hrun
    exact ⟨hstep, resting_insert hresting hrest⟩

/-- A new controller takes the place of an old one, for which no step is pending any more. -/
theorem coherent_addController (h : Coherent e) (config : ControllerConfig) : Coherent (e.addController config) := by
  have hdrop : Coherent (if e.target = some config.id then e.dropStep else e) := by
    split
    · exact h.dropStep
    · exact h
  exact hdrop.insert (spare_dropStep e config.id) (Controller.resting_ofConfig ..)

/-- A controller that is not the target may be taken away. -/
theorem Coherent.erase (h : Coherent e) (ht : e.target ≠ some id) :
    Coherent { e with controllers := e.controllers.erase id } where
  step hstep := by
    obtain ⟨hrun, other, d, htarget, hd, hready⟩ := h.step hstep
    refine ⟨hrun, other, d, htarget, SortedMap.get?_erase_eq_some.2 ⟨?_, hd⟩, hready⟩
    rintro rfl
    exact ht htarget
  target other htarget := by
    obtain ⟨d, hd⟩ := get?_of_contains (h.target other htarget)
    have hd' : (e.controllers.erase id).get? other = some d := by
      refine SortedMap.get?_erase_eq_some.2 ⟨?_, hd⟩
      rintro rfl
      exact ht htarget
    rw [SortedMap.contains, hd']
    rfl
  stopped hrun := by
    obtain ⟨hstep, hrest⟩ := h.stopped hrun
    exact ⟨hstep, fun other d hd => hrest other d (SortedMap.get?_erase_eq_some.1 hd).2⟩

/-- With a controller goes all that waits for it. -/
theorem coherent_removeController (h : Coherent e) (hok : e.removeController id = .ok e') : Coherent e' := by
  obtain ⟨-, rfl⟩ := removeController_eq_ok hok
  split
  · -- the target goes: its step is given up first, then the engine looks at no controller
    have hnone : Coherent { e.dropStep with target := none } :=
      h.dropStep.retarget (stepPending_dropStep e) fun _ ht => nomatch ht
    have herase : Coherent { e.dropStep with target := none, controllers := e.dropStep.controllers.erase id } :=
      hnone.erase fun ht => nomatch ht
    rw [controllers_dropStep] at herase
    rw [dropStep_withControllers]
    exact herase
  · exact h.erase ‹_›

/-- **All that a turn can come to**: it passes a controller over, or it goes on, pauses or stops the engine. -/
inductive Turned (e : Engine) (id : String) (now : Millis) : Interruption × Engine → Prop
  | passed : Turned e id now (.none, e)
  | went {c c' substation ending} (hc : e.controllers.get? id = some c) (henabled : c.enabled = true)
      (hturn : c.turn e.substation e.settings.statementBudget (e.stepping id) now = (ending, c', substation))
      (hpause : ∀ line, ending ≠ .paused line) (hfail : ∀ err, ending ≠ .failed err) :
      Turned e id now (.none, { e with controllers := e.controllers.insert id c', substation })
  | paused {c c' substation line} (hc : e.controllers.get? id = some c) (henabled : c.enabled = true)
      (hturn : c.turn e.substation e.settings.statementBudget (e.stepping id) now = (.paused line, c', substation)) :
      Turned e id now (.pause id line, { e with
        controllers := e.controllers.insert id c', substation, run := .paused, stepPending := false,
        target := some id })
  | failed {c c' substation err} (hc : e.controllers.get? id = some c) (henabled : c.enabled = true)
      (hturn : c.turn e.substation e.settings.statementBudget (e.stepping id) now = (.failed err, c', substation)) :
      Turned e id now (.error (id ++ ": " ++ err.display), {
        ({ e with controllers := e.controllers.insert id c', substation } : Engine).stop with
        lastError := some (id ++ ": " ++ err.display) })

/-- A turn comes to one of these ends. -/
theorem turn_cases (e : Engine) (id : String) (now : Millis) : Turned e id now (e.turn id now) := by
  rw [turn]
  split
  · exact .passed
  · rename_i c hc
    split
    · rename_i hgoes
      have henabled : c.enabled = true := (Bool.and_eq_true_iff.1 hgoes).1
      rcases hturn : c.turn e.substation e.settings.statementBudget (e.stepping id) now with ⟨ending, c', substation⟩
      simp only
      split
      · exact .paused hc henabled hturn
      · exact .failed hc henabled hturn
      · rename_i hpause hfail
        exact .went hc henabled hturn hpause hfail
    · exact .passed

/-- **The turns of a tick.** Either all controllers have their turns, or the turn of one of them, after
those before it, interrupts the tick; what each turn that goes on keeps holds up to there. -/
theorem turns_cases {P : Engine → Prop} (hkeep : ∀ e id e', P e → e.turn id now = (.none, e') → P e')
    (ids : List String) (he : P e) :
    (∃ e', P e' ∧ e.turns now ids = (.none, e')) ∨
      ∃ e' id, P e' ∧ (e'.turn id now).1 ≠ .none ∧ e.turns now ids = e'.turn id now := by
  induction ids generalizing e with
  | nil => exact .inl ⟨e, he, rfl⟩
  | cons id ids ih =>
    rw [turns]
    split
    · rename_i e' hturn
      exact ih (hkeep e id e' he hturn)
    · rename_i hinterrupts
      refine .inr ⟨e, id, he, fun hnone => ?_, rfl⟩
      exact hinterrupts (e.turn id now).2 (Prod.ext hnone rfl)

/-- A tick before its turns: noise and publishers have run. -/
def prepared (e : Engine) (now : Millis) : Engine :=
  let applied := applyNoises e.noises e.substation.model
  { e with noises := applied.2, substation := ({ e.substation with model := applied.1 }.transmit now).2.takeUpdates.2 }

/-- A tick of a running engine gives controllers their turns, and reports the error that stops it. -/
theorem tick_of_running (hrun : e.run = .running) (now : Millis) :
    (e.tick now).2 = ((e.prepared now).turns now e.controllers.keys).2 ∧
      ∀ message, ((e.prepared now).turns now e.controllers.keys).1 = .error message →
        (e.tick now).1.error = some message := by
  simp only [tick, if_pos hrun]
  split <;> rename_i hturns
  all_goals
    have hfst := congrArg Prod.fst hturns
    have hsnd := congrArg Prod.snd hturns
    refine ⟨hsnd.symm, fun message hmessage => ?_⟩
    cases hfst.symm.trans hmessage
  rfl

/-- A tick of an engine that does not run is over before its turns. -/
theorem tick_of_not_running (hrun : e.run ≠ .running) (now : Millis) : (e.tick now).2 = e.prepared now := by
  simp only [tick, if_neg hrun]
  rfl

theorem Coherent.prepared (h : Coherent e) (now : Millis) : Coherent (e.prepared now) := ⟨h.step, h.target, h.stopped⟩

/-- Stopping an engine resets its controllers. -/
theorem get?_stop (e : Engine) (id : String) :
    e.stop.controllers.get? id = (e.controllers.get? id).map Controller.reset := SortedMap.get?_mapValues _ _ _

/-- Stopping removes no controller. -/
theorem contains_stop (h : e.controllers.contains id = true) : e.stop.controllers.contains id = true := by
  obtain ⟨c, hc⟩ := get?_of_contains h
  refine contains_of_get? (c := c.reset) ?_
  rw [get?_stop, hc]
  rfl

/-- After a stop, nothing is under way in any controller. -/
theorem resting_stop (e : Engine) : ∀ id c, e.stop.controllers.get? id = some c → c.Resting := by
  intro id c hc
  rw [get?_stop] at hc
  obtain ⟨d, -, rfl⟩ := Option.map_eq_some_iff.1 hc
  exact d.resting_reset

theorem coherent_stop (h : Coherent e) : Coherent e.stop where
  step hs := (nomatch hs)
  target id ht := contains_stop (h.target id ht)
  stopped _ := ⟨rfl, resting_stop e⟩

theorem coherent_start (h : Coherent e) : Coherent e.start where
  step hs := (nomatch hs)
  target id ht := by
    rw [start] at ht ⊢
    split at ht
    · rename_i hrun
      rw [if_pos hrun]
      exact (coherent_stop h).target id ht
    · rename_i hrun
      rw [if_neg hrun]
      exact h.target id ht
  stopped hr := nomatch hr

/-- A turn that goes on keeps an engine running and its parts together. -/
theorem coherent_turn (h : Coherent e) (hrun : e.run = .running) (hturn : e.turn id now = (.none, e')) :
    Coherent e' ∧ e'.run = .running := by
  have hcases := turn_cases e id now
  rw [hturn] at hcases
  cases hcases with
  | passed => exact ⟨h, hrun⟩
  | @went c c' substation ending hc _ hgo =>
    have hkeeps : c.Runnable → c'.Runnable := fun hready => by
      have hrunnable := Controller.runnable_turn hready e.substation e.settings.statementBudget (e.stepping id) now
      rw [hgo] at hrunnable
      exact hrunnable
    have hreplace := h.replace hc hkeeps fun hstopped _ => absurd (hrun.symm.trans hstopped) (by decide)
    exact ⟨⟨hreplace.step, hreplace.target, hreplace.stopped⟩, hrun⟩

/-- A turn that interrupts the tick leaves the parts together. -/
theorem coherent_interrupted (h : Coherent e) (hturn : (e.turn id now).1 ≠ .none) : Coherent (e.turn id now).2 := by
  have hcases := turn_cases e id now
  rcases hresult : e.turn id now with ⟨interruption, e'⟩
  rw [hresult] at hcases hturn
  cases hcases with
  | passed => exact absurd rfl hturn
  | went => exact absurd rfl hturn
  | @paused c c' substation line hc =>
    -- the controller that paused becomes the target, and it is in its place
    refine ⟨fun hs => (nomatch hs), fun other ht => ?_, fun hr => (nomatch hr)⟩
    obtain rfl : id = other := Option.some.inj ht
    rw [SortedMap.contains, SortedMap.get?_insert_self]
    rfl
  | @failed c c' substation err hc =>
    -- the error stops the engine, and that resets all controllers
    let inserted : Engine := { e with controllers := e.controllers.insert id c', substation }
    have hin (other) (ht : e.target = some other) : inserted.controllers.contains other = true :=
      contains_insert other (h.target other ht)
    exact ⟨fun hs => (nomatch hs), fun other ht => contains_stop (hin other ht), fun _ => ⟨rfl, resting_stop inserted⟩⟩

/-- A tick keeps the parts together, as each of its turns does. -/
theorem coherent_tick (h : Coherent e) (now : Millis) : Coherent (e.tick now).2 := by
  by_cases hrun : e.run = .running
  · rw [(tick_of_running hrun now).1]
    have hkeep (e : Engine) (id : String) (e' : Engine) (h : Coherent e ∧ e.run = .running)
        (hturn : e.turn id now = (.none, e')) : Coherent e' ∧ e'.run = .running := coherent_turn h.1 h.2 hturn
    rcases turns_cases hkeep e.controllers.keys ⟨h.prepared now, hrun⟩ with
      ⟨e', ⟨he', -⟩, hturns⟩ | ⟨e', id, ⟨he', -⟩, hinterrupts, hturns⟩
    · rw [hturns]
      exact he'
    · rw [hturns]
      exact coherent_interrupted he' hinterrupts
  · rw [tick_of_not_running hrun now]
    exact h.prepared now

theorem coherent_pause (h : Coherent e) (hok : e.pause = .ok e') : Coherent e' := by
  rw [pause] at hok
  split at hok <;> cases hok
  · exact ⟨fun hs => (nomatch hs), h.target, fun hr => (nomatch hr)⟩
  · exact h

theorem coherent_resume (h : Coherent e) (hok : e.resume = .ok e') : Coherent e' := by
  rw [resume] at hok
  split at hok <;> cases hok
  · exact ⟨fun hs => (nomatch hs), h.target, fun hr => (nomatch hr)⟩
  · exact h

/-- A step is granted to a paused engine whose target can run. -/
theorem stepOver_eq_ok (hok : e.stepOver = .ok e') :
    e.run = .paused ∧ e' = { e with run := .running, stepPending := true } ∧
      ∃ id c, e.target = some id ∧ e.controllers.get? id = some c ∧ c.Runnable := by
  rw [stepOver] at hok
  split at hok
  · cases hok
  · rename_i hrun
    split at hok
    · cases hok
    · rename_i id ht
      split at hok <;> cases hok
      rename_i hready
      obtain ⟨c, hc, hready⟩ := (Option.any_eq_true _ _).1 hready
      exact ⟨not_not.1 hrun, rfl, id, c, ht, hc, Bool.and_eq_true_iff.1 hready⟩

/-- A step can be asked for in a pause only, and only of a controller that could run it. -/
theorem coherent_stepOver (h : Coherent e) (hok : e.stepOver = .ok e') : Coherent e' := by
  obtain ⟨-, rfl, hready⟩ := stepOver_eq_ok hok
  exact ⟨fun _ => ⟨rfl, hready⟩, h.target, fun hr => (nomatch hr)⟩

theorem coherent_enable {enabled : Bool} (h : Coherent e) (hok : e.enable id enabled = .ok e') : Coherent e' := by
  rcases enable_eq_ok hok with hok | ⟨middle, hmodify, rfl⟩
  · exact h.modifyController hok (fun c hc => ⟨rfl, hc.2⟩) fun c hc => hc
  · obtain ⟨c, hc, rfl⟩ := modifyController_eq_ok hmodify
    -- the step of the controller may as well be given up before its cycle is dropped
    have hdrop : Coherent (if e.target = some id then e.dropStep else e) := by
      split
      · exact h.dropStep
      · exact h
    have hrest : ({ c with enabled := false } : Controller).reset.Resting := Controller.resting_reset _
    have hinsert := hdrop.insert (spare_dropStep e id) hrest
    split
    · rename_i ht
      rw [if_pos ht, controllers_dropStep] at hinsert
      rw [dropStep_withControllers]
      exact hinsert
    · rename_i ht
      rw [if_neg ht] at hinsert
      exact hinsert

/-- A program that is loaded leaves nothing under way. -/
theorem coherent_loadProgram {source : String} (h : Coherent e) (hok : e.loadProgram id source now = .ok e') :
    Coherent e' := by
  obtain ⟨c, c', hc, hload, rfl⟩ := loadProgram_eq_ok hok
  obtain ⟨program, scope, -, rfl⟩ := Controller.load_eq_ok hload
  exact h.replace hc (fun hready => ⟨hready.1, rfl⟩) fun _ _ => c.resting_install program scope

/-- With a change of the target, a step that is pending is dropped. -/
theorem coherent_setTarget {target : Option String} (h : Coherent e) (hok : e.setTarget target = .ok e') :
    Coherent e' := by
  have hfree : Coherent { e with stepPending := false } :=
    ⟨fun hs => (nomatch hs), h.target, fun hr => ⟨rfl, (h.stopped hr).2⟩⟩
  obtain ⟨hchosen, rfl⟩ := setTarget_eq_ok hok
  exact hfree.retarget rfl hchosen

/-- Whatever call succeeds keeps the parts together. -/
theorem coherent_answer {call : Call} (h : Coherent e) (hok : e.answer now call = .ok e') : Coherent e' := by
  cases call with
  | start => cases hok; exact coherent_start h
  | stop => cases hok; exact coherent_stop h
  | pause => exact coherent_pause h hok
  | resume => exact coherent_resume h hok
  | stepOver => exact coherent_stepOver h hok
  | addController config => cases hok; exact coherent_addController h config
  | removeController id => exact coherent_removeController h hok
  | enable id enabled => exact coherent_enable h hok
  | setTickRate id rate => exact h.modifyController hok (fun c hc => hc) fun c hc => hc
  | loadProgram id source => exact coherent_loadProgram h hok
  | setBreakpoint id line enabled condition hitCount =>
    exact h.modifyController hok (fun c hc => hc) fun c hc => hc
  | removeBreakpoint id line =>
    obtain ⟨c, hc, rfl⟩ := removeBreakpoint_eq_ok hok
    exact h.replace hc (fun hready => hready) fun _ hrest => hrest
  | clearBreakpoints id => exact h.modifyController hok (fun c hc => hc) fun c hc => hc
  | setTarget id => exact coherent_setTarget h hok
  | addNoise generator targets => cases hok; exact ⟨h.step, h.target, h.stopped⟩
  | replaceSubstation substation => cases hok; exact ⟨h.step, h.target, h.stopped⟩
  | tick => cases hok; exact coherent_tick h now

/-- A call keeps the parts together, as one that fails changes nothing. -/
theorem coherent_after (h : Coherent e) (now : Millis) (call : Call) : Coherent (e.after now call) := by
  rcases after_cases e now call with hsame | hok
  · rw [hsame]
    exact h
  · exact coherent_answer h hok

/-- A new engine has no controllers and does not run. -/
theorem coherent_new (settings : Settings) : Coherent (new settings) :=
  ⟨fun hs => (nomatch hs), fun _ ht => (nomatch ht), fun _ => ⟨rfl, fun _ _ hc => (nomatch hc)⟩⟩

/-- **The run state of an engine fits together** after any calls at any times. -/
theorem coherent_follow (settings : Settings) (calls : List (Millis × Call)) :
    Coherent ((new settings).follow calls) :=
  follow_invariant (P := Coherent) (fun _ now call h => coherent_after h now call) (coherent_new settings) calls

end Switchyard.Engine
