import Mathlib.Data.List.Induction
import Switchyard.Proofs.Engine.RunState

/-!
# Single steps

A single step lets the target of a paused engine run one statement. From there on,
whatever is called but `start`, `stop` and `resume`, the engine is paused, or an error
of a program has stopped it, or it still runs for the sake of that step -- unless
another target is chosen while the step is pending: the step is then given up, and
the engine runs on (`single_step_iff`).

* `Managed`, `managed_after`: all that a call can do to a step.
* `statements`: the statements that a controller runs up to the next pause.
-/

namespace Switchyard.Engine

/-- The calls that neither set an engine going nor stop it. -/
def Call.Manages : Call → Prop
  | .start | .stop | .resume => False
  | _ => True

/-- Another target, or none, is chosen while a step is pending. -/
structure Retargets (e : Engine) (call : Call) : Prop where
  running : e.run = .running
  pending : e.stepPending = true
  chosen : ∃ target, call = .setTarget target ∧ ∀ id, target = some id → e.controllers.contains id = true

variable {e e' : Engine} {id : String} {now : Millis} {call : Call} {calls : List (Millis × Call)}

/-- **All that a call can do to a step.** -/
inductive Managed (e : Engine) (now : Millis) (call : Call) (e' : Engine) : Prop
  | quiet (hrun : e'.run = e.run) (herror : e'.lastError = e.lastError)
      (hstep : e.stepPending = true → e.run = .running → e'.stepPending = true ∧ e'.target = e.target)
  | paused (hrun : e'.run = .paused)
  | granted (hpaused : e.run = .paused) (hrun : e'.run = .running) (hstep : e'.stepPending = true)
  | failed (htick : call = .tick) (hrunning : e.run = .running) (hrun : e'.run = .stopped)
      (herror : ∃ message, e'.lastError = some message ∧ (e.tick now).1.error = some message)
  | retargeted (h : Retargets e call) (hrun : e'.run = .running) (hstep : e'.stepPending = false)

/-- A call that only changes controllers. -/
theorem managed_of_eq (hrun : e'.run = e.run) (herror : e'.lastError = e.lastError)
    (hstep : e'.stepPending = e.stepPending) (htarget : e'.target = e.target) : Managed e now call e' :=
  .quiet hrun herror fun hs _ => ⟨hstep.trans hs, htarget⟩

theorem managed_refl (e : Engine) (now : Millis) (call : Call) : Managed e now call e :=
  managed_of_eq rfl rfl rfl rfl

theorem managed_modifyController {f : Controller → Controller} (hok : e.modifyController id f = .ok e') :
    Managed e now call e' := by
  obtain ⟨c, -, rfl⟩ := modifyController_eq_ok hok
  exact managed_of_eq rfl rfl rfl rfl

/-- A step that is given up leaves the engine paused. -/
theorem managed_dropStep (e : Engine) : Managed e now call e.dropStep := by
  rw [dropStep]
  split
  · exact .paused rfl
  · exact managed_refl e now call

/-- A step matters only through the run state, the target and the last error. -/
theorem Managed.congr {e₁ e₂ : Engine} (h : Managed e now call e₁) (hrun : e₂.run = e₁.run)
    (hstep : e₂.stepPending = e₁.stepPending) (htarget : e₁.stepPending = true → e₂.target = e₁.target)
    (herror : e₂.lastError = e₁.lastError) : Managed e now call e₂ := by
  cases h with
  | quiet hrun' herror' hstep' =>
    refine .quiet (hrun.trans hrun') (herror.trans herror') fun hs hr => ?_
    obtain ⟨hs', ht'⟩ := hstep' hs hr
    exact ⟨hstep.trans hs', (htarget hs').trans ht'⟩
  | paused hrun' => exact .paused (hrun.trans hrun')
  | granted hpaused hrun' hstep' => exact .granted hpaused (hrun.trans hrun') (hstep.trans hstep')
  | failed htick hrunning hrun' herror' =>
    rw [← herror] at herror'
    exact .failed htick hrunning (hrun.trans hrun') herror'
  | retargeted h hrun' hstep' => exact .retargeted h (hrun.trans hrun') (hstep.trans hstep')

/-- A step that is given up together with any change of controllers or of the target. -/
theorem managed_given_up (hrun : e'.run = e.dropStep.run) (hstep : e'.stepPending = e.dropStep.stepPending)
    (herror : e'.lastError = e.dropStep.lastError) : Managed e now call e' :=
  (managed_dropStep e).congr hrun hstep (fun hs => absurd hs (by simp [stepPending_dropStep])) herror

theorem managed_addController (e : Engine) (config : ControllerConfig) :
    Managed e now call (e.addController config) := by
  by_cases ht : e.target = some config.id
  · refine managed_given_up ?_ ?_ ?_ <;> simp only [addController, if_pos ht]
  · refine managed_of_eq ?_ ?_ ?_ ?_ <;> simp only [addController, if_neg ht]

/-- When the target is removed, a pending step is given up and the engine pauses. -/
theorem managed_removeController (hok : e.removeController id = .ok e') : Managed e now call e' := by
  obtain ⟨-, rfl⟩ := removeController_eq_ok hok
  by_cases ht : e.target = some id
  · rw [if_pos ht, dropStep_withControllers]
    exact managed_given_up rfl rfl rfl
  · rw [if_neg ht]
    exact managed_of_eq rfl rfl rfl rfl

theorem managed_enable {enabled : Bool} (hok : e.enable id enabled = .ok e') : Managed e now call e' := by
  rcases enable_eq_ok hok with hok | ⟨middle, hmodify, rfl⟩
  · exact managed_modifyController hok
  · obtain ⟨c, -, rfl⟩ := modifyController_eq_ok hmodify
    by_cases ht : e.target = some id
    · rw [if_pos ht, dropStep_withControllers]
      exact managed_given_up rfl rfl rfl
    · rw [if_neg ht]
      exact managed_of_eq rfl rfl rfl rfl

/-- Choosing a target gives up a pending step, but leaves the engine running. -/
theorem managed_setTarget {target : Option String} (hok : e.setTarget target = .ok e') :
    Managed e now (.setTarget target) e' := by
  obtain ⟨hchosen, rfl⟩ := setTarget_eq_ok hok
  by_cases hr : e.run = .running ∧ e.stepPending = true
  · exact .retargeted ⟨hr.1, hr.2, target, rfl, hchosen⟩ hr.1 rfl
  · exact .quiet rfl rfl fun hs hrun => absurd ⟨hrun, hs⟩ hr

/-- A tick keeps a pending step, unless it pauses the engine or fails. -/
theorem managed_tick (e : Engine) (now : Millis) : Managed e now .tick (e.tick now).2 := by
  by_cases hrun : e.run = .running
  · obtain ⟨htick, herror⟩ := tick_of_running hrun now
    -- what the turns that go on keep
    let Kept (e' : Engine) : Prop :=
      e'.run = .running ∧ e'.lastError = e.lastError ∧ e'.stepPending = e.stepPending ∧ e'.target = e.target
    have hkeep (e₁ : Engine) (id : String) (e₂ : Engine) (h : Kept e₁) (hturn : e₁.turn id now = (.none, e₂)) :
        Kept e₂ := by
      have hcases := turn_cases e₁ id now
      rw [hturn] at hcases
      cases hcases with
      | passed => exact h
      | went => exact h
    rw [htick]
    rcases turns_cases hkeep e.controllers.keys (show Kept (e.prepared now) from ⟨hrun, rfl, rfl, rfl⟩) with
      ⟨e', ⟨hrun', herror', hstep', htarget'⟩, hturns⟩ | ⟨e', id, -, hinterrupts, hturns⟩
    · rw [hturns]
      exact managed_of_eq (hrun'.trans hrun.symm) herror' hstep' htarget'
    · rw [hturns] at herror ⊢
      have hcases := turn_cases e' id now
      rcases hresult : e'.turn id now with ⟨interruption, e''⟩
      rw [hresult] at hcases hinterrupts herror
      cases hcases with
      | passed => exact absurd rfl hinterrupts
      | went => exact absurd rfl hinterrupts
      | paused => exact .paused rfl
      | failed => exact .failed rfl hrun rfl ⟨_, rfl, herror _ rfl⟩
  · rw [tick_of_not_running hrun]
    exact managed_of_eq rfl rfl rfl rfl

/-- A call that succeeds does to the run state what its kind allows. -/
theorem managed_answer (hcall : call.Manages) (hok : e.answer now call = .ok e') : Managed e now call e' := by
  cases call with
  | start => exact hcall.elim
  | stop => exact hcall.elim
  | resume => exact hcall.elim
  | pause =>
    simp only [answer, pause] at hok
    split at hok <;> cases hok
    · exact .paused rfl
    · exact managed_refl e now .pause
  | stepOver =>
    obtain ⟨hpaused, rfl, -⟩ := stepOver_eq_ok hok
    exact .granted hpaused rfl rfl
  | addController config => cases hok; exact managed_addController e config
  | removeController id => exact managed_removeController hok
  | enable id enabled => exact managed_enable hok
  | setTickRate id rate => exact managed_modifyController hok
  | loadProgram id source =>
    obtain ⟨c, c', -, -, rfl⟩ := loadProgram_eq_ok hok
    exact managed_of_eq rfl rfl rfl rfl
  | setBreakpoint id line enabled condition hitCount => exact managed_modifyController hok
  | removeBreakpoint id line =>
    obtain ⟨c, -, rfl⟩ := removeBreakpoint_eq_ok hok
    exact managed_of_eq rfl rfl rfl rfl
  | clearBreakpoints id => exact managed_modifyController hok
  | setTarget target => exact managed_setTarget hok
  | addNoise generator targets => cases hok; exact managed_of_eq rfl rfl rfl rfl
  | replaceSubstation substation => cases hok; exact managed_of_eq rfl rfl rfl rfl
  | tick => cases hok; exact managed_tick e now

/-- A call does so whatever its outcome, as one that fails changes nothing. -/
theorem managed_after (e : Engine) (now : Millis) (hcall : call.Manages) : Managed e now call (e.after now call) := by
  rcases after_cases e now call with hsame | hok
  · rw [hsame]
    exact managed_refl e now call
  · exact managed_answer hcall hok

/-- **Choosing a target sets the engine free**: it runs, and no step is pending. -/
theorem after_of_retargets (h : Retargets e call) (now : Millis) :
    (e.after now call).run = .running ∧ (e.after now call).stepPending = false := by
  obtain ⟨target, rfl, hchosen⟩ := h.chosen
  have hok : e.answer now (.setTarget target) = .ok { e with target, stepPending := false } := by
    cases target with
    | none => rfl
    | some id => exact if_pos (hchosen id rfl)
  rw [after_of_ok hok]
  exact ⟨h.running, rfl⟩

/-- An error of a program has stopped the engine: one of the calls was a tick that reported it. -/
def FailedIn (e : Engine) (calls : List (Millis × Call)) : Prop :=
  ∃ first now later message, calls = first ++ (now, .tick) :: later ∧
    ((e.follow first).tick now).1.error = some message ∧ (e.follow calls).lastError = some message

/-- After these calls the engine is paused, or an error has stopped it, or it runs for the sake of a step. -/
def Held (e : Engine) (calls : List (Millis × Call)) : Prop :=
  (e.follow calls).run = .paused ∨ ((e.follow calls).run = .stopped ∧ FailedIn e calls) ∨
    ((e.follow calls).run = .running ∧ (e.follow calls).stepPending = true)

theorem follow_concat (e : Engine) (first : List (Millis × Call)) (c : Millis × Call) :
    e.follow (first ++ [c]) = (e.follow first).after c.1 c.2 := follow_append e first [c]

/-- One more call that manages and does not retarget keeps the engine held. -/
theorem Held.next {first : List (Millis × Call)} {c : Millis × Call} (h : Held e first) (hcall : c.2.Manages)
    (hretargets : ¬ Retargets (e.follow first) c.2) : Held e (first ++ [c]) := by
  have hfollow := follow_concat e first c
  simp only [Held, hfollow]
  cases managed_after (e.follow first) c.1 hcall with
  | quiet hrun herror hstep =>
    rcases h with hpaused | ⟨hstopped, before, now, later, message, rfl, hreport, hlast⟩ | ⟨hrunning, hpending⟩
    · exact .inl (hrun.trans hpaused)
    · refine .inr (.inl ⟨hrun.trans hstopped, before, now, later ++ [c], message, by simp, hreport, ?_⟩)
      rw [hfollow, herror]
      exact hlast
    · exact .inr (.inr ⟨hrun.trans hrunning, (hstep hpending hrunning).1⟩)
  | paused hrun => exact .inl hrun
  | granted _ hrun hstep => exact .inr (.inr ⟨hrun, hstep⟩)
  | failed htick _ hrun herror =>
    obtain ⟨message, hlast, hreport⟩ := herror
    refine .inr (.inl ⟨hrun, first, c.1, [], message, by rw [← htick], hreport, ?_⟩)
    rw [hfollow]
    exact hlast
  | retargeted hretargeted => exact absurd hretargeted hretargets

/-- Calls that manage and do not retarget keep a held engine held. -/
theorem held_follow (h : Held e []) (hcalls : ∀ c ∈ calls, c.2.Manages)
    (hretargets : ∀ first c, first ++ [c] <+: calls → ¬ Retargets (e.follow first) c.2) : Held e calls := by
  -- from the last call backwards, since the target must not change in any state on the way
  induction calls using List.reverseRecOn with
  | nil => exact h
  | append_singleton first c ih =>
    have hfirst : Held e first := by
      refine ih (fun d hd => hcalls d (by simp [hd])) fun before d hpart => ?_
      exact hretargets before d (hpart.trans (List.prefix_append first [c]))
    exact hfirst.next (hcalls c (by simp)) (hretargets first c (List.prefix_refl _))

/-- The statements that a cycle under way runs within a budget; one that fails counts. -/
def Progress.statements (stepping : Bool) (now : Millis) : Nat → Progress → Nat
  | 0, _ => 0
  | budget + 1, p =>
    match p.step now with
    | (.error _, _) => 1
    | (.ok .completed, _) => 0
    | (.ok (.suspended line), p) =>
      let (hit, p) := p.arrive line now
      if hit || stepping then 1 else p.statements stepping now budget + 1

/-- The statements of a turn. -/
def Controller.statements (c : Controller) (s : Substation) (budget : Nat) (stepping : Bool) (now : Millis) : Nat :=
  match c.task with
  | none => 0
  | some t => Progress.statements stepping now budget ⟨t.execution.getD (.start t.program), t.scope, c, s⟩

/-- The statements that a controller runs in its turn, if it gets one. -/
def turnStatements (e : Engine) (id : String) (now : Millis) : Nat :=
  match e.controllers.get? id with
  | none => 0
  | some c =>
    if c.enabled && (c.due now || e.stepping id) then
      c.statements e.substation e.settings.statementBudget (e.stepping id) now
    else 0

/-- The statements that a controller runs in the turns of a tick. -/
def turnsStatements (now : Millis) (id : String) : List String → Engine → Nat
  | [], _ => 0
  | other :: ids, e =>
    (if other = id then e.turnStatements id now else 0) +
      match e.turn other now with
      | (.none, e) => turnsStatements now id ids e
      | _ => 0

/-- The statements that a controller runs in a tick. -/
def tickStatements (e : Engine) (now : Millis) (id : String) : Nat :=
  if e.run = .running then turnsStatements now id e.controllers.keys (e.prepared now) else 0

/-- The statements that a controller runs during a call. -/
def callStatements (e : Engine) (now : Millis) (id : String) : Call → Nat
  | .tick => e.tickStatements now id
  | _ => 0

/-- The statements that a controller runs while calls are made, up to the first moment when the engine does not run. -/
def statements (id : String) (e : Engine) : List (Millis × Call) → Nat
  | [] => 0
  | (now, call) :: calls =>
    e.callStatements now id call +
      if (e.after now call).run = .running then statements id (e.after now call) calls else 0

/-- A step pends for a controller. -/
structure StepsTo (e : Engine) (id : String) : Prop where
  pending : e.stepPending = true
  target : e.target = some id

theorem StepsTo.stepping (h : StepsTo e id) : e.stepping id = true := by
  simp [Engine.stepping, h.pending, h.target]

/-- At most one statement is run, and when one is, what ends the run holds. -/
structure OneThen (count : ℕ) (ends : Prop) : Prop where
  le_one : count ≤ 1
  ends : count = 1 → ends

theorem OneThen.zero {ends : Prop} : OneThen 0 ends := ⟨Nat.zero_le 1, fun h => absurd h Nat.zero_ne_one⟩

/-- A statement may be the last one. -/
theorem OneThen.one {ends : Prop} (h : ends) : OneThen 1 ends := ⟨Nat.le_refl 1, fun _ => h⟩

theorem OneThen.mono {count : ℕ} {ends ends' : Prop} (h : OneThen count ends) (himp : ends → ends') :
    OneThen count ends' := ⟨h.le_one, fun hone => himp (h.ends hone)⟩

/-- When the run is not ended, nothing is run. -/
theorem OneThen.eq_zero {count : ℕ} {ends : Prop} (h : OneThen count ends) (hgoes : ¬ ends) : count = 0 := by
  have hle := h.le_one
  have hne := mt h.ends hgoes
  omega

/-- A turn pauses or fails. -/
def TurnEnd.Breaks (ending : TurnEnd) : Prop := (∃ line, ending = .paused line) ∨ ∃ err, ending = .failed err

/-- A single step runs at most one statement, and when it runs one, the turn pauses or fails. -/
theorem Progress.statements_stepping (now : Millis) (budget : ℕ) (p : Progress) :
    OneThen (p.statements true now budget) (p.run true now budget).1.Breaks := by
  cases budget with
  | zero => exact .zero
  | succ budget =>
    rw [Progress.statements, Progress.run]
    rcases p.step now with ⟨err | line | _, q⟩
    · exact .one (.inr ⟨err, rfl⟩)
    · simp only [Bool.or_true, if_true]
      exact .one (.inl ⟨line, rfl⟩)
    · exact .zero

/-- **A turn that steps executes one statement at most**, and breaks off behind it. -/
theorem Controller.statements_stepping (c : Controller) (s : Substation) (budget : ℕ) (now : Millis) :
    OneThen (c.statements s budget true now) (c.turn s budget true now).1.Breaks := by
  cases ht : c.task with
  | none =>
    simp only [Controller.statements, ht]
    exact .zero
  | some t =>
    simp only [Controller.statements, Controller.turn, ht]
    exact Progress.statements_stepping now budget _

/-- A turn that pauses or fails interrupts the tick. -/
theorem turn_ne_none {c : Controller} (hc : e.controllers.get? id = some c)
    (hgoes : (c.enabled && (c.due now || e.stepping id)) = true) {ending : TurnEnd}
    (hturn : (c.turn e.substation e.settings.statementBudget (e.stepping id) now).1 = ending)
    (hbreaks : ending.Breaks) : (e.turn id now).1 ≠ .none := by
  rw [turn, hc]
  simp only [if_pos hgoes, hturn]
  rcases hbreaks with ⟨line, rfl⟩ | ⟨err, rfl⟩
  all_goals
    intro heq
    cases heq

/-- In a step, the turn of the target executes one statement at most, and it ends the turns if it has executed one. -/
theorem turnStatements_of_stepsTo (h : StepsTo e id) (now : Millis) :
    OneThen (e.turnStatements id now) ((e.turn id now).1 ≠ .none) := by
  rw [turnStatements]
  split
  · exact .zero
  · rename_i c hc
    split
    · rename_i hgoes
      rw [h.stepping]
      have hstep := c.statements_stepping e.substation e.settings.statementBudget now
      exact hstep.mono fun hbreaks => turn_ne_none hc hgoes (by rw [h.stepping]) hbreaks
    · exact .zero

/-- A turn that goes on leaves a pending step pending. -/
theorem StepsTo.turn {other : String} (h : StepsTo e id) (hturn : e.turn other now = (.none, e')) : StepsTo e' id := by
  have hcases := turn_cases e other now
  rw [hturn] at hcases
  cases hcases with
  | passed => exact h
  | went => exact ⟨h.pending, h.target⟩

/-- In a step, the turns of a tick execute one statement of the target at most, as they end behind it. -/
theorem turnsStatements_of_stepsTo (now : Millis) (ids : List String) (h : StepsTo e id) :
    OneThen (turnsStatements now id ids e) ((e.turns now ids).1 ≠ .none) := by
  induction ids generalizing e with
  | nil => exact .zero
  | cons other ids ih =>
    -- the turn itself: none of the target's statements unless it is the target's turn
    have hhead : OneThen (if other = id then e.turnStatements id now else 0) ((e.turn other now).1 ≠ .none) := by
      split
      · rename_i ho
        subst ho
        exact turnStatements_of_stepsTo h now
      · exact .zero
    rw [turnsStatements, turns]
    rcases hturn : e.turn other now with ⟨interruption, e'⟩
    rw [hturn] at hhead
    cases interruption with
    | none =>
      -- the target has run nothing yet, and its step still pends
      simp only [hhead.eq_zero (not_not_intro rfl), Nat.zero_add]
      exact ih (h.turn hturn)
    | pause _ _ => exact hhead
    | error _ => exact hhead

/-- **A tick with a pending step** runs at most one statement of the target, and when it runs one, the engine
does not run afterwards. -/
theorem tickStatements_of_stepsTo (h : StepsTo e id) (now : Millis) :
    OneThen (e.tickStatements now id) ((e.tick now).2.run ≠ .running) := by
  rw [tickStatements]
  split
  · rename_i hrun
    have hprepared : StepsTo (e.prepared now) id := ⟨h.pending, h.target⟩
    refine (turnsStatements_of_stepsTo now e.controllers.keys hprepared).mono fun hinterrupted => ?_
    rw [(tick_of_running hrun now).1]
    have hkeep : ∀ (e : Engine) (id : String) (e' : Engine), True → e.turn id now = (.none, e') → True :=
      fun _ _ _ _ _ => trivial
    rcases turns_cases hkeep e.controllers.keys (e := e.prepared now) trivial with
      ⟨e', -, hturns⟩ | ⟨e', other, -, hne, hturns⟩
    · rw [hturns] at hinterrupted
      exact absurd rfl hinterrupted
    · rw [hturns]
      have hcases := turn_cases e' other now
      rcases hresult : e'.turn other now with ⟨interruption, e''⟩
      rw [hresult] at hcases hne
      cases hcases with
      | passed => exact absurd rfl hne
      | went => exact absurd rfl hne
      | paused => exact RunState.noConfusion
      | failed => exact RunState.noConfusion
  · exact .zero

/-- **The target of a step runs at most one statement** before the engine is paused or stopped. -/
theorem statements_of_stepsTo (h : StepsTo e id) (hrun : e.run = .running) (hcalls : ∀ c ∈ calls, c.2.Manages)
    (hretargets : ∀ first c, first ++ [c] <+: calls → ¬ Retargets (e.follow first) c.2) :
    e.statements id calls ≤ 1 := by
  induction calls generalizing e with
  | nil => exact Nat.zero_le 1
  | cons c calls ih =>
    obtain ⟨now, call⟩ := c
    have hmanages : call.Manages := hcalls (now, call) (by simp)
    have hretarget : ¬ Retargets e call := hretargets [] (now, call) ⟨calls, rfl⟩
    have hnow : OneThen (e.callStatements now id call) ((e.after now call).run ≠ .running) := by
      cases call
      case tick => exact tickStatements_of_stepsTo h now
      all_goals exact .zero
    rw [statements]
    split
    · rename_i hrunning
      -- the engine runs on, so nothing of the target has run, and its step still pends
      have hlater : StepsTo (e.after now call) id := by
        cases managed_after e now hmanages with
        | quiet _ _ hstep =>
          obtain ⟨hs, ht⟩ := hstep h.pending hrun
          exact ⟨hs, ht.trans h.target⟩
        | paused hp => exact absurd (hp.symm.trans hrunning) (by decide)
        | granted hp => exact absurd (hp.symm.trans hrun) (by decide)
        | failed _ _ hf => exact absurd (hf.symm.trans hrunning) (by decide)
        | retargeted hr => exact absurd hr hretarget
      have hrest := ih hlater hrunning (fun d hd => hcalls d (by simp [hd])) fun first d hpart =>
        hretargets ((now, call) :: first) d (List.cons_prefix_cons.2 ⟨rfl, hpart⟩)
      rw [hnow.eq_zero (not_not_intro hrunning), Nat.zero_add]
      exact hrest
    · exact hnow.le_one

/-- **Single steps.** After a step is granted, and whatever is called but `start`, `stop` and `resume`, the engine
stays held -- paused, stopped by an error, or running for the sake of a step -- if and only if no target is
chosen while the step is pending; and then the target runs at most one statement up to the next pause. -/
theorem single_step_iff (hstep : e.stepOver = .ok e') (hcalls : ∀ c ∈ calls, c.2.Manages) :
    ((∀ first, first <+: calls → Held e' first) ↔
      ∀ first c, first ++ [c] <+: calls → ¬ Retargets (e'.follow first) c.2) ∧
    ((∀ first c, first ++ [c] <+: calls → ¬ Retargets (e'.follow first) c.2) →
      ∀ id, e.target = some id → e'.statements id calls ≤ 1) := by
  obtain ⟨-, rfl, -⟩ := stepOver_eq_ok hstep
  refine ⟨⟨fun hheld first c hpart hretargets => ?_, fun hretargets first hpart => ?_⟩, fun hretargets id ht => ?_⟩
  · -- a target that is chosen sets the engine free, which no held engine is
    obtain ⟨hrun, hpending⟩ := after_of_retargets hretargets c.1
    have hafter := hheld _ hpart
    simp only [Held, follow_concat, hrun, hpending] at hafter
    rcases hafter with h | ⟨h, -⟩ | ⟨-, h⟩
    all_goals cases h
  · refine held_follow (.inr (.inr ⟨rfl, rfl⟩)) (fun c hc => hcalls c (hpart.subset hc)) fun before c hbefore => ?_
    exact hretargets before c (hbefore.trans hpart)
  · exact statements_of_stepsTo ⟨rfl, ht⟩ rfl hcalls hretargets

/-- A paused engine whose target is about to set two coils. -/
def bench : Engine := (new .standard).follow
  [(0, .addController ⟨"a", none, "default", true, none⟩),
    (0, .loadProgram "a" "Device.WriteCoil(1, TRUE);\nDevice.WriteCoil(2, TRUE);"),
    (0, .start), (0, .pause), (0, .setTarget (some "a"))]

/-- The same engine once it has been granted a step. -/
def benchStepping : Engine := { bench with run := .running, stepPending := true }

theorem stepOver_bench : bench.stepOver = .ok benchStepping := by
  have hrun : bench.run = .paused := by decide +kernel
  have ht : bench.target = some "a" := by decide +kernel
  have hready : bench.canRun "a" = true := by decide +kernel
  simp only [stepOver, ne_eq, hrun, not_true_eq_false, if_false, ht, hready, if_true, benchStepping]

/-- Between the grant of a step and the next ticks, the target is given another program. -/
def benchCalls : List (Millis × Call) :=
  [(0, .loadProgram "a" "Device.WriteCoil(3, TRUE);"), (0, .tick), (100, .tick)]

theorem single_step_bench : (∀ first, first <+: benchCalls → Held benchStepping first) ∧
    ∀ id, bench.target = some id → benchStepping.statements id benchCalls ≤ 1 := by
  have hcalls : ∀ c ∈ benchCalls, c.2.Manages := by
    intro c hc
    simp only [benchCalls, List.mem_cons, List.not_mem_nil, or_false] at hc
    rcases hc with rfl | rfl | rfl <;> trivial
  have hretargets : ∀ first c, first ++ [c] <+: benchCalls → ¬ Retargets (benchStepping.follow first) c.2 := by
    rintro first c hpart ⟨-, -, target, htarget, -⟩
    have hmem := hpart.subset (List.mem_append_right first (List.mem_singleton_self c))
    simp only [benchCalls, List.mem_cons, List.not_mem_nil, or_false] at hmem
    rcases hmem with rfl | rfl | rfl <;> cases htarget
  obtain ⟨hheld, hone⟩ := single_step_iff stepOver_bench hcalls
  exact ⟨hheld.2 hretargets, hone hretargets⟩

/-- **A step that turns into a free run.** While the step is pending, the debugger looks away from the target:
the engine runs, for the sake of no step, and in the next tick the target runs both its statements. -/
theorem looking_away_runs_free :
    bench.run = .paused ∧ bench.stepOver = .ok benchStepping ∧ ¬ Held benchStepping [(0, .setTarget none)] ∧
      benchStepping.statements "a" [(0, .setTarget none), (0, .tick)] = 2 := by
  refine ⟨by decide +kernel, stepOver_bench, ?_, by decide +kernel⟩
  rintro (h | ⟨h, -⟩ | ⟨-, h⟩) <;> cases h

end Switchyard.Engine
