import Switchyard.Proofs.Engine.Announcements
import Switchyard.Proofs.Engine.Executed

/-!
# Fail-stop

When a statement of a program fails, the tick ends there: controllers with larger ids
get no turn, all cycles are dropped, and the engine is stopped. It stays so, with the
error on record, until it is started again, whatever else is called. Its ticks then run
no statement and leave every controller as it is; only noise changes the data model, the
publishers send what is due, and waiting updates are handed out (`fail_stop`).

* `turns_error`: the turns of a tick up to one that fails.
* `Failed`, `failed_follow`: an engine that an error has stopped, and that every call but `start` leaves it so.
* `Idle`, `idle_tick`: what the ticks of a stopped engine come to.
-/

namespace Switchyard.Engine

variable {e e' : Engine} {id : String} {now : Millis} {message : String}

/-- A run of statements that fails has run one. -/
theorem Progress.statements_of_failed {stepping : Bool} {budget : ℕ} {p : Progress} {err : Script.RuntimeError}
    (h : (p.run stepping now budget).1 = .failed err) : 0 < p.statements stepping now budget := by
  cases budget with
  | zero => cases h
  | succ budget =>
    rw [Progress.run] at h
    rw [Progress.statements]
    rcases hs : p.step now with ⟨_ | line | _, q⟩ <;> simp only [hs] at h ⊢
    · exact Nat.one_pos
    · split
      · exact Nat.one_pos
      · exact Nat.succ_pos _
    · cases h

/-- A turn that fails has run a statement. -/
theorem turnStatements_of_failed (h : (e.turn id now).1 = .error message) : 0 < e.turnStatements id now := by
  rw [turn] at h
  rw [turnStatements]
  cases hc : e.controllers.get? id with
  | none => rw [hc] at h; cases h
  | some c =>
    simp only [hc] at h ⊢
    split at h
    · rename_i hgoes
      rw [if_pos hgoes]
      rcases hturn : c.turn e.substation e.settings.statementBudget (e.stepping id) now with ⟨ending, c', substation⟩
      rw [hturn] at h
      cases ending with
      | failed err =>
        cases ht : c.task with
        | none => simp [Controller.turn, ht] at hturn
        | some t =>
          simp only [Controller.turn, ht] at hturn
          simp only [Controller.statements, ht]
          exact Progress.statements_of_failed (congrArg Prod.fst hturn)
      | idle | yielded | completed | paused line => cases h
    · cases h

/-- An engine that an error has stopped; no step is pending. -/
structure Failed (e : Engine) (message : String) : Prop where
  run : e.run = .stopped
  step : e.stepPending = false
  error : e.lastError = some message

/-- **The turns of a tick end with an error** of one controller. Those that would have come after it run nothing, and
are only reset. -/
structure FailsAt (e : Engine) (now : Millis) (ids : List String) (id message : String) : Prop where
  failed : Failed (e.turns now ids).2 message
  error : ∃ err : Script.RuntimeError, message = id ++ ": " ++ err.display
  ran : 0 < turnsStatements now id ids e
  later : ∀ other, id < other → turnsStatements now other ids e = 0 ∧
    (e.turns now ids).2.controllers.get? other = (e.controllers.get? other).map Controller.reset

/-- **A tick that ends with an error** ends with the turn of one controller. -/
theorem turns_error {ids : List String} (hids : ids.Pairwise (· < ·)) (h : (e.turns now ids).1 = .error message) :
    ∃ id, FailsAt e now ids id message := by
  obtain ⟨first, id, later, middle, rfl, hfirst, hne, hturns⟩ := turns_interrupted (by rw [h]; nofun)
  obtain ⟨-, hstatements, hinterrupts⟩ := turns_of_comesTo hids hfirst
  have hlarger := (hinterrupts hne).2
  have hbefore := (not_mem_of_ascend hids).2.2
  rw [hturns] at h
  have hran := turnStatements_of_failed h
  have hcases := turn_cases middle id now
  rcases hturn : middle.turn id now with ⟨interruption, e'⟩
  rw [hturn] at hcases h hturns
  cases hcases with
  | passed | went | paused => cases h
  | @failed c c' substation err hc =>
    obtain rfl := Interruption.error.inj h
    refine ⟨id, ?_, ⟨err, rfl⟩, hstatements ▸ hran, fun other hother => ⟨(hlarger other hother).2, ?_⟩⟩
    · rw [hturns]
      exact ⟨rfl, rfl, rfl⟩
    · rw [hturns]
      refine (get?_stop _ other).trans (congrArg _ ?_)
      exact (SortedMap.get?_insert_of_ne _ _ hother.ne').trans
        ((beside_turns hfirst).controllers other (hbefore other hother))

/-- A tick reports the error of the turn that ends it. -/
theorem turns_of_tick_error (h : (e.tick now).1.error = some message) :
    e.run = .running ∧ ((e.prepared now).turns now e.controllers.keys).1 = .error message := by
  simp only [tick] at h
  split at h
  · rename_i hrun
    refine ⟨hrun, ?_⟩
    split at h
    · cases h
    · cases h
    · rename_i hturns
      obtain rfl := Option.some.inj h
      exact congrArg Prod.fst hturns
  · cases h

/-- An error stays on record while nothing that is stopped sets off again. -/
theorem Failed.congr (h : Failed e message) (hrun : e'.run = e.run) (hstep : e'.stepPending = e.stepPending)
    (herror : e'.lastError = e.lastError) : Failed e' message :=
  ⟨hrun.trans h.run, hstep.trans h.step, herror.trans h.error⟩

theorem Failed.modifyController {f : Controller → Controller} (h : Failed e message)
    (hok : e.modifyController id f = .ok e') : Failed e' message := by
  obtain ⟨c, -, rfl⟩ := modifyController_eq_ok hok
  exact h.congr rfl rfl rfl

/-- No step is pending, so none is given up -- which would pause the engine. -/
theorem Failed.dropStep (h : Failed e message) : e.dropStep = e := by
  rw [Engine.dropStep, if_neg (by simp [h.step])]

theorem Failed.answer {call : Call} (h : Failed e message) (hcall : call ≠ .start)
    (hok : e.answer now call = .ok e') : Failed e' message := by
  cases call with
  | start => exact absurd rfl hcall
  | stop =>
    cases hok
    exact ⟨rfl, rfl, h.error⟩
  | pause => simp only [Engine.answer, pause, h.run] at hok; cases hok
  | resume => simp only [Engine.answer, resume, h.run] at hok; cases hok
  | stepOver => exact absurd ((stepOver_eq_ok hok).1.symm.trans h.run) (by decide)
  | addController config =>
    cases hok
    simp only [addController, h.dropStep, ite_self]
    exact h.congr rfl rfl rfl
  | removeController id =>
    obtain ⟨-, rfl⟩ := removeController_eq_ok hok
    -- the target may be the controller that goes, but there is no step of it to give up
    have herased : Failed { e with controllers := e.controllers.erase id } message := h.congr rfl rfl rfl
    split
    · rw [herased.dropStep]
      exact h.congr rfl rfl rfl
    · exact herased
  | enable id enabled =>
    rcases enable_eq_ok hok with hok | ⟨middle, hmodify, rfl⟩
    · exact h.modifyController hok
    · have hmiddle := h.modifyController hmodify
      simp only [hmiddle.dropStep, ite_self]
      exact hmiddle
  | setTickRate _ _ | setBreakpoint _ _ _ _ _ | clearBreakpoints _ => exact h.modifyController hok
  | loadProgram id source =>
    obtain ⟨c, c', -, -, rfl⟩ := loadProgram_eq_ok hok
    exact h.congr rfl rfl rfl
  | removeBreakpoint id line =>
    obtain ⟨c, -, rfl⟩ := removeBreakpoint_eq_ok hok
    exact h.congr rfl rfl rfl
  | setTarget target =>
    obtain ⟨-, rfl⟩ := setTarget_eq_ok hok
    exact ⟨h.run, rfl, h.error⟩
  | addNoise generator targets => cases hok; exact h.congr rfl rfl rfl
  | replaceSubstation substation => cases hok; exact h.congr rfl rfl rfl
  | tick =>
    cases hok
    rw [tick_of_not_running (by rw [h.run]; decide)]
    exact h.congr rfl rfl rfl

/-- **Nothing but a start** sets an engine going again that an error has stopped. -/
theorem failed_follow {calls : List (Millis × Call)} (h : Failed e message) (hcalls : ∀ c ∈ calls, c.2 ≠ .start) :
    Failed (e.follow calls) message := by
  induction calls generalizing e with
  | nil => exact h
  | cons c calls ih =>
    obtain ⟨hcall, hcalls⟩ := List.forall_mem_cons.1 hcalls
    refine ih ?_ hcalls
    rcases after_cases e c.1 c.2 with hsame | hok
    · rw [hsame]
      exact h
    · exact h.answer hcall hok

/-- **A tick of an engine at rest.** No controller runs a statement or changes; the data model is as noise leaves it,
with all its attributes as they were; the frames that are due are sent, and the updates that wait are handed out. -/
structure Idle (e : Engine) (now : Millis) : Prop where
  statements : ∀ id, e.tickStatements now id = 0
  controllers : (e.tick now).2.controllers = e.controllers
  model : (e.tick now).2.substation.model = (applyNoises e.noises e.substation.model).1
  attributes : (e.tick now).2.substation.model.attributes = e.substation.model.attributes
  frames : (e.tick now).1.frames = (e.substation.publishers.tick now).1
  publishers : (e.tick now).2.substation.publishers = (e.substation.publishers.tick now).2
  announced : (e.tick now).1.updates = e.substation.updates
  drained : (e.tick now).2.substation.updates = []

theorem idle_tick (h : e.run ≠ .running) (now : Millis) : e.Idle now := by
  obtain ⟨hannounced, hdrained⟩ := updates_tick e now
  have htick := tick_of_not_running h now
  have hmodel : (e.tick now).2.substation.model = (applyNoises e.noises e.substation.model).1 := by rw [htick]; rfl
  refine ⟨fun id => ?_, by rw [htick]; rfl, hmodel, ?_, ?_, by rw [htick]; rfl, hannounced, hdrained⟩
  · rw [tickStatements, if_neg h]
  · rw [hmodel]
    exact attributes_applyNoises _ _
  · simp only [tick, if_neg h]
    rfl

/-- **An error stops the engine.** Whatever has been called before, when a tick reports an error, it is that of one
controller. The controllers with larger ids run nothing in that tick and are only reset; the engine is stopped, the
error is on record, and no cycle is in progress. This stays so until `start` is called, and up to then all ticks are
idle. -/
theorem fail_stop (settings : Settings) (past : List (Millis × Call)) (now : Millis) (message : String) :
    let e := (new settings).follow past
    let stopped := (e.tick now).2
    (e.tick now).1.error = some message →
      (∃ id err, message = id ++ ": " ++ Script.RuntimeError.display err ∧ 0 < e.tickStatements now id ∧
        ∀ other, id < other → e.tickStatements now other = 0 ∧
          stopped.controllers.get? other = (e.controllers.get? other).map Controller.reset) ∧
      ∀ calls, (∀ c ∈ calls, c.2 ≠ .start) →
        (stopped.follow calls).run = .stopped ∧ (stopped.follow calls).lastError = some message ∧
          (∀ id c, (stopped.follow calls).controllers.get? id = some c → c.executing = false) ∧
          ∀ later, (stopped.follow calls).Idle later := by
  intro e stopped hreport
  obtain ⟨hrun, hturns⟩ := turns_of_tick_error hreport
  have hstopped : stopped = ((e.prepared now).turns now e.controllers.keys).2 := (tick_of_running hrun now).1
  have hstatements (id : String) :
      e.tickStatements now id = turnsStatements now id e.controllers.keys (e.prepared now) := if_pos hrun
  obtain ⟨id, hfails⟩ := turns_error (keys_ascend e.controllers) hturns
  obtain ⟨err, herr⟩ := hfails.error
  refine ⟨⟨id, err, herr, (hstatements id).symm ▸ hfails.ran, fun other hother => ?_⟩, fun calls hcalls => ?_⟩
  -- The controllers behind the one that failed have not had their turn, and are reset.
  · obtain ⟨hnothing, hreset⟩ := hfails.later other hother
    exact ⟨(hstatements other).trans hnothing, hstopped ▸ hreset⟩
  -- Only `start` would take the engine out of this state.
  · have hlater := failed_follow (hstopped ▸ hfails.failed) hcalls
    have hcoherent : Coherent (stopped.follow calls) :=
      follow_invariant (P := Coherent) (fun _ now call h => coherent_after h now call)
        (coherent_tick (coherent_follow settings past) now) calls
    refine ⟨hlater.run, hlater.error, fun id c hc => ?_, idle_tick (by rw [hlater.run]; decide)⟩
    exact ((hcoherent.stopped hlater.run).2 id c hc).1

/-- Two controllers, the first of which divides by zero. -/
def quotient : List (Millis × Call) :=
  [(0, .addController ⟨"a", none, "default", true, none⟩), (0, .addController ⟨"b", none, "default", true, none⟩),
    (0, .loadProgram "a" "VAR n : INT; END_VAR\nn := 1 / n;"), (0, .loadProgram "b" "Device.WriteCoil(1, TRUE);"),
    (0, .start)]

/-- Attempts to go on with the second one. -/
def attempts : List (Millis × Call) :=
  [(1, .resume), (2, .setTarget (some "b")), (3, .stepOver), (4, .pause), (5, .removeController "a"), (100, .tick)]

theorem fail_stop_quotient :
    let e := (new .standard).follow quotient
    let stopped := (e.tick 0).2
    (e.tick 0).1.error = some "a: line 2: Division by zero" ∧ e.tickStatements 0 "b" = 0 ∧
      (stopped.follow attempts).run = .stopped ∧
      (stopped.follow attempts).lastError = some "a: line 2: Division by zero" ∧
      (stopped.follow attempts).Idle 200 := by
  intro e stopped
  have hreport : (e.tick 0).1.error = some "a: line 2: Division by zero" := by decide +kernel
  have hnothing : e.tickStatements 0 "b" = 0 := by decide +kernel
  have hcalls : ∀ c ∈ attempts, c.2 ≠ .start := by simp [attempts]
  obtain ⟨-, hafter⟩ := fail_stop .standard quotient 0 _ hreport
  obtain ⟨hrun, herror, -, hidle⟩ := hafter attempts hcalls
  exact ⟨hreport, hnothing, hrun, herror, hidle 200⟩

end Switchyard.Engine
