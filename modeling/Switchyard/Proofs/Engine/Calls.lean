import Switchyard.Engine.Engine

/-!
# Calls to an engine

A `Call` is anything that can be asked of an engine from outside, a tick included. A
call that is refused changes nothing. `follow` is an engine after a list of calls,
each made at its own time; nothing is assumed of these times.

* `Call`, `answer`, `after`, `follow`: the calls, what they answer and where they lead.
* `follow_invariant`: what every call keeps holds after any calls.
* `modifyController_eq_ok` and the like: where a call has led that was not refused.
-/

namespace Switchyard.Engine

/-- What can be asked of an engine. -/
inductive Call where
  | start
  | stop
  | pause
  | resume
  | stepOver
  | addController (config : ControllerConfig)
  | removeController (id : String)
  | enable (id : String) (enabled : Bool)
  | setTickRate (id : String) (rate : Millis)
  | loadProgram (id source : String)
  | setBreakpoint (id : String) (line : UInt32) (enabled : Bool) (condition : Option String) (hitCount : Option UInt32)
  | removeBreakpoint (id : String) (line : UInt32)
  | clearBreakpoints (id : String)
  | setTarget (id : Option String)
  | addNoise (generator : Generator) (targets : List NoiseTarget)
  /-- Changes the plant in any way: by operators, clients or other effects of the environment. -/
  | replaceSubstation (substation : Substation)
  | tick

/-- The engine after a call at a time, or why the call is refused. -/
def answer (e : Engine) (now : Millis) : Call → Except Fault Engine
  | .start => .ok e.start
  | .stop => .ok e.stop
  | .pause => e.pause
  | .resume => e.resume
  | .stepOver => e.stepOver
  | .addController config => .ok (e.addController config)
  | .removeController id => e.removeController id
  | .enable id enabled => e.enable id enabled
  | .setTickRate id rate => e.setTickRate id rate
  | .loadProgram id source => e.loadProgram id source now
  | .setBreakpoint id line enabled condition hitCount => e.setBreakpoint id line enabled condition hitCount
  | .removeBreakpoint id line => (e.removeBreakpoint id line).map Prod.snd
  | .clearBreakpoints id => e.clearBreakpoints id
  | .setTarget id => e.setTarget id
  | .addNoise generator targets => .ok (e.addNoise generator targets)
  | .replaceSubstation substation => .ok { e with substation }
  | .tick => .ok (e.tick now).2

/-- The engine after a call. -/
def after (e : Engine) (now : Millis) (call : Call) : Engine :=
  match e.answer now call with
  | .ok e => e
  | .error _ => e

/-- The engine after calls, in order, each at its time. -/
def follow (e : Engine) : List (Millis × Call) → Engine
  | [] => e
  | (now, call) :: calls => (e.after now call).follow calls

theorem after_of_ok {e e' : Engine} {now : Millis} {call : Call} (h : e.answer now call = .ok e') :
    e.after now call = e' := by
  simp only [after, h]

/-- A refused call changes nothing; any other leads to what it answers. -/
theorem after_cases (e : Engine) (now : Millis) (call : Call) :
    e.after now call = e ∨ e.answer now call = .ok (e.after now call) := by
  cases h : e.answer now call with
  | error _ => exact .inl (by simp only [after, h])
  | ok e' => exact .inr (by simp only [after, h])

theorem follow_append (e : Engine) (first later : List (Millis × Call)) :
    e.follow (first ++ later) = (e.follow first).follow later := by
  induction first generalizing e with
  | nil => rfl
  | cons c first ih => exact ih _

/-- **An invariant of engines** that every call keeps holds after any calls. -/
theorem follow_invariant {P : Engine → Prop} (hafter : ∀ e now call, P e → P (e.after now call)) {e : Engine}
    (he : P e) (calls : List (Millis × Call)) : P (e.follow calls) := by
  induction calls generalizing e with
  | nil => exact he
  | cons c calls ih => exact ih (hafter e c.1 c.2 he)

section Answers

variable {e e' : Engine} {id : String} {now : Millis}

/-- A controller that is changed is there. -/
theorem modifyController_eq_ok {f : Controller → Controller} (hok : e.modifyController id f = .ok e') :
    ∃ c, e.controllers.get? id = some c ∧ e' = { e with controllers := e.controllers.insert id (f c) } := by
  rw [modifyController] at hok
  cases hc : e.controllers.get? id with
  | none => rw [hc] at hok; cases hok
  | some c =>
    rw [hc] at hok
    exact ⟨c, rfl, (Except.ok.inj hok).symm⟩

/-- A controller is enabled, or it is disabled and drops its cycle, and a step of it is given up. -/
theorem enable_eq_ok {enabled : Bool} (hok : e.enable id enabled = .ok e') :
    e.modifyController id (fun c => { c with enabled := true }) = .ok e' ∨
      ∃ middle, e.modifyController id (fun c => { c with enabled := false }.reset) = .ok middle ∧
        e' = if middle.target = some id then middle.dropStep else middle := by
  rw [enable] at hok
  split at hok
  · exact .inl hok
  · cases hmodify : e.modifyController id fun c => { c with enabled := false }.reset with
    | error _ => rw [hmodify] at hok; cases hok
    | ok middle =>
      rw [hmodify] at hok
      exact .inr ⟨middle, rfl, (Except.ok.inj hok).symm⟩

/-- A controller that is removed was there, and the engine looks at it no longer. -/
theorem removeController_eq_ok (hok : e.removeController id = .ok e') : e.controllers.contains id = true ∧
    e' = if e.target = some id then
      { ({ e with controllers := e.controllers.erase id } : Engine).dropStep with target := none }
      else { e with controllers := e.controllers.erase id } := by
  rw [removeController] at hok
  split at hok <;> cases hok
  exact ⟨‹_›, rfl⟩

/-- A text that is accepted changes the controller that it is for. -/
theorem loadProgram_eq_ok {source : String} (hok : e.loadProgram id source now = .ok e') :
    ∃ c c', e.controllers.get? id = some c ∧ c.load source now = .ok c' ∧
      e' = { e with controllers := e.controllers.insert id c' } := by
  rw [loadProgram] at hok
  cases hc : e.controllers.get? id with
  | none => rw [hc] at hok; cases hok
  | some c =>
    cases hload : c.load source now with
    | error _ => simp only [hc, hload] at hok; cases hok
    | ok c' =>
      simp only [hc, hload] at hok
      exact ⟨c, c', rfl, hload, (Except.ok.inj hok).symm⟩

theorem removeBreakpoint_eq_ok {line : UInt32} (hok : e.answer now (.removeBreakpoint id line) = .ok e') :
    ∃ c, e.controllers.get? id = some c ∧
      e' = { e with controllers := e.controllers.insert id { c with breakpoints := c.breakpoints.erase line } } := by
  rw [answer, removeBreakpoint] at hok
  cases hc : e.controllers.get? id with
  | none => rw [hc] at hok; cases hok
  | some c =>
    rw [hc] at hok
    exact ⟨c, rfl, (Except.ok.inj hok).symm⟩

/-- A target that is chosen is there, and no step is pending then. -/
theorem setTarget_eq_ok {target : Option String} (hok : e.setTarget target = .ok e') :
    (∀ id, target = some id → e.controllers.contains id = true) ∧ e' = { e with target, stepPending := false } := by
  cases target with
  | none =>
    cases hok
    exact ⟨fun id hid => (nomatch hid), rfl⟩
  | some id =>
    rw [setTarget] at hok
    split at hok <;> cases hok
    rename_i hcontains
    refine ⟨fun other hother => ?_, rfl⟩
    obtain rfl := Option.some.inj hother
    exact hcontains

end Answers

end Switchyard.Engine
