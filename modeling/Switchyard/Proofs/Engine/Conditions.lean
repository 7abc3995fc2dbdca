import Switchyard.Proofs.Engine.Resumption
import Switchyard.Proofs.Script.Detached

/-!
# Conditions leave programs alone

A controller evaluates the condition of a breakpoint without a device, in the scope of the suspended program and at
the time of the turn. As a condition that is accepted does not call the device, this is what it would come to on the
device that the program itself reaches, and there it would change nothing (`holds_reach`). Nor does the controller
change what the program runs on: with any breakpoints, whatever their conditions, it runs a part of one and the same
uninterrupted run (`deviceFree_detached`).
-/

namespace Switchyard.Engine

open Script

/-- A cycle under way with other breakpoints. -/
def Progress.withBreakpoints (p : Progress) (breakpoints : SortedMap UInt32 Breakpoint) : Progress :=
  { p with controller := { p.controller with breakpoints := breakpoints } }

/-- **A breakpoint asks what its condition comes to on the program's own device**, in its scope, where evaluating it
leaves the surroundings as they are. -/
theorem holds_reach {program : Program} {text : String} {e : Expr} (h : parseCondition program text = .ok e)
    {b : Breakpoint} {p : Progress} {now : Millis} (hcondition : b.condition = some text)
    (hcompiled : b.compiled = some e) :
    ∃ r, (evaluate (reach p.controller.profile now) p.scope e).run p.around = (r, p.around) ∧
      (b.holds p.scope now = true ↔ r = .ok (.bool true)) := by
  refine ⟨_, detached_condition h p.scope _ p.around, ?_⟩
  change b.holds p.scope now = true ↔ evaluateDetached p.scope now e = _
  rw [Breakpoint.holds, hcondition, hcompiled]
  dsimp only
  cases evaluateDetached p.scope now e with
  | error err => simp
  | ok v => simp

/-- **Expressions that do not call the device do not depend on it.** On any two devices that show the same time, such an
expression has the same value or fails with the same error, and it calls neither: both are left as they are, and so are
the notes that are taken of their calls. The initializers of a compiled program and the conditions that are accepted for
a program are of this kind, so what they come to without a device is what they would come to on the device of the
running program, and there they would change nothing. A run in which accepted conditions are evaluated on its device
before each step is the run without them; and with any breakpoints, a controller runs a part of the same uninterrupted
run. -/
theorem deviceFree_detached :
    (∀ e : Expr, e.usesDevice = false → ∀ (scope : Scope) (σ τ : Type) (dev : Device σ) (dev' : Device τ) (state : σ)
      (state' : τ), dev.now state = dev'.now state' →
        ∃ r, (evaluate dev scope e).run state = (r, state) ∧ (evaluate dev' scope e).run state' = (r, state') ∧
          (∀ calls, (evaluate dev.noted scope e).run (state, calls) = (r, state, calls)) ∧
          ∀ calls, (evaluate dev'.noted scope e).run (state', calls) = (r, state', calls)) ∧
    (∀ source program, compile source = .ok program → ∀ d ∈ program.vars, ∀ e, d.init = some e → e.Detached) ∧
    (∀ program text e, parseCondition program text = .ok e → e.Detached ∧
      ∀ (b : Breakpoint) (p : Progress) (now : Millis), b.condition = some text → b.compiled = some e →
        ∃ r, (evaluate (reach p.controller.profile now) p.scope e).run p.around = (r, p.around) ∧
          (b.holds p.scope now = true ↔ r = .ok (.bool true))) ∧
    (∀ (σ : Type) (dev : Device σ) (world : ℕ → σ → σ) (asked : Execution → Moment σ → List Expr),
      (∀ e m, ∀ a ∈ asked e m, ∃ program text, parseCondition program text = .ok a) →
        ∀ (n : ℕ) (e : Execution) (m : Moment σ), e.watched dev world asked n m = e.observe dev world n m) ∧
    ∀ (p : Progress) (breakpoints : SortedMap UInt32 Breakpoint) (stepping : Bool) (now : Millis) (budget : ℕ),
      ∃ shown, p.Leads now shown ((p.withBreakpoints breakpoints).run stepping now budget).2
        ((p.withBreakpoints breakpoints).run stepping now budget).1 := by
  refine ⟨fun e he scope σ τ dev dev' state state' hnow => ?_, fun source program hprogram d hd e he => ?_,
    fun program text e he => ⟨detached_condition he, fun b p now => holds_reach he⟩,
    fun σ dev world asked hasked n e m => ?_,
    fun p breakpoints stepping now budget => ?_⟩
  · have hdetached := detached_of_not_usesDevice he
    refine ⟨evaluateDetached scope (dev.now state) e, hdetached scope dev state, ?_, fun calls => ?_, fun calls => ?_⟩
    · rw [hnow]
      exact hdetached scope dev' state'
    · exact detached_noted hdetached scope dev state calls
    · rw [hnow]
      exact detached_noted hdetached scope dev' state' calls
  · exact detached_initializer hprogram hd he
  · refine watched_eq_observe (fun e m a ha => ?_) dev world n e m
    obtain ⟨program, text, hparsed⟩ := hasked e m a ha
    exact detached_condition hparsed
  · obtain ⟨shown, -, -, hleads⟩ := (p.withBreakpoints breakpoints).leads_run stepping now budget
    exact ⟨shown, hleads⟩

/-- A program with a state constant, which is initialized by an expression. -/
def timedText : String := "VAR STATE : INT; STATE_RUN : INT := 1 + 1; END_VAR\nSTATE := STATE_RUN;\n"

/-- An initializer and a condition that asks for a time. -/
theorem deviceFree_detached_stepTime : ∃ program d init e, compile timedText = .ok program ∧ d ∈ program.vars ∧
    d.init = some init ∧ init.Detached ∧ parseCondition program "STATE_RUN.StepTime > 100" = .ok e ∧ e.Detached ∧
    (∃ r, (evaluate detached (Scope.ofDecls program.vars) e).run 5 = (r, 5) ∧
      (evaluate Rehearsal.device (Scope.ofDecls program.vars) e).run ⟨5, ∅, ∅, ∅, []⟩ = (r, ⟨5, ∅, ∅, ∅, []⟩)) ∧
    ∀ n m, (Execution.start program).watched detached (fun _ t => t + 5) (fun _ _ => [e]) n m =
      (Execution.start program).observe detached (fun _ t => t + 5) n m := by
  have htimed : (compile timedText).toOption.any (fun program => program.vars.any (fun d => d.init.isSome) &&
      (parseCondition program "STATE_RUN.StepTime > 100").toOption.isSome) = true := by decide +kernel
  obtain ⟨program, hprogram, hparts⟩ := (Option.any_eq_true _ _).1 htimed
  obtain ⟨hinit, he⟩ := Bool.and_eq_true_iff.1 hparts
  obtain ⟨d, hd, hinit⟩ := List.any_eq_true.1 hinit
  obtain ⟨init, hinit⟩ := Option.isSome_iff_exists.1 hinit
  obtain ⟨e, he⟩ := Option.isSome_iff_exists.1 he
  have hprogram := eq_ok_of_toOption hprogram
  have he := eq_ok_of_toOption he
  obtain ⟨hexpr, hinitializer, hcondition, hwatched, -⟩ := deviceFree_detached
  obtain ⟨r, hrun, hrun', -⟩ := hexpr e (wellFormed_of_parseCondition he).2 (Scope.ofDecls program.vars) Millis
    Rehearsal detached Rehearsal.device 5 ⟨5, ∅, ∅, ∅, []⟩ rfl
  refine ⟨program, d, init, e, hprogram, hd, hinit, hinitializer _ _ hprogram d hd init hinit, he,
    (hcondition _ _ _ he).1, ⟨r, hrun, hrun'⟩, fun n m => hwatched _ _ _ _ (fun _ _ a ha => ?_) n _ m⟩
  rw [List.mem_singleton] at ha
  exact ⟨program, _, ha ▸ he⟩

end Switchyard.Engine
