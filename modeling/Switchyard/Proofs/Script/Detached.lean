import Switchyard.Proofs.Script.Atomicity
import Switchyard.Proofs.Script.Refinement

/-!
# Expressions without a device

An expression that does not call the device asks it for the time only, for `stepTime`. So on any two devices that show
the same time it has the same value, or fails in the same way, and leaves both as they are (`coincide_evaluate`). It
means the same on the device of a running program as without one (`Expr.Detached`): that is how initializers and the
conditions of breakpoints are evaluated. Such expressions can be evaluated in the midst of a run, on the very device
of the program, and the run does not change (`watched_eq_observe`).

* `Run.Coincide`: computations that come to the same end and leave their states.
* `Execution.watched`: a run in which expressions are evaluated between the steps.
-/

namespace Switchyard.Script

variable {σ τ α β : Type} {dev : Device σ} {dev' : Device τ} {scope : Scope} {state : σ} {state' : τ}

/-- **Two computations coincide** at two states: they come to the same result or the same error, and leave both states
as they are. -/
def Run.Coincide (x : Run σ α) (y : Run τ α) (state : σ) (state' : τ) : Prop :=
  ∃ r, x.run state = (r, state) ∧ y.run state' = (r, state')

namespace Run.Coincide

variable {x : Run σ α} {y : Run τ α}

theorem lift (r : Except RuntimeError α) : Run.Coincide (liftM r : Run σ α) (liftM r : Run τ α) state state' :=
  ⟨r, rfl, rfl⟩

theorem pure (a : α) : Run.Coincide (Pure.pure a : Run σ α) (Pure.pure a : Run τ α) state state' :=
  ⟨.ok a, rfl, rfl⟩

theorem bind {f : α → Run σ β} {g : α → Run τ β} (hx : Run.Coincide x y state state')
    (hf : ∀ a, Run.Coincide (f a) (g a) state state') : Run.Coincide (x >>= f) (y >>= g) state state' := by
  obtain ⟨r, hrun, hrun'⟩ := hx
  cases r with
  | error err => exact ⟨.error err, by rw [run_bind, hrun], by rw [run_bind, hrun']⟩
  | ok a =>
    obtain ⟨r, hlater, hlater'⟩ := hf a
    refine ⟨r, ?_, ?_⟩
    · rw [run_bind, hrun]
      exact hlater
    · rw [run_bind, hrun']
      exact hlater'

end Run.Coincide

mutual

/-- **Expressions that do not call the device** coincide on devices that show the same time. -/
theorem coincide_evaluate (hnow : dev.now state = dev'.now state') : (e : Expr) → e.usesDevice = false →
    Run.Coincide (evaluate dev scope e) (evaluate dev' scope e) state state'
  | .literal v, _ => by
    rw [evaluate, evaluate]
    exact .pure v
  | .var key, _ => by
    rw [evaluate, evaluate]
    cases scope.get? key with
    | none => exact .lift _
    | some v => exact .pure v
  | .stepTime key, _ => by
    rw [evaluate, evaluate]
    -- the one question to the device: what time it is
    refine ⟨.ok (.ofMillis ((scope.stepTime? key (dev.now state)).getD 0)), rfl, ?_⟩
    rw [hnow]
    rfl
  | .unary op e, he => by
    rw [Expr.usesDevice] at he
    rw [evaluate, evaluate]
    exact (coincide_evaluate hnow e he).bind fun a => .lift _
  | .binary op l r, he => by
    rw [Expr.usesDevice, Bool.or_eq_false_iff] at he
    rw [evaluate, evaluate]
    refine (coincide_evaluate hnow l he.1).bind fun a => ?_
    cases decided op a with
    | some v => exact .pure v
    | none => exact (coincide_evaluate hnow r he.2).bind fun b => .lift _
  | .builtin func args, he => by
    rw [Expr.usesDevice] at he
    rw [evaluate, evaluate]
    exact (coincide_evaluateAll hnow args he).bind fun vs => .lift _
  | .device func args, he => by
    rw [Expr.usesDevice] at he
    cases he

theorem coincide_evaluateAll (hnow : dev.now state = dev'.now state') : (es : List Expr) →
    Expr.anyCallsDevice es = false → Run.Coincide (evaluateAll dev scope es) (evaluateAll dev' scope es) state state'
  | [], _ => by
    rw [evaluateAll, evaluateAll]
    exact .pure []
  | e :: es, he => by
    rw [Expr.anyCallsDevice, Bool.or_eq_false_iff] at he
    rw [evaluateAll, evaluateAll]
    exact (coincide_evaluate hnow e he.1).bind fun v => (coincide_evaluateAll hnow es he.2).bind fun vs => .pure _

end

/-- **An expression means the same with and without a device**: on any device it comes to what it comes to without one
at the same time, and it changes nothing there. -/
def Expr.Detached (e : Expr) : Prop :=
  ∀ (scope : Scope) {σ : Type} (dev : Device σ) (state : σ),
    (evaluate dev scope e).run state = (evaluateDetached scope (dev.now state) e, state)

theorem detached_of_not_usesDevice {e : Expr} (he : e.usesDevice = false) : e.Detached := by
  intro scope σ dev state
  have hnow : dev.now state = detached.now (dev.now state) := rfl
  have hcoincide : Run.Coincide (evaluate dev scope e) (evaluate detached scope e) state (dev.now state) :=
    coincide_evaluate hnow e he
  obtain ⟨r, hrun, hdetached⟩ := hcoincide
  rw [hrun, evaluateDetached, hdetached]

theorem detached_noted {e : Expr} (he : e.Detached) (scope : Scope) (dev : Device σ) (state : σ)
    (calls : List DeviceCall) :
    (evaluate dev.noted scope e).run (state, calls) = (evaluateDetached scope (dev.now state) e, state, calls) :=
  he scope dev.noted (state, calls)

/-- **Initializers** mean the same on every device. -/
theorem detached_initializer {source : String} {p : Program} (h : compile source = .ok p) {d : Declaration}
    (hd : d ∈ p.vars) {e : Expr} (he : d.init = some e) : e.Detached :=
  detached_of_not_usesDevice ((wellFormed_of_compile h).detached d hd e he)

/-- **Conditions** mean the same on every device. -/
theorem detached_condition {p : Program} {text : String} {e : Expr} (h : parseCondition p text = .ok e) : e.Detached :=
  detached_of_not_usesDevice (wellFormed_of_parseCondition h).2

/-- What becomes of a device when expressions are evaluated on it, one after the other. -/
def afterAsking (dev : Device σ) (scope : Scope) : List Expr → σ → σ
  | [], state => state
  | e :: es, state => afterAsking dev scope es ((evaluate dev scope e).run state).2

/-- A run in which expressions are evaluated before each step, in the scope and on the device of the program. Which
ones may depend on how far the run has come. -/
def Execution.watched (dev : Device σ) (world : ℕ → σ → σ) (asked : Execution → Moment σ → List Expr) :
    ℕ → Execution → Moment σ → List (Suspension σ) × Ending σ
  | 0, _, m => ([], .paused m)
  | n + 1, e, m =>
    let result := e.step dev m.scope (afterAsking dev m.scope (asked e m) m.state)
    match result.outcome with
    | .ok (.suspended line) =>
      let s : Suspension σ := ⟨line, result.scope, result.state⟩
      let later := result.execution.watched dev world asked n (m.next world s)
      (s :: later.1, later.2)
    | .ok .completed => ([], .completed ⟨m.steps, result.scope, result.state⟩)
    | .error err => ([], .failed err result.scope result.state)

theorem afterAsking_detached {es : List Expr} (hes : ∀ e ∈ es, e.Detached) (dev : Device σ) (scope : Scope)
    (state : σ) : afterAsking dev scope es state = state := by
  induction es with
  | nil => rfl
  | cons e es ih =>
    obtain ⟨he, hes⟩ := List.forall_mem_cons.1 hes
    rw [afterAsking, he scope dev state]
    exact ih hes

/-- **Watching changes nothing**, by induction on the steps. -/
theorem watched_eq_observe {asked : Execution → Moment σ → List Expr} (hasked : ∀ e m, ∀ a ∈ asked e m, a.Detached)
    (dev : Device σ) (world : ℕ → σ → σ) (n : ℕ) (e : Execution) (m : Moment σ) :
    e.watched dev world asked n m = e.observe dev world n m := by
  induction n generalizing e m with
  | zero => rfl
  | succ n ih =>
    simp only [Execution.watched, Execution.observe, afterAsking_detached (hasked e m)]
    cases (e.step dev m.scope m.state).outcome with
    | error err => rfl
    | ok outcome =>
      cases outcome with
      | completed => rfl
      | suspended line => simp only [ih]

end Switchyard.Script
