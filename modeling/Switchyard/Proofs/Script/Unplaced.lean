import Switchyard.Proofs.Script.Failure

/-!
# Errors without a line

Neither an expression nor a condition nor an assignment to a variable knows the
line it stands on: their errors name none. So the line of an error is the one that
the statement adds to it (`RuntimeError.atLine_of_unplaced`).

* `unplaced_evaluate`, `unplaced_performOp`: expressions and calls of the device.
-/

namespace Switchyard.Script

variable {σ α β : Type}

/-- An outcome that, if it is an error, names no line. -/
def Unplaced (r : Except RuntimeError α) : Prop := ∀ err, r = .error err → err.line = none

/-- A computation whose errors name no line. -/
def Run.Unplaced (x : Run σ α) : Prop := ∀ state, Script.Unplaced (x.run state).1

/-- **The line of an error.** An error that names no line gets the one it is given. -/
theorem RuntimeError.atLine_of_unplaced {x : Run σ α} (hx : Run.Unplaced x) {state state' : σ}
    {err : RuntimeError} (h : x.run state = (.error err, state')) (line : UInt32) :
    err.atLine line = ⟨err.fault, some line⟩ := by
  have hline : err.line = none := hx state err (by rw [h])
  rw [RuntimeError.atLine, hline]
  rfl

namespace Run.Unplaced

@[simp] theorem pure (a : α) : Unplaced (pure a : Run σ α) := Run.Errs.pure a

theorem lift {r : Except RuntimeError α} (hr : Script.Unplaced r) : Unplaced (liftM r : Run σ α) := Run.Errs.lift hr

theorem bind {x : Run σ α} {f : α → Run σ β} (hx : Unplaced x) (hf : ∀ a, Unplaced (f a)) :
    Unplaced (x >>= f) := Run.Errs.bind hx hf

theorem map {x : Run σ α} (f : α → β) (hx : Unplaced x) : Unplaced (f <$> x) := Run.Errs.map f hx

end Run.Unplaced

/-- No fault of an operator or a function comes with a line. -/
theorem tolerates_unplaced : Tolerates fun err => err.line = none := fun _ _ => rfl

theorem unplaced_performOp (dev : Device σ) (func : DeviceOp) (args : List Scalar) :
    Run.Unplaced (performOp dev func args) := errs_performOp tolerates_unplaced dev func args

theorem unplaced_set (scope : Scope) (key : String) (value : Scalar) : Unplaced (scope.set key value) :=
  errs_set tolerates_unplaced scope value fun _ => rfl

mutual

/-- **The errors of an expression name no line.** -/
theorem unplaced_evaluate (dev : Device σ) (scope : Scope) : (e : Expr) → Run.Unplaced (evaluate dev scope e)
  | .literal v => by rw [evaluate]; exact .pure v
  | .var key => by
    rw [evaluate]
    split
    · exact .pure _
    · exact .lift (Errs.error rfl)
  | .stepTime key => by
    rw [evaluate]
    exact (Run.Errs.modifyGet fun s => (s, s)).bind fun _ => .pure _
  | .unary op e => by
    rw [evaluate]
    exact (unplaced_evaluate dev scope e).bind fun v => .lift (errs_applyUnary tolerates_unplaced op v)
  | .binary op l r => by
    rw [evaluate]
    refine (unplaced_evaluate dev scope l).bind fun a => ?_
    split
    · exact .pure _
    · exact (unplaced_evaluate dev scope r).bind fun b => .lift (errs_applyBinary tolerates_unplaced op a b)
  | .builtin func args => by
    rw [evaluate]
    exact (unplaced_evaluateAll dev scope args).bind fun vs => .lift (errs_applyBuiltin tolerates_unplaced func vs)
  | .device func args => by
    rw [evaluate]
    exact (unplaced_evaluateAll dev scope args).bind fun vs => unplaced_performOp dev func vs

theorem unplaced_evaluateAll (dev : Device σ) (scope : Scope) :
    (es : List Expr) → Run.Unplaced (evaluateAll dev scope es)
  | [] => by rw [evaluateAll]; exact .pure _
  | e :: es => by
    rw [evaluateAll]
    exact (unplaced_evaluate dev scope e).bind fun v => (unplaced_evaluateAll dev scope es).bind fun vs => .pure _

end

theorem unplaced_condition (dev : Device σ) (scope : Scope) (e : Expr) : Run.Unplaced (condition dev scope e) := by
  unfold condition
  refine (unplaced_evaluate dev scope e).bind fun v => ?_
  split
  · exact .pure _
  · exact .lift (Errs.error rfl)

end Switchyard.Script
