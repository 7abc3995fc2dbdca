import Switchyard.Proofs.Script.Failure
import Switchyard.Script.Execution

/-!
# What programs do to their surroundings

A program reaches its surroundings through the functions of its device, and in no
other way. So a relation that holds between the states before and after each of these
functions, and that goes on from one state to the next, holds between the states
before and after a whole step, be it of an assignment, a call or a condition, and
also if the step fails (`related_step`).
-/

namespace Switchyard.Script

variable {σ α β : Type} {R : σ → σ → Prop} {dev : Device σ}

/-- **A relation of states that a device keeps to.** -/
structure Device.KeepsTo (dev : Device σ) (R : σ → σ → Prop) : Prop where
  refl (s : σ) : R s s
  trans {s t u : σ} (h : R s t) (h' : R t u) : R s u
  readInput (a : UInt16) (s : σ) : R s (dev.readInput a s).2
  readRegister (a : UInt16) (s : σ) : R s (dev.readRegister a s).2
  writeCoil (a : UInt16) (b : Bool) (s : σ) : R s (dev.writeCoil a b s)
  writeRegister (a w : UInt16) (s : σ) : R s (dev.writeRegister a w s)
  getDA (path : String) (s : σ) : R s (dev.getDA path s).2
  setDA (path : String) (value : Scalar) (s : σ) : R s (dev.setDA path value s)
  log (level : LogLevel) (message : String) (s : σ) : R s (dev.log level message s)

/-- A computation leads to related states, whether it fails or not. -/
def Run.Relates (R : σ → σ → Prop) (x : Run σ α) : Prop := ∀ s, R s (x.run s).2

namespace Device.KeepsTo

variable (h : dev.KeepsTo R)

include h

theorem lift (r : Except RuntimeError α) : Run.Relates R (liftM r : Run σ α) := h.refl

theorem pure (a : α) : Run.Relates R (pure a : Run σ α) := h.refl

theorem get : Run.Relates R (get : Run σ σ) := h.refl

theorem bind {x : Run σ α} {f : α → Run σ β} (hx : Run.Relates R x) (hf : ∀ a, Run.Relates R (f a)) :
    Run.Relates R (x >>= f) := by
  intro s
  have hfirst := hx s
  rw [run_bind]
  rcases hrun : x.run s with ⟨err | a, s'⟩
  · rw [hrun] at hfirst
    exact hfirst
  · rw [hrun] at hfirst
    exact h.trans hfirst (hf a s')

/-- What is computed from the result of a computation changes nothing. -/
theorem bind_lift {x : Run σ α} (hx : Run.Relates R x) (f : α → Except RuntimeError β) :
    Run.Relates R (do liftM (f (← x))) := h.bind hx fun a => h.lift (f a)

theorem related_performOp (func : DeviceOp) (args : List Scalar) : Run.Relates R (performOp dev func args) := by
  cases func with
  | readInput =>
    refine h.bind (h.lift _) fun a => h.bind ?_ fun b => h.pure _
    exact h.readInput a
  | readRegister =>
    refine h.bind (h.lift _) fun a => h.bind ?_ fun w => h.pure _
    exact h.readRegister a
  | writeCoil =>
    refine h.bind (h.lift _) fun a => h.bind (h.lift _) fun b => h.bind ?_ fun _ => h.pure _
    exact h.writeCoil a b
  | writeRegister =>
    refine h.bind (h.lift _) fun a => h.bind (h.lift _) fun w => h.bind ?_ fun _ => h.pure _
    exact h.writeRegister a w
  | getDA =>
    refine h.bind (h.lift _) fun path => ?_
    exact h.getDA path
  | setDA =>
    refine h.bind (h.lift _) fun path => h.bind ?_ fun _ => h.pure _
    exact h.setDA path _
  | log =>
    refine h.bind ?_ fun _ => h.pure _
    exact h.log _ _

mutual

theorem related_evaluate (scope : Scope) : (e : Expr) → Run.Relates R (evaluate dev scope e)
  | .literal v => by rw [evaluate]; exact h.pure v
  | .var key => by
    rw [evaluate]
    split
    · exact h.pure _
    · exact h.lift _
  | .stepTime key => by
    rw [evaluate]
    exact h.bind h.get fun _ => h.pure _
  | .unary op e => by
    rw [evaluate]
    exact h.bind_lift (related_evaluate scope e) _
  | .binary op l r => by
    rw [evaluate]
    refine h.bind (related_evaluate scope l) fun a => ?_
    split
    · exact h.pure _
    · exact h.bind_lift (related_evaluate scope r) _
  | .builtin func args => by
    rw [evaluate]
    exact h.bind_lift (related_evaluateAll scope args) _
  | .device func args => by
    rw [evaluate]
    exact h.bind (related_evaluateAll scope args) fun vs => h.related_performOp func vs

theorem related_evaluateAll (scope : Scope) : (es : List Expr) → Run.Relates R (evaluateAll dev scope es)
  | [] => by rw [evaluateAll]; exact h.pure _
  | e :: es => by
    rw [evaluateAll]
    exact h.bind (related_evaluate scope e) fun v => h.bind (related_evaluateAll scope es) fun vs => h.pure _

end

theorem related_condition (scope : Scope) (e : Expr) : Run.Relates R (condition dev scope e) := by
  unfold condition
  refine h.bind (h.related_evaluate scope e) fun v => ?_
  split
  · exact h.pure _
  · exact h.lift _

theorem related_chooseArm (scope : Scope) : (arms : Arms) → Run.Relates R (chooseArm dev scope arms)
  | .none => h.pure _
  | .otherwise body => h.pure _
  | .arm cond body rest => by
    unfold chooseArm
    refine h.bind (h.related_condition scope cond) fun holds => ?_
    split
    · exact h.pure _
    · exact related_chooseArm scope rest

theorem related_runStmt (scope : Scope) (stmt : Stmt) (after : List Stmt) :
    Run.Relates R (runStmt dev scope stmt after) := by
  cases stmt with
  | assign line target value =>
    exact h.bind (h.related_evaluate scope value) fun v => h.bind (h.lift _) fun scope => h.pure _
  | call line func args =>
    exact h.bind (h.related_evaluateAll scope args) fun vs => h.bind (h.related_performOp func vs) fun _ => h.pure _
  | choose line arms =>
    refine h.bind (h.related_chooseArm scope arms) fun chosen => ?_
    cases chosen with
    | none => exact h.pure _
    | some body => exact h.pure _
  | loop line cond body =>
    refine h.bind (h.related_condition scope cond) fun holds => ?_
    split
    · exact h.pure _
    · exact h.pure _

/-- **A step of an execution leads to a related state**, also if it fails. -/
theorem related_step (e : Execution) (scope : Scope) (s : σ) : R s (e.step dev scope s).state := by
  simp only [Execution.step]
  split
  · rename_i stmt after outer _
    have hstmt := h.related_runStmt scope stmt after s
    split
    · rename_i err s' hrun
      rw [hrun] at hstmt
      exact hstmt
    · rename_i scope' blocks s' hrun
      rw [hrun] at hstmt
      exact hstmt
  · exact h.refl s

end Device.KeepsTo
end Switchyard.Script
