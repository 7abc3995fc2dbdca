import Switchyard.Proofs.Script.Atomicity

/-!
# What a device answers

A program learns of its surroundings what the calls of its device answer, and the time. So where the time stands
still, a step is determined by its calls: on any other device that gives the same answers to them it has the same
outcome, makes the same calls, and does with that device what the calls do (`step_of_answers`).

* `Device.after`, `Device.Answers`: the state after a call, and that the call is answered as it says.
* `Run.Repeats`: a computation that can be repeated on another device.
-/

namespace Switchyard.Script

variable {σ τ α β : Type} {dev : Device σ} {dev' : Device τ} {scope : Scope} {now : Millis}

namespace Device

/-- The state after a call. -/
def after (dev : Device σ) : DeviceCall → σ → σ
  | .readInput a _, s => (dev.readInput a s).2
  | .readRegister a _, s => (dev.readRegister a s).2
  | .writeCoil a b, s => dev.writeCoil a b s
  | .writeRegister a w, s => dev.writeRegister a w s
  | .getDA path _, s => (dev.getDA path s).2
  | .setDA path value, s => dev.setDA path value s
  | .log level message, s => dev.log level message s

/-- A call is answered as it says. -/
def Answers (dev : Device σ) : DeviceCall → σ → Prop
  | .readInput a answer, s => (dev.readInput a s).1 = answer
  | .readRegister a answer, s => (dev.readRegister a s).1 = answer
  | .getDA path answer, s => (dev.getDA path s).1 = answer
  | .writeCoil _ _, _ | .writeRegister _ _, _ | .setDA _ _, _ | .log _ _, _ => True

/-- The state after calls. -/
def afterAll (dev : Device σ) (calls : List DeviceCall) (s : σ) : σ := calls.foldl (fun s call => dev.after call s) s

/-- Calls, one after the other, are answered as they say. -/
def AnswersAll (dev : Device σ) : List DeviceCall → σ → Prop
  | [], _ => True
  | call :: calls, s => dev.Answers call s ∧ dev.AnswersAll calls (dev.after call s)

/-- On a device the time stands still. -/
def StandsAt (dev : Device σ) (now : Millis) : Prop := ∀ s, dev.now s = now

theorem afterAll_append (dev : Device σ) (calls more : List DeviceCall) (s : σ) :
    dev.afterAll (calls ++ more) s = dev.afterAll more (dev.afterAll calls s) := List.foldl_append

theorem answersAll_append {calls more : List DeviceCall} {s : σ} :
    dev.AnswersAll (calls ++ more) s ↔ dev.AnswersAll calls s ∧ dev.AnswersAll more (dev.afterAll calls s) := by
  induction calls generalizing s with
  | nil => exact (and_iff_right trivial).symm
  | cons call calls ih =>
    rw [List.cons_append, AnswersAll, AnswersAll, ih, and_assoc]
    rfl

/-- Notes do not change what a device answers, and are what has been called. -/
theorem answersAll_noted {calls : List DeviceCall} {s : σ} (h : dev.AnswersAll calls s) (notes : List DeviceCall) :
    dev.noted.AnswersAll calls (s, notes) ∧
      dev.noted.afterAll calls (s, notes) = (dev.afterAll calls s, notes ++ calls) := by
  induction calls generalizing s notes with
  | nil => exact ⟨trivial, by rw [List.append_nil]; rfl⟩
  | cons call calls ih =>
    obtain ⟨hcall, hcalls⟩ := h
    have hnoted : dev.noted.Answers call (s, notes) ∧
        dev.noted.after call (s, notes) = (dev.after call s, notes ++ [call]) := by
      cases call with
      | readInput | readRegister | getDA =>
        refine ⟨hcall, ?_⟩
        rw [← (show _ = _ from hcall)]
        rfl
      | writeCoil | writeRegister | setDA | log => exact ⟨trivial, rfl⟩
    obtain ⟨hanswers, hafter⟩ := ih hcalls (notes ++ [call])
    rw [← hnoted.2] at hanswers hafter
    refine ⟨⟨hnoted.1, hanswers⟩, hafter.trans ?_⟩
    rw [List.append_assoc]
    rfl

end Device

/-- **A computation can be repeated** on another device: if that device answers its calls in the same way, it comes to
the same end there. -/
def Run.Repeats (dev : Device σ) (dev' : Device τ) (x : Run (σ × List DeviceCall) α) (y : Run τ α) : Prop :=
  ∀ s notes, ∃ r calls, x.run (s, notes) = (r, dev.afterAll calls s, notes ++ calls) ∧ dev.AnswersAll calls s ∧
    ∀ t, dev'.AnswersAll calls t → y.run t = (r, dev'.afterAll calls t)

namespace Run.Repeats

/-- Nothing is asked of the device. -/
theorem of_silent {x : Run (σ × List DeviceCall) α} {y : Run τ α} (r : Except RuntimeError α)
    (hx : ∀ s, x.run s = (r, s)) (hy : ∀ t, y.run t = (r, t)) : Repeats dev dev' x y := by
  intro s notes
  refine ⟨r, [], ?_, trivial, fun t _ => hy t⟩
  rw [hx, List.append_nil]
  rfl

theorem lift (r : Except RuntimeError α) : Repeats dev dev' (liftM r) (liftM r) :=
  of_silent r (fun _ => rfl) fun _ => rfl

theorem pure (a : α) : Repeats dev dev' (pure a) (pure a) := of_silent (.ok a) (fun _ => rfl) fun _ => rfl

theorem bind {x : Run (σ × List DeviceCall) α} {y : Run τ α} {f : α → Run (σ × List DeviceCall) β} {g : α → Run τ β}
    (hx : Repeats dev dev' x y) (hf : ∀ a, Repeats dev dev' (f a) (g a)) : Repeats dev dev' (x >>= f) (y >>= g) := by
  intro s notes
  obtain ⟨r, calls, hrun, hanswers, hrepeats⟩ := hx s notes
  cases r with
  | error err =>
    refine ⟨.error err, calls, by rw [run_bind, hrun], hanswers, fun t ht => ?_⟩
    rw [run_bind, hrepeats t ht]
  | ok a =>
    obtain ⟨r, more, hrun', hmore, hrepeats'⟩ := hf a (dev.afterAll calls s) (notes ++ calls)
    refine ⟨r, calls ++ more, ?_, Device.answersAll_append.2 ⟨hanswers, hmore⟩, fun t ht => ?_⟩
    · rw [run_bind, hrun, Device.afterAll_append, ← List.append_assoc]
      exact hrun'
    · obtain ⟨hcalls, hmore⟩ := Device.answersAll_append.1 ht
      rw [run_bind, hrepeats t hcalls, Device.afterAll_append]
      exact hrepeats' _ hmore

/-- What is computed from the result of a computation asks nothing of the device. -/
theorem bind_lift {x : Run (σ × List DeviceCall) α} {y : Run τ α} (hx : Repeats dev dev' x y)
    (f : α → Except RuntimeError β) : Repeats dev dev' (do liftM (f (← x))) (do liftM (f (← y))) :=
  hx.bind fun a => lift (f a)

end Run.Repeats

theorem repeats_performOp (dev : Device σ) (dev' : Device τ) (func : DeviceOp) (args : List Scalar) :
    Run.Repeats dev dev' (performOp dev.noted func args) (performOp dev' func args) := by
  -- Whatever the operation asks of the device goes into the notes, and the other device answers by them.
  cases func with
  | readInput =>
    refine (Run.Repeats.lift _).bind fun a => Run.Repeats.bind (fun s notes => ?_) fun b => .pure _
    refine ⟨.ok (dev.readInput a s).1, [.readInput a (dev.readInput a s).1], rfl, ⟨rfl, trivial⟩, fun t ht => ?_⟩
    rw [← (show (dev'.readInput a t).1 = (dev.readInput a s).1 from ht.1)]
    rfl
  | readRegister =>
    refine (Run.Repeats.lift _).bind fun a => Run.Repeats.bind (fun s notes => ?_) fun w => .pure _
    refine ⟨.ok (dev.readRegister a s).1, [.readRegister a (dev.readRegister a s).1], rfl, ⟨rfl, trivial⟩,
      fun t ht => ?_⟩
    rw [← (show (dev'.readRegister a t).1 = (dev.readRegister a s).1 from ht.1)]
    rfl
  | writeCoil =>
    refine (Run.Repeats.lift _).bind fun a => (Run.Repeats.lift _).bind fun b => Run.Repeats.bind ?_ fun _ => .pure _
    exact fun s notes => ⟨.ok (), [.writeCoil a b], rfl, ⟨trivial, trivial⟩, fun t _ => rfl⟩
  | writeRegister =>
    refine (Run.Repeats.lift _).bind fun a => (Run.Repeats.lift _).bind fun w => Run.Repeats.bind ?_ fun _ => .pure _
    exact fun s notes => ⟨.ok (), [.writeRegister a w], rfl, ⟨trivial, trivial⟩, fun t _ => rfl⟩
  | getDA =>
    refine (Run.Repeats.lift _).bind fun path s notes => ?_
    refine ⟨.ok (dev.getDA path s).1, [.getDA path (dev.getDA path s).1], rfl, ⟨rfl, trivial⟩, fun t ht => ?_⟩
    rw [← (show (dev'.getDA path t).1 = (dev.getDA path s).1 from ht.1)]
    rfl
  | setDA =>
    refine (Run.Repeats.lift _).bind fun path => Run.Repeats.bind ?_ fun _ => .pure _
    exact fun s notes => ⟨.ok (), [.setDA path (args.tail.headD .null)], rfl, ⟨trivial, trivial⟩, fun t _ => rfl⟩
  | log =>
    refine Run.Repeats.bind (fun s notes => ?_) fun _ => .pure _
    exact ⟨.ok (), [.log (.ofText (args.headD .null).display) (args.tail.headD .null).display], rfl, ⟨trivial, trivial⟩,
      fun t _ => rfl⟩

mutual

theorem repeats_evaluate (hnow : dev.StandsAt now) (hnow' : dev'.StandsAt now) (scope : Scope) : (e : Expr) →
    Run.Repeats dev dev' (evaluate dev.noted scope e) (evaluate dev' scope e)
  | .literal v => by
    rw [evaluate, evaluate]
    exact .pure v
  | .var key => by
    rw [evaluate, evaluate]
    cases scope.get? key with
    | none => exact .lift _
    | some v => exact .pure v
  | .stepTime key => by
    -- the time is the same before and after any calls
    rw [evaluate, evaluate]
    refine .of_silent (.ok (.ofMillis ((scope.stepTime? key now).getD 0))) (fun s => ?_) fun t => ?_
    · rw [← hnow s.1]
      rfl
    · rw [← hnow' t]
      rfl
  | .unary op e => by
    rw [evaluate, evaluate]
    exact (repeats_evaluate hnow hnow' scope e).bind_lift _
  | .binary op l r => by
    rw [evaluate, evaluate]
    refine (repeats_evaluate hnow hnow' scope l).bind fun a => ?_
    cases decided op a with
    | some v => exact .pure v
    | none => exact (repeats_evaluate hnow hnow' scope r).bind_lift _
  | .builtin func args => by
    rw [evaluate, evaluate]
    exact (repeats_evaluateAll hnow hnow' scope args).bind_lift _
  | .device func args => by
    rw [evaluate, evaluate]
    exact (repeats_evaluateAll hnow hnow' scope args).bind fun vs => repeats_performOp dev dev' func vs

theorem repeats_evaluateAll (hnow : dev.StandsAt now) (hnow' : dev'.StandsAt now) (scope : Scope) : (es : List Expr) →
    Run.Repeats dev dev' (evaluateAll dev.noted scope es) (evaluateAll dev' scope es)
  | [] => by
    rw [evaluateAll, evaluateAll]
    exact .pure _
  | e :: es => by
    rw [evaluateAll, evaluateAll]
    exact (repeats_evaluate hnow hnow' scope e).bind fun v =>
      (repeats_evaluateAll hnow hnow' scope es).bind fun vs => .pure _

end

theorem repeats_condition (hnow : dev.StandsAt now) (hnow' : dev'.StandsAt now) (scope : Scope) (e : Expr) :
    Run.Repeats dev dev' (condition dev.noted scope e) (condition dev' scope e) := by
  unfold condition
  refine (repeats_evaluate hnow hnow' scope e).bind fun v => ?_
  cases v with
  | bool b => exact .pure b
  | null | int _ | real _ | text _ => exact .lift (.error _)

theorem repeats_chooseArm (hnow : dev.StandsAt now) (hnow' : dev'.StandsAt now) (scope : Scope) : (arms : Arms) →
    Run.Repeats dev dev' (chooseArm dev.noted scope arms) (chooseArm dev' scope arms)
  | .none => .pure _
  | .otherwise body => .pure _
  | .arm cond body rest => by
    unfold chooseArm
    refine (repeats_condition hnow hnow' scope cond).bind fun holds => ?_
    cases holds with
    | true => exact .pure _
    | false => exact repeats_chooseArm hnow hnow' scope rest

theorem repeats_runStmt (hnow : dev.StandsAt now) (hnow' : dev'.StandsAt now) (scope : Scope) (stmt : Stmt)
    (after : List Stmt) :
    Run.Repeats dev dev' (runStmt dev.noted scope stmt after) (runStmt dev' scope stmt after) := by
  cases stmt with
  | assign line target value =>
    exact (repeats_evaluate hnow hnow' scope value).bind fun v => (Run.Repeats.lift _).bind fun s => .pure _
  | call line func args =>
    exact (repeats_evaluateAll hnow hnow' scope args).bind fun vs =>
      (repeats_performOp dev dev' func vs).bind fun _ => .pure _
  | choose line arms =>
    refine (repeats_chooseArm hnow hnow' scope arms).bind fun chosen => ?_
    cases chosen with
    | none => exact .pure _
    | some body => exact .pure _
  | loop line cond body =>
    refine (repeats_condition hnow hnow' scope cond).bind fun holds => ?_
    cases holds with
    | true => exact .pure _
    | false => exact .pure _

namespace Execution

variable {e : Execution} {s : σ} {t : τ}

/-- A step with notes taken, repeated on another device. -/
theorem step_repeats (hnow : dev.StandsAt now) (hnow' : dev'.StandsAt now) (e : Execution) (scope : Scope) (s : σ) :
    ∃ outcome execution scope' calls,
      e.step dev.noted scope (s, []) = ⟨outcome, execution, scope', dev.afterAll calls s, calls⟩ ∧
      dev.AnswersAll calls s ∧
      ∀ t, dev'.AnswersAll calls t → e.step dev' scope t = ⟨outcome, execution, scope', dev'.afterAll calls t⟩ := by
  by_cases hframes : ∃ stmt after outer, e.settle.frames = (stmt :: after) :: outer
  · obtain ⟨stmt, after, outer, hframes⟩ := hframes
    obtain ⟨r, calls, hrun, hanswers, hrepeats⟩ := repeats_runStmt hnow hnow' scope stmt after s []
    rw [List.nil_append] at hrun
    cases r with
    | error err =>
      refine ⟨_, _, _, calls, by rw [step_of_frames hframes, hrun], hanswers, fun t ht => ?_⟩
      rw [step_of_frames hframes, hrepeats t ht]
    | ok left =>
      refine ⟨.ok (.suspended stmt.line), ⟨left.2 ++ outer⟩, left.1.followState now, calls, ?_, hanswers,
        fun t ht => ?_⟩
      · rw [step_of_frames hframes, hrun, ← hnow (dev.afterAll calls s)]
        rfl
      · rw [step_of_frames hframes, hrepeats t ht, ← hnow' (dev'.afterAll calls t)]
  · have hdone : ∀ stmt after outer, e.settle.frames ≠ (stmt :: after) :: outer := by
      intro stmt after outer h
      exact hframes ⟨stmt, after, outer, h⟩
    refine ⟨_, _, _, [], step_of_no_frames hdone _ _ _, trivial, fun t _ => step_of_no_frames hdone _ _ _⟩

/-- **A step does what its calls do**, and they are answered as noted. -/
theorem step_calls (hnow : dev.StandsAt now) (e : Execution) (scope : Scope) (s : σ) :
    dev.AnswersAll (e.calls dev scope s) s ∧ (e.step dev scope s).state = dev.afterAll (e.calls dev scope s) s := by
  obtain ⟨outcome, execution, scope', calls, hstep, hanswers, hrepeats⟩ := step_repeats hnow hnow e scope s
  have hcalls : e.calls dev scope s = calls := by rw [Execution.calls, hstep]
  rw [hcalls, hrepeats s hanswers]
  exact ⟨hanswers, rfl⟩

/-- **A step is determined by its calls.** On another device that shows the same time and answers them in the same way
it has the same outcome and makes the same calls. -/
theorem step_of_answers (hnow : dev.StandsAt now) (hnow' : dev'.StandsAt now)
    (ht : dev'.AnswersAll (e.calls dev scope s) t) :
    e.step dev' scope t = ⟨(e.step dev scope s).outcome, (e.step dev scope s).execution, (e.step dev scope s).scope,
        dev'.afterAll (e.calls dev scope s) t⟩ ∧
      e.calls dev' scope t = e.calls dev scope s := by
  have hnoted : dev'.noted.StandsAt now := fun t => hnow' t.1
  obtain ⟨outcome, execution, scope', calls, hstep, hanswers, hrepeats⟩ := step_repeats hnow hnow e scope s
  obtain ⟨outcome₁, execution₁, scope₁, calls₁, hstep₁, -, hrepeats₁⟩ := step_repeats hnow hnow' e scope s
  obtain ⟨outcome₂, execution₂, scope₂, calls₂, hstep₂, -, hrepeats₂⟩ := step_repeats hnow hnoted e scope s
  obtain ⟨rfl, rfl, rfl, hleft₁⟩ := StepResult.mk.inj (hstep.symm.trans hstep₁)
  obtain ⟨-, -, -, hleft₂⟩ := StepResult.mk.inj (hstep.symm.trans hstep₂)
  obtain rfl := (Prod.mk.inj hleft₁).2
  obtain rfl := (Prod.mk.inj hleft₂).2
  have hcalls : e.calls dev scope s = calls := by rw [Execution.calls, hstep]
  rw [hcalls] at ht ⊢
  obtain ⟨hmade, hnotes⟩ := Device.answersAll_noted ht []
  rw [hrepeats s hanswers, hrepeats₁ t ht]
  refine ⟨rfl, ?_⟩
  rw [Execution.calls, hrepeats₂ _ hmade, hnotes]
  rfl

end Execution
end Switchyard.Script
