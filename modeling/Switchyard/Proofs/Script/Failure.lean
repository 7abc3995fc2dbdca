import Mathlib.Tactic.Common
import Switchyard.Script.Eval

/-!
# How expressions fail

A computation is described by what all its errors satisfy (`Errs`, `Run.Errs`). Apart
from variables that are not there, expressions fail for their operands only, and what
holds of all these faults is written as `Tolerates P`: so one statement for each
operator and each function of the device serves every property of errors.

* `errs_applyUnary`, `errs_applyBinary`, `errs_applyBuiltin`, `errs_performOp`, `errs_convert`.
-/

namespace Switchyard.Script

variable {σ α β : Type}

/-- A computation goes on after another one unless that one fails. -/
theorem run_bind (x : Run σ α) (f : α → Run σ β) (state : σ) :
    (x >>= f).run state =
      match x.run state with
      | (.ok a, state') => (f a).run state'
      | (.error err, state') => (.error err, state') := by
  change Id.run (ExceptT.bindCont f (x.run state).1 (x.run state).2) = _
  rcases x.run state with ⟨_ | _, _⟩ <;> rfl

/-- A function is applied to the result, if there is one, and the device is what it was. -/
theorem run_map (f : α → β) (x : Run σ α) (state : σ) :
    (f <$> x).run state =
      match x.run state with
      | (.ok a, state') => (.ok (f a), state')
      | (.error err, state') => (.error err, state') := by
  rw [map_eq_pure_bind, run_bind]
  rcases x.run state with ⟨_ | _, _⟩ <;> rfl

theorem run_map_ok {f : α → β} {x : Run σ α} {state state' : σ} {b : β} :
    (f <$> x).run state = (.ok b, state') ↔ ∃ a, x.run state = (.ok a, state') ∧ f a = b := by
  rw [run_map]
  constructor
  · intro h
    rcases hx : x.run state with ⟨_ | a, _⟩
    · rw [hx] at h
      cases h
    · rw [hx] at h
      cases h
      exact ⟨a, rfl, rfl⟩
  · rintro ⟨a, hx, rfl⟩
    rw [hx]

theorem run_map_error {f : α → β} {x : Run σ α} {state state' : σ} {err : RuntimeError} :
    (f <$> x).run state = (.error err, state') ↔ x.run state = (.error err, state') := by
  rw [run_map]
  constructor
  · intro h
    rcases hx : x.run state with ⟨_ | a, _⟩
    · rw [hx] at h
      cases h
      rfl
    · rw [hx] at h
      cases h
  · intro hx
    rw [hx]

/-- An outcome that, if it is an error, is one with a property. -/
def Errs (P : RuntimeError → Prop) (r : Except RuntimeError α) : Prop := ∀ err, r = .error err → P err

/-- A computation whose errors have a property. -/
def Run.Errs (P : RuntimeError → Prop) (x : Run σ α) : Prop := ∀ state, Script.Errs P (x.run state).1

/-- A property of all faults but that a variable is not there. -/
def Tolerates (P : RuntimeError → Prop) : Prop := ∀ f : RuntimeFault, (∀ key, f ≠ .unknownVariable key) → P ⟨f, none⟩

variable {P : RuntimeError → Prop}

namespace Errs

theorem ok (a : α) : Errs P (.ok a) := fun _ h => nomatch h

theorem error {err : RuntimeError} (h : P err) : Errs P (.error err : Except RuntimeError α) := by
  intro _ herr
  cases herr
  exact h

theorem fault {f : RuntimeFault} (hP : Tolerates P) (hf : ∀ key, f ≠ .unknownVariable key) :
    Errs P (Script.fault f : Except RuntimeError α) := error (hP f hf)

/-- Two outcomes in a row fail for no other reason than one of them does. -/
theorem bind {r : Except RuntimeError α} {f : α → Except RuntimeError β} (hr : Errs P r) (hf : ∀ a, Errs P (f a)) :
    Errs P (r >>= f) := by
  cases r with
  | error e => exact error (hr e rfl)
  | ok a => exact hf a

theorem map {r : Except RuntimeError α} (f : α → β) (hr : Errs P r) : Errs P (r.map f) := by
  cases r with
  | error e => exact error (hr e rfl)
  | ok a => exact ok _

end Errs

namespace Run.Errs

theorem pure (a : α) : Errs P (pure a : Run σ α) := fun _ => .ok a

theorem lift {r : Except RuntimeError α} (hr : Script.Errs P r) : Errs P (liftM r : Run σ α) := fun _ => hr

/-- Nor do two computations in a row. -/
theorem bind {x : Run σ α} {f : α → Run σ β} (hx : Errs P x) (hf : ∀ a, Errs P (f a)) : Errs P (x >>= f) := by
  intro state
  have hfirst := hx state
  rw [run_bind]
  rcases hrun : x.run state with ⟨err | a, state'⟩
  · exact .error (hfirst err (by rw [hrun]))
  · exact hf a state'

theorem map {x : Run σ α} (f : α → β) (hx : Errs P x) : Errs P (f <$> x) := by
  rw [map_eq_pure_bind]
  exact hx.bind fun _ => .pure _

/-- A change of the device alone does not fail. -/
theorem modifyGet (f : σ → α × σ) : Errs P (modifyGet f : Run σ α) := fun _ => .ok _

end Run.Errs

/-- A unary operator fails when the operand is of another type. -/
theorem errs_applyUnary (hP : Tolerates P) (op : UnaryOp) (v : Scalar) : Errs P (applyUnary op v) := by
  unfold applyUnary
  split
  all_goals first | exact .ok _ | exact .fault hP nofun

/-- A comparison by order fails when the values have none. -/
theorem errs_order (hP : Tolerates P) (op : BinaryOp) (l r : Scalar) : Errs P (order op l r) := by
  unfold order
  split
  · exact .ok _
  · split
    · exact .ok _
    · exact .fault hP nofun

theorem errs_intArith (hP : Tolerates P) {op : BinaryOp} {a b : Int64} {r : Except RuntimeError Int64}
    (h : intArith op a b = some r) : Errs P r := by
  unfold intArith at h
  split at h <;> cases h
  all_goals try split
  all_goals first | exact .ok _ | exact .fault hP nofun

theorem errs_realArith (hP : Tolerates P) {op : BinaryOp} {a b : Float} {r : Except RuntimeError Float}
    (h : realArith op a b = some r) : Errs P r := by
  unfold realArith at h
  split at h <;> cases h
  all_goals try split
  all_goals first | exact .ok _ | exact .fault hP nofun

/-- Arithmetic fails when an operand is no number, or on a division by zero. -/
theorem errs_arith (hP : Tolerates P) (op : BinaryOp) (l r : Scalar) : Errs P (arith op l r) := by
  unfold arith
  simp only []
  split
  · split
    · rename_i h
      exact (errs_intArith hP h).map _
    · exact .fault hP nofun
  · split
    · split
      · rename_i h
        exact (errs_realArith hP h).map _
      · exact .fault hP nofun
    · exact .fault hP nofun

theorem errs_logic (hP : Tolerates P) (op : BinaryOp) (onBool : Bool → Bool → Bool)
    (onInt : Int64 → Int64 → Int64) (l r : Scalar) : Errs P (logic op onBool onInt l r) := by
  unfold logic
  split
  all_goals first | exact .ok _ | exact .fault hP nofun

/-- No binary operator asks for a variable. -/
theorem errs_applyBinary (hP : Tolerates P) (op : BinaryOp) (l r : Scalar) : Errs P (applyBinary op l r) := by
  have hcomparison (op : BinaryOp) (holds : Ordering → Bool) : Errs P (comparison op holds l r) :=
    (errs_order hP op l r).map _
  unfold applyBinary
  split
  case h_1 | h_2 => exact errs_logic hP _ _ _ l r
  case h_3 | h_4 => exact .ok _
  case h_5 | h_6 | h_7 | h_8 => exact hcomparison _ _
  case h_9 => exact errs_arith hP op l r

/-- No built-in function asks for a variable. -/
theorem errs_applyBuiltin (hP : Tolerates P) (func : Builtin) (args : List Scalar) :
    Errs P (applyBuiltin func args) := by
  have hnumber (func : Builtin) (v : Scalar) : Errs P (numberOperand func v) := by
    unfold numberOperand
    split
    · exact .ok _
    · exact .fault hP nofun
  unfold applyBuiltin
  simp only []
  split
  case h_1 => exact errs_applyBinary hP _ _ _
  case h_2 =>
    refine (hnumber _ _).bind fun x => ?_
    split
    · exact .fault hP nofun
    · exact .ok _
  case h_3 | h_5 | h_6 | h_8 => exact .ok _
  case h_4 | h_7 | h_9 => exact (hnumber _ _).bind fun x => .ok _

/-- An address that is out of range is no missing variable. -/
theorem errs_addressOperand (hP : Tolerates P) (func : DeviceOp) (v : Scalar) : Errs P (addressOperand func v) := by
  unfold addressOperand
  simp only []
  split
  · split
    · exact .ok _
    · exact .fault hP nofun
  · exact .fault hP nofun

/-- Neither is a value that no register can hold. -/
theorem errs_wordOperand (hP : Tolerates P) (func : DeviceOp) (v : Scalar) : Errs P (wordOperand func v) := by
  unfold wordOperand
  simp only []
  split
  · split
    · exact .ok _
    · exact .fault hP nofun
  · exact .fault hP nofun

theorem errs_coilOperand (hP : Tolerates P) (func : DeviceOp) (v : Scalar) : Errs P (coilOperand func v) := by
  unfold coilOperand
  split
  all_goals first | exact .ok _ | exact .fault hP nofun

theorem errs_pathOperand (hP : Tolerates P) (func : DeviceOp) (v : Scalar) : Errs P (pathOperand func v) := by
  unfold pathOperand
  split
  · exact .ok _
  · exact .fault hP nofun

/-- A call fails for its arguments only. -/
theorem errs_performOp (hP : Tolerates P) (dev : Device σ) (func : DeviceOp) (args : List Scalar) :
    Run.Errs P (performOp dev func args) := by
  have haddress (v : Scalar) : Run.Errs P (liftM (addressOperand func v) : Run σ UInt16) :=
    .lift (errs_addressOperand hP func v)
  have hpath (v : Scalar) : Run.Errs P (liftM (pathOperand func v) : Run σ String) :=
    .lift (errs_pathOperand hP func v)
  cases func with
  | readInput | readRegister => exact (haddress _).bind fun a => (Run.Errs.modifyGet _).bind fun _ => .pure _
  | writeCoil =>
    exact (haddress _).bind fun a => (Run.Errs.lift (errs_coilOperand hP _ _)).bind fun b =>
      (Run.Errs.modifyGet _).bind fun _ => .pure _
  | writeRegister =>
    exact (haddress _).bind fun a => (Run.Errs.lift (errs_wordOperand hP _ _)).bind fun w =>
      (Run.Errs.modifyGet _).bind fun _ => .pure _
  | getDA => exact (hpath _).bind fun path => .modifyGet _
  | setDA => exact (hpath _).bind fun path => (Run.Errs.modifyGet _).bind fun _ => .pure _
  | log => exact (Run.Errs.modifyGet _).bind fun _ => .pure _

/-- A value that is no value of a type is no missing variable. -/
theorem errs_convert (hP : Tolerates P) (type : TypeName) (name : String) (value : Scalar) :
    Errs P (convert type name value) := by
  unfold convert
  split
  all_goals first | exact .ok _ | exact .fault hP nofun

/-- An assignment to a variable that is there fails for the value only. -/
theorem errs_set (hP : Tolerates P) (scope : Scope) {key : String} (value : Scalar)
    (hkey : scope.find? key = none → P ⟨.unknownVariable key, none⟩) : Errs P (scope.set key value) := by
  unfold Scope.set
  split
  · rename_i hnone
    exact .error (hkey hnone)
  · split
    · rename_i e h
      exact .error (errs_convert hP _ _ _ e h)
    · exact .ok _

end Switchyard.Script
