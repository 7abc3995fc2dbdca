import Mathlib.Tactic.Common
import Switchyard.Script.Compile

/-!
# Well-formed programs

What a program that has been compiled can be relied on for. Its variables have
different keys. Its expressions and statements refer to declared variables only, ask
only state constants for their `stepTime`, give every function its number of
arguments, and call inside expressions only those device functions that return a
value. No initializer calls the device.

* `Expr.WellFormed`, `Stmt.WellFormed`, `Program.WellFormed`.
* `Admits`: the declarations that a variable seen in a text may stand for.
-/

namespace Switchyard.Script

/-- A key that is declared, and declared as a state constant where its `stepTime` is asked for. -/
def Admits (vars : List Declaration) (key : String) (stepTime : Bool) : Prop :=
  ∃ d, declared? vars key = some d ∧ (stepTime = true → d.isStateName = true)

/-- Well-formed expressions. -/
inductive Expr.WellFormed (vars : List Declaration) : Expr → Prop
  | literal (value : Scalar) : WellFormed vars (.literal value)
  | var {key} (h : Admits vars key false) : WellFormed vars (.var key)
  | stepTime {key} (h : Admits vars key true) : WellFormed vars (.stepTime key)
  | unary (op) {e} (h : WellFormed vars e) : WellFormed vars (.unary op e)
  | binary (op) {l r} (hl : WellFormed vars l) (hr : WellFormed vars r) : WellFormed vars (.binary op l r)
  | builtin {func args} (harity : args.length = func.arity) (hargs : ∀ e ∈ args, WellFormed vars e) :
      WellFormed vars (.builtin func args)
  | device {func args} (hresult : func.hasResult = true) (harity : args.length = func.arity)
      (hargs : ∀ e ∈ args, WellFormed vars e) : WellFormed vars (.device func args)

/-- Well-formed statements. -/
inductive Stmt.WellFormed (vars : List Declaration) : Stmt → Prop
  | assign (line) {target value} (htarget : Admits vars target false) (hvalue : value.WellFormed vars) :
      WellFormed vars (.assign line target value)
  | call (line) {func args} (harity : args.length = func.arity) (hargs : ∀ e ∈ args, Expr.WellFormed vars e) :
      WellFormed vars (.call line func args)
  | choose (line) {arms : Arms} (hconds : ∀ arm ∈ arms.branches, arm.1.WellFormed vars)
      (hbodies : ∀ arm ∈ arms.branches, ∀ s ∈ arm.2, WellFormed vars s)
      (hlast : ∀ body, arms.last? = some body → ∀ s ∈ body, WellFormed vars s) : WellFormed vars (.choose line arms)
  | loop (line) {cond body} (hcond : cond.WellFormed vars) (hbody : ∀ s ∈ body, WellFormed vars s) :
      WellFormed vars (.loop line cond body)

/-- The initializer of a declaration, if there is one, is well formed. -/
def Declaration.WellFormed (vars : List Declaration) (d : Declaration) : Prop :=
  ∀ e, d.init = some e → e.WellFormed vars

/-- **Well-formed programs.** -/
structure Program.WellFormed (p : Program) : Prop where
  distinct : (p.vars.map Declaration.key).Nodup
  initializers : ∀ d ∈ p.vars, d.WellFormed p.vars
  detached : ∀ d ∈ p.vars, ∀ e, d.init = some e → e.usesDevice = false
  body : ∀ s ∈ p.body, s.WellFormed p.vars

theorem checkUse_eq_ok {vars : List Declaration} {u : Use} :
    checkUse vars u = .ok () ↔ Admits vars u.key u.stepTime := by
  rw [checkUse, Admits]
  cases declared? vars u.key with
  | none => simp
  | some d => by_cases h : (u.stepTime && !d.isStateName) = true <;> simp_all

theorem allDeclared_eq_ok {vars : List Declaration} {uses : List Use} :
    allDeclared vars uses = .ok () ↔ ∀ u ∈ uses, Admits vars u.key u.stepTime := by
  induction uses with
  | nil => simp [allDeclared]
  | cons u us ih =>
    rw [allDeclared, List.forall_mem_cons, ← checkUse_eq_ok, ← ih]
    cases checkUse vars u with
    | error e => simp
    | ok v => simp

/-- Declarations pass the checks when their keys are new and different and no initializer calls the device. -/
theorem checkDeclarations_eq_ok {seen : List String} {vars : List Declaration} :
    checkDeclarations seen vars = .ok () ↔
      (vars.map Declaration.key).Nodup ∧ (∀ d ∈ vars, d.key ∉ seen) ∧
        ∀ d ∈ vars, ∀ e, d.init = some e → e.usesDevice = false := by
  -- The keys that have been seen grow by each declaration.
  induction vars generalizing seen with
  | nil => simp [checkDeclarations]
  | cons d ds ih =>
    rw [checkDeclarations]
    by_cases hseen : seen.contains d.key = true
    · rw [if_pos hseen]
      have hmem : d.key ∈ seen := List.contains_iff_mem.1 hseen
      simp [hmem]
    · rw [if_neg hseen]
      have hmem : d.key ∉ seen := fun h => hseen (List.contains_iff_mem.2 h)
      by_cases hdevice : d.init.any Expr.usesDevice = true
      · rw [if_pos hdevice]
        obtain ⟨e, he, hcalls⟩ := (Option.any_eq_true _ _).1 hdevice
        refine ⟨fun h => (nomatch h), fun h => ?_⟩
        rw [h.2.2 d List.mem_cons_self e he] at hcalls
        cases hcalls
      · rw [if_neg hdevice, ih]
        have hfree : ∀ e, d.init = some e → e.usesDevice = false := fun e he => by
          rw [he] at hdevice
          simpa using hdevice
        rw [List.map_cons, List.nodup_cons, List.forall_mem_cons, List.forall_mem_cons]
        constructor
        · rintro ⟨hnodup, hnew, hinit⟩
          refine ⟨⟨fun hkey => ?_, hnodup⟩, ⟨hmem, fun d' hd' hd => ?_⟩, hfree, hinit⟩
          · obtain ⟨d', hd', heq⟩ := List.mem_map.1 hkey
            exact hnew d' hd' (heq ▸ List.mem_cons_self)
          · exact hnew d' hd' (List.mem_cons_of_mem _ hd)
        · rintro ⟨⟨hkey, hnodup⟩, ⟨-, hnew⟩, -, hinit⟩
          refine ⟨hnodup, fun d' hd' hd => ?_, hinit⟩
          rcases List.mem_cons.1 hd with heq | hd
          · exact hkey (List.mem_map.2 ⟨d', hd', heq⟩)
          · exact hnew d' hd' hd

end Switchyard.Script
