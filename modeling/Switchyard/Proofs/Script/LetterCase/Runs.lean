import Switchyard.Proofs.Script.Atomicity
import Switchyard.Proofs.Script.LetterCase.Programs
import Switchyard.Proofs.Script.Refinement

/-!
# Runs in another letter case

Statements name variables by their keys. What a declared name is spelled like is kept in the scope for snapshots, and
the only thing a run does with it is to put it into the message of an assignment that fails. So two scopes that differ
in the spelling of names answer every expression alike (`evaluate_recased`), and one execution takes the same steps in
both (`recased_step`), on any device. Together with the compiler, which does not see letter case, programs in different
letter case run alike from their starts (`letterCase_ignored`).

* `Scope.Recased`, `RuntimeError.Recased`: scopes and errors in another letter case.
* `Suspension.Recased`, `Ending.Recased`: what is observed of two runs.
-/

namespace Switchyard.Script

variable {σ α β : Type} {s s' : Scope} {now : Millis}

/-- **Variables in another letter case**: the name may be spelled differently, and nothing else. -/
structure Binding.Recased (b b' : Binding) : Prop where
  name : Text.upper b'.name = Text.upper b.name
  key : b'.key = b.key
  type : b'.type = b.type
  value : b'.value = b.value
  timer : b'.timer = b.timer

theorem Binding.Recased.withValue {b b' : Binding} (h : b.Recased b') (value : Scalar) :
    Binding.Recased { b with value := value } { b' with value := value } := ⟨h.name, h.key, h.type, rfl, h.timer⟩

theorem Binding.Recased.withTimer {b b' : Binding} (h : b.Recased b') {timer timer' : Option Timer}
    (htimer : timer' = timer) : Binding.Recased { b with timer := timer } { b' with timer := timer' } :=
  ⟨h.name, h.key, h.type, h.value, htimer⟩

/-- **Scopes in another letter case**: the same variables in the same order, with the same values and timers. -/
structure Scope.Recased (s s' : Scope) : Prop where
  bindings : List.Forall₂ Binding.Recased s.bindings s'.bindings
  lastState : s'.lastState = s.lastState

/-- Faults in another letter case. -/
inductive RuntimeFault.Recased : RuntimeFault → RuntimeFault → Prop
  | same (fault : RuntimeFault) : Recased fault fault
  | cannotAssign (actual : Kind) (type : TypeName) {name name' : String} (h : Text.upper name' = Text.upper name) :
      Recased (.cannotAssign actual name type) (.cannotAssign actual name' type)

/-- **Errors in another letter case**: the same fault on the same line, but for the name of a variable in it. -/
structure RuntimeError.Recased (e e' : RuntimeError) : Prop where
  fault : e.fault.Recased e'.fault
  line : e'.line = e.line

theorem RuntimeError.Recased.refl (e : RuntimeError) : e.Recased e := ⟨.same e.fault, rfl⟩

theorem RuntimeError.Recased.atLine {e e' : RuntimeError} (h : e.Recased e') (line : UInt32) :
    (e.atLine line).Recased (e'.atLine line) :=
  ⟨h.fault, congrArg (· <|> some line) h.line⟩

/-- Two outcomes that are errors in another letter case, or hold related values. -/
abbrev Follow (R : α → α → Prop) : Except RuntimeError α → Except RuntimeError α → Prop :=
  Agree RuntimeError.Recased R

theorem Follow.refl (r : Except RuntimeError α) : Follow Eq r r := by
  cases r with
  | error e => exact RuntimeError.Recased.refl e
  | ok a => exact rfl

namespace Scope.Recased

/-- A key finds variables in both scopes that differ in their spelling only, or in neither of them. -/
theorem find? (h : s.Recased s') (key : String) :
    s.find? key = none ∧ s'.find? key = none ∨
      ∃ b b', s.find? key = some b ∧ s'.find? key = some b' ∧ b.Recased b' :=
  find?_related (fun _ _ hb => by rw [hb.key]) h.bindings

/-- Variables have the same values. -/
theorem get?_eq (h : s.Recased s') (key : String) : s'.get? key = s.get? key := by
  rw [Scope.get?, Scope.get?]
  rcases h.find? key with ⟨hb, hb'⟩ | ⟨b, b', hb, hb', hrecased⟩
  · rw [hb, hb']
  · rw [hb, hb', Option.map_some, Option.map_some, hrecased.value]

/-- Timers have been running for the same time. -/
theorem stepTime?_eq (h : s.Recased s') (key : String) (now : Millis) : s'.stepTime? key now = s.stepTime? key now := by
  rw [Scope.stepTime?, Scope.stepTime?]
  rcases h.find? key with ⟨hb, hb'⟩ | ⟨b, b', hb, hb', hrecased⟩
  · rw [hb, hb']
  · rw [hb, hb', Option.bind_some, Option.bind_some, hrecased.timer]

theorem map {f f' : Binding → Binding} (h : s.Recased s') (hf : ∀ b b', b.Recased b' → (f b).Recased (f' b'))
    (last : Option Int64) : Scope.Recased ⟨s.bindings.map f, last⟩ ⟨s'.bindings.map f', last⟩ :=
  ⟨List.rel_map hf h.bindings, rfl⟩

/-- Variables in different letter case may change alike. -/
theorem modify {f f' : Binding → Binding} (h : s.Recased s') (hf : ∀ b b', b.Recased b' → (f b).Recased (f' b'))
    (key : String) : (s.modify key f).Recased (s'.modify key f') := by
  refine ⟨List.rel_map (fun b b' hb => ?_) h.bindings, h.lastState⟩
  rw [hb.key]
  split
  · exact hf b b' hb
  · exact hb

theorem startTimer (h : s.Recased s') (key : String) : (s.startTimer key).Recased (s'.startTimer key) :=
  h.modify (fun _ _ hb => hb.withTimer (by rw [hb.value])) key

/-- The same timers start anew, as `STATE` has the same value. -/
theorem followState (h : s.Recased s') (now : Millis) : (s.followState now).Recased (s'.followState now) := by
  rw [Scope.followState, Scope.followState, h.get?_eq, h.lastState]
  split
  · exact h
  · split
    · exact h
    · exact h.map (fun _ _ hb => hb.withTimer (by rw [hb.timer])) _

/-- A conversion fails with the name of the variable in the message. -/
theorem convert {name name' : String} (hname : Text.upper name' = Text.upper name) (type : TypeName) (value : Scalar) :
    Follow Eq (convert type name value) (Script.convert type name' value) := by
  have hfails : Follow (Eq : Scalar → Scalar → Prop) (.error ⟨.cannotAssign value.kind name type, none⟩)
      (.error ⟨.cannotAssign value.kind name' type, none⟩) := ⟨.cannotAssign _ _ hname, rfl⟩
  cases type <;> cases value <;> first | exact rfl | exact hfails

/-- **Assignments**. -/
theorem set (h : s.Recased s') (key : String) (value : Scalar) :
    Follow Scope.Recased (s.set key value) (s'.set key value) := by
  rw [Scope.set, Scope.set]
  rcases h.find? key with ⟨hb, hb'⟩ | ⟨b, b', hb, hb', hrecased⟩
  · rw [hb, hb']
    exact RuntimeError.Recased.refl _
  · simp only [hb, hb', hrecased.type]
    rcases (convert hrecased.name b.type value).cases with ⟨e, e', he, he', herr⟩ | ⟨v, v', hv, hv', rfl⟩
    · rw [he, he']
      exact herr
    · rw [hv, hv']
      exact h.modify (fun _ _ hb => hb.withValue v) key

end Scope.Recased

/-- Two computations that fail alike or give related values, and leave the same state. -/
def Run.Follow (R : α → α → Prop) (x x' : Run σ α) : Prop :=
  ∀ state, Script.Follow R (x.run state).1 (x'.run state).1 ∧ (x'.run state).2 = (x.run state).2

namespace Run.Follow

variable {R : α → α → Prop} {S : β → β → Prop} {x x' : Run σ α} {f f' : α → Run σ β}

theorem pure {a a' : α} (h : R a a') : Run.Follow R (Pure.pure a : Run σ α) (Pure.pure a') := fun _ => ⟨h, rfl⟩

theorem lift {r r' : Except RuntimeError α} (h : Script.Follow R r r') :
    Run.Follow R (liftM r : Run σ α) (liftM r') := fun _ => ⟨h, rfl⟩

theorem refl (x : Run σ α) : Run.Follow Eq x x := fun state => ⟨Script.Follow.refl (x.run state).1, rfl⟩

/-- Computations in a row follow each other if the second ones do on related values. -/
theorem bind (hx : Run.Follow R x x') (hf : ∀ a a', R a a' → Run.Follow S (f a) (f' a')) :
    Run.Follow S (x >>= f) (x' >>= f') := by
  intro state
  obtain ⟨houtcome, hstate⟩ := hx state
  rw [run_bind, run_bind]
  rcases hrun : x.run state with ⟨r, left⟩
  rcases hrun' : x'.run state with ⟨r', left'⟩
  rw [hrun, hrun'] at houtcome hstate
  obtain rfl : left' = left := hstate
  rcases houtcome.cases with ⟨e, e', rfl, rfl, he⟩ | ⟨a, a', rfl, rfl, ha⟩
  · exact ⟨he, rfl⟩
  · exact hf a a' ha left'

/-- Goes on after one computation. -/
theorem next (x : Run σ α) (hf : ∀ a, Run.Follow S (f a) (f' a)) : Run.Follow S (x >>= f) (x >>= f') :=
  (refl x).bind fun a _ ha => ha ▸ hf a

end Run.Follow

variable {dev : Device σ}

mutual

/-- **Expressions** ask a scope for values and times only. -/
theorem evaluate_recased (h : s.Recased s') : (e : Expr) → evaluate dev s' e = evaluate dev s e
  | .literal v => by rw [evaluate, evaluate]
  | .var key => by rw [evaluate, evaluate, h.get?_eq]
  | .stepTime key => by
    rw [evaluate, evaluate]
    simp only [h.stepTime?_eq]
  | .unary op e => by rw [evaluate, evaluate, evaluate_recased h e]
  | .binary op l r => by rw [evaluate, evaluate, evaluate_recased h l, evaluate_recased h r]
  | .builtin func args => by rw [evaluate, evaluate, evaluateAll_recased h args]
  | .device func args => by rw [evaluate, evaluate, evaluateAll_recased h args]

theorem evaluateAll_recased (h : s.Recased s') : (es : List Expr) → evaluateAll dev s' es = evaluateAll dev s es
  | [] => by rw [evaluateAll, evaluateAll]
  | e :: es => by rw [evaluateAll, evaluateAll, evaluate_recased h e, evaluateAll_recased h es]

end

/-- A condition has the same value in a scope in another letter case. -/
theorem condition_recased (h : s.Recased s') (e : Expr) : condition dev s' e = condition dev s e := by
  rw [condition, condition, evaluate_recased h e]

/-- The same alternative is chosen in a scope in another letter case. -/
theorem chooseArm_recased (h : s.Recased s') : (arms : Arms) → chooseArm dev s' arms = chooseArm dev s arms
  | .none => rfl
  | .otherwise _ => rfl
  | .arm cond body rest => by rw [chooseArm, chooseArm, condition_recased h cond, chooseArm_recased h rest]

/-- **Statements** leave the same blocks, and scopes in different letter case. -/
theorem recased_runStmt (dev : Device σ) (h : s.Recased s') (stmt : Stmt) (after : List Stmt) :
    Run.Follow (fun left left' => left.1.Recased left'.1 ∧ left'.2 = left.2) (runStmt dev s stmt after)
      (runStmt dev s' stmt after) := by
  cases stmt with
  | assign line target value =>
    simp only [runStmt, evaluate_recased h]
    exact .next _ fun v => (Run.Follow.lift (h.set target v)).bind fun _ _ hs => .pure ⟨hs, rfl⟩
  | call line func args =>
    simp only [runStmt, evaluateAll_recased h]
    exact .next _ fun vs => .next _ fun _ => .pure ⟨h, rfl⟩
  | choose line arms =>
    simp only [runStmt, chooseArm_recased h]
    refine .next _ fun chosen => ?_
    cases chosen with
    | none => exact .pure ⟨h, rfl⟩
    | some body => exact .pure ⟨h, rfl⟩
  | loop line cond body =>
    simp only [runStmt, condition_recased h]
    refine .next _ fun holds => ?_
    cases holds with
    | false => exact .pure ⟨h, rfl⟩
    | true => exact .pure ⟨h, rfl⟩

/-- Results of steps in scopes in different letter case: they suspend, complete or fail alike, with the same statements
left and the same device. -/
structure StepResult.Recased (r r' : StepResult σ) : Prop where
  outcome : Follow Eq r.outcome r'.outcome
  execution : r'.execution = r.execution
  scope : r.scope.Recased r'.scope
  state : r'.state = r.state

/-- **One step** in scopes in different letter case. -/
theorem recased_step (dev : Device σ) (h : s.Recased s') (e : Execution) (state : σ) :
    (e.step dev s state).Recased (e.step dev s' state) := by
  rcases hframes : e.settle.frames with _ | ⟨_ | ⟨stmt, after⟩, outer⟩
  · simp only [Execution.step, hframes]
    exact ⟨rfl, rfl, h, rfl⟩
  · simp only [Execution.step, hframes]
    exact ⟨rfl, rfl, h, rfl⟩
  obtain ⟨houtcome, hstate⟩ := recased_runStmt dev h stmt after state
  rcases hrun : (runStmt dev s stmt after).run state with ⟨r, left⟩
  rcases hrun' : (runStmt dev s' stmt after).run state with ⟨r', left'⟩
  rw [hrun, hrun'] at houtcome hstate
  obtain rfl : left' = left := hstate
  simp only [Execution.step, hframes, hrun, hrun']
  rcases houtcome.cases with ⟨e, e', rfl, rfl, he⟩ | ⟨a, a', rfl, rfl, hscope, hblocks⟩
  · exact ⟨he.atLine stmt.line, rfl, h, rfl⟩
  · exact ⟨rfl, by simp only [hblocks], hscope.followState _, rfl⟩

/-- Suspensions on the same line, with the same device and with scopes in different letter case. -/
structure Suspension.Recased (shown shown' : Suspension σ) : Prop where
  line : shown'.line = shown.line
  scope : shown.scope.Recased shown'.scope
  state : shown'.state = shown.state

/-- Moments after as many steps, with the same device and with scopes in different letter case. -/
structure Moment.Recased (m m' : Moment σ) : Prop where
  steps : m'.steps = m.steps
  scope : m.scope.Recased m'.scope
  state : m'.state = m.state

/-- Runs that end alike, in different letter case. -/
inductive Ending.Recased : Ending σ → Ending σ → Prop
  | paused {m m' : Moment σ} (h : m.Recased m') : Recased (.paused m) (.paused m')
  | completed {m m' : Moment σ} (h : m.Recased m') : Recased (.completed m) (.completed m')
  | failed {e e' : RuntimeError} {scope scope' : Scope} (he : e.Recased e') (hscope : scope.Recased scope')
      (state : σ) : Recased (.failed e scope state) (.failed e' scope' state)

theorem Moment.Recased.next {m m' : Moment σ} (h : m.Recased m') (world : ℕ → σ → σ) {shown shown' : Suspension σ}
    (hshown : shown.Recased shown') : (m.next world shown).Recased (m'.next world shown') :=
  ⟨congrArg (· + 1) h.steps, hshown.scope, by rw [Moment.next, Moment.next, h.steps, hshown.state]⟩

/-- **A run**, by induction on its steps. -/
theorem recased_observe (dev : Device σ) (world : ℕ → σ → σ) (n : ℕ) (e : Execution) {m m' : Moment σ}
    (h : m.Recased m') :
    List.Forall₂ Suspension.Recased (e.observe dev world n m).1 (e.observe dev world n m').1 ∧
      (e.observe dev world n m).2.Recased (e.observe dev world n m').2 := by
  induction n generalizing e m m' with
  | zero => exact ⟨.nil, .paused h⟩
  | succ n ih =>
    obtain ⟨steps, scope, state⟩ := m
    obtain ⟨steps', scope', state'⟩ := m'
    obtain ⟨hsteps, hscope, hstate⟩ := h
    obtain rfl : steps' = steps := hsteps
    obtain rfl : state' = state := hstate
    have hstep := recased_step dev hscope e state'
    rcases hresult : e.step dev scope state' with ⟨outcome, e₁, scope₁, state₁⟩
    rcases hresult' : e.step dev scope' state' with ⟨outcome', e₂, scope₂, state₂⟩
    rw [hresult, hresult'] at hstep
    simp only [Execution.observe, hresult, hresult']
    obtain ⟨houtcome, hexecution, hscope₁, hstate₁⟩ := hstep
    obtain rfl : e₂ = e₁ := hexecution
    obtain rfl : state₂ = state₁ := hstate₁
    rcases Agree.cases houtcome with ⟨err, err', rfl, rfl, hrecased⟩ | ⟨o, _, rfl, rfl, rfl⟩
    · exact ⟨.nil, .failed hrecased hscope₁ state₂⟩
    · cases o with
      | completed => exact ⟨.nil, .completed ⟨rfl, hscope₁, rfl⟩⟩
      | suspended line =>
        have hshown : Suspension.Recased ⟨line, scope₁, state₂⟩ ⟨line, scope₂, state₂⟩ := ⟨rfl, hscope₁, rfl⟩
        have hmoments : Moment.Recased ⟨steps', scope, state'⟩ ⟨steps', scope', state'⟩ := ⟨rfl, hscope, rfl⟩
        -- what becomes of the device depends on the device and on the number of the step, so on the same in both runs
        obtain ⟨hlater, hending⟩ := ih e₂ (hmoments.next world hshown)
        exact ⟨.cons hshown hlater, hending⟩

/-- Initializers in different letter case give scopes in different letter case. -/
theorem recased_runInitializer {d d' : Declaration} (hd : d.Recased d') (h : s.Recased s') (now : Millis) :
    Follow Scope.Recased (s.runInitializer now d) (s'.runInitializer now d') := by
  have htimer {t t' : Scope} (ht : t.Recased t') :
      (if d.isStateName then t.startTimer d.key else t).Recased
        (if d.isStateName then t'.startTimer d.key else t') := by
    split
    · exact ht.startTimer d.key
    · exact ht
  unfold Scope.runInitializer
  rw [hd.init, hd.key, hd.line, hd.isStateName_eq]
  cases d.init with
  | none => exact htimer h
  | some e =>
    have hassigned : Follow Scope.Recased ((evaluateDetached s now e).bind (s.set d.key))
        ((evaluateDetached s' now e).bind (s'.set d.key)) := by
      rw [evaluateDetached, evaluateDetached, evaluate_recased h]
      exact (Follow.refl _).bind fun v _ hv => hv ▸ h.set d.key v
    rcases hassigned.cases with ⟨err, err', herr, herr', hrecased⟩ | ⟨t, t', ht, ht', hrecased⟩
    · simp only [herr, herr']
      exact hrecased.atLine d.line
    · simp only [ht, ht']
      exact htimer hrecased

/-- The initializers of a program fail alike, or give scopes in different letter case. -/
theorem recased_foldlM {vars vars' : List Declaration} (hvars : List.Forall₂ Declaration.Recased vars vars')
    (h : s.Recased s') (now : Millis) :
    Follow Scope.Recased (vars.foldlM (fun scope d => scope.runInitializer now d) s)
      (vars'.foldlM (fun scope d => scope.runInitializer now d) s') := by
  induction hvars generalizing s s' with
  | nil => exact h
  | cons hd _ ih =>
    rw [List.foldlM_cons, List.foldlM_cons]
    exact (recased_runInitializer hd h now).bind fun t t' ht => ih ht

/-- **Scopes at the start** of programs in different letter case. -/
theorem recased_ofProgram {p p' : Program} (h : p.Recased p') (now : Millis) :
    Follow Scope.Recased (Scope.ofProgram p now) (Scope.ofProgram p' now) := by
  have hdecls : (Scope.ofDecls p.vars).Recased (Scope.ofDecls p'.vars) :=
    ⟨List.rel_map (fun d d' hd => ⟨hd.name, hd.key, hd.type, by rw [hd.type], rfl⟩) h.vars, rfl⟩
  exact (recased_foldlM h.vars hdecls now).bind fun t t' ht => ht.followState now

/-- Two programs run alike on every device, step by step, whatever becomes of the device between the steps: from their
starts, which fail alike or give scopes in different letter case, they suspend on the same lines, after the same calls
of the device and with the same values, and they end alike. -/
def RunAlike (p p' : Program) : Prop :=
  ∀ now, Follow
    (fun scope scope' => scope.Recased scope' ∧
      ∀ (σ : Type) (dev : Device σ) (world : ℕ → σ × List DeviceCall → σ × List DeviceCall) (n : ℕ) (state : σ),
        let run := (Execution.start p).observe dev.noted world n ⟨0, scope, state, []⟩
        let run' := (Execution.start p').observe dev.noted world n ⟨0, scope', state, []⟩
        List.Forall₂ Suspension.Recased run.1 run'.1 ∧ run.2.Recased run'.2)
    (Scope.ofProgram p now) (Scope.ofProgram p' now)

/-- **Letter case never matters.** Let two texts have tokens that are the same but for the case of letters in words.
Then either both are refused, and on the same line; or both are programs, with the same statements and with the same
declarations but for the spelling of names, and they run alike. -/
theorem letterCase_ignored {source source' : String} {ts ts' : List Token} (h : tokenize source = .ok ts)
    (h' : tokenize source' = .ok ts') (hts : List.Forall₂ Token.Recased ts ts') :
    Agree OneLine
      (fun p p' => p'.body = p.body ∧ List.Forall₂ Declaration.Recased p.vars p'.vars ∧ RunAlike p p')
      (compile source) (compile source') := by
  rcases (concur_compile h h' hts).cases with ⟨e, e', he, he', hline⟩ | ⟨p, p', hp, hp', hrecased⟩
  · rw [he, he']
    exact hline
  rw [hp, hp']
  refine ⟨hrecased.body, hrecased.vars, fun now => ?_⟩
  rcases (recased_ofProgram hrecased now).cases with ⟨e, e', he, he', herr⟩ | ⟨s, s', hs, hs', hscope⟩
  · rw [he, he']
    exact herr
  rw [hs, hs']
  refine ⟨hscope, fun σ dev world n state => ?_⟩
  rw [Execution.start, Execution.start, hrecased.body]
  exact recased_observe dev.noted world n _ ⟨rfl, hscope, rfl⟩

/-- A text in mixed letter case. -/
def mixedText : String := "var x : Int; end_Var x := Abs(X); Device.Log('info', X);"

/-- The same text in capitals, but for one word. -/
def loudText : String := "VAR X : INT; END_VAR X := ABS(X); DEVICE.log('info', X);"

/-- Two texts that differ in the case of keywords, types, functions and variables. -/
theorem letterCase_ignored_loud : ∃ p p', compile mixedText = .ok p ∧ compile loudText = .ok p' ∧
    p.vars.map Declaration.name = ["x"] ∧ p'.vars.map Declaration.name = ["X"] ∧ p'.body = p.body ∧ RunAlike p p' := by
  have hmixed : tokenize mixedText = .ok [⟨.ident "var", 1⟩, ⟨.ident "x", 1⟩, ⟨.symbol .colon, 1⟩, ⟨.ident "Int", 1⟩,
      ⟨.symbol .semi, 1⟩, ⟨.ident "end_Var", 1⟩, ⟨.ident "x", 1⟩, ⟨.symbol .assign, 1⟩, ⟨.ident "Abs", 1⟩,
      ⟨.symbol .lparen, 1⟩, ⟨.ident "X", 1⟩, ⟨.symbol .rparen, 1⟩, ⟨.symbol .semi, 1⟩, ⟨.ident "Device", 1⟩,
      ⟨.symbol .dot, 1⟩, ⟨.ident "Log", 1⟩, ⟨.symbol .lparen, 1⟩, ⟨.text "info", 1⟩, ⟨.symbol .comma, 1⟩,
      ⟨.ident "X", 1⟩, ⟨.symbol .rparen, 1⟩, ⟨.symbol .semi, 1⟩] := by decide +kernel
  have hloud : tokenize loudText = .ok [⟨.ident "VAR", 1⟩, ⟨.ident "X", 1⟩, ⟨.symbol .colon, 1⟩, ⟨.ident "INT", 1⟩,
      ⟨.symbol .semi, 1⟩, ⟨.ident "END_VAR", 1⟩, ⟨.ident "X", 1⟩, ⟨.symbol .assign, 1⟩, ⟨.ident "ABS", 1⟩,
      ⟨.symbol .lparen, 1⟩, ⟨.ident "X", 1⟩, ⟨.symbol .rparen, 1⟩, ⟨.symbol .semi, 1⟩, ⟨.ident "DEVICE", 1⟩,
      ⟨.symbol .dot, 1⟩, ⟨.ident "log", 1⟩, ⟨.symbol .lparen, 1⟩, ⟨.text "info", 1⟩, ⟨.symbol .comma, 1⟩,
      ⟨.ident "X", 1⟩, ⟨.symbol .rparen, 1⟩, ⟨.symbol .semi, 1⟩] := by decide +kernel
  have hwords := letterCase_ignored hmixed hloud (by
    repeat first
      | exact .nil
      | refine .cons (.same _) ?_
      | refine .cons (.word (by decide) _) ?_)
  have hnames : ((compile mixedText).toOption.map fun p => p.vars.map Declaration.name) = some ["x"] ∧
      ((compile loudText).toOption.map fun p => p.vars.map Declaration.name) = some ["X"] := by decide +kernel
  obtain ⟨hname, hname'⟩ := hnames
  rcases hwords.cases with ⟨e, e', he, -, -⟩ | ⟨p, p', hp, hp', hbody, -, hruns⟩
  · rw [he] at hname
    cases hname
  · rw [hp] at hname
    rw [hp'] at hname'
    exact ⟨p, p', hp, hp', Option.some.inj hname, Option.some.inj hname', hbody, hruns⟩

end Switchyard.Script
