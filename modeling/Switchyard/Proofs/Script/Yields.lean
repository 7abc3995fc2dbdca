import Switchyard.Proofs.Script.WellFormed

/-!
# What compiled programs are like

Parsers report the variables they see, and the checks come last. `Yields vars p P`
says what a parser is good for under this regime: whatever `p` reads satisfies `P` if
the variables reported on the way pass the checks against `vars`. Each parser has one
such statement, along its own structure; what a loop has read is reported by the time
it ends, so nothing escapes the checks.

The predicates may depend on the nesting levels that are left. Those that pass from
level to level, as the grammar puts expressions and statements together, hold of all
that is read.

* `ExprLevels`, `StmtLevels`: predicates that pass from level to level.
* `yields_expr`, `yields_statement`: expressions and statements.
* `parts_of_compile`: the parts of a program that compiles.
* `wellFormed_of_compile`, `wellFormed_of_parseCondition`: programs and conditions are well formed.
-/

namespace Switchyard.Script

variable {α β : Type} {vars : List Declaration}

/-- The variables that were reported pass the checks. -/
def Accepted (vars : List Declaration) (uses : List Use) : Prop := ∀ u ∈ uses, Admits vars u.key u.stepTime

/-- Variables of two parts are accepted if those of each part are. -/
theorem accepted_append {uses more : List Use} :
    Accepted vars (uses ++ more) ↔ Accepted vars uses ∧ Accepted vars more := List.forall_mem_append

/-- Whatever the parser reads satisfies a predicate, once the variables it reports are accepted. -/
def Parser.Yields (vars : List Declaration) (p : Parser α) (P : α → Prop) : Prop :=
  ∀ endLine ts r, p endLine ts = .ok r → Accepted vars r.uses → P r.value

namespace Parser.Yields

variable {p : Parser α} {f : α → Parser β} {P Q : α → Prop} {R : β → Prop}

/-- What a parser reads need not be known. -/
theorem any (p : Parser α) : p.Yields vars fun _ => True := fun _ _ _ _ _ => trivial

theorem pure {a : α} (h : P a) : Yields vars (Pure.pure a : Parser α) P := by
  intro endLine ts r hr _
  cases hr
  exact h

theorem failAt (line : UInt32) (fault : CompileFault) : Yields vars (failAt line fault : Parser α) P :=
  fun _ _ _ hr _ => nomatch hr

theorem fail (fault : Option TokenContent → CompileFault) : Yields vars (Parser.fail fault : Parser α) P :=
  fun _ _ _ hr _ => nomatch hr

/-- What a parser yields can be used by the next one, as the variables of both are accepted. -/
theorem bind (hp : p.Yields vars Q) (hf : ∀ a, Q a → (f a).Yields vars R) : (p >>= f).Yields vars R := by
  intro endLine ts r hr haccepted
  change Parser.bind p f endLine ts = .ok r at hr
  rw [Parser.bind] at hr
  cases ha : p endLine ts with
  | error e => rw [ha] at hr; cases hr
  | ok a =>
    rw [ha] at hr
    cases hb : f a.value endLine a.rest with
    | error e => simp only [hb] at hr; cases hr
    | ok b =>
      simp only [hb] at hr
      cases hr
      obtain ⟨hfirst, hlater⟩ := accepted_append.1 haccepted
      exact hf a.value (hp endLine ts a ha hfirst) endLine a.rest b hb hlater

/-- Goes on without a look at what was read. -/
theorem next (p : Parser α) (hf : ∀ a, (f a).Yields vars R) : (p >>= f).Yields vars R :=
  (any p).bind fun a _ => hf a

/-- What is made of a value yields what follows for it. -/
theorem map {g : α → β} (hp : p.Yields vars Q) (hg : ∀ a, Q a → R (g a)) : (g <$> p).Yields vars R :=
  hp.bind fun a ha => pure (hg a ha)

/-- Both sides of a branch yield the same, each under its condition. -/
theorem ite {q : Parser α} {c : Prop} [Decidable c] (hp : c → p.Yields vars P) (hq : ¬ c → q.Yields vars P) :
    Yields vars (if c then p else q) P := by
  split
  · exact hp ‹c›
  · exact hq ‹¬ c›

end Parser.Yields

open Switchyard.Script.Parser (Yields)

/-- A variable that is noted has to be accepted. -/
theorem yields_use (written : String) (line : UInt32) (stepTime : Bool) :
    Yields vars (Parser.use written line stepTime) fun key => Admits vars key stepTime := by
  intro endLine ts r hr haccepted
  cases hr
  exact haccepted _ List.mem_cons_self

theorem yields_tooDeep {P : α → Prop} : Yields vars tooDeep P := .fail _

/-- A predicate that an expression with a binary operator has from its operands, unless the tree gets too high. -/
def Joins (P : Expr → Prop) : Prop :=
  ∀ op {l r : Expr}, (Expr.binary op l r).depth ≤ nestingLimit → P l → P r → P (.binary op l r)

/-- A predicate of operands, from one of the expressions inside of them. -/
structure Operands (vars : List Declaration) (Inside P : Expr → Prop) : Prop where
  literal (value : Scalar) : P (.literal value)
  var {key : String} (h : Admits vars key false) : P (.var key)
  stepTime {key : String} (h : Admits vars key true) : P (.stepTime key)
  unary (op : UnaryOp) {e : Expr} (h : Inside e) : P (.unary op e)
  parenthesized {e : Expr} (h : Inside e) : P e
  builtin {func : Builtin} {args : List Expr} (harity : args.length = func.arity) (hargs : ∀ e ∈ args, Inside e) :
    P (.builtin func args)
  device {func : DeviceOp} {args : List Expr} (hresult : func.hasResult = true)
    (harity : args.length = func.arity) (hargs : ∀ e ∈ args, Inside e) : P (.device func args)

/-- **Predicates of expressions that pass from level to level**: an expression stands on one level, and what stands
inside of its operands on the level below. -/
structure ExprLevels (vars : List Declaration) (V : ℕ → Expr → Prop) : Prop where
  joins (levels : ℕ) : Joins (V (levels + 1))
  operands (levels : ℕ) : Operands vars (V levels) (V (levels + 1))

section Expressions

variable {Inside P : Expr → Prop} {V : ℕ → Expr → Prop}

/-- Operands that are put together stay within the nesting limit. -/
theorem binary_eq_ok {op : BinaryOp} {lhs rhs : Expr} {endLine : UInt32} {ts : List Token} {r : Parsed Expr}
    (h : binary op lhs rhs endLine ts = .ok r) :
    r = ⟨.binary op lhs rhs, [], ts⟩ ∧ (Expr.binary op lhs rhs).depth ≤ nestingLimit := by
  rw [binary] at h
  split at h
  · cases h
  · rename_i hheight
    cases h
    refine ⟨rfl, ?_⟩
    rw [Expr.depth]
    exact Nat.not_lt.1 hheight

/-- A chain keeps what it has reported, and its tree has the predicate if its operands do. -/
theorem chainFrom_yields (hjoins : Joins P) {operator : OperatorAt} {operand : Parser Expr}
    (hoperand : operand.Yields vars P) {endLine : UInt32} {lhs : Expr} {uses : List Use}
    {ts : List Token} {r : Parsed Expr} (h : chainFrom operator operand endLine lhs uses ts = .ok r)
    (haccepted : Accepted vars r.uses) : Accepted vars uses ∧ (P lhs → P r.value) := by
  -- along the loop: what is reported only grows, so all of it is accepted once the end is
  fun_induction chainFrom operator operand endLine lhs uses ts with
  | case1 => cases h; exact ⟨haccepted, id⟩
  | case2 => cases h; exact ⟨haccepted, id⟩
  | case3 => cases h
  | case4 => cases h
  | case5 lhs uses t ts op hop rhs hrhs tree htree hlt ih =>
    obtain ⟨hmore, hvalue⟩ := ih h
    obtain ⟨huses, hnew⟩ := accepted_append.1 hmore
    refine ⟨huses, fun hlhs => hvalue ?_⟩
    obtain ⟨rfl, hheight⟩ := binary_eq_ok htree
    exact hjoins op hheight hlhs (hoperand _ _ _ hrhs hnew)
  | case6 lhs uses t ts op hop rhs hrhs tree htree hlt =>
    cases h
    obtain ⟨huses, hnew⟩ := accepted_append.1 haccepted
    refine ⟨huses, fun hlhs => ?_⟩
    obtain ⟨rfl, hheight⟩ := binary_eq_ok htree
    exact hjoins op hheight hlhs (hoperand _ _ _ hrhs hnew)

/-- A chain yields what its operands do if operators keep it. -/
theorem yields_chain (hjoins : Joins P) {operator : OperatorAt} {operand : Parser Expr}
    (hoperand : operand.Yields vars P) : Yields vars (chain operator operand) P := by
  intro endLine ts r hr haccepted
  rw [chain] at hr
  cases hlhs : operand endLine ts with
  | error e => rw [hlhs] at hr; cases hr
  | ok lhs =>
    rw [hlhs] at hr
    obtain ⟨hfirst, hvalue⟩ := chainFrom_yields hjoins hoperand hr haccepted
    exact hvalue (hoperand _ _ _ hlhs hfirst)

/-- So do all levels of operators. -/
theorem yields_operators (hjoins : Joins P) {operand : Parser Expr} (h : operand.Yields vars P) :
    Yields vars (operators operand) P := by
  have hchain {operator : OperatorAt} {operand : Parser Expr} (h : operand.Yields vars P) :
      Yields vars (chain operator operand) P := yields_chain hjoins h
  exact hchain <| hchain <| hchain <| hchain <| hchain <| hchain h

theorem forall_mem_concat {Q : α → Prop} {l : List α} {a : α} (h : ∀ b ∈ l, Q b) (ha : Q a) : ∀ b ∈ l ++ [a], Q b :=
  List.forall_mem_append.2 ⟨h, List.forall_mem_singleton.2 ha⟩

/-- The arguments of a list all yield what one argument does. -/
theorem argumentsFrom_yields {arg : Parser Expr} (harg : arg.Yields vars P) {endLine : UInt32}
    {args : List Expr} {uses : List Use} {ts : List Token} {r : Parsed (List Expr)}
    (h : argumentsFrom arg endLine args uses ts = .ok r) (haccepted : Accepted vars r.uses) :
    Accepted vars uses ∧ ((∀ e ∈ args, P e) → ∀ e ∈ r.value, P e) := by
  fun_induction argumentsFrom arg endLine args uses ts with
  | case1 => cases h
  | case2 args uses ts a ha line rest hrest hlt ih =>
    obtain ⟨hmore, hvalue⟩ := ih h
    obtain ⟨huses, hnew⟩ := accepted_append.1 hmore
    exact ⟨huses, fun hargs => hvalue (forall_mem_concat hargs (harg _ _ _ ha hnew))⟩
  | case3 args uses ts a ha line rest hrest hlt =>
    cases h
    obtain ⟨huses, hnew⟩ := accepted_append.1 haccepted
    exact ⟨huses, fun hargs => forall_mem_concat hargs (harg _ _ _ ha hnew)⟩
  | case4 args uses ts a ha line rest hrest =>
    cases h
    obtain ⟨huses, hnew⟩ := accepted_append.1 haccepted
    exact ⟨huses, fun hargs => forall_mem_concat hargs (harg _ _ _ ha hnew)⟩
  | case5 => cases h

theorem yields_arguments {arg : Parser Expr} (harg : arg.Yields vars P) :
    Yields vars (arguments arg) fun args => ∀ e ∈ args, P e := by
  refine .next _ fun _ => .next _ fun ts => .ite (fun _ => ?_) fun _ => ?_
  · exact .next _ fun _ => .pure fun e he => nomatch he
  · intro endLine ts r hr haccepted
    exact (argumentsFrom_yields harg hr haccepted).2 fun e he => nomatch he

/-- A call of a device function has its number of arguments. -/
theorem yields_deviceOp {arg : Parser Expr} (harg : arg.Yields vars P) :
    Yields vars (deviceOp arg) fun call => call.2.length = call.1.arity ∧ ∀ e ∈ call.2, P e := by
  refine .next _ fun line => .next _ fun _ => .next _ fun _ => .next _ fun ts => ?_
  split
  · refine .next _ fun _ => ?_
    split
    · exact .failAt _ _
    · refine (yields_arguments harg).bind fun args hargs => ?_
      split
      · rename_i harity
        exact .pure ⟨harity, hargs⟩
      · exact .failAt _ _
  · exact .failAt _ _

/-- A call yields what holds of calls with such arguments. -/
theorem yields_builtinCall (h : Operands vars Inside P) {arg : Parser Expr} (harg : arg.Yields vars Inside)
    (word : String) (line : UInt32) : Yields vars (builtinCall arg word line) P := by
  rw [builtinCall]
  split
  · exact .failAt _ _
  · refine .next _ fun _ => (yields_arguments harg).bind fun args hargs => ?_
    split
    · rename_i harity
      exact .pure (h.builtin harity hargs)
    · exact .failAt _ _

/-- A name yields what holds of variables that are accepted. -/
theorem yields_variableExpr (h : Operands vars Inside P) (word : String) (line : UInt32) :
    Yields vars (variableExpr word line) P := by
  refine .next _ fun _ => .next _ fun ts => ?_
  split
  · refine .next _ fun _ => .next _ fun ts => ?_
    split
    · refine .next _ fun _ => ?_
      split
      · exact (yields_use word line true).map fun key hkey => h.stepTime hkey
      · exact .failAt _ _
    · exact .failAt _ _
  · exact (yields_use word line false).map fun key hkey => h.var hkey

/-- An expression that starts with a word yields what holds of operands. -/
theorem yields_wordExpr (h : Operands vars Inside P) {nested : Parser Expr} (hnested : nested.Yields vars Inside)
    (word : String) (line : UInt32) (next : List Token) : Yields vars (wordExpr nested word line next) P := by
  rw [wordExpr]
  split
  · exact .next _ fun _ => .pure (h.literal _)
  split
  · exact .next _ fun _ => .pure (h.literal _)
  split
  · refine (yields_deviceOp hnested).bind fun call hcall => ?_
    dsimp only
    split
    · rename_i hresult
      exact .pure (h.device hresult hcall.1 hcall.2)
    · exact .failAt _ _
  split
  · exact yields_builtinCall h hnested word line
  split
  · exact .failAt _ _
  · exact yields_variableExpr h word line

/-- A literal, a name, a call or an expression in parentheses yields what holds of operands. -/
theorem yields_primary (h : Operands vars Inside P) {nested : Parser Expr} (hnested : nested.Yields vars Inside) :
    Yields vars (primary nested) P := by
  refine .next _ fun ts => ?_
  split
  · exact .fail _
  · exact .next _ fun _ => .pure (h.literal _)
  · exact .next _ fun _ => .pure (h.literal _)
  · exact .next _ fun _ => .pure (h.literal _)
  · exact .next _ fun _ => hnested.bind fun e he => .next _ fun _ => .pure (h.parenthesized he)
  · exact yields_wordExpr h hnested _ _ _
  · exact .fail _

/-- Signs and negations keep what holds of operands. -/
theorem yields_operand (h : Operands vars Inside P) {inner nested : Parser Expr} (hinner : inner.Yields vars Inside)
    (hnested : nested.Yields vars Inside) : Yields vars (operand inner nested) P := by
  refine .next _ fun ts => ?_
  split
  · exact .next _ fun _ => hinner.map fun e he => h.unary _ he
  · exact yields_primary h hnested

theorem yields_unary (h : ExprLevels vars V) (levels : ℕ) : Yields vars (unary levels) (V (levels + 1)) := by
  induction levels with
  | zero => exact yields_operand (h.operands 0) yields_tooDeep yields_tooDeep
  | succ levels ih => exact yields_operand (h.operands (levels + 1)) ih (yields_operators (h.joins levels) ih)

/-- **Expressions that are read** have the predicate of their level. -/
theorem yields_expr (h : ExprLevels vars V) (levels : ℕ) : Yields vars (expr levels) (V levels) := by
  cases levels with
  | zero => exact yields_tooDeep
  | succ levels => exact yields_operators (h.joins levels) (yields_unary h levels)

end Expressions

/-- **Predicates of statements that pass from level to level**: the header of a block and its statements stand on
the level below. An `IF` has at least one header. -/
structure StmtLevels (vars : List Declaration) (V : ℕ → Expr → Prop) (S : ℕ → Stmt → Prop) : Prop where
  assign (levels : ℕ) (line : UInt32) {target : String} {value : Expr} (htarget : Admits vars target false)
    (hvalue : V levels value) : S levels (.assign line target value)
  call (levels : ℕ) (line : UInt32) {func : DeviceOp} {args : List Expr} (harity : args.length = func.arity)
    (hargs : ∀ e ∈ args, V levels e) : S levels (.call line func args)
  choose (levels : ℕ) (line : UInt32) {arms : Arms} (hsome : arms.branches ≠ [])
    (hconds : ∀ arm ∈ arms.branches, V levels arm.1) (hbodies : ∀ arm ∈ arms.branches, ∀ s ∈ arm.2, S levels s)
    (hlast : ∀ body, arms.last? = some body → ∀ s ∈ body, S levels s) : S (levels + 1) (.choose line arms)
  loop (levels : ℕ) (line : UInt32) {cond : Expr} {body : List Stmt} (hcond : V levels cond)
    (hbody : ∀ s ∈ body, S levels s) : S (levels + 1) (.loop line cond body)

/-- Alternatives with conditions, put in front of a last part without any, are all that have one. -/
theorem branches_ofList {last : Arms} (hlast : last.branches = []) (arms : List (Expr × List Stmt)) :
    (Arms.ofList last arms).branches = arms := by
  induction arms with
  | nil => exact hlast
  | cons arm arms ih => rw [Arms.ofList, Arms.branches, ih]

theorem last?_ofList (last : Arms) (arms : List (Expr × List Stmt)) : (Arms.ofList last arms).last? = last.last? := by
  induction arms with
  | nil => rfl
  | cons arm arms ih => rw [Arms.ofList, Arms.last?, ih]

/-- An `IF` whose headers and blocks have their predicates, and which has a header. -/
structure ArmsOf (P : Expr → Prop) (Q : Stmt → Prop) (arms : Arms) : Prop where
  inhabited : arms.branches ≠ []
  conds : ∀ arm ∈ arms.branches, P arm.1
  bodies : ∀ arm ∈ arms.branches, ∀ s ∈ arm.2, Q s
  last : ∀ body, arms.last? = some body → ∀ s ∈ body, Q s

section Statements

variable {P : Expr → Prop} {Q : Stmt → Prop} {V : ℕ → Expr → Prop} {S : ℕ → Stmt → Prop} {levels : ℕ}

/-- The statements of a block all yield what one statement does. -/
theorem blockFrom_yields {stmt : Parser (Option Stmt)} (hstmt : stmt.Yields vars fun s => ∀ s' ∈ s.toList, Q s')
    {terminators : List String} {endLine : UInt32} {stmts : List Stmt} {uses : List Use} {ts : List Token}
    {r : Parsed (Option (List Stmt))} (h : blockFrom stmt terminators endLine stmts uses ts = .ok r)
    (haccepted : Accepted vars r.uses) :
    Accepted vars uses ∧ ((∀ s ∈ stmts, Q s) → ∀ block, r.value = some block → ∀ s ∈ block, Q s) := by
  fun_induction blockFrom stmt terminators endLine stmts uses ts with
  | case1 => cases h; exact ⟨haccepted, fun _ block hblock => nomatch hblock⟩
  | case2 =>
    cases h
    refine ⟨haccepted, fun hstmts block hblock => ?_⟩
    cases hblock
    exact hstmts
  | case3 => cases h
  | case4 => cases h
  | case5 stmts uses t ts hend hvar s hs hlt ih =>
    obtain ⟨hmore, hvalue⟩ := ih h
    obtain ⟨huses, hnew⟩ := accepted_append.1 hmore
    exact ⟨huses, fun hstmts => hvalue (List.forall_mem_append.2 ⟨hstmts, hstmt _ _ _ hs hnew⟩)⟩
  | case6 stmts uses t ts hend hvar s hs hlt =>
    cases h
    exact ⟨(accepted_append.1 haccepted).1, fun _ block hblock => nomatch hblock⟩

theorem yields_block {stmt : Parser (Option Stmt)} (hstmt : stmt.Yields vars fun s => ∀ s' ∈ s.toList, Q s')
    (terminators : List String) (line : UInt32) (unterminated : CompileFault) :
    Yields vars (block stmt terminators line unterminated) fun stmts => ∀ s ∈ stmts, Q s := by
  have hblock : Yields vars (fun endLine ts => blockFrom stmt terminators endLine [] [] ts)
      fun r => ∀ block, r = some block → ∀ s ∈ block, Q s := fun endLine ts r hr haccepted =>
    (blockFrom_yields hstmt hr haccepted).2 fun s hs => nomatch hs
  refine hblock.bind fun r hr => ?_
  cases r with
  | none => exact .failAt _ _
  | some stmts => exact .pure (hr stmts rfl)

theorem yields_arm {stmt : Parser (Option Stmt)} {cond : Parser Expr}
    (hstmt : stmt.Yields vars fun s => ∀ s' ∈ s.toList, Q s') (hcond : cond.Yields vars P) (line : UInt32) :
    Yields vars (arm stmt cond line) fun arm => P arm.1 ∧ ∀ s ∈ arm.2, Q s :=
  hcond.bind fun _ hc => .next _ fun _ => (yields_block hstmt _ _ _).bind fun _ hbody => .pure ⟨hc, hbody⟩

/-- The alternatives that have been read, with what comes last. -/
theorem armsOf_ofList {last : Arms} (hlast : last.branches = [])
    (hbody : ∀ body, last.last? = some body → ∀ s ∈ body, Q s) {arms : List (Expr × List Stmt)} (hsome : arms ≠ [])
    (harms : ∀ arm ∈ arms, P arm.1 ∧ ∀ s ∈ arm.2, Q s) : ArmsOf P Q (Arms.ofList last arms) := by
  have hbranches : (Arms.ofList last arms).branches = arms := branches_ofList hlast arms
  refine ⟨?_, fun arm harm => ?_, fun arm harm => ?_, ?_⟩
  · rwa [hbranches]
  · rw [hbranches] at harm
    exact (harms arm harm).1
  · rw [hbranches] at harm
    exact (harms arm harm).2
  · rwa [last?_ofList]

theorem armsFrom_yields {stmt : Parser (Option Stmt)} {cond : Parser Expr}
    (hstmt : stmt.Yields vars fun s => ∀ s' ∈ s.toList, Q s') (hcond : cond.Yields vars P)
    {line endLine : UInt32} {arms : List (Expr × List Stmt)} {uses : List Use} {ts : List Token} {r : Parsed Arms}
    (h : armsFrom stmt cond line endLine arms uses ts = .ok r) (haccepted : Accepted vars r.uses) :
    Accepted vars uses ∧ (arms ≠ [] → (∀ arm ∈ arms, P arm.1 ∧ ∀ s ∈ arm.2, Q s) → ArmsOf P Q r.value) := by
  fun_induction armsFrom stmt cond line endLine arms uses ts with
  | case1 => cases h
  | case2 => cases h
  | case3 arms uses t ts helsif a ha hlt ih =>
    obtain ⟨hmore, hvalue⟩ := ih h
    obtain ⟨huses, hnew⟩ := accepted_append.1 hmore
    refine ⟨huses, fun _ harms => hvalue (by simp) ?_⟩
    exact forall_mem_concat harms (yields_arm hstmt hcond line _ _ _ ha hnew)
  | case4 => cases h
  | case5 => cases h
  | case6 arms uses t ts helsif helse body hbody =>
    cases h
    obtain ⟨huses, hnew⟩ := accepted_append.1 haccepted
    refine ⟨huses, armsOf_ofList (by rfl) fun last hlast => ?_⟩
    cases hlast
    exact yields_block hstmt _ _ _ _ _ _ hbody hnew
  | case7 arms uses t ts helsif helse =>
    cases h
    refine ⟨haccepted, armsOf_ofList (by rfl) fun last hlast => ?_⟩
    cases hlast

/-- A conditional yields what holds of statements one level above its alternatives. -/
theorem yields_conditional {stmt : Parser (Option Stmt)} {cond : Parser Expr}
    (hstmt : stmt.Yields vars fun s => ∀ s' ∈ s.toList, S levels s') (hcond : cond.Yields vars (V levels))
    (h : StmtLevels vars V S) (line : UInt32) : Yields vars (conditional stmt cond line) (S (levels + 1)) := by
  refine .next _ fun _ => (yields_arm hstmt hcond line).bind fun first hfirst => ?_
  -- the loop over the alternatives starts with the first one, which is read before it
  have harms : Yields vars (fun endLine ts => armsFrom stmt cond line endLine [first] [] ts)
      (ArmsOf (V levels) (S levels)) := fun endLine ts r hr haccepted =>
    (armsFrom_yields hstmt hcond hr haccepted).2 (by simp) (List.forall_mem_singleton.2 hfirst)
  refine harms.bind fun arms harms => .next _ fun _ => .next _ fun _ => .pure ?_
  exact h.choose levels line harms.inhabited harms.conds harms.bodies harms.last

/-- A loop yields what holds of statements one level above its block. -/
theorem yields_repetition {stmt : Parser (Option Stmt)} {cond : Parser Expr}
    (hstmt : stmt.Yields vars fun s => ∀ s' ∈ s.toList, S levels s') (hcond : cond.Yields vars (V levels))
    (h : StmtLevels vars V S) (line : UInt32) : Yields vars (repetition stmt cond line) (S (levels + 1)) :=
  .next _ fun _ => hcond.bind fun _ hc => .next _ fun _ => (yields_block hstmt _ _ _).bind fun _ hbody =>
    .next _ fun _ => .next _ fun _ => .pure (h.loop levels line hc hbody)

theorem yields_assignment {value : Parser Expr} (hvalue : value.Yields vars (V levels)) (h : StmtLevels vars V S)
    (word : String) (line : UInt32) : Yields vars (assignment value word line) (S levels) :=
  .next _ fun _ => .next _ fun _ => .ite
    (fun _ => .next _ fun _ => (yields_use word line false).bind fun _ htarget =>
      hvalue.bind fun _ hv => .next _ fun _ => .pure (h.assign levels line htarget hv))
    fun _ => .failAt _ _

theorem forall_mem_toList_some {s : Stmt} (h : Q s) : ∀ s' ∈ (some s).toList, Q s' := List.forall_mem_singleton.2 h

/-- A statement yields what holds on its level, blocks and assignments alike. -/
theorem yields_statementOf {ifs whiles : UInt32 → Parser Stmt} {value : Parser Expr}
    (hifs : ∀ line, (ifs line).Yields vars (S levels)) (hwhiles : ∀ line, (whiles line).Yields vars (S levels))
    (hvalue : value.Yields vars (V levels)) (h : StmtLevels vars V S) :
    Yields vars (statementOf ifs whiles value) fun s => ∀ s' ∈ s.toList, S levels s' := by
  refine .next _ fun ts => ?_
  split
  · exact .pure fun s hs => nomatch hs
  · exact .next _ fun _ => .pure fun s hs => nomatch hs
  · refine .ite (fun _ => ?_) fun _ => .ite (fun _ => ?_) fun _ => .ite (fun _ => ?_) fun _ =>
      .ite (fun _ => ?_) fun _ => ?_
    · exact (hifs _).map fun s hs => forall_mem_toList_some hs
    · exact (hwhiles _).map fun s hs => forall_mem_toList_some hs
    · exact (yields_deviceOp hvalue).bind fun call hcall => .next _ fun _ =>
        .pure (forall_mem_toList_some (h.call levels _ hcall.1 hcall.2))
    · exact .failAt _ _
    · exact (yields_assignment hvalue h _ _).map fun s hs => forall_mem_toList_some hs
  · exact .fail _

/-- **Statements that are read** have the predicate of their level. -/
theorem yields_statement (hV : ExprLevels vars V) (hS : StmtLevels vars V S) (levels : ℕ) :
    Yields vars (statement levels) fun s => ∀ s' ∈ s.toList, S levels s' := by
  induction levels with
  | zero => exact yields_statementOf (fun _ => yields_tooDeep) (fun _ => yields_tooDeep) (yields_expr hV 0) hS
  | succ levels ih =>
    have hcond := yields_expr hV levels
    exact yields_statementOf (yields_conditional ih hcond hS) (yields_repetition ih hcond hS)
      (yields_expr hV (levels + 1)) hS

end Statements

/-- The initializer of a declaration, if there is one, has a predicate. -/
def Declaration.Initialized (P : Expr → Prop) (d : Declaration) : Prop := ∀ e, d.init = some e → P e

section Declarations

variable {P : Expr → Prop} (hexpr : Yields vars (expr nestingLimit) P)

include hexpr

theorem yields_initializer : Yields vars initializer fun init => ∀ e, init = some e → P e := by
  refine .next _ fun ts => .ite (fun _ => ?_) fun _ => ?_
  · refine .next _ fun _ => hexpr.map fun e he e' he' => ?_
    cases he'
    exact he
  · exact .pure fun e he => nomatch he

/-- An initializer yields what holds of expressions. -/
theorem yields_varEntry (line : UInt32) : Yields vars (varEntry line) (Declaration.Initialized P) := by
  refine .next _ fun name => .ite (fun _ => .failAt _ _) fun _ => .next _ fun _ => .next _ fun typeName => ?_
  split
  · exact .failAt _ _
  · exact (yields_initializer hexpr).bind fun init hinit => .next _ fun _ => .pure hinit

/-- The declarations of a section all yield what one entry does. -/
theorem varEntriesFrom_yields {blockLine endLine : UInt32} {decls : List Declaration} {uses : List Use}
    {ts : List Token} {r : Parsed (List Declaration)} (h : varEntriesFrom blockLine endLine decls uses ts = .ok r)
    (haccepted : Accepted vars r.uses) :
    Accepted vars uses ∧ ((∀ d ∈ decls, d.Initialized P) → ∀ d ∈ r.value, d.Initialized P) := by
  fun_induction varEntriesFrom blockLine endLine decls uses ts with
  | case1 => cases h
  | case2 => cases h; exact ⟨haccepted, id⟩
  | case3 => cases h
  | case4 decls uses t ts hend d hd hlt ih =>
    obtain ⟨hmore, hvalue⟩ := ih h
    obtain ⟨huses, hnew⟩ := accepted_append.1 hmore
    exact ⟨huses, fun hdecls => hvalue (forall_mem_concat hdecls (yields_varEntry hexpr _ _ _ _ hd hnew))⟩
  | case5 decls uses t ts hend d hd hlt =>
    cases h
    obtain ⟨huses, hnew⟩ := accepted_append.1 haccepted
    exact ⟨huses, fun hdecls => forall_mem_concat hdecls (yields_varEntry hexpr _ _ _ _ hd hnew)⟩

theorem yields_varSection : Yields vars varSection fun decls => ∀ d ∈ decls, d.Initialized P :=
  .next _ fun _ => .next _ fun _ => fun _ _ _ hr haccepted =>
    (varEntriesFrom_yields hexpr hr haccepted).2 fun _ hd => nomatch hd

end Declarations

/-- The declarations and statements of a text have their predicates. -/
structure Items.Parts (P : Expr → Prop) (Q : Stmt → Prop) (items : Items) : Prop where
  initializers : ∀ d ∈ items.vars, d.Initialized P
  body : ∀ s ∈ items.body, Q s

section Programs

variable {P : Expr → Prop} {Q : Stmt → Prop} {V : ℕ → Expr → Prop} {S : ℕ → Stmt → Prop} {source : String}
  {p : Program}

/-- The declarations and statements of a text all yield what one of them does. -/
theorem itemsFrom_yields (hexpr : Yields vars (expr nestingLimit) P)
    (hstmt : Yields vars (statement nestingLimit) fun s => ∀ s' ∈ s.toList, Q s') {endLine : UInt32} {items : Items}
    {uses : List Use} {ts : List Token} {r : Parsed Items} (h : itemsFrom endLine items uses ts = .ok r)
    (haccepted : Accepted vars r.uses) : Accepted vars uses ∧ (items.Parts P Q → r.value.Parts P Q) := by
  fun_induction itemsFrom endLine items uses ts with
  | case1 => cases h; exact ⟨haccepted, id⟩
  | case2 => cases h
  | case3 items uses t ts hvar decls hdecls hlt ih =>
    obtain ⟨hmore, hvalue⟩ := ih h
    obtain ⟨huses, hnew⟩ := accepted_append.1 hmore
    refine ⟨huses, fun hitems => hvalue ⟨?_, hitems.body⟩⟩
    exact List.forall_mem_append.2 ⟨hitems.initializers, yields_varSection hexpr _ _ _ hdecls hnew⟩
  | case4 => cases h; exact ⟨haccepted, id⟩
  | case5 => cases h
  | case6 items uses t ts hvar s hs hlt ih =>
    obtain ⟨hmore, hvalue⟩ := ih h
    obtain ⟨huses, hnew⟩ := accepted_append.1 hmore
    refine ⟨huses, fun hitems => hvalue ⟨hitems.initializers, ?_⟩⟩
    exact List.forall_mem_append.2 ⟨hitems.body, hstmt _ _ _ hs hnew⟩
  | case7 => cases h; exact ⟨haccepted, id⟩

/-- A computation in two parts succeeds if both of its parts do. -/
theorem bind_eq_ok {ε : Type} {x : Except ε α} {f : α → Except ε β} {b : β} :
    (x >>= f) = .ok b ↔ ∃ a, x = .ok a ∧ f a = .ok b := by
  cases x with
  | error e => exact ⟨fun h => (nomatch h), fun ⟨_, h, _⟩ => nomatch h⟩
  | ok a => exact ⟨fun h => ⟨a, rfl, h⟩, fun ⟨_, ha, hb⟩ => by cases ha; exact hb⟩

theorem eq_ok_of_toOption {ε : Type} {x : Except ε α} {a : α} (h : x.toOption = some a) : x = .ok a := by
  cases x with
  | error e => cases h
  | ok a' => cases h; rfl

/-- A program that compiles was read, and its declarations and variables have passed the checks. -/
theorem compile_eq_ok (h : compile source = .ok p) :
    ∃ tokens parsed, itemsFrom (lastLine tokens) ⟨[], []⟩ [] tokens = .ok parsed ∧
      p = ⟨source, parsed.value.vars, parsed.value.body⟩ ∧ checkDeclarations [] p.vars = .ok () ∧
      Accepted p.vars parsed.uses := by
  obtain ⟨tokens, -, h⟩ := bind_eq_ok.1 h
  rw [compileTokens] at h
  obtain ⟨parsed, hparsed, h⟩ := bind_eq_ok.1 h
  obtain ⟨_, hdeclarations, h⟩ := bind_eq_ok.1 h
  obtain ⟨_, huses, h⟩ := bind_eq_ok.1 h
  cases h
  -- the checks come last, so all variables reported on the way are accepted
  exact ⟨tokens, parsed, hparsed, rfl, hdeclarations, allDeclared_eq_ok.1 huses⟩

/-- **The parts of a program that compiles** have the predicates of the uppermost level. -/
theorem parts_of_compile (h : compile source = .ok p) (hV : ExprLevels p.vars V) (hS : StmtLevels p.vars V S) :
    Items.Parts (V nestingLimit) (S nestingLimit) ⟨p.vars, p.body⟩ := by
  obtain ⟨tokens, parsed, hparsed, rfl, -, haccepted⟩ := compile_eq_ok h
  exact (itemsFrom_yields (yields_expr hV _) (yields_statement hV hS _) hparsed haccepted).2
    ⟨fun d hd => (nomatch hd), fun s hs => nomatch hs⟩

/-- Operands over declared variables are well formed. -/
theorem operands_wellFormed (vars : List Declaration) :
    Operands vars (Expr.WellFormed vars) (Expr.WellFormed vars) where
  literal := .literal
  var := .var
  stepTime := .stepTime
  unary := .unary
  parenthesized := id
  builtin := .builtin
  device := .device

/-- On each level, expressions are well formed. -/
theorem exprLevels_wellFormed (vars : List Declaration) : ExprLevels vars fun _ => Expr.WellFormed vars where
  joins _ op _ _ _ hl hr := .binary op hl hr
  operands _ := operands_wellFormed vars

/-- On each level, statements are well formed. -/
theorem stmtLevels_wellFormed (vars : List Declaration) :
    StmtLevels vars (fun _ => Expr.WellFormed vars) fun _ => Stmt.WellFormed vars where
  assign _ line := .assign line
  call _ line := .call line
  choose _ line _ _ hconds hbodies hlast := .choose line hconds hbodies hlast
  loop _ line := .loop line

/-- All statements of a block are well formed. -/
def BlockWellFormed (vars : List Declaration) (stmts : List Stmt) : Prop := ∀ s ∈ stmts, s.WellFormed vars

/-- **A program that compiles is well formed.** -/
theorem wellFormed_of_compile (h : compile source = .ok p) : p.WellFormed := by
  obtain ⟨-, -, -, -, hdeclarations, -⟩ := compile_eq_ok h
  obtain ⟨hdistinct, -, hdetached⟩ := checkDeclarations_eq_ok.1 hdeclarations
  have hparts := parts_of_compile h (exprLevels_wellFormed p.vars) (stmtLevels_wellFormed p.vars)
  exact ⟨hdistinct, hparts.initializers, hdetached, hparts.body⟩

/-- **A condition that is accepted for a program is well formed**, and it does not reach the device. -/
theorem wellFormed_of_parseCondition {text : String} {e : Expr} (h : parseCondition p text = .ok e) :
    e.WellFormed p.vars ∧ e.usesDevice = false := by
  obtain ⟨tokens, -, h⟩ := bind_eq_ok.1 h
  by_cases hempty : tokens.isEmpty = true
  · simp only [hempty, if_true] at h
    cases h
  simp only [hempty] at h
  obtain ⟨parsed, hparsed, h⟩ := bind_eq_ok.1 h
  by_cases hrest : (!parsed.rest.isEmpty) = true
  · simp only [hrest, if_true] at h
    cases h
  by_cases hdevice : parsed.value.usesDevice = true
  · simp only [hrest, hdevice, if_true] at h
    cases h
  simp only [hrest, hdevice] at h
  cases huses : allDeclared p.vars parsed.uses with
  | error e => simp only [huses] at h; cases h
  | ok _ =>
    simp only [huses] at h
    cases h
    have hvalue := yields_expr (exprLevels_wellFormed p.vars) nestingLimit _ _ _ hparsed (allDeclared_eq_ok.1 huses)
    exact ⟨hvalue, by simpa using hdevice⟩

end Programs

end Switchyard.Script
