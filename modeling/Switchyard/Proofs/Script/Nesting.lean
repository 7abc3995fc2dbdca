import Switchyard.Proofs.Script.Blocks
import Switchyard.Proofs.Script.RoundTrip

/-!
# Nesting is bounded

The parser has `nestingLimit` levels and gives one up for each block, parenthesis,
argument list and unary operator. A chain of operators takes no level, but its tree may
not be higher than the limit. So what is left of the levels bounds the expressions in a
place (`exprLevels_under`) and the blocks around it (`stmtLevels_under`), and neither the
recursion of an evaluation nor the stack of a run grows with the text or with the run
(`nesting_bounded`).

* `Program.BlockAt`, `Program.ExprAt`: blocks and expressions with the number of blocks around them.
* `Expr.Under`, `Stmt.Under`: expressions and statements that a number of levels suffices for.
* `Stacked`: the frames of an execution are what is left of blocks, each in the next one.
-/

namespace Switchyard.Script

/-- **The blocks of a program**, with the number of `IF` and `WHILE` blocks that their statements are in. -/
inductive Program.BlockAt (p : Program) : ℕ → List Stmt → Prop
  | body : BlockAt p 0 p.body
  | branch {n block line arms arm} (h : BlockAt p n block) (hstmt : Stmt.choose line arms ∈ block)
      (harm : arm ∈ arms.branches) : BlockAt p (n + 1) arm.2
  | last {n block line arms body} (h : BlockAt p n block) (hstmt : Stmt.choose line arms ∈ block)
      (hlast : arms.last? = some body) : BlockAt p (n + 1) body
  | loop {n block line cond body} (h : BlockAt p n block) (hstmt : Stmt.loop line cond body ∈ block) :
      BlockAt p (n + 1) body

/-- **The expressions of a program**, with the number of blocks around them. A condition is counted to the block that
it is the header of. -/
inductive Program.ExprAt (p : Program) : ℕ → Expr → Prop
  | initializer {d e} (hd : d ∈ p.vars) (he : d.init = some e) : ExprAt p 0 e
  | value {n block line target e} (h : p.BlockAt n block) (hstmt : Stmt.assign line target e ∈ block) : ExprAt p n e
  | argument {n block line func args e} (h : p.BlockAt n block) (hstmt : Stmt.call line func args ∈ block)
      (he : e ∈ args) : ExprAt p n e
  | branch {n block line arms arm} (h : p.BlockAt n block) (hstmt : Stmt.choose line arms ∈ block)
      (harm : arm ∈ arms.branches) : ExprAt p (n + 1) arm.1
  | loop {n block line cond body} (h : p.BlockAt n block) (hstmt : Stmt.loop line cond body ∈ block) :
      ExprAt p (n + 1) cond

/-- The parts of an expression, itself included. -/
inductive Expr.Contains : Expr → Expr → Prop
  | self (e : Expr) : Contains e e
  | unary {op e part} (h : Contains e part) : Contains (.unary op e) part
  | left {op l r part} (h : Contains l part) : Contains (.binary op l r) part
  | right {op l r part} (h : Contains r part) : Contains (.binary op l r) part
  | builtin {func args arg part} (harg : arg ∈ args) (h : Contains arg part) : Contains (.builtin func args) part
  | device {func args arg part} (harg : arg ∈ args) (h : Contains arg part) : Contains (.device func args) part

/-- The trees of binary operators are not higher than the limit. -/
def Expr.Narrow (e : Expr) : Prop :=
  ∀ op l r, e.Contains (.binary op l r) → (Expr.binary op l r).depth ≤ nestingLimit

/-- **An expression that a number of levels suffices for**: it takes a level, and each further one allows a step down
besides those of an operator tree. -/
structure Expr.Under (levels : ℕ) (e : Expr) : Prop where
  levels_pos : 0 < levels
  depth_lt : e.depth < nestingLimit + levels
  narrow : e.Narrow

variable {σ : Type} {p : Program} {n levels : ℕ} {e : Expr} {block : List Stmt}

theorem maxDepth_lt {args : List Expr} {bound : ℕ} (hbound : 0 < bound) (h : ∀ e ∈ args, e.depth < bound) :
    Expr.maxDepth args < bound := by
  induction args with
  | nil => exact hbound
  | cons e args ih =>
    obtain ⟨he, hargs⟩ := List.forall_mem_cons.1 h
    rw [Expr.maxDepth]
    exact max_lt he (ih hargs)

/-- A chain of operators takes no level. -/
theorem joins_under (levels : ℕ) : Joins (Expr.Under (levels + 1)) := by
  intro op l r hheight hl hr
  refine ⟨levels.succ_pos, by omega, fun op' l' r' hpart => ?_⟩
  cases hpart with
  | self => exact hheight
  | left hpart => exact hl.narrow op' l' r' hpart
  | right hpart => exact hr.narrow op' l' r' hpart

/-- Whatever stands inside of an operand takes a level. -/
theorem operands_under (vars : List Declaration) (levels : ℕ) :
    Operands vars (Expr.Under levels) (Expr.Under (levels + 1)) := by
  have hlimit : nestingLimit = 128 := rfl
  have hleaf {e : Expr} (hdepth : e.depth = 1) (hparts : ∀ op l r, ¬ e.Contains (.binary op l r)) :
      e.Under (levels + 1) := ⟨levels.succ_pos, by omega, fun op l r hpart => absurd hpart (hparts op l r)⟩
  have hargs {args : List Expr} (h : ∀ e ∈ args, e.Under levels) : Expr.maxDepth args < nestingLimit + levels :=
    maxDepth_lt (by omega) fun e he => (h e he).depth_lt
  exact {
    literal := fun v => hleaf (by rw [Expr.depth]) nofun
    var := fun _ => hleaf (by rw [Expr.depth]) nofun
    stepTime := fun _ => hleaf (by rw [Expr.depth]) nofun
    unary := fun op e h => by
      have hdepth := h.depth_lt
      refine ⟨levels.succ_pos, by rw [Expr.depth]; omega, fun op l r hpart => ?_⟩
      cases hpart with
      | unary hpart => exact h.narrow op l r hpart
    parenthesized := fun h => ⟨levels.succ_pos, Nat.lt_succ_of_lt h.depth_lt, h.narrow⟩
    builtin := fun _ h => by
      have hdepth := hargs h
      refine ⟨levels.succ_pos, by rw [Expr.depth]; omega, fun op l r hpart => ?_⟩
      cases hpart with
      | builtin harg hpart => exact (h _ harg).narrow op l r hpart
    device := fun _ _ h => by
      have hdepth := hargs h
      refine ⟨levels.succ_pos, by rw [Expr.depth]; omega, fun op l r hpart => ?_⟩
      cases hpart with
      | device harg hpart => exact (h _ harg).narrow op l r hpart }

theorem exprLevels_under (vars : List Declaration) : ExprLevels vars Expr.Under where
  joins := joins_under
  operands := operands_under vars

/-- **A statement that a number of levels suffices for**: each block takes one, and so does its header. -/
inductive Stmt.Under : ℕ → Stmt → Prop
  | assign {levels : ℕ} (line) (target) {value : Expr} (hvalue : value.Under levels) :
      Under levels (.assign line target value)
  | call {levels : ℕ} (line) (func) {args} (hargs : ∀ e ∈ args, Expr.Under levels e) :
      Under levels (.call line func args)
  | choose {levels : ℕ} (line) {arms : Arms} (hsome : arms.branches ≠ [])
      (hconds : ∀ arm ∈ arms.branches, arm.1.Under levels)
      (hbodies : ∀ arm ∈ arms.branches, ∀ s ∈ arm.2, Under levels s)
      (hlast : ∀ body, arms.last? = some body → ∀ s ∈ body, Under levels s) :
      Under (levels + 1) (.choose line arms)
  | loop {levels : ℕ} (line) {cond : Expr} {body} (hcond : cond.Under levels) (hbody : ∀ s ∈ body, Under levels s) :
      Under (levels + 1) (.loop line cond body)

theorem stmtLevels_under (vars : List Declaration) : StmtLevels vars Expr.Under Stmt.Under where
  assign _ line target _ _ hvalue := .assign line target hvalue
  call _ line func _ _ hargs := .call line func hargs
  choose _ line _ hsome hconds hbodies hlast := .choose line hsome hconds hbodies hlast
  loop _ line _ _ hcond hbody := .loop line hcond hbody

/-- An `IF` that levels suffice for has a header, which takes one of them. -/
theorem levels_pos_of_conds {arms : Arms} (hsome : arms.branches ≠ [])
    (hconds : ∀ arm ∈ arms.branches, arm.1.Under levels) : 0 < levels := by
  obtain ⟨arm, harm⟩ := List.exists_mem_of_ne_nil _ hsome
  exact (hconds arm harm).levels_pos

/-- **The levels that are left in a block**, one less for each block around it, and one at least. -/
theorem under_of_blockAt (hbody : ∀ s ∈ p.body, s.Under nestingLimit) (h : p.BlockAt n block) :
    ∃ levels, n + levels = nestingLimit ∧ 0 < levels ∧ ∀ s ∈ block, s.Under levels := by
  induction h with
  | body => exact ⟨nestingLimit, Nat.zero_add _, by decide, hbody⟩
  | branch _ hstmt harm ih =>
    obtain ⟨levels, hsum, -, hunder⟩ := ih
    cases hunder _ hstmt with
    | choose _ _ hconds hbodies _ => exact ⟨_, by omega, (hconds _ harm).levels_pos, hbodies _ harm⟩
  | last _ hstmt hlast ih =>
    obtain ⟨levels, hsum, -, hunder⟩ := ih
    cases hunder _ hstmt with
    | choose _ hsome hconds _ hbody => exact ⟨_, by omega, levels_pos_of_conds hsome hconds, hbody _ hlast⟩
  | loop _ hstmt ih =>
    obtain ⟨levels, hsum, -, hunder⟩ := ih
    cases hunder _ hstmt with
    | loop _ hcond hbody => exact ⟨_, by omega, hcond.levels_pos, hbody⟩

/-- **The levels that are left for an expression.** -/
theorem under_of_exprAt (hinit : ∀ d ∈ p.vars, d.Initialized (Expr.Under nestingLimit))
    (hbody : ∀ s ∈ p.body, s.Under nestingLimit) (h : p.ExprAt n e) :
    ∃ levels, n + levels = nestingLimit ∧ e.Under levels := by
  cases h with
  | initializer hd he => exact ⟨nestingLimit, Nat.zero_add _, hinit _ hd _ he⟩
  | value hblock hstmt =>
    obtain ⟨levels, hsum, -, hunder⟩ := under_of_blockAt hbody hblock
    cases hunder _ hstmt with
    | assign _ _ hvalue => exact ⟨levels, hsum, hvalue⟩
  | argument hblock hstmt he =>
    obtain ⟨levels, hsum, -, hunder⟩ := under_of_blockAt hbody hblock
    cases hunder _ hstmt with
    | call _ _ hargs => exact ⟨levels, hsum, hargs _ he⟩
  | branch hblock hstmt harm =>
    obtain ⟨levels, hsum, -, hunder⟩ := under_of_blockAt hbody hblock
    cases hunder _ hstmt with
    | choose _ _ hconds _ _ => exact ⟨_, by omega, hconds _ harm⟩
  | loop hblock hstmt =>
    obtain ⟨levels, hsum, -, hunder⟩ := under_of_blockAt hbody hblock
    cases hunder _ hstmt with
    | loop _ hcond _ => exact ⟨_, by omega, hcond⟩

/-- How deep the blocks of a program nest. -/
def Program.nesting (p : Program) : ℕ := blockNesting p.body

/-- A block is no deeper than the blocks of its program nest. -/
theorem Program.BlockAt.le_nesting (h : p.BlockAt n block) : n + blockNesting block ≤ p.nesting := by
  induction h with
  | body => exact (Nat.zero_add _).le
  | @branch n block line arms arm _ hstmt harm ih =>
    have hstmt := (nesting_le_block hstmt).1
    have harm := (nesting_le_branch harm).1
    rw [Stmt.nesting] at hstmt
    omega
  | @last n block line arms body _ hstmt hlast ih =>
    have hstmt := (nesting_le_block hstmt).1
    have hlast := (nesting_le_last hlast).1
    rw [Stmt.nesting] at hstmt
    omega
  | loop _ hstmt ih =>
    have hstmt := (nesting_le_block hstmt).1
    rw [Stmt.nesting] at hstmt
    omega

theorem blockNesting_lt (hlevels : 0 < levels) (h : ∀ s ∈ block, s.nesting < levels) : blockNesting block < levels := by
  induction block with
  | nil => exact hlevels
  | cons s ss ih =>
    obtain ⟨hs, hss⟩ := List.forall_mem_cons.1 h
    rw [blockNesting]
    exact max_lt hs (ih hss)

theorem Arms.nesting_lt (hlevels : 0 < levels) (arms : Arms)
    (hbodies : ∀ arm ∈ arms.branches, ∀ s ∈ arm.2, s.nesting < levels)
    (hlast : ∀ body, arms.last? = some body → ∀ s ∈ body, s.nesting < levels) : arms.nesting < levels := by
  match arms with
  | .none => exact hlevels
  | .otherwise body => exact blockNesting_lt hlevels (hlast body rfl)
  | .arm cond body rest =>
    obtain ⟨hbody, hrest⟩ := List.forall_mem_cons.1 hbodies
    rw [Arms.nesting]
    exact max_lt (blockNesting_lt hlevels hbody) (Arms.nesting_lt hlevels rest hrest hlast)

/-- **The blocks of a statement** nest less deep than levels suffice for. -/
theorem Stmt.Under.nesting_lt {s : Stmt} (h : s.Under levels) (hlevels : 0 < levels) : s.nesting < levels := by
  induction h with
  | assign | call => rwa [Stmt.nesting]
  | choose line hsome hconds _ _ ihbodies ihlast =>
    have hpos := levels_pos_of_conds hsome hconds
    rw [Stmt.nesting, Nat.add_comm]
    exact Nat.succ_lt_succ (Arms.nesting_lt hpos _ (fun arm harm s hs => ihbodies arm harm s hs hpos)
      fun body hbody s hs => ihlast body hbody s hs hpos)
  | loop line hcond _ ih =>
    rw [Stmt.nesting, Nat.add_comm]
    exact Nat.succ_lt_succ (blockNesting_lt hcond.levels_pos fun s hs => ih s hs hcond.levels_pos)

/-- **The executions that a program can come to**, by steps with any device, in any scope and any state. -/
inductive Program.Visits (p : Program) : Execution → Prop
  | start : Visits p (.start p)
  | step {σ : Type} (dev : Device σ) (scope : Scope) (state : σ) {e : Execution} (h : Visits p e) :
      Visits p (e.step dev scope state).execution

/-- **Frames stand in each other**: each one is what is left of a block with as many blocks around it as there are
frames below. -/
def Stacked (p : Program) : List (List Stmt) → Prop
  | [] => True
  | rest :: outer => (∃ block, p.BlockAt outer.length block ∧ rest <:+ block) ∧ Stacked p outer

theorem Program.BlockAt.stacked {outer : List (List Stmt)} (h : p.BlockAt outer.length block)
    (houter : Stacked p outer) : Stacked p (block :: outer) := ⟨⟨block, h, List.suffix_refl block⟩, houter⟩

theorem Stacked.dropWhile {frames : List (List Stmt)} (h : Stacked p frames) (q : List Stmt → Bool) :
    Stacked p (frames.dropWhile q) := by
  induction frames with
  | nil => exact h
  | cons rest outer ih =>
    rw [List.dropWhile_cons]
    split
    · exact ih h.2
    · exact h

/-- **A statement** leaves frames that stand in each other. -/
theorem gives_stacked {stmt : Stmt} {after : List Stmt} {outer : List (List Stmt)}
    (h : Stacked p ((stmt :: after) :: outer)) (dev : Device σ) (scope : Scope) :
    Run.Gives (fun left => Stacked p (left.2 ++ outer)) (runStmt dev scope stmt after) := by
  obtain ⟨⟨block, hblock, hrest⟩, houter⟩ := h
  have hstmt : stmt ∈ block := hrest.subset List.mem_cons_self
  have hafter : Stacked p (after :: outer) := ⟨⟨block, hblock, (List.suffix_cons stmt after).trans hrest⟩, houter⟩
  cases stmt with
  | assign line target value =>
    exact (Run.Gives.any _).bind fun v _ => (Run.Gives.any _).bind fun s _ => .pure hafter
  | call line func args => exact (Run.Gives.any _).bind fun vs _ => (Run.Gives.any _).bind fun _ _ => .pure hafter
  | choose line arms =>
    refine (gives_chosen dev scope arms).bind fun chosen hchosen => ?_
    cases chosen with
    | none => exact .pure hafter
    | some body =>
      have hbody : p.BlockAt (after :: outer).length body := by
        rcases hchosen body rfl with ⟨arm, harm, rfl⟩ | hlast
        · exact hblock.branch hstmt harm
        · exact hblock.last hstmt hlast
      exact .pure (Program.BlockAt.stacked hbody hafter)
  | loop line cond body =>
    refine (Run.Gives.any _).bind fun holds _ => ?_
    cases holds with
    | true =>
      -- the loop stays in its block until its condition is false
      have hagain : Stacked p ((Stmt.loop line cond body :: after) :: outer) := ⟨⟨block, hblock, hrest⟩, houter⟩
      exact .pure (Program.BlockAt.stacked (hblock.loop hstmt) hagain)
    | false => exact .pure hafter

/-- **One step** leaves frames that stand in each other. -/
theorem Stacked.step {e : Execution} (h : Stacked p e.frames) (dev : Device σ) (scope : Scope) (state : σ) :
    Stacked p (e.step dev scope state).execution.frames := by
  have hsettled : Stacked p e.settle.frames := h.dropWhile List.isEmpty
  refine Execution.step_frames (Stacked p) hsettled (fun stmt after outer hframes => ?_) state
  exact gives_stacked (hframes ▸ hsettled) dev scope

/-- **A run** keeps its frames in each other. -/
theorem Program.Visits.stacked {e : Execution} (h : p.Visits e) : Stacked p e.frames := by
  induction h with
  | start => exact Program.BlockAt.stacked .body trivial
  | step dev scope state _ ih => exact ih.step dev scope state

theorem Stacked.length_le {frames : List (List Stmt)} (h : Stacked p frames) : frames.length ≤ 1 + p.nesting := by
  cases frames with
  | nil => exact Nat.zero_le _
  | cons rest outer =>
    obtain ⟨⟨block, hblock, -⟩, -⟩ := h
    have hnesting := hblock.le_nesting
    rw [List.length_cons]
    omega

/-- **Nesting is bounded.** In a program that compiles no statement is in more than 127 blocks; an expression with
`n` blocks around it is at most `255 - n` deep, and the trees of its binary operators at most 128; and a run never has
more blocks open than the blocks of the program nest, and one, which are at most 128. -/
theorem nesting_bounded {source : String} (h : compile source = .ok p) :
    (∀ n block, p.BlockAt n block → n ≤ 127) ∧
    (∀ n e, p.ExprAt n e → n + e.depth ≤ 255 ∧
      ∀ op l r, e.Contains (.binary op l r) → (Expr.binary op l r).depth ≤ 128) ∧
    ∀ e, p.Visits e → e.depth ≤ 1 + p.nesting ∧ e.depth ≤ 128 := by
  have hlimit : nestingLimit = 128 := rfl
  obtain ⟨hinit, hbody⟩ := parts_of_compile h (exprLevels_under p.vars) (stmtLevels_under p.vars)
  refine ⟨fun n block hblock => ?_, fun n e he => ?_, fun e he => ?_⟩
  · obtain ⟨levels, hsum, hlevels, -⟩ := under_of_blockAt hbody hblock
    omega
  · obtain ⟨levels, hsum, hunder⟩ := under_of_exprAt hinit hbody he
    have hdepth := hunder.depth_lt
    exact ⟨by omega, hunder.narrow⟩
  · have hdepth : e.depth ≤ 1 + p.nesting := he.stacked.length_le
    have hnesting : p.nesting < nestingLimit :=
      blockNesting_lt (by decide) fun s hs => (hbody s hs).nesting_lt (by decide)
    exact ⟨hdepth, by omega⟩

/-- A counter with a branch in its loop. -/
def branching : String :=
  "VAR N : INT := 0; END_VAR WHILE N < 9 DO IF N = 0 THEN N := N + 1; END_IF; END_WHILE"

/-- The loop and the branch in it are all that is open when the counter has entered both. -/
theorem nesting_bounded_branching : ∃ p e, compile branching = .ok p ∧ p.Visits e ∧ p.nesting = 2 ∧ e.depth = 3 ∧
    (∀ n block, p.BlockAt n block → n ≤ 127) ∧ ∀ e', p.Visits e' → e'.depth ≤ 3 := by
  have hbranching : (compile branching).toOption.any (fun p => (Scope.ofProgram p 0).toOption.any fun scope =>
      let entered := (Execution.start p).step detached scope 0
      p.nesting == 2 && (entered.execution.step detached entered.scope 0).execution.depth == 3) = true := by
    decide +kernel
  cases hp : compile branching with
  | error err =>
    rw [hp] at hbranching
    cases hbranching
  | ok p =>
    rw [hp] at hbranching
    change (Scope.ofProgram p 0).toOption.any _ = true at hbranching
    obtain ⟨scope, -, hscope⟩ := (Option.any_eq_true _ _).1 hbranching
    obtain ⟨hnesting, hdepth⟩ := Bool.and_eq_true_iff.1 hscope
    have hnesting : p.nesting = 2 := eq_of_beq hnesting
    obtain ⟨hblocks, -, hruns⟩ := nesting_bounded hp
    refine ⟨p, _, rfl, .step detached _ 0 (.step detached scope 0 .start), hnesting, eq_of_beq hdepth, hblocks, ?_⟩
    intro e' he'
    have hdepth := (hruns e' he').1
    rwa [hnesting] at hdepth

end Switchyard.Script
