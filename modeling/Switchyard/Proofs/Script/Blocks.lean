import Switchyard.Proofs.Script.Declared

/-!
# What stays of a program while it runs

An execution works through the blocks of its program: each of its frames is what is
left of a block (`Execution.Within.step`). Scopes change by assignments and by moves of
`STATE` only, and what these keep is kept by every step (`Scope.Keeps`): a scope keeps its
variables, with their names and types and in their order (`headings_step`).

* `Program.Block`: the body of a program, and the blocks of statements in its blocks.
* `Program.stmts`: all statements of a program in the order of its text (`mem_stmts_iff`).
* `Scope.Keeps`: a property of scopes that lasts, from the start of a program and from step to step.
* `Scope.headings`: the variables of a scope, without their values.
* `headings_ofProgram`: the scope of a program has the variables that are declared.
-/

namespace Switchyard.Script

variable {σ : Type} {p : Program}

/-- **The blocks of a program**: its body, and those of the statements in its blocks. -/
inductive Program.Block (p : Program) : List Stmt → Prop
  | body : Block p p.body
  | branch {block line arms arm} (h : Block p block) (hstmt : Stmt.choose line arms ∈ block)
      (harm : arm ∈ arms.branches) : Block p arm.2
  | last {block line arms body} (h : Block p block) (hstmt : Stmt.choose line arms ∈ block)
      (hlast : arms.last? = some body) : Block p body
  | loop {block line cond body} (h : Block p block) (hstmt : Stmt.loop line cond body ∈ block) : Block p body

/-- What is left of a block of a program. -/
def Program.Rest (p : Program) (rest : List Stmt) : Prop := ∃ block, p.Block block ∧ rest <:+ block

theorem Program.Block.rest {block : List Stmt} (h : p.Block block) : p.Rest block := ⟨block, h, List.suffix_refl block⟩

/-- Behind a statement of a block comes the rest of the block. -/
theorem Program.Rest.tail {stmt : Stmt} {after : List Stmt} (h : p.Rest (stmt :: after)) : p.Rest after := by
  obtain ⟨block, hblock, hrest⟩ := h
  exact ⟨block, hblock, (List.suffix_cons stmt after).trans hrest⟩

/-- An execution consists of blocks of a program. -/
def Execution.Within (p : Program) (e : Execution) : Prop := ∀ rest ∈ e.frames, p.Rest rest

/-- At its start, an execution is within the program. -/
theorem within_start (p : Program) : (Execution.start p).Within p := List.forall_mem_singleton.2 Program.Block.body.rest

theorem Execution.Within.settle {e : Execution} (h : e.Within p) : e.settle.Within p := fun rest hrest =>
  h rest ((List.dropWhile_sublist _).subset hrest)

/-- The block that an `IF` chooses is one of its blocks. -/
theorem gives_chosen (dev : Device σ) (scope : Scope) (arms : Arms) :
    Run.Gives (fun chosen => ∀ body, chosen = some body →
      (∃ arm ∈ arms.branches, arm.2 = body) ∨ arms.last? = some body) (chooseArm dev scope arms) := by
  match arms with
  | .none => exact .pure nofun
  | .otherwise body => exact .pure fun body' hbody => .inr hbody
  | .arm cond body rest =>
    rw [chooseArm]
    refine (Run.Gives.any _).bind fun holds _ => ?_
    cases holds with
    | true =>
      refine .pure fun body' hbody => .inl ⟨(cond, body), List.mem_cons_self, Option.some.inj hbody⟩
    | false =>
      intro state chosen hchosen body' hbody
      rcases gives_chosen dev scope rest state chosen hchosen body' hbody with ⟨arm, harm, hsame⟩ | hlast
      · exact .inl ⟨arm, List.mem_cons_of_mem _ harm, hsame⟩
      · exact .inr hlast

/-- **A statement** leaves blocks of its program to run. -/
theorem gives_rests {stmt : Stmt} {after : List Stmt} (h : p.Rest (stmt :: after)) (dev : Device σ) (scope : Scope) :
    Run.Gives (fun left => ∀ rest ∈ left.2, p.Rest rest) (runStmt dev scope stmt after) := by
  have hafter : ∀ rest ∈ [after], p.Rest rest := List.forall_mem_singleton.2 h.tail
  obtain ⟨block, hblock, hrest⟩ := h
  have hstmt : stmt ∈ block := hrest.subset List.mem_cons_self
  cases stmt with
  | assign line target value =>
    exact (Run.Gives.any _).bind fun v _ => (Run.Gives.any _).bind fun s _ => .pure hafter
  | call line func args => exact (Run.Gives.any _).bind fun vs _ => (Run.Gives.any _).bind fun _ _ => .pure hafter
  | choose line arms =>
    refine (gives_chosen dev scope arms).bind fun chosen hchosen => ?_
    cases chosen with
    | none => exact .pure hafter
    | some body =>
      have hbody : p.Block body := by
        rcases hchosen body rfl with ⟨arm, harm, rfl⟩ | hlast
        · exact hblock.branch hstmt harm
        · exact hblock.last hstmt hlast
      exact .pure (List.forall_mem_cons.2 ⟨hbody.rest, hafter⟩)
  | loop line cond body =>
    refine (Run.Gives.any _).bind fun holds _ => ?_
    cases holds with
    | true =>
      -- the loop stays in its block until its condition is false
      have hagain : ∀ rest ∈ [Stmt.loop line cond body :: after], p.Rest rest :=
        List.forall_mem_singleton.2 ⟨block, hblock, hrest⟩
      exact .pure (List.forall_mem_cons.2 ⟨(hblock.loop hstmt).rest, hagain⟩)
    | false => exact .pure hafter

/-- **What a step leaves open.** A property of frames that settling keeps, and that every statement hands on to what it
leaves to run, lasts over a step. -/
theorem Execution.step_frames (P : List (List Stmt) → Prop) {e : Execution} {dev : Device σ} {scope : Scope}
    (hsettled : P e.settle.frames)
    (hstmt : ∀ stmt after outer, e.settle.frames = (stmt :: after) :: outer →
      Run.Gives (fun left => P (left.2 ++ outer)) (runStmt dev scope stmt after)) (state : σ) :
    P (e.step dev scope state).execution.frames := by
  rcases hframes : e.settle.frames with _ | ⟨_ | ⟨stmt, after⟩, outer⟩
  · simp only [Execution.step, hframes]
    exact hframes ▸ hsettled
  · simp only [Execution.step, hframes]
    exact hframes ▸ hsettled
  rcases hrun : (runStmt dev scope stmt after).run state with ⟨err | ⟨scope', more⟩, state'⟩
  · simp only [Execution.step, hframes, hrun]
    exact hframes ▸ hsettled
  · simp only [Execution.step, hframes, hrun]
    exact hstmt stmt after outer hframes state (scope', more) (by rw [hrun])

/-- **One step** of an execution keeps to the blocks of its program. -/
theorem Execution.Within.step {e : Execution} (h : e.Within p) (dev : Device σ) (scope : Scope) (state : σ) :
    (e.step dev scope state).execution.Within p := by
  refine Execution.step_frames (∀ rest ∈ ·, p.Rest rest) h.settle (fun stmt after outer hframes => ?_) state
  have hrests := h.settle
  rw [Execution.Within, hframes] at hrests
  obtain ⟨hrest, houter⟩ := List.forall_mem_cons.1 hrests
  intro state left hleft
  exact List.forall_mem_append.2 ⟨gives_rests hrest dev scope state left hleft, houter⟩

mutual

/-- A statement and then the statements in its blocks, in the order of the text. -/
def Stmt.all : Stmt → List Stmt
  | .assign line target value => [.assign line target value]
  | .call line func args => [.call line func args]
  | .choose line arms => .choose line arms :: arms.all
  | .loop line cond body => .loop line cond body :: allStmts body

def Arms.all : Arms → List Stmt
  | .none => []
  | .otherwise body => allStmts body
  | .arm _ body rest => allStmts body ++ rest.all

/-- The statements of a block with those in their blocks, in the order of the text. -/
def allStmts : List Stmt → List Stmt
  | [] => []
  | s :: ss => s.all ++ allStmts ss

end

/-- **The statements of a program**, in the order of its text. -/
def Program.stmts (p : Program) : List Stmt := allStmts p.body

/-- The statements of two parts of a block come in a row. -/
theorem allStmts_append (ss ss' : List Stmt) : allStmts (ss ++ ss') = allStmts ss ++ allStmts ss' := by
  induction ss with
  | nil => rfl
  | cons s ss ih => rw [List.cons_append, allStmts, ih, allStmts, List.append_assoc]

/-- The first of all is the statement itself. -/
theorem Stmt.all_eq_cons (s : Stmt) : ∃ inner, s.all = s :: inner := by
  cases s with
  | assign | call => exact ⟨[], by rw [Stmt.all]⟩
  | choose line arms => exact ⟨arms.all, by rw [Stmt.all]⟩
  | loop line cond body => exact ⟨allStmts body, by rw [Stmt.all]⟩

theorem Stmt.mem_all_self (s : Stmt) : s ∈ s.all := by
  obtain ⟨inner, hall⟩ := s.all_eq_cons
  rw [hall]
  exact List.mem_cons_self

/-- A statement of a block brings in all the statements inside of it. -/
theorem sublist_all_of_mem {s : Stmt} {block : List Stmt} (h : s ∈ block) : s.all.Sublist (allStmts block) := by
  induction block with
  | nil => cases h
  | cons first rest ih =>
    rw [allStmts]
    rcases List.mem_cons.1 h with rfl | hrest
    · exact List.sublist_append_left _ _
    · exact (ih hrest).trans (List.sublist_append_right _ _)

/-- An alternative of a conditional brings in all the statements of its block. -/
theorem sublist_all_of_branch {arm : Expr × List Stmt} : (arms : Arms) → arm ∈ arms.branches →
    (allStmts arm.2).Sublist arms.all
  | .none, h | .otherwise _, h => by cases h
  | .arm cond body rest, h => by
    rw [Arms.all]
    rcases List.mem_cons.1 h with rfl | hrest
    · exact List.sublist_append_left _ _
    · exact (sublist_all_of_branch rest hrest).trans (List.sublist_append_right _ _)

/-- So does the last block of a conditional. -/
theorem sublist_all_of_last {body : List Stmt} : (arms : Arms) → arms.last? = some body →
    (allStmts body).Sublist arms.all
  | .none, h => by cases h
  | .otherwise _, h => by
    cases h
    exact List.Sublist.refl _
  | .arm _ _ rest, h => by
    rw [Arms.all]
    exact (sublist_all_of_last rest h).trans (List.sublist_append_right _ _)

/-- The statements of a block of a program are statements of the program. -/
theorem Program.Block.stmts_sublist {block : List Stmt} (h : p.Block block) : (allStmts block).Sublist p.stmts := by
  induction h with
  | body => exact List.Sublist.refl _
  | @branch block line arms arm _ hstmt harm ih =>
    have harms := (sublist_all_of_mem hstmt).trans ih
    rw [Stmt.all] at harms
    exact ((sublist_all_of_branch arms harm).trans (List.sublist_cons_self _ _)).trans harms
  | @last block line arms body _ hstmt hlast ih =>
    have harms := (sublist_all_of_mem hstmt).trans ih
    rw [Stmt.all] at harms
    exact ((sublist_all_of_last arms hlast).trans (List.sublist_cons_self _ _)).trans harms
  | loop _ hstmt ih =>
    have hbody := (sublist_all_of_mem hstmt).trans ih
    rw [Stmt.all] at hbody
    exact (List.sublist_cons_self _ _).trans hbody

mutual

/-- A statement inside of another one stands in one of its blocks. -/
theorem exists_block_of_mem_stmt {block : List Stmt} {t : Stmt} (h : p.Block block) :
    (s : Stmt) → s ∈ block → t ∈ s.all → ∃ block, p.Block block ∧ t ∈ block
  | .assign line target value, hs, ht => by
    rw [Stmt.all, List.mem_singleton] at ht
    exact ⟨block, h, ht ▸ hs⟩
  | .call line func args, hs, ht => by
    rw [Stmt.all, List.mem_singleton] at ht
    exact ⟨block, h, ht ▸ hs⟩
  | .choose line arms, hs, ht => by
    rw [Stmt.all, List.mem_cons] at ht
    rcases ht with rfl | ht
    · exact ⟨block, h, hs⟩
    · exact exists_block_of_mem_arms arms (fun arm harm => h.branch hs harm) (fun body hlast => h.last hs hlast) ht
  | .loop line cond body, hs, ht => by
    rw [Stmt.all, List.mem_cons] at ht
    rcases ht with rfl | ht
    · exact ⟨block, h, hs⟩
    · exact exists_block_of_mem_block (h.loop hs) body (fun _ hs => hs) ht

/-- A statement inside of a conditional stands in the block of an alternative, or deeper. -/
theorem exists_block_of_mem_arms {t : Stmt} : (arms : Arms) → (∀ arm ∈ arms.branches, p.Block arm.2) →
    (∀ body, arms.last? = some body → p.Block body) → t ∈ arms.all → ∃ block, p.Block block ∧ t ∈ block
  | .none, _, _, ht => by
    rw [Arms.all] at ht
    cases ht
  | .otherwise body, _, hlast, ht => by
    rw [Arms.all] at ht
    exact exists_block_of_mem_block (hlast body rfl) body (fun _ hs => hs) ht
  | .arm cond body rest, hbranches, hlast, ht => by
    rw [Arms.all, List.mem_append] at ht
    rcases ht with ht | ht
    · exact exists_block_of_mem_block (hbranches (cond, body) List.mem_cons_self) body (fun _ hs => hs) ht
    · exact exists_block_of_mem_arms rest (fun arm harm => hbranches arm (List.mem_cons_of_mem _ harm)) hlast ht

/-- A statement inside of a block stands in the block, or deeper. -/
theorem exists_block_of_mem_block {block : List Stmt} {t : Stmt} (h : p.Block block) :
    (ss : List Stmt) → (∀ s ∈ ss, s ∈ block) → t ∈ allStmts ss → ∃ block, p.Block block ∧ t ∈ block
  | [], _, ht => by
    rw [allStmts] at ht
    cases ht
  | s :: ss, hss, ht => by
    rw [allStmts, List.mem_append] at ht
    rcases ht with ht | ht
    · exact exists_block_of_mem_stmt h s (hss s List.mem_cons_self) ht
    · exact exists_block_of_mem_block h ss (fun s' hs' => hss s' (List.mem_cons_of_mem s hs')) ht

end

/-- **The statements of a program are those in its blocks.** -/
theorem mem_stmts_iff {s : Stmt} : s ∈ p.stmts ↔ ∃ block, p.Block block ∧ s ∈ block := by
  constructor
  · intro h
    exact exists_block_of_mem_block .body p.body (fun _ hs => hs) h
  · rintro ⟨block, hblock, hs⟩
    exact hblock.stmts_sublist.subset ((sublist_all_of_mem hs).subset s.mem_all_self)

/-- A property of scopes that is kept by all that a program does to its variables. -/
structure Scope.Keeps (P : Scope → Prop) : Prop where
  set : ∀ {s s' : Scope} {key : String} {value : Scalar}, P s → s.set key value = .ok s' → P s'
  startTimer : ∀ {s : Scope} (key : String), P s → P (s.startTimer key)
  followState : ∀ {s : Scope} (now : Millis), P s → P (s.followState now)

namespace Scope.Keeps

variable {P : Scope → Prop} {s s' scope : Scope} {now : Millis}

theorem runInitializer (hP : Scope.Keeps P) {d : Declaration} (hs : P s) (h : s.runInitializer now d = .ok s') :
    P s' := by
  obtain ⟨mid, hassigned, rfl⟩ := Scope.runInitializer_eq_ok h
  have hmid : P mid := by
    rcases hassigned with ⟨-, rfl⟩ | ⟨e, v, -, -, hset⟩
    · exact hs
    · exact hP.set hs hset
  split
  · exact hP.startTimer d.key hmid
  · exact hmid

/-- What initializers keep, one after the other, holds behind all of them. -/
theorem foldlM (hP : Scope.Keeps P) {decls : List Declaration} (hs : P s)
    (h : decls.foldlM (fun scope d => scope.runInitializer now d) s = .ok s') : P s' := by
  induction decls generalizing s with
  | nil =>
    cases h
    exact hs
  | cons d ds ih =>
    rw [List.foldlM_cons] at h
    obtain ⟨t, ht, hrest⟩ := bind_eq_ok.1 h
    exact ih (hP.runInitializer hs ht) hrest

/-- **The scope of a program** has what its declarations have. -/
theorem ofProgram (hP : Scope.Keeps P) (hs : P (Scope.ofDecls p.vars)) (h : Scope.ofProgram p now = .ok scope) :
    P scope := by
  obtain ⟨t, ht, hscope⟩ := bind_eq_ok.1 h
  cases hscope
  exact hP.followState now (hP.foldlM hs ht)

/-- A statement assigns at most. -/
theorem gives (hP : Scope.Keeps P) (hs : P scope) (dev : Device σ) (stmt : Stmt) (after : List Stmt) :
    Run.Gives (fun left => P left.1) (runStmt dev scope stmt after) := by
  cases stmt with
  | assign line target value =>
    exact (Run.Gives.any _).bind fun v _ => (Run.Gives.lift fun s hset => hP.set hs hset).bind fun s hs => .pure hs
  | call line func args => exact (Run.Gives.any _).bind fun vs _ => (Run.Gives.any _).bind fun _ _ => .pure hs
  | choose line arms =>
    refine (Run.Gives.any _).bind fun chosen _ => ?_
    cases chosen with
    | none => exact .pure hs
    | some body => exact .pure hs
  | loop line cond body =>
    refine (Run.Gives.any _).bind fun holds _ => ?_
    cases holds with
    | true => exact .pure hs
    | false => exact .pure hs

/-- **One step** keeps it. -/
theorem step (hP : Scope.Keeps P) (hs : P scope) (e : Execution) (dev : Device σ) (state : σ) :
    P (e.step dev scope state).scope := by
  rcases hframes : e.settle.frames with _ | ⟨_ | ⟨stmt, after⟩, outer⟩
  · simp only [Execution.step, hframes]
    exact hs
  · simp only [Execution.step, hframes]
    exact hs
  rcases hrun : (runStmt dev scope stmt after).run state with ⟨err | ⟨scope', more⟩, state'⟩
  · simp only [Execution.step, hframes, hrun]
    exact hs
  · simp only [Execution.step, hframes, hrun]
    exact hP.followState _ (hP.gives hs dev stmt after state (scope', more) (by rw [hrun]))

end Scope.Keeps

/-- What a variable is declared as: its key, its name and its type. -/
def Declaration.heading (d : Declaration) : String × String × TypeName := (d.key, d.name, d.type)

def Binding.heading (b : Binding) : String × String × TypeName := (b.key, b.name, b.type)

/-- The variables of a scope, in order, without their values. -/
def Scope.headings (s : Scope) : List (String × String × TypeName) := s.bindings.map Binding.heading

theorem headings_map (s : Scope) {f : Binding → Binding} (hf : ∀ b, (f b).heading = b.heading) (last : Option Int64) :
    Scope.headings ⟨s.bindings.map f, last⟩ = s.headings := by
  rw [Scope.headings, List.map_map]
  exact List.map_congr_left fun b _ => hf b

theorem headings_modify (s : Scope) (key : String) {f : Binding → Binding} (hf : ∀ b, (f b).heading = b.heading) :
    (s.modify key f).headings = s.headings := by
  refine headings_map s (fun b => ?_) s.lastState
  split
  · exact hf b
  · rfl

/-- An assignment changes no name and no type. -/
theorem headings_set {s s' : Scope} {key : String} {value : Scalar} (h : s.set key value = .ok s') :
    s'.headings = s.headings := by
  obtain ⟨-, v, -, -, rfl⟩ := Scope.set_eq_ok h
  exact headings_modify s key fun _ => rfl

theorem headings_startTimer (s : Scope) (key : String) : (s.startTimer key).headings = s.headings :=
  headings_modify s key fun _ => rfl

/-- Nor does a look at `STATE`. -/
theorem headings_followState (s : Scope) (now : Millis) : (s.followState now).headings = s.headings := by
  rcases s.followState_cases now with ⟨hs, -⟩ | ⟨n, -, -, hs⟩
  · rw [hs]
  · rw [hs]
    exact headings_map s (f := Scope.restart n now) (fun _ => rfl) _

/-- Variables stay, with their names and types and in their order. -/
theorem keeps_headings (headings : List (String × String × TypeName)) : Scope.Keeps fun s => s.headings = headings where
  set hs hset := (headings_set hset).trans hs
  startTimer key hs := (headings_startTimer _ key).trans hs
  followState now hs := (headings_followState _ now).trans hs

/-- **The scope of a program** has the variables that the program declares. -/
theorem headings_ofProgram {scope : Scope} {now : Millis} (h : Scope.ofProgram p now = .ok scope) :
    scope.headings = p.vars.map Declaration.heading := by
  refine (keeps_headings _).ofProgram ?_ h
  rw [Scope.headings, Scope.ofDecls, List.map_map]
  rfl

/-- **One step** leaves the variables as they are declared. -/
theorem headings_step (e : Execution) (dev : Device σ) (scope : Scope) (state : σ) :
    (e.step dev scope state).scope.headings = scope.headings := (keeps_headings _).step rfl e dev state

end Switchyard.Script
