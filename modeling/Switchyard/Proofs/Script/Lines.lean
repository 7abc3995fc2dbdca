import Switchyard.Proofs.Script.Blocks
import Switchyard.Proofs.Script.Separation

/-!
# Lines are lines of the text

Lines are counted in one place. The tokenizer starts on line 1 and adds the line feeds that it passes, so the lines
of tokens go up and stay within the text (`sorted_tokensFrom`), as long as 32 bits can count them (`LinesFit`). The
parsers take over lines of tokens and count nothing. They read from left to right, so the lines of the statements
that they have read, followed by the lines of the tokens that are left, are some of the lines of all tokens, in
their order (`Fits`); and what they refuse or report is on one of these lines, or on the last one (`Lined`). Hence
every line that the compiler names is a line of such a text, and the statements of a program are in the order of
their lines (`lines_exist`).

* `Parser.Quiet`, `Parser.Adds`, `Parser.AddsFrom`: parsers that read no statement, some statements, and one
  statement on a given line.
* `quiet_expr`, `adds_statement`, `adds_varSection`: expressions, statements and declarations.
-/

namespace Switchyard.Script

open Switchyard.Script.Parser (remaining skip failAt fail lineAt lineHere)

variable {α β γ : Type} {all read : List UInt32} {endLine line : UInt32} {ts mid : List Token} {t : Token}

/-- **The lines of what has been read and of the tokens that are left** are some of the lines of a text, in order. -/
def Fits (all read : List UInt32) (ts : List Token) : Prop := (read ++ ts.map Token.line).Sublist all

namespace Fits

/-- A token that is passed over takes its line with it. -/
theorem tail (h : Fits all read ts) : Fits all read ts.tail :=
  (((List.tail_sublist ts).map Token.line).append_left read).trans h

/-- The line of a token ahead is one of the lines. -/
theorem head_mem (h : Fits all read (t :: ts)) : t.line ∈ endLine :: all := by
  have hmem : t.line ∈ read ++ (t :: ts).map Token.line := by simp
  exact List.mem_cons_of_mem endLine (h.subset hmem)

/-- The line of the first token counts as read once the token is. -/
theorem take (h : Fits all read (t :: ts)) : Fits all (read ++ [t.line]) ts := by
  rw [Fits, List.append_assoc]
  exact h

/-- Less that was read fits as well. -/
theorem of_sublist {read' : List UInt32} (h : Fits all read ts) (hread : read'.Sublist read) : Fits all read' ts :=
  (hread.append_right _).trans h

/-- The line of the place of reading is one of the lines, or the last one. -/
theorem lineAt_mem (h : Fits all read ts) : lineAt endLine ts ∈ endLine :: all := by
  cases ts with
  | nil => exact List.mem_cons_self
  | cons t ts => exact h.head_mem

end Fits

/-- **What a parser says about lines.** If it fails, it names one of the lines, or the last one. If it reads something,
what is read fits with the tokens that it leaves, and the variables it has seen are on some of the lines. -/
def OnLines (all : List UInt32) (endLine : UInt32) (read : α → List UInt32) : Except CompileError (Parsed α) → Prop
  | .error e => ∃ line ∈ endLine :: all, e.line = some line
  | .ok r => Fits all (read r.value) r.rest ∧ ∀ u ∈ r.uses, u.line ∈ endLine :: all

/-- A parser keeps to the lines at some tokens. -/
def Lined (all : List UInt32) (endLine : UInt32) (read : α → List UInt32) (p : Parser α) (ts : List Token) : Prop :=
  OnLines all endLine read (p endLine ts)

/-- A parser that reads no statement. -/
def Parser.Quiet (all : List UInt32) (endLine : UInt32) (p : Parser α) : Prop :=
  ∀ read ts, Fits all read ts → Lined all endLine (fun _ => read) p ts

/-- A parser that reads something on some lines, one after the other. -/
def Parser.Adds (all : List UInt32) (endLine : UInt32) (p : Parser α) (lines : α → List UInt32) : Prop :=
  ∀ read ts, Fits all read ts → Lined all endLine (fun a => read ++ lines a) p ts

namespace Lined

variable {p q : Parser α} {f : α → Parser β} {before : α → List UInt32} {after : β → List UInt32}

/-- The error of a parser that keeps to the lines names one of them. -/
theorem of_error {e : CompileError} (h : Lined all endLine before p ts) (hp : p endLine ts = .error e) :
    ∃ line ∈ endLine :: all, e.line = some line := by
  rwa [Lined, hp] at h

/-- What such a parser reads fits with the tokens that it leaves. -/
theorem of_ok {r : Parsed α} (h : Lined all endLine before p ts) (hp : p endLine ts = .ok r) :
    Fits all (before r.value) r.rest ∧ ∀ u ∈ r.uses, u.line ∈ endLine :: all := by
  rwa [Lined, hp] at h

theorem pure {a : α} (h : Fits all (before a) ts) : Lined all endLine before (Pure.pure a) ts :=
  ⟨h, List.forall_mem_nil _⟩

/-- An error on one of the lines is allowed. -/
theorem failAt (fault : CompileFault) (h : line ∈ endLine :: all) :
    Lined all endLine before (Parser.failAt line fault) ts := ⟨line, h, rfl⟩

/-- An error at the place of reading is allowed. -/
theorem fail (fault : Option TokenContent → CompileFault) (h : Fits all read ts) :
    Lined all endLine before (Parser.fail fault) ts := ⟨_, h.lineAt_mem, rfl⟩

/-- A branch keeps to the lines if both sides do. -/
theorem ite {c : Prop} [Decidable c] (h : c → Lined all endLine before p ts)
    (h' : ¬ c → Lined all endLine before q ts) : Lined all endLine before (if c then p else q) ts := by
  split
  · exact h ‹c›
  · exact h' ‹¬ c›

/-- Two parsers in a row keep to the lines if the second one does after whatever the first one has read. -/
theorem bind (hp : Lined all endLine before p ts)
    (hf : ∀ a mid, Fits all (before a) mid → Lined all endLine after (f a) mid) :
    Lined all endLine after (p >>= f) ts := by
  change OnLines all endLine after (Parser.bind p f endLine ts)
  rw [Parser.bind]
  cases ha : p endLine ts with
  | error e => exact hp.of_error ha
  | ok a =>
    obtain ⟨hfits, hseen⟩ := hp.of_ok ha
    have hlater := hf a.value a.rest hfits
    cases hb : f a.value endLine a.rest with
    | error e =>
      simp only [hb]
      exact hlater.of_error hb
    | ok b =>
      obtain ⟨hfits', hseen'⟩ := hlater.of_ok hb
      simp only [hb]
      exact ⟨hfits', List.forall_mem_append.2 ⟨hseen, hseen'⟩⟩

/-- Goes on after a parser that cannot fail here and sees variables on some of the lines. -/
theorem step {p : Parser γ} {c : γ} {uses : List Use} {f : γ → Parser β} (hp : p endLine ts = .ok ⟨c, uses, mid⟩)
    (huses : ∀ u ∈ uses, u.line ∈ endLine :: all) (h : Lined all endLine after (f c) mid) :
    Lined all endLine after (p >>= f) ts := by
  change OnLines all endLine after (Parser.bind p f endLine ts)
  simp only [Parser.bind, hp]
  cases hc : f c endLine mid with
  | error e => exact h.of_error hc
  | ok r =>
    obtain ⟨hfits, hseen⟩ := h.of_ok hc
    exact ⟨hfits, List.forall_mem_append.2 ⟨huses, hseen⟩⟩

/-- Goes on after a parser that reads no statement. -/
theorem next (hp : p.Quiet all endLine) (h : Fits all read ts)
    (hf : ∀ a mid, Fits all read mid → Lined all endLine after (f a) mid) : Lined all endLine after (p >>= f) ts :=
  (hp read ts h).bind hf

/-- A variable is seen on one of the lines. -/
theorem use {f : String → Parser β} (written : String) (stepTime : Bool) (hline : line ∈ endLine :: all)
    (h : ∀ key, Lined all endLine after (f key) ts) :
    Lined all endLine after (Parser.use written line stepTime >>= f) ts :=
  step rfl (List.forall_mem_singleton.2 hline) (h _)

/-- A look at the tokens. -/
theorem look {f : List Token → Parser β} (h : Lined all endLine after (f ts) ts) :
    Lined all endLine after (remaining >>= f) ts := step rfl (List.forall_mem_nil _) h

/-- A token is dropped. -/
theorem drop {f : Unit → Parser β} (h : Lined all endLine after (f ()) ts) :
    Lined all endLine after (skip >>= f) (t :: ts) := step rfl (List.forall_mem_nil _) h

end Lined

theorem Parser.Quiet.map {p : Parser α} (h : p.Quiet all endLine) (g : α → β) : (g <$> p).Quiet all endLine :=
  fun read ts hts => (h read ts hts).bind fun _ _ hmid => .pure hmid

/-- Who reads something does not lose what has been read. -/
theorem Parser.Adds.quiet {p : Parser α} {lines : α → List UInt32} (h : p.Adds all endLine lines) :
    p.Quiet all endLine := by
  intro read ts hts
  unfold Lined
  cases hp : p endLine ts with
  | error e => exact (h read ts hts).of_error hp
  | ok r =>
    obtain ⟨hfits, hseen⟩ := (h read ts hts).of_ok hp
    exact ⟨hfits.of_sublist (List.sublist_append_left _ _), hseen⟩

theorem quiet_skip : skip.Quiet all endLine := fun _ _ h => ⟨h.tail, List.forall_mem_nil _⟩

theorem quiet_tooDeep : (tooDeep : Parser α).Quiet all endLine := fun _ _ h => .fail _ h

theorem quiet_expectSymbol (s : Symbol) : (expectSymbol s).Quiet all endLine :=
  fun read ts h => .look (.ite (fun _ => quiet_skip read ts h) fun _ => .fail _ h)

theorem quiet_takeKeyword (keyword : String) : (takeKeyword keyword).Quiet all endLine :=
  fun read ts h => .look (.ite (fun _ => quiet_skip read ts h) fun _ => .fail _ h)

theorem quiet_optionalSemicolon : optionalSemicolon.Quiet all endLine :=
  fun read ts h => .look (.ite (fun _ => quiet_skip read ts h) fun _ => .pure h)

/-- The line of a keyword counts as read. -/
theorem lined_takeKeyword (keyword : String) (h : Fits all read (t :: ts)) :
    Lined all endLine (fun _ => read ++ [t.line]) (takeKeyword keyword) (t :: ts) :=
  .look (.ite (fun _ => ⟨h.take, List.forall_mem_nil _⟩) fun _ => .fail _ h)

/-- Operands put together are an expression, or too deep on the line ahead. -/
theorem quiet_binary (op : BinaryOp) (lhs rhs : Expr) : (binary op lhs rhs).Quiet all endLine :=
  fun _ _ h => .ite (fun _ => .fail _ h) fun _ => .pure h

/-- Chains take over the lines of their operands. -/
theorem onLines_chainFrom {operator : OperatorAt} {operand : Parser Expr} (hoperand : operand.Quiet all endLine)
    {lhs : Expr} {uses : List Use} (h : Fits all read ts) (huses : ∀ u ∈ uses, u.line ∈ endLine :: all) :
    OnLines all endLine (fun _ => read) (chainFrom operator operand endLine lhs uses ts) := by
  fun_induction chainFrom operator operand endLine lhs uses ts with
  | case1 | case2 => exact ⟨h, huses⟩
  | case3 lhs uses t ts op hop e hrhs =>
    exact (hoperand read ts h.tail).of_error hrhs
  | case4 lhs uses t ts op hop rhs hrhs e htree =>
    obtain ⟨hfits, hseen⟩ := (hoperand read ts h.tail).of_ok hrhs
    exact (quiet_binary op lhs rhs.value read rhs.rest hfits).of_error htree
  | case5 lhs uses t ts op hop rhs hrhs tree htree hlt ih =>
    obtain ⟨hfits, hseen⟩ := (hoperand read ts h.tail).of_ok hrhs
    exact ih hfits (List.forall_mem_append.2 ⟨huses, hseen⟩)
  | case6 lhs uses t ts op hop rhs hrhs tree htree hlt =>
    obtain ⟨hfits, hseen⟩ := (hoperand read ts h.tail).of_ok hrhs
    exact ⟨hfits, List.forall_mem_append.2 ⟨huses, hseen⟩⟩

/-- A chain of operators reads expressions only. -/
theorem quiet_chain {operand : Parser Expr} (operator : OperatorAt) (hoperand : operand.Quiet all endLine) :
    (chain operator operand).Quiet all endLine := by
  intro read ts h
  unfold Lined chain
  cases hlhs : operand endLine ts with
  | error e => exact (hoperand read ts h).of_error hlhs
  | ok lhs =>
    obtain ⟨hfits, hseen⟩ := (hoperand read ts h).of_ok hlhs
    exact onLines_chainFrom hoperand hfits hseen

/-- So do all levels of operators. -/
theorem quiet_operators {operand : Parser Expr} (h : operand.Quiet all endLine) :
    (operators operand).Quiet all endLine :=
  quiet_chain _ <| quiet_chain _ <| quiet_chain _ <| quiet_chain _ <| quiet_chain _ <| quiet_chain _ h

/-- A list of arguments reads expressions only, wherever in the list it stands. -/
theorem onLines_argumentsFrom {arg : Parser Expr} (harg : arg.Quiet all endLine) {args : List Expr} {uses : List Use}
    (h : Fits all read ts) (huses : ∀ u ∈ uses, u.line ∈ endLine :: all) :
    OnLines all endLine (fun _ => read) (argumentsFrom arg endLine args uses ts) := by
  fun_induction argumentsFrom arg endLine args uses ts with
  | case1 args uses ts e ha =>
    exact (harg read ts h).of_error ha
  | case2 args uses ts a ha l rest hrest hlt ih =>
    obtain ⟨hfits, hseen⟩ := (harg read ts h).of_ok ha
    have hleft : Fits all read a.rest.tail := hfits.tail
    rw [hrest] at hleft
    exact ih hleft (List.forall_mem_append.2 ⟨huses, hseen⟩)
  | case3 args uses ts a ha l rest hrest hlt =>
    obtain ⟨hfits, hseen⟩ := (harg read ts h).of_ok ha
    have hleft : Fits all read a.rest.tail := hfits.tail
    rw [hrest] at hleft
    exact ⟨hleft, List.forall_mem_append.2 ⟨huses, hseen⟩⟩
  | case4 args uses ts a ha l rest hrest =>
    obtain ⟨hfits, hseen⟩ := (harg read ts h).of_ok ha
    have hleft : Fits all read a.rest.tail := hfits.tail
    rw [hrest] at hleft
    exact ⟨hleft, List.forall_mem_append.2 ⟨huses, hseen⟩⟩
  | case5 args uses ts a ha rest hrest =>
    obtain ⟨hfits, hseen⟩ := (harg read ts h).of_ok ha
    exact ⟨_, hfits.lineAt_mem, rfl⟩

theorem quiet_arguments {arg : Parser Expr} (harg : arg.Quiet all endLine) : (arguments arg).Quiet all endLine := by
  intro read ts h
  refine .next (quiet_expectSymbol .lparen) h fun _ mid hmid => .look (.ite (fun _ => ?_) fun _ => ?_)
  · exact .next quiet_skip hmid fun _ _ hrest => .pure hrest
  · exact onLines_argumentsFrom harg hmid (List.forall_mem_nil _)

/-- A call of a function of the device is refused on the line of the word that it starts with. -/
theorem lined_deviceOp {arg : Parser Expr} (harg : arg.Quiet all endLine) (hline : t.line ∈ endLine :: all)
    (h : Fits all read ts) : Lined all endLine (fun _ => read) (deviceOp arg) (t :: ts) := by
  refine .step rfl (List.forall_mem_nil _) (.drop (.next (quiet_expectSymbol .dot) h fun _ mid hmid => .look ?_))
  split
  · refine .next quiet_skip hmid fun _ rest hrest => ?_
    split
    · exact .failAt _ hline
    · exact .next (quiet_arguments harg) hrest fun _ _ hleft => .ite (fun _ => .pure hleft) fun _ => .failAt _ hline
  · exact .failAt _ hline

/-- A call names the line of its word if it has too many or too few arguments. -/
theorem quiet_builtinCall {arg : Parser Expr} (harg : arg.Quiet all endLine) (word : String)
    (hline : line ∈ endLine :: all) : (builtinCall arg word line).Quiet all endLine := by
  intro read ts h
  unfold builtinCall
  split
  · exact .failAt _ hline
  · refine .next quiet_skip h fun _ mid hmid => .next (quiet_arguments harg) hmid fun _ _ hleft => ?_
    exact .ite (fun _ => .pure hleft) fun _ => .failAt _ hline

/-- A variable is reported on the line of its name. -/
theorem quiet_variableExpr (word : String) (hline : line ∈ endLine :: all) :
    (variableExpr word line).Quiet all endLine := by
  intro read ts h
  refine .next quiet_skip h fun _ mid hmid => .look (.ite (fun _ => ?_) fun _ => ?_)
  · refine .next quiet_skip hmid fun _ rest hrest => .look ?_
    split
    · refine .next quiet_skip hrest fun _ left hleft => .ite (fun _ => ?_) fun _ => .failAt _ hline
      exact .use _ _ hline fun _ => .pure hleft
    · exact .failAt _ hline
  · exact .use _ _ hline fun _ => .pure hmid

/-- The line that an expression remembers is that of its first word. -/
theorem lined_wordExpr {nested : Parser Expr} (hnested : nested.Quiet all endLine) (word : String)
    (h : Fits all read (t :: ts)) (next : List Token) :
    Lined all endLine (fun _ => read) (wordExpr nested word t.line next) (t :: ts) := by
  have hline : t.line ∈ endLine :: all := h.head_mem
  refine .ite (fun _ => .drop (.pure h.tail)) fun _ => .ite (fun _ => .drop (.pure h.tail)) fun _ =>
    .ite (fun _ => ?_) fun _ => .ite (fun _ => ?_) fun _ => .ite (fun _ => .failAt _ hline) fun _ => ?_
  · refine (lined_deviceOp hnested hline h.tail).bind fun call mid hmid => ?_
    exact .ite (fun _ => .pure hmid) fun _ => .failAt _ hline
  · exact quiet_builtinCall hnested word hline read _ h
  · exact quiet_variableExpr word hline read _ h

theorem quiet_primary {nested : Parser Expr} (hnested : nested.Quiet all endLine) :
    (primary nested).Quiet all endLine := by
  intro read ts h
  refine .look ?_
  split
  · exact .fail _ h
  · exact .drop (.pure h.tail)
  · exact .drop (.pure h.tail)
  · exact .drop (.pure h.tail)
  · refine .drop (.next hnested h.tail fun inner mid hmid => ?_)
    exact .next (quiet_expectSymbol .rparen) hmid fun _ _ hrest => .pure hrest
  · exact lined_wordExpr hnested _ h _
  · exact .fail _ h

theorem quiet_operand {inner nested : Parser Expr} (hinner : inner.Quiet all endLine)
    (hnested : nested.Quiet all endLine) : (operand inner nested).Quiet all endLine := by
  intro read ts h
  refine .look ?_
  split
  · exact .next quiet_skip h fun _ mid hmid => hinner.map _ read mid hmid
  · exact quiet_primary hnested read ts h

/-- Operands read no statement, however many levels of nesting are left. -/
theorem quiet_unary (levels : ℕ) : (unary levels).Quiet all endLine := by
  induction levels with
  | zero => exact quiet_operand quiet_tooDeep quiet_tooDeep
  | succ levels ih => exact quiet_operand ih (quiet_operators ih)

/-- **Expressions** are refused on lines of their tokens, and so are the variables in them. -/
theorem quiet_expr (levels : ℕ) : (expr levels).Quiet all endLine := by
  cases levels with
  | zero => exact quiet_tooDeep
  | succ levels => exact quiet_operators (quiet_unary levels)

/-- The lines of statements and of the statements in their blocks, in the order of the text. -/
def stmtLines (ss : List Stmt) : List UInt32 := (allStmts ss).map Stmt.line

/-- The lines of statements in a row come in a row. -/
theorem stmtLines_append (ss ss' : List Stmt) : stmtLines (ss ++ ss') = stmtLines ss ++ stmtLines ss' := by
  rw [stmtLines, allStmts_append, List.map_append, stmtLines, stmtLines]

theorem stmtLines_singleton (s : Stmt) : stmtLines [s] = s.all.map Stmt.line := by
  rw [stmtLines, allStmts, allStmts, List.append_nil]

/-- A parser of statements that start on the line of their first token. -/
def Parser.AddsFrom (all : List UInt32) (endLine : UInt32) (p : UInt32 → Parser Stmt) : Prop :=
  ∀ read t ts, Fits all read (t :: ts) → Lined all endLine (fun s => read ++ stmtLines [s]) (p t.line) (t :: ts)

/-- Blocks take over the lines of their statements. -/
theorem onLines_blockFrom {stmt : Parser (Option Stmt)} (hstmt : stmt.Adds all endLine fun s => stmtLines s.toList)
    {terminators : List String} {stmts : List Stmt} {uses : List Use} (h : Fits all (read ++ stmtLines stmts) ts)
    (huses : ∀ u ∈ uses, u.line ∈ endLine :: all) :
    OnLines all endLine (fun block => read ++ stmtLines (block.getD []))
      (blockFrom stmt terminators endLine stmts uses ts) := by
  -- what has been read of a block may be forgotten
  have hforget {rest : List Token} {stmts : List Stmt} (h : Fits all (read ++ stmtLines stmts) rest) :
      Fits all (read ++ stmtLines []) rest := by
    refine h.of_sublist ?_
    rw [stmtLines, allStmts, List.map_nil, List.append_nil]
    exact List.sublist_append_left _ _
  fun_induction blockFrom stmt terminators endLine stmts uses ts with
  | case1 => exact ⟨hforget h, huses⟩
  | case2 => exact ⟨h, huses⟩
  | case3 stmts uses t ts => exact ⟨t.line, h.head_mem, rfl⟩
  | case4 stmts uses t ts _ _ e hs =>
    exact (hstmt _ (t :: ts) h).of_error hs
  | case5 stmts uses t ts _ _ s hs hlt ih =>
    obtain ⟨hfits, hseen⟩ := (hstmt _ (t :: ts) h).of_ok hs
    have hgrown : Fits all (read ++ stmtLines (stmts ++ s.value.toList)) s.rest := by
      rw [stmtLines_append, ← List.append_assoc]
      exact hfits
    exact ih hgrown (List.forall_mem_append.2 ⟨huses, hseen⟩)
  | case6 stmts uses t ts _ _ s hs hlt =>
    obtain ⟨hfits, hseen⟩ := (hstmt _ (t :: ts) h).of_ok hs
    have hkept : Fits all (read ++ stmtLines stmts) s.rest := hfits.of_sublist (List.sublist_append_left _ _)
    exact ⟨hforget hkept, List.forall_mem_append.2 ⟨huses, hseen⟩⟩

/-- A block reads the lines of its statements. -/
theorem adds_block {stmt : Parser (Option Stmt)} (hstmt : stmt.Adds all endLine fun s => stmtLines s.toList)
    (terminators : List String) (unterminated : CompileFault) (hline : line ∈ endLine :: all) :
    (block stmt terminators line unterminated).Adds all endLine stmtLines := by
  intro read ts h
  have hempty : Fits all (read ++ stmtLines []) ts := by rwa [stmtLines, allStmts, List.map_nil, List.append_nil]
  refine Lined.bind (onLines_blockFrom hstmt hempty (List.forall_mem_nil _)) fun stmts mid hmid => ?_
  cases stmts with
  | none => exact .failAt _ hline
  | some stmts => exact .pure hmid

/-- An alternative reads the lines of its block. -/
theorem adds_arm {stmt : Parser (Option Stmt)} {cond : Parser Expr}
    (hstmt : stmt.Adds all endLine fun s => stmtLines s.toList) (hcond : cond.Quiet all endLine)
    (hline : line ∈ endLine :: all) : (arm stmt cond line).Adds all endLine fun a => stmtLines a.2 := by
  intro read ts h
  refine .next hcond h fun c mid hmid => .next (quiet_takeKeyword "THEN") hmid fun _ rest hrest => ?_
  exact (adds_block hstmt _ _ hline read rest hrest).bind fun body left hleft => .pure hleft

/-- The lines of alternatives. -/
def armLines (arms : List (Expr × List Stmt)) : List UInt32 := arms.flatMap fun arm => stmtLines arm.2

theorem armLines_cons (arm : Expr × List Stmt) (arms : List (Expr × List Stmt)) :
    armLines (arm :: arms) = stmtLines arm.2 ++ armLines arms := List.flatMap_cons

theorem armLines_append (arms : List (Expr × List Stmt)) (arm : Expr × List Stmt) :
    armLines (arms ++ [arm]) = armLines arms ++ stmtLines arm.2 := by
  rw [armLines, List.flatMap_append, List.flatMap_singleton, armLines]

/-- The lines of a conditional are those of its alternatives, and of what comes last. -/
theorem lines_ofList (last : Arms) (arms : List (Expr × List Stmt)) :
    (Arms.ofList last arms).all.map Stmt.line = armLines arms ++ last.all.map Stmt.line := by
  induction arms with
  | nil => rfl
  | cons arm arms ih =>
    rw [Arms.ofList, Arms.all, List.map_append, ih, armLines_cons, List.append_assoc, stmtLines]

/-- The alternatives of a conditional come with their lines in order, and the last block behind them. -/
theorem onLines_armsFrom {stmt : Parser (Option Stmt)} {cond : Parser Expr}
    (hstmt : stmt.Adds all endLine fun s => stmtLines s.toList) (hcond : cond.Quiet all endLine)
    (hline : line ∈ endLine :: all) {arms : List (Expr × List Stmt)} {uses : List Use}
    (h : Fits all (read ++ armLines arms) ts) (huses : ∀ u ∈ uses, u.line ∈ endLine :: all) :
    OnLines all endLine (fun a => read ++ a.all.map Stmt.line) (armsFrom stmt cond line endLine arms uses ts) := by
  fun_induction armsFrom stmt cond line endLine arms uses ts with
  | case1 => exact ⟨line, hline, rfl⟩
  | case2 arms uses t ts _ e ha =>
    exact (adds_arm hstmt hcond hline _ ts h.tail).of_error ha
  | case3 arms uses t ts _ a ha hlt ih =>
    obtain ⟨hfits, hseen⟩ := (adds_arm hstmt hcond hline _ ts h.tail).of_ok ha
    have hgrown : Fits all (read ++ armLines (arms ++ [a.value])) a.rest := by
      rw [armLines_append, ← List.append_assoc]
      exact hfits
    exact ih hgrown (List.forall_mem_append.2 ⟨huses, hseen⟩)
  | case4 => exact ⟨line, hline, rfl⟩
  | case5 arms uses t ts _ _ e hbody =>
    exact (adds_block hstmt _ _ hline _ ts h.tail).of_error hbody
  | case6 arms uses t ts _ _ body hbody =>
    obtain ⟨hfits, hseen⟩ := (adds_block hstmt _ _ hline _ ts h.tail).of_ok hbody
    have hlast : Fits all (read ++ (Arms.ofList (.otherwise body.value) arms).all.map Stmt.line) body.rest := by
      rw [lines_ofList, ← List.append_assoc]
      exact hfits
    exact ⟨hlast, List.forall_mem_append.2 ⟨huses, hseen⟩⟩
  | case7 arms uses t ts _ _ =>
    have hnone : Fits all (read ++ (Arms.ofList .none arms).all.map Stmt.line) (t :: ts) := by
      rwa [lines_ofList, Arms.all, List.map_nil, List.append_nil]
    exact ⟨hnone, huses⟩

/-- A conditional starts on its line, and the lines of its alternatives follow. -/
theorem addsFrom_conditional {stmt : Parser (Option Stmt)} {cond : Parser Expr}
    (hstmt : stmt.Adds all endLine fun s => stmtLines s.toList) (hcond : cond.Quiet all endLine) :
    Parser.AddsFrom all endLine (conditional stmt cond) := by
  intro read t ts h
  have hline : t.line ∈ endLine :: all := h.head_mem
  refine (lined_takeKeyword "IF" h).bind fun _ mid hmid =>
    (adds_arm hstmt hcond hline _ mid hmid).bind fun first rest hrest => ?_
  have hfirst : Fits all (read ++ [t.line] ++ armLines [first]) rest := by
    rw [armLines, List.flatMap_singleton]
    exact hrest
  refine Lined.bind (onLines_armsFrom hstmt hcond hline hfirst (List.forall_mem_nil _)) fun arms left hleft =>
    .next (quiet_takeKeyword "END_IF") hleft fun _ _ hend =>
      .next quiet_optionalSemicolon hend fun _ _ hafter => .pure ?_
  rw [stmtLines_singleton, Stmt.all, List.map_cons]
  rw [List.append_assoc] at hafter
  exact hafter

/-- A loop starts on its line, and the lines of its block follow. -/
theorem addsFrom_repetition {stmt : Parser (Option Stmt)} {cond : Parser Expr}
    (hstmt : stmt.Adds all endLine fun s => stmtLines s.toList) (hcond : cond.Quiet all endLine) :
    Parser.AddsFrom all endLine (repetition stmt cond) := by
  intro read t ts h
  have hline : t.line ∈ endLine :: all := h.head_mem
  refine (lined_takeKeyword "WHILE" h).bind fun _ mid hmid => .next hcond hmid fun c rest hrest =>
    .next (quiet_takeKeyword "DO") hrest fun _ left hleft =>
      (adds_block hstmt _ _ hline _ left hleft).bind fun body left hbody =>
        .next (quiet_takeKeyword "END_WHILE") hbody fun _ _ hend =>
          .next quiet_optionalSemicolon hend fun _ _ hafter => .pure ?_
  rw [stmtLines_singleton, Stmt.all, List.map_cons]
  rw [List.append_assoc] at hafter
  exact hafter

/-- An assignment is on the line of its variable. -/
theorem lined_assignment {value : Parser Expr} (hvalue : value.Quiet all endLine) (word : String)
    (h : Fits all read (t :: ts)) :
    Lined all endLine (fun s => read ++ stmtLines [s]) (assignment value word t.line) (t :: ts) := by
  have hline : t.line ∈ endLine :: all := h.head_mem
  refine .drop (.look (.ite (fun _ => ?_) fun _ => .failAt _ hline))
  refine .next quiet_skip h.take fun _ mid hmid => .use _ _ hline fun target => .next hvalue hmid fun v rest hrest =>
    .next (quiet_expectSymbol .semi) hrest fun _ _ hleft => .pure hleft

/-- A statement of any kind is on the line of its first token. -/
theorem adds_statementOf {ifs whiles : UInt32 → Parser Stmt} {value : Parser Expr}
    (hifs : Parser.AddsFrom all endLine ifs) (hwhiles : Parser.AddsFrom all endLine whiles)
    (hvalue : value.Quiet all endLine) :
    (statementOf ifs whiles value).Adds all endLine fun s => stmtLines s.toList := by
  intro read ts h
  have hnone {rest : List Token} (hrest : Fits all read rest) : Fits all (read ++ stmtLines []) rest := by
    rwa [stmtLines, allStmts, List.map_nil, List.append_nil]
  refine .look ?_
  split
  · exact .pure (hnone h)
  · exact .drop (.pure (hnone h.tail))
  · rename_i word line next
    have hline : line ∈ endLine :: all := h.head_mem
    refine .ite (fun _ => (hifs read _ _ h).bind fun s _ hs => .pure hs) fun _ =>
      .ite (fun _ => (hwhiles read _ _ h).bind fun s _ hs => .pure hs) fun _ => .ite (fun _ => ?_) fun _ =>
        .ite (fun _ => .failAt _ hline) fun _ => (lined_assignment hvalue word h).bind fun s _ hs => .pure hs
    exact (lined_deviceOp hvalue hline h.take).bind fun call mid hmid =>
      .next (quiet_expectSymbol .semi) hmid fun _ _ hrest => .pure hrest
  · exact .fail _ h

/-- **Statements** are on the line of their first token. -/
theorem adds_statement (levels : ℕ) : (statement levels).Adds all endLine fun s => stmtLines s.toList := by
  induction levels with
  | zero => exact adds_statementOf (fun _ _ _ h => .fail _ h) (fun _ _ _ h => .fail _ h) (quiet_expr 0)
  | succ levels ih =>
    exact adds_statementOf (addsFrom_conditional ih (quiet_expr levels)) (addsFrom_repetition ih (quiet_expr levels))
      (quiet_expr (levels + 1))

theorem quiet_entrySymbol (s : Symbol) (hline : line ∈ endLine :: all) : (entrySymbol line s).Quiet all endLine :=
  fun read ts h => .look (.ite (fun _ => quiet_skip read ts h) fun _ => .failAt _ hline)

theorem quiet_entryWord (hline : line ∈ endLine :: all) : (entryWord line).Quiet all endLine := by
  intro read ts h
  refine .look ?_
  split
  · exact .next quiet_skip h fun _ _ hmid => .pure hmid
  · exact .failAt _ hline

/-- The line of the name counts as read. -/
theorem lined_entryWord (h : Fits all read (t :: ts)) :
    Lined all endLine (fun _ => read ++ [t.line]) (entryWord t.line) (t :: ts) := by
  refine .look ?_
  split
  · exact .drop (.pure h.take)
  · exact .failAt _ h.head_mem

theorem quiet_initializer : initializer.Quiet all endLine := by
  intro read ts h
  refine .look (.ite (fun _ => ?_) fun _ => .pure h)
  exact .next quiet_skip h fun _ mid hmid => (quiet_expr nestingLimit).map _ read mid hmid

/-- A declaration is on the line of its name. -/
theorem lined_varEntry (h : Fits all read (t :: ts)) :
    Lined all endLine (fun d => read ++ [d.line]) (varEntry t.line) (t :: ts) := by
  have hline : t.line ∈ endLine :: all := h.head_mem
  refine (lined_entryWord h).bind fun name mid hmid => .ite (fun _ => .failAt _ hline) fun _ => ?_
  refine .next (quiet_entrySymbol .colon hline) hmid fun _ rest hrest =>
    .next (quiet_entryWord hline) hrest fun typeName left hleft => ?_
  split
  · exact .failAt _ hline
  · exact .next quiet_initializer hleft fun init _ hinit =>
      .next (quiet_entrySymbol .semi hline) hinit fun _ _ hafter => .pure hafter

/-- The declarations of a section come with their lines in order. -/
theorem onLines_varEntriesFrom (hline : line ∈ endLine :: all) {decls : List Declaration} {uses : List Use}
    (h : Fits all (read ++ decls.map Declaration.line) ts) (huses : ∀ u ∈ uses, u.line ∈ endLine :: all) :
    OnLines all endLine (fun ds => read ++ ds.map Declaration.line) (varEntriesFrom line endLine decls uses ts) := by
  -- an entry is one more declaration
  have hgrown {ds : List Declaration} {d : Declaration} {rest : List Token}
      (h : Fits all (read ++ ds.map Declaration.line ++ [d.line]) rest) :
      Fits all (read ++ (ds ++ [d]).map Declaration.line) rest := by
    rwa [List.map_append, List.map_singleton, ← List.append_assoc]
  fun_induction varEntriesFrom line endLine decls uses ts with
  | case1 => exact ⟨line, hline, rfl⟩
  | case2 decls uses t ts _ =>
    refine ⟨?_, huses⟩
    split
    · exact h.tail.tail
    · exact h.tail
  | case3 decls uses t ts _ e hd =>
    exact (lined_varEntry h).of_error hd
  | case4 decls uses t ts _ d hd hlt ih =>
    obtain ⟨hfits, hseen⟩ := (lined_varEntry h).of_ok hd
    exact ih (hgrown hfits) (List.forall_mem_append.2 ⟨huses, hseen⟩)
  | case5 decls uses t ts _ d hd hlt =>
    obtain ⟨hfits, hseen⟩ := (lined_varEntry h).of_ok hd
    exact ⟨hgrown hfits, List.forall_mem_append.2 ⟨huses, hseen⟩⟩

/-- **Declarations** are on the line of their first token. -/
theorem adds_varSection : varSection.Adds all endLine (List.map Declaration.line) := by
  intro read ts h
  refine .step rfl (List.forall_mem_nil _) (.next (quiet_takeKeyword "VAR") h fun _ mid hmid => ?_)
  have hempty : Fits all (read ++ [].map Declaration.line) mid := by rwa [List.map_nil, List.append_nil]
  exact onLines_varEntriesFrom h.lineAt_mem hempty (List.forall_mem_nil _)

/-- **The items of a text** take over the lines of its tokens, the declarations and the statements each in order. -/
theorem onLines_itemsFrom {items : Items} {uses : List Use} (hvars : Fits all (items.vars.map Declaration.line) ts)
    (hbody : Fits all (stmtLines items.body) ts) (huses : ∀ u ∈ uses, u.line ∈ endLine :: all) :
    OnLines all endLine (fun items => items.vars.map Declaration.line) (itemsFrom endLine items uses ts) ∧
      OnLines all endLine (fun items => stmtLines items.body) (itemsFrom endLine items uses ts) := by
  fun_induction itemsFrom endLine items uses ts with
  | case1 => exact ⟨⟨hvars, huses⟩, hbody, huses⟩
  | case2 items uses t ts _ e hsection =>
    have herror := (adds_varSection _ _ hvars).of_error hsection
    exact ⟨herror, herror⟩
  | case3 items uses t ts _ vars hsection hlt ih =>
    obtain ⟨hfits, hseen⟩ := (adds_varSection _ _ hvars).of_ok hsection
    obtain ⟨hkept, -⟩ := (adds_varSection.quiet _ _ hbody).of_ok hsection
    have hgrown : Fits all ((items.vars ++ vars.value).map Declaration.line) vars.rest := by
      rw [List.map_append]
      exact hfits
    exact ih hgrown hkept (List.forall_mem_append.2 ⟨huses, hseen⟩)
  | case4 items uses t ts _ vars hsection hlt =>
    -- nothing has been taken off the text, so the items stay as they were
    obtain ⟨hvars', -⟩ := (adds_varSection.quiet _ _ hvars).of_ok hsection
    obtain ⟨hbody', -⟩ := (adds_varSection.quiet _ _ hbody).of_ok hsection
    exact ⟨⟨hvars', huses⟩, hbody', huses⟩
  | case5 items uses t ts _ e hs =>
    have herror := (adds_statement _ _ _ hbody).of_error hs
    exact ⟨herror, herror⟩
  | case6 items uses t ts _ s hs hlt ih =>
    obtain ⟨hfits, hseen⟩ := (adds_statement _ _ _ hbody).of_ok hs
    obtain ⟨hkept, -⟩ := ((adds_statement _).quiet _ _ hvars).of_ok hs
    have hgrown : Fits all (stmtLines (items.body ++ s.value.toList)) s.rest := by
      rw [stmtLines_append]
      exact hfits
    exact ih hkept hgrown (List.forall_mem_append.2 ⟨huses, hseen⟩)
  | case7 items uses t ts _ s hs hlt =>
    obtain ⟨hvars', -⟩ := ((adds_statement _).quiet _ _ hvars).of_ok hs
    obtain ⟨hbody', -⟩ := ((adds_statement _).quiet _ _ hbody).of_ok hs
    exact ⟨⟨hvars', huses⟩, hbody', huses⟩

/-- All items of a text, from its first token on. -/
theorem onLines_items (ts : List Token) :
    OnLines (ts.map Token.line) (lastLine ts) (fun items => items.vars.map Declaration.line)
        (itemsFrom (lastLine ts) ⟨[], []⟩ [] ts) ∧
      OnLines (ts.map Token.line) (lastLine ts) (fun items => stmtLines items.body)
        (itemsFrom (lastLine ts) ⟨[], []⟩ [] ts) := by
  have hfits : Fits (ts.map Token.line) [] ts := List.Sublist.refl _
  exact onLines_itemsFrom hfits hfits (List.forall_mem_nil _)

/-- The checks name lines of declarations. -/
theorem line_of_checkDeclarations {seen : List String} {vars : List Declaration} {e : CompileError}
    (h : checkDeclarations seen vars = .error e) : ∃ line ∈ vars.map Declaration.line, e.line = some line := by
  fun_induction checkDeclarations seen vars with
  | case1 => cases h
  | case2 | case3 =>
    cases h
    exact ⟨_, List.mem_cons_self, rfl⟩
  | case4 seen d ds _ _ ih =>
    obtain ⟨line, hmem, hline⟩ := ih h
    exact ⟨line, List.mem_cons_of_mem _ hmem, hline⟩

/-- The checks name lines of variables. -/
theorem line_of_allDeclared {vars : List Declaration} {uses : List Use} {e : CompileError}
    (h : allDeclared vars uses = .error e) : ∃ u ∈ uses, e.line = some u.line := by
  induction uses with
  | nil => cases h
  | cons u us ih =>
    rw [allDeclared] at h
    cases hu : checkUse vars u with
    | error e' =>
      rw [hu] at h
      cases h
      refine ⟨u, List.mem_cons_self, ?_⟩
      unfold checkUse at hu
      split at hu
      · cases hu
        rfl
      · split at hu
        · cases hu
          rfl
        · cases hu
    | ok v =>
      rw [hu] at h
      obtain ⟨u', hmem, hline⟩ := ih h
      exact ⟨u', List.mem_cons_of_mem _ hmem, hline⟩

/-- **Parsing and checking** name lines of tokens, or the last line. -/
theorem line_of_compileTokens {source : String} {e : CompileError} (h : compileTokens source ts = .error e) :
    ∃ line ∈ lastLine ts :: ts.map Token.line, e.line = some line := by
  -- An error comes from reading, from a name that is declared twice, or from one that is not declared.
  obtain ⟨hvars, -⟩ := onLines_items ts
  rw [compileTokens] at h
  cases hitems : itemsFrom (lastLine ts) ⟨[], []⟩ [] ts with
  | error e' =>
    rw [hitems] at hvars h
    cases h
    exact hvars
  | ok items =>
    rw [hitems] at hvars h
    have hdecls : items.value.vars.map Declaration.line ⊆ ts.map Token.line :=
      ((List.sublist_append_left _ _).trans hvars.1).subset
    change (checkDeclarations [] items.value.vars >>= _) = _ at h
    cases hchecked : checkDeclarations [] items.value.vars with
    | error e' =>
      rw [hchecked] at h
      cases h
      obtain ⟨line, hmem, hline⟩ := line_of_checkDeclarations hchecked
      exact ⟨line, List.mem_cons_of_mem _ (hdecls hmem), hline⟩
    | ok _ =>
      rw [hchecked] at h
      change (allDeclared items.value.vars items.uses >>= _) = _ at h
      cases hdeclared : allDeclared items.value.vars items.uses with
      | error e' =>
        rw [hdeclared] at h
        cases h
        obtain ⟨u, hu, hline⟩ := line_of_allDeclared hdeclared
        exact ⟨u.line, hvars.2 u hu, hline⟩
      | ok _ =>
        rw [hdeclared] at h
        cases h

/-- **The lines of a program are lines of its tokens**, in the same order. -/
theorem lines_of_compileTokens {source : String} {p : Program} (h : compileTokens source ts = .ok p) :
    (p.vars.map Declaration.line).Sublist (ts.map Token.line) ∧
      (p.stmts.map Stmt.line).Sublist (ts.map Token.line) := by
  obtain ⟨hvars, hbody⟩ := onLines_items ts
  obtain ⟨items, hitems, h⟩ := bind_eq_ok.1 h
  obtain ⟨-, -, h⟩ := bind_eq_ok.1 h
  obtain ⟨-, -, h⟩ := bind_eq_ok.1 h
  cases h
  rw [hitems] at hvars hbody
  exact ⟨(List.sublist_append_left _ _).trans hvars.1, (List.sublist_append_left _ _).trans hbody.1⟩

/-- **The tokens of a text** are on its lines, one after the other. -/
theorem sorted_tokensFrom {cs : List Char} (h : tokensFrom line cs = .ok ts)
    (hcs : line.toNat + cs.count '\n' < UInt32.size) : (ts.map Token.line).Pairwise (· ≤ ·) := by
  fun_induction tokensFrom line cs generalizing ts with
  | case1 =>
    cases h
    exact .nil
  | case2 => cases h
  | case3 line c cs rest hle newlines hread ih =>
    have hcount : (c :: cs).count '\n' = newlines + rest.count '\n' := count_of_lexeme hread
    have hline : (line + .ofNat newlines).toNat = line.toNat + newlines := toNat_add_ofNat (by omega)
    exact ih h (by omega)
  | case4 line c cs rest hle content hread ih =>
    have hcount : (c :: cs).count '\n' = 0 + rest.count '\n' := count_of_lexeme hread
    have hrest : line.toNat + rest.count '\n' < UInt32.size := by omega
    cases hlater : tokensFrom line rest with
    | error e => rw [hlater] at h; cases h
    | ok later =>
      rw [hlater] at h
      cases h
      refine List.pairwise_cons.2 ⟨fun l hl => ?_, ih hlater hrest⟩
      obtain ⟨t, ht, hl⟩ := List.mem_map.1 hl
      have hreported : Reported (tokensFrom line rest) l := by
        rw [hlater]
        exact ⟨t, ht, hl⟩
      exact UInt32.le_iff_toNat_le.2 (bounds_of_reported hreported hrest).1
  | case5 line c cs item rest hread hle => exact absurd (length_le_of_lexeme hread) hle

/-- A text without tokens is refused on some line. -/
theorem line_of_tokensFrom {cs : List Char} {e : CompileError} (h : tokensFrom line cs = .error e) :
    ∃ l, e.line = some l := by
  fun_induction tokensFrom line cs with
  | case1 => cases h
  | case2 line =>
    cases h
    exact ⟨line, rfl⟩
  | case3 line c cs rest hle newlines hread ih => exact ih h
  | case4 line c cs rest hle content hread ih =>
    cases hlater : tokensFrom line rest with
    | error e' =>
      rw [hlater] at h
      cases h
      exact ih hlater
    | ok later => rw [hlater] at h; cases h
  | case5 line c cs item rest hread hle => exact absurd (length_le_of_lexeme hread) hle

/-- The tokens end on a line of a token, or on the first line if there is none. -/
theorem isLine_lastLine {source : String} (h : ∀ t ∈ ts, IsLine source t.line) : IsLine source (lastLine ts) := by
  rw [lastLine]
  cases hlast : ts.getLast? with
  | none => exact ⟨Nat.le_refl _, Nat.le_add_right _ _⟩
  | some t => exact h t (List.mem_of_getLast? hlast)

/-- **Every line that the compiler names is a line of the text.** A text that is refused is refused on a line, be it
for its characters, its grammar or its variables, and that is one of its lines. So are the lines of the declarations and
statements of a program, and its statements are in the order of their lines: a header, then its blocks from the first
to the last, then what follows it. Lines are counted in 32 bits, so the text has fewer than `2 ^ 32 - 1` line feeds. -/
theorem lines_exist (source : String) :
    (∀ e, compile source = .error e → ∃ line, e.line = some line ∧ (LinesFit source → IsLine source line)) ∧
      ∀ p, compile source = .ok p → LinesFit source →
        (∀ d ∈ p.vars, IsLine source d.line) ∧
          (∀ block, p.Block block → ∀ s ∈ block, IsLine source s.line) ∧
          (p.stmts.map Stmt.line).Pairwise (· ≤ ·) := by
  have htokenize {ts : List Token} (h : tokenize source = .ok ts) (hsource : LinesFit source) :
      ∀ line ∈ ts.map Token.line, IsLine source line :=
    List.forall_mem_map.2 fun t ht => isLine_of_reported hsource (by rw [h]; exact ⟨t, ht, rfl⟩)
  refine ⟨fun e he => ?_, fun p hp hsource => ?_⟩
  -- The tokenizer fails on a line that it has counted, and the compiler on the line of a token or on the last one.
  · cases hts : tokenize source with
    | error e' =>
      rw [compile, hts] at he
      cases he
      obtain ⟨line, hline⟩ := line_of_tokensFrom hts
      exact ⟨line, hline, fun hsource => isLine_of_reported hsource (by rw [hts]; exact hline)⟩
    | ok ts =>
      rw [compile, hts] at he
      obtain ⟨line, hmem, hline⟩ := line_of_compileTokens he
      refine ⟨line, hline, fun hsource => ?_⟩
      rcases List.mem_cons.1 hmem with rfl | hmem
      · exact isLine_lastLine (List.forall_mem_map.1 (htokenize hts hsource))
      · exact htokenize hts hsource line hmem
  · obtain ⟨ts, hts, htokens⟩ := bind_eq_ok.1 hp
    have hlines := htokenize hts hsource
    obtain ⟨hvars, hstmts⟩ := lines_of_compileTokens htokens
    refine ⟨fun d hd => ?_, fun block hblock s hs => ?_, (sorted_tokensFrom hts hsource).sublist hstmts⟩
    · exact hlines d.line (hvars.subset (List.mem_map_of_mem hd))
    · exact hlines s.line (hstmts.subset (List.mem_map_of_mem (mem_stmts_iff.2 ⟨block, hblock, hs⟩)))

/-- A text with a variable that nobody declares, on its fourth line. -/
def strayName : String := "VAR\n  x : INT;\nEND_VAR\ny := 1;\n"

/-- A text with a block. -/
def guardedLater : String := "VAR x : INT; END_VAR\nIF x > 0 THEN\n  x := 1;\nEND_IF;\nx := 2;\n"

/-- A name without a declaration, and a program with a block. -/
theorem lines_exist_undeclared :
    LinesFit strayName ∧ LinesFit guardedLater ∧
      (∃ e, compile strayName = .error e ∧ e.line = some 4 ∧ IsLine strayName 4) ∧
      ∃ p, compile guardedLater = .ok p ∧ p.stmts.map Stmt.line = [2, 3, 5] ∧
        ([2, 3, 5] : List UInt32).Pairwise (· ≤ ·) := by
  refine ⟨by decide, by decide, ?_, ?_⟩
  · have hfault : (compile strayName).map (fun _ => ()) = .error ⟨.undeclared "y", some 4⟩ := by decide +kernel
    cases he : compile strayName with
    | ok p =>
      rw [he] at hfault
      cases hfault
    | error e =>
      rw [he] at hfault
      cases hfault
      obtain ⟨line, hsome, hbounds⟩ := (lines_exist _).1 _ he
      obtain rfl : 4 = line := Option.some.inj hsome
      exact ⟨_, rfl, rfl, hbounds (by decide)⟩
  · have hline : (compile guardedLater).toOption.any
        (fun p => p.stmts.map Stmt.line == [2, 3, 5]) = true := by decide +kernel
    obtain ⟨p, hp, hlines⟩ := (Option.any_eq_true _ _).1 hline
    have hp : compile guardedLater = .ok p := eq_ok_of_toOption hp
    have hlines : p.stmts.map Stmt.line = [2, 3, 5] := eq_of_beq hlines
    obtain ⟨-, -, hsorted⟩ := (lines_exist _).2 p hp (by decide)
    exact ⟨p, hp, hlines, hlines ▸ hsorted⟩

end Switchyard.Script
