import Switchyard.Proofs.Script.Consumption
import Switchyard.Proofs.Script.Cursor

/-!
# Readers and parsers

Whatever a reader comes to is what its parser comes to (`Agrees`), production by production: the same value or error,
the tokens that are left, and the variables that were seen. The levels that a parser is given are those that the nesting
of the cursor leaves (`Tracks`). So a text that is read with a cursor, if nothing is cut off, gives what `compile` gives
(`eq_compile`).

* `Cursor.Reaches`: from one cursor to another one, past some tokens.
* `Agrees`, `Reader.Tracks`: a result is that of a parser.
-/

namespace Switchyard.Script

open Switchyard.Script.Parser (peek lineAt)

/-- A cursor has moved up to the rest of the tokens and has collected some variables on the way. -/
structure Cursor.Reaches (tokens : List Token) (c : Cursor) (uses : List Use) (rest : List Token) (c' : Cursor) :
    Prop where
  rest : tokens.drop c'.position = rest
  forward : c.position ≤ c'.position
  depth : c'.depth = c.depth
  uses : c'.uses = c.uses ++ uses

/-- **What a reader comes to is what a parser comes to**: the same value or error, and the cursor is where the rest of
the tokens begins. -/
inductive Agrees {α : Type} (tokens : List Token) (c : Cursor) :
    Except CompileError (α × Cursor) → Except CompileError (Parsed α) → Prop
  | error (e : CompileError) : Agrees tokens c (.error e) (.error e)
  | ok {a : α} {uses : List Use} {rest : List Token} {c' : Cursor} (h : c.Reaches tokens uses rest c') :
    Agrees tokens c (.ok (a, c')) (.ok ⟨a, uses, rest⟩)

namespace Reader

variable {α β : Type} {levels : ℕ} {tokens : List Token} {c c' c'' : Cursor}

/-- What the reader comes to at a cursor, if it is not cut off, is what the parser comes to. -/
def TracksAt (tokens : List Token) (c : Cursor) (m : Reader α) (p : Parser α) : Prop :=
  ∀ result, m tokens c = some result → Agrees tokens c result (p (lastLine tokens) (tokens.drop c.position))

/-- **A reader that agrees with a parser** at every cursor with so many levels left. -/
def Tracks (levels : ℕ) (m : Reader α) (p : Parser α) : Prop :=
  ∀ tokens c, nestingLimit - c.depth = levels → TracksAt tokens c m p

end Reader

theorem Cursor.Reaches.refl (tokens : List Token) (c : Cursor) : c.Reaches tokens [] (tokens.drop c.position) c :=
  ⟨rfl, Nat.le_refl _, rfl, (List.append_nil _).symm⟩

/-- A cursor that moves up twice collects the variables of both parts. -/
theorem Cursor.Reaches.trans {tokens mid rest : List Token} {uses more : List Use} {c c' c'' : Cursor}
    (h : c.Reaches tokens uses mid c') (h' : c'.Reaches tokens more rest c'') :
    c.Reaches tokens (uses ++ more) rest c'' :=
  ⟨h'.rest, Nat.le_trans h.forward h'.forward, h'.depth.trans h.depth, by rw [h'.uses, h.uses, List.append_assoc]⟩

/-- The cursor moves behind a token. -/
theorem Cursor.Reaches.skip {tokens ts : List Token} {t : Token} {uses : List Use} {c c' : Cursor}
    (h : c.Reaches tokens uses (t :: ts) c') : c.Reaches tokens uses ts { c' with position := c'.position + 1 } := by
  refine ⟨?_, Nat.le_succ_of_le h.forward, h.depth, h.uses⟩
  rw [← List.tail_drop, h.rest]
  rfl

/-- What agrees from a later cursor on. -/
theorem Cursor.Reaches.agrees {α : Type} {tokens ts : List Token} {uses : List Use} {c c' : Cursor}
    {result : Except CompileError (α × Cursor)} {parsed : Except CompileError (Parsed α)}
    (hc : c.Reaches tokens uses ts c') (h : Agrees tokens c' result parsed) :
    (∃ e, parsed = .error e ∧ result = .error e) ∨ ∃ a new rest c'', parsed = .ok ⟨a, new, rest⟩ ∧
      result = .ok (a, c'') ∧ c.Reaches tokens (uses ++ new) rest c'' := by
  cases h with
  | error e => exact .inl ⟨e, rfl, rfl⟩
  | ok hreaches => exact .inr ⟨_, _, _, _, rfl, rfl, hc.trans hreaches⟩

/-- A sequence. Its second part may rely on what the parser has read in the first one. -/
theorem Reader.TracksAt.andThen {α β : Type} {tokens : List Token} {c : Cursor} {m : Reader α} {p : Parser α}
    {f : α → Reader β} {g : α → Parser β} (h : TracksAt tokens c m p)
    (hf : ∀ a uses c', p (lastLine tokens) (tokens.drop c.position) = .ok ⟨a, uses, tokens.drop c'.position⟩ →
      c'.depth = c.depth → TracksAt tokens c' (f a) (g a)) : TracksAt tokens c (m >>= f) (p >>= g) := by
  intro result hresult
  change Agrees tokens c result (Parser.bind p g _ _)
  rw [Parser.bind]
  have hc := Cursor.Reaches.refl tokens c
  rcases bind_eq_some.1 hresult with ⟨e, hm, rfl⟩ | ⟨a, c₁, hm, hfa⟩
  · obtain ⟨_, hp, heq⟩ | ⟨_, _, _, _, _, heq, _⟩ := hc.agrees (h _ hm)
    · cases heq
      simp only [hp]
      exact .error e
    · cases heq
  obtain ⟨_, _, heq⟩ | ⟨_, new, _, _, hp, heq, hc₁⟩ := hc.agrees (h _ hm)
  · cases heq
  cases heq
  rw [List.nil_append] at hc₁
  obtain ⟨e, hg, rfl⟩ | ⟨b, more, left, c₂, hg, rfl, hc₂⟩ :=
    hc₁.agrees (hf a new c₁ (by rw [hp, hc₁.rest]) hc₁.depth result hfa)
  · rw [hc₁.rest] at hg
    simp only [hp, hg]
    exact .error e
  · rw [hc₁.rest] at hg
    simp only [hp, hg]
    exact .ok hc₂

namespace Reader.Tracks

variable {α β : Type} {levels : ℕ} {m m' : Reader α} {p p' : Parser α}

theorem pure (a : α) : Tracks levels (Pure.pure a) (Pure.pure a) := by
  rintro tokens c - result ⟨⟩
  exact .ok (.refl tokens c)

theorem failAt (line : UInt32) (fault : CompileFault) :
    Tracks levels (failAt line fault : Reader α) (Parser.failAt line fault) := by
  rintro tokens c - result ⟨⟩
  exact .error _

theorem fail (fault : Option TokenContent → CompileFault) :
    Tracks levels (fail fault : Reader α) (Parser.fail fault) := by
  rintro tokens c - result ⟨⟩
  exact .error _

/-- Both sides of a branch agree, each under its condition. -/
theorem ite {b : Prop} [Decidable b] (h : b → Tracks levels m p) (h' : ¬ b → Tracks levels m' p') :
    Tracks levels (if b then m else m') (if b then p else p') := by
  split
  · exact h ‹b›
  · exact h' ‹¬ b›

/-- What comes first in a sequence is what the parser reads. -/
theorem first {f : α → Reader β} {tokens ts : List Token} {uses : List Use} {c c' : Cursor}
    {result : Except CompileError (β × Cursor)} (h : Tracks levels m p) (hlevels : nestingLimit - c.depth = levels)
    (hc : c.Reaches tokens uses ts c') (hresult : (m >>= f) tokens c' = some result) :
    (∃ e, p (lastLine tokens) ts = .error e ∧ result = .error e) ∨
      ∃ a new rest c₁, p (lastLine tokens) ts = .ok ⟨a, new, rest⟩ ∧ rest.length ≤ ts.length ∧
        c.Reaches tokens (uses ++ new) rest c₁ ∧ f a tokens c₁ = some result := by
  have hdepth : nestingLimit - c'.depth = levels := by rw [hc.depth, hlevels]
  rw [← hc.rest]
  rcases bind_eq_some.1 hresult with ⟨e, hm, rfl⟩ | ⟨a, c₁, hm, hf⟩
  · have hagrees := h tokens c' hdepth _ hm
    generalize p (lastLine tokens) (tokens.drop c'.position) = parsed at hagrees ⊢
    cases hagrees
    exact .inl ⟨e, rfl, rfl⟩
  · have hagrees := h tokens c' hdepth _ hm
    generalize p (lastLine tokens) (tokens.drop c'.position) = parsed at hagrees ⊢
    cases hagrees with
    | ok hreaches =>
      refine .inr ⟨a, _, _, c₁, rfl, ?_, hc.trans hreaches, hf⟩
      rw [← hreaches.rest, List.length_drop, List.length_drop]
      exact Nat.sub_le_sub_left hreaches.forward _

/-- Readers and parsers in a row agree, as the second ones go on from the same place with the same value. -/
theorem bind {f : α → Reader β} {g : α → Parser β} (h : Tracks levels m p) (hf : ∀ a, Tracks levels (f a) (g a)) :
    Tracks levels (m >>= f) (p >>= g) := fun tokens c hlevels =>
  (h tokens c hlevels).andThen fun a _ c' _ hdepth => hf a tokens c' (by rw [hdepth, hlevels])

theorem map {f : α → β} (h : Tracks levels m p) : Tracks levels (f <$> m) (f <$> p) := h.bind fun a => .pure (f a)

/-- Both look at the tokens ahead. -/
theorem look {f : List Token → Reader β} {g : List Token → Parser β} (h : ∀ ts, Tracks levels (f ts) (g ts)) :
    Tracks levels (ahead >>= f) (Parser.remaining >>= g) := by
  refine bind ?_ h
  rintro tokens c - result ⟨⟩
  exact .ok (.refl tokens c)

/-- The cursor is on the line on which the rest of the tokens starts. -/
theorem lineHere : Tracks levels lineHere Parser.lineHere := by
  rintro tokens c - result ⟨⟩
  exact .ok (.refl tokens c)

/-- A cursor that moves on by a token leaves the tail of the rest. -/
theorem skip : Tracks levels skip Parser.skip := by
  rintro tokens c - result ⟨⟩
  exact .ok ⟨List.tail_drop.symm, Nat.le_succ _, rfl, (List.append_nil _).symm⟩

/-- A variable that the cursor collects is one that the parser reports. -/
theorem use (written : String) (line : UInt32) (stepTime : Bool) :
    Tracks levels (use written line stepTime) (Parser.use written line stepTime) := by
  rintro tokens c - result ⟨⟩
  exact .ok ⟨rfl, Nat.le_refl _, rfl, rfl⟩

/-- One level deeper. -/
theorem nested (h : Tracks levels m p) : Tracks (levels + 1) (nested m) p := by
  intro tokens c hlevels result hresult
  unfold Reader.nested at hresult
  rw [if_neg (by omega)] at hresult
  cases hm : m tokens { c with depth := c.depth + 1 } with
  | none => rw [hm] at hresult; cases hresult
  | some inner =>
    have hagrees := h tokens _ (by simp only []; omega) inner hm
    simp only [] at hagrees
    rw [hm] at hresult
    generalize p (lastLine tokens) (tokens.drop c.position) = parsed at hagrees
    cases hagrees with
    | error e =>
      cases hresult
      exact .error e
    | ok hreaches =>
      cases hresult
      refine .ok ⟨hreaches.rest, hreaches.forward, ?_, hreaches.uses⟩
      simp [hreaches.depth]

/-- No level is left. -/
theorem tooDeep (m : Reader α) : Tracks 0 (Reader.nested m) tooDeep := by
  intro tokens c hlevels result hresult
  unfold Reader.nested at hresult
  rw [if_pos (by omega)] at hresult
  exact fail _ tokens c hlevels result hresult

end Reader.Tracks

namespace Reader

section Expressions

variable {α β : Type} {levels rounds : ℕ} {arg inside inner operand : Reader Expr}
  {arg' inside' inner' operand' : Parser Expr}
variable {tokens ts : List Token} {c c' : Cursor} {uses : List Use}

theorem tracks_expectSymbol (s : Symbol) : Tracks levels (expectSymbol s) (Script.expectSymbol s) :=
  .look fun _ => .ite (fun _ => .skip) fun _ => .fail _

theorem tracks_takeKeyword (keyword : String) : Tracks levels (takeKeyword keyword) (Script.takeKeyword keyword) :=
  .look fun _ => .ite (fun _ => .skip) fun _ => .fail _

theorem tracks_optionalSemicolon : Tracks levels optionalSemicolon Script.optionalSemicolon :=
  .look fun _ => .ite (fun _ => .skip) fun _ => .pure ()

theorem tracks_binary (op : BinaryOp) (lhs rhs : Expr) :
    Tracks levels (binary op lhs rhs) (Script.binary op lhs rhs) := .ite (fun _ => .fail _) fun _ => .pure _

/-- Links of a chain are read in the same order. -/
theorem agrees_links {operator : OperatorAt} (hnil : operator [] = none) (h : Tracks levels operand operand')
    {lhs : Expr} {result : Except CompileError (Expr × Cursor)} (hlevels : nestingLimit - c.depth = levels)
    (hc : c.Reaches tokens uses ts c')
    (hresult : loop (link operator operand) rounds lhs tokens c' = some result) :
    Agrees tokens c result (chainFrom operator operand' (lastLine tokens) lhs uses ts) := by
  induction rounds generalizing lhs c' uses ts with
  | zero => cases hresult
  | succ rounds ih =>
    rw [loop_succ, link, bind_assoc, ahead_bind, hc.rest] at hresult
    cases hop : operator ts with
    | none =>
      rw [hop] at hresult
      cases hresult
      cases ts with
      | nil =>
        rw [chainFrom]
        exact .ok hc
      | cons t ts =>
        rw [chainFrom, hop]
        exact .ok hc
    | some op =>
      cases ts with
      | nil =>
        -- no operator stands at the end
        rw [hnil] at hop
        cases hop
      | cons t ts =>
        rw [hop] at hresult
        simp only [bind_assoc, map_eq_pure_bind, pure_bind, Sum.elim_inl] at hresult
        rw [skip_bind] at hresult
        rw [chainFrom, hop]
        obtain ⟨e, hrhs, rfl⟩ | ⟨rhs, new, rest, c₁, hrhs, hle, hc₁, hresult⟩ := h.first hlevels hc.skip hresult
        · simp only [hrhs]
          exact .error e
        simp only [hrhs, if_pos hle]
        obtain ⟨e, htree, rfl⟩ | ⟨tree, _, _, c₂, htree, -, hc₂, hresult⟩ :=
          (tracks_binary op lhs rhs).first hlevels hc₁ hresult
        · simp only [htree]
          exact .error e
        cases (binary_eq_ok htree).1
        rw [List.append_nil] at hc₂
        simp only [htree]
        exact ih hc₂ hresult

/-- The loop of the reader over a chain is the recursion of the parser. -/
theorem tracks_chain {operator : OperatorAt} (hnil : operator [] = none) (h : Tracks levels operand operand') :
    Tracks levels (chain rounds operator operand) (Script.chain operator operand') := by
  intro tokens c hlevels result hresult
  rw [Script.chain]
  obtain ⟨e, hlhs, rfl⟩ | ⟨lhs, new, rest, c₁, hlhs, -, hc₁, hresult⟩ := h.first hlevels (.refl tokens c) hresult
  · simp only [hlhs]
    exact .error e
  · simp only [hlhs]
    exact agrees_links hnil h hlevels hc₁ hresult

theorem tracks_multiplicative (h : Tracks levels operand operand') :
    Tracks levels (multiplicative rounds operand) (Script.chain multiplicativeAt operand') := tracks_chain rfl h

theorem tracks_additive (h : Tracks levels operand operand') :
    Tracks levels (additive rounds operand) (Script.chain additiveAt <| Script.chain multiplicativeAt operand') :=
  tracks_chain rfl (tracks_multiplicative h)

theorem tracks_relational (h : Tracks levels operand operand') :
    Tracks levels (relational rounds operand)
      (Script.chain relationalAt <| Script.chain additiveAt <| Script.chain multiplicativeAt operand') :=
  tracks_chain rfl (tracks_additive h)

theorem tracks_equality (h : Tracks levels operand operand') :
    Tracks levels (equality rounds operand) (Script.chain equalityAt <| Script.chain relationalAt <|
      Script.chain additiveAt <| Script.chain multiplicativeAt operand') := tracks_chain rfl (tracks_relational h)

theorem tracks_conjunction (h : Tracks levels operand operand') :
    Tracks levels (conjunction rounds operand) (Script.chain andAt <| Script.chain equalityAt <|
      Script.chain relationalAt <| Script.chain additiveAt <| Script.chain multiplicativeAt operand') :=
  tracks_chain rfl (tracks_equality h)

/-- All levels of operators agree, since each of them is a chain over the next. -/
theorem tracks_disjunction (h : Tracks levels operand operand') :
    Tracks levels (disjunction rounds operand) (operators operand') := tracks_chain rfl (tracks_conjunction h)

/-- Arguments are read in the same order. -/
theorem agrees_argumentsFrom (h : Tracks levels arg arg') {args : List Expr}
    {result : Except CompileError (List Expr × Cursor)} (hlevels : nestingLimit - c.depth = levels)
    (hc : c.Reaches tokens uses ts c') (hresult : loop (argument arg) rounds args tokens c' = some result) :
    Agrees tokens c result (argumentsFrom arg' (lastLine tokens) args uses ts) := by
  induction rounds generalizing args c' uses ts with
  | zero => cases hresult
  | succ rounds ih =>
    rw [loop_succ, argument, bind_assoc] at hresult
    rw [argumentsFrom]
    obtain ⟨e, ha, rfl⟩ | ⟨a, new, rest, c₁, ha, hle, hc₁, hresult⟩ := h.first hlevels hc hresult
    · simp only [ha]
      exact .error e
    simp only [ha]
    rw [bind_assoc, ahead_bind, hc₁.rest] at hresult
    -- Behind an argument there is a comma, the closing parenthesis, or an error.
    by_cases hcomma : atSymbol .comma rest = true
    · obtain ⟨l, after, rfl⟩ := eq_cons_of_atSymbol hcomma
      rw [if_pos hcomma, bind_assoc, skip_bind] at hresult
      have hlt : after.length < ts.length := hle
      simp only [if_pos hlt]
      exact ih hc₁.skip hresult
    by_cases hrparen : atSymbol .rparen rest = true
    · obtain ⟨l, after, rfl⟩ := eq_cons_of_atSymbol hrparen
      rw [if_neg hcomma, expectSymbol, bind_assoc, bind_assoc, ahead_bind, hc₁.rest, if_pos hrparen,
        skip_bind] at hresult
      cases hresult
      exact .ok hc₁.skip
    · rw [if_neg hcomma, expectSymbol, bind_assoc, bind_assoc, ahead_bind, hc₁.rest, if_neg hrparen, fail_bind,
        hc₁.rest] at hresult
      cases hresult
      split
      · exact absurd rfl hcomma
      · exact absurd rfl hrparen
      · exact .error _

/-- A list of arguments agrees with its recursion. -/
theorem tracks_arguments (h : Tracks levels arg arg') :
    Tracks levels (arguments rounds arg) (Script.arguments arg') := by
  refine (tracks_expectSymbol _).bind fun _ => .look fun ts =>
    .ite (fun _ => Tracks.skip.bind fun _ => .pure _) fun _ => ?_
  intro tokens c hlevels result hresult
  exact agrees_argumentsFrom h hlevels (.refl tokens c) hresult

/-- It does not matter to an error whether a token was passed by before. -/
theorem tracks_skip_failAt (line : UInt32) (fault : CompileFault) :
    Tracks levels (skip >>= fun _ => failAt line fault : Reader α) (Parser.failAt line fault) := by
  rintro tokens c - result ⟨⟩
  exact .error _

/-- Operations of the device agree, and so do the errors about their names. -/
theorem tracks_deviceCall (h : Tracks levels arg arg') :
    Tracks levels (deviceCall rounds arg) (Script.deviceOp arg') := by
  refine Tracks.lineHere.bind fun line => Tracks.skip.bind fun _ => (tracks_expectSymbol _).bind fun _ => ?_
  rw [advance_bind]
  refine .look fun ts => ?_
  rcases ts with - | ⟨⟨⟨name⟩ | _ | _ | _ | _, l⟩, ts⟩
  case cons.ident =>
    refine Tracks.skip.bind fun _ => ?_
    simp only []
    cases DeviceOp.ofName? name with
    | none => exact .failAt _ _
    | some func => exact (tracks_arguments h).bind fun args => .ite (fun _ => .pure _) fun _ => .failAt _ _
  case nil => exact .failAt _ _
  all_goals exact tracks_skip_failAt _ _

/-- Calls of built-in functions agree, and so do the errors about their arguments. -/
theorem tracks_builtinCall (h : Tracks levels arg arg') (word : String) (line : UInt32) :
    Tracks levels (builtinCall rounds arg word line) (Script.builtinCall arg' word line) := by
  unfold builtinCall Script.builtinCall
  cases Builtin.ofName? word with
  | none => exact .failAt _ _
  | some func =>
    exact Tracks.skip.bind fun _ => (tracks_arguments h).bind fun args => .ite (fun _ => .pure _) fun _ => .failAt _ _

/-- Names agree, and so do the variables that they report. -/
theorem tracks_variableExpr (word : String) (line : UInt32) :
    Tracks levels (variableExpr word line) (Script.variableExpr word line) := by
  refine Tracks.skip.bind fun _ => .look fun ts =>
    .ite (fun _ => Tracks.skip.bind fun _ => ?_) fun _ => .map (.use _ _ _)
  rw [advance_bind]
  refine .look fun ts => ?_
  rcases ts with - | ⟨⟨⟨member⟩ | _ | _ | _ | _, l⟩, ts⟩
  case cons.ident => exact Tracks.skip.bind fun _ => .ite (fun _ => .map (.use _ _ _)) fun _ => .failAt _ _
  case nil => exact .failAt _ _
  all_goals exact tracks_skip_failAt _ _

theorem tracks_wordExpr (h : Tracks levels inside inside') (word : String) (line : UInt32) (next : List Token) :
    Tracks levels (wordExpr rounds inside word line next) (Script.wordExpr inside' word line next) :=
  .ite (fun _ => Tracks.skip.bind fun _ => .pure _) fun _ =>
    .ite (fun _ => Tracks.skip.bind fun _ => .pure _) fun _ =>
      .ite (fun _ => (tracks_deviceCall h).bind fun _ => .ite (fun _ => .pure _) fun _ => .failAt _ _) fun _ =>
        .ite (fun _ => tracks_builtinCall h word line) fun _ => .ite (fun _ => .failAt _ _) fun _ =>
          tracks_variableExpr word line

/-- Operands without a sign agree, of each kind. -/
theorem tracks_primary (h : Tracks levels inside inside') :
    Tracks levels (primary rounds inside) (Script.primary inside') := by
  refine .look fun ts => ?_
  rcases ts with - | ⟨⟨⟨word⟩ | _ | _ | _ | s, l⟩, ts⟩
  case nil => exact .fail _
  case cons.ident => exact tracks_wordExpr h word l ts
  case cons.symbol =>
    cases s
    case lparen => exact Tracks.skip.bind fun _ => h.bind fun _ => (tracks_expectSymbol _).bind fun _ => .pure _
    all_goals exact .fail _
  all_goals exact Tracks.skip.bind fun _ => .pure _

/-- Operands with signs agree if what they apply to does. -/
theorem tracks_operand (h : Tracks levels inner inner') (h' : Tracks levels inside inside') :
    Tracks levels (Reader.operand rounds inner inside) (Script.operand inner' inside') := by
  refine .look fun ts => ?_
  cases unaryAt ts with
  | none => exact tracks_primary h'
  | some op => exact Tracks.skip.bind fun _ => h.map

/-- **Expressions in parentheses agree** on each level of nesting. The reader needs a call for each level. -/
theorem tracks_unary {calls : ℕ} (hlt : levels < calls) : Tracks levels (unary rounds calls) (Script.unary levels) := by
  induction calls generalizing levels with
  | zero => exact absurd hlt (Nat.not_lt_zero _)
  | succ calls ih =>
    cases levels with
    | zero => exact tracks_operand (.tooDeep _) (.tooDeep _)
    | succ levels =>
      have h := ih (Nat.lt_of_succ_lt_succ hlt)
      exact tracks_operand h.nested (tracks_disjunction h).nested

/-- **Expressions** are read alike, if the recursion goes as far as the levels that are left. -/
theorem tracks_expr {calls : ℕ} (hle : levels ≤ calls) : Tracks levels (expr rounds calls) (Script.expr levels) := by
  cases levels with
  | zero => exact .tooDeep _
  | succ levels => exact (tracks_disjunction (tracks_unary hle)).nested

end Expressions

section Statements

variable {levels rounds calls : ℕ} {stmt : Reader (Option Stmt)} {stmt' : Parser (Option Stmt)}
variable {cond value : Reader Expr} {cond' value' : Parser Expr} {tokens ts : List Token} {c c' : Cursor}
variable {uses : List Use}

/-- Statements of a block are read in the same order. -/
theorem agrees_blockFrom (h : Tracks levels stmt stmt') (hspends : ∀ t ts, SpendsAt AnyToken 1 stmt' (t :: ts))
    {terminators : List String} {stmts : List Stmt} {result : Except CompileError (Option (List Stmt) × Cursor)}
    (hlevels : nestingLimit - c.depth = levels) (hc : c.Reaches tokens uses ts c')
    (hresult : loop (blockPass stmt terminators) rounds stmts tokens c' = some result) :
    Agrees tokens c result (blockFrom stmt' terminators (lastLine tokens) stmts uses ts) := by
  induction rounds generalizing stmts c' uses ts with
  | zero => cases hresult
  | succ rounds ih =>
    rw [loop_succ, blockPass, bind_assoc, ahead_bind, hc.rest] at hresult
    cases ts with
    | nil =>
      rw [blockFrom]
      cases hresult
      exact .ok hc
    | cons t ts =>
      rw [blockFrom]
      simp only [] at hresult
      -- The block ends, or it holds a section of declarations, which is an error, or a statement.
      by_cases hend : terminators.any (atKeyword · (t :: ts)) = true
      · rw [if_pos hend] at hresult ⊢
        cases hresult
        exact .ok hc
      by_cases hvar : atKeyword "VAR" (t :: ts) = true
      · rw [if_neg hend, if_pos hvar] at hresult ⊢
        cases hresult
        exact .error _
      rw [if_neg hend, if_neg hvar] at hresult ⊢
      rw [bind_assoc] at hresult
      obtain ⟨e, hs, rfl⟩ | ⟨s, new, rest, c₁, hs, -, hc₁, hresult⟩ := h.first hlevels hc hresult
      · simp only [hs]
        exact .error e
      · have hle : rest.length ≤ ts.length := Nat.le_of_succ_le_succ (hspends t ts _ _ hs).length
        simp only [hs, if_pos hle]
        exact ih hc₁ hresult

/-- The loop of the reader over a block is the recursion of the parser, which stops unless a statement takes a token.
-/
theorem tracks_block (h : Tracks levels stmt stmt') (hspends : ∀ t ts, SpendsAt AnyToken 1 stmt' (t :: ts))
    (terminators : List String) (line : UInt32) (unterminated : CompileFault) :
    Tracks levels (block rounds stmt terminators line unterminated)
      (Script.block stmt' terminators line unterminated) := by
  refine Tracks.bind (fun tokens c hlevels result hresult => ?_) fun stmts => ?_
  · exact agrees_blockFrom h hspends hlevels (.refl tokens c) hresult
  · cases stmts with
    | none => exact .failAt _ _
    | some stmts => exact .pure _

/-- Alternatives agree if statements and conditions do. -/
theorem tracks_arm (h : Tracks levels stmt stmt') (hspends : ∀ t ts, SpendsAt AnyToken 1 stmt' (t :: ts))
    (hcond : Tracks levels cond cond') (line : UInt32) :
    Tracks levels (arm rounds stmt cond line) (Script.arm stmt' cond' line) :=
  hcond.bind fun _ => (tracks_takeKeyword _).bind fun _ => (tracks_block h hspends _ _ _).bind fun _ => .pure _

/-- What follows the alternatives. -/
def ending (arms : Arms) : Parser Arms := do
  Script.takeKeyword "END_IF"
  Script.optionalSemicolon
  pure arms

/-- The last pass over the alternatives reads what follows them. -/
theorem agrees_ending {line : UInt32} {arms : List (Expr × List Stmt)} {last : Arms}
    {result : Except CompileError (Arms × Cursor)} (hc : c.Reaches tokens uses ts c')
    (hend : atKeyword "END_IF" ts = true)
    (hresult : loop (armsPass rounds stmt cond line) (calls + 1) (arms, last) tokens c' = some result) :
    Agrees tokens c result
      (((fun _ _ => .ok ⟨Arms.ofList last arms, uses, ts⟩ : Parser Arms) >>= ending) (lastLine tokens) ts) := by
  have htracks : Tracks (nestingLimit - c'.depth) (do
      takeKeyword "END_IF"
      optionalSemicolon
      pure (Arms.ofList last arms)) (ending (Arms.ofList last arms)) :=
    (tracks_takeKeyword _).bind fun _ => tracks_optionalSemicolon.bind fun _ => .pure _
  have hagrees : Agrees tokens c' result (ending (Arms.ofList last arms) (lastLine tokens) ts) := by
    rw [← hc.rest]
    refine htracks tokens c' rfl result ?_
    rw [loop_succ, armsPass, bind_assoc, ahead_bind, hc.rest, if_neg (not_atKeyword hend (by decide)),
      if_neg (not_atKeyword hend (by decide)), if_pos hend] at hresult
    rw [takeKeyword, bind_assoc, ahead_bind, hc.rest, if_pos hend]
    simpa only [bind_assoc, pure_bind, Sum.elim_inr] using hresult
  change Agrees tokens c result (Parser.bind _ ending _ _)
  simp only [Parser.bind]
  obtain ⟨e, hending, rfl⟩ | ⟨a, more, left, c₂, hending, rfl, hc₂⟩ := hc.agrees hagrees
  · simp only [hending]
    exact .error e
  · simp only [hending]
    exact .ok hc₂

/-- Alternatives are read in the same order. -/
theorem agrees_armsFrom (h : Tracks levels stmt stmt') (hspends : ∀ t ts, SpendsAt AnyToken 1 stmt' (t :: ts))
    (hcond : Tracks levels cond cond') {passes : ℕ} {line : UInt32} {arms : List (Expr × List Stmt)}
    {result : Except CompileError (Arms × Cursor)} (hlevels : nestingLimit - c.depth = levels)
    (hc : c.Reaches tokens uses ts c') (hstops : ["ELSIF", "ELSE", "END_IF"].any (atKeyword · ts) = true)
    (hresult : loop (armsPass rounds stmt cond line) passes (arms, .none) tokens c' = some result) :
    Agrees tokens c result
      (((fun endLine ts => armsFrom stmt' cond' line endLine arms uses ts : Parser Arms) >>= ending)
      (lastLine tokens) ts) := by
  induction passes generalizing arms c' uses ts with
  | zero => cases hresult
  | succ passes ih =>
    change Agrees tokens c result (Parser.bind _ ending _ _)
    simp only [Parser.bind]
    cases ts with
    | nil => cases hstops
    | cons t ts =>
      by_cases helsif : atKeyword "ELSIF" (t :: ts) = true
      · rw [loop_succ, armsPass, bind_assoc, ahead_bind, hc.rest, if_pos helsif, bind_assoc, skip_bind,
          bind_assoc] at hresult
        rw [armsFrom, if_pos helsif]
        obtain ⟨e, ha, rfl⟩ | ⟨a, new, rest, c₁, ha, hle, hc₁, hresult⟩ :=
          (tracks_arm h hspends hcond line).first hlevels hc.skip hresult
        · simp only [ha]
          exact .error e
        simp only [ha, if_pos hle]
        exact ih hc₁ (stops_arm ha) hresult
      by_cases helse : atKeyword "ELSE" (t :: ts) = true
      · rw [loop_succ, armsPass, bind_assoc, ahead_bind, hc.rest, if_neg helsif, if_pos helse, bind_assoc, skip_bind,
          bind_assoc] at hresult
        rw [armsFrom, if_neg helsif, if_pos helse]
        obtain ⟨e, hbody, rfl⟩ | ⟨body, new, rest, c₁, hbody, -, hc₁, hresult⟩ :=
          (tracks_block h hspends _ _ _).first hlevels hc.skip hresult
        · simp only [hbody]
          exact .error e
        simp only [hbody]
        -- the reader takes one more pass for what follows
        cases passes with
        | zero => cases hresult
        | succ passes =>
          have hnext : atKeyword "END_IF" rest = true := by simpa using stops_blockFrom (block_eq_ok hbody)
          exact agrees_ending hc₁ hnext hresult
      · have hnext : atKeyword "END_IF" (t :: ts) = true := by simpa [helsif, helse] using hstops
        rw [armsFrom, if_neg helsif, if_neg helse]
        exact agrees_ending hc hnext hresult

/-- Conditionals agree if statements and conditions do. -/
theorem tracks_conditional (h : Tracks levels stmt stmt') (hspends : ∀ t ts, SpendsAt AnyToken 1 stmt' (t :: ts))
    (hcond : Tracks levels cond cond') (line : UInt32) :
    Tracks levels (conditional rounds stmt cond line) (Script.conditional stmt' cond' line) := by
  refine (tracks_takeKeyword _).bind fun _ tokens c hlevels => ?_
  refine (tracks_arm h hspends hcond line tokens c hlevels).andThen fun first uses c' hfirst hdepth => ?_
  -- the parser reads what follows the alternatives on its own
  have hsplit (alternatives : Parser Arms) : (do
      let arms ← alternatives
      Script.takeKeyword "END_IF"
      Script.optionalSemicolon
      pure (Stmt.choose line arms)) = alternatives >>= ending >>= fun arms => pure (Stmt.choose line arms) := by
    simp only [ending, bind_assoc, pure_bind]
  erw [hsplit]
  refine TracksAt.andThen (fun result hresult => ?_) fun arms _ c' _ _ => Tracks.pure _ tokens c' rfl
  exact agrees_armsFrom h hspends hcond (by rw [hdepth, hlevels]) (.refl tokens c') (stops_arm hfirst) hresult

/-- Loops agree if statements and conditions do. -/
theorem tracks_repetition (h : Tracks levels stmt stmt') (hspends : ∀ t ts, SpendsAt AnyToken 1 stmt' (t :: ts))
    (hcond : Tracks levels cond cond') (line : UInt32) :
    Tracks levels (repetition rounds stmt cond line) (Script.repetition stmt' cond' line) :=
  (tracks_takeKeyword _).bind fun _ => hcond.bind fun _ => (tracks_takeKeyword _).bind fun _ =>
    (tracks_block h hspends _ _ _).bind fun _ => (tracks_takeKeyword _).bind fun _ =>
      tracks_optionalSemicolon.bind fun _ => .pure _

/-- Assignments agree if their values do. -/
theorem tracks_assignment (h : Tracks levels value value') (word : String) (line : UInt32) :
    Tracks levels (assignment value word line) (Script.assignment value' word line) :=
  Tracks.skip.bind fun _ => .look fun _ => .ite (fun _ => Tracks.skip.bind fun _ => (Tracks.use _ _ _).bind fun _ =>
    h.bind fun _ => (tracks_expectSymbol _).bind fun _ => .pure _) fun _ => .failAt _ _

/-- Statements agree if those with blocks and the values of assignments do. -/
theorem tracks_statementOf {ifs whiles : UInt32 → Reader Stmt} {ifs' whiles' : UInt32 → Parser Stmt}
    (hifs : ∀ line, Tracks levels (nested (ifs line)) (ifs' line))
    (hwhiles : ∀ line, Tracks levels (nested (whiles line)) (whiles' line)) (h : Tracks levels value value') :
    Tracks levels (statementOf rounds ifs whiles value) (Script.statementOf ifs' whiles' value') := by
  refine .look fun ts => ?_
  rcases ts with - | ⟨⟨⟨word⟩ | _ | _ | _ | s, l⟩, ts⟩
  case nil => exact .pure _
  case cons.ident =>
    exact .ite (fun _ => (hifs l).map) fun _ => .ite (fun _ => (hwhiles l).map) fun _ =>
      .ite (fun _ => (tracks_deviceCall h).bind fun _ => (tracks_expectSymbol _).bind fun _ => .pure _) fun _ =>
        .ite (fun _ => .failAt _ _) fun _ => (tracks_assignment h word l).map
  case cons.symbol =>
    cases s
    case semi => exact Tracks.skip.bind fun _ => .pure _
    all_goals exact .fail _
  all_goals exact .fail _

/-- **Statements** are read alike, if the recursion goes deeper than the levels that are left. -/
theorem tracks_statement (hlt : levels < calls) :
    Tracks levels (statement rounds calls) (Script.statement levels) := by
  -- the reader is called once more than there are levels, to refuse the block that is too deep
  induction calls generalizing levels with
  | zero => exact absurd hlt (Nat.not_lt_zero _)
  | succ calls ih =>
    have hvalue : Tracks levels (expr rounds (calls + 1)) (Script.expr levels) := tracks_expr (Nat.le_of_lt hlt)
    cases levels with
    | zero => exact tracks_statementOf (fun _ => .tooDeep _) (fun _ => .tooDeep _) hvalue
    | succ levels =>
      have hlt := Nat.lt_of_succ_lt_succ hlt
      have hspends := spendsAt_statement programTokens_any.toStatementTokens levels
      exact tracks_statementOf
        (fun line => (tracks_conditional (ih hlt) hspends (tracks_expr (Nat.le_of_lt hlt)) line).nested)
        (fun line => (tracks_repetition (ih hlt) hspends (tracks_expr (Nat.le_of_lt hlt)) line).nested) hvalue

end Statements

section Declarations

variable {levels rounds : ℕ} {value : Reader Expr} {tokens ts : List Token} {c c' : Cursor} {uses : List Use}

theorem tracks_entrySymbol (line : UInt32) (s : Symbol) :
    Tracks levels (entrySymbol line s) (Script.entrySymbol line s) :=
  .look fun _ => .ite (fun _ => .skip) fun _ => .failAt _ _

theorem tracks_initializer (h : Tracks levels value (Script.expr nestingLimit)) :
    Tracks levels (initializer value) Script.initializer :=
  .look fun _ => .ite (fun _ => Tracks.skip.bind fun _ => h.map) fun _ => .pure _

/-- Entries agree, with the same line in each error. -/
theorem tracks_varEntry (h : Tracks levels value (Script.expr nestingLimit)) (line : UInt32) :
    Tracks levels (varEntry value line) (Script.varEntry line) := by
  unfold varEntry Script.varEntry Script.entryWord
  rw [bind_assoc]
  refine .look fun ts => ?_
  rcases ts with - | ⟨⟨⟨name⟩ | _ | _ | _ | _, l⟩, ts⟩
  case cons.ident =>
    simp only [Parser.peek, bind_assoc, pure_bind]
    by_cases htaken : isTaken name = true
    · simp only [if_pos htaken]
      rintro tokens c - result ⟨⟩
      exact .error _
    simp only [if_neg htaken]
    refine Tracks.skip.bind fun _ => (tracks_entrySymbol line .colon).bind fun _ => ?_
    rw [advance_bind]
    refine .look fun ts => ?_
    rcases ts with - | ⟨⟨⟨typeName⟩ | _ | _ | _ | _, l⟩, ts⟩
    case cons.ident =>
      simp only [bind_assoc, pure_bind]
      refine Tracks.skip.bind fun _ => ?_
      cases TypeName.ofName? typeName with
      | none => exact .failAt _ _
      | some type =>
        exact (tracks_initializer h).bind fun init => (tracks_entrySymbol line .semi).bind fun _ => .pure _
    case nil => exact .failAt _ _
    all_goals exact tracks_skip_failAt _ _
  all_goals exact .failAt _ _

/-- Declarations are read in the same order. -/
theorem agrees_varEntriesFrom (h : Tracks levels value (Script.expr nestingLimit)) {blockLine : UInt32}
    {decls : List Declaration} {result : Except CompileError (List Declaration × Cursor)}
    (hlevels : nestingLimit - c.depth = levels) (hc : c.Reaches tokens uses ts c')
    (hresult : loop (varPass value blockLine) rounds decls tokens c' = some result) :
    Agrees tokens c result (varEntriesFrom blockLine (lastLine tokens) decls uses ts) := by
  induction rounds generalizing decls c' uses ts with
  | zero => cases hresult
  | succ rounds ih =>
    rw [loop_succ, varPass, bind_assoc, ahead_bind, hc.rest] at hresult
    cases ts with
    | nil =>
      rw [varEntriesFrom]
      cases hresult
      exact .error _
    | cons t ts =>
      rw [varEntriesFrom]
      simp only [] at hresult
      -- Either the section ends here, with a semicolon or without, or there is an entry.
      by_cases hend : atKeyword "END_VAR" (t :: ts) = true
      · rw [if_pos hend, bind_assoc, skip_bind, optionalSemicolon, bind_assoc, bind_assoc, ahead_bind,
          hc.skip.rest] at hresult
        rw [if_pos hend]
        by_cases hsemi : atSymbol .semi ts = true
        · obtain ⟨l, rest, rfl⟩ := eq_cons_of_atSymbol hsemi
          rw [if_pos hsemi] at hresult ⊢
          cases hresult
          exact .ok hc.skip.skip
        · rw [if_neg hsemi] at hresult ⊢
          cases hresult
          exact .ok hc.skip
      rw [if_neg hend] at hresult ⊢
      rw [bind_assoc] at hresult
      obtain ⟨e, hd, rfl⟩ | ⟨d, new, rest, c₁, hd, -, hc₁, hresult⟩ :=
        (tracks_varEntry h t.line).first hlevels hc hresult
      · simp only [hd]
        exact .error e
      · have hle : rest.length ≤ ts.length := Nat.le_of_succ_le_succ (taken_varEntry programTokens_any hd).length
        simp only [hd, if_pos hle]
        exact ih hc₁ hresult

/-- Sections of declarations agree. -/
theorem tracks_varSection (h : Tracks levels value (Script.expr nestingLimit)) :
    Tracks levels (varSection rounds value) Script.varSection :=
  Tracks.lineHere.bind fun _ => (tracks_takeKeyword _).bind fun _ tokens c hlevels _ hresult =>
    agrees_varEntriesFrom h hlevels (.refl tokens c) hresult

end Declarations

section Programs

variable {rounds calls passes : ℕ} {tokens ts : List Token} {c c' : Cursor} {uses : List Use}

/-- Items are read in the same order. -/
theorem agrees_itemsFrom (hcalls : nestingLimit < calls) {items : Items}
    {result : Except CompileError (Items × Cursor)} (hdepth : c.depth = 0) (hc : c.Reaches tokens uses ts c')
    (hresult : itemsFrom rounds calls passes items tokens c' = some result) :
    Agrees tokens c result (Script.itemsFrom (lastLine tokens) items uses ts) := by
  have hlevels : nestingLimit - c.depth = nestingLimit := by rw [hdepth, Nat.sub_zero]
  -- The induction is on the passes that the reader may still make. The parser needs no such bound, for it goes on
  -- only with fewer tokens.
  induction passes generalizing items c' uses ts with
  | zero =>
    rw [itemsFrom, ahead_bind, hc.rest] at hresult
    cases ts with
    | nil =>
      cases hresult
      rw [Script.itemsFrom]
      exact .ok hc
    | cons t ts => cases hresult
  | succ passes ih =>
    rw [itemsFrom, ahead_bind, hc.rest] at hresult
    cases ts with
    | nil =>
      cases hresult
      rw [Script.itemsFrom]
      exact .ok hc
    | cons t ts =>
      rw [List.isEmpty_cons, if_neg Bool.false_ne_true, item, bind_assoc, ahead_bind, hc.rest] at hresult
      rw [Script.itemsFrom]
      by_cases hvar : atKeyword "VAR" (t :: ts) = true
      · rw [if_pos hvar] at hresult ⊢
        rw [bind_assoc] at hresult
        obtain ⟨e, hvars, rfl⟩ | ⟨vars, new, rest, c₁, hvars, -, hc₁, hresult⟩ :=
          (tracks_varSection (tracks_expr (Nat.le_of_lt hcalls))).first hlevels hc hresult
        · simp only [hvars]
          exact .error e
        · have hle : rest.length ≤ ts.length :=
            Nat.le_of_succ_le_succ (taken_varSection programTokens_any hvars).1.length
          simp only [hvars, if_pos hle]
          exact ih hc₁ hresult
      · rw [if_neg hvar] at hresult ⊢
        rw [bind_assoc] at hresult
        obtain ⟨e, hs, rfl⟩ | ⟨s, new, rest, c₁, hs, -, hc₁, hresult⟩ :=
          (tracks_statement hcalls).first hlevels hc hresult
        · simp only [hs]
          exact .error e
        · have hspends := spendsAt_statement programTokens_any.toStatementTokens nestingLimit t ts _ _ hs
          -- The parser goes on, as a section of declarations takes a token.
          have hle : rest.length ≤ ts.length := Nat.le_of_succ_le_succ hspends.length
          simp only [hs, if_pos hle]
          exact ih hc₁ hresult

/-- **A text read with a cursor gives what `compile` gives**, if it is read to its end. -/
theorem eq_compile {source : String} {result : Except CompileError Program} (h : compile source = some result) :
    result = Script.compile source := by
  unfold compile at h
  rw [Script.compile]
  cases htokens : tokenize source with
  | error e =>
    rw [htokens] at h
    cases h
    rfl
  | ok tokens =>
    rw [htokens] at h
    change result = compileTokens source tokens
    rw [compileTokens]
    -- The reader is given as many passes as there are tokens, and it starts where the parser starts.
    have hagrees {result : Except CompileError (Items × Cursor)}
        (hread : itemsFrom tokens.length (nestingLimit + 1) tokens.length ⟨[], []⟩ tokens ⟨0, 0, []⟩ = some result) :
        Agrees tokens ⟨0, 0, []⟩ result (Script.itemsFrom (lastLine tokens) ⟨[], []⟩ [] tokens) :=
      agrees_itemsFrom (Nat.lt_succ_self _) rfl (.refl tokens ⟨0, 0, []⟩) hread
    generalize Script.itemsFrom (lastLine tokens) ⟨[], []⟩ [] tokens = parsed at hagrees ⊢
    simp only [] at h
    split at h
    · cases h
    · rename_i e hread
      cases hagrees hread
      cases h
      rfl
    · rename_i items c hread
      cases hagrees hread with
      | ok hreaches =>
        have huses := hreaches.uses
        rw [List.nil_append] at huses
        cases h
        rw [huses]
        rfl

end Programs

end Reader

end Switchyard.Script
