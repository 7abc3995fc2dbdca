import Switchyard.Proofs.Script.Tracking

/-!
# The grammar makes progress

A production that succeeds has moved the cursor on, not past the end of the tokens, and has left the nesting as it found
it (`Advances`). So every pass of an open-ended loop that is followed by another one has used up a token, and no loop
makes more passes than there are tokens (`advancesAt_loop`); the recursion ends because each call beyond the nesting
limit is refused. Nothing is ever cut off then, and a text read with a cursor gives what `compile` gives
(`grammar_progresses`).

* `Cursor.Advanced`: a cursor has moved on.
* `Reader.AdvancesAt`, `Reader.Advances`: a reader comes to a result and has moved the cursor on.
* `Production`: the productions of the grammar.
-/

namespace Switchyard.Script

open Switchyard.Script.Parser (peek lineAt)

/-- **A cursor has moved on** by at least so many tokens, and not past the end of the tokens. The nesting is what it
was, and variables have only been added. -/
structure Cursor.Advanced (tokens : List Token) (least : ℕ) (c c' : Cursor) : Prop where
  moved : c.position + least ≤ c'.position
  inside : c'.position ≤ max c.position tokens.length
  depth : c'.depth = c.depth
  uses : c.uses <+: c'.uses

/-- There are enough rounds for the tokens ahead, and enough calls for the levels that the nesting leaves. -/
structure Cursor.Room (rounds calls : ℕ) (tokens : List Token) (c : Cursor) : Prop where
  rounds : tokens.length - c.position ≤ rounds
  calls : nestingLimit - c.depth < calls

namespace Cursor

variable {tokens : List Token} {m n rounds calls : ℕ} {c c' c'' : Cursor}

theorem Advanced.refl (tokens : List Token) (c : Cursor) : c.Advanced tokens 0 c :=
  ⟨Nat.le_refl _, Nat.le_max_left _ _, rfl, List.prefix_refl _⟩

/-- Two moves in a row are a move by both distances. -/
theorem Advanced.trans (h : c.Advanced tokens m c') (h' : c'.Advanced tokens n c'') :
    c.Advanced tokens (m + n) c'' := by
  refine ⟨?_, ?_, h'.depth.trans h.depth, h.uses.trans h'.uses⟩
  · have := h.moved
    have := h'.moved
    omega
  · have := h.inside
    have := h'.inside
    omega

theorem Advanced.least (h : c.Advanced tokens m c') (hle : n ≤ m) : c.Advanced tokens n c' :=
  ⟨Nat.le_trans (Nat.add_le_add_left hle _) h.moved, h.inside, h.depth, h.uses⟩

/-- Where there was room before a move, there is room after it. -/
theorem Room.advance (h : c.Room rounds calls tokens) (hadvanced : c.Advanced tokens n c') :
    c'.Room rounds calls tokens := by
  refine ⟨?_, by rw [hadvanced.depth]; exact h.calls⟩
  have := h.rounds
  have := hadvanced.moved
  omega

/-- A token that was used up leaves a round to spare. -/
theorem Room.spare (h : c.Room rounds calls tokens) (hadvanced : c.Advanced tokens 1 c') :
    tokens.length - c'.position < rounds := by
  have := h.rounds
  have := hadvanced.moved
  have := hadvanced.inside
  omega

end Cursor

namespace Reader

variable {α β σ : Type} {tokens ts : List Token} {m n rounds calls : ℕ} {c c' : Cursor}

/-- At this cursor the reader comes to a result, and if it succeeds, it has moved on by at least so many tokens. -/
def AdvancesAt (tokens : List Token) (c : Cursor) (least : ℕ) (r : Reader α) : Prop :=
  ∃ result, r tokens c = some result ∧ ∀ a c', result = .ok (a, c') → c.Advanced tokens least c'

/-- **A reader makes progress** at every cursor at which there is room for it. -/
def Advances (rounds calls least : ℕ) (r : Reader α) : Prop :=
  ∀ tokens c, c.Room rounds calls tokens → AdvancesAt tokens c least r

namespace AdvancesAt

variable {r r' : Reader α} {f : α → Reader β}

theorem pure (a : α) : AdvancesAt tokens c 0 (Pure.pure a) := by
  refine ⟨_, rfl, fun b c' h => ?_⟩
  cases h
  exact .refl tokens c

/-- An error is a result, and there is nothing to show about the cursor. -/
theorem error {e : CompileError} (h : r tokens c = some (.error e)) : AdvancesAt tokens c n r :=
  ⟨_, h, fun _ _ h => nomatch h⟩

theorem failAt (line : UInt32) (fault : CompileFault) : AdvancesAt tokens c n (failAt line fault : Reader α) :=
  .error rfl

theorem fail (fault : Option TokenContent → CompileFault) : AdvancesAt tokens c n (fail fault : Reader α) := .error rfl

theorem least (h : AdvancesAt tokens c m r) (hle : n ≤ m) : AdvancesAt tokens c n r := by
  obtain ⟨result, hr, hresult⟩ := h
  exact ⟨result, hr, fun a c' heq => (hresult a c' heq).least hle⟩

/-- Two readers in a row move the cursor by both distances. The second one starts where the first one has come to. -/
theorem bind (h : AdvancesAt tokens c m r) (hf : ∀ a c', c.Advanced tokens m c' → AdvancesAt tokens c' n (f a)) :
    AdvancesAt tokens c (m + n) (r >>= f) := by
  obtain ⟨result, hr, hresult⟩ := h
  cases result with
  | error e => exact .error (bind_eq_some.2 (.inl ⟨e, hr, rfl⟩))
  | ok a =>
    have hadvanced := hresult a.1 a.2 rfl
    obtain ⟨result', hf', hresult'⟩ := hf a.1 a.2 hadvanced
    exact ⟨result', bind_eq_some.2 (.inr ⟨a.1, a.2, hr, hf'⟩), fun b c' heq => hadvanced.trans (hresult' b c' heq)⟩

/-- A sequence has moved on by what its first part has moved on. -/
theorem first (h : AdvancesAt tokens c m r) (hf : ∀ a c', c.Advanced tokens m c' → AdvancesAt tokens c' 0 (f a)) :
    AdvancesAt tokens c m (r >>= f) := h.bind hf

/-- A sequence has moved on by what its second part has moved on. -/
theorem next (h : AdvancesAt tokens c m r) (hf : ∀ a c', c.Advanced tokens m c' → AdvancesAt tokens c' n (f a)) :
    AdvancesAt tokens c n (r >>= f) := (h.bind hf).least (Nat.le_add_left n m)

theorem map {g : α → β} (h : AdvancesAt tokens c m r) : AdvancesAt tokens c m (g <$> r) :=
  h.first fun a _ _ => .pure (g a)

/-- Both sides of a branch make progress, each under its condition. -/
theorem ite {b : Prop} [Decidable b] (h : b → AdvancesAt tokens c m r) (h' : ¬ b → AdvancesAt tokens c m r') :
    AdvancesAt tokens c m (if b then r else r') := by
  split
  · exact h ‹b›
  · exact h' ‹¬ b›

/-- A look at the tokens ahead. -/
theorem look {f : List Token → Reader β} (h : AdvancesAt tokens c n (f (tokens.drop c.position))) :
    AdvancesAt tokens c n (ahead >>= f) := h

/-- Looking for the line moves nothing. -/
theorem here {f : UInt32 → Reader β}
    (h : AdvancesAt tokens c n (f (lineAt (lastLine tokens) (tokens.drop c.position)))) :
    AdvancesAt tokens c n (lineHere >>= f) := h

/-- A variable is noted down without a move. -/
theorem use (written : String) (line : UInt32) (stepTime : Bool) :
    AdvancesAt tokens c 0 (use written line stepTime) := by
  refine ⟨_, rfl, fun b c' h => ?_⟩
  cases h
  exact ⟨Nat.le_refl _, Nat.le_max_left _ _, rfl, List.prefix_append _ _⟩

/-- There is a token to move behind. -/
theorem skip (h : tokens.drop c.position ≠ []) : AdvancesAt tokens c 1 skip := by
  refine ⟨_, rfl, fun b c' h' => ?_⟩
  cases h'
  have hlt : c.position < tokens.length := Nat.lt_of_not_le fun hle => h (List.drop_eq_nil_of_le hle)
  exact ⟨Nat.le_refl _, Nat.le_trans hlt (Nat.le_max_right _ _), rfl, List.prefix_refl _⟩

end AdvancesAt

/-- One level deeper there is room for one call less. -/
theorem Advances.nested {r : Reader α} (h : Advances rounds calls n r) : Advances rounds (calls + 1) n (nested r) := by
  intro tokens c hroom
  by_cases hdeep : nestingLimit ≤ c.depth
  · refine .error (e := ⟨.nestedTooDeeply, some (lineAt (lastLine tokens) (tokens.drop c.position))⟩) ?_
    unfold Reader.nested
    rw [if_pos hdeep]
    rfl
  have hinner : Cursor.Room rounds calls tokens { c with depth := c.depth + 1 } := by
    refine ⟨hroom.rounds, ?_⟩
    have := hroom.calls
    simp only []
    omega
  obtain ⟨result, hr, hresult⟩ := h tokens _ hinner
  unfold AdvancesAt Reader.nested
  rw [if_neg hdeep, hr]
  cases result with
  | error e => exact ⟨_, rfl, fun _ _ h => nomatch h⟩
  | ok a =>
    have hadvanced := hresult a.1 a.2 rfl
    refine ⟨_, rfl, fun b c' heq => ?_⟩
    cases heq
    refine ⟨hadvanced.moved, hadvanced.inside, ?_, hadvanced.uses⟩
    simp [hadvanced.depth]

/-- A pass of a loop comes to a result, and if the loop goes on, a token has been used up. -/
def GoesOn (tokens : List Token) (c : Cursor) (pass : Reader (σ ⊕ β)) : Prop :=
  ∃ result, pass tokens c = some result ∧ ∀ next c', result = .ok (next, c') →
    c.Advanced tokens 0 c' ∧ ∀ s, next = .inl s → c.Advanced tokens 1 c'

/-- A pass that ends the loop needs no token. -/
theorem GoesOn.stop (b : β) : GoesOn tokens c (pure (.inr b) : Reader (σ ⊕ β)) := by
  refine ⟨_, rfl, fun next c' h => ?_⟩
  cases h
  exact ⟨.refl tokens c, fun s hs => nomatch hs⟩

/-- A look ahead before a pass moves nothing. -/
theorem GoesOn.look {f : List Token → Reader (σ ⊕ β)} (h : GoesOn tokens c (f (tokens.drop c.position))) :
    GoesOn tokens c (ahead >>= f) := h

/-- A pass that makes progress in any case lets the loop go on. -/
theorem AdvancesAt.goesOn {pass : Reader (σ ⊕ β)} (h : AdvancesAt tokens c 1 pass) : GoesOn tokens c pass := by
  obtain ⟨result, hr, hresult⟩ := h
  exact ⟨result, hr, fun next c' heq =>
    ⟨(hresult next c' heq).least (Nat.zero_le 1), fun _ _ => hresult next c' heq⟩⟩

/-- **A loop ends** within any number of rounds that exceeds the tokens ahead, if each pass that is followed by another
one uses up a token. -/
theorem advancesAt_loop {pass : σ → Reader (σ ⊕ β)}
    (hpass : ∀ s c', c.Advanced tokens 0 c' → GoesOn tokens c' (pass s)) (s : σ) {passes : ℕ}
    (hlt : tokens.length - c.position < passes) : AdvancesAt tokens c 0 (loop pass passes s) := by
  -- on the passes that are left, which stay more than the tokens ahead
  induction passes generalizing s c with
  | zero => exact absurd hlt (Nat.not_lt_zero _)
  | succ passes ih =>
    obtain ⟨result, hr, hresult⟩ := hpass s c (.refl tokens c)
    cases result with
    | error e =>
      refine .error (e := e) ?_
      rw [loop_succ]
      exact bind_eq_some.2 (.inl ⟨e, hr, rfl⟩)
    | ok a =>
      obtain ⟨next, c'⟩ := a
      obtain ⟨hadvanced, honward⟩ := hresult next c' rfl
      have hnext : loop pass (passes + 1) s tokens c = Sum.elim (loop pass passes) pure next tokens c' := by
        rw [loop_succ]
        change Reader.bind _ _ tokens c = _
        rw [Reader.bind, hr]
      cases next with
      | inl s' =>
        have hmoved := honward s' rfl
        have hfewer : tokens.length - c'.position < passes := by
          have := hmoved.moved
          have := hmoved.inside
          omega
        obtain ⟨result, hr', hresult'⟩ := ih (fun s c'' h => hpass s c'' (hadvanced.trans h)) s' hfewer
        exact ⟨result, hnext.trans hr', fun b c'' heq => hadvanced.trans (hresult' b c'' heq)⟩
      | inr b =>
        refine ⟨.ok (b, c'), hnext, fun b' c'' heq => ?_⟩
        cases heq
        exact hadvanced

section Expressions

variable {arg inside inner operand : Reader Expr}

/-- A symbol ahead is a token. -/
theorem ne_nil_of_atSymbol {s : Symbol} (h : atSymbol s ts = true) : ts ≠ [] := by
  rintro rfl
  cases h

/-- A keyword ahead is a token. -/
theorem ne_nil_of_atKeyword {keyword : String} (h : atKeyword keyword ts = true) : ts ≠ [] := by
  rintro rfl
  cases h

/-- An expected symbol is passed by, or else it is an error. -/
theorem advancesAt_expectSymbol (s : Symbol) : AdvancesAt tokens c 1 (expectSymbol s) :=
  .look (.ite (fun hat => .skip (ne_nil_of_atSymbol hat)) fun _ => .fail _)

/-- An expected keyword is passed by, or else it is an error. -/
theorem advancesAt_takeKeyword (keyword : String) : AdvancesAt tokens c 1 (takeKeyword keyword) :=
  .look (.ite (fun hat => .skip (ne_nil_of_atKeyword hat)) fun _ => .fail _)

/-- A semicolon that may be missing is no obstacle. -/
theorem advancesAt_optionalSemicolon : AdvancesAt tokens c 0 optionalSemicolon :=
  .look (.ite (fun hat => (AdvancesAt.skip (ne_nil_of_atSymbol hat)).least (Nat.zero_le 1)) fun _ => .pure ())

/-- Two operands are put together without a move. -/
theorem advancesAt_binary (op : BinaryOp) (lhs rhs : Expr) : AdvancesAt tokens c 0 (binary op lhs rhs) :=
  .ite (fun _ => .fail _) fun _ => .pure _

/-- A link of a chain passes by its operator before it reads the next operand. -/
theorem goesOn_link {operator : OperatorAt} (hnil : operator [] = none) (h : Advances rounds calls 1 operand)
    (hroom : c.Room rounds calls tokens) (lhs : Expr) : GoesOn tokens c (link operator operand lhs) := by
  refine .look ?_
  cases hop : operator (tokens.drop c.position) with
  | none => exact .stop lhs
  | some op =>
    have hne : tokens.drop c.position ≠ [] := by
      intro heq
      rw [heq, hnil] at hop
      cases hop
    refine AdvancesAt.goesOn ((AdvancesAt.skip hne).first fun _ c' hc' => ?_)
    exact (h tokens c' (hroom.advance hc')).next fun rhs _ _ => (advancesAt_binary op lhs rhs).map

/-- A chain comes to an end, since each of its links passes by a token. -/
theorem advances_chain {operator : OperatorAt} (hnil : operator [] = none) (h : Advances rounds calls 1 operand) :
    Advances rounds calls 1 (chain rounds operator operand) := fun tokens c hroom =>
  (h tokens c hroom).first fun lhs _ hc =>
    advancesAt_loop (fun lhs _ hc' => goesOn_link hnil h ((hroom.advance hc).advance hc') lhs) lhs (hroom.spare hc)

theorem advances_multiplicative (h : Advances rounds calls 1 operand) :
    Advances rounds calls 1 (multiplicative rounds operand) := advances_chain rfl h

theorem advances_additive (h : Advances rounds calls 1 operand) :
    Advances rounds calls 1 (additive rounds operand) := advances_chain rfl (advances_multiplicative h)

theorem advances_relational (h : Advances rounds calls 1 operand) :
    Advances rounds calls 1 (relational rounds operand) := advances_chain rfl (advances_additive h)

theorem advances_equality (h : Advances rounds calls 1 operand) :
    Advances rounds calls 1 (equality rounds operand) := advances_chain rfl (advances_relational h)

theorem advances_conjunction (h : Advances rounds calls 1 operand) :
    Advances rounds calls 1 (conjunction rounds operand) := advances_chain rfl (advances_equality h)

/-- All levels of operators together make progress if their operands do. -/
theorem advances_disjunction (h : Advances rounds calls 1 operand) :
    Advances rounds calls 1 (disjunction rounds operand) := advances_chain rfl (advances_conjunction h)

/-- An argument passes by a token, and the comma behind it another one. -/
theorem goesOn_argument (h : Advances rounds calls 1 arg) (hroom : c.Room rounds calls tokens) (args : List Expr) :
    GoesOn tokens c (argument arg args) := by
  refine AdvancesAt.goesOn ((h tokens c hroom).first fun a c' _ => .look (.ite (fun hcomma => ?_) fun _ => ?_))
  · exact (AdvancesAt.skip (ne_nil_of_atSymbol hcomma)).next fun _ _ _ => .pure _
  · exact (advancesAt_expectSymbol _).next fun _ _ _ => .pure _

/-- A list of arguments comes to its closing parenthesis, or to an error. -/
theorem advances_arguments (h : Advances rounds calls 1 arg) : Advances rounds calls 1 (arguments rounds arg) := by
  intro tokens c hroom
  refine (advancesAt_expectSymbol _).first fun _ c' hc' => .look (.ite (fun hrparen => ?_) fun _ => ?_)
  · exact (AdvancesAt.skip (ne_nil_of_atSymbol hrparen)).next fun _ _ _ => .pure _
  · exact advancesAt_loop (fun args _ hc => goesOn_argument h ((hroom.advance hc').advance hc) args) []
      (hroom.spare hc')

/-- What follows a look behind the next token. -/
theorem AdvancesAt.advance {f : Option TokenContent → Reader α} (hnone : AdvancesAt tokens c 0 (f none))
    (hsome : ∀ content c', c.Advanced tokens 1 c' → AdvancesAt tokens c' 0 (f (some content))) :
    AdvancesAt tokens c 0 (advance >>= f) := by
  rw [advance_bind]
  refine .look ?_
  cases hahead : tokens.drop c.position with
  | nil => exact hnone
  | cons t ts =>
    exact (skip (by rw [hahead]; exact List.cons_ne_nil _ _)).next fun _ => hsome t.content

/-- A call of a function of the device. At the end of the tokens the cursor would move past it, but the call fails. -/
theorem advances_deviceCall (h : Advances rounds calls 1 arg) : Advances rounds calls 1 (deviceCall rounds arg) := by
  intro tokens c hroom
  by_cases hnil : tokens.drop c.position = []
  · -- nothing comes behind the end, so there is no dot
    have hnext : tokens.drop (c.position + 1) = [] := by
      rw [← List.tail_drop, hnil]
      rfl
    refine .error (e := ⟨.expectedSymbol .dot none, some (lineAt (lastLine tokens) [])⟩) ?_
    change (expectSymbol .dot >>= _) tokens { c with position := c.position + 1 } = _
    have hnot : ¬ atSymbol .dot [] = true := Bool.false_ne_true
    rw [expectSymbol, bind_assoc, ahead_bind, hnext, if_neg hnot, fail_bind, hnext]
    rfl
  refine .here ((AdvancesAt.skip hnil).first fun _ c₁ hc₁ => ?_)
  refine (advancesAt_expectSymbol _).next fun _ c₂ hc₂ => .advance (.failAt _ _) fun content c₃ hc₃ => ?_
  have hroom := ((hroom.advance hc₁).advance hc₂).advance hc₃
  cases content
  case ident name =>
    simp only []
    cases DeviceOp.ofName? name with
    | none => exact .failAt _ _
    | some func =>
      exact (advances_arguments h tokens c₃ hroom).next fun args _ _ => .ite (fun _ => .pure _) fun _ => .failAt _ _
  all_goals exact .failAt _ _

/-- A call of a function on numbers, whose name is the next token. -/
theorem advancesAt_builtinCall (h : Advances rounds calls 1 arg) (hroom : c.Room rounds calls tokens)
    (hne : tokens.drop c.position ≠ []) (word : String) (line : UInt32) :
    AdvancesAt tokens c 1 (builtinCall rounds arg word line) := by
  unfold builtinCall
  cases Builtin.ofName? word with
  | none => exact .failAt _ _
  | some func =>
    refine (AdvancesAt.skip hne).first fun _ c' hc' => ?_
    exact (advances_arguments h tokens c' (hroom.advance hc')).next fun args _ _ =>
      .ite (fun _ => .pure _) fun _ => .failAt _ _

/-- A variable passes by its name. -/
theorem advancesAt_variableExpr (hne : tokens.drop c.position ≠ []) (word : String) (line : UInt32) :
    AdvancesAt tokens c 1 (variableExpr word line) := by
  refine (AdvancesAt.skip hne).first fun _ c' _ => .look (.ite (fun hdot => ?_) fun _ => .map (.use _ _ _))
  refine (AdvancesAt.skip (ne_nil_of_atSymbol hdot)).next fun _ c'' _ => .advance (.failAt _ _) fun content _ _ => ?_
  cases content
  case ident member => exact .ite (fun _ => .map (.use _ _ _)) fun _ => .failAt _ _
  all_goals exact .failAt _ _

/-- Whatever a word turns out to mean, it is passed by. -/
theorem advancesAt_wordExpr (h : Advances rounds calls 1 inside) (hroom : c.Room rounds calls tokens)
    (hne : tokens.drop c.position ≠ []) (word : String) (line : UInt32) (next : List Token) :
    AdvancesAt tokens c 1 (wordExpr rounds inside word line next) :=
  .ite (fun _ => (AdvancesAt.skip hne).first fun _ _ _ => .pure _) fun _ =>
    .ite (fun _ => (AdvancesAt.skip hne).first fun _ _ _ => .pure _) fun _ =>
      .ite (fun _ => (advances_deviceCall h tokens c hroom).first fun _ _ _ =>
        .ite (fun _ => .pure _) fun _ => .failAt _ _) fun _ =>
          .ite (fun _ => advancesAt_builtinCall h hroom hne word line) fun _ =>
            .ite (fun _ => .failAt _ _) fun _ => advancesAt_variableExpr hne word line

/-- A literal, a name, a call or an expression in parentheses passes by a token. -/
theorem advances_primary (h : Advances rounds calls 1 inside) : Advances rounds calls 1 (primary rounds inside) := by
  intro tokens c hroom
  have hliteral (e : Expr) (hne : tokens.drop c.position ≠ []) :
      AdvancesAt tokens c 1 (skip >>= fun _ => pure e) := (AdvancesAt.skip hne).first fun _ _ _ => .pure _
  refine .look ?_
  generalize hahead : tokens.drop c.position = ts
  have hne : ts ≠ [] → tokens.drop c.position ≠ [] := fun h => hahead ▸ h
  rcases ts with - | ⟨⟨⟨word⟩ | _ | _ | _ | s, l⟩, ts⟩
  case nil => exact .fail _
  case cons.ident => exact advancesAt_wordExpr h hroom (hne (List.cons_ne_nil _ _)) word l ts
  case cons.symbol =>
    cases s
    case lparen =>
      refine (AdvancesAt.skip (hne (List.cons_ne_nil _ _))).first fun _ c' hc' => ?_
      refine (h tokens c' (hroom.advance hc')).next fun inner _ _ => ?_
      exact (advancesAt_expectSymbol _).next fun _ _ _ => .pure _
    all_goals exact .fail _
  all_goals exact hliteral _ (hne (List.cons_ne_nil _ _))

/-- The mark of a unary operator is a token. -/
theorem ne_nil_of_unaryAt {op : UnaryOp} (h : unaryAt ts = some op) : ts ≠ [] := by
  rintro rfl
  cases h

/-- Signs and negations are passed by before the operand behind them. -/
theorem advances_operand (h : Advances rounds calls 1 inner) (h' : Advances rounds calls 1 inside) :
    Advances rounds calls 1 (Reader.operand rounds inner inside) := by
  intro tokens c hroom
  refine .look ?_
  cases hop : unaryAt (tokens.drop c.position) with
  | none => exact advances_primary h' tokens c hroom
  | some op =>
    exact (AdvancesAt.skip (ne_nil_of_unaryAt hop)).first fun _ c' hc' =>
      ((h tokens c' (hroom.advance hc')).least (Nat.zero_le 1)).map

/-- Operands make progress at any nesting, by induction on the calls that are left. -/
theorem advances_unary : Advances rounds calls 1 (unary rounds calls) := by
  -- on the calls that are left: the operands are one level deeper
  induction calls with
  | zero => exact fun _ _ hroom => absurd hroom.calls (Nat.not_lt_zero _)
  | succ calls ih => exact advances_operand ih.nested (advances_disjunction ih).nested

/-- **Expressions** make progress. -/
theorem advances_expr : Advances rounds calls 1 (expr rounds calls) := fun tokens c hroom =>
  (advances_disjunction advances_unary).nested tokens c ⟨hroom.rounds, Nat.lt_succ_of_lt hroom.calls⟩

end Expressions

section Statements

variable {stmt : Reader (Option Stmt)} {cond value : Reader Expr}

/-- A statement makes progress where there is a token for it. -/
def StatementAdvances (rounds calls : ℕ) (stmt : Reader (Option Stmt)) : Prop :=
  ∀ tokens c, c.Room rounds calls tokens → tokens.drop c.position ≠ [] → AdvancesAt tokens c 1 stmt

/-- A pass over a block ends it or passes by a statement. -/
theorem goesOn_blockPass (h : StatementAdvances rounds calls stmt) (hroom : c.Room rounds calls tokens)
    (terminators : List String) (stmts : List Stmt) : GoesOn tokens c (blockPass stmt terminators stmts) := by
  refine .look ?_
  cases hahead : tokens.drop c.position with
  | nil => exact .stop none
  | cons t ts =>
    simp only []
    by_cases hend : terminators.any (atKeyword · (t :: ts)) = true
    · rw [if_pos hend]
      exact .stop (some stmts)
    · rw [if_neg hend]
      refine AdvancesAt.goesOn (.ite (fun _ => .failAt _ _) fun _ => ?_)
      exact (h tokens c hroom (by rw [hahead]; exact List.cons_ne_nil _ _)).first fun _ _ _ => .pure _

/-- A block comes to its end, wherever tokens before it have been used up. -/
theorem advancesAt_block (h : StatementAdvances rounds calls stmt) (hroom : c.Room rounds calls tokens)
    (hspare : tokens.length - c.position < rounds) (terminators : List String) (line : UInt32)
    (unterminated : CompileFault) : AdvancesAt tokens c 0 (block rounds stmt terminators line unterminated) := by
  refine (advancesAt_loop (fun stmts _ hc => goesOn_blockPass h (hroom.advance hc) terminators stmts) [] hspare).first
    fun stmts _ _ => ?_
  cases stmts with
  | none => exact .failAt _ _
  | some stmts => exact .pure _

/-- An alternative passes by its condition and `THEN`. -/
theorem advances_arm (h : StatementAdvances rounds calls stmt) (hcond : Advances rounds calls 1 cond) (line : UInt32) :
    Advances rounds calls 1 (arm rounds stmt cond line) := by
  intro tokens c hroom
  refine (hcond tokens c hroom).first fun _ c₁ hc₁ => (advancesAt_takeKeyword _).next fun _ c₂ hc₂ => ?_
  have hroom₁ := hroom.advance hc₁
  exact (advancesAt_block h (hroom₁.advance hc₂) (hroom₁.spare hc₂) _ _ _).first fun _ _ _ => .pure _

/-- A pass over the alternatives ends the conditional or passes by the word of the next one. -/
theorem goesOn_armsPass (h : StatementAdvances rounds calls stmt) (hcond : Advances rounds calls 1 cond)
    (hroom : c.Room rounds calls tokens) (line : UInt32) (arms : List (Expr × List Stmt) × Arms) :
    GoesOn tokens c (armsPass rounds stmt cond line arms) := by
  refine AdvancesAt.goesOn (.look (.ite (fun helsif => ?_) fun _ => .ite (fun helse => ?_) fun _ =>
    .ite (fun hend => ?_) fun _ => .failAt _ _))
  · refine (AdvancesAt.skip (ne_nil_of_atKeyword helsif)).first fun _ c' hc' => ?_
    exact (advances_arm h hcond line tokens c' (hroom.advance hc')).next fun _ _ _ => .pure _
  · refine (AdvancesAt.skip (ne_nil_of_atKeyword helse)).first fun _ c' hc' => ?_
    exact (advancesAt_block h (hroom.advance hc') (hroom.spare hc') _ _ _).next fun _ _ _ => .pure _
  · refine (AdvancesAt.skip (ne_nil_of_atKeyword hend)).first fun _ c' hc' => ?_
    exact advancesAt_optionalSemicolon.next fun _ _ _ => .pure _

/-- A conditional comes to its `END_IF`, or to an error. -/
theorem advances_conditional (h : StatementAdvances rounds calls stmt) (hcond : Advances rounds calls 1 cond)
    (line : UInt32) : Advances rounds calls 1 (conditional rounds stmt cond line) := by
  intro tokens c hroom
  refine (advancesAt_takeKeyword _).first fun _ c₁ hc₁ => ?_
  have hroom₁ := hroom.advance hc₁
  refine (advances_arm h hcond line tokens c₁ hroom₁).next fun first c₂ hc₂ => ?_
  have hroom₂ := hroom₁.advance hc₂
  -- the first alternative has left a round to spare for the pass that ends the loop
  exact (advancesAt_loop (fun arms _ hc => goesOn_armsPass h hcond (hroom₂.advance hc) line arms) _
    (hroom₁.spare hc₂)).first fun _ _ _ => .pure _

/-- A loop comes to its `END_WHILE`, or to an error. -/
theorem advances_repetition (h : StatementAdvances rounds calls stmt) (hcond : Advances rounds calls 1 cond)
    (line : UInt32) : Advances rounds calls 1 (repetition rounds stmt cond line) := by
  intro tokens c hroom
  refine (advancesAt_takeKeyword _).first fun _ c₁ hc₁ => ?_
  have hroom₁ := hroom.advance hc₁
  refine (hcond tokens c₁ hroom₁).next fun _ c₂ hc₂ => (advancesAt_takeKeyword _).next fun _ c₃ hc₃ => ?_
  have hroom₂ := hroom₁.advance hc₂
  refine (advancesAt_block h (hroom₂.advance hc₃) (hroom₂.spare hc₃) _ _ _).next fun _ _ _ => ?_
  exact (advancesAt_takeKeyword _).next fun _ _ _ => advancesAt_optionalSemicolon.next fun _ _ _ => .pure _

/-- An assignment passes by its variable. -/
theorem advancesAt_assignment (h : Advances rounds calls 1 value) (hroom : c.Room rounds calls tokens)
    (hne : tokens.drop c.position ≠ []) (word : String) (line : UInt32) :
    AdvancesAt tokens c 1 (assignment value word line) := by
  refine (AdvancesAt.skip hne).first fun _ c₁ hc₁ => .look (.ite (fun hassign => ?_) fun _ => .failAt _ _)
  refine (AdvancesAt.skip (ne_nil_of_atSymbol hassign)).next fun _ c₂ hc₂ => ?_
  refine (AdvancesAt.use _ _ _).next fun target c₃ hc₃ => ?_
  refine (h tokens c₃ (((hroom.advance hc₁).advance hc₂).advance hc₃)).next fun _ _ _ => ?_
  exact (advancesAt_expectSymbol _).next fun _ _ _ => .pure _

/-- A statement of any kind passes by a token. -/
theorem advances_statementOf {ifs whiles : UInt32 → Reader Stmt}
    (hifs : ∀ line, Advances rounds calls 1 (nested (ifs line)))
    (hwhiles : ∀ line, Advances rounds calls 1 (nested (whiles line))) (h : Advances rounds calls 1 value) :
    StatementAdvances rounds calls (statementOf rounds ifs whiles value) := by
  intro tokens c hroom hne
  refine .look ?_
  generalize hahead : tokens.drop c.position = ts at hne
  rcases ts with - | ⟨⟨⟨word⟩ | _ | _ | _ | s, l⟩, ts⟩
  case nil => exact absurd rfl hne
  case cons.ident =>
    refine .ite (fun _ => (hifs l tokens c hroom).map) fun _ => .ite (fun _ => (hwhiles l tokens c hroom).map) fun _ =>
      .ite (fun _ => ?_) fun _ => .ite (fun _ => .failAt _ _) fun _ =>
        (advancesAt_assignment h hroom (hahead ▸ hne) word l).map
    refine (advances_deviceCall h tokens c hroom).first fun _ _ _ => ?_
    exact (advancesAt_expectSymbol _).next fun _ _ _ => .pure _
  case cons.symbol =>
    cases s
    case semi => exact (AdvancesAt.skip (hahead ▸ hne)).first fun _ _ _ => .pure _
    all_goals exact .fail _
  all_goals exact .fail _

/-- **Statements** make progress. -/
theorem advances_statement : StatementAdvances rounds calls (statement rounds calls) := by
  induction calls with
  | zero => exact fun _ _ hroom => absurd hroom.calls (Nat.not_lt_zero _)
  | succ calls ih =>
    exact advances_statementOf (fun line => (advances_conditional ih advances_expr line).nested)
      (fun line => (advances_repetition ih advances_expr line).nested) advances_expr

end Statements

section Declarations

variable {value : Reader Expr}

theorem advancesAt_entrySymbol (line : UInt32) (s : Symbol) : AdvancesAt tokens c 1 (entrySymbol line s) :=
  .look (.ite (fun hat => .skip (ne_nil_of_atSymbol hat)) fun _ => .failAt _ _)

theorem advancesAt_initializer (h : Advances rounds calls 1 value) (hroom : c.Room rounds calls tokens) :
    AdvancesAt tokens c 0 (initializer value) := by
  refine .look (.ite (fun hassign => ?_) fun _ => .pure _)
  refine (AdvancesAt.skip (ne_nil_of_atSymbol hassign)).next fun _ c' hc' => ?_
  exact ((h tokens c' (hroom.advance hc')).least (Nat.zero_le 1)).map

/-- An entry passes by its name. -/
theorem advances_varEntry (h : Advances rounds calls 1 value) (line : UInt32) :
    Advances rounds calls 1 (varEntry value line) := by
  intro tokens c hroom
  refine .look ?_
  generalize hahead : tokens.drop c.position = ts
  rcases ts with - | ⟨⟨⟨name⟩ | _ | _ | _ | _, l⟩, ts⟩
  case cons.ident =>
    refine .ite (fun _ => .failAt _ _) fun _ => ?_
    refine (AdvancesAt.skip (by rw [hahead]; exact List.cons_ne_nil _ _)).first fun _ c₁ hc₁ => ?_
    refine (advancesAt_entrySymbol line .colon).next fun _ c₂ hc₂ => .advance (.failAt _ _) fun content c₃ hc₃ => ?_
    have hroom := ((hroom.advance hc₁).advance hc₂).advance hc₃
    cases content
    case ident typeName =>
      simp only []
      cases TypeName.ofName? typeName with
      | none => exact .failAt _ _
      | some type =>
        refine (advancesAt_initializer h hroom).next fun init _ _ => ?_
        exact (advancesAt_entrySymbol line .semi).next fun _ _ _ => .pure _
    all_goals exact .failAt _ _
  all_goals exact .failAt _ _

/-- A pass over a section of declarations ends it or passes by an entry. -/
theorem goesOn_varPass (h : Advances rounds calls 1 value) (hroom : c.Room rounds calls tokens) (blockLine : UInt32)
    (decls : List Declaration) : GoesOn tokens c (varPass value blockLine decls) := by
  refine AdvancesAt.goesOn (.look ?_)
  cases hahead : tokens.drop c.position with
  | nil => exact .failAt _ _
  | cons t ts =>
    refine .ite (fun _ => ?_) fun _ => (advances_varEntry h t.line tokens c hroom).first fun _ _ _ => .pure _
    refine (AdvancesAt.skip (by rw [hahead]; exact List.cons_ne_nil _ _)).first fun _ _ _ => ?_
    exact advancesAt_optionalSemicolon.next fun _ _ _ => .pure _

/-- **Sections of declarations** make progress. -/
theorem advances_varSection (h : Advances rounds calls 1 value) :
    Advances rounds calls 1 (varSection rounds value) := by
  intro tokens c hroom
  refine .here ((advancesAt_takeKeyword _).first fun _ c' hc' => ?_)
  exact advancesAt_loop (fun decls _ hc => goesOn_varPass h ((hroom.advance hc').advance hc) _ decls) []
    (hroom.spare hc')

end Declarations

/-- An item of a program passes by a token, so that a program comes to its end. -/
theorem advancesAt_item (hroom : c.Room rounds calls tokens) (hne : tokens.drop c.position ≠ []) (items : Items) :
    AdvancesAt tokens c 1 (item rounds calls items) := by
  refine .look (.ite (fun _ => ?_) fun _ => ?_)
  · exact (advances_varSection advances_expr tokens c hroom).first fun _ _ _ => .pure _
  · exact (advances_statement tokens c hroom hne).first fun _ _ _ => .pure _

/-- Items are read to the end of the tokens in no more passes than there are tokens. -/
theorem advancesAt_itemsFrom (hroom : c.Room rounds calls tokens) {passes : ℕ}
    (hle : tokens.length - c.position ≤ passes) (items : Items) :
    AdvancesAt tokens c 0 (itemsFrom rounds calls passes items) := by
  -- no pass has to be spared here: the loop looks for the end before it counts
  induction passes generalizing items c with
  | zero =>
    refine .look (.ite (fun _ => .pure _) fun hne => absurd (List.isEmpty_iff.2 ?_) hne)
    exact List.drop_eq_nil_of_le (Nat.le_of_sub_eq_zero (Nat.le_zero.1 hle))
  | succ passes ih =>
    refine .look (.ite (fun _ => .pure _) fun hne => ?_)
    refine (advancesAt_item hroom (fun hnil => hne (List.isEmpty_iff.2 hnil)) items).next fun items c' hc' => ?_
    refine ih (hroom.advance hc') ?_ items
    have := hc'.moved
    have := hc'.inside
    omega

/-- Every text is read to its end. -/
theorem compile_ends (source : String) : ∃ result, compile source = some result := by
  unfold compile
  cases tokenize source with
  | error e => exact ⟨_, rfl⟩
  | ok tokens =>
    have hroom : Cursor.Room tokens.length (nestingLimit + 1) tokens ⟨0, 0, []⟩ :=
      ⟨Nat.sub_le _ _, Nat.lt_succ_self _⟩
    obtain ⟨result, hr, -⟩ := advancesAt_itemsFrom hroom (Nat.sub_le _ _) ⟨[], []⟩
    simp only [hr]
    cases result <;> exact ⟨_, rfl⟩

/-- At the end of the tokens there is no statement. -/
theorem statement_of_nil (h : tokens.drop c.position = []) :
    statement rounds (calls + 1) tokens c = some (.ok (none, c)) := by
  rw [statement, statementOf, ahead_bind, h]
  rfl

end Reader

/-- **The productions of the grammar**, by what they read. Conditionals and loops are given the line they start on. -/
inductive Production : Type → Type
  | varSection : Production (List Declaration)
  | statement : Production (Option Stmt)
  | conditional (line : UInt32) : Production Stmt
  | repetition (line : UInt32) : Production Stmt
  | deviceCall : Production (DeviceOp × List Expr)
  | arguments : Production (List Expr)
  | expr : Production Expr
  | disjunction : Production Expr
  | conjunction : Production Expr
  | equality : Production Expr
  | relational : Production Expr
  | additive : Production Expr
  | multiplicative : Production Expr
  | unary : Production Expr
  | primary : Production Expr

namespace Production

/-- The reader of a production. -/
def reader (rounds calls : ℕ) : {α : Type} → Production α → Reader α
  | _, varSection => Reader.varSection rounds (Reader.expr rounds calls)
  | _, statement => Reader.statement rounds calls
  | _, conditional line => Reader.conditional rounds (Reader.statement rounds calls) (Reader.expr rounds calls) line
  | _, repetition line => Reader.repetition rounds (Reader.statement rounds calls) (Reader.expr rounds calls) line
  | _, deviceCall => Reader.deviceCall rounds (Reader.expr rounds calls)
  | _, arguments => Reader.arguments rounds (Reader.expr rounds calls)
  | _, expr => Reader.expr rounds calls
  | _, disjunction => Reader.disjunction rounds (Reader.unary rounds calls)
  | _, conjunction => Reader.conjunction rounds (Reader.unary rounds calls)
  | _, equality => Reader.equality rounds (Reader.unary rounds calls)
  | _, relational => Reader.relational rounds (Reader.unary rounds calls)
  | _, additive => Reader.additive rounds (Reader.unary rounds calls)
  | _, multiplicative => Reader.multiplicative rounds (Reader.unary rounds calls)
  | _, unary => Reader.unary rounds calls
  | _, primary => Reader.primary rounds (Reader.expr rounds calls)

/-- The parser of a production, with so many nesting levels left. -/
def parser (levels : ℕ) : {α : Type} → Production α → Parser α
  | _, varSection => Script.varSection
  | _, statement => Script.statement levels
  | _, conditional line => Script.conditional (Script.statement levels) (Script.expr levels) line
  | _, repetition line => Script.repetition (Script.statement levels) (Script.expr levels) line
  | _, deviceCall => Script.deviceOp (Script.expr levels)
  | _, arguments => Script.arguments (Script.expr levels)
  | _, expr => Script.expr levels
  | _, disjunction => operators (Script.unary levels)
  | _, conjunction => chain andAt <| chain equalityAt <| chain relationalAt <| chain additiveAt <|
      chain multiplicativeAt (Script.unary levels)
  | _, equality => chain equalityAt <| chain relationalAt <| chain additiveAt <|
      chain multiplicativeAt (Script.unary levels)
  | _, relational => chain relationalAt <| chain additiveAt <| chain multiplicativeAt (Script.unary levels)
  | _, additive => chain additiveAt <| chain multiplicativeAt (Script.unary levels)
  | _, multiplicative => chain multiplicativeAt (Script.unary levels)
  | _, unary => Script.unary levels
  | _, primary => Script.primary (Script.expr levels)

/-- Where a production stands in a program: sections of declarations outside of all nesting. -/
def InPlace {α : Type} (c : Cursor) : Production α → Prop
  | varSection => c.depth = 0
  | _ => True

/-- **Readers and parsers agree** on each production of the grammar, wherever it is in place. -/
theorem tracksAt_reader {α : Type} {rounds calls : ℕ} {tokens : List Token} {c : Cursor}
    (hcalls : nestingLimit - c.depth < calls) (production : Production α) (h : production.InPlace c) :
    Reader.TracksAt tokens c (production.reader rounds calls) (production.parser (nestingLimit - c.depth)) := by
  generalize hlevels : nestingLimit - c.depth = levels at hcalls ⊢
  have hexpr : Reader.Tracks levels (Reader.expr rounds calls) (Script.expr levels) :=
    Reader.tracks_expr (Nat.le_of_lt hcalls)
  have hunary : Reader.Tracks levels (Reader.unary rounds calls) (Script.unary levels) := Reader.tracks_unary hcalls
  have hstmt : Reader.Tracks levels (Reader.statement rounds calls) (Script.statement levels) :=
    Reader.tracks_statement hcalls
  have hspends := spendsAt_statement programTokens_any.toStatementTokens levels
  -- Sections of declarations read their initializers on the outermost level, so they agree there only.
  cases production with
  | varSection =>
    obtain rfl : levels = nestingLimit := by rw [← hlevels, show c.depth = 0 from h, Nat.sub_zero]
    exact Reader.tracks_varSection hexpr tokens c hlevels
  | statement => exact hstmt tokens c hlevels
  | conditional line => exact Reader.tracks_conditional hstmt hspends hexpr line tokens c hlevels
  | repetition line => exact Reader.tracks_repetition hstmt hspends hexpr line tokens c hlevels
  | deviceCall => exact Reader.tracks_deviceCall hexpr tokens c hlevels
  | arguments => exact Reader.tracks_arguments hexpr tokens c hlevels
  | expr => exact hexpr tokens c hlevels
  | disjunction => exact Reader.tracks_disjunction hunary tokens c hlevels
  | conjunction => exact Reader.tracks_conjunction hunary tokens c hlevels
  | equality => exact Reader.tracks_equality hunary tokens c hlevels
  | relational => exact Reader.tracks_relational hunary tokens c hlevels
  | additive => exact Reader.tracks_additive hunary tokens c hlevels
  | multiplicative => exact Reader.tracks_multiplicative hunary tokens c hlevels
  | unary => exact hunary tokens c hlevels
  | primary => exact Reader.tracks_primary hexpr tokens c hlevels

/-- Where a production may find nothing to read: a statement at the end of the tokens. -/
def FindsNothing {α : Type} (tokens : List Token) (c : Cursor) : Production α → Prop
  | statement => tokens.length ≤ c.position
  | _ => False

/-- **Each production makes progress** wherever it has something to read. -/
theorem advancesAt_reader {α : Type} {rounds calls : ℕ} {tokens : List Token} {c : Cursor}
    (hroom : c.Room rounds calls tokens) (production : Production α) (h : ¬ production.FindsNothing tokens c) :
    Reader.AdvancesAt tokens c 1 (production.reader rounds calls) := by
  cases production with
  | varSection => exact Reader.advances_varSection Reader.advances_expr tokens c hroom
  | statement =>
    exact Reader.advances_statement tokens c hroom fun hnil => h (List.drop_eq_nil_iff.1 hnil)
  | conditional line =>
    exact Reader.advances_conditional Reader.advances_statement Reader.advances_expr line tokens c hroom
  | repetition line =>
    exact Reader.advances_repetition Reader.advances_statement Reader.advances_expr line tokens c hroom
  | deviceCall => exact Reader.advances_deviceCall Reader.advances_expr tokens c hroom
  | arguments => exact Reader.advances_arguments Reader.advances_expr tokens c hroom
  | expr => exact Reader.advances_expr tokens c hroom
  | disjunction => exact Reader.advances_disjunction Reader.advances_unary tokens c hroom
  | conjunction => exact Reader.advances_conjunction Reader.advances_unary tokens c hroom
  | equality => exact Reader.advances_equality Reader.advances_unary tokens c hroom
  | relational => exact Reader.advances_relational Reader.advances_unary tokens c hroom
  | additive => exact Reader.advances_additive Reader.advances_unary tokens c hroom
  | multiplicative => exact Reader.advances_multiplicative Reader.advances_unary tokens c hroom
  | unary => exact Reader.advances_unary tokens c hroom
  | primary => exact Reader.advances_primary Reader.advances_expr tokens c hroom

end Production

/-- **The grammar makes progress.** With as many rounds for each loop as there are tokens, and one call more than the
nesting limit, no production is ever cut off, at whatever cursor it starts, and it comes to what its parser comes to. If
it succeeds, it has used up a token (a statement finds nothing at the end of the tokens), it has not moved past the end,
the nesting is what it was, and variables have only been added. So every text is read to its end, with the result of
`compile`. -/
theorem grammar_progresses :
    (∀ {α : Type} (production : Production α) (tokens : List Token) (c : Cursor),
      ∃ result, production.reader tokens.length (nestingLimit + 1) tokens c = some result ∧
        (production.InPlace c → Agrees tokens c result
          (production.parser (nestingLimit - c.depth) (lastLine tokens) (tokens.drop c.position))) ∧
        ∀ a c', result = .ok (a, c') →
          (c.position < c'.position ∧ c'.position ≤ tokens.length ∨ production.FindsNothing tokens c ∧ c' = c) ∧
            c'.depth = c.depth ∧ c.uses <+: c'.uses) ∧
      ∀ source, Reader.compile source = some (compile source) := by
  constructor
  · intro α production tokens c
    have hcalls : nestingLimit - c.depth < nestingLimit + 1 := Nat.lt_succ_of_le (Nat.sub_le _ _)
    have htracks (hplace : production.InPlace c) : Reader.TracksAt tokens c
        (production.reader tokens.length (nestingLimit + 1)) (production.parser (nestingLimit - c.depth)) :=
      production.tracksAt_reader hcalls hplace
    -- A statement may find nothing at the end of the tokens, and leaves the cursor where it was.
    by_cases hnothing : production.FindsNothing tokens c
    · cases production with
      | statement =>
        have hread : Reader.statement tokens.length (nestingLimit + 1) tokens c = some (.ok (none, c)) :=
          Reader.statement_of_nil (List.drop_eq_nil_of_le hnothing)
        refine ⟨_, hread, fun hplace => htracks hplace _ hread, fun a c' heq => ?_⟩
        cases heq
        exact ⟨.inr ⟨hnothing, rfl⟩, rfl, List.prefix_refl _⟩
      | _ => cases hnothing
    · obtain ⟨result, hr, hresult⟩ := production.advancesAt_reader ⟨Nat.sub_le _ _, hcalls⟩ hnothing
      refine ⟨result, hr, fun hplace => htracks hplace result hr, fun a c' heq => ?_⟩
      have hadvanced := hresult a c' heq
      refine ⟨.inl ?_, hadvanced.depth, hadvanced.uses⟩
      have := hadvanced.moved
      have := hadvanced.inside
      omega
  · intro source
    obtain ⟨result, hresult⟩ := Reader.compile_ends source
    rw [hresult, Reader.eq_compile hresult]

/-- A statement `x := 1;` as tokens. -/
def assignmentTokens : List Token :=
  [⟨.ident "x", 1⟩, ⟨.symbol .assign, 1⟩, ⟨.int 1, 1⟩, ⟨.symbol .semi, 1⟩]

theorem grammar_progresses_assignment : ∃ s c',
    Production.statement.reader 4 (nestingLimit + 1) assignmentTokens ⟨0, 0, []⟩ = some (.ok (some s, c')) ∧
      0 < c'.position ∧ c'.position ≤ 4 ∧ c'.depth = 0 ∧
      Agrees assignmentTokens ⟨0, 0, []⟩ (.ok (some s, c'))
        (statement nestingLimit (lastLine assignmentTokens) assignmentTokens) := by
  obtain ⟨result, hread, hagrees, hresult⟩ := grammar_progresses.1 .statement assignmentTokens ⟨0, 0, []⟩
  have hcomputed : Production.statement.reader 4 (nestingLimit + 1) assignmentTokens ⟨0, 0, []⟩ =
      some (.ok (some (.assign 1 "X" (.literal (.int 1))), ⟨4, 0, [⟨"X", "x", 1, false⟩]⟩)) := by rfl
  cases hcomputed.symm.trans hread
  obtain ⟨⟨hlt, hle⟩ | ⟨hnothing, -⟩, hdepth, -⟩ := hresult _ _ rfl
  · exact ⟨_, _, hcomputed, hlt, hle, hdepth, hagrees trivial⟩
  · exact absurd (show 4 ≤ 0 from hnothing) (by decide)

end Switchyard.Script
