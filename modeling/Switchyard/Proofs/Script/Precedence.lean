import Mathlib.Tactic.IntervalCases
import Switchyard.Proofs.Script.Reading
import Switchyard.Proofs.Script.Rendering

/-!
# Expressions are read back

An expression that was written with the parentheses its operators require is read back
as it was. Each level of operators is a `tier` of the parser over the tighter ones; an
expression is `Understood` when every tier that may meet it reads it, and when a chain
of any level goes on after it as after the operands it has read before.

* `Stops`: what may follow an expression.
* `understood_binary`, `understood_of_operand`: operators, and everything else.
* `reads_expr`: whole expressions.
-/

namespace Switchyard.Script

open Switchyard.Script.Parser (Reads)

variable {vars : List Declaration} {F : Prop}

/-- The operators of a level. -/
def operatorAt : ℕ → OperatorAt
  | 1 => multiplicativeAt
  | 2 => additiveAt
  | 3 => relationalAt
  | 4 => equalityAt
  | 5 => andAt
  | 6 => orAt
  | _ => fun _ => none

/-- The parser of the operators up to a level. -/
def tier (operand : Parser Expr) : ℕ → Parser Expr
  | 0 => operand
  | level + 1 => chain (operatorAt (level + 1)) (tier operand level)

/-- Expressions end where no operator up to the level follows, no arguments and no member. -/
structure Stops (level : ℕ) (ts : List Token) : Prop where
  arguments : atSymbol .lparen ts = false
  member : atSymbol .dot ts = false
  operator : ∀ l ≤ level, operatorAt l ts = none

/-- Where an expression ends, a tighter one ends as well. -/
theorem Stops.mono {level lower : ℕ} {ts : List Token} (h : Stops level ts) (hle : lower ≤ level) : Stops lower ts :=
  ⟨h.arguments, h.member, fun l hl => h.operator l (hl.trans hle)⟩

/-- What closes an expression: the ends of statements, conditions, parentheses and arguments. -/
def closers : List TokenContent := [.symbol .semi, .symbol .comma, .symbol .rparen, .ident "THEN", .ident "DO"]

/-- What closes an expression stops all levels. -/
theorem stops_closer {t : TokenContent} (h : t ∈ closers) (line : UInt32) (ts : List Token) : Stops 6
    (⟨t, line⟩ :: ts) := by
  simp only [closers, List.mem_cons, List.not_mem_nil, or_false] at h
  rcases h with rfl | rfl | rfl | rfl | rfl
  all_goals
    refine ⟨rfl, rfl, fun l hl => ?_⟩
    interval_cases l <;> rfl

/-- An operator closes the operands of tighter ones. -/
theorem stops_operator (op : BinaryOp) (line : UInt32) (ts : List Token) :
    Stops (op.looseness - 1) (⟨op.word, line⟩ :: ts) := by
  cases op
  all_goals
    refine ⟨rfl, rfl, fun l hl => ?_⟩
    rw [BinaryOp.looseness] at hl
    interval_cases l <;> rfl

/-- An operator is found on its own level. -/
theorem operatorAt_word {op : BinaryOp} {ts : List Token} (hmod : op = .mod → atSymbol .lparen ts = false)
    (line : UInt32) : operatorAt op.looseness (⟨op.word, line⟩ :: ts) = some op := by
  cases op with
  | mod =>
    have hword : atKeyword "MOD" (⟨.ident "MOD", line⟩ :: ts) = true := rfl
    change (if atKeyword "MOD" (⟨.ident "MOD", line⟩ :: ts) && !atSymbol .lparen ts then some BinaryOp.mod else none) =
      some .mod
    rw [hword, hmod rfl]
    rfl
  | _ => rfl

/-- Operators are on the levels from one to six. -/
theorem looseness_pos (op : BinaryOp) : 0 < op.looseness ∧ op.looseness ≤ 6 := by
  cases op <;> decide

/-- What a tier reads, the looser ones read as well, where they stop. -/
theorem reads_tier {operand : Parser Expr} {ts rest : List Token} {e : Expr} {level : ℕ} (lower : ℕ)
    (h : (tier operand lower).Reads vars F ts e rest) (hle : lower ≤ level) (hstops : Stops level rest) :
    (tier operand level).Reads vars F ts e rest := by
  induction level, hle using Nat.le_induction with
  | base => exact h
  | succ level _ ih =>
    have hinner := ih (hstops.mono (Nat.le_succ level))
    exact (continues_of_reads hinner).stop (hstops.operator (level + 1) le_rfl)

/-- Expressions are read by every tier that may meet them, and chains go on after them. -/
structure Understood (vars : List Declaration) (e : Expr) : Prop where
  reads : ∀ levels level line ts, Stops level ts →
    (tier (unary levels) level).Reads vars (e.depth ≤ levels + 1 ∧ e.depth ≤ nestingLimit)
      (onLine line (e.within level) ++ ts) e ts
  continues : ∀ levels level line ts, Stops level ts →
    Continues vars (e.depth ≤ levels + 1 ∧ e.depth ≤ nestingLimit) (operatorAt (level + 1)) (tier (unary levels) level)
      (onLine line (e.within (level + 1)) ++ ts) e ts

/-- What is tight enough stands without parentheses. -/
theorem within_of_le {e : Expr} {level : ℕ} (h : e.looseness ≤ level) : e.within level = e.words := by
  rw [Expr.within, enclosed, if_neg (by simpa using h)]

/-- What is too loose stands in parentheses. -/
theorem within_of_lt {e : Expr} {level : ℕ} (h : level < e.looseness) :
    e.within level = .symbol .lparen :: (e.words ++ [.symbol .rparen]) := by
  rw [Expr.within, enclosed, if_pos (by simpa using h)]

theorem looseness_le (e : Expr) : e.looseness ≤ 6 := by
  cases e with
  | binary op l r => exact (looseness_pos op).2
  | _ => exact Nat.zero_le 6

theorem depth_pos (e : Expr) : 0 < e.depth := by
  cases e <;> rw [Expr.depth] <;> omega

/-- An operand reads what stands in front of it, and what stands in parentheses as an expression. -/
theorem unary_eq (levels : ℕ) : ∃ inner, unary levels = operand inner (expr levels) := by
  cases levels with
  | zero => exact ⟨tooDeep, rfl⟩
  | succ levels => exact ⟨unary levels, rfl⟩

/-- **Whole expressions** are read by a parser of expressions. -/
theorem reads_expr {e : Expr} (h : Understood vars e) {ts : List Token} (hstops : Stops 6 ts) (levels : ℕ)
    (line : UInt32) :
    (expr levels).Reads vars (e.depth ≤ levels ∧ e.depth ≤ nestingLimit) (onLine line e.words ++ ts) e ts := by
  cases levels with
  | zero => exact .tooDeep fun hF => absurd hF.1 (Nat.not_le.2 (depth_pos e))
  | succ levels =>
    have htier : expr (levels + 1) = tier (unary levels) 6 := rfl
    have hread := h.reads levels 6 line ts hstops
    rw [within_of_le (looseness_le e)] at hread
    rw [htier]
    exact hread

/-- Parentheses hold an expression. -/
theorem reads_parentheses {levels : ℕ} {line : UInt32} {words : List TokenContent} {e : Expr} {ts : List Token}
    (h : (expr levels).Reads vars F (onLine line words ++ ⟨.symbol .rparen, line⟩ :: ts) e
      (⟨.symbol .rparen, line⟩ :: ts)) :
    (unary levels).Reads vars F (onLine line (.symbol .lparen :: (words ++ [.symbol .rparen])) ++ ts) e ts := by
  obtain ⟨inner, hunary⟩ := unary_eq levels
  have hwords : onLine line (.symbol .lparen :: (words ++ [.symbol .rparen])) ++ ts =
      ⟨.symbol .lparen, line⟩ :: (onLine line words ++ ⟨.symbol .rparen, line⟩ :: ts) := by simp
  rw [hunary, hwords]
  exact .look (.look (.drop (h.bind (.symbol (.pure e ts)))))

/-- **Everything but infix operators** is read by an operand, and then it is by every tier. -/
theorem understood_of_operand {e : Expr} (hzero : e.looseness = 0)
    (h : ∀ levels line ts, Stops 0 ts → (unary levels).Reads vars (e.depth ≤ levels + 1 ∧ e.depth ≤ nestingLimit)
      (onLine line e.words ++ ts) e ts) : Understood vars e := by
  have hreads (levels level line ts) (hstops : Stops level ts) :
      (tier (unary levels) level).Reads vars (e.depth ≤ levels + 1 ∧ e.depth ≤ nestingLimit)
        (onLine line e.words ++ ts) e ts :=
    reads_tier 0 (h levels line ts (hstops.mono (Nat.zero_le level))) (Nat.zero_le level) hstops
  refine ⟨fun levels level line ts hstops => ?_, fun levels level line ts hstops => ?_⟩
  · rw [within_of_le (by omega)]
    exact hreads levels level line ts hstops
  · rw [within_of_le (by omega)]
    exact continues_of_reads (hreads levels level line ts hstops)

/-- An expression that nothing can tear apart does not start with a parenthesis. -/
theorem atSymbol_lparen_words {e : Expr} (h : e.looseness = 0) (line : UInt32) (ts : List Token) :
    atSymbol .lparen (onLine line e.words ++ ts) = false := by
  cases e with
  | literal v => cases v with
    | bool b => cases b <;> rfl
    | _ => rfl
  | unary op e => cases op <;> rfl
  | binary op l r => exact absurd h (looseness_pos op).1.ne'
  | _ => rfl

/-- A chain of the operator's level reads the left operand as what it has read so far, the operator
and then the right operand, which is tighter. -/
theorem continues_binary {op : BinaryOp} {l r : Expr} (hl : Understood vars l) (hr : Understood vars r)
    (hmod : op = .mod → r.looseness = 0) {level : ℕ} (hlevel : op.looseness = level + 1) (levels : ℕ) (line : UInt32)
    {ts : List Token} (hstops : Stops level ts) :
    Continues vars (max l.depth r.depth ≤ levels + 1 ∧ (Expr.binary op l r).depth ≤ nestingLimit)
      (operatorAt (level + 1)) (tier (unary levels) level) (onLine line (Expr.binary op l r).words ++ ts)
      (.binary op l r) ts := by
  -- The words of both operands, with parentheses where they are too loose for their side.
  have hwords : onLine line (Expr.binary op l r).words ++ ts =
      onLine line (l.within (level + 1)) ++ ⟨op.word, line⟩ :: (onLine line (r.within level) ++ ts) := by
    have hwords : (Expr.binary op l r).words = l.within (level + 1) ++ op.word :: r.within level := by
      rw [Expr.words, hlevel]
      rfl
    simp [hwords]
  -- Behind `MOD` there is no parenthesis, so the word is not taken for the function.
  have hoperator : operatorAt (level + 1) (⟨op.word, line⟩ :: (onLine line (r.within level) ++ ts)) = some op := by
    rw [← hlevel]
    refine operatorAt_word (fun hop => ?_) line
    have hzero := hmod hop
    rw [within_of_le (by omega)]
    exact atSymbol_lparen_words hzero line ts
  have hstop := stops_operator op line (onLine line (r.within level) ++ ts)
  rw [hlevel, Nat.add_sub_cancel] at hstop
  have hleft := hl.continues levels level line (⟨op.word, line⟩ :: (onLine line (r.within level) ++ ts)) hstop
  have hright := hr.reads levels level line ts hstops
  have hdepth : (Expr.binary op l r).depth = 1 + max l.depth r.depth := by rw [Expr.depth]
  rw [hwords]
  refine (hleft.mono fun hF => ⟨?_, ?_⟩).next hoperator (hright.mono fun hF => ⟨?_, ?_⟩) ?_ fun hF => hF.2
  · exact (le_max_left _ _).trans hF.1
  · exact (by omega : l.depth ≤ (Expr.binary op l r).depth).trans hF.2
  · exact (le_max_right _ _).trans hF.1
  · exact (by omega : r.depth ≤ (Expr.binary op l r).depth).trans hF.2
  · simp

/-- Without parentheses, a binary expression is read by every tier from its operator's own on. -/
theorem reads_binary_words {op : BinaryOp} {l r : Expr} (hl : Understood vars l) (hr : Understood vars r)
    (hmod : op = .mod → r.looseness = 0) (levels : ℕ) (line : UInt32) {level : ℕ} (hle : op.looseness ≤ level)
    {ts : List Token} (hstops : Stops level ts) :
    (tier (unary levels) level).Reads vars
      (max l.depth r.depth ≤ levels + 1 ∧ (Expr.binary op l r).depth ≤ nestingLimit)
      (onLine line (Expr.binary op l r).words ++ ts) (.binary op l r) ts := by
  obtain ⟨own, hown⟩ := Nat.exists_eq_add_one.2 (looseness_pos op).1
  have hbefore : Stops own ts := hstops.mono (by omega)
  have hafter : operatorAt (own + 1) ts = none := hstops.operator (own + 1) (by omega)
  have hchain := continues_binary hl hr hmod hown levels line hbefore
  exact reads_tier (own + 1) (hchain.stop hafter) (by omega) hstops

/-- With the parentheses that it requires, a binary expression is read by every tier. -/
theorem reads_binary_within {op : BinaryOp} {l r : Expr} (hl : Understood vars l) (hr : Understood vars r)
    (hmod : op = .mod → r.looseness = 0) (levels level : ℕ) (line : UInt32) (ts : List Token)
    (hstops : Stops level ts) : (tier (unary levels) level).Reads vars
      ((Expr.binary op l r).depth ≤ levels + 1 ∧ (Expr.binary op l r).depth ≤ nestingLimit)
      (onLine line ((Expr.binary op l r).within level) ++ ts) (.binary op l r) ts := by
  have hloose : (Expr.binary op l r).looseness = op.looseness := rfl
  have hdepth : (Expr.binary op l r).depth = 1 + max l.depth r.depth := by rw [Expr.depth]
  by_cases hle : op.looseness ≤ level
  · rw [within_of_le (by omega)]
    exact (reads_binary_words hl hr hmod levels line hle hstops).mono fun hF => ⟨by omega, hF.2⟩
  · -- what stands in parentheses is an expression, one level further down
    rw [within_of_lt (by omega)]
    refine reads_tier 0 (reads_parentheses ?_) (Nat.zero_le level) hstops
    have hcloses : Stops 6 (⟨.symbol .rparen, line⟩ :: ts) := stops_closer (by decide) line ts
    cases levels with
    | zero =>
      have hpos := depth_pos l
      exact .tooDeep fun hF => absurd hF.1 (by omega)
    | succ levels =>
      have hinner := reads_binary_words hl hr hmod levels line (looseness_pos op).2 hcloses
      exact hinner.mono fun hF => ⟨by omega, hF.2⟩

/-- **A binary expression is read back** by each tier, as its operands are by the tiers for them. -/
theorem understood_binary {op : BinaryOp} {l r : Expr} (hl : Understood vars l) (hr : Understood vars r)
    (hmod : op = .mod → r.looseness = 0) : Understood vars (.binary op l r) := by
  have hloose : (Expr.binary op l r).looseness = op.looseness := rfl
  have hdepth : (Expr.binary op l r).depth = 1 + max l.depth r.depth := by rw [Expr.depth]
  refine ⟨reads_binary_within hl hr hmod, fun levels level line ts hstops => ?_⟩
  by_cases hlevel : op.looseness = level + 1
  · rw [within_of_le (by omega)]
    exact (continues_binary hl hr hmod hlevel levels line hstops).mono fun hF => ⟨by omega, hF.2⟩
  · -- on any other level the parentheses are the same as one level down
    have hwithin : (Expr.binary op l r).within (level + 1) = (Expr.binary op l r).within level := by
      by_cases hle : op.looseness ≤ level
      · rw [within_of_le (by omega), within_of_le (by omega)]
      · rw [within_of_lt (by omega), within_of_lt (by omega)]
    rw [hwithin]
    exact continues_of_reads (reads_binary_within hl hr hmod levels level line ts hstops)

/-- No expression starts with a closing parenthesis. -/
theorem atSymbol_rparen_words (line : UInt32) (ts : List Token) :
    (e : Expr) → atSymbol .rparen (onLine line e.words ++ ts) = false
  | .literal v => by cases v with
    | bool b => cases b <;> rfl
    | _ => rfl
  | .var _ | .stepTime _ | .builtin _ _ | .device _ _ => rfl
  | .unary op _ => by cases op <;> rfl
  | .binary op l r => by
    rw [Expr.words, enclosed]
    split
    · rfl
    · rw [onLine_append, List.append_assoc]
      exact atSymbol_rparen_words line _ l

/-- Arguments are read back one after the other, up to the parenthesis that closes them. -/
theorem reading_argumentsFrom {arg : Parser Expr} {line : UInt32} {e : Expr} {es : List Expr}
    (h : ∀ e' ∈ e :: es, ∀ ts, Stops 6 ts → arg.Reads vars F (onLine line e'.words ++ ts) e' ts) (ts : List Token)
    (endLine : UInt32) (args : List Expr) {uses : List Use} (huses : Accepted vars uses) :
    Reading vars F (args ++ e :: es) ts
      (argumentsFrom arg endLine args uses
        (onLine line (argumentWords (e :: es)) ++ ⟨.symbol .rparen, line⟩ :: ts)) := by
  -- on the arguments after the first one: a comma follows it, or the parenthesis that closes
  induction es generalizing e args uses with
  | nil =>
    have hfirst := h e List.mem_cons_self (⟨.symbol .rparen, line⟩ :: ts) (stops_closer (by decide) line ts) endLine
    rw [argumentWords, argumentsFrom]
    generalize arg endLine _ = r at hfirst ⊢
    cases hfirst with
    | tooDeep line h => exact .tooDeep line h
    | read hmore => exact .read (accepted_append.2 ⟨huses, hmore⟩)
  | cons e' es ih =>
    have hwords : onLine line (argumentWords (e :: e' :: es)) ++ ⟨.symbol .rparen, line⟩ :: ts = onLine line e.words ++
        ⟨.symbol .comma, line⟩ :: (onLine line (argumentWords (e' :: es)) ++ ⟨.symbol .rparen, line⟩ :: ts) := by
      simp [argumentWords]
    have hfirst := h e List.mem_cons_self _
      (stops_closer (by decide : .symbol .comma ∈ closers) line
        (onLine line (argumentWords (e' :: es)) ++ ⟨.symbol .rparen, line⟩ :: ts)) endLine
    rw [hwords, argumentsFrom]
    generalize arg endLine _ = r at hfirst ⊢
    cases hfirst with
    | tooDeep line h => exact .tooDeep line h
    | read hmore =>
      have hlater := ih (fun e'' he'' => h e'' (List.mem_cons_of_mem _ he'')) (args ++ [e])
        (accepted_append.2 ⟨huses, hmore⟩)
      rw [List.append_assoc, List.singleton_append] at hlater
      simp only []
      rw [if_pos (by simp; omega)]
      exact hlater

/-- **Argument lists** are read when the arguments are. -/
theorem reads_arguments {arg : Parser Expr} {line : UInt32} {args : List Expr}
    (h : ∀ e ∈ args, ∀ ts, Stops 6 ts → arg.Reads vars F (onLine line e.words ++ ts) e ts) (ts : List Token) :
    (arguments arg).Reads vars F
      (⟨.symbol .lparen, line⟩ :: (onLine line (argumentWords args) ++ ⟨.symbol .rparen, line⟩ :: ts)) args ts := by
  refine .symbol (.look ?_)
  cases args with
  | nil => exact .pos rfl (.drop (.pure [] ts))
  | cons e es =>
    have hfirst :
        atSymbol .rparen (onLine line (argumentWords (e :: es)) ++ ⟨.symbol .rparen, line⟩ :: ts) = false := by
      cases es with
      | nil => exact atSymbol_rparen_words line _ e
      | cons e' es =>
        rw [argumentWords, onLine_append, List.append_assoc]
        exact atSymbol_rparen_words line _ e
    exact .neg (ne_true_of_eq_false hfirst) fun endLine => reading_argumentsFrom h ts endLine [] accepted_nil

theorem depth_le_maxDepth {e : Expr} {args : List Expr} (h : e ∈ args) : e.depth ≤ Expr.maxDepth args := by
  induction args with
  | nil => cases h
  | cons e' es ih =>
    rw [Expr.maxDepth]
    rcases List.mem_cons.1 h with rfl | h
    · exact le_max_left _ _
    · exact (ih h).trans (le_max_right _ _)

/-- A call of the device is read up to its last parenthesis. -/
theorem reads_deviceOp {arg : Parser Expr} {line : UInt32} {func : DeviceOp} {args : List Expr}
    (harity : args.length = func.arity)
    (h : ∀ e ∈ args, ∀ ts, Stops 6 ts → arg.Reads vars F (onLine line e.words ++ ts) e ts) (ts : List Token) :
    (deviceOp arg).Reads vars F (onLine line (Expr.device func args).words ++ ts) (func, args) ts := by
  have hwords : onLine line (Expr.device func args).words ++ ts =
      ⟨.ident "Device", line⟩ :: ⟨.symbol .dot, line⟩ :: ⟨.ident func.member, line⟩ :: ⟨.symbol .lparen, line⟩ ::
        (onLine line (argumentWords args) ++ ⟨.symbol .rparen, line⟩ :: ts) := by simp [Expr.words]
  have hname : DeviceOp.ofName? func.member = some func := by cases func <;> rfl
  rw [hwords]
  refine .step (fun _ => rfl) (.drop (.symbol (.look (.drop ?_))))
  rw [hname]
  exact (reads_arguments h ts).bind (.pos harity (.pure (func, args) ts))

/-- A word that is not taken is no keyword. -/
theorem spells_eq_false {word keyword : String} (h : isTaken word = false)
    (hk : reservedWords.contains keyword = true) : spells keyword word = false := by
  rw [spells, beq_eq_false_iff_ne]
  intro heq
  rw [isTaken, heq, hk] at h
  cases h

theorem IsKey.not_device {key : String} (h : IsKey key) : spells "DEVICE" key = false := by
  rw [spells, h.upper, beq_eq_false_iff_ne]
  exact h.device

/-- A key is no sign. -/
theorem unaryAt_key {key : String} (h : IsKey key) (line : UInt32) (ts : List Token) :
    unaryAt (⟨.ident key, line⟩ :: ts) = none := by
  have hnot : atKeyword "NOT" (⟨.ident key, line⟩ :: ts) = false := spells_eq_false h.free (by decide)
  rw [unaryAt, hnot]
  rfl

/-- A key that no parenthesis follows is read as a variable. -/
theorem wordExpr_key {key : String} (h : IsKey key) (nested : Parser Expr) (line : UInt32) {ts : List Token}
    (hts : atSymbol .lparen ts = false) : wordExpr nested key line ts = variableExpr key line := by
  rw [wordExpr, spells_eq_false h.free (by decide), spells_eq_false h.free (by decide), h.not_device, hts, h.free]
  rfl

section Operands

variable {levels : ℕ} {line : UInt32} {ts : List Token} {e : Expr}

/-- An operand without an operator in front of it. -/
theorem reads_primary {t : Token} {rest : List Token} (hunary : unaryAt (t :: ts) = none)
    (h : (primary (expr levels)).Reads vars F (t :: ts) e rest) : (unary levels).Reads vars F (t :: ts) e rest := by
  obtain ⟨inner, heq⟩ := unary_eq levels
  rw [heq]
  refine .look ?_
  rw [hunary]
  exact h

/-- A literal is read back. -/
theorem reads_literal {v : Scalar} (h : Written v) :
    (unary levels).Reads vars F (⟨literalWord v, line⟩ :: ts) (.literal v) ts := by
  cases v with
  | null => exact h.elim
  | real x => exact h.elim
  | int n => exact reads_primary rfl (.look (.drop (.pure _ ts)))
  | text s => exact reads_primary rfl (.look (.drop (.pure _ ts)))
  | bool b => cases b with
    | true => exact reads_primary rfl (.look (.pos rfl (.drop (.pure _ ts))))
    | false => exact reads_primary rfl (.look (.neg (by decide) (.pos rfl (.drop (.pure _ ts)))))

/-- A variable is read back where no member follows. -/
theorem reads_var {key : String} (hkey : IsKey key) (h : Admits vars key false) (hstops : Stops 0 ts) :
    (unary levels).Reads vars F (⟨.ident key, line⟩ :: ts) (.var key) ts := by
  have hword : (wordExpr (expr levels) key line ts).Reads vars F (⟨.ident key, line⟩ :: ts) (.var key) ts := by
    rw [wordExpr_key hkey (expr levels) line hstops.arguments]
    exact .drop (.look (.neg (ne_true_of_eq_false hstops.member) (Reads.use hkey.upper h line ts).map))
  exact reads_primary (unaryAt_key hkey line ts) (.look hword)

/-- The step time of a variable is read back. -/
theorem reads_stepTime {key : String} (hkey : IsKey key) (h : Admits vars key true) :
    (unary levels).Reads vars F
      (⟨.ident key, line⟩ :: ⟨.symbol .dot, line⟩ :: ⟨.ident "StepTime", line⟩ :: ts) (.stepTime key) ts := by
  have hword : (wordExpr (expr levels) key line
      (⟨.symbol .dot, line⟩ :: ⟨.ident "StepTime", line⟩ :: ts)).Reads vars F
      (⟨.ident key, line⟩ :: ⟨.symbol .dot, line⟩ :: ⟨.ident "StepTime", line⟩ :: ts) (.stepTime key) ts := by
    rw [wordExpr_key hkey (expr levels) line rfl]
    exact .drop (.look (.pos rfl (.drop (.look (.drop (.pos rfl (Reads.use hkey.upper h line ts).map))))))
  exact reads_primary (unaryAt_key hkey line _) (.look hword)

/-- An operator in front of an operand. -/
theorem reads_operator (op : UnaryOp) {inner : Parser Expr} (nested : Parser Expr) {operand rest : List Token}
    (h : inner.Reads vars F operand e rest) :
    (Script.operand inner nested).Reads vars F (⟨op.word, line⟩ :: operand) (.unary op e) rest := by
  have hop : unaryAt (⟨op.word, line⟩ :: operand) = some op := by cases op <;> rfl
  refine .look ?_
  rw [hop]
  exact .drop h.map

/-- A unary expression is read back, with its operand in parentheses when that is a binary one. -/
theorem understood_unary (op : UnaryOp) (h : Understood vars e) : Understood vars (.unary op e) := by
  have hdepth : (Expr.unary op e).depth = 1 + e.depth := by rw [Expr.depth]
  refine understood_of_operand rfl fun levels line ts hstops => ?_
  cases levels with
  | zero =>
    refine reads_operator op tooDeep (.tooDeep fun hF => ?_)
    have hpos := depth_pos e
    omega
  | succ levels =>
    have hinner := h.reads levels 0 line ts hstops
    exact reads_operator op _ (hinner.mono fun hF => ⟨by omega, by omega⟩)

/-- An argument is read back by the parser of expressions if there are levels enough for all of them. -/
theorem reads_argument {args : List Expr} (h : ∀ e ∈ args, Understood vars e) (levels : ℕ) (line : UInt32) :
    ∀ e ∈ args, ∀ ts, Stops 6 ts → (expr levels).Reads vars
      (Expr.maxDepth args ≤ levels ∧ Expr.maxDepth args ≤ nestingLimit) (onLine line e.words ++ ts) e ts := by
  intro e he ts hstops
  have hmax := depth_le_maxDepth he
  exact (reads_expr (h e he) hstops levels line).mono fun hF => ⟨hmax.trans hF.1, hmax.trans hF.2⟩

/-- The name of a function on numbers calls it when a parenthesis follows. -/
theorem reads_builtinCall {func : Builtin} {args : List Expr} {nested : Parser Expr} {mid next : List Token}
    (harity : args.length = func.arity) (h : (arguments nested).Reads vars F mid args ts)
    (hnext : atSymbol .lparen next = true) :
    (wordExpr nested func.label line next).Reads vars F (⟨.ident func.label, line⟩ :: mid) (.builtin func args) ts := by
  have hcall : (builtinCall nested func.label line).Reads vars F (⟨.ident func.label, line⟩ :: mid)
      (.builtin func args) ts := by
    cases func <;> exact .drop (h.bind (.pos harity (.pure _ ts)))
  have hword : wordExpr nested func.label line next = builtinCall nested func.label line := by
    have hplain : spells "TRUE" func.label = false ∧ spells "FALSE" func.label = false ∧
        spells "DEVICE" func.label = false := by cases func <;> exact ⟨rfl, rfl, rfl⟩
    rw [wordExpr, hplain.1, hplain.2.1, hplain.2.2, hnext]
    rfl
  rw [hword]
  exact hcall

/-- A call of a built-in function is read back. -/
theorem understood_builtin {func : Builtin} {args : List Expr} (harity : args.length = func.arity)
    (h : ∀ e ∈ args, Understood vars e) : Understood vars (.builtin func args) := by
  have hdepth : (Expr.builtin func args).depth = 1 + Expr.maxDepth args := by rw [Expr.depth]
  refine understood_of_operand rfl fun levels line ts _ => ?_
  have hwords : onLine line (Expr.builtin func args).words ++ ts = ⟨.ident func.label, line⟩ ::
      ⟨.symbol .lparen, line⟩ :: (onLine line (argumentWords args) ++ ⟨.symbol .rparen, line⟩ :: ts) := by
    simp [Expr.words]
  have hunary (next : List Token) : unaryAt (⟨.ident func.label, line⟩ :: next) = none := by cases func <;> rfl
  have hargs := reads_arguments (reads_argument h levels line) ts
  rw [hwords]
  exact (reads_primary (hunary _) (.look (reads_builtinCall harity hargs rfl))).mono fun hF => ⟨by omega, by omega⟩

/-- A call of the device is read back where it gives a value. -/
theorem understood_device {func : DeviceOp} {args : List Expr} (hresult : func.hasResult = true)
    (harity : args.length = func.arity) (h : ∀ e ∈ args, Understood vars e) : Understood vars (.device func args) := by
  have hdepth : (Expr.device func args).depth = 1 + Expr.maxDepth args := by rw [Expr.depth]
  refine understood_of_operand rfl fun levels line ts _ => ?_
  have hcall := reads_deviceOp harity (reads_argument h levels line) ts
  have hword (next : List Token) : (wordExpr (expr levels) "Device" line next).Reads vars
      (Expr.maxDepth args ≤ levels ∧ Expr.maxDepth args ≤ nestingLimit)
      (onLine line (Expr.device func args).words ++ ts) (.device func args) ts :=
    .neg (by decide) (.neg (by decide) (.pos rfl (hcall.bind (.pos hresult (.pure _ ts)))))
  exact (reads_primary rfl (.look (hword _))).mono fun hF => ⟨by omega, by omega⟩

end Operands

/-- **Every expression of the grammar is read back**, whatever tier meets it. -/
theorem understood {e : Expr} (h : e.Plain) (he : e.WellFormed vars) (hvars : ∀ d ∈ vars, d.Plain) :
    Understood vars e := by
  induction h with
  | literal hv => exact understood_of_operand rfl fun levels line ts _ => reads_literal hv
  | var key =>
    cases he with
    | var hkey => exact understood_of_operand rfl fun levels line ts hstops => reads_var (hkey.isKey hvars) hkey hstops
  | stepTime key =>
    cases he with
    | stepTime hkey => exact understood_of_operand rfl fun levels line ts _ => reads_stepTime (hkey.isKey hvars) hkey
  | unary op _ ih =>
    cases he with
    | unary _ he => exact understood_unary op (ih he)
  | binary hmod _ _ ihl ihr =>
    cases he with
    | binary _ hl hr => exact understood_binary (ihl hl) (ihr hr) hmod
  | builtin func _ ih =>
    cases he with
    | builtin harity hargs => exact understood_builtin harity fun e he => ih e he (hargs e he)
  | device func _ ih =>
    cases he with
    | device hresult harity hargs => exact understood_device hresult harity fun e he => ih e he (hargs e he)

end Switchyard.Script
