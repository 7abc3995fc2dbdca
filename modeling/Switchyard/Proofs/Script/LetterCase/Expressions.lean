import Mathlib.Data.List.Forall2
import Switchyard.Script.Compile

/-!
# Expressions in another letter case

Words are compared in upper case wherever the parsers ask what they say: keywords, functions, members and keys of
variables. So two lists of tokens that differ in the letter case of words are read side by side (`ConcurAt`): the
parsers take the same way through both, fail on the same line or read the same and leave lists that again differ in
letter case only (`blind_expr`).

* `Token.Recased`: tokens in another letter case.
* `Agree`, `Concur`: results that fail alike or hold related values.
* `Parser.Blind`: parsers that do not see letter case.
-/

namespace Switchyard.Script

open Switchyard.Script.Parser (remaining skip failAt fail lineAt lineHere peek)

variable {α β γ : Type} {ts ts' : List Token} {t t' : Token} {word word' : String}

/-- **Tokens in another letter case**: the same token, or words that differ in the case of letters only. -/
inductive Token.Recased : Token → Token → Prop
  | same (t : Token) : Recased t t
  | word {word word' : String} (h : Text.upper word' = Text.upper word) (line : UInt32) :
      Recased ⟨.ident word, line⟩ ⟨.ident word', line⟩

/-- Lists of tokens that say the same, in different letter case. -/
abbrev SameWords (ts ts' : List Token) : Prop := List.Forall₂ Token.Recased ts ts'

theorem Token.Recased.symm (h : t.Recased t') : t'.Recased t := by
  cases h with
  | same => exact .same t
  | word hword line => exact .word hword.symm line

/-- Letter case does not move a token to another line. -/
theorem Token.Recased.line_eq (h : t.Recased t') : t'.line = t.line := by
  cases h <;> rfl

/-- Whether a word spells a keyword does not depend on its letter case. -/
theorem spells_of_upper (h : Text.upper word' = Text.upper word) (keyword : String) :
    spells keyword word' = spells keyword word := by rw [spells, spells, h]

/-- Whether a word is taken by the language does not depend on its letter case. -/
theorem isTaken_of_upper (h : Text.upper word' = Text.upper word) : isTaken word' = isTaken word := by
  rw [isTaken, isTaken, h]

namespace SameWords

theorem symm (h : SameWords ts ts') : SameWords ts' ts := h.flip.imp fun _ _ ht => ht.symm

/-- A symbol has no letter case. -/
theorem of_symbol {s : Symbol} {line : UInt32} (h : SameWords (⟨.symbol s, line⟩ :: ts) ts') :
    ∃ rest, ts' = ⟨.symbol s, line⟩ :: rest ∧ SameWords ts rest := by
  cases h with
  | cons ht hts =>
    cases ht with
    | same => exact ⟨_, rfl, hts⟩

/-- The words behind the first one are the same words as well. -/
theorem tail (h : SameWords ts ts') : SameWords ts.tail ts'.tail := by
  cases h with
  | nil => exact .nil
  | cons _ hts => exact hts

/-- The place of reading is on the same line. -/
theorem lineAt_eq (h : SameWords ts ts') (endLine : UInt32) : lineAt endLine ts' = lineAt endLine ts := by
  cases h with
  | nil => rfl
  | cons ht _ => exact ht.line_eq

/-- The same symbols are ahead. -/
theorem atSymbol_eq (h : SameWords ts ts') (s : Symbol) : atSymbol s ts' = atSymbol s ts := by
  cases h with
  | nil => rfl
  | @cons t _ _ _ ht _ =>
    cases ht with
    | same => rcases t with ⟨_ | _ | _ | _ | _, _⟩ <;> rfl
    | word => rfl

/-- The same keywords are ahead. -/
theorem atKeyword_eq (h : SameWords ts ts') (keyword : String) : atKeyword keyword ts' = atKeyword keyword ts := by
  cases h with
  | nil => rfl
  | @cons t _ _ _ ht _ =>
    cases ht with
    | same => rcases t with ⟨_ | _ | _ | _ | _, _⟩ <;> rfl
    | word hword => exact spells_of_upper hword keyword

/-- What stands in front: a word in two letter cases, or the same and no word. -/
theorem front (h : SameWords ts ts') :
    (∃ word word', peek ts = some (.ident word) ∧ peek ts' = some (.ident word') ∧
      Text.upper word' = Text.upper word) ∨ peek ts' = peek ts ∧ ∀ word, peek ts ≠ some (.ident word) := by
  cases h with
  | nil => exact .inr ⟨rfl, nofun⟩
  | @cons t _ _ _ ht _ =>
    cases ht with
    | same =>
      obtain ⟨content, line⟩ := t
      cases content with
      | ident word => exact .inl ⟨word, word, rfl, rfl, rfl⟩
      | int | real | text | symbol => exact .inr ⟨rfl, nofun⟩
    | word hword => exact .inl ⟨_, _, rfl, rfl, hword⟩

end SameWords

/-- **Results that agree**: both fail, and the errors are related, or both hold a value, and these are. -/
def Agree {ε ε' : Type} (E : ε → ε' → Prop) (R : α → β → Prop) : Except ε α → Except ε' β → Prop
  | .error e, .error e' => E e e'
  | .ok a, .ok a' => R a a'
  | _, _ => False

namespace Agree

variable {ε : Type} {E : ε → ε → Prop} {R : α → α → Prop} {x x' y y' : Except ε α}

/-- Results agree by being two errors or two values. -/
theorem cases (h : Agree E R x x') :
    (∃ e e', x = .error e ∧ x' = .error e' ∧ E e e') ∨ ∃ a a', x = .ok a ∧ x' = .ok a' ∧ R a a' := by
  cases x with
  | error e =>
    cases x' with
    | error e' => exact .inl ⟨e, e', rfl, rfl, h⟩
    | ok a' => exact h.elim
  | ok a =>
    cases x' with
    | error e' => exact h.elim
    | ok a' => exact .inr ⟨a, a', rfl, rfl, h⟩

/-- Computations in a row agree if the second ones agree after related values. -/
theorem bind {S : β → β → Prop} {f f' : α → Except ε β} (h : Agree E R x x')
    (hf : ∀ a a', R a a' → Agree E S (f a) (f' a')) : Agree E S (x >>= f) (x' >>= f') := by
  rcases h.cases with ⟨e, e', rfl, rfl, he⟩ | ⟨a, a', rfl, rfl, ha⟩
  · exact he
  · exact hf a a' ha

theorem ite {c c' : Prop} [Decidable c] [Decidable c'] (hc : c' ↔ c) (h : c → Agree E R x x')
    (h' : ¬ c → Agree E R y y') : Agree E R (if c then x else y) (if c' then x' else y') := by
  by_cases hyes : c
  · rw [if_pos hyes, if_pos (hc.2 hyes)]
    exact h hyes
  · rw [if_neg hyes, if_neg fun hyes' => hyes (hc.1 hyes')]
    exact h' hyes

end Agree

/-- Errors on one line. -/
def OneLine (e e' : CompileError) : Prop := e'.line = e.line

/-- Two results of the compiler that fail on the same line, or hold related values. -/
abbrev Concur (R : α → α → Prop) : Except CompileError α → Except CompileError α → Prop := Agree OneLine R

/-- What the checks see of a variable: its key, what is asked of it and its line. -/
def Use.sight (u : Use) : String × Bool × UInt32 := (u.key, u.stepTime, u.line)

/-- Two readings of related values, which see the same variables and leave the same words. -/
structure Parsed.Recased (R : α → α → Prop) (r r' : Parsed α) : Prop where
  value : R r.value r'.value
  sights : r'.uses.map Use.sight = r.uses.map Use.sight
  rest : SameWords r.rest r'.rest

/-- What is seen in two parts is seen as a whole. -/
theorem sights_append {uses uses' more more' : List Use} (huses : uses'.map Use.sight = uses.map Use.sight)
    (hmore : more'.map Use.sight = more.map Use.sight) :
    (uses' ++ more').map Use.sight = (uses ++ more).map Use.sight := by
  rw [List.map_append, List.map_append, huses, hmore]

/-- One parser reads off some tokens what another one reads off others. -/
def ConcurAt (R : α → α → Prop) (p : Parser α) (ts : List Token) (q : Parser α) (ts' : List Token) : Prop :=
  ∀ endLine, Concur (Parsed.Recased R) (p endLine ts) (q endLine ts')

/-- **A parser that does not see letter case.** -/
def Parser.Blind (p : Parser α) : Prop := ∀ ts ts', SameWords ts ts' → ConcurAt Eq p ts p ts'

namespace ConcurAt

variable {R : α → α → Prop} {S : β → β → Prop} {p q p' q' : Parser α} {f g : α → Parser β}

theorem pure {a a' : α} (ha : R a a') (h : SameWords ts ts') : ConcurAt R (Pure.pure a) ts (Pure.pure a') ts' :=
  fun _ => ⟨ha, rfl, h⟩

/-- Two errors on one line agree, whatever they say. -/
theorem failAt {line line' : UInt32} (hline : line' = line) (fault fault' : CompileFault) :
    ConcurAt R (Parser.failAt line fault) ts (Parser.failAt line' fault') ts' := fun _ => congrArg some hline

/-- Errors at the place of reading are on one line. -/
theorem fail (fault fault' : Option TokenContent → CompileFault) (h : SameWords ts ts') :
    ConcurAt R (Parser.fail fault) ts (Parser.fail fault') ts' := fun endLine => congrArg some (h.lineAt_eq endLine)

theorem ite {c c' : Prop} [Decidable c] [Decidable c'] (hc : c' ↔ c) (h : ConcurAt R p ts q ts')
    (h' : ConcurAt R p' ts q' ts') : ConcurAt R (if c then p else p') ts (if c' then q else q') ts' := by
  by_cases hyes : c
  · rwa [if_pos hyes, if_pos (hc.2 hyes)]
  · rwa [if_neg hyes, if_neg fun hyes' => hyes (hc.1 hyes')]

/-- Two readings after others that saw the same variables. -/
theorem after {x x' : Except CompileError (Parsed α)} {uses uses' : List Use} :
    Concur (Parsed.Recased R) x x' → uses'.map Use.sight = uses.map Use.sight →
    Concur (Parsed.Recased R)
      (match x with
        | .error e => .error e
        | .ok b => .ok ⟨b.value, uses ++ b.uses, b.rest⟩)
      (match x' with
        | .error e => .error e
        | .ok b => .ok ⟨b.value, uses' ++ b.uses, b.rest⟩) := by
  intro h huses
  rcases h.cases with ⟨e, e', rfl, rfl, hline⟩ | ⟨b, b', rfl, rfl, hread⟩
  · exact hline
  · exact ⟨hread.value, sights_append huses hread.sights, hread.rest⟩

theorem bind (hp : ConcurAt R p ts q ts')
    (hf : ∀ a a' mid mid', R a a' → SameWords mid mid' → ConcurAt S (f a) mid (g a') mid') :
    ConcurAt S (p >>= f) ts (q >>= g) ts' := by
  intro endLine
  change Concur _ (Parser.bind p f endLine ts) (Parser.bind q g endLine ts')
  unfold Parser.bind
  rcases (hp endLine).cases with ⟨e, e', ha, ha', hline⟩ | ⟨a, a', ha, ha', hread⟩
  · rw [ha, ha']
    exact hline
  · rw [ha, ha']
    exact after (hf a.value a'.value a.rest a'.rest hread.value hread.rest endLine) hread.sights

/-- Goes on after parsers that cannot fail here and see the same variables. -/
theorem step {p q : Parser γ} {f g : γ → Parser β} {c c' : γ} {uses uses' : List Use} {mid mid' : List Token}
    (hp : ∀ endLine, p endLine ts = .ok ⟨c, uses, mid⟩) (hq : ∀ endLine, q endLine ts' = .ok ⟨c', uses', mid'⟩)
    (huses : uses'.map Use.sight = uses.map Use.sight) (h : ConcurAt S (f c) mid (g c') mid') :
    ConcurAt S (p >>= f) ts (q >>= g) ts' := by
  intro endLine
  change Concur _ (Parser.bind p f endLine ts) (Parser.bind q g endLine ts')
  unfold Parser.bind
  rw [hp endLine, hq endLine]
  exact after (h endLine) huses

/-- Goes on after a parser that does not see letter case. -/
theorem next (hp : p.Blind) (h : SameWords ts ts')
    (hf : ∀ a mid mid', SameWords mid mid' → ConcurAt S (f a) mid (g a) mid') :
    ConcurAt S (p >>= f) ts (p >>= g) ts' := by
  refine (hp ts ts' h).bind fun a a' mid mid' ha hmid => ?_
  subst ha
  exact hf a mid mid' hmid

theorem map {g : α → β} (hp : ConcurAt Eq p ts q ts') : ConcurAt Eq (g <$> p) ts (g <$> q) ts' := by
  refine hp.bind fun a a' mid mid' ha hmid => ?_
  subst ha
  exact pure rfl hmid

/-- A look at the tokens. -/
theorem look {f g : List Token → Parser β} (h : ConcurAt S (f ts) ts (g ts') ts') :
    ConcurAt S (remaining >>= f) ts (remaining >>= g) ts' := step (fun _ => rfl) (fun _ => rfl) rfl h

/-- A token is dropped. -/
theorem drop {f g : Unit → Parser β} (h : ConcurAt S (f ()) ts (g ()) ts') :
    ConcurAt S (skip >>= f) (t :: ts) (skip >>= g) (t' :: ts') := step (fun _ => rfl) (fun _ => rfl) rfl h

/-- The same variable is seen on one line. -/
theorem use (hword : Text.upper word' = Text.upper word) {line line' : UInt32} (hline : line' = line) (stepTime : Bool)
    {f g : String → Parser β} (h : ∀ key, ConcurAt S (f key) ts (g key) ts') :
    ConcurAt S (Parser.use word line stepTime >>= f) ts (Parser.use word' line' stepTime >>= g) ts' := by
  refine step (fun _ => rfl) (fun _ => rfl) ?_ (hword ▸ h (Text.upper word))
  rw [List.map_singleton, List.map_singleton, Use.sight, hword, hline]
  rfl

end ConcurAt

theorem Parser.Blind.map {p : Parser α} (h : p.Blind) (g : α → β) : (g <$> p).Blind :=
  fun ts ts' hts => .map (h ts ts' hts)

theorem blind_skip : skip.Blind := fun _ _ h _ => ⟨rfl, rfl, h.tail⟩

theorem blind_tooDeep : (tooDeep : Parser α).Blind := fun _ _ h => .fail _ _ h

theorem blind_expectSymbol (s : Symbol) : (expectSymbol s).Blind :=
  fun _ _ h => .look (.ite (by rw [h.atSymbol_eq]) (blind_skip _ _ h) (.fail _ _ h))

theorem blind_takeKeyword (keyword : String) : (takeKeyword keyword).Blind :=
  fun _ _ h => .look (.ite (by rw [h.atKeyword_eq]) (blind_skip _ _ h) (.fail _ _ h))

theorem blind_optionalSemicolon : optionalSemicolon.Blind :=
  fun _ _ h => .look (.ite (by rw [h.atSymbol_eq]) (blind_skip _ _ h) (.pure rfl h))

/-- A look at the front that does not see letter case. -/
def Blindfold (look : List Token → β) : Prop := ∀ ts ts', SameWords ts ts' → look ts' = look ts

theorem blindfold_orAt : Blindfold orAt := fun _ _ h => by rw [orAt, orAt, h.atKeyword_eq]

theorem blindfold_andAt : Blindfold andAt := fun _ _ h => by rw [andAt, andAt, h.atKeyword_eq]

/-- A look at the first token that sees nothing in words. -/
theorem blindfold_of_front {look : List Token → β} (hsame : ∀ t ts ts', look (t :: ts') = look (t :: ts))
    (hword : ∀ word word' line ts, look (⟨.ident word', line⟩ :: ts) = look (⟨.ident word, line⟩ :: ts)) :
    Blindfold look := by
  intro ts ts' h
  cases h with
  | nil => rfl
  | cons ht _ =>
    cases ht with
    | same => exact hsame _ _ _
    | word => exact (hword _ _ _ _).trans (hsame _ _ _)

theorem blindfold_equalityAt : Blindfold equalityAt := blindfold_of_front (fun _ _ _ => rfl) fun _ _ _ _ => rfl

theorem blindfold_relationalAt : Blindfold relationalAt := blindfold_of_front (fun _ _ _ => rfl) fun _ _ _ _ => rfl

theorem blindfold_additiveAt : Blindfold additiveAt := blindfold_of_front (fun _ _ _ => rfl) fun _ _ _ _ => rfl

/-- The word `MOD` is an operator in any letter case. -/
theorem blindfold_multiplicativeAt : Blindfold multiplicativeAt := by
  intro ts ts' h
  unfold multiplicativeAt
  rw [h.atKeyword_eq, h.tail.atSymbol_eq]
  rcases h.front with ⟨word, word', hpeek, hpeek', -⟩ | ⟨hsame, -⟩
  · rw [hpeek, hpeek']
  · rw [hsame]

/-- The word `NOT` is an operator in any letter case. -/
theorem blindfold_unaryAt : Blindfold unaryAt := by
  intro ts ts' h
  rw [unaryAt, unaryAt, h.atSymbol_eq, h.atKeyword_eq]

/-- Operands are put together without a look at words. -/
theorem blind_binary (op : BinaryOp) (lhs rhs : Expr) : (binary op lhs rhs).Blind :=
  fun _ _ h => .ite Iff.rfl (.fail _ _ h) (.pure rfl h)

/-- Chains go on and end together: they leave as many tokens, so the guard is decided alike. -/
theorem concur_chainFrom {ts ts' : List Token} {operator : OperatorAt} {operand : Parser Expr}
    (hoperator : Blindfold operator) (hoperand : operand.Blind) {endLine : UInt32} {lhs : Expr} {uses uses' : List Use}
    (hts : SameWords ts ts') (huses : uses'.map Use.sight = uses.map Use.sight) :
    Concur (Parsed.Recased Eq) (chainFrom operator operand endLine lhs uses ts)
      (chainFrom operator operand endLine lhs uses' ts') := by
  match ts, ts', hts with
  | [], [], .nil =>
    rw [chainFrom, chainFrom]
    exact ⟨rfl, huses, .nil⟩
  | t :: ts, t' :: ts', .cons ht htail =>
    have hts : SameWords (t :: ts) (t' :: ts') := .cons ht htail
    rw [chainFrom, chainFrom, hoperator _ _ hts]
    cases operator (t :: ts) with
    | none => exact ⟨rfl, huses, hts⟩
    | some op =>
      rcases (hoperand _ _ htail endLine).cases with ⟨e, e', hrhs, hrhs', hline⟩ | ⟨rhs, rhs', hrhs, hrhs', hread⟩
      · simp only [hrhs, hrhs']
        exact hline
      simp only [hrhs, hrhs', ← hread.value]
      have huses := sights_append huses hread.sights
      rcases (blind_binary op lhs rhs.value _ _ hread.rest endLine).cases with
        ⟨e, e', htree, htree', hline⟩ | ⟨tree, tree', htree, htree', hjoined⟩
      · rw [htree, htree']
        exact hline
      simp only [htree, htree', ← hjoined.value]
      refine .ite (by rw [hread.rest.length_eq, htail.length_eq]) (fun hle => ?_) fun _ => ⟨rfl, huses, hread.rest⟩
      exact concur_chainFrom hoperator hoperand hread.rest huses
  termination_by ts.length
  decreasing_by simp only [List.length_cons]; omega

/-- A chain does not see letter case if its operators and operands do not. -/
theorem blind_chain {operator : OperatorAt} {operand : Parser Expr} (hoperator : Blindfold operator)
    (hoperand : operand.Blind) : (chain operator operand).Blind := by
  intro ts ts' hts endLine
  unfold chain
  rcases (hoperand ts ts' hts endLine).cases with ⟨e, e', hlhs, hlhs', hline⟩ | ⟨lhs, lhs', hlhs, hlhs', hread⟩
  · rw [hlhs, hlhs']
    exact hline
  · simp only [hlhs, hlhs', ← hread.value]
    exact concur_chainFrom hoperator hoperand hread.rest hread.sights

/-- Neither do all levels of operators. -/
theorem blind_operators {operand : Parser Expr} (h : operand.Blind) : (operators operand).Blind :=
  blind_chain blindfold_orAt <| blind_chain blindfold_andAt <| blind_chain blindfold_equalityAt <|
    blind_chain blindfold_relationalAt <| blind_chain blindfold_additiveAt <| blind_chain blindfold_multiplicativeAt h

/-- Lists of arguments are read alike, whatever was seen before them. -/
theorem concur_argumentsFrom {ts ts' : List Token} {arg : Parser Expr} (harg : arg.Blind) {endLine : UInt32}
    {args : List Expr} {uses uses' : List Use} (hts : SameWords ts ts')
    (huses : uses'.map Use.sight = uses.map Use.sight) :
    Concur (Parsed.Recased Eq) (argumentsFrom arg endLine args uses ts)
      (argumentsFrom arg endLine args uses' ts') := by
  rw [argumentsFrom, argumentsFrom.eq_def arg endLine args uses' ts']
  rcases (harg _ _ hts endLine).cases with ⟨e, e', ha, ha', hline⟩ | ⟨a, a', ha, ha', hread⟩
  · rw [ha, ha']
    exact hline
  rw [ha, ha']
  dsimp only
  have huses := sights_append huses hread.sights
  split
  · rename_i l rest hrest
    obtain ⟨rest', hrest', hleft⟩ := (hrest ▸ hread.rest).of_symbol
    simp only [hrest', ← hread.value]
    refine .ite (by rw [hleft.length_eq, hts.length_eq]) (fun hlt => ?_) fun _ => ⟨rfl, huses, hleft⟩
    exact concur_argumentsFrom harg hleft huses
  · rename_i l rest hrest
    obtain ⟨rest', hrest', hleft⟩ := (hrest ▸ hread.rest).of_symbol
    simp only [hrest', ← hread.value]
    exact ⟨rfl, huses, hleft⟩
  · rename_i hcomma hrparen
    -- what is not a comma and not a parenthesis is neither in the other text
    split
    · rename_i l rest' hrest'
      obtain ⟨rest, hrest, -⟩ := (hrest' ▸ hread.rest.symm).of_symbol
      exact absurd hrest (hcomma l rest)
    · rename_i l rest' hrest'
      obtain ⟨rest, hrest, -⟩ := (hrest' ▸ hread.rest.symm).of_symbol
      exact absurd hrest (hrparen l rest)
    · exact congrArg some (hread.rest.lineAt_eq endLine)
  termination_by ts.length

/-- A list of arguments in parentheses does not see letter case. -/
theorem blind_arguments {arg : Parser Expr} (harg : arg.Blind) : (arguments arg).Blind := by
  intro ts ts' h
  refine .next (blind_expectSymbol .lparen) h fun _ mid mid' hmid => .look (.ite (by rw [hmid.atSymbol_eq]) ?_ ?_)
  · exact .next blind_skip hmid fun _ _ _ hrest => .pure rfl hrest
  · exact fun endLine => concur_argumentsFrom harg hmid rfl

/-- A number of arguments. -/
theorem concur_arity {arg : Parser Expr} (harg : arg.Blind) (h : SameWords ts ts') (arity : ℕ) {line line' : UInt32}
    (hline : line' = line) {fault fault' : List Expr → CompileFault} (value : List Expr → β) :
    ConcurAt Eq
      (arguments arg >>= fun args => if args.length = arity then pure (value args) else failAt line (fault args)) ts
      (arguments arg >>= fun args => if args.length = arity then pure (value args) else failAt line' (fault' args))
      ts' :=
  .next (blind_arguments harg) h fun _ _ _ hmid => .ite Iff.rfl (.pure rfl hmid) (.failAt hline _ _)

/-- The operations of the device are found by their names in any letter case. -/
theorem concur_deviceOp {arg : Parser Expr} (harg : arg.Blind) (ht : t.Recased t') (h : SameWords ts ts') :
    ConcurAt Eq (deviceOp arg) (t :: ts) (deviceOp arg) (t' :: ts') := by
  refine .step (fun _ => rfl) (fun _ => rfl) rfl (.drop (.next (blind_expectSymbol .dot) h fun _ mid mid' hmid =>
    .look ?_))
  rcases hmid.front with ⟨word, word', hpeek, hpeek', hword⟩ | ⟨hsame, hnone⟩
  · rw [hpeek, hpeek']
    refine .next blind_skip hmid fun _ rest rest' hrest => ?_
    rw [DeviceOp.ofName?, DeviceOp.ofName?, hword]
    split
    · exact .failAt ht.line_eq _ _
    · exact concur_arity harg hrest _ ht.line_eq _
  · rw [hsame]
    split
    · rename_i word hpeek
      exact absurd hpeek (hnone word)
    · exact .failAt ht.line_eq _ _

/-- So are the built-in functions. -/
theorem concur_builtinCall {arg : Parser Expr} (harg : arg.Blind) (hword : Text.upper word' = Text.upper word)
    (line : UInt32) (h : SameWords ts ts') :
    ConcurAt Eq (builtinCall arg word line) ts (builtinCall arg word' line) ts' := by
  unfold builtinCall
  rw [Builtin.ofName?, Builtin.ofName?, hword]
  split
  · exact .failAt rfl _ _
  · exact .next blind_skip h fun _ mid mid' hmid => concur_arity harg hmid _ rfl _

/-- A variable has the same key in any letter case. -/
theorem concur_variableExpr (hword : Text.upper word' = Text.upper word) (line : UInt32) (h : SameWords ts ts') :
    ConcurAt Eq (variableExpr word line) ts (variableExpr word' line) ts' := by
  refine .next blind_skip h fun _ mid mid' hmid => .look (.ite (by rw [hmid.atSymbol_eq]) ?_ ?_)
  · refine .next blind_skip hmid fun _ rest rest' hrest => .look ?_
    rcases hrest.front with ⟨member, member', hpeek, hpeek', hmember⟩ | ⟨hsame, hnone⟩
    · rw [hpeek, hpeek']
      refine .next blind_skip hrest fun _ left left' hleft => .ite (by rw [spells_of_upper hmember]) ?_ ?_
      · exact .use hword rfl true fun key => .pure rfl hleft
      · exact .failAt rfl _ _
    · rw [hsame]
      split
      · rename_i member hpeek
        exact absurd hpeek (hnone member)
      · exact .failAt rfl _ _
  · exact .use hword rfl false fun key => .pure rfl hmid

/-- **Words in expressions** are compared in upper case. -/
theorem concur_wordExpr {nested : Parser Expr} (hnested : nested.Blind) (hword : Text.upper word' = Text.upper word)
    (line : UInt32) (h : SameWords ts ts') :
    ConcurAt Eq (wordExpr nested word line ts) (⟨.ident word, line⟩ :: ts) (wordExpr nested word' line ts')
      (⟨.ident word', line⟩ :: ts') := by
  have ht : Token.Recased ⟨.ident word, line⟩ ⟨.ident word', line⟩ := .word hword line
  have hspells (keyword : String) : spells keyword word' = true ↔ spells keyword word = true := by
    rw [spells_of_upper hword]
  refine .ite (hspells "TRUE") (.drop (.pure rfl h)) (.ite (hspells "FALSE") (.drop (.pure rfl h)) (.ite
    (hspells "DEVICE") ?_ (.ite (by rw [h.atSymbol_eq]) ?_ (.ite (by rw [isTaken_of_upper hword]) ?_ ?_))))
  · refine (concur_deviceOp hnested ht h).bind fun call call' mid mid' hcall hmid => ?_
    subst hcall
    exact .ite Iff.rfl (.pure rfl hmid) (.failAt rfl _ _)
  · exact concur_builtinCall hnested hword line (.cons ht h)
  · exact .failAt rfl _ _
  · exact concur_variableExpr hword line (.cons ht h)

/-- A literal, a name, a call or an expression in parentheses is read alike in any letter case. -/
theorem blind_primary {nested : Parser Expr} (hnested : nested.Blind) : (primary nested).Blind := by
  intro ts ts' h
  refine .look ?_
  cases h with
  | nil => exact .fail _ _ .nil
  | @cons t _ ts ts' ht hts =>
    cases ht with
    | same =>
      obtain ⟨content, line⟩ := t
      cases content with
      | ident word => exact concur_wordExpr hnested rfl line hts
      | int | real | text => exact .drop (.pure rfl hts)
      | symbol s =>
        cases s with
        | lparen =>
          refine .drop (.next hnested hts fun inner mid mid' hmid => ?_)
          exact .next (blind_expectSymbol .rparen) hmid fun _ _ _ hrest => .pure rfl hrest
        | _ => exact .fail _ _ (.cons (.same _) hts)
    | word hword line => exact concur_wordExpr hnested hword line hts

theorem blind_operand {inner nested : Parser Expr} (hinner : inner.Blind) (hnested : nested.Blind) :
    (operand inner nested).Blind := by
  intro ts ts' h
  refine .look ?_
  rw [blindfold_unaryAt ts ts' h]
  cases unaryAt ts with
  | some op => exact .next blind_skip h fun _ mid mid' hmid => hinner.map _ mid mid' hmid
  | none => exact blind_primary hnested ts ts' h

/-- Operands do not see letter case, however many levels of nesting are left. -/
theorem blind_unary (levels : ℕ) : (unary levels).Blind := by
  induction levels with
  | zero => exact blind_operand blind_tooDeep blind_tooDeep
  | succ levels ih => exact blind_operand ih (blind_operators ih)

/-- **Expressions** do not depend on letter case. -/
theorem blind_expr (levels : ℕ) : (expr levels).Blind := by
  cases levels with
  | zero => exact blind_tooDeep
  | succ levels => exact blind_operators (blind_unary levels)

end Switchyard.Script
