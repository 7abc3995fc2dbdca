import Switchyard.Proofs.Script.Joining
import Switchyard.Proofs.Script.Stability
import Switchyard.Script.Eval

/-!
# The two forms of `MOD`

A modulo is written as a call, `MOD(a, b)`, or with an operator, `(a) MOD b`. What the two forms
come to is the same in every scope. But the word `MOD` is an operator only where no parenthesis
follows it, so there is no `(a) MOD (b)`: the word that is left there is neither an operator nor a
function that could be called after an operand.

* `Phrase`: a text as the parser of expressions sees it, wherever it stands.
* `modulo_forms`: which of the texts compile as a condition, and what they come to.
-/

namespace Switchyard.Script

open Switchyard.Script.Parser (remaining skip)

variable {α β : Type}

/-- Whatever the last line is, the parser reads the value off the tokens, with variables of these
marks. -/
def Parser.Takes (p : Parser α) (ts : List Token) (value : α) (marks : List (String × Bool)) (rest : List Token) :
    Prop := ∀ line, ∃ uses, p line ts = .ok ⟨value, uses, rest⟩ ∧ uses.map Use.mark = marks

namespace Parser.Takes

variable {p : Parser α} {f : α → Parser β} {ts mid rest : List Token} {a : α} {b : β}
  {marks more : List (String × Bool)}

theorem pure (a : α) (ts : List Token) : Takes (Pure.pure a : Parser α) ts a [] ts := fun _ => ⟨[], rfl, rfl⟩

theorem bind (hp : p.Takes ts a marks mid) (hf : (f a).Takes mid b more rest) :
    (p >>= f).Takes ts b (marks ++ more) rest := by
  intro line
  obtain ⟨uses, hread, hmarks⟩ := hp line
  obtain ⟨later, hlater, hmore⟩ := hf line
  refine ⟨uses ++ later, ?_, by rw [List.map_append, hmarks, hmore]⟩
  change Parser.bind p f line ts = _
  simp only [Parser.bind, hread, hlater]

/-- Goes on after a parser that reports nothing and cannot fail here. -/
theorem step (hp : ∀ line, p line ts = .ok ⟨a, [], mid⟩) (hf : (f a).Takes mid b more rest) :
    (p >>= f).Takes ts b more rest := bind (fun line => ⟨[], hp line, rfl⟩) hf

/-- A look at the tokens. -/
theorem look {f : List Token → Parser β} (hf : (f ts).Takes ts b more rest) :
    (remaining >>= f).Takes ts b more rest := step (fun _ => rfl) hf

/-- A token is dropped. -/
theorem drop {f : Unit → Parser β} {t : Token} (hf : (f ()).Takes ts b more rest) :
    (skip >>= f).Takes (t :: ts) b more rest := step (fun _ => rfl) hf

theorem pos {c : Prop} [Decidable c] {q : Parser α} (hc : c) (h : p.Takes ts a marks rest) :
    (if c then p else q).Takes ts a marks rest := by
  rw [if_pos hc]
  exact h

/-- The symbol that has to come. -/
theorem symbol {f : Unit → Parser β} {s : Symbol} {line : UInt32} (hf : (f ()).Takes ts b more rest) :
    (expectSymbol s >>= f).Takes (⟨.symbol s, line⟩ :: ts) b more rest := by
  have hat : atSymbol s (⟨.symbol s, line⟩ :: ts) = true := decide_eq_true rfl
  have hsymbol : (expectSymbol s).Takes (⟨.symbol s, line⟩ :: ts) () [] ts :=
    look (pos hat fun _ => ⟨[], rfl, rfl⟩)
  exact hsymbol.bind hf

end Parser.Takes

open Switchyard.Script.Parser (Takes)

section Chains

variable {operand : Parser Expr} {operator : OperatorAt} {ts mid rest : List Token} {e l r : Expr}
  {marks more : List (String × Bool)}

/-- What one parser reads to the end of its tokens, a parser that follows it reads up to the tail. -/
theorem takes_of_follows {p q : Parser α} {tail ts' : List Token} {line : UInt32} {value : α} {uses : List Use}
    (hpq : Follows tail p q) (h : p line ts = .ok ⟨value, uses, []⟩) (hts : Extended tail ts ts') :
    q.Takes ts' value (uses.map Use.mark) tail := by
  intro line'
  obtain ⟨⟨value', uses', rest'⟩, hread, hvalue, hmarks, hrest⟩ := hpq ts ts' hts line line' _ h
  cases hvalue
  cases hrest
  exact ⟨uses', hread, hmarks⟩

/-- An operand that no operator of the level follows is all there is. -/
theorem takes_chain (h : operand.Takes ts e marks rest) (hop : operator rest = none) :
    (chain operator operand).Takes ts e marks rest := by
  intro line
  obtain ⟨uses, hread, hmarks⟩ := h line
  refine ⟨uses, ?_, hmarks⟩
  rw [chain, hread]
  exact chainFrom_of_none hop ..

theorem takes_tier (lower level : ℕ) (h : (tier operand lower).Takes ts e marks rest) (hle : lower ≤ level)
    (hops : ∀ l ≤ level, operatorAt l rest = none) : (tier operand level).Takes ts e marks rest := by
  induction level, hle using Nat.le_induction with
  | base => exact h
  | succ level _ ih => exact takes_chain (ih fun l hl => hops l (by omega)) (hops (level + 1) le_rfl)

/-- Two operands with an operator of the level between them. -/
theorem takes_binary {op : BinaryOp} {t : Token} (hl : operand.Takes ts l marks (t :: mid))
    (hr : operand.Takes mid r more rest) (hop : operator (t :: mid) = some op) (hend : operator rest = none)
    (hshorter : rest.length ≤ mid.length) (hdepth : (Expr.binary op l r).depth ≤ nestingLimit) :
    (chain operator operand).Takes ts (.binary op l r) (marks ++ more) rest := by
  intro line
  obtain ⟨uses, hleft, hmarks⟩ := hl line
  obtain ⟨later, hright, hmore⟩ := hr line
  rw [Expr.depth] at hdepth
  have htree : binary op l r line rest = .ok ⟨.binary op l r, [], rest⟩ := by
    rw [binary, if_neg (by omega)]
    rfl
  refine ⟨uses ++ later, ?_, by rw [List.map_append, hmarks, hmore]⟩
  rw [chain, hleft]
  simp only []
  rw [chainFrom, hop]
  simp only [hright, htree]
  rw [if_pos hshorter]
  exact chainFrom_of_none hend ..

/-- What stands in parentheses. -/
theorem takes_parentheses {levels : ℕ} (line : UInt32) {line' : UInt32}
    (h : (expr levels).Takes ts e marks (⟨.symbol .rparen, line'⟩ :: rest)) :
    (unary levels).Takes (⟨.symbol .lparen, line⟩ :: ts) e marks rest := by
  obtain ⟨inner, hunary⟩ := unary_eq levels
  rw [hunary]
  refine .look (.look (.drop ?_))
  have hclosed := h.bind (f := fun inner => expectSymbol .rparen >>= fun _ => Pure.pure inner)
    (Takes.symbol (Takes.pure e rest))
  rwa [List.append_nil] at hclosed

/-- Two arguments in parentheses. -/
theorem takes_arguments {arg : Parser Expr} (line : UInt32) {line' line'' : UInt32}
    (hl : arg.Takes ts l marks (⟨.symbol .comma, line'⟩ :: mid))
    (hr : arg.Takes mid r more (⟨.symbol .rparen, line''⟩ :: rest)) (hopen : atSymbol .rparen ts = false)
    (hshorter : mid.length < ts.length) :
    (arguments arg).Takes (⟨.symbol .lparen, line⟩ :: ts) [l, r] (marks ++ more) rest := by
  refine .symbol (.look ?_)
  rw [hopen]
  intro last
  obtain ⟨uses, hleft, hmarks⟩ := hl last
  obtain ⟨later, hright, hmore⟩ := hr last
  refine ⟨[] ++ uses ++ later, ?_, by rw [List.nil_append, List.map_append, hmarks, hmore]⟩
  change argumentsFrom arg last [] [] ts = _
  rw [argumentsFrom, hleft]
  simp only []
  rw [if_pos hshorter, argumentsFrom, hright]
  rfl

end Chains

/-- A text as a parser of expressions sees it, wherever it stands: its tokens, and the expression
that is read off them up to what closes it. -/
structure Phrase (p : Parser Expr) (text : String) (e : Expr) (contents : List TokenContent)
    (marks : List (String × Bool)) : Prop where
  lexes : LexesTo text.toList contents
  takes : ∀ tail, Closes tail → ∀ ts, ts.map Token.content = contents → p.Takes (ts ++ tail) e marks tail

/-- The text is read as a whole by a parser of expressions. -/
def IsText (p : Parser Expr) (text : String) (e : Expr) : Prop :=
  ∃ tokens uses, tokenize text = .ok tokens ∧ p (lastLine tokens) tokens = .ok ⟨e, uses, []⟩

theorem phrase_of_follows {p q : Parser Expr} {text : String} {e : Expr} {tokens : List Token} {uses : List Use}
    (hpq : ∀ tail, Closes tail → Follows tail p q) (htokens : tokenize text = .ok tokens)
    (hread : p (lastLine tokens) tokens = .ok ⟨e, uses, []⟩) :
    Phrase q text e (tokens.map Token.content) (uses.map Use.mark) :=
  ⟨lexesTo_of_tokensFrom htokens, fun tail htail _ hts =>
    takes_of_follows (hpq tail htail) hread (Extended.of_map hts)⟩

/-- An expression is a phrase wherever there are as many levels left. -/
theorem phrase_expr {text : String} {e : Expr} {tokens : List Token} {uses : List Use} {levels more : ℕ}
    (hle : levels ≤ more) (htokens : tokenize text = .ok tokens)
    (hread : expr levels (lastLine tokens) tokens = .ok ⟨e, uses, []⟩) :
    Phrase (expr more) text e (tokens.map Token.content) (uses.map Use.mark) :=
  phrase_of_follows (fun _ htail => follows_expr htail hle) htokens hread

/-- Everything that a condition of a program may be: it does not reach the device, and its variables
are declared. -/
structure Allowed (p : Program) (e : Expr) (marks : List (String × Bool)) : Prop where
  detached : e.usesDevice = false
  declared : ∀ m ∈ marks, Admits p.vars m.1 m.2

theorem allDeclared_iff_marks {vars : List Declaration} {uses : List Use} :
    allDeclared vars uses = .ok () ↔ ∀ m ∈ uses.map Use.mark, Admits vars m.1 m.2 := by
  rw [allDeclared_eq_ok, List.forall_mem_map]
  rfl

theorem not_isEmpty_of_takes {levels : ℕ} {tokens rest : List Token} {e : Expr} {marks : List (String × Bool)}
    (h : (expr levels).Takes tokens e marks rest) : tokens.isEmpty = false := by
  cases tokens with
  | nil =>
    obtain ⟨uses, hread, -⟩ := h 1
    exact absurd hread (rejects_nil levels _ _)
  | cons t ts => rfl

/-- **Conditions**: a phrase compiles where it is allowed, to its expression. -/
theorem parseCondition_phrase {p : Program} {text : String} {e e' : Expr} {contents : List TokenContent}
    {marks : List (String × Bool)} (h : Phrase (expr nestingLimit) text e contents marks) :
    parseCondition p text = .ok e' ↔ e' = e ∧ Allowed p e marks := by
  obtain ⟨tokens, htokens, hcontents⟩ := h.lexes 1
  have htakes := h.takes [] .nothing tokens hcontents
  rw [List.append_nil] at htakes
  have hsome := not_isEmpty_of_takes htakes
  obtain ⟨uses, hread, hmarks⟩ := htakes (lastLine tokens)
  have htokenize : tokenize text = .ok tokens := htokens
  simp only [parseCondition, htokenize, Bind.bind, Except.bind, hsome, hread, List.isEmpty_nil, Bool.not_true,
    Bool.false_eq_true, if_false]
  -- The expression is read as it should be, so only the checks are left: the device, and the variables.
  by_cases hdevice : e.usesDevice = true
  · rw [if_pos hdevice]
    refine ⟨fun h => (nomatch h), fun ⟨_, hallowed⟩ => ?_⟩
    rw [hallowed.detached] at hdevice
    cases hdevice
  rw [if_neg hdevice]
  have hchecked : allDeclared p.vars uses = .ok () ↔ _ := allDeclared_iff_marks
  rw [hmarks] at hchecked
  cases hall : allDeclared p.vars uses with
  | error fault =>
    rw [hall] at hchecked
    refine ⟨fun h => (nomatch h), fun ⟨_, hallowed⟩ => ?_⟩
    cases hchecked.2 hallowed.declared
  | ok _ =>
    have hdeclared := hchecked.1 hall
    refine ⟨fun h => ?_, fun ⟨heq, _⟩ => by rw [heq]; rfl⟩
    cases h
    exact ⟨rfl, by simpa using hdevice, hdeclared⟩

/-- A text that goes on after an expression is no condition. -/
theorem parseCondition_of_more {text : String} {e : Expr} {marks : List (String × Bool)} {tokens rest : List Token}
    {t : Token} (htokens : tokenize text = .ok tokens) (h : (expr nestingLimit).Takes tokens e marks (t :: rest))
    (p : Program) : parseCondition p text = .error (unplaced (.unexpectedInCondition (some t.content))) := by
  have hsome := not_isEmpty_of_takes h
  obtain ⟨uses, hread, -⟩ := h (lastLine tokens)
  simp only [parseCondition, htokens, Bind.bind, Except.bind, hsome, hread, List.isEmpty_cons, Bool.not_false,
    Bool.false_eq_true, if_false, if_true]
  rfl

/-- The call. -/
def functionForm (a b : String) : String := "MOD(" ++ a ++ ", " ++ b ++ ")"

/-- The operator, with its left operand in parentheses. -/
def infixForm (a b : String) : String := "(" ++ a ++ ") MOD " ++ b

/-- A text in parentheses. -/
def inParentheses (text : String) : String := "(" ++ text ++ ")"

/-- Whether the first token of a text is an opening parenthesis. -/
def opensParenthesis (text : String) : Bool :=
  match tokenize text with
  | .ok tokens => atSymbol .lparen tokens
  | .error _ => false

section Forms

variable {a b : String} {A B e : Expr} {ca cb : List TokenContent} {ma mb : List (String × Bool)}
  {levels : ℕ} {p : Program}

/-- After an opening parenthesis an expression is apart: it does not start with a star. -/
theorem Phrase.endsAt (h : Phrase (expr levels) a A ca ma) {more : List Char} (hmore : ∀ d ∈ more.head?, Closing d) :
    (TokenContent.symbol .lparen).EndsAt (a.toList ++ more) := by
  intro c hc
  refine beq_eq_false_iff_ne.2 ?_
  rintro rfl
  cases htext : a.toList with
  | nil =>
    rw [htext] at hc
    cases hmore _ hc
  | cons c cs =>
    rw [htext] at hc
    cases hc
    -- a star in front would be the first token
    obtain ⟨ts, htokens, hcontents⟩ := h.lexes 1
    obtain ⟨uses, hread, -⟩ := h.takes [] .nothing ts hcontents 1
    have hstar : lexeme '*' cs = .ok (.token (.symbol .star), cs) := rfl
    rw [htext, tokensFrom_token hstar] at htokens
    cases hlater : tokensFrom 1 cs with
    | error e => rw [hlater] at htokens; cases htokens
    | ok later =>
      rw [hlater] at htokens
      cases htokens
      exact rejects_mark (.inl rfl) _ _ levels _ _ hread

/-- Nor does it start with a closing parenthesis. -/
theorem Phrase.opens (h : Phrase (expr levels) a A ca ma) {ts : List Token} (hts : ts.map Token.content = ca)
    (more : List Token) : atSymbol .rparen (ts ++ more) = false := by
  obtain ⟨uses, hread, -⟩ := h.takes [] .nothing ts hts 1
  rw [List.append_nil] at hread
  cases ts with
  | nil => exact absurd hread (rejects_nil levels _ _)
  | cons t ts =>
    obtain ⟨content, line⟩ := t
    cases content with
    | symbol s =>
      refine decide_eq_false ?_
      rintro rfl
      exact rejects_mark (.inr rfl) _ _ levels _ _ hread
    | _ => rfl

/-- A symbol that no character makes longer. -/
theorem LexesTo.mark {s : Symbol} {rest : List Char} {contents : List TokenContent} (h : LexesTo rest contents)
    (hs : s = .comma ∨ s = .rparen) : LexesTo ((TokenContent.symbol s).spelling ++ rest) (.symbol s :: contents) :=
  h.token trivial fun _ _ => by rcases hs with rfl | rfl <;> rfl

/-- The word `MOD` in front of a blank or a parenthesis. -/
theorem LexesTo.modulo {c : Char} {rest : List Char} {contents : List TokenContent}
    (h : LexesTo (c :: rest) contents) (hc : isWordChar c = false) :
    LexesTo ("MOD".toList ++ c :: rest) (.ident "MOD" :: contents) := by
  refine h.token (t := .ident "MOD") ⟨rfl, rfl⟩ ?_
  rintro d ⟨⟩
  exact hc

/-- An expression after an opening parenthesis, up to what closes it. -/
theorem Phrase.opened (h : Phrase (expr levels) a A ca ma) {d : Char} {more : List Char} {later : List TokenContent}
    (hmore : LexesTo (d :: more) later) (hd : Closing d) :
    LexesTo ('(' :: (a.toList ++ d :: more)) (.symbol .lparen :: (ca ++ later)) := by
  have hclosing : ∀ c ∈ (d :: more).head?, Closing c := by
    rintro c ⟨⟩
    exact hd
  exact (h.lexes.append hmore hclosing).token (t := .symbol .lparen) trivial (h.endsAt hclosing)

theorem lexesTo_functionForm (ha : Phrase (expr levels) a A ca ma) (hb : LexesTo b.toList cb) :
    LexesTo (functionForm a b).toList
      (.ident "MOD" :: .symbol .lparen :: (ca ++ .symbol .comma :: (cb ++ [.symbol .rparen]))) := by
  have htext : (functionForm a b).toList =
      "MOD".toList ++ '(' :: (a.toList ++ ',' :: ' ' :: (b.toList ++ ')' :: [])) := by simp [functionForm]
  have hsecond : LexesTo (b.toList ++ ')' :: []) (cb ++ [.symbol .rparen]) :=
    hb.append (lexesTo_nil.mark (.inr rfl)) (by rintro d ⟨⟩; exact .rparen)
  rw [htext]
  exact (ha.opened (hsecond.blank.mark (.inl rfl)) .comma).modulo rfl

theorem lexesTo_infixForm (ha : Phrase (expr levels) a A ca ma) (hb : LexesTo b.toList cb) :
    LexesTo (infixForm a b).toList (.symbol .lparen :: (ca ++ .symbol .rparen :: .ident "MOD" :: cb)) := by
  have htext : (infixForm a b).toList =
      '(' :: (a.toList ++ ')' :: ' ' :: ("MOD".toList ++ ' ' :: b.toList)) := by simp [infixForm]
  rw [htext]
  exact ha.opened ((hb.blank.modulo rfl).blank.mark (.inr rfl)) .rparen

theorem lexesTo_inParentheses (hb : Phrase (expr levels) b B cb mb) :
    LexesTo (inParentheses b).toList (.symbol .lparen :: (cb ++ [.symbol .rparen])) := by
  have htext : (inParentheses b).toList = '(' :: (b.toList ++ ')' :: []) := by simp [inParentheses]
  rw [htext]
  exact hb.opened (lexesTo_nil.mark (.inr rfl)) .rparen

theorem closes_operatorAt {tail : List Token} (h : Closes tail) {l : ℕ} (hl : l ≤ 6) : operatorAt l tail = none := by
  cases h <;> interval_cases l <;> rfl

/-- The parts of tokens whose contents are known in front. -/
theorem map_content_cons {ts : List Token} {t : TokenContent} {contents : List TokenContent}
    (h : ts.map Token.content = t :: contents) :
    ∃ line ts', ts = ⟨t, line⟩ :: ts' ∧ ts'.map Token.content = contents := by
  obtain ⟨⟨content, line⟩, ts', rfl, rfl, hts'⟩ := List.map_eq_cons_iff.1 h
  exact ⟨line, ts', rfl, hts'⟩

/-- An operand is an expression. -/
theorem Phrase.whole (h : Phrase (unary levels) b B cb mb) : Phrase (expr (levels + 1)) b B cb mb :=
  ⟨h.lexes, fun tail htail ts hts => takes_tier 0 6 (h.takes tail htail ts hts) (by decide)
    fun _ hl => closes_operatorAt htail hl⟩

/-- **The call** is read as a call, with the variables of its arguments. -/
theorem phrase_functionForm (ha : Phrase (expr levels) a A ca ma) (hb : Phrase (expr levels) b B cb mb) :
    Phrase (unary levels) (functionForm a b) (.builtin .mod [A, B])
      (.ident "MOD" :: .symbol .lparen :: (ca ++ .symbol .comma :: (cb ++ [.symbol .rparen]))) (ma ++ mb) := by
  refine ⟨lexesTo_functionForm ha hb.lexes, fun tail _ ts hts => ?_⟩
  obtain ⟨l, ts, rfl, hafterWord⟩ := map_content_cons hts
  obtain ⟨l', ts, rfl, hinside⟩ := map_content_cons hafterWord
  obtain ⟨tsa, ts, rfl, htsa, hafterFirst⟩ := List.map_eq_append_iff.1 hinside
  obtain ⟨l'', ts, rfl, hafterComma⟩ := map_content_cons hafterFirst
  obtain ⟨tsb, ts, rfl, htsb, hafterSecond⟩ := List.map_eq_append_iff.1 hafterComma
  obtain ⟨last, ts, rfl, hnothing⟩ := map_content_cons hafterSecond
  obtain rfl := List.map_eq_nil_iff.1 hnothing
  -- each argument is read up to the mark that closes it
  have hsecond := hb.takes (⟨.symbol .rparen, last⟩ :: tail) (.rparen _ _) tsb htsb
  have hfirst := ha.takes (⟨.symbol .comma, l''⟩ :: (tsb ++ ⟨.symbol .rparen, last⟩ :: tail)) (.comma _ _) tsa htsa
  have hargs := takes_arguments l' hfirst hsecond (ha.opens htsa _) (by simp; omega)
  have hcall := hargs.bind (f := fun args => if args.length = Builtin.mod.arity then
    Pure.pure (Expr.builtin .mod args) else Parser.failAt l (.wrongArity "MOD" Builtin.mod.arity args.length))
    (.pos rfl (Takes.pure (Expr.builtin .mod [A, B]) tail))
  obtain ⟨inner, hunary⟩ := unary_eq levels
  rw [List.append_nil] at hcall
  rw [hunary]
  simp only [List.cons_append, List.append_assoc, List.nil_append]
  exact .look (.look (.drop hcall))

/-- The tokens of the infix form. -/
theorem tokens_infixForm {ts : List Token}
    (h : ts.map Token.content = .symbol .lparen :: (ca ++ .symbol .rparen :: .ident "MOD" :: cb)) :
    ∃ l tsa l' l'' tsb, ts = ⟨.symbol .lparen, l⟩ :: (tsa ++ ⟨.symbol .rparen, l'⟩ :: ⟨.ident "MOD", l''⟩ :: tsb) ∧
      tsa.map Token.content = ca ∧ tsb.map Token.content = cb := by
  obtain ⟨l, ts, rfl, hinside⟩ := map_content_cons h
  obtain ⟨tsa, ts, rfl, htsa, hclosed⟩ := List.map_eq_append_iff.1 hinside
  obtain ⟨l', ts, rfl, hword⟩ := map_content_cons hclosed
  obtain ⟨l'', tsb, rfl, htsb⟩ := map_content_cons hword
  exact ⟨l, tsa, l', l'', tsb, rfl, htsa, htsb⟩

theorem opensParenthesis_eq (h : LexesTo b.toList cb) {ts : List Token} (hts : ts.map Token.content = cb) :
    opensParenthesis b = atSymbol .lparen ts := by
  obtain ⟨tokens, htokens, hcontents⟩ := h 1
  have htokenize : tokenize b = .ok tokens := htokens
  rw [opensParenthesis, htokenize]
  simp only []
  cases ts with
  | nil => rw [List.map_eq_nil_iff.1 (hcontents.trans hts.symm)]
  | cons t ts =>
    obtain ⟨content, line⟩ := t
    obtain ⟨line', tokens, rfl, -⟩ := map_content_cons (hcontents.trans hts.symm)
    cases content <;> rfl

theorem opensParenthesis_inParentheses (hb : Phrase (expr levels) b B cb mb) :
    opensParenthesis (inParentheses b) = true := by
  obtain ⟨tokens, -, hcontents⟩ := lexesTo_inParentheses hb 1
  rw [opensParenthesis_eq (lexesTo_inParentheses hb) hcontents]
  obtain ⟨l, tokens, rfl, -⟩ := map_content_cons hcontents
  rfl

/-- **The operator** is read as an operator where no parenthesis follows it. -/
theorem phrase_infixForm (ha : Phrase (expr levels) a A ca ma) (hb : Phrase (unary levels) b B cb mb)
    (hopen : opensParenthesis b = false) (hdepth : max A.depth B.depth < nestingLimit) :
    Phrase (expr (levels + 1)) (infixForm a b) (.binary .mod A B)
      (.symbol .lparen :: (ca ++ .symbol .rparen :: .ident "MOD" :: cb)) (ma ++ mb) := by
  refine ⟨lexesTo_infixForm ha hb.lexes, fun tail htail ts hts => ?_⟩
  obtain ⟨l, tsa, l', l'', tsb, rfl, htsa, htsb⟩ := tokens_infixForm hts
  have hleft := takes_parentheses l (ha.takes _ (.rparen l' (⟨.ident "MOD", l''⟩ :: (tsb ++ tail))) tsa htsa)
  have hright := hb.takes tail htail tsb htsb
  rw [opensParenthesis_eq hb.lexes htsb] at hopen
  -- an operand is not empty, but this need not be known: what closes the form opens nothing
  have hnext : atSymbol .lparen (tsb ++ tail) = false := by
    cases tsb with
    | nil => cases htail <;> rfl
    | cons t ts =>
      obtain ⟨content, line⟩ := t
      cases content <;> exact hopen
  have hop : multiplicativeAt (⟨.ident "MOD", l''⟩ :: (tsb ++ tail)) = some .mod :=
    @operatorAt_word .mod _ (fun _ => hnext) l''
  have hlevel : multiplicativeAt tail = none := closes_operatorAt htail (l := 1) (by decide)
  have htree := takes_binary hleft hright hop hlevel (by simp) (by rw [Expr.depth]; omega)
  have hwhole : (expr (levels + 1)).Takes _ _ _ _ :=
    takes_tier 1 6 htree (by decide) fun _ hl => closes_operatorAt htail hl
  simp only [List.cons_append, List.append_assoc]
  exact hwhole

/-- **In front of a parenthesis** the word `MOD` ends the expression, and the text is no condition. -/
theorem parseCondition_infixForm (ha : Phrase (expr (nestingLimit - 1)) a A ca ma) (hb : LexesTo b.toList cb)
    (hopen : opensParenthesis b = true) (p : Program) :
    parseCondition p (infixForm a b) = .error (unplaced (.unexpectedInCondition (some (.ident "MOD")))) := by
  obtain ⟨tokens, htokens, hcontents⟩ := lexesTo_infixForm ha hb 1
  obtain ⟨l, tsa, l', l'', tsb, rfl, htsa, htsb⟩ := tokens_infixForm hcontents
  have hleft := takes_parentheses l (ha.takes _ (.rparen l' (⟨.ident "MOD", l''⟩ :: tsb)) tsa htsa)
  rw [opensParenthesis_eq hb htsb] at hopen
  have hmod : multiplicativeAt (⟨.ident "MOD", l''⟩ :: tsb) = none := by
    change (if atKeyword "MOD" (⟨.ident "MOD", l''⟩ :: tsb) && !atSymbol .lparen tsb then some BinaryOp.mod
      else none) = none
    rw [hopen, Bool.not_true, Bool.and_false]
    rfl
  -- the other levels do not know the word at all
  have hends (level : ℕ) (hlevel : level ≤ 6) : operatorAt level (⟨.ident "MOD", l''⟩ :: tsb) = none := by
    interval_cases level
    · rfl
    · exact hmod
    all_goals rfl
  have hwhole : (expr (nestingLimit - 1 + 1)).Takes _ _ _ _ := takes_tier 0 6 hleft (by decide) hends
  exact parseCondition_of_more htokens hwhole p

end Forms

/-- **A modulo comes to the same** as a call and with the operator, failures included. -/
theorem evaluate_modulo {σ : Type} (dev : Device σ) (scope : Scope) (A B : Expr) :
    evaluate dev scope (.binary .mod A B) = evaluate dev scope (.builtin .mod [A, B]) := by
  simp only [evaluate, evaluateAll, decided, applyBuiltin, bind_assoc, pure_bind, List.headD_cons, List.tail_cons]

theorem allowed_modulo {p : Program} {A B : Expr} {ma mb : List (String × Bool)} :
    (Allowed p (.builtin .mod [A, B]) (ma ++ mb) ↔ Allowed p A ma ∧ Allowed p B mb) ∧
      (Allowed p (.binary .mod A B) (ma ++ mb) ↔ Allowed p A ma ∧ Allowed p B mb) := by
  have hcall : (Expr.builtin .mod [A, B]).usesDevice = (A.usesDevice || B.usesDevice) := by
    simp [Expr.usesDevice, Expr.anyCallsDevice]
  have hop : (Expr.binary .mod A B).usesDevice = (A.usesDevice || B.usesDevice) := by simp [Expr.usesDevice]
  have hboth (e : Expr) (he : e.usesDevice = (A.usesDevice || B.usesDevice)) :
      Allowed p e (ma ++ mb) ↔ Allowed p A ma ∧ Allowed p B mb := by
    constructor
    · intro ⟨hdetached, hdeclared⟩
      obtain ⟨hA, hB⟩ := Bool.or_eq_false_iff.1 (he ▸ hdetached)
      obtain ⟨hma, hmb⟩ := List.forall_mem_append.1 hdeclared
      exact ⟨⟨hA, hma⟩, hB, hmb⟩
    · intro ⟨⟨hA, hma⟩, hB, hmb⟩
      exact ⟨he.trans (Bool.or_eq_false_iff.2 ⟨hA, hB⟩), List.forall_mem_append.2 ⟨hma, hmb⟩⟩
  exact ⟨hboth _ hcall, hboth _ hop⟩

/-- The operator with a right operand: a condition where its operands are, unless the right one opens
with a parenthesis. -/
theorem parseCondition_infixForm_iff {p : Program} {a b : String} {A B e : Expr} {ca cb : List TokenContent}
    {ma mb : List (String × Bool)} (ha : Phrase (expr (nestingLimit - 1)) a A ca ma)
    (hb : Phrase (unary (nestingLimit - 1)) b B cb mb) (hdepth : max A.depth B.depth < nestingLimit) :
    parseCondition p (infixForm a b) = .ok e ↔
      opensParenthesis b = false ∧ e = .binary .mod A B ∧ Allowed p A ma ∧ Allowed p B mb := by
  cases hopen : opensParenthesis b with
  | true =>
    rw [parseCondition_infixForm ha hb.lexes hopen]
    simp
  | false =>
    have hphrase : Phrase (expr nestingLimit) _ _ _ _ := phrase_infixForm ha hb hopen hdepth
    rw [parseCondition_phrase hphrase, allowed_modulo.2]
    simp

/-- A condition that compiles is what its text is read as. -/
theorem parseCondition_isText {p : Program} {text : String} {e : Expr} (h : IsText (expr (nestingLimit - 1)) text e)
    (hcompiles : (parseCondition p text).toOption.isSome = true) : parseCondition p text = .ok e := by
  obtain ⟨tokens, uses, htokens, hread⟩ := h
  have hphrase := phrase_expr (Nat.sub_le nestingLimit 1) htokens hread
  cases hcondition : parseCondition p text with
  | error fault =>
    rw [hcondition] at hcompiles
    cases hcompiles
  | ok e' => rw [((parseCondition_phrase hphrase).1 hcondition).1]

/-- A text of one token. -/
theorem isText_of_takes {q : Parser Expr} {text : String} {e : Expr} {t : TokenContent} {marks : List (String × Bool)}
    (htext : text.toList = t.spelling) (ht : t.Spelled) (h : ∀ line, q.Takes [⟨t, line⟩] e marks []) :
    IsText q text e := by
  have hends : t.EndsAt [] := nofun
  obtain ⟨tokens, htokens, hcontents⟩ := lexesTo_nil.token ht hends 1
  obtain ⟨line, rest, rfl, hnothing⟩ := map_content_cons hcontents
  obtain rfl := List.map_eq_nil_iff.1 hnothing
  obtain ⟨uses, hread, -⟩ := h line (lastLine [⟨t, line⟩])
  rw [List.append_nil, ← htext] at htokens
  exact ⟨_, uses, htokens, hread⟩

/-- **The forms of a modulo.** For all texts `a` and `b` of expressions with a nesting level to spare:

* `MOD(a, b)` compiles as a condition just where `a` and `b` do;
* `(a) MOD (b)` does not compile, in no program;
* `(a) MOD b` compiles where `a` and `b` do, if `b` is an operand that does not open with a
  parenthesis and the tree of operators is not too high, and does not compile if it opens with one;
* the call and the operator come to the same value or the same failure in every scope. -/
theorem modulo_forms (p : Program) {a b : String} {A B : Expr} (ha : IsText (expr (nestingLimit - 1)) a A)
    (hb : IsText (expr (nestingLimit - 1)) b B) :
    (∀ e, parseCondition p (functionForm a b) = .ok e ↔
      e = .builtin .mod [A, B] ∧ parseCondition p a = .ok A ∧ parseCondition p b = .ok B) ∧
    parseCondition p (infixForm a (inParentheses b)) =
      .error (unplaced (.unexpectedInCondition (some (.ident "MOD")))) ∧
    (IsText (unary (nestingLimit - 1)) b B → max A.depth B.depth < nestingLimit →
      ∀ e, parseCondition p (infixForm a b) = .ok e ↔
        opensParenthesis b = false ∧ e = .binary .mod A B ∧ parseCondition p a = .ok A ∧ parseCondition p b = .ok B) ∧
    ∀ {σ : Type} (dev : Device σ) (scope : Scope),
      evaluate dev scope (.binary .mod A B) = evaluate dev scope (.builtin .mod [A, B]) := by
  have hlevels : nestingLimit = nestingLimit - 1 + 1 := rfl
  obtain ⟨tsa, usesa, htsa, hreada⟩ := ha
  obtain ⟨tsb, usesb, htsb, hreadb⟩ := hb
  -- inside of the forms there is one level less than in a condition of its own
  have hinner := phrase_expr le_rfl htsa hreada
  have hinner' := phrase_expr le_rfl htsb hreadb
  have hleft : parseCondition p a = .ok A ↔ _ := parseCondition_phrase (phrase_expr (Nat.sub_le _ _) htsa hreada)
  have hright : parseCondition p b = .ok B ↔ _ := parseCondition_phrase (phrase_expr (Nat.sub_le _ _) htsb hreadb)
  refine ⟨fun e => ?_, ?_, fun hoperand hdepth e => ?_, fun dev scope => evaluate_modulo dev scope A B⟩
  · have hcall := (phrase_functionForm hinner hinner').whole
    rw [← hlevels] at hcall
    rw [parseCondition_phrase hcall, allowed_modulo.1, hleft, hright]
    simp
  · exact parseCondition_infixForm hinner (lexesTo_inParentheses hinner') (opensParenthesis_inParentheses hinner') p
  · obtain ⟨ts, uses, hts, hread⟩ := hoperand
    have hoperand := phrase_of_follows (fun _ htail => follows_unary htail le_rfl) hts hread
    have hwhole := hoperand.whole
    rw [← hlevels] at hwhole
    rw [parseCondition_infixForm_iff hinner hoperand hdepth, hleft, parseCondition_phrase hwhole]
    simp

/-- A program with a counter. -/
def counting : String := "VAR x : INT := 7; END_VAR"

theorem modulo_forms_counting : ∃ p, compile counting = .ok p ∧
    parseCondition p (functionForm "x" "3") = .ok (.builtin .mod [.var "X", .literal (.int 3)]) ∧
    parseCondition p (infixForm "x" "3") = .ok (.binary .mod (.var "X") (.literal (.int 3))) ∧
    parseCondition p (infixForm "x" (inParentheses "3")) =
      .error (unplaced (.unexpectedInCondition (some (.ident "MOD")))) := by
  have hx (levels : ℕ) (line : UInt32) : (unary levels).Takes [⟨.ident "x", line⟩] (.var "X") [("X", false)] [] := by
    obtain ⟨inner, hunary⟩ := unary_eq levels
    rw [hunary]
    exact fun _ => ⟨[⟨"X", "x", line, false⟩], rfl, rfl⟩
  have hthree (levels : ℕ) (line : UInt32) : (unary levels).Takes [⟨.int 3, line⟩] (.literal (.int 3)) [] [] := by
    obtain ⟨inner, hunary⟩ := unary_eq levels
    rw [hunary]
    exact fun _ => ⟨[], rfl, rfl⟩
  have hleft (levels : ℕ) : IsText (expr (levels + 1)) "x" (.var "X") :=
    isText_of_takes (t := .ident "x") rfl ⟨rfl, rfl⟩ fun line =>
      takes_tier 0 6 (hx levels line) (by decide) fun _ hl => closes_operatorAt .nothing hl
  have hright (levels : ℕ) : IsText (expr (levels + 1)) "3" (.literal (.int 3)) :=
    isText_of_takes (t := .int 3) rfl (by decide : (0 : Int) ≤ 3) fun line =>
      takes_tier 0 6 (hthree levels line) (by decide) fun _ hl => closes_operatorAt .nothing hl
  have hoperand (levels : ℕ) : IsText (unary levels) "3" (.literal (.int 3)) :=
    isText_of_takes (t := .int 3) rfl (by decide : (0 : Int) ≤ 3) (hthree levels)
  -- The text compiles and both operands are accepted, which is all that the theorem asks for.
  have hcompiles : (compile counting).toOption.any (fun p =>
      (parseCondition p "x").toOption.isSome && (parseCondition p "3").toOption.isSome) = true := by decide +kernel
  cases hp : compile counting with
  | error fault =>
    rw [hp] at hcompiles
    cases hcompiles
  | ok p =>
    rw [hp] at hcompiles
    obtain ⟨ha, hb⟩ := Bool.and_eq_true_iff.1 hcompiles
    have hx := parseCondition_isText (hleft _) ha
    have hthree := parseCondition_isText (hright _) hb
    obtain ⟨hcall, hparentheses, hoperator, -⟩ := modulo_forms p (hleft _) (hright _)
    have hplain : opensParenthesis "3" = false := by decide +kernel
    exact ⟨p, rfl, (hcall _).2 ⟨rfl, hx, hthree⟩,
      (hoperator (hoperand _) (by decide) _).2 ⟨hplain, rfl, hx, hthree⟩, hparentheses⟩

/-- The call compiles and the operator does not, with the same operands. -/
theorem divisor_in_parentheses : (compile counting).toOption.map (fun p =>
    ((parseCondition p "MOD(x, 3)").toOption.isSome, (parseCondition p "(x) MOD (3)").toOption.isSome)) =
      some (true, false) := by
  decide +kernel

end Switchyard.Script
