import Switchyard.Proofs.Script.Precedence

/-!
# What is read alone is read in front of what closes it

A parser of expressions that has read a text to its end reads the same expression where the text
stands in front of a comma or a closing parenthesis, on other lines, and with more nesting levels
left (`follows_expr`, `follows_unary`). The proof follows the parsers: side by side they run over
the tokens and over the same tokens with a tail (`FollowsAt`), and the end of the input is never
taken for anything that the tail could not be taken for.

* `Extended tail ts ts'`: the tokens `ts`, maybe on other lines, and the tail after them.
* `Matches tail r r'`: two readings of one value and of the same variables.
* `Rejects p ts`: tokens that no reading starts with.
-/

namespace Switchyard.Script

open Switchyard.Script.Parser (remaining skip failAt fail)

variable {α β : Type} {tail ts ts' : List Token}

/-- The end of the input, and what closes an argument or a parenthesis. -/
inductive Closes : List Token → Prop
  | nothing : Closes []
  | comma (line : UInt32) (rest : List Token) : Closes (⟨.symbol .comma, line⟩ :: rest)
  | rparen (line : UInt32) (rest : List Token) : Closes (⟨.symbol .rparen, line⟩ :: rest)

/-- Tokens, maybe on other lines, with a tail after them. -/
inductive Extended (tail : List Token) : List Token → List Token → Prop
  | nil : Extended tail [] tail
  | cons (content : TokenContent) (line line' : UInt32) {ts ts' : List Token} (h : Extended tail ts ts') :
      Extended tail (⟨content, line⟩ :: ts) (⟨content, line'⟩ :: ts')

/-- Tokens with the same contents are extended by what is put after them. -/
theorem Extended.of_map (h : ts'.map Token.content = ts.map Token.content) : Extended tail ts (ts' ++ tail) := by
  induction ts generalizing ts' with
  | nil =>
    rw [List.map_eq_nil_iff.1 h]
    exact .nil
  | cons t ts ih =>
    obtain ⟨⟨content, line'⟩, us, rfl, hcontent, hus⟩ := List.map_eq_cons_iff.1 h
    obtain ⟨_, line⟩ := t
    cases hcontent
    exact .cons content line line' (ih hus)

theorem Extended.length (h : Extended tail ts ts') : ts'.length = ts.length + tail.length := by
  induction h with
  | nil => simp
  | cons content line line' _ ih => simp [ih]; omega

/-- A look at the front sees the same, or sees nothing in the end and in the tail. -/
def Steady {γ : Type} (tail : List Token) (look : List Token → γ) : Prop :=
  ∀ ts ts', Extended tail ts ts' → look ts' = look ts

/-- A look at the content of the first token sees nothing in the tail if it sees nothing in a comma
and in a parenthesis. -/
theorem steady_of_front {γ : Type} {look : List Token → γ}
    (hcons : ∀ content l l' ts ts', look (⟨content, l'⟩ :: ts') = look (⟨content, l⟩ :: ts))
    (hcomma : ∀ l ts, look (⟨.symbol .comma, l⟩ :: ts) = look [])
    (hrparen : ∀ l ts, look (⟨.symbol .rparen, l⟩ :: ts) = look []) (htail : Closes tail) : Steady tail look := by
  intro ts ts' h
  cases h with
  | nil =>
    cases htail with
    | nothing => rfl
    | comma line rest => exact hcomma line rest
    | rparen line rest => exact hrparen line rest
  | cons content line line' h => exact hcons content line line' _ _

/-- Which symbol is ahead, a comma or parenthesis apart, does not depend on what comes after the end. -/
theorem steady_atSymbol {s : Symbol} (hs : s ≠ .comma ∧ s ≠ .rparen) (htail : Closes tail) :
    Steady tail (atSymbol s) :=
  steady_of_front (fun content _ _ _ _ => by cases content <;> rfl) (fun _ _ => decide_eq_false hs.1)
    (fun _ _ => decide_eq_false hs.2) htail

theorem steady_atKeyword (keyword : String) (htail : Closes tail) : Steady tail (atKeyword keyword) :=
  steady_of_front (fun content _ _ _ _ => by cases content <;> rfl) (fun _ _ => rfl) (fun _ _ => rfl) htail

/-- Which sign is ahead does not depend on what comes after the end. -/
theorem steady_unaryAt (htail : Closes tail) : Steady tail unaryAt := by
  intro ts ts' h
  rw [unaryAt, unaryAt, steady_atSymbol (by decide) htail ts ts' h, steady_atKeyword "NOT" htail ts ts' h]

theorem steady_orAt (htail : Closes tail) : Steady tail orAt := by
  intro ts ts' h
  rw [orAt, orAt, steady_atKeyword "OR" htail ts ts' h]

theorem steady_andAt (htail : Closes tail) : Steady tail andAt := by
  intro ts ts' h
  rw [andAt, andAt, steady_atKeyword "AND" htail ts ts' h]

/-- Which operator of a level is ahead does not depend on what comes after the end. -/
theorem steady_equalityAt (htail : Closes tail) : Steady tail equalityAt :=
  steady_of_front (fun _ _ _ _ _ => rfl) (fun _ _ => rfl) (fun _ _ => rfl) htail

theorem steady_relationalAt (htail : Closes tail) : Steady tail relationalAt :=
  steady_of_front (fun _ _ _ _ _ => rfl) (fun _ _ => rfl) (fun _ _ => rfl) htail

theorem steady_additiveAt (htail : Closes tail) : Steady tail additiveAt :=
  steady_of_front (fun _ _ _ _ _ => rfl) (fun _ _ => rfl) (fun _ _ => rfl) htail

/-- A look at `MOD` goes one token further. -/
theorem steady_multiplicativeAt (htail : Closes tail) : Steady tail multiplicativeAt := by
  intro ts ts' h
  cases h with
  | nil => cases htail <;> rfl
  | cons content line line' h =>
    have hnext := steady_atSymbol (s := .lparen) (by decide) htail _ _ h
    cases content <;> simp [multiplicativeAt, Parser.peek, atKeyword, hnext]

/-- What the checks ask about a variable that was seen. -/
def Use.mark (u : Use) : String × Bool := (u.key, u.stepTime)

/-- What the checks ask in two parts is what they ask as a whole. -/
theorem marks_append {uses uses' more more' : List Use} (huses : uses'.map Use.mark = uses.map Use.mark)
    (hmore : more'.map Use.mark = more.map Use.mark) :
    (uses' ++ more').map Use.mark = (uses ++ more).map Use.mark := by
  rw [List.map_append, List.map_append, huses, hmore]

/-- Two readings of one value, with the same variables; what the second one leaves is extended. -/
structure Matches (tail : List Token) (r r' : Parsed α) : Prop where
  value : r'.value = r.value
  marks : r'.uses.map Use.mark = r.uses.map Use.mark
  rest : Extended tail r.rest r'.rest

/-- Whatever one parser reads off some tokens, the other one reads off the others. -/
def FollowsAt (tail : List Token) (p : Parser α) (ts : List Token) (q : Parser α) (ts' : List Token) : Prop :=
  ∀ line line' r, p line ts = .ok r → ∃ r', q line' ts' = .ok r' ∧ Matches tail r r'

/-- A parser reads off extended tokens what another one reads off the tokens. -/
def Follows (tail : List Token) (p q : Parser α) : Prop := ∀ ts ts', Extended tail ts ts' → FollowsAt tail p ts q ts'

namespace FollowsAt

variable {p q : Parser α} {f g : α → Parser β}

theorem pure (a : α) (h : Extended tail ts ts') : FollowsAt tail (Pure.pure a) ts (Pure.pure a) ts' := by
  intro line line' r hr
  cases hr
  exact ⟨⟨a, [], ts'⟩, rfl, rfl, rfl, h⟩

theorem failAt (line : UInt32) (fault : CompileFault) : FollowsAt tail (failAt line fault) ts q ts' :=
  fun _ _ _ hr => nomatch hr

theorem fail (fault : Option TokenContent → CompileFault) : FollowsAt tail (fail fault) ts q ts' :=
  fun _ _ _ hr => nomatch hr

/-- Parsers in a row follow each other, as what the first ones leave is extended in the same way. -/
theorem bind (hp : FollowsAt tail p ts q ts')
    (hf : ∀ a mid mid', Extended tail mid mid' → FollowsAt tail (f a) mid (g a) mid') :
    FollowsAt tail (p >>= f) ts (q >>= g) ts' := by
  intro line line' r hr
  change Parser.bind p f line ts = .ok r at hr
  rw [Parser.bind] at hr
  cases ha : p line ts with
  | error e => rw [ha] at hr; cases hr
  | ok a =>
    rw [ha] at hr
    cases hb : f a.value line a.rest with
    | error e => simp only [hb] at hr; cases hr
    | ok b =>
      simp only [hb] at hr
      cases hr
      obtain ⟨a', ha', hmatch⟩ := hp line line' a ha
      obtain ⟨b', hb', hmatch'⟩ := hf a.value a.rest a'.rest hmatch.rest line line' b hb
      refine ⟨⟨b'.value, a'.uses ++ b'.uses, b'.rest⟩, ?_, hmatch'.value, marks_append hmatch.marks hmatch'.marks,
        hmatch'.rest⟩
      change Parser.bind q g line' ts' = _
      simp only [Parser.bind, ha', hmatch.value, hb']

/-- Goes on after parsers that report nothing and cannot fail here. -/
theorem step {γ : Type} {p q : Parser γ} {f g : γ → Parser β} {a a' : γ} {mid mid' : List Token}
    (hp : ∀ line, p line ts = .ok ⟨a, [], mid⟩) (hq : ∀ line, q line ts' = .ok ⟨a', [], mid'⟩)
    (h : FollowsAt tail (f a) mid (g a') mid') : FollowsAt tail (p >>= f) ts (q >>= g) ts' := by
  intro line line' r hr
  change Parser.bind p f line ts = .ok r at hr
  rw [Parser.bind, hp line] at hr
  cases hb : f a line mid with
  | error e => simp only [hb] at hr; cases hr
  | ok b =>
    simp only [hb] at hr
    cases hr
    obtain ⟨b', hb', hmatch⟩ := h line line' b hb
    refine ⟨⟨b'.value, [] ++ b'.uses, b'.rest⟩, ?_, hmatch.value, hmatch.marks, hmatch.rest⟩
    change Parser.bind q g line' ts' = _
    simp only [Parser.bind, hq line', hb']

/-- A look at the tokens. -/
theorem look {f g : List Token → Parser β} (h : FollowsAt tail (f ts) ts (g ts') ts') :
    FollowsAt tail (remaining >>= f) ts (remaining >>= g) ts' := step (fun _ => rfl) (fun _ => rfl) h

/-- A token is dropped. -/
theorem drop {f g : Unit → Parser β} {t t' : Token} (h : FollowsAt tail (f ()) ts (g ()) ts') :
    FollowsAt tail (skip >>= f) (t :: ts) (skip >>= g) (t' :: ts') := step (fun _ => rfl) (fun _ => rfl) h

theorem map {g : α → β} (hp : FollowsAt tail p ts q ts') : FollowsAt tail (g <$> p) ts (g <$> q) ts' :=
  hp.bind fun a _ _ h => pure (g a) h

/-- Both sides of a branch follow, each under its condition. -/
theorem ite {c : Prop} [Decidable c] {p' q' : Parser α} (h : c → FollowsAt tail p ts q ts')
    (h' : ¬ c → FollowsAt tail p' ts q' ts') :
    FollowsAt tail (if c then p else p') ts (if c then q else q') ts' := by
  split
  · exact h ‹c›
  · exact h' ‹¬ c›

/-- A symbol that has to come. -/
theorem symbol (s : Symbol) {f g : Unit → Parser β} (h : Extended tail ts ts')
    (hf : ∀ mid mid', Extended tail mid mid' → FollowsAt tail (f ()) mid (g ()) mid') :
    FollowsAt tail (expectSymbol s >>= f) ts (expectSymbol s >>= g) ts' := by
  refine bind (look ?_) fun _ => hf
  cases h with
  | nil => exact fail _
  | @cons content line line' us us' h =>
    have hsame : atSymbol s (⟨content, line'⟩ :: us') = atSymbol s (⟨content, line⟩ :: us) := by cases content <;> rfl
    rw [hsame]
    refine ite (fun _ => fun _ _ r hr => ?_) fun _ => fail _
    cases hr
    exact ⟨_, rfl, rfl, rfl, h⟩

end FollowsAt

/-- A variable is reported on whatever line, and the checks ask the same about it. -/
theorem follows_use (written : String) (line line' : UInt32) (stepTime : Bool) (h : Extended tail ts ts') :
    FollowsAt tail (Parser.use written line stepTime) ts (Parser.use written line' stepTime) ts' := by
  intro _ _ r hr
  cases hr
  exact ⟨_, rfl, rfl, rfl, h⟩

theorem follows_binary (op : BinaryOp) (lhs rhs : Expr) : Follows tail (binary op lhs rhs) (binary op lhs rhs) :=
  fun _ _ h => .ite (fun _ => .fail _) fun _ => .pure _ h

/-- A chain ends where no operator follows. -/
theorem chainFrom_of_none {operator : OperatorAt} (h : operator ts = none) (operand : Parser Expr) (line : UInt32)
    (lhs : Expr) (uses : List Use) : chainFrom operator operand line lhs uses ts = .ok ⟨lhs, uses, ts⟩ := by
  cases ts with
  | nil => rw [chainFrom]
  | cons t ts => rw [chainFrom, h]

/-- Chains end together, and go on together. -/
theorem follows_chainFrom {operator : OperatorAt} {operand operand' : Parser Expr} (hoperator : Steady tail operator)
    (hnil : operator [] = none) (hoperand : Follows tail operand operand') {line : UInt32} (line' : UInt32) {lhs : Expr}
    {uses uses' : List Use} {r : Parsed Expr} (h : chainFrom operator operand line lhs uses ts = .ok r)
    (hts : Extended tail ts ts') (huses : uses'.map Use.mark = uses.map Use.mark) :
    ∃ r', chainFrom operator operand' line' lhs uses' ts' = .ok r' ∧ Matches tail r r' := by
  have hsame := hoperator ts ts' hts
  -- both sides grow by the same tail, so the guard on what is left is decided alike
  fun_induction chainFrom operator operand line lhs uses ts generalizing uses' ts' with
  | case1 =>
    cases h
    exact ⟨_, chainFrom_of_none (hsame.trans hnil) .., rfl, huses, hts⟩
  | case2 lhs uses t ts hop =>
    cases h
    exact ⟨_, chainFrom_of_none (hsame.trans hop) .., rfl, huses, hts⟩
  | case3 => cases h
  | case4 => cases h
  | case5 lhs uses t ts op hop rhs hrhs tree htree hlt ih =>
    cases hts with
    | cons content l l' hts =>
      obtain ⟨rhs', hrhs', hmatch⟩ := hoperand _ _ hts line line' rhs hrhs
      obtain ⟨tree', htree', htreematch⟩ := follows_binary op lhs rhs.value _ _ hmatch.rest line line' tree htree
      have hlength := hts.length
      have hrest := hmatch.rest.length
      rw [chainFrom, hsame, hop]
      simp only [hrhs', hmatch.value, htree', htreematch.value]
      rw [if_pos (by omega)]
      exact ih h hmatch.rest (marks_append huses hmatch.marks) (hoperator _ _ hmatch.rest)
  | case6 lhs uses t ts op hop rhs hrhs tree htree hlt =>
    cases h
    cases hts with
    | cons content l l' hts =>
      obtain ⟨rhs', hrhs', hmatch⟩ := hoperand _ _ hts line line' rhs hrhs
      obtain ⟨tree', htree', htreematch⟩ := follows_binary op lhs rhs.value _ _ hmatch.rest line line' tree htree
      have hlength := hts.length
      have hrest := hmatch.rest.length
      refine ⟨⟨tree.value, uses' ++ rhs'.uses, rhs'.rest⟩, ?_, rfl, marks_append huses hmatch.marks, hmatch.rest⟩
      rw [chainFrom, hsame, hop]
      simp only [hrhs', hmatch.value, htree', htreematch.value]
      rw [if_neg (by omega)]

/-- A chain reads the same in front of more tokens, which its operators do not take for their own. -/
theorem follows_chain {operator : OperatorAt} {operand operand' : Parser Expr} (hoperator : Steady tail operator)
    (hnil : operator [] = none) (hoperand : Follows tail operand operand') :
    Follows tail (chain operator operand) (chain operator operand') := by
  intro ts ts' hts line line' r hr
  rw [chain] at hr
  cases hlhs : operand line ts with
  | error e => rw [hlhs] at hr; cases hr
  | ok lhs =>
    rw [hlhs] at hr
    obtain ⟨lhs', hlhs', hmatch⟩ := hoperand ts ts' hts line line' lhs hlhs
    obtain ⟨r', hr', hmatch'⟩ := follows_chainFrom hoperator hnil hoperand line' hr hmatch.rest hmatch.marks
    refine ⟨r', ?_, hmatch'⟩
    rw [chain, hlhs']
    simp only [hmatch.value]
    exact hr'

/-- So do all levels of operators. -/
theorem follows_operators {operand operand' : Parser Expr} (htail : Closes tail) (h : Follows tail operand operand') :
    Follows tail (operators operand) (operators operand') :=
  follows_chain (steady_orAt htail) rfl <| follows_chain (steady_andAt htail) rfl <|
    follows_chain (steady_equalityAt htail) rfl <| follows_chain (steady_relationalAt htail) rfl <|
    follows_chain (steady_additiveAt htail) rfl <| follows_chain (steady_multiplicativeAt htail) rfl h

/-- No reading starts with these tokens. -/
def Rejects (p : Parser α) (ts : List Token) : Prop := ∀ line r, p line ts ≠ .ok r

/-- A chain starts with an operand, and is rejected where it is. -/
theorem rejects_chain {operand : Parser Expr} (operator : OperatorAt) (h : Rejects operand ts) :
    Rejects (chain operator operand) ts := by
  intro line r hr
  rw [chain] at hr
  cases hlhs : operand line ts with
  | error e => rw [hlhs] at hr; cases hr
  | ok lhs => exact h line lhs hlhs

theorem rejects_operators {operand : Parser Expr} (h : Rejects operand ts) : Rejects (operators operand) ts :=
  rejects_chain _ <| rejects_chain _ <| rejects_chain _ <| rejects_chain _ <| rejects_chain _ <| rejects_chain _ h

theorem rejects_tooDeep : Rejects (tooDeep : Parser α) ts := fun _ _ hr => nomatch hr

/-- Tokens that start no operand start no expression. -/
theorem rejects_expr (h : ∀ inner nested, Rejects (operand inner nested) ts) (levels : Nat) :
    Rejects (expr levels) ts := by
  cases levels with
  | zero => exact rejects_tooDeep
  | succ levels => cases levels <;> exact rejects_operators (h _ _)

/-- An expression does not start at the end of the input. -/
theorem rejects_nil (levels : Nat) : Rejects (expr levels) [] := by
  refine rejects_expr (fun _ _ _ _ hr => ?_) levels
  cases hr

/-- An expression does not start with a star or with a closing parenthesis. -/
theorem rejects_mark {s : Symbol} (hs : s = .star ∨ s = .rparen) (l : UInt32) (ts : List Token) (levels : Nat) :
    Rejects (expr levels) (⟨.symbol s, l⟩ :: ts) := by
  refine rejects_expr (fun _ _ _ _ hr => ?_) levels
  rcases hs with rfl | rfl <;> cases hr

/-- A list of arguments reads the same in front of more tokens, whatever was seen before. -/
theorem follows_argumentsFrom {arg arg' : Parser Expr} (harg : Follows tail arg arg') {line line' : UInt32}
    {args : List Expr} {uses uses' : List Use} {r : Parsed (List Expr)}
    (h : argumentsFrom arg line args uses ts = .ok r)
    (hts : Extended tail ts ts') (huses : uses'.map Use.mark = uses.map Use.mark) :
    ∃ r', argumentsFrom arg' line' args uses' ts' = .ok r' ∧ Matches tail r r' := by
  -- the mark after an argument is one that the first parser has left, and never the tail
  fun_induction argumentsFrom arg line args uses ts generalizing uses' ts' with
  | case1 => cases h
  | case2 args uses ts a ha l rest hrest hlt ih =>
    obtain ⟨⟨value', more', rest'⟩, ha', hvalue, hmore, hmid⟩ := harg ts ts' hts line line' a ha
    rw [hrest] at hmid
    cases hmid with
    | cons content l l' hmid =>
      have hlength := hts.length
      have hmidLength := hmid.length
      obtain ⟨r', hr', hmatch⟩ := ih h hmid (marks_append huses hmore)
      refine ⟨r', ?_, hmatch⟩
      rw [argumentsFrom, ha']
      simp only []
      rw [if_pos (by omega), ← hr', ← hvalue]
  | case3 args uses ts a ha l rest hrest hlt =>
    cases h
    obtain ⟨⟨value', more', rest'⟩, ha', hvalue, hmore, hmid⟩ := harg ts ts' hts line line' a ha
    rw [hrest] at hmid
    cases hmid with
    | @cons content l l' _ rest' hmid =>
      have hlength := hts.length
      have hmidLength := hmid.length
      refine ⟨⟨args ++ [value'], uses' ++ more', rest'⟩, ?_, congrArg (args ++ [·]) hvalue, marks_append huses hmore,
        hmid⟩
      rw [argumentsFrom, ha']
      simp only []
      rw [if_neg (by omega)]
  | case4 args uses ts a ha l rest hrest =>
    cases h
    obtain ⟨⟨value', more', rest'⟩, ha', hvalue, hmore, hmid⟩ := harg ts ts' hts line line' a ha
    rw [hrest] at hmid
    cases hmid with
    | @cons content l l' _ rest' hmid =>
      refine ⟨⟨args ++ [value'], uses' ++ more', rest'⟩, ?_, congrArg (args ++ [·]) hvalue, marks_append huses hmore,
        hmid⟩
      rw [argumentsFrom, ha']
  | case5 => cases h

/-- An argument list that is closed is read with the tail: it does not end where the tokens do. -/
theorem follows_arguments {arg arg' : Parser Expr} (harg : Follows tail arg arg') (hnil : Rejects arg []) :
    Follows tail (arguments arg) (arguments arg') := by
  intro ts ts' hts
  refine .symbol .lparen hts fun mid mid' hmid => .look ?_
  have hloop : FollowsAt tail (fun line ts => argumentsFrom arg line [] [] ts) mid
      (fun line ts => argumentsFrom arg' line [] [] ts) mid' :=
    fun line line' r hr => follows_argumentsFrom harg hr hmid rfl
  cases hmid with
  | nil =>
    -- the tail could close an empty list here, but the first parser wants an argument
    intro line line' r hr
    have hread : argumentsFrom arg line [] [] [] = .ok r := hr
    rw [argumentsFrom] at hread
    cases harg : arg line [] with
    | error e => rw [harg] at hread; cases hread
    | ok a => exact absurd harg (hnil line a)
  | @cons content l l' us us' h =>
    have hsame : atSymbol .rparen (⟨content, l'⟩ :: us') = atSymbol .rparen (⟨content, l⟩ :: us) := by
      cases content <;> rfl
    rw [hsame]
    exact .ite (fun _ => .drop (.pure [] h)) fun _ => hloop

/-- An operation of the device reads the same in front of more tokens, as its parenthesis is closed. -/
theorem follows_deviceOp {arg arg' : Parser Expr} (harg : Follows tail arg arg') (hnil : Rejects arg []) {t t' : Token}
    (hts : Extended tail ts ts') : FollowsAt tail (deviceOp arg) (t :: ts) (deviceOp arg') (t' :: ts') := by
  refine .step (fun _ => rfl) (fun _ => rfl) (.drop (.symbol .dot hts fun mid mid' hmid => .look ?_))
  cases hmid with
  | nil => exact .failAt _ _
  | cons content l l' h =>
    cases content with
    | ident name =>
      refine .drop ?_
      cases DeviceOp.ofName? name with
      | none => exact .failAt _ _
      | some func =>
        exact (follows_arguments harg hnil _ _ h).bind fun args mid mid' hmid =>
          .ite (fun _ => .pure _ hmid) fun _ => .failAt _ _
    | _ => exact .failAt _ _

/-- So does a call of a built-in function. -/
theorem follows_builtinCall {arg arg' : Parser Expr} (harg : Follows tail arg arg') (hnil : Rejects arg [])
    (word : String) (l l' : UInt32) {t t' : Token} (hts : Extended tail ts ts') :
    FollowsAt tail (builtinCall arg word l) (t :: ts) (builtinCall arg' word l') (t' :: ts') := by
  rw [builtinCall, builtinCall]
  cases Builtin.ofName? word with
  | none => exact .failAt _ _
  | some func =>
    exact .drop <| (follows_arguments harg hnil _ _ hts).bind fun args mid mid' hmid =>
      .ite (fun _ => .pure _ hmid) fun _ => .failAt _ _

/-- A name is no call and has no member just because more tokens come after it. -/
theorem follows_variableExpr (word : String) (htail : Closes tail) (l l' : UInt32) {t t' : Token}
    (hts : Extended tail ts ts') :
    FollowsAt tail (variableExpr word l) (t :: ts) (variableExpr word l') (t' :: ts') := by
  refine .drop (.look ?_)
  rw [steady_atSymbol (s := .dot) (by decide) htail ts ts' hts]
  refine .ite (fun hdot => ?_) fun _ => (follows_use word _ _ false hts).map
  cases hts with
  | nil => cases hdot
  | cons content l l' h =>
    refine .drop (.look ?_)
    cases h with
    | nil => exact .failAt _ _
    | cons content l l' h =>
      cases content with
      | ident member =>
        exact .drop <| .ite (fun _ => (follows_use word _ _ true h).map) fun _ => .failAt _ _
      | _ => exact .failAt _ _

theorem follows_wordExpr {nested nested' : Parser Expr} (hnested : Follows tail nested nested')
    (hnil : Rejects nested []) (htail : Closes tail) (word : String) {l l' : UInt32} (hts : Extended tail ts ts') :
    FollowsAt tail (wordExpr nested word l ts) (⟨.ident word, l⟩ :: ts) (wordExpr nested' word l' ts')
      (⟨.ident word, l'⟩ :: ts') := by
  rw [wordExpr, wordExpr, steady_atSymbol (s := .lparen) (by decide) htail ts ts' hts]
  refine .ite (fun _ => .drop (.pure _ hts)) fun _ => .ite (fun _ => .drop (.pure _ hts)) fun _ =>
    .ite (fun _ => ?_) fun _ => .ite (fun _ => ?_) fun _ => .ite (fun _ => .failAt _ _) fun _ => ?_
  · exact (follows_deviceOp hnested hnil hts).bind fun call mid mid' hmid =>
      .ite (fun _ => .pure _ hmid) fun _ => .failAt _ _
  · exact follows_builtinCall hnested hnil word l l' hts
  · exact follows_variableExpr word htail l l' hts

/-- An operand without a sign reads the same in front of more tokens. -/
theorem follows_primary {nested nested' : Parser Expr} (hnested : Follows tail nested nested')
    (hnil : Rejects nested []) (htail : Closes tail) : Follows tail (primary nested) (primary nested') := by
  intro ts ts' hts
  refine .look ?_
  cases hts with
  | nil => exact .fail _
  | cons content l l' h =>
    cases content with
    | int n => exact .drop (.pure _ h)
    | real x => exact .drop (.pure _ h)
    | text s => exact .drop (.pure _ h)
    | ident word => exact follows_wordExpr hnested hnil htail word h
    | symbol s =>
      cases s with
      | lparen =>
        exact .drop <| (hnested _ _ h).bind fun inner mid mid' hmid => .symbol .rparen hmid fun _ _ h => .pure _ h
      | _ => exact .fail _

theorem follows_tooDeep (q : Parser α) : Follows tail tooDeep q := fun _ _ _ => .fail _

/-- An operand with signs reads the same in front of more tokens. -/
theorem follows_operand {inner inner' nested nested' : Parser Expr} (hinner : Follows tail inner inner')
    (hnested : Follows tail nested nested') (hnil : Rejects nested []) (htail : Closes tail) :
    Follows tail (operand inner nested) (operand inner' nested') := by
  intro ts ts' hts
  refine .look ?_
  rw [steady_unaryAt htail ts ts' hts]
  cases hat : unaryAt ts with
  | none => exact follows_primary hnested hnil htail ts ts' hts
  | some op =>
    cases hts with
    | nil => cases hat
    | cons content l l' h => exact .drop (hinner _ _ h).map

/-- More levels read the same. -/
theorem follows_unary (htail : Closes tail) {levels more : Nat} (hle : levels ≤ more) :
    Follows tail (unary levels) (unary more) := by
  -- a parser without levels reads no operator in front and nothing nested, so it does not matter
  -- what the other one does with them
  induction levels generalizing more with
  | zero =>
    obtain ⟨inner, hunary⟩ := unary_eq more
    rw [hunary]
    exact follows_operand (follows_tooDeep _) (follows_tooDeep _) rejects_tooDeep htail
  | succ levels ih =>
    obtain ⟨more, rfl⟩ : ∃ m, more = m + 1 := ⟨more - 1, by omega⟩
    have hinner : Follows tail (unary levels) (unary more) := ih (by omega)
    exact follows_operand hinner (follows_operators htail hinner) (rejects_nil (levels + 1)) htail

/-- **Expressions** are read in front of what closes them. -/
theorem follows_expr (htail : Closes tail) {levels more : Nat} (hle : levels ≤ more) :
    Follows tail (expr levels) (expr more) := by
  cases levels with
  | zero => exact follows_tooDeep _
  | succ levels =>
    obtain ⟨more, rfl⟩ : ∃ m, more = m + 1 := ⟨more - 1, by omega⟩
    exact follows_operators htail (follows_unary htail (by omega))

end Switchyard.Script
