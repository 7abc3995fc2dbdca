import Switchyard.Script.Token

/-!
# Parsing

A `Parser` reads a value off the front of a token list and leaves the rest. It also reports the
variables it saw (`Use`), which are checked once all declarations are known.

Nesting is bounded: blocks, parentheses, arguments and unary operators each use up one of
`nestingLimit` levels, and the parsers for expressions and statements recurse on the levels that are
left. Chains of operators, argument lists and blocks are loops over the tokens.

* `expr`: expressions with `OR < AND < = <> < relational < + - < * / MOD < unary`, all to the left.
* `statement`: one statement, or nothing for a stray semicolon.
* `varSection`: the declarations between `VAR` and `END_VAR`.
-/

namespace Switchyard.Script

/-- The deepest nesting of blocks, parentheses and operator trees. -/
def nestingLimit : Nat := 128

/-- The words that name no variable. -/
def reservedWords : List String :=
  ["VAR", "END_VAR", "IF", "THEN", "ELSIF", "ELSE", "END_IF", "WHILE", "DO", "END_WHILE", "AND",
   "OR", "NOT", "MOD", "TRUE", "FALSE"]

def isTaken (word : String) : Bool := reservedWords.contains (Text.upper word)

/-- A variable seen while parsing. -/
structure Use where
  key : String
  written : String
  line : UInt32
  /-- Whether it was the variable's `stepTime`. -/
  stepTime : Bool

/-- A value, the variables seen on the way to it and the tokens left. -/
structure Parsed (α : Type) where
  value : α
  uses : List Use
  rest : List Token

/-- A parser also knows the line on which the input ends. -/
def Parser (α : Type) := (endLine : UInt32) → List Token → Except CompileError (Parsed α)

namespace Parser

variable {α β : Type}

protected def pure (a : α) : Parser α := fun _ ts => .ok ⟨a, [], ts⟩

protected def bind (p : Parser α) (f : α → Parser β) : Parser β := fun endLine ts =>
  match p endLine ts with
  | .error e => .error e
  | .ok a =>
    match f a.value endLine a.rest with
    | .error e => .error e
    | .ok b => .ok ⟨b.value, a.uses ++ b.uses, b.rest⟩

instance : Monad Parser where
  pure := Parser.pure
  bind := Parser.bind

/-- Rejects the input on a given line. -/
def failAt (line : UInt32) (fault : CompileFault) : Parser α := fun _ _ => .error ⟨fault, some line⟩

/-- The tokens left. -/
def remaining : Parser (List Token) := fun _ ts => .ok ⟨ts, [], ts⟩

/-- The line of the next token, or the last line of the input. -/
def lineAt (endLine : UInt32) : List Token → UInt32
  | [] => endLine
  | t :: _ => t.line

def lineHere : Parser UInt32 := fun endLine ts => .ok ⟨lineAt endLine ts, [], ts⟩

/-- The token at the front. -/
def peek : List Token → Option TokenContent
  | [] => none
  | t :: _ => some t.content

/-- Rejects the input on the current line. -/
def fail (fault : Option TokenContent → CompileFault) : Parser α := fun endLine ts =>
  .error ⟨fault (peek ts), some (lineAt endLine ts)⟩

/-- Drops the next token. -/
def skip : Parser Unit := fun _ ts => .ok ⟨(), [], ts.tail⟩

/-- Notes a variable and returns its key. -/
def use (written : String) (line : UInt32) (stepTime : Bool) : Parser String := fun _ ts =>
  .ok ⟨Text.upper written, [⟨Text.upper written, written, line, stepTime⟩], ts⟩

end Parser

open Switchyard.Script.Parser

/-- Whether the next token is the given symbol. -/
def atSymbol (s : Symbol) : List Token → Bool
  | ⟨.symbol s', _⟩ :: _ => s = s'
  | _ => false

/-- Whether a word is the given keyword, in any letter case. -/
def spells (keyword word : String) : Bool := Text.upper word == keyword

/-- Whether the next token is the given keyword. -/
def atKeyword (keyword : String) : List Token → Bool
  | ⟨.ident word, _⟩ :: _ => spells keyword word
  | _ => false

def expectSymbol (s : Symbol) : Parser Unit := do
  if atSymbol s (← remaining) then skip else fail (.expectedSymbol s)

def takeKeyword (keyword : String) : Parser Unit := do
  if atKeyword keyword (← remaining) then skip else fail (.expectedKeyword keyword)

def optionalSemicolon : Parser Unit := do
  if atSymbol .semi (← remaining) then skip else pure ()

/-- An operator with operands, unless the tree gets too high. -/
def binary (op : BinaryOp) (lhs rhs : Expr) : Parser Expr :=
  if 1 + max lhs.depth rhs.depth > nestingLimit then fail fun _ => .nestedTooDeeply
  else pure (.binary op lhs rhs)

/-- Which operator of a level stands at the front. -/
abbrev OperatorAt := List Token → Option BinaryOp

/-- Reads `operator operand` pairs as long as there are any, growing the tree to the left. -/
def chainFrom (operator : OperatorAt) (operand : Parser Expr) (endLine : UInt32) (lhs : Expr) (uses : List Use) :
    List Token → Except CompileError (Parsed Expr)
  | [] => .ok ⟨lhs, uses, []⟩
  | t :: ts =>
    match operator (t :: ts) with
    | none => .ok ⟨lhs, uses, t :: ts⟩
    | some op =>
      match operand endLine ts with
      | .error e => .error e
      | .ok rhs =>
        match binary op lhs rhs.value endLine rhs.rest with
        | .error e => .error e
        | .ok tree =>
          if rhs.rest.length ≤ ts.length then
            chainFrom operator operand endLine tree.value (uses ++ rhs.uses) rhs.rest
          else .ok ⟨tree.value, uses ++ rhs.uses, rhs.rest⟩
  termination_by ts => ts.length
  decreasing_by simp only [List.length_cons]; omega

/-- Operands joined by the operators of one level, grouped to the left. -/
def chain (operator : OperatorAt) (operand : Parser Expr) : Parser Expr := fun endLine ts =>
  match operand endLine ts with
  | .error e => .error e
  | .ok lhs => chainFrom operator operand endLine lhs.value lhs.uses lhs.rest

def orAt : OperatorAt := fun ts => if atKeyword "OR" ts then some .or else none

def andAt : OperatorAt := fun ts => if atKeyword "AND" ts then some .and else none

def equalityAt : OperatorAt := fun ts =>
  match peek ts with
  | some (.symbol .eq) => some .eq
  | some (.symbol .ne) => some .ne
  | _ => none

def relationalAt : OperatorAt := fun ts =>
  match peek ts with
  | some (.symbol .lt) => some .lt
  | some (.symbol .le) => some .le
  | some (.symbol .gt) => some .gt
  | some (.symbol .ge) => some .ge
  | _ => none

def additiveAt : OperatorAt := fun ts =>
  match peek ts with
  | some (.symbol .plus) => some .add
  | some (.symbol .minus) => some .sub
  | _ => none

/-- `MOD` is an operator unless a parenthesis follows: then it is the function. -/
def multiplicativeAt : OperatorAt := fun ts =>
  match peek ts with
  | some (.symbol .star) => some .mul
  | some (.symbol .slash) => some .div
  | _ => if atKeyword "MOD" ts && !atSymbol .lparen ts.tail then some .mod else none

/-- All binary operators over the given operands, the loosest level outermost. -/
def operators (operand : Parser Expr) : Parser Expr :=
  chain orAt <| chain andAt <| chain equalityAt <| chain relationalAt <| chain additiveAt <|
    chain multiplicativeAt operand

/-- Reads `, argument` pairs up to the closing parenthesis. -/
def argumentsFrom (arg : Parser Expr) (endLine : UInt32) (args : List Expr) (uses : List Use) (ts : List Token) :
    Except CompileError (Parsed (List Expr)) :=
  match arg endLine ts with
  | .error e => .error e
  | .ok a =>
    match a.rest with
    | ⟨.symbol .comma, _⟩ :: rest =>
      if rest.length < ts.length then argumentsFrom arg endLine (args ++ [a.value]) (uses ++ a.uses) rest
      else .ok ⟨args ++ [a.value], uses ++ a.uses, rest⟩
    | ⟨.symbol .rparen, _⟩ :: rest => .ok ⟨args ++ [a.value], uses ++ a.uses, rest⟩
    | rest => .error ⟨.expectedSymbol .rparen (peek rest), some (lineAt endLine rest)⟩
  termination_by ts.length

/-- Arguments in parentheses, possibly none. -/
def arguments (arg : Parser Expr) : Parser (List Expr) := do
  expectSymbol .lparen
  if atSymbol .rparen (← remaining) then
    skip
    pure []
  else fun endLine ts => argumentsFrom arg endLine [] [] ts

/-- A call of a `Device` function, from the word `Device` on. -/
def deviceOp (arg : Parser Expr) : Parser (DeviceOp × List Expr) := do
  let line ← lineHere
  skip
  expectSymbol .dot
  match peek (← remaining) with
  | some (.ident name) =>
    skip
    match DeviceOp.ofName? name with
    | none => failAt line (.unknownDeviceFunction name)
    | some func =>
      let args ← arguments arg
      if args.length = func.arity then pure (func, args)
      else failAt line (.wrongArity func.label func.arity args.length)
  | _ => failAt line .expectedDeviceFunction

/-- A call of a function on numbers, from its name on. -/
def builtinCall (arg : Parser Expr) (word : String) (line : UInt32) : Parser Expr :=
  match Builtin.ofName? word with
  | none => failAt line (.unknownFunction word)
  | some func => do
    skip
    let args ← arguments arg
    if args.length = func.arity then pure (.builtin func args)
    else failAt line (.wrongArity (Text.upper word) func.arity args.length)

/-- A variable or its `stepTime`, from its name on. -/
def variableExpr (word : String) (line : UInt32) : Parser Expr := do
  skip
  if atSymbol .dot (← remaining) then
    skip
    match peek (← remaining) with
    | some (.ident member) =>
      skip
      if spells "STEPTIME" member then .stepTime <$> use word line true
      else failAt line (.unsupportedMember word member)
    | _ => failAt line (.expectedMember word)
  else .var <$> use word line false

/-- An expression that starts with a word. -/
def wordExpr (nested : Parser Expr) (word : String) (line : UInt32) (next : List Token) : Parser Expr :=
  if spells "TRUE" word then do skip; pure (.literal (.bool true))
  else if spells "FALSE" word then do skip; pure (.literal (.bool false))
  else if spells "DEVICE" word then do
    let (func, args) ← deviceOp nested
    if func.hasResult then pure (.device func args) else failAt line (.noValue func)
  else if atSymbol .lparen next then builtinCall nested word line
  else if isTaken word then failAt line (.unexpectedInExpression (some (.ident word)))
  else variableExpr word line

/-- An expression without an operator in front; `nested` reads what stands in parentheses. -/
def primary (nested : Parser Expr) : Parser Expr := do
  match ← remaining with
  | [] => fail fun _ => .unexpectedEnd
  | ⟨.int n, _⟩ :: _ => skip; pure (.literal (.int n))
  | ⟨.real x, _⟩ :: _ => skip; pure (.literal (.real x))
  | ⟨.text s, _⟩ :: _ => skip; pure (.literal (.text s))
  | ⟨.symbol .lparen, _⟩ :: _ =>
    skip
    let inner ← nested
    expectSymbol .rparen
    pure inner
  | ⟨.ident word, line⟩ :: next => wordExpr nested word line next
  | _ => fail .unexpectedInExpression

/-- The operator that stands in front of an operand. -/
def unaryAt (ts : List Token) : Option UnaryOp :=
  if atSymbol .minus ts then some .neg else if atKeyword "NOT" ts then some .not else none

/-- An operand: operators in front of it, or a primary expression. -/
def operand (inner nested : Parser Expr) : Parser Expr := do
  match unaryAt (← remaining) with
  | some op => skip; .unary op <$> inner
  | none => primary nested

def tooDeep {α : Type} : Parser α := fail fun _ => .nestedTooDeeply

/-- An operand, with the given number of nesting levels left. -/
def unary : Nat → Parser Expr
  | 0 => operand tooDeep tooDeep
  | levels + 1 =>
    let inner := unary levels
    operand inner (operators inner)

/-- An expression, which takes one nesting level. -/
def expr : Nat → Parser Expr
  | 0 => tooDeep
  | levels + 1 => operators (unary levels)

/-- Reads statements up to one of the keywords. Nothing comes back when the input ends first. -/
def blockFrom (stmt : Parser (Option Stmt)) (terminators : List String) (endLine : UInt32) (stmts : List Stmt)
    (uses : List Use) : List Token → Except CompileError (Parsed (Option (List Stmt)))
  | [] => .ok ⟨none, uses, []⟩
  | t :: ts =>
    if terminators.any (atKeyword · (t :: ts)) then .ok ⟨some stmts, uses, t :: ts⟩
    else if atKeyword "VAR" (t :: ts) then .error ⟨.misplacedVar, some t.line⟩
    else
      match stmt endLine (t :: ts) with
      | .error e => .error e
      | .ok s =>
        if s.rest.length ≤ ts.length then
          blockFrom stmt terminators endLine (stmts ++ s.value.toList) (uses ++ s.uses) s.rest
        else .ok ⟨none, uses ++ s.uses, s.rest⟩
  termination_by ts => ts.length
  decreasing_by simp only [List.length_cons]; omega

/-- The statements of a block that has to end with one of the keywords, which stays unread. -/
def block (stmt : Parser (Option Stmt)) (terminators : List String) (line : UInt32) (unterminated : CompileFault) :
    Parser (List Stmt) := do
  match ← (fun endLine ts => blockFrom stmt terminators endLine [] [] ts : Parser _) with
  | some stmts => pure stmts
  | none => failAt line unterminated

/-- The condition and body of one alternative, after its keyword. -/
def arm (stmt : Parser (Option Stmt)) (cond : Parser Expr) (line : UInt32) : Parser (Expr × List Stmt) := do
  let c ← cond
  takeKeyword "THEN"
  let body ← block stmt ["ELSIF", "ELSE", "END_IF"] line .unterminatedIf
  pure (c, body)

/-- Alternatives in order, with what comes last. -/
def Arms.ofList (last : Arms) : List (Expr × List Stmt) → Arms
  | [] => last
  | (c, body) :: rest => .arm c body (ofList last rest)

/-- Reads `ELSIF` and `ELSE` parts up to `END_IF`. An `ELSE` part runs up to `END_IF`, so it is the
last one. -/
def armsFrom (stmt : Parser (Option Stmt)) (cond : Parser Expr) (line endLine : UInt32)
    (arms : List (Expr × List Stmt)) (uses : List Use) :
    List Token → Except CompileError (Parsed Arms)
  | [] => .error ⟨.unterminatedIf, some line⟩
  | t :: ts =>
    if atKeyword "ELSIF" (t :: ts) then
      match arm stmt cond line endLine ts with
      | .error e => .error e
      | .ok a =>
        if a.rest.length ≤ ts.length then
          armsFrom stmt cond line endLine (arms ++ [a.value]) (uses ++ a.uses) a.rest
        else .error ⟨.unterminatedIf, some line⟩
    else if atKeyword "ELSE" (t :: ts) then
      match block stmt ["END_IF"] line .unterminatedIf endLine ts with
      | .error e => .error e
      | .ok body => .ok ⟨Arms.ofList (.otherwise body.value) arms, uses ++ body.uses, body.rest⟩
    else .ok ⟨Arms.ofList .none arms, uses, t :: ts⟩
  termination_by ts => ts.length
  decreasing_by simp only [List.length_cons]; omega

def conditional (stmt : Parser (Option Stmt)) (cond : Parser Expr) (line : UInt32) : Parser Stmt := do
  takeKeyword "IF"
  let first ← arm stmt cond line
  let arms ← (fun endLine ts => armsFrom stmt cond line endLine [first] [] ts : Parser Arms)
  takeKeyword "END_IF"
  optionalSemicolon
  pure (.choose line arms)

def repetition (stmt : Parser (Option Stmt)) (cond : Parser Expr) (line : UInt32) : Parser Stmt := do
  takeKeyword "WHILE"
  let c ← cond
  takeKeyword "DO"
  let body ← block stmt ["END_WHILE"] line .unterminatedWhile
  takeKeyword "END_WHILE"
  optionalSemicolon
  pure (.loop line c body)

def assignment (value : Parser Expr) (word : String) (line : UInt32) : Parser Stmt := do
  skip
  if atSymbol .assign (← remaining) then
    skip
    let target ← use word line false
    let v ← value
    expectSymbol .semi
    pure (.assign line target v)
  else failAt line (.expectedAssignment word)

/-- One statement. `ifs` and `whiles` read the compound ones, `value` the expressions. -/
def statementOf (ifs whiles : UInt32 → Parser Stmt) (value : Parser Expr) : Parser (Option Stmt) := do
  match ← remaining with
  | [] => pure none
  | ⟨.symbol .semi, _⟩ :: _ => skip; pure none
  | ⟨.ident word, line⟩ :: _ =>
    if spells "IF" word then some <$> ifs line
    else if spells "WHILE" word then some <$> whiles line
    else if spells "DEVICE" word then
      let (func, args) ← deviceOp value
      expectSymbol .semi
      pure (some (.call line func args))
    else if isTaken word then failAt line (.unexpected (some (.ident word)))
    else some <$> assignment value word line
  | _ => fail .unexpected

/-- One statement, with the given number of nesting levels left; nothing for a semicolon. -/
def statement : Nat → Parser (Option Stmt)
  | 0 => statementOf (fun _ => tooDeep) (fun _ => tooDeep) (expr 0)
  | levels + 1 =>
    let inner := statement levels
    let cond := expr levels
    statementOf (conditional inner cond) (repetition inner cond) (expr (levels + 1))

/-- Drops the given symbol from an entry on a given line. -/
def entrySymbol (line : UInt32) (s : Symbol) : Parser Unit := do
  if atSymbol s (← remaining) then skip else failAt line .malformedVar

/-- Reads a word of an entry on a given line. -/
def entryWord (line : UInt32) : Parser String := do
  match peek (← remaining) with
  | some (.ident word) => skip; pure word
  | _ => failAt line .malformedVar

/-- The initializer of an entry, if there is one. -/
def initializer : Parser (Option Expr) := do
  if atSymbol .assign (← remaining) then
    skip
    some <$> expr nestingLimit
  else pure none

/-- One entry `name : TYPE [:= expr];` on a given line. -/
def varEntry (line : UInt32) : Parser Declaration := do
  let name ← entryWord line
  if isTaken name then failAt line .malformedVar
  else do
    entrySymbol line .colon
    let typeName ← entryWord line
    match TypeName.ofName? typeName with
    | none => failAt line (.unknownType typeName)
    | some type =>
      let init ← initializer
      entrySymbol line .semi
      pure ⟨name, Text.upper name, type, init, line⟩

/-- Reads entries up to `END_VAR` and an optional semicolon. -/
def varEntriesFrom (blockLine endLine : UInt32) (decls : List Declaration) (uses : List Use) :
    List Token → Except CompileError (Parsed (List Declaration))
  | [] => .error ⟨.unterminatedVar, some blockLine⟩
  | t :: ts =>
    if atKeyword "END_VAR" (t :: ts) then
      .ok ⟨decls, uses, if atSymbol .semi ts then ts.tail else ts⟩
    else
      match varEntry t.line endLine (t :: ts) with
      | .error e => .error e
      | .ok d =>
        if d.rest.length ≤ ts.length then
          varEntriesFrom blockLine endLine (decls ++ [d.value]) (uses ++ d.uses) d.rest
        else .ok ⟨decls ++ [d.value], uses ++ d.uses, d.rest⟩
  termination_by ts => ts.length
  decreasing_by simp only [List.length_cons]; omega

/-- A block of declarations, from `VAR` on. -/
def varSection : Parser (List Declaration) := do
  let line ← lineHere
  takeKeyword "VAR"
  fun endLine ts => varEntriesFrom line endLine [] [] ts

/-- The declarations and top-level statements of a text. -/
structure Items where
  vars : List Declaration
  body : List Stmt

/-- Reads declarations and statements up to the end of the input. -/
def itemsFrom (endLine : UInt32) (items : Items) (uses : List Use) :
    List Token → Except CompileError (Parsed Items)
  | [] => .ok ⟨items, uses, []⟩
  | t :: ts =>
    if atKeyword "VAR" (t :: ts) then
      match varSection endLine (t :: ts) with
      | .error e => .error e
      | .ok vars =>
        if vars.rest.length ≤ ts.length then
          itemsFrom endLine { items with vars := items.vars ++ vars.value } (uses ++ vars.uses) vars.rest
        else .ok ⟨items, uses, vars.rest⟩
    else
      match statement nestingLimit endLine (t :: ts) with
      | .error e => .error e
      | .ok s =>
        if s.rest.length ≤ ts.length then
          itemsFrom endLine { items with body := items.body ++ s.value.toList } (uses ++ s.uses) s.rest
        else .ok ⟨items, uses, s.rest⟩
  termination_by ts => ts.length
  decreasing_by all_goals simp only [List.length_cons]; omega

end Switchyard.Script
