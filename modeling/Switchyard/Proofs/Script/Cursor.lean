import Mathlib.Data.Nat.Notation
import Mathlib.Tactic.Common
import Switchyard.Script.Compile

/-!
# The grammar read with a cursor

The parsers of this library hand on the tokens that are left, and take the nesting levels that are left as an argument.
Here is the same grammar with a state: a cursor moves over the tokens, counts the nesting up and down, and collects the
variables (`Reader`). The loops of the grammar are open-ended, and the recursion is general; so that they can be written
down at all, a loop is cut off after some passes (`rounds`) and the recursion after some calls (`calls`), and nothing
comes back then.

* `Cursor`, `Reader`: the state, and what runs on it.
* `Reader.nested`: the nesting is counted up, and down again.
* `Reader.loop`: an open-ended loop.
* `Reader.compile`: a text read with a cursor.
-/

namespace Switchyard.Script

open Switchyard.Script.Parser (peek lineAt)

/-- A place in a list of tokens, with the nesting that is open there and the variables seen before it. -/
structure Cursor where
  position : ℕ
  depth : ℕ
  uses : List Use

/-- A computation that moves a cursor over some tokens. Nothing comes back if it was cut off. -/
def Reader (α : Type) := List Token → Cursor → Option (Except CompileError (α × Cursor))

namespace Reader

variable {α β σ : Type}

protected def pure (a : α) : Reader α := fun _ c => some (.ok (a, c))

protected def bind (m : Reader α) (f : α → Reader β) : Reader β := fun tokens c =>
  match m tokens c with
  | none => none
  | some (.error e) => some (.error e)
  | some (.ok (a, c)) => f a tokens c

instance : Monad Reader where
  pure := Reader.pure
  bind := Reader.bind

def cutOff : Reader α := fun _ _ => none

/-- The tokens from the cursor on. -/
def ahead : Reader (List Token) := fun tokens c => some (.ok (tokens.drop c.position, c))

/-- The line of the next token, or of the last one at the end. -/
def lineHere : Reader UInt32 := fun tokens c => some (.ok (lineAt (lastLine tokens) (tokens.drop c.position), c))

def failAt (line : UInt32) (fault : CompileFault) : Reader α := fun _ _ => some (.error ⟨fault, some line⟩)

/-- Rejects the input on the current line. -/
def fail (fault : Option TokenContent → CompileFault) : Reader α := do failAt (← lineHere) (fault (peek (← ahead)))

/-- Moves the cursor on by one, without a look. -/
def skip : Reader Unit := fun _ c => some (.ok ((), { c with position := c.position + 1 }))

/-- The next token, with the cursor moved behind it. -/
def advance : Reader (Option TokenContent) := do
  match ← ahead with
  | [] => pure none
  | t :: _ => skip; pure (some t.content)

/-- Notes a variable and returns its key. -/
def use (written : String) (line : UInt32) (stepTime : Bool) : Reader String := fun _ c =>
  some (.ok (Text.upper written, { c with uses := c.uses ++ [⟨Text.upper written, written, line, stepTime⟩] }))

/-- Runs a reader one nesting level deeper. -/
def nested (m : Reader α) : Reader α := fun tokens c =>
  if nestingLimit ≤ c.depth then fail (fun _ => .nestedTooDeeply) tokens c
  else
    match m tokens { c with depth := c.depth + 1 } with
    | some (.ok (a, c)) => some (.ok (a, { c with depth := c.depth - 1 }))
    | result => result

/-- An open-ended loop: passes go on with a new state (`inl`) until one is the last (`inr`). It is cut off before the
first pass that goes beyond their number. -/
def loop (pass : σ → Reader (σ ⊕ β)) : ℕ → σ → Reader β
  | 0, _ => cutOff
  | rounds + 1, s => do
    match ← pass s with
    | .inl s => loop pass rounds s
    | .inr b => pure b

def expectSymbol (s : Symbol) : Reader Unit := do
  if atSymbol s (← ahead) then skip else fail (.expectedSymbol s)

def takeKeyword (keyword : String) : Reader Unit := do
  if atKeyword keyword (← ahead) then skip else fail (.expectedKeyword keyword)

def optionalSemicolon : Reader Unit := do
  if atSymbol .semi (← ahead) then skip else pure ()

def binary (op : BinaryOp) (lhs rhs : Expr) : Reader Expr :=
  if 1 + max lhs.depth rhs.depth > nestingLimit then fail fun _ => .nestedTooDeeply
  else pure (.binary op lhs rhs)

/-- A pass of a chain: an operator with its operand, or the end of the chain. -/
def link (operator : OperatorAt) (operand : Reader Expr) (lhs : Expr) : Reader (Expr ⊕ Expr) := do
  match operator (← ahead) with
  | none => pure (.inr lhs)
  | some op =>
    skip
    let rhs ← operand
    .inl <$> binary op lhs rhs

def chain (rounds : ℕ) (operator : OperatorAt) (operand : Reader Expr) : Reader Expr := do
  loop (link operator operand) rounds (← operand)

def multiplicative (rounds : ℕ) (operand : Reader Expr) : Reader Expr := chain rounds multiplicativeAt operand

def additive (rounds : ℕ) (operand : Reader Expr) : Reader Expr :=
  chain rounds additiveAt (multiplicative rounds operand)

def relational (rounds : ℕ) (operand : Reader Expr) : Reader Expr :=
  chain rounds relationalAt (additive rounds operand)

def equality (rounds : ℕ) (operand : Reader Expr) : Reader Expr :=
  chain rounds equalityAt (relational rounds operand)

def conjunction (rounds : ℕ) (operand : Reader Expr) : Reader Expr := chain rounds andAt (equality rounds operand)

def disjunction (rounds : ℕ) (operand : Reader Expr) : Reader Expr := chain rounds orAt (conjunction rounds operand)

/-- A pass over the arguments: one of them, and the mark after it. -/
def argument (arg : Reader Expr) (args : List Expr) : Reader (List Expr ⊕ List Expr) := do
  let args := args ++ [← arg]
  if atSymbol .comma (← ahead) then
    skip
    pure (.inl args)
  else
    expectSymbol .rparen
    pure (.inr args)

def arguments (rounds : ℕ) (arg : Reader Expr) : Reader (List Expr) := do
  expectSymbol .lparen
  if atSymbol .rparen (← ahead) then
    skip
    pure []
  else loop (argument arg) rounds []

def deviceCall (rounds : ℕ) (arg : Reader Expr) : Reader (DeviceOp × List Expr) := do
  let line ← lineHere
  skip
  expectSymbol .dot
  match ← advance with
  | some (.ident name) =>
    match DeviceOp.ofName? name with
    | none => failAt line (.unknownDeviceFunction name)
    | some func =>
      let args ← arguments rounds arg
      if args.length = func.arity then pure (func, args)
      else failAt line (.wrongArity func.label func.arity args.length)
  | _ => failAt line .expectedDeviceFunction

def builtinCall (rounds : ℕ) (arg : Reader Expr) (word : String) (line : UInt32) : Reader Expr :=
  match Builtin.ofName? word with
  | none => failAt line (.unknownFunction word)
  | some func => do
    skip
    let args ← arguments rounds arg
    if args.length = func.arity then pure (.builtin func args)
    else failAt line (.wrongArity (Text.upper word) func.arity args.length)

def variableExpr (word : String) (line : UInt32) : Reader Expr := do
  skip
  if atSymbol .dot (← ahead) then
    skip
    match ← advance with
    | some (.ident member) =>
      if spells "STEPTIME" member then .stepTime <$> use word line true
      else failAt line (.unsupportedMember word member)
    | _ => failAt line (.expectedMember word)
  else .var <$> use word line false

def wordExpr (rounds : ℕ) (inside : Reader Expr) (word : String) (line : UInt32) (next : List Token) : Reader Expr :=
  if spells "TRUE" word then do skip; pure (.literal (.bool true))
  else if spells "FALSE" word then do skip; pure (.literal (.bool false))
  else if spells "DEVICE" word then do
    let (func, args) ← deviceCall rounds inside
    if func.hasResult then pure (.device func args) else failAt line (.noValue func)
  else if atSymbol .lparen next then builtinCall rounds inside word line
  else if isTaken word then failAt line (.unexpectedInExpression (some (.ident word)))
  else variableExpr word line

def primary (rounds : ℕ) (inside : Reader Expr) : Reader Expr := do
  match ← ahead with
  | [] => fail fun _ => .unexpectedEnd
  | ⟨.int n, _⟩ :: _ => skip; pure (.literal (.int n))
  | ⟨.real x, _⟩ :: _ => skip; pure (.literal (.real x))
  | ⟨.text s, _⟩ :: _ => skip; pure (.literal (.text s))
  | ⟨.symbol .lparen, _⟩ :: _ =>
    skip
    let inner ← inside
    expectSymbol .rparen
    pure inner
  | ⟨.ident word, line⟩ :: next => wordExpr rounds inside word line next
  | _ => fail .unexpectedInExpression

/-- An operand: operators in front of another one, or a primary expression. -/
def operand (rounds : ℕ) (inner inside : Reader Expr) : Reader Expr := do
  match unaryAt (← ahead) with
  | some op => skip; .unary op <$> inner
  | none => primary rounds inside

def unary (rounds : ℕ) : ℕ → Reader Expr
  | 0 => cutOff
  | calls + 1 => operand rounds (nested (unary rounds calls)) (nested (disjunction rounds (unary rounds calls)))

def expr (rounds calls : ℕ) : Reader Expr := nested (disjunction rounds (unary rounds calls))

/-- A pass of a block: a look for its end, and a statement. -/
def blockPass (stmt : Reader (Option Stmt)) (terminators : List String) (stmts : List Stmt) :
    Reader (List Stmt ⊕ Option (List Stmt)) := do
  match ← ahead with
  | [] => pure (.inr none)
  | t :: ts =>
    if terminators.any (atKeyword · (t :: ts)) then pure (.inr (some stmts))
    else if atKeyword "VAR" (t :: ts) then failAt t.line .misplacedVar
    else
      let s ← stmt
      pure (.inl (stmts ++ s.toList))

def block (rounds : ℕ) (stmt : Reader (Option Stmt)) (terminators : List String) (line : UInt32)
    (unterminated : CompileFault) : Reader (List Stmt) := do
  match ← loop (blockPass stmt terminators) rounds [] with
  | some stmts => pure stmts
  | none => failAt line unterminated

def arm (rounds : ℕ) (stmt : Reader (Option Stmt)) (cond : Reader Expr) (line : UInt32) :
    Reader (Expr × List Stmt) := do
  let c ← cond
  takeKeyword "THEN"
  let body ← block rounds stmt ["ELSIF", "ELSE", "END_IF"] line .unterminatedIf
  pure (c, body)

/-- A pass over the alternatives: another condition, what comes last, or the end. -/
def armsPass (rounds : ℕ) (stmt : Reader (Option Stmt)) (cond : Reader Expr) (line : UInt32)
    (arms : List (Expr × List Stmt) × Arms) :
    Reader ((List (Expr × List Stmt) × Arms) ⊕ Arms) := do
  let front ← ahead
  if atKeyword "ELSIF" front then
    skip
    let a ← arm rounds stmt cond line
    pure (.inl (arms.1 ++ [a], arms.2))
  else if atKeyword "ELSE" front then
    skip
    let body ← block rounds stmt ["END_IF"] line .unterminatedIf
    pure (.inl (arms.1, .otherwise body))
  else if atKeyword "END_IF" front then
    skip
    optionalSemicolon
    pure (.inr (Arms.ofList arms.2 arms.1))
  else failAt line .unterminatedIf

def conditional (rounds : ℕ) (stmt : Reader (Option Stmt)) (cond : Reader Expr) (line : UInt32) : Reader Stmt := do
  takeKeyword "IF"
  let first ← arm rounds stmt cond line
  let arms ← loop (armsPass rounds stmt cond line) rounds ([first], .none)
  pure (.choose line arms)

def repetition (rounds : ℕ) (stmt : Reader (Option Stmt)) (cond : Reader Expr) (line : UInt32) : Reader Stmt := do
  takeKeyword "WHILE"
  let c ← cond
  takeKeyword "DO"
  let body ← block rounds stmt ["END_WHILE"] line .unterminatedWhile
  takeKeyword "END_WHILE"
  optionalSemicolon
  pure (.loop line c body)

def assignment (value : Reader Expr) (word : String) (line : UInt32) : Reader Stmt := do
  skip
  if atSymbol .assign (← ahead) then
    skip
    let target ← use word line false
    let v ← value
    expectSymbol .semi
    pure (.assign line target v)
  else failAt line (.expectedAssignment word)

def statementOf (rounds : ℕ) (ifs whiles : UInt32 → Reader Stmt) (value : Reader Expr) : Reader (Option Stmt) := do
  match ← ahead with
  | [] => pure none
  | ⟨.symbol .semi, _⟩ :: _ => skip; pure none
  | ⟨.ident word, line⟩ :: _ =>
    if spells "IF" word then some <$> nested (ifs line)
    else if spells "WHILE" word then some <$> nested (whiles line)
    else if spells "DEVICE" word then
      let (func, args) ← deviceCall rounds value
      expectSymbol .semi
      pure (some (.call line func args))
    else if isTaken word then failAt line (.unexpected (some (.ident word)))
    else some <$> assignment value word line
  | _ => fail .unexpected

def statement (rounds : ℕ) : ℕ → Reader (Option Stmt)
  | 0 => cutOff
  | calls + 1 =>
    let inner := statement rounds calls
    let cond := expr rounds calls
    statementOf rounds (conditional rounds inner cond) (repetition rounds inner cond) (expr rounds (calls + 1))

def entrySymbol (line : UInt32) (s : Symbol) : Reader Unit := do
  if atSymbol s (← ahead) then skip else failAt line .malformedVar

def initializer (value : Reader Expr) : Reader (Option Expr) := do
  if atSymbol .assign (← ahead) then
    skip
    some <$> value
  else pure none

def varEntry (value : Reader Expr) (line : UInt32) : Reader Declaration := do
  match peek (← ahead) with
  | some (.ident name) =>
    if isTaken name then failAt line .malformedVar
    else do
      skip
      entrySymbol line .colon
      match ← advance with
      | some (.ident typeName) =>
        match TypeName.ofName? typeName with
        | none => failAt line (.unknownType typeName)
        | some type =>
          let init ← initializer value
          entrySymbol line .semi
          pure ⟨name, Text.upper name, type, init, line⟩
      | _ => failAt line .malformedVar
  | _ => failAt line .malformedVar

/-- A pass over a section of declarations: one of them, or the end. -/
def varPass (value : Reader Expr) (blockLine : UInt32) (decls : List Declaration) :
    Reader (List Declaration ⊕ List Declaration) := do
  match ← ahead with
  | [] => failAt blockLine .unterminatedVar
  | t :: ts =>
    if atKeyword "END_VAR" (t :: ts) then
      skip
      optionalSemicolon
      pure (.inr decls)
    else
      let d ← varEntry value t.line
      pure (.inl (decls ++ [d]))

def varSection (rounds : ℕ) (value : Reader Expr) : Reader (List Declaration) := do
  let line ← lineHere
  takeKeyword "VAR"
  loop (varPass value line) rounds []

/-- A section of declarations or a statement of a program. -/
def item (rounds calls : ℕ) (items : Items) : Reader Items := do
  if atKeyword "VAR" (← ahead) then
    let vars ← varSection rounds (expr rounds calls)
    pure { items with vars := items.vars ++ vars }
  else
    let s ← statement rounds calls
    pure { items with body := items.body ++ s.toList }

/-- Items up to the end of the tokens. At most so many are read. -/
def itemsFrom (rounds calls : ℕ) : ℕ → Items → Reader Items
  | 0, items => do if (← ahead).isEmpty then pure items else cutOff
  | passes + 1, items => do
    if (← ahead).isEmpty then pure items else itemsFrom rounds calls passes (← item rounds calls items)

/-- A text read with a cursor: no loop makes more passes than there are tokens. -/
def compile (source : String) : Option (Except CompileError Program) :=
  match tokenize source with
  | .error e => some (.error e)
  | .ok tokens =>
    match itemsFrom tokens.length (nestingLimit + 1) tokens.length ⟨[], []⟩ tokens ⟨0, 0, []⟩ with
    | none => none
    | some (.error e) => some (.error e)
    | some (.ok (items, c)) =>
      some do
        checkDeclarations [] items.vars
        allDeclared items.vars c.uses
        return ⟨source, items.vars, items.body⟩

theorem bind_pure_eq (m : Reader α) : Reader.bind m Reader.pure = m := by
  funext tokens c
  unfold Reader.bind
  cases m tokens c with
  | none => rfl
  | some r => cases r <;> rfl

theorem bind_bind_eq {γ : Type} (m : Reader α) (f : α → Reader β) (g : β → Reader γ) :
    Reader.bind (Reader.bind m f) g = Reader.bind m fun a => Reader.bind (f a) g := by
  funext tokens c
  unfold Reader.bind
  cases m tokens c with
  | none => rfl
  | some r => cases r <;> rfl

instance : LawfulMonad Reader := LawfulMonad.mk' Reader bind_pure_eq (fun _ _ => rfl) bind_bind_eq

variable {tokens : List Token} {c : Cursor}

theorem bind_eq_some {m : Reader α} {f : α → Reader β} {result : Except CompileError (β × Cursor)} :
    (m >>= f) tokens c = some result ↔ (∃ e, m tokens c = some (.error e) ∧ result = .error e) ∨
      ∃ a c', m tokens c = some (.ok (a, c')) ∧ f a tokens c' = some result := by
  change Reader.bind m f tokens c = _ ↔ _
  unfold Reader.bind
  cases h : m tokens c with
  | none => simp
  | some r =>
    cases r with
    | error e => simp [eq_comm]
    | ok a => simp [Prod.ext_iff, and_assoc]

theorem ahead_bind (f : List Token → Reader α) (tokens : List Token) (c : Cursor) :
    (ahead >>= f) tokens c = f (tokens.drop c.position) tokens c := rfl

theorem skip_bind (f : Unit → Reader α) (tokens : List Token) (c : Cursor) :
    (skip >>= f) tokens c = f () tokens { c with position := c.position + 1 } := rfl

theorem fail_bind (fault : Option TokenContent → CompileFault) (f : α → Reader β) (tokens : List Token) (c : Cursor) :
    (fail fault >>= f) tokens c =
      some (.error ⟨fault (peek (tokens.drop c.position)), some (lineAt (lastLine tokens) (tokens.drop c.position))⟩) :=
  rfl

theorem advance_bind (f : Option TokenContent → Reader α) : advance >>= f = ahead >>= fun
    | [] => f none
    | t :: _ => skip >>= fun _ => f (some t.content) := by
  rw [advance, bind_assoc]
  congr 1
  funext ts
  cases ts <;> rfl

/-- One pass of a loop. -/
theorem loop_succ (pass : σ → Reader (σ ⊕ β)) (rounds : ℕ) (s : σ) :
    loop pass (rounds + 1) s = pass s >>= Sum.elim (loop pass rounds) pure := by
  rw [loop]
  congr 1
  funext next
  cases next <;> rfl

end Reader

end Switchyard.Script
