import Switchyard.Decimal.Notation
import Switchyard.Script.Error
import Switchyard.Text

/-!
# Tokens

`tokenize` splits a text into tokens and drops white space and comments `(* … *)`. It reads one
lexeme at a time: `lexeme` looks only at the front of the remaining text and says how many lines
the lexeme spans, so tokens do not depend on what stands before them, lines apart.
-/

namespace Switchyard.Script

/-- A piece of text: something to skip, with the number of line feeds in it, or a token. -/
inductive Lexeme where
  | skip (newlines : Nat)
  | token (content : TokenContent)

/-- What follows a comment's opening, with the number of line feeds up to its end. -/
def commentEnd (newlines : Nat) : List Char → Option (Nat × List Char)
  | [] => none
  | '*' :: ')' :: rest => some (newlines, rest)
  | c :: rest => commentEnd (if c = '\n' then newlines + 1 else newlines) rest

def isWordStart (c : Char) : Bool := c.isAlpha || c == '_'

def isWordChar (c : Char) : Bool := c.isAlphanum || c == '_'

def isNumberChar (c : Char) : Bool := c.isDigit || c == '_'

def startsWithDigit : List Char → Bool
  | c :: _ => c.isDigit
  | [] => false

/-- The fraction of a number: a point directly followed by a digit. -/
def fraction : List Char → Option (List Char × List Char)
  | '.' :: rest =>
    if startsWithDigit rest then some (rest.takeWhile Char.isDigit, rest.dropWhile Char.isDigit) else none
  | _ => none

/-- The digits of an exponent, after its sign. -/
def exponentDigits (negative : Bool) (cs : List Char) : Option (Int × List Char) :=
  if startsWithDigit cs then
    let n : Int := Decimal.digitsValue (cs.takeWhile Char.isDigit)
    some (if negative then -n else n, cs.dropWhile Char.isDigit)
  else none

/-- The exponent of a number: a mark, an optional sign and at least one digit. -/
def exponent : List Char → Option (Int × List Char)
  | c :: rest =>
    if c = 'e' ∨ c = 'E' then
      match rest with
      | '-' :: ds => exponentDigits true ds
      | '+' :: ds => exponentDigits false ds
      | ds => exponentDigits false ds
    else none
  | [] => none

/-- A number, which starts with a digit. Underscores between the digits of the whole part are
dropped. With a fraction or an exponent it is a real, otherwise an integer. -/
def number (cs : List Char) : Except CompileFault (TokenContent × List Char) :=
  let whole := (cs.takeWhile isNumberChar).filter (· != '_')
  let rest := cs.dropWhile isNumberChar
  match fraction rest with
  | some (digits, rest) =>
    let (e, rest) := (exponent rest).getD (0, rest)
    .ok (.real (Decimal.toFloat (Decimal.digitsValue (whole ++ digits)) (e - digits.length)), rest)
  | none =>
    match exponent rest with
    | some (e, rest) => .ok (.real (Decimal.toFloat (Decimal.digitsValue whole) e), rest)
    | none =>
      let n := Decimal.digitsValue whole
      if n < Nat.pow 2 63 then .ok (.int (Int64.ofNat n), rest)
      else .error (.invalidNumber (String.ofList whole))

/-- A quoted text up to the next quote of the same kind, on one line. -/
def quoted (quote : Char) : List Char → Option (List Char × List Char)
  | [] => none
  | c :: rest =>
    if c = '\n' then none
    else if c = quote then some ([], rest)
    else (quoted quote rest).map fun (text, rest) => (c :: text, rest)

/-- The symbol at the front, the longest one. -/
def symbol? : List Char → Option (Symbol × List Char)
  | ':' :: '=' :: rest => some (.assign, rest)
  | '<' :: '>' :: rest => some (.ne, rest)
  | '<' :: '=' :: rest => some (.le, rest)
  | '>' :: '=' :: rest => some (.ge, rest)
  | ':' :: rest => some (.colon, rest)
  | ';' :: rest => some (.semi, rest)
  | ',' :: rest => some (.comma, rest)
  | '.' :: rest => some (.dot, rest)
  | '(' :: rest => some (.lparen, rest)
  | ')' :: rest => some (.rparen, rest)
  | '=' :: rest => some (.eq, rest)
  | '<' :: rest => some (.lt, rest)
  | '>' :: rest => some (.gt, rest)
  | '+' :: rest => some (.plus, rest)
  | '-' :: rest => some (.minus, rest)
  | '*' :: rest => some (.star, rest)
  | '/' :: rest => some (.slash, rest)
  | _ => none

/-- Whether the text starts with a comment. -/
def opensComment : List Char → Bool
  | '(' :: '*' :: _ => true
  | _ => false

/-- The lexeme at the front of `c :: cs` and the text after it. -/
def lexeme (c : Char) (cs : List Char) : Except CompileFault (Lexeme × List Char) :=
  if c = '\n' then .ok (.skip 1, cs)
  else if Text.isBlank c then .ok (.skip 0, cs)
  else if opensComment (c :: cs) then
    match commentEnd 0 cs.tail with
    | some (newlines, rest) => .ok (.skip newlines, rest)
    | none => .error .unterminatedComment
  else if isWordStart c then
    .ok (.token (.ident (String.ofList (c :: cs.takeWhile isWordChar))), cs.dropWhile isWordChar)
  else if c.isDigit then
    match number (c :: cs) with
    | .ok (content, rest) => .ok (.token content, rest)
    | .error fault => .error fault
  else if c = '\'' ∨ c = '"' then
    match quoted c cs with
    | some (text, rest) => .ok (.token (.text (String.ofList text)), rest)
    | none => .error .unterminatedText
  else
    match symbol? (c :: cs) with
    | some (s, rest) => .ok (.token (.symbol s), rest)
    | none => .error (.unexpectedCharacter c)

/-- The tokens of a text whose first line has the given number. A lexeme is never empty, so each
round leaves a shorter text. -/
def tokensFrom (line : UInt32) : List Char → Except CompileError (List Token)
  | [] => .ok []
  | c :: cs =>
    match lexeme c cs with
    | .error fault => .error ⟨fault, some line⟩
    | .ok (item, rest) =>
      if rest.length ≤ cs.length then
        match item with
        | .skip newlines => tokensFrom (line + UInt32.ofNat newlines) rest
        | .token content => (tokensFrom line rest).map (⟨content, line⟩ :: ·)
      else .ok []
  termination_by cs => cs.length
  decreasing_by all_goals simp only [List.length_cons]; omega

/-- The tokens of a text. -/
def tokenize (source : String) : Except CompileError (List Token) := tokensFrom 1 source.toList

end Switchyard.Script
