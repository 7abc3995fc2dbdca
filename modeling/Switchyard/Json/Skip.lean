import Switchyard.Json.Reader

/-!
# Passing over JSON

`skip` passes over a value that nobody asks for. The value has to be well formed, but nothing is made
of it: its numbers may have any size, an escape in it may stand for half a character, and its lists
and objects may be nested to any depth.
-/

namespace Switchyard.Json

/-- The text after one or more digits. -/
def skipDigits (cs : List Char) : Option (List Char) :=
  if (cs.takeWhile Char.isDigit).isEmpty then none else some (cs.dropWhile Char.isDigit)

/-- The text after an exponent, if there is one. -/
def skipExponent : List Char → Option (List Char)
  | [] => some []
  | c :: rest =>
    if c = 'e' ∨ c = 'E' then
      match rest with
      | '+' :: ds | '-' :: ds => skipDigits ds
      | ds => skipDigits ds
    else some (c :: rest)

/-- The text after a number without its sign. -/
def skipMagnitude (cs : List Char) : Option (List Char) :=
  let whole := cs.takeWhile Char.isDigit
  if whole.isEmpty || (whole.head? == some '0' && 1 < whole.length) then none
  else
    match cs.dropWhile Char.isDigit with
    | '.' :: rest => (skipDigits rest).bind skipExponent
    | rest => skipExponent rest

/-- The text after the closing quote. -/
def skipText : List Char → Option (List Char)
  | [] => none
  | '"' :: rest => some rest
  | '\\' :: 'u' :: a :: b :: c :: d :: rest =>
    if [a, b, c, d].all fun c => (Bytes.hexDigit? c).isSome then skipText rest else none
  | '\\' :: c :: rest => if c ∈ ['"', '\\', '/', 'b', 'f', 'n', 'r', 't'] then skipText rest else none
  | c :: rest => if c.toNat < 32 || c == '\\' then none else skipText rest

/-- The text after a value that is no list and no object. -/
def skipLeaf : List Char → Option (List Char)
  | '"' :: rest => skipText rest
  | 'n' :: rest => (word "null" null ('n' :: rest)).map Prod.snd
  | 't' :: rest => (word "true" (bool true) ('t' :: rest)).map Prod.snd
  | 'f' :: rest => (word "false" (bool false) ('f' :: rest)).map Prod.snd
  | '-' :: rest => skipMagnitude rest
  | cs => skipMagnitude cs

/-- The text after the name of a member and its colon. -/
def skipName (cs : List Char) : Option (List Char) :=
  match skipSpace cs with
  | '"' :: rest =>
    match (skipText rest).map skipSpace with
    | some (':' :: rest) => some rest
    | _ => none
  | _ => none

/-- How far a value has been passed over. -/
structure Skipping where
  rest : List Char
  /-- The closing brackets of the lists and objects that are open, the innermost first. -/
  closers : List Char
  /-- Whether a value comes next, not what follows one. -/
  atValue : Bool

namespace Skipping

/-- Goes on by a value, the start of one, or what stands between values. -/
def step (s : Skipping) : Option Skipping :=
  if s.atValue then
    match skipSpace s.rest with
    | '[' :: rest =>
      match skipSpace rest with
      | ']' :: rest => some ⟨rest, s.closers, false⟩
      | rest => some ⟨rest, ']' :: s.closers, true⟩
    | '\x7b' :: rest =>
      match skipSpace rest with
      | '\x7d' :: rest => some ⟨rest, s.closers, false⟩
      | rest => (skipName rest).map fun rest => ⟨rest, '\x7d' :: s.closers, true⟩
    | rest => (skipLeaf rest).map fun rest => ⟨rest, s.closers, false⟩
  else
    match s.closers, skipSpace s.rest with
    | closer :: _, ',' :: rest =>
      (if closer = ']' then some rest else skipName rest).map fun rest => ⟨rest, s.closers, true⟩
    | closer :: outer, c :: rest => if c = closer then some ⟨rest, outer, false⟩ else none
    | _, _ => none

/-- Goes on until the outermost value ends. -/
def finish (s : Skipping) : Option (List Char) :=
  if !s.atValue && s.closers.isEmpty then some s.rest
  else
    match s.step with
    | none => none
    | some next => if next.rest.length < s.rest.length then finish next else none
  termination_by s.rest.length

end Skipping

/-- The text after a value. -/
def skip (cs : List Char) : Option (List Char) := Skipping.finish ⟨cs, [], true⟩

/-- Passes over a value, which counts as `null`. -/
def unread : Read Json := fun cs => (skip cs).map fun rest => (null, rest)

end Switchyard.Json
