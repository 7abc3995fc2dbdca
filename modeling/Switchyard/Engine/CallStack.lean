import Switchyard.Text

/-!
# Call stacks

The debugger shows the headers of the blocks around a line. They are found in the text alone: a line
that starts with `IF` or `WHILE` opens a block, one that starts with `END_IF` or `END_WHILE` closes the
innermost one, and `ELSIF` takes the place of the header it continues.
-/

namespace Switchyard.Engine

/-- A block header: its line and its trimmed text. -/
structure StackFrame where
  line : UInt32
  text : List Char
  deriving DecidableEq, Repr

/-- Whether a character can be part of a word. -/
def isWordPart (c : Char) : Bool := c.isAlphanum || c == '_'

/-- Whether a text starts with a word that ends there. -/
def opensWith (word text : List Char) : Bool :=
  word.isPrefixOf text && (text.drop word.length).head?.all fun c => !isWordPart c

/-- What a line does to the open headers, of which the innermost comes first. -/
def scanLine (stack : List StackFrame) (line : UInt32) (raw : List Char) : List StackFrame :=
  let text := Text.trimChars raw
  let upper := text.map Char.toUpper
  if "END_IF".toList.isPrefixOf upper || "END_WHILE".toList.isPrefixOf upper then stack.tail
  else if "ELSIF".toList.isPrefixOf upper then ⟨line, text⟩ :: stack.tail
  else if opensWith "IF".toList upper || opensWith "WHILE".toList upper then
    if Text.occursIn "END_IF".toList upper || Text.occursIn "END_WHILE".toList upper then stack
    else ⟨line, text⟩ :: stack
  else stack

/-- Scans lines, the first of which has the given number, up to the current one. -/
def scanLines (current : UInt32) (stack : List StackFrame) (line : UInt32) : List (List Char) → List StackFrame
  | [] => stack
  | raw :: rest =>
    if current ≤ line then stack else scanLines current (scanLine stack line raw) (line + 1) rest

/-- The headers that are open before a line, from the outside in. -/
def callStack (source : String) (current : UInt32) : List StackFrame :=
  (scanLines current [] 1 (Text.lineChars source.toList)).reverse

end Switchyard.Engine
