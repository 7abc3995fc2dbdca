/-!
# Texts

Operations on texts, most of them as lists of characters: white space, letter case, search, lines and
parts.

* `isBlank`: the Unicode property White_Space, 25 code points in 10 ranges, unchanged since Unicode 6.3.
* `upper`, `sameIgnoringCase`: names in the script language and in settings are compared without regard
  to the case of ASCII letters; all other characters stand for themselves.
* `lineChars`: a line ends at a line feed, and a carriage return directly before it belongs to the end.
  What follows the last line feed is a line only if it is not empty.
* `splitOn`: a text cut at every separator, so there is one part more than there are separators.
-/

namespace Switchyard.Text

/-- Closed ranges of code points, ascending and apart. -/
def blankRanges : List (Nat × Nat) :=
  [(0x09, 0x0D), (0x20, 0x20), (0x85, 0x85), (0xA0, 0xA0), (0x1680, 0x1680), (0x2000, 0x200A),
   (0x2028, 0x2029), (0x202F, 0x202F), (0x205F, 0x205F), (0x3000, 0x3000)]

def isBlank (c : Char) : Bool := blankRanges.any fun r => r.1 ≤ c.toNat && c.toNat ≤ r.2

/-- Removes white space at both ends. -/
def trimChars (cs : List Char) : List Char :=
  ((cs.dropWhile isBlank).reverse.dropWhile isBlank).reverse

def trim (s : String) : String := String.ofList (trimChars s.toList)

/-- The text with ASCII letters in upper case. -/
def upper (s : String) : String := String.ofList (s.toList.map Char.toUpper)

/-- The text with ASCII letters in lower case. -/
def lower (s : String) : String := String.ofList (s.toList.map Char.toLower)

/-- Equality up to the case of ASCII letters. -/
def sameIgnoringCase (s t : String) : Bool := upper s == upper t

/-- Whether a text stands somewhere in another one. -/
def occursIn (part : List Char) : List Char → Bool
  | [] => part.isEmpty
  | c :: cs => part.isPrefixOf (c :: cs) || occursIn part cs

/-- Whether a text contains another one. -/
def contains (text part : String) : Bool := occursIn part.toList text.toList

/-- Drops one carriage return at the end. -/
def dropReturn (cs : List Char) : List Char := if cs.getLast? = some '\r' then cs.dropLast else cs

/-- The lines of a text; `line` holds the characters of the current line, reversed. -/
def linesFrom (line : List Char) : List Char → List (List Char)
  | [] => if line.isEmpty then [] else [line.reverse]
  | '\n' :: cs => dropReturn line.reverse :: linesFrom [] cs
  | c :: cs => linesFrom (c :: line) cs

def lineChars (cs : List Char) : List (List Char) := linesFrom [] cs

def lines (s : String) : List String := (lineChars s.toList).map String.ofList

/-- The parts between separators, in order; some of them may be empty. -/
def splitOn (sep : Char) : List Char → List (List Char)
  | [] => [[]]
  | c :: cs =>
    if c = sep then [] :: splitOn sep cs
    else
      match splitOn sep cs with
      | part :: parts => (c :: part) :: parts
      | [] => [[c]]

end Switchyard.Text
