import Switchyard.Scalar

/-!
# Object paths

Data objects and attributes are named by paths such as `IED1LD0/XCBR1.Pos.stVal`: a logical device, a
slash, and segments separated by points.
-/

namespace Switchyard.Path

/-- The characters before the last occurrence of a separator and those after it. -/
def splitLast (sep : Char) (cs : List Char) : Option (List Char × List Char) :=
  if sep ∈ cs then
    let back := cs.reverse
    some ((back.dropWhile (· != sep)).tail.reverse, (back.takeWhile (· != sep)).reverse)
  else none

/-- The characters after the last occurrence of a separator, or all of them. -/
def afterLast (sep : Char) (cs : List Char) : List Char := ((splitLast sep cs).map Prod.snd).getD cs

/-- The path without its last segment; a path of one segment stays as it is. -/
def parent (path : String) : String :=
  match splitLast '.' path.toList with
  | some (front, _) => String.ofList front
  | none => path

/-- The path of a member of an object. -/
def member (path name : String) : String := path ++ "." ++ name

/-- Whether a path names the position of a breaker: the object `Pos` of a logical node whose name
starts with `XCBR` or `CSWI`. -/
def namesBreaker (path : String) : Bool :=
  match splitLast '.' path.toList with
  | some (front, last) =>
    let node := afterLast '.' (afterLast '/' front)
    last == "Pos".toList && ("XCBR".toList.isPrefixOf node || "CSWI".toList.isPrefixOf node)
  | none => false

end Switchyard.Path
