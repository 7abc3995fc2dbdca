import Switchyard.Json.Skip
import Switchyard.Station.IedNode

/-!
# Documents of IED models

`IedNode.ofText?` reads the document of a model node by node. Members that a node has no use for are
passed over, whatever they hold.
-/

namespace Switchyard.IedNode

open Json

/-- A node as it is written, with a reader for the list of its children. -/
def written (children : Read Json) : Read Json :=
  valueOf (list children) (record fun name =>
    if name = "children" then children
    else if name = "name" ∨ name = "type" then value 0
    else unread)

/-- A node with the given number of nesting levels left. -/
def node : Nat → Read Json
  | 0 => value 0
  | 1 => written (value 0)
  | levels + 2 => written (valueOf (list (node levels)) fun _ => none)

/-- The model of a document. -/
def ofText? (text : String) : Option IedNode := (whole? (node nestingLimit) text).bind ofJson?

end Switchyard.IedNode
