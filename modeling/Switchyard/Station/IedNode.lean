import Switchyard.Json.Fields
import Switchyard.Text

/-!
# IED models

The model of an intelligent electronic device is a tree of named nodes, some of which have a kind:
`LD` for logical devices, `LN` for logical nodes.

* `logicalDevices`: the outermost logical devices in document order.
* `ofJson?`, `toJson`: the written form, in which empty parts are left out.
-/

namespace Switchyard

/-- A node of an IED model. -/
structure IedNode where
  name : String
  kind : Option String
  children : List IedNode
  deriving Repr, BEq, Inhabited

namespace IedNode

/-- Whether a node bears a kind, in any letter case. -/
def isKind (n : IedNode) (kind : String) : Bool :=
  n.kind.any (Text.sameIgnoringCase kind)

/-- A logical device is marked as one, or has a logical node among its children. -/
def isLogicalDevice (n : IedNode) : Bool :=
  n.isKind "LD" || n.children.any fun c => c.isKind "LN"

mutual

/-- The logical devices of a tree from left to right, those inside another one left out. -/
def logicalDevices : IedNode → List IedNode
  | ⟨name, kind, children⟩ =>
    if isLogicalDevice ⟨name, kind, children⟩ then [⟨name, kind, children⟩] else logicalDevicesOf children

/-- The logical devices of some trees, one tree after the other. -/
def logicalDevicesOf : List IedNode → List IedNode
  | [] => []
  | n :: rest => n.logicalDevices ++ logicalDevicesOf rest

end

open Json

mutual

def toJson : IedNode → Json
  | ⟨name, kind, children⟩ =>
    object ([("name", string name)] ++ optionalMember "type" string kind ++
      (if children.isEmpty then [] else [("children", array (toJsons children))]))

def toJsons : List IedNode → List Json
  | [] => []
  | n :: rest => n.toJson :: toJsons rest

end

/-- The model of a document that is nested no deeper than a bound. -/
def ofJsonWithin? : Nat → Decode IedNode
  | 0, _ => none
  | depth + 1, v => do
    match ← fields .plain [["name"], ["type"], ["children"]] v with
    | [name, kind, children] =>
      return {
        name := ← required asString name
        kind := ← optional asString kind
        children := ← orElse [] (listOf (ofJsonWithin? depth)) children }
    | _ => none

/-- The model of a document; only names have to be given. -/
def ofJson? : Decode IedNode := fun v => ofJsonWithin? v.depth v

end IedNode
end Switchyard
