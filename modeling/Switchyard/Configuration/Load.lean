import Switchyard.Configuration.Variable
import Switchyard.Engine.Codec
import Switchyard.Relay.Settings

/-!
# Configuration

The configuration is layered: over the standard values lie those of a settings file, and over these
the variables of the environment. A layer replaces single values and keeps the rest.

* `Configuration.load`: the configuration of a file and an environment.
* `Configuration.variableNames`: the variables to look for.
-/

namespace Switchyard

open Json

structure Configuration where
  engine : Engine.Settings
  relay : Relay.Settings
  /-- The directory of the project. -/
  project : String

namespace Configuration

def standard : Configuration := ⟨.standard, .standard, "."⟩

def toJson (c : Configuration) : Json :=
  object [("engine", c.engine.toJson), ("relay", c.relay.toJson), ("project", string c.project)]

/-- The configuration of a document; what is missing has its standard value. -/
def ofJson? : Decode Configuration := fun v => do
  match ← fields .tables [["engine"], ["relay"], ["project"]] v with
  | [engine, relay, project] =>
    return {
      engine := ← orElse standard.engine (Engine.Settings.ofJson? .tables) engine
      relay := ← orElse standard.relay (Relay.Settings.ofJson? .tables) relay
      project := ← orElse standard.project asString project }
  | _ => none

/-- Gives a member a value, in its place if it is there already. -/
def putMember (name : String) (value : Json) : List (String × Json) → List (String × Json)
  | [] => [(name, value)]
  | (n, v) :: rest => if n = name then (name, value) :: rest else (n, v) :: putMember name value rest

mutual

/-- Lays a document over another one: members of objects one by one, anything else as a whole. -/
def overlay (under : Json) : Json → Json
  | .object members =>
    match under with
    | .object old => .object (overlayMembers old members)
    | _ => .object (overlayMembers [] members)
  | v => v

def overlayMembers (under : List (String × Json)) : List (String × Json) → List (String × Json)
  | [] => under
  | (name, v) :: rest =>
    overlayMembers (putMember name (overlay ((under.lookup name).getD .null) v) under) rest

end

/-- The document that holds one value, under a list of keys. -/
def nest (v : Json) : List String → Json
  | [] => v
  | key :: rest => .object [(key, nest v rest)]

/-- The document of the variables that count. -/
def ofVariables (environment : List (String × String)) : Json :=
  environment.foldl (fun doc (name, text) =>
    match Variable.keys? name with
    | some keys => overlay doc (nest (Variable.value text) keys)
    | none => doc) (.object [])

/-- The configuration of a settings file, if there is one, and the environment. -/
def load (file : Option String) (environment : List (String × String)) : Option Configuration := do
  let settings ← match file with
    | some text => Toml.parse? text
    | none => some (.object [])
  ofJson? (overlay (overlay standard.toJson settings) (ofVariables environment))

/-- The usual names of the variables for all values of a configuration. -/
def variableNames : List String :=
  match standard.toJson with
  | .object members => members.flatMap fun (key, v) =>
    match v with
    | .object inner => inner.map fun m => Variable.name [key, m.1]
    | _ => [Variable.name [key]]
  | _ => []

end Configuration
end Switchyard
