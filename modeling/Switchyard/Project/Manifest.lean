import Switchyard.Channel.Endpoint
import Switchyard.Engine.Codec
import Switchyard.Project.FileTree
import Switchyard.Station.Codec
import Switchyard.Station.IedNode

/-!
# Project files

A project has a manifest, which names it and describes what its devices share, and a file for each
device. Both are documents of tables.

* `Manifest.ofJson?`, `DeviceFile.ofJson?`: what such a document says.
* `DeviceFile.scriptPath`: where a device's script is.
-/

namespace Switchyard.Project

open Json

/-- A listener, and the protocol that it speaks. -/
structure Endpoint where
  protocol : Channel.Protocol
  spec : Channel.EndpointSpec
  deriving DecidableEq, Repr

structure Manifest where
  id : String
  name : String
  version : String
  description : Option String
  endpoints : List Endpoint
  bindings : List BreakerBinding
  interlock : Interlock
  noise : List Engine.NoiseTarget

/-- The version of a project that names none. -/
def usualVersion : String := "1.0.0"

def Endpoint.ofJson? : Decode Endpoint := fun v => do
  match ← allFields .tables [["protocol"], ["ip"], ["port"], ["name"], ["unit_id"], ["backend_host"],
      ["backend_port"]] v with
  | [protocol, ip, port, name, unit, host, backendPort] =>
    let spec : Channel.EndpointSpec := {
      ip := ← orElse "" asString ip
      port := ← required asUInt16 port
      name := ← optional asString name
      unit := ← optional asUInt8 unit
      backendHost := ← optional asString host
      backendPort := ← optional asUInt16 backendPort }
    return ⟨← required (Channel.Protocol.ofJson? .tables) protocol, spec⟩
  | _ => none

/-- The interlock as a manifest gives it. -/
def interlockOfJson? : Decode Interlock := fun v => do
  match ← fields .tables [["kill_switch_profile"], ["kill_switch_coil"]] v with
  | [profile, coil] =>
    return ⟨← orElse defaultProfileId asString profile, ← orElse defaultKillSwitch asUInt16 coil⟩
  | _ => none

/-- The manifest of a document; only the id and the name of the project have to be given. -/
def Manifest.ofJson? : Decode Manifest := fun v => do
  match ← fields .tables [["project"], ["endpoints"], ["breaker_bindings"], ["interlock"], ["noise"]] v with
  | [project, endpoints, bindings, interlock, noise] =>
    match ← allFields .tables [["id"], ["name"], ["version"], ["description"]] (← project) with
    | [id, name, version, description] =>
      return {
        id := ← required asString id
        name := ← required asString name
        version := ← orElse usualVersion asString version
        description := ← optional asString description
        endpoints := ← orElse [] (Json.listOf Endpoint.ofJson?) endpoints
        bindings := ← orElse [] (Json.listOf (BreakerBinding.ofJson? .tables)) bindings
        interlock := ← orElse .standard interlockOfJson? interlock
        noise := ← orElse [] (Json.listOf (Engine.NoiseTarget.ofJson? .tables)) noise }
    | _ => none
  | _ => none

/-- The listeners of one protocol. -/
def Manifest.specs (m : Manifest) (p : Channel.Protocol) : List Channel.EndpointSpec :=
  (m.endpoints.filter fun e => e.protocol == p).map Endpoint.spec

/-- A GOOSE publisher of a device. -/
structure GooseBlock where
  path : String
  config : Goose.Config
  dataset : List String
  deriving DecidableEq

structure DeviceFile where
  config : Engine.ControllerConfig
  /-- Where the script is, unless it is at its usual place. -/
  script : Option String
  /-- The unit id that the profile is to answer to. -/
  unit : Option UInt8
  points : List Point
  attributes : List (String × Scalar)
  goose : List GooseBlock

/-- Where the device's script is: at its usual place unless another one is named. -/
def DeviceFile.scriptPath (d : DeviceFile) : String :=
  d.script.getD (FileTree.join "scripts" (d.config.id ++ ".st"))

def pointOfJson? : Decode Point := fun v => do
  match ← fields .tables [["address"], ["type"], ["value"]] v with
  | [address, type, value] =>
    return {
      table := ← required (fun v => (asWord .tables v).bind Table.ofName?) type
      address := ← required asUInt16 address
      value := ← orElse .null toScalar? value }
  | _ => none

def attributeOfJson? : Decode (String × Scalar) := fun v => do
  match ← fields .tables [["path"], ["value"]] v with
  | [path, value] => return (← required asString path, ← required toScalar? value)
  | _ => none

def GooseBlock.ofJson? : Decode GooseBlock := fun v => do
  match ← fields .tables [["path"], ["config"], ["dataset"]] v with
  | [path, config, dataset] =>
    return {
      path := ← required asString path
      config := ← required (Goose.Config.ofJson? .tables) config
      dataset := ← orElse [] (Json.listOf asString) dataset }
  | _ => none

/-- The device of a document; only its id has to be given. -/
def DeviceFile.ofJson? : Decode DeviceFile := fun v => do
  match ← fields .tables [["device"], ["points"], ["attributes"], ["goose"]] v with
  | [some (object device), points, attributes, goose] =>
    match ← fields .tables [["script"], ["unit_id"]] (object device) with
    | [script, unit] =>
      return {
        config := ← Engine.ControllerConfig.ofJson? (object device)
        script := ← optional asString script
        unit := ← optional asUInt8 unit
        points := ← orElse [] (Json.listOf pointOfJson?) points
        attributes := ← orElse [] (Json.listOf attributeOfJson?) attributes
        goose := ← orElse [] (Json.listOf GooseBlock.ofJson?) goose }
    | _ => none
  | _ => none

end Switchyard.Project
