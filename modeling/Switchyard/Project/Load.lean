import Switchyard.Project.Manifest
import Switchyard.Station.IedDocument
import Switchyard.Toml.Reader

/-!
# Loading projects

A project is loaded from its directory. The manifest, the scripts and the IED models have to be
readable; device files and IED models that say nothing useful are passed over.

* `Project.load`: the project of a directory.
* `Project.readDevice`: one device of it, read again.
-/

namespace Switchyard

/-- Why a project cannot be loaded. -/
inductive Project.LoadError where
  | pathNotFound
  | manifestNotFound
  | unreadable
  | malformed
  deriving DecidableEq, Repr

def Project.LoadError.message : LoadError → String
  | pathNotFound => "Project path does not exist"
  | manifestNotFound => "Project manifest not found"
  | unreadable => "Failed to read file"
  | malformed => "Failed to parse TOML"

/-- A project as loaded. -/
structure Project where
  manifest : Project.Manifest
  devices : SortedMap String Project.DeviceFile
  /-- The sources of scripts by the ids of their devices. -/
  scripts : SortedMap String String
  models : List IedNode

namespace Project

/-- The text of a file. A directory has none, nor do bytes that are not UTF-8. -/
def textOf : FileTree.Entry → Except LoadError String
  | .file content =>
    match String.fromUTF8? content with
    | some text => .ok text
    | none => .error .unreadable
  | .directory _ => .error .unreadable

/-- Reads a document. -/
def document {α : Type} (decode : Json.Decode α) (entry : FileTree.Entry) : Except LoadError α := do
  let text ← textOf entry
  match (Toml.parse? text).bind decode with
  | some a => return a
  | none => throw .malformed

/-- The entries of a directory, with their names; a directory that is not there has none. -/
def entriesOf (t : FileTree) (directory : String) : Except LoadError (List (String × FileTree.Entry)) :=
  match t.find? directory with
  | none => .ok []
  | some (.file _) => .error .unreadable
  | some (.directory names) =>
    .ok (names.filterMap fun name => (t.find? (FileTree.join directory name)).map fun e => (name, e))

/-- Whether a name ends like those of device files. -/
def isDeviceName (name : String) : Bool := ".device.toml".toList.isSuffixOf name.toList

/-- Whether a name has the extension of IED models, and something before it. -/
def isModelName (name : String) : Bool :=
  match Path.splitLast '.' name.toList with
  | some (front, extension) => !front.isEmpty && extension == "json".toList
  | none => false

/-- The devices of a project, by their ids. Of files with one id the last one in the order of names
counts. -/
def readDevices (t : FileTree) (root : String) : Except LoadError (SortedMap String DeviceFile) := do
  let entries ← entriesOf t (FileTree.join root "devices")
  let files := entries.filterMap fun (name, entry) =>
    if isDeviceName name then (document DeviceFile.ofJson? entry).toOption else none
  return SortedMap.ofList (files.map fun d => (d.config.id, d))

/-- The script of a device, if there is one. -/
def readScript (t : FileTree) (root : String) (d : DeviceFile) : Except LoadError (Option String) :=
  match t.find? (FileTree.join root d.scriptPath) with
  | some entry => (textOf entry).map some
  | none => .ok none

/-- The scripts of some devices. -/
def readScripts (t : FileTree) (root : String) (devices : List (String × DeviceFile)) :
    Except LoadError (SortedMap String String) := do
  let scripts ← devices.mapM fun (id, d) => do return (← readScript t root d).map fun source => (id, source)
  return SortedMap.ofList (scripts.filterMap id)

/-- The IED models of a project, in the order of their names. -/
def readModels (t : FileTree) (root : String) : Except LoadError (List IedNode) := do
  let entries ← entriesOf t (FileTree.join root "ied")
  let texts ← (entries.filter fun (name, _) => isModelName name).mapM fun (_, entry) => textOf entry
  return texts.filterMap fun text => IedNode.ofText? text

/-- The project of a directory. -/
def load (t : FileTree) (root : String) : Except LoadError Project := do
  if (t.find? root).isNone then throw .pathNotFound
  match t.find? (FileTree.join root "project.toml") with
  | none => throw .manifestNotFound
  | some entry =>
    let manifest ← document Manifest.ofJson? entry
    let devices ← readDevices t root
    let scripts ← readScripts t root devices.entries
    return { manifest, devices, scripts, models := ← readModels t root }

/-- A device of a project and its script, read again; nothing if its file is gone. -/
def readDevice (t : FileTree) (root : String) (id : String) :
    Except LoadError (Option (DeviceFile × Option String)) :=
  match t.find? (FileTree.join (FileTree.join root "devices") (id ++ ".device.toml")) with
  | none => .ok none
  | some entry => do
    let d ← document DeviceFile.ofJson? entry
    return some (d, ← readScript t root d)

/-- The devices whose script is at a path. -/
def usersOf (p : Project) (path : String) : List String :=
  (p.devices.values.filter fun d => FileTree.samePath d.scriptPath path).map fun d => d.config.id

/-- The model that is offered to clients. -/
def model? (p : Project) : Option IedNode := p.models.head?

end Project
end Switchyard
