import Switchyard.Project.Load

/-!
# Applying projects

A project is installed into an engine: what its devices share first, then device by device in the
order of their ids. A script that cannot be loaded is reported, and its device stays without a program.

* `Project.apply`: the engine with a project, and the failures.
* `DeviceFile.apply`: the engine with one device.
-/

namespace Switchyard.Project

/-- Adds the profile of an id, unless it is there. -/
def ensureProfile (m : DataModel) (id : String) : DataModel :=
  if m.hasProfile id then m else m.insertProfile (.blank id)

/-- Sets points one by one; a value that does not fit its table is passed over. -/
def setPoints (p : Profile) (points : List Point) : Profile :=
  points.foldl (fun p point => ((p.set point.table point.address point.value).toOption).getD p) p

namespace DeviceFile

/-- What a device adds to a data model: its profile, the unit id and its points. -/
def model (d : DeviceFile) (m : DataModel) : DataModel :=
  (ensureProfile m d.config.profile).modifyProfile d.config.profile fun p =>
    setPoints { p with unit := d.unit.or p.unit } d.points

/-- What a device adds to a substation: its part of the data model, its attributes and publishers. -/
def install (d : DeviceFile) (s : Substation) (now : Millis) : Substation :=
  let s := { s with model := d.model s.model }
  let s := d.attributes.foldl (fun s a => s.writeAttribute a.1 a.2 now) s
  d.goose.foldl (fun s b => s.addPublisher b.path b.config b.dataset now) s

/-- Installs a device, which takes the place of one with the same id, and its script. -/
def apply (d : DeviceFile) (script : Option String) (now : Millis) (e : Engine) : Option Engine.Fault × Engine :=
  let e := { e with substation := d.install e.substation now }.addController d.config
  match script with
  | none => (none, e)
  | some source =>
    match e.loadProgram d.config.id source now with
    | .ok e => (none, e)
    | .error fault => (some fault, e)

end DeviceFile

/-- Installs devices one after the other, and lists the failures. -/
def applyDevices (scripts : SortedMap String String) (now : Millis) :
    List (String × DeviceFile) → Engine → List Engine.Fault × Engine
  | [], e => ([], e)
  | (id, d) :: rest, e =>
    let (fault, e) := d.apply (scripts.get? id) now e
    let (faults, e) := applyDevices scripts now rest e
    (fault.toList ++ faults, e)

/-- What the devices of a project share: the interlock, the bindings and the noise. -/
def applyManifest (m : Manifest) (g : Engine.Generator) (e : Engine) : Engine :=
  let e := { e with substation := { e.substation with interlock := m.interlock, bindings := m.bindings } }
  if m.noise.isEmpty then e else e.addNoise g m.noise

/-- Installs a project; its noise draws from the generator. -/
def apply (p : Project) (g : Engine.Generator) (now : Millis) (e : Engine) : List Engine.Fault × Engine :=
  applyDevices p.scripts now p.devices.entries (applyManifest p.manifest g e)

end Switchyard.Project
