import Switchyard.Station.Profile

/-!
# Data model

The live data of a substation: the profiles of its devices and its data attributes by path. There is
always a default profile, which stands in for every profile that does not exist.

* `profile`, `modifyProfile`: the profile of an id, or the default one.
* `write`: stores an attribute and says whether its value changed.
-/

namespace Switchyard

/-- The id of the default profile. -/
def defaultProfileId : String := "default"

structure DataModel where
  /-- The profile used when no other one matches. -/
  fallback : Profile
  profiles : SortedMap String Profile
  attributes : SortedMap String Scalar
  deriving DecidableEq, Inhabited

namespace DataModel

/-- A model without points and attributes. -/
def blank : DataModel := ⟨Profile.blank defaultProfileId, ∅, ∅⟩

/-- Adds a profile or replaces the one with its id. -/
def insertProfile (m : DataModel) (p : Profile) : DataModel :=
  if p.id = defaultProfileId then { m with fallback := p }
  else { m with profiles := m.profiles.insert p.id p }

/-- Removes a profile; the default one stays. -/
def removeProfile (m : DataModel) (id : String) : DataModel := { m with profiles := m.profiles.erase id }

def hasProfile (m : DataModel) (id : String) : Bool := id == defaultProfileId || m.profiles.contains id

/-- The profile with an id, or the default one. -/
def profile (m : DataModel) (id : String) : Profile := (m.profiles.get? id).getD m.fallback

/-- Changes the profile with an id, or the default one. -/
def modifyProfile (m : DataModel) (id : String) (f : Profile → Profile) : DataModel :=
  match m.profiles.get? id with
  | some p => { m with profiles := m.profiles.insert id (f p) }
  | none => { m with fallback := f m.fallback }

/-- All profiles: the default one, then the others in the order of their ids. -/
def allProfiles (m : DataModel) : List Profile := m.fallback :: m.profiles.values

/-- The id of the first profile that a unit id addresses, or the default one. -/
def profileOfUnit (m : DataModel) (unit : UInt8) : String :=
  match m.allProfiles.find? fun p => p.unit == some unit with
  | some p => p.id
  | none => defaultProfileId

def value? (m : DataModel) (path : String) : Option Scalar := m.attributes.get? path

/-- The value of an attribute, `null` if there is none. -/
def value (m : DataModel) (path : String) : Scalar := (m.value? path).getD .null

/-- Whether storing a value would change an attribute. -/
def changes (m : DataModel) (path : String) (value : Scalar) : Bool :=
  match m.value? path with
  | some old => !old.alike value
  | none => true

/-- Stores an attribute. -/
def write (m : DataModel) (path : String) (value : Scalar) : DataModel :=
  { m with attributes := m.attributes.insert path value }

def removeAttribute (m : DataModel) (path : String) : DataModel :=
  { m with attributes := m.attributes.erase path }

end DataModel
end Switchyard
