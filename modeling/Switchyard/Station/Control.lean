import Switchyard.Station.DataModel
import Switchyard.Station.Path
import Switchyard.Text

/-!
# Control

Controllable objects are operated directly or after a selection, as their `ctlModel` attribute says.
Objects with enhanced security are also subject to the interlock.

* `ControlModel.ofScalar?`: how a `ctlModel` attribute is understood.
* `Interlock.blocks`: the kill switch, and the block flags of the parent node.
* `Sessions.select`, `Sessions.authorize`, `Sessions.cancel`: the life of a selection. A session
  that has expired is dropped when it is next looked at.
-/

namespace Switchyard

inductive ControlModel where
  | statusOnly
  | directNormal
  | sboNormal
  | directEnhanced
  | sboEnhanced
  deriving DecidableEq, Repr

namespace ControlModel

def name : ControlModel → String
  | statusOnly => "StatusOnly"
  | directNormal => "DirectNormal"
  | sboNormal => "SboNormal"
  | directEnhanced => "DirectEnhanced"
  | sboEnhanced => "SboEnhanced"

/-- The model a text describes, in any letter case. -/
def ofText (text : String) : ControlModel :=
  let text := Text.lower text
  match Text.contains text "sbo", Text.contains text "enhanced" with
  | true, true => sboEnhanced
  | true, false => sboNormal
  | false, true => directEnhanced
  | false, false => if Text.contains text "status" then statusOnly else directNormal

/-- The model of a number; all but four numbers mean direct control with normal security. -/
def ofCode : Int64 → ControlModel
  | 0 => statusOnly
  | 2 => sboNormal
  | 3 => directEnhanced
  | 4 => sboEnhanced
  | _ => directNormal

/-- The model of a `ctlModel` attribute; without one, control is direct with normal security. -/
def ofScalar? : Option Scalar → ControlModel
  | some (.text s) => ofText s
  | some v => ofCode (v.toInt64?.getD 1)
  | none => directNormal

/-- Whether objects are selected before they are operated. -/
def needsSelect : ControlModel → Bool
  | sboNormal | sboEnhanced => true
  | _ => false

/-- Whether the interlock applies. -/
def isEnhanced : ControlModel → Bool
  | directEnhanced | sboEnhanced => true
  | _ => false

end ControlModel

/-- The control model of the object at a path. -/
def DataModel.controlModel (m : DataModel) (path : String) : ControlModel :=
  .ofScalar? (m.value? (Path.member path "ctlModel"))

/-- Why a control is refused. -/
inductive Refusal where
  | selectionUnsupported
  | operationUnsupported
  | notSelected
  | selectionExpired
  | clientMismatch
  | lockedByOther
  | interlocked
  deriving DecidableEq, Repr

def Refusal.message : Refusal → String
  | selectionUnsupported => "Control Model does not support Selection"
  | operationUnsupported => "Control Model does not support Operation"
  | notSelected => "Object not selected"
  | selectionExpired => "Selection expired"
  | clientMismatch => "Selected by another client"
  | lockedByOther => "Locked by another client"
  | interlocked => "Blocked by interlock"

/-- Where a breaker is about to move. -/
inductive Intent where
  | opening
  | closing
  deriving DecidableEq, Repr

namespace Intent

/-- The move a value asks for: false and 1 open, true and 2 close. -/
def ofScalar? : Scalar → Option Intent
  | .bool true => some closing
  | .bool false => some opening
  | v =>
    match v.toInt64? with
    | some 2 => some closing
    | some 1 => some opening
    | _ => none

/-- The flag that blocks a move. -/
def blockFlag : Intent → String
  | opening => "BlkOpn"
  | closing => "BlkCls"

end Intent

/-- The interlock: a coil that blocks all controls with enhanced security while it is set. -/
structure Interlock where
  profile : String
  coil : UInt16
  deriving DecidableEq, Repr

/-- The coil of the kill switch unless another one is named. -/
def defaultKillSwitch : UInt16 := 9000

def Interlock.standard : Interlock := ⟨defaultProfileId, defaultKillSwitch⟩

instance : Inhabited Interlock := ⟨.standard⟩

namespace Interlock

def killed (i : Interlock) (m : DataModel) : Bool := ((m.profile i.profile).coils.get? i.coil).getD false

/-- The path of the flag that blocks a move of the object at a path. -/
def flagPath (path : String) (intent : Intent) : String :=
  Path.member (Path.member (Path.parent path) intent.blockFlag) "stVal"

/-- Whether a control of the object at a path is blocked. A selection, which has no value yet, is
blocked by the kill switch alone. -/
def blocks (i : Interlock) (m : DataModel) (path : String) (value : Option Scalar) : Bool :=
  i.killed m ||
    match value.bind Intent.ofScalar? with
    | some intent => ((m.value? (flagPath path intent)).map Scalar.holds).getD false
    | none => false

def check (i : Interlock) (m : DataModel) (path : String) (value : Option Scalar) : Except Refusal Unit :=
  if i.blocks m path value then .error .interlocked else .ok ()

end Interlock

/-- A selection of an object by a client. -/
structure Session where
  client : String
  /-- The last time at which the selection is good. -/
  expiresAt : Millis
  deriving DecidableEq, Repr

def Session.expired (s : Session) (now : Millis) : Bool := s.expiresAt < now

/-- The stored selections by path, expired ones included. -/
abbrev Sessions := SortedMap String Session

/-- The lifetime of a selection unless the object has a `sboTimeout`. -/
def defaultSelectTimeout : Millis := 30000

/-- The lifetime of a selection of the object at a path: its `sboTimeout`, if that is a positive
number. -/
def DataModel.selectTimeout (m : DataModel) (path : String) : Millis :=
  match (m.value? (Path.member path "sboTimeout")).bind Scalar.toInt64? with
  | some t => if 0 < t then t.toUInt64 else defaultSelectTimeout
  | none => defaultSelectTimeout

namespace Sessions

/-- Drops the session on a path if it has expired. -/
def expire (s : Sessions) (path : String) (now : Millis) : Sessions :=
  match s.get? path with
  | some session => if session.expired now then s.erase path else s
  | none => s

/-- The session on a path that has not expired. -/
def live? (s : Sessions) (path : String) (now : Millis) : Option Session := (s.expire path now).get? path

/-- Selects an object for a client. -/
def select (s : Sessions) (m : DataModel) (i : Interlock) (path client : String) (now : Millis) :
    Except Refusal Unit × Sessions :=
  let model := m.controlModel path
  if !model.needsSelect then (.error .selectionUnsupported, s)
  else
    let s := s.expire path now
    if (s.get? path).any fun session => session.client != client then (.error .lockedByOther, s)
    else if model.isEnhanced && i.blocks m path none then (.error .interlocked, s)
    else (.ok (), s.insert path ⟨client, now + m.selectTimeout path⟩)

/-- Whether a client has selected an object. -/
def checkSelected (s : Sessions) (path client : String) (now : Millis) : Except Refusal Unit × Sessions :=
  match s.get? path with
  | none => (.error .notSelected, s)
  | some session =>
    if session.expired now then (.error .selectionExpired, s.erase path)
    else if session.client != client then (.error .clientMismatch, s)
    else (.ok (), s)

/-- Whether a client may operate an object with a value. -/
def authorize (s : Sessions) (m : DataModel) (i : Interlock) (path : String) (value : Scalar)
    (client : String) (now : Millis) : Except Refusal Unit × Sessions :=
  let model := m.controlModel path
  if model = .statusOnly then (.error .operationUnsupported, s)
  else
    match if model.needsSelect then s.checkSelected path client now else (.ok (), s) with
    | (.error refusal, s) => (.error refusal, s)
    | (.ok (), s) => if model.isEnhanced then (i.check m path (some value), s) else (.ok (), s)

/-- Drops the session on a path, and says whether it was still good. -/
def cancel (s : Sessions) (path : String) (now : Millis) : Bool × Sessions :=
  ((s.get? path).any fun session => !session.expired now, s.erase path)

end Sessions
end Switchyard
