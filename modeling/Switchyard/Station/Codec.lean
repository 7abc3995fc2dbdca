import Switchyard.Json.Fields
import Switchyard.Station.Substation

/-!
# Written forms of the station's settings

How publisher configurations, the kill switch, breaker bindings and points are read from documents.
-/

namespace Switchyard

open Json

/-- A publisher's configuration; only the `appID` has to be given. -/
def Goose.Config.ofJson? (d : Dialect) : Decode Goose.Config := fun v => do
  match ← fields d [["appID", "app_id"], ["confRev", "conf_rev"], ["minTime", "min_time"],
      ["maxTime", "max_time"], ["datSet", "dat_set"]] v with
  | [appId, confRev, minTime, maxTime, datSet] =>
    return {
      appId := ← required asUInt16 appId
      confRev := ← orElse 1 asUInt32 confRev
      minTime := ← orElse 10 asUInt64 minTime
      maxTime := ← orElse 1000 asUInt64 maxTime
      datSet := ← orElse "" asString datSet }
  | _ => none

/-- The interlock with a given kill switch. -/
def Interlock.ofJson? : Decode Interlock := fun v => do
  match ← fields .plain [["profile"], ["coil"]] v with
  | [profile, coil] =>
    return ⟨← orElse defaultProfileId asString profile, ← orElse defaultKillSwitch asUInt16 coil⟩
  | _ => none

def BreakerBinding.ofJson? (d : Dialect) : Decode BreakerBinding := fun v => do
  match ← fields d [["path"], ["profile"], ["coil"]] v with
  | [path, profile, coil] =>
    return ⟨← required asString path, ← orElse defaultProfileId asString profile, ← required asUInt16 coil⟩
  | _ => none

end Switchyard
