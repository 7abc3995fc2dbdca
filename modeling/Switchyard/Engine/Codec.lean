import Switchyard.Engine.Engine
import Switchyard.Json.Fields

/-!
# Written forms of engine settings

How controllers, noise targets and the tunables of an engine are read from documents.
-/

namespace Switchyard.Engine

open Json

/-- A controller's description; only the id has to be given. -/
def ControllerConfig.ofJson? : Decode ControllerConfig := fun v => do
  match ← fields .plain [["id"], ["name"], ["profile"], ["enabled"], ["tick_rate_ms"]] v with
  | [id, name, profile, enabled, tickRate] =>
    return {
      id := ← required asString id
      name := ← optional asString name
      profile := ← orElse defaultProfileId asString profile
      enabled := ← orElse true asBool enabled
      tickRate := ← optional asUInt64 tickRate }
  | _ => none

def NoiseTarget.ofJson? (d : Dialect) : Decode NoiseTarget := fun v => do
  match ← fields d [["profile"], ["address"], ["base"], ["amplitude"]] v with
  | [profile, address, base, amplitude] =>
    return {
      profile := ← orElse defaultProfileId asString profile
      address := ← required asUInt16 address
      base := ← required asFloat base
      amplitude := ← required asFloat amplitude }
  | _ => none

/-- The tunables; what is missing has its standard value. -/
def Settings.ofJson? (d : Dialect) : Decode Settings := fun v => do
  match ← fields d [["tick_period_ms"], ["statement_budget"], ["history_capacity"], ["default_tick_rate_ms"],
      ["noise_seed"]] v with
  | [period, budget, capacity, rate, seed] =>
    let standard := Settings.standard
    return {
      tickPeriod := ← orElse standard.tickPeriod asUInt64 period
      statementBudget := ← orElse standard.statementBudget (asNat (UInt64.size - 1)) budget
      historyCapacity := ← orElse standard.historyCapacity (asNat (UInt64.size - 1)) capacity
      defaultTickRate := ← orElse standard.defaultTickRate asUInt64 rate
      noiseSeed := ← optional asUInt64 seed }
  | _ => none

def Settings.toJson (s : Settings) : Json :=
  object [("tick_period_ms", int s.tickPeriod.toNat), ("statement_budget", int s.statementBudget),
    ("history_capacity", int s.historyCapacity), ("default_tick_rate_ms", int s.defaultTickRate.toNat),
    ("noise_seed", (s.noiseSeed.map fun n => int n.toNat).getD null)]

end Switchyard.Engine
