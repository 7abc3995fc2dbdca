import Switchyard.Script.Syntax

/-!
# Devices

What a program can reach through its `Device` functions. A `Device` is a state machine: each
function takes the state and returns the answer with the next state, and the clock reads the state.
-/

namespace Switchyard.Script

/-- The severity of a log line. -/
inductive LogLevel where
  | debug
  | info
  | warn
  | error
  deriving DecidableEq, Repr

namespace LogLevel

def name : LogLevel → String
  | debug => "debug"
  | info => "info"
  | warn => "warn"
  | error => "error"

/-- The level a text names, in any letter case; any other text means `info`. -/
def ofText (text : String) : LogLevel :=
  match Text.lower text with
  | "debug" | "trace" => debug
  | "warn" | "warning" => warn
  | "error" | "err" => error
  | _ => info

end LogLevel

/-- The functions a program calls, over the device's states. -/
structure Device (σ : Type) where
  now : σ → Millis
  readInput : UInt16 → σ → Bool × σ
  readRegister : UInt16 → σ → UInt16 × σ
  writeCoil : UInt16 → Bool → σ → σ
  writeRegister : UInt16 → UInt16 → σ → σ
  /-- The attribute at a path, `null` if there is none. -/
  getDA : String → σ → Scalar × σ
  setDA : String → Scalar → σ → σ
  log : LogLevel → String → σ → σ

/-- The device of expressions that must not call any: all it has is a clock. -/
def detached : Device Millis where
  now t := t
  readInput _ t := (false, t)
  readRegister _ t := (0, t)
  writeCoil _ _ t := t
  writeRegister _ _ t := t
  getDA _ t := (.null, t)
  setDA _ _ t := t
  log _ _ t := t

end Switchyard.Script
