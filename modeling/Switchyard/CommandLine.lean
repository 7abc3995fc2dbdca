import Switchyard.Configuration.Load

/-!
# Command line

The options of the program. An option with a value takes it from after an equals sign or from the next
argument; those that are given win over the configuration.

* `Options.ofArguments`: reads the arguments.
* `Options.override`: the configuration with the options laid over it.
-/

namespace Switchyard

structure Options where
  /-- The settings file. -/
  settings : String := "gridsim.toml"
  project : Option String := none
  controlHost : Option String := none
  controlPort : Option UInt16 := none
  /-- Whether clients come in at all. -/
  relay : Bool := true
  defaultListeners : Bool := false
  resetOnConnect : Bool := false
  deriving DecidableEq, Repr

/-- What is wrong with the arguments. -/
inductive UsageError where
  | unexpected (argument : String)
  | missingValue (option : String)
  | invalidValue (option value : String)
  deriving DecidableEq, Repr

def UsageError.message : UsageError → String
  | unexpected argument => "unexpected argument '" ++ argument ++ "' found"
  | missingValue option => "a value is required for '" ++ option ++ "' but none was supplied"
  | invalidValue option value => "invalid value '" ++ value ++ "' for '" ++ option ++ "'"

namespace Options

/-- The port that a text names. -/
def port? (text : String) : Option UInt16 :=
  let digits := text.toList
  let n := Decimal.digitsValue digits
  if !digits.isEmpty && digits.all Char.isDigit && n < 65536 then some n.toUInt16 else none

/-- Sets an option that stands alone. -/
def switch? (o : Options) : String → Option Options
  | "--no-relay" => some { o with relay := false }
  | "--allow-default-listeners" => some { o with defaultListeners := true }
  | "--reset-on-connect" => some { o with resetOnConnect := true }
  | _ => none

/-- Sets an option that has a value, if there is one of this name. -/
def assign? (o : Options) (name : String) : Option (String → Except UsageError Options) :=
  match name with
  | "-c" | "--config" => some fun value => .ok { o with settings := value }
  | "-p" | "--project" => some fun value => .ok { o with project := value }
  | "--host" => some fun value => .ok { o with controlHost := value }
  | "--port" => some fun value =>
    match port? value with
    | some port => .ok { o with controlPort := port }
    | none => .error (.invalidValue name value)
  | _ => none

/-- Reads the arguments that are left. -/
def readFrom (o : Options) : List String → Except UsageError Options
  | [] => .ok o
  | argument :: rest =>
    match o.switch? argument with
    | some o => o.readFrom rest
    | none =>
      let name := String.ofList (argument.toList.takeWhile (· != '='))
      match o.assign? name, argument.toList.drop name.length, rest with
      | none, _, _ => .error (.unexpected argument)
      | some set, '=' :: value, rest =>
        match set (String.ofList value) with
        | .ok o => o.readFrom rest
        | .error e => .error e
      | some set, _, value :: rest =>
        match set value with
        | .ok o => o.readFrom rest
        | .error e => .error e
      | some _, _, [] => .error (.missingValue name)

/-- The options that the arguments stand for. -/
def ofArguments (arguments : List String) : Except UsageError Options := readFrom {} arguments

/-- The configuration with the options laid over it. -/
def override (o : Options) (c : Configuration) : Configuration where
  engine := c.engine
  project := o.project.getD c.project
  relay := { c.relay with
    controlHost := o.controlHost.getD c.relay.controlHost
    controlPort := o.controlPort.getD c.relay.controlPort
    allowDefaults := o.defaultListeners || c.relay.allowDefaults
    resetOnConnect := o.resetOnConnect || c.relay.resetOnConnect }

end Options
end Switchyard
