import Std.Time.DateTime
import Switchyard.Channel.Codec
import Switchyard.CommandLine
import Switchyard.Json.Printer
import Switchyard.Json.Reader
import Switchyard.Plant

/-!
# The program

Loads a project and runs it. Every line of standard input is a message of a control client, and every
message on the control channel is a line of standard output; failures go to the standard error.

The program opens no network listeners of its own: to the relay it is a host on which no address can be
bound.
-/

namespace Switchyard.Program

/-- A host without a network. -/
def isolatedHost : Relay.Host := ⟨fun _ _ => .error "no network", none, fun _ => false⟩

def currentMoment : IO Relay.Moment := do
  let t : Std.Time.DateTime := .ofTimestamp (← Std.Time.Timestamp.now) .UTC
  return ⟨← IO.monoMsNow, ⟨t.year.toInt, t.month.toNat, t.day.toNat, t.hour.toNat, t.minute.toNat,
    t.second.toNat, t.nanosecond.toNat⟩⟩

def readFile? (path : String) : IO (Option ByteArray) :=
  try return some (← IO.FS.readBinFile path) catch _ => return none

/-- A path from the working directory. -/
def located (path : String) := (fun here => here / path) <$> IO.currentDir

/-- Adds what stands at a path: a file, or a directory without what is in it. -/
def addEntry (t : FileTree) (path : String) : IO FileTree := do
  if ← (← located path).isDir then return t.makeDirectory path
  return (← readFile? path).elim t (t.write path)

/-- Adds a directory, which need not be there, and its entries. -/
def addDirectory (t : FileTree) (path : String) : IO FileTree := do
  let directory ← located path
  if ← directory.isDir then
    (← directory.readDir).foldlM (fun t entry => addEntry t (FileTree.join path entry.fileName))
      (t.makeDirectory path)
  else return t

/-- The files of a project, with the scripts that its devices name, and the path of its directory. -/
def readProject (directory : String) : IO (FileTree × String) := do
  let root := (← located directory).toString
  let t ← addEntry ⟨[], []⟩ root
  let t ← addEntry t (FileTree.join root "project.toml")
  let t ← addDirectory t (FileTree.join root "devices")
  let t ← addDirectory t (FileTree.join root "ied")
  let devices := ((Project.readDevices t root).toOption.map SortedMap.values).getD []
  return (← devices.foldlM (fun t d => addEntry t (FileTree.join root d.scriptPath)) t, root)

/-- Collects lines until the input ends. -/
partial def collect (input : IO.FS.Stream) (lines : IO.Ref (List String)) : IO Unit := do
  let line ← input.getLine
  unless line.isEmpty do
    lines.modify (line :: ·)
    collect input lines

def publish (output : IO.FS.Stream) (out : Relay.Output) : IO Unit := do
  for m in out.published do
    output.putStrLn m.toJson.render
  output.flush

/-- Handles what a control client has sent. -/
def serve (output : IO.FS.Stream) (plant : Plant) (line : String) : IO Plant := do
  match (Json.parse? line).bind Channel.Message.ofJson? with
  | none =>
    IO.eprintln "Not a control message"
    return plant
  | some m =>
    let moment ← currentMoment
    publish output { published := (plant.relay.reply? isolatedHost m).toList }
    let (out, plant) := plant.carryOut isolatedHost moment (Relay.handle isolatedHost moment m)
    publish output out
    return plant

/-- Runs the plant, period after period. -/
partial def run (output : IO.FS.Stream) (lines : IO.Ref (List String)) (start : Nat) (plant : Plant) : IO Unit := do
  let plant ← (← lines.swap []).reverse.foldlM (serve output) plant
  let moment ← currentMoment
  let (report, out, plant) := plant.period isolatedHost moment (moment.elapsed - start).toUInt64
  if let some (id, line) := report.pausedAt then
    IO.eprintln s!"Paused: {id}, line {line}"
  publish output out
  let (out, plant) := plant.carryOut isolatedHost moment (Relay.sweep moment)
  publish output out
  IO.sleep (max 1 plant.engine.settings.tickPeriod.toNat).toUInt32
  run output lines start plant

/-- The configuration of a settings file, the environment and the options. -/
def configure (options : Options) : IO (Option Configuration) := do
  let environment ← Configuration.variableNames.filterMapM fun name => do
    return (← IO.getEnv name).map fun text => (name, text)
  let configuration := match ← readFile? options.settings with
    | none => Configuration.load none environment
    | some bytes => (String.fromUTF8? bytes).bind fun text => Configuration.load (some text) environment
  return configuration.map options.override

/-- The bits of a number, mixed. -/
def mixed (n : UInt64) : UInt64 :=
  let z := (n ^^^ (n >>> 30)) * 0xBF58476D1CE4E5B9
  let z := (z ^^^ (z >>> 27)) * 0x94D049BB133111EB
  z ^^^ (z >>> 31)

/-- The random words of this program: multiples of an odd number from the seed on, mixed. An offset takes
one word. -/
def generator (entropy : UInt64) : Engine.Generator :=
  let words (seed : UInt64) (i : Nat) := mixed (seed + (UInt64.ofNat i + 1) * 0x9E3779B97F4A7C15)
  { seeded := words
    fresh := words entropy
    draw := fun amplitude words =>
      let unit := Float.ofNat (words 0 >>> 11).toNat / Float.ofNat (Nat.pow 2 53)
      (amplitude * (2.0 * unit - 1.0), 1) }

/-- A plant with a project in it that has been started. -/
def install (configuration : Configuration) (project : Project) : IO Plant := do
  let entropy := (← IO.getRandomBytes 8).foldl (fun (n : UInt64) b => n <<< 8 ||| b.toUInt64) 0
  let (faults, engine) := project.apply (generator entropy) 0 (.new configuration.engine)
  for fault in faults do
    IO.eprintln fault.message
  return ⟨engine.start, .new configuration.relay, none⟩

/-- Connects the control channel to the standard streams. -/
def openChannel (project : Project) (lines : IO.Ref (List String)) (plant : Plant) : IO Plant := do
  let endpoints := Channel.Protocol.all.map fun p => (p, project.manifest.specs p)
  let (out, plant) := plant.connect isolatedHost (← currentMoment) ⟨project.model?⟩ endpoints
  publish (← IO.getStdout) out
  let input ← IO.getStdin
  let _ ← IO.asTask (collect input lines) .dedicated
  return plant

def start (options : Options) : IO UInt32 := do
  let some configuration ← configure options
    | IO.eprintln "Invalid configuration"
      return 1
  let began ← IO.monoMsNow
  let (files, root) ← readProject configuration.project
  match Project.load files root with
  | .error e =>
    IO.eprintln s!"Failed to load project from {configuration.project}: {e.message}"
    return 1
  | .ok project =>
    let lines ← IO.mkRef []
    let plant ← install configuration project
    let plant ← if options.relay then openChannel project lines plant else pure plant
    run (← IO.getStdout) lines began plant
    return 0

end Switchyard.Program

def main (arguments : List String) : IO UInt32 := do
  match Switchyard.Options.ofArguments arguments with
  | .error e =>
    IO.eprintln s!"error: {e.message}"
    return 2
  | .ok options => Switchyard.Program.start options
