import Mathlib.Data.List.Pairwise
import Switchyard.Project.Apply

/-!
# Scripts that fail

A script fails if it does not compile, or if an initializer of it fails (`Fails`). A device whose script fails is
installed like one that has none: what it adds to the substation is added before its script is looked at, and a
script that fails changes nothing (`DeviceFile.apply_cases`). So a project with scripts that fail installs what the
project without these scripts installs, and lists each of them once (`failing_scripts_isolated`).

* `Fails`, `Loads`: scripts at a time; `Gives`: what a script gives its controller.
* `Project.spared`: a project without the scripts that fail; it keeps all others (`get?_scripts_spared`).
* `Project.Keyed`: devices stand under their own ids, as they do in all projects that are loaded (`keyed_of_load`).
-/

namespace Switchyard.Project

open Script Engine

/-- **A script fails at a time**, for a cause: it does not compile, or an initializer fails. -/
inductive Fails (now : Millis) (source : String) : Engine.LoadError → Prop
  | rejected {err : CompileError} (h : compile source = .error err) : Fails now source (.rejected err)
  | initializer {program : Program} {err : RuntimeError} (h : compile source = .ok program)
      (hscope : Scope.ofProgram program now = .error err) : Fails now source (.initializer err)

/-- **A script loads at a time**, as a program with its first scope. -/
def Loads (now : Millis) (source : String) (program : Program) (scope : Scope) : Prop :=
  compile source = .ok program ∧ Scope.ofProgram program now = .ok scope

/-- Why a script fails, if it does. -/
def failure? (now : Millis) (source : String) : Option Engine.LoadError :=
  match Controller.prepare source now with
  | .error cause => some cause
  | .ok _ => none

/-- A project without the scripts that fail. -/
def spared (p : Project) (now : Millis) : Project :=
  { p with scripts := p.scripts.filter fun _ source => (failure? now source).isNone }

/-- The devices of a project stand under their own ids. -/
def Keyed (p : Project) : Prop := ∀ id d, p.devices.get? id = some d → d.config.id = id

/-- The scripts of some devices that fail, with the ids of their devices. -/
def failures (scripts : SortedMap String String) (now : Millis) (devices : List (String × DeviceFile)) :
    List (String × Engine.LoadError) :=
  devices.filterMap fun x => ((scripts.get? x.1).bind (failure? now)).map (x.1, ·)

variable {now : Millis} {source : String} {program : Program} {scope : Scope} {cause : Engine.LoadError}

/-- A script cannot be prepared exactly when it fails. -/
theorem prepare_eq_error_iff : Controller.prepare source now = .error cause ↔ Fails now source cause := by
  unfold Controller.prepare
  constructor
  · intro h
    split at h
    · rename_i err hcompile
      cases h
      exact .rejected hcompile
    · rename_i program hcompile
      split at h
      · rename_i err hscope
        cases h
        exact .initializer hcompile hscope
      · cases h
  · rintro (hcompile | ⟨hcompile, hscope⟩)
    · simp only [hcompile]
    · simp only [hcompile, hscope]

/-- A script can be prepared exactly when it loads. -/
theorem prepare_eq_ok_iff :
    Controller.prepare source now = .ok (program, scope) ↔ Loads now source program scope := by
  unfold Controller.prepare
  constructor
  · intro h
    split at h
    · cases h
    · rename_i program hcompile
      split at h
      · cases h
      · rename_i scope hscope
        cases h
        exact ⟨hcompile, hscope⟩
  · rintro ⟨hcompile, hscope⟩
    simp only [hcompile, hscope]

/-- The failure of a script is the cause for which it fails. -/
theorem failure?_eq_some_iff : failure? now source = some cause ↔ Fails now source cause := by
  rw [← prepare_eq_error_iff, failure?]
  cases Controller.prepare source now <;> simp

/-- A script fails, or it loads. -/
theorem fails_or_loads (now : Millis) (source : String) :
    (∃ cause, Fails now source cause) ∨ ∃ program scope, Loads now source program scope := by
  cases h : Controller.prepare source now with
  | error cause => exact .inl ⟨cause, prepare_eq_error_iff.1 h⟩
  | ok ready => exact .inr ⟨ready.1, ready.2, prepare_eq_ok_iff.1 h⟩

/-- A script that loads has no failure. -/
theorem Loads.not_fails (h : Loads now source program scope) : failure? now source = none := by
  rw [failure?, prepare_eq_ok_iff.2 h]

/-- **What a script gives its controller**: a task if it loads, and nothing otherwise. -/
def Gives (now : Millis) (script : Option String) (task : Option Task) : Prop :=
  ∀ t, task = some t ↔ ∃ source, script = some source ∧
    ∃ program scope, Loads now source program scope ∧ t = ⟨program, scope, none⟩

theorem gives_none : Gives now none none := fun _ => ⟨nofun, fun ⟨_, hsource, _⟩ => nomatch hsource⟩

theorem gives_of_fails (h : Fails now source cause) : Gives now (some source) none := by
  intro t
  refine ⟨nofun, ?_⟩
  rintro ⟨_, hsource, program, scope, hloads, -⟩
  obtain rfl := Option.some.inj hsource
  have hfails := failure?_eq_some_iff.2 h
  rw [hloads.not_fails] at hfails
  cases hfails

theorem gives_of_loads (h : Loads now source program scope) :
    Gives now (some source) (some ⟨program, scope, none⟩) := by
  intro t
  constructor
  · rintro ⟨rfl⟩
    exact ⟨source, rfl, program, scope, h, rfl⟩
  · rintro ⟨_, hsource, program', scope', h', rfl⟩
    obtain rfl := Option.some.inj hsource
    have hready := (prepare_eq_ok_iff.2 h).symm.trans (prepare_eq_ok_iff.2 h')
    obtain ⟨rfl, rfl⟩ := Prod.mk.inj (Except.ok.inj hready)
    rfl

namespace DeviceFile

variable {d : DeviceFile} {e : Engine} {script : Option String}

/-- The controller of a device without a script. -/
def fresh (d : DeviceFile) (settings : Engine.Settings) : Controller :=
  .ofConfig d.config settings.defaultTickRate settings.historyCapacity

/-- The engine with a device, before its script is looked at. -/
def placed (d : DeviceFile) (now : Millis) (e : Engine) : Engine :=
  ({ e with substation := d.install e.substation now } : Engine).addController d.config

theorem settings_placed : (d.placed now e).settings = e.settings := by
  unfold placed addController dropStep
  split
  · split <;> rfl
  · rfl

theorem controllers_placed :
    (d.placed now e).controllers = e.controllers.insert d.config.id (d.fresh e.settings) := by
  unfold placed addController dropStep
  split
  · split <;> rfl
  · rfl

/-- A script is loaded into the device that has been placed for it, and nothing but the script decides whether that
works. -/
theorem loadProgram_placed (d : DeviceFile) (source : String) (now : Millis) (e : Engine) :
    (d.placed now e).loadProgram d.config.id source now =
      match Controller.prepare source now with
      | .error cause => .error (.rejectedScript d.config.id cause)
      | .ok (program, scope) => .ok { d.placed now e with
          controllers := (d.placed now e).controllers.insert d.config.id
            ((d.fresh e.settings).install program scope) } := by
  have hc : (d.placed now e).controllers.get? d.config.id = some (d.fresh e.settings) := by
    rw [controllers_placed, SortedMap.get?_insert_self]
  simp only [loadProgram, hc, Controller.load]
  cases Controller.prepare source now <;> rfl

/-- **All that a device with its script comes to.** A script that fails is reported and changes nothing. -/
inductive Applied (d : DeviceFile) (now : Millis) (e : Engine) :
    Option String → Option Engine.Fault × Engine → Prop
  | unscripted : Applied d now e none (none, d.placed now e)
  | failed {source : String} {cause : Engine.LoadError} (h : Fails now source cause) :
      Applied d now e (some source) (some (.rejectedScript d.config.id cause), d.placed now e)
  | loaded {source : String} {program : Program} {scope : Scope} (h : Loads now source program scope) :
      Applied d now e (some source) (none, { d.placed now e with
        controllers := (d.placed now e).controllers.insert d.config.id
          ((d.fresh e.settings).install program scope) })

/-- A device is placed without a script, with its script, or without the script that failed. -/
theorem apply_cases (d : DeviceFile) (script : Option String) (now : Millis) (e : Engine) :
    Applied d now e script (d.apply script now e) := by
  rcases script with _ | source
  · exact .unscripted
  · have hload := d.loadProgram_placed source now e
    simp only [apply, show addController _ d.config = d.placed now e from rfl]
    obtain ⟨cause, h⟩ | ⟨program, scope, h⟩ := fails_or_loads now source
    · rw [prepare_eq_error_iff.2 h] at hload
      rw [hload]
      exact .failed h
    · rw [prepare_eq_ok_iff.2 h] at hload
      rw [hload]
      exact .loaded h

theorem settings_apply : (d.apply script now e).2.settings = e.settings := by
  have happlied := d.apply_cases script now e
  generalize d.apply script now e = result at happlied ⊢
  cases happlied with
  | unscripted | failed | loaded => exact settings_placed

/-- A device is reported if its script fails. -/
theorem fst_apply : (d.apply script now e).1 = (script.bind (failure? now)).map (.rejectedScript d.config.id) := by
  have happlied := d.apply_cases script now e
  generalize d.apply script now e = result at happlied ⊢
  cases happlied with
  | unscripted => rfl
  | failed h =>
    rw [Option.bind_some, failure?_eq_some_iff.2 h]
    rfl
  | loaded h =>
    rw [Option.bind_some, h.not_fails]
    rfl

/-- A device whose script fails is installed like one without a script. -/
theorem snd_apply_filter :
    (d.apply (script.filter fun source => (failure? now source).isNone) now e).2 = (d.apply script now e).2 := by
  have happlied := d.apply_cases script now e
  generalize hresult : d.apply script now e = result at happlied ⊢
  cases happlied with
  | unscripted => rfl
  | failed h =>
    rw [Option.filter_some, failure?_eq_some_iff.2 h]
    rfl
  | loaded h =>
    rw [Option.filter_some, h.not_fails, ← hresult]
    rfl

/-- The device gets a new controller, with what its script gives. -/
theorem get?_apply_self (d : DeviceFile) (script : Option String) (now : Millis) (e : Engine) :
    ∃ task, (d.apply script now e).2.controllers.get? d.config.id = some { d.fresh e.settings with task } ∧
      Gives now script task := by
  have hplaced : (d.placed now e).controllers.get? d.config.id = some (d.fresh e.settings) := by
    rw [controllers_placed, SortedMap.get?_insert_self]
  have happlied := d.apply_cases script now e
  generalize d.apply script now e = result at happlied ⊢
  cases happlied with
  | unscripted => exact ⟨none, hplaced, gives_none⟩
  | failed h => exact ⟨none, hplaced, gives_of_fails h⟩
  | loaded h => exact ⟨_, SortedMap.get?_insert_self _ _ _, gives_of_loads h⟩

/-- A device leaves the controllers of all other ones alone. -/
theorem get?_apply_of_ne {id : String} (hid : id ≠ d.config.id) :
    (d.apply script now e).2.controllers.get? id = e.controllers.get? id := by
  have hplaced : (d.placed now e).controllers.get? id = e.controllers.get? id := by
    rw [controllers_placed, SortedMap.get?_insert_of_ne _ _ hid]
  have happlied := d.apply_cases script now e
  generalize d.apply script now e = result at happlied ⊢
  cases happlied with
  | unscripted | failed => exact hplaced
  | loaded => exact (SortedMap.get?_insert_of_ne _ _ hid).trans hplaced

end DeviceFile

section
variable {scripts spared : SortedMap String String} {devices : List (String × DeviceFile)} {e : Engine} {id : String}

theorem snd_applyDevices_cons {d : DeviceFile} : (applyDevices scripts now ((id, d) :: devices) e).2 =
    (applyDevices scripts now devices (d.apply (scripts.get? id) now e).2).2 := rfl

/-- The devices are installed alike with the scripts that do not fail. -/
theorem applyDevices_spared
    (hspared : ∀ id, spared.get? id = (scripts.get? id).filter fun source => (failure? now source).isNone) :
    (applyDevices spared now devices e).2 = (applyDevices scripts now devices e).2 := by
  induction devices generalizing e with
  | nil => rfl
  | cons x rest ih =>
    obtain ⟨id, d⟩ := x
    rw [snd_applyDevices_cons, snd_applyDevices_cons, hspared id, DeviceFile.snd_apply_filter, ih]

/-- The devices report the failures of their scripts, one after the other. -/
theorem applyDevices_faults (hkeyed : ∀ x ∈ devices, x.2.config.id = x.1) :
    (applyDevices scripts now devices e).1 =
      (failures scripts now devices).map fun f => .rejectedScript f.1 f.2 := by
  induction devices generalizing e with
  | nil => rfl
  | cons x rest ih =>
    obtain ⟨id, d⟩ := x
    obtain ⟨hid, hrest⟩ := List.forall_mem_cons.1 hkeyed
    simp only at hid
    simp only [applyDevices, DeviceFile.fst_apply, ih hrest, failures, List.filterMap_cons, hid]
    cases (scripts.get? id).bind (failure? now) <;> rfl

/-- Devices leave the controllers of all other ones alone. -/
theorem get?_applyDevices_of_forall_ne (hid : ∀ x ∈ devices, id ≠ x.2.config.id) :
    (applyDevices scripts now devices e).2.controllers.get? id = e.controllers.get? id := by
  induction devices generalizing e with
  | nil => rfl
  | cons x rest ih =>
    obtain ⟨hne, hrest⟩ := List.forall_mem_cons.1 hid
    exact (ih hrest).trans (DeviceFile.get?_apply_of_ne hne)

/-- Each of some devices with ids of their own gets its controller. -/
theorem get?_applyDevices {d : DeviceFile} (hkeyed : ∀ x ∈ devices, x.2.config.id = x.1)
    (hasc : SortedMap.Ascending devices) (hd : (id, d) ∈ devices) :
    ∃ task, (applyDevices scripts now devices e).2.controllers.get? id = some { d.fresh e.settings with task } ∧
      Gives now (scripts.get? id) task := by
  induction devices generalizing e with
  | nil => cases hd
  | cons x devices ih =>
    obtain ⟨other, d'⟩ := x
    obtain ⟨hx, hrest⟩ := List.forall_mem_cons.1 hkeyed
    obtain ⟨hlt, hasc⟩ := List.pairwise_cons.1 hasc
    rw [snd_applyDevices_cons]
    rcases List.mem_cons.1 hd with heq | hd
    · obtain ⟨rfl, rfl⟩ := Prod.mk.inj heq
      -- no device that is installed later has this id
      have hlater : ∀ y ∈ devices, id ≠ y.2.config.id := by
        rintro y hy rfl
        have hself := hlt y hy
        rw [hrest y hy, Std.ReflOrd.compare_self] at hself
        cases hself
      rw [get?_applyDevices_of_forall_ne hlater]
      have hself := d.get?_apply_self (scripts.get? id) now e
      rwa [hx] at hself
    · obtain ⟨task, hc, hgives⟩ := ih (e := (d'.apply (scripts.get? other) now e).2) hrest hasc hd
      rw [DeviceFile.settings_apply] at hc
      exact ⟨task, hc, hgives⟩

end

variable {p : Project}

theorem Keyed.forall_mem (h : p.Keyed) : ∀ x ∈ p.devices.entries, x.2.config.id = x.1 :=
  fun _ hx => h _ _ (SortedMap.get?_of_mem hx)

/-- **Projects that are loaded** have their devices under their own ids. -/
theorem keyed_of_load {t : FileTree} {root : String} (h : load t root = .ok p) : p.Keyed := by
  obtain ⟨devices, hread, rfl⟩ : ∃ devices, readDevices t root = .ok devices ∧ p.devices = devices := by
    simp only [load, bind, Except.bind, pure, Except.pure] at h
    repeat' split at h
    all_goals cases h
    all_goals exact ⟨_, ‹readDevices t root = _›, rfl⟩
  intro id d hd
  simp only [readDevices, bind, Except.bind, pure, Except.pure] at hread
  split at hread
  · cases hread
  · rw [← Except.ok.inj hread] at hd
    obtain ⟨d', -, heq⟩ := List.mem_map.1 (SortedMap.mem_of_get?_ofList hd)
    obtain ⟨rfl, rfl⟩ := Prod.mk.inj heq
    rfl

/-- Of the scripts, those that do not fail are spared. -/
theorem get?_scripts_spared {id : String} : (p.spared now).scripts.get? id = some source ↔
    p.scripts.get? id = some source ∧ ∀ cause, ¬ Fails now source cause := by
  rw [spared, SortedMap.get?_filter, Option.filter_eq_some_iff, Option.isNone_iff_eq_none,
    Option.eq_none_iff_forall_ne_some]
  simp only [ne_eq, failure?_eq_some_iff]

/-- The failures come in the order of the ids. -/
theorem ascending_failures (p : Project) (now : Millis) :
    SortedMap.Ascending (failures p.scripts now p.devices.entries) := by
  refine List.pairwise_filterMap.2 (p.devices.ascending.imp fun hlt f hf g hg => ?_)
  obtain ⟨_, -, rfl⟩ := Option.map_eq_some_iff.1 hf
  obtain ⟨_, -, rfl⟩ := Option.map_eq_some_iff.1 hg
  exact hlt

/-- The failures of a project, by the ids of their devices. -/
def failing (p : Project) (now : Millis) : SortedMap String Engine.LoadError :=
  ⟨failures p.scripts now p.devices.entries, ascending_failures p now⟩

/-- The devices that fail are those with a script that fails. -/
theorem get?_failing {id : String} : (p.failing now).get? id = some cause ↔
    p.devices.contains id ∧ ∃ source, p.scripts.get? id = some source ∧ Fails now source cause := by
  rw [← SortedMap.mem_entries_iff, failing]
  refine List.mem_filterMap.trans ?_
  constructor
  · rintro ⟨⟨id', d⟩, hd, hf⟩
    obtain ⟨cause', hcause, heq⟩ := Option.map_eq_some_iff.1 hf
    obtain ⟨rfl, rfl⟩ := Prod.mk.inj heq
    obtain ⟨source, hsource, hfailure⟩ := Option.bind_eq_some_iff.1 hcause
    have hcontains : p.devices.contains id' := by rw [SortedMap.contains, SortedMap.get?_of_mem hd, Option.isSome_some]
    exact ⟨hcontains, source, hsource, failure?_eq_some_iff.1 hfailure⟩
  · rintro ⟨hid, source, hsource, hfails⟩
    obtain ⟨d, hd⟩ := Option.isSome_iff_exists.1 hid
    refine ⟨(id, d), SortedMap.mem_of_get? hd, ?_⟩
    simp only [hsource, Option.bind_some, failure?_eq_some_iff.2 hfails, Option.map_some]

/-- **Scripts that fail are isolated.** A project installs what it installs without the scripts that fail, each of
these is listed once, in the order of the ids, and every device is there, with the program of its script if that
loads. -/
theorem failing_scripts_isolated (g : Engine.Generator) (now : Millis) (e : Engine) (h : p.Keyed) :
    (p.apply g now e).2 = ((p.spared now).apply g now e).2 ∧
    (∃ failing : SortedMap String Engine.LoadError,
      (p.apply g now e).1 = failing.entries.map (fun f => .rejectedScript f.1 f.2) ∧
      ∀ id cause, failing.get? id = some cause ↔
        p.devices.contains id ∧ ∃ source, p.scripts.get? id = some source ∧ Fails now source cause) ∧
    (∀ id d, p.devices.get? id = some d → ∃ task,
      (p.apply g now e).2.controllers.get? id = some { d.fresh e.settings with task } ∧
      Gives now (p.scripts.get? id) task) ∧
    ∀ id, p.devices.get? id = none → (p.apply g now e).2.controllers.get? id = e.controllers.get? id := by
  have hsettings : (applyManifest p.manifest g e).settings = e.settings := by
    unfold applyManifest
    split <;> rfl
  have hcontrollers : (applyManifest p.manifest g e).controllers = e.controllers := by
    unfold applyManifest
    split <;> rfl
  refine ⟨?_, ⟨p.failing now, applyDevices_faults h.forall_mem, fun id cause => get?_failing⟩, fun id d hd => ?_,
    fun id hid => ?_⟩
  · exact (applyDevices_spared fun id => SortedMap.get?_filter _ _ id).symm
  · rw [← hsettings]
    exact get?_applyDevices h.forall_mem p.devices.ascending (SortedMap.mem_of_get? hd)
  · rw [← hcontrollers]
    refine get?_applyDevices_of_forall_ne fun x hx heq => ?_
    rw [h.forall_mem x hx] at heq
    rw [heq, SortedMap.get?_of_mem hx] at hid
    cases hid

/-- A project with three devices on one profile: the script of the first does not compile, an initializer of the
second fails, and the third writes to a coil. -/
def threeDevices : Project where
  manifest := ⟨"p", "P", usualVersion, none, [], [], .standard, []⟩
  devices := .ofList (["a", "b", "c"].map fun id =>
    (id, ⟨⟨id, none, "bay", true, none⟩, none, none, [], [], []⟩))
  scripts := .ofList [("a", "x := ;"), ("b", "VAR n : INT := 1 / 0; END_VAR\nn := 1;"),
    ("c", "Device.WriteCoil(1, TRUE);")]
  models := []

/-- A generator that draws no offset but zero. -/
def still : Engine.Generator := ⟨fun _ _ => 0, fun _ => 0, fun _ _ => (0, 1)⟩

/-- The two failures are listed, and only the third device has a program. -/
theorem failing_scripts_isolated_three : threeDevices.Keyed ∧
    (threeDevices.apply still 0 (.new .standard)).2 = ((threeDevices.spared 0).apply still 0 (.new .standard)).2 ∧
    (threeDevices.apply still 0 (.new .standard)).1 =
      [.rejectedScript "a" (.rejected ⟨.unexpectedInExpression (some (.symbol .semi)), some 1⟩),
        .rejectedScript "b" (.initializer ⟨.divisionByZero, some 1⟩)] ∧
    (threeDevices.apply still 0 (.new .standard)).2.controllers.entries.map (fun x => (x.1, x.2.task.isSome)) =
      [("a", false), ("b", false), ("c", true)] := by
  have hkeyed : threeDevices.Keyed := by
    have hentries : ∀ x ∈ threeDevices.devices.entries, x.2.config.id = x.1 := by decide +kernel
    exact fun id d hd => hentries _ (SortedMap.mem_of_get? hd)
  exact ⟨hkeyed, (failing_scripts_isolated still 0 (.new .standard) hkeyed).1, by decide +kernel, by decide +kernel⟩

end Switchyard.Project
