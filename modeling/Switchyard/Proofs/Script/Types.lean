import Mathlib.Data.List.Nodup
import Switchyard.Proofs.Script.Atomicity

/-!
# Variables hold values of their types

Values come into a scope by assignments only, and an assignment converts to the type of the
variable or is refused. So whatever expressions and devices come up with, a variable of a compiled
program holds a value of its declared type for as long as the scope is used (`types_preserved`).

* `kind_convert`, `convert_isOk`: what conversions give, and which are not refused.
* `Scope.Conforms`: a scope has the declared variables, with values of their types.
* `Scope.assign`: an assignment in place.
* `Program.Scopes`: the scopes that a program may hold its variables in.
-/

namespace Switchyard.Script

variable {σ : Type} {p : Program}

/-- The kind of the values of a type. -/
def TypeName.kind : TypeName → Kind
  | bool => .bool
  | int | time => .int
  | real => .real
  | string => .string

/-- Every variable starts with a value of its type. -/
theorem kind_initial (type : TypeName) : type.initial.kind = type.kind := by
  cases type <;> rfl

/-- **Conversion gives values of the type.** -/
theorem kind_convert {type : TypeName} {name : String} {value v : Scalar} (h : convert type name value = .ok v) :
    v.kind = type.kind := by
  cases value with
  | null =>
    obtain rfl := Except.ok.inj h
    exact kind_initial type
  | bool b => cases type <;> cases h <;> rfl
  | int n => cases type <;> cases h <;> rfl
  | real x => cases type <;> cases h <;> rfl
  | text s =>
    cases type <;> cases h
    rfl

/-- Only texts are refused, and only where no texts are held. -/
theorem convert_isOk (type : TypeName) (name : String) (value : Scalar) :
    (∃ v, convert type name value = .ok v) ↔ (value.kind = .string → type = .string) := by
  cases value with
  | null => cases type <;> simp [convert, Scalar.kind]
  | bool b => cases type <;> simp [convert, Scalar.kind]
  | int n => cases type <;> simp [convert, Scalar.kind]
  | real x => cases type <;> simp [convert, Scalar.kind]
  | text s => cases type <;> simp [convert, Scalar.kind]

/-- **A scope conforms to declarations**: it has their variables, in their order and with their types,
and each holds a value of its type. -/
structure Scope.Conforms (vars : List Declaration) (s : Scope) : Prop where
  headings : s.headings = vars.map Declaration.heading
  kinds : ∀ b ∈ s.bindings, b.value.kind = b.type.kind

/-- A binding that is changed but holds a value of its type again. -/
theorem kinds_modify {s : Scope} {f : Binding → Binding} (key : String)
    (h : ∀ b ∈ s.bindings, b.value.kind = b.type.kind)
    (hf : ∀ b ∈ s.bindings, b.key = key → (f b).value.kind = (f b).type.kind) :
    ∀ b ∈ (s.modify key f).bindings, b.value.kind = b.type.kind := fun b' hb' => by
  obtain ⟨b, hb, rfl⟩ := List.mem_map.1 hb'
  split
  · rename_i hkey
    exact hf b hb (beq_iff_eq.1 hkey)
  · exact h b hb

namespace Scope.Conforms

variable {vars : List Declaration} {s s' : Scope} {key : String} {value : Scalar}

theorem keys (h : s.Conforms vars) : s.bindings.map Binding.key = vars.map Declaration.key := by
  have hkeys := congrArg (List.map Prod.fst) h.headings
  rw [Scope.headings, List.map_map, List.map_map] at hkeys
  exact hkeys

theorem ofDecls (vars : List Declaration) : (Scope.ofDecls vars).Conforms vars where
  headings := by
    rw [Scope.headings, Scope.ofDecls, List.map_map]
    rfl
  kinds b hb := by
    obtain ⟨d, -, rfl⟩ := List.mem_map.1 hb
    exact kind_initial d.type

/-- No two variables have one key, so what is converted for one is stored in that one. -/
theorem set (h : s.Conforms vars) (hdistinct : (vars.map Declaration.key).Nodup) (hset : s.set key value = .ok s') :
    s'.Conforms vars := by
  refine ⟨(headings_set hset).trans h.headings, ?_⟩
  obtain ⟨found, v, hfind, hconvert, rfl⟩ := Scope.set_eq_ok hset
  have hfound : found ∈ s.bindings := List.mem_of_find?_eq_some hfind
  have hkey : found.key = key := by simpa using List.find?_some hfind
  refine kinds_modify key h.kinds fun b hb hbkey => ?_
  rw [← h.keys] at hdistinct
  obtain rfl : b = found := List.inj_on_of_nodup_map hdistinct hb hfound (hbkey.trans hkey.symm)
  exact kind_convert hconvert

end Scope.Conforms

/-- **Whatever a program does to its variables**, they conform to their declarations. -/
theorem keeps_conforms {vars : List Declaration} (hdistinct : (vars.map Declaration.key).Nodup) :
    Scope.Keeps (Scope.Conforms vars) where
  set h hset := h.set hdistinct hset
  startTimer key h :=
    ⟨(headings_startTimer _ key).trans h.headings, kinds_modify key h.kinds fun b hb _ => h.kinds b hb⟩
  followState now h := by
    refine ⟨(headings_followState _ now).trans h.headings, ?_⟩
    rename_i s
    rcases s.followState_cases now with ⟨hs, -⟩ | ⟨n, -, -, hs⟩
    · rw [hs]
      exact h.kinds
    · rw [hs]
      intro b' hb'
      obtain ⟨b, hb, rfl⟩ := List.mem_map.1 hb'
      exact h.kinds b hb

/-- An assignment in place: the scope is replaced if the value is taken. -/
def Scope.assign (key : String) (value : Scalar) : ExceptT RuntimeError (StateM Scope) Unit := do
  let scope ← get
  MonadStateOf.set (← liftM (scope.set key value))

/-- **A scope changes by an assignment that is taken**, and by no other. -/
theorem run_assign (key : String) (value : Scalar) (s : Scope) :
    (Scope.assign key value).run s =
      match s.set key value with
      | .ok s' => (.ok (), s')
      | .error err => (.error err, s) := by
  show (do let s' ← liftM (s.set key value); MonadStateOf.set s' : ExceptT RuntimeError (StateM Scope) Unit).run s = _
  cases s.set key value with
  | ok s' => rfl
  | error err => rfl

/-- The scopes that a program may hold its variables in: that of its start, and what becomes of it by
assignments, by looks at `STATE` and by steps of any execution, with any device and in any order. -/
inductive Program.Scopes (p : Program) : Scope → Prop
  | start {now : Millis} {s : Scope} (h : Scope.ofProgram p now = .ok s) : Scopes p s
  | assign (key : String) (value : Scalar) {s : Scope} (h : Scopes p s) : Scopes p ((Scope.assign key value).run s).2
  | follow (now : Millis) {s : Scope} (h : Scopes p s) : Scopes p (s.followState now)
  | step {σ : Type} (e : Execution) (dev : Device σ) (state : σ) {s : Scope} (h : Scopes p s) :
      Scopes p (e.step dev s state).scope

/-- What is there at the start and kept by all changes is there in all these scopes. -/
theorem Scope.Keeps.scopes {P : Scope → Prop} (hP : Scope.Keeps P) (h0 : P (Scope.ofDecls p.vars)) {s : Scope}
    (h : p.Scopes s) : P s := by
  induction h with
  | start h => exact hP.ofProgram h0 h
  | @assign key value s _ ih =>
    rw [run_assign]
    cases hset : s.set key value with
    | ok s' => exact hP.set ih hset
    | error err => exact ih
  | follow now _ ih => exact hP.followState now ih
  | step e dev state _ ih => exact hP.step ih e dev state

/-- Which assignments are taken: those to a variable, of any value but of a text where no texts are held. -/
theorem set_isOk (s : Scope) (key : String) (value : Scalar) :
    (∃ s', s.set key value = .ok s') ↔ ∃ b, s.find? key = some b ∧ (value.kind = .string → b.type = .string) := by
  rw [Scope.set]
  cases hfind : s.find? key with
  | none => simp
  | some b =>
    have hconvert := convert_isOk b.type b.name value
    cases hc : convert b.type b.name value with
    | ok v =>
      rw [hc] at hconvert
      simp only [hc, Option.some.injEq, exists_eq_left']
      simpa using hconvert
    | error err =>
      rw [hc] at hconvert
      simp only [hc, Option.some.injEq, exists_eq_left']
      simpa using hconvert

/-- **What a scope of a program is like**: it has the declared variables in their order, each with its
declared type and a value of that type; and it stays as it is when an assignment from outside is
refused, which happens to texts for variables of other types and to unknown variables only, and when
a step fails. -/
structure Program.Holds (p : Program) (s : Scope) : Prop where
  headings : s.headings = p.vars.map Declaration.heading
  kinds : ∀ b ∈ s.bindings, b.value.kind = b.type.kind
  values : ∀ d ∈ p.vars, ∃ v, s.get? d.key = some v ∧ v.kind = d.type.kind
  taken : ∀ key value, ((Scope.assign key value).run s).1 = .ok () ↔
    ∃ d ∈ p.vars, d.key = key ∧ (value.kind = .string → d.type = .string)
  refused : ∀ key value err, ((Scope.assign key value).run s).1 = .error err → ((Scope.assign key value).run s).2 = s
  failed : ∀ {σ : Type} (e : Execution) (dev : Device σ) (state : σ) err,
    (e.step dev s state).outcome = .error err → (e.step dev s state).scope = s

/-- What is found under a key is declared. -/
theorem Scope.Conforms.declared {vars : List Declaration} {s : Scope} (h : s.Conforms vars) {key : String} {b : Binding}
    (hb : s.find? key = some b) : ∃ d ∈ vars, d.key = key ∧ d.type = b.type := by
  have hmem : b.heading ∈ s.headings := List.mem_map_of_mem (List.mem_of_find?_eq_some hb)
  rw [h.headings] at hmem
  obtain ⟨d, hd, hheading⟩ := List.mem_map.1 hmem
  obtain ⟨hkey, -, htype⟩ : d.key = b.key ∧ d.name = b.name ∧ d.type = b.type := by
    simpa [Declaration.heading, Binding.heading] using hheading
  have hbkey : b.key = key := by simpa using List.find?_some hb
  exact ⟨d, hd, hkey.trans hbkey, htype⟩

/-- Where keys are not repeated, a declared variable is found under its key. -/
theorem Scope.Conforms.find? {vars : List Declaration} {s : Scope} (h : s.Conforms vars)
    (hdistinct : (vars.map Declaration.key).Nodup) {d : Declaration} (hd : d ∈ vars) :
    ∃ b, s.find? d.key = some b ∧ b.type = d.type ∧ b.value.kind = b.type.kind := by
  have hkey : d.key ∈ s.bindings.map Binding.key := by
    rw [h.keys]
    exact List.mem_map_of_mem hd
  obtain ⟨b', hb', hbkey⟩ := List.mem_map.1 hkey
  have hsome : (s.find? d.key).isSome := List.find?_isSome.2 ⟨b', hb', by simp [hbkey]⟩
  obtain ⟨b, hb⟩ := Option.isSome_iff_exists.1 hsome
  obtain ⟨d', hd', hsame, htype⟩ := h.declared hb
  obtain rfl : d' = d := List.inj_on_of_nodup_map hdistinct hd' hd hsame
  exact ⟨b, hb, htype.symm, h.kinds b (List.mem_of_find?_eq_some hb)⟩

/-- **Declared types are preserved**, in every scope of a program that compiles. -/
theorem types_preserved {source : String} {s : Scope} (h : compile source = .ok p) (hs : p.Scopes s) : p.Holds s := by
  have hdistinct := (wellFormed_of_compile h).distinct
  have hconforms : s.Conforms p.vars := (keeps_conforms hdistinct).scopes (.ofDecls p.vars) hs
  refine ⟨hconforms.headings, hconforms.kinds, fun d hd => ?_, fun key value => ?_, fun key value err herr => ?_,
    fun e dev state err herr => (Execution.step_error herr).1⟩
  · obtain ⟨b, hb, htype, hkind⟩ := hconforms.find? hdistinct hd
    exact ⟨b.value, by rw [Scope.get?, hb]; rfl, hkind.trans (congrArg _ htype)⟩
  · have hok : ((Scope.assign key value).run s).1 = .ok () ↔ ∃ s', s.set key value = .ok s' := by
      rw [run_assign]
      cases s.set key value with
      | ok s' => simp
      | error err => simp
    rw [hok, set_isOk]
    constructor
    · rintro ⟨b, hb, htext⟩
      obtain ⟨d, hd, hkey, htype⟩ := hconforms.declared hb
      exact ⟨d, hd, hkey, htype ▸ htext⟩
    · rintro ⟨d, hd, rfl, htext⟩
      obtain ⟨b, hb, htype, -⟩ := hconforms.find? hdistinct hd
      exact ⟨b, hb, htype ▸ htext⟩
  · rw [run_assign] at herr ⊢
    cases hset : s.set key value with
    | ok s' =>
      rw [hset] at herr
      cases herr
    | error err => rfl

/-- A tank with a level that is assigned an integer. -/
def tank : String := "VAR level : REAL := 2; full : BOOL; END_VAR level := 3; full := level > 2.5;"

theorem types_preserved_tank : ∃ p s, compile tank = .ok p ∧ Scope.ofProgram p 0 = .ok s ∧
    p.Holds ((Execution.start p).step detached s 0).scope := by
  have hruns : (compile tank).toOption.any (fun p => (Scope.ofProgram p 0).toOption.isSome) = true := by
    decide +kernel
  cases hp : compile tank with
  | error e =>
    rw [hp] at hruns
    cases hruns
  | ok p =>
    rw [hp] at hruns
    cases hs : Scope.ofProgram p 0 with
    | error e =>
      rw [Except.toOption, Option.any_some, hs] at hruns
      cases hruns
    | ok s => exact ⟨p, s, rfl, hs, types_preserved hp (.step (.start p) detached 0 (.start hs))⟩

end Switchyard.Script
