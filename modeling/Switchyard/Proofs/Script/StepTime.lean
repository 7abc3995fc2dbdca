import Switchyard.Proofs.Script.Types

/-!
# Time in a state

The `stepTime` of a state constant is the time since `STATE` last came to the value of
the constant. The timer of a constant holds one time, and all timers together hold the
last integer seen in `STATE`. What this comes to is said of the list of all looks at
`STATE` that have found an integer (`Scope.observations`): the value of a constant was
last entered at the latest of them that found it while the one before did not, or was
the first (`entered?`). Whatever is assigned, to `STATE`, to the constants or to any
other variable, the timers show the time since then (`stepTime_since_entry`).

* `timer?_of_initializers`: which variables have a timer at the start, and for which value.
* `Tracks`, `tracks_reach`: what the timers hold is what the observations say, call by call.
* `Execution.scope_step`, `Scope.scopes_iff_reach`: steps of a program are such calls.
-/

namespace Switchyard.Script

variable {s s' : Scope} {key other : String} {now : Millis} {value : Scalar} {d : Declaration} {b : Binding}

namespace Scope

/-- The timer of a variable. -/
def timer? (s : Scope) (key : String) : Option Timer := (s.find? key).bind Binding.timer

/-- The integer that a timer stands for. -/
def target? (s : Scope) (key : String) : Option Int64 := (s.timer? key).map Timer.target

/-- A variable is found as it has become if all keys stay. -/
theorem find?_map (s : Scope) {f : Binding → Binding} (hf : ∀ b, (f b).key = b.key) (last : Option Int64)
    (key : String) : find? ⟨s.bindings.map f, last⟩ key = (s.find? key).map f := by
  simp only [find?, List.find?_map, Function.comp_def, hf]

/-- A change applies to the variable with its key only. -/
theorem find?_modify (s : Scope) {f : Binding → Binding} (hf : ∀ b, (f b).key = b.key) (key other : String) :
    (s.modify key f).find? other = (s.find? other).map fun b => if b.key == key then f b else b := by
  refine s.find?_map (fun b => ?_) s.lastState other
  split
  · exact hf b
  · rfl

theorem find?_modify_self (s : Scope) (key : String) {f : Binding → Binding} (hf : ∀ b, (f b).key = b.key) :
    (s.modify key f).find? key = (s.find? key).map f := by
  rw [s.find?_modify hf]
  cases hfind : s.find? key with
  | none => rfl
  | some b =>
    have hkey : b.key = key := by simpa using List.find?_some hfind
    simp [hkey]

theorem find?_modify_of_ne (s : Scope) {f : Binding → Binding} (hf : ∀ b, (f b).key = b.key) (h : other ≠ key) :
    (s.modify key f).find? other = s.find? other := by
  rw [s.find?_modify hf]
  cases hfind : s.find? other with
  | none => rfl
  | some b =>
    have hkey : b.key = other := by simpa using List.find?_some hfind
    simp [hkey, h]

/-- An assignment converts the value to the type of the variable, and changes nothing else of it. -/
theorem find?_set_self (h : s.set key value = .ok s') :
    ∃ b v, s.find? key = some b ∧ convert b.type b.name value = .ok v ∧ s'.find? key = some { b with value := v } := by
  obtain ⟨b, v, hfind, hconvert, rfl⟩ := set_eq_ok h
  refine ⟨b, v, hfind, hconvert, ?_⟩
  rw [find?_modify_self, hfind]
  · rfl
  · exact fun _ => rfl

/-- An assignment leaves the other variables alone. -/
theorem find?_set_of_ne (h : s.set key value = .ok s') (hne : other ≠ key) : s'.find? other = s.find? other := by
  obtain ⟨-, v, -, -, rfl⟩ := set_eq_ok h
  exact s.find?_modify_of_ne (fun _ => rfl) hne

theorem lastState_set (h : s.set key value = .ok s') : s'.lastState = s.lastState := by
  obtain ⟨-, -, -, -, rfl⟩ := set_eq_ok h
  rfl

/-- An assignment leaves all timers as they are, that of its own variable too. -/
theorem timer?_set (h : s.set key value = .ok s') (other : String) : s'.timer? other = s.timer? other := by
  by_cases hne : other = key
  · subst hne
    obtain ⟨b, v, hfind, -, hfind'⟩ := find?_set_self h
    rw [timer?, timer?, hfind, hfind']
    rfl
  · rw [timer?, timer?, find?_set_of_ne h hne]

theorem stepTime?_eq (s : Scope) (key : String) (now : Millis) :
    s.stepTime? key now = (s.timer? key).map fun t => t.elapsed now := rfl

/-- An initializer leaves the other variables alone. -/
theorem find?_runInitializer_of_ne (h : s.runInitializer now d = .ok s') (hne : other ≠ d.key) :
    s'.find? other = s.find? other := by
  obtain ⟨mid, hassigned, rfl⟩ := runInitializer_eq_ok h
  have hmid : mid.find? other = s.find? other := by
    rcases hassigned with ⟨-, rfl⟩ | ⟨e, v, -, -, hset⟩
    · rfl
    · exact find?_set_of_ne hset hne
  split
  · rw [startTimer, find?_modify_of_ne _ _ hne, hmid]
    exact fun _ => rfl
  · exact hmid

theorem lastState_runInitializer (h : s.runInitializer now d = .ok s') : s'.lastState = s.lastState := by
  obtain ⟨mid, hassigned, rfl⟩ := runInitializer_eq_ok h
  have hmid : mid.lastState = s.lastState := by
    rcases hassigned with ⟨-, rfl⟩ | ⟨e, v, -, -, hset⟩
    · rfl
    · exact lastState_set hset
  split
  · exact hmid
  · exact hmid

/-- What the initializer of a state constant leaves in its variable. -/
theorem find?_runInitializer_state (h : s.runInitializer now d = .ok s') (hstate : d.isStateName = true)
    (hb : s.find? d.key = some b) :
    ∃ e v w, d.init = some e ∧ evaluateDetached s now e = .ok v ∧ convert b.type b.name v = .ok w ∧
      s'.find? d.key = some { b with value := w, timer := some ⟨w.toInt64?.getD 0, none⟩ } := by
  obtain ⟨mid, ⟨hnone, -⟩ | ⟨e, v, he, hv, hset⟩, rfl⟩ := runInitializer_eq_ok h
  · -- without an initializer it would be no state constant
    rw [Declaration.isStateName, hnone, Option.isSome_none, Bool.and_false] at hstate
    cases hstate
  obtain ⟨b', w, hfind, hconvert, hfind'⟩ := find?_set_self hset
  obtain rfl : b = b' := Option.some.inj (hb.symm.trans hfind)
  refine ⟨e, v, w, he, hv, hconvert, ?_⟩
  rw [if_pos hstate, startTimer, find?_modify_self, hfind']
  · rfl
  · exact fun _ => rfl

/-- The initializer of any other variable starts no timer. -/
theorem timer?_runInitializer (h : s.runInitializer now d = .ok s') (hstate : ¬ d.isStateName = true) :
    s'.timer? d.key = s.timer? d.key := by
  obtain ⟨mid, hassigned, rfl⟩ := runInitializer_eq_ok h
  rw [if_neg hstate]
  rcases hassigned with ⟨-, rfl⟩ | ⟨e, v, -, -, hset⟩
  · rfl
  · exact timer?_set hset d.key

variable {decls vars : List Declaration}

/-- What each initializer leaves alone, all of them do. -/
theorem initializers_keep {α : Type} (f : Scope → α)
    (hf : ∀ d ∈ decls, ∀ s s', s.runInitializer now d = .ok s' → f s' = f s)
    (h : decls.foldlM (fun s d => s.runInitializer now d) s = .ok s') : f s' = f s := by
  induction decls generalizing s with
  | nil =>
    cases h
    rfl
  | cons d decls ih =>
    rw [List.foldlM_cons] at h
    obtain ⟨mid, hfirst, hrest⟩ := bind_eq_ok.1 h
    obtain ⟨hd, hdecls⟩ := List.forall_mem_cons.1 hf
    exact (ih hdecls hrest).trans (hd s mid hfirst)

/-- The initializers leave all variables alone but those of their declarations. -/
theorem find?_initializers_of_notMem (h : decls.foldlM (fun s d => s.runInitializer now d) s = .ok s')
    (hnot : key ∉ decls.map Declaration.key) : s'.find? key = s.find? key := by
  refine initializers_keep (·.find? key) (fun d hd s s' hrun => find?_runInitializer_of_ne hrun ?_) h
  rintro rfl
  exact hnot (List.mem_map_of_mem hd)

theorem lastState_initializers (h : decls.foldlM (fun s d => s.runInitializer now d) s = .ok s') :
    s'.lastState = s.lastState :=
  initializers_keep Scope.lastState (fun _ _ _ _ hrun => lastState_runInitializer hrun) h

/-- **One initializer among all**: it meets its variable as it was at first, and what it leaves there stays. -/
theorem split_initializers (hdistinct : (decls.map Declaration.key).Nodup)
    (h : decls.foldlM (fun s d => s.runInitializer now d) s = .ok s') (hd : d ∈ decls) :
    ∃ earlier later before after, decls = earlier ++ d :: later ∧
      earlier.foldlM (fun s d => s.runInitializer now d) s = .ok before ∧
      before.runInitializer now d = .ok after ∧ before.find? d.key = s.find? d.key ∧
      s'.find? d.key = after.find? d.key := by
  obtain ⟨earlier, later, rfl⟩ := List.append_of_mem hd
  rw [List.foldlM_append] at h
  obtain ⟨before, hearlier, h⟩ := bind_eq_ok.1 h
  rw [List.foldlM_cons] at h
  obtain ⟨after, hfirst, hlater⟩ := bind_eq_ok.1 h
  rw [List.map_append, List.map_cons, List.nodup_middle, List.nodup_cons, List.mem_append, not_or] at hdistinct
  exact ⟨earlier, later, before, after, rfl, hearlier, hfirst,
    find?_initializers_of_notMem hearlier hdistinct.1.1, find?_initializers_of_notMem hlater hdistinct.1.2⟩

/-- At first, a variable has the initial value of its type and no timer. -/
theorem find?_ofDecls (hdistinct : (vars.map Declaration.key).Nodup) (hd : d ∈ vars) :
    (ofDecls vars).find? d.key = some ⟨d.key, d.name, d.type, d.type.initial, none⟩ := by
  have hfound : vars.find? (fun d' => d'.key == d.key) = some d := by
    have hsome : (vars.find? fun d' => d'.key == d.key).isSome := List.find?_isSome.2 ⟨d, hd, beq_self_eq_true _⟩
    obtain ⟨d', hd'⟩ := Option.isSome_iff_exists.1 hsome
    have hkey : d'.key = d.key := by simpa using List.find?_some hd'
    rw [hd', List.inj_on_of_nodup_map hdistinct (List.mem_of_find?_eq_some hd') hd hkey]
  rw [find?, ofDecls, List.find?_map]
  simp only [Function.comp_def, hfound, Option.map_some]

theorem timer?_ofDecls (vars : List Declaration) (key : String) : (ofDecls vars).timer? key = none := by
  rw [timer?]
  cases hfind : (ofDecls vars).find? key with
  | none => rfl
  | some b =>
    obtain ⟨d, -, rfl⟩ := List.mem_map.1 (List.mem_of_find?_eq_some hfind)
    rfl

end Scope

/-- **What an initializer comes to**: it is evaluated after those of all declarations before it, and its value is
converted to the type of its variable. -/
def Program.Initializes (p : Program) (now : Millis) (d : Declaration) (value : Scalar) : Prop :=
  ∃ earlier later before e v, p.vars = earlier ++ d :: later ∧
    earlier.foldlM (fun s d => s.runInitializer now d) (Scope.ofDecls p.vars) = .ok before ∧
    d.init = some e ∧ evaluateDetached before now e = .ok v ∧ convert d.type d.name v = .ok value

variable {p : Program}

/-- State constants hold integers. -/
theorem kind_of_isStateName (h : d.isStateName = true) : d.type.kind = .int := by
  simp only [Declaration.isStateName, Bool.and_eq_true] at h
  cases htype : d.type with
  | int | time => rfl
  | bool | real | string =>
    rw [htype] at h
    cases h.1.2

/-- **The timers at the start.** A state constant has the integer that its initializer comes to, and a timer for it
that has not been started; no other variable has a timer. -/
theorem timer?_of_initializers (hdistinct : (p.vars.map Declaration.key).Nodup)
    (h : p.vars.foldlM (fun s d => s.runInitializer now d) (Scope.ofDecls p.vars) = .ok s) :
    (∀ d ∈ p.vars, d.isStateName = true → ∃ n : Int64, p.Initializes now d (.int n) ∧ s.get? d.key = some (.int n) ∧
        s.timer? d.key = some ⟨n, none⟩) ∧
      ∀ key, (∀ d ∈ p.vars, d.key = key → ¬ d.isStateName = true) → s.timer? key = none := by
  refine ⟨fun d hd hstate => ?_, fun key hkey => ?_⟩
  · obtain ⟨earlier, later, before, after, hvars, hearlier, hrun, hbefore, hafter⟩ :=
      Scope.split_initializers hdistinct h hd
    rw [Scope.find?_ofDecls hdistinct hd] at hbefore
    obtain ⟨e, v, w, he, hv, hconvert, hfind⟩ := Scope.find?_runInitializer_state hrun hstate hbefore
    have hkind : w.kind = .int := (kind_convert hconvert).trans (kind_of_isStateName hstate)
    -- The constants of states are integers by their type.
    cases w with
    | int n =>
      rw [← hafter] at hfind
      refine ⟨n, ⟨earlier, later, before, e, v, hvars, hearlier, he, hv, hconvert⟩, ?_, ?_⟩
      · rw [Scope.get?, hfind]
        rfl
      · rw [Scope.timer?, hfind]
        rfl
    | null | bool | real | text => cases hkind
  -- Another variable has no timer before its initializer, and gets none from it.
  · by_cases hdeclared : key ∈ p.vars.map Declaration.key
    · obtain ⟨d, hd, rfl⟩ := List.mem_map.1 hdeclared
      obtain ⟨earlier, later, before, after, -, -, hrun, hbefore, hafter⟩ := Scope.split_initializers hdistinct h hd
      have htimer := Scope.timer?_runInitializer hrun (hkey d hd rfl)
      rw [Scope.timer?, Scope.timer?, hbefore, ← hafter] at htimer
      exact htimer.trans (Scope.timer?_ofDecls p.vars d.key)
    · rw [Scope.timer?, Scope.find?_initializers_of_notMem h hdeclared]
      exact Scope.timer?_ofDecls p.vars key

/-- What may be done to the variables of a program. -/
inductive Scope.Call
  | assign (key : String) (value : Scalar)
  | follow

namespace Scope

/-- One call, at a time. An assignment that is refused changes nothing. -/
def after (s : Scope) (now : Millis) : Call → Scope
  | .assign key value => ((assign key value).run s).2
  | .follow => s.followState now

/-- The scope after calls, each with its time and the latest first. -/
def reach (s : Scope) : List (Millis × Call) → Scope
  | [] => s
  | (now, call) :: earlier => (s.reach earlier).after now call

end Scope

/-- A look at `STATE` that has found an integer. -/
structure Observation where
  time : Millis
  value : Int64
  deriving DecidableEq

namespace Scope

def look (s : Scope) (now : Millis) : List Observation := (s.found?.map (Observation.mk now)).toList

/-- **All looks that have found an integer**, the latest first: one at the start, and one each time `STATE` is
followed. -/
def observations (s : Scope) (start : Millis) : List (Millis × Call) → List Observation
  | [] => s.look start
  | (_, .assign _ _) :: earlier => s.observations start earlier
  | (now, .follow) :: earlier => (s.reach earlier).look now ++ s.observations start earlier

end Scope

/-- The value that was observed last. -/
def lastValue? (seen : List Observation) : Option Int64 := seen.head?.map Observation.value

/-- **When a value was last entered**: the time of the latest observation of it that is the first of all, or comes
right after one of another value. The latest observation is the first one of the list. -/
def entered? (n : Int64) : List Observation → Option Millis
  | [] => none
  | o :: older => if o.value = n ∧ lastValue? older ≠ some n then some o.time else entered? n older

/-- The time since a value was last entered, zero if it never was. -/
def timeSince (n : Int64) (seen : List Observation) (now : Millis) : Millis :=
  match entered? n seen with
  | some entered => Millis.minus now entered
  | none => 0

variable {n : Int64} {seen : List Observation} {start : Millis} {targets : String → Option Int64}

/-- The state was observed when it was entered. -/
theorem mem_of_entered {t : Millis} (h : entered? n seen = some t) : (⟨t, n⟩ : Observation) ∈ seen := by
  induction seen with
  | nil => cases h
  | cons o older ih =>
    rw [entered?] at h
    split at h
    · rename_i hentry
      obtain ⟨rfl, -⟩ := hentry
      cases h
      exact List.mem_cons_self
    · exact List.mem_cons_of_mem o (ih h)

/-- A value that is found once more has not been entered again. -/
theorem entered?_of_again {c : Int64} (h : lastValue? seen = some c) (now : Millis) (n : Int64) :
    entered? n (⟨now, c⟩ :: seen) = entered? n seen := by
  rw [entered?, if_neg]
  rintro ⟨rfl, hother⟩
  exact hother h

/-- A value that is found after another one, or as the first one, has been entered. -/
theorem entered?_of_moved {c : Int64} (h : lastValue? seen ≠ some c) (now : Millis) (n : Int64) :
    entered? n (⟨now, c⟩ :: seen) = if n = c then some now else entered? n seen := by
  rw [entered?]
  by_cases hn : n = c
  · subst hn
    rw [if_pos rfl, if_pos ⟨rfl, h⟩]
  · rw [if_neg hn, if_neg fun hentry => hn hentry.1.symm]

namespace Scope

/-- Following `STATE` assigns to no variable. -/
theorem get?_followState (s : Scope) (now : Millis) (key : String) : (s.followState now).get? key = s.get? key := by
  rcases s.followState_cases now with ⟨hs, -⟩ | ⟨n, -, -, hs⟩
  · rw [hs]
  · rw [hs, get?, find?_map, get?, Option.map_map]
    · rfl
    · exact fun _ => rfl

/-- A timer starts anew when its state is entered, and only then. -/
theorem timer?_map_restart (s : Scope) (n : Int64) (now : Millis) (last : Option Int64) (key : String) :
    timer? ⟨s.bindings.map (restart n now), last⟩ key =
      (s.timer? key).map fun t => if t.target = n then { t with enteredAt := some now } else t := by
  rw [timer?, timer?, find?_map, Option.bind_map]
  · cases s.find? key with
    | none => rfl
    | some b => rfl
  · exact fun _ => rfl

end Scope

/-- **The timers know what was observed**: the last value, and when each target was last entered. -/
structure Tracks (targets : String → Option Int64) (seen : List Observation) (s : Scope) : Prop where
  last : s.lastState = lastValue? seen
  timers : ∀ key, s.timer? key = (targets key).map fun n => ⟨n, entered? n seen⟩

namespace Tracks

/-- The timers are those of the constants, whatever has been observed. -/
theorem target (h : Tracks targets seen s) : s.target? = targets := by
  funext key
  rw [Scope.target?, h.timers key, Option.map_map]
  exact Option.map_id'

/-- An assignment starts no timer. It is the next look at `STATE` that does. -/
theorem set (h : Tracks targets seen s) (hset : s.set key value = .ok s') : Tracks targets seen s' :=
  ⟨(Scope.lastState_set hset).trans h.last, fun other => (Scope.timer?_set hset other).trans (h.timers other)⟩

/-- **One more look.** An integer that is found once more is no entry; any other one is, for the timers that it is the
target of. -/
theorem followState (h : Tracks targets seen s) (now : Millis) :
    Tracks targets (s.look now ++ seen) (s.followState now) := by
  have hlook {c : Int64} (hfound : s.found? = some c) : s.look now ++ seen = ⟨now, c⟩ :: seen := by
    rw [Scope.look, hfound]
    rfl
  rcases s.followState_cases now with ⟨hs, hagain⟩ | ⟨c, hfound, hmoved, hs⟩
  · rw [hs]
    cases hfound : s.found? with
    | none =>
      rw [Scope.look, hfound]
      exact h
    | some c =>
      have hlast : lastValue? seen = some c := h.last.symm.trans (hagain c hfound)
      rw [hlook hfound]
      refine ⟨hagain c hfound, fun key => ?_⟩
      simp only [h.timers key, entered?_of_again hlast]
  · rw [hlook hfound, hs]
    rw [h.last] at hmoved
    refine ⟨rfl, fun key => ?_⟩
    rw [Scope.timer?_map_restart, h.timers key, Option.map_map]
    -- of the timers, those with this target are restarted
    refine congrArg (Option.map · (targets key)) (funext fun n => ?_)
    simp only [Function.comp_apply, entered?_of_moved hmoved]
    split
    · rfl
    · rfl

end Tracks

/-- **After any calls** the timers still know all that was observed. -/
theorem tracks_reach (h : Tracks targets (s.look start) s) (calls : List (Millis × Scope.Call)) :
    Tracks targets (s.observations start calls) (s.reach calls) := by
  induction calls with
  | nil => exact h
  | cons call earlier ih =>
    obtain ⟨now, call⟩ := call
    cases call with
    | assign key value =>
      rw [Scope.observations, Scope.reach, Scope.after, run_assign]
      cases hset : (s.reach earlier).set key value with
      | ok s' => exact ih.set hset
      | error err => exact ih
    | follow => exact ih.followState now

/-- No observation is later than all calls. -/
theorem time_le_of_mem_observations {now : Millis} {calls : List (Millis × Scope.Call)} (hstart : start ≤ now)
    (hcalls : ∀ c ∈ calls, c.1 ≤ now) : ∀ o ∈ s.observations start calls, o.time ≤ now := by
  have hlook (s : Scope) {t : Millis} (ht : t ≤ now) : ∀ o ∈ s.look t, o.time ≤ now := by
    intro o ho
    rw [Scope.look, Option.mem_toList, Option.map_eq_some_iff] at ho
    obtain ⟨n, -, rfl⟩ := ho
    exact ht
  induction calls with
  | nil => exact hlook s hstart
  | cons call earlier ih =>
    obtain ⟨hnow, hearlier⟩ := List.forall_mem_cons.1 hcalls
    obtain ⟨t, call⟩ := call
    cases call with
    | assign key value => exact ih hearlier
    | follow => exact List.forall_mem_append.2 ⟨hlook _ hnow, ih hearlier⟩

/-- **At the start** a state constant is the target of its own timer, and no other variable has one. -/
theorem tracks_start (hdistinct : (p.vars.map Declaration.key).Nodup) (hs : Scope.ofProgram p start = .ok s) :
    ∃ targets, Tracks targets (s.look start) s ∧
      (∀ d ∈ p.vars, d.isStateName = true → ∃ n : Int64, p.Initializes start d (.int n) ∧
        s.get? d.key = some (.int n) ∧ targets d.key = some n) ∧
      ∀ key, (∀ d ∈ p.vars, d.key = key → ¬ d.isStateName = true) → targets key = none := by
  obtain ⟨s₀, hinit, hfollow⟩ := bind_eq_ok.1 hs
  cases hfollow
  obtain ⟨hconstants, hothers⟩ := timer?_of_initializers hdistinct hinit
  have hlook : (s₀.followState start).look start = s₀.look start := by
    rw [Scope.look, Scope.look, Scope.found?, Scope.found?, Scope.get?_followState]
  refine ⟨s₀.target?, ?_, fun d hd hstate => ?_, fun key hkey => ?_⟩
  · have hfirst : Tracks s₀.target? [] s₀ := by
      refine ⟨Scope.lastState_initializers hinit, fun key => ?_⟩
      rw [Scope.target?]
      by_cases hkey : ∀ d ∈ p.vars, d.key = key → ¬ d.isStateName = true
      · rw [hothers key hkey]
        rfl
      · push Not at hkey
        obtain ⟨d, hd, rfl, hstate⟩ := hkey
        obtain ⟨n, -, -, htimer⟩ := hconstants d hd hstate
        rw [htimer]
        rfl
    rw [hlook, ← List.append_nil (s₀.look start)]
    exact hfirst.followState start
  · obtain ⟨n, hvalue, hget, htimer⟩ := hconstants d hd hstate
    exact ⟨n, hvalue, (Scope.get?_followState s₀ start d.key).trans hget, congrArg (Option.map Timer.target) htimer⟩
  · exact congrArg (Option.map Timer.target) (hothers key hkey)

variable {σ : Type} {dev : Device σ} {state : σ} {after : List Stmt} {left : Scope × List (List Stmt)}

/-- **What an assignment does** to the variables. -/
theorem runStmt_assign_eq_ok {line : UInt32} {e : Expr} :
    ((runStmt dev s (.assign line key e) after).run state).1 = .ok left ↔
      ∃ v s', ((evaluate dev s e).run state).1 = .ok v ∧ s.set key v = .ok s' ∧ left = (s', [after]) := by
  have hlift (r : Except RuntimeError Scope) (state : σ) : (liftM r : Run σ Scope).run state = (r, state) := rfl
  rw [runStmt, run_bind]
  rcases hrun : (evaluate dev s e).run state with ⟨err | v, state'⟩
  · simp
  · simp only [run_bind, hlift]
    cases hset : s.set key v with
    | error err => simp [hset]
    | ok s' =>
      constructor
      · intro h
        exact ⟨v, s', rfl, hset, (Except.ok.inj h).symm⟩
      · rintro ⟨v', s'', hv, hset', rfl⟩
        rw [← Except.ok.inj hv, hset] at hset'
        exact congrArg (fun s => Except.ok (s, [after])) (Except.ok.inj hset')

/-- Any other statement changes no variable. -/
theorem runStmt_keeps_scope {stmt : Stmt} (hstmt : ∀ line key e, stmt ≠ .assign line key e)
    (h : ((runStmt dev s stmt after).run state).1 = .ok left) : left.1 = s := by
  have hbind {α : Type} {x : Run σ α} {f : α → Run σ (Scope × List (List Stmt))}
      (hf : ∀ a, Run.Gives (fun left => left.1 = s) (f a)) (hx : ((x >>= f).run state).1 = .ok left) : left.1 = s :=
    (Run.Gives.any x).bind (fun a _ => hf a) state left hx
  cases stmt with
  | assign line key e => exact absurd rfl (hstmt line key e)
  | call line func args =>
    exact hbind (fun vs => (Run.Gives.any _).bind fun _ _ => .pure rfl) h
  | choose line arms =>
    refine hbind (fun chosen => ?_) h
    cases chosen with
    | none => exact .pure rfl
    | some body => exact .pure rfl
  | loop line cond body =>
    refine hbind (fun holds => ?_) h
    cases holds with
    | true => exact .pure rfl
    | false => exact .pure rfl

/-- **What a step does to the variables**: nothing if it fails or nothing is left to run. Otherwise `STATE` is
followed, after an assignment if the statement is one. -/
theorem Execution.scope_step (e : Execution) (dev : Device σ) (s : Scope) (state : σ) :
    (e.step dev s state).scope = s ∨ ∃ mid now, (e.step dev s state).scope = mid.followState now ∧
      (mid = s ∨ ∃ line key value v after outer, e.settle.frames = (.assign line key value :: after) :: outer ∧
        ((evaluate dev s value).run state).1 = .ok v ∧ s.set key v = .ok mid) := by
  by_cases hframes : ∃ stmt after outer, e.settle.frames = (stmt :: after) :: outer
  · obtain ⟨stmt, after, outer, hframes⟩ := hframes
    rcases hrun : (runStmt dev s stmt after).run state with ⟨err | ⟨mid, blocks⟩, state'⟩
    · left
      rw [step_of_frames hframes, hrun]
    · right
      have hleft : ((runStmt dev s stmt after).run state).1 = .ok (mid, blocks) := by rw [hrun]
      refine ⟨mid, dev.now state', ?_, ?_⟩
      · rw [step_of_frames hframes, hrun]
      by_cases hstmt : ∃ line key value, stmt = .assign line key value
      · obtain ⟨line, key, value, rfl⟩ := hstmt
        obtain ⟨v, s', hv, hset, hmid⟩ := runStmt_assign_eq_ok.1 hleft
        cases hmid
        exact .inr ⟨line, key, value, v, after, outer, hframes, hv, hset⟩
      · exact .inl (runStmt_keeps_scope (fun line key value h => hstmt ⟨line, key, value, h⟩) hleft)
  · left
    rw [step_of_no_frames fun stmt after outer h => hframes ⟨stmt, after, outer, h⟩]

namespace Scope

/-- **The scopes of a program** are those that calls come to from one of its start. -/
theorem scopes_iff_reach : p.Scopes s' ↔ ∃ start s calls, ofProgram p start = .ok s ∧ s' = s.reach calls := by
  constructor
  · intro h
    induction h with
    | @start now s h => exact ⟨now, s, [], h, rfl⟩
    | assign key value _ ih =>
      obtain ⟨start, s, calls, hs, rfl⟩ := ih
      exact ⟨start, s, (start, .assign key value) :: calls, hs, rfl⟩
    | follow now _ ih =>
      obtain ⟨start, s, calls, hs, rfl⟩ := ih
      exact ⟨start, s, (now, .follow) :: calls, hs, rfl⟩
    | step e dev state _ ih =>
      obtain ⟨start, s, calls, hs, rfl⟩ := ih
      rcases e.scope_step dev (s.reach calls) state with hsame | ⟨mid, now, hscope, rfl | hassigned⟩
      · exact ⟨start, s, calls, hs, hsame⟩
      · exact ⟨start, s, (now, .follow) :: calls, hs, hscope⟩
      · obtain ⟨line, key, value, v, after, outer, -, -, hset⟩ := hassigned
        refine ⟨start, s, (now, .follow) :: (now, .assign key v) :: calls, hs, ?_⟩
        rw [hscope, reach, reach, Scope.after, Scope.after, run_assign, hset]
  · rintro ⟨start, s, calls, hs, rfl⟩
    induction calls with
    | nil => exact .start hs
    | cons call earlier ih =>
      obtain ⟨now, call⟩ := call
      cases call with
      | assign key value => exact ih.assign key value
      | follow => exact ih.follow now

end Scope

/-- **What `stepTime` shows** in the scope of a program that starts with `s` at a time: after any calls at any times,
it is the time since the value of a constant was last entered. -/
structure Program.Times (p : Program) (start : Millis) (s : Scope) : Prop where
  /-- The value of a constant is what its initializer comes to at the start, whatever is assigned to it afterwards. -/
  constants : ∀ d ∈ p.vars, d.isStateName = true → ∃ n : Int64, p.Initializes start d (.int n) ∧
    s.get? d.key = some (.int n) ∧
    ∀ calls now, (s.reach calls).stepTime? d.key now = some (timeSince n (s.observations start calls) now)
  /-- No other variable has a `stepTime`. -/
  others : ∀ key, (∀ d ∈ p.vars, d.key = key → ¬ d.isStateName = true) →
    ∀ calls now, (s.reach calls).stepTime? key now = none
  /-- Where time does not run back, nothing is cut off at zero. -/
  elapsed : ∀ n calls now, start ≤ now → (∀ c ∈ calls, c.1 ≤ now) →
    ∀ t, entered? n (s.observations start calls) = some t →
      t ≤ now ∧ timeSince n (s.observations start calls) now = now - t

/-- **The `stepTime` of a constant is the time since `STATE` last came to its value**, for every program that compiles,
and whatever is done to its variables. -/
theorem stepTime_since_entry {source : String} (h : compile source = .ok p) (hs : Scope.ofProgram p start = .ok s) :
    p.Times start s := by
  obtain ⟨targets, hfirst, hconstants, hothers⟩ := tracks_start (wellFormed_of_compile h).distinct hs
  refine ⟨fun d hd hstate => ?_, fun key hkey calls now => ?_, fun n calls now hstart hcalls t ht => ?_⟩
  · obtain ⟨n, hvalue, hget, htarget⟩ := hconstants d hd hstate
    refine ⟨n, hvalue, hget, fun calls now => ?_⟩
    rw [Scope.stepTime?_eq, (tracks_reach hfirst calls).timers, htarget]
    rfl
  · rw [Scope.stepTime?_eq, (tracks_reach hfirst calls).timers, hothers key hkey]
    rfl
  · have hle : t ≤ now := time_le_of_mem_observations hstart hcalls _ (mem_of_entered ht)
    refine ⟨hle, ?_⟩
    rw [timeSince, ht]
    exact if_neg (UInt64.not_lt.2 hle)

/-- Three states, two of them with the same value. -/
def stages : String :=
  "VAR STATE : INT := 1; STATE_A : INT := 1; STATE_B : INT := STATE_A + 1; STATE_C : INT := 2; n : INT; END_VAR"

/-- `STATE` comes to the value 2, leaves it and comes to it again. In between, a constant is assigned to. -/
def stagesCalls : List (Millis × Scope.Call) :=
  [(70, .follow), (60, .assign "STATE" (.int 2)), (50, .follow), (50, .assign "STATE" (.int 1)), (40, .follow),
    (35, .assign "STATE_B" (.int 7)), (30, .follow), (20, .assign "STATE" (.real 2.5))]

/-- Three stages, one of which is entered twice. -/
theorem stepTime_since_entry_stages : ∃ p s, compile stages = .ok p ∧ Scope.ofProgram p 10 = .ok s ∧ p.Times 10 s ∧
    s.observations 10 stagesCalls = [⟨70, 2⟩, ⟨50, 1⟩, ⟨40, 2⟩, ⟨30, 2⟩, ⟨10, 1⟩] ∧
    (p.vars.map fun d => (s.reach stagesCalls).stepTime? d.key 100) = [none, some 50, some 30, some 30, none] := by
  have hruns : (compile stages).toOption.any (fun p => (Scope.ofProgram p 10).toOption.any fun s =>
      s.observations 10 stagesCalls = [⟨70, 2⟩, ⟨50, 1⟩, ⟨40, 2⟩, ⟨30, 2⟩, ⟨10, 1⟩] ∧
        (p.vars.map fun d => (s.reach stagesCalls).stepTime? d.key 100) = [none, some 50, some 30, some 30, none]) =
      true := by decide +kernel
  cases hp : compile stages with
  | error e =>
    rw [hp] at hruns
    cases hruns
  | ok p =>
    rw [hp] at hruns
    cases hs : Scope.ofProgram p 10 with
    | error e =>
      rw [Except.toOption, Option.any_some, hs] at hruns
      cases hruns
    | ok s =>
      rw [Except.toOption, Option.any_some, hs, Except.toOption, Option.any_some] at hruns
      obtain ⟨hseen, hshown⟩ := of_decide_eq_true hruns
      exact ⟨p, s, rfl, hs, stepTime_since_entry hp hs, hseen, hshown⟩

end Switchyard.Script
