import Switchyard.Proofs.Station.Operation

/-!
# The interlock against the coils that follow a breaker

A value is read twice when a breaker is operated: `Intent.ofScalar?` says which
block flag the interlock looks at, and `closedState?` says what the coils that
follow the breaker are set to (`Moves.coil`). Where the first reading has an
answer, the second one agrees (`intent_of_closedState?`). For numbers other than
1 and 2 the first has none, and the second takes them for a state all the same
(`intent_eq_none`, `closedState?_isSome`). So the interlock stops moves in a
blocked direction for truth values and for the numbers 1 and 2, and for no other
number (`interlock_stops_iff`): 0 opens a breaker that must not be opened
(`zero_opens_blocked_breaker`).
-/

namespace Switchyard

/-- The move into a state. -/
def Intent.into (closed : Bool) : Intent := if closed then closing else opening

/-- The numbers that stand for a position of a breaker. -/
def Scalar.namesPosition (v : Scalar) : Prop := v.toInt64? = some 1 ∨ v.toInt64? = some 2

variable {v : Scalar}

theorem readings_one (h : v.toInt64? = some 1) :
    Intent.ofScalar? v = some .opening ∧ closedState? v = some false := by
  cases v with
  | bool b => cases h
  | _ => simp only [Intent.ofScalar?, closedState?, h]; exact ⟨rfl, rfl⟩

theorem readings_two (h : v.toInt64? = some 2) :
    Intent.ofScalar? v = some .closing ∧ closedState? v = some true := by
  cases v with
  | bool b => cases h
  | _ => simp only [Intent.ofScalar?, closedState?, h]; exact ⟨rfl, rfl⟩

/-- **Truth values and the numbers 1 and 2 have one direction in both readings.** -/
theorem intent_of_closedState? {closed : Bool} (hv : v.isNumber = true → v.namesPosition)
    (hc : closedState? v = some closed) : Intent.ofScalar? v = some (.into closed) := by
  have hnumber (hn : v.isNumber = true) : Intent.ofScalar? v = some (.into closed) := by
    rcases hv hn with h | h
    · obtain ⟨hi, hs⟩ := readings_one h
      obtain rfl : false = closed := Option.some.inj (hs.symm.trans hc)
      exact hi
    · obtain ⟨hi, hs⟩ := readings_two h
      obtain rfl : true = closed := Option.some.inj (hs.symm.trans hc)
      exact hi
  cases v with
  | bool b =>
    obtain rfl : b = closed := Option.some.inj hc
    cases b <;> rfl
  | int n => exact hnumber rfl
  | real x => exact hnumber rfl
  | _ => cases hc

/-- No other number has a direction for the interlock. -/
theorem intent_eq_none (hnum : v.isNumber = true) (hv : ¬ v.namesPosition) : Intent.ofScalar? v = none := by
  obtain ⟨h1, h2⟩ := not_or.1 hv
  cases v with
  | int _ | real _ =>
    simp only [Intent.ofScalar?]
    split
    · contradiction
    · contradiction
    · rfl
  | _ => cases hnum

/-- Every number has a state for the coils. -/
theorem closedState?_isSome (hnum : v.isNumber = true) : ∃ closed, closedState? v = some closed := by
  cases v with
  | int n => exact ⟨_, rfl⟩
  | real x =>
    simp only [closedState?]
    split
    · exact ⟨_, rfl⟩
    · exact ⟨_, rfl⟩
  | _ => cases hnum

namespace Substation

/-- **An operation moves a breaker into a state**: it succeeds, the object is the position of a breaker,
and the value has the state for the coils that follow it. -/
structure Moves (s : Substation) (path : String) (v : Scalar) (client : String) (now : Millis) (closed : Bool) :
    Prop where
  succeeds : (s.operate path v client now).1 = .ok ()
  breaker : Path.namesBreaker path = true
  state : closedState? v = some closed

variable {s : Substation} {path client : String} {now : Millis} {closed : Bool}

/-- A move sets the coils that follow the breaker. -/
theorem Moves.coil (h : s.Moves path v client now closed) {b : BreakerBinding} (hb : b ∈ s.bindings)
    (hp : b.path = path) :
    ((s.operate path v client now).2.model.profile b.profile).coils.get? b.coil = some closed := by
  rcases s.operate_cases path v now client with ⟨refusal, sessions, hs, -⟩ | ⟨-, hs⟩
  · have hok := h.succeeds
    rw [hs] at hok; cases hok
  · rw [hs]
    simp only [perform, followPosition, h.breaker, h.state, if_true]
    apply coil_setCoils _ _ _ hp
    simpa using hb

/-- A value with a direction for the interlock does not move a breaker against a flag that blocks it. -/
theorem Moves.flag_clear (h : s.Moves path v client now closed) (hv : v.isNumber = true → v.namesPosition)
    (henhanced : (s.model.controlModel path).isEnhanced = true) {flag : Scalar}
    (hflag : s.model.value? (Interlock.flagPath path (.into closed)) = some flag) : flag.holds = false := by
  have hblocks := (operate_ok_iff.1 h.succeeds).unblocked henhanced
  have hintent := intent_of_closedState? hv h.state
  simp only [Interlock.blocks, Bool.or_eq_false_iff, Option.bind_some, hintent, hflag] at hblocks
  exact hblocks.2

/-- A substation whose breaker must not be moved into a state: the flag for it is set. The coil that
follows the breaker has the other state. -/
def blocked (closed : Bool) : Substation :=
  let path := "IED1LD0/XCBR1.Pos"
  let model := DataModel.blank.modifyProfile defaultProfileId fun p => p.setCoil 7 !closed
  { blank with
    model := (model.write (Path.member path "ctlModel") (.int 3)).write
      (Interlock.flagPath path (.into closed)) (.bool true)
    bindings := [⟨path, defaultProfileId, 7⟩] }

/-- Any other number moves it all the same. -/
theorem blocked_moves (hi : Intent.ofScalar? v = none) (hc : closedState? v = some closed) :
    (blocked closed).Moves "IED1LD0/XCBR1.Pos" v "panel" 0 closed := by
  have hmodel : (blocked closed).model.controlModel "IED1LD0/XCBR1.Pos" = .directEnhanced := by
    cases closed <;> rfl
  refine ⟨operate_ok_iff.2 ⟨?_, ?_, fun _ => ?_⟩, by decide, hc⟩
  · rw [hmodel]; decide
  · rw [hmodel]; intro h; cases h
  · have hkilled : (blocked closed).interlock.killed (blocked closed).model = false := by cases closed <;> rfl
    simp [Interlock.blocks, hkilled, hi]

/-- **Which values the interlock stops in a blocked direction**: all but the numbers other than 1 and 2.
For the others, and in every state of a substation, an operation of an object with enhanced security moves
a breaker into a state only when the flag that blocks this move is not set. -/
theorem interlock_stops_iff (v : Scalar) :
    (∀ (s : Substation) (path client : String) (now : Millis) (closed : Bool),
      (s.model.controlModel path).isEnhanced = true → s.Moves path v client now closed →
      ∀ flag, s.model.value? (Interlock.flagPath path (.into closed)) = some flag → flag.holds = false) ↔
    (v.isNumber = true → v.toInt64? = some 1 ∨ v.toInt64? = some 2) := by
  constructor
  · intro h hnum
    by_contra hv
    obtain ⟨closed, hc⟩ := closedState?_isSome hnum
    have hmoves := blocked_moves (intent_eq_none hnum hv) hc
    have := h (blocked closed) _ _ _ closed (by cases closed <;> rfl) hmoves (.bool true) (by cases closed <;> rfl)
    cases this
  · intro hv s path client now closed henhanced hmoves flag hflag
    exact hmoves.flag_clear hv henhanced hflag

/-- **A `0` opens a breaker that must not be opened.** The control model asks for enhanced security, the flag
against opening is set, and yet the operation succeeds and switches off the coil that follows the breaker. -/
theorem zero_opens_blocked_breaker :
    let path := "IED1LD0/XCBR1.Pos"
    ((blocked false).model.controlModel path).isEnhanced = true ∧
      (blocked false).model.value? "IED1LD0/XCBR1.BlkOpn.stVal" = some (.bool true) ∧
      ((blocked false).model.profile defaultProfileId).coils.get? 7 = some true ∧
      (blocked false).Moves path (.int 0) "panel" 0 false ∧
      (((blocked false).operate path (.int 0) "panel" 0).2.model.profile defaultProfileId).coils.get? 7 =
        some false :=
  ⟨rfl, rfl, rfl, ⟨rfl, rfl, rfl⟩, rfl⟩

end Substation
end Switchyard
