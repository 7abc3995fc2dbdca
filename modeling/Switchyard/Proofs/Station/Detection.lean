import Switchyard.Proofs.Binary64
import Switchyard.Proofs.Station.Shown

/-!
# Which changes of integers are noticed

A write is reported as a change if the old and the new value differ as binary64 numbers, and only
then are the publishers told. So a change of an integer gets through exactly if the two integers
are still different when they are cut to 53 bits.

* `Substation.Notices`: a write is reported, and all who listen take the value over.
* `Substation.notices_iff`: a change that is reported gets to all who listen.
* `Substation.int_change_noticed_iff`: which changes of integers get through.
* `Substation.notices_of_small`, `Substation.notices_of_far`: those of integers up to `2 ^ 53`, and
  those by more than 1024.
-/

namespace Switchyard

open Binary64 (nearest)

/-- A publisher takes a value over: it shows it under the next status number, as the first frame. -/
structure Goose.Publisher.TakesOver (path : String) (value : Scalar) (p p' : Goose.Publisher) : Prop where
  shown : Goose.shown? path p'.members = some value
  status : p'.stNum = Goose.Publisher.nextStatus p.stNum
  restarted : p'.sqNum = 0

/-- **A write is noticed**: it is reported as a change, and every enabled publisher that has the
attribute in its dataset takes the value over. -/
structure Substation.Notices (s : Substation) (path : String) (value : Scalar) (now : Millis) : Prop where
  reported : s.model.changes path value = true
  announced : ∀ ref p, s.publishers.get? ref = some p → p.hears path = true →
    ∃ p', (s.writeAttribute path value now).publishers.get? ref = some p' ∧ p.TakesOver path value p'

theorem Goose.Publisher.takesOver_observe {p : Publisher} {path : String} (value : Scalar) (now : Millis)
    (h : p.hears path = true) : p.TakesOver path value (p.observe path value now) := by
  refine ⟨shown?_observe_self value now h, ?_, ?_⟩
  all_goals
    rcases p.observe_cases path value now with ⟨-, stored, -, hp⟩ | ⟨hnot, -⟩
    · rw [hp]; rfl
    · rw [h] at hnot; cases hnot

namespace Substation

variable {s : Substation} {path : String} {value : Scalar} {a b : Int64}

/-- **What is reported gets to all who listen.** -/
theorem notices_iff (s : Substation) (path : String) (value : Scalar) (now : Millis) :
    s.Notices path value now ↔ s.model.changes path value = true := by
  refine ⟨Notices.reported, fun hc => ⟨hc, fun ref p hp hhears => ?_⟩⟩
  refine ⟨p.observe path value now, ?_, Goose.Publisher.takesOver_observe value now hhears⟩
  rw [get?_writeAttribute, hp, Option.map_some, if_pos hc]

/-- What is not reported gets to nobody. -/
theorem publishers_of_unnoticed (now : Millis) (h : ¬ s.Notices path value now) :
    (s.writeAttribute path value now).publishers = s.publishers := by
  rw [notices_iff] at h
  exact if_neg h

theorem changes_int (h : s.model.value? path = some (.int a)) :
    s.model.changes path (.int b) = true ↔ nearest a.toInt ≠ nearest b.toInt := by
  simp only [DataModel.changes, h, Scalar.alike, Binary64.beq_ofInt64, Bool.not_eq_true', decide_eq_false_iff_not,
    ne_eq]

/-- Integers of up to 53 bits are told apart. -/
theorem notices_of_small (h : s.model.value? path = some (.int a)) (hab : a ≠ b) (ha : a.toInt.natAbs ≤ 2 ^ 53)
    (hb : b.toInt.natAbs ≤ 2 ^ 53) (now : Millis) : s.Notices path (.int b) now := by
  rw [notices_iff, changes_int h, Binary64.nearest_of_le ha, Binary64.nearest_of_le hb]
  exact fun he => hab (Int64.toInt_inj.1 he)

/-- Integers more than 1024 apart are told apart. -/
theorem notices_of_far (h : s.model.value? path = some (.int a)) (hab : 1024 < (a.toInt - b.toInt).natAbs)
    (now : Millis) : s.Notices path (.int b) now := by
  have hdist (n : Int64) : (n.toInt - nearest n.toInt).natAbs ≤ 512 := by
    have hle : n.toInt < 2 ^ 63 := n.toInt_lt
    have hge : -2 ^ 63 ≤ n.toInt := n.le_toInt
    exact Binary64.nearest_dist (by omega)
  rw [notices_iff, changes_int h]
  have ha := hdist a
  have hb := hdist b
  omega

/-- **Which changes of integers are noticed**: those of which binary64 numbers show a difference. A
change that they do not show is stored all the same, and no publisher hears of it. -/
theorem int_change_noticed_iff (h : s.model.value? path = some (.int a)) (b : Int64) (now : Millis) :
    (s.Notices path (.int b) now ↔ nearest a.toInt ≠ nearest b.toInt) ∧
      (s.writeAttribute path (.int b) now).model.value? path = some (.int b) ∧
      (¬ s.Notices path (.int b) now → (s.writeAttribute path (.int b) now).publishers = s.publishers) := by
  refine ⟨?_, ?_, publishers_of_unnoticed now⟩
  · rw [notices_iff, changes_int h]
  · exact SortedMap.get?_insert_self _ _ _

/-- A substation that publishes a counter, which stands at `2 ^ 53`. -/
def metered : Substation :=
  (blank.writeAttribute "LD0/MMTR1.TotWh.actVal" (.int 9007199254740992) 0).addPublisher "LD0/LLN0.gcb01"
    { appId := 1, confRev := 1, minTime := 10, maxTime := 1000, datSet := "DS" } ["LD0/MMTR1.TotWh.actVal"] 0

/-- Counting on by two is noticed. -/
theorem int_change_noticed_metered :
    metered.model.value? "LD0/MMTR1.TotWh.actVal" = some (.int 9007199254740992) ∧
      metered.Notices "LD0/MMTR1.TotWh.actVal" (.int 9007199254740994) 5 := by
  have h : metered.model.value? "LD0/MMTR1.TotWh.actVal" = some (.int 9007199254740992) := by decide +kernel
  exact ⟨h, (int_change_noticed_iff h 9007199254740994 5).1.2 (by decide)⟩

/-- **Counting on by one is not noticed**: the counter has a new value, and the publisher keeps the
old one under the old status number. -/
theorem count_lost :
    metered.model.value? "LD0/MMTR1.TotWh.actVal" = some (.int 9007199254740992) ∧
      (9007199254740992 : Int64) ≠ 9007199254740993 ∧
      (metered.publishers.get? "LD0/LLN0.gcb01").any (·.hears "LD0/MMTR1.TotWh.actVal") = true ∧
      ¬ metered.Notices "LD0/MMTR1.TotWh.actVal" (.int 9007199254740993) 5 ∧
      (metered.writeAttribute "LD0/MMTR1.TotWh.actVal" (.int 9007199254740993) 5).publishers =
        metered.publishers := by
  refine ⟨by decide +kernel, by decide, by decide +kernel, ?_, by decide +kernel⟩
  rw [notices_iff]
  decide +kernel

end Substation
end Switchyard
