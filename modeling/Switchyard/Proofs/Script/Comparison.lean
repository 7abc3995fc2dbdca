import Switchyard.Proofs.Binary64
import Switchyard.Proofs.Script.Failure

/-!
# How integers compare in scripts

Comparisons turn their operands into binary64 numbers. Integers are therefore compared as what is
left of them then, and the comparison of two different integers is exact if their difference is
left (`int_comparison_exact_iff`).

* `BinaryOp.relation?`: what a comparison asks.
* `ComparesAs a b x y`: whatever compares `a` with `b` gets the answer for `x` and `y`.
* `exactly_one_of_three`: one integer is below, equal to or above another, and only one of these.
-/

namespace Switchyard.Script

open Binary64 (nearest)

variable {σ : Type}

/-- The relation that a comparison asks for. -/
def BinaryOp.relation? : BinaryOp → Option (Int → Int → Bool)
  | .eq => some fun x y => x = y
  | .ne => some fun x y => x ≠ y
  | .lt => some fun x y => x < y
  | .le => some fun x y => x ≤ y
  | .gt => some fun x y => x > y
  | .ge => some fun x y => x ≥ y
  | _ => none

/-- **Two integers compare like two others**: a comparison of expressions that have the values `a` and
`b` says whether `x` and `y` are in its relation, on every device and in every scope. -/
structure ComparesAs (a b : Int64) (x y : Int) : Prop where
  answer : ∀ {σ : Type} (dev : Device σ) (scope : Scope) (l r : Expr) (state state₁ state₂ : σ)
    (op : BinaryOp) (relation : Int → Int → Bool), op.relation? = some relation →
    (evaluate dev scope l).run state = (.ok (.int a), state₁) →
    (evaluate dev scope r).run state₁ = (.ok (.int b), state₂) →
    (evaluate dev scope (.binary op l r)).run state = (.ok (.bool (relation x y)), state₂)

/-- The order of two integers is that of what is left of them. -/
theorem order_int (op : BinaryOp) (a b : Int64) :
    order op (.int a) (.int b) = .ok (some (compare (nearest a.toInt) (nearest b.toInt))) := by
  simp only [order, Scalar.toFloat?, Binary64.lt_ofInt64, Binary64.beq_ofInt64, decide_eq_true_eq]
  rcases lt_trichotomy (nearest a.toInt) (nearest b.toInt) with hlt | heq | hgt
  · rw [if_pos hlt, compare_lt_iff_lt.2 hlt]
  · rw [if_neg heq.not_lt, if_pos heq, compare_eq_iff_eq.2 heq]
  · rw [if_neg hgt.not_gt, if_neg hgt.ne', if_pos hgt, compare_gt_iff_gt.2 hgt]

/-- **A comparison of two integers compares what is left of them.** -/
theorem applyBinary_int {op : BinaryOp} {relation : Int → Int → Bool} (h : op.relation? = some relation)
    (a b : Int64) :
    applyBinary op (.int a) (.int b) = .ok (.bool (relation (nearest a.toInt) (nearest b.toInt))) := by
  have hlike : Scalar.alike (.int a) (.int b) = decide (nearest a.toInt = nearest b.toInt) :=
    Binary64.beq_ofInt64 a b
  cases op <;> cases h
  case eq => rw [applyBinary, hlike]
  case ne => rw [applyBinary, hlike, ← decide_not]
  all_goals
    rw [applyBinary, comparison, order_int]
    rcases lt_trichotomy (nearest a.toInt) (nearest b.toInt) with hlt | heq | hgt
    · simp [Except.map, compare_lt_iff_lt.2 hlt, hlt.le, hlt.not_gt, hlt.not_ge, hlt]
    · simp [Except.map, heq]
    · simp [Except.map, compare_gt_iff_gt.2 hgt, hgt.le, hgt.not_gt, hgt.not_ge, hgt]

theorem decided_int {op : BinaryOp} {a : Int64} : decided op (.int a) = none := by
  cases op <;> rfl

/-- Comparisons compare what is left of their operands. -/
theorem comparesAs_nearest (a b : Int64) : ComparesAs a b (nearest a.toInt) (nearest b.toInt) := by
  constructor
  intro σ dev scope l r state state₁ state₂ op relation hop hl hr
  rw [evaluate, run_bind, hl]
  simp only [decided_int]
  rw [run_bind, hr]
  simp only [applyBinary_int hop]
  rfl

/-- Two answers to one question are the same. -/
theorem ComparesAs.eq_iff {a b : Int64} {x y x' y' : Int} (h : ComparesAs a b x y) (h' : ComparesAs a b x' y') :
    x = y ↔ x' = y' := by
  let scope : Scope := ⟨[], none⟩
  have hx := h.answer detached scope (.literal (.int a)) (.literal (.int b)) 0 0 0 .eq _ rfl rfl rfl
  have hx' := h'.answer detached scope (.literal (.int a)) (.literal (.int b)) 0 0 0 .eq _ rfl rfl rfl
  have hsame : (Except.ok (Scalar.bool (decide (x = y))) : Except RuntimeError Scalar) =
      .ok (.bool (decide (x' = y'))) := congrArg Prod.fst (hx.symm.trans hx')
  simpa using hsame

/-- Exact answers are those of any numbers in the same order. -/
theorem ComparesAs.of_compare {a b : Int64} {x y x' y' : Int} (h : ComparesAs a b x y)
    (hsame : compare x y = compare x' y') : ComparesAs a b x' y' := by
  constructor
  intro σ dev scope l r state state₁ state₂ op relation hop hl hr
  rw [h.answer dev scope l r state state₁ state₂ op relation hop hl hr]
  have hlt : x < y ↔ x' < y' := by rw [← compare_lt_iff_lt, hsame, compare_lt_iff_lt]
  have hgt : y < x ↔ y' < x' := by rw [← compare_gt_iff_gt, hsame, compare_gt_iff_gt]
  have hrelation : relation x y = relation x' y' := by
    cases op <;> cases hop
    all_goals
      refine decide_eq_decide.2 ?_
      omega
  rw [hrelation]

/-- **Of below, equal and above, one is true and only one**, exact or not. -/
theorem exactly_one_of_three {dev : Device σ} {scope : Scope} {l r : Expr} {state state₁ state₂ : σ} {a b : Int64}
    (hl : (evaluate dev scope l).run state = (.ok (.int a), state₁))
    (hr : (evaluate dev scope r).run state₁ = (.ok (.int b), state₂)) :
    ∃! op, op ∈ [BinaryOp.lt, .eq, .gt] ∧
      (evaluate dev scope (.binary op l r)).run state = (.ok (.bool true), state₂) := by
  have hrun (op : BinaryOp) {relation : Int → Int → Bool} (hop : op.relation? = some relation) :
      (evaluate dev scope (.binary op l r)).run state = (.ok (.bool true), state₂) ↔
        relation (nearest a.toInt) (nearest b.toInt) = true := by
    rw [(comparesAs_nearest a b).answer dev scope l r state state₁ state₂ op relation hop hl hr]
    exact ⟨fun h => Scalar.bool.inj (Except.ok.inj (congrArg Prod.fst h)), fun h => by rw [h]⟩
  have hlt := (hrun .lt rfl).trans decide_eq_true_iff
  have heq := (hrun .eq rfl).trans decide_eq_true_iff
  have hgt := (hrun .gt rfl).trans decide_eq_true_iff
  rcases lt_trichotomy (nearest a.toInt) (nearest b.toInt) with h | h | h
  · refine ⟨.lt, ⟨by simp, hlt.2 h⟩, fun op ⟨hop, htrue⟩ => ?_⟩
    obtain rfl | rfl | rfl : op = .lt ∨ op = .eq ∨ op = .gt := by simpa using hop
    · rfl
    · exact absurd (heq.1 htrue) h.ne
    · exact absurd (hgt.1 htrue) h.not_gt
  · refine ⟨.eq, ⟨by simp, heq.2 h⟩, fun op ⟨hop, htrue⟩ => ?_⟩
    obtain rfl | rfl | rfl : op = .lt ∨ op = .eq ∨ op = .gt := by simpa using hop
    · exact absurd (hlt.1 htrue) h.not_lt
    · rfl
    · exact absurd (hgt.1 htrue) h.not_gt
  · refine ⟨.gt, ⟨by simp, hgt.2 h⟩, fun op ⟨hop, htrue⟩ => ?_⟩
    obtain rfl | rfl | rfl : op = .lt ∨ op = .eq ∨ op = .gt := by simpa using hop
    · exact absurd (hlt.1 htrue) h.not_gt
    · exact absurd (heq.1 htrue) h.ne'
    · rfl

/-- **When integers compare exactly.** A comparison says whether what is left of its operands is in
its relation. It is exact if the operands are equal, or different numbers are left of them. -/
theorem int_comparison_exact_iff (a b : Int64) :
    ComparesAs a b (nearest a.toInt) (nearest b.toInt) ∧
      (ComparesAs a b a.toInt b.toInt ↔ a = b ∨ nearest a.toInt ≠ nearest b.toInt) := by
  refine ⟨comparesAs_nearest a b, fun h => ?_, ?_⟩
  · by_cases hleft : nearest a.toInt = nearest b.toInt
    · exact Or.inl (Int64.toInt_inj.1 ((h.eq_iff (comparesAs_nearest a b)).2 hleft))
    · exact Or.inr hleft
  · rintro (rfl | hleft)
    · exact (comparesAs_nearest a a).of_compare (by simp)
    · exact (comparesAs_nearest a b).of_compare (Binary64.compare_nearest hleft)

/-- The first two integers that pass for each other: the text says that they are equal. -/
theorem unequal_compare_equal :
    (9007199254740993 : Int64) ≠ 9007199254740992 ∧
      (parseCondition ⟨"", [], []⟩ "9007199254740993 = 9007199254740992").toOption.map
        (evaluateDetached ⟨[], none⟩ 0) = some (.ok (.bool true)) ∧
      ¬ ComparesAs 9007199254740993 9007199254740992 9007199254740993 9007199254740992 := by
  refine ⟨by decide, by decide +kernel, fun h => ?_⟩
  have := (h.eq_iff (comparesAs_nearest _ _)).2 (by decide)
  omega

end Switchyard.Script
