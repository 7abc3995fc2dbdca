import Mathlib
import Switchyard.Proofs.Scalar

/-!
# Integers as binary64 numbers

A 64-bit integer that is compared as a binary64 number is compared after a loss: only its first 53
bits survive. `nearest n` is what is left of `n`, as an integer again, and comparing two integers as
binary64 numbers is comparing what is left of them exactly (`beq_ofInt64`, `lt_ofInt64`).

* `halfEven`: division by a power of two, to the nearest number and to the even one on a tie.
* `nearest`: the integer of at most 53 significant bits that is nearest to an integer.
* `nearest_mono`: an order that is lost is never reversed.
* `nearest_of_le`: nothing is lost up to `2 ^ 53`.
* `Shows`: an unpacked number is a given integer; kept by rounding, packing and negation.
-/

namespace Switchyard.Binary64

/-- The quotient `m / 2 ^ k`, rounded to the nearest number; a tie goes to the even one. -/
def halfEven (m k : Nat) : Nat :=
  if 2 * (m % 2 ^ k) < 2 ^ k then m / 2 ^ k
  else if 2 ^ k < 2 * (m % 2 ^ k) then m / 2 ^ k + 1
  else m / 2 ^ k + m / 2 ^ k % 2

/-- How many bits a number has beyond the 53 of a mantissa. -/
def surplus (m : Nat) : Nat := m.log2 - 52

/-- The number of at most 53 significant bits that is nearest to `m`, ties to the even mantissa. -/
def nearestNat (m : Nat) : Nat := halfEven m (surplus m) * 2 ^ surplus m

/-- **What is left of an integer when it becomes a binary64 number.** -/
def nearest (n : Int) : Int := n.sign * nearestNat n.natAbs

section halfEven

variable {m m' k : Nat}

@[simp] theorem halfEven_zero (m : Nat) : halfEven m 0 = m := by
  simp [halfEven, Nat.mod_one]

theorem le_halfEven (m k : Nat) : m / 2 ^ k ≤ halfEven m k := by
  unfold halfEven
  split_ifs <;> omega

theorem halfEven_le (m k : Nat) : halfEven m k ≤ m / 2 ^ k + 1 := by
  unfold halfEven
  split_ifs <;> omega

/-- What is lost by rounding is at most a half of the last place. -/
theorem two_mul_halfEven (m k : Nat) :
    2 * m ≤ 2 * (halfEven m k * 2 ^ k) + 2 ^ k ∧ 2 * (halfEven m k * 2 ^ k) ≤ 2 * m + 2 ^ k := by
  have hm := Nat.div_add_mod' m (2 ^ k)
  have hsucc : (m / 2 ^ k + 1) * 2 ^ k = m / 2 ^ k * 2 ^ k + 2 ^ k := Nat.succ_mul _ _
  unfold halfEven
  split_ifs with hlt hgt
  · omega
  · omega
  · rcases Nat.mod_two_eq_zero_or_one (m / 2 ^ k) with h | h
    · rw [h, Nat.add_zero]
      omega
    · rw [h]
      omega

/-- Zeros put after the binary point do not matter. -/
theorem halfEven_mul (m k j : Nat) : halfEven (m * 2 ^ j) (k + j) = halfEven m k := by
  have hj : 0 < 2 ^ j := Nat.two_pow_pos j
  have hdiv : m * 2 ^ j / 2 ^ (k + j) = m / 2 ^ k := by
    rw [pow_add, Nat.mul_div_mul_right _ _ hj]
  have hmod : m * 2 ^ j % 2 ^ (k + j) = m % 2 ^ k * 2 ^ j := by
    rw [pow_add, Nat.mul_mod_mul_right]
  have hlt (a b : Nat) : a * 2 ^ j < b * 2 ^ j ↔ a < b := Nat.mul_lt_mul_right hj
  simp only [halfEven, hdiv, hmod]
  simp only [pow_add, ← Nat.mul_assoc, hlt]

theorem halfEven_mono (h : m ≤ m') : halfEven m k ≤ halfEven m' k := by
  rcases (Nat.div_le_div_right h : m / 2 ^ k ≤ m' / 2 ^ k).lt_or_eq with hlt | heq
  · exact (halfEven_le m k).trans (Nat.le_trans hlt (le_halfEven m' k))
  · -- of one quotient: the remainders are in order, and both are rounded alike
    have hmod : m % 2 ^ k ≤ m' % 2 ^ k := by
      have hm := Nat.div_add_mod m (2 ^ k)
      have hm' := Nat.div_add_mod m' (2 ^ k)
      rw [heq] at hm
      omega
    unfold halfEven
    rw [heq]
    split_ifs <;> omega

end halfEven

section nearest

variable {m m' : Nat} {a b n : Int}

theorem surplus_eq_zero (h : m < 2 ^ 53) : surplus m = 0 := by
  rcases Nat.eq_zero_or_pos m with rfl | hm
  · rfl
  · exact Nat.sub_eq_zero_of_le (Nat.lt_succ_iff.1 ((Nat.log2_lt hm.ne').2 h))

theorem nearestNat_of_lt (h : m < 2 ^ 53) : nearestNat m = m := by
  simp [nearestNat, surplus_eq_zero h]

/-- The nearest number stays between the powers of two around the number. -/
theorem pow_le_nearestNat (hm : m ≠ 0) : 2 ^ m.log2 ≤ nearestNat m := by
  by_cases h : m < 2 ^ 53
  · rw [nearestNat_of_lt h]
    exact Nat.log2_self_le hm
  · have hlog : m.log2 = 52 + surplus m := by
      have := (Nat.le_log2 hm).2 (Nat.le_of_not_lt h)
      unfold surplus
      omega
    have hq : 2 ^ 52 ≤ m / 2 ^ surplus m := by
      rw [Nat.le_div_iff_mul_le (Nat.two_pow_pos _), ← pow_add, ← hlog]
      exact Nat.log2_self_le hm
    rw [hlog, pow_add]
    exact Nat.mul_le_mul_right _ (hq.trans (le_halfEven _ _))

theorem nearestNat_le_pow (m : Nat) : nearestNat m ≤ 2 ^ (m.log2 + 1) := by
  by_cases h : m < 2 ^ 53
  · rw [nearestNat_of_lt h]
    exact Nat.lt_log2_self.le
  · have hlog : m.log2 = 52 + surplus m := by
      have := (Nat.le_log2 (by omega)).2 (Nat.le_of_not_lt h)
      unfold surplus
      omega
    have hq : m / 2 ^ surplus m < 2 ^ 53 := by
      rw [Nat.div_lt_iff_lt_mul (Nat.two_pow_pos _), ← pow_add,
        show 53 + surplus m = m.log2 + 1 by omega]
      exact Nat.lt_log2_self
    rw [show m.log2 + 1 = 53 + surplus m by omega, pow_add]
    exact Nat.mul_le_mul_right _ ((halfEven_le _ _).trans hq)

theorem nearestNat_mono (h : m ≤ m') : nearestNat m ≤ nearestNat m' := by
  rcases Nat.eq_zero_or_pos m with rfl | hm
  · exact Nat.zero_le _
  have hlog : m.log2 ≤ m'.log2 :=
    (Nat.le_log2 (by omega)).2 ((Nat.log2_self_le hm.ne').trans h)
  rcases hlog.lt_or_eq with hlt | heq
  · calc nearestNat m
        ≤ 2 ^ (m.log2 + 1) := nearestNat_le_pow m
      _ ≤ 2 ^ m'.log2 := Nat.pow_le_pow_right Nat.two_pos hlt
      _ ≤ nearestNat m' := pow_le_nearestNat (by omega)
  · have hs : surplus m = surplus m' := by simp [surplus, heq]
    rw [nearestNat, nearestNat, hs]
    exact Nat.mul_le_mul_right _ (halfEven_mono h)

@[simp] theorem nearest_natCast (m : Nat) : nearest (m : Int) = nearestNat m := by
  rcases Nat.eq_zero_or_pos m with rfl | hm
  · rfl
  · simp [nearest, Int.sign_eq_one_of_pos (Int.natCast_pos.2 hm)]

@[simp] theorem nearest_neg (n : Int) : nearest (-n) = -nearest n := by
  simp [nearest]

/-- **Nothing is lost up to `2 ^ 53`.** -/
theorem nearest_of_le (h : n.natAbs ≤ 2 ^ 53) : nearest n = n := by
  have hm : nearestNat n.natAbs = n.natAbs := by
    rcases h.lt_or_eq with hlt | heq
    · exact nearestNat_of_lt hlt
    · rw [heq]; decide
  rw [nearest, hm, Int.sign_mul_natAbs]

/-- A 64-bit integer moves by at most 512. -/
theorem nearest_dist (h : n.natAbs ≤ 2 ^ 63) : (n - nearest n).natAbs ≤ 512 := by
  have hdist : n.natAbs ≤ nearestNat n.natAbs + 512 ∧ nearestNat n.natAbs ≤ n.natAbs + 512 := by
    rcases h.lt_or_eq with hlt | heq
    · obtain ⟨hle, hge⟩ := two_mul_halfEven n.natAbs (surplus n.natAbs)
      have hs : surplus n.natAbs ≤ 10 := by
        rcases Nat.eq_zero_or_pos n.natAbs with h0 | h0
        · rw [h0]; decide
        · have := (Nat.log2_lt h0.ne').2 hlt
          unfold surplus
          omega
      have hpow : 2 ^ surplus n.natAbs ≤ 2 ^ 10 := Nat.pow_le_pow_right Nat.two_pos hs
      unfold nearestNat
      omega
    · rw [heq]; decide
  obtain ⟨m, rfl | rfl⟩ := n.eq_nat_or_neg
  · rw [nearest_natCast]
    rw [Int.natAbs_natCast] at hdist
    omega
  · rw [nearest_neg, nearest_natCast]
    rw [Int.natAbs_neg, Int.natAbs_natCast] at hdist
    omega

/-- **An order that is lost is never reversed.** -/
theorem nearest_mono (h : a ≤ b) : nearest a ≤ nearest b := by
  obtain ⟨m, rfl | rfl⟩ := a.eq_nat_or_neg <;> obtain ⟨m', rfl | rfl⟩ := b.eq_nat_or_neg
  · have := nearestNat_mono (Int.ofNat_le.1 h)
    simpa using this
  · obtain rfl : m = 0 := by omega
    obtain rfl : m' = 0 := by omega
    simp
  · have h0 : (0 : Int) ≤ nearestNat m ∧ (0 : Int) ≤ nearestNat m' := by omega
    rw [nearest_neg, nearest_natCast, nearest_natCast]
    omega
  · have := nearestNat_mono (show m' ≤ m by omega)
    simpa using this

/-- Two integers of which different numbers are left are in the order of these numbers. -/
theorem compare_nearest (h : nearest a ≠ nearest b) : compare (nearest a) (nearest b) = compare a b := by
  rcases lt_trichotomy a b with hlt | rfl | hgt
  · rw [compare_lt_iff_lt.2 hlt, compare_lt_iff_lt]
    exact lt_of_le_of_ne (nearest_mono hlt.le) h
  · exact absurd rfl h
  · rw [compare_gt_iff_gt.2 hgt, compare_gt_iff_gt]
    exact lt_of_le_of_ne (nearest_mono hgt.le) (Ne.symm h)

end nearest

open Float.Model (UnpackedFloat Format totalExponent)
open Float.Model.UnpackedFloat

/-- An unpacked number is the integer `v`, of up to 64 bits: a zero, or a number of 53 bits the
first of which counts `2 ^ i`. -/
inductive Shows : UnpackedFloat → Int → Prop
  | zero (s : Sign) : Shows (.zero s) 0
  | finite {s : Sign} {m : Nat} {hm : 0 < m} {i v : Nat} (lower : 2 ^ 52 ≤ m) (upper : m < 2 ^ 53)
      (range : v ≤ 2 ^ 64) (value : m * 2 ^ i = v * 2 ^ 52) :
      Shows (.finite s m (i - 52) hm) (s.apply v)

section rounding

variable {m n k i v : Nat} {s : Sign}

/-- The residual bits say how what has been shifted out compares with a half. -/
theorem shiftRight_exact (m k : Nat) :
    ExtendedMantissa.ofMantissaAndAccuracy m .exact >>> k =
      ⟨m / 2 ^ k, decide (2 ^ k ≤ 2 * (m % 2 ^ k)),
        decide (2 * (m % 2 ^ k) ≠ 0 ∧ 2 * (m % 2 ^ k) ≠ 2 ^ k)⟩ := by
  show k.repeat ExtendedMantissa.shiftRightOne _ = _
  induction k with
  | zero => simp [Nat.repeat, ExtendedMantissa.ofMantissaAndAccuracy, Nat.mod_one]
  | succ k ih =>
    have hk : 0 < 2 ^ k := Nat.two_pow_pos k
    have hr : m % 2 ^ k < 2 ^ k := Nat.mod_lt _ hk
    rw [Nat.repeat, ih, ExtendedMantissa.shiftRightOne, Nat.mod_pow_succ, pow_succ,
      Nat.div_div_eq_div_mul]
    simp only [ExtendedMantissa.mk.injEq, true_and]
    rcases Nat.mod_two_eq_zero_or_one (m / 2 ^ k) with hbit | hbit
    · rw [hbit]
      constructor
      · simp only [bne_self_eq_false, Nat.mul_zero, Nat.add_zero]
        exact (decide_eq_false (by omega)).symm
      · rw [← Bool.decide_or]
        exact decide_eq_decide.2 (by omega)
    · rw [hbit]
      constructor
      · exact (decide_eq_true (by omega)).symm
      · rw [← Bool.decide_or]
        exact decide_eq_decide.2 (by omega)

theorem roundedMantissa_shiftRight (m k : Nat) :
    (ExtendedMantissa.ofMantissaAndAccuracy m .exact >>> k).roundedMantissa = halfEven m k := by
  rw [shiftRight_exact]
  rcases lt_trichotomy (2 * (m % 2 ^ k)) (2 ^ k) with hlt | heq | hgt
  · rw [halfEven, if_pos hlt, decide_eq_false (Nat.not_le.2 hlt)]
    by_cases h0 : 2 * (m % 2 ^ k) = 0
    · rw [decide_eq_false (fun h => h.1 h0)]
      rfl
    · rw [decide_eq_true ⟨h0, hlt.ne⟩]
      rfl
  · rw [halfEven, if_neg heq.not_lt, if_neg heq.not_gt, decide_eq_true heq.ge,
      decide_eq_false (fun h => h.2 heq)]
    rfl
  · have h0 : 2 * (m % 2 ^ k) ≠ 0 := (Nat.zero_lt_of_lt hgt).ne'
    rw [halfEven, if_neg hgt.not_gt, if_pos hgt, decide_eq_true hgt.le, decide_eq_true ⟨h0, hgt.ne'⟩]
    rfl

/-- A number whose first bit counts `2 ^ i` is shifted until 53 bits are left. -/
theorem shiftToTargetExponent_eq (hm : 52 ≤ m.log2) :
    shiftToTargetExponent Format.binary64 m (i - m.log2) .exact =
      (ExtendedMantissa.ofMantissaAndAccuracy m .exact >>> surplus m, (i : Int) - 52) := by
  have htarget : Format.binary64.targetExponent (totalExponent m (i - m.log2)) = (i : Int) - 52 := by
    simp only [Format.targetExponent, totalExponent, Format.mantissaBits, Format.minExponent]
    omega
  have hamount : ((i : Int) - 52 - (i - m.log2)).toNat = surplus m := by
    unfold surplus
    omega
  rw [shiftToTargetExponent, htarget, shiftToExponent, hamount]
  congr 1
  unfold surplus
  omega

/-- After rounding there is nothing left to shift but the zero that a carry leaves behind. -/
theorem shiftToTargetExponent_rounded (lower : 2 ^ 52 ≤ m) (upper : m ≤ 2 ^ 53)
    (hv : m * 2 ^ i = v * 2 ^ 52) :
    ∃ em j, shiftToTargetExponent Format.binary64 m (i - 52) .exact = (em, ((j : Nat) : Int) - 52) ∧
      2 ^ 52 ≤ em.mantissa ∧ em.mantissa < 2 ^ 53 ∧ em.mantissa * 2 ^ j = v * 2 ^ 52 := by
  rcases upper.lt_or_eq with hlt | rfl
  · have hlog : m.log2 = 52 := (Nat.log2_eq_iff (by omega)).2 ⟨lower, hlt⟩
    have hshift := shiftToTargetExponent_eq (i := i) hlog.ge
    rw [hlog, shiftRight_exact] at hshift
    have hm : m / 2 ^ surplus m = m := by simp [surplus, hlog]
    exact ⟨_, i, hshift, hm.symm ▸ lower, hm.symm ▸ hlt, hm.symm ▸ hv⟩
  · have hlog : (2 ^ 53 : Nat).log2 = 53 := Nat.log2_two_pow
    have hshift := shiftToTargetExponent_eq (i := i + 1) (m := 2 ^ 53) (by omega)
    have he : ((i + 1 : Nat) : Int) - (2 ^ 53 : Nat).log2 = i - 52 := by rw [hlog]; omega
    rw [he, shiftRight_exact] at hshift
    have hm : 2 ^ 53 / 2 ^ surplus (2 ^ 53) = 2 ^ 52 := by rw [surplus, hlog]; rfl
    refine ⟨_, i + 1, hshift, hm.ge, ?_, ?_⟩
    · show 2 ^ 53 / 2 ^ surplus (2 ^ 53) < 2 ^ 53
      omega
    · show 2 ^ 53 / 2 ^ surplus (2 ^ 53) * 2 ^ (i + 1) = v * 2 ^ 52
      rw [hm, ← hv]
      ring

/-- **Rounding gives the nearest number of 53 bits.** -/
theorem shows_roundWithAccuracy (hm : 52 ≤ m.log2) (range : v ≤ 2 ^ 64)
    (hv : halfEven m (surplus m) * 2 ^ i = v * 2 ^ 52) :
    Shows (roundWithAccuracy Format.binary64 s m (i - m.log2) .exact) (s.apply v) := by
  have hm0 : m ≠ 0 := by rintro rfl; simp at hm
  have hlog : m.log2 = 52 + surplus m := by unfold surplus; omega
  have hlower : 2 ^ 52 ≤ halfEven m (surplus m) := by
    refine le_trans ?_ (le_halfEven _ _)
    rw [Nat.le_div_iff_mul_le (Nat.two_pow_pos _), ← pow_add, ← hlog]
    exact Nat.log2_self_le hm0
  have hupper : halfEven m (surplus m) ≤ 2 ^ 53 := by
    refine (halfEven_le _ _).trans ?_
    rw [Nat.succ_le_iff, Nat.div_lt_iff_lt_mul (Nat.two_pow_pos _), ← pow_add,
      show 53 + surplus m = m.log2 + 1 by omega]
    exact Nat.lt_log2_self
  obtain ⟨em, j, hshift, hl, hu, hvalue⟩ := shiftToTargetExponent_rounded hlower hupper hv
  rw [roundWithAccuracy, shiftToTargetExponent_eq hm]
  simp only [roundedMantissa_shiftRight, hshift]
  rw [dif_neg (by omega)]
  exact .finite hl hu range hvalue

/-- A power of two put on before rounding is taken off by it. -/
theorem shows_round_mul (hn : n ≠ 0) (hn64 : n < 2 ^ 64) (hk : 52 ≤ n.log2 + k) :
    Shows (roundWithAccuracy Format.binary64 s (n * 2 ^ k) (-(k : Int)) .exact)
      (s.apply (nearestNat n)) := by
  have hlog : (n * 2 ^ k).log2 = n.log2 + k := by
    rw [Nat.log2_eq_iff (by positivity), Nat.add_right_comm, pow_add, pow_add _ _ k]
    exact ⟨Nat.mul_le_mul_right _ (Nat.log2_self_le hn),
      (Nat.mul_lt_mul_right (Nat.two_pow_pos k)).2 Nat.lt_log2_self⟩
  have hlt : n.log2 < 64 := (Nat.log2_lt hn).2 hn64
  have he : (-(k : Int)) = n.log2 - (n * 2 ^ k).log2 := by rw [hlog]; omega
  rw [he]
  have hrange : nearestNat n ≤ 2 ^ 64 :=
    (nearestNat_le_pow n).trans (Nat.pow_le_pow_right Nat.two_pos hlt)
  refine shows_roundWithAccuracy (hlog ▸ hk) hrange ?_
  rcases Nat.le_total 52 n.log2 with h52 | h52
  · have hsurplus : surplus (n * 2 ^ k) = surplus n + k := by unfold surplus; omega
    have hpow : 2 ^ n.log2 = 2 ^ surplus n * 2 ^ 52 := by
      rw [← pow_add, surplus, Nat.sub_add_cancel h52]
    rw [hsurplus, halfEven_mul, hpow, nearestNat, Nat.mul_assoc]
  · -- all of it fits: the zeros that are dropped were put on before
    have hsurplus : surplus (n * 2 ^ k) = 0 + (k - (52 - n.log2)) := by unfold surplus; omega
    have hsmall : n < 2 ^ 53 := Nat.lt_of_lt_of_le Nat.lt_log2_self (Nat.pow_le_pow_right (by omega) (by omega))
    have hsplit : n * 2 ^ k = n * 2 ^ (52 - n.log2) * 2 ^ (k - (52 - n.log2)) := by
      rw [Nat.mul_assoc, ← pow_add, Nat.add_sub_cancel' (by omega)]
    have hpow : 2 ^ (52 - n.log2) * 2 ^ n.log2 = 2 ^ 52 := by
      rw [← pow_add, Nat.sub_add_cancel h52]
    rw [hsurplus, hsplit, halfEven_mul, halfEven_zero, nearestNat_of_lt hsmall, Nat.mul_assoc, hpow]

end rounding

section compare

variable {x y : UnpackedFloat} {a b : Int}

/-- Of two normal numbers the one with the greater exponent is the greater one. -/
theorem compare_finite {m m' i j v w : Nat} (lower : 2 ^ 52 ≤ m) (upper : m < 2 ^ 53) (lower' : 2 ^ 52 ≤ m')
    (upper' : m' < 2 ^ 53) (hv : m * 2 ^ i = v * 2 ^ 52) (hw : m' * 2 ^ j = w * 2 ^ 52) :
    (compare ((i : Int) - 52) ((j : Int) - 52)).then (compare m m') = compare v w := by
  -- The greater exponent wins, because both mantissas have all their bits.
  have hexp {m m' i j v w : Nat} (upper : m < 2 ^ 53) (lower' : 2 ^ 52 ≤ m')
      (hv : m * 2 ^ i = v * 2 ^ 52) (hw : m' * 2 ^ j = w * 2 ^ 52) (hij : i < j) : v < w := by
    have hlt : v * 2 ^ 52 < w * 2 ^ 52 :=
      calc v * 2 ^ 52
          = m * 2 ^ i := hv.symm
        _ < 2 ^ 53 * 2 ^ i := (Nat.mul_lt_mul_right (Nat.two_pow_pos i)).2 upper
        _ = 2 ^ 52 * 2 ^ (i + 1) := by ring
        _ ≤ m' * 2 ^ j := Nat.mul_le_mul lower' (Nat.pow_le_pow_right Nat.two_pos hij)
        _ = w * 2 ^ 52 := hw
    exact (Nat.mul_lt_mul_right (Nat.two_pow_pos 52)).1 hlt
  rcases lt_trichotomy i j with hij | rfl | hij
  · rw [compare_lt_iff_lt.2 (by omega : (i : Int) - 52 < j - 52),
      compare_lt_iff_lt.2 (hexp upper lower' hv hw hij)]
    rfl
  · have hpow : 0 < 2 ^ i := Nat.two_pow_pos i
    rw [compare_eq_iff_eq.2 rfl, Ordering.eq_then]
    -- With equal exponents, the mantissas decide.
    rcases lt_trichotomy m m' with hmm | rfl | hmm
    · have : v < w := by
        have := (Nat.mul_lt_mul_right hpow).2 hmm
        omega
      rw [compare_lt_iff_lt.2 hmm, compare_lt_iff_lt.2 this]
    · have : v = w := by omega
      rw [this]
      simp
    · have : w < v := by
        have := (Nat.mul_lt_mul_right hpow).2 hmm
        omega
      rw [compare_gt_iff_gt.2 hmm, compare_gt_iff_gt.2 this]
  · rw [compare_gt_iff_gt.2 (by omega : (j : Int) - 52 < i - 52),
      compare_gt_iff_gt.2 (hexp upper' lower hw hv hij)]
    rfl

/-- **Numbers compare as the integers that they are.** -/
theorem Shows.compare_eq (hx : Shows x a) (hy : Shows y b) : x.compare y = some (compare a b) := by
  have hpos {m i v : Nat} (lower : 2 ^ 52 ≤ m) (hv : m * 2 ^ i = v * 2 ^ 52) : (0 : Int) < v := by
    have : 0 < m * 2 ^ i := Nat.mul_pos (by omega) (Nat.two_pow_pos i)
    omega
  cases hx with
  | zero s =>
    cases hy with
    | zero t => rfl
    | @finite t m _ i v lower upper range hv =>
      have := hpos lower hv
      cases t
      · exact congrArg some (compare_gt_iff_gt.2 (Int.neg_neg_of_pos this)).symm
      · exact congrArg some (compare_lt_iff_lt.2 this).symm
  | @finite s m _ i v lower upper range hv =>
    have hv0 := hpos lower hv
    cases hy with
    | zero t =>
      cases s
      · exact congrArg some (compare_lt_iff_lt.2 (Int.neg_neg_of_pos hv0)).symm
      · exact congrArg some (compare_gt_iff_gt.2 hv0).symm
    | @finite t m' _ j w lower' upper' range' hw =>
      have hw0 := hpos lower' hw
      have hcompare := compare_finite lower upper lower' upper' hv hw
      cases s <;> cases t
      · -- both negative: the order of the magnitudes is turned round
        have hanti : StrictAnti fun n : Nat => -(n : Int) := fun n k h => by simpa using h
        have hswap : compare (-(v : Int)) (-(w : Int)) = (compare v w).swap := by
          rw [← cmp_eq_compare, ← cmp_eq_compare, cmp_swap]
          exact hanti.cmp_map_eq v w
        simp only [UnpackedFloat.compare, hcompare, Sign.apply, hswap]
      · exact congrArg some (compare_lt_iff_lt.2 (show -(v : Int) < w by omega)).symm
      · exact congrArg some (compare_gt_iff_gt.2 (show -(w : Int) < v by omega)).symm
      · have hcast : compare (v : Int) (w : Int) = compare v w := by
          rw [← cmp_eq_compare, ← cmp_eq_compare]
          exact Nat.strictMono_cast.cmp_map_eq v w
        simp only [UnpackedFloat.compare, hcompare, Sign.apply, hcast]

end compare

section packing

variable {u : UnpackedFloat} {v : Int}

/-- **Nothing is lost when a number is put into 64 bits.** -/
theorem Shows.unpack_pack (h : Shows u v) : (Float.Model.pack u).unpack = u := by
  show unpack Format.binary64 (pack Format.binary64 u) = u
  cases h with
  | zero s => cases s <;> rfl
  | @finite s m hm i v lower upper range hv =>
    have hlog : m.log2 = 52 := (Nat.log2_eq_iff hm.ne').2 ⟨lower, upper⟩
    have hi : i < 65 := by
      by_contra hi
      have hpow : 2 ^ 65 ≤ 2 ^ i := Nat.pow_le_pow_right Nat.two_pos (Nat.le_of_not_lt hi)
      have hlow := Nat.mul_le_mul_right (2 ^ i) lower
      omega
    have hbiased : ((i : Int) - 52 + Format.binary64.exponentBias
        + Format.binary64.mantissaBitsWithoutImplicit).toNat = i + 1023 := by
      show ((i : Int) - 52 + 1023 + 52).toNat = i + 1023
      omega
    have hfits : ¬ 2 ^ Format.binary64.exponentBits ≤ i + 1023 + 1 := by
      show ¬ 2 ^ 11 ≤ i + 1023 + 1
      omega
    rw [pack, hbiased, if_neg hfits, if_pos (show m.log2 + 1 = Format.binary64.mantissaBits by rw [hlog]; rfl)]
    -- the three fields are read off again
    have he : (BitVec.ofNat 11 (i + 1023)).toNat = i + 1023 := by
      rw [BitVec.toNat_ofNat]
      omega
    have hnormal : BitVec.ofNat 11 (i + 1023) ≠ 0#11 := fun h => by
      have := congrArg BitVec.toNat h
      rw [he] at this
      simp at this
    have hfinite : BitVec.ofNat 11 (i + 1023) ≠ -1#11 := fun h => by
      have := congrArg BitVec.toNat h
      rw [he] at this
      simp at this
      omega
    have hm' : (1#1 ++ BitVec.ofNat 52 m).toNat = m := by
      rw [BitVec.toNat_append, BitVec.toNat_ofNat, BitVec.toNat_ofNat, Nat.shiftLeft_eq, Nat.or_comm]
      show m % 2 ^ 52 ||| 2 ^ 52 = m
      rw [Nat.or_two_pow_eq_add_of_lt (Nat.mod_lt m (Nat.two_pow_pos 52))]
      omega
    simp only [unpack, unpackMantissa_packComponents, unpackExponent_packComponents,
      unpackSign_packComponents, Sign.ofBitVec_toBitVec, hnormal, hfinite, if_false, he, hm']
    have hexponent : ((i + 1023 : Nat) : Int) - (Format.binary64.exponentBias + (52 : Nat)) = i - 52 := by
      show ((i + 1023 : Nat) : Int) - ((1023 : Nat) + (52 : Nat)) = i - 52
      omega
    rw [hexponent]

theorem Shows.packed (h : Shows u v) : Shows (Float.Model.pack u).unpack v := by
  rwa [h.unpack_pack]

theorem Shows.neg (h : Shows u v) : Shows u.neg (-v) := by
  cases h with
  | zero s => exact .zero _
  | @finite s m hm i v lower upper range hv =>
    have := @Shows.finite (-s) m hm i v lower upper range hv
    cases s
    · rw [Sign.apply, neg_neg]
      exact this
    · exact this

/-- Multiplying by one rounds a number that needs no rounding. -/
theorem Shows.mul_one (h : Shows u v) :
    Shows (mul Format.binary64 u (.finite .positive (2 ^ 52) (-52) (by decide))) v := by
  cases h with
  | zero s => exact .zero _
  | @finite s m hm i v lower upper range hv =>
    have hlog : (m * 2 ^ 52).log2 = 104 := by
      rw [Nat.log2_eq_iff (by positivity)]
      omega
    have hsurplus : surplus (m * 2 ^ 52) = 0 + 52 := by rw [surplus, hlog]
    have hhalf : halfEven (m * 2 ^ 52) (surplus (m * 2 ^ 52)) = m := by
      rw [hsurplus, halfEven_mul, halfEven_zero]
    have hs : s * .positive = s := by cases s <;> rfl
    have he : (i : Int) - 52 + -52 = i - (m * 2 ^ 52).log2 := by rw [hlog]; omega
    show Shows (roundWithAccuracy Format.binary64 (s * .positive) (m * 2 ^ 52) (i - 52 + -52) .exact) _
    rw [hs, he]
    exact shows_roundWithAccuracy (by omega) range (hhalf.symm ▸ hv)

end packing

section conversion

variable {n : Nat}

/-- The conversion of words rounds. -/
theorem shows_toFloat (hn : n < 2 ^ 64) : Shows n.toUInt64.toFloat.toModel.unpack (nearestNat n) := by
  show Shows (Float.Model.pack (UnpackedFloat.ofUInt64 Format.binary64 n.toUInt64)).unpack (nearestNat n)
  have hword : n.toUInt64.toNat = n := Nat.mod_eq_of_lt hn
  rcases Nat.eq_zero_or_pos n with rfl | hpos
  · exact .zero _
  have hround : UnpackedFloat.ofUInt64 Format.binary64 n.toUInt64 = round Format.binary64 .positive n 0 := by
    rw [UnpackedFloat.ofUInt64, hword, UnpackedFloat.ofNat, UnpackedFloat.ofInt, UnpackedFloat.normalize,
      compare_gt_iff_gt.2 (Int.natCast_pos.2 hpos)]
    rfl
  have htarget : Format.binary64.targetExponent (totalExponent n 0) = (n.log2 : Int) - 52 := by
    simp only [Format.targetExponent, totalExponent, Format.mantissaBits, Format.minExponent]
    omega
  have hamount : (0 - ((n.log2 : Int) - 52)).toNat = 52 - n.log2 := by omega
  have hdecrease : decreaseExponent n 0 (n.log2 - 52) = (n * 2 ^ (52 - n.log2), -((52 - n.log2 : Nat) : Int)) := by
    rw [decreaseExponent, hamount, Nat.shiftLeft_eq, zero_sub]
  rw [hround, UnpackedFloat.round, htarget, hdecrease]
  exact (shows_round_mul hpos.ne' hn (by omega)).packed

/-- **The conversion of natural numbers rounds**, whichever of its two ways it goes. -/
theorem shows_ofNat (hn : n < 2 ^ 64) : Shows (Float.ofNat n).toModel.unpack (nearestNat n) := by
  show Shows (Float.ofScientific n false 0).toModel.unpack (nearestNat n)
  unfold Float.ofScientific
  by_cases h : n < 2 ^ 53 ∧ 0 ≤ 22
  · rw [dif_pos h]
    have hone : (Float.ofBits 0x3FF0000000000000).toModel.unpack =
      .finite .positive (2 ^ 52) (-52) (by decide) := rfl
    have hshows := (shows_toFloat hn).mul_one
    rw [← hone] at hshows
    exact hshows.packed
  · rw [dif_neg h]
    have h53 : 2 ^ 53 ≤ n := by omega
    have hscientific : UnpackedFloat.ofScientific Format.binary64 n 0 =
        roundWithAccuracy Format.binary64 .positive (n * 2 ^ 53) (-((53 : Nat) : Int)) .exact := by
      have hlow : ¬ (0 : Int) < -((2 ^ Format.binary64.exponentBits : Int) + n.log2) := by
        have : (0 : Int) < 2 ^ Format.binary64.exponentBits := by positivity
        omega
      have hbits : Format.binary64.mantissaBits = 53 := rfl
      have hsign : Sign.positive * Sign.positive = Sign.positive := rfl
      rw [UnpackedFloat.ofScientific, dif_neg (by omega), if_neg (by decide), if_neg hlow, if_pos le_rfl,
        UnpackedFloat.mul, hbits, hsign, Nat.shiftLeft_eq, Int.toNat_zero, pow_zero, Nat.mul_one, Int.add_zero]
    show Shows (Float.Model.pack (UnpackedFloat.ofScientific Format.binary64 n 0)).unpack (nearestNat n)
    rw [hscientific]
    exact (shows_round_mul (by omega) hn (by omega)).packed

/-- **The conversion of integers rounds.** -/
theorem shows_ofInt64 (n : Int64) : Shows (ofInt64 n).toModel.unpack (nearest n.toInt) := by
  have hle : n.toInt < 2 ^ 63 := n.toInt_lt
  have hge : -2 ^ 63 ≤ n.toInt := n.le_toInt
  show Shows (Float.ofInt n.toInt).toModel.unpack (nearest n.toInt)
  rcases hn : n.toInt with m | m
  · rw [hn, Int.ofNat_eq_natCast] at hle
    have := shows_ofNat (n := m) (by omega)
    rw [Int.ofNat_eq_natCast, nearest_natCast]
    exact this
  · have := (shows_ofNat (n := m + 1) (by omega)).neg.packed
    rw [Int.negSucc_eq, nearest_neg, ← Nat.cast_succ, nearest_natCast]
    exact this

theorem lt_iff {x y : Float} : x < y ↔ x.toModel.unpack.compare y.toModel.unpack = some .lt := by
  show decide (x.toModel.lt y.toModel = true) = true ↔ _
  rw [decide_eq_true_iff]
  exact beq_iff_eq

/-- **Two integers are equal as binary64 numbers if the same is left of them.** -/
theorem beq_ofInt64 (a b : Int64) : (ofInt64 a == ofInt64 b) = decide (nearest a.toInt = nearest b.toInt) := by
  rw [Bool.eq_iff_iff, beq_iff, (shows_ofInt64 a).compare_eq (shows_ofInt64 b), decide_eq_true_iff]
  exact Option.some_inj.trans compare_eq_iff_eq

/-- **An integer is below another as a binary64 number if less is left of it.** -/
theorem lt_ofInt64 (a b : Int64) : ofInt64 a < ofInt64 b ↔ nearest a.toInt < nearest b.toInt := by
  rw [lt_iff, (shows_ofInt64 a).compare_eq (shows_ofInt64 b)]
  exact Option.some_inj.trans compare_lt_iff_lt

end conversion

end Switchyard.Binary64
