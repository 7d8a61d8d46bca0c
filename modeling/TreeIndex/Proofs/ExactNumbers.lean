import TreeIndex.Value
import Mathlib.Tactic.Ring

/-!
# Numbers that conversion keeps

Rounding a magnitude's own units gives the magnitude back. So an integer that a
binary64 number is equal to is read back as that number, but for the sign of
zero, and an integer below `2 ^ 53` in size is written back as itself. Integers
of 64 bits never round to infinity.
-/
namespace TreeIndex

theorem roundDiv_mul (n : Nat) {d : Nat} (h : 0 < d) : roundDiv (n * d) d = n := by
  simp [roundDiv, h]

theorem roundDiv_le (num den : Nat) : roundDiv num den ≤ num / den + 1 := by
  unfold roundDiv
  dsimp only
  split
  · omega
  · split <;> omega

namespace Binary64

theorem binade_eq : binade = 2 ^ 52 := rfl

theorem units_mul_binade_add (e f : Nat) (h : f < binade) :
    units ((e + 1) * binade + f) = (binade + f) * 2 ^ e := by
  have hb : 0 < binade := by decide
  have whole : ((e + 1) * binade + f) / binade = e + 1 := by
    rw [Nat.add_comm, Nat.add_mul_div_right f (e + 1) hb, Nat.div_eq_of_lt h, Nat.zero_add]
  have rest : ((e + 1) * binade + f) % binade = f := by
    rw [Nat.add_comm, Nat.add_mul_mod_self_right, Nat.mod_eq_of_lt h]
  have large : ¬ (e + 1) * binade + f < binade := by
    rw [Nat.add_mul]
    omega
  simp [units, large, whole, rest, Nat.shiftLeft_eq]

/-- At each scale the significands up to the next power of two count multiples of it. -/
theorem units_scaled {e q : Nat} (low : e = 0 ∨ binade ≤ q) (high : q ≤ 2 * binade) :
    units (e * binade + q) = q * 2 ^ e := by
  rcases Nat.lt_or_ge q binade with small | large
  · obtain rfl : e = 0 := low.resolve_right (by omega)
    rw [Nat.zero_mul, Nat.zero_add, units, if_pos small, Nat.pow_zero, Nat.mul_one]
  · obtain ⟨f, rfl⟩ : ∃ f, q = binade + f := ⟨q - binade, by omega⟩
    rcases Nat.lt_or_ge f binade with inside | top
    · rw [← Nat.add_assoc, ← Nat.succ_mul, units_mul_binade_add e f inside]
    · obtain rfl : f = binade := by omega
      have next : e * binade + (binade + binade) = (e + 1 + 1) * binade + 0 := by ring
      rw [next, units_mul_binade_add (e + 1) 0 (by decide), Nat.pow_succ]
      ring

/-- Every magnitude is a significand at some scale. -/
theorem exists_scale (m : Nat) :
    ∃ e q, m = e * binade + q ∧ (e = 0 ∨ binade ≤ q) ∧ q < 2 * binade := by
  rcases Nat.lt_or_ge m binade with small | large
  · exact ⟨0, m, by omega, .inl rfl, by omega⟩
  · have positive : 0 < binade := by decide
    have whole : 1 ≤ m / binade := (Nat.le_div_iff_mul_le positive).2 (by omega)
    have rest : m % binade < binade := Nat.mod_lt m positive
    have split := Nat.div_add_mod' m binade
    obtain ⟨e, he⟩ : ∃ e, m / binade = e + 1 := ⟨m / binade - 1, by omega⟩
    rw [he, Nat.succ_mul] at split
    exact ⟨e, binade + m % binade, by omega, .inr (by omega), by omega⟩

theorem nearest_of_lt {n : Nat} (h : n < binade) : nearest n 1 = n := by
  have shift : n.log2 - 52 = 0 := by
    by_cases zero : n = 0
    · simp [zero]
    · have : n.log2 < 52 := (Nat.log2_lt zero).2 h
      omega
  have finite : n ≤ infinite := by
    have : binade ≤ infinite := by decide
    omega
  have exact : roundDiv n 1 = n := by simpa using roundDiv_mul n Nat.one_pos
  simp [nearest, shift, exact, finite]

/-- A significand of 53 bits is kept, whatever power of two it is scaled by. -/
theorem nearest_mul_two_pow (a e : Nat) (low : binade ≤ a) (high : a < 2 * binade) :
    nearest (a * 2 ^ e) 1 = min (e * binade + a) infinite := by
  have power : 0 < 2 ^ e := Nat.two_pow_pos e
  have log : (a * 2 ^ e).log2 = 52 + e := by
    have positive : a * 2 ^ e ≠ 0 := by
      have : 0 < binade := by decide
      exact Nat.mul_ne_zero (by omega) (by omega)
    rw [Nat.log2_eq_iff positive, Nat.pow_add, show 52 + e + 1 = 53 + e by omega, Nat.pow_add]
    exact ⟨Nat.mul_le_mul_right _ low, Nat.mul_lt_mul_of_pos_right high power⟩
  have shift : (a * 2 ^ e).log2 - 52 = e := by omega
  simp [nearest, shift, Nat.shiftLeft_eq, roundDiv_mul a power]

/-- A magnitude is nearest to its own units. -/
theorem nearest_units {m : Nat} (h : m < infinite) : nearest (units m) 1 = m := by
  obtain ⟨e, q, rfl, low, high⟩ := exists_scale m
  rw [units_scaled low high.le]
  -- a small magnitude counts its units, a larger one is a significand at a scale
  rcases Nat.lt_or_ge q binade with small | large
  · obtain rfl : e = 0 := low.resolve_right (by omega)
    simp [nearest_of_lt small]
  · rw [nearest_mul_two_pow q e large high, Nat.min_eq_left h.le]

theorem significand_lt (n : Nat) : n / 2 ^ (n.log2 - 52) < 2 * binade := by
  rw [Nat.div_lt_iff_lt_mul (Nat.two_pow_pos _)]
  calc n < 2 ^ (n.log2 + 1) := Nat.lt_log2_self
    _ ≤ 2 ^ (53 + (n.log2 - 52)) := Nat.pow_le_pow_right (by omega) (by omega)
    _ = 2 * binade * 2 ^ (n.log2 - 52) := by rw [Nat.pow_add, binade_eq, ← Nat.pow_succ']

theorem nearest_le (n : Nat) : nearest n 1 ≤ (n.log2 - 52) * binade + (2 * binade + 1) := by
  have quotient := significand_lt n
  have rounded := roundDiv_le n (2 ^ (n.log2 - 52))
  simp only [nearest, Nat.div_one, Nat.shiftLeft_eq, Nat.one_mul]
  omega

theorem one_pos : 0 < one := by decide

theorem log2_mul_shiftLeft {n k : Nat} (h : n ≠ 0) : (n * 1 <<< k).log2 = n.log2 + k := by
  have log := (Nat.log2_eq_iff h).1 rfl
  have power := Nat.two_pow_pos k
  rw [Nat.one_shiftLeft, Nat.log2_eq_iff (Nat.mul_ne_zero h (Nat.ne_of_gt power)),
    Nat.add_right_comm, Nat.pow_add, Nat.pow_add]
  exact ⟨Nat.mul_le_mul_right _ log.1, Nat.mul_lt_mul_of_pos_right log.2 power⟩

theorem log2_mul_one {n : Nat} (h : n ≠ 0) : (n * one).log2 = n.log2 + 1074 :=
  log2_mul_shiftLeft h

/-- Integers of at most 64 bits are far below infinity. -/
theorem nearest_lt_infinite {n : Nat} (h : n ≤ 2 ^ 64) : nearest (n * one) 1 < infinite := by
  rcases Nat.eq_zero_or_pos n with rfl | positive
  · decide
  · have log : n.log2 < 65 := (Nat.log2_lt (Nat.ne_of_gt positive)).2 (by omega)
    have bound := nearest_le (n * one)
    rw [log2_mul_one (Nat.ne_of_gt positive)] at bound
    have : (n.log2 + 1074 - 52) * binade ≤ 1086 * binade := Nat.mul_le_mul_right _ (by omega)
    have : 1086 * binade + (2 * binade + 1) < infinite := by decide
    omega

/-- An integer below `2 ^ 53` is a significand of 53 bits at some scale. -/
theorem exists_significand {n : Nat} (positive : 0 < n) (h : n < 2 ^ 53) (k : Nat) :
    ∃ a, binade ≤ a ∧ a < 2 * binade ∧ n * 1 <<< (k + 52) = a * 2 ^ (k + n.log2) := by
  have log := (Nat.log2_eq_iff (Nat.ne_of_gt positive)).1 rfl
  have low : n.log2 ≤ 52 := Nat.le_of_lt_succ ((Nat.log2_lt (Nat.ne_of_gt positive)).2 h)
  have power := Nat.two_pow_pos (52 - n.log2)
  refine ⟨n * 2 ^ (52 - n.log2), ?_, ?_, ?_⟩
  · calc binade = 2 ^ n.log2 * 2 ^ (52 - n.log2) := by
          rw [← Nat.pow_add, binade_eq]; congr 1; omega
      _ ≤ n * 2 ^ (52 - n.log2) := Nat.mul_le_mul_right _ log.1
  · calc n * 2 ^ (52 - n.log2) < 2 ^ (n.log2 + 1) * 2 ^ (52 - n.log2) :=
          Nat.mul_lt_mul_of_pos_right log.2 power
      _ = 2 * binade := by
          rw [← Nat.pow_add, binade_eq, ← Nat.pow_succ']; congr 1; omega
  · rw [Nat.one_shiftLeft, Nat.mul_assoc, ← Nat.pow_add]
    congr 2
    omega

/-- An integer below `2 ^ 53` is the exact value of the magnitude nearest to it. -/
theorem units_nearest_mul_one {n : Nat} (h : n < 2 ^ 53) :
    units (nearest (n * one) 1) = n * one := by
  rcases Nat.eq_zero_or_pos n with rfl | positive
  · decide
  · obtain ⟨a, low, high, scaled⟩ := exists_significand positive h 1022
    have same : n * one = a * 2 ^ (1022 + n.log2) := scaled
    have log : n.log2 < 53 := (Nat.log2_lt (Nat.ne_of_gt positive)).2 h
    have finite : (1022 + n.log2) * binade + a < infinite := by
      have : (1022 + n.log2) * binade ≤ 1074 * binade := Nat.mul_le_mul_right _ (by omega)
      have : 1074 * binade + 2 * binade < infinite := by decide
      omega
    rw [same, nearest_mul_two_pow _ _ low high, Nat.min_eq_left (Nat.le_of_lt finite),
      units_scaled (.inr low) high.le]

theorem toNat_bits_ofMagnitude (negative : Bool) {m : Nat} (h : m < 2 ^ 63) :
    (ofMagnitude negative m).bits.toNat = (if negative then 2 ^ 63 else 0) + m := by
  have sign : signBit.toNat = 2 ^ 63 := rfl
  cases negative
  · simp [ofMagnitude]
    omega
  · simp [ofMagnitude, sign]
    omega

theorem negative_eq (x : Binary64) : x.negative = decide (2 ^ 63 ≤ x.bits.toNat) := rfl

@[simp] theorem magnitude_ofMagnitude (negative : Bool) {m : Nat} (h : m < 2 ^ 63) :
    (ofMagnitude negative m).magnitude = m := by
  rw [magnitude_eq, toNat_bits_ofMagnitude negative h]
  cases negative <;> simp <;> omega

@[simp] theorem negative_ofMagnitude (negative : Bool) {m : Nat} (h : m < 2 ^ 63) :
    (ofMagnitude negative m).negative = negative := by
  rw [negative_eq, toNat_bits_ofMagnitude negative h]
  cases negative
  · simpa using h
  · simp

theorem eq_of_negative_of_magnitude {x y : Binary64} (sign : x.negative = y.negative)
    (size : x.magnitude = y.magnitude) : x = y := by
  have hx : x.bits.toNat < 2 ^ 64 := x.bits.toNat_lt
  have hy : y.bits.toNat < 2 ^ 64 := y.bits.toNat_lt
  simp only [negative_eq, magnitude_eq, decide_eq_decide] at sign size
  have same : x.bits.toNat = y.bits.toNat := by omega
  cases x
  cases y
  exact congrArg mk (UInt64.toNat_inj.1 same)

theorem magnitude_eq_zero_iff {x : Binary64} : x.magnitude = 0 ↔ x.unsigned = 0 :=
  UInt64.toNat_inj (b := 0)

theorem canonical_of_isNaN {x : Binary64} (h : x.isNaN = true) : x.canonical = nan.bits := by
  rw [canonical, if_pos h]

theorem canonical_of_magnitude_eq_zero {x : Binary64} (h : x.magnitude = 0) :
    x.canonical = 0 := by
  simp [canonical, isNaN_eq, h, magnitude_eq_zero_iff.1 h]

theorem canonical_of_ne {x : Binary64} (number : ¬ x.isNaN = true) (h : ¬ x.magnitude = 0) :
    x.canonical = x.bits := by
  rw [canonical, if_neg number, if_neg (mt magnitude_eq_zero_iff.2 h)]

/-- No other class has the pattern of those that are not numbers. -/
theorem isNaN_of_canonical_eq {x : Binary64} (h : x.canonical = nan.bits) : x.isNaN = true := by
  have notNumber : nan.isNaN = true := by decide
  have notZero : nan.bits ≠ 0 := by decide
  by_contra number
  by_cases zero : x.magnitude = 0
  · exact notZero (h.symm.trans (canonical_of_magnitude_eq_zero zero))
  · have same : x = nan := congrArg mk ((canonical_of_ne number zero).symm.trans h)
    exact number (same ▸ notNumber)

/-- No other class has the pattern of the zeros. -/
theorem magnitude_of_canonical_eq {x : Binary64} (h : x.canonical = 0) : x.magnitude = 0 := by
  have notZero : nan.bits ≠ 0 := by decide
  by_contra nonzero
  by_cases notNumber : x.isNaN = true
  · exact notZero ((canonical_of_isNaN notNumber).symm.trans h)
  · have zero : x.bits = 0 := (canonical_of_ne notNumber nonzero).symm.trans h
    exact nonzero (by simp [magnitude_eq, zero])

/-- Zeros are equal whatever their sign. -/
theorem beq_of_magnitude_eq_zero {x y : Binary64} (hx : x.magnitude = 0) (hy : y.magnitude = 0) :
    (x == y) = true := by
  rw [beq_eq, canonical_of_magnitude_eq_zero hx, canonical_of_magnitude_eq_zero hy,
    beq_self_eq_true]

/-- Numbers are equal if they are the same pattern, or both not numbers, or both zero. -/
theorem beq_iff {x y : Binary64} : (x == y) = true ↔
    x = y ∨ (x.isNaN = true ∧ y.isNaN = true) ∨ (x.magnitude = 0 ∧ y.magnitude = 0) := by
  constructor
  · intro same
    rw [beq_eq, beq_iff_eq] at same
    by_cases notNumber : x.isNaN = true
    · rw [canonical_of_isNaN notNumber] at same
      exact .inr (.inl ⟨notNumber, isNaN_of_canonical_eq same.symm⟩)
    by_cases zero : x.magnitude = 0
    · rw [canonical_of_magnitude_eq_zero zero] at same
      exact .inr (.inr ⟨zero, magnitude_of_canonical_eq same.symm⟩)
    have number : ¬ y.isNaN = true := fun h =>
      notNumber (isNaN_of_canonical_eq (same.trans (canonical_of_isNaN h)))
    have nonzero : ¬ y.magnitude = 0 := fun h =>
      zero (magnitude_of_canonical_eq (same.trans (canonical_of_magnitude_eq_zero h)))
    rw [canonical_of_ne notNumber zero, canonical_of_ne number nonzero] at same
    exact .inl (congrArg mk same)
  · rintro (rfl | ⟨hx, hy⟩ | ⟨hx, hy⟩)
    · exact BEq.rfl
    · rw [beq_eq, canonical_of_isNaN hx, canonical_of_isNaN hy, beq_self_eq_true]
    · exact beq_of_magnitude_eq_zero hx hy

theorem natAbs_signedUnits (x : Binary64) : x.signedUnits.natAbs = units x.magnitude := by
  unfold signedUnits
  split <;> simp

/-- Finite numbers are equal if they stand for the same value. -/
theorem beq_iff_signedUnits {x y : Binary64} (hx : x.isFinite = true) (hy : y.isFinite = true) :
    (x == y) = true ↔ x.signedUnits = y.signedUnits := by
  rw [isFinite_eq, decide_eq_true_iff] at hx hy
  have number : ¬ x.isNaN = true := by
    rw [isNaN_eq, decide_eq_true_iff]
    omega
  have none : units 0 = 0 := by decide
  rw [beq_iff]
  constructor
  · rintro (rfl | ⟨notNumber, _⟩ | ⟨zero, zero'⟩)
    · rfl
    · exact absurd notNumber number
    · simp [signedUnits, zero, zero', none]
  · intro same
    have size : units x.magnitude = units y.magnitude := by
      rw [← natAbs_signedUnits, ← natAbs_signedUnits, same]
    have magnitude : x.magnitude = y.magnitude := by
      rw [← nearest_units hx, size, nearest_units hy]
    by_cases zero : units x.magnitude = 0
    · have hzero : x.magnitude = 0 := by
        rw [← nearest_units hx, zero]
        decide
      exact .inr (.inr ⟨hzero, magnitude ▸ hzero⟩)
    · refine .inl (eq_of_negative_of_magnitude ?_ magnitude)
      unfold signedUnits at same
      cases negative : x.negative <;> cases negative' : y.negative <;>
        simp only [negative, negative'] at same ⊢ <;> simp at same <;> omega

theorem magnitude_ofInt {v : Int} (h : v.natAbs ≤ 2 ^ 64) :
    (ofInt v).magnitude = nearest (v.natAbs * one) 1 := by
  have finite := nearest_lt_infinite h
  have bound : infinite < 2 ^ 63 := by decide
  exact magnitude_ofMagnitude _ (by omega)

theorem negative_ofInt {v : Int} (h : v.natAbs ≤ 2 ^ 64) :
    (ofInt v).negative = decide (v < 0) := by
  have finite := nearest_lt_infinite h
  have bound : infinite < 2 ^ 63 := by decide
  exact negative_ofMagnitude _ (by omega)

theorem isFinite_ofInt {v : Int} (h : v.natAbs ≤ 2 ^ 64) : (ofInt v).isFinite = true := by
  rw [isFinite_eq, magnitude_ofInt h]
  simpa using nearest_lt_infinite h

/-- The conversion to an integer answers where the exact value is one. -/
theorem toInt?_eq_some {x : Binary64} {v : Int} :
    x.toInt? = some v ↔ x.isFinite = true ∧ x.signedUnits = v * one ∧ v.natAbs < 2 ^ 53 := by
  have positive : (0 : Int) < one := by exact_mod_cast one_pos
  simp only [toInt?, ← natAbs_signedUnits, Option.ite_none_right_eq_some, Option.some.injEq]
  constructor
  · rintro ⟨⟨finite, whole, small⟩, rfl⟩
    have exact : x.signedUnits / one * one = x.signedUnits :=
      Int.ediv_mul_cancel (Int.natCast_dvd.2 (Nat.dvd_of_mod_eq_zero whole))
    refine ⟨finite, exact.symm, ?_⟩
    rw [← exact, Int.natAbs_mul, Int.natAbs_natCast, Nat.mul_div_cancel _ one_pos] at small
    exact small
  · rintro ⟨finite, exact, small⟩
    rw [exact, Int.natAbs_mul, Int.natAbs_natCast, Nat.mul_mod_left,
      Nat.mul_div_cancel _ one_pos, Int.mul_ediv_cancel _ (Int.ne_of_gt positive)]
    exact ⟨⟨finite, rfl, small⟩, rfl⟩

/-- The number nearest to the integer value of a number is that number. -/
theorem ofInt_beq_of_toInt? {x : Binary64} {v : Int} (h : x.toInt? = some v) :
    (ofInt v == x) = true := by
  obtain ⟨finite, exact, small⟩ := toInt?_eq_some.1 h
  have range : v.natAbs ≤ 2 ^ 64 := by omega
  have size : units x.magnitude = v.natAbs * one := by
    rw [← natAbs_signedUnits, exact, Int.natAbs_mul, Int.natAbs_natCast]
  have magnitude : (ofInt v).magnitude = x.magnitude := by
    rw [magnitude_ofInt range, ← size]
    exact nearest_units (by simpa [isFinite_eq] using finite)
  by_cases zero : v = 0
  · subst zero
    have none : (ofInt 0).magnitude = 0 := by decide
    exact beq_of_magnitude_eq_zero none (magnitude ▸ none)
  · have sign : x.negative = decide (v < 0) := by
      have positive : (0 : Int) < one := by exact_mod_cast one_pos
      cases hx : x.negative
      · have : 0 ≤ v * one := by rw [← exact, signedUnits, hx]; simp
        have := Int.nonneg_of_mul_nonneg_left this positive
        simp
        omega
      · have : v * one ≤ 0 := by rw [← exact, signedUnits, hx]; simp
        have := Int.nonpos_of_mul_nonpos_left this positive
        simp
        omega
    rw [eq_of_negative_of_magnitude ((negative_ofInt range).trans sign.symm) magnitude]
    exact BEq.rfl

/-- Integers below `2 ^ 53` in size are kept. -/
theorem toInt?_ofInt {v : Int} (h : v.natAbs < 2 ^ 53) : (ofInt v).toInt? = some v := by
  have range : v.natAbs ≤ 2 ^ 64 := by omega
  refine toInt?_eq_some.2 ⟨isFinite_ofInt range, ?_, h⟩
  rw [signedUnits, negative_ofInt range, magnitude_ofInt range, units_nearest_mul_one h]
  by_cases sign : v < 0
  · have : (v.natAbs : Int) = -v := by omega
    simp [sign, this]
  · have : (v.natAbs : Int) = v := by omega
    simp [sign, this]

/-- From `2 ^ 53` on they are not: this one is between two numbers. -/
example : ofInt 9007199254740993 = ofInt 9007199254740992 := by decide +kernel

end Binary64

namespace Json

variable {x : Binary64}

theorem ofBinary64_of_toInt? {v : Int} (h : x.toInt? = some v) :
    ofBinary64 x = .number (.int v) := by
  rw [ofBinary64, h]

theorem ofBinary64_of_isFinite (h : x.toInt? = none) (finite : x.isFinite = true) :
    ofBinary64 x = .number (.float x finite) := by
  rw [ofBinary64, h]
  simp [finite]

theorem ofBinary64_of_not_isFinite (h : ¬ x.isFinite = true) : ofBinary64 x = .null := by
  have none : x.toInt? = none := by
    refine Option.eq_none_iff_forall_not_mem.2 fun v exact => h ?_
    exact (Binary64.toInt?_eq_some.1 exact).1
  rw [ofBinary64, none]
  simp [h]

end Json
end TreeIndex
