import TreeIndex.Proofs.ExactNumbers
import Mathlib.Algebra.Order.Field.Rat

/-!
# What patterns stand for

A pattern has three fields: the sign bit, eleven bits of exponent and fifty-two
of fraction. `datum` reads them: an infinity, no number at all, or a rational
value. The magnitudes and units of a pattern are the same reading in natural
numbers, so field values are equal exactly when they stand for one datum; that
is equality as arithmetic has it, but that what is no number equals itself.
-/
namespace TreeIndex
namespace Binary64

variable {x y : Binary64}

/-- What a pattern stands for. -/
inductive Datum where
  | nan
  | infinity (negative : Bool)
  | finite (value : ℚ)
  deriving DecidableEq

def exponent (x : Binary64) : Nat := x.bits.toNat / 2 ^ 52 % 2 ^ 11

def fraction (x : Binary64) : Nat := x.bits.toNat % 2 ^ 52

def signed (x : Binary64) (size : ℚ) : ℚ := if x.negative then -size else size

/-- The largest exponent is that of the infinities and of what is no number. The
least is that of the values without a leading bit. -/
def datum (x : Binary64) : Datum :=
  if x.exponent = 2047 then
    if x.fraction = 0 then .infinity x.negative else .nan
  else if x.exponent = 0 then .finite (x.signed (x.fraction * 2 ^ (-1074 : Int)))
  else .finite (x.signed ((2 ^ 52 + x.fraction) * 2 ^ ((x.exponent : Int) - 1075)))

/-- Equality as arithmetic has it: what is no number equals nothing. -/
def IeeeEqual (x y : Binary64) : Prop := x.datum = y.datum ∧ x.datum ≠ .nan

/-- The value of a finite number. -/
def value (x : Binary64) : ℚ := x.signedUnits / one

theorem magnitude_eq_fields (x : Binary64) :
    x.magnitude = x.exponent * binade + x.fraction := by
  have positive : binade = 2 ^ 52 := rfl
  rw [magnitude_eq, positive, exponent, fraction]
  omega

theorem fraction_lt (x : Binary64) : x.fraction < binade := Nat.mod_lt _ (by decide)

theorem exponent_le (x : Binary64) : x.exponent ≤ 2047 := by
  have : x.exponent < 2 ^ 11 := Nat.mod_lt _ (by decide)
  omega

theorem isFinite_iff_exponent : x.isFinite = true ↔ x.exponent ≠ 2047 := by
  have fields := x.magnitude_eq_fields
  have low := x.fraction_lt
  have high := x.exponent_le
  rw [isFinite_eq, decide_eq_true_iff, infinite, binade] at *
  omega

theorem isNaN_iff_fields : x.isNaN = true ↔ x.exponent = 2047 ∧ x.fraction ≠ 0 := by
  have fields := x.magnitude_eq_fields
  have low := x.fraction_lt
  have high := x.exponent_le
  rw [isNaN_eq, decide_eq_true_iff, infinite, binade] at *
  omega

theorem cast_one_shiftLeft (k : Nat) : ((1 <<< k : Nat) : ℚ) = 2 ^ (k : Int) := by
  rw [Nat.one_shiftLeft, Nat.cast_pow, zpow_natCast, Nat.cast_ofNat]

/-- The units that a magnitude counts are those that the fields stand for. -/
theorem units_magnitude_div_one (x : Binary64) : (units x.magnitude : ℚ) / one =
    if x.exponent = 0 then (x.fraction : ℚ) * 2 ^ (-1074 : Int)
    else (2 ^ 52 + x.fraction : ℚ) * 2 ^ ((x.exponent : Int) - 1075) := by
  have scale : (one : ℚ) = 2 ^ (1074 : Int) := cast_one_shiftLeft 1074
  rw [magnitude_eq_fields, scale]
  split
  · rename_i least
    rw [least, Nat.zero_mul, Nat.zero_add, units, if_pos x.fraction_lt, zpow_neg]
    exact div_eq_mul_inv _ _
  · rename_i larger
    obtain ⟨e, same⟩ : ∃ e, x.exponent = e + 1 := ⟨x.exponent - 1, by omega⟩
    have shifted : ((e + 1 : Nat) : Int) - 1075 = (e : Int) - 1074 := by omega
    rw [same, units_mul_binade_add e _ x.fraction_lt, binade_eq, shifted,
      zpow_sub₀ two_ne_zero, zpow_natCast]
    rw [Nat.cast_mul, Nat.cast_add, Nat.cast_pow, Nat.cast_pow, Nat.cast_ofNat, mul_div_assoc]

theorem value_eq_signed (x : Binary64) : x.value = x.signed ((units x.magnitude : ℚ) / one) := by
  rw [value, signedUnits, signed]
  cases x.negative
  · simp
  · simp [neg_div]

theorem datum_of_isFinite (finite : x.isFinite = true) : x.datum = .finite x.value := by
  have exponent := isFinite_iff_exponent.1 finite
  rw [datum, if_neg exponent, value_eq_signed, units_magnitude_div_one]
  split <;> rfl

theorem datum_of_isNaN (h : x.isNaN = true) : x.datum = .nan := by
  obtain ⟨exponent, fraction⟩ := isNaN_iff_fields.1 h
  rw [datum, if_pos exponent, if_neg fraction]

/-- Between them are the infinities. -/
theorem datum_of_infinite (notNumber : ¬ x.isNaN = true) (finite : ¬ x.isFinite = true) :
    x.magnitude = infinite ∧ x.datum = .infinity x.negative := by
  have exponent : x.exponent = 2047 := not_not.1 (mt isFinite_iff_exponent.2 finite)
  have fraction : x.fraction = 0 := by
    by_contra other
    exact notNumber (isNaN_iff_fields.2 ⟨exponent, other⟩)
  rw [magnitude_eq_fields, datum, if_pos exponent, if_pos fraction, exponent, fraction]
  exact ⟨rfl, rfl⟩

theorem exists_datum_iff_isFinite : (∃ q, x.datum = .finite q) ↔ x.isFinite = true := by
  constructor
  · rintro ⟨q, datum⟩
    by_contra finite
    by_cases notNumber : x.isNaN = true
    · rw [datum_of_isNaN notNumber] at datum
      cases datum
    · rw [(datum_of_infinite notNumber finite).2] at datum
      cases datum
  · exact fun finite => ⟨x.value, datum_of_isFinite finite⟩

theorem datum_eq_finite_iff {q : ℚ} :
    x.datum = .finite q ↔ x.isFinite = true ∧ x.value = q := by
  constructor
  · intro datum
    have finite := exists_datum_iff_isFinite.1 ⟨q, datum⟩
    rw [datum_of_isFinite finite] at datum
    exact ⟨finite, Datum.finite.inj datum⟩
  · rintro ⟨finite, rfl⟩
    exact datum_of_isFinite finite

theorem datum_eq_nan_iff : x.datum = .nan ↔ x.isNaN = true := by
  refine ⟨fun datum => ?_, datum_of_isNaN⟩
  by_contra notNumber
  by_cases finite : x.isFinite = true
  · rw [datum_of_isFinite finite] at datum
    cases datum
  · rw [(datum_of_infinite notNumber finite).2] at datum
    cases datum

theorem value_inj : x.value = y.value ↔ x.signedUnits = y.signedUnits := by
  have positive : (one : ℚ) ≠ 0 := Nat.cast_ne_zero.2 one_pos.ne'
  rw [value, value, div_left_inj' positive, Int.cast_inj]

theorem value_eq_intCast {v : Int} : x.value = v ↔ x.signedUnits = v * one := by
  have positive : (one : ℚ) ≠ 0 := Nat.cast_ne_zero.2 one_pos.ne'
  rw [value, div_eq_iff positive]
  exact_mod_cast Iff.rfl

/-- The zeros, whatever their sign. -/
theorem datum_of_magnitude_eq_zero (h : x.magnitude = 0) : x.datum = .finite 0 := by
  have none : units 0 = 0 := by decide
  refine datum_eq_finite_iff.2 ⟨?_, by simp [value, signedUnits, h, none]⟩
  rw [isFinite_eq, h]
  decide

/-- Field values are equal exactly when they stand for the same. -/
theorem beq_iff_datum : (x == y) = true ↔ x.datum = y.datum := by
  constructor
  · intro same
    obtain rfl | ⟨hx, hy⟩ | ⟨hx, hy⟩ := beq_iff.1 same
    · rfl
    · rw [datum_of_isNaN hx, datum_of_isNaN hy]
    · rw [datum_of_magnitude_eq_zero hx, datum_of_magnitude_eq_zero hy]
  · intro same
    by_cases notNumber : x.isNaN = true
    · have other : y.isNaN = true := datum_eq_nan_iff.1 (same ▸ datum_of_isNaN notNumber)
      exact beq_iff.2 (.inr (.inl ⟨notNumber, other⟩))
    by_cases finite : x.isFinite = true
    · rw [datum_of_isFinite finite] at same
      obtain ⟨finite', value⟩ := datum_eq_finite_iff.1 same.symm
      exact (beq_iff_signedUnits finite finite').2 (value_inj.1 value.symm)
    · have notNumber' : ¬ y.isNaN = true := fun h =>
        notNumber (datum_eq_nan_iff.1 (same.trans (datum_of_isNaN h)))
      have finite' : ¬ y.isFinite = true := fun h =>
        finite (exists_datum_iff_isFinite.1 ⟨_, same.trans (datum_of_isFinite h)⟩)
      obtain ⟨size, datum⟩ := datum_of_infinite notNumber finite
      obtain ⟨size', datum'⟩ := datum_of_infinite notNumber' finite'
      have sign : x.negative = y.negative :=
        Datum.infinity.inj (datum.symm.trans (same.trans datum'))
      exact beq_iff.2 (.inl (eq_of_negative_of_magnitude sign (size.trans size'.symm)))

/-- Field values are equal when arithmetic has them equal, or neither is a number. -/
theorem beq_iff_ieeeEqual :
    (x == y) = true ↔ x.IeeeEqual y ∨ x.datum = .nan ∧ y.datum = .nan := by
  rw [beq_iff_datum, IeeeEqual]
  by_cases notNumber : x.datum = .nan
  · simp [notNumber, eq_comm]
  · simp [notNumber]

end Binary64
end TreeIndex
