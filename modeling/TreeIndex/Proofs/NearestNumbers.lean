import TreeIndex.Proofs.NumberValues
import TreeIndex.Proofs.RoundTrip
import Mathlib.Algebra.Order.Field.Basic
import Mathlib.Order.Monotone.Basic
import Mathlib.Tactic.Linarith

/-!
# Integers as nearest numbers

Larger magnitudes have more units, so between the two magnitudes around an
integer there is no other, and rounding takes the closer of the two, or the even
one. Hence the conversion of an integer is the nearest of all finite numbers, it
is monotone, and it is exact up to `2 ^ 53`. Beyond, an integer is written in JSON
as the number that it is rounded to.
-/
namespace TreeIndex

/-- The quotient rounded: down, up, or at half way to the even neighbour. -/
theorem roundDiv_cases (num den : Nat) :
    (2 * (num % den) < den ∧ roundDiv num den = num / den) ∨
    (den < 2 * (num % den) ∧ roundDiv num den = num / den + 1) ∨
    (2 * (num % den) = den ∧ roundDiv num den = num / den + num / den % 2) := by
  unfold roundDiv
  dsimp only
  split
  · exact .inl ⟨‹_›, rfl⟩
  · split
    · exact .inr (.inl ⟨‹_›, rfl⟩)
    · exact .inr (.inr ⟨by omega, rfl⟩)

namespace Binary64

theorem units_strictMono : StrictMono units := by
  refine strictMono_nat_of_lt_succ fun m => ?_
  obtain ⟨e, q, rfl, low, high⟩ := exists_scale m
  have next : e = 0 ∨ binade ≤ q + 1 := low.imp_right fun large => by omega
  rw [units_scaled low (by omega), Nat.add_assoc, units_scaled next (by omega)]
  exact Nat.mul_lt_mul_of_pos_right (Nat.lt_succ_self q) (Nat.two_pow_pos e)

/-- The whole part of a number of units at the scale where it has 53 bits. -/
theorem significand_bounds (n : Nat) :
    (n.log2 - 52 = 0 ∨ binade ≤ n / 2 ^ (n.log2 - 52)) ∧
      n / 2 ^ (n.log2 - 52) < 2 * binade := by
  refine ⟨?_, significand_lt n⟩
  rcases Nat.lt_or_ge 52 n.log2 with large | small
  · right
    have positive : n ≠ 0 := by
      rintro rfl
      simp at large
    rw [Nat.le_div_iff_mul_le (Nat.two_pow_pos _), binade_eq, ← Nat.pow_add]
    calc 2 ^ (52 + (n.log2 - 52)) = 2 ^ n.log2 := by congr 1; omega
      _ ≤ n := Nat.log2_self_le positive
  · exact .inl (by omega)

/-- Any other magnitude is farther from a number of units than the one that it is rounded
to, or as far, and then that one is even. -/
theorem nearest_closest {n k : Nat} (finite : nearest n 1 < infinite) (other : k ≠ nearest n 1) :
    ((units (nearest n 1) : Int) - n).natAbs < ((units k : Int) - n).natAbs ∨
      ((units (nearest n 1) : Int) - n).natAbs = ((units k : Int) - n).natAbs ∧
        nearest n 1 % 2 = 0 := by
  obtain ⟨e, scale⟩ : ∃ e, n.log2 - 52 = e := ⟨_, rfl⟩
  have found : nearest n 1 = e * binade + roundDiv n (2 ^ e) := by
    simp only [nearest, Nat.div_one, scale, Nat.shiftLeft_eq, Nat.one_mul] at finite ⊢
    omega
  obtain ⟨low, high⟩ := significand_bounds n
  rw [scale] at low high
  have rest := Nat.mod_lt n (Nat.two_pow_pos e)
  have whole := Nat.div_add_mod' n (2 ^ e)
  have parity : e * binade % 2 = 0 :=
    Nat.mod_eq_zero_of_dvd (Dvd.dvd.mul_left (by decide) e)
  -- the magnitudes around the number of units, between which there is no other
  have lower : units (e * binade + n / 2 ^ e) = n / 2 ^ e * 2 ^ e := units_scaled low (by omega)
  have upper : units (e * binade + n / 2 ^ e + 1) = n / 2 ^ e * 2 ^ e + 2 ^ e := by
    rw [Nat.add_assoc, units_scaled (low.imp_right fun large => by omega) (by omega), Nat.succ_mul]
  have below := units_strictMono.le_iff_le (a := k) (b := e * binade + n / 2 ^ e)
  have farBelow := units_strictMono.lt_iff_lt (a := k) (b := e * binade + n / 2 ^ e)
  have above := units_strictMono.le_iff_le (a := e * binade + n / 2 ^ e + 1) (b := k)
  have farAbove := units_strictMono.lt_iff_lt (a := e * binade + n / 2 ^ e + 1) (b := k)
  rw [lower] at below farBelow
  rw [upper] at above farAbove
  obtain ⟨half, down⟩ | ⟨half, up⟩ | ⟨half, tie⟩ := roundDiv_cases n (2 ^ e)
  · rw [found, down] at other ⊢
    omega
  · rw [found, up, ← Nat.add_assoc] at other ⊢
    omega
  · rcases Nat.mod_two_eq_zero_or_one (n / 2 ^ e) with even | odd
    · rw [found, tie, even, Nat.add_zero] at other ⊢
      omega
    · rw [found, tie, odd, ← Nat.add_assoc] at other ⊢
      omega

/-- Rounding does not go below a magnitude that lies below. -/
theorem le_units_nearest {n k : Nat} (finite : nearest n 1 < infinite) (h : units k ≤ n) :
    units k ≤ units (nearest n 1) := by
  by_cases same : k = nearest n 1
  · rw [same]
  · have := nearest_closest finite same
    omega

/-- No finite number of another value is as close, unless it is one of two and this one
is even. -/
def IsNearest (x : Binary64) (a : ℚ) : Prop :=
  ∃ q, x.datum = .finite q ∧ ∀ (y : Binary64) (r : ℚ), y.datum = .finite r → r ≠ q →
    |q - a| < |r - a| ∨ |q - a| = |r - a| ∧ x.fraction % 2 = 0

variable {x y : Binary64} {a b : Int}

theorem fraction_mod_two (x : Binary64) : x.fraction % 2 = x.magnitude % 2 := by
  have even : x.exponent * binade % 2 = 0 :=
    Nat.mod_eq_zero_of_dvd (Dvd.dvd.mul_left (by decide) _)
  rw [magnitude_eq_fields]
  omega

theorem abs_value_sub (x : Binary64) (a : Int) :
    |x.value - a| = ((x.signedUnits - a * one).natAbs : ℚ) / one := by
  have positive : (0 : ℚ) < one := Nat.cast_pos.2 one_pos
  have common : x.value - a = ((x.signedUnits - a * one : Int) : ℚ) / one := by
    rw [value, Int.cast_sub, Int.cast_mul, Int.cast_natCast, sub_div,
      mul_div_cancel_right₀ _ positive.ne']
  rw [common, abs_div, abs_of_pos positive, Nat.cast_natAbs, Int.cast_abs]

theorem signedUnits_eq (x : Binary64) :
    x.signedUnits = units x.magnitude ∨ x.signedUnits = -(units x.magnitude : Int) := by
  unfold signedUnits
  cases x.negative
  · exact .inl rfl
  · exact .inr rfl

theorem signedUnits_ofInt (small : a.natAbs ≤ 2 ^ 64) :
    (ofInt a).signedUnits =
      if a < 0 then -(units (nearest (a.natAbs * one) 1) : Int)
      else units (nearest (a.natAbs * one) 1) := by
  rw [signedUnits, negative_ofInt small, magnitude_ofInt small]
  simp only [decide_eq_true_eq]

theorem intCast_mul_one (a : Int) :
    a * one = if a < 0 then -((a.natAbs * one : Nat) : Int) else (a.natAbs * one : Nat) := by
  split
  · rename_i negative
    rw [Int.natCast_mul, Int.ofNat_natAbs_of_nonpos (by omega), Int.neg_mul, Int.neg_neg]
  · rename_i positive
    rw [Int.natCast_mul, Int.natAbs_of_nonneg (by omega)]

/-- Counted in units, no other finite number is as close to an integer, unless it is one
of two. -/
theorem ofInt_closest (small : a.natAbs ≤ 2 ^ 64) (other : y.signedUnits ≠ (ofInt a).signedUnits) :
    ((ofInt a).signedUnits - a * one).natAbs < (y.signedUnits - a * one).natAbs ∨
      ((ofInt a).signedUnits - a * one).natAbs = (y.signedUnits - a * one).natAbs ∧
        (ofInt a).magnitude % 2 = 0 := by
  have nonzero : a ≠ 0 → 0 < a.natAbs * one := fun h => Nat.mul_pos (Int.natAbs_pos.2 h) one_pos
  have zero : a = 0 → units (nearest (a.natAbs * one) 1) = 0 := by
    rintro rfl
    decide
  have sign := y.signedUnits_eq
  have finite := nearest_lt_infinite small
  rw [signedUnits_ofInt small] at other ⊢
  rw [intCast_mul_one, magnitude_ofInt small]
  generalize a.natAbs * one = n at *
  by_cases same : y.magnitude = nearest n 1
  · -- the same size with the other sign, so neither is zero
    rw [same] at sign
    generalize units (nearest n 1) = size at *
    by_cases negative : a < 0
    · simp only [if_pos negative] at other ⊢
      omega
    · simp only [if_neg negative] at other ⊢
      omega
  · have closest := nearest_closest finite same
    generalize units (nearest n 1) = size at *
    generalize units y.magnitude = size' at *
    by_cases negative : a < 0
    · simp only [if_pos negative]
      omega
    · simp only [if_neg negative]
      omega

/-- The number that an integer is converted to is nearest to it. -/
theorem isNearest_ofInt (small : a.natAbs ≤ 2 ^ 64) : (ofInt a).IsNearest a := by
  refine ⟨_, datum_of_isFinite (isFinite_ofInt small), fun y r datum other => ?_⟩
  obtain ⟨_, rfl⟩ := datum_eq_finite_iff.1 datum
  have positive : (0 : ℚ) < one := Nat.cast_pos.2 one_pos
  rw [abs_value_sub, abs_value_sub, div_lt_div_iff_of_pos_right positive,
    div_left_inj' positive.ne', Nat.cast_lt, Nat.cast_inj, fraction_mod_two]
  exact ofInt_closest small (mt value_inj.2 other)

/-- Numbers nearest to different values are in the order of these. -/
theorem IsNearest.le_of_lt {c d q r : ℚ} (hx : x.IsNearest c) (hy : y.IsNearest d) (less : c < d)
    (left : x.datum = .finite q) (right : y.datum = .finite r) : q ≤ r := by
  obtain ⟨q', left', closest⟩ := hx
  obtain ⟨r', right', closest'⟩ := hy
  obtain rfl : q = q' := Datum.finite.inj (left.symm.trans left')
  obtain rfl : r = r' := Datum.finite.inj (right.symm.trans right')
  by_contra beyond
  have closer : |q - c| ≤ |r - c| :=
    (closest y r right (by linarith)).elim (fun less => less.le) fun tie => tie.1.le
  have closer' : |r - d| ≤ |q - d| :=
    (closest' x q left (by linarith)).elim (fun less => less.le) fun tie => tie.1.le
  -- the middle of the two values would lie neither above the one nor below the other
  have below : q + r ≤ 2 * c := by
    rcases abs_cases (q - c) with h | h <;> rcases abs_cases (r - c) with k | k <;> linarith
  have above : 2 * d ≤ q + r := by
    rcases abs_cases (r - d) with h | h <;> rcases abs_cases (q - d) with k | k <;> linarith
  linarith

theorem value_ofInt_mono (small : a.natAbs ≤ 2 ^ 64) (small' : b.natAbs ≤ 2 ^ 64) (h : a ≤ b) :
    (ofInt a).value ≤ (ofInt b).value := by
  obtain rfl | less := h.eq_or_lt
  · exact le_refl _
  · exact (isNearest_ofInt small).le_of_lt (isNearest_ofInt small') (Int.cast_lt.2 less)
      (datum_of_isFinite (isFinite_ofInt small)) (datum_of_isFinite (isFinite_ofInt small'))

theorem units_scale_two_pow_53 (k : Nat) : units ((k + 2) * binade + 0) = 2 ^ 53 * 1 <<< k := by
  rw [units_mul_binade_add (k + 1) 0 (by decide), Nat.one_shiftLeft, Nat.add_zero, binade_eq,
    ← Nat.pow_add, ← Nat.pow_add]
  congr 1
  omega

/-- The least integer that is not written as an integer is still a value of its own. -/
theorem exists_units_two_pow_53 : ∃ m < infinite, units m = 2 ^ 53 * one :=
  ⟨(1074 + 2) * binade + 0, by decide, units_scale_two_pow_53 1074⟩

theorem units_nearest_of_le {n : Nat} (h : n ≤ 2 ^ 53) :
    units (nearest (n * one) 1) = n * one := by
  obtain less | rfl := Nat.lt_or_eq_of_le h
  · exact units_nearest_mul_one less
  · obtain ⟨m, finite, same⟩ := exists_units_two_pow_53
    rw [← same, nearest_units finite]

theorem signedUnits_ofInt_of_le (h : a.natAbs ≤ 2 ^ 53) : (ofInt a).signedUnits = a * one := by
  rw [signedUnits_ofInt (by omega), units_nearest_of_le h, intCast_mul_one]

/-- Up to there different integers are different numbers. -/
theorem ofInt_inj (h : a.natAbs ≤ 2 ^ 53) (h' : b.natAbs ≤ 2 ^ 53)
    (same : (ofInt a == ofInt b) = true) : a = b := by
  rw [beq_iff_signedUnits (isFinite_ofInt (by omega)) (isFinite_ofInt (by omega)),
    signedUnits_ofInt_of_le h, signedUnits_ofInt_of_le h'] at same
  exact Int.eq_of_mul_eq_mul_right (by exact_mod_cast one_pos.ne') same

/-- Larger integers are not written as integers, whatever they are rounded to. -/
theorem toInt?_ofInt_of_le (small : a.natAbs ≤ 2 ^ 64) (large : 2 ^ 53 ≤ a.natAbs) :
    (ofInt a).toInt? = none := by
  refine Option.eq_none_iff_forall_not_mem.2 fun v exact => ?_
  obtain ⟨_, value, less⟩ := toInt?_eq_some.1 exact
  obtain ⟨m, _, same⟩ := exists_units_two_pow_53
  have below : units m ≤ a.natAbs * one := by
    rw [same]
    exact Nat.mul_le_mul_right one large
  have beyond := le_units_nearest (nearest_lt_infinite small) below
  have size : units (nearest (a.natAbs * one) 1) = v.natAbs * one := by
    rw [← magnitude_ofInt small, ← natAbs_signedUnits, value, Int.natAbs_mul, Int.natAbs_natCast]
  rw [same, size, Nat.mul_le_mul_right_iff one_pos] at beyond
  omega

theorem toInt?_eq_some_iff_datum {v : Int} :
    x.toInt? = some v ↔ x.datum = .finite v ∧ |v| < 2 ^ 53 := by
  rw [toInt?_eq_some, datum_eq_finite_iff, value_eq_intCast, and_assoc, Int.abs_eq_natAbs]
  exact and_congr_right fun _ => and_congr_right fun _ => by omega

end Binary64

/-- The integer has 64 bits, with a sign or without one. -/
def IsWord (a : Int) : Prop := -2 ^ 63 ≤ a ∧ a < 2 ^ 64

instance (a : Int) : Decidable (IsWord a) :=
  inferInstanceAs (Decidable (-2 ^ 63 ≤ a ∧ a < 2 ^ 64))

namespace Value

/-- An export is an integer exactly where the conversion to one answers. -/
theorem toJson_number_eq_int {x : Binary64} {v : Int} :
    (number x).toJson = .int v ↔ x.toInt? = some v := by
  rw [toJson, Json.int]
  cases exact : x.toInt? with
  | some w => simp [Json.ofBinary64_of_toInt? exact]
  | none =>
    by_cases finite : x.isFinite = true
    · simp [Json.ofBinary64_of_isFinite exact finite]
    · simp [Json.ofBinary64_of_not_isFinite finite]

theorem toJson_number_eq_null {x : Binary64} :
    (number x).toJson = .null ↔ ¬ x.isFinite = true := by
  refine ⟨fun null finite => ?_, Json.ofBinary64_of_not_isFinite⟩
  rw [toJson] at null
  cases exact : x.toInt? with
  | some w =>
    rw [Json.ofBinary64_of_toInt? exact] at null
    cases null
  | none =>
    rw [Json.ofBinary64_of_isFinite exact finite] at null
    cases null

/-- A number is read back as an equal value exactly if it is finite. -/
theorem ofJson_toJson_number (id : Nat) (x : Binary64) :
    (ofJson id (number x).toJson == number x) = x.isFinite := by
  rw [toJson, ← sameContent_ofBinary64 id x]
  cases ofJson id (Json.ofBinary64 x) <;> rfl

theorem toJson_ofInt_of_lt {a : Int} (small : |a| < 2 ^ 53) : (ofInt a).toJson = .int a := by
  rw [Int.abs_eq_natAbs] at small
  exact toJson_number_eq_int.2 (Binary64.toInt?_ofInt (by omega))

theorem toJson_ofInt_of_le {a : Int} (word : IsWord a) (large : 2 ^ 53 ≤ |a|) :
    ∃ finite, (ofInt a).toJson = .number (.float (.ofInt a) finite) := by
  obtain ⟨low, high⟩ := word
  rw [Int.abs_eq_natAbs] at large
  have small : a.natAbs ≤ 2 ^ 64 := by omega
  exact ⟨Binary64.isFinite_ofInt small, Json.ofBinary64_of_isFinite
    (Binary64.toInt?_ofInt_of_le small (by omega)) (Binary64.isFinite_ofInt small)⟩

/-- A number survives JSON exactly if it is finite, and is null otherwise; it is written as
an integer exactly where it is one below `2 ^ 53` in size. An integer of 64 bits is the same
number whether it comes from JSON or not, the nearest one to it: it is written as itself
below `2 ^ 53` in size and as that number from there on. The conversion keeps the order, and
up to `2 ^ 53` it keeps integers apart. -/
theorem numbers_survive_json :
    (∀ (x : Binary64) (id : Nat),
      ((ofJson id (number x).toJson == number x) = true ↔ ∃ q, x.datum = .finite q) ∧
      ((number x).toJson = .null ↔ ¬ ∃ q, x.datum = .finite q) ∧
      ∀ v : Int, (number x).toJson = .int v ↔ x.datum = .finite v ∧ |v| < 2 ^ 53) ∧
    (∀ (a : Int) (id : Nat), IsWord a →
      (ofInt a == ofJson id (.int a)) = true ∧ (Binary64.ofInt a).IsNearest a ∧
      ((ofInt a).toJson = .int a ↔ |a| < 2 ^ 53) ∧
      (2 ^ 53 ≤ |a| → ∃ finite, (ofInt a).toJson = .number (.float (.ofInt a) finite))) ∧
    (∀ a b : Int, IsWord a → IsWord b → a ≤ b →
      ∃ q r, (Binary64.ofInt a).datum = .finite q ∧ (Binary64.ofInt b).datum = .finite r ∧
        q ≤ r) ∧
    ∀ a b : Int, |a| ≤ 2 ^ 53 → |b| ≤ 2 ^ 53 → (ofInt a == ofInt b) = true → a = b := by
  refine ⟨fun x id => ⟨?_, ?_, fun v => ?_⟩, fun a id word => ⟨?_, ?_, ?_, ?_⟩,
    fun a b word word' less => ?_, fun a b small small' same => ?_⟩
  · rw [ofJson_toJson_number, Binary64.exists_datum_iff_isFinite]
  · rw [toJson_number_eq_null, Binary64.exists_datum_iff_isFinite]
  · rw [toJson_number_eq_int, Binary64.toInt?_eq_some_iff_datum]
  · exact BEq.rfl
  · exact Binary64.isNearest_ofInt (by unfold IsWord at word; omega)
  · refine ⟨fun same => ?_, toJson_ofInt_of_lt⟩
    by_contra large
    obtain ⟨finite, other⟩ := toJson_ofInt_of_le word (not_lt.1 large)
    rw [same] at other
    cases other
  · exact toJson_ofInt_of_le word
  · unfold IsWord at word word'
    have left := Binary64.isFinite_ofInt (v := a) (by omega)
    have right := Binary64.isFinite_ofInt (v := b) (by omega)
    exact ⟨_, _, Binary64.datum_of_isFinite left, Binary64.datum_of_isFinite right,
      Binary64.value_ofInt_mono (by omega) (by omega) less⟩
  · rw [Int.abs_eq_natAbs] at small small'
    exact Binary64.ofInt_inj (by omega) (by omega) same

/-- An integer half way between two numbers, and the last one up to which all are kept apart. -/
theorem numbers_survive_json_half :
    let half : Int := 2 ^ 53 + 1
    let last : Int := 2 ^ 53
    IsWord half ∧ IsWord (-half) ∧ -half ≤ half ∧ 2 ^ 53 ≤ |half| ∧ |last| ≤ 2 ^ 53 ∧
    (Binary64.ofInt half).IsNearest half ∧
    (∃ finite, (ofInt half).toJson = .number (.float (.ofInt half) finite)) ∧
    (∃ q r, (Binary64.ofInt (-half)).datum = .finite q ∧ (Binary64.ofInt half).datum = .finite r ∧
      q ≤ r) ∧
    ¬ (ofInt last == ofInt (-last)) = true := by
  intro half last
  have word : IsWord half := by decide
  have word' : IsWord (-half) := by decide
  have less : -half ≤ half := by decide
  have large : 2 ^ 53 ≤ |half| := by decide
  have small : |last| ≤ 2 ^ 53 := by decide
  obtain ⟨-, integers, ordered, apart⟩ := numbers_survive_json
  obtain ⟨-, nearest, -, float⟩ := integers half 0 word
  refine ⟨word, word', less, large, small, nearest, float large, ordered _ _ word' word less, ?_⟩
  intro same
  have equal : last = -last := apart last (-last) small (by decide) same
  revert equal
  decide

end Value
end TreeIndex
