/-!
# Binary64 numbers as bit patterns

A number is its 64-bit pattern. Below the sign bit the pattern is a natural
number, its magnitude, and larger magnitudes are larger values. Every finite
value is a whole number of units, one unit being `2 ^ -1074`; `units` counts
them exactly and `nearest` goes back, to the nearest magnitude, a tie going to
the even one. All arithmetic below is on natural numbers and integers.
-/
namespace TreeIndex

structure Binary64 where
  bits : UInt64
  deriving DecidableEq, Inhabited

/-- The integer nearest to `num / den`; a tie goes to the even neighbour. -/
def roundDiv (num den : Nat) : Nat :=
  let whole := num / den
  let twice := 2 * (num % den)
  if twice < den then whole
  else if den < twice then whole + 1
  else whole + whole % 2

namespace Binary64

/-- The weight of the sign bit, and the number of magnitudes. -/
def signBit : UInt64 := 0x8000000000000000

/-- The number of magnitudes between two powers of two. -/
def binade : Nat := 0x10000000000000

/-- The magnitude of the infinities; larger ones are not numbers. -/
def infinite : Nat := 2047 * binade

/-- The number of units in one. -/
def one : Nat := 1 <<< 1074

def negative (x : Binary64) : Bool := decide (signBit ≤ x.bits)

/-- The pattern without its sign bit. -/
def unsigned (x : Binary64) : UInt64 := x.bits &&& 0x7FFFFFFFFFFFFFFF

def magnitude (x : Binary64) : Nat := x.unsigned.toNat

/-- The pattern of positive infinity. -/
def infiniteBits : UInt64 := 0x7FF0000000000000

def isNaN (x : Binary64) : Bool := decide (infiniteBits < x.unsigned)

def isFinite (x : Binary64) : Bool := decide (x.unsigned < infiniteBits)

def ofMagnitude (negative : Bool) (m : Nat) : Binary64 :=
  ⟨if negative then signBit + UInt64.ofNat m else UInt64.ofNat m⟩

/-- The pattern that stands for all that are not numbers. -/
def nan : Binary64 := ofMagnitude false (infinite + binade / 2)

/-- The exact number of units that a magnitude stands for. -/
def units (m : Nat) : Nat :=
  if m < binade then m
  else (binade + m % binade) <<< (m / binade - 1)

/-- The magnitude nearest to `num / den` units, a tie going to the even
magnitude; from half a step above the largest finite value on, infinity. -/
def nearest (num den : Nat) : Nat :=
  let shift := (num / den).log2 - 52
  min (shift * binade + roundDiv num (den <<< shift)) infinite

/-- The number nearest to an integer. -/
def ofInt (n : Int) : Binary64 :=
  ofMagnitude (decide (n < 0)) (nearest (n.natAbs * one) 1)

/-- The number nearest to `digits * 10 ^ exponent`. Exponents far outside the
range are answered at once, without their powers of ten. -/
def ofDecimal (negative : Bool) (digits : Nat) (exponent : Int) : Binary64 :=
  let m :=
    if digits = 0 then 0
    else if 400 < exponent then infinite
    else if exponent + (digits.log2 + 1 : Nat) < -400 then 0
    else if exponent < 0 then nearest (digits * one) (Nat.pow 10 exponent.natAbs)
    else nearest (digits * Nat.pow 10 exponent.natAbs * one) 1
  ofMagnitude negative m

/-- The same value as a 32-bit pattern; that format's units are `2 ^ -149`. -/
def ofBinary32 (bits : UInt32) : Binary64 :=
  let negative := decide (0x80000000 ≤ bits.toNat)
  let m := bits.toNat % 0x80000000
  let step := 0x800000
  let count := if m < step then m else (step + m % step) <<< (m / step - 1)
  if 255 * step < m then nan
  else if m = 255 * step then ofMagnitude negative infinite
  else ofMagnitude negative (nearest (count <<< 925) 1)

/-- The signed number of units of a finite number. -/
def signedUnits (x : Binary64) : Int :=
  if x.negative then -(units x.magnitude : Int) else units x.magnitude

/-- The exact integer value, when there is one below `2 ^ 53` in size. -/
def toInt? (x : Binary64) : Option Int :=
  if x.isFinite ∧ units x.magnitude % one = 0 ∧ units x.magnitude / one < 0x20000000000000 then
    some (x.signedUnits / one)
  else none

/-- One pattern per class of equal numbers: all that are not numbers are one
class, and the two zeros are one class. -/
def canonical (x : Binary64) : UInt64 :=
  if x.isNaN then nan.bits
  else if x.unsigned = 0 then 0
  else x.bits

/-- Equality of field values: `-0` equals `0` and NaN equals itself. -/
def same (x y : Binary64) : Bool := x.canonical == y.canonical

/-- Ascending with the value on all that are numbers. -/
def rank (x : Binary64) : Int :=
  if x.negative then -(x.magnitude : Int) else x.magnitude

instance : BEq Binary64 := ⟨same⟩

instance : Hashable Binary64 := ⟨fun x => hash x.canonical⟩

theorem magnitude_eq (x : Binary64) : x.magnitude = x.bits.toNat % 0x8000000000000000 := by
  have low : (0x7FFFFFFFFFFFFFFF : UInt64).toNat = 2 ^ 63 - 1 := rfl
  simp only [magnitude, unsigned, UInt64.toNat_and, low]
  exact Nat.and_two_pow_sub_one_eq_mod x.bits.toNat 63

theorem isNaN_eq (x : Binary64) : x.isNaN = decide (infinite < x.magnitude) := by
  simp only [isNaN, UInt64.lt_iff_toNat_lt]
  rfl

theorem isFinite_eq (x : Binary64) : x.isFinite = decide (x.magnitude < infinite) := by
  simp only [isFinite, UInt64.lt_iff_toNat_lt]
  rfl

theorem beq_eq (x y : Binary64) : (x == y) = (x.canonical == y.canonical) := rfl

instance : EquivBEq Binary64 where
  rfl := by simp [beq_eq]
  symm h := by simp_all [beq_eq]
  trans h k := by simp_all [beq_eq]

instance : LawfulHashable Binary64 where
  hash_eq x y h := by
    have h' : x.canonical = y.canonical := by simpa [beq_eq] using h
    show hash x.canonical = hash y.canonical
    rw [h']

end Binary64
end TreeIndex
