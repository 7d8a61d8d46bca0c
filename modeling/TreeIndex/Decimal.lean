import TreeIndex.Binary64

/-!
# Decimal text of a number

`shortest` finds the decimal with the fewest digits that reads back as a given
magnitude, and of those the one nearest to it. It works in units on an exact
interval: the reals that round to a magnitude lie between the midpoints to its
neighbours, ends included when the magnitude is even. The two layouts in use
are records of the decisions that are left: where positional writing ends,
whether an exponent has a plus sign, and which neighbour a tie goes to.
-/
namespace TreeIndex

/-- The value `digits * 10 ^ exponent`. -/
structure Decimal where
  digits : Nat
  exponent : Int
  deriving DecidableEq, Repr

/-- Which of two equally near decimals is written. -/
inductive DecimalTie where
  | even
  | up
  deriving DecidableEq, Repr

namespace Decimal

/-- A grid of decimals with one exponent, scaled to integers: the point `k` is
`k * den` where the units of a magnitude are multiplied by `scale`. -/
structure Grid where
  exponent : Int
  scale : Nat
  den : Nat

def Grid.ofExponent (p : Int) : Grid where
  exponent := p
  scale := Nat.pow 10 (-p).toNat
  den := Nat.pow 10 p.toNat * Binary64.one

/-- Whether the point rounds to the magnitude; both ends are doubled, as they
are midpoints. -/
def Grid.readsAs (g : Grid) (m k : Nat) : Bool :=
  let low := (Binary64.units (m - 1) + Binary64.units m) * g.scale
  let high := (Binary64.units m + Binary64.units (m + 1)) * g.scale
  let point := 2 * k * g.den
  if m % 2 = 0 then low ≤ point && point ≤ high
  else low < point && point < high

/-- The nearer of the two neighbours `k` and `k + 1` of the magnitude on the
grid. -/
def Grid.nearer (g : Grid) (tie : DecimalTie) (m k : Nat) : Nat :=
  let twice := 2 * Binary64.units m * g.scale
  let middle := (2 * k + 1) * g.den
  if twice < middle then k
  else if middle < twice then k + 1
  else match tie with
    | .up => k + 1
    | .even => k + k % 2

/-- The point of the grid to be written for the magnitude, if one reads back. -/
def Grid.point? (g : Grid) (tie : DecimalTie) (m : Nat) : Option Nat :=
  let k := Binary64.units m * g.scale / g.den
  match g.readsAs m k, g.readsAs m (k + 1) with
  | true, true => some (g.nearer tie m k)
  | true, false => some k
  | false, true => some (k + 1)
  | false, false => none

/-- The first grid with a point that reads back, each ten times finer than the
one before. -/
def search (tie : DecimalTie) (m : Nat) : Nat → Int → Option Decimal
  | 0, _ => none
  | tries + 1, p =>
    match (Grid.ofExponent p).point? tie m with
    | some k => some ⟨k, p⟩
    | none => search tie m tries (p - 1)

/-- Moves the trailing zeros of the digits into the exponent. -/
def normalize : Nat → Decimal → Decimal
  | 0, d => d
  | tries + 1, d =>
    if d.digits ≠ 0 ∧ d.digits % 10 = 0 then normalize tries ⟨d.digits / 10, d.exponent + 1⟩
    else d

/-- The shortest decimal of a nonzero finite magnitude. The first grid tried is
coarser than the magnitude, the last has more than seventeen digits, which are
always enough; the units themselves stand in for a search that fails. -/
def shortest (tie : DecimalTie) (m : Nat) : Decimal :=
  let log : Int := ((Binary64.units m).log2 : Int) - 1074
  let start := log * 30103 / 100000 + 2
  normalize 20 ((search tie m 22 start).getD ⟨Binary64.units m * Nat.pow 5 1074, -1074⟩)

/-- How a number is laid out: the powers of ten of the leading digit that are
written positionally, the sign of the other exponents that are not negative, and
the tie rule. -/
structure Layout where
  lowest : Int
  highest : Int
  plus : String
  tie : DecimalTie

/-- Positional from `1e-4` up to below `1e16`, then `1e16`; a tie goes up. -/
def debugging : Layout := ⟨-4, 15, "", .up⟩

/-- Positional from `1e-5` up to below `1e16`, then `1e+16`; a tie goes to the
even digit. -/
def interchange : Layout := ⟨-5, 15, "+", .even⟩

private def zeros (n : Nat) : String := String.ofList (List.replicate n '0')

/-- Positional writing has at least one digit on each side of the point. -/
def positional (d : Decimal) : String :=
  let text := toString d.digits
  if 0 ≤ d.exponent then text ++ zeros d.exponent.toNat ++ ".0"
  else
    let places := d.exponent.natAbs
    if text.length ≤ places then "0." ++ zeros (places - text.length) ++ text
    else
      let whole := text.length - places
      String.ofList (text.toList.take whole) ++ "." ++ String.ofList (text.toList.drop whole)

/-- One digit before the point, and no point without a digit after it. -/
def Layout.scientific (layout : Layout) (d : Decimal) : String :=
  let text := (toString d.digits).toList
  let mantissa := match text with
    | [] => ""
    | [c] => String.ofList [c]
    | c :: rest => String.ofList (c :: '.' :: rest)
  let exponent := d.exponent + (text.length - 1 : Nat)
  let sign := if exponent < 0 then "-" else layout.plus
  mantissa ++ "e" ++ sign ++ toString exponent.natAbs

/-- The text of a magnitude below infinity. -/
def Layout.magnitudeText (layout : Layout) (m : Nat) : String :=
  if m = 0 then "0.0"
  else
    let d := shortest layout.tie m
    let leading := d.exponent + ((toString d.digits).length - 1 : Nat)
    if layout.lowest ≤ leading ∧ leading ≤ layout.highest then d.positional
    else layout.scientific d

/-- The text of any number. -/
def Layout.text (layout : Layout) (x : Binary64) : String :=
  if x.isNaN then "NaN"
  else
    let sign := if x.negative then "-" else ""
    sign ++ if x.isFinite then layout.magnitudeText x.magnitude else "inf"

end Decimal
end TreeIndex
