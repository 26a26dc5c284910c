/-!
  Finite binary floating-point numbers of 64 bits, as exact dyadic rationals.

  A number is `± mantissa · 2 ^ exponent`.  `ofRatio` rounds a quotient of naturals to the nearest
  number whose mantissa has 53 bits, or fewer at the least exponent, ties to the even mantissa;
  every other operation is one exact quotient followed by that rounding.  So a value has one
  representation (the two zeros apart).
-/

namespace Expansion

/-- A finite number `± mantissa · 2 ^ exponent`. -/
structure Binary64 where
  negative : Bool
  mantissa : Nat
  exponent : Int
  deriving DecidableEq, Repr, Inhabited

namespace Binary64

/-- The least exponent, that of the numbers with fewer than 53 bits. -/
def minExponent : Int := -1074

/-- The greatest exponent. -/
def maxExponent : Int := 971

/-- Zero with a sign. -/
def zero (negative : Bool) : Binary64 := ⟨negative, 0, minExponent⟩

/-- Both zeros. -/
def isZero (x : Binary64) : Bool := x.mantissa == 0

/-- The quotient rounded to the nearest natural, a half to the even one. -/
def roundHalfEven (num den : Nat) : Nat :=
  let quotient := num / den
  let twice := 2 * (num % den)
  if den < twice || (den == twice && quotient % 2 == 1) then quotient + 1 else quotient

/-- The magnitude as a quotient of naturals. -/
def ratio (x : Binary64) : Nat × Nat :=
  if 0 ≤ x.exponent then (x.mantissa * Nat.pow 2 x.exponent.toNat, 1)
  else (x.mantissa, Nat.pow 2 (-x.exponent).toNat)

/-- Rounding in the grid of multiples of `2 ^ exponent`, with the carry into the next binade;
`none` beyond the greatest number. -/
def roundAt (negative : Bool) (num den : Nat) (exponent : Int) : Option Binary64 :=
  let mantissa :=
    if 0 ≤ exponent then roundHalfEven num (den * Nat.pow 2 exponent.toNat)
    else roundHalfEven (num * Nat.pow 2 (-exponent).toNat) den
  let rounded : Binary64 :=
    if mantissa = Nat.pow 2 53 then ⟨negative, Nat.pow 2 52, exponent + 1⟩
    else ⟨negative, mantissa, exponent⟩
  if maxExponent < rounded.exponent then none else some rounded

/-- The number nearest to `± num / den`, ties to the even mantissa; `none` when the magnitude
rounds beyond the greatest number. -/
def ofRatio (negative : Bool) (num den : Nat) : Option Binary64 :=
  if num = 0 then some (zero negative)
  else
    -- The quotient lies between `2 ^ 51` and `2 ^ 53` units of `2 ^ guess`.
    let guess : Int := (num.log2 : Int) - den.log2 - 52
    let low : Bool :=
      if 0 ≤ guess then num < Nat.pow 2 52 * (den * Nat.pow 2 guess.toNat)
      else num * Nat.pow 2 (-guess).toNat < Nat.pow 2 52 * den
    let exponent := if low then guess - 1 else guess
    roundAt negative num den (max exponent minExponent)

/-- The number nearest to a natural. -/
def ofNat (negative : Bool) (n : Nat) : Option Binary64 :=
  ofRatio negative n 1

/-- The product, rounded. -/
def mul (x y : Binary64) : Option Binary64 :=
  ofRatio (x.negative != y.negative) (x.ratio.1 * y.ratio.1) (x.ratio.2 * y.ratio.2)

/-- The quotient by a number that is not zero, rounded. -/
def div (x y : Binary64) : Option Binary64 :=
  ofRatio (x.negative != y.negative) (x.ratio.1 * y.ratio.2) (x.ratio.2 * y.ratio.1)

/-- The number nearest to `10 ^ k`, defined up to `k = 308`. -/
def pow10 (k : Nat) : Option Binary64 :=
  ofNat false (Nat.pow 10 k)

/-- The number nearest to `± significand · 10 ^ exponent`. -/
def ofDecimal (negative : Bool) (significand : Nat) (exponent : Int) : Option Binary64 :=
  if 0 ≤ exponent then ofRatio negative (significand * Nat.pow 10 exponent.toNat) 1
  else ofRatio negative significand (Nat.pow 10 (-exponent).toNat)

end Binary64

end Expansion
