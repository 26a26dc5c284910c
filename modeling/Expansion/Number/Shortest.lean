import Expansion.Number.Binary64

/-!
  The fewest decimal digits that read back as a given binary number.

  Every number stands for an interval of rationals that round to it; its ends belong to it when the
  mantissa is even.  For one digit, two digits, and so on, only the two neighbours of the number on
  that decimal grid need to be tried: the first grid with a neighbour in the interval gives the
  digits, the nearer neighbour wins, and an exact tie goes to the even digit.
-/

namespace Expansion

/-- A decimal `digits · 10 ^ exponent`. -/
structure Decimal where
  digits : Nat
  exponent : Int
  deriving DecidableEq, Repr, Inhabited

namespace Decimal

/-- The magnitude as a quotient of naturals. -/
def ratio (d : Decimal) : Nat × Nat :=
  if 0 ≤ d.exponent then (d.digits * Nat.pow 10 d.exponent.toNat, 1)
  else (d.digits, Nat.pow 10 (-d.exponent).toNat)

/-- Moves trailing zeros of the digits into the exponent; `steps` bounds their number. -/
def normalize : (steps : Nat) → Decimal → Decimal
  | 0, d => d
  | steps + 1, d =>
    if d.digits ≠ 0 ∧ d.digits % 10 = 0 then normalize steps ⟨d.digits / 10, d.exponent + 1⟩ else d

/-- The digits as text. -/
def digitText (d : Decimal) : List Char := Nat.toDigits 10 d.digits

/-- The exponent of the leading digit. -/
def leading (d : Decimal) : Int := d.exponent + d.digitText.length - 1

end Decimal

namespace Binary64

/-- The decimal exponent of the leading digit of `num / den`, for a positive quotient. -/
def leadingExponent (num den : Nat) : Int :=
  if den ≤ num then ((Nat.toDigits 10 (num / den)).length : Int) - 1
  else
    match (List.range 400).find? fun k => den ≤ num * Nat.pow 10 k with
    | some k => -(k : Int)
    | none => -400

/-- The interval of rationals that round to `x`, in units of a quarter of its last place: lower
and upper end. -/
def interval (x : Binary64) : Nat × Nat :=
  let low := if x.mantissa = Nat.pow 2 52 ∧ minExponent < x.exponent then 1 else 2
  (4 * x.mantissa - low, 4 * x.mantissa + 2)

/-- The decimal lies in the interval of `x`. -/
def readsBack (x : Binary64) (d : Decimal) : Bool :=
  let (num, den) := d.ratio
  let unit := x.exponent - 2
  -- `scaled` and `den'` put the decimal and the ends of the interval over one denominator.
  let scaled := if 0 ≤ unit then num else num * Nat.pow 2 (-unit).toNat
  let den' := if 0 ≤ unit then den * Nat.pow 2 unit.toNat else den
  let (lower, upper) := x.interval
  if x.mantissa % 2 = 0 then lower * den' ≤ scaled && scaled ≤ upper * den'
  else lower * den' < scaled && scaled < upper * den'

/-- The neighbour of `num / den` on the grid of `10 ^ unit` that reads back as `x`, the nearer one
if both do. -/
def onGrid (x : Binary64) (num den : Nat) (unit : Int) : Option Decimal :=
  let (n, d) :=
    if 0 ≤ unit then (num, den * Nat.pow 10 unit.toNat)
    else (num * Nat.pow 10 (-unit).toNat, den)
  let below : Decimal := ⟨n / d, unit⟩
  let above : Decimal := ⟨n / d + 1, unit⟩
  let twice := 2 * (n % d)
  match x.readsBack below, x.readsBack above with
  | true, true =>
    if twice < d then some below
    else if d < twice then some above
    else if below.digits % 2 = 0 then some below else some above
  | true, false => some below
  | false, true => some above
  | false, false => none

/-- The shortest decimal that reads back as the magnitude of `x`. -/
def shortest (x : Binary64) : Decimal :=
  if x.isZero then ⟨0, 0⟩
  else
    let (num, den) := x.ratio
    let lead := leadingExponent num den
    match (List.range 17).findSome? fun (n : Nat) => x.onGrid num den (lead - n) with
    | some d => d.normalize 20
    | none => ⟨x.mantissa, 0⟩

end Binary64

end Expansion
