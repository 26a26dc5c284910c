import Expansion.Number.Shortest

/-!
  Numbers of a document.

  Whole numbers written without fraction and exponent stay whole numbers; everything else is a
  binary floating-point number.  The two never mix: `1` and `1.0` differ, and each prints in its own
  form.  Documents hold whole numbers from `-2 ^ 63` up to, but not including, `2 ^ 64`.
-/

namespace Expansion

/-- A whole number or a finite floating-point number. -/
inductive Number
  | whole (n : Int)
  | real (x : Binary64)
  deriving DecidableEq, Repr, Inhabited

/-- How a floating-point number is written outside positional notation. -/
structure ExponentStyle where
  /-- A positive exponent carries a plus sign. -/
  plus : Bool
  deriving DecidableEq, Repr

namespace Binary64

/-- Numbers whose leading digit has an exponent in this range are written positionally. -/
def positional (lead : Int) : Bool := -5 ≤ lead && lead ≤ 15

/-- Digits written positionally, with at least one digit after the point. -/
def positionalText (d : Decimal) : List Char :=
  let digits := d.digitText
  let lead := d.leading
  if lead < 0 then
    '0' :: '.' :: List.replicate (-lead - 1).toNat '0' ++ digits
  else if 0 ≤ d.exponent then
    digits ++ List.replicate d.exponent.toNat '0' ++ ['.', '0']
  else
    let split := lead.toNat + 1
    digits.take split ++ '.' :: digits.drop split

/-- Digits written with one digit before the point and an exponent. -/
def scientificText (style : ExponentStyle) (d : Decimal) : List Char :=
  let mantissa :=
    match d.digitText with
    | [] => []
    | [digit] => [digit]
    | digit :: rest => digit :: '.' :: rest
  let lead := d.leading
  let sign := if lead < 0 then ['-'] else if style.plus then ['+'] else []
  mantissa ++ 'e' :: sign ++ Nat.toDigits 10 lead.natAbs

/-- The shortest text that reads back as `x`. -/
def text (style : ExponentStyle) (x : Binary64) : String :=
  let sign := if x.negative then ['-'] else []
  let d := x.shortest
  let body := if positional d.leading then positionalText d else scientificText style d
  String.ofList (sign ++ body)

end Binary64

namespace Number

/-- The whole numbers that documents hold. -/
def fits (n : Int) : Bool := -(Nat.pow 2 63 : Int) ≤ n && n < Nat.pow 2 64

/-- The decimal text of a number. -/
def text (style : ExponentStyle) : Number → String
  | whole n => toString n
  | real x => x.text style

end Number

end Expansion
