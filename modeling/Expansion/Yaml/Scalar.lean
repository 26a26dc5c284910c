import Expansion.Number

/-!
  What a plain YAML scalar stands for.

  A plain scalar is null, a boolean, a whole number, a floating-point number, or else a text.  Whole
  numbers may have a sign and be written in base sixteen, eight or two; digits after a leading zero
  are not a number.  Floating-point numbers include the infinities and the undefined number.
-/

namespace Expansion.Yaml

/-- Numbers of a YAML document. -/
inductive Numeral
  | whole (n : Int)
  | real (x : Binary64)
  | infinite (negative : Bool)
  | undefined
  deriving DecidableEq, Repr, Inhabited

/-- Exponents carry no plus sign. -/
def exponentStyle : ExponentStyle := ⟨false⟩

/-- The text of a number. -/
def Numeral.text : Numeral → String
  | whole n => toString n
  | real x => x.text exponentStyle
  | infinite negative => if negative then "-.inf" else ".inf"
  | undefined => ".nan"

/-- What a plain scalar stands for. -/
inductive Resolved
  | null
  | boolean (b : Bool)
  | number (n : Numeral)
  | text
  deriving DecidableEq, Repr

/-- The value of a digit in a base. -/
def digit? (base : Nat) (c : Char) : Option Nat :=
  let value? :=
    if '0' ≤ c ∧ c ≤ '9' then some (c.toNat - '0'.toNat)
    else if 'a' ≤ c ∧ c ≤ 'f' then some (c.toNat - 'a'.toNat + 10)
    else if 'A' ≤ c ∧ c ≤ 'F' then some (c.toNat - 'A'.toNat + 10)
    else none
  value?.filter (· < base)

/-- The natural number that digits write in a base; there must be a digit. -/
def natural? (base : Nat) (digits : List Char) : Option Nat :=
  if digits.isEmpty then none
  else digits.foldlM (fun n c => (digit? base c).map (n * base + ·)) 0

/-- A sign in front, if any: whether it is a minus, and the rest. -/
def splitSign : List Char → Bool × List Char
  | '-' :: rest => (true, rest)
  | '+' :: rest => (false, rest)
  | rest => (false, rest)

/-- Digits after a leading zero. -/
def isPaddedDigits (text : List Char) : Bool :=
  match (splitSign text).2 with
  | '0' :: c :: rest => (c :: rest).all fun c => (digit? 10 c).isSome
  | _ => false

/-- The whole number that a text writes, if it fits 128 bits. -/
def whole? (text : List Char) : Option Int := do
  let (negative, body) := splitSign text
  let n ←
    match body with
    | '0' :: 'x' :: digits => natural? 16 digits
    | '0' :: 'o' :: digits => natural? 8 digits
    | '0' :: 'b' :: digits => natural? 2 digits
    | digits => if isPaddedDigits text then none else natural? 10 digits
  if negative then
    if n ≤ Nat.pow 2 127 then some (-(n : Int)) else none
  else if n < Nat.pow 2 128 then some (n : Int) else none

/-- The finite number that a decimal writes: digits, perhaps a point among them, perhaps an
exponent. -/
def decimal? (text : List Char) : Option Binary64 := do
  let (negative, body) := splitSign text
  let isDigit := fun c => (digit? 10 c).isSome
  let digits := body.takeWhile isDigit
  let rest := body.dropWhile isDigit
  let (fraction, rest) :=
    match rest with
    | '.' :: rest => (rest.takeWhile isDigit, rest.dropWhile isDigit)
    | _ => ([], rest)
  let significand ← natural? 10 (digits ++ fraction)
  let exponent ←
    match rest with
    | [] => some 0
    | 'e' :: rest | 'E' :: rest => do
      let (down, digits) := splitSign rest
      let n ← natural? 10 digits
      some (if down then -(n : Int) else n)
    | _ => none
  let scale := exponent - fraction.length
  let lead : Int := scale + (Nat.toDigits 10 significand).length
  if significand = 0 ∨ lead < -400 then some (Binary64.zero negative)
  else if 400 < lead then none
  else Binary64.ofDecimal negative significand scale

/-- The floating-point number that a text writes. -/
def real? (text : List Char) : Option Numeral :=
  let infinities := [".inf".toList, ".Inf".toList, ".INF".toList]
  let undefineds := [".nan".toList, ".NaN".toList, ".NAN".toList]
  match text with
  | '+' :: '+' :: _ | '+' :: '-' :: _ => none
  | _ =>
    let (negative, body) := splitSign text
    if infinities.contains body then some (.infinite negative)
    else if undefineds.contains text then some .undefined
    else (decimal? text).map .real

/-- The ways to write null. -/
def isNull (text : String) : Bool := ["null", "Null", "NULL", "~"].contains text

/-- The ways to write a truth value. -/
def boolean? (text : String) : Option Bool :=
  if ["true", "True", "TRUE"].contains text then some true
  else if ["false", "False", "FALSE"].contains text then some false
  else none

/-- What a plain scalar stands for. -/
def resolve (text : String) : Resolved :=
  let chars := text.toList
  if text = "" || isNull text then .null
  else
    match boolean? text with
    | some b => .boolean b
    | none =>
      match whole? chars with
      | some n => .number (.whole n)
      | none =>
        if isPaddedDigits chars then .text
        else
          match real? chars with
          | some n => .number n
          | none => .text

/-- A text that would not read back as itself if it were written plainly. -/
def isAmbiguous (text : String) : Bool :=
  isPaddedDigits text.toList || resolve text != .text

end Expansion.Yaml
