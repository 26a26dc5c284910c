import Expansion.Number

/-!
  Words, texts and numbers of JSON.

  Input is a list of octets.  A reader returns what it read and the octets after it, or the first
  fault.  A text literal is decoded as UTF-8 when its closing quote is reached.  A number without
  fraction and exponent is whole if it fits; any other number gathers a significand of at most
  64 bits, drops the digits beyond it, and scales it by a power of ten with one multiplication or
  division.
-/

namespace Expansion.Json

/-- Why an input is refused. -/
inductive Fault
  /-- The input ends too early. -/
  | truncated
  /-- The input is not JSON. -/
  | malformed
  /-- The input is JSON, but not of the form asked for. -/
  | mismatched
  deriving DecidableEq, Repr

/-- Blank octets: space, tab, line feed and carriage return. -/
def isBlank (b : UInt8) : Bool := b == 0x20 || b == 0x09 || b == 0x0a || b == 0x0d

/-- The input from its first octet that is not blank. -/
def skipBlank (input : List UInt8) : List UInt8 := input.dropWhile isBlank

/-- The octets after `word`, which must come first. -/
def readWord : (word : List UInt8) → List UInt8 → Except Fault (List UInt8)
  | [], input => .ok input
  | _ :: _, [] => .error .truncated
  | w :: word, b :: rest => if b = w then readWord word rest else .error .malformed

/-! ## Texts -/

/-- The value of a hexadecimal digit. -/
def hexDigit? (b : UInt8) : Option Nat :=
  if 0x30 ≤ b && b ≤ 0x39 then some (b.toNat - 0x30)
  else if 0x61 ≤ b && b ≤ 0x66 then some (b.toNat - 0x61 + 10)
  else if 0x41 ≤ b && b ≤ 0x46 then some (b.toNat - 0x41 + 10)
  else none

/-- The value of four hexadecimal digits. -/
def hexUnit? (a b c d : UInt8) : Option Nat := do
  let a ← hexDigit? a
  let b ← hexDigit? b
  let c ← hexDigit? c
  let d ← hexDigit? d
  return ((a * 16 + b) * 16 + c) * 16 + d

/-- The octet that a letter stands for after a backslash. -/
def escaped? (letter : UInt8) : Option UInt8 :=
  match letter with
  | 0x22 => some 0x22
  | 0x5c => some 0x5c
  | 0x2f => some 0x2f
  | 0x62 => some 0x08
  | 0x66 => some 0x0c
  | 0x6e => some 0x0a
  | 0x72 => some 0x0d
  | 0x74 => some 0x09
  | _ => none

/-- Appends a character in UTF-8. -/
def pushChar (octets : ByteArray) (code : Nat) : ByteArray :=
  octets ++ (String.singleton (Char.ofNat code)).toUTF8

/-- Reads a text from after its opening quote; `done` holds the octets read so far. -/
def readText (done : ByteArray) : List UInt8 → Except Fault (String × List UInt8)
  | [] => .error .truncated
  | b :: rest =>
    if b = 0x22 then
      match String.fromUTF8? done with
      | some text => .ok (text, rest)
      | none => .error .malformed
    else if b < 0x20 then .error .malformed
    else if b ≠ 0x5c then readText (done.push b) rest
    else
      match rest with
      | [] => .error .truncated
      | letter :: rest =>
        if letter = 0x75 then
          match rest with
          | a :: b :: c :: d :: rest =>
            match hexUnit? a b c d with
            | none => .error .malformed
            | some unit =>
              if 0xdc00 ≤ unit ∧ unit ≤ 0xdfff then .error .malformed
              else if unit < 0xd800 ∨ 0xdbff < unit then readText (pushChar done unit) rest
              else
                -- The leading half of a pair: the trailing half must follow, escaped too.
                match rest with
                | [] => .error .truncated
                | [b] => if b = 0x5c then .error .truncated else .error .malformed
                | b :: u :: rest =>
                  if b ≠ 0x5c ∨ u ≠ 0x75 then .error .malformed
                  else
                    match rest with
                    | a :: b :: c :: d :: rest =>
                      match hexUnit? a b c d with
                      | none => .error .malformed
                      | some low =>
                        if low < 0xdc00 ∨ 0xdfff < low then .error .malformed
                        else
                          let code := 0x10000 + (unit - 0xd800) * 0x400 + (low - 0xdc00)
                          readText (pushChar done code) rest
                    | _ => .error .truncated
          | _ => .error .truncated
        else
          match escaped? letter with
          | some octet => readText (done.push octet) rest
          | none => .error .malformed

/-- The octets after a text, from after its opening quote, without decoding it. -/
def skipText : List UInt8 → Except Fault (List UInt8)
  | [] => .error .truncated
  | b :: rest =>
    if b = 0x22 then .ok rest
    else if b < 0x20 then .error .malformed
    else if b ≠ 0x5c then skipText rest
    else
      match rest with
      | [] => .error .truncated
      | letter :: rest =>
        if letter = 0x75 then
          match rest with
          | a :: b :: c :: d :: rest =>
            if (hexUnit? a b c d).isSome then skipText rest else .error .malformed
          | _ => .error .truncated
        else if (escaped? letter).isSome then skipText rest
        else .error .malformed

/-! ## Numbers -/

/-- Decimal digits. -/
def isDigit (b : UInt8) : Bool := 0x30 ≤ b && b ≤ 0x39

/-- The leading digits, and the rest. -/
def spanDigits (input : List UInt8) : List Nat × List UInt8 :=
  ((input.takeWhile isDigit).map fun b => b.toNat - 0x30, input.dropWhile isDigit)

/-- The parts of a number as written. -/
structure NumberLiteral where
  negative : Bool
  digits : List Nat
  fraction : Option (List Nat)
  /-- The exponent's sign and digits. -/
  exponent : Option (Bool × List Nat)
  deriving Repr

/-- The fault at a place where a digit is missing. -/
def missingDigit (input : List UInt8) : Fault :=
  if input.isEmpty then .truncated else .malformed

/-- Reads the parts of a number. -/
def readLiteral (input : List UInt8) : Except Fault (NumberLiteral × List UInt8) := do
  let (negative, input) :=
    match input with
    | 0x2d :: rest => (true, rest)
    | _ => (false, input)
  let (digits, rest) := spanDigits input
  if digits.isEmpty then throw (missingDigit rest)
  if digits.head? = some 0 ∧ 1 < digits.length then throw .malformed
  let (fraction, rest) ←
    match rest with
    | 0x2e :: rest =>
      let (digits, rest) := spanDigits rest
      if digits.isEmpty then throw (missingDigit rest)
      pure (some digits, rest)
    | _ => pure (none, rest)
  let (exponent, rest) ←
    match rest with
    | 0x65 :: rest | 0x45 :: rest =>
      let (down, rest) :=
        match rest with
        | 0x2b :: rest => (false, rest)
        | 0x2d :: rest => (true, rest)
        | _ => (false, rest)
      let (digits, rest) := spanDigits rest
      if digits.isEmpty then throw (missingDigit rest)
      pure (some (down, digits), rest)
    | _ => pure (none, rest)
  return (⟨negative, digits, fraction, exponent⟩, rest)

/-- Appends digits to a significand while it stays below `2 ^ 64`; the digits left over follow. -/
def gather (significand : Nat) : List Nat → Nat × List Nat
  | [] => (significand, [])
  | d :: rest =>
    if significand * 10 + d < Nat.pow 2 64 then gather (significand * 10 + d) rest
    else (significand, d :: rest)

/-- The significand scaled by a power of ten, with one rounding each for the significand, the
power and the product or quotient; a power below `10 ^ -308` is divided out in two steps. -/
def scaled (negative : Bool) (significand : Nat) (exponent : Int) : Option Binary64 := do
  let start ← Binary64.ofNat negative significand
  if 0 ≤ exponent then
    if start.isZero then return start
    if 308 < exponent then none
    start.mul (← Binary64.pow10 exponent.toNat)
  else if -308 ≤ exponent then
    start.div (← Binary64.pow10 (-exponent).toNat)
  else
    let lower ← start.div (← Binary64.pow10 308)
    if -616 ≤ exponent then lower.div (← Binary64.pow10 (-exponent - 308).toNat)
    else return Binary64.zero negative

/-- The value of the digits of an exponent. -/
def exponentValue (digits : List Nat) : Nat := (gather 0 digits).1

/-- The number that a literal stands for; `none` if it is too great. -/
def NumberLiteral.number? (literal : NumberLiteral) : Option Number :=
  let (significand, excess) := gather 0 literal.digits
  match literal.fraction, literal.exponent with
  | none, none =>
    let n : Int := if literal.negative then -(significand : Int) else significand
    -- Zero with a sign, and whole numbers that do not fit, are floating-point numbers.
    if excess.isEmpty ∧ Number.fits n ∧ ¬(literal.negative ∧ significand = 0) then some (.whole n)
    else (scaled literal.negative significand excess.length).map .real
  | fraction, exponent =>
    let digits := fraction.getD []
    let (significand, dropped) := gather significand digits
    let start : Int := excess.length - (digits.length - dropped.length : Nat)
    match exponent with
    | none => (scaled literal.negative significand start).map .real
    | some (down, digits) =>
      let shift := exponentValue digits
      if Nat.pow 2 31 ≤ shift then
        if significand = 0 ∨ down then some (.real (Binary64.zero literal.negative)) else none
      else
        let exponent := if down then start - shift else start + shift
        (scaled literal.negative significand exponent).map .real

/-- Reads a number. -/
def readNumber (input : List UInt8) : Except Fault (Number × List UInt8) := do
  let (literal, rest) ← readLiteral input
  match literal.number? with
  | some number => return (number, rest)
  | none => throw .malformed

/-- The octets after a number, of any magnitude; every fault in it is one of form. -/
def skipNumber (input : List UInt8) : Except Fault (List UInt8) :=
  match readLiteral input with
  | .ok (_, rest) => .ok rest
  | .error _ => .error .malformed

end Expansion.Json
