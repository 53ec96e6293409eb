import Sigil.Text.Numeral

/-! # What a plain scalar would be read as

    A YAML text without quotes is not always read back as a text: some
    words stand for the null value or a truth value, and what looks like a
    number is one.  `isResolved` tells the texts for which that is so.

    Numbers are integers with a base mark, of 128 bits; decimals, with or
    without point and exponent, that a double can hold without overflow;
    and the named values that are infinite or no number.  Digits after a
    leading zero count as a number too. -/

namespace Sigil.Doc.Yaml

/-! ### Words -/

/-- The words that stand for the null value or a truth value. -/
def words : List String :=
  ["null", "Null", "NULL", "~",
   "true", "True", "TRUE", "false", "False", "FALSE"]

/-- The words for infinity, which may have a sign. -/
def infinities : List String :=
  [".inf", ".Inf", ".INF"]

/-- The words for what is no number. -/
def notNumbers : List String :=
  [".nan", ".NaN", ".NAN"]

/-! ### Integers with a base mark -/

/-- The base that a mark after a leading zero stands for. -/
def base? : Char → Option Nat
  | 'x' => some 16
  | 'o' => some 8
  | 'b' => some 2
  | _ => none

/-- Is this an integer with a base mark, at most `bound`? -/
def isMarkedNumeral (bound : Nat) : List Char → Bool
  | '0' :: mark :: digits =>
    match base? mark with
    | none => false
    | some base =>
      !digits.isEmpty && ((Text.numeral? base digits).any fun value => value ≤ bound)
  | _ => false

/-- The greatest magnitude of a negative integer of 128 bits. -/
def maxNegative : Nat := Nat.pow 2 127

/-- The greatest integer of 128 bits without a sign bit. -/
def maxUnsigned : Nat := Nat.pow 2 128 - 1

/-- Is this an integer with a base mark, signed or not, of 128 bits? -/
def isInteger : List Char → Bool
  | '-' :: cs => isMarkedNumeral maxNegative cs
  | '+' :: cs => isMarkedNumeral maxUnsigned cs
  | cs => isMarkedNumeral maxUnsigned cs

/-! ### Decimals -/

/-- A decimal number `mantissa · 10 ^ exponent`. -/
structure Decimal where
  mantissa : Nat
  exponent : Int

namespace Decimal

/-- The least magnitude that leaves the range of doubles when it is rounded to
the nearest one: the middle between the largest double and the next power of
two. -/
def overflow : Nat := Nat.pow 2 1024 - Nat.pow 2 970

/-- Does the number stay in the range of doubles when it is rounded?  Powers of
ten beyond those of the limit itself are not computed. -/
def isFinite (d : Decimal) : Bool :=
  let length : Int := (Nat.repr d.mantissa).length
  d.mantissa == 0 || length + d.exponent ≤ 308
    || (length + d.exponent == 309
      && d.mantissa * Nat.pow 10 d.exponent.toNat
        < overflow * Nat.pow 10 (-d.exponent).toNat)

/-- The exponent that is written after a mantissa, 0 if there is none. -/
def exponent? : List Char → Option Int
  | [] => some 0
  | mark :: cs =>
    if mark = 'e' ∨ mark = 'E' then
      match cs with
      | [] => none
      | '-' :: c :: cs => (Text.numeral? 10 (c :: cs)).map fun n => -(n : Int)
      | '+' :: c :: cs => (Text.numeral? 10 (c :: cs)).map fun n => (n : Int)
      | c :: cs => (Text.numeral? 10 (c :: cs)).map fun n => (n : Int)
    else none

/-- The decimal that a text without sign is: digits, with a point somewhere
among or beside them or without one, and possibly an exponent. -/
def read? (cs : List Char) : Option Decimal := do
  let whole := cs.takeWhile Char.isDigit
  let afterWhole := cs.dropWhile Char.isDigit
  let (fraction, afterFraction) :=
    match afterWhole with
    | '.' :: r => (r.takeWhile Char.isDigit, r.dropWhile Char.isDigit)
    | r => ([], r)
  guard !(whole ++ fraction).isEmpty
  let exponent ← exponent? afterFraction
  let mantissa ← Text.numeral? 10 (whole ++ fraction)
  pure ⟨mantissa, exponent - fraction.length⟩

end Decimal

/-- Is this a finite decimal, signed or not? -/
def isDecimal : List Char → Bool
  | '-' :: cs | '+' :: cs => (Decimal.read? cs).any Decimal.isFinite
  | cs => (Decimal.read? cs).any Decimal.isFinite

/-- Is this a zero with at least one digit after it and digits only, signed or
not? -/
def isZeroPadded (cs : List Char) : Bool :=
  let unsigned :=
    match cs with
    | '-' :: r | '+' :: r => r
    | r => r
  match unsigned with
  | '0' :: c :: r => (c :: r).all Char.isDigit
  | _ => false

/-! ### All together -/

/-- Would the text, written without quotes, be read as something else than
itself? -/
def isResolved (s : String) : Bool :=
  s.isEmpty || words.contains s || notNumbers.contains s
    || infinities.any (fun w => s == w || s == "+" ++ w || s == "-" ++ w)
    || isInteger s.toList || isDecimal s.toList || isZeroPadded s.toList

end Sigil.Doc.Yaml
