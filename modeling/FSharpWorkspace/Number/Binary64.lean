/-!
# Binary floating point with 53 bits

A non-negative number of the format is `m · 2 ^ e` with `m < 2 ^ 53` and `-1074 ≤ e ≤ 971`, or
infinite. All arithmetic is exact on natural numbers and rounded once, half to even. `shortest`
finds the decimal with the fewest digits that rounds back to a number, and of those the nearest.
-/

set_option autoImplicit false

namespace FSharpWorkspace

/-- A non-negative binary floating-point number. -/
inductive Magnitude where
  | finite (mantissa : Nat) (exponent : Int)
  | infinite
deriving DecidableEq, Repr

namespace Magnitude

/-! ## Rounding -/

/-- The nearest natural number to `num / den`, a half going to the even neighbour. -/
def roundHalfEven (num den : Nat) : Nat :=
  let q := num / den
  let twice := 2 * (num % den)
  if twice < den then q else if den < twice then q + 1 else q + q % 2

/-- `num / den` divided by a power of two, as a fraction. -/
def scale (num den : Nat) (e : Int) : Nat × Nat :=
  if e ≥ 0 then (num, den * Nat.pow 2 e.toNat) else (num * Nat.pow 2 (-e).toNat, den)

/-- The exponent with which `num / den` has 53 bits, unless that is too small for the format. -/
def exponentFor (num den : Nat) : Int :=
  let guess : Int := (num.log2 : Int) - den.log2 - 52
  let (a, b) := scale num den guess
  let exact :=
    if a < b * Nat.pow 2 52 then guess - 1 else if a ≥ b * Nat.pow 2 53 then guess + 1 else guess
  max exact (-1074)

/-- The number nearest to `num / den`. -/
def ofRatio (num den : Nat) : Magnitude :=
  if num = 0 then finite 0 (-1074)
  else
    let e := exponentFor num den
    let (a, b) := scale num den e
    let m := roundHalfEven a b
    let (m, e) := if m = Nat.pow 2 53 then (Nat.pow 2 52, e + 1) else (m, e)
    if e > 971 then infinite else finite m e

/-- The number nearest to `digits · 10 ^ exponent`. Exponents far outside the format are
not multiplied out. -/
def ofDecimal (digits : Nat) (exponent : Int) : Magnitude :=
  if digits = 0 then finite 0 (-1074)
  else
    let size : Int := (Nat.toDigits 10 digits).length + exponent
    if size > 400 then infinite
    else if size < -400 then finite 0 (-1074)
    else if exponent ≥ 0 then ofRatio (digits * Nat.pow 10 exponent.toNat) 1
    else ofRatio digits (Nat.pow 10 (-exponent).toNat)

def ratio (m : Nat) (e : Int) : Nat × Nat :=
  if e ≥ 0 then (m * Nat.pow 2 e.toNat, 1) else (m, Nat.pow 2 (-e).toNat)

/-- The rounded product of two numbers. -/
def mul : Magnitude → Magnitude → Magnitude
  | finite m e, finite m' e' =>
    let (a, b) := ratio m e
    let (a', b') := ratio m' e'
    ofRatio (a * a') (b * b')
  | _, _ => infinite

/-- The rounded quotient of two numbers, the second one finite and positive. -/
def div : Magnitude → Magnitude → Magnitude
  | finite m e, finite m' e' =>
    let (a, b) := ratio m e
    let (a', b') := ratio m' e'
    ofRatio (a * b') (b * a')
  | x, _ => x

/-- Whether the number is zero. -/
def isZero : Magnitude → Bool
  | finite m _ => m = 0
  | infinite => false

/-- The nearest natural number, a half going up, and no more than `limit`. -/
def toNatUpTo (limit : Nat) : Magnitude → Nat
  | finite m e =>
    let (a, b) := ratio m e
    min limit ((2 * a + b) / (2 * b))
  | infinite => limit

/-! ## Shortest decimals -/

/-- A decimal: `digits · 10 ^ exponent`. -/
structure Decimal where
  digits : Nat
  exponent : Int
deriving DecidableEq, Repr

/-- The greatest `k` with `10 ^ k ≤ num / den`, between bounds that hold for every
number of the format. -/
def log10 (num den : Nat) : Int :=
  let below (k : Int) : Bool :=
    if k ≥ 0 then den * Nat.pow 10 k.toNat ≤ num else den ≤ num * Nat.pow 10 (-k).toNat
  let guess : Int := ((num.log2 : Int) - den.log2) * 30103 / 100000
  if below (guess + 1) then guess + 1 else if below guess then guess else guess - 1

/-- Whether `d · 10 ^ k` rounds to `m · 2 ^ e`. -/
def roundsBack (m : Nat) (e : Int) (d : Nat) (k : Int) : Bool := ofDecimal d k = finite m e

/-- How far `d · 10 ^ k` is from `num / den`, times a common denominator. -/
def distance (num den d : Nat) (k : Int) : Nat :=
  if k ≥ 0 then
    let x := d * Nat.pow 10 k.toNat * den
    (x - num) + (num - x)
  else
    let x := d * den
    let y := num * Nat.pow 10 (-k).toNat
    (x - y) + (y - x)

/-- Which of two decimals that are equally near is taken. -/
inductive Tie where
  | greater
  /-- The one whose last digit is even. -/
  | even
deriving DecidableEq, Repr

/-- The nearest decimal with `n` digits that rounds back to `m · 2 ^ e`, if there is one. -/
def withDigits? (tie : Tie) (m : Nat) (e : Int) (n : Nat) : Option Decimal :=
  let (num, den) := ratio m e
  let k := log10 num den - (n - 1 : Int)
  let low := if k ≥ 0 then num / (den * Nat.pow 10 k.toNat) else num * Nat.pow 10 (-k).toNat / den
  match roundsBack m e low k, roundsBack m e (low + 1) k with
  | true, true =>
    let above := distance num den (low + 1) k
    let below := distance num den low k
    let up := above < below || (above = below && (tie = .greater || low % 2 = 1))
    some (if up then ⟨low + 1, k⟩ else ⟨low, k⟩)
  | true, false => some ⟨low, k⟩
  | false, true => some ⟨low + 1, k⟩
  | false, false => none

/-- A decimal without zeros at its end. -/
def dropZeros : Nat → Decimal → Decimal
  | 0, d => d
  | fuel + 1, d =>
    if d.digits ≠ 0 && d.digits % 10 = 0 then dropZeros fuel ⟨d.digits / 10, d.exponent + 1⟩ else d

/-- The decimal with the fewest digits that rounds back to a positive finite number.
Seventeen always do. -/
def shortest (tie : Tie) (m : Nat) (e : Int) : Decimal :=
  let found := (List.range 17).findSome? fun n => withDigits? tie m e (n + 1)
  dropZeros 17 (found.getD ⟨m, 0⟩)

/-! ## Text -/

/-- Text of a number with no exponent, and no point where there is no fraction. Of two shortest
decimals that are equally near it shows the greater one. -/
def plainText : Magnitude → String
  | infinite => "inf"
  | finite m e =>
    if m = 0 then "0"
    else
      let d := shortest .greater m e
      let digits := toString d.digits
      if d.exponent ≥ 0 then digits ++ "".pushn '0' d.exponent.toNat
      else
        let places := (-d.exponent).toNat
        let padded := "".pushn '0' (places + 1 - digits.length) ++ digits
        let whole := padded.toList.take (padded.length - places)
        let fraction := padded.toList.drop (padded.length - places)
        String.ofList whole ++ "." ++ String.ofList fraction

/-- Text of a number with a point or an exponent: with a signed exponent from `10 ^ 16` on and below
`10 ^ -5`. Of two shortest decimals that are equally near it shows the even one. -/
def pointedText : Magnitude → String
  | infinite => "inf"
  | finite m e =>
    if m = 0 then "0.0"
    else
      let d := shortest .even m e
      let digits := toString d.digits
      let point : Int := digits.length + d.exponent
      if 0 ≤ d.exponent && point ≤ 16 then digits ++ "".pushn '0' d.exponent.toNat ++ ".0"
      else if 0 < point && point ≤ 16 then
        String.ofList (digits.toList.take point.toNat) ++ "." ++
          String.ofList (digits.toList.drop point.toNat)
      else if -5 < point && point ≤ 0 then "0." ++ "".pushn '0' (-point).toNat ++ digits
      else
        let tail := digits.toList.drop 1
        let head := String.ofList (digits.toList.take 1)
        let sign := if point > 0 then "+" else ""
        (if tail.isEmpty then head else head ++ "." ++ String.ofList tail) ++ "e" ++
          sign ++ toString (point - 1)

end Magnitude

/-! ## Signed numbers -/

/-- A floating-point number with its sign, or no number. -/
inductive Binary64 where
  | number (negative : Bool) (magnitude : Magnitude)
  | nan
deriving DecidableEq, Repr

namespace Binary64

/-- Text of a number with no exponent. -/
def plainText : Binary64 → String
  | nan => "NaN"
  | number negative m => (if negative then "-" else "") ++ m.plainText

/-- Text of a number with a point. -/
def pointedText : Binary64 → String
  | nan => "NaN"
  | number negative m => (if negative then "-" else "") ++ m.pointedText

/-- Whether the number differs from zero. -/
def isNonzero : Binary64 → Bool
  | nan => true
  | number _ m => !m.isZero

/-- The nearest natural number up to `limit`; what is below zero, and no number, count as zero. -/
def toNatUpTo (limit : Nat) : Binary64 → Nat
  | nan => 0
  | number true _ => 0
  | number false m => m.toNatUpTo limit

end Binary64

end FSharpWorkspace
