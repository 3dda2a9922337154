import Gabby.Decimal
import Mathlib.Tactic.Ring
import Mathlib.Tactic.Linarith

/-! IEEE 754 binary64 numbers and their decimal texts: the conversions of `strtod`
(round to nearest, ties to even) and of `printf` with `%g` and six significant digits. -/
namespace Gabby

/-- The magnitude `mant * 2 ^ exp` of a finite double, in its unique normal form. -/
structure Magnitude where
  mant : ℕ
  exp : ℤ
  mant_lt : mant < 2^53
  exp_ge : -1074 ≤ exp
  exp_le : exp ≤ 971
  normal : 2^52 ≤ mant ∨ exp = -1074
  deriving DecidableEq

inductive Double
  | nan (neg : Bool) | inf (neg : Bool) | finite (neg : Bool) (mag : Magnitude)
  deriving DecidableEq

namespace Magnitude

def zero : Magnitude := ⟨0,-1074,by decide,by decide,by decide,by decide⟩

def num (m : Magnitude) : ℕ := m.mant * 2^m.exp.toNat
def den (m : Magnitude) : ℕ := 2^(-m.exp).toNat

theorem den_pos (m : Magnitude) : 0 < m.den := by simp [den]

def mk? (mant : ℕ) (exp : ℤ) : Option Magnitude :=
  if h : mant < 2^53 ∧ -1074 ≤ exp ∧ exp ≤ 971 ∧ (2^52 ≤ mant ∨ exp = -1074) then
    some ⟨mant,exp,h.1,h.2.1,h.2.2.1,h.2.2.2⟩
  else none

end Magnitude

namespace Double

def isNaN : Double → Bool
  | nan _ => true
  | _ => false

/-- `==` on doubles: nothing equals a NaN and the two zeros are equal. -/
def eq : Double → Double → Bool
  | inf a, inf b => a == b
  | finite a m, finite b n => m == n && (a == b || m.mant == 0)
  | _, _ => false

/-! ## Rounding -/

/-- The quotient rounded to the nearest natural, ties to even. -/
def roundHalfEven (n d : ℕ) : ℕ :=
  if 2*(n % d) < d then n / d
  else if d < 2*(n % d) then n / d + 1
  else n / d + n / d % 2

theorem roundHalfEven_mul (q : ℕ) {d : ℕ} (hd : 0 < d) : roundHalfEven (q*d) d = q := by
  simp [roundHalfEven,hd]

/-- The exponent that gives the fraction a mantissa of 53 bits. -/
def normalExp (num den : ℕ) : ℤ :=
  let e : ℤ := num.log2 - den.log2 - 52
  if num * 2^(-e).toNat < den * 2^e.toNat * 2^52 then e-1 else e

def mantissaAt (num den : ℕ) (e : ℤ) : ℕ :=
  roundHalfEven (num * 2^(-e).toNat) (den * 2^e.toNat)

/-- The nearest magnitude to a fraction; none when it overflows. -/
def round (num den : ℕ) : Option Magnitude :=
  if num = 0 then some Magnitude.zero
  else
    let e := max (normalExp num den) (-1074)
    let m := mantissaAt num den e
    if m = 2^53 then Magnitude.mk? (2^52) (e+1) else Magnitude.mk? m e

/-- The result is inexact and, rounded to 53 bits, still below the least normal double. -/
def underflows (num den : ℕ) : Bool :=
  let e := normalExp num den
  let tiny := e < -1075 || (e == -1075 && mantissaAt num den e != 2^53)
  match round num den with
  | none => false
  | some m => num != 0 && tiny && m.num * den != num * m.den

/-- The double nearest to a signed fraction, or `ERANGE`. -/
def ofFraction (neg : Bool) (num den : ℕ) : Option Double :=
  if underflows num den then none else (round num den).map (finite neg)

def ofInteger (neg : Bool) (n : ℕ) : Double := ((round n 1).map (finite neg)).getD (inf neg)

/-! ## Reading -/

def isxdigit (b : UInt8) : Bool := isdigit b || (97 ≤ tolower b && tolower b ≤ 102)

/-- The exponent after a mantissa; a mark without digits is not part of the number. -/
def exponentPart (mark : UInt8) : Bytes → ℤ
  | c::s =>
    if tolower c = mark then
      let ds := (splitSign s).2.takeWhile isdigit
      if (splitSign s).1 then -(ofDigits 10 ds : ℤ) else ofDigits 10 ds
    else 0
  | [] => 0

def splitPoint (digit : UInt8 → Bool) (s : Bytes) : Bytes × Bytes × Bytes :=
  let int := s.takeWhile digit
  match s.dropWhile digit with
  | c::r => if c = chr '.' then (int,r.takeWhile digit,r.dropWhile digit) else (int,[],c::r)
  | [] => (int,[],[])

/-- A mantissa with its scale: `digits * base ^ (-|frac|) * radix ^ exponent`. -/
def ofParts (neg : Bool) (base radix : ℕ) (shift : ℤ) (ds : Bytes) : Option Double :=
  ofFraction neg (ofDigits base ds * radix^shift.toNat) (radix^(-shift).toNat)

def strtodDecimal (neg : Bool) (s : Bytes) : Option Double :=
  let p := splitPoint isdigit s
  if (p.1 ++ p.2.1).isEmpty then none
  else ofParts neg 10 10 (exponentPart (chr 'e') p.2.2 - p.2.1.length) (p.1 ++ p.2.1)

def strtodHex (neg : Bool) (s : Bytes) : Option Double :=
  let p := splitPoint isxdigit s
  if (p.1 ++ p.2.1).isEmpty then ofFraction neg 0 1
  else ofParts neg 16 2 (exponentPart (chr 'p') p.2.2 - 4*p.2.1.length) (p.1 ++ p.2.1)

/-- `std::stod`: `strtod` on the longest numeric prefix; none stands for the exception
thrown when there is no such prefix or the value is out of range. -/
def stod (text : Bytes) : Option Double :=
  let p := splitSign (text.dropWhile isspace)
  let low := p.2.map tolower
  if (ascii "inf").isPrefixOf low then some (inf p.1)
  else if (ascii "nan").isPrefixOf low then some (nan p.1)
  else if (ascii "0x").isPrefixOf low then strtodHex p.1 (p.2.drop 2)
  else strtodDecimal p.1 p.2

/-! ## Printing -/

def decimalExp (num den : ℕ) : ℤ :=
  if den ≤ num then (decimal (num/den)).length - 1 else -(decimal ((den-1)/num)).length

/-- Six significant digits and the decimal exponent after rounding to them. -/
def sixDigits (num den : ℕ) : ℕ × ℤ :=
  let x := decimalExp num den
  let d := roundHalfEven (num * 10^(5-x).toNat) (den * 10^(x-5).toNat)
  if d = 10^6 then (10^5,x+1) else (d,x)

def stripZeros (ds : Bytes) : Bytes := (ds.reverse.dropWhile (· == chr '0')).reverse

def withFraction (int frac : Bytes) : Bytes :=
  let f := stripZeros frac
  if f.isEmpty then int else int ++ chr '.' :: f

/-- An exponent in the notation of `%e`: a sign and at least two digits. -/
def showExponent (x : ℤ) : Bytes :=
  let ds := decimal x.natAbs
  chr 'e' :: (if x < 0 then chr '-' else chr '+') ::
    (if ds.length < 2 then chr '0' :: ds else ds)

def showMagnitude (m : Magnitude) : Bytes :=
  if m.mant = 0 then ascii "0"
  else
    let p := sixDigits m.num m.den
    let ds := decimal p.1
    if -4 ≤ p.2 ∧ p.2 < 6 then
      if 0 ≤ p.2 then withFraction (ds.take (p.2.toNat+1)) (ds.drop (p.2.toNat+1))
      else withFraction (ascii "0") (List.replicate (-p.2-1).toNat (chr '0') ++ ds)
    else withFraction (ds.take 1) (ds.drop 1) ++ showExponent p.2

/-- `ostream << double` with the default flags. -/
def print : Double → Bytes
  | nan neg => if neg then ascii "-nan" else ascii "nan"
  | inf neg => if neg then ascii "-inf" else ascii "inf"
  | finite neg m => if neg then chr '-' :: showMagnitude m else showMagnitude m

end Double
end Gabby
