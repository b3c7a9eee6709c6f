import Mathlib.Data.Int.Log
import Mathlib.Data.Rat.Floor
import Mathlib.Tactic

/-!
# 64-bit floating-point numbers

The policy language has floating-point literals but no floating-point
arithmetic: a number is read from a literal, converted from an integer,
compared, and printed with `%g`.  A finite number is the rational it denotes.
The only other number a literal can denote is positive infinity, which
`strconv.ParseFloat` returns for a literal that is too large.
-/

namespace Di

inductive GoFloat
  | finite (value : ℚ)
  | posInf
  deriving DecidableEq

namespace GoFloat

instance : Inhabited GoFloat := ⟨.finite 0⟩

/-- The zero value of a Go variable. -/
def zero : GoFloat := .finite 0

def le : GoFloat → GoFloat → Bool
  | _, .posInf => true
  | .posInf, .finite _ => false
  | .finite x, .finite y => x ≤ y

def lt (x y : GoFloat) : Bool := !le y x

/-! ## Rounding to 64 bits -/

/-- The nearest integer, ties to even. -/
def roundEven (q : ℚ) : ℤ :=
  let down := q.floor
  let excess := q - down
  if excess < 1 / 2 then down
  else if 1 / 2 < excess then down + 1
  else if down % 2 = 0 then down
  else down + 1

/-- The exponent of the last of the 53 mantissa bits of a positive number;
subnormal numbers share the smallest exponent. -/
def ulpExponent (q : ℚ) : ℤ := max (-1074) (Int.log 2 q - 52)

/-- The magnitude of the 64-bit number nearest to a non-negative rational. -/
def roundMagnitude (q : ℚ) : ℚ :=
  roundEven (q / 2 ^ ulpExponent q) * 2 ^ ulpExponent q

/-- The 64-bit number nearest to a rational. -/
def ofRat (q : ℚ) : GoFloat :=
  let magnitude := roundMagnitude |q|
  if magnitude < 2 ^ 1024 then .finite (if q < 0 then -magnitude else magnitude)
  else .posInf

/-- The conversion `float64(i)`. -/
def ofInt (i : ℤ) : GoFloat := ofRat i

/-! ## Reading a literal -/

/-- The digits at the front of a text and what follows them. -/
def spanDigits (text : List Char) : List Char × List Char :=
  text.span Char.isDigit

def digitsValue (digits : List Char) : ℕ :=
  digits.foldl (fun value c => 10 * value + (c.toNat - '0'.toNat)) 0

/-- The exponent part of a literal; `none` is a syntax error. -/
def parseExponent : List Char → Option ℤ
  | [] => some 0
  | c :: text =>
      if c = 'e' ∨ c = 'E' then
        let signed : ℤ × List Char := match text with
          | '-' :: rest => (-1, rest)
          | '+' :: rest => (1, rest)
          | rest => (1, rest)
        let digits := spanDigits signed.2
        if digits.1 = [] ∨ digits.2 ≠ [] then none
        else some (signed.1 * digitsValue digits.1)
      else none

/-- The rational a decimal literal denotes; `none` is a syntax error. -/
def literalValue (text : List Char) : Option ℚ :=
  let whole := spanDigits text
  let fraction := match whole.2 with
    | '.' :: rest => spanDigits rest
    | rest => ([], rest)
  if whole.1 ++ fraction.1 = [] then none
  else match parseExponent fraction.2 with
    | none => none
    | some exponent =>
        some (digitsValue (whole.1 ++ fraction.1) *
          10 ^ (exponent - fraction.1.length))

/-- `strconv.ParseFloat` with its error ignored: a syntax error reads as zero. -/
def parseFloat (text : List Char) : GoFloat :=
  match literalValue text with
  | none => zero
  | some q => ofRat q

/-! ## Printing with `%g` -/

def digitChar (d : ℕ) : Char := Char.ofNat ('0'.toNat + d)

/-- The decimal digits of a number, most significant first. -/
def digitChars (n : ℕ) : List Char := (Nat.digits 10 n).reverse.map digitChar

/-- `d` significant digits whose last one has weight `10 ^ scale`. -/
structure Decimal where
  digits : ℕ
  scale : ℤ

def Decimal.value (d : Decimal) : ℚ := d.digits * 10 ^ d.scale

/-- The decimal with `n` significant digits nearest to a positive number. -/
def nearestDecimal (q : ℚ) (n : ℕ) : Decimal :=
  let scale := Int.log 10 q - n + 1
  ⟨(roundEven (q / 10 ^ scale)).toNat, scale⟩

/-- The first of the next `fuel` precisions at which the decimal still reads as
the same number. -/
def shortestFrom (q : ℚ) : ℕ → ℕ → Decimal
  | n, 0 => nearestDecimal q n
  | n, fuel + 1 =>
      let candidate := nearestDecimal q n
      if ofRat candidate.value = .finite q then candidate
      else shortestFrom q (n + 1) fuel

/-- The shortest decimal that reads as the same number.  The expansion of a
64-bit number is exact after at most 1100 digits. -/
def shortestDecimal (q : ℚ) : Decimal := shortestFrom q 1 1100

def dropTrailingZeros (digits : List Char) : List Char :=
  (digits.reverse.dropWhile (· = '0')).reverse

/-- The exponent of `%e`: a sign and at least two digits. -/
def exponentChars (exponent : ℤ) : List Char :=
  let digits := digitChars exponent.natAbs
  let padded := if digits.length < 2 then List.replicate (2 - digits.length) '0' ++ digits
    else digits
  'e' :: (if exponent < 0 then '-' else '+') :: padded

/-- The layout of `%g` for significant digits and the position of the decimal
point relative to the first digit. -/
def layoutG (digits : List Char) (point : ℤ) : List Char :=
  let exponent := point - 1
  if exponent < -4 ∨ 6 ≤ exponent then
    match digits with
    | [] => []
    | first :: rest =>
        first :: (if rest = [] then [] else '.' :: rest) ++ exponentChars exponent
  else if point ≤ 0 then
    '0' :: '.' :: List.replicate point.natAbs '0' ++ digits
  else if digits.length ≤ point.toNat then
    digits ++ List.replicate (point.toNat - digits.length) '0'
  else digits.take point.toNat ++ '.' :: digits.drop point.toNat

/-- The text of a positive finite number. -/
def positiveChars (q : ℚ) : List Char :=
  let decimal := shortestDecimal q
  let digits := digitChars decimal.digits
  layoutG (dropTrailingZeros digits) (digits.length + decimal.scale)

/-- `fmt.Sprintf("%g", x)`. -/
def formatG : GoFloat → List Char
  | .posInf => ['+', 'I', 'n', 'f']
  | .finite q =>
      if q = 0 then ['0']
      else if q < 0 then '-' :: positiveChars (-q)
      else positiveChars q

end GoFloat
end Di
