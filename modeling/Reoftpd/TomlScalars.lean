import Reoftpd.TomlTables
import Reoftpd.TomlStrings

/-!
# TOML scalars

The numbers, booleans and times of TOML 1.0.  An integer has to fit 64 bits; floating point
numbers and times are checked and kept as they are written.
-/
namespace Reoftpd.Toml

/-- A character of a number, a boolean or a time. -/
def isScalarChar (c : Char) : Bool :=
  c.isAlphanum || c = '+' || c = '-' || c = '_' || c = '.' || c = ':'

/-! ## Numbers -/

/-- Digits, between which underscores may stand. -/
def isDigits (digit : Char → Bool) : List Char → Bool
  | [] => false
  | [c] => digit c
  | c :: '_' :: cs => digit c && isDigits digit cs
  | c :: cs => digit c && isDigits digit cs

/-- The value of digits. -/
def digitsValue (base : Nat) (cs : List Char) : Nat :=
  (cs.filterMap hexDigit?).foldl (fun n d => base * n + d) 0

/-- A digit below `base`. -/
def isDigitBelow (base : Nat) (c : Char) : Bool := (hexDigit? c).any (· < base)

/-- Decimal digits that do not begin with a zero, or the zero. -/
def isDecimal (cs : List Char) : Bool :=
  cs = ['0'] || (isDigits Char.isDigit cs && cs.head? ≠ some '0')

/-- A sign, if there is one, and what it stands before. -/
def signed : List Char → Bool × List Char
  | '+' :: cs => (false, cs)
  | '-' :: cs => (true, cs)
  | cs => (false, cs)

/-- A number that fits 64 bits. -/
def fits64 (i : Int) : Option Int :=
  if -0x8000000000000000 ≤ i ∧ i ≤ 0x7fffffffffffffff then some i else none

/-- An unsigned integer to a base. -/
def based (base : Nat) (cs : List Char) : Option Int :=
  if isDigits (isDigitBelow base) cs then fits64 (digitsValue base cs) else none

/-- An integer. -/
def integer? : List Char → Option Int
  | '0' :: 'x' :: cs => based 16 cs
  | '0' :: 'o' :: cs => based 8 cs
  | '0' :: 'b' :: cs => based 2 cs
  | cs =>
      let (negative, digits) := signed cs
      if isDecimal digits then
        fits64 (if negative then -(digitsValue 10 digits : Int) else digitsValue 10 digits)
      else none

/-- The fraction of a number, with its point, or nothing. -/
def isFraction : List Char → Bool
  | [] => true
  | _ :: digits => isDigits Char.isDigit digits

/-- The exponent of a number, with its letter, or nothing. -/
def isExponent : List Char → Bool
  | [] => true
  | _ :: cs => isDigits Char.isDigit (signed cs).2

/-- A floating point number. -/
def isFloat (cs : List Char) : Bool :=
  let number := (signed cs).2
  let (mantissa, exponent) := number.span fun c => c ≠ 'e' && c ≠ 'E'
  let (whole, fraction) := mantissa.span (· ≠ '.')
  number = ['i', 'n', 'f'] || number = ['n', 'a', 'n'] ||
    (isDecimal whole && isFraction fraction && isExponent exponent &&
      (!fraction.isEmpty || !exponent.isEmpty))

/-! ## Times -/

/-- Two decimal digits whose value is between two bounds. -/
def isTwo (low high : Nat) (c c' : Char) : Bool :=
  c.isDigit && c'.isDigit && low ≤ digitsValue 10 [c, c'] && digitsValue 10 [c, c'] ≤ high

/-- The number of days of a month. -/
def daysOf (year month : Nat) : Nat :=
  if month = 2 then
    if year % 4 = 0 ∧ (year % 100 ≠ 0 ∨ year % 400 = 0) then 29 else 28
  else if month = 4 ∨ month = 6 ∨ month = 9 ∨ month = 11 then 30
  else 31

/-- What stands behind a date. -/
def afterDate : List Char → Option (List Char)
  | y₁ :: y₂ :: y₃ :: y₄ :: '-' :: m₁ :: m₂ :: '-' :: d₁ :: d₂ :: cs =>
      let year := digitsValue 10 [y₁, y₂, y₃, y₄]
      if [y₁, y₂, y₃, y₄].all Char.isDigit && isTwo 1 12 m₁ m₂ &&
          isTwo 1 (daysOf year (digitsValue 10 [m₁, m₂])) d₁ d₂ then
        some cs
      else none
  | _ => none

/-- What stands behind the fraction of a second. -/
def afterFraction : List Char → Option (List Char)
  | '.' :: c :: cs => if c.isDigit then some (cs.dropWhile Char.isDigit) else none
  | '.' :: [] => none
  | cs => some cs

/-- What stands behind a time of day. -/
def afterTime : List Char → Option (List Char)
  | h₁ :: h₂ :: ':' :: m₁ :: m₂ :: ':' :: s₁ :: s₂ :: cs =>
      if isTwo 0 23 h₁ h₂ && isTwo 0 59 m₁ m₂ && isTwo 0 60 s₁ s₂ then afterFraction cs else none
  | _ => none

/-- The offset of a time, or nothing. -/
def isOffset : List Char → Bool
  | [] => true
  | ['Z'] => true
  | ['z'] => true
  | [c, h₁, h₂, ':', m₁, m₂] => (c = '+' || c = '-') && isTwo 0 23 h₁ h₂ && isTwo 0 59 m₁ m₂
  | _ => false

/-- A date with or without a time of day, or a time of day. -/
def isDateTime (cs : List Char) : Bool :=
  match afterDate cs with
  | some [] => true
  | some (c :: time) => (c = 'T' || c = 't' || c = ' ') && (afterTime time).any isOffset
  | none => afterTime cs = some []

/-- The value that a token is. -/
def scalar? (cs : List Char) : Option Node :=
  if cs = ['t', 'r', 'u', 'e'] then some (.boolean true)
  else if cs = ['f', 'a', 'l', 's', 'e'] then some (.boolean false)
  else
    match integer? cs with
    | some i => some (.integer i)
    | none =>
        if isFloat cs then some (.float (String.ofList cs))
        else if isDateTime cs then some (.dateTime (String.ofList cs))
        else none

end Reoftpd.Toml
