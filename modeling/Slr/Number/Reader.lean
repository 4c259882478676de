import Slr.Number.Rounding

/-! Reading numbers from decimal digits. -/

namespace Slr.Number

def isDigit (c : Char) : Bool := '0' ≤ c && c ≤ '9'

/-- The number that decimal digits stand for. -/
def ofDigits (ds : List Char) : Nat := ds.foldl (fun n c => 10 * n + (c.toNat - 48)) 0

def infinity : Float := Float.ofBits infinityBits.toUInt64

/-- The float nearest to digits with a point before the last `places` of them. -/
def ofPlaces (digits : List Char) (places : Nat) : Float :=
  (ofFraction? (ofDigits digits) (tenTo places)).getD infinity

/-- Digits with a point among them. -/
def ofPointed (ds : List Char) : Float :=
  ofPlaces (ds.filter isDigit) (ds.dropWhile (· != '.')).tail.length

/-- Digits, a point or none, and an exponent or none. -/
def ofUnsigned (ds : List Char) : Float :=
  let mantissa := ds.takeWhile (· != 'e')
  let digits := mantissa.filter isDigit
  let places : Int := (mantissa.dropWhile (· != '.')).tail.length
  let exponent : Int := match (ds.dropWhile (· != 'e')).tail with
    | '-' :: xs => -(ofDigits xs)
    | '+' :: xs => ofDigits xs
    | xs => ofDigits xs
  let x := exponent - places
  (ofFraction? (ofDigits digits * tenTo x.toNat) (tenTo (-x).toNat)).getD infinity

/-- Reads what `Layout.standard` writes. -/
def ofText (s : String) : Float :=
  match s.toList with
  | ['n', 'a', 'n'] => 0 / 0
  | ['i', 'n', 'f'] => infinity
  | ['-', 'i', 'n', 'f'] => -infinity
  | '-' :: ds => -(ofUnsigned ds)
  | ds => ofUnsigned ds

end Slr.Number
