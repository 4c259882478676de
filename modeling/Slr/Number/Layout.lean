import Slr.Number.Shortest

/-!
Decimals on paper: plain notation for the exponents of an interval, a mark and an exponent with a sign
outside of it.
-/

namespace Slr.Number

structure Layout where
  /-- The least exponent of a first digit that is written out. -/
  plainFrom : Int
  /-- The first exponent above that is not. -/
  plainBelow : Int
  mark : Char
  /-- The least number of digits of an exponent. -/
  exponentWidth : Nat
  infinity : String
  undefined : String

/-- Numbers from 0.0001 to below 10^16 are written out, always with a point. -/
def Layout.standard : Layout := ⟨-4, 16, 'e', 2, "inf", "nan"⟩

def digitsOf (n : Nat) : List Char := (toString n).toList

def dropZeros (ds : List Char) : List Char :=
  (ds.reverse.dropWhile (· = '0')).reverse

/-- Digits with a first digit of exponent `x`, written out. -/
def plain (ds : List Char) (x : Int) : List Char :=
  if x < 0 then '0' :: '.' :: (List.replicate (-x - 1).toNat '0' ++ ds)
  else
    let whole := ds.take (x.toNat + 1)
    let fraction := ds.drop (x.toNat + 1)
    whole ++ List.replicate (x.toNat + 1 - ds.length) '0' ++
      '.' :: (if fraction = [] then ['0'] else fraction)

def Layout.marked (l : Layout) (ds : List Char) (x : Int) : List Char :=
  let point := match ds.tail with
    | [] => []
    | rest => '.' :: rest
  let digits := digitsOf x.natAbs
  ds.take 1 ++ point ++ l.mark :: (if x < 0 then '-' else '+') ::
    (List.replicate (l.exponentWidth - digits.length) '0' ++ digits)

def Layout.positive (l : Layout) (b : Binary) : List Char :=
  if b.significand = 0 then plain ['0'] 0
  else
    let d := shortest b
    let written := digitsOf d.digits
    let x := d.exponent + written.length - 1
    let ds := dropZeros written
    if l.plainFrom ≤ x ∧ x < l.plainBelow then plain ds x else l.marked ds x

def Layout.text (l : Layout) (x : Float) : String :=
  if x.isNaN then l.undefined
  else
    let sign := if signBit x then "-" else ""
    if x.isFinite then sign ++ String.ofList (l.positive (Binary.ofFloat x))
    else sign ++ l.infinity

end Slr.Number
