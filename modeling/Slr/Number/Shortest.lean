import Slr.Number.Rounding

/-!
The fewest decimal digits that read back. The reals that round to `m * 2 ^ q` form an interval whose
ends belong to it when `m` is even. On the grids of 1, 2, … 17 digits the two neighbours of the number
are tried; the first grid with a neighbour in the interval wins, of two the nearer one, and a tie goes
to the even one.
-/

namespace Slr.Number

structure Decimal where
  digits : Nat
  exponent : Int
  deriving DecidableEq

/-- `a` quarters of a unit `2 ^ q`, over `10 ^ e`, as numerator and denominator. -/
def scaled (q e : Int) (a : Nat) : Nat :=
  a * twoTo (q - 2).toNat * tenTo (-e).toNat

def gridStep (q e : Int) : Nat := twoTo (2 - q).toNat * tenTo e.toNat

/-- The lower end of the interval, in quarters: half as far below a power of two. -/
def lowerQuarters (b : Binary) : Nat :=
  if b.significand = twoTo 52 ∧ leastExponent < b.exponent then 4 * b.significand - 1
  else 4 * b.significand - 2

def readsBack (b : Binary) (e : Int) (k : Nat) : Bool :=
  let low := scaled b.exponent e (lowerQuarters b)
  let high := scaled b.exponent e (4 * b.significand + 2)
  let x := k * gridStep b.exponent e
  if b.significand % 2 = 0 then low ≤ x && x ≤ high else low < x && x < high

def onGrid (b : Binary) (e : Int) : Option Nat :=
  let x := scaled b.exponent e (4 * b.significand)
  let step := gridStep b.exponent e
  let k := x / step
  match readsBack b e k, readsBack b e (k + 1) with
  | true, false => some k
  | false, true => some (k + 1)
  | true, true => some (roundDiv x step)
  | false, false => none

/-- The largest `k` with `10 ^ k ≤ b`, from the power of two below `b`. -/
def floorLog10 (b : Binary) : Int :=
  let l := (b.significand.log2 : Int) + b.exponent
  let k := Int.fdiv (l * 30103) 100000
  let atLeast (k : Int) : Bool :=
    gridStep b.exponent k ≤ scaled b.exponent k (4 * b.significand)
  if atLeast (k + 1) then k + 1 else if atLeast k then k else k - 1

def firstGrid (b : Binary) : Nat → Int → Decimal
  | 0, e => ⟨roundDiv (scaled b.exponent e (4 * b.significand)) (gridStep b.exponent e), e⟩
  | n + 1, e =>
    match onGrid b e with
    | some k => ⟨k, e⟩
    | none => firstGrid b n (e - 1)

/-- The shortest decimal of a positive number. -/
def shortest (b : Binary) : Decimal := firstGrid b 16 (floorLog10 b)

end Slr.Number
