/-!
Binary floating point of 64 bits as pairs `m * 2 ^ q`. A positive fraction is rounded to the nearest
such number, a half to the even one; `none` says that it is too large. The bits of a number are
`(q + 1074) * 2 ^ 52 + m`, which stays true when the rounding carries into the next power of two.
-/

namespace Slr.Number

abbrev twoTo (n : Nat) : Nat := Nat.pow 2 n

abbrev tenTo (n : Nat) : Nat := Nat.pow 10 n

/-- The integer nearest to `n / d`; of two equally near ones the even one. -/
def roundDiv (n d : Nat) : Nat :=
  let k := n / d
  let r := n % d
  if 2 * r < d ∨ 2 * r = d ∧ k % 2 = 0 then k else k + 1

/-- The largest `l` with `2 ^ l ≤ num / den`. -/
def floorLog2 (num den : Nat) : Int :=
  let l : Int := (num.log2 : Int) - (den.log2 : Int)
  if den * twoTo l.toNat ≤ num * twoTo (-l).toNat then l else l - 1

def leastExponent : Int := -1074

def infinityBits : Nat := 0x7FF0000000000000

/-- The bits of the number nearest to `num / den`. -/
def roundBits (num den : Nat) : Nat :=
  let q := max (floorLog2 num den - 52) leastExponent
  let m := roundDiv (num * twoTo (-q).toNat) (den * twoTo q.toNat)
  (q - leastExponent).toNat * twoTo 52 + m

def ofFraction? (num den : Nat) : Option Float :=
  if num = 0 then some 0
  else
    let bits := roundBits num den
    if bits < infinityBits then some (Float.ofBits bits.toUInt64) else none

def ofInt? (n : Int) : Option Float :=
  (ofFraction? n.natAbs 1).map fun x => if n < 0 then -x else x

/-- The quotient of two integers, rounded once. -/
def ofQuotient? (n d : Int) : Option Float :=
  (ofFraction? n.natAbs d.natAbs).map fun x => if decide (n < 0) == decide (d < 0) then x else -x

/-- A finite number without its sign. -/
structure Binary where
  significand : Nat
  exponent : Int
  deriving DecidableEq

def signBit (x : Float) : Bool := x.toBits.toNat / twoTo 63 = 1

def Binary.ofFloat (x : Float) : Binary :=
  let field : Nat := x.toBits.toNat / twoTo 52 % 2048
  let fraction : Nat := x.toBits.toNat % twoTo 52
  if field = 0 then ⟨fraction, leastExponent⟩ else ⟨fraction + twoTo 52, (field : Int) - 1075⟩

/-- Whether the finite number `x` is the integer `n`. -/
def equalsInt (x : Float) (n : Int) : Bool :=
  let b := Binary.ofFloat x
  x.isFinite && (signBit x == decide (n < 0) || b.significand == 0) &&
    b.significand * twoTo b.exponent.toNat == n.natAbs * twoTo (-b.exponent).toNat

end Slr.Number
