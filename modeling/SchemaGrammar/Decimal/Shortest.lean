/-!
# Shortest decimals of binary numbers

A finite positive binary number `m · 2 ^ q` stands for every real number that rounds to it. This
module finds the decimal with the fewest digits among those, in exact integer arithmetic: for one
digit, then two, and so on, it looks at the two neighbours of the number on that decimal grid. Of
two neighbours that both read back the nearer one is taken, and of two equally near ones the one
whose last digit is even.

## Main definitions

* `Binary`: a positive binary number and the reals that round to it.
* `Digits`: a decimal by its digits and the exponent of the first one.
* `Binary.shortest`: the decimal with the fewest digits that reads back.
-/

namespace SchemaGrammar

namespace Decimal

/-- The positive number `mantissa · 2 ^ exponent`. The number below it is half a step away when
`narrow` is set, as happens at a power of two. -/
structure Binary where
  mantissa : Nat
  exponent : Int
  narrow : Bool := false
deriving Repr, DecidableEq

/-- A decimal by the digits of its coefficient, the first of which stands for a multiple of
`10 ^ leading`. -/
structure Digits where
  coefficient : Nat
  leading : Int
deriving Repr, DecidableEq

/-- How many decimal digits `n` has; zero has one. -/
def digitCount (n : Nat) : Nat := (Nat.toDigits 10 n).length

namespace Binary

/-- The power of two with the given exponent, or one if that is negative. -/
def twos (n : Int) : Nat := Nat.pow 2 n.toNat

/-- The power of ten with the given exponent, or one if that is negative. -/
def tens (n : Int) : Nat := Nat.pow 10 n.toNat

/-- Compares `a · 2 ^ s` with `c · 10 ^ p`, as a pair of integers over a common scale. -/
def scaled (a : Nat) (s : Int) (c : Nat) (p : Int) : Nat × Nat :=
  (a * twos s * tens (-p), c * tens p * twos (-s))

/-- Four times the mantissa, so that half a step on either side is an integer. -/
def quadruple (b : Binary) : Nat := 4 * b.mantissa

/-- The lower end of the reals that round to `b`, in quarter steps. -/
def lower (b : Binary) : Nat := if b.narrow then b.quadruple - 1 else b.quadruple - 2

/-- The upper end of the reals that round to `b`, in quarter steps. -/
def upper (b : Binary) : Nat := b.quadruple + 2

/-- Whether `c · 10 ^ p` rounds to `b`. The ends of the interval round to the even mantissa. -/
def covers (b : Binary) (c : Nat) (p : Int) : Bool :=
  let low := scaled b.lower (b.exponent - 2) c p
  let high := scaled b.upper (b.exponent - 2) c p
  if b.mantissa % 2 = 0 then low.1 ≤ low.2 && high.2 ≤ high.1
  else low.1 < low.2 && high.2 < high.1

/-- The exponent of the first decimal digit of `b`. -/
def leading (b : Binary) : Int :=
  let num := b.mantissa * twos b.exponent
  let den := twos (-b.exponent)
  if den ≤ num then (digitCount (num / den) : Int) - 1
  else
    let d := digitCount (den / num)
    if den ≤ num * tens (d - 1) then 1 - (d : Int) else -(d : Int)

/-- The neighbours of `b` on the grid of multiples of `10 ^ p` that read back as `b`: the nearer of
two, the even one of two equally near ones. -/
def neighbour? (b : Binary) (p : Int) : Option Nat :=
  let exact := scaled b.quadruple (b.exponent - 2) 1 p
  let below := exact.1 / exact.2
  match b.covers below p, b.covers (below + 1) p with
  | true, true =>
    let twice := 2 * (exact.1 - below * exact.2)
    if twice < exact.2 || (twice == exact.2 && below % 2 == 0) then some below else some (below + 1)
  | true, false => some below
  | false, true => some (below + 1)
  | false, false => none

/-- The first of the grids with `count`, `count + 1`, … digits that has a neighbour of `b`. -/
def search (b : Binary) : (tries count : Nat) → Digits
  | 0, _ => ⟨b.mantissa, b.leading⟩
  | tries + 1, count =>
    match b.neighbour? (b.leading - count + 1) with
    | some c => ⟨c, b.leading + digitCount c - count⟩
    | none => b.search tries (count + 1)

/-- The decimal with the fewest digits that reads back as `b`. Seventeen digits always do. -/
def shortest (b : Binary) : Digits := b.search 17 1

/-- The positive finite number that a 64-bit pattern stands for, sign aside; `none` for zero. -/
def ofBits? (bits : UInt64) : Option Binary :=
  let fraction : Nat := bits.toNat % twos 52
  let biased : Nat := bits.toNat / twos 52 % twos 11
  if biased = 0 then
    if fraction = 0 then none else some ⟨fraction, -1074, false⟩
  else some ⟨twos 52 + fraction, Int.ofNat biased - 1075, fraction == 0 && 1 < biased⟩

end Binary

/-- The decimal digits of the coefficient without the zeros at its end. -/
def Digits.significant (d : Digits) : List Char :=
  let digits := (Nat.toDigits 10 d.coefficient).reverse.dropWhile (· == '0')
  digits.reverse

end Decimal

end SchemaGrammar
