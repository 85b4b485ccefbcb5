/-!
# The shortest decimal for a float

A finite float other than zero is `mantissa * 2 ^ exponent`. Its text is the decimal with the fewest
digits among those that read back as the same float, and of these the nearest to it; of two at the
same distance, the upper one. It is written in positional notation, without an exponent mark.
-/

namespace PugTemplate

/-- A finite binary number without its sign. -/
structure Binary where
  mantissa : Nat
  exponent : Int
deriving DecidableEq, Repr

/-- `digits * 10 ^ exponent`. -/
structure Decimal where
  digits : Nat
  exponent : Int
deriving DecidableEq, Repr

namespace Binary

/-- The magnitude of a finite float, from its bits. -/
def ofBits (bits : UInt64) : Binary :=
  let fraction : Nat := bits.toNat % Nat.pow 2 52
  let biased : Nat := bits.toNat / Nat.pow 2 52 % Nat.pow 2 11
  if biased = 0 then ⟨fraction, -1074⟩ else ⟨Nat.pow 2 52 + fraction, (biased : Int) - 1075⟩

/-- A power of a base as a fraction: the factor of the numerator and that of the denominator. -/
def power (base : Nat) (e : Int) : Nat × Nat :=
  (base.pow e.toNat, base.pow (-e).toNat)

/-- Whether `c * 10 ^ p` reads back as the float: it lies between the midpoints to the two
neighbours, ends included when the mantissa is even. All numbers are in quarters of a unit in the
last place, since the gap below a power of two is half as wide. -/
def readsBack (b : Binary) (c : Nat) (p : Int) : Bool :=
  let ten := power 10 p
  let two := power 2 (b.exponent - 2)
  let point := c * ten.1 * two.2
  let unit := two.1 * ten.2
  let below := if b.mantissa = Nat.pow 2 52 ∧ b.exponent > -1074 then 1 else 2
  let low := (4 * b.mantissa - below) * unit
  let high := (4 * b.mantissa + 2) * unit
  if b.mantissa % 2 = 0 then low ≤ point && point ≤ high else low < point && point < high

/-- The grid points next to the float on the grid of multiples of `10 ^ p`: the one below or at it,
and whether the one above is at least as near. -/
def onGrid (b : Binary) (p : Int) : Nat × Bool :=
  let ten := power 10 p
  let two := power 2 b.exponent
  let num := b.mantissa * two.1 * ten.2
  let den := two.2 * ten.1
  (num / den, den ≤ 2 * (num % den))

/-- The decimal on one grid, if a grid point reads back. -/
def atGrid? (b : Binary) (p : Int) : Option Decimal :=
  let (c, upper) := b.onGrid p
  let low := decide (0 < c) && b.readsBack c p
  let high := b.readsBack (c + 1) p
  if high && (upper || !low) then some ⟨c + 1, p⟩
  else if low then some ⟨c, p⟩
  else none

/-- The decimal on the coarsest grid that has one, searched downwards. -/
def searchFrom (b : Binary) : Nat → Int → Decimal
  | 0, _ => ⟨b.mantissa, 0⟩
  | n + 1, p =>
    match b.atGrid? p with
    | some d => d
    | none => searchFrom b n (p - 1)

/-- The search starts above the number's own magnitude; `2 ^ 10 > 10 ^ 3`, so three tenths of the
binary magnitude, rounded up, bound the decimal one, and seventeen digits always suffice. -/
def shortest (b : Binary) : Decimal :=
  let magnitude : Int := (Nat.log2 b.mantissa : Int) + b.exponent + 1
  searchFrom b 64 (magnitude * 30103 / 100000 + 2)

end Binary

namespace Decimal

def digitsOf (n : Nat) : List Char :=
  Nat.toDigits 10 n

/-- Fraction digits without the zeros at their end. -/
def trimZeros (cs : List Char) : List Char :=
  (cs.reverse.dropWhile (· == '0')).reverse

/-- Positional notation: no point without a fraction, and no zeros at its end. -/
def toText (d : Decimal) : List Char :=
  if 0 ≤ d.exponent then digitsOf (d.digits * Nat.pow 10 d.exponent.toNat)
  else
    let places := (-d.exponent).toNat
    let whole := digitsOf (d.digits / Nat.pow 10 places)
    let part := digitsOf (d.digits % Nat.pow 10 places)
    let fraction := trimZeros (List.replicate (places - part.length) '0' ++ part)
    if fraction.isEmpty then whole else whole ++ '.' :: fraction

end Decimal

/-- The text of a finite float: its sign, kept for zero too, and its shortest decimal. -/
def finiteText (f : Float) : String :=
  let bits := f.toBits
  let sign := if bits.toNat / Nat.pow 2 63 = 1 then "-" else ""
  let b := Binary.ofBits bits
  if b.mantissa = 0 then sign ++ "0" else sign ++ String.ofList b.shortest.toText

end PugTemplate
