import PugTemplate.Decimal.Shortest

/-!
# The remainder of floats

The remainder has the sign of the dividend and is smaller than the divisor, and the division it
belongs to has a whole quotient. It is always a float itself, so it is computed on the mantissas
without rounding.
-/

namespace PugTemplate

/-- `a mod b` for magnitudes, on the grid of the smaller exponent. -/
def Binary.remainder (a b : Binary) : Binary :=
  let e := min a.exponent b.exponent
  let dividend := a.mantissa * Nat.pow 2 (a.exponent - e).toNat
  let divisor := b.mantissa * Nat.pow 2 (b.exponent - e).toNat
  ⟨dividend % divisor, e⟩

/-- The bits of a magnitude below `2 ^ 53` units, whose exponent is that of a float. -/
def Binary.toBits (b : Binary) : UInt64 :=
  if b.mantissa = 0 then 0
  else
    let shift := min (52 - Nat.log2 b.mantissa) (b.exponent + 1074).toNat
    let mantissa := b.mantissa * Nat.pow 2 shift
    if mantissa < Nat.pow 2 52 then UInt64.ofNat mantissa
    else
      let biased := (b.exponent - shift + 1075).toNat
      UInt64.ofNat (biased * Nat.pow 2 52 + (mantissa - Nat.pow 2 52))

def floatRemainder (x y : Float) : Float :=
  if x.isNaN || y.isNaN || x.isInf || y == 0 then 0 / 0
  else if y.isInf || x == 0 then x
  else
    let r := Float.ofBits (Binary.remainder (.ofBits x.toBits) (.ofBits y.toBits)).toBits
    if x < 0 then -r else r

end PugTemplate
