/-!
# Reading a float

The accepted texts are an optional sign and then `inf`, `infinity`, `nan` or a decimal number with
an optional exponent, in any case of letters. A decimal number has digits before or behind its
point, or both; nothing may stand around it. The value is the nearest float.
-/

namespace PugTemplate

namespace Decimal

def digitValue (c : Char) : Nat :=
  c.toNat - '0'.toNat

def digitsValue (cs : List Char) : Nat :=
  cs.foldl (fun n c => 10 * n + digitValue c) 0

/-- The float nearest to `digits * 10 ^ exponent`. Past the range of floats the answer is known from
the magnitude alone, so no large power is ever formed. -/
def nearest (digits : Nat) (exponent : Int) : Float :=
  if digits = 0 then 0
  else
    let magnitude : Int := ((Nat.toDigits 10 digits).length : Int) + exponent
    if 310 < magnitude then 1 / 0
    else if magnitude < -330 then 0
    else Float.ofScientific digits (exponent < 0) exponent.natAbs

def withSign (negative : Bool) (f : Float) : Float :=
  if negative then -f else f

/-- An optional sign, and what follows it. -/
def sign? : List Char → Bool × List Char
  | '-' :: cs => (true, cs)
  | '+' :: cs => (false, cs)
  | cs => (false, cs)

def exponent? : List Char → Option Int
  | [] => some 0
  | c :: cs =>
    if c = 'e' ∨ c = 'E' then
      let (negative, ds) := sign? cs
      if ds.isEmpty || !ds.all Char.isDigit then none
      else
        let n : Int := digitsValue ds
        some (if negative then -n else n)
    else none

def unsigned? (cs : List Char) : Option Float :=
  let whole := cs.takeWhile Char.isDigit
  let rest := cs.dropWhile Char.isDigit
  let (fraction, tail) := match rest with
    | '.' :: ds => (ds.takeWhile Char.isDigit, ds.dropWhile Char.isDigit)
    | ds => ([], ds)
  if whole.isEmpty && fraction.isEmpty then none
  else (exponent? tail).map fun e => nearest (digitsValue (whole ++ fraction)) (e - fraction.length)

/-- The float that a text denotes. -/
def read? (cs : List Char) : Option Float :=
  let (negative, body) := sign? cs
  let word := body.map Char.toLower
  if word = ['i', 'n', 'f'] ∨ word = ['i', 'n', 'f', 'i', 'n', 'i', 't', 'y'] then
    some (withSign negative (1 / 0))
  else if word = ['n', 'a', 'n'] then some (withSign negative (0 / 0))
  else (unsigned? body).map (withSign negative)

end Decimal

end PugTemplate
