import PugTemplate.Value.Text
import PugTemplate.Value.Comparison
import PugTemplate.Decimal.Remainder

/-!
# Operations on values

Integers, booleans and null count as whole numbers. An operation on two whole numbers is exact as
long as its result is a 64-bit integer; otherwise, and with any other operand, it is done on floats.
Adding a string, an array or a map joins the texts of both sides.
-/

namespace PugTemplate

namespace Value

/-- The 64-bit integer equal to a number, if there is one. -/
def word? (n : Int) : Option Int64 :=
  if Int64.minValue.toInt ≤ n ∧ n ≤ Int64.maxValue.toInt then some (Int64.ofInt n) else none

def whole? : Value → Option Int
  | int i => some i.toInt
  | bool b => some (if b then 1 else 0)
  | null => some 0
  | _ => none

/-- An operation that stays on whole numbers when `exact` has a result for them. -/
def arithmetic (exact : Int → Int → Option Int64) (rounded : Float → Float → Float)
    (a b : Value) : Value :=
  match a.whole?, b.whole? with
  | some m, some n =>
    match exact m n with
    | some i => .int i
    | none => .float (rounded a.toNumber b.toNumber)
  | _, _ => .float (rounded a.toNumber b.toNumber)

def joinsTexts : Value → Bool
  | string _ | array _ | map _ => true
  | _ => false

def add (a b : Value) : Value :=
  if a.joinsTexts || b.joinsTexts then .string (a.toOutput ++ b.toOutput)
  else arithmetic (fun m n => word? (m + n)) (· + ·) a b

def sub : Value → Value → Value :=
  arithmetic (fun m n => word? (m - n)) (· - ·)

def mul : Value → Value → Value :=
  arithmetic (fun m n => word? (m * n)) (· * ·)

/-- Division is exact where it leaves no remainder. -/
def div : Value → Value → Value :=
  arithmetic (fun m n => if n ≠ 0 ∧ m.tmod n = 0 then word? (m.tdiv n) else none) (· / ·)

/-- The remainder is exact where its quotient is a 64-bit integer too. -/
def rem : Value → Value → Value :=
  arithmetic
    (fun m n => if n = 0 then none else (word? (m.tdiv n)).bind fun _ => word? (m.tmod n))
    floatRemainder

def neg : Value → Value
  | int i =>
    match word? (-i.toInt) with
    | some n => .int n
    | none => .float (-floatOfInt i)
  | v => .float (-v.toNumber)

def plus : Value → Value
  | int i => .int i
  | v => .float v.toNumber

def not (v : Value) : Value :=
  .bool !v.truthy

def holds (p : Ordering → Bool) (a b : Value) : Value :=
  .bool ((compare? a b).any p)

end Value

end PugTemplate
