import PugTemplate.Expr.Basic
import PugTemplate.Value.Arithmetic

/-!
# Evaluation

Evaluation never fails: a name without a binding, a missing member and an index out of range are
null. `&&` and `||` answer one of their operands and skip the right one where the left decides.
-/

namespace PugTemplate

/-- What names stand for. -/
abbrev Scope := String → Option Value

namespace Value

/-- The member of a value: an entry of a map, or the length of what has one. -/
def member (v : Value) (property : String) : Value :=
  match v.get? property with
  | some found => found
  | none =>
    if property = "length" then
      match v.length? with
      | some n => ofNat n
      | none => null
    else null

/-- The whole number from zero up that a float is; past the range of words, the largest word. -/
def position? (f : Float) : Option Nat :=
  if f < 0 || f.isNaN || f.isInf then none
  else
    let b := Binary.ofBits f.toBits
    let unit := Nat.pow 2 (-b.exponent).toNat
    if b.mantissa % unit = 0 then
      some (min (b.mantissa * Nat.pow 2 b.exponent.toNat / unit) (UInt64.size - 1))
    else none

/-- An item by number: of an array, a character of a string, or a member named by the number. -/
def item (v : Value) (number : Float) : Value :=
  match position? number with
  | none => null
  | some n =>
    match v with
    | array items => items[n]?.getD null
    | string s =>
      match s.toList[n]? with
      | some c => string (String.singleton c)
      | none => null
    | other => other.member (toString n)

/-- The item under a computed key: by number for a number, else by the key's text. -/
def itemUnder (v key : Value) : Value :=
  match key with
  | int i => v.item (floatOfInt i)
  | float f => v.item f
  | string property => v.member property
  | other => v.member other.toOutput

end Value

namespace UnaryOp

def apply : UnaryOp → Value → Value
  | not, v => v.not
  | neg, v => v.neg
  | plus, v => v.plus

end UnaryOp

namespace BinaryOp

def apply (op : BinaryOp) (a b : Value) : Value :=
  match op with
  | add => a.add b
  | sub => a.sub b
  | mul => a.mul b
  | div => a.div b
  | rem => a.rem b
  | eq => .bool (a.looseEq b)
  | notEq => .bool !a.looseEq b
  | strictEq => .bool (a.strictEq b)
  | strictNotEq => .bool !a.strictEq b
  | lt => Value.holds Ordering.isLT a b
  | le => Value.holds Ordering.isLE a b
  | gt => Value.holds Ordering.isGT a b
  | ge => Value.holds Ordering.isGE a b
  | and => if a.truthy then b else a
  | or => if a.truthy then a else b

end BinaryOp

namespace AssignOp

/-- What a name holds after an assignment to it. -/
def apply (op : AssignOp) (current value : Value) : Value :=
  match op with
  | set => value
  | add => current.add value
  | sub => current.sub value

end AssignOp

namespace Expr

mutual

def eval (scope : Scope) : Expr → Value
  | literal v => v
  | name n => (scope n).getD .null
  | array items => .array (evalItems scope items)
  | object entries => .map (Dictionary.ofEntries (evalEntries scope entries))
  | member whole property => (whole.eval scope).member property
  | index whole key => (whole.eval scope).itemUnder (key.eval scope)
  | unary op operand => op.apply (operand.eval scope)
  | binary op left right => op.apply (left.eval scope) (right.eval scope)
  | conditional test consequent alternate =>
    if (test.eval scope).truthy then consequent.eval scope else alternate.eval scope

def evalItems (scope : Scope) : List Expr → List Value
  | [] => []
  | e :: es => e.eval scope :: evalItems scope es

def evalEntries (scope : Scope) : List (String × Expr) → List (String × Value)
  | [] => []
  | (key, e) :: es => (key, e.eval scope) :: evalEntries scope es

end

end Expr

end PugTemplate
