import PugTemplate.Dictionary
import PugTemplate.Decimal.Reading
import PugTemplate.Text.Blank

/-!
# Data

The dynamic values a template reads and its expressions compute. Integers are 64-bit words; a map
keeps its entries in insertion order. Reading a value as a number never fails: what is no number is
NaN.
-/

namespace PugTemplate

inductive Value where
  | null
  | bool (b : Bool)
  | int (i : Int64)
  | float (f : Float)
  | string (s : String)
  | array (items : List Value)
  | map (entries : List (String × Value))
deriving Inhabited

namespace Value

/-- A length or position as an integer; past the range of integers, as the nearest float. -/
def ofNat (n : Nat) : Value :=
  if n < Nat.pow 2 63 then .int (Int64.ofNat n) else .float (Float.ofNat n)

def isNull : Value → Bool
  | null => true
  | _ => false

def isNumber : Value → Bool
  | int _ | float _ => true
  | _ => false

def asString? : Value → Option String
  | string s => some s
  | _ => none

/-- The entry of a map under a key. -/
def get? (key : String) : Value → Option Value
  | map entries => Dictionary.find? key entries
  | _ => none

/-- Null, false, zero, NaN and what is empty count as false. -/
def truthy : Value → Bool
  | null => false
  | bool b => b
  | int i => i != 0
  | float f => f != 0 && !f.isNaN
  | string s => !s.isEmpty
  | array items => !items.isEmpty
  | map entries => !entries.isEmpty

/-- Strings count characters, arrays items and maps entries. -/
def length? : Value → Option Nat
  | string s => some s.length
  | array items => some items.length
  | map entries => some entries.length
  | _ => none

/-- The nearest float to an integer. -/
def floatOfInt (i : Int64) : Float :=
  Float.ofInt i.toInt

/-- A string counts as the number its trimmed text denotes, as zero when nothing is left. -/
def numberOfText (cs : List Char) : Float :=
  let trimmed := trim cs
  if trimmed.isEmpty then 0 else (Decimal.read? trimmed).getD (0 / 0)

def toNumber : Value → Float
  | null => 0
  | bool b => if b then 1 else 0
  | int i => floatOfInt i
  | float f => f
  | string s => numberOfText s.toList
  | array _ | map _ => 0 / 0

/-- Adds or replaces an entry; anything but a map becomes an empty map first. -/
def insert (v : Value) (key : String) (value : Value) : Value :=
  match v with
  | map entries => .map (Dictionary.put key value entries)
  | _ => .map [(key, value)]

end Value

end PugTemplate
