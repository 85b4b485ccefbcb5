import PugTemplate.Value.Basic

/-!
# Equality and order of values

Values of one kind are the same when their contents are; maps are the same whatever the order of
their entries. Strict equality also compares an integer with a float, loose equality reads strings
and booleans as numbers beside a number. Strings are ordered by code points, all else as numbers.
-/

namespace PugTemplate

namespace Value

mutual

/-- The same kind and the same contents. -/
def same : Value → Value → Bool
  | null, null => true
  | bool a, bool b => a == b
  | int a, int b => a == b
  | float a, float b => a == b
  | string a, string b => a == b
  | array as, array bs => sameItems as bs
  | map as, map bs => as.length == bs.length && sameEntries as bs
  | _, _ => false

def sameItems : List Value → List Value → Bool
  | [], [] => true
  | a :: as, b :: bs => same a b && sameItems as bs
  | _, _ => false

/-- Every entry is found, with the same value, in the other map. -/
def sameEntries : List (String × Value) → List (String × Value) → Bool
  | [], _ => true
  | (key, a) :: as, bs =>
    (match Dictionary.find? key bs with
      | some b => same a b
      | none => false) && sameEntries as bs

end

def strictEq : Value → Value → Bool
  | int a, float b => floatOfInt a == b
  | float a, int b => floatOfInt b == a
  | a, b => same a b

/-- Strings and booleans on the left are read as numbers beside numbers and booleans, and so are
strings on the right; two strings compare as texts, and null equals null alone. -/
def looseEq (a b : Value) : Bool :=
  match a, b with
  | null, null => true
  | null, _ => false
  | _, null => false
  | string s, string t => s == t
  | string _, int _ | string _, float _ | string _, bool _
  | bool _, int _ | bool _, float _ | bool _, bool _
  | int _, string _ | float _, string _ | bool _, string _ => a.toNumber == b.toNumber
  | _, _ => strictEq a b

def compareFloats (x y : Float) : Option Ordering :=
  if x < y then some .lt
  else if x == y then some .eq
  else if y < x then some .gt
  else none

def compare? : Value → Value → Option Ordering
  | string s, string t => some (if s < t then .lt else if s = t then .eq else .gt)
  | int a, int b => some (if a < b then .lt else if a = b then .eq else .gt)
  | a, b => compareFloats a.toNumber b.toNumber

end Value

end PugTemplate
