import PugTemplate.Value.Basic
import PugTemplate.Decimal.Shortest

/-!
# The text of a value

`toOutput` is what a value leaves in running text: nothing for null, items joined by commas for an
array. `toJson` is its JSON text; a map has no other text. Floats without a JSON form become `null`.
-/

namespace PugTemplate

namespace Value

def floatText (f : Float) : String :=
  if f.isNaN then "NaN"
  else if f.isInf then (if f > 0 then "Infinity" else "-Infinity")
  else finiteText f

def intText (i : Int64) : String :=
  toString i.toInt

def hexDigit (n : Nat) : Char :=
  Nat.digitChar (n % 16)

/-- A character inside a JSON string: quotes, backslashes and control characters are escaped. -/
def jsonChar (c : Char) : List Char :=
  match c with
  | '"' => ['\\', '"']
  | '\\' => ['\\', '\\']
  | '\n' => ['\\', 'n']
  | '\r' => ['\\', 'r']
  | '\t' => ['\\', 't']
  | c =>
    if c.toNat < 0x20 then ['\\', 'u', '0', '0', hexDigit (c.toNat / 16), hexDigit c.toNat]
    else [c]

def jsonString (s : String) : String :=
  String.ofList ('"' :: (s.toList.flatMap jsonChar ++ ['"']))

def boolText (b : Bool) : String :=
  if b then "true" else "false"

def commaSeparated : List String → String
  | [] => ""
  | [s] => s
  | s :: rest => s ++ "," ++ commaSeparated rest

mutual

def toJson : Value → String
  | null => "null"
  | bool b => boolText b
  | int i => intText i
  | float f => if f.isFinite then finiteText f else "null"
  | string s => jsonString s
  | array items => "[" ++ commaSeparated (jsonItems items) ++ "]"
  | map entries => "\x7b" ++ commaSeparated (jsonEntries entries) ++ "\x7d"

def jsonItems : List Value → List String
  | [] => []
  | v :: vs => v.toJson :: jsonItems vs

def jsonEntries : List (String × Value) → List String
  | [] => []
  | (key, v) :: es => (jsonString key ++ ":" ++ v.toJson) :: jsonEntries es

end

mutual

def toOutput : Value → String
  | null => ""
  | bool b => boolText b
  | int i => intText i
  | float f => floatText f
  | string s => s
  | array items => commaSeparated (outputItems items)
  | map entries => toJson (.map entries)

def outputItems : List Value → List String
  | [] => []
  | v :: vs => v.toOutput :: outputItems vs

end

end Value

end PugTemplate
