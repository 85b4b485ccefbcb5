import PugTemplate.Expr.Basic
import PugTemplate.Decimal.Reading
import PugTemplate.Text.Letter
import PugTemplate.Text.Location
import PugTemplate.Text.Nesting
import PugTemplate.Value.Arithmetic

/-!
# The words of an expression

An expression is read as lexemes, each with the byte offset of its first character. The longest
punctuation mark wins. A backtick literal is one lexeme: the expressions in its holes are read by a
given reader, on texts shorter than the literal.
-/

namespace PugTemplate

inductive Punct where
  | strictEq
  | strictNotEq
  | eq
  | notEq
  | le
  | ge
  | andAnd
  | orOr
  | plusPlus
  | minusMinus
  | plusAssign
  | minusAssign
  | plus
  | minus
  | times
  | slash
  | percent
  | lt
  | gt
  | bang
  | question
  | colon
  | dot
  | comma
  | openRound
  | closeRound
  | openSquare
  | closeSquare
  | openCurly
  | closeCurly
  | assign
  | semicolon
deriving DecidableEq, Repr

namespace Punct

def text : Punct → String
  | strictEq => "==="
  | strictNotEq => "!=="
  | eq => "=="
  | notEq => "!="
  | le => "<="
  | ge => ">="
  | andAnd => "&&"
  | orOr => "||"
  | plusPlus => "++"
  | minusMinus => "--"
  | plusAssign => "+="
  | minusAssign => "-="
  | plus => "+"
  | minus => "-"
  | times => "*"
  | slash => "/"
  | percent => "%"
  | lt => "<"
  | gt => ">"
  | bang => "!"
  | question => "?"
  | colon => ":"
  | dot => "."
  | comma => ","
  | openRound => "("
  | closeRound => ")"
  | openSquare => "["
  | closeSquare => "]"
  | openCurly => "\x7b"
  | closeCurly => "\x7d"
  | assign => "="
  | semicolon => ";"

/-- All marks, longer ones before those they begin with. -/
def all : List Punct :=
  [strictEq, strictNotEq, eq, notEq, le, ge, andAnd, orOr, plusPlus, minusMinus, plusAssign,
    minusAssign, plus, minus, times, slash, percent, lt, gt, bang, question, colon, dot, comma,
    openRound, closeRound, openSquare, closeSquare, openCurly, closeCurly, assign, semicolon]

/-- The longest mark that a text begins with. -/
def ofStart? (cs : List Char) : Option Punct :=
  all.find? fun p => p.text.toList.isPrefixOf cs

end Punct

/-! ## Failures -/

inductive ExprCause where
  | noExpression
  | noStatement
  | trailing
  | missingSemicolon
  | missingComma
  | unexpectedChar (c : Char)
  | unterminatedEscape
  | invalidEscape
  | unterminatedString
  | unbalancedHole
  | unterminatedTemplate
  | expected (mark : Punct)
  | expectedName
  | expectedProperty
  | notAnAssignment
  | call
  | unexpectedLexeme
  | unexpectedEnd
deriving DecidableEq, Repr

def ExprCause.message : ExprCause → String
  | noExpression => "expected an expression"
  | noStatement => "expected a statement"
  | trailing => "unexpected trailing input"
  | missingSemicolon => "expected `;` or end of statement"
  | missingComma => "expected `,` between arguments"
  | unexpectedChar c => "unexpected character `" ++ String.singleton c ++ "`"
  | unterminatedEscape => "unterminated escape sequence"
  | invalidEscape => "invalid escape sequence"
  | unterminatedString => "unterminated string"
  | unbalancedHole => "unbalanced `$\x7b` in template literal"
  | unterminatedTemplate => "unterminated template literal"
  | expected mark => "expected `" ++ mark.text ++ "`"
  | expectedName => "expected an identifier"
  | expectedProperty => "expected a property name"
  | notAnAssignment => "only declarations and assignments are supported"
  | call => "function calls are not supported"
  | unexpectedLexeme => "unexpected token"
  | unexpectedEnd => "unexpected end of expression"

/-- Why an expression cannot be read, and at which byte of its text. -/
structure ExprError where
  cause : ExprCause
  offset : Nat
deriving DecidableEq, Repr

def ExprError.message (e : ExprError) : String :=
  e.cause.message ++ " (at offset " ++ toString e.offset ++ ")"

/-! ## Lexemes -/

inductive Lexeme where
  | number (value : Value)
  | text (s : String)
  /-- A backtick literal: its literal texts and the expressions in its holes. -/
  | template (parts : List Expr)
  | name (s : String)
  | punct (p : Punct)

structure Placed where
  lexeme : Lexeme
  offset : Nat

namespace Lexeme

/-! ### Numbers -/

/-- A point and the digits behind it, if there are any. -/
def fractionOf : List Char → List Char
  | '.' :: cs =>
    let digits := cs.takeWhile Char.isDigit
    if digits.isEmpty then [] else '.' :: digits
  | _ => []

/-- An exponent mark, its sign and its digits, if there are any. -/
def exponentOf : List Char → List Char
  | [] => []
  | c :: cs =>
    if c = 'e' ∨ c = 'E' then
      let sign := (cs.take 1).filter fun s => s == '+' || s == '-'
      let digits := (cs.drop sign.length).takeWhile Char.isDigit
      if digits.isEmpty then [] else c :: (sign ++ digits)
    else []

/-- The number a text begins with, and how many characters it takes. Digits alone are an integer as
long as it fits in 64 bits. -/
def readNumber (cs : List Char) : Value × Nat :=
  let whole := cs.takeWhile Char.isDigit
  let fraction := fractionOf (cs.drop whole.length)
  let exponent := exponentOf (cs.drop (whole.length + fraction.length))
  let text := whole ++ fraction ++ exponent
  let asFloat := Value.float ((Decimal.read? text).getD 0)
  let value :=
    if fraction.isEmpty && exponent.isEmpty then
      match Value.word? (Decimal.digitsValue whole) with
      | some i => .int i
      | none => asFloat
    else asFloat
  (value, text.length)

/-! ### Escapes and strings -/

def hexValue? (c : Char) : Option Nat :=
  if c.isDigit then some (c.toNat - '0'.toNat)
  else if 'a' ≤ c ∧ c ≤ 'f' then some (c.toNat - 'a'.toNat + 10)
  else if 'A' ≤ c ∧ c ≤ 'F' then some (c.toNat - 'A'.toNat + 10)
  else none

def hexNumber? (cs : List Char) : Option Nat :=
  cs.foldl (fun n c => n.bind fun n => (hexValue? c).map (16 * n + ·)) (some 0)

/-- The character with a hexadecimal number; surrogates are no characters. -/
def charOf? (n : Nat) : Option Char :=
  if h : n.isValidChar then some (Char.ofNatAux n h) else none

/-- The character that a fixed count of hexadecimal places denotes; a plus sign may stand in the
first place. -/
def hexChar? (places : Nat) (cs : List Char) : Option Char :=
  let text := cs.take places
  let digits := match text with
    | '+' :: ds => ds
    | ds => ds
  if text.length = places ∧ digits ≠ [] then (hexNumber? digits).bind charOf? else none

/-- What stands for itself behind a backslash, and what does not. -/
def simpleEscape (c : Char) : Char :=
  match c with
  | 'n' => '\n'
  | 't' => '\t'
  | 'r' => '\r'
  | '0' => '\x00'
  | 'b' => '\x08'
  | 'f' => '\x0c'
  | 'v' => '\x0b'
  | c => c

/-- The character that an escape denotes, read behind its backslash, and how many characters it
takes. An escaped line feed denotes nothing. -/
def readEscape : List Char → Except ExprCause (Option Char × Nat)
  | [] => .error .unterminatedEscape
  | c :: cs =>
    let places := if c = 'u' then 4 else if c = 'x' then 2 else 0
    if places = 0 then .ok (if c = '\n' then none else some (simpleEscape c), 1)
    else match hexChar? places cs with
      | some ch => .ok (some ch, 1 + places)
      | none => .error .invalidEscape

def placeCause {α : Type} (offset : Nat) : Except ExprCause α → Except ExprError α
  | .ok a => .ok a
  | .error cause => .error ⟨cause, offset⟩

/-- The characters of a string up to its closing mark, and how many characters they take with it.
`base` is the offset of the opening mark, `offset` that of the text read. -/
def readString (mark : Char) (base offset : Nat) (cs : List Char) :
    Except ExprError (List Char × Nat) :=
  match cs with
  | [] => .error ⟨.unterminatedString, base⟩
  | c :: cs =>
    if c = mark then .ok ([], 1)
    else if c = '\\' then do
      let (ch, n) ← placeCause offset (readEscape cs)
      let (s, k) ← readString mark base (offset + 1 + byteLength (cs.take n)) (cs.drop n)
      return (ch.toList ++ s, 1 + n + k)
    else if c = '\n' then .error ⟨.unterminatedString, base⟩
    else do
      let (s, k) ← readString mark base (offset + c.utf8Size) cs
      return (c :: s, 1 + k)
termination_by cs.length

/-! ### Backtick literals -/

inductive Part where
  | text (cs : List Char)
  | hole (e : Expr)

/-- One more character in front of the parts; texts in a row are one text. -/
def Part.cons (c : Char) : List Part → List Part
  | .text cs :: ps => .text (c :: cs) :: ps
  | ps => .text [c] :: ps

def Part.toExpr : Part → Expr
  | .text cs => .literal (.string (String.ofList cs))
  | .hole e => e

/-- The parts of a backtick literal up to its closing mark, and how many characters they take with
it. -/
def readTemplate (inner : List Char → Except ExprError Expr) (base offset : Nat)
    (cs : List Char) : Except ExprError (List Part × Nat) :=
  match cs with
  | [] => .error ⟨.unterminatedTemplate, base⟩
  | c :: cs =>
    if c = '`' then .ok ([], 1)
    else if c = '\\' then do
      let (ch, n) ← placeCause offset (readEscape cs)
      let (ps, k) ← readTemplate inner base (offset + 1 + byteLength (cs.take n)) (cs.drop n)
      return (match ch with
        | some ch => Part.cons ch ps
        | none => ps, 1 + n + k)
    else if c = '$' ∧ cs.head? = some '\x7b' then
      let start := offset + 2
      match Nesting.inside .curly cs.tail with
      | .error f => .error ⟨.unbalancedHole, start + byteLength f.before⟩
      | .ok content =>
        match inner content with
        | .error e => .error ⟨e.cause, start + e.offset⟩
        | .ok e => do
          let n := content.length + 2
          let (ps, k) ← readTemplate inner base (start + byteLength content + 1) (cs.drop n)
          return (.hole e :: ps, 1 + n + k)
    else do
      let (ps, k) ← readTemplate inner base (offset + c.utf8Size) cs
      return (Part.cons c ps, 1 + k)
termination_by cs.length

/-! ### All lexemes -/

/-- The lexeme that begins with a character that is not blank, and how many characters it takes
behind it. -/
def read (inner : List Char → Except ExprError Expr) (offset : Nat) (c : Char) (cs : List Char) :
    Except ExprError (Lexeme × Nat) :=
  if c.isDigit ∨ (c = '.' ∧ cs.head?.any Char.isDigit) then
    let (value, n) := readNumber (c :: cs)
    .ok (.number value, n - 1)
  else if c = '\'' ∨ c = '"' then do
    let (s, n) ← readString c offset (offset + 1) cs
    return (.text (String.ofList s), n)
  else if c = '`' then do
    let (parts, n) ← readTemplate inner offset (offset + 1) cs
    return (.template (parts.map Part.toExpr), n)
  else if isNameStart c then
    let rest := cs.takeWhile isNameChar
    .ok (.name (String.ofList (c :: rest)), rest.length)
  else match Punct.ofStart? (c :: cs) with
    | some p => .ok (.punct p, p.text.length - 1)
    | none => .error ⟨.unexpectedChar c, offset⟩

/-- The lexemes of a text that begins at an offset; blanks between them are skipped. -/
def readAll (inner : List Char → Except ExprError Expr) (offset : Nat) (cs : List Char) :
    Except ExprError (List Placed) :=
  match cs with
  | [] => .ok []
  | c :: cs =>
    if isBlank c then readAll inner (offset + c.utf8Size) cs
    else do
      let (lexeme, n) ← read inner offset c cs
      let rest ← readAll inner (offset + c.utf8Size + byteLength (cs.take n)) (cs.drop n)
      return ⟨lexeme, offset⟩ :: rest
termination_by cs.length

end Lexeme

end PugTemplate
