import PugTemplate.Expr.Lexeme

/-!
# Reading expressions

Operators bind by the levels of `Level.table`, loosest first, and each level groups to the left; the
conditional groups to the right and binds loosest of all. Every production answers its result and
the number of lexemes it read. The hole of a backtick literal is an expression of its own, read from
a shorter text.
-/

namespace PugTemplate

/-- The operators of one precedence level. -/
abbrev Level := List (Punct × BinaryOp)

/-- The binary operators, loosest first. -/
def Level.table : List Level :=
  [[(.orOr, .or)],
   [(.andAnd, .and)],
   [(.strictEq, .strictEq), (.strictNotEq, .strictNotEq), (.eq, .eq), (.notEq, .notEq)],
   [(.le, .le), (.ge, .ge), (.lt, .lt), (.gt, .gt)],
   [(.plus, .add), (.minus, .sub)],
   [(.times, .mul), (.slash, .div), (.percent, .rem)]]

namespace Expr

/-- The operator that a lexeme stands for on a level. -/
def operator? (level : Level) : List Placed → Option BinaryOp
  | ⟨.punct p, _⟩ :: _ => level.lookup p
  | _ => none

def unary? : List Placed → Option UnaryOp
  | ⟨.punct .bang, _⟩ :: _ => some .not
  | ⟨.punct .minus, _⟩ :: _ => some .neg
  | ⟨.punct .plus, _⟩ :: _ => some .plus
  | _ => none

def startsWith (p : Punct) : List Placed → Bool
  | ⟨.punct q, _⟩ :: _ => q == p
  | _ => false

/-- Where the next lexeme stands, or where the text stops. -/
def offsetOf (stop : Nat) : List Placed → Nat
  | [] => stop
  | p :: _ => p.offset

def failAt {α : Type} (stop : Nat) (ts : List Placed) (cause : ExprCause) : Except ExprError α :=
  .error ⟨cause, offsetOf stop ts⟩

/-- What a name alone stands for: some are constants. -/
def ofName (n : String) : Expr :=
  if n = "true" then .literal (.bool true)
  else if n = "false" then .literal (.bool false)
  else if n = "null" ∨ n = "undefined" then .literal .null
  else .name n

/-- A backtick literal joins its parts as texts. -/
def ofTemplate (parts : List Expr) : Expr :=
  parts.foldl (.binary .add) (.literal (.string ""))

/-- The key that a lexeme gives an entry of an object, and whether it may stand alone. -/
def keyOf? : Lexeme → Option (String × Bool)
  | .name n => some (n, true)
  | .text s => some (s, false)
  | .number v => some (v.toOutput, false)
  | _ => none

theorem length_of_startsWith {p : Punct} {ts : List Placed} (h : startsWith p ts = true) :
    ts.tail.length < ts.length := by
  cases ts with
  | nil => simp [startsWith] at h
  | cons t ts => simp

theorem length_of_operator? {level : Level} {ts : List Placed} {op : BinaryOp}
    (h : operator? level ts = some op) : ts.tail.length < ts.length := by
  cases ts with
  | nil => simp [operator?] at h
  | cons t ts => simp

theorem length_of_unary? {ts : List Placed} {op : UnaryOp}
    (h : unary? ts = some op) : ts.tail.length < ts.length := by
  cases ts with
  | nil => simp [unary?] at h
  | cons t ts => simp

mutual

/-- `test ? consequent : alternate`, or the test alone. -/
def readTernary (stop : Nat) (ts : List Placed) : Except ExprError (Expr × Nat) := do
  let (test, k) ← readLevel stop Level.table ts
  let rest := ts.drop k
  if _hq : startsWith .question rest = true then do
    let (consequent, m) ← readTernary stop rest.tail
    let rest₂ := rest.tail.drop m
    if _hc : startsWith .colon rest₂ = true then do
      let (alternate, n) ← readTernary stop rest₂.tail
      return (.conditional test consequent alternate, k + 1 + m + 1 + n)
    else failAt stop rest₂ (.expected .colon)
  else return (test, k)
termination_by (ts.length, 20)
decreasing_by
  · simp [Prod.lex_def, Level.table]
  · have := length_of_startsWith _hq
    simp only [Prod.lex_def, rest, List.length_drop] at *
    omega
  · have h₁ := length_of_startsWith _hq
    have h₂ := length_of_startsWith _hc
    simp only [Prod.lex_def, rest₂, rest, List.length_drop, List.length_tail] at *
    omega

/-- A chain of operators of the first level, over operands of the tighter ones. -/
def readLevel (stop : Nat) (levels : List Level) (ts : List Placed) :
    Except ExprError (Expr × Nat) :=
  match levels with
  | [] => readUnary stop ts
  | level :: tighter => do
    let (left, k) ← readLevel stop tighter ts
    let (e, n) ← readChain stop level tighter left (ts.drop k)
    return (e, k + n)
termination_by (ts.length, levels.length + 8)
decreasing_by
  · simp [Prod.lex_def]
  · simp [Prod.lex_def]
  · simp only [Prod.lex_def, List.length_drop, List.length_cons]
    omega

/-- The rest of a chain behind its left operand. -/
def readChain (stop : Nat) (level : Level) (tighter : List Level) (left : Expr)
    (ts : List Placed) : Except ExprError (Expr × Nat) :=
  match _h : operator? level ts with
  | none => return (left, 0)
  | some op => do
    let (right, k) ← readLevel stop tighter ts.tail
    let (e, n) ← readChain stop level tighter (.binary op left right) (ts.tail.drop k)
    return (e, 1 + k + n)
termination_by (ts.length, tighter.length + 8)
decreasing_by
  · have := length_of_operator? _h
    simp only [Prod.lex_def]
    omega
  · have := length_of_operator? _h
    simp only [Prod.lex_def, List.length_drop]
    omega

def readUnary (stop : Nat) (ts : List Placed) : Except ExprError (Expr × Nat) :=
  match _h : unary? ts with
  | some op => do
    let (operand, k) ← readUnary stop ts.tail
    return (.unary op operand, 1 + k)
  | none => do
    let (e, k) ← readPrimary stop ts
    let (e, n) ← readSuffixes stop e (ts.drop k)
    return (e, k + n)
termination_by (ts.length, 7)
decreasing_by
  · have := length_of_unary? _h
    simp only [Prod.lex_def]
    omega
  · simp [Prod.lex_def]
  · simp only [Prod.lex_def, List.length_drop]
    omega

/-- The members and indices behind an expression. -/
def readSuffixes (stop : Nat) (e : Expr) (ts : List Placed) : Except ExprError (Expr × Nat) :=
  match ts with
  | ⟨.punct .dot, _⟩ :: ⟨.name property, _⟩ :: rest => do
    let (e, n) ← readSuffixes stop (.member e property) rest
    return (e, 2 + n)
  | ⟨.punct .dot, _⟩ :: rest => failAt stop rest .expectedName
  | ⟨.punct .openSquare, _⟩ :: rest => do
    let (key, k) ← readTernary stop rest
    let rest₂ := rest.drop k
    if _hc : startsWith .closeSquare rest₂ = true then do
      let (e, n) ← readSuffixes stop (.index e key) rest₂.tail
      return (e, 1 + k + 1 + n)
    else failAt stop rest₂ (.expected .closeSquare)
  | ⟨.punct .openRound, offset⟩ :: _ => .error ⟨.call, offset⟩
  | _ => return (e, 0)
termination_by (ts.length, 5)
decreasing_by
  · simp only [Prod.lex_def, List.length_cons]
    omega
  · simp only [Prod.lex_def, List.length_cons]
    omega
  · have := length_of_startsWith _hc
    simp only [Prod.lex_def, rest₂, List.length_drop, List.length_cons] at *
    omega

def readPrimary (stop : Nat) (ts : List Placed) : Except ExprError (Expr × Nat) :=
  match ts with
  | [] => .error ⟨.unexpectedEnd, stop⟩
  | ⟨.number v, _⟩ :: _ => return (.literal v, 1)
  | ⟨.text s, _⟩ :: _ => return (.literal (.string s), 1)
  | ⟨.template parts, _⟩ :: _ => return (ofTemplate parts, 1)
  | ⟨.name n, _⟩ :: _ => return (ofName n, 1)
  | ⟨.punct .openRound, _⟩ :: rest => do
    let (e, k) ← readTernary stop rest
    if startsWith .closeRound (rest.drop k) then return (e, 1 + k + 1)
    else failAt stop (rest.drop k) (.expected .closeRound)
  | ⟨.punct .openSquare, _⟩ :: rest => do
    let (items, k) ← readItems stop rest
    return (.array items, 1 + k)
  | ⟨.punct .openCurly, _⟩ :: rest => do
    let (entries, k) ← readEntries stop rest
    return (.object entries, 1 + k)
  | ⟨.punct _, offset⟩ :: _ => .error ⟨.unexpectedLexeme, offset⟩
termination_by (ts.length, 6)
decreasing_by
  all_goals
    simp only [Prod.lex_def, List.length_cons]
    omega

/-- The items of an array through its closing bracket; a comma may stand behind the last one. -/
def readItems (stop : Nat) (ts : List Placed) : Except ExprError (List Expr × Nat) :=
  if startsWith .closeSquare ts then return ([], 1)
  else do
    let (e, k) ← readTernary stop ts
    let rest := ts.drop k
    if _hc : startsWith .comma rest = true then do
      let (es, n) ← readItems stop rest.tail
      return (e :: es, k + 1 + n)
    else if startsWith .closeSquare rest then return ([e], k + 1)
    else failAt stop rest (.expected .closeSquare)
termination_by (ts.length, 21)
decreasing_by
  · simp [Prod.lex_def]
  · have := length_of_startsWith _hc
    simp only [Prod.lex_def, rest, List.length_drop] at *
    omega

/-- The value of an entry behind its key: what stands after a colon, or the name itself. -/
def readValue (stop : Nat) (key : String) (alone : Bool) (ts : List Placed) :
    Except ExprError (Expr × Nat) :=
  if _hc : startsWith .colon ts = true then do
    let (value, k) ← readTernary stop ts.tail
    return (value, 1 + k)
  else if alone then return (.name key, 0)
  else failAt stop ts (.expected .colon)
termination_by (ts.length, 0)
decreasing_by
  have := length_of_startsWith _hc
  simp only [Prod.lex_def]
  omega

/-- The entries of an object through its closing bracket; a comma may stand behind the last one. -/
def readEntries (stop : Nat) (ts : List Placed) :
    Except ExprError (List (String × Expr) × Nat) :=
  if startsWith .closeCurly ts then return ([], 1)
  else match ts with
    | [] => .error ⟨.expectedProperty, stop⟩
    | t :: ts₁ =>
      match keyOf? t.lexeme with
      | none => .error ⟨.expectedProperty, t.offset⟩
      | some (key, alone) => do
        let (value, k) ← readValue stop key alone ts₁
        let rest := ts₁.drop k
        if _hc : startsWith .comma rest = true then do
          let (es, n) ← readEntries stop rest.tail
          return ((key, value) :: es, 1 + k + 1 + n)
        else if startsWith .closeCurly rest then return ([(key, value)], 1 + k + 1)
        else failAt stop rest (.expected .closeCurly)
termination_by (ts.length, 21)
decreasing_by
  · simp [Prod.lex_def]
  · have := length_of_startsWith _hc
    simp only [Prod.lex_def, rest, List.length_drop, List.length_cons] at *
    omega

end

/-! ## Whole texts -/

/-- Reads a whole text as one expression, given a reader for the holes in it. -/
def readWith (inner : List Char → Except ExprError Expr) (src : List Char) :
    Except ExprError Expr := do
  let stop := byteLength src
  let ts ← Lexeme.readAll inner 0 src
  if ts.isEmpty then .error ⟨.noExpression, 0⟩
  else do
    let (e, k) ← readTernary stop ts
    if (ts.drop k).isEmpty then return e else failAt stop (ts.drop k) .trailing

/-- The expression a text denotes. -/
def read (src : List Char) : Except ExprError Expr :=
  readWith
    (fun hole => if hole.length < src.length then read hole else .error ⟨.unexpectedEnd, 0⟩) src
termination_by src.length

/-- Items between commas up to the end of the text; a comma may stand behind the last one. -/
def readArguments (stop : Nat) (ts : List Placed) : Except ExprError (List Expr) :=
  if ts.isEmpty then return []
  else do
    let (e, k) ← readTernary stop ts
    let rest := ts.drop k
    if _hc : startsWith .comma rest = true then do
      let es ← readArguments stop rest.tail
      return e :: es
    else if rest.isEmpty then return [e]
    else failAt stop rest .missingComma
termination_by ts.length
decreasing_by
  have : rest.tail.length < rest.length := length_of_startsWith _hc
  simp only [rest, List.length_drop] at *
  omega

/-- The expressions of an argument list. -/
def readList (src : List Char) : Except ExprError (List Expr) := do
  let ts ← Lexeme.readAll read 0 src
  readArguments (byteLength src) ts

end Expr

namespace Statement

open PugTemplate.Expr (startsWith failAt readTernary)

/-- The expression behind an assignment mark. -/
def readAssigned (stop : Nat) (name : String) (op : AssignOp) (ts : List Placed) :
    Except ExprError (Statement × Nat) := do
  let (value, k) ← readTernary stop ts
  return (.assign name op value, 2 + k)

/-- A declaration, with an optional value, or an assignment; `++` and `--` add and subtract one. -/
def readOne (stop : Nat) (ts : List Placed) : Except ExprError (Statement × Nat) :=
  match ts with
  | ⟨.name word, _⟩ :: rest =>
    if word = "var" ∨ word = "let" ∨ word = "const" then
      match rest with
      | ⟨.name name, _⟩ :: rest =>
        if startsWith .assign rest then do
          let (value, k) ← readTernary stop rest.tail
          return (.declare name value, 3 + k)
        else return (.declare name (.literal .null), 2)
      | rest => failAt stop rest .expectedName
    else
      match rest with
      | ⟨.punct .assign, _⟩ :: rest => readAssigned stop word .set rest
      | ⟨.punct .plusAssign, _⟩ :: rest => readAssigned stop word .add rest
      | ⟨.punct .minusAssign, _⟩ :: rest => readAssigned stop word .sub rest
      | ⟨.punct .plusPlus, _⟩ :: _ => return (.assign word .add (.literal (.int 1)), 2)
      | ⟨.punct .minusMinus, _⟩ :: _ => return (.assign word .sub (.literal (.int 1)), 2)
      | rest => failAt stop rest .notAnAssignment
  | ts => failAt stop ts .expectedName

/-- Statements between semicolons, of which there may be more than one in a row. -/
def readSequence (stop : Nat) (ts : List Placed) : Except ExprError (List Statement) :=
  match ts with
  | [] => return []
  | t :: ts₁ =>
    if startsWith .semicolon (t :: ts₁) then readSequence stop ts₁
    else do
      let (s, k) ← readOne stop (t :: ts₁)
      let rest := (t :: ts₁).drop k
      if rest.isEmpty then return [s]
      else if _hs : startsWith .semicolon rest = true then do
        let more ← readSequence stop rest.tail
        return s :: more
      else failAt stop rest .missingSemicolon
termination_by ts.length
decreasing_by
  · simp
  · have : rest.tail.length < rest.length := Expr.length_of_startsWith _hs
    simp only [rest, List.length_drop] at *
    omega

/-- The statements of a text, at least one. -/
def readAll (src : List Char) : Except ExprError (List Statement) := do
  let ts ← Lexeme.readAll Expr.read 0 src
  let statements ← readSequence (byteLength src) ts
  if statements.isEmpty then .error ⟨.noStatement, 0⟩ else return statements

end Statement

end PugTemplate
