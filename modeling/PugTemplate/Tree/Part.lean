import PugTemplate.Expr.Parse
import PugTemplate.Text.Lines
import PugTemplate.Text.Marker
import PugTemplate.Tree.Basic
import PugTemplate.Tree.Error

/-!
# Parts of a node

What a node is made of besides other nodes: expressions, parameters, attributes and runs of text.
Every reader here answers its result and the number of tokens it read; the tokens behind an
exhausted stream count as its end.
-/

namespace PugTemplate

/-- Where the next token stands; behind the last token nothing moves on. -/
def placeOf (stop : Location) : List Token → Location
  | [] => stop
  | t :: _ => t.loc

/-- The failure of a production that waits for something else. -/
def unexpected {α : Type} (stop : Location) (ts : List Token) (expected : Expectation) :
    Except ParseError α :=
  match ts with
  | [] | ⟨.eos, _⟩ :: _ => .error ⟨.unexpectedEnd expected, placeOf stop ts⟩
  | t :: _ => .error ⟨.unexpectedToken expected t.kind, t.loc⟩

/-! ## Expressions -/

/-- The failure of an expression is reported where its construct stands. -/
def atLocation {α : Type} (source : String) (loc : Location) :
    Except ExprError α → Except ParseError α
  | .ok a => .ok a
  | .error e => .error ⟨.invalidExpression source e.cause, loc⟩

def expressionAt (source : String) (loc : Location) : Except ParseError Expr :=
  atLocation source loc (Expr.read source.toList)

def statementsAt (source : String) (loc : Location) : Except ParseError (List Statement) :=
  atLocation source loc (Statement.readAll source.toList)

/-- The statements of a block of code, a line at a time. -/
def blockStatements (loc : Location) : List (List Char) → Except ParseError (List Statement)
  | [] => return []
  | line :: rest => do
    let here ← if allBlank line then pure [] else statementsAt (String.ofList line) loc
    return here ++ (← blockStatements ⟨loc.line + 1, loc.column⟩ rest)

/-! ## Parameters -/

/-- Behind three dots. -/
def restName? : List Char → Option (List Char)
  | '.' :: '.' :: '.' :: name => some (trim name)
  | _ => none

/-- One parameter; `last` says that no other follows. -/
def paramAt (loc : Location) (last : Bool) (part : List Char) : Except ParseError Param :=
  let fail := fun fault => Except.error ⟨.invalidParam (String.ofList part) fault, loc⟩
  match restName? part with
  | some name =>
    if !last then fail .restNotLast
    else if isName name then return ⟨String.ofList name, none, true⟩
    else fail .noName
  | none => do
    let name := part.takeWhile (· ≠ '=')
    let fallback ← match part.drop name.length with
      | [] => pure none
      | _ :: source => some <$> expressionAt (String.ofList source) loc
    let name := if fallback.isSome then trim name else name
    if isName name then return ⟨String.ofList name, fallback, false⟩ else fail .noName

def paramParts (loc : Location) : List (List Char) → Except ParseError (List Param)
  | [] => return []
  | part :: parts => do
    let p ← paramAt loc parts.isEmpty (trim part)
    return p :: (← paramParts loc parts)

/-- The parameters of a mixin, between commas. -/
def paramsAt (source : String) (loc : Location) : Except ParseError (List Param) :=
  if allBlank source.toList then return []
  else paramParts loc (Nesting.commaParts [] source.toList)

/-! ## Attributes -/

/-- Whether a text begins as a quoted string. -/
def beginsQuoted (source : String) : Bool :=
  source.toList.head?.any fun c => c == '\'' || c == '"'

def isTextLiteral (e : Expr) : Bool :=
  (e.asLiteral?.bind Value.asString?).isSome

def Attribute.ofToken (name : String) (source : Option String) (escape : Bool) (loc : Location) :
    Except ParseError Attribute :=
  match source with
  | none => return ⟨name, none, .literal (.bool true), escape, false⟩
  | some source => do
    let value ← expressionAt source loc
    return ⟨name, some source, value, escape, beginsQuoted source && isTextLiteral value⟩

/-- The attribute that `#name` or `.name` stands for. -/
def Attribute.shorthand (name text : String) : Attribute :=
  ⟨name, some ("'" ++ text ++ "'"), .literal (.string text), true, true⟩

/-- The attributes of a list, through its end. -/
def attributesRead (stop : Location) : List Token → Except ParseError (List Attribute × Nat)
  | ⟨.attr name source escape, loc⟩ :: rest => do
    let a ← Attribute.ofToken name source escape loc
    let (as, k) ← attributesRead stop rest
    return (a :: as, k + 1)
  | ⟨.attributesEnd, _⟩ :: _ => return ([], 1)
  | ts => unexpected stop ts .attributesEnd

namespace Head

def has (h : Head) (name : String) : Bool :=
  h.attributes.any fun a => a.name == name

/-- Adds an attribute. Of several ids the first one stands, and any number of classes; any other
name may occur once. -/
def add (h : Head) (a : Attribute) : Except ParseCause Head :=
  if a.name = "id" ∧ h.has "id" then .ok h
  else if a.name ≠ "class" ∧ h.has a.name then .error (.duplicateAttribute a.name)
  else .ok { h with attributes := h.attributes ++ [a] }

def addAll (h : Head) : List Attribute → Except ParseCause Head
  | [] => .ok h
  | a :: as =>
    match h.add a with
    | .ok h => h.addAll as
    | .error cause => .error cause

/-- Ids, classes, attribute lists and spreads in a row, added to what is there. -/
def read (stop : Location) (h : Head) (ts : List Token) : Except ParseError (Head × Nat) :=
  match ts with
  | ⟨.id name, loc⟩ :: rest =>
    match h.add (.shorthand "id" name) with
    | .error cause => .error ⟨cause, loc⟩
    | .ok h => do
      let (h, n) ← read stop h rest
      return (h, n + 1)
  | ⟨.className name, loc⟩ :: rest =>
    match h.add (.shorthand "class" name) with
    | .error cause => .error ⟨cause, loc⟩
    | .ok h => do
      let (h, n) ← read stop h rest
      return (h, n + 1)
  | ⟨.attributesStart, loc⟩ :: rest => do
    let (as, k) ← attributesRead stop rest
    match h.addAll as with
    | .error cause => .error ⟨cause, loc⟩
    | .ok h => do
      let (h, n) ← read stop h (rest.drop k)
      return (h, n + k + 1)
  | ⟨.spread source, loc⟩ :: rest => do
    let e ← expressionAt source loc
    let (h, n) ← read stop { h with spreads := h.spreads ++ [e] } rest
    return (h, n + 1)
  | _ => return (h, 0)
termination_by ts.length
decreasing_by all_goals simp only [List.length_cons, List.length_drop]; omega

end Head

/-! ## Runs of text -/

/-- The text of tokens in a row; where lines are joined, a line end between them is part of it. -/
def textRun (joined : Bool) : List Token → String × Nat
  | ⟨.text s, _⟩ :: rest =>
    let (more, k) := textRun joined rest
    (s ++ more, k + 1)
  | ⟨.newline, _⟩ :: ⟨.text s, _⟩ :: rest =>
    if joined then
      let (more, k) := textRun joined rest
      ("\n" ++ s ++ more, k + 2)
    else ("", 0)
  | _ => ("", 0)

/-- The lines of literal markup in a row. -/
def htmlRun : List Token → List String × Nat
  | ⟨.html s, _⟩ :: rest =>
    let (more, k) := htmlRun rest
    (s :: more, k + 1)
  | ⟨.newline, _⟩ :: ⟨.html s, _⟩ :: rest =>
    let (more, k) := htmlRun rest
    (s :: more, k + 2)
  | _ => ([], 0)

/-- Lines joined by line feeds; an empty line in front leaves no trace. -/
def joinLines (lines : List String) : String :=
  lines.foldl (fun text line => if text.isEmpty then line else text ++ "\n" ++ line) ""

/-- The text of a block without pipes, behind its start and through its end. -/
def pipelessRun : List Token → Option (String × Nat)
  | ⟨.text s, _⟩ :: rest => (pipelessRun rest).map fun (more, k) => (s ++ more, k + 1)
  | ⟨.newline, _⟩ :: rest => (pipelessRun rest).map fun (more, k) => ("\n" ++ more, k + 1)
  | ⟨.pipelessEnd, _⟩ :: _ => some ("", 1)
  | _ => none

/-- A block without pipes, with the position of its first line; it must end. -/
def pipelessBody (stop : Location) (ts : List Token) :
    Except ParseError (Location × String × Nat) :=
  match pipelessRun ts with
  | some (text, k) => return (placeOf stop ts, text, k)
  | none => .error ⟨.unexpectedEnd .pipelessEnd, placeOf stop ts⟩

/-! ## Paths -/

/-- What follows the last dot of a name, unless the name begins with that dot. -/
def extensionOf? (name : List Char) : Option (List Char) :=
  let ending := (name.reverse.takeWhile (· ≠ '.')).reverse
  if ending.length + 1 < name.length then some ending else none

/-- The extension of the file that a path names; a path that ends in two dots names none. -/
def pathExtension? (path : List Char) : Option (List Char) :=
  let parts := (fields '/' path).filter fun p => p ≠ [] ∧ p ≠ ['.']
  match parts.getLast? with
  | none => none
  | some name => if name = ['.', '.'] then none else extensionOf? name

/-- Whether an inclusion takes a file in as text and not as a template. -/
def isRawInclude (path : String) (filter : Option String) : Bool :=
  filter.isSome || (pathExtension? path.toList).any fun e => e != "pug".toList

end PugTemplate
