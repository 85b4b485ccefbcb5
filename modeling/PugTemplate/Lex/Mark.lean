import PugTemplate.Lex.Keyword
import PugTemplate.Lex.Pipeless

/-!
# Lines that begin with a mark

The rules for all that no keyword begins: tags and their shorthands, code, calls, filters, comments
and text. They have the form of the keyword rules, and like them leave less text than they found.
-/

namespace PugTemplate

namespace Rule

/-- A token followed by the text block below its line. -/
def withPipeless (check : Bool) (width : Nat) (first : Token) (c : Cursor) : Reading :=
  match Pipeless.read check width c with
  | .ok (tokens, d) => .ok (first :: tokens, d)
  | .error e => .error e

/-- Text up to the end of the line, its markers checked. -/
def restAsText (kind : String → TokenKind) (c : Cursor) : Reading :=
  match checkMarkers c.loc c.line with
  | .ok () => emit (kind (String.ofList c.line)) c.loc c.skipLine
  | .error e => .error e

/-! ## Tags and their parts -/

def interpolation : Rule := fun _ c =>
  if c.startsWith "#\x7b" then
    match (c.skip 2).inside .curly with
    | .error e => some (.error e)
    | .ok (content, d) =>
      some (emit (.interpolation (String.ofList (trim content))) c.loc d)
  else none

/-- Characters of a tag name; hyphens and colons at its end belong to what follows. -/
def isTagChar (c : Char) : Bool :=
  isWord c || c == '-' || c == ':'

def tagName (cs : List Char) : List Char :=
  ((cs.takeWhile isTagChar).reverse.dropWhile fun c => c == '-' || c == ':').reverse

def tag : Rule := fun _ c =>
  if c.rest.head?.any isWord then
    let name := tagName c.rest
    some (emit (.tag (String.ofList name)) c.loc (c.skip name.length))
  else none

/-- `#name`; a line that opens with `#[` is text. -/
def id : Rule := fun _ c =>
  if c.startsWith "#[" then some (restAsText .text c)
  else if c.startsWith "#" then
    let name := (c.skip 1).word
    if name.any isAsciiLetterOrUnderscore then
      some (emit (.id (String.ofList name)) c.loc (c.skip (1 + name.length)))
    else some (refuse (.invalidId (String.ofList c.line)) c.loc)
  else none

def className : Rule := fun _ c =>
  if c.startsWith "." then
    let name := (c.skip 1).word
    if name.any isAsciiLetterOrUnderscore then
      some (emit (.className (String.ofList name)) c.loc (c.skip (1 + name.length)))
    else some (refuse (.invalidClass (String.ofList c.line)) c.loc)
  else none

/-- The parenthesised attribute list behind a tag. -/
def attributeList (c : Cursor) : Reading :=
  match (c.skip 1).inside .round with
  | .error e => .error e
  | .ok (content, d) =>
    match Attribute.readList ⟨content, (c.skip 1).loc⟩ with
    | .error e => .error e
    | .ok tokens =>
      .ok (⟨.attributesStart, c.loc⟩ :: (tokens ++ [⟨.attributesEnd, d.loc⟩]), d)

def attributes : Rule := fun _ c =>
  if c.startsWith "(" then some (attributeList c) else none

/-- A dot alone at the end of a line opens a block of text. -/
def dot : Rule := fun width c =>
  if c.startsWith "." && allBlank (c.skip 1).line then
    some (withPipeless true width ⟨.dot, c.loc⟩ c.skipLine)
  else none

def slash : Rule := fun _ c =>
  if c.startsWith "/" then some (emit .slash c.loc (c.skip 1)) else none

def colon : Rule := fun _ c =>
  if c.startsWith ": " || c.startsWith ":\t" then
    some (emit .colon c.loc (c.skip 1).skipIndent)
  else none

/-! ## Calls and filters -/

/-- The name of a call, whether it is computed, and the place behind it. -/
def callName (loc : Location) (c : Cursor) : Except LexError (List Char × Bool × Cursor) :=
  if c.startsWith "#\x7b" then
    match (c.skip 2).inside .curly with
    | .ok (content, d) => .ok (trim content, true, d)
    | .error e => .error e
  else if c.word = [] then .error ⟨.missingCallName, loc⟩
  else .ok (c.word, false, c.skip c.word.length)

/-- `+name`, with its arguments if parentheses follow that do not hold attributes. -/
def call : Rule := fun _ c =>
  if c.startsWith "+" then
    match callName c.loc (c.skip 1).skipIndent with
    | .error e => some (.error e)
    | .ok (name, computed, d) =>
      let token := fun args => TokenKind.call (String.ofList name) computed args
      if d.startsWith "(" then
        match (d.skip 1).inside .round with
        | .error e => some (.error e)
        | .ok (content, e) =>
          if looksLikeAttributes content then some (emit (token none) c.loc d)
          else some (emit (token (some (String.ofList (trim content)))) c.loc e)
      else some (emit (token none) c.loc d)
  else none

/-- The text block below a filter, if nothing more stands in its line. -/
def filterBody (width : Nat) (tokens : List Token) (c : Cursor) : Reading :=
  if allBlank c.line then
    match Pipeless.read false width c.skipLine with
    | .ok (more, d) => .ok (tokens ++ more, d)
    | .error e => .error e
  else .ok (tokens, c)

def filter : Rule := fun width c =>
  let name := (c.skip 1).word
  if c.startsWith ":" && !name.isEmpty then
    let first : Token := ⟨.filter (String.ofList name), c.loc⟩
    let d := c.skip (1 + name.length)
    if d.startsWith "(" then
      match attributeList d with
      | .error e => some (.error e)
      | .ok (tokens, e) => some (filterBody width (first :: tokens) e)
    else some (filterBody width [first] d)
  else none

/-! ## Code -/

/-- A hyphen alone in its line opens a block of statements. -/
def codeBlock : Rule := fun width c =>
  if c.startsWith "-" && allBlank (c.skip 1).line then
    some (withPipeless false width ⟨.codeBlock, c.loc⟩ c.skipLine)
  else none

def codeWith (flag : String) (buffered escape : Bool) (c : Cursor) : Reading :=
  let d := c.skip flag.toList.length
  if allBlank d.line then refuse (.missingCode flag) c.loc
  else emit (.code (lineText d) buffered escape) c.loc d.skipLine

def code : Rule := fun _ c =>
  if c.startsWith "!=" then some (codeWith "!=" true false c)
  else if c.startsWith "=" then some (codeWith "=" true true c)
  else if c.startsWith "-" then some (codeWith "-" false false c)
  else none

/-! ## Text and comments -/

/-- Text behind a pipe, whose first space is dropped, or behind the space that ends a tag. Blanks
that nothing follows in the line are skipped. -/
def text : Rule := fun _ c =>
  if c.startsWith "|" then
    let d := c.skip 1
    some (restAsText .text (if d.startsWith " " then d.skip 1 else d))
  else if c.startsWith " " then
    if allBlank c.line then some (.ok ([], c.skipLine))
    else some (restAsText .text (c.skip 1))
  else none

def html : Rule := fun _ c =>
  if c.startsWith "<" then some (restAsText .html c) else none

/-- A comment with the text block below it; a hyphen behind the slashes keeps it out of the output. -/
def comment : Rule := fun width c =>
  if c.startsWith "//" then
    let d := c.skip 2
    let buffered := !d.startsWith "-"
    let d := if buffered then d else d.skip 1
    some (withPipeless false width ⟨.comment (String.ofList d.line) buffered, c.loc⟩ d.skipLine)
  else none

/-! ## The order of the rules -/

/-- The rules in the order in which they are tried. -/
def all : List Rule :=
  [yieldWord, doctype, interpolation, switch, when, defaultWord, inherits, block, includes, mixin,
    call, otherwise, ifCond, unlessCond, eachWith .each, eachWith .forEach, loop, tag, filter,
    codeBlock, code, id, dot, className, attributes, spread, text, html, comment, slash, colon]

/-- The first rule that applies. -/
def first (rules : List Rule) : Rule := fun width c =>
  rules.findSome? fun r => r width c

/-- What a line goes on with here; a place to which no rule applies is refused. -/
def read (width : Nat) (c : Cursor) : Reading :=
  (first all width c).getD (refuse (.unexpectedText (String.ofList (c.rest.take 5))) c.loc)

end Rule

end PugTemplate
