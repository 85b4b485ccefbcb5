import PugTemplate.Lex.Attribute

/-!
# Lines that begin with a keyword

A rule looks at the place where it stands: it does not apply, or it fails, or it answers the tokens
it read and the place behind them. A keyword counts only where no longer word begins with it. Every
rule that applies reads at least its keyword.
-/

namespace PugTemplate

abbrev Reading := Except LexError (List Token × Cursor)

/-- A rule is given the indentation of the block it stands in, and a place in a line. -/
abbrev Rule := Nat → Cursor → Option Reading

/-- A rule always leaves less text than it found. -/
def Rule.Shortens (r : Rule) : Prop :=
  ∀ width c tokens d, r width c = some (.ok (tokens, d)) → d.rest.length < c.rest.length

namespace Rule

def emit (kind : TokenKind) (loc : Location) (next : Cursor) : Reading :=
  .ok ([⟨kind, loc⟩], next)

def refuse (cause : LexCause) (loc : Location) : Reading :=
  .error ⟨cause, loc⟩

/-- The text of a line from here on, without blanks around it. -/
def lineText (c : Cursor) : String :=
  String.ofList (trim c.line)

/-- A keyword that needs an expression behind it, up to the end of the line. -/
def expression (keyword : ExprKeyword) (kind : String → TokenKind) : Rule := fun _ c =>
  (c.keyword? keyword.text).map fun d =>
    if allBlank d.line then refuse (.missingExpression keyword) c.loc
    else emit (kind (lineText d)) c.loc d.skipLine

/-! ## Single words -/

def yieldWord : Rule := fun _ c =>
  (c.keyword? "yield").map fun d => emit .yield c.loc d

def defaultWord : Rule := fun _ c =>
  (c.keyword? "default").map fun d => emit .defaultCase c.loc d

def doctype : Rule := fun _ c =>
  (c.keyword? "doctype").map fun d =>
    let value := if allBlank d.line then none else some (lineText d)
    emit (.doctype value) c.loc d.skipLine

/-! ## Branches and loops -/

def switch : Rule :=
  expression .switch .switch

def loop : Rule :=
  expression .loop .loop

def ifCond : Rule :=
  expression .ifCond .ifCond

def unlessCond : Rule :=
  expression .unlessCond .unlessCond

/-- The expression of a `when`: up to a colon outside brackets and literals that has no blank before
it and a blank, or nothing, behind it. -/
def whenText (open_ : List Enclosure) (before : Char) :
    List Char → Except Nesting.Failure (List Char)
  | [] => .ok []
  | c :: cs =>
    if c = ':' ∧ open_ = [] ∧ !isBlank before ∧ cs.head?.all isBlank then .ok []
    else match Nesting.feed open_ c with
      | .error v => .error ⟨v, []⟩
      | .ok inner =>
        match whenText inner c cs with
        | .ok text => .ok (c :: text)
        | .error f => .error { f with before := c :: f.before }

def when : Rule := fun _ c =>
  (c.keyword? "when").map fun d =>
    let d := d.skipIndent
    match whenText [] ' ' d.line with
    | .error f => .error (d.nestingError f)
    | .ok text =>
      if allBlank text then refuse (.missingExpression .when) c.loc
      else emit (.when (String.ofList (trim text))) c.loc (d.skip text.length)

/-- `else if` with its condition, or `else`; what stands behind `else` is kept unless it is a colon. -/
def otherwise : Rule := fun _ c =>
  (c.keyword? "else").map fun d =>
    let d := d.skipIndent
    match d.keyword? "if" with
    | some e =>
      if allBlank e.line then refuse (.missingExpression .elseIf) c.loc
      else emit (.elseIf (lineText e)) c.loc e.skipLine
    | none =>
      let rest := trim d.line
      if rest = [] ∨ rest.head? = some ':' then emit (.otherwise none) c.loc d
      else emit (.otherwise (some (String.ofList rest))) c.loc d.skipLine

/-- Behind a word of two letters that a blank, or nothing, follows. -/
def shortWord? (a b : Char) : List Char → Option (List Char)
  | x :: y :: cs => if x = a ∧ y = b ∧ cs.head?.all isBlank then some cs else none
  | _ => none

/-- The name a text begins with, and the text behind it and its blanks. -/
def leadingName? (cs : List Char) : Option (String × List Char) :=
  let name := cs.takeWhile isNameChar
  if isName name then some (String.ofList name, trimStart (cs.drop name.length)) else none

/-- An optional second name behind a comma; `none` when the comma has no name behind it. -/
def keyName? : List Char → Option (Option String × List Char)
  | ',' :: cs => (leadingName? (trimStart cs)).map fun (name, rest) => (some name, rest)
  | cs => some (none, cs)

/-- `value in source`, `value, key in source` or `value of source`. -/
def eachKind (keyword : ExprKeyword) (body : List Char) : Except LexCause TokenKind :=
  let malformed := LexCause.malformedEach keyword (String.ofList body)
  match leadingName? body with
  | none => .error malformed
  | some (value, rest) =>
    match keyName? rest with
    | none => .error malformed
    | some (key, rest) =>
      match shortWord? 'i' 'n' rest, shortWord? 'o' 'f' rest with
      | some source, _ =>
        if allBlank source then .error (.missingCollection keyword)
        else .ok (.each value key (String.ofList (trim source)))
      | none, some source =>
        if allBlank source then .error (.missingCollection keyword)
        else if key.isSome then .error malformed
        else .ok (.eachOf value (String.ofList (trim source)))
      | none, none => .error malformed

def eachWith (keyword : ExprKeyword) : Rule := fun _ c =>
  (c.keyword? keyword.text).map fun d =>
    if allBlank d.line then refuse (.missingExpression keyword) c.loc
    else match eachKind keyword (trim d.line) with
      | .ok kind => emit kind c.loc d.skipLine
      | .error cause => refuse cause c.loc

/-! ## Inheritance and inclusion -/

/-- The path that the rest of the line is, behind the token of its keyword. -/
def path (first : Token) (missing : LexCause) (c : Cursor) : Reading :=
  let c := c.skipIndent
  if allBlank c.line then refuse missing c.loc
  else .ok ([first, ⟨.path (lineText c), c.loc⟩], c.skipLine)

def inherits : Rule := fun _ c =>
  ((c.keyword? "extends").or (c.keyword? "extend")).map
    (path ⟨.inherits, c.loc⟩ .missingParentPath)

def includes : Rule := fun _ c =>
  (c.keyword? "include").map fun d =>
    if d.startsWith ":" then
      let name := (d.skip 1).word
      path ⟨.includes (some (String.ofList name)), c.loc⟩ .missingIncludePath
        (d.skip (1 + name.length))
    else path ⟨.includes none, c.loc⟩ .missingIncludePath d

/-- `append` or `prepend`, if a name follows in the line; alone they are tag names. -/
def blockMode? (c : Cursor) : Option (BlockMode × Cursor) :=
  match c.keyword? "append", c.keyword? "prepend" with
  | some d, _ => if allBlank d.line then none else some (.append, d)
  | none, some d => if allBlank d.line then none else some (.prepend, d)
  | none, none => none

def namedBlock (loc : Location) (mode : BlockMode) (c : Cursor) : Reading :=
  emit (.block (lineText c) mode) loc c.skipLine

/-- A block with a name and a mode, or the bare `block` of a mixin. -/
def block : Rule := fun _ c =>
  match blockMode? c with
  | some (mode, d) => some (namedBlock c.loc mode d)
  | none => (c.keyword? "block").map fun d =>
    if allBlank d.line then emit .slot c.loc d.skipLine
    else match blockMode? d.skipIndent with
      | some (mode, e) => namedBlock c.loc mode e
      | none => namedBlock c.loc .replace d.skipIndent

def mixin : Rule := fun _ c =>
  (c.keyword? "mixin").map fun d =>
    let d := d.skipIndent
    let name := d.word
    if name = [] then refuse .missingMixinName c.loc
    else
      let d := (d.skip name.length).skipIndent
      if d.startsWith "(" then
        match (d.skip 1).inside .round with
        | .error e => .error e
        | .ok (content, e) =>
          emit (.mixin (String.ofList name) (some (String.ofList (trim content)))) c.loc e
      else emit (.mixin (String.ofList name) none) c.loc d

/-- `&attributes(…)`; the parenthesis follows at once. -/
def spread : Rule := fun _ c =>
  (c.keyword? "&attributes").map fun d =>
    if d.startsWith "(" then
      match (d.skip 1).inside .round with
      | .error e => .error e
      | .ok (content, e) => emit (.spread (String.ofList (trim content))) c.loc e
    else refuse .missingSpread d.loc

end Rule

end PugTemplate
