import PugTemplate.Proofs.Lex.Point

/-!
# A scanner that counts bytes

The tokens of a text can be read by a machine that keeps its place as a number of bytes and cuts
whatever it looks at out of the text. It tries one scan after the other, and the first one that
applies makes the step. Nothing in its loops says that they end or that a cut is in range.
-/

namespace PugTemplate

open Point (fail)

/-- The bytes of the word a text begins with. -/
def wordLength (cs : List Char) : Nat :=
  byteLength (cs.takeWhile isWordOrHyphen)

abbrev Scanned := Sliced (List Token × Point)

/-- A scan is given the indentation of the block it stands in, and a place; it may not apply. -/
abbrev Scan := Nat → Point → Sliced (Option (List Token × Point))

/-! ## Markers in text -/

/-- The bracket of a marker, from its two bytes. -/
def markerBracket? (a b : Option Char) : Option Bracket :=
  if (a = some '#' ∨ a = some '!') ∧ b = some '\x7b' then some .curly
  else if a = some '#' ∧ b = some '[' then some .square
  else none

/-- Whether a backslash in front of a marker stands at a byte. -/
def escapesAt (text : List Char) (i : Nat) : Sliced Bool := do
  if byteAt? text i = some '\\' then return (Piece.marker? (← sliceFrom text (i + 1))).isSome
  else return false

/-- Refuses text with a marker that is not closed, from a byte of it on. -/
def scanMarkers (text : List Char) (loc : Location) (i : Nat) : Sliced Unit :=
  if i < byteLength text then do
    -- the backslash, and the two bytes of the marker it escapes
    if ← escapesAt text i then scanMarkers text loc (i + 3)
    else
      match markerBracket? (byteAt? text i) (byteAt? text (i + 1)) with
      | none => scanMarkers text loc (i + 1)
      | some b =>
        let start := i + 2
        match Nesting.inside b (← sliceFrom text start) with
        | .ok content => scanMarkers text loc (start + byteLength content + 1)
        | .error f => fail (.bracket f.violation) (loc.right (start + byteLength f.before))
  else return ()
termination_by byteLength text - i

/-! ## Text without pipes -/

namespace Pipeless

/-- The bytes that a line is indented by. -/
def indentBytes (line : List Char) : Nat :=
  byteLength (line.takeWhile isIndent)

/-- The bytes of the indentation common to the lines that are not blank. -/
def commonBytes (lines : List (List Char)) : Nat :=
  ((lines.filter fun l => !allBlank l).map indentBytes).min?.getD 0

/-- The lines below that are blank or deeper than a width, from an offset on. -/
def linesFrom (width : Nat) (text : List Char) (offset : Nat) : Sliced (List (List Char)) :=
  match _h : sliceFrom text offset with
  | .error e => .error e
  | .ok ('\n' :: _) => do
    let lineStart := offset + 1
    let lineEnd := lineStart + byteLength (lineOf (← sliceFrom text lineStart))
    let line ← slice text lineStart lineEnd
    if !allBlank line && indentBytes line ≤ width then return []
    else return line :: (← linesFrom width text lineEnd)
  | .ok _ => return []
termination_by byteLength text - offset
decreasing_by
  -- a line feed was cut out at the offset, so the offset is not the end
  have hlt := lt_byteLength_of_sliceFrom _h
  omega

/-- What a line shows behind the common indentation. -/
def scanShown (base : Nat) (line : List Char) : Sliced (List Char) :=
  if allBlank line then return [] else sliceFrom line base

def checkShown (check : Bool) (loc : Location) (text : List Char) : Sliced Unit :=
  if check then scanMarkers text loc 0 else return ()

/-- The tokens of the lines of a block, and the place behind the last of them. -/
def scanLines (check : Bool) (base : Nat) (first : Bool) (s : Point) : List (List Char) → Scanned
  | [] => return ([], s)
  | line :: lines => do
    let start := s.advanceChar '\n'
    let text ← scanShown base line
    let textLoc ← start.locationAt (start.pos + if allBlank line then 0 else base)
    checkShown check textLoc text
    let (more, t) ← scanLines check base false (start.advance (byteLength line)) lines
    let tokens := ⟨.text (String.ofList text), textLoc⟩ :: more
    return (if first then tokens else ⟨.newline, start.location⟩ :: tokens, t)

/-- The block of text below a line, from the end of that line on; no tokens if there is none. -/
def scan (check : Bool) (width : Nat) (s : Point) : Scanned := do
  let lines := dropBlankEnd (← linesFrom width (← s.rest) 0)
  if lines = [] then return ([], s)
  else
    let (tokens, t) ← scanLines check (commonBytes lines) true s lines
    return (⟨.pipelessStart, s.location⟩ :: (tokens ++ [⟨.pipelessEnd, t.location⟩]), t)

end Pipeless

/-! ## Attribute lists -/

namespace Attribute

/-- The bytes of a name without quotes. The name is read from a text at an offset, from which on the
characters are given. -/
def plainLength (text : List Char) (i : Nat) : List Char → Sliced Nat
  | [] => return byteLength text
  | c :: cs => do
    if isSeparator c || c == '=' then return i
    else if c = '!' then
      if (← sliceFrom text (i + 1)).head? = some '=' then return i
      else plainLength text (i + c.utf8Size) cs
    else plainLength text (i + c.utf8Size) cs

/-- The name that a text begins with, and how many bytes it takes, quotes included. -/
def scanName (loc : Location) (text : List Char) : Sliced (List Char × Nat) := do
  match text with
  | [] => return ([], 0)
  | q :: _ =>
    if q = '\'' ∨ q = '"' then
      let behind ← sliceFrom text 1
      let stop := byteLength (behind.takeWhile (· ≠ q))
      if q ∈ behind then return (← slice text 1 (stop + 1), stop + 2)
      else fail .unterminatedAttributeName loc
    else
      let len ← plainLength text 0 text
      return (← sliceTo text len, len)

/-- The bytes of the value that a text begins with. It is read from an offset on, at which the
characters are given; `base` is where the text begins. -/
def valueLength (s : Point) (base : Nat) (value : List Char) (open_ : List Enclosure)
    (last : Option Char) (i : Nat) : List Char → Sliced Nat
  | [] => return byteLength value
  | c :: cs => do
    if open_ = [] ∧ c = ',' then return i
    else if open_ = [] ∧ isBlank c then
      -- an operator on either side of the blanks carries the value on, a minus only before them
      let next := (trimStart (← sliceFrom value i)).head?
      if last.any isOperatorChar || next.any fun n => isOperatorChar n && n != '-' then
        valueLength s base value open_ last (i + c.utf8Size) cs
      else return i
    else
      match Nesting.feed open_ c with
      | .error v => s.nestingError v (base + i)
      | .ok inner =>
        valueLength s base value inner (if isBlank c then last else some c) (i + c.utf8Size) cs

/-- The mark between a name and its value at an offset: whether it asks for escaping, and how many
bytes it takes with the blanks before it. -/
def scanMark (text : List Char) (i : Nat) : Sliced (Option (Bool × Nat)) := do
  let blanks := byteLength ((← sliceFrom text i).takeWhile isBlank)
  let behind ← sliceFrom text (i + blanks)
  if "!=".toList.isPrefixOf behind then return some (false, blanks + 2)
  else if "=".toList.isPrefixOf behind then return some (true, blanks + 1)
  else return none

/-- A name that is not empty takes bytes. -/
theorem pos_of_scanName {loc : Location} {text name : List Char} {n : Nat}
    (h : scanName loc text = .ok (name, n)) (hname : name ≠ []) : 0 < n := by
  have hpos : 0 < byteLength name := Nat.pos_of_ne_zero fun h0 => hname (byteLength_eq_zero.mp h0)
  unfold scanName at h
  split at h
  · cases h
    exact (hname rfl).elim
  · split at h
    · obtain ⟨behind, -, h⟩ := of_bind_eq_ok h
      split at h
      · obtain ⟨part, -, h⟩ := of_bind_eq_ok h
        cases h
        omega
      · cases h
    · obtain ⟨len, -, h⟩ := of_bind_eq_ok h
      obtain ⟨part, hpart, h⟩ := of_bind_eq_ok h
      cases h
      obtain ⟨before, behind, -, hbefore, hn⟩ := slice_eq_ok_iff.mp hpart
      omega

/-- The attribute of a name that ends at an offset, and the offset behind its value if it has
one. -/
def scanValue (s : Point) (base : Nat) (content : List Char) (loc : Location) (name : List Char)
    (behind : Nat) : Sliced (Token × Nat) := do
  match ← scanMark content behind with
  | none => return (token loc name none true, behind)
  | some (escape, m) =>
    let mark := behind + m
    let start := mark + byteLength ((← sliceFrom content mark).takeWhile isBlank)
    let text ← sliceFrom content start
    let len ← valueLength s (base + start) text [] none 0 text
    let value := trim (← slice content start (start + len))
    if value = [] then fail (.missingAttributeValue (String.ofList name)) loc
    else return (token loc name (some value) escape, start + len)

/-- The attribute at an offset, and the offset behind it. -/
def scanAttribute (s : Point) (base : Nat) (content : List Char) (here : Nat) :
    Sliced (Token × Nat) := do
  let loc ← s.locationAt (base + here)
  let (name, n) ← scanName loc (← sliceFrom content here)
  if name = [] then fail .missingAttributeName loc
  else scanValue s base content loc name (here + n)

theorem le_of_scanValue {s : Point} {base behind next : Nat} {content name : List Char}
    {loc : Location} {t : Token} (h : scanValue s base content loc name behind = .ok (t, next)) :
    behind ≤ next := by
  obtain ⟨mark, -, h⟩ := of_bind_eq_ok h
  split at h
  · cases h
    exact Nat.le_refl _
  · obtain ⟨blanks, -, h⟩ := of_bind_eq_ok h
    obtain ⟨text, -, h⟩ := of_bind_eq_ok h
    obtain ⟨len, -, h⟩ := of_bind_eq_ok h
    obtain ⟨value, -, h⟩ := of_bind_eq_ok h
    dsimp only at h
    split at h
    · cases h
    · cases h
      omega

/-- An attribute has a name, so it takes bytes. -/
theorem lt_of_scanAttribute {s : Point} {base here next : Nat} {content : List Char} {t : Token}
    (h : scanAttribute s base content here = .ok (t, next)) : here < next := by
  obtain ⟨loc, -, h⟩ := of_bind_eq_ok h
  obtain ⟨text, -, h⟩ := of_bind_eq_ok h
  obtain ⟨⟨name, n⟩, hname, h⟩ := of_bind_eq_ok h
  dsimp only at h
  split at h
  · cases h
  next hne =>
    have hn := pos_of_scanName hname hne
    have hle := le_of_scanValue h
    omega

/-- The attributes of a list from an offset into it on; `base` is where the list begins. -/
def scanList (s : Point) (base : Nat) (content : List Char) (i : Nat) : Sliced (List Token) := do
  let here := i + byteLength ((← sliceFrom content i).takeWhile isSeparator)
  if byteLength content ≤ here then return []
  else
    match _h : scanAttribute s base content here with
    | .error e => .error e
    | .ok (t, next) => return t :: (← scanList s base content next)
termination_by byteLength content - i
decreasing_by
  have hlt := lt_of_scanAttribute _h
  omega

end Attribute

namespace Scan

def emit (kind : TokenKind) (loc : Location) (next : Point) : Scanned :=
  .ok ([⟨kind, loc⟩], next)

def ofKeyword (word : String) (f : Nat → Point → Point → Scanned) : Scan := fun width s => do
  match ← s.keyword? word with
  | some t => return some (← f width s t)
  | none => return none

def ofMark (mark : String) (f : Nat → Point → Scanned) : Scan := fun width s => do
  if ← s.startsWith mark then return some (← f width s) else return none

/-- The first scan that applies. -/
def first : List Scan → Scan
  | [], _, _ => return none
  | f :: fs, width, s => do
    match ← f width s with
    | some r => return some r
    | none => first fs width s

def lineText (line : List Char) : String :=
  String.ofList (trim line)

/-! ## Lines that begin with a keyword -/

def yieldWord : Scan :=
  ofKeyword "yield" fun _ s t => emit .yield s.location t

def defaultWord : Scan :=
  ofKeyword "default" fun _ s t => emit .defaultCase s.location t

def doctype : Scan :=
  ofKeyword "doctype" fun _ s t => do
    let line ← t.restOfLine
    emit (.doctype (if allBlank line then none else some (lineText line))) s.location (← t.skipLine)

def expression (keyword : ExprKeyword) (kind : String → TokenKind) : Scan :=
  ofKeyword keyword.text fun _ s t => do
    let line ← t.restOfLine
    if allBlank line then fail (.missingExpression keyword) s.location
    else emit (kind (lineText line)) s.location (← t.skipLine)

/-- Whether a character at an offset into a line is the colon that ends the expression of a
`when`. -/
def endsWhen (line : List Char) (open_ : List Enclosure) (before c : Char) (i : Nat) :
    Sliced Bool := do
  if c = ':' ∧ open_ = [] ∧ !isBlank before then
    return (← sliceFrom line (i + 1)).head?.all isBlank
  else return false

/-- The bytes of the expression of a `when` in its line, from an offset on at which the characters
are given. -/
def whenLength (t : Point) (line : List Char) (open_ : List Enclosure) (before : Char) (i : Nat) :
    List Char → Sliced Nat
  | [] => return byteLength line
  | c :: cs => do
    if ← endsWhen line open_ before c i then return i
    else
      match Nesting.feed open_ c with
      | .error v => t.nestingError v (t.pos + i)
      | .ok inner => whenLength t line inner c (i + c.utf8Size) cs

def when : Scan :=
  ofKeyword "when" fun _ s t => do
    let t ← t.skipIndent
    let line ← t.restOfLine
    let len ← whenLength t line [] ' ' 0 line
    let text ← sliceTo line len
    if allBlank text then fail (.missingExpression .when) s.location
    else emit (.when (lineText text)) s.location (t.advance len)

def otherwise : Scan :=
  ofKeyword "else" fun _ s t => do
    let t ← t.skipIndent
    match ← t.keyword? "if" with
    | some u =>
      let line ← u.restOfLine
      if allBlank line then fail (.missingExpression .elseIf) s.location
      else emit (.elseIf (lineText line)) s.location (← u.skipLine)
    | none =>
      let rest := trim (← t.restOfLine)
      if rest = [] ∨ rest.head? = some ':' then emit (.otherwise none) s.location t
      else emit (.otherwise (some (String.ofList rest))) s.location (← t.skipLine)

def conditional : Scan :=
  first [otherwise, expression .ifCond .ifCond, expression .unlessCond .unlessCond]

/-- Whether a text begins with a word that a blank, or nothing, follows. -/
def shortWord (word : String) (cs : List Char) : Sliced Bool := do
  if word.toList.isPrefixOf cs then
    return (← sliceFrom cs (byteLength word.toList)).head?.all isBlank
  else return false

/-- The name a text begins with, and the text behind it and its blanks. -/
def leadingName? (cs : List Char) : Sliced (Option (String × List Char)) := do
  let len := byteLength (cs.takeWhile isNameChar)
  let name ← sliceTo cs len
  if isName name then return some (String.ofList name, trimStart (← sliceFrom cs len))
  else return none

/-- Whether `of` stands behind the names that a loop binds, and not `in`. -/
def saysOf (malformed : LexCause) (loc : Location) (rest : List Char) : Sliced Bool := do
  if ← shortWord "in" rest then return false
  else if ← shortWord "of" rest then return true
  else fail malformed loc

/-- What is run over by a loop, behind the names it binds. -/
def eachSource (keyword : ExprKeyword) (loc : Location) (malformed : LexCause) (value : String)
    (key : Option String) (rest : List Char) : Sliced TokenKind := do
  let isOf ← saysOf malformed loc rest
  let source ← sliceFrom rest 2
  if allBlank source then fail (.missingCollection keyword) loc
  else if isOf then
    if key.isSome then fail malformed loc else return .eachOf value (lineText source)
  else return .each value key (lineText source)

def eachKind (keyword : ExprKeyword) (loc : Location) (body : List Char) : Sliced TokenKind := do
  let malformed := LexCause.malformedEach keyword (String.ofList body)
  match ← leadingName? body with
  | none => fail malformed loc
  | some (value, ',' :: rest) =>
    match ← leadingName? (trimStart rest) with
    | none => fail malformed loc
    | some (key, rest) => eachSource keyword loc malformed value (some key) rest
  | some (value, rest) => eachSource keyword loc malformed value none rest

def eachWith (keyword : ExprKeyword) : Scan :=
  ofKeyword keyword.text fun _ s t => do
    let line ← t.restOfLine
    if allBlank line then fail (.missingExpression keyword) s.location
    else
      let next ← t.skipLine
      emit (← eachKind keyword s.location (trim line)) s.location next

def each : Scan :=
  first [eachWith .each, eachWith .forEach]

def path (kind : TokenKind) (loc : Location) (missing : LexCause) (t : Point) : Scanned := do
  let t ← t.skipIndent
  let line ← t.restOfLine
  if allBlank line then fail missing t.location
  else return ([⟨kind, loc⟩, ⟨.path (lineText line), t.location⟩], ← t.skipLine)

def inherits : Scan :=
  first [ofKeyword "extends" fun _ s t => path .inherits s.location .missingParentPath t,
    ofKeyword "extend" fun _ s t => path .inherits s.location .missingParentPath t]

def includes : Scan :=
  ofKeyword "include" fun _ s t => do
    match ← t.consume ":" with
    | some u =>
      let len := wordLength (← u.rest)
      let name ← sliceTo (← u.rest) len
      path (.includes (some (String.ofList name))) s.location .missingIncludePath (u.advance len)
    | none => path (.includes none) s.location .missingIncludePath t

/-- Behind a keyword that a name follows in its line. -/
def named? (word : String) (mode : BlockMode) (s : Point) :
    Sliced (Option (BlockMode × Point)) := do
  let name ← sliceFrom (← s.restOfLine) (byteLength word.toList)
  if allBlank name then return none else return (← s.consume word).map (mode, ·)

def blockMode? (s : Point) : Sliced (Option (BlockMode × Point)) := do
  if ← s.atKeyword "append" then named? "append" .append s
  else if ← s.atKeyword "prepend" then named? "prepend" .prepend s
  else return none

def namedBlock (loc : Location) (mode : BlockMode) (t : Point) : Scanned := do
  emit (.block (lineText (← t.restOfLine)) mode) loc (← t.skipLine)

/-- A block behind the keyword itself, bare or with a name and perhaps a mode. -/
def blockWord : Scan :=
  ofKeyword "block" fun _ s t => do
    if allBlank (← t.restOfLine) then emit .slot s.location (← t.skipLine)
    else
      let t ← t.skipIndent
      match ← blockMode? t with
      | some (mode, u) => namedBlock s.location mode u
      | none => namedBlock s.location .replace t

def block : Scan := fun width s => do
  match ← blockMode? s with
  | some (mode, t) => return some (← namedBlock s.location mode t)
  | none => blockWord width s

def mixin : Scan :=
  ofKeyword "mixin" fun _ s t => do
    let t ← t.skipIndent
    let len := wordLength (← t.rest)
    if len = 0 then fail .missingMixinName s.location
    else
      let name ← sliceTo (← t.rest) len
      let t ← (t.advance len).skipIndent
      if ← t.startsWith "(" then
        let (content, u) ← t.inside .round (t.pos + 1)
        emit (.mixin (String.ofList name) (some (lineText content))) s.location u
      else emit (.mixin (String.ofList name) none) s.location t

def spread : Scan :=
  ofKeyword "&attributes" fun _ s t => do
    if ← t.startsWith "(" then
      let (content, u) ← t.inside .round (t.pos + 1)
      emit (.spread (lineText content)) s.location u
    else fail .missingSpread t.location

/-! ## Lines that begin with a mark -/

def withPipeless (check : Bool) (width : Nat) (kind : TokenKind) (loc : Location) (t : Point) :
    Scanned := do
  let (tokens, u) ← Pipeless.scan check width t
  return (⟨kind, loc⟩ :: tokens, u)

/-- Text up to the end of the line, its markers checked. -/
def restAsText (kind : String → TokenKind) (s : Point) : Scanned := do
  let line ← s.restOfLine
  scanMarkers line s.location 0
  emit (kind (String.ofList line)) s.location (← s.skipLine)

def interpolation : Scan :=
  ofMark "#\x7b" fun _ s => do
    let (content, t) ← s.inside .curly (s.pos + 2)
    emit (.interpolation (lineText content)) s.location t

def tag : Scan := fun _ s => do
  let rest ← s.rest
  if rest.head?.any isWord then
    let run ← sliceTo rest (byteLength (rest.takeWhile Rule.isTagChar))
    let name := (run.reverse.dropWhile fun c => c == '-' || c == ':').reverse
    return some (← emit (.tag (String.ofList name)) s.location (s.advance (byteLength name)))
  else return none

/-- A name behind a mark of one byte. -/
def named (mark : String) (kind : String → TokenKind) (invalid : String → LexCause) : Scan :=
  ofMark mark fun _ s => do
    let len := wordLength (← sliceFrom (← s.rest) 1)
    let name ← slice (← s.rest) 1 (len + 1)
    if name.any isAsciiLetterOrUnderscore then
      emit (kind (String.ofList name)) s.location (s.advance (len + 1))
    else fail (invalid (String.ofList (← s.restOfLine))) s.location

def id : Scan :=
  first [ofMark "#[" fun _ s => restAsText .text s, named "#" .id .invalidId]

def className : Scan :=
  named "." .className .invalidClass

def attributeList (s : Point) : Scanned := do
  let start := s.pos + 1
  let close ← s.closing .round start
  let content ← slice s.source.text start (start + close)
  let tokens ← Attribute.scanList s start content 0
  let t ← s.advanceTo (start + close + 1)
  return (⟨.attributesStart, s.location⟩ :: (tokens ++ [⟨.attributesEnd, t.location⟩]), t)

def attributes : Scan :=
  ofMark "(" fun _ s => attributeList s

/-- Whether a mark stands here with nothing but blanks behind it in its line. -/
def endsWithMark (mark : String) (s : Point) : Sliced Bool := do
  if ← s.startsWith mark then
    return allBlank (← sliceFrom (← s.restOfLine) (byteLength mark.toList))
  else return false

def dot : Scan := fun width s => do
  if ← endsWithMark "." s then
    return some (← withPipeless true width .dot s.location (← s.skipLine))
  else return none

def codeBlock : Scan := fun width s => do
  if ← endsWithMark "-" s then
    return some (← withPipeless false width .codeBlock s.location (← s.skipLine))
  else return none

def slash : Scan :=
  ofMark "/" fun _ s => emit .slash s.location (s.advance 1)

def colonWith (mark : String) : Scan :=
  ofMark mark fun _ s => do emit .colon s.location (← (s.advance 1).skipIndent)

def colon : Scan :=
  first [colonWith ": ", colonWith ":\t"]

/-- Whether the inside of parentheses opens with a name and an equals sign. -/
def looksLikeAttributes (content : List Char) : Sliced Bool := do
  let content := trimStart content
  let len := wordLength content
  if len = 0 then return false
  else
    let behind := (← sliceFrom content len).dropWhile (· == ' ')
    return "=".toList.isPrefixOf behind && !"==".toList.isPrefixOf behind ||
      "!=".toList.isPrefixOf behind

def callName (loc : Location) (t : Point) : Sliced (List Char × Bool × Point) := do
  if ← t.startsWith "#\x7b" then
    let (content, u) ← t.inside .curly (t.pos + 2)
    return (trim content, true, u)
  else
    let len := wordLength (← t.rest)
    if len = 0 then fail .missingCallName loc
    else return (← sliceTo (← t.rest) len, false, t.advance len)

def call : Scan :=
  ofMark "+" fun _ s => do
    let (name, computed, t) ← callName s.location (← (s.advance 1).skipIndent)
    let token := TokenKind.call (String.ofList name) computed
    if ← t.startsWith "(" then
      let start := t.pos + 1
      let close ← t.closing .round start
      let content ← slice t.source.text start (start + close)
      -- attributes are left for the step after this one
      if ← looksLikeAttributes content then emit (token none) s.location t
      else emit (token (some (lineText content))) s.location (← t.advanceTo (start + close + 1))
    else emit (token none) s.location t

def filterBody (width : Nat) (tokens : List Token) (t : Point) : Scanned := do
  if allBlank (← t.restOfLine) then
    let (more, u) ← Pipeless.scan false width (← t.skipLine)
    return (tokens ++ more, u)
  else return (tokens, t)

def filter : Scan := fun width s => do
  if ← s.startsWith ":" then
    let len := wordLength (← sliceFrom (← s.rest) 1)
    if len = 0 then return none
    else
      let name ← slice (← s.rest) 1 (len + 1)
      let token : Token := ⟨.filter (String.ofList name), s.location⟩
      let t := s.advance (len + 1)
      if ← t.startsWith "(" then
        let (more, u) ← attributeList t
        return some (← filterBody width (token :: more) u)
      else return some (← filterBody width [token] t)
  else return none

def codeWith (flag : String) (buffered escape : Bool) : Scan :=
  ofMark flag fun _ s => do
    let t := s.advance (byteLength flag.toList)
    let line ← t.restOfLine
    if allBlank line then fail (.missingCode flag) s.location
    else emit (.code (lineText line) buffered escape) s.location (← t.skipLine)

def code : Scan :=
  first [codeWith "!=" true false, codeWith "=" true true, codeWith "-" false false]

def pipe : Scan :=
  ofMark "|" fun _ s => do
    let t := s.advance 1
    restAsText .text ((← t.consume " ").getD t)

def blankText : Scan :=
  ofMark " " fun _ s => do
    if allBlank (← s.restOfLine) then return ([], ← s.skipLine)
    else restAsText .text (s.advance 1)

def text : Scan :=
  first [pipe, blankText]

def html : Scan :=
  ofMark "<" fun _ s => restAsText .html s

def comment : Scan :=
  ofMark "//" fun width s => do
    let t := s.advance 2
    let hyphen ← t.consume "-"
    let u := hyphen.getD t
    withPipeless false width
      (.comment (String.ofList (← u.restOfLine)) hyphen.isNone) s.location (← u.skipLine)

/-- Refuses what no other scan reads. -/
def unexpected : Scan := fun _ s => do
  fail (.unexpectedText (String.ofList ((← s.rest).take 5))) s.location

/-- The scans that read something inside a line, in the order in which they are tried. -/
def readers : List Scan :=
  [yieldWord, doctype, interpolation, expression .switch .switch, when, defaultWord, inherits,
    block, includes, mixin, call, conditional, each, expression .loop .loop, tag, filter, codeBlock,
    code, id, dot, className, attributes, spread, text, html, comment, slash, colon]

def inLine : List Scan :=
  readers ++ [unexpected]

end Scan

/-! ## Lines -/

namespace Point

theorem lt_byteLength_of_startsWith {s : Point} {mark : String} (hmark : mark.toList ≠ [])
    (h : s.startsWith mark = .ok true) : s.pos < byteLength s.source.text := by
  obtain ⟨rest, hrest, h⟩ := of_bind_eq_ok h
  obtain ⟨more, hmore⟩ := List.isPrefixOf_iff_prefix.mp (Except.ok.inj h)
  obtain ⟨c, cs, hcs⟩ := List.exists_cons_of_ne_nil hmark
  rw [← hmore, hcs] at hrest
  exact lt_byteLength_of_sliceFrom hrest

/-- From the end of a line to the start of the next one that shows something, or to the end, and
whether it is the end. -/
def nextLine (s : Point) : Sliced (Point × Bool) := do
  let line ← (s.advanceChar '\n').restOfLine
  if allBlank line then
    match _h : ((s.advanceChar '\n').advance (byteLength line)).startsWith "\n" with
    | .error e => .error e
    | .ok true => nextLine ((s.advanceChar '\n').advance (byteLength line))
    | .ok false => return ((s.advanceChar '\n').advance (byteLength line), true)
  else return (s.advanceChar '\n', false)
termination_by byteLength s.source.text - s.pos
decreasing_by
  have hlt := lt_byteLength_of_startsWith (by decide) _h
  have hfeed := Char.utf8Size_pos '\n'
  simp only [pos_advance, pos_advanceChar] at hlt ⊢
  simp only [advance, source_advanceChar] at hlt ⊢
  omega

/-- Skips the blank lines that a source begins with, and the indentation of its first line. -/
def skipLeading (s : Point) : Sliced Point := do
  let line ← s.restOfLine
  if !allBlank line ∨ byteLength s.source.text ≤ s.pos + byteLength line then s.skipIndent
  else skipLeading ((s.advance (byteLength line)).advanceChar '\n')
termination_by byteLength s.source.text - s.pos
decreasing_by
  have hfeed := Char.utf8Size_pos '\n'
  simp only [source_advanceChar, pos_advanceChar, pos_advance]
  simp only [advance]
  omega

end Point

namespace Layout

def scanNewline (l : Layout) (s : Point) : Sliced (List Token × Layout × Point) := do
  let (t, atEnd) ← s.nextLine
  if atEnd then return ([], l, t)
  else
    let line ← t.restOfLine
    let indent ← sliceTo line (byteLength (line.takeWhile isIndent))
    let mark := l.mark.or indent.head?
    if indent.any fun x => some x != mark then fail .mixedIndentation t.location
    else
      let u := t.advance (byteLength indent)
      match settle { l with mark } (byteLength indent) u.location with
      | .ok (tokens, l) => return (tokens, l, u)
      | .error e => .error (.refused e)

end Layout

/-! ## The machine -/

structure Scanner where
  point : Point
  layout : Layout
  tokens : List Token
  ended : Bool

namespace Scanner

/-- A scan as a step of the machine. -/
def ofScan (scan : Scan) (s : Scanner) : Sliced (Option Scanner) := do
  match ← scan s.layout.width s.point with
  | some (tokens, t) => return some { s with point := t, tokens := s.tokens ++ tokens }
  | none => return none

/-- Ends the stream at the end of the text. -/
def endOfText (s : Scanner) : Sliced (Option Scanner) :=
  if byteLength s.point.source.text ≤ s.point.pos then
    return some
      { s with
        layout := { s.layout with widths := [] }
        tokens := s.tokens ++ s.layout.finish s.point.location
        ended := true }
  else return none

def newline (s : Scanner) : Sliced (Option Scanner) := do
  if ← s.point.startsWith "\n" then
    let (tokens, l, t) ← s.layout.scanNewline s.point
    return some { s with point := t, layout := l, tokens := s.tokens ++ tokens }
  else return none

/-- What is tried in a step, in this order. -/
def tries : List (Scanner → Sliced (Option Scanner)) :=
  endOfText :: newline :: Scan.inLine.map ofScan

/-- The step of the first one that applies; if none does, nothing happens. -/
def tryAll : List (Scanner → Sliced (Option Scanner)) → Scanner → Sliced Scanner
  | [], s => return s
  | f :: fs, s => do
    match ← f s with
    | some t => return t
    | none => tryAll fs s

/-- Makes a step. -/
def advance (s : Scanner) : Sliced Scanner :=
  tryAll tries s

/-- Where the machine stands before its first step. -/
def start (src : Source) : Sliced Scanner := do
  return ⟨← src.first.skipLeading, .empty, [], false⟩

/-- The tokens when the machine has ended; none if it takes more than a number of steps. -/
def run : Nat → Scanner → Option (Sliced (List Token))
  | calls, s =>
    if s.ended then some (.ok s.tokens)
    else match calls with
      | 0 => none
      | calls + 1 =>
        match s.advance with
        | .ok t => run calls t
        | .error e => some (.error e)

end Scanner

end PugTemplate
