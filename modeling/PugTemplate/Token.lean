import PugTemplate.Text.Location

/-!
# Tokens of a template

Each token stands at the position of its first character. Expressions stay source text here; text
keeps its markers.
-/

namespace PugTemplate

/-- How a block that overrides another is combined with it. -/
inductive BlockMode where
  | replace
  | append
  | prepend
deriving DecidableEq, Repr

inductive TokenKind where
  | tag (name : String)
  | id (name : String)
  | className (name : String)
  | text (raw : String)
  /-- A line that begins with `<`. -/
  | html (raw : String)
  | comment (text : String) (buffered : Bool)
  | doctype (value : Option String)
  | attributesStart
  /-- Without a value, the attribute is a bare flag. -/
  | attr (name : String) (value : Option String) (escape : Bool)
  | attributesEnd
  /-- `&attributes(…)` -/
  | spread (source : String)
  /-- `#{…}` in the place of a tag name. -/
  | interpolation (source : String)
  | code (source : String) (buffered escape : Bool)
  /-- A lone `-`, before a block of statements. -/
  | codeBlock
  | ifCond (source : String)
  | unlessCond (source : String)
  | elseIf (source : String)
  /-- A condition behind `else` is kept, to be refused by the reader of the tree. -/
  | otherwise (condition : Option String)
  | switch (source : String)
  | when (source : String)
  | defaultCase
  | each (value : String) (key : Option String) (source : String)
  | eachOf (value source : String)
  | loop (source : String)
  | mixin (name : String) (params : Option String)
  /-- `+name(…)`, or `+#{…}(…)` with the source of the name. -/
  | call (name : String) (computed : Bool) (args : Option String)
  | block (name : String) (mode : BlockMode)
  /-- A bare `block`, the place of a call's content. -/
  | slot
  | yield
  | inherits
  | includes (filter : Option String)
  | path (target : String)
  | filter (name : String)
  | indent (width : Nat)
  | outdent
  | newline
  | eos
  | pipelessStart
  | pipelessEnd
  | slash
  | colon
  | dot
deriving DecidableEq, Repr

structure Token where
  kind : TokenKind
  loc : Location
deriving DecidableEq, Repr

namespace TokenKind

/-- The name of a kind of token, as messages give it. -/
def name : TokenKind → String
  | tag _ => "tag"
  | id _ => "id"
  | className _ => "class"
  | text _ => "text"
  | html _ => "text-html"
  | comment _ _ => "comment"
  | doctype _ => "doctype"
  | attributesStart => "start-attributes"
  | attr _ _ _ => "attribute"
  | attributesEnd => "end-attributes"
  | spread _ => "&attributes"
  | interpolation _ => "interpolation"
  | code _ _ _ => "code"
  | codeBlock => "blockcode"
  | ifCond _ => "if"
  | unlessCond _ => "unless"
  | elseIf _ => "else-if"
  | otherwise _ => "else"
  | switch _ => "case"
  | when _ => "when"
  | defaultCase => "default"
  | each _ _ _ => "each"
  | eachOf _ _ => "each-of"
  | loop _ => "while"
  | mixin _ _ => "mixin"
  | call _ _ _ => "call"
  | block _ _ => "block"
  | slot => "mixin-block"
  | yield => "yield"
  | inherits => "extends"
  | includes _ => "include"
  | path _ => "path"
  | filter _ => "filter"
  | indent _ => "indent"
  | outdent => "outdent"
  | newline => "newline"
  | eos => "eos"
  | pipelessStart => "start-pipeless-text"
  | pipelessEnd => "end-pipeless-text"
  | slash => "slash"
  | colon => "colon"
  | dot => "dot"

end TokenKind

end PugTemplate
