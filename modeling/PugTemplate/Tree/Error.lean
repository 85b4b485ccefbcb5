import PugTemplate.Expr.Lexeme
import PugTemplate.Lex.Error
import PugTemplate.Token

/-!
# Failures of the tree reader

What a production waits for is an `Expectation`; the message says that and what stands there
instead. All other causes are faults of a construct that was read.
-/

namespace PugTemplate

inductive Expectation where
  | indent
  | outdent
  | path
  | attributesEnd
  | pipelessEnd
  /-- Anything a node can begin with. -/
  | node
  /-- Anything that can follow a tag in its line. -/
  | inlineContent
  | branch
deriving DecidableEq, Repr

def Expectation.text : Expectation → String
  | indent => "indent"
  | outdent => "outdent"
  | path => "path"
  | attributesEnd => "end-attributes"
  | pipelessEnd => "end-pipeless-text"
  | node => "a tag, text, code or keyword"
  | inlineContent => "text, code, `:` or a newline"
  | branch => "when, default or newline"

/-- What is wrong with a parameter of a mixin. -/
inductive ParamFault where
  | restNotLast
  | noName
deriving DecidableEq, Repr

def ParamFault.message : ParamFault → String
  | restNotLast => "a rest parameter must be last"
  | noName => "expected a parameter name"

inductive ParseCause where
  | unexpectedToken (expected : Expectation) (found : TokenKind)
  | unexpectedEnd (expected : Expectation)
  | elseWithCondition
  | invalidExpression (source : String) (cause : ExprCause)
  | invalidParam (source : String) (fault : ParamFault)
  | duplicateAttribute (name : String)
  | slotOutsideMixin
  | selfClosingContent (tag : String)
  | codeWithBlock
  | strayElse
  /-- A marker in text that is not closed. -/
  | brokenMarker (violation : Nesting.Violation)
  /-- The text of a tag inside text does not lex. -/
  | nestedText (error : LexError)

namespace ParseCause

def message : ParseCause → String
  | unexpectedToken expected found => "Expected " ++ expected.text ++ ", found " ++ found.name
  | unexpectedEnd expected => "Unexpected end of input (expected '" ++ expected.text ++ "')"
  | elseWithCondition => "`else` cannot have a condition, perhaps you meant `else if`"
  | invalidExpression source cause => "Invalid expression `" ++ source ++ "`: " ++ cause.message
  | invalidParam source fault => "Invalid expression `" ++ source ++ "`: " ++ fault.message
  | duplicateAttribute name => "Duplicate attribute \"" ++ name ++ "\" is not allowed"
  | slotOutsideMixin => "Anonymous blocks are not allowed unless they are part of a mixin"
  | selfClosingContent tag => "Self-closing tag <" ++ tag ++ "/> cannot have content"
  | codeWithBlock => "Code cannot be followed by an indented block"
  | strayElse => "`else` must follow an `if`, `unless`, `else if` or `each` block"
  | brokenMarker .mismatch => "mismatched bracket in interpolation"
  | brokenMarker _ => "unterminated interpolation"
  | nestedText error => error.message

end ParseCause

structure ParseError where
  cause : ParseCause
  loc : Location

def ParseError.message (e : ParseError) : String :=
  "Parse error at line " ++ toString e.loc.line ++ ", column " ++ toString e.loc.column ++ ": " ++
    e.cause.message

end PugTemplate
