import PugTemplate.Text.Location
import PugTemplate.Text.Nesting

/-!
# Lexical failures

Each cause has a code, by which a program can tell failures apart, and a message for people.
-/

namespace PugTemplate

/-- The keywords that need an expression behind them. -/
inductive ExprKeyword where
  | switch
  | when
  | loop
  | ifCond
  | unlessCond
  | elseIf
  | each
  | forEach
deriving DecidableEq, Repr

def ExprKeyword.text : ExprKeyword → String
  | switch => "case"
  | when => "when"
  | loop => "while"
  | ifCond => "if"
  | unlessCond => "unless"
  | elseIf => "else if"
  | each => "each"
  | forEach => "for"

inductive LexCause where
  | bracket (violation : Nesting.Violation)
  | mixedIndentation
  | unknownIndentation (open_ width : Nat)
  | missingExpression (keyword : ExprKeyword)
  | missingCollection (keyword : ExprKeyword)
  | malformedEach (keyword : ExprKeyword) (body : String)
  | missingCode (flag : String)
  | missingParentPath
  | missingIncludePath
  | missingMixinName
  | missingCallName
  | invalidId (line : String)
  | invalidClass (line : String)
  | unterminatedAttributeName
  | missingAttributeName
  | missingAttributeValue (name : String)
  | missingSpread
  | unexpectedText (snippet : String)
  | strayPipelessEnd
  | openPipeless
deriving DecidableEq, Repr

namespace LexCause

def code : LexCause → String
  | bracket .mismatch => "BRACKET_MISMATCH"
  | bracket .unterminated => "NO_END_BRACKET"
  | bracket .feedInString => "SYNTAX_ERROR"
  | mixedIndentation | unknownIndentation _ _ => "INCONSISTENT_INDENTATION"
  | missingExpression .switch => "NO_CASE_EXPRESSION"
  | missingExpression .when => "NO_WHEN_EXPRESSION"
  | missingExpression .loop => "NO_WHILE_EXPRESSION"
  | missingExpression .ifCond | missingExpression .unlessCond
  | missingExpression .elseIf => "NO_CONDITIONAL_EXPRESSION"
  | missingExpression .each | missingExpression .forEach
  | missingCollection _ => "NO_EACH_EXPRESSION"
  | malformedEach _ _ => "MALFORMED_EACH"
  | missingCode _ => "NO_CODE_EXPRESSION"
  | missingParentPath => "NO_EXTENDS_PATH"
  | missingIncludePath => "NO_INCLUDE_PATH"
  | missingMixinName | missingCallName => "NO_MIXIN_NAME"
  | invalidId _ => "INVALID_ID"
  | invalidClass _ => "INVALID_CLASS_NAME"
  | unterminatedAttributeName | missingAttributeName | missingAttributeValue _
  | missingSpread => "SYNTAX_ERROR"
  | unexpectedText _ => "UNEXPECTED_TEXT"
  | strayPipelessEnd | openPipeless => "UNTERMINATED_PIPELESS_TEXT"

/-- The failures that unbalanced brackets cause. -/
def isBracket : LexCause → Bool
  | bracket .mismatch | bracket .unterminated => true
  | _ => false

def inBackticks (s : String) : String :=
  "`" ++ s ++ "`"

def message : LexCause → String
  | bracket .mismatch => "The closing bracket does not match the innermost open bracket."
  | bracket .unterminated => "The end of the string was reached with no closing bracket found."
  | bracket .feedInString => "Unexpected newline inside a quoted string."
  | mixedIndentation => "Invalid indentation, you can use tabs or spaces but not both"
  | unknownIndentation open_ width =>
    "Inconsistent indentation. Expecting either " ++ toString open_ ++ " or " ++ toString width ++
      " spaces/tabs."
  | missingExpression keyword => inBackticks keyword.text ++ " requires an expression"
  | missingCollection keyword => inBackticks keyword.text ++ " requires a collection to iterate"
  | malformedEach keyword body =>
    "malformed " ++ keyword.text ++ " statement: " ++ inBackticks (keyword.text ++ " " ++ body)
  | missingCode flag => inBackticks flag ++ " requires an expression"
  | missingParentPath => "missing path for extends"
  | missingIncludePath => "missing path for include"
  | missingMixinName => "`mixin` requires a name"
  | missingCallName => "mixin call requires a name"
  | invalidId line => "\"" ++ line ++ "\" is not a valid ID."
  | invalidClass line => "\"" ++ line ++ "\" is not a valid class name."
  | unterminatedAttributeName => "unterminated quoted attribute name"
  | missingAttributeName => "expected an attribute name"
  | missingAttributeValue name => "expected a value for attribute \"" ++ name ++ "\""
  | missingSpread => "expected `(` after &attributes"
  | unexpectedText snippet => "unexpected text \"" ++ snippet ++ "\""
  | strayPipelessEnd => "end of pipeless text without a start"
  | openPipeless => "pipeless text block was never closed"

end LexCause

structure LexError where
  cause : LexCause
  loc : Location
deriving DecidableEq, Repr

def LexError.message (e : LexError) : String :=
  e.cause.code ++ " at line " ++ toString e.loc.line ++ ", column " ++ toString e.loc.column ++
    ": " ++ e.cause.message

end PugTemplate
