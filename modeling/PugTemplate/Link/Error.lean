import PugTemplate.Tree.Error

/-!
# Failures of linking

A reference that leads nowhere or in a circle is reported where it stands. A fault in the text of a
template that was referred to is reported under the path of that template.
-/

namespace PugTemplate

/-- A fault in the text of one template. -/
inductive SourceError where
  | lex (error : LexError)
  | parse (error : ParseError)

def SourceError.message : SourceError → String
  | lex e => e.message
  | parse e => e.message

inductive LinkCause where
  | inheritsNotFirst
  | unexpectedNode (kind : String)
  | unresolvedPath (target : String)
  | circularReference (target : String)
deriving DecidableEq, Repr

def LinkCause.message : LinkCause → String
  | inheritsNotFirst =>
    "EXTENDS_NOT_FIRST: declaration of template inheritance (\"extends\") should be the first " ++
      "thing in the file, and there can only be one"
  | unexpectedNode kind =>
    "UNEXPECTED_NODES_IN_EXTENDING_ROOT: only named blocks and mixins can appear at the top " ++
      "level of an extending template, found " ++ kind
  | unresolvedPath target => "could not resolve template path \"" ++ target ++ "\""
  | circularReference target =>
    "circular reference to \"" ++ target ++ "\" through extends/include"

structure LinkError where
  cause : LinkCause
  path : String
  loc : Location
deriving DecidableEq, Repr

def LinkError.message (e : LinkError) : String :=
  "Link error in " ++ e.path ++ " at line " ++ toString e.loc.line ++ ", column " ++
    toString e.loc.column ++ ": " ++ e.cause.message

inductive LinkFailure where
  | reference (error : LinkError)
  /-- The template under a path cannot be read. -/
  | included (path : String) (error : SourceError)

def LinkFailure.message : LinkFailure → String
  | reference e => e.message
  | included path e => "In " ++ path ++ ": " ++ e.message

end PugTemplate
