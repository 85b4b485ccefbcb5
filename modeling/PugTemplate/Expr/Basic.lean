import PugTemplate.Value.Basic

/-!
# Expressions and statements

What a template may compute: literals, names, members, operators and the conditional; no calls.
Statements declare and assign names.
-/

namespace PugTemplate

inductive UnaryOp where
  | not
  | neg
  | plus
deriving DecidableEq, Repr

inductive BinaryOp where
  | add
  | sub
  | mul
  | div
  | rem
  | eq
  | notEq
  | strictEq
  | strictNotEq
  | lt
  | le
  | gt
  | ge
  | and
  | or
deriving DecidableEq, Repr

inductive Expr where
  | literal (value : Value)
  | name (name : String)
  | array (items : List Expr)
  | object (entries : List (String × Expr))
  | member (object : Expr) (property : String)
  | index (object index : Expr)
  | unary (op : UnaryOp) (operand : Expr)
  | binary (op : BinaryOp) (left right : Expr)
  | conditional (test consequent alternate : Expr)
deriving Inhabited

inductive AssignOp where
  | set
  | add
  | sub
deriving DecidableEq, Repr

inductive Statement where
  | declare (name : String) (value : Expr)
  | assign (name : String) (op : AssignOp) (value : Expr)
deriving Inhabited

namespace UnaryOp

def text : UnaryOp → String
  | not => "!"
  | neg => "-"
  | plus => "+"

end UnaryOp

namespace BinaryOp

def text : BinaryOp → String
  | add => "+"
  | sub => "-"
  | mul => "*"
  | div => "/"
  | rem => "%"
  | eq => "=="
  | notEq => "!="
  | strictEq => "==="
  | strictNotEq => "!=="
  | lt => "<"
  | le => "<="
  | gt => ">"
  | ge => ">="
  | and => "&&"
  | or => "||"

end BinaryOp

namespace AssignOp

def text : AssignOp → String
  | set => "="
  | add => "+="
  | sub => "-="

end AssignOp

namespace Expr

/-- The value of an expression that is a literal. -/
def asLiteral? : Expr → Option Value
  | literal v => some v
  | _ => none

end Expr

namespace Statement

/-- The name a statement binds. -/
def target : Statement → String
  | declare name _ => name
  | assign name _ _ => name

end Statement

end PugTemplate
