import PugTemplate.Text.Location
import PugTemplate.Text.Lines
import PugTemplate.Text.Nesting
import PugTemplate.Text.Printable
import PugTemplate.Dictionary
import PugTemplate.Decimal.Reading
import PugTemplate.Decimal.Remainder
import PugTemplate.Value.Basic
import PugTemplate.Value.Text
import PugTemplate.Value.Comparison
import PugTemplate.Value.Arithmetic
import PugTemplate.Expr.Names
import PugTemplate.Expr.Eval
import PugTemplate.Expr.Lexeme
import PugTemplate.Expr.Parse
import PugTemplate.Text.Marker
import PugTemplate.Token
import PugTemplate.Lex.Error
import PugTemplate.Lex.Cursor
import PugTemplate.Lex.Attribute
import PugTemplate.Lex.Pipeless
import PugTemplate.Lex.Keyword
import PugTemplate.Lex.Mark
import PugTemplate.Lex.Progress
import PugTemplate.Lex.Read
import PugTemplate.Lex.Comments
import PugTemplate.Tree.Basic
import PugTemplate.Tree.Error
import PugTemplate.Tree.Part
import PugTemplate.Tree.Read
import PugTemplate.Tree.Segment
import PugTemplate.Options
import PugTemplate.Link.Resolve
import PugTemplate.Render.Render
import PugTemplate.Engine
import PugTemplate.Proofs.Basic
import PugTemplate.Proofs.Tree.Everywhere
import PugTemplate.Proofs.Tree.Rewrite
import PugTemplate.Proofs.Link.Keep
import PugTemplate.Proofs.Link.Complete
import PugTemplate.Proofs.Link.Inherit
import PugTemplate.Proofs.Link.Cycle
import PugTemplate.Proofs.Lex.Shape
import PugTemplate.Proofs.Tree.Structure
import PugTemplate.Proofs.Tree.Place
import PugTemplate.Proofs.Tree.Outline
import PugTemplate.Proofs.Expr.Eval
import PugTemplate.Proofs.Expr.Print
import PugTemplate.Proofs.Tree.Arguments
import PugTemplate.Proofs.Tree.Marker
import PugTemplate.Proofs.Render.Walk
import PugTemplate.Proofs.Render.Frame
import PugTemplate.Proofs.Render.Origin
import PugTemplate.Proofs.Render.Escape
import PugTemplate.Proofs.Render.Machine
import PugTemplate.Proofs.Render.Halt
import PugTemplate.Proofs.Render.Balance
import PugTemplate.Proofs.Render.Parallel
import PugTemplate.Proofs.Render.Call
import PugTemplate.Proofs.Template.Reads
import PugTemplate.Proofs.Template.Variables
import PugTemplate.Proofs.Lex.Place
import PugTemplate.Proofs.Template.Comment
import PugTemplate.Proofs.Lex.Colon
import PugTemplate.Proofs.Lex.Line
import PugTemplate.Proofs.Lex.Uncommented
import PugTemplate.Proofs.Tree.Construct
import PugTemplate.Proofs.Template.Literal
import PugTemplate.Proofs.Link.Stray
import PugTemplate.Proofs.Value.Arithmetic
import PugTemplate.Proofs.Value.Equality
import PugTemplate.Proofs.Render.Switch
import PugTemplate.Proofs.Template.Registered
import PugTemplate.Proofs.Template.Expansion
import PugTemplate.Proofs.Render.Merge
import PugTemplate.Proofs.Render.PassThrough
import PugTemplate.Proofs.Lex.AttributeList
import PugTemplate.Proofs.Tree.Distinct
import PugTemplate.Proofs.Link.Run
import PugTemplate.Proofs.Link.Fault
import PugTemplate.Proofs.Link.Blame
import PugTemplate.Proofs.Link.Hoist
import PugTemplate.Proofs.Link.Close
import PugTemplate.Proofs.Lex.TextBlock
import PugTemplate.Proofs.Template.TextBlock
import PugTemplate.Proofs.Render.MapAttribute
import PugTemplate.Proofs.Expr.Quoted
import PugTemplate.Proofs.Expr.TextLiteral
import PugTemplate.Proofs.Render.Limit
import PugTemplate.Proofs.Render.Scope
import PugTemplate.Proofs.Expr.Names
import PugTemplate.Proofs.Text.Balanced
import PugTemplate.Proofs.Lex.Moved
import PugTemplate.Proofs.Tree.Closing
import PugTemplate.Proofs.Lex.Deep
import PugTemplate.Proofs.Lex.Branch
import PugTemplate.Proofs.Tree.Condition
import PugTemplate.Proofs.Template.Condition
import PugTemplate.Proofs.Render.Condition
import PugTemplate.Proofs.Lex.Advance
