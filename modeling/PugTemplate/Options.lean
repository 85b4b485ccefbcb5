import PugTemplate.Lex.Comments

/-!
# Settings

How templates are compiled and rendered.
-/

namespace PugTemplate

structure Options where
  /-- The doctype of a template that declares none. -/
  doctype : Option String := none
  comments : CommentPolicy := {}
  /-- How often the body of one loop may run; without a limit, as often as any run can reach. -/
  maxIterations : Option Nat := some 10000
  /-- How many calls may be active at once. -/
  maxDepth : Nat := 256
  /-- The directory that paths from the root begin in. -/
  basedir : Option String := none
deriving DecidableEq, Repr

end PugTemplate
