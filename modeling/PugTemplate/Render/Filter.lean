import PugTemplate.Render.Walk
import PugTemplate.Text.Printable

/-!
# Filters

Named functions from text to text. Two are always there: one that changes nothing, and one that
marks its text as character data.
-/

namespace PugTemplate

abbrev Filters := Dictionary Filter

namespace Filters

def builtin : Filters :=
  [("plain", fun text _ => text),
   ("cdata", fun text _ => "<![CDATA[\n" ++ text ++ "\n]]>")]

def register (filters : Filters) (name : String) (filter : Filter) : Filters :=
  Dictionary.put name filter filters

/-- The names of all filters, quoted and in braces. -/
def text (filters : Filters) : String :=
  "\x7b" ++ String.intercalate ", " ((Dictionary.keys filters).map quoted) ++ "\x7d"

end Filters

end PugTemplate
