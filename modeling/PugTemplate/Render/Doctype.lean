import PugTemplate.Options
import PugTemplate.Tree.Basic

/-!
# Doctypes

The names that stand for a whole doctype, and what a doctype means for the rest of a page: under the
one of plain markup, bare attributes and void elements are written short; under the one of XML no
element is void.
-/

namespace PugTemplate

namespace Doctype

/-- ASCII letters in lower case. -/
def fold (name : String) : String :=
  String.ofList (name.toList.map Char.toLower)

/-- The doctypes that have a name. -/
def named : List (String × String) :=
  [("html", "<!DOCTYPE html>"),
   ("xml", "<?xml version=\"1.0\" encoding=\"utf-8\" ?>"),
   ("transitional", "<!DOCTYPE html PUBLIC \"-//W3C//DTD XHTML 1.0 Transitional//EN\" " ++
      "\"http://www.w3.org/TR/xhtml1/DTD/xhtml1-transitional.dtd\">"),
   ("strict", "<!DOCTYPE html PUBLIC \"-//W3C//DTD XHTML 1.0 Strict//EN\" " ++
      "\"http://www.w3.org/TR/xhtml1/DTD/xhtml1-strict.dtd\">"),
   ("frameset", "<!DOCTYPE html PUBLIC \"-//W3C//DTD XHTML 1.0 Frameset//EN\" " ++
      "\"http://www.w3.org/TR/xhtml1/DTD/xhtml1-frameset.dtd\">"),
   ("1.1", "<!DOCTYPE html PUBLIC \"-//W3C//DTD XHTML 1.1//EN\" " ++
      "\"http://www.w3.org/TR/xhtml11/DTD/xhtml11.dtd\">"),
   ("basic", "<!DOCTYPE html PUBLIC \"-//W3C//DTD XHTML Basic 1.1//EN\" " ++
      "\"http://www.w3.org/TR/xhtml-basic/xhtml-basic11.dtd\">"),
   ("mobile", "<!DOCTYPE html PUBLIC \"-//WAPFORUM//DTD XHTML Mobile 1.2//EN\" " ++
      "\"http://www.openmobilealliance.org/tech/DTD/xhtml-mobile12.dtd\">"),
   ("plist", "<!DOCTYPE plist PUBLIC \"-//Apple//DTD PLIST 1.0//EN\" " ++
      "\"http://www.apple.com/DTDs/PropertyList-1.0.dtd\">")]

/-- The markup of a doctype; any other name is written as it is. -/
def markup (name : String) : String :=
  (named.lookup (fold name)).getD ("<!DOCTYPE " ++ name ++ ">")

/-- The name that a declaration stands for; a bare one stands for the one of the settings. -/
def declared (options : Options) (value : Option String) : String :=
  (value.or options.doctype).getD "html"

def ofNode? : Node → Option (Option String)
  | .doctype _ value => some value
  | _ => none

/-- The name of the doctype of a page: the first one declared, or the one of the settings. -/
def name? (options : Options) (nodes : List Node) : Option String :=
  match (postorderAll nodes).findSome? ofNode? with
  | some value => some (declared options value)
  | none => options.doctype

end Doctype

/-- How markup is written on a page. -/
structure Dialect where
  /-- Bare attributes have no value, and void elements no slash. -/
  terse : Bool
  /-- Elements are closed even if they are void. -/
  xml : Bool
deriving DecidableEq, Repr

def Dialect.ofDoctype (name? : Option String) : Dialect :=
  let folded := name?.map Doctype.fold
  ⟨folded == some "html", folded == some "xml"⟩

/-- Elements that never have content. -/
def voidElements : List String :=
  ["area", "base", "br", "col", "embed", "hr", "img", "input", "link", "meta", "param", "source",
    "track", "wbr"]

end PugTemplate
