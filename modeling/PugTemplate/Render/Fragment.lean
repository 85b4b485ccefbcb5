/-!
# Pieces of the output

A page is a sequence of pieces, and each says where its text comes from. Text computed from data is
escaped unless the template asks for it as it is.
-/

namespace PugTemplate

inductive Fragment where
  /-- Text of the template or of the markup itself. -/
  | fixed (text : String)
  /-- Text computed from data, to be escaped. -/
  | escaped (text : String)
  /-- Text computed from data, written as it is. -/
  | raw (text : String)
deriving DecidableEq, Repr

/-- A character as it is written in markup. -/
def escapeChar (c : Char) : List Char :=
  match c with
  | '&' => "&amp;".toList
  | '<' => "&lt;".toList
  | '>' => "&gt;".toList
  | '"' => "&quot;".toList
  | '\'' => "&#39;".toList
  | c => [c]

def escapeHtml (s : String) : String :=
  String.ofList (s.toList.flatMap escapeChar)

namespace Fragment

def text : Fragment → String
  | fixed s => s
  | escaped s => escapeHtml s
  | raw s => s

/-- Text computed from data. -/
def ofData (escape : Bool) (s : String) : Fragment :=
  if escape then .escaped s else .raw s

end Fragment

/-- The text of a page. -/
def joinFragments (fs : Array Fragment) : String :=
  fs.foldl (fun s f => s ++ f.text) ""

end PugTemplate
