import PugTemplate.Text.Blank

/-!
# Lines and fields

Cutting a text at a separator character, and bringing line ends to line feeds. `fields` always
answers at least one field; `lines` drops the empty one behind a last line feed.
-/

namespace PugTemplate

/-- The parts of a text between occurrences of a separator. -/
def fields (sep : Char) : List Char → List (List Char)
  | [] => [[]]
  | c :: cs =>
    if c = sep then [] :: fields sep cs
    else match fields sep cs with
      | [] => [[c]]
      | f :: fs => (c :: f) :: fs

/-- The text up to a line feed and the text from it on. -/
def lineOf (cs : List Char) : List Char :=
  cs.takeWhile (· ≠ '\n')

/-- The lines of a text; a line feed ends its line, with a carriage return before it. -/
def lines (cs : List Char) : List (List Char) :=
  match (fields '\n' cs).reverse with
  | [] => []
  | last :: ended =>
    let ended := ended.reverse.map fun l =>
      if l.getLast? = some '\r' then l.dropLast else l
    if last.isEmpty then ended else ended ++ [last]

/-- Carriage returns, alone or before a line feed, become line feeds. -/
def unifyLineEnds : List Char → List Char
  | [] => []
  | '\r' :: '\n' :: cs => '\n' :: unifyLineEnds cs
  | c :: cs => (if c = '\r' then '\n' else c) :: unifyLineEnds cs

/-- The text a template is read from: no byte order mark in front, and line feeds only. -/
def normalize : List Char → List Char
  | [] => []
  | c :: cs => unifyLineEnds (if c = '\ufeff' then cs else c :: cs)

end PugTemplate
