import PugTemplate.Text.Lines

/-!
# Paths of templates

A path is written with slashes. A reference is taken from the directory of the template that holds
it, or from the root if it begins with a slash. Resolving removes empty parts and dots, never climbs
above the root, and gives a file without an extension the one of templates.
-/

namespace PugTemplate

namespace TemplatePath

/-- One part further from the root, given the parts so far, the last one first. -/
def walk (above : List (List Char)) (part : List Char) : List (List Char) :=
  if part = [] ∨ part = ['.'] then above
  else if part = ['.', '.'] then above.tail
  else part :: above

/-- The parts of a path once dots are followed. -/
def parts (path : List Char) : List (List Char) :=
  ((fields '/' path).foldl walk []).reverse

def join (ps : List (List Char)) : List Char :=
  List.intercalate ['/'] ps

def isAbsolute (path : List Char) : Bool :=
  path.head? == some '/'

def normalize (path : List Char) : List Char :=
  if isAbsolute path then '/' :: join (parts path) else join (parts path)

/-- The extension of templates. -/
def extension : List Char :=
  ".pug".toList

/-- The last part of a path. -/
def fileName (path : List Char) : List Char :=
  (path.reverse.takeWhile (· ≠ '/')).reverse

/-- A file without any dot in its name is a template. -/
def withExtension (path : List Char) : List Char :=
  if '.' ∈ fileName path then path else path ++ extension

/-- The path up to its last slash, if it has one. -/
def directory? (path : List Char) : Option (List Char) :=
  match path.reverse.dropWhile (· ≠ '/') with
  | [] => none
  | _ :: above => some above.reverse

def dropSlashesEnd (path : List Char) : List Char :=
  (path.reverse.dropWhile (· = '/')).reverse

/-- A reference before dots are followed. -/
def place (basedir : Option (List Char)) (current target : List Char) : List Char :=
  match target with
  | '/' :: rest =>
    match basedir with
    | some base => dropSlashesEnd base ++ '/' :: rest
    | none => rest
  | _ =>
    match directory? current with
    | some dir => dir ++ '/' :: target
    | none => target

end TemplatePath

/-- The path that a reference in a template leads to. -/
def resolvePath (basedir : Option String) (current target : String) : String :=
  String.ofList (TemplatePath.withExtension (TemplatePath.normalize
    (TemplatePath.place (basedir.map String.toList) current.toList target.toList)))

end PugTemplate
