import PugTemplate.Expr.Eval
import PugTemplate.Render.Doctype
import PugTemplate.Render.Fragment
import PugTemplate.Value.Text

/-!
# Attributes of a start tag

The attributes of an element and the entries of the maps it spreads are one sequence. All classes in
it make up one attribute; any other name has its first place and its last value.
-/

namespace PugTemplate

/-- A name with a value that an element carries. -/
structure Binding where
  name : String
  value : Value
  escape : Bool
  /-- The name comes from data. -/
  spread : Bool

namespace Binding

/-- The entries of a map that is spread; nothing else can be. -/
def ofSpread : Value → List Binding
  | .map entries => entries.map fun (k, v) => ⟨k, v, true, true⟩
  | _ => []

/-- What an element carries, in order. -/
def ofHead (eval : Expr → Value) (head : Head) : List Binding :=
  (head.attributes.map fun a => ⟨a.name, eval a.value, a.escape, false⟩) ++
    head.spreads.flatMap fun e => ofSpread (eval e)

def isClass (b : Binding) : Bool :=
  b.name == "class"

def nameFragment (b : Binding) : Fragment :=
  if b.spread then .raw b.name else .fixed b.name

end Binding

mutual

/-- The class names that a value stands for: a map stands for its keys with a true value. -/
def classNames : Value → List String
  | .null | .bool _ => []
  | .array items => classNamesAll items
  | .map entries => (entries.filter fun e => e.2.truthy).map (·.1)
  | v => if v.toOutput.isEmpty then [] else [v.toOutput]

def classNamesAll : List Value → List String
  | [] => []
  | v :: vs => classNames v ++ classNamesAll vs

end

/-- The bindings other than classes, each name once. -/
def otherBindings (bs : List Binding) : Dictionary Binding :=
  Dictionary.ofEntries ((bs.filter fun b => !b.isClass).map fun b => (b.name, b))

/-- The class names of bindings, as they are to be written. -/
def classFragments (bs : List Binding) : List Fragment :=
  (bs.filter Binding.isClass).flatMap fun b => (classNames b.value).map (Fragment.ofData b.escape)

/-- Pieces with a space between them. -/
def spaced : List Fragment → List Fragment
  | [] => []
  | [f] => [f]
  | f :: fs => f :: .fixed " " :: spaced fs

/-- The text of a style: a map is written as declarations. -/
def styleText (entries : List (String × Value)) : String :=
  String.join ((entries.filter fun (_, v) =>
    match v with
    | .null | .bool false => false
    | _ => true).map fun (k, v) => k ++ ":" ++ v.toOutput ++ ";")

def spacedOutput (items : List Value) : String :=
  String.intercalate " " (items.map Value.toOutput)

/-- An attribute with a text; the name stands bare where there is none. -/
def attributeWith (name : Fragment) : Option Fragment → List Fragment
  | none => [.fixed " ", name]
  | some f => [.fixed " ", name, .fixed "=\"", f, .fixed "\""]

/-- An attribute as it is written; null and false leave it out. -/
def Binding.fragments (dialect : Dialect) (b : Binding) : List Fragment :=
  match b.value with
  | .null | .bool false => []
  | .bool true =>
    attributeWith b.nameFragment (if dialect.terse then none else some b.nameFragment)
  | .map entries =>
    attributeWith b.nameFragment (some (if b.name = "style"
      then .ofData b.escape (styleText entries) else .escaped b.value.toJson))
  | .array items => attributeWith b.nameFragment (some (.ofData b.escape (spacedOutput items)))
  | v => attributeWith b.nameFragment (some (.ofData b.escape v.toOutput))

/-- All attributes of a start tag, classes first. -/
def attributeFragments (dialect : Dialect) (bs : List Binding) : List Fragment :=
  let classes := classFragments bs
  let class_ := if classes = [] then []
    else .fixed " class=\"" :: (spaced classes ++ [.fixed "\""])
  class_ ++ (otherBindings bs).flatMap fun (_, b) => b.fragments dialect

/-- The map that a mixin sees the attributes of its call as. -/
def attributesMap (bs : List Binding) : Value :=
  let classes := (bs.filter Binding.isClass).flatMap fun b => classNames b.value
  let class_ := if classes = [] then []
    else [("class", Value.string (String.intercalate " " classes))]
  .map (class_ ++ (otherBindings bs).map fun (name, b) => (name, b.value))

end PugTemplate
