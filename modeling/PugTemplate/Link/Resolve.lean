import PugTemplate.Lex.Read
import PugTemplate.Link.Block
import PugTemplate.Link.Error
import PugTemplate.Link.Path
import PugTemplate.Link.TemplateSet
import PugTemplate.Options
import PugTemplate.Tree.Segment

/-!
# Linking

A template is linked by following its references: the template it extends, the ones it includes, and
theirs in turn. While a template is linked its path is on a stack, and a reference to a path on the
stack is circular. Each step down takes one more path of the set onto the stack, so linking ends.
-/

namespace PugTemplate

/-- The tree of a source. -/
def parseSource (options : Options) (source : String) : Except SourceError (List Node) :=
  match (lex source).bind options.comments.strip with
  | .error e => .error (.lex e)
  | .ok tokens =>
    match parseTokens tokens with
    | .error e => .error (.parse e)
    | .ok nodes => .ok nodes

/-- Whether a tree begins by extending another template. -/
def extendsOther : List Node → Bool
  | .inherits .. :: _ => true
  | _ => false

/-- What a reference leads to: a linked tree, and whether its template extends another. -/
structure Loaded where
  nodes : List Node
  extending : Bool

/-- Links what a path leads to, for a reference at a position. -/
abbrev Loader := String → Location → Except LinkFailure Loaded

namespace Linking

def failAt {α : Type} (path : String) (loc : Location) (cause : LinkCause) :
    Except LinkFailure α :=
  .error (.reference ⟨cause, path, loc⟩)

/-- The tree that an inclusion contributes. Blocks that a template inherited are closed. -/
def included (loaded : Loaded) (loc : Location) (content : List Node) : Node :=
  .group loc (spliceContent loc content
    (if loaded.extending then closeBlocks loaded.nodes else loaded.nodes))

/-- The text of a file, or what a filter will make of it. -/
def includedText (loc : Location) (text : String) : Option String → Node
  | some filter => .filter loc filter [] text
  | none => .text loc text [.literal text]

/-- What stands in the place of a node whose parts hold no reference any more. -/
def followReference (load : Loader) (set : TemplateSet) (basedir : Option String) (path : String) :
    Node → Except LinkFailure (List Node)
  | .inherits loc _ => failAt path loc .inheritsNotFirst
  | .includes loc target content => do
    let loaded ← load (resolvePath basedir path target) loc
    return [included loaded loc content]
  | .rawInclude loc target filter =>
    let file := resolvePath basedir path target
    match set.fetch? file with
    | some text => return [includedText loc text filter]
    | none => failAt path loc (.unresolvedPath file)
  | n => return [n]

def resolveIncludes (load : Loader) (set : TemplateSet) (basedir : Option String) (path : String)
    (nodes : List Node) : Except LinkFailure (List Node) :=
  rewriteAllM (fun _ => none) (followReference load set basedir path) nodes

/-- The top level of a template that extends another, in the place of its parent's tree: statements
come before it, and mixins behind. -/
def overParent (root parent : List Node) : List Node :=
  root.filter Node.isStatements ++
    (mergeAll (root.filterMap Node.override?) parent ++ root.filter Node.isMixin)

/-- A tree with all its references followed. -/
def linkWith (load : Loader) (set : TemplateSet) (basedir : Option String) (path : String) :
    List Node → Except LinkFailure (List Node)
  | .inherits loc target :: rest => do
    let root := ungroupedAll (← resolveIncludes load set basedir path rest)
    match root.find? fun n => !n.mayOverride with
    | some n => failAt path n.loc (.unexpectedNode n.kindName)
    | none => do
      let parent ← load (resolvePath basedir path target) loc
      return overParent root parent.nodes
  | nodes => resolveIncludes load set basedir path nodes

/-- Links a tree; the stack holds its own path and those of the templates that led to it. -/
def linkTree (set : TemplateSet) (options : Options) (stack : List String) (path : String)
    (nodes : List Node) : Except LinkFailure (List Node) :=
  linkWith
    (fun target loc =>
      if _hs : target ∈ stack then failAt path loc (.circularReference target)
      else match _hf : set.fetch? target with
        | none => failAt path loc (.unresolvedPath target)
        | some source =>
          match parseSource options source with
          | .error e => .error (.included target e)
          | .ok parsed => do
            let linked ← linkTree set options (target :: stack) target parsed
            return ⟨linked, extendsOther parsed⟩)
    set options.basedir path nodes
termination_by (set.unvisited stack).length
decreasing_by exact TemplateSet.length_unvisited_lt _hs _hf

end Linking

/-- A linked tree, and the mixins that were defined in it. -/
structure Linked where
  nodes : List Node
  mixins : Dictionary Mixin

/-- Links the tree of the template at a path. -/
def link (set : TemplateSet) (options : Options) (path : String) (nodes : List Node) :
    Except LinkFailure Linked := do
  let tree ← Linking.linkTree set options [path] path nodes
  return ⟨withoutMixins tree, mixinPool tree⟩

end PugTemplate
