import PugTemplate.Tree.Basic

/-!
# Blocks, yields and definitions

What linking does to a tree: an override changes the blocks of its name, content takes the place of
a yield or of the end of the tree, and definitions of mixins are taken out.
-/

namespace PugTemplate

/-! ## Named blocks -/

/-- The body of a block once an override is applied. -/
def BlockMode.combine (mode : BlockMode) (body override : List Node) : List Node :=
  match mode with
  | .replace => override
  | .append => body ++ override
  | .prepend => override ++ body

structure Override where
  name : String
  mode : BlockMode
  body : List Node

/-- An override applies to blocks that are declared under its name in replace mode. -/
def Override.apply? (o : Override) : Node → Option (List Node)
  | .namedBlock loc name .replace body =>
    if name = o.name then some [.namedBlock loc name .replace (o.mode.combine body o.body)]
    else none
  | _ => none

/-- A tree with an override applied; what an override changed is not looked into again. -/
def Override.merge (o : Override) (nodes : List Node) : List Node :=
  rewriteAll o.apply? (fun n => [n]) nodes

def mergeAll (overrides : List Override) (nodes : List Node) : List Node :=
  overrides.foldl (fun ns o => o.merge ns) nodes

/-- A tree whose named blocks are plain groups, closed to overrides. -/
def closeBlocks (nodes : List Node) : List Node :=
  rewriteAll (fun _ => none)
    (fun
      | .namedBlock loc _ _ body => [.group loc body]
      | n => [n])
    nodes

/-! ## Content of an inclusion -/

def Node.isYield : Node → Bool
  | .yield _ => true
  | _ => false

def hasYield (nodes : List Node) : Bool :=
  (postorderAll nodes).any Node.isYield

def replaceYields (content nodes : List Node) : List Node :=
  rewriteAll (fun _ => none)
    (fun
      | .yield loc => [.group loc content]
      | n => [n])
    nodes

mutual

/-- A node with another one at its end, if it is a group or a tag that holds nodes. -/
def Node.extended? (added : Node) : Node → Option Node
  | .group loc body =>
    if body = [] then none else some (.group loc ((extendedLast? added body).getD (body ++ [added])))
  | .tag loc name head selfClosing textOnly body =>
    if textOnly ∨ body = [] then none
    else some (.tag loc name head selfClosing textOnly
      ((extendedLast? added body).getD (body ++ [added])))
  | _ => none

/-- Nodes with another one at the end of the last of them that can take it. -/
def extendedLast? (added : Node) : List Node → Option (List Node)
  | [] => none
  | n :: ns =>
    match extendedLast? added ns with
    | some ns => some (n :: ns)
    | none => (Node.extended? added n).map (· :: ns)

end

/-- A tree with a node added where its last nodes end, as deep as they reach. -/
def addDeepest (added : Node) (nodes : List Node) : List Node :=
  (extendedLast? added nodes).getD (nodes ++ [added])

/-- An included tree with the content of the inclusion. -/
def spliceContent (loc : Location) (content nodes : List Node) : List Node :=
  if content = [] then nodes
  else if hasYield nodes then replaceYields content nodes
  else addDeepest (.group loc content) nodes

/-! ## Definitions -/

/-- A tree without the definitions of mixins in it. -/
def withoutMixins (nodes : List Node) : List Node :=
  rewriteAll (fun _ => none)
    (fun
      | .mixin .. => []
      | n => [n])
    nodes

def Node.definition? : Node → Option (String × Mixin)
  | .mixin _ name params body => some (name, ⟨params, withoutMixins body⟩)
  | _ => none

/-- The mixins defined in a tree; of two with one name the later counts. -/
def mixinPool (nodes : List Node) : Dictionary Mixin :=
  Dictionary.ofEntries ((postorderAll nodes).filterMap Node.definition?)

/-! ## The top level of a template that extends another -/

mutual

def Node.ungrouped : Node → List Node
  | .group _ body => ungroupedAll body
  | n => [n]

/-- Nodes with what groups hold in the place of the groups. -/
def ungroupedAll : List Node → List Node
  | [] => []
  | n :: ns => n.ungrouped ++ ungroupedAll ns

end

namespace Node

def override? : Node → Option Override
  | .namedBlock _ name mode body => some ⟨name, mode, body⟩
  | _ => none

def isStatements : Node → Bool
  | .statements .. => true
  | _ => false

def isMixin : Node → Bool
  | .mixin .. => true
  | _ => false

def isComment : Node → Bool
  | .comment .. => true
  | _ => false

/-- Whether a node may stand at the top level of a template that extends another. -/
def mayOverride (n : Node) : Bool :=
  n.override?.isSome || n.isStatements || n.isMixin || n.isComment

end Node

end PugTemplate
