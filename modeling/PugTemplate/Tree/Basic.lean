import PugTemplate.Dictionary
import PugTemplate.Expr.Basic
import PugTemplate.Token

/-!
# The tree of a template

A node stands at the position where it begins in its source. What a node holds stands inside it: the
body of a tag, the branches of a condition, the content of a call. Text is cut into segments, of
which one may be a node again.
-/

namespace PugTemplate

/-- A name that is written, or computed from data. -/
inductive NameSource where
  | fixed (name : String)
  | computed (source : Expr)
deriving Inhabited

structure Attribute where
  name : String
  /-- The text of the value; a bare attribute has none. -/
  source : Option String
  value : Expr
  escape : Bool
  /-- The value is written as one quoted string. -/
  quoted : Bool
deriving Inhabited

/-- What a tag or a call carries besides its content. -/
structure Head where
  attributes : List Attribute := []
  /-- Maps whose entries are merged behind the attributes. -/
  spreads : List Expr := []
deriving Inhabited

structure Param where
  name : String
  fallback : Option Expr
  /-- The parameter takes all arguments that are left. -/
  rest : Bool
deriving Inhabited

mutual

inductive Node where
  /-- Nodes that only stand together. -/
  | group (loc : Location) (body : List Node)
  | tag (loc : Location) (name : NameSource) (head : Head) (selfClosing textOnly : Bool)
      (body : List Node)
  | text (loc : Location) (raw : String) (segments : List Segment)
  | output (loc : Location) (value : Expr) (escape : Bool)
  | statements (loc : Location) (list : List Statement)
  | comment (loc : Location) (text : String) (buffered : Bool) (body : Option (Location × String))
  | doctype (loc : Location) (value : Option String)
  /-- `if`, or `unless` when negated. -/
  | conditional (loc : Location) (negate : Bool) (test : Expr) (body : List Node)
      (next : Otherwise)
  | switch (loc : Location) (subject : Expr) (branches : List Branch)
  | each (loc : Location) (value : String) (key : Option String) (source : Expr)
      (body : List Node) (ifEmpty : Option (List Node))
  | loop (loc : Location) (test : Expr) (body : List Node)
  | mixin (loc : Location) (name : String) (params : List Param) (body : List Node)
  | call (loc : Location) (name : NameSource) (args : List Expr) (head : Head)
      (content : Option (List Node))
  /-- The place in a mixin where the content of a call stands. -/
  | slot (loc : Location)
  | namedBlock (loc : Location) (name : String) (mode : BlockMode) (body : List Node)
  | includes (loc : Location) (path : String) (content : List Node)
  /-- A file that is taken in as text, through a filter if one is named. -/
  | rawInclude (loc : Location) (path : String) (filter : Option String)
  | inherits (loc : Location) (path : String)
  | yield (loc : Location)
  | filter (loc : Location) (name : String) (attributes : List Attribute) (text : String)

/-- What follows the first branch of a condition. -/
inductive Otherwise where
  | nothing
  | elseIf (loc : Location) (test : Expr) (body : List Node) (next : Otherwise)
  | otherwise (loc : Location) (body : List Node)

/-- A branch of a `case`; the default one has no test, and one that falls through no body. -/
inductive Branch where
  | mk (loc : Location) (test : Option Expr) (body : Option (List Node))

inductive Segment where
  | literal (text : String)
  | escaped (value : Expr)
  | raw (value : Expr)
  | tag (node : Node)

end

/-- A definition that calls refer to by name. -/
structure Mixin where
  params : List Param
  body : List Node

namespace Node

/-- The name of a kind of node, as messages give it. -/
def kindName : Node → String
  | group .. => "Block"
  | tag _ (.fixed _) .. => "Tag"
  | tag _ (.computed _) .. => "InterpolatedTag"
  | text .. => "Text"
  | output .. | statements .. => "Code"
  | comment _ _ _ none => "Comment"
  | comment _ _ _ (some _) => "BlockComment"
  | doctype .. => "Doctype"
  | conditional .. => "Conditional"
  | switch .. => "Case"
  | each .. => "Each"
  | loop .. => "While"
  | mixin .. => "Mixin"
  | call .. => "MixinCall"
  | slot .. => "MixinBlock"
  | namedBlock .. => "NamedBlock"
  | includes .. => "Include"
  | rawInclude .. => "RawInclude"
  | inherits .. => "Extends"
  | yield .. => "YieldBlock"
  | filter .. => "Filter"

def loc : Node → Location
  | group loc .. | tag loc .. | text loc .. | output loc .. | statements loc .. | comment loc ..
  | doctype loc .. | conditional loc .. | switch loc .. | each loc .. | loop loc ..
  | mixin loc .. | call loc .. | slot loc | namedBlock loc .. | includes loc ..
  | rawInclude loc .. | inherits loc .. | yield loc | filter loc .. => loc

end Node

/-! ## All nodes of a tree -/

mutual

/-- A node and all that stand inside it, each behind its own parts; text is not entered. -/
def Node.postorder (n : Node) : List Node :=
  match n with
  | .group _ body | .tag _ _ _ _ _ body | .loop _ _ body | .mixin _ _ _ body
  | .namedBlock _ _ _ body | .includes _ _ body => postorderAll body ++ [n]
  | .conditional _ _ _ body next => postorderAll body ++ (next.postorder ++ [n])
  | .switch _ _ branches => postorderBranches branches ++ [n]
  | .each _ _ _ _ body ifEmpty => postorderAll body ++ (postorderOption ifEmpty ++ [n])
  | .call _ _ _ _ content => postorderOption content ++ [n]
  | _ => [n]

def postorderAll : List Node → List Node
  | [] => []
  | n :: ns => n.postorder ++ postorderAll ns

def Otherwise.postorder : Otherwise → List Node
  | .nothing => []
  | .elseIf _ _ body next => postorderAll body ++ next.postorder
  | .otherwise _ body => postorderAll body

def postorderBranches : List Branch → List Node
  | [] => []
  | .mk _ _ body :: bs => postorderOption body ++ postorderBranches bs

def postorderOption : Option (List Node) → List Node
  | none => []
  | some ns => postorderAll ns

end

/-- How many a node counts for, its parts left out: a branch and the text of a comment count. -/
def Node.weight : Node → Nat
  | .switch _ _ branches => 1 + branches.length
  | .comment _ _ _ (some _) => 2
  | _ => 1

/-- The number of nodes of a tree. -/
def countNodes (nodes : List Node) : Nat :=
  (postorderAll nodes).foldr (fun n count => n.weight + count) 0

/-! ## Rewriting a tree -/

section Rewrite

variable {m : Type → Type} [Monad m] (replace? : Node → Option (List Node))
  (finish : Node → m (List Node))

mutual

/-- Rewrites a node. One that is replaced outright is not entered; the parts of any other are
rewritten first, and `finish` says what then stands in its place. -/
def Node.rewriteM (n : Node) : m (List Node) :=
  match replace? n with
  | some ns => pure ns
  | none =>
    match n with
    | .group loc body => do finish (.group loc (← rewriteAllM body))
    | .tag loc name head selfClosing textOnly body => do
      finish (.tag loc name head selfClosing textOnly (← rewriteAllM body))
    | .conditional loc negate test body next => do
      let body ← rewriteAllM body
      finish (.conditional loc negate test body (← next.rewriteM))
    | .switch loc subject branches => do
      finish (.switch loc subject (← rewriteBranchesM branches))
    | .each loc value key source body ifEmpty => do
      let body ← rewriteAllM body
      finish (.each loc value key source body (← rewriteOptionM ifEmpty))
    | .loop loc test body => do finish (.loop loc test (← rewriteAllM body))
    | .mixin loc name params body => do finish (.mixin loc name params (← rewriteAllM body))
    | .call loc name args head content => do
      finish (.call loc name args head (← rewriteOptionM content))
    | .namedBlock loc name mode body => do
      finish (.namedBlock loc name mode (← rewriteAllM body))
    | .includes loc path content => do finish (.includes loc path (← rewriteAllM content))
    | n => finish n

def rewriteAllM : List Node → m (List Node)
  | [] => pure []
  | n :: ns => do
    let here ← n.rewriteM
    return here ++ (← rewriteAllM ns)

def Otherwise.rewriteM : Otherwise → m Otherwise
  | .nothing => pure .nothing
  | .elseIf loc test body next => do
    let body ← rewriteAllM body
    return .elseIf loc test body (← next.rewriteM)
  | .otherwise loc body => do return .otherwise loc (← rewriteAllM body)

def rewriteBranchesM : List Branch → m (List Branch)
  | [] => pure []
  | .mk loc test body :: bs => do
    let body ← rewriteOptionM body
    return .mk loc test body :: (← rewriteBranchesM bs)

def rewriteOptionM : Option (List Node) → m (Option (List Node))
  | none => pure none
  | some ns => do return some (← rewriteAllM ns)

end

end Rewrite

/-- Replaces some nodes outright, and every other by what is made of it once its parts are done. -/
def rewriteAll (replace? : Node → Option (List Node)) (finish : Node → List Node)
    (nodes : List Node) : List Node :=
  Id.run (rewriteAllM replace? (fun n => pure (finish n)) nodes)

end PugTemplate
