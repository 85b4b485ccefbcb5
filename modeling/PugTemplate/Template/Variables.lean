import PugTemplate.Expr.Names
import PugTemplate.Link.Resolve

/-!
# The data a template reads

A survey walks the tree in the order of the source. A name counts as read from the data where it is
not bound by then: statements bind their names from there on, a loop binds its names in its body, and
a mixin its parameters.
-/

namespace PugTemplate

structure Survey where
  bound : List String := []
  found : List String := []

namespace Survey

def see (s : Survey) (name : String) : Survey :=
  if name ∈ s.bound ∨ name ∈ s.found then s else { s with found := s.found ++ [name] }

def expr (s : Survey) (e : Expr) : Survey :=
  e.identifiers.foldl see s

def exprs (s : Survey) (es : List Expr) : Survey :=
  es.foldl expr s

def bind (s : Survey) (names : List String) : Survey :=
  { s with bound := names ++ s.bound }

/-- What is bound inside is not bound behind. -/
def leave (s inside : Survey) : Survey :=
  { inside with bound := s.bound }

/-- An assignment that is not plain reads its name too. -/
def statement (s : Survey) : Statement → Survey
  | .declare name e => (s.expr e).bind [name]
  | .assign name .set e => (s.expr e).bind [name]
  | .assign name _ e => ((s.expr e).see name).bind [name]

def statements (s : Survey) (list : List Statement) : Survey :=
  list.foldl statement s

def source (s : Survey) : NameSource → Survey
  | .fixed _ => s
  | .computed e => s.expr e

def attributes (s : Survey) (as : List Attribute) : Survey :=
  s.exprs (as.map Attribute.value)

def head (s : Survey) (h : Head) : Survey :=
  (s.attributes h.attributes).exprs h.spreads

mutual

def node (s : Survey) : Node → Survey
  | .group _ body | .namedBlock _ _ _ body => nodes s body
  | .tag _ name h _ _ body => nodes ((s.source name).head h) body
  | .text _ _ segs => segments s segs
  | .output _ e _ => s.expr e
  | .statements _ list => s.statements list
  | .conditional _ _ test body next => otherwise (nodes (s.expr test) body) next
  | .switch _ subject bs => branches (s.expr subject) bs
  | .each _ value key e body ifEmpty =>
    let t := s.expr e
    option (t.leave (nodes (t.bind (value :: key.toList)) body)) ifEmpty
  | .loop _ test body => nodes (s.expr test) body
  | .call _ name args h content => option (((s.source name).exprs args).head h) content
  | .filter _ _ as _ => s.attributes as
  | .comment .. | .doctype .. | .mixin .. | .slot _ | .includes .. | .rawInclude .. | .inherits ..
  | .yield _ => s

def nodes (s : Survey) : List Node → Survey
  | [] => s
  | n :: ns => nodes (node s n) ns

def segments (s : Survey) : List Segment → Survey
  | [] => s
  | .literal _ :: rest => segments s rest
  | .escaped e :: rest | .raw e :: rest => segments (s.expr e) rest
  | .tag n :: rest => segments (node s n) rest

def otherwise (s : Survey) : Otherwise → Survey
  | .nothing => s
  | .elseIf _ test body next => otherwise (nodes (s.expr test) body) next
  | .otherwise _ body => nodes s body

def branches (s : Survey) : List Branch → Survey
  | [] => s
  | .mk _ none body :: rest => branches (option s body) rest
  | .mk _ (some test) body :: rest => branches (option (s.expr test) body) rest

def option (s : Survey) : Option (List Node) → Survey
  | none => s
  | some ns => nodes s ns

end

/-- A mixin: its fallbacks stand outside it, and its body sees its parameters, the attributes of its
call and whether the call has content. -/
def mixin (s : Survey) (m : Mixin) : Survey :=
  let t := s.exprs (m.params.filterMap Param.fallback)
  t.leave (nodes (t.bind (m.params.map Param.name ++ ["attributes", "block"])) m.body)

end Survey

/-- The names of the data that a linked template reads, in the order of their first use. -/
def Linked.variables (l : Linked) : List String :=
  ((l.mixins.map (·.2)).foldl Survey.mixin (Survey.nodes {} l.nodes)).found

end PugTemplate
