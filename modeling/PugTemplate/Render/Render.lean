import PugTemplate.Link.Resolve
import PugTemplate.Render.Walk

/-!
# Rendering a page

Calls are followed by level: how many more calls may be active, and how long the chain of callers
is. A call takes one from the first; the content of a call takes one from the second and leaves the
first. So rendering ends.
-/

namespace PugTemplate

namespace Page

variable {n : Nat}

/-- Renders the content of the call at hand in the frame of its caller. -/
def inCaller (run : List Node → Action n) : Action (n + 1) := fun s =>
  match s.chain.content with
  | none => .ok () s
  | some content =>
    Action.within Chain.caller Chain.withCaller (run content) s

/-- Acts in the frame of a new call. -/
def inCall (f : Frame) (content : Option (List Node)) (act : Action (n + 1)) : Action n :=
  Action.within (.call f content) (fun _ c => c.caller) act

/-- What a call does, for chains of every length. -/
abbrev Entrance := (n : Nat) → Location → Mixin → Frame → Option (List Node) → Action n

/-- Renders nodes, given what calls do. -/
def renderWith (p : Page) (enter : Entrance) : (n : Nat) → List Node → Action n
  | 0, nodes => p.actAll ⟨pure (), enter 0⟩ nodes
  | n + 1, nodes => p.actAll ⟨inCaller (renderWith p enter n), enter (n + 1)⟩ nodes

/-- Renders nodes while so many more calls may be active. -/
def renderNodes (p : Page) : (left : Nat) → (n : Nat) → List Node → Action n
  | 0 => p.renderWith fun _ loc _ _ _ => throw (.callDepth p.options.maxDepth loc)
  | left + 1 => p.renderWith fun n _ mixin f content =>
    inCall f content (renderNodes p left (n + 1) mixin.body)

end Page

/-- The pieces of the page that a linked template gives for some data. -/
def renderFragments (linked : Linked) (data : Value) (options : Options)
    (filters : Dictionary Filter) : Except RenderError (Array Fragment) :=
  let dialect := Dialect.ofDoctype (Doctype.name? options linked.nodes)
  let page : Page := ⟨linked.mixins, options, filters, data, dialect⟩
  match page.renderNodes options.maxDepth 0 linked.nodes ⟨.page {}, #[]⟩ with
  | .ok () s => .ok s.out
  | .error e _ => .error e

def render (linked : Linked) (data : Value) (options : Options) (filters : Dictionary Filter) :
    Except RenderError String :=
  (renderFragments linked data options filters).map joinFragments

end PugTemplate
