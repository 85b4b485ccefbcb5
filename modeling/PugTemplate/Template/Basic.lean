import PugTemplate.Render.Filter
import PugTemplate.Render.Render
import PugTemplate.Template.Error
import PugTemplate.Template.Variables

/-!
# Templates

A template that is compiled: read, linked, and ready to be rendered any number of times.
-/

namespace PugTemplate

structure Template where
  source : String
  /-- A template that was not taken from a set has no name. -/
  name : Option String
  linked : Linked
  options : Options
  filters : Filters

namespace Template

/-- The path that a template without a name is linked under. -/
def anonymousPath : String := "template.pug"

/-- Reads and links a source that stands at a path. -/
def linkSource (set : TemplateSet) (options : Options) (path source : String) :
    Except TemplateError Linked :=
  match parseSource options source with
  | .error e => .error (.source e)
  | .ok nodes =>
    match link set options path nodes with
    | .error f => .error (.linking f)
    | .ok linked => .ok linked

/-- Compiles a source on its own; there is nothing it can refer to. -/
def ofSource (options : Options) (source : String) : Except TemplateError Template := do
  let linked ← linkSource [] options anonymousPath source
  return ⟨source, none, linked, options, .builtin⟩

/-- Compiles the template of a set that a name leads to. -/
def compile (set : TemplateSet) (options : Options) (filters : Filters) (name : String) :
    Except TemplateError Template :=
  match set.fetch? name with
  | none => .error (.missing name)
  | some source => do
    let linked ← linkSource set options name source
    return ⟨source, some name, linked, options, filters⟩

/-- The names of the mixins that can be called. -/
def mixins (t : Template) : List String :=
  Dictionary.keys t.linked.mixins

/-- The page for some data. Data that is missing is no failure. -/
def render (t : Template) (data : Value) : Except TemplateError String :=
  match PugTemplate.render t.linked data t.options t.filters with
  | .ok html => .ok html
  | .error e => .error (.rendering e)

end Template

def Template.variables (t : Template) : List String :=
  t.linked.variables

/-- Compiles and renders a source in one step. -/
def renderSource (source : String) (data : Value) : Except TemplateError String := do
  (← Template.ofSource {} source).render data

end PugTemplate
