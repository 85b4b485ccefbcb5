import PugTemplate.Template.Basic

/-!
# Engines

A set of named templates that refer to one another, with the settings and filters they share. The
text of a template is checked when it is added; what it refers to, when it is used.
-/

namespace PugTemplate

structure Engine where
  templates : TemplateSet := []
  options : Options := {}
  filters : Filters := .builtin

namespace Engine

/-- Adds a template under a name that is not taken. -/
def add (engine : Engine) (name source : String) : Except TemplateError Engine :=
  if Dictionary.has name engine.templates then .error (.alreadyExists name)
  else match parseSource engine.options source with
    | .error e => .error (.source e)
    | .ok _ => .ok { engine with templates := Dictionary.put name source engine.templates }

def names (engine : Engine) : List String :=
  Dictionary.keys engine.templates

/-- The source that a path leads to. -/
def resolve (engine : Engine) (path : String) : Except TemplateError String :=
  match engine.templates.fetch? path with
  | some source => .ok source
  | none => .error (.missing path)

def registerFilter (engine : Engine) (name : String) (filter : Filter) : Engine :=
  { engine with filters := engine.filters.register name filter }

def compile (engine : Engine) (name : String) : Except TemplateError Template :=
  Template.compile engine.templates engine.options engine.filters name

def render (engine : Engine) (name : String) (data : Value) : Except TemplateError String := do
  (← engine.compile name).render data

end Engine

def Engine.variables (engine : Engine) (name : String) : Except TemplateError (List String) := do
  return (← engine.compile name).variables

end PugTemplate
