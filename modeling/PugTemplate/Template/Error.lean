import PugTemplate.Link.Error
import PugTemplate.Render.Walk

/-!
# Failures of templates

All that can go wrong from the name of a template to its page.
-/

namespace PugTemplate

inductive TemplateError where
  | alreadyExists (name : String)
  | missing (name : String)
  /-- The text of the template itself cannot be read. -/
  | source (error : SourceError)
  | linking (failure : LinkFailure)
  | rendering (error : RenderError)

def TemplateError.message : TemplateError → String
  | alreadyExists name => "Template already exists: " ++ name
  | missing name => "Template not found: " ++ name
  | source e => e.message
  | linking f => f.message
  | rendering e => "Rendering error: " ++ e.message

end PugTemplate
