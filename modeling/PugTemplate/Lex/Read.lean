import PugTemplate.Lex.Layout
import PugTemplate.Lex.Progress

/-!
# The tokens of a source

At a line end the layout decides what follows; inside a line the rules do. Both leave less text than
they found, so reading ends.
-/

namespace PugTemplate

namespace Layout

/-- The tokens read next in a text that is not at its end. -/
def step (l : Layout) (c : Cursor) : Except LexError (List Token × Layout × Cursor) :=
  if c.startsWith "\n" then newline l c
  else match Rule.read l.width c with
    | .ok (tokens, d) => .ok (tokens, l, d)
    | .error e => .error e

theorem length_step_lt {l m : Layout} {c d : Cursor} {tokens : List Token} (hc : c.rest ≠ [])
    (h : step l c = .ok (tokens, m, d)) : d.rest.length < c.rest.length := by
  unfold step at h
  split at h
  · exact length_newline_lt hc h
  · split at h
    next hr =>
      simp only [Except.ok.injEq, Prod.mk.injEq] at h
      rw [← h.2.2]
      exact Rule.length_read_lt hr
    next => simp at h

def tokens (l : Layout) (c : Cursor) : Except LexError (List Token) :=
  if c.rest = [] then .ok (l.finish c.loc)
  else match _h : step l c with
    | .error e => .error e
    | .ok (first, m, d) =>
      match tokens m d with
      | .error e => .error e
      | .ok more => .ok (first ++ more)
termination_by c.rest.length
decreasing_by exact length_step_lt (by assumption) _h

end Layout

/-- The tokens of a text that begins at a given position. -/
def lexAt (text : String) (loc : Location) : Except LexError (List Token) :=
  Layout.empty.tokens (Layout.skipLeading ⟨text.toList, loc⟩)

/-- The text a source is read as. -/
def normalizeText (source : String) : String :=
  String.ofList (normalize source.toList)

/-- The tokens of a source. -/
def lex (source : String) : Except LexError (List Token) :=
  lexAt (normalizeText source) .start

end PugTemplate
