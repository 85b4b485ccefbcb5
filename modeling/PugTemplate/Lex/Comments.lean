import PugTemplate.Lex.Error
import PugTemplate.Token

/-!
# Leaving comments out

A comment that is left out takes the text block below it along. The passage over the tokens has
three phases, which say where a token stands; only outside all comments is everything kept.
-/

namespace PugTemplate

/-- Which comments are left out. -/
structure CommentPolicy where
  dropUnbuffered : Bool := true
  dropBuffered : Bool := false
deriving DecidableEq, Repr

def CommentPolicy.drops (p : CommentPolicy) (buffered : Bool) : Bool :=
  if buffered then p.dropBuffered else p.dropUnbuffered

namespace CommentPolicy

/-- Where a token stands: behind a comment that was left out, and inside a text block. -/
structure Passage where
  dropping : Bool := false
  inBlock : Bool := false
deriving DecidableEq, Repr

/-- Whether a token is kept, and where the next one stands. -/
def step (p : CommentPolicy) (s : Passage) (t : Token) : Except LexError (Bool × Passage) :=
  match t.kind with
  | .comment _ buffered =>
    if p.drops buffered then .ok (false, { s with dropping := true }) else .ok (true, s)
  | .pipelessStart => .ok (!s.dropping, { s with inBlock := true })
  | .pipelessEnd =>
    if s.inBlock then .ok (!s.dropping, {}) else .error ⟨.strayPipelessEnd, t.loc⟩
  | _ =>
    -- a comment without a text block ends with its line
    if s.inBlock then .ok (!s.dropping, s) else .ok (true, {})

def keep (p : CommentPolicy) (s : Passage) (last : Location) :
    List Token → Except LexError (List Token)
  | [] => if s.inBlock then .error ⟨.openPipeless, last⟩ else .ok []
  | t :: ts =>
    match p.step s t with
    | .error e => .error e
    | .ok (kept, s') =>
      match keep p s' t.loc ts with
      | .error e => .error e
      | .ok more => .ok (if kept then t :: more else more)

/-- The tokens without the comments that are to be left out. -/
def strip (p : CommentPolicy) (tokens : List Token) : Except LexError (List Token) :=
  p.keep {} .nowhere tokens

end CommentPolicy

end PugTemplate
