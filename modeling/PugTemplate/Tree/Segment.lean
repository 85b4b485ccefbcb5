import PugTemplate.Tree.Read

/-!
# The segments of a text

Values and tags inside text. The text of a tag is a little template of its own, read at the place
where it stands and outside any mixin; its comments stay. Columns count along the joined text.
-/

namespace PugTemplate

/-- A stream as a whole, given a way to cut text. -/
def readTokens (segments : String → Location → Except ParseError (List Segment))
    (tokens : List Token) : Except ParseError (List Node) :=
  let stop := (tokens.getLast?.map Token.loc).getD .nowhere
  readDocument ⟨stop, false, segments⟩ tokens

/-- The node that a tag inside text stands for. -/
def nestedNode (segments : String → Location → Except ParseError (List Segment))
    (source : List Char) (loc : Location) : Except ParseError Node :=
  match lexAt (String.ofList source) loc with
  | .error e => .error ⟨.nestedText e, e.loc⟩
  | .ok tokens => do
    match ← readTokens segments tokens with
    | [n] => return n
    | ns => return .group loc ns

def segmentOf (segments : String → Location → Except ParseError (List Segment))
    (loc : Location) : Piece → Except ParseError Segment
  | .literal text => return .literal (String.ofList text)
  | .output offset escape source => do
    let e ← expressionAt (String.ofList source) (loc.right offset)
    return if escape then .escaped e else .raw e
  | .tag offset source => .tag <$> nestedNode segments source (loc.right (offset + 2))
  | .broken offset failure => .error ⟨.brokenMarker failure.violation, loc.right offset⟩

/-- The segments of a text that stands at a position. A text inside a tag is shorter than the text
that holds the tag, so the last case never arises. -/
def segmentsAt (raw : String) (loc : Location) : Except ParseError (List Segment) :=
  (Piece.split 0 raw.toList).mapM (segmentOf
    (fun inner at_ =>
      if inner.toList.length < raw.toList.length then segmentsAt inner at_ else return [])
    loc)
termination_by raw.toList.length

/-- The tree of a stream of tokens. -/
def parseTokens (tokens : List Token) : Except ParseError (List Node) :=
  readTokens segmentsAt tokens

end PugTemplate
