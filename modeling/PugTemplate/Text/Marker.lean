import PugTemplate.Text.Location
import PugTemplate.Text.Nesting

/-!
# Markers in text

Running text may hold `#{…}` and `!{…}`, whose values are written escaped or as they are, and `#[…]`,
a tag. A backslash before a marker makes it plain text and leaves no trace itself. `Piece.split`
cuts a text into its pieces; it stops at the first marker that is not closed.
-/

namespace PugTemplate

inductive Piece where
  | literal (text : List Char)
  /-- A value, with the byte offset of its marker. -/
  | output (offset : Nat) (escape : Bool) (source : List Char)
  /-- A tag, with the byte offset of its marker. -/
  | tag (offset : Nat) (source : List Char)
  /-- A marker that is not closed; nothing follows it. -/
  | broken (offset : Nat) (failure : Nesting.Failure)
deriving DecidableEq, Repr

namespace Piece

/-- The marker that a text begins with: its bracket, and whether what it shows is escaped. -/
def marker? : List Char → Option (Bracket × Bool)
  | '#' :: '\x7b' :: _ => some (.curly, true)
  | '!' :: '\x7b' :: _ => some (.curly, false)
  | '#' :: '[' :: _ => some (.square, true)
  | _ => none

/-- More literal text in front; literal texts in a row are one. -/
def prependLiteral (cs : List Char) : List Piece → List Piece
  | .literal ds :: ps => .literal (cs ++ ds) :: ps
  | ps => .literal cs :: ps

def enclosed (offset : Nat) (b : Bracket) (escape : Bool) (source : List Char) : Piece :=
  match b with
  | .square => .tag offset source
  | _ => .output offset escape source

/-- The pieces of a text that begins at a byte offset. -/
def split (offset : Nat) (cs : List Char) : List Piece :=
  match cs with
  | [] => []
  | c :: cs =>
    if c = '\\' ∧ (marker? cs).isSome then
      prependLiteral (cs.take 2) (split (offset + 3) (cs.drop 2))
    else match marker? (c :: cs) with
      | none => prependLiteral [c] (split (offset + c.utf8Size) cs)
      | some (b, escape) =>
        match Nesting.inside b cs.tail with
        | .error failure => [.broken offset failure]
        | .ok source =>
          enclosed offset b escape source ::
            split (offset + 2 + byteLength source + 1) (cs.drop (source.length + 2))
termination_by cs.length

/-- The first marker that is not closed: what is wrong with it, and at which byte. -/
def firstBroken? (ps : List Piece) : Option (Nesting.Violation × Nat) :=
  ps.findSome? fun
    | .broken offset f => some (f.violation, offset + 2 + byteLength f.before)
    | _ => none

end Piece

end PugTemplate
