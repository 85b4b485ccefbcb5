import PugTemplate.Lex.Cursor
import PugTemplate.Text.Marker
import PugTemplate.Token

/-!
# Text without pipes

Behind some lines the deeper lines below are text as they stand. The block ends at the first line
that shows something and is not deeper; blank lines at its end do not belong to it. The indentation
common to its lines is taken off.
-/

namespace PugTemplate

/-- Refuses text with a marker that is not closed. -/
def checkMarkers (loc : Location) (text : List Char) : Except LexError Unit :=
  match Piece.firstBroken? (Piece.split 0 text) with
  | some (violation, offset) => .error ⟨.bracket violation, loc.right offset⟩
  | none => .ok ()

namespace Pipeless

def indentOf (line : List Char) : Nat :=
  (line.takeWhile isIndent).length

/-- The lines below that are blank or deeper than a width, from the line feed before the first. -/
def deeperLines (width : Nat) (cs : List Char) : List (List Char) :=
  match cs with
  | [] => []
  | c :: cs =>
    if c = '\n' then
      let line := lineOf cs
      if !allBlank line && indentOf line ≤ width then []
      else line :: deeperLines width (cs.drop line.length)
    else []
termination_by cs.length

/-- Lines up to the last one that is not blank. -/
def dropBlankEnd (lines : List (List Char)) : List (List Char) :=
  (lines.reverse.dropWhile allBlank).reverse

/-- The indentation common to the lines that are not blank. -/
def commonIndent (lines : List (List Char)) : Nat :=
  ((lines.filter fun l => !allBlank l).map indentOf).min?.getD 0

/-- How many characters lines take, each with the line feed before it. -/
def extent (lines : List (List Char)) : Nat :=
  lines.foldr (fun l length => l.length + 1 + length) 0

/-- The tokens of the lines of a block, read from the line feed before the first of them. -/
def lineTokens (check : Bool) (base : Nat) (first : Bool) (c : Cursor) :
    List (List Char) → Except LexError (List Token)
  | [] => .ok []
  | line :: lines => do
    let start := c.skip 1
    let shown := if allBlank line then 0 else base
    let text := if allBlank line then [] else line.drop base
    let textLoc := (start.skip shown).loc
    if check then checkMarkers textLoc text
    let more ← lineTokens check base false (start.skip line.length) lines
    let tokens := ⟨.text (String.ofList text), textLoc⟩ :: more
    return if first then tokens else ⟨.newline, start.loc⟩ :: tokens

/-- The block of text below a line, read from the end of that line; no tokens if there is none. -/
def read (check : Bool) (width : Nat) (c : Cursor) : Except LexError (List Token × Cursor) :=
  let lines := dropBlankEnd (deeperLines width c.rest)
  if lines = [] then .ok ([], c)
  else do
    let tokens ← lineTokens check (commonIndent lines) true c lines
    let finish := c.skip (extent lines)
    return (⟨.pipelessStart, c.loc⟩ :: (tokens ++ [⟨.pipelessEnd, finish.loc⟩]), finish)

theorem length_read_le {check : Bool} {width : Nat} {c d : Cursor} {tokens : List Token}
    (h : read check width c = .ok (tokens, d)) : d.rest.length ≤ c.rest.length := by
  simp only [read] at h
  split at h
  · simp only [Except.ok.injEq, Prod.mk.injEq] at h
    exact Nat.le_of_eq (congrArg (List.length ·.rest) h.2.symm)
  · obtain ⟨tokens', -, h⟩ := of_bind_eq_ok h
    simp only [pure, Except.pure, Except.ok.injEq, Prod.mk.injEq] at h
    rw [← h.2]
    simp

end Pipeless

end PugTemplate
