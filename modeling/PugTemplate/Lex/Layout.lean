import PugTemplate.Lex.Cursor
import PugTemplate.Token

/-!
# Indentation

A line that is deeper than the block it follows opens a block, and one that is less deep closes
blocks until one of its own depth is found. Lines with nothing to show do not count. A source is
indented by spaces or by tabs, as its first indented line is.
-/

namespace PugTemplate

structure Layout where
  /-- The widths of the open blocks, the innermost first. -/
  widths : List Nat
  /-- The character that indents this source, once it is known. -/
  mark : Option Char
deriving DecidableEq, Repr

namespace Layout

def empty : Layout := ⟨[], none⟩

/-- The indentation of the innermost block; the whole source stands at 0. -/
def width (l : Layout) : Nat :=
  l.widths.headD 0

/-- One token for every block that ends. -/
def outdents (closed : List Nat) (loc : Location) : List Token :=
  closed.map fun _ => ⟨.outdent, loc⟩

/-- The tokens at the end of a source. -/
def finish (l : Layout) (loc : Location) : List Token :=
  outdents l.widths loc ++ [⟨.eos, loc⟩]

/-- The tokens before a line of a given indentation, and the blocks open then. -/
def settle (l : Layout) (width : Nat) (loc : Location) : Except LexError (List Token × Layout) :=
  if l.width < width then .ok ([⟨.indent width, loc⟩], { l with widths := width :: l.widths })
  else if width = l.width then .ok ([⟨.newline, loc⟩], l)
  else
    let closed := l.widths.takeWhile fun w => width < w
    let kept := { l with widths := l.widths.drop closed.length }
    if kept.width = width then .ok (outdents closed loc, kept)
    else .error ⟨.unknownIndentation kept.width width, loc⟩

/-- From the end of a line to the start of the next one that shows something, or to the end. -/
def nextLine (c : Cursor) : Cursor :=
  if allBlank (c.skip 1).line then
    if (c.skip 1).skipLine.rest = [] then (c.skip 1).skipLine else nextLine (c.skip 1).skipLine
  else c.skip 1
termination_by c.rest.length
decreasing_by
  rename_i h
  have hl := (c.skip 1).length_skipLine_le
  have hp := List.length_pos_iff.mpr h
  rw [Cursor.length_skip] at hl
  omega

/-- Reads the line ends here and the indentation behind them. -/
def newline (l : Layout) (c : Cursor) : Except LexError (List Token × Layout × Cursor) :=
  let d := nextLine c
  if d.rest = [] then .ok ([], l, d)
  else
    let indent := d.rest.takeWhile isIndent
    let mark := l.mark.or indent.head?
    if indent.any fun x => some x != mark then .error ⟨.mixedIndentation, d.loc⟩
    else match settle { l with mark } indent.length d.skipIndent.loc with
      | .ok (tokens, l) => .ok (tokens, l, d.skipIndent)
      | .error e => .error e

/-- Skips the blank lines that a source begins with, and the indentation of its first line. -/
def skipLeading (c : Cursor) : Cursor :=
  if allBlank c.line ∧ c.skipLine.rest ≠ [] then skipLeading (c.skipLine.skip 1) else c.skipIndent
termination_by c.rest.length
decreasing_by
  rename_i h
  have hl := c.length_skipLine_le
  have hp := List.length_pos_iff.mpr h.2
  rw [Cursor.length_skip]
  omega

theorem length_nextLine_le (c : Cursor) : (nextLine c).rest.length ≤ c.rest.length - 1 := by
  fun_induction nextLine c with
  | case1 c _ _ =>
    have hl := (c.skip 1).length_skipLine_le
    rwa [Cursor.length_skip] at hl
  | case2 c _ _ ih =>
    have hl := (c.skip 1).length_skipLine_le
    rw [Cursor.length_skip] at hl
    omega
  | case3 c _ => exact Nat.le_of_eq (c.length_skip 1)

theorem length_newline_lt {l m : Layout} {c d : Cursor} {tokens : List Token} (hc : c.rest ≠ [])
    (h : newline l c = .ok (tokens, m, d)) : d.rest.length < c.rest.length := by
  have hn := length_nextLine_le c
  have hp := List.length_pos_iff.mpr hc
  have hi := (nextLine c).length_skipIndent_le
  simp only [newline] at h
  split at h
  · simp only [Except.ok.injEq, Prod.mk.injEq] at h
    rw [← h.2.2]
    omega
  · split at h
    · simp at h
    · split at h
      · simp only [Except.ok.injEq, Prod.mk.injEq] at h
        rw [← h.2.2]
        omega
      · simp at h

end Layout

end PugTemplate
