/-!
# Blank characters

Blank is the Unicode property White_Space. Indentation is narrower: it is made of spaces and tabs
only (`isIndent`). Trimming removes blanks at the ends of a text.
-/

namespace PugTemplate

def isBlank (c : Char) : Bool :=
  let n := c.toNat
  (9 ≤ n && n ≤ 13) || n == 0x20 || n == 0x85 || n == 0xa0 || n == 0x1680 ||
    (0x2000 ≤ n && n ≤ 0x200a) || n == 0x2028 || n == 0x2029 || n == 0x202f ||
    n == 0x205f || n == 0x3000

def isIndent (c : Char) : Bool :=
  c == ' ' || c == '\t'

theorem isBlank_of_isIndent {c : Char} (h : isIndent c = true) : isBlank c = true := by
  simp only [isIndent, Bool.or_eq_true, beq_iff_eq] at h
  rcases h with rfl | rfl <;> decide

def trimStart (cs : List Char) : List Char :=
  cs.dropWhile isBlank

def trimEnd (cs : List Char) : List Char :=
  (cs.reverse.dropWhile isBlank).reverse

def trim (cs : List Char) : List Char :=
  trimEnd (trimStart cs)

/-- A text with no character to show. -/
def allBlank (cs : List Char) : Bool :=
  cs.all isBlank

end PugTemplate
