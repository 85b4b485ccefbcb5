/-!
# Positions in a source

A position is a line and a column, both counted from 1. Columns count UTF-8 bytes, so a position
can be handed to any tool that indexes the encoded text. Reading a text moves a position by the
text alone: `afterText_append` lets a reader be split anywhere.
-/

namespace PugTemplate

structure Location where
  line : Nat
  column : Nat
deriving DecidableEq, Repr, Inhabited

/-- The number of bytes of a text in UTF-8. -/
def byteLength : List Char → Nat
  | [] => 0
  | c :: cs => c.utf8Size + byteLength cs

@[simp] theorem byteLength_append (cs ds : List Char) :
    byteLength (cs ++ ds) = byteLength cs + byteLength ds := by
  induction cs with
  | nil => simp [byteLength]
  | cons c cs ih => simp [byteLength, ih, Nat.add_assoc]

namespace Location

/-- Where a whole source begins. -/
def start : Location := ⟨1, 1⟩

/-- The position that stands for no position at all, as in a stream without tokens. -/
def nowhere : Location := ⟨0, 0⟩

/-- The position behind a character: a line feed opens the next line. -/
def after (l : Location) (c : Char) : Location :=
  if c = '\n' then ⟨l.line + 1, 1⟩ else ⟨l.line, l.column + c.utf8Size⟩

def afterText (l : Location) (cs : List Char) : Location :=
  cs.foldl after l

/-- The position some bytes further on, on the same line. -/
def right (l : Location) (bytes : Nat) : Location :=
  ⟨l.line, l.column + bytes⟩

@[simp] theorem afterText_nil (l : Location) : l.afterText [] = l := rfl

@[simp] theorem afterText_cons (l : Location) (c : Char) (cs : List Char) :
    l.afterText (c :: cs) = (l.after c).afterText cs := rfl

theorem afterText_append (l : Location) (cs ds : List Char) :
    l.afterText (cs ++ ds) = (l.afterText cs).afterText ds := by
  simp [afterText, List.foldl_append]

theorem afterText_of_no_feed {cs : List Char} (h : '\n' ∉ cs) (l : Location) :
    l.afterText cs = l.right (byteLength cs) := by
  induction cs generalizing l with
  | nil => rfl
  | cons c cs ih =>
    simp only [List.mem_cons, not_or] at h
    have hc : ¬ c = '\n' := fun e => h.1 e.symm
    simp [afterText_cons, ih h.2, after, hc, right, byteLength, Nat.add_assoc]

end Location

end PugTemplate
