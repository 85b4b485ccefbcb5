import PugTemplate.Lex.Error
import PugTemplate.Text.Lines
import PugTemplate.Text.Letter

/-!
# A place in a text being read

A cursor is the text still to read and the position of its first character. It moves in one way
only, by skipping characters, so its position is always that of the text behind it.
-/

namespace PugTemplate

/-- A sequence of two steps succeeds by its parts. -/
theorem of_bind_eq_ok {ε α β : Type} {x : Except ε α} {f : α → Except ε β} {b : β}
    (h : (x >>= f) = .ok b) : ∃ a, x = .ok a ∧ f a = .ok b := by
  cases x with
  | error e => simp [bind, Except.bind] at h
  | ok a => exact ⟨a, rfl, h⟩

structure Cursor where
  rest : List Char
  loc : Location
deriving DecidableEq, Repr

namespace Cursor

def skip (c : Cursor) (n : Nat) : Cursor :=
  ⟨c.rest.drop n, c.loc.afterText (c.rest.take n)⟩

@[simp] theorem rest_skip (c : Cursor) (n : Nat) : (c.skip n).rest = c.rest.drop n := rfl

@[simp] theorem skip_zero (c : Cursor) : c.skip 0 = c := by
  simp [skip]

theorem skip_skip (c : Cursor) (m n : Nat) : (c.skip m).skip n = c.skip (m + n) := by
  simp [skip, List.drop_drop, ← Location.afterText_append, List.take_add]

/-- The text up to the end of the line. -/
def line (c : Cursor) : List Char :=
  lineOf c.rest

def skipLine (c : Cursor) : Cursor :=
  c.skip c.line.length

/-- Skips spaces and tabs. -/
def skipIndent (c : Cursor) : Cursor :=
  c.skip (c.rest.takeWhile isIndent).length

def startsWith (c : Cursor) (text : String) : Bool :=
  text.toList.isPrefixOf c.rest

/-- Behind a keyword, if one stands here that no longer word begins with. -/
def keyword? (c : Cursor) (word : String) : Option Cursor :=
  let behind := c.skip word.toList.length
  if c.startsWith word && !behind.rest.head?.any isWordOrHyphen then some behind else none

/-- The word here, of letters, digits, underscores and hyphens; it may be empty. -/
def word (c : Cursor) : List Char :=
  c.rest.takeWhile isWordOrHyphen

/-- A failure of the nesting machine on the text from here on. -/
def nestingError (c : Cursor) (f : Nesting.Failure) : LexError :=
  ⟨.bracket f.violation, c.loc.afterText f.before⟩

/-- The text up to the closing bracket, and the place behind that bracket. -/
def inside (c : Cursor) (b : Bracket) : Except LexError (List Char × Cursor) :=
  match Nesting.inside b c.rest with
  | .ok content => .ok (content, c.skip (content.length + 1))
  | .error f => .error (c.nestingError f)

/-! ## Nothing moves back -/


theorem length_skip (c : Cursor) (n : Nat) :
    (c.skip n).rest.length = c.rest.length - n := by
  simp

theorem length_skipLine_le (c : Cursor) : c.skipLine.rest.length ≤ c.rest.length := by
  simp [skipLine]

theorem length_skipIndent_le (c : Cursor) : c.skipIndent.rest.length ≤ c.rest.length := by
  simp [skipIndent]

theorem length_of_begins {p cs : List Char} (h : p.isPrefixOf cs = true) :
    p.length ≤ cs.length := by
  induction p generalizing cs with
  | nil => simp
  | cons a p ih =>
    cases cs with
    | nil => simp at h
    | cons b cs =>
      simp only [List.isPrefixOf_cons_cons, Bool.and_eq_true] at h
      simpa using ih h.2

theorem startsWith_length {c : Cursor} {text : String} (h : c.startsWith text = true) :
    text.toList.length ≤ c.rest.length :=
  length_of_begins h

theorem keyword?_eq_skip {c d : Cursor} {word : String} (h : c.keyword? word = some d) :
    d = c.skip word.toList.length ∧ word.toList.length ≤ c.rest.length := by
  simp only [keyword?] at h
  split at h
  next hs =>
    simp only [Bool.and_eq_true] at hs
    exact ⟨(Option.some.inj h).symm, startsWith_length hs.1⟩
  next => simp at h

theorem length_inside {c d : Cursor} {b : Bracket} {content : List Char}
    (h : c.inside b = .ok (content, d)) : d.rest.length < c.rest.length := by
  simp only [inside] at h
  split at h
  next content' hc =>
    simp only [Except.ok.injEq, Prod.mk.injEq] at h
    have := Nesting.length_inside hc
    rw [← h.2, length_skip]
    omega
  next => simp at h

end Cursor

end PugTemplate
