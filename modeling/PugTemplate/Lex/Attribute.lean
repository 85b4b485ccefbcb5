import PugTemplate.Lex.Cursor
import PugTemplate.Token

/-!
# Attribute lists

The inside of `( … )` behind a tag is a list of attributes between blanks and commas. A value is an
expression that ends at a blank or comma outside all brackets and literals, unless an operator next
to the blank carries it on.
-/

namespace PugTemplate

/-- The characters that, next to blanks, carry an expression on. -/
def isOperatorChar (c : Char) : Bool :=
  "+-*/%?:<>=&|.".toList.contains c

namespace Attribute

def isSeparator (c : Char) : Bool :=
  isBlank c || c == ','

/-- A name without quotes: up to a blank, a comma, `=` or `!=`. -/
def plainName : List Char → List Char
  | [] => []
  | c :: cs =>
    if isSeparator c || c == '=' || (c == '!' && cs.head? == some '=') then []
    else c :: plainName cs

/-- The name that a text begins with, and how many characters it takes, quotes included. -/
def readName (loc : Location) (cs : List Char) : Except LexError (List Char × Nat) :=
  match cs with
  | [] => .ok ([], 0)
  | c :: rest =>
    if c = '\'' ∨ c = '"' then
      let name := rest.takeWhile (· ≠ c)
      if name.length < rest.length then .ok (name, name.length + 2)
      else .error ⟨.unterminatedAttributeName, loc⟩
    else
      let name := plainName cs
      .ok (name, name.length)

theorem length_readName {loc : Location} {cs name : List Char} {n : Nat}
    (h : readName loc cs = .ok (name, n)) : name.length ≤ n := by
  unfold readName at h
  split at h
  · simp only [Except.ok.injEq, Prod.mk.injEq] at h
    simp [← h.1]
  · split at h
    · simp only at h
      split at h
      · simp only [Except.ok.injEq, Prod.mk.injEq] at h
        rw [← h.1, ← h.2]
        omega
      · simp at h
    · simp only [Except.ok.injEq, Prod.mk.injEq] at h
      exact Nat.le_of_eq (by rw [← h.1, ← h.2])

/-- The text of the value that begins here. `last` is the last character of it that is not blank. -/
def valueText (open_ : List Enclosure) (last : Option Char) :
    List Char → Except Nesting.Failure (List Char)
  | [] => .ok []
  | c :: cs =>
    if open_ = [] ∧ c = ',' then .ok []
    else
      let next := (trimStart cs).head?
      let carriesOn := last.any isOperatorChar || next.any fun n => isOperatorChar n && n != '-'
      if open_ = [] ∧ isBlank c then
        if carriesOn then continueWith c (valueText [] last cs) else .ok []
      else match Nesting.feed open_ c with
        | .error v => .error ⟨v, []⟩
        | .ok inner =>
          continueWith c (valueText inner (if isBlank c then last else some c) cs)
where
  continueWith (c : Char) : Except Nesting.Failure (List Char) → Except Nesting.Failure (List Char)
    | .ok cs => .ok (c :: cs)
    | .error f => .error { f with before := c :: f.before }

/-- The mark between a name and its value, if one stands here: whether it asks for escaping, and how
many characters it takes with the blanks before it. -/
def mark? (cs : List Char) : Option (Bool × Nat) :=
  let blanks := (cs.takeWhile isBlank).length
  match cs.drop blanks with
  | '!' :: '=' :: _ => some (false, blanks + 2)
  | '=' :: _ => some (true, blanks + 1)
  | _ => none

def token (loc : Location) (name : List Char) (value : Option (List Char)) (escape : Bool) : Token :=
  ⟨.attr (String.ofList name) (value.map String.ofList) escape, loc⟩

/-- The attributes of a list, read from its text. -/
def readList (c : Cursor) : Except LexError (List Token) :=
  let here := c.skip (c.rest.takeWhile isSeparator).length
  if here.rest = [] then .ok []
  else
    match _hn : readName here.loc here.rest with
    | .error e => .error e
    | .ok (name, n) =>
      if _he : name = [] then .error ⟨.missingAttributeName, here.loc⟩
      else
        let behind := here.skip n
        match mark? behind.rest with
        | none => do
          let more ← readList behind
          return token here.loc name none true :: more
        | some (escape, m) =>
          let valueStart := behind.skip m
          let valueStart := valueStart.skip (valueStart.rest.takeWhile isBlank).length
          match valueText [] none valueStart.rest with
          | .error f => .error (valueStart.nestingError f)
          | .ok text =>
            let value := trim text
            if value = [] then .error ⟨.missingAttributeValue (String.ofList name), here.loc⟩
            else do
              let more ← readList (valueStart.skip text.length)
              return token here.loc name (some value) escape :: more
termination_by c.rest.length
decreasing_by
  all_goals
    have hl := length_readName _hn
    have hp : 0 < name.length := List.length_pos_iff.mpr _he
    have hr : 0 < here.rest.length := List.length_pos_iff.mpr ‹_›
    simp only [here, Cursor.rest_skip, List.length_drop] at *
    omega

end Attribute

/-- Parentheses behind a call hold attributes, not arguments, when they open with `name=`. -/
def looksLikeAttributes (content : List Char) : Bool :=
  let content := trimStart content
  let name := content.takeWhile isWordOrHyphen
  if name.isEmpty then false
  else match (content.drop name.length).dropWhile (· == ' ') with
    | '=' :: '=' :: _ => false
    | '=' :: _ => true
    | '!' :: '=' :: _ => true
    | _ => false

end PugTemplate
