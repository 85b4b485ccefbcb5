/-!
# Nesting of brackets and literals

One machine follows brackets, quoted strings and backtick literals through a text, a character at a
time. Its state is the stack of what is open, innermost first; a backslash opens an enclosure that
the next character closes, whatever it is. `inside` answers the text up to the bracket that closes
the one in front of it.
-/

namespace PugTemplate

inductive Bracket where
  | round
  | curly
  | square
deriving DecidableEq, Repr

namespace Bracket

def opening : Bracket → Char
  | round => '('
  | curly => '{'
  | square => '['

def closing : Bracket → Char
  | round => ')'
  | curly => '}'
  | square => ']'

def ofOpening? (c : Char) : Option Bracket :=
  if c = '(' then some round
  else if c = '{' then some curly
  else if c = '[' then some square
  else none

end Bracket

inductive Enclosure where
  | bracket (b : Bracket)
  /-- Inside `${ … }` of a backtick literal. -/
  | hole
  | quoted (mark : Char)
  /-- Inside a backtick literal; the flag says that an unescaped `$` stands just before. -/
  | template (dollar : Bool)
  /-- Behind a backslash. -/
  | escape
deriving DecidableEq, Repr

namespace Enclosure

/-- The closing bracket that ends this enclosure. -/
def closedBy (e : Enclosure) (c : Char) : Bool :=
  match e with
  | bracket b => c == b.closing
  | hole => c == '}'
  | _ => false

end Enclosure

namespace Nesting

inductive Violation where
  /-- A closing bracket that is not the one the innermost open bracket waits for. -/
  | mismatch
  /-- The text ended inside a bracket or a literal. -/
  | unterminated
  /-- A line feed inside a quoted string. -/
  | feedInString
deriving DecidableEq, Repr

/-- One character outside any literal. -/
def feedPlain (open_ : List Enclosure) (c : Char) : Except Violation (List Enclosure) :=
  match Bracket.ofOpening? c with
  | some b => .ok (.bracket b :: open_)
  | none =>
    if c = ')' ∨ c = '}' ∨ c = ']' then
      match open_ with
      | e :: rest => if e.closedBy c then .ok rest else .error .mismatch
      | [] => .error .mismatch
    else if c = '\'' ∨ c = '"' then .ok (.quoted c :: open_)
    else if c = '`' then .ok (.template false :: open_)
    else .ok open_

/-- One step of the machine. -/
def feed (open_ : List Enclosure) (c : Char) : Except Violation (List Enclosure) :=
  match open_ with
  | .escape :: rest => .ok rest
  | .quoted mark :: rest =>
    if c = '\\' then .ok (.escape :: .quoted mark :: rest)
    else if c = '\n' then .error .feedInString
    else if c = mark then .ok rest
    else .ok (.quoted mark :: rest)
  | .template dollar :: rest =>
    if c = '\\' then .ok (.escape :: .template false :: rest)
    else if c = '`' then .ok rest
    else if c = '{' ∧ dollar then .ok (.hole :: .template false :: rest)
    else .ok (.template (c == '$') :: rest)
  | plain => feedPlain plain c

/-- What went wrong, and the text read before the character that showed it. -/
structure Failure where
  violation : Violation
  before : List Char
deriving DecidableEq, Repr

/-- The text up to the character that closes the last enclosure. -/
def untilClosed (open_ : List Enclosure) : List Char → Except Failure (List Char)
  | [] => .error ⟨.unterminated, []⟩
  | c :: cs =>
    match feed open_ c with
    | .error v => .error ⟨v, []⟩
    | .ok [] => .ok []
    | .ok (e :: es) =>
      match untilClosed (e :: es) cs with
      | .ok content => .ok (c :: content)
      | .error f => .error { f with before := c :: f.before }

/-- The text between a bracket just read and the one that closes it. -/
def inside (b : Bracket) (cs : List Char) : Except Failure (List Char) :=
  untilClosed [.bracket b] cs

theorem length_untilClosed {open_ : List Enclosure} {cs content : List Char}
    (h : untilClosed open_ cs = .ok content) : content.length < cs.length := by
  induction cs generalizing open_ content with
  | nil => simp [untilClosed] at h
  | cons c cs ih =>
    simp only [untilClosed] at h
    split at h
    · simp at h
    · simp only [Except.ok.injEq] at h
      simp [← h]
    · split at h
      next content' hc =>
        simp only [Except.ok.injEq] at h
        have := ih hc
        simp [← h, this]
      next => simp at h

theorem length_inside {b : Bracket} {cs content : List Char} (h : inside b cs = .ok content) :
    content.length < cs.length :=
  length_untilClosed h

/-- The parts of a text between commas outside all brackets and literals. A bracket that does not
match leaves the rest in one part. -/
def commaParts (open_ : List Enclosure) : List Char → List (List Char)
  | [] => [[]]
  | c :: cs =>
    if c = ',' ∧ open_ = [] then [] :: commaParts [] cs
    else match feed open_ c with
      | .error _ => [c :: cs]
      | .ok next =>
        match commaParts next cs with
        | [] => [[c]]
        | p :: ps => (c :: p) :: ps

end Nesting

end PugTemplate
