import PugTemplate.Render.Fragment
import PugTemplate.Tree.Basic
import PugTemplate.Value.Basic

/-!
# Frames of a rendering

The page itself and every active call have a frame of local names. A frame has one scope that lasts
and inner ones, of which each lasts for one turn of a loop. What is rendered sees the frame it stands
in; the content of a call stands in the frame of its caller, so frames make a chain along callers.
-/

namespace PugTemplate

structure Frame where
  base : Dictionary Value := []
  /-- The scopes of loops, the innermost first. -/
  inner : List (Dictionary Value) := []
deriving Inhabited

namespace Frame

/-- The innermost binding of a name. -/
def find? (name : String) (f : Frame) : Option Value :=
  (f.inner.findSome? (Dictionary.find? name)).or (Dictionary.find? name f.base)

/-- Binds a name in the innermost scope. -/
def declare (name : String) (value : Value) (f : Frame) : Frame :=
  match f.inner with
  | [] => { f with base := Dictionary.put name value f.base }
  | d :: ds => { f with inner := Dictionary.put name value d :: ds }

/-- Replaces the binding of a name in the first scope that has one. -/
def replaceIn (name : String) (value : Value) :
    List (Dictionary Value) → Option (List (Dictionary Value))
  | [] => none
  | d :: ds =>
    if Dictionary.has name d then some (Dictionary.put name value d :: ds)
    else (replaceIn name value ds).map (d :: ·)

/-- Gives a name a new value where it is bound; if it is not, in the scope that lasts. -/
def assign (name : String) (value : Value) (f : Frame) : Frame :=
  match replaceIn name value f.inner with
  | some inner => { f with inner }
  | none => { f with base := Dictionary.put name value f.base }

def push (scope : Dictionary Value) (f : Frame) : Frame :=
  { f with inner := scope :: f.inner }

def pop (f : Frame) : Frame :=
  { f with inner := f.inner.tail }

end Frame

/-- The frame at hand and the callers it leads back to, counted by the index. -/
inductive Chain : Nat → Type where
  | page (frame : Frame) : Chain 0
  /-- A call, with the content it was given. -/
  | call {n : Nat} (frame : Frame) (content : Option (List Node)) (caller : Chain n) : Chain (n + 1)

namespace Chain

def frame {n : Nat} : Chain n → Frame
  | page f => f
  | call f _ _ => f

def mapFrame {n : Nat} (g : Frame → Frame) : Chain n → Chain n
  | page f => page (g f)
  | call f content caller => call (g f) content caller

def caller {n : Nat} : Chain (n + 1) → Chain n
  | call _ _ caller => caller

def content {n : Nat} : Chain (n + 1) → Option (List Node)
  | call _ content _ => content

def withCaller {n : Nat} : Chain (n + 1) → Chain n → Chain (n + 1)
  | call f content _, caller => call f content caller

end Chain

/-- The state of a rendering: the frames, and the output so far. -/
structure Session (n : Nat) where
  chain : Chain n
  out : Array Fragment

end PugTemplate
