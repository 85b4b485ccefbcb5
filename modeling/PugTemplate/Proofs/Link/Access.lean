import PugTemplate.Proofs.Link.Complete

/-!
# What linking a template asks for

Linking one template needs little of what is around it: to fail, to read the text of a file, and to
load the linked template behind a reference. With these given in any kind of computation, the tree is
made in the same way; so two computations that are alike in these are alike as a whole.
-/

namespace PugTemplate

namespace Linking

structure Access (m : Type → Type) where
  fail : ∀ {α : Type}, LinkError → m α
  /-- The text of a file, for a reference at a position. -/
  read : String → Location → m String
  /-- The linked template that a path leads to. -/
  load : String → Location → m Loaded

namespace Access

section Link

variable {m : Type → Type} [Monad m] (a : Access m) (basedir : Option String) (path : String)

def follow : Node → m (List Node)
  | .inherits loc _ => a.fail ⟨.inheritsNotFirst, path, loc⟩
  | .includes loc target content => do
    let loaded ← a.load (resolvePath basedir path target) loc
    return [included loaded loc content]
  | .rawInclude loc target filter => do
    let text ← a.read (resolvePath basedir path target) loc
    return [includedText loc text filter]
  | n => return [n]

def resolve (nodes : List Node) : m (List Node) :=
  rewriteAllM (fun _ => none) (a.follow basedir path) nodes

def link : List Node → m (List Node)
  | .inherits loc target :: rest => do
    let root := ungroupedAll (← a.resolve basedir path rest)
    match root.find? fun n => !n.mayOverride with
    | some n => a.fail ⟨.unexpectedNode n.kindName, path, n.loc⟩
    | none => do
      let parent ← a.load (resolvePath basedir path target) loc
      return overParent root parent.nodes
  | nodes => a.resolve basedir path nodes

end Link

/-! ## Access to a set of templates -/

/-- A file of a set is there or not, and nothing else happens. -/
def plain (load : Loader) (set : TemplateSet) (path : String) : Access (Except LinkFailure) where
  fail e := .error (.reference e)
  read file loc :=
    match set.fetch? file with
    | some text => .ok text
    | none => failAt path loc (.unresolvedPath file)
  load := load

variable {load : Loader} {set : TemplateSet} {basedir : Option String} {path : String}

theorem follow_plain (n : Node) :
    (plain load set path).follow basedir path n = followReference load set basedir path n := by
  cases n with
  | rawInclude loc target filter =>
    simp only [follow, followReference, plain]
    cases set.fetch? (resolvePath basedir path target) <;> rfl
  | _ => rfl

theorem resolve_plain (ns : List Node) :
    (plain load set path).resolve basedir path ns = resolveIncludes load set basedir path ns := by
  rw [resolve, resolveIncludes, funext follow_plain]

theorem link_plain (ns : List Node) :
    (plain load set path).link basedir path ns = linkWith load set basedir path ns := by
  unfold link
  split
  next loc target rest =>
    rw [linkWith, resolve_plain]
    rfl
  next hother =>
    rw [linkWith]
    · exact resolve_plain _
    · exact hother

/-! ## Two ways of access -/

section Coupled

variable {m m' : Type → Type} [Monad m] [Monad m'] {c : Coupling m m'} {a : Access m}
  {a' : Access m'}

/-- What a node refers to is got alike in two ways. -/
def Alike (c : Coupling m m') (a : Access m) (a' : Access m') (basedir : Option String)
    (path : String) (n : Node) : Prop :=
  (∀ target, n.template? = some target → ∀ loc,
    c.rel (a.load (resolvePath basedir path target) loc)
      (a'.load (resolvePath basedir path target) loc)) ∧
  ∀ target, n.target? = some target → ∀ loc,
    c.rel (a.read (resolvePath basedir path target) loc)
      (a'.read (resolvePath basedir path target) loc)

theorem blind_alike : Blind (Alike c a a' basedir path) := by
  apply blind_of_husk
  intro n
  cases n <;> simp [Alike, Node.husk, Node.template?, Node.target?]

variable (hfail : ∀ {α : Type} (e : LinkError), c.rel (a.fail e : m α) (a'.fail e))

include hfail

theorem follow_coupled (n : Node) (h : Alike c a a' basedir path n) :
    c.rel (a.follow basedir path n) (a'.follow basedir path n) := by
  match n with
  | .inherits loc target => exact hfail _
  | .includes loc target content => exact c.bind (h.1 target rfl loc) fun loaded => c.pure _
  | .rawInclude loc target filter => exact c.bind (h.2 target rfl loc) fun text => c.pure _
  | .group .. | .tag .. | .text .. | .output .. | .statements .. | .comment .. | .doctype ..
  | .conditional .. | .switch .. | .each .. | .loop .. | .mixin .. | .call .. | .slot _
  | .namedBlock .. | .yield _ | .filter .. => exact c.pure _

theorem resolve_coupled {ns : List Node} (h : ∀ k ∈ postorderAll ns, Alike c a a' basedir path k) :
    c.rel (a.resolve basedir path ns) (a'.resolve basedir path ns) :=
  Coupling.Finishes.all ⟨blind_alike, follow_coupled hfail⟩ ns h

theorem link_coupled {ns : List Node} (h : ∀ k ∈ postorderAll ns, Alike c a a' basedir path k) :
    c.rel (a.link basedir path ns) (a'.link basedir path ns) := by
  unfold link
  split
  next loc target rest =>
    rw [postorderAll, List.forall_mem_append] at h
    have hself := h.1 _ (Node.mem_postorder_self (.inherits loc target))
    refine c.bind (resolve_coupled hfail h.2) fun root => ?_
    dsimp only
    split
    next => exact hfail _
    next => exact c.bind (hself.1 target rfl loc) fun parent => c.pure _
  next => exact resolve_coupled hfail h

end Coupled

end Access

end Linking

end PugTemplate
