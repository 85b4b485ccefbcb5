import PugTemplate.Tree.Basic

/-!
# Trees without positions

Two trees are the same up to positions if they are the same once every position is forgotten.
-/

namespace PugTemplate

mutual

/-- A node whose position, and those inside it, are forgotten. -/
def Node.unplaced : Node → Node
  | .group _ body => .group .nowhere (unplacedAll body)
  | .tag _ name head selfClosing textOnly body =>
    .tag .nowhere name head selfClosing textOnly (unplacedAll body)
  | .text _ raw segments => .text .nowhere raw (unplacedSegments segments)
  | .output _ value escape => .output .nowhere value escape
  | .statements _ list => .statements .nowhere list
  | .comment _ text buffered body =>
    .comment .nowhere text buffered (body.map fun (_, text) => (.nowhere, text))
  | .doctype _ value => .doctype .nowhere value
  | .conditional _ negate test body next =>
    .conditional .nowhere negate test (unplacedAll body) next.unplaced
  | .switch _ subject branches => .switch .nowhere subject (unplacedBranches branches)
  | .each _ value key source body ifEmpty =>
    .each .nowhere value key source (unplacedAll body) (unplacedOption ifEmpty)
  | .loop _ test body => .loop .nowhere test (unplacedAll body)
  | .mixin _ name params body => .mixin .nowhere name params (unplacedAll body)
  | .call _ name args head content => .call .nowhere name args head (unplacedOption content)
  | .slot _ => .slot .nowhere
  | .namedBlock _ name mode body => .namedBlock .nowhere name mode (unplacedAll body)
  | .includes _ path content => .includes .nowhere path (unplacedAll content)
  | .rawInclude _ path filter => .rawInclude .nowhere path filter
  | .inherits _ path => .inherits .nowhere path
  | .yield _ => .yield .nowhere
  | .filter _ name attributes text => .filter .nowhere name attributes text

def unplacedAll : List Node → List Node
  | [] => []
  | n :: ns => n.unplaced :: unplacedAll ns

def Otherwise.unplaced : Otherwise → Otherwise
  | .nothing => .nothing
  | .elseIf _ test body next => .elseIf .nowhere test (unplacedAll body) next.unplaced
  | .otherwise _ body => .otherwise .nowhere (unplacedAll body)

def unplacedBranches : List Branch → List Branch
  | [] => []
  | .mk _ test body :: bs => .mk .nowhere test (unplacedOption body) :: unplacedBranches bs

def unplacedOption : Option (List Node) → Option (List Node)
  | none => none
  | some ns => some (unplacedAll ns)

def unplacedSegments : List Segment → List Segment
  | [] => []
  | .tag n :: rest => .tag n.unplaced :: unplacedSegments rest
  | s :: rest => s :: unplacedSegments rest

end

@[simp] theorem unplacedAll_append (ns ms : List Node) :
    unplacedAll (ns ++ ms) = unplacedAll ns ++ unplacedAll ms := by
  induction ns with
  | nil => rfl
  | cons n ns ih => rw [List.cons_append, unplacedAll, ih, unplacedAll, List.cons_append]

theorem unplacedAll_eq_map (ns : List Node) : unplacedAll ns = ns.map Node.unplaced := by
  induction ns with
  | nil => rfl
  | cons n ns ih => rw [unplacedAll, ih, List.map_cons]

theorem unplacedAll_eq_nil_iff {ns : List Node} : unplacedAll ns = [] ↔ ns = [] := by
  cases ns <;> simp [unplacedAll]

theorem isSome_unplacedOption (o : Option (List Node)) : (unplacedOption o).isSome = o.isSome := by
  cases o <;> rfl

theorem unplacedBranches_eq_map (bs : List Branch) :
    unplacedBranches bs = bs.map fun | .mk _ test body => .mk .nowhere test (unplacedOption body) := by
  induction bs with
  | nil => rfl
  | cons b bs ih =>
    obtain ⟨loc, test, body⟩ := b
    rw [unplacedBranches, ih, List.map_cons]

/-! ## Nothing is left to forget -/

mutual

theorem Node.unplaced_unplaced (n : Node) : n.unplaced.unplaced = n.unplaced := by
  match n with
  | .group _ body | .tag _ _ _ _ _ body | .loop _ _ body | .mixin _ _ _ body
  | .namedBlock _ _ _ body | .includes _ _ body =>
    simp only [Node.unplaced, unplacedAll_unplacedAll body]
  | .text _ _ segments => simp only [Node.unplaced, unplacedSegments_unplacedSegments segments]
  | .conditional _ _ _ body next =>
    simp only [Node.unplaced, unplacedAll_unplacedAll body, next.unplaced_unplaced]
  | .switch _ _ branches => simp only [Node.unplaced, unplacedBranches_unplacedBranches branches]
  | .each _ _ _ _ body ifEmpty =>
    simp only [Node.unplaced, unplacedAll_unplacedAll body, unplacedOption_unplacedOption ifEmpty]
  | .call _ _ _ _ content => simp only [Node.unplaced, unplacedOption_unplacedOption content]
  | .comment _ _ _ body => cases body <;> rfl
  | .output .. | .statements .. | .doctype .. | .slot _ | .rawInclude .. | .inherits .. | .yield _
  | .filter .. => rfl

theorem unplacedAll_unplacedAll (ns : List Node) : unplacedAll (unplacedAll ns) = unplacedAll ns := by
  match ns with
  | [] => rfl
  | n :: ns => simp only [unplacedAll, n.unplaced_unplaced, unplacedAll_unplacedAll ns]

theorem Otherwise.unplaced_unplaced (o : Otherwise) : o.unplaced.unplaced = o.unplaced := by
  match o with
  | .nothing => rfl
  | .elseIf _ _ body next =>
    simp only [Otherwise.unplaced, unplacedAll_unplacedAll body, next.unplaced_unplaced]
  | .otherwise _ body => simp only [Otherwise.unplaced, unplacedAll_unplacedAll body]

theorem unplacedBranches_unplacedBranches (bs : List Branch) :
    unplacedBranches (unplacedBranches bs) = unplacedBranches bs := by
  match bs with
  | [] => rfl
  | .mk _ _ body :: bs =>
    simp only [unplacedBranches, unplacedOption_unplacedOption body,
      unplacedBranches_unplacedBranches bs]

theorem unplacedOption_unplacedOption (o : Option (List Node)) :
    unplacedOption (unplacedOption o) = unplacedOption o := by
  match o with
  | none => rfl
  | some ns => simp only [unplacedOption, unplacedAll_unplacedAll ns]

theorem unplacedSegments_unplacedSegments (ss : List Segment) :
    unplacedSegments (unplacedSegments ss) = unplacedSegments ss := by
  match ss with
  | [] => rfl
  | .tag n :: ss => simp only [unplacedSegments, n.unplaced_unplaced,
      unplacedSegments_unplacedSegments ss]
  | .literal _ :: ss | .escaped _ :: ss | .raw _ :: ss =>
    simp only [unplacedSegments, unplacedSegments_unplacedSegments ss]

end

/-! ## All nodes of a tree -/

mutual

theorem Node.postorder_unplaced (n : Node) :
    n.unplaced.postorder = n.postorder.map Node.unplaced := by
  match n with
  | .group _ body | .tag _ _ _ _ _ body | .loop _ _ body | .mixin _ _ _ body
  | .namedBlock _ _ _ body | .includes _ _ body =>
    simp [Node.unplaced, Node.postorder, postorderAll_unplacedAll body]
  | .conditional _ _ _ body next =>
    simp [Node.unplaced, Node.postorder, postorderAll_unplacedAll body, next.postorder_unplaced]
  | .switch _ _ branches =>
    simp [Node.unplaced, Node.postorder, postorderBranches_unplacedBranches branches]
  | .each _ _ _ _ body ifEmpty =>
    simp [Node.unplaced, Node.postorder, postorderAll_unplacedAll body,
      postorderOption_unplacedOption ifEmpty]
  | .call _ _ _ _ content =>
    simp [Node.unplaced, Node.postorder, postorderOption_unplacedOption content]
  | .text .. | .output .. | .statements .. | .comment .. | .doctype .. | .slot _ | .rawInclude ..
  | .inherits .. | .yield _ | .filter .. => rfl

theorem postorderAll_unplacedAll (ns : List Node) :
    postorderAll (unplacedAll ns) = (postorderAll ns).map Node.unplaced := by
  match ns with
  | [] => rfl
  | n :: ns =>
    rw [unplacedAll, postorderAll, postorderAll, List.map_append, n.postorder_unplaced,
      postorderAll_unplacedAll ns]

theorem Otherwise.postorder_unplaced (o : Otherwise) :
    o.unplaced.postorder = o.postorder.map Node.unplaced := by
  match o with
  | .nothing => rfl
  | .elseIf _ _ body next =>
    rw [Otherwise.unplaced, Otherwise.postorder, Otherwise.postorder, List.map_append,
      postorderAll_unplacedAll body, next.postorder_unplaced]
  | .otherwise _ body => exact postorderAll_unplacedAll body

theorem postorderBranches_unplacedBranches (bs : List Branch) :
    postorderBranches (unplacedBranches bs) = (postorderBranches bs).map Node.unplaced := by
  match bs with
  | [] => rfl
  | .mk _ _ body :: bs =>
    rw [unplacedBranches, postorderBranches, postorderBranches, List.map_append,
      postorderOption_unplacedOption body, postorderBranches_unplacedBranches bs]

theorem postorderOption_unplacedOption (o : Option (List Node)) :
    postorderOption (unplacedOption o) = (postorderOption o).map Node.unplaced := by
  match o with
  | none => rfl
  | some ns => exact postorderAll_unplacedAll ns

end

end PugTemplate
