import PugTemplate.Link.Resolve

/-!
# Every node of a tree

`Node.postorder` stops at text, where tags may hold nodes again. `Node.everywhere` goes on into them,
and `mem_everywhere_iff` says what that adds. `Node.preorder` stops at text as well, but comes upon the
nodes in the order in which a source has them.
-/

namespace PugTemplate

mutual

/-- A node and all that stand inside it, those in tags inside text too. -/
def Node.everywhere (n : Node) : List Node :=
  match n with
  | .group _ body | .tag _ _ _ _ _ body | .loop _ _ body | .mixin _ _ _ body
  | .namedBlock _ _ _ body | .includes _ _ body => n :: everywhereAll body
  | .text _ _ segments => n :: everywhereSegments segments
  | .conditional _ _ _ body next => n :: (everywhereAll body ++ next.everywhere)
  | .switch _ _ branches => n :: everywhereBranches branches
  | .each _ _ _ _ body ifEmpty => n :: (everywhereAll body ++ everywhereOption ifEmpty)
  | .call _ _ _ _ content => n :: everywhereOption content
  | _ => [n]

def everywhereAll : List Node → List Node
  | [] => []
  | n :: ns => n.everywhere ++ everywhereAll ns

def everywhereSegments : List Segment → List Node
  | [] => []
  | .tag n :: rest => n.everywhere ++ everywhereSegments rest
  | _ :: rest => everywhereSegments rest

def Otherwise.everywhere : Otherwise → List Node
  | .nothing => []
  | .elseIf _ _ body next => everywhereAll body ++ next.everywhere
  | .otherwise _ body => everywhereAll body

def everywhereBranches : List Branch → List Node
  | [] => []
  | .mk _ _ body :: bs => everywhereOption body ++ everywhereBranches bs

def everywhereOption : Option (List Node) → List Node
  | none => []
  | some ns => everywhereAll ns

end

theorem everywhereAll_append (ns ms : List Node) :
    everywhereAll (ns ++ ms) = everywhereAll ns ++ everywhereAll ms := by
  induction ns with
  | nil => rfl
  | cons n ns ih => rw [List.cons_append, everywhereAll, everywhereAll, ih, List.append_assoc]

/-- The nodes in the tags of a text. -/
def Node.tagged : Node → List Node
  | .text _ _ segments => everywhereSegments segments
  | _ => []

theorem Node.mem_everywhere_self (n : Node) : n ∈ n.everywhere := by
  cases n <;> simp [Node.everywhere]

mutual

/-- A node of a tree stands outside text, or in a tag of a text that does. -/
theorem Node.mem_everywhere_iff (n m : Node) :
    m ∈ n.everywhere ↔ m ∈ n.postorder ∨ ∃ t ∈ n.postorder, m ∈ t.tagged := by
  -- `everywhere` puts a node before its parts and `postorder` behind them, so only membership agrees
  match n with
  | .group _ body | .tag _ _ _ _ _ body | .loop _ _ body | .mixin _ _ _ body
  | .namedBlock _ _ _ body | .includes _ _ body =>
    have ih := mem_everywhereAll_iff body m
    simp only [Node.everywhere, Node.postorder, List.mem_cons, List.mem_append, ih]
    grind [Node.tagged]
  -- the only node whose tags `postorder` leaves out
  | .text _ _ segments => simp [Node.everywhere, Node.postorder, Node.tagged]
  | .conditional _ _ _ body next =>
    have ih := mem_everywhereAll_iff body m
    have ih' := Otherwise.mem_everywhere_iff next m
    simp only [Node.everywhere, Node.postorder, List.mem_cons, List.mem_append, ih, ih']
    grind [Node.tagged]
  | .switch _ _ branches =>
    have ih := mem_everywhereBranches_iff branches m
    simp only [Node.everywhere, Node.postorder, List.mem_cons, List.mem_append, ih]
    grind [Node.tagged]
  | .each _ _ _ _ body ifEmpty =>
    have ih := mem_everywhereAll_iff body m
    have ih' := mem_everywhereOption_iff ifEmpty m
    simp only [Node.everywhere, Node.postorder, List.mem_cons, List.mem_append, ih, ih']
    grind [Node.tagged]
  | .call _ _ _ _ content =>
    have ih := mem_everywhereOption_iff content m
    simp only [Node.everywhere, Node.postorder, List.mem_cons, List.mem_append, ih]
    grind [Node.tagged]
  | .output .. | .statements .. | .comment .. | .doctype .. | .slot _ | .rawInclude ..
  | .inherits .. | .yield _ | .filter .. =>
    simp [Node.everywhere, Node.postorder, Node.tagged]

theorem mem_everywhereAll_iff (ns : List Node) (m : Node) :
    m ∈ everywhereAll ns ↔ m ∈ postorderAll ns ∨ ∃ t ∈ postorderAll ns, m ∈ t.tagged := by
  match ns with
  | [] => simp [everywhereAll, postorderAll]
  | n :: ns =>
    have ih := Node.mem_everywhere_iff n m
    have ih' := mem_everywhereAll_iff ns m
    simp only [everywhereAll, postorderAll, List.mem_append, ih, ih']
    grind

theorem Otherwise.mem_everywhere_iff (o : Otherwise) (m : Node) :
    m ∈ o.everywhere ↔ m ∈ o.postorder ∨ ∃ t ∈ o.postorder, m ∈ t.tagged := by
  match o with
  | .nothing => simp [Otherwise.everywhere, Otherwise.postorder]
  | .elseIf _ _ body next =>
    have ih := mem_everywhereAll_iff body m
    have ih' := Otherwise.mem_everywhere_iff next m
    simp only [Otherwise.everywhere, Otherwise.postorder, List.mem_append, ih, ih']
    grind
  | .otherwise _ body => exact mem_everywhereAll_iff body m

theorem mem_everywhereBranches_iff (bs : List Branch) (m : Node) :
    m ∈ everywhereBranches bs ↔
      m ∈ postorderBranches bs ∨ ∃ t ∈ postorderBranches bs, m ∈ t.tagged := by
  match bs with
  | [] => simp [everywhereBranches, postorderBranches]
  | .mk _ _ body :: bs =>
    have ih := mem_everywhereOption_iff body m
    have ih' := mem_everywhereBranches_iff bs m
    simp only [everywhereBranches, postorderBranches, List.mem_append, ih, ih']
    grind

theorem mem_everywhereOption_iff (o : Option (List Node)) (m : Node) :
    m ∈ everywhereOption o ↔ m ∈ postorderOption o ∨ ∃ t ∈ postorderOption o, m ∈ t.tagged := by
  match o with
  | none => simp [everywhereOption, postorderOption]
  | some ns => exact mem_everywhereAll_iff ns m

end

/-! ## In the order of the source -/

mutual

/-- A node and all that stand inside it, each in front of its own parts; text is not entered. -/
def Node.preorder (n : Node) : List Node :=
  match n with
  | .group _ body | .tag _ _ _ _ _ body | .loop _ _ body | .mixin _ _ _ body
  | .namedBlock _ _ _ body | .includes _ _ body => n :: preorderAll body
  | .conditional _ _ _ body next => n :: (preorderAll body ++ next.preorder)
  | .switch _ _ branches => n :: preorderBranches branches
  | .each _ _ _ _ body ifEmpty => n :: (preorderAll body ++ preorderOption ifEmpty)
  | .call _ _ _ _ content => n :: preorderOption content
  | _ => [n]

def preorderAll : List Node → List Node
  | [] => []
  | n :: ns => n.preorder ++ preorderAll ns

def Otherwise.preorder : Otherwise → List Node
  | .nothing => []
  | .elseIf _ _ body next => preorderAll body ++ next.preorder
  | .otherwise _ body => preorderAll body

def preorderBranches : List Branch → List Node
  | [] => []
  | .mk _ _ body :: bs => preorderOption body ++ preorderBranches bs

def preorderOption : Option (List Node) → List Node
  | none => []
  | some ns => preorderAll ns

end

theorem preorderAll_append (ns ms : List Node) :
    preorderAll (ns ++ ms) = preorderAll ns ++ preorderAll ms := by
  induction ns with
  | nil => rfl
  | cons n ns ih => rw [List.cons_append, preorderAll, preorderAll, ih, List.append_assoc]

theorem preorderAll_singleton (n : Node) : preorderAll [n] = n.preorder := by
  rw [preorderAll, preorderAll, List.append_nil]

/-- A node together with those in the tags of a text. -/
def Node.withTagged (n : Node) : List Node :=
  n :: n.tagged

mutual

/-- In the order of the source, the nodes in the tags of a text come right behind the text. -/
theorem Node.everywhere_eq (n : Node) : n.everywhere = n.preorder.flatMap Node.withTagged := by
  match n with
  | .group _ body | .tag _ _ _ _ _ body | .loop _ _ body | .mixin _ _ _ body
  | .namedBlock _ _ _ body | .includes _ _ body =>
    simp [Node.everywhere, Node.preorder, everywhereAll_eq body, Node.withTagged, Node.tagged]
  | .conditional _ _ _ body next =>
    simp [Node.everywhere, Node.preorder, everywhereAll_eq body, Otherwise.everywhere_eq next,
      Node.withTagged, Node.tagged]
  | .switch _ _ branches =>
    simp [Node.everywhere, Node.preorder, everywhereBranches_eq branches, Node.withTagged,
      Node.tagged]
  | .each _ _ _ _ body ifEmpty =>
    simp [Node.everywhere, Node.preorder, everywhereAll_eq body, everywhereOption_eq ifEmpty,
      Node.withTagged, Node.tagged]
  | .call _ _ _ _ content =>
    simp [Node.everywhere, Node.preorder, everywhereOption_eq content, Node.withTagged, Node.tagged]
  | .text .. | .output .. | .statements .. | .comment .. | .doctype .. | .slot _ | .rawInclude ..
  | .inherits .. | .yield _ | .filter .. =>
    simp [Node.everywhere, Node.preorder, Node.withTagged, Node.tagged]

theorem everywhereAll_eq (ns : List Node) :
    everywhereAll ns = (preorderAll ns).flatMap Node.withTagged := by
  match ns with
  | [] => rfl
  | n :: ns =>
    rw [everywhereAll, preorderAll, List.flatMap_append, Node.everywhere_eq n, everywhereAll_eq ns]

theorem Otherwise.everywhere_eq (o : Otherwise) :
    o.everywhere = o.preorder.flatMap Node.withTagged := by
  match o with
  | .nothing => rfl
  | .elseIf _ _ body next =>
    rw [Otherwise.everywhere, Otherwise.preorder, List.flatMap_append, everywhereAll_eq body,
      Otherwise.everywhere_eq next]
  | .otherwise _ body => exact everywhereAll_eq body

theorem everywhereBranches_eq (bs : List Branch) :
    everywhereBranches bs = (preorderBranches bs).flatMap Node.withTagged := by
  match bs with
  | [] => rfl
  | .mk _ _ body :: bs =>
    rw [everywhereBranches, preorderBranches, List.flatMap_append, everywhereOption_eq body,
      everywhereBranches_eq bs]

theorem everywhereOption_eq (o : Option (List Node)) :
    everywhereOption o = (preorderOption o).flatMap Node.withTagged := by
  match o with
  | none => rfl
  | some ns => exact everywhereAll_eq ns

end

/-! ## Linked templates -/

namespace Linked

/-- All nodes of a linked tree and of its mixins, text not entered. -/
def outside (l : Linked) : List Node :=
  postorderAll l.nodes ++ l.mixins.flatMap fun e => postorderAll e.2.body

/-- All nodes of a linked tree and of its mixins. -/
def everywhere (l : Linked) : List Node :=
  everywhereAll l.nodes ++ l.mixins.flatMap fun e => everywhereAll e.2.body

theorem mem_everywhere_iff (l : Linked) (m : Node) :
    m ∈ l.everywhere ↔ m ∈ l.outside ∨ ∃ t ∈ l.outside, m ∈ t.tagged := by
  simp only [everywhere, outside, List.mem_append, List.mem_flatMap, mem_everywhereAll_iff]
  constructor
  · rintro ((h | ⟨t, ht, h⟩) | ⟨e, he, h | ⟨t, ht, h⟩⟩)
    · exact Or.inl (Or.inl h)
    · exact Or.inr ⟨t, Or.inl ht, h⟩
    · exact Or.inl (Or.inr ⟨e, he, h⟩)
    · exact Or.inr ⟨t, Or.inr ⟨e, he, ht⟩, h⟩
  · rintro ((h | ⟨e, he, h⟩) | ⟨t, ht | ⟨e, he, ht⟩, h⟩)
    · exact Or.inl (Or.inl h)
    · exact Or.inr ⟨e, he, Or.inl h⟩
    · exact Or.inl (Or.inr ⟨t, ht, h⟩)
    · exact Or.inr ⟨e, he, Or.inr ⟨t, ht, h⟩⟩

end Linked

end PugTemplate
