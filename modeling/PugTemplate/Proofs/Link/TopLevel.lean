import Mathlib.Data.List.Forall2
import PugTemplate.Proofs.Link.Complete

/-!
# The top level of a tree

What a group holds at its top level counts as the top level of what the group stands in. So the top
level of a rewritten tree comes node by node from the top level of the tree.
-/

namespace PugTemplate

def Node.IsGroup (n : Node) : Prop :=
  ∃ loc body, n = .group loc body

theorem ungroupedAll_append (ns ms : List Node) :
    ungroupedAll (ns ++ ms) = ungroupedAll ns ++ ungroupedAll ms := by
  induction ns with
  | nil => rfl
  | cons n ns ih => rw [List.cons_append, ungroupedAll, ungroupedAll, ih, List.append_assoc]

theorem ungroupedAll_singleton (n : Node) : ungroupedAll [n] = n.ungrouped := by
  rw [ungroupedAll, ungroupedAll, List.append_nil]

theorem Node.ungrouped_eq {n : Node} (h : ¬ n.IsGroup) : n.ungrouped = [n] := by
  unfold Node.ungrouped
  split
  next loc body => exact absurd ⟨loc, body, rfl⟩ h
  next => rfl

theorem mem_ungroupedAll {n : Node} {ns : List Node} (h : n ∈ ns) (hn : ¬ n.IsGroup) :
    n ∈ ungroupedAll ns := by
  obtain ⟨front, back, rfl⟩ := List.append_of_mem h
  rw [ungroupedAll_append, ungroupedAll, Node.ungrouped_eq hn]
  exact List.mem_append_right _ List.mem_cons_self

theorem Node.isGroup_of_husk {n k : Node} (h : n.husk = k.husk) : n.IsGroup ↔ k.IsGroup := by
  cases n <;> cases k <;> simp_all [Node.husk, Node.IsGroup]

mutual

theorem Node.not_isGroup_of_mem_ungrouped {n k : Node} (h : k ∈ n.ungrouped) : ¬ k.IsGroup := by
  unfold Node.ungrouped at h
  split at h
  next loc body => exact not_isGroup_of_mem_ungroupedAll h
  next hn =>
    rintro ⟨loc, body, rfl⟩
    exact hn loc body (List.mem_singleton.mp h).symm

/-- At the top level no group is left. -/
theorem not_isGroup_of_mem_ungroupedAll {ns : List Node} {k : Node} (h : k ∈ ungroupedAll ns) :
    ¬ k.IsGroup := by
  match ns with
  | [] => exact absurd h List.not_mem_nil
  | n :: ns =>
    rw [ungroupedAll, List.mem_append] at h
    exact h.elim Node.not_isGroup_of_mem_ungrouped not_isGroup_of_mem_ungroupedAll

end

/-! ## Rewritings -/

section Rewrite

variable {m : Type → Type} [Monad m] (y : Answering m) {finish : Node → m (List Node)}
  {S : Node → List Node → Prop}

/-- What a rewriting makes of the top level: something of each node that is not a group. -/
structure Tops (finish : Node → m (List Node)) (S : Node → List Node → Prop) : Prop where
  group : ∀ loc body, finish (.group loc body) = pure [.group loc body]
  top : ∀ n, ¬ n.IsGroup → y.always (n.rewriteM (fun _ => none) finish) (S n)

/-- The top level of a tree, made of what stands in the place of each node of another. -/
def FromTop (S : Node → List Node → Prop) (top out : List Node) : Prop :=
  ∃ parts, List.Forall₂ S top parts ∧ ungroupedAll out = parts.flatMap ungroupedAll

variable {y}

theorem FromTop.append {top top' out out' : List Node} (h : FromTop S top out)
    (h' : FromTop S top' out') : FromTop S (top ++ top') (out ++ out') := by
  obtain ⟨parts, hp, ho⟩ := h
  obtain ⟨parts', hp', ho'⟩ := h'
  refine ⟨parts ++ parts', List.rel_append hp hp', ?_⟩
  rw [ungroupedAll_append, List.flatMap_append, ho, ho']

mutual

theorem Tops.node (r : Tops y finish S) (n : Node) :
    y.always (n.rewriteM (fun _ => none) finish) (FromTop S n.ungrouped) := by
  by_cases hn : n.IsGroup
  · match n, hn with
    | .group loc body, _ =>
      rw [Node.rewriteM]
      refine y.bind (r.all body) fun body' hb => ?_
      rw [r.group]
      -- the group is left, and its top level counts
      obtain ⟨parts, hp, ho⟩ := hb
      refine y.pure ⟨parts, hp, ?_⟩
      rw [ungroupedAll_singleton, Node.ungrouped, ho]
  · rw [Node.ungrouped_eq hn]
    refine y.mono (r.top n hn) fun out ho => ⟨[out], .cons ho .nil, ?_⟩
    rw [List.flatMap_singleton]

theorem Tops.all (r : Tops y finish S) (ns : List Node) :
    y.always (rewriteAllM (fun _ => none) finish ns) (FromTop S (ungroupedAll ns)) := by
  match ns with
  | [] =>
    rw [rewriteAllM]
    exact y.pure ⟨[], .nil, rfl⟩
  | n :: ns =>
    rw [rewriteAllM, ungroupedAll]
    exact y.bind (r.node n) fun here hh => y.bind (r.all ns) fun more hm => y.pure (hh.append hm)

end

end Rewrite

theorem FromTop.exists_of_mem {S : Node → List Node → Prop} {top out : List Node} {k : Node}
    (h : FromTop S top out) (hk : k ∈ ungroupedAll out) :
    ∃ n ∈ top, ∃ ns, S n ns ∧ k ∈ ungroupedAll ns := by
  obtain ⟨parts, hp, ho⟩ := h
  rw [ho] at hk
  clear ho
  induction hp with
  | nil => exact absurd hk List.not_mem_nil
  | @cons n ns _ _ hn _ ih =>
    rw [List.flatMap_cons, List.mem_append] at hk
    rcases hk with hk | hk
    · exact ⟨n, List.mem_cons_self, ns, hn, hk⟩
    · obtain ⟨n, hn, h⟩ := ih hk
      exact ⟨n, List.mem_cons_of_mem _ hn, h⟩

theorem FromTop.exists_subset {S : Node → List Node → Prop} {top out : List Node} {n : Node}
    (h : FromTop S top out) (hn : n ∈ top) : ∃ ns, S n ns ∧ ungroupedAll ns ⊆ ungroupedAll out := by
  obtain ⟨parts, hp, ho⟩ := h
  rw [ho]
  clear ho
  induction hp with
  | nil => exact absurd hn List.not_mem_nil
  | @cons k ns _ _ hk _ ih =>
    rw [List.flatMap_cons]
    rcases List.mem_cons.mp hn with rfl | hn
    · exact ⟨ns, hk, List.subset_append_left _ _⟩
    · obtain ⟨ns', hs, hsub⟩ := ih hn
      exact ⟨ns', hs, fun _ h => List.mem_append_right _ (hsub h)⟩

/-! ## References at the top level -/

namespace Linking

variable {load : Loader} {set : TemplateSet} {basedir : Option String} {path : String}

/-- What stands in the place of a node at the top level once references are followed. -/
inductive Standing (load : Loader) (set : TemplateSet) (basedir : Option String) (path : String) :
    Node → List Node → Prop
  | included {loc : Location} {target : String} {content content' : List Node} {loaded : Loaded}
      (hc : resolveIncludes load set basedir path content = .ok content')
      (hl : load (resolvePath basedir path target) loc = .ok loaded) :
      Standing load set basedir path (.includes loc target content) [included loaded loc content']
  | read {loc : Location} {target text : String} {filter : Option String}
      (hf : set.fetch? (resolvePath basedir path target) = some text) :
      Standing load set basedir path (.rawInclude loc target filter)
        [includedText loc text filter]
  | kept {n n' : Node} (ht : n.target? = none) (hn : n'.husk = n.husk) :
      Standing load set basedir path n [n']

theorem tops_followReference :
    Tops (.ofExcept LinkFailure) (followReference load set basedir path)
      (Standing load set basedir path) where
  group _ _ := rfl
  top n _ out h := by
    rw [Node.rewriteM.eq_def] at h
    dsimp only at h
    match n with
    | .inherits .. => cases h
    | .includes loc target content =>
      obtain ⟨content', hc, h⟩ := of_bind_eq_ok h
      obtain ⟨loaded, hl, h⟩ := of_bind_eq_ok h
      cases h
      exact .included hc hl
    | .rawInclude loc target filter =>
      simp only [followReference] at h
      split at h
      next text hf =>
        cases h
        exact .read hf
      next => cases h
    | .conditional .. | .each .. =>
      obtain ⟨_, -, h⟩ := of_bind_eq_ok h
      obtain ⟨_, -, h⟩ := of_bind_eq_ok h
      cases h
      exact .kept rfl rfl
    | .group .. | .tag .. | .switch .. | .loop .. | .mixin .. | .call .. | .namedBlock .. =>
      obtain ⟨_, -, h⟩ := of_bind_eq_ok h
      cases h
      exact .kept rfl rfl
    | .text .. | .output .. | .statements .. | .comment .. | .doctype .. | .slot _ | .yield _
    | .filter .. =>
      cases h
      exact .kept rfl rfl

end Linking

end PugTemplate
