import PugTemplate.Proofs.Link.Complete

/-!
# Why linking fails

Linking a template fails because of the template itself, or because of one that it refers to. Then the
failure of that one is the failure as a whole. So a failure always comes from one template, at the end
of a chain of references.
-/

namespace PugTemplate

namespace Linking

/-! ## One template -/

/-- A node of a tree, with whatever became of its parts. -/
def Descends (ns : List Node) (n : Node) : Prop :=
  ∃ k ∈ postorderAll ns, k.husk = n.husk

/-- A reference in a tree that cannot be followed. -/
inductive Unfollowed (load : Loader) (set : TemplateSet) (basedir : Option String) (path : String)
    (ns : List Node) : LinkFailure → Prop
  | notFirst {loc : Location} {target : String}
      (hn : Node.inherits loc target ∈ postorderAll ns) :
      Unfollowed load set basedir path ns (.reference ⟨.inheritsNotFirst, path, loc⟩)
  | unread {loc : Location} {target : String} {filter : Option String}
      (hn : Node.rawInclude loc target filter ∈ postorderAll ns)
      (hf : set.fetch? (resolvePath basedir path target) = none) :
      Unfollowed load set basedir path ns
        (.reference ⟨.unresolvedPath (resolvePath basedir path target), path, loc⟩)
  | behind {n : Node} {target : String} {e : LinkFailure} (hn : n ∈ postorderAll ns)
      (ht : n.template? = some target)
      (hl : load (resolvePath basedir path target) n.loc = .error e) :
      Unfollowed load set basedir path ns e

section Template

variable {load : Loader} {set : TemplateSet} {basedir : Option String} {path : String}
  {ns : List Node} {e : LinkFailure}

theorem error_of_load {target : String} {loc : Location} {f : Loaded → Except LinkFailure (List Node)}
    (h : (load target loc >>= f) = .error e) (hf : ∀ l, ∃ out, f l = .ok out) :
    load target loc = .error e := by
  cases hl : load target loc with
  | error e' =>
    rw [hl] at h
    cases h
    rfl
  | ok l =>
    obtain ⟨out, ho⟩ := hf l
    rw [hl] at h
    exact nomatch ho.symm.trans h

theorem unfollowed_followReference {n : Node} (hn : Descends ns n)
    (h : followReference load set basedir path n = .error e) :
    Unfollowed load set basedir path ns e := by
  obtain ⟨k, hk, hkn⟩ := hn
  match n with
  | .inherits loc there =>
    cases h
    cases k <;> simp only [Node.husk, reduceCtorEq] at hkn
    cases hkn
    exact .notFirst hk
  | .includes loc there content =>
    rw [followReference] at h
    have hload := error_of_load h fun l => ⟨_, rfl⟩
    cases k <;> simp only [Node.husk, reduceCtorEq] at hkn
    cases hkn
    exact .behind hk rfl hload
  | .rawInclude loc there filter =>
    simp only [followReference] at h
    split at h
    next => cases h
    next hf =>
      cases h
      cases k <;> simp only [Node.husk, reduceCtorEq] at hkn
      cases hkn
      exact .unread hk hf
  | .group .. | .tag .. | .text .. | .output .. | .statements .. | .comment .. | .doctype ..
  | .conditional .. | .switch .. | .each .. | .loop .. | .mixin .. | .call .. | .slot _
  | .namedBlock .. | .yield _ | .filter .. => cases h

theorem unfollowed_resolveIncludes (h : resolveIncludes load set basedir path ns = .error e) :
    Unfollowed load set basedir path ns e := by
  have r : Rewrites (Answering.orFails (Unfollowed load set basedir path ns)) (fun _ => none)
      (followReference load set basedir path) (Descends ns) (fun _ => True) (fun _ => True) :=
    { before := fun n m hm ⟨k, hk, hn⟩ => ⟨k, hk, hn.trans hm⟩
      itself := fun _ _ _ _ => trivial
      replaced := fun n ns hr => by simp at hr
      finished := fun n hn _ =>
        ⟨fun _ _ => ⟨fun _ _ => trivial, trivial⟩, fun _ he => unfollowed_followReference hn he⟩ }
  exact (r.all ns fun k hk => ⟨k, hk, rfl⟩).2 e h

theorem Unfollowed.mono {ms : List Node} (h : Unfollowed load set basedir path ns e)
    (hsub : postorderAll ns ⊆ postorderAll ms) : Unfollowed load set basedir path ms e := by
  cases h with
  | notFirst hn => exact .notFirst (hsub hn)
  | unread hn hf => exact .unread (hsub hn) hf
  | behind hn ht hl => exact .behind (hsub hn) ht hl

/-- Besides a reference, a node at the top level of a template that extends another can be wrong. -/
theorem unfollowed_or_unexpected (h : linkWith load set basedir path ns = .error e) :
    Unfollowed load set basedir path ns e ∨ ∃ loc target rest own, ∃ k ∈ ungroupedAll own,
      ns = .inherits loc target :: rest ∧
        resolveIncludes load set basedir path rest = .ok own ∧ k.mayOverride = false ∧
          e = .reference ⟨.unexpectedNode k.kindName, path, k.loc⟩ := by
  unfold linkWith at h
  split at h
  next loc target rest =>
    cases hr : resolveIncludes load set basedir path rest with
    | error e' =>
      rw [hr] at h
      cases h
      refine Or.inl ((unfollowed_resolveIncludes hr).mono ?_)
      exact List.subset_append_right _ _
    | ok own =>
      rw [hr] at h
      dsimp only [bind, Except.bind] at h
      split at h
      next k hk =>
        cases h
        refine Or.inr ⟨loc, target, rest, own, k, List.mem_of_find?_eq_some hk, rfl, hr, ?_, rfl⟩
        simpa using List.find?_some hk
      next =>
        have hself := Node.mem_postorder_self (.inherits loc target)
        exact Or.inl (.behind (List.mem_append_left _ hself) rfl
          (error_of_load h fun l => ⟨_, rfl⟩))
  next => exact Or.inl (unfollowed_resolveIncludes h)

end Template

/-! ## All templates -/

/-- What is wrong with one template while those on a stack are linked. -/
inductive FailsHere (set : TemplateSet) (options : Options) (stack : List String) (path : String)
    (ns : List Node) : LinkFailure → Prop
  | notFirst {loc : Location} {target : String}
      (hn : Node.inherits loc target ∈ postorderAll ns) :
      FailsHere set options stack path ns (.reference ⟨.inheritsNotFirst, path, loc⟩)
  | unexpected {loc : Location} {target : String} {rest own : List Node} {k : Node}
      (hns : ns = .inherits loc target :: rest)
      (hown : resolveIncludes (loader set options stack path) set options.basedir path rest =
        .ok own)
      (hk : k ∈ ungroupedAll own) (hover : k.mayOverride = false) :
      FailsHere set options stack path ns
        (.reference ⟨.unexpectedNode k.kindName, path, k.loc⟩)
  | unresolved {n : Node} {target : String} (hn : n ∈ postorderAll ns)
      (ht : n.target? = some target)
      (hf : set.fetch? (resolvePath options.basedir path target) = none) :
      FailsHere set options stack path ns
        (.reference ⟨.unresolvedPath (resolvePath options.basedir path target), path, n.loc⟩)
  | circular {n : Node} {target : String} (hn : n ∈ postorderAll ns)
      (ht : n.template? = some target)
      (hs : resolvePath options.basedir path target ∈ stack) :
      FailsHere set options stack path ns
        (.reference ⟨.circularReference (resolvePath options.basedir path target), path, n.loc⟩)
  /-- The text of a template that is referred to cannot be read. -/
  | broken {n : Node} {target source : String} {fault : SourceError} (hn : n ∈ postorderAll ns)
      (ht : n.template? = some target)
      (hs : resolvePath options.basedir path target ∉ stack)
      (hf : set.fetch? (resolvePath options.basedir path target) = some source)
      (hp : parseSource options source = .error fault) :
      FailsHere set options stack path ns
        (.included (resolvePath options.basedir path target) fault)

/-- A template that fails to link, by itself or because of one that it refers to. -/
inductive Failing (set : TemplateSet) (options : Options) (e : LinkFailure) :
    List String → String → List Node → Prop
  | itself {stack : List String} {path : String} {ns : List Node}
      (h : FailsHere set options stack path ns e) : Failing set options e stack path ns
  | behind {stack : List String} {path : String} {ns : List Node} {n : Node}
      {target source : String} {parsed : List Node} (hn : n ∈ postorderAll ns)
      (ht : n.template? = some target)
      (hs : resolvePath options.basedir path target ∉ stack)
      (hf : set.fetch? (resolvePath options.basedir path target) = some source)
      (hp : parseSource options source = .ok parsed)
      (hfail : linkTree set options (resolvePath options.basedir path target :: stack)
        (resolvePath options.basedir path target) parsed = .error e)
      (h : Failing set options e (resolvePath options.basedir path target :: stack)
        (resolvePath options.basedir path target) parsed) :
      Failing set options e stack path ns

variable {set : TemplateSet} {options : Options} {stack : List String} {path : String}
  {ns : List Node} {e : LinkFailure}

theorem failing_of_error (h : linkTree set options stack path ns = .error e) :
    Failing set options e stack path ns := by
  induction stack, path, ns using linking_induction set options with
  | step stack path ns ih =>
    rw [linkTree_eq] at h
    rcases unfollowed_or_unexpected h with h | ⟨loc, target, rest, own, k, hk, hns, hown, hover, rfl⟩
    case inr => exact .itself (.unexpected hns hown hk hover)
    cases h with
    | notFirst hn => exact .itself (.notFirst hn)
    | unread hn hf => exact .itself (.unresolved hn rfl hf)
    | @behind n target _ hn ht hl =>
      unfold loader at hl
      split at hl
      next hs =>
        cases hl
        exact .itself (.circular hn ht hs)
      next hs =>
        split at hl
        next hf =>
          cases hl
          exact .itself (.unresolved hn (Node.target?_of_template? ht) hf)
        next source hf =>
          split at hl
          next fault hp =>
            cases hl
            exact .itself (.broken hn ht hs hf hp)
          next parsed hp =>
            cases hlinked : linkTree set options (resolvePath options.basedir path target :: stack)
                (resolvePath options.basedir path target) parsed with
            | ok out =>
              rw [hlinked] at hl
              cases hl
            | error e' =>
              rw [hlinked] at hl
              cases hl
              exact .behind hn ht hs hf hp hlinked (ih _ _ _ hs hf hp hlinked)

/-- Once the tree is linked, nothing can fail. -/
theorem linkTree_of_link (h : link set options path ns = .error e) :
    linkTree set options [path] path ns = .error e := by
  rw [link] at h
  cases ht : linkTree set options [path] path ns with
  | ok tree =>
    rw [ht] at h
    cases h
  | error e' =>
    rw [ht] at h
    cases h
    rfl

end Linking

end PugTemplate
