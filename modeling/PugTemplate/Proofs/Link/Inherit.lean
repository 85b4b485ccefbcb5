import Mathlib.Data.List.Induction
import PugTemplate.Proofs.Link.Complete

/-!
# Templates that extend each other

A block that a template declares can be overridden by the templates that extend it, one after the
other. Linking the last one gives the tree of the first, in which the body of each block is what the
overrides of its name make of it, in order. Tags in text are not entered.
-/

namespace PugTemplate

/-! ## What overrides are to make of a tree -/

/-- The name of the block that a node declares, if overrides apply to it. -/
def Node.declared? : Node → Option String
  | .namedBlock _ name .replace _ => some name
  | _ => none

/-- The body of a block of a name once all overrides are applied, the first one first. -/
def Override.applyAll (os : List Override) (name : String) (body : List Node) : List Node :=
  (os.filter fun o => o.name = name).foldl (fun body o => o.mode.combine body o.body) body

section WithBodies

variable (g : String → List Node → List Node) (tags : Bool)

mutual

/-- A node in which each block that is declared has the body made of its own, and nothing else is
changed. Whether blocks in tags in text count too is a choice. -/
def Node.withBodies : Node → Node
  | .group loc body => .group loc (withBodiesAll body)
  | .tag loc name head selfClosing textOnly body =>
    .tag loc name head selfClosing textOnly (withBodiesAll body)
  | .text loc raw segments =>
    .text loc raw (if tags then withBodiesSegments segments else segments)
  | .conditional loc negate test body next =>
    .conditional loc negate test (withBodiesAll body) next.withBodies
  | .switch loc subject branches => .switch loc subject (withBodiesBranches branches)
  | .each loc value key source body ifEmpty =>
    .each loc value key source (withBodiesAll body) (withBodiesOption ifEmpty)
  | .loop loc test body => .loop loc test (withBodiesAll body)
  | .mixin loc name params body => .mixin loc name params (withBodiesAll body)
  | .call loc name args head content => .call loc name args head (withBodiesOption content)
  | .namedBlock loc name .replace body => .namedBlock loc name .replace (g name body)
  | .namedBlock loc name mode body => .namedBlock loc name mode (withBodiesAll body)
  | .includes loc path content => .includes loc path (withBodiesAll content)
  | n => n

def withBodiesAll : List Node → List Node
  | [] => []
  | n :: ns => n.withBodies :: withBodiesAll ns

def withBodiesSegments : List Segment → List Segment
  | [] => []
  | .tag n :: rest => .tag n.withBodies :: withBodiesSegments rest
  | s :: rest => s :: withBodiesSegments rest

def Otherwise.withBodies : Otherwise → Otherwise
  | .nothing => .nothing
  | .elseIf loc test body next => .elseIf loc test (withBodiesAll body) next.withBodies
  | .otherwise loc body => .otherwise loc (withBodiesAll body)

def withBodiesBranches : List Branch → List Branch
  | [] => []
  | .mk loc test body :: bs => .mk loc test (withBodiesOption body) :: withBodiesBranches bs

def withBodiesOption : Option (List Node) → Option (List Node)
  | none => none
  | some ns => some (withBodiesAll ns)

end

end WithBodies

/-- A tree once all overrides are applied to the blocks of their names. -/
def overriddenAll (os : List Override) (tags : Bool) (ns : List Node) : List Node :=
  withBodiesAll (Override.applyAll os) tags ns

/-! ## Bodies that stay -/

/-- A block that is declared by a node already has the body that is made of its own. -/
def Node.KeepsBody (g : String → List Node → List Node) (n : Node) : Prop :=
  ∀ loc name body, n = .namedBlock loc name .replace body → g name body = body

section

variable {g : String → List Node → List Node} {tags : Bool}

mutual

theorem Node.withBodies_eq_self (n : Node) (h : ∀ k ∈ n.everywhere, k.KeepsBody g) :
    n.withBodies g tags = n := by
  match n with
  | .group _ body | .tag _ _ _ _ _ body | .loop _ _ body | .mixin _ _ _ body
  | .includes _ _ body =>
    rw [Node.everywhere, List.forall_mem_cons] at h
    rw [Node.withBodies, withBodiesAll_eq_self body h.2]
  | .namedBlock loc name .replace body =>
    rw [Node.withBodies, h _ (Node.mem_everywhere_self _) loc name body rfl]
  | .namedBlock loc name .append body | .namedBlock loc name .prepend body =>
    rw [Node.everywhere, List.forall_mem_cons] at h
    rw [Node.withBodies, withBodiesAll_eq_self body h.2]
    simp
  | .text loc raw segments =>
    rw [Node.everywhere, List.forall_mem_cons] at h
    rw [Node.withBodies, withBodiesSegments_eq_self segments h.2, ite_self]
  | .conditional loc negate test body next =>
    rw [Node.everywhere, List.forall_mem_cons, List.forall_mem_append] at h
    rw [Node.withBodies, withBodiesAll_eq_self body h.2.1, next.withBodies_eq_self h.2.2]
  | .switch loc subject branches =>
    rw [Node.everywhere, List.forall_mem_cons] at h
    rw [Node.withBodies, withBodiesBranches_eq_self branches h.2]
  | .each loc value key source body ifEmpty =>
    rw [Node.everywhere, List.forall_mem_cons, List.forall_mem_append] at h
    rw [Node.withBodies, withBodiesAll_eq_self body h.2.1, withBodiesOption_eq_self ifEmpty h.2.2]
  | .call loc name args head content =>
    rw [Node.everywhere, List.forall_mem_cons] at h
    rw [Node.withBodies, withBodiesOption_eq_self content h.2]
  | .output .. | .statements .. | .comment .. | .doctype .. | .slot _ | .rawInclude ..
  | .inherits .. | .yield _ | .filter .. => simp [Node.withBodies]

theorem withBodiesAll_eq_self (ns : List Node) (h : ∀ k ∈ everywhereAll ns, k.KeepsBody g) :
    withBodiesAll g tags ns = ns := by
  match ns with
  | [] => rfl
  | n :: ns =>
    rw [everywhereAll, List.forall_mem_append] at h
    rw [withBodiesAll, n.withBodies_eq_self h.1, withBodiesAll_eq_self ns h.2]

theorem withBodiesSegments_eq_self (segs : List Segment)
    (h : ∀ k ∈ everywhereSegments segs, k.KeepsBody g) : withBodiesSegments g tags segs = segs := by
  match segs with
  | [] => rfl
  | .tag n :: rest =>
    rw [everywhereSegments, List.forall_mem_append] at h
    rw [withBodiesSegments, n.withBodies_eq_self h.1, withBodiesSegments_eq_self rest h.2]
  | .literal _ :: rest | .escaped _ :: rest | .raw _ :: rest =>
    rw [everywhereSegments] at h
    · rw [withBodiesSegments, withBodiesSegments_eq_self rest h]
      simp
    · simp

theorem Otherwise.withBodies_eq_self (o : Otherwise) (h : ∀ k ∈ o.everywhere, k.KeepsBody g) :
    o.withBodies g tags = o := by
  match o with
  | .nothing => rfl
  | .elseIf loc test body next =>
    rw [Otherwise.everywhere, List.forall_mem_append] at h
    rw [Otherwise.withBodies, withBodiesAll_eq_self body h.1, next.withBodies_eq_self h.2]
  | .otherwise loc body => rw [Otherwise.withBodies, withBodiesAll_eq_self body h]

theorem withBodiesBranches_eq_self (bs : List Branch)
    (h : ∀ k ∈ everywhereBranches bs, k.KeepsBody g) : withBodiesBranches g tags bs = bs := by
  match bs with
  | [] => rfl
  | .mk loc test body :: bs =>
    rw [everywhereBranches, List.forall_mem_append] at h
    rw [withBodiesBranches, withBodiesOption_eq_self body h.1, withBodiesBranches_eq_self bs h.2]

theorem withBodiesOption_eq_self (o : Option (List Node))
    (h : ∀ k ∈ everywhereOption o, k.KeepsBody g) : withBodiesOption g tags o = o := by
  match o with
  | none => rfl
  | some ns => rw [withBodiesOption, withBodiesAll_eq_self ns h]

end

/-! ### Tags that need not be entered -/

mutual

theorem Node.withBodies_tags (n : Node) (h : ∀ t ∈ n.postorder, ∀ k ∈ t.tagged, k.KeepsBody g) :
    n.withBodies g true = n.withBodies g false := by
  have hparts : ∀ t ∈ n.parts, ∀ k ∈ t.tagged, k.KeepsBody g :=
    fun t ht => h t (Node.mem_postorder_of_mem_parts ht)
  match n with
  | .group _ body | .tag _ _ _ _ _ body | .loop _ _ body | .mixin _ _ _ body
  | .includes _ _ body =>
    rw [Node.withBodies, Node.withBodies, withBodiesAll_tags body hparts]
  -- the body is made outright, so what it holds does not matter
  | .namedBlock loc name .replace body => rfl
  | .namedBlock loc name .append body | .namedBlock loc name .prepend body =>
    rw [Node.withBodies, Node.withBodies, withBodiesAll_tags body hparts]
    all_goals simp
  | .text loc raw segments =>
    have hself : ∀ k ∈ everywhereSegments segments, k.KeepsBody g :=
      h _ (Node.mem_postorder_self _)
    rw [Node.withBodies, Node.withBodies, withBodiesSegments_eq_self segments hself, ite_self]
    rfl
  | .conditional loc negate test body next =>
    rw [Node.parts, List.forall_mem_append] at hparts
    rw [Node.withBodies, Node.withBodies, withBodiesAll_tags body hparts.1,
      next.withBodies_tags hparts.2]
  | .switch loc subject branches =>
    rw [Node.withBodies, Node.withBodies, withBodiesBranches_tags branches hparts]
  | .each loc value key source body ifEmpty =>
    rw [Node.parts, List.forall_mem_append] at hparts
    rw [Node.withBodies, Node.withBodies, withBodiesAll_tags body hparts.1,
      withBodiesOption_tags ifEmpty hparts.2]
  | .call loc name args head content =>
    rw [Node.withBodies, Node.withBodies, withBodiesOption_tags content hparts]
  | .output .. | .statements .. | .comment .. | .doctype .. | .slot _ | .rawInclude ..
  | .inherits .. | .yield _ | .filter .. => simp [Node.withBodies]

theorem withBodiesAll_tags (ns : List Node)
    (h : ∀ t ∈ postorderAll ns, ∀ k ∈ t.tagged, k.KeepsBody g) :
    withBodiesAll g true ns = withBodiesAll g false ns := by
  match ns with
  | [] => rfl
  | n :: ns =>
    rw [postorderAll, List.forall_mem_append] at h
    rw [withBodiesAll, withBodiesAll, n.withBodies_tags h.1, withBodiesAll_tags ns h.2]

theorem Otherwise.withBodies_tags (o : Otherwise)
    (h : ∀ t ∈ o.postorder, ∀ k ∈ t.tagged, k.KeepsBody g) :
    o.withBodies g true = o.withBodies g false := by
  match o with
  | .nothing => rfl
  | .elseIf loc test body next =>
    rw [Otherwise.postorder, List.forall_mem_append] at h
    rw [Otherwise.withBodies, Otherwise.withBodies, withBodiesAll_tags body h.1,
      next.withBodies_tags h.2]
  | .otherwise loc body =>
    rw [Otherwise.withBodies, Otherwise.withBodies, withBodiesAll_tags body h]

theorem withBodiesBranches_tags (bs : List Branch)
    (h : ∀ t ∈ postorderBranches bs, ∀ k ∈ t.tagged, k.KeepsBody g) :
    withBodiesBranches g true bs = withBodiesBranches g false bs := by
  match bs with
  | [] => rfl
  | .mk loc test body :: bs =>
    rw [postorderBranches, List.forall_mem_append] at h
    rw [withBodiesBranches, withBodiesBranches, withBodiesOption_tags body h.1,
      withBodiesBranches_tags bs h.2]

theorem withBodiesOption_tags (o : Option (List Node))
    (h : ∀ t ∈ postorderOption o, ∀ k ∈ t.tagged, k.KeepsBody g) :
    withBodiesOption g true o = withBodiesOption g false o := by
  match o with
  | none => rfl
  | some ns => rw [withBodiesOption, withBodiesOption, withBodiesAll_tags ns h]

end

end

/-! ## One override after the other -/

/-- A tree without declared blocks outside text. -/
def Undeclared (ns : List Node) : Prop :=
  ∀ k ∈ postorderAll ns, k.declared? = none

namespace Override

variable {o : Override} {os : List Override}

theorem applyAll_append (name : String) (body : List Node) :
    applyAll (os ++ [o]) name body =
      if o.name = name then o.mode.combine (applyAll os name body) o.body
      else applyAll os name body := by
  simp only [applyAll, List.filter_append, List.foldl_append]
  by_cases h : o.name = name <;> simp [h]

theorem undeclared_applyAll (ho : ∀ o ∈ os, Undeclared o.body) {name : String} {body : List Node}
    (hb : Undeclared body) : Undeclared (applyAll os name body) := by
  induction os using List.reverseRecOn with
  | nil => exact hb
  | append_singleton os o ih =>
    rw [List.forall_mem_append, List.forall_mem_singleton] at ho
    rw [applyAll_append]
    split
    · intro k hk
      cases hm : o.mode with
      | replace =>
        rw [hm] at hk
        exact ho.2 k hk
      | append =>
        rw [hm, BlockMode.combine, postorderAll_append, List.mem_append] at hk
        exact hk.elim (ih ho.1 k) (ho.2 k)
      | prepend =>
        rw [hm, BlockMode.combine, postorderAll_append, List.mem_append] at hk
        exact hk.elim (ho.2 k) (ih ho.1 k)
    · exact ih ho.1

/-- An override applies to the blocks of its name that a node declares, and to nothing else. -/
theorem applies {loc : Location} {name : String} {body : List Node} (h : o.name = name) :
    o.apply? (.namedBlock loc name .replace body) =
      some [.namedBlock loc name .replace (o.mode.combine body o.body)] :=
  if_pos h.symm

theorem passes {n : Node} (h : n.declared? ≠ some o.name) : o.apply? n = none := by
  unfold Override.apply?
  split
  next loc name body =>
    rw [if_neg]
    rintro rfl
    exact h rfl
  next => rfl

theorem passes_undeclared {n : Node} (h : n.declared? = none) : o.apply? n = none :=
  passes (by simp [h])

theorem merge_eq_self {ns : List Node} (h : ∀ k ∈ postorderAll ns, k.declared? ≠ some o.name) :
    o.merge ns = ns :=
  rewriteAll_eq_self fun k hk => ⟨passes (h k hk), rfl⟩

end Override

/-- A block that a node declares holds no other one. -/
def Node.IsFlat (n : Node) : Prop :=
  n.declared?.isSome → ∀ k ∈ n.parts, k.declared? = none

section Merge

variable {m : Type → Type} [Monad m] [LawfulMonad m] {o : Override} {os : List Override}

mutual

/-- One more override of a node is one more for each of its blocks. -/
theorem Node.rewriteM_withBodies (ho : ∀ o ∈ os, Undeclared o.body) (n : Node)
    (h : ∀ k ∈ n.postorder, k.IsFlat) :
    (n.withBodies (Override.applyAll os) false).rewriteM o.apply? (fun n => (pure [n] : m _)) =
      pure [n.withBodies (Override.applyAll (os ++ [o])) false] := by
  have hparts : ∀ k ∈ n.parts, k.IsFlat :=
    fun k hk => h k (Node.mem_postorder_of_mem_parts hk)
  match n with
  | .group _ body | .tag _ _ _ _ _ body | .loop _ _ body | .mixin _ _ _ body
  | .includes _ _ body =>
    rw [Node.withBodies, Node.withBodies, Node.rewriteM, Override.passes_undeclared]
    · dsimp only
      rw [rewriteAllM_withBodies ho body hparts, pure_bind]
    · rfl
  | .namedBlock loc name .replace body =>
    have hbody : Undeclared body := h _ (Node.mem_postorder_self _) rfl
    rw [Node.withBodies, Node.withBodies, Override.applyAll_append, Node.rewriteM]
    by_cases hn : o.name = name
    · rw [Override.applies hn, if_pos hn]
    -- a block of another name is entered, but there is no block in it
    · have hplain : Undeclared (Override.applyAll os name body) :=
        Override.undeclared_applyAll ho hbody
      have hstays : ∀ k ∈ postorderAll (Override.applyAll os name body),
          Stays o.apply? (fun n => (pure [n] : m _)) k :=
        fun k hk => ⟨Override.passes_undeclared (hplain k hk), rfl⟩
      have hpass : o.apply? (.namedBlock loc name .replace (Override.applyAll os name body)) =
          none := Override.passes fun hd => hn (Option.some.inj hd).symm
      rw [hpass, if_neg hn]
      dsimp only
      rw [rewriteAllM_eq_self _ hstays, pure_bind]
  | .namedBlock loc name .append body | .namedBlock loc name .prepend body =>
    rw [Node.withBodies, Node.withBodies, Node.rewriteM, Override.passes_undeclared]
    · dsimp only
      rw [rewriteAllM_withBodies ho body hparts, pure_bind]
    · rfl
    all_goals simp
  | .conditional loc negate test body next =>
    rw [Node.parts, List.forall_mem_append] at hparts
    rw [Node.withBodies, Node.withBodies, Node.rewriteM, Override.passes_undeclared]
    · dsimp only
      rw [rewriteAllM_withBodies ho body hparts.1, pure_bind, next.rewriteM_withBodies ho hparts.2,
        pure_bind]
    · rfl
  | .switch loc subject branches =>
    rw [Node.withBodies, Node.withBodies, Node.rewriteM, Override.passes_undeclared]
    · dsimp only
      rw [rewriteBranchesM_withBodies ho branches hparts, pure_bind]
    · rfl
  | .each loc value key source body ifEmpty =>
    rw [Node.parts, List.forall_mem_append] at hparts
    rw [Node.withBodies, Node.withBodies, Node.rewriteM, Override.passes_undeclared]
    · dsimp only
      rw [rewriteAllM_withBodies ho body hparts.1, pure_bind,
        rewriteOptionM_withBodies ho ifEmpty hparts.2, pure_bind]
    · rfl
  | .call loc name args head content =>
    rw [Node.withBodies, Node.withBodies, Node.rewriteM, Override.passes_undeclared]
    · dsimp only
      rw [rewriteOptionM_withBodies ho content hparts, pure_bind]
    · rfl
  | .text .. | .output .. | .statements .. | .comment .. | .doctype .. | .slot _ | .rawInclude ..
  | .inherits .. | .yield _ | .filter .. =>
    simp [Node.withBodies, Node.rewriteM, Override.apply?]

theorem rewriteAllM_withBodies (ho : ∀ o ∈ os, Undeclared o.body) (ns : List Node)
    (h : ∀ k ∈ postorderAll ns, k.IsFlat) :
    rewriteAllM o.apply? (fun n => (pure [n] : m _))
        (withBodiesAll (Override.applyAll os) false ns) =
      pure (withBodiesAll (Override.applyAll (os ++ [o])) false ns) := by
  match ns with
  | [] => rw [withBodiesAll, withBodiesAll, rewriteAllM]
  | n :: ns =>
    rw [postorderAll, List.forall_mem_append] at h
    rw [withBodiesAll, withBodiesAll, rewriteAllM, n.rewriteM_withBodies ho h.1, pure_bind,
      rewriteAllM_withBodies ho ns h.2, pure_bind]
    rfl

theorem Otherwise.rewriteM_withBodies (ho : ∀ o ∈ os, Undeclared o.body) (x : Otherwise)
    (h : ∀ k ∈ x.postorder, k.IsFlat) :
    (x.withBodies (Override.applyAll os) false).rewriteM o.apply? (fun n => (pure [n] : m _)) =
      pure (x.withBodies (Override.applyAll (os ++ [o])) false) := by
  match x with
  | .nothing => rw [Otherwise.withBodies, Otherwise.withBodies, Otherwise.rewriteM]
  | .elseIf loc test body next =>
    rw [Otherwise.postorder, List.forall_mem_append] at h
    rw [Otherwise.withBodies, Otherwise.withBodies, Otherwise.rewriteM,
      rewriteAllM_withBodies ho body h.1, pure_bind, next.rewriteM_withBodies ho h.2, pure_bind]
  | .otherwise loc body =>
    rw [Otherwise.withBodies, Otherwise.withBodies, Otherwise.rewriteM,
      rewriteAllM_withBodies ho body h, pure_bind]

theorem rewriteBranchesM_withBodies (ho : ∀ o ∈ os, Undeclared o.body) (bs : List Branch)
    (h : ∀ k ∈ postorderBranches bs, k.IsFlat) :
    rewriteBranchesM o.apply? (fun n => (pure [n] : m _))
        (withBodiesBranches (Override.applyAll os) false bs) =
      pure (withBodiesBranches (Override.applyAll (os ++ [o])) false bs) := by
  match bs with
  | [] => rw [withBodiesBranches, withBodiesBranches, rewriteBranchesM]
  | .mk loc test body :: bs =>
    rw [postorderBranches, List.forall_mem_append] at h
    rw [withBodiesBranches, withBodiesBranches, rewriteBranchesM,
      rewriteOptionM_withBodies ho body h.1, pure_bind, rewriteBranchesM_withBodies ho bs h.2,
      pure_bind]

theorem rewriteOptionM_withBodies (ho : ∀ o ∈ os, Undeclared o.body) (x : Option (List Node))
    (h : ∀ k ∈ postorderOption x, k.IsFlat) :
    rewriteOptionM o.apply? (fun n => (pure [n] : m _))
        (withBodiesOption (Override.applyAll os) false x) =
      pure (withBodiesOption (Override.applyAll (os ++ [o])) false x) := by
  match x with
  | none => rw [withBodiesOption, withBodiesOption, rewriteOptionM]
  | some ns =>
    rw [withBodiesOption, withBodiesOption, rewriteOptionM, rewriteAllM_withBodies ho ns h,
      pure_bind]

end

end Merge

theorem mergeAll_append (os more : List Override) (ns : List Node) :
    mergeAll (os ++ more) ns = mergeAll more (mergeAll os ns) :=
  List.foldl_append

/-- Overrides that are merged one after the other make of each block what they are to make of it. -/
theorem mergeAll_eq {os : List Override} (ho : ∀ o ∈ os, Undeclared o.body) {ns : List Node}
    (h : ∀ k ∈ postorderAll ns, k.IsFlat) : mergeAll os ns = overriddenAll os false ns := by
  induction os using List.reverseRecOn with
  | nil => exact (withBodiesAll_eq_self ns fun _ _ _ _ _ _ => rfl).symm
  | append_singleton os o ih =>
    rw [List.forall_mem_append, List.forall_mem_singleton] at ho
    rw [mergeAll_append, ih ho.1]
    exact congrArg Id.run (rewriteAllM_withBodies ho.1 ns h)

/-- Whether a block of a name is declared in a tree, outside text. -/
def declares (ns : List Node) (name : String) : Bool :=
  (postorderAll ns).any fun k => k.declared? = some name

theorem Node.declared?_husk (n : Node) : n.husk.declared? = n.declared? := by
  cases n with
  | namedBlock _ _ mode _ => cases mode <;> rfl
  | _ => rfl

/-- Overrides of names that are not declared do nothing. -/
theorem mergeAll_filter {os : List Override} (ho : ∀ o ∈ os, Undeclared o.body)
    {names : String → Bool} {ns : List Node}
    (h : ∀ k ∈ postorderAll ns, ∀ name, k.declared? = some name → names name = true) :
    mergeAll (os.filter fun o => names o.name) ns = mergeAll os ns := by
  induction os generalizing ns with
  | nil => rfl
  | cons o os ih =>
    rw [List.forall_mem_cons] at ho
    by_cases hn : names o.name = true
    · have hblind : Blind fun k => ∀ name, k.declared? = some name → names name = true :=
        blind_of_husk fun n => by rw [n.declared?_husk]
      have hbody : ∀ k ∈ postorderAll o.body, ∀ name, k.declared? = some name →
          names name = true := fun k hk name hd => nomatch (ho.1 k hk).symm.trans hd
      rw [List.filter_cons_of_pos (p := fun o : Override => names o.name) hn]
      exact ih ho.2 (forall_merge hblind o hbody h)
    · have hself : o.merge ns = ns :=
        Override.merge_eq_self fun k hk hd => hn (h k hk o.name hd)
      rw [List.filter_cons_of_neg (p := fun o : Override => names o.name) hn, ih ho.2 h]
      exact congrArg (mergeAll os) hself.symm

/-! ## Chains of templates -/

/-- A block as a template that extends another declares it at its top level. -/
def Override.block (loc : Location) (o : Override) : Node :=
  .namedBlock loc o.name o.mode o.body

/-- A template that extends another, that one another, and so on to the one with the tree `base`.
The paths below the first are those of the templates of the set; all paths are different. The
overrides stand in the order in which they apply. -/
inductive Lineage (set : TemplateSet) (options : Options) (base : List Node) :
    String → List String → List Node → List Override → Prop where
  | root (path : String) : Lineage set options base path [] base []
  | extend {path parent target source : String} {below : List String} {loc : Location}
      {nodes : List Node} {os : List Override} (blocks : List (Location × Override))
      (h : Lineage set options base parent below nodes os) (hnew : path ∉ parent :: below)
      (ht : resolvePath options.basedir path target = parent)
      (hf : set.fetch? parent = some source) (hp : parseSource options source = .ok nodes)
      (hb : ∀ b ∈ blocks, ∀ k ∈ postorderAll b.2.body,
        k.isUnlinked = false ∧ k.declared? = none) :
      Lineage set options base path (parent :: below)
        (.inherits loc target :: blocks.map fun b => b.2.block b.1) (os ++ blocks.map Prod.snd)

namespace Lineage

variable {set : TemplateSet} {options : Options} {base nodes : List Node} {path : String}
  {below : List String} {os : List Override}

theorem not_mem (h : Lineage set options base path below nodes os) : path ∉ below := by
  cases h with
  | root => exact List.not_mem_nil
  | extend _ _ hnew => exact hnew

theorem forall_body (h : Lineage set options base path below nodes os) :
    ∀ o ∈ os, ∀ k ∈ postorderAll o.body, k.isUnlinked = false ∧ k.declared? = none := by
  induction h with
  | root => exact fun _ h => nomatch h
  | extend blocks _ _ _ _ _ hb ih =>
    rw [List.forall_mem_append, List.forall_mem_map]
    exact ⟨ih, hb⟩

end Lineage

namespace Linking

/-- What is no reference is left as it is. -/
theorem followReference_eq {load : Loader} {set : TemplateSet} {basedir : Option String}
    {path : String} {n : Node} (h : n.target? = none) :
    followReference load set basedir path n = pure [n] := by
  cases n with
  | inherits | includes | rawInclude => exact nomatch h
  | _ => rfl

theorem resolveIncludes_eq_self {load : Loader} {set : TemplateSet} {basedir : Option String}
    {path : String} {ns : List Node} (h : ∀ k ∈ postorderAll ns, k.target? = none) :
    resolveIncludes load set basedir path ns = .ok ns :=
  rewriteAllM_eq_self ns fun k hk => ⟨rfl, followReference_eq (h k hk)⟩

/-- The top level of a template of the chain is the overrides alone. -/
theorem overParent_blocks (blocks : List (Location × Override)) (parent : List Node) :
    overParent (blocks.map fun b => b.2.block b.1) parent =
      mergeAll (blocks.map Prod.snd) parent := by
  have hfilter : ∀ p : Node → Bool, (∀ loc o, p (Override.block loc o) = false) →
      (blocks.map fun b => b.2.block b.1).filter p = [] := by
    intro p hp
    rw [List.filter_eq_nil_iff, List.forall_mem_map]
    exact fun b _ => by simp [hp]
  have hoverrides : (blocks.map fun b => b.2.block b.1).filterMap Node.override? =
      blocks.map Prod.snd := by
    rw [List.filterMap_map]
    exact congrFun List.filterMap_eq_map blocks
  rw [overParent, hfilter _ fun _ _ => rfl, hfilter _ fun _ _ => rfl, hoverrides, List.nil_append,
    List.append_nil]

theorem ungroupedAll_blocks (blocks : List (Location × Override)) :
    ungroupedAll (blocks.map fun b => b.2.block b.1) = blocks.map fun b => b.2.block b.1 := by
  induction blocks with
  | nil => rfl
  | cons b blocks ih => exact congrArg (b.2.block b.1 :: ·) ih

theorem target?_of_isUnlinked {n : Node} (h : n.isUnlinked = false) : n.target? = none := by
  rw [Node.isUnlinked, Bool.or_eq_false_iff, Option.isSome_eq_false_iff] at h
  exact Option.isNone_iff_eq_none.mp h.1

/-- Linking one template of the chain, given its parent. -/
theorem linkWith_blocks {load : Loader} {set : TemplateSet} {basedir : Option String}
    {path target : String} {loc : Location} {blocks : List (Location × Override)} {parent : Loaded}
    (hb : ∀ b ∈ blocks, ∀ k ∈ postorderAll b.2.body, k.target? = none)
    (hl : load (resolvePath basedir path target) loc = .ok parent) :
    linkWith load set basedir path (.inherits loc target :: blocks.map fun b => b.2.block b.1) =
      .ok (mergeAll (blocks.map Prod.snd) parent.nodes) := by
  have hresolved : ∀ k ∈ postorderAll (blocks.map fun b => b.2.block b.1), k.target? = none := by
    intro k hk
    obtain ⟨n, hn, hk⟩ := mem_postorderAll.mp hk
    obtain ⟨b, hmem, rfl⟩ := List.mem_map.mp hn
    rw [Node.postorder_eq, List.mem_append, List.mem_singleton] at hk
    rcases hk with hk | rfl
    · exact hb b hmem k hk
    · rfl
  have hroot : (blocks.map fun b => b.2.block b.1).find? (fun n => !n.mayOverride) = none := by
    rw [List.find?_eq_none, List.forall_mem_map]
    exact fun b _ => by simp [Override.block, Node.mayOverride, Node.override?]
  rw [linkWith, resolveIncludes_eq_self hresolved]
  simp only [bind, Except.bind]
  rw [ungroupedAll_blocks, hroot, hl]
  exact congrArg Except.ok (overParent_blocks blocks parent.nodes)

/-- A chain is linked from its end: each template merges its overrides into the tree of the next.
The induction is on the chain, and the templates above are on the stack. -/
theorem linkTree_lineage {set : TemplateSet} {options : Options} {base nodes : List Node}
    {path : String} {below : List String} {os : List Override}
    (hbase : ∀ k ∈ postorderAll base, k.target? = none)
    (h : Lineage set options base path below nodes os) (stack : List String)
    (hs : ∀ q ∈ below, q ∉ stack) :
    linkTree set options stack path nodes = .ok (mergeAll os base) := by
  induction h generalizing stack with
  | root path =>
    rw [linkTree_eq, linkWith]
    · exact resolveIncludes_eq_self hbase
    -- a reference to a parent would be one in the tree
    · rintro loc target rest rfl
      exact nomatch hbase (.inherits loc target) (by simp [postorderAll, Node.postorder])
  | @extend path parent target source below loc nodes os blocks h hnew ht hf hp hb ih =>
    rw [List.forall_mem_cons] at hs
    have hparent : linkTree set options (parent :: stack) parent nodes =
        .ok (mergeAll os base) := by
      refine ih (parent :: stack) fun q hq => ?_
      rw [List.mem_cons, not_or]
      exact ⟨fun he => h.not_mem (he ▸ hq), hs.2 q hq⟩
    have hload : loader set options stack path (resolvePath options.basedir path target) loc =
        .ok ⟨mergeAll os base, extendsOther nodes⟩ := by
      rw [ht, loader, if_neg hs.1, hf]
      dsimp only
      rw [hp]
      dsimp only
      rw [hparent]
      rfl
    have hbodies : ∀ b ∈ blocks, ∀ k ∈ postorderAll b.2.body, k.target? = none :=
      fun b hm k hk => target?_of_isUnlinked (hb b hm k hk).1
    rw [linkTree_eq, linkWith_blocks hbodies hload, mergeAll_append]

end Linking

/-! ## Linking a chain -/

theorem isMixin_of_isUnlinked {n : Node} (h : n.isUnlinked = false) : n.isMixin = false :=
  (Bool.or_eq_false_iff.mp h).2

theorem withoutMixins_eq_self {ns : List Node} (h : ∀ k ∈ postorderAll ns, k.isMixin = false) :
    withoutMixins ns = ns := by
  refine rewriteAll_eq_self fun k hk => ⟨rfl, ?_⟩
  have hk := h k hk
  cases k with
  | mixin => exact nomatch hk
  | _ => rfl

theorem mixinPool_eq_nil {ns : List Node} (h : ∀ k ∈ postorderAll ns, k.isMixin = false) :
    mixinPool ns = [] := by
  have hnone : (postorderAll ns).filterMap Node.definition? = [] := by
    rw [List.filterMap_eq_nil_iff]
    intro k hk
    have hk := h k hk
    cases k with
    | mixin => exact nomatch hk
    | _ => rfl
  rw [mixinPool, hnone]
  rfl

/-- Linking a template that extends others merges all overrides into the tree of the last one. -/
theorem Lineage.link_eq {set : TemplateSet} {options : Options} {base nodes : List Node}
    {path : String} {below : List String} {os : List Override}
    (hbase : ∀ k ∈ postorderAll base, k.isUnlinked = false)
    (h : Lineage set options base path below nodes os) :
    link set options path nodes = .ok ⟨mergeAll os base, []⟩ := by
  have htargets : ∀ k ∈ postorderAll base, k.target? = none :=
    fun k hk => Linking.target?_of_isUnlinked (hbase k hk)
  have hstack : ∀ q ∈ below, q ∉ [path] := by
    intro q hq hmem
    rw [List.mem_singleton] at hmem
    exact h.not_mem (hmem ▸ hq)
  have hmixins : ∀ k ∈ postorderAll (mergeAll os base), k.isMixin = false :=
    forall_mergeAll (blind_of_husk fun n => by cases n <;> rfl)
      (fun o ho k hk => isMixin_of_isUnlinked (h.forall_body o ho k hk).1)
      fun k hk => isMixin_of_isUnlinked (hbase k hk)
  rw [link, Linking.linkTree_lineage htargets h [path] hstack]
  show Except.ok (Linked.mk (withoutMixins _) (mixinPool _)) = _
  rw [withoutMixins_eq_self hmixins, mixinPool_eq_nil hmixins]

/-- Linking a template that extends others gives the tree of the last one, in which the overrides of
each block are applied in order, from the template next to it up. Overrides of names that are not
declared do nothing. Blocks in tags in text stay as they are, so the tree is the one that the
overrides ask for if none of them is overridden. -/
theorem link_lineage {set : TemplateSet} {options : Options} {base nodes : List Node}
    {path : String} {below : List String} {os : List Override}
    (hbase : ∀ k ∈ postorderAll base, k.isUnlinked = false ∧ k.IsFlat)
    (h : Lineage set options base path below nodes os) :
    link set options path nodes = .ok ⟨overriddenAll os false base, []⟩ ∧
      overriddenAll (os.filter fun o => declares base o.name) false base =
        overriddenAll os false base ∧
      ((∀ t ∈ postorderAll base, ∀ k ∈ t.tagged, ∀ name, k.declared? = some name →
          ∀ o ∈ os, o.name ≠ name) →
        overriddenAll os true base = overriddenAll os false base) := by
  have hplain : ∀ o ∈ os, Undeclared o.body := fun o ho k hk => (h.forall_body o ho k hk).2
  have hflat : ∀ k ∈ postorderAll base, k.IsFlat := fun k hk => (hbase k hk).2
  have hmerged := mergeAll_eq hplain hflat
  refine ⟨?_, ?_, fun htags => ?_⟩
  · rw [h.link_eq fun k hk => (hbase k hk).1, hmerged]
  · rw [← hmerged, ← mergeAll_eq (fun o ho => hplain o (List.mem_filter.mp ho).1) hflat]
    refine mergeAll_filter hplain fun k hk name hd => ?_
    exact List.any_eq_true.mpr ⟨k, hk, decide_eq_true hd⟩
  · refine withBodiesAll_tags base fun t ht k hk loc name body he => ?_
    have hnone : (os.filter fun o => o.name = name) = [] := by
      rw [List.filter_eq_nil_iff]
      exact fun o ho => by simpa using htags t ht k hk name (he ▸ rfl) o ho
    rw [Override.applyAll, hnone]
    rfl

/-! ## A block in a tag is not entered -/

namespace OverriddenBlock

/-- The source of a template that extends another and overrides a block. -/
def source : String :=
  "extends base\nblock a\n  | x"

def override : Override :=
  ⟨"a", .replace, [.text ⟨3, 5⟩ "x" [.literal "x"]]⟩

def nodes : List Node :=
  .inherits ⟨1, 1⟩ "base" :: [(⟨2, 1⟩, override)].map fun b => b.2.block b.1

/-- The block, declared where a node stands. -/
def plain : Node :=
  .namedBlock ⟨1, 1⟩ "a" .replace []

/-- The text `#[block a]`, as it is read at the start of a line behind a pipe. -/
def tagged : Node :=
  .text ⟨1, 3⟩ "#[block a]" [.tag (.namedBlock ⟨1, 5⟩ "a" .replace [])]

theorem segmentsAt_x : segmentsAt "x" ⟨3, 5⟩ = .ok [.literal "x"] := by
  have hs : Piece.split 0 "x".toList = [.literal ['x']] := by
    simp [Piece.split, Piece.marker?, Piece.prependLiteral]
  rw [segmentsAt, hs, List.mapM_cons, List.mapM_nil]
  simp [segmentOf, bind, Except.bind, pure, Except.pure]

/-- The streams of the template that overrides and of the two that declare the block, and the stream
of the tag inside text. -/
theorem streams :
    (lex source).bind (CommentPolicy.strip {}) =
        .ok [⟨.inherits, ⟨1, 1⟩⟩, ⟨.path "base", ⟨1, 9⟩⟩, ⟨.newline, ⟨2, 1⟩⟩,
          ⟨.block "a" .replace, ⟨2, 1⟩⟩, ⟨.indent 2, ⟨3, 3⟩⟩, ⟨.text "x", ⟨3, 5⟩⟩,
          ⟨.outdent, ⟨3, 6⟩⟩, ⟨.eos, ⟨3, 6⟩⟩] ∧
      (lex "block a").bind (CommentPolicy.strip {}) =
        .ok [⟨.block "a" .replace, ⟨1, 1⟩⟩, ⟨.eos, ⟨1, 8⟩⟩] ∧
      (lex "| #[block a]").bind (CommentPolicy.strip {}) =
        .ok [⟨.text "#[block a]", ⟨1, 3⟩⟩, ⟨.eos, ⟨1, 13⟩⟩] ∧
      lexAt "block a" ⟨1, 5⟩ = .ok [⟨.block "a" .replace, ⟨1, 5⟩⟩, ⟨.eos, ⟨1, 12⟩⟩] := by
  refine ⟨eq_ok_of_toOption ?_, eq_ok_of_toOption ?_, eq_ok_of_toOption ?_,
    eq_ok_of_toOption ?_⟩ <;> decide +kernel

theorem parseSource_source : parseSource {} source = .ok nodes := by
  simp only [parseSource, streams.1, parseTokens, readTokens, readDocument, Node.read, readPath]
  simp [readDocument, Node.read, readOptionalBlock, readItems, textRun, TreeContext.textNode,
    segmentsAt_x, bind, Except.bind, pure, Except.pure, nodes, Override.block, override]

theorem parseSource_plain : parseSource {} "block a" = .ok [plain] := by
  simp only [parseSource, streams.2.1, parseTokens, readTokens, readDocument, Node.read]
  simp [readDocument, readOptionalBlock, plain, bind, Except.bind, pure, Except.pure]

theorem segmentsAt_tagged :
    segmentsAt "#[block a]" ⟨1, 3⟩ = .ok [.tag (.namedBlock ⟨1, 5⟩ "a" .replace [])] := by
  have hs : Piece.split 0 "#[block a]".toList = [.tag 0 "block a".toList] := by decide +kernel
  have hl : lexAt (String.ofList "block a".toList) ((⟨1, 3⟩ : Location).right (0 + 2)) =
      .ok [⟨.block "a" .replace, ⟨1, 5⟩⟩, ⟨.eos, ⟨1, 12⟩⟩] := streams.2.2.2
  rw [segmentsAt, hs, List.mapM_cons, List.mapM_nil]
  simp only [segmentOf, nestedNode, hl, readTokens, readDocument, Node.read]
  simp [readOptionalBlock, readDocument, bind, Except.bind, pure, Except.pure, Functor.map,
    Except.map]

theorem parseSource_tagged : parseSource {} "| #[block a]" = .ok [tagged] := by
  simp only [parseSource, streams.2.2.1, parseTokens, readTokens, readDocument, Node.read, textRun,
    TreeContext.textNode]
  simp [segmentsAt_tagged, readDocument, tagged, bind, Except.bind, pure, Except.pure]

theorem body_override (b : Location × Override) (hb : b ∈ [((⟨2, 1⟩ : Location), override)]) :
    ∀ k ∈ postorderAll b.2.body, k.isUnlinked = false ∧ k.declared? = none := by
  cases List.mem_singleton.mp hb
  simp [override, postorderAll, Node.postorder, Node.isUnlinked, Node.target?, Node.isMixin,
    Node.declared?]

/-- The template that overrides, at any path but that of the template it extends. -/
theorem lineage {set : TemplateSet} {text path : String} {base : List Node}
    (hf : set.fetch? "base.pug" = some text) (hp : parseSource {} text = .ok base)
    (ht : resolvePath none path "base" = "base.pug") (hnew : path ∉ ["base.pug"]) :
    Lineage set {} base path ["base.pug"] nodes [override] :=
  .extend [(⟨2, 1⟩, override)] (.root "base.pug") hnew ht hf hp body_override

/-- A text that goes in front of what is there, by a template that extends the one above. -/
def prefixing : Override :=
  ⟨"a", .prepend, [.text ⟨3, 5⟩ "y" [.literal "y"]]⟩

end OverriddenBlock

open OverriddenBlock

/-- Two templates above one that declares a block: the first sets its body, the next adds to it. -/
theorem link_lineage_prepend_replace :
    link [("base.pug", "block a"), ("mid.pug", source)] {} "page.pug"
        [.inherits ⟨1, 1⟩ "mid", prefixing.block ⟨2, 1⟩] =
      .ok ⟨[.namedBlock ⟨1, 1⟩ "a" .replace (prefixing.body ++ override.body)], []⟩ := by
  have hmid : Lineage [("base.pug", "block a"), ("mid.pug", source)] {} [plain] "mid.pug"
      ["base.pug"] nodes [override] :=
    lineage rfl parseSource_plain (rfl) (by decide)
  have hpage : Lineage [("base.pug", "block a"), ("mid.pug", source)] {} [plain] "page.pug"
      ["mid.pug", "base.pug"] [.inherits ⟨1, 1⟩ "mid", prefixing.block ⟨2, 1⟩]
      [override, prefixing] := by
    refine .extend [(⟨2, 1⟩, prefixing)] hmid (by decide) (rfl) rfl
      parseSource_source fun b hb => ?_
    cases List.mem_singleton.mp hb
    simp [prefixing, postorderAll, Node.postorder, Node.isUnlinked, Node.target?, Node.isMixin,
      Node.declared?]
  refine (link_lineage ?_ hpage).1.trans rfl
  simp [plain, postorderAll, Node.postorder, Node.isUnlinked, Node.target?, Node.isMixin,
    Node.IsFlat, Node.parts]

/-- An override of a block that is declared in a tag inside text does not reach it, also where no
other block is declared and none is in another. -/
theorem link_misses_tagged_blocks :
    ¬ ∀ (source : String) (set : TemplateSet) (options : Options) (base nodes : List Node)
      (path : String) (below : List String) (os : List Override),
      parseSource options source = .ok nodes → Lineage set options base path below nodes os →
        (∀ k ∈ everywhereAll base, k.isUnlinked = false) →
          ((everywhereAll base).filterMap Node.declared?).Nodup →
            (∀ loc name mode body, .namedBlock loc name mode body ∈ everywhereAll base →
              ∀ k ∈ everywhereAll body, k.declared? = none) →
              (∀ o ∈ os, ∀ k ∈ everywhereAll o.body, k.isUnlinked = false ∧
                ∀ loc name mode body, k ≠ .namedBlock loc name mode body) →
                link set options path nodes = .ok ⟨overriddenAll os true base, []⟩ := by
  intro h
  have hl : Lineage [("base.pug", "| #[block a]")] {} [tagged] "page.pug" ["base.pug"] nodes
      [override] := lineage rfl parseSource_tagged (rfl) (by decide)
  have heverywhere : everywhereAll [tagged] =
      [tagged, .namedBlock ⟨1, 5⟩ "a" .replace []] := by
    simp [everywhereAll, Node.everywhere, everywhereSegments, tagged]
  have hflat : ∀ loc name mode body, .namedBlock loc name mode body ∈ everywhereAll [tagged] →
      ∀ k ∈ everywhereAll body, k.declared? = none := by
    intro loc name mode body hn
    rw [heverywhere] at hn
    simp only [tagged, List.mem_cons, reduceCtorEq, false_or, List.not_mem_nil, or_false] at hn
    cases hn
    exact fun k hk => absurd hk List.not_mem_nil
  have hgiven := hl.link_eq (by simp [tagged, postorderAll, Node.postorder, Node.isUnlinked,
    Node.target?, Node.isMixin])
  have hleft : mergeAll [override] [tagged] = [tagged] := rfl
  have hasked := h source _ {} _ nodes "page.pug" _ _ parseSource_source hl
    (by rw [heverywhere]; simp [tagged, Node.isUnlinked, Node.target?, Node.isMixin])
    (by rw [heverywhere]; exact List.pairwise_singleton _ "a") hflat
    (by simp [override, everywhereAll, Node.everywhere, everywhereSegments, Node.isUnlinked,
      Node.target?, Node.isMixin])
  rw [hgiven, hleft] at hasked
  simp [overriddenAll, withBodiesAll, Node.withBodies, withBodiesSegments, tagged,
    Override.applyAll, override, BlockMode.combine] at hasked

end PugTemplate
