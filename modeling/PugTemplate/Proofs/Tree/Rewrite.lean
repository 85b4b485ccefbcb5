import PugTemplate.Proofs.Basic
import PugTemplate.Tree.Basic

/-!
# What rewriting a tree keeps

A rewriting touches a node only once its parts are done, so what it makes of a tree follows from what
it makes of one node. Statements are about what a node is apart from its parts, its husk.
-/

namespace PugTemplate

namespace Node

/-- A node without its parts; text is no part. -/
def husk : Node → Node
  | group loc _ => group loc []
  | tag loc name head selfClosing textOnly _ => tag loc name head selfClosing textOnly []
  | conditional loc negate test _ _ => conditional loc negate test [] .nothing
  | switch loc subject _ => switch loc subject []
  | each loc value key source _ _ => each loc value key source [] none
  | loop loc test _ => loop loc test []
  | mixin loc name params _ => mixin loc name params []
  | call loc name args head _ => call loc name args head none
  | namedBlock loc name mode _ => namedBlock loc name mode []
  | includes loc path _ => includes loc path []
  | n => n

/-- The nodes inside a node, text not entered. -/
def parts : Node → List Node
  | group _ body | tag _ _ _ _ _ body | loop _ _ body | mixin _ _ _ body | namedBlock _ _ _ body
  | includes _ _ body => postorderAll body
  | conditional _ _ _ body next => postorderAll body ++ next.postorder
  | switch _ _ branches => postorderBranches branches
  | each _ _ _ _ body ifEmpty => postorderAll body ++ postorderOption ifEmpty
  | call _ _ _ _ content => postorderOption content
  | _ => []

theorem postorder_eq (n : Node) : n.postorder = n.parts ++ [n] := by
  cases n <;> simp [parts, postorder]

theorem mem_postorder_self (n : Node) : n ∈ n.postorder := by
  rw [postorder_eq]
  exact List.mem_append_right _ (List.mem_singleton_self n)

theorem mem_postorder_of_mem_parts {n k : Node} (h : k ∈ n.parts) : k ∈ n.postorder := by
  rw [postorder_eq]
  exact List.mem_append_left _ h

end Node

/-- A predicate that does not look at the parts of a node. -/
def Blind (P : Node → Prop) : Prop :=
  ∀ n m : Node, n.husk = m.husk → P n → P m

/-- What holds all over a node still holds of it with other parts. -/
theorem Blind.rebuilt {P : Node → Prop} (hb : Blind P) {n m : Node} (h : ∀ k ∈ n.postorder, P k)
    (hm : n.husk = m.husk) : P m :=
  hb n m hm (h n n.mem_postorder_self)

theorem Blind.and {P Q : Node → Prop} (hp : Blind P) (hq : Blind Q) :
    Blind fun n => P n ∧ Q n :=
  fun n m h hn => ⟨hp n m h hn.1, hq n m h hn.2⟩

/-- A predicate that holds of a husk wherever it holds of the node. -/
theorem blind_of_husk {P : Node → Prop} (h : ∀ n, P n ↔ P n.husk) : Blind P := by
  intro n m hm hn
  rw [h, ← hm, ← h]
  exact hn

@[simp] theorem postorderAll_append (ns ms : List Node) :
    postorderAll (ns ++ ms) = postorderAll ns ++ postorderAll ms := by
  induction ns with
  | nil => rfl
  | cons n ns ih => simp only [List.cons_append, postorderAll, ih, List.append_assoc]

theorem mem_postorderAll {k : Node} {ns : List Node} :
    k ∈ postorderAll ns ↔ ∃ n ∈ ns, k ∈ n.postorder := by
  induction ns with
  | nil => simp [postorderAll]
  | cons n ns ih => simp [postorderAll, ih]

/-! ## The parts of a part are parts -/

mutual

theorem Node.postorder_closed {n k j : Node} (hk : k ∈ n.postorder) (hj : j ∈ k.postorder) :
    j ∈ n.postorder := by
  rw [Node.postorder_eq, List.mem_append, List.mem_singleton] at hk
  rcases hk with hk | rfl
  case inr => exact hj
  -- `k` is a part of `n`, so what stands in it is to be a part as well
  rw [Node.postorder_eq, List.mem_append]
  left
  match n with
  | .group _ body | .tag _ _ _ _ _ body | .loop _ _ body | .mixin _ _ _ body
  | .namedBlock _ _ _ body | .includes _ _ body => exact @postorderAll_closed body _ _ hk hj
  | .conditional _ _ _ body next =>
    rw [Node.parts, List.mem_append] at hk ⊢
    exact hk.imp (postorderAll_closed · hj) (Otherwise.postorder_closed · hj)
  | .switch _ _ branches => exact @postorderBranches_closed branches _ _ hk hj
  | .each _ _ _ _ body ifEmpty =>
    rw [Node.parts, List.mem_append] at hk ⊢
    exact hk.imp (postorderAll_closed · hj) (postorderOption_closed · hj)
  | .call _ _ _ _ content => exact @postorderOption_closed content _ _ hk hj
  | .text .. | .output .. | .statements .. | .comment .. | .doctype .. | .slot _ | .rawInclude ..
  | .inherits .. | .yield _ | .filter .. => simp [Node.parts] at hk

theorem postorderAll_closed {ns : List Node} {k j : Node} (hk : k ∈ postorderAll ns)
    (hj : j ∈ k.postorder) : j ∈ postorderAll ns := by
  match ns with
  | [] => simp [postorderAll] at hk
  | n :: ns =>
    rw [postorderAll, List.mem_append] at hk ⊢
    exact hk.imp (Node.postorder_closed · hj) (postorderAll_closed · hj)

theorem Otherwise.postorder_closed {o : Otherwise} {k j : Node} (hk : k ∈ o.postorder)
    (hj : j ∈ k.postorder) : j ∈ o.postorder := by
  match o with
  | .nothing => simp [Otherwise.postorder] at hk
  | .elseIf _ _ body next =>
    rw [Otherwise.postorder, List.mem_append] at hk ⊢
    exact hk.imp (postorderAll_closed · hj) (Otherwise.postorder_closed · hj)
  | .otherwise _ body => exact @postorderAll_closed body _ _ hk hj

theorem postorderBranches_closed {bs : List Branch} {k j : Node}
    (hk : k ∈ postorderBranches bs) (hj : j ∈ k.postorder) : j ∈ postorderBranches bs := by
  match bs with
  | [] => simp [postorderBranches] at hk
  | .mk _ _ body :: bs =>
    rw [postorderBranches, List.mem_append] at hk ⊢
    exact hk.imp (postorderOption_closed · hj) (postorderBranches_closed · hj)

theorem postorderOption_closed {o : Option (List Node)} {k j : Node}
    (hk : k ∈ postorderOption o) (hj : j ∈ k.postorder) : j ∈ postorderOption o := by
  match o with
  | none => simp [postorderOption] at hk
  | some ns => exact @postorderAll_closed ns _ _ hk hj

end

/-! ## One node, then all -/

section Rewrite

variable {m : Type → Type} [Monad m] (y : Answering m)
  {replace? : Node → Option (List Node)} {finish : Node → m (List Node)} {P Q W : Node → Prop}

/-- What a rewriting does with one node: where `P` holds before, `Q` holds of all that stands there
after, and `W` of the node itself. -/
structure Rewrites (replace? : Node → Option (List Node)) (finish : Node → m (List Node))
    (P Q W : Node → Prop) : Prop where
  before : Blind P
  itself : Blind W
  replaced : ∀ n ns, replace? n = some ns → (∀ k ∈ n.postorder, P k) →
    (∀ k ∈ postorderAll ns, Q k) ∧ ∀ k ∈ n.postorder, W k
  finished : ∀ n, P n → (∀ k ∈ n.parts, Q k) →
    y.always (finish n) fun ns => (∀ k ∈ postorderAll ns, Q k) ∧ W n

variable {y}

/-- A node whose parts are done is finished for the node it was. -/
theorem Rewrites.finish_of_husk (r : Rewrites y replace? finish P Q W) {n n' : Node}
    (hn : n'.husk = n.husk) (hp : P n) (hq : ∀ k ∈ n'.parts, Q k) (hw : ∀ k ∈ n.parts, W k) :
    y.always (finish n') fun ns => (∀ k ∈ postorderAll ns, Q k) ∧ ∀ k ∈ n.postorder, W k := by
  have hp' : P n' := r.before n n' hn.symm hp
  apply y.mono (r.finished n' hp' hq)
  intro ns ⟨hns, hw'⟩
  refine ⟨hns, fun k hk => ?_⟩
  rw [Node.postorder_eq, List.mem_append, List.mem_singleton] at hk
  rcases hk with hk | rfl
  · exact hw k hk
  -- what is known of the node with new parts goes back to the one with the old
  · exact r.itself n' k hn hw'

theorem Rewrites.either (r : Rewrites y replace? finish P Q W) {n : Node} {x : m (List Node)}
    (h : ∀ k ∈ n.postorder, P k)
    (hx : y.always x fun ns => (∀ k ∈ postorderAll ns, Q k) ∧ ∀ k ∈ n.postorder, W k) :
    y.always
      (match replace? n with
      | some ns => pure ns
      | none => x)
      fun ns => (∀ k ∈ postorderAll ns, Q k) ∧ ∀ k ∈ n.postorder, W k := by
  cases hr : replace? n with
  | none => exact hx
  | some ns => exact y.pure (r.replaced n ns hr h)

mutual

theorem Rewrites.node (r : Rewrites y replace? finish P Q W) (n : Node)
    (h : ∀ k ∈ n.postorder, P k) :
    y.always (n.rewriteM replace? finish) fun ns =>
      (∀ k ∈ postorderAll ns, Q k) ∧ ∀ k ∈ n.postorder, W k := by
  have hself := h n n.mem_postorder_self
  have hparts : ∀ k ∈ n.parts, P k :=
    fun k hk => h k (Node.mem_postorder_of_mem_parts hk)
  -- the parts first, as the definition has it, then the node with the parts that came of them
  match n with
  | .group _ body | .tag _ _ _ _ _ body | .loop _ _ body | .mixin _ _ _ body
  | .namedBlock _ _ _ body | .includes _ _ body =>
    rw [Node.rewriteM]
    apply r.either h
    exact y.bind (r.all body hparts) fun _ hb => r.finish_of_husk rfl hself hb.1 hb.2
  | .conditional loc negate test body next =>
    rw [Node.rewriteM]
    apply r.either h
    rw [Node.parts, List.forall_mem_append] at hparts
    refine y.bind (r.all body hparts.1) fun body' hb => ?_
    refine y.bind (r.otherwise next hparts.2) fun next' hn => ?_
    exact r.finish_of_husk rfl hself (List.forall_mem_append.mpr ⟨hb.1, hn.1⟩)
      (List.forall_mem_append.mpr ⟨hb.2, hn.2⟩)
  | .switch loc subject branches =>
    rw [Node.rewriteM]
    apply r.either h
    exact y.bind (r.branches branches hparts) fun _ hb => r.finish_of_husk rfl hself hb.1 hb.2
  | .each loc value key source body ifEmpty =>
    rw [Node.rewriteM]
    apply r.either h
    rw [Node.parts, List.forall_mem_append] at hparts
    refine y.bind (r.all body hparts.1) fun body' hb => ?_
    refine y.bind (r.option ifEmpty hparts.2) fun ifEmpty' he => ?_
    exact r.finish_of_husk rfl hself (List.forall_mem_append.mpr ⟨hb.1, he.1⟩)
      (List.forall_mem_append.mpr ⟨hb.2, he.2⟩)
  | .call loc name args head content =>
    rw [Node.rewriteM]
    apply r.either h
    exact y.bind (r.option content hparts) fun _ hb => r.finish_of_husk rfl hself hb.1 hb.2
  -- without parts a node is finished as it stands
  | .text .. | .output .. | .statements .. | .comment .. | .doctype .. | .slot _ | .rawInclude ..
  | .inherits .. | .yield _ | .filter .. =>
    rw [Node.rewriteM]
    · apply r.either h
      exact r.finish_of_husk rfl hself (by simp [Node.parts]) (by simp [Node.parts])
    all_goals simp

theorem Rewrites.all (r : Rewrites y replace? finish P Q W) (ns : List Node)
    (h : ∀ k ∈ postorderAll ns, P k) :
    y.always (rewriteAllM replace? finish ns) fun out =>
      (∀ k ∈ postorderAll out, Q k) ∧ ∀ k ∈ postorderAll ns, W k := by
  match ns with
  | [] =>
    rw [rewriteAllM]
    exact y.pure (by simp [postorderAll])
  | n :: ns =>
    rw [postorderAll, List.forall_mem_append] at h
    rw [rewriteAllM]
    refine y.bind (r.node n h.1) fun here hh => y.bind (r.all ns h.2) fun more hm => y.pure ?_
    -- one node may have become several
    rw [postorderAll_append, postorderAll]
    exact ⟨List.forall_mem_append.mpr ⟨hh.1, hm.1⟩, List.forall_mem_append.mpr ⟨hh.2, hm.2⟩⟩

theorem Rewrites.otherwise (r : Rewrites y replace? finish P Q W) (o : Otherwise)
    (h : ∀ k ∈ o.postorder, P k) :
    y.always (o.rewriteM replace? finish) fun out =>
      (∀ k ∈ out.postorder, Q k) ∧ ∀ k ∈ o.postorder, W k := by
  match o with
  | .nothing =>
    rw [Otherwise.rewriteM]
    exact y.pure (by simp [Otherwise.postorder])
  | .elseIf loc test body next =>
    rw [Otherwise.postorder, List.forall_mem_append] at h
    rw [Otherwise.rewriteM]
    refine y.bind (r.all body h.1) fun body' hb => ?_
    refine y.bind (r.otherwise next h.2) fun next' hn => y.pure ?_
    rw [Otherwise.postorder, Otherwise.postorder]
    exact ⟨List.forall_mem_append.mpr ⟨hb.1, hn.1⟩, List.forall_mem_append.mpr ⟨hb.2, hn.2⟩⟩
  | .otherwise loc body =>
    rw [Otherwise.rewriteM]
    exact y.bind (r.all body h) fun body' hb => y.pure hb

theorem Rewrites.branches (r : Rewrites y replace? finish P Q W) (bs : List Branch)
    (h : ∀ k ∈ postorderBranches bs, P k) :
    y.always (rewriteBranchesM replace? finish bs) fun out =>
      (∀ k ∈ postorderBranches out, Q k) ∧ ∀ k ∈ postorderBranches bs, W k := by
  match bs with
  | [] =>
    rw [rewriteBranchesM]
    exact y.pure (by simp [postorderBranches])
  | .mk loc test body :: bs =>
    rw [postorderBranches, List.forall_mem_append] at h
    rw [rewriteBranchesM]
    refine y.bind (r.option body h.1) fun body' hb => ?_
    refine y.bind (r.branches bs h.2) fun bs' hbs => y.pure ?_
    rw [postorderBranches, postorderBranches]
    exact ⟨List.forall_mem_append.mpr ⟨hb.1, hbs.1⟩, List.forall_mem_append.mpr ⟨hb.2, hbs.2⟩⟩

theorem Rewrites.option (r : Rewrites y replace? finish P Q W) (o : Option (List Node))
    (h : ∀ k ∈ postorderOption o, P k) :
    y.always (rewriteOptionM replace? finish o) fun out =>
      (∀ k ∈ postorderOption out, Q k) ∧ ∀ k ∈ postorderOption o, W k := by
  match o with
  | none =>
    rw [rewriteOptionM]
    exact y.pure (by simp [postorderOption])
  | some ns =>
    rw [rewriteOptionM]
    exact y.bind (r.all ns h) fun ns' hn => y.pure hn

end

end Rewrite

/-! ## Two rewritings side by side -/

section Coupled

variable {m m' : Type → Type} [Monad m] [Monad m'] {c : Coupling m m'}
  {replace? : Node → Option (List Node)} {finish : Node → m (List Node)}
  {finish' : Node → m' (List Node)} {P : Node → Prop}

/-- Two ways to finish the nodes of a tree that are related for each of them. -/
structure Coupling.Finishes (c : Coupling m m') (finish : Node → m (List Node))
    (finish' : Node → m' (List Node)) (P : Node → Prop) : Prop where
  blind : Blind P
  finished : ∀ n, P n → c.rel (finish n) (finish' n)

namespace Coupling.Finishes

/-- A node whose parts are done is finished alike. -/
theorem rebuilt (r : c.Finishes finish finish' P) {n k : Node} (h : ∀ k ∈ n.postorder, P k)
    (hk : n.husk = k.husk) : c.rel (finish k) (finish' k) :=
  r.finished k (r.blind.rebuilt h hk)

theorem either {n : Node} {x : m (List Node)} {y : m' (List Node)} (h : c.rel x y) :
    c.rel
      (match replace? n with
        | some ns => Pure.pure ns
        | none => x)
      (match replace? n with
        | some ns => Pure.pure ns
        | none => y) := by
  cases replace? n with
  | none => exact h
  | some ns => exact c.pure ns

mutual

theorem node (r : c.Finishes finish finish' P) (n : Node) (h : ∀ k ∈ n.postorder, P k) :
    c.rel (n.rewriteM replace? finish) (n.rewriteM replace? finish') := by
  have hparts : ∀ k ∈ n.parts, P k := fun k hk => h k (Node.mem_postorder_of_mem_parts hk)
  rw [Node.rewriteM.eq_def, Node.rewriteM.eq_def]
  refine either ?_
  match n with
  | .group .. | .tag .. | .loop .. | .mixin .. | .namedBlock .. | .includes .. =>
    exact c.bind (r.all _ hparts) fun b => r.rebuilt h rfl
  | .conditional loc negate test body next =>
    rw [Node.parts, List.forall_mem_append] at hparts
    exact c.bind (r.all body hparts.1) fun b =>
      c.bind (r.otherwise next hparts.2) fun o => r.rebuilt h rfl
  | .switch loc subject branches =>
    exact c.bind (r.branches branches hparts) fun bs => r.rebuilt h rfl
  | .each loc value key source body ifEmpty =>
    rw [Node.parts, List.forall_mem_append] at hparts
    exact c.bind (r.all body hparts.1) fun b =>
      c.bind (r.option ifEmpty hparts.2) fun o => r.rebuilt h rfl
  | .call loc name args head content =>
    exact c.bind (r.option content hparts) fun o => r.rebuilt h rfl
  | .text .. | .output .. | .statements .. | .comment .. | .doctype .. | .slot _ | .rawInclude ..
  | .inherits .. | .yield _ | .filter .. => exact r.rebuilt h rfl

theorem all (r : c.Finishes finish finish' P) (ns : List Node) (h : ∀ k ∈ postorderAll ns, P k) :
    c.rel (rewriteAllM replace? finish ns) (rewriteAllM replace? finish' ns) := by
  match ns with
  | [] => exact c.pure []
  | n :: ns =>
    rw [postorderAll, List.forall_mem_append] at h
    rw [rewriteAllM, rewriteAllM]
    exact c.bind (r.node n h.1) fun here => c.bind (r.all ns h.2) fun more => c.pure _

theorem otherwise (r : c.Finishes finish finish' P) (o : Otherwise)
    (h : ∀ k ∈ o.postorder, P k) :
    c.rel (o.rewriteM replace? finish) (o.rewriteM replace? finish') := by
  match o with
  | .nothing => exact c.pure Otherwise.nothing
  | .elseIf loc test body next =>
    rw [Otherwise.postorder, List.forall_mem_append] at h
    rw [Otherwise.rewriteM, Otherwise.rewriteM]
    exact c.bind (r.all body h.1) fun b => c.bind (r.otherwise next h.2) fun o => c.pure _
  | .otherwise loc body =>
    rw [Otherwise.rewriteM, Otherwise.rewriteM]
    exact c.bind (r.all body h) fun b => c.pure _

theorem branches (r : c.Finishes finish finish' P) (bs : List Branch)
    (h : ∀ k ∈ postorderBranches bs, P k) :
    c.rel (rewriteBranchesM replace? finish bs) (rewriteBranchesM replace? finish' bs) := by
  match bs with
  | [] => exact c.pure []
  | .mk loc test body :: bs =>
    rw [postorderBranches, List.forall_mem_append] at h
    rw [rewriteBranchesM, rewriteBranchesM]
    exact c.bind (r.option body h.1) fun b => c.bind (r.branches bs h.2) fun more => c.pure _

theorem option (r : c.Finishes finish finish' P) (o : Option (List Node))
    (h : ∀ k ∈ postorderOption o, P k) :
    c.rel (rewriteOptionM replace? finish o) (rewriteOptionM replace? finish' o) := by
  match o with
  | none => exact c.pure none
  | some ns =>
    rw [rewriteOptionM, rewriteOptionM]
    exact c.bind (r.all ns h) fun ns => c.pure _

end

end Coupling.Finishes

end Coupled

/-! ## What is not rewritten -/

section Stays

variable {m : Type → Type} [Monad m] [LawfulMonad m] {replace? : Node → Option (List Node)}
  {finish : Node → m (List Node)}

/-- A node that a rewriting neither replaces nor changes. -/
def Stays (replace? : Node → Option (List Node)) (finish : Node → m (List Node)) (n : Node) :
    Prop :=
  replace? n = none ∧ finish n = pure [n]

mutual

theorem Node.rewriteM_eq_self (n : Node) (h : ∀ k ∈ n.postorder, Stays replace? finish k) :
    n.rewriteM replace? finish = pure [n] := by
  obtain ⟨hr, hf⟩ := h n n.mem_postorder_self
  have hparts : ∀ k ∈ n.parts, Stays replace? finish k :=
    fun k hk => h k (Node.mem_postorder_of_mem_parts hk)
  match n with
  | .group _ body | .tag _ _ _ _ _ body | .loop _ _ body | .mixin _ _ _ body
  | .namedBlock _ _ _ body | .includes _ _ body =>
    rw [Node.rewriteM, hr]
    dsimp only
    rw [rewriteAllM_eq_self body hparts, pure_bind, hf]
  | .conditional loc negate test body next =>
    rw [Node.parts, List.forall_mem_append] at hparts
    rw [Node.rewriteM, hr]
    dsimp only
    rw [rewriteAllM_eq_self body hparts.1, pure_bind, next.rewriteM_eq_self hparts.2, pure_bind, hf]
  | .switch loc subject branches =>
    rw [Node.rewriteM, hr]
    dsimp only
    rw [rewriteBranchesM_eq_self branches hparts, pure_bind, hf]
  | .each loc value key source body ifEmpty =>
    rw [Node.parts, List.forall_mem_append] at hparts
    rw [Node.rewriteM, hr]
    dsimp only
    rw [rewriteAllM_eq_self body hparts.1, pure_bind, rewriteOptionM_eq_self ifEmpty hparts.2,
      pure_bind, hf]
  | .call loc name args head content =>
    rw [Node.rewriteM, hr]
    dsimp only
    rw [rewriteOptionM_eq_self content hparts, pure_bind, hf]
  | .text .. | .output .. | .statements .. | .comment .. | .doctype .. | .slot _ | .rawInclude ..
  | .inherits .. | .yield _ | .filter .. =>
    rw [Node.rewriteM]
    · rw [hr]
      exact hf
    all_goals simp

theorem rewriteAllM_eq_self (ns : List Node) (h : ∀ k ∈ postorderAll ns, Stays replace? finish k) :
    rewriteAllM replace? finish ns = pure ns := by
  match ns with
  | [] => rw [rewriteAllM]
  | n :: ns =>
    rw [postorderAll, List.forall_mem_append] at h
    rw [rewriteAllM, n.rewriteM_eq_self h.1, pure_bind, rewriteAllM_eq_self ns h.2, pure_bind]
    rfl

theorem Otherwise.rewriteM_eq_self (o : Otherwise)
    (h : ∀ k ∈ o.postorder, Stays replace? finish k) : o.rewriteM replace? finish = pure o := by
  match o with
  | .nothing => rw [Otherwise.rewriteM]
  | .elseIf loc test body next =>
    rw [Otherwise.postorder, List.forall_mem_append] at h
    rw [Otherwise.rewriteM, rewriteAllM_eq_self body h.1, pure_bind, next.rewriteM_eq_self h.2,
      pure_bind]
  | .otherwise loc body =>
    rw [Otherwise.rewriteM, rewriteAllM_eq_self body h, pure_bind]

theorem rewriteBranchesM_eq_self (bs : List Branch)
    (h : ∀ k ∈ postorderBranches bs, Stays replace? finish k) :
    rewriteBranchesM replace? finish bs = pure bs := by
  match bs with
  | [] => rw [rewriteBranchesM]
  | .mk loc test body :: bs =>
    rw [postorderBranches, List.forall_mem_append] at h
    rw [rewriteBranchesM, rewriteOptionM_eq_self body h.1, pure_bind,
      rewriteBranchesM_eq_self bs h.2, pure_bind]

theorem rewriteOptionM_eq_self (o : Option (List Node))
    (h : ∀ k ∈ postorderOption o, Stays replace? finish k) :
    rewriteOptionM replace? finish o = pure o := by
  match o with
  | none => rw [rewriteOptionM]
  | some ns => rw [rewriteOptionM, rewriteAllM_eq_self ns h, pure_bind]

end

end Stays

theorem rewriteAll_eq_self {replace? : Node → Option (List Node)} {finish : Node → List Node}
    {ns : List Node} (h : ∀ k ∈ postorderAll ns, replace? k = none ∧ finish k = [k]) :
    rewriteAll replace? finish ns = ns := by
  have hstays : ∀ k ∈ postorderAll ns,
      Stays replace? (fun n => (pure (finish n) : Id (List Node))) k := by
    intro k hk
    obtain ⟨hr, hf⟩ := h k hk
    exact ⟨hr, congrArg pure hf⟩
  rw [rewriteAll, rewriteAllM_eq_self ns hstays]
  rfl

/-! ## Plain rewritings -/

/-- A plain rewriting keeps a property if what it makes of each node does. -/
theorem forall_rewriteAll {replace? : Node → Option (List Node)} {finish : Node → List Node}
    {P Q : Node → Prop} (hp : Blind P)
    (replaced : ∀ n ns, replace? n = some ns → (∀ k ∈ n.postorder, P k) →
      ∀ k ∈ postorderAll ns, Q k)
    (finished : ∀ n, P n → (∀ k ∈ n.parts, Q k) → ∀ k ∈ postorderAll (finish n), Q k)
    {ns : List Node} (h : ∀ k ∈ postorderAll ns, P k) :
    ∀ k ∈ postorderAll (rewriteAll replace? finish ns), Q k := by
  -- nothing is asked of the nodes before, so `W` is trivial
  have r : Rewrites Answering.ofId replace? (fun n => pure (finish n)) P Q fun _ => True :=
    { before := hp
      itself := fun _ _ _ _ => trivial
      replaced := fun n ns hr hn => ⟨replaced n ns hr hn, fun _ _ => trivial⟩
      finished := fun n hn hq => ⟨finished n hn hq, trivial⟩ }
  exact (r.all ns h).1

/-- A node that stands alone is its parts and itself. -/
theorem forall_postorder_singleton {P : Node → Prop} {n : Node} (hn : P n)
    (hp : ∀ k ∈ n.parts, P k) : ∀ k ∈ postorderAll [n], P k := by
  intro k hk
  rw [postorderAll, postorderAll, List.append_nil, Node.postorder_eq, List.mem_append,
    List.mem_singleton] at hk
  rcases hk with hk | rfl
  · exact hp k hk
  · exact hn

end PugTemplate
