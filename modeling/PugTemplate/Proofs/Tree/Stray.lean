import PugTemplate.Proofs.Tree.Everywhere
import PugTemplate.Proofs.Tree.Rewrite

/-!
# Bare blocks outside mixins

A bare block stands for the content of a call, so it belongs inside the body of a mixin. One that
stands anywhere else is stray. A text is in no body, whatever stands around it, because its tags are
read apart: a bare block in one of them is stray wherever the text stands.
-/

namespace PugTemplate

def Node.isSlot : Node → Bool
  | .slot _ => true
  | _ => false

mutual

/-- The stray blocks of a node that stands inside a mixin or outside. -/
def Node.strays (inMixin : Bool) : Node → List Node
  | .slot loc => if inMixin then [] else [.slot loc]
  | .group _ body | .tag _ _ _ _ _ body | .loop _ _ body | .namedBlock _ _ _ body
  | .includes _ _ body => straysAll inMixin body
  | .mixin _ _ _ body => straysAll true body
  | .text _ _ segments => (everywhereSegments segments).filter Node.isSlot
  | .conditional _ _ _ body next => straysAll inMixin body ++ next.strays inMixin
  | .switch _ _ branches => straysBranches inMixin branches
  | .each _ _ _ _ body ifEmpty => straysAll inMixin body ++ straysOption inMixin ifEmpty
  | .call _ _ _ _ content => straysOption inMixin content
  | _ => []

def straysAll (inMixin : Bool) : List Node → List Node
  | [] => []
  | n :: ns => n.strays inMixin ++ straysAll inMixin ns

def Otherwise.strays (inMixin : Bool) : Otherwise → List Node
  | .nothing => []
  | .elseIf _ _ body next => straysAll inMixin body ++ next.strays inMixin
  | .otherwise _ body => straysAll inMixin body

def straysBranches (inMixin : Bool) : List Branch → List Node
  | [] => []
  | .mk _ _ body :: bs => straysOption inMixin body ++ straysBranches inMixin bs

def straysOption (inMixin : Bool) : Option (List Node) → List Node
  | none => []
  | some ns => straysAll inMixin ns

end

variable {b : Bool}

@[simp] theorem straysAll_append (ns ms : List Node) :
    straysAll b (ns ++ ms) = straysAll b ns ++ straysAll b ms := by
  induction ns with
  | nil => rfl
  | cons n ns ih => rw [List.cons_append, straysAll, straysAll, ih, List.append_assoc]

@[simp] theorem straysAll_singleton (n : Node) : straysAll b [n] = n.strays b := by
  rw [straysAll, straysAll, List.append_nil]

theorem straysAll_eq_nil_iff {ns : List Node} : straysAll b ns = [] ↔ ∀ n ∈ ns, n.strays b = [] := by
  induction ns with
  | nil => simp [straysAll]
  | cons n ns ih => rw [straysAll, List.append_eq_nil_iff, ih, List.forall_mem_cons]

/-! ## Inside a mixin -/

mutual

/-- What is not stray outside mixins is not stray inside one either. -/
theorem Node.strays_mono {c : Bool} (hbc : b ≤ c) {n : Node} (h : n.strays b = []) : n.strays c = [] := by
  match n with
  | .slot _ =>
    cases b with
    | false => cases h
    | true => exact hbc rfl ▸ rfl
  | .group _ body | .tag _ _ _ _ _ body | .loop _ _ body | .namedBlock _ _ _ body
  | .includes _ _ body => exact @straysAll_mono _ hbc body h
  | .conditional _ _ _ body next =>
    obtain ⟨hbody, hnext⟩ := List.append_eq_nil_iff.mp h
    exact List.append_eq_nil_iff.mpr ⟨straysAll_mono hbc hbody, Otherwise.strays_mono hbc hnext⟩
  | .switch _ _ branches => exact @straysBranches_mono _ hbc branches h
  | .each _ _ _ _ body ifEmpty =>
    obtain ⟨hbody, hempty⟩ := List.append_eq_nil_iff.mp h
    exact List.append_eq_nil_iff.mpr ⟨straysAll_mono hbc hbody, straysOption_mono hbc hempty⟩
  | .call _ _ _ _ content => exact @straysOption_mono _ hbc content h
  -- the place does not matter
  | .mixin .. | .text .. | .output .. | .statements .. | .comment .. | .doctype .. | .rawInclude ..
  | .inherits .. | .yield _ | .filter .. => exact h

theorem straysAll_mono {c : Bool} (hbc : b ≤ c) {ns : List Node} (h : straysAll b ns = []) :
    straysAll c ns = [] := by
  match ns with
  | [] => rfl
  | n :: ns =>
    obtain ⟨hn, hns⟩ := List.append_eq_nil_iff.mp h
    exact List.append_eq_nil_iff.mpr ⟨Node.strays_mono hbc hn, straysAll_mono hbc hns⟩

theorem Otherwise.strays_mono {c : Bool} (hbc : b ≤ c) {o : Otherwise} (h : o.strays b = []) :
    o.strays c = [] := by
  match o with
  | .nothing => rfl
  | .elseIf _ _ body next =>
    obtain ⟨hbody, hnext⟩ := List.append_eq_nil_iff.mp h
    exact List.append_eq_nil_iff.mpr ⟨straysAll_mono hbc hbody, Otherwise.strays_mono hbc hnext⟩
  | .otherwise _ body => exact @straysAll_mono _ hbc body h

theorem straysBranches_mono {c : Bool} (hbc : b ≤ c) {bs : List Branch} (h : straysBranches b bs = []) :
    straysBranches c bs = [] := by
  match bs with
  | [] => rfl
  | .mk _ _ body :: bs =>
    obtain ⟨hbody, hbs⟩ := List.append_eq_nil_iff.mp h
    exact List.append_eq_nil_iff.mpr ⟨straysOption_mono hbc hbody, straysBranches_mono hbc hbs⟩

theorem straysOption_mono {c : Bool} (hbc : b ≤ c) {o : Option (List Node)} (h : straysOption b o = []) :
    straysOption c o = [] := by
  match o with
  | none => rfl
  | some ns => exact @straysAll_mono _ hbc ns h

end

/-! ## Trees without mixins -/

mutual

/-- Without mixins, all bare blocks are stray. -/
theorem Node.strays_eq_filter {n : Node} (h : ∀ k ∈ n.postorder, k.isMixin = false) :
    n.strays false = n.everywhere.filter Node.isSlot := by
  have hparts : ∀ k ∈ n.parts, k.isMixin = false :=
    fun k hk => h k (Node.mem_postorder_of_mem_parts hk)
  match n with
  | .group _ body | .tag _ _ _ _ _ body | .loop _ _ body | .namedBlock _ _ _ body
  | .includes _ _ body => exact straysAll_eq_filter hparts
  | .mixin .. => exact nomatch h _ (Node.mem_postorder_self _)
  | .conditional _ _ _ body next =>
    obtain ⟨hbody, hnext⟩ := List.forall_mem_append.mp hparts
    rw [Node.strays, straysAll_eq_filter hbody, Otherwise.strays_eq_filter hnext,
      ← List.filter_append]
    rfl
  | .switch _ _ branches => exact straysBranches_eq_filter hparts
  | .each _ _ _ _ body ifEmpty =>
    obtain ⟨hbody, hempty⟩ := List.forall_mem_append.mp hparts
    rw [Node.strays, straysAll_eq_filter hbody, straysOption_eq_filter hempty,
      ← List.filter_append]
    rfl
  | .call _ _ _ _ content => exact straysOption_eq_filter hparts
  | .slot _ | .text .. | .output .. | .statements .. | .comment .. | .doctype .. | .rawInclude ..
  | .inherits .. | .yield _ | .filter .. => rfl

theorem straysAll_eq_filter {ns : List Node} (h : ∀ k ∈ postorderAll ns, k.isMixin = false) :
    straysAll false ns = (everywhereAll ns).filter Node.isSlot := by
  match ns with
  | [] => rfl
  | n :: ns =>
    obtain ⟨hn, hns⟩ := List.forall_mem_append.mp h
    rw [straysAll, everywhereAll, List.filter_append, Node.strays_eq_filter hn,
      straysAll_eq_filter hns]

theorem Otherwise.strays_eq_filter {o : Otherwise} (h : ∀ k ∈ o.postorder, k.isMixin = false) :
    o.strays false = o.everywhere.filter Node.isSlot := by
  match o with
  | .nothing => rfl
  | .elseIf _ _ body next =>
    obtain ⟨hbody, hnext⟩ := List.forall_mem_append.mp h
    rw [Otherwise.strays, Otherwise.everywhere, List.filter_append, straysAll_eq_filter hbody,
      Otherwise.strays_eq_filter hnext]
  | .otherwise _ body => exact @straysAll_eq_filter body h

theorem straysBranches_eq_filter {bs : List Branch}
    (h : ∀ k ∈ postorderBranches bs, k.isMixin = false) :
    straysBranches false bs = (everywhereBranches bs).filter Node.isSlot := by
  match bs with
  | [] => rfl
  | .mk _ _ body :: bs =>
    obtain ⟨hbody, hbs⟩ := List.forall_mem_append.mp h
    rw [straysBranches, everywhereBranches, List.filter_append, straysOption_eq_filter hbody,
      straysBranches_eq_filter hbs]

theorem straysOption_eq_filter {o : Option (List Node)}
    (h : ∀ k ∈ postorderOption o, k.isMixin = false) :
    straysOption false o = (everywhereOption o).filter Node.isSlot := by
  match o with
  | none => rfl
  | some ns => exact @straysAll_eq_filter ns h

end

/-! ## Rewriting -/

section Rewrite

variable {m : Type → Type} [Monad m] (y : Answering m)

/-- A rewriting by which no block becomes stray, in a place and inside the mixins there. -/
structure Shelters (replace? : Node → Option (List Node)) (finish : Node → m (List Node))
    (b : Bool) : Prop where
  replaced : ∀ c, b ≤ c → ∀ n ns, replace? n = some ns → n.strays c = [] → straysAll c ns = []
  finished : ∀ c, b ≤ c → ∀ n, n.strays c = [] → y.always (finish n) fun ns => straysAll c ns = []

namespace Shelters

variable {y} {replace? : Node → Option (List Node)} {finish : Node → m (List Node)}

theorem either (r : Shelters y replace? finish b) {c : Bool} (hbc : b ≤ c) {n : Node} {x : m (List Node)}
    (h : n.strays c = []) (hx : y.always x fun ns => straysAll c ns = []) :
    y.always
      (match replace? n with
      | some ns => pure ns
      | none => x)
      fun ns => straysAll c ns = [] := by
  cases hr : replace? n with
  | none => exact hx
  | some ns => exact y.pure (r.replaced c hbc n ns hr h)

mutual

theorem node (r : Shelters y replace? finish b) {c : Bool} (hbc : b ≤ c) (n : Node) (h : n.strays c = []) :
    y.always (n.rewriteM replace? finish) fun ns => straysAll c ns = [] := by
  rw [Node.rewriteM.eq_def]
  refine r.either hbc h ?_
  match n with
  | .group loc body => exact y.bind (r.all hbc body h) fun _ hb => r.finished c hbc (.group loc _) hb
  | .tag loc name head selfClosing textOnly body =>
    exact y.bind (r.all hbc body h) fun _ hb =>
      r.finished c hbc (.tag loc name head selfClosing textOnly _) hb
  | .loop loc test body =>
    exact y.bind (r.all hbc body h) fun _ hb => r.finished c hbc (.loop loc test _) hb
  -- from here on inside a mixin
  | .mixin loc name params body =>
    exact y.bind (r.all (Bool.le_true b) body h) fun _ hb =>
      r.finished c hbc (.mixin loc name params _) hb
  | .namedBlock loc name mode body =>
    exact y.bind (r.all hbc body h) fun _ hb => r.finished c hbc (.namedBlock loc name mode _) hb
  | .includes loc path content =>
    exact y.bind (r.all hbc content h) fun _ hb => r.finished c hbc (.includes loc path _) hb
  | .conditional loc negate test body next =>
    obtain ⟨hbody, hnext⟩ := List.append_eq_nil_iff.mp h
    refine y.bind (r.all hbc body hbody) fun _ hb => ?_
    refine y.bind (r.otherwise hbc next hnext) fun _ hn => ?_
    exact r.finished c hbc (.conditional loc negate test _ _) (List.append_eq_nil_iff.mpr ⟨hb, hn⟩)
  | .switch loc subject branches =>
    exact y.bind (r.branches hbc branches h) fun _ hb => r.finished c hbc (.switch loc subject _) hb
  | .each loc value key source body ifEmpty =>
    obtain ⟨hbody, hempty⟩ := List.append_eq_nil_iff.mp h
    refine y.bind (r.all hbc body hbody) fun _ hb => ?_
    refine y.bind (r.option hbc ifEmpty hempty) fun _ he => ?_
    exact r.finished c hbc (.each loc value key source _ _) (List.append_eq_nil_iff.mpr ⟨hb, he⟩)
  | .call loc name args head content =>
    exact y.bind (r.option hbc content h) fun _ hb => r.finished c hbc (.call loc name args head _) hb
  | .text .. | .output .. | .statements .. | .comment .. | .doctype .. | .slot _ | .rawInclude ..
  | .inherits .. | .yield _ | .filter .. => exact r.finished c hbc _ h

theorem all (r : Shelters y replace? finish b) {c : Bool} (hbc : b ≤ c) (ns : List Node)
    (h : straysAll c ns = []) :
    y.always (rewriteAllM replace? finish ns) fun out => straysAll c out = [] := by
  match ns with
  | [] => exact y.pure rfl
  | n :: ns =>
    obtain ⟨hn, hns⟩ := List.append_eq_nil_iff.mp h
    rw [rewriteAllM]
    refine y.bind (r.node hbc n hn) fun here hh => y.bind (r.all hbc ns hns) fun more hm => ?_
    refine y.pure ?_
    rw [straysAll_append, hh, hm, List.append_nil]

theorem otherwise (r : Shelters y replace? finish b) {c : Bool} (hbc : b ≤ c) (o : Otherwise)
    (h : o.strays c = []) :
    y.always (o.rewriteM replace? finish) fun out => out.strays c = [] := by
  match o with
  | .nothing => exact y.pure rfl
  | .elseIf loc test body next =>
    obtain ⟨hbody, hnext⟩ := List.append_eq_nil_iff.mp h
    rw [Otherwise.rewriteM]
    refine y.bind (r.all hbc body hbody) fun _ hb => y.bind (r.otherwise hbc next hnext) fun _ hn => ?_
    exact y.pure (List.append_eq_nil_iff.mpr ⟨hb, hn⟩)
  | .otherwise loc body =>
    rw [Otherwise.rewriteM]
    exact y.bind (r.all hbc body h) fun _ hb => y.pure hb

theorem branches (r : Shelters y replace? finish b) {c : Bool} (hbc : b ≤ c) (bs : List Branch)
    (h : straysBranches c bs = []) :
    y.always (rewriteBranchesM replace? finish bs) fun out => straysBranches c out = [] := by
  match bs with
  | [] => exact y.pure rfl
  | .mk loc test body :: bs =>
    obtain ⟨hbody, hbs⟩ := List.append_eq_nil_iff.mp h
    rw [rewriteBranchesM]
    refine y.bind (r.option hbc body hbody) fun _ hb => y.bind (r.branches hbc bs hbs) fun _ hm => ?_
    exact y.pure (List.append_eq_nil_iff.mpr ⟨hb, hm⟩)

theorem option (r : Shelters y replace? finish b) {c : Bool} (hbc : b ≤ c) (o : Option (List Node))
    (h : straysOption c o = []) :
    y.always (rewriteOptionM replace? finish o) fun out => straysOption c out = [] := by
  match o with
  | none => exact y.pure rfl
  | some ns =>
    rw [rewriteOptionM]
    exact y.bind (r.all hbc ns h) fun _ hb => y.pure hb

end

end Shelters

end Rewrite

/-- A plain rewriting by which no block becomes stray. -/
theorem straysAll_rewriteAll {replace? : Node → Option (List Node)} {finish : Node → List Node}
    (replaced : ∀ c, b ≤ c → ∀ n ns, replace? n = some ns → n.strays c = [] → straysAll c ns = [])
    (finished : ∀ c, b ≤ c → ∀ n, n.strays c = [] → straysAll c (finish n) = []) {ns : List Node}
    (h : straysAll b ns = []) : straysAll b (rewriteAll replace? finish ns) = [] :=
  Shelters.all (y := .ofId) ⟨replaced, finished⟩ (Bool.le_refl b) ns h

end PugTemplate
