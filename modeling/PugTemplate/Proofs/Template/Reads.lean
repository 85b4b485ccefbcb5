import PugTemplate.Proofs.Expr.Eval
import PugTemplate.Proofs.Render.Walk
import PugTemplate.Proofs.Tree.Everywhere
import PugTemplate.Template.Variables

/-!
# The names a template reads

`Node.reads` follows the rendering: a name is read from the data where no statement that surely ran
before binds it. What a branch or a loop binds is not sure behind it, and a mixin starts from its
parameters. The survey, which follows the source, leaves out no such name but those that a statement
binds somewhere.
-/

namespace PugTemplate

/-- The names an expression reads besides those that are bound. -/
def Expr.free (bound : List String) (e : Expr) : List String :=
  e.occurrences.filter (· ∉ bound)

theorem Expr.mem_free {bound : List String} {e : Expr} {x : String} :
    x ∈ e.free bound ↔ x ∈ e.occurrences ∧ x ∉ bound := by
  simp [free]

/-- The expressions of a name. -/
def NameSource.exprs : NameSource → List Expr
  | .fixed _ => []
  | .computed e => [e]

def Head.exprs (h : Head) : List Expr :=
  h.attributes.map (·.value) ++ h.spreads

/-- The names that statements read; each binds its own for those behind it. -/
def statementReads (bound : List String) : List Statement → List String
  | [] => []
  | .declare name e :: rest => e.free bound ++ statementReads (name :: bound) rest
  | .assign name op e :: rest =>
    -- `+=` and `-=` read the name they bind
    e.free bound ++ ((if op = .set ∨ name ∈ bound then [] else [name]) ++
      statementReads (name :: bound) rest)

mutual

/-- The names that are bound for sure behind a node. -/
def Node.binds : Node → List String
  | .group _ body | .namedBlock _ _ _ body | .tag _ _ _ _ _ body => bindsAll body
  | .text _ _ segs => bindsSegments segs
  | .statements _ list => list.map Statement.target
  | .conditional _ _ _ body next => (bindsAll body).filter (· ∈ next.binds)
  | _ => []

def bindsAll : List Node → List String
  | [] => []
  | n :: ns => bindsAll ns ++ n.binds

def bindsSegments : List Segment → List String
  | [] => []
  | .tag n :: rest => bindsSegments rest ++ n.binds
  | _ :: rest => bindsSegments rest

def Otherwise.binds : Otherwise → List String
  | .nothing => []
  | .elseIf _ _ body next => (bindsAll body).filter (· ∈ next.binds)
  | .otherwise _ body => bindsAll body

end

mutual

/-- The names that a node may read while no others than some are bound for sure. -/
def Node.reads (bound : List String) : Node → List String
  | .group _ body | .namedBlock _ _ _ body => readsAll bound body
  | .tag _ name head _ _ body =>
    name.exprs.flatMap (·.free bound) ++ (head.exprs.flatMap (·.free bound) ++ readsAll bound body)
  | .text _ _ segs => readsSegments bound segs
  | .output _ e _ => e.free bound
  | .statements _ list => statementReads bound list
  | .conditional _ _ test body next =>
    test.free bound ++ (readsAll bound body ++ next.reads bound)
  | .switch _ subject branches => subject.free bound ++ readsBranches bound branches
  | .each _ value key source body ifEmpty =>
    source.free bound ++
      (readsAll (value :: key.toList ++ bound) body ++ readsOption bound ifEmpty)
  | .loop _ test body => test.free bound ++ readsAll bound body
  | .call _ name args head content =>
    name.exprs.flatMap (·.free bound) ++ (args.flatMap (·.free bound) ++
      (head.exprs.flatMap (·.free bound) ++ readsOption bound content))
  | .filter _ _ attributes _ => (attributes.map (·.value)).flatMap (·.free bound)
  | .comment .. | .doctype .. | .mixin .. | .slot _ | .includes .. | .rawInclude .. | .inherits ..
  | .yield _ => []

def readsAll (bound : List String) : List Node → List String
  | [] => []
  | n :: ns => n.reads bound ++ readsAll (n.binds ++ bound) ns

def readsSegments (bound : List String) : List Segment → List String
  | [] => []
  | .literal _ :: rest => readsSegments bound rest
  | .escaped e :: rest | .raw e :: rest => e.free bound ++ readsSegments bound rest
  | .tag n :: rest => n.reads bound ++ readsSegments (n.binds ++ bound) rest

def Otherwise.reads (bound : List String) : Otherwise → List String
  | .nothing => []
  | .elseIf _ test body next => test.free bound ++ (readsAll bound body ++ next.reads bound)
  | .otherwise _ body => readsAll bound body

def readsBranches (bound : List String) : List Branch → List String
  | [] => []
  | .mk _ none body :: rest => readsOption bound body ++ readsBranches bound rest
  | .mk _ (some test) body :: rest =>
    test.free bound ++ (readsOption bound body ++ readsBranches bound rest)

def readsOption (bound : List String) : Option (List Node) → List String
  | none => []
  | some ns => readsAll bound ns

end

/-- What a branch reads, in its test or its body, the branches read. -/
theorem Branch.reads_subset {bound : List String} {bs : List Branch} {b : Branch} (hb : b ∈ bs) :
    b.test.toList.flatMap (·.free bound) ++ readsOption bound b.body ⊆ readsBranches bound bs := by
  induction bs with
  | nil => exact absurd hb List.not_mem_nil
  | cons c bs ih =>
    obtain ⟨loc, test, body⟩ := c
    rcases List.mem_cons.mp hb with rfl | hrest
    · cases test with
      | none => simp [readsBranches, Branch.test, Branch.body]
      | some e => simp [readsBranches, Branch.test, Branch.body, ← List.append_assoc]
    · have hmore := ih hrest
      cases test with
      | none => exact fun x hx => List.mem_append_right _ (hmore hx)
      | some e =>
        rw [readsBranches, ← List.append_assoc]
        exact fun x hx => List.mem_append_right _ (hmore hx)

namespace Mixin

/-- The names that the body of a mixin finds bound. -/
def bound (m : Mixin) : List String :=
  m.params.map Param.name ++ ["attributes", "block"]

/-- The names a mixin reads. Where its fallbacks stand, nothing is bound for sure. -/
def reads (m : Mixin) : List String :=
  (m.params.filterMap Param.fallback).flatMap (·.free []) ++ readsAll m.bound m.body

end Mixin

/-- The names the statements of a node bind. -/
def Node.targets : Node → List String
  | .statements _ list => list.map Statement.target
  | _ => []

namespace Linked

/-- The names that a run may read from the data. -/
def reads (l : Linked) : List String :=
  readsAll [] l.nodes ++ l.mixins.flatMap fun e => e.2.reads

/-- The names that a statement binds somewhere. -/
def targets (l : Linked) : List String :=
  l.everywhere.flatMap Node.targets

end Linked

/-! ## The survey finds what is read -/

namespace Survey

section

variable (S : String → Prop)

/-- All that counts as bound is, or is bound by a statement somewhere. -/
def Covers (bound : List String) (s : Survey) : Prop :=
  ∀ x ∈ s.bound, x ∈ bound ∨ S x

/-- A survey goes on: what was found stays, and only statements bind more. -/
structure Extends (s t : Survey) : Prop where
  found : s.found ⊆ t.found
  bound : ∀ x ∈ t.bound, x ∈ s.bound ∨ S x

/-- Between two stages of a survey, names are found unless a statement binds them somewhere. -/
def Sees (bound names : List String) (s t : Survey) : Prop :=
  s.Covers S bound → Extends S s t ∧ ∀ x ∈ names, x ∈ t.found ∨ S x

end

variable {S : String → Prop} {bound names : List String} {s t u : Survey}

theorem Extends.refl (s : Survey) : Extends S s s :=
  ⟨fun _ h => h, fun _ h => Or.inl h⟩

theorem Extends.trans (h : Extends S s t) (h' : Extends S t u) : Extends S s u :=
  ⟨fun _ hx => h'.found (h.found hx), fun x hx => (h'.bound x hx).elim (h.bound x) Or.inr⟩

theorem Extends.covers (h : Extends S s t) (hs : s.Covers S bound) : t.Covers S bound :=
  fun x hx => (h.bound x hx).elim (hs x) Or.inr

namespace Sees

theorem nil (s : Survey) : Sees S bound [] s s :=
  fun _ => ⟨.refl s, by simp⟩

/-- One stretch after another; in the second, more names may be bound for sure. -/
theorem append (more : List String) {others : List String} (h : Sees S bound names s t)
    (h' : Sees S (more ++ bound) others t u) : Sees S bound (names ++ others) s u := by
  intro hs
  have ht := h hs
  have hu := h' fun x hx => (ht.1.covers hs x hx).imp (List.mem_append_right _) id
  refine ⟨ht.1.trans hu.1, List.forall_mem_append.mpr ⟨fun x hx => ?_, hu.2⟩⟩
  exact (ht.2 x hx).imp (hu.1.found ·) id

theorem see (x : String) :
    Sees S bound (if x ∈ bound then [] else [x]) s (s.see x) := by
  intro hs
  unfold Survey.see
  split
  -- the survey passes over a name that it has found or counts as bound
  next h =>
    refine ⟨.refl s, fun y hy => ?_⟩
    split at hy
    · exact absurd hy List.not_mem_nil
    next hx =>
      rw [List.mem_singleton.mp hy]
      rcases h with h | h
      · exact Or.inr ((hs x h).resolve_left hx)
      · exact Or.inl h
  next =>
    refine ⟨⟨List.subset_append_left _ _, fun _ h => Or.inl h⟩, fun y hy => ?_⟩
    split at hy
    · exact absurd hy List.not_mem_nil
    · exact Or.inl (List.mem_append_right _ hy)

theorem mono {others : List String} (h : Sees S bound names s t) (ho : others ⊆ names) :
    Sees S bound others s t :=
  fun hs => ⟨(h hs).1, fun x hx => (h hs).2 x (ho hx)⟩

theorem expr (e : Expr) : Sees S bound (e.free bound) s (s.expr e) := by
  -- name by name, in the order in which the survey meets them
  have hfold : ∀ (xs : List String) (s : Survey),
      Sees S bound (xs.filter (· ∉ bound)) s (xs.foldl Survey.see s) := by
    intro xs
    induction xs with
    | nil => exact fun s => nil s
    | cons x xs ih =>
      intro s
      refine ((see x).append [] (ih (s.see x))).mono fun y hy => ?_
      grind
  refine (hfold e.identifiers s).mono fun x hx => ?_
  rw [Expr.mem_free] at hx
  simp [Expr.mem_identifiers, hx.1, hx.2]

theorem exprs (es : List Expr) :
    Sees S bound (es.flatMap (·.free bound)) s (s.exprs es) := by
  induction es generalizing s with
  | nil => exact nil s
  | cons e es ih => exact (expr e).append [] ih

theorem source (name : NameSource) :
    Sees S bound (name.exprs.flatMap (·.free bound)) s (s.source name) := by
  cases name with
  | fixed _ => exact nil s
  | computed e =>
    rw [NameSource.exprs, List.flatMap_cons, List.flatMap_nil, List.append_nil]
    exact expr e

theorem attributes (as : List Attribute) :
    Sees S bound ((as.map (·.value)).flatMap (·.free bound)) s (s.attributes as) :=
  exprs _

theorem head (h : Head) : Sees S bound (h.exprs.flatMap (·.free bound)) s (s.head h) := by
  rw [Head.exprs, List.flatMap_append]
  exact (exprs _).append [] (exprs _)

/-- What is bound by a statement is bound somewhere. -/
theorem bind {x : String} (hx : S x) (h : Sees S bound names s t) :
    Sees S bound names s (t.bind [x]) := by
  intro hs
  refine ⟨(h hs).1.trans ⟨fun _ h => h, fun y hy => ?_⟩, (h hs).2⟩
  rcases List.mem_cons.mp hy with rfl | hy
  · exact Or.inr hx
  · exact Or.inl hy

theorem statements (list : List Statement) (hl : ∀ x ∈ list.map Statement.target, S x) :
    Sees S bound (statementReads bound list) s (s.statements list) := by
  induction list generalizing s bound with
  | nil => exact nil s
  | cons st list ih =>
    rw [List.map_cons, List.forall_mem_cons] at hl
    cases st with
    | declare name e => exact (bind hl.1 (expr e)).append [name] (ih hl.2)
    | assign name op e =>
      rw [statementReads, ← List.append_assoc]
      refine append [name] ?_ (ih hl.2)
      cases op with
      | set =>
        rw [if_pos (Or.inl rfl), List.append_nil]
        exact bind hl.1 (expr e)
      | add | sub =>
        simp only [reduceCtorEq, false_or]
        exact bind hl.1 ((expr e).append [] (see name))

/-- What is bound inside, for sure, is not bound behind. -/
theorem inside {inner : List String} (h : Sees S (inner ++ bound) names (s.bind inner) t) :
    Sees S bound names s (s.leave t) := by
  intro hs
  have hinner : (s.bind inner).Covers S (inner ++ bound) := by
    intro x hx
    rcases List.mem_append.mp hx with hx | hx
    · exact Or.inl (List.mem_append_left _ hx)
    · exact (hs x hx).imp (List.mem_append_right _) id
  obtain ⟨hext, hfound⟩ := h hinner
  -- what was found stays found, and what counts as bound is what did before
  exact ⟨⟨hext.found, fun _ h => Or.inl h⟩, hfound⟩

mutual

theorem node (n : Node) (hn : ∀ m ∈ n.everywhere, ∀ x ∈ m.targets, S x) (bound : List String)
    (s : Survey) : Sees S bound (n.reads bound) s (s.node n) := by
  match n with
  | .group _ body | .namedBlock _ _ _ body =>
    rw [Node.everywhere, List.forall_mem_cons] at hn
    exact nodes body hn.2 bound s
  | .tag _ name h _ _ body =>
    rw [Node.everywhere, List.forall_mem_cons] at hn
    exact (source name).append [] ((head h).append [] (nodes body hn.2 bound _))
  | .text _ _ segs =>
    rw [Node.everywhere, List.forall_mem_cons] at hn
    exact segments segs hn.2 bound s
  | .output _ e _ => exact expr e
  | .statements _ list =>
    exact statements list (hn _ (Node.mem_everywhere_self _))
  | .conditional _ _ test body next =>
    rw [Node.everywhere, List.forall_mem_cons, List.forall_mem_append] at hn
    exact (expr test).append []
      ((nodes body hn.2.1 bound _).append [] (otherwise next hn.2.2 bound _))
  | .switch _ subject bs =>
    rw [Node.everywhere, List.forall_mem_cons] at hn
    exact (expr subject).append [] (branches bs hn.2 bound _)
  | .each _ value key e body ifEmpty =>
    rw [Node.everywhere, List.forall_mem_cons, List.forall_mem_append] at hn
    exact (expr e).append []
      ((inside (nodes body hn.2.1 _ _)).append [] (option ifEmpty hn.2.2 bound _))
  | .loop _ test body =>
    rw [Node.everywhere, List.forall_mem_cons] at hn
    exact (expr test).append [] (nodes body hn.2 bound _)
  | .call _ name args h content =>
    rw [Node.everywhere, List.forall_mem_cons] at hn
    exact (source name).append [] ((exprs args).append []
      ((head h).append [] (option content hn.2 bound _)))
  | .filter _ _ as _ => exact attributes as
  | .comment .. | .doctype .. | .mixin .. | .slot _ | .includes .. | .rawInclude .. | .inherits ..
  | .yield _ => exact nil s

theorem nodes (ns : List Node) (hn : ∀ m ∈ everywhereAll ns, ∀ x ∈ m.targets, S x)
    (bound : List String) (s : Survey) : Sees S bound (readsAll bound ns) s (s.nodes ns) := by
  match ns with
  | [] => exact nil s
  | n :: ns =>
    rw [everywhereAll, List.forall_mem_append] at hn
    exact (node n hn.1 bound s).append n.binds (nodes ns hn.2 _ _)

theorem segments (segs : List Segment)
    (hn : ∀ m ∈ everywhereSegments segs, ∀ x ∈ m.targets, S x) (bound : List String)
    (s : Survey) : Sees S bound (readsSegments bound segs) s (s.segments segs) := by
  match segs with
  | [] => exact nil s
  | .literal _ :: rest => exact segments rest hn bound s
  | .escaped e :: rest | .raw e :: rest => exact (expr e).append [] (segments rest hn bound _)
  | .tag n :: rest =>
    rw [everywhereSegments, List.forall_mem_append] at hn
    exact (node n hn.1 bound s).append n.binds (segments rest hn.2 _ _)

theorem otherwise (o : Otherwise) (hn : ∀ m ∈ o.everywhere, ∀ x ∈ m.targets, S x)
    (bound : List String) (s : Survey) : Sees S bound (o.reads bound) s (s.otherwise o) := by
  match o with
  | .nothing => exact nil s
  | .elseIf _ test body next =>
    rw [Otherwise.everywhere, List.forall_mem_append] at hn
    exact (expr test).append []
      ((nodes body hn.1 bound _).append [] (otherwise next hn.2 bound _))
  | .otherwise _ body => exact nodes body hn bound s

theorem branches (bs : List Branch) (hn : ∀ m ∈ everywhereBranches bs, ∀ x ∈ m.targets, S x)
    (bound : List String) (s : Survey) :
    Sees S bound (readsBranches bound bs) s (s.branches bs) := by
  match bs with
  | [] => exact nil s
  | .mk _ none body :: rest =>
    rw [everywhereBranches, List.forall_mem_append] at hn
    exact (option body hn.1 bound s).append [] (branches rest hn.2 bound _)
  | .mk _ (some test) body :: rest =>
    rw [everywhereBranches, List.forall_mem_append] at hn
    exact (expr test).append []
      ((option body hn.1 bound _).append [] (branches rest hn.2 bound _))

theorem option (o : Option (List Node)) (hn : ∀ m ∈ everywhereOption o, ∀ x ∈ m.targets, S x)
    (bound : List String) (s : Survey) :
    Sees S bound (readsOption bound o) s (s.option o) := by
  match o with
  | none => exact nil s
  | some ns => exact nodes ns hn bound s

end

theorem mixin (m : Mixin) (hm : ∀ n ∈ everywhereAll m.body, ∀ x ∈ n.targets, S x) :
    Sees S [] m.reads s (s.mixin m) := by
  -- the fallbacks stand outside, where not even the parameters are bound
  refine (exprs _).append [] (@inside _ [] _ _ _ m.bound ?_)
  rw [List.append_nil]
  exact nodes m.body hm m.bound _

theorem mixins (ms : List Mixin)
    (hm : ∀ m ∈ ms, ∀ n ∈ everywhereAll m.body, ∀ x ∈ n.targets, S x) :
    Sees S [] (ms.flatMap Mixin.reads) s (ms.foldl Survey.mixin s) := by
  induction ms generalizing s with
  | nil => exact nil s
  | cons m ms ih =>
    rw [List.forall_mem_cons] at hm
    exact (mixin m hm.1).append [] (ih hm.2)

end Sees

end Survey

/-- What a run may read is found, unless a statement binds it somewhere. -/
theorem Linked.mem_variables_or_targets {l : Linked} {x : String} (hx : x ∈ l.reads) :
    x ∈ l.variables ∨ x ∈ l.targets := by
  have htargets : ∀ n ∈ l.everywhere, ∀ y ∈ n.targets, y ∈ l.targets :=
    fun n hn y hy => List.mem_flatMap.mpr ⟨n, hn, hy⟩
  have hnodes := Survey.Sees.nodes l.nodes
    (fun n hn => htargets n (List.mem_append_left _ hn)) [] {}
  have hbodies : ∀ m ∈ l.mixins.map (·.2), ∀ n ∈ everywhereAll m.body, ∀ y ∈ n.targets,
      y ∈ l.targets := by
    intro m hm n hn
    obtain ⟨e, he, rfl⟩ := List.mem_map.mp hm
    exact htargets n (List.mem_append_right _ (List.mem_flatMap.mpr ⟨e, he, hn⟩))
  have hmixins := Survey.Sees.mixins (s := Survey.nodes {} l.nodes) (l.mixins.map (·.2)) hbodies
  rw [List.flatMap_map] at hmixins
  -- the survey begins with nothing bound
  have hstart : Survey.Covers (· ∈ l.targets) [] {} := fun _ h => absurd h List.not_mem_nil
  exact ((hnodes.append [] hmixins) hstart).2 x hx

end PugTemplate
