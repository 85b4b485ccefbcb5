import Mathlib.Logic.Relation
import PugTemplate.Proofs.Link.Failure

/-!
# Circular references

While a template is linked, its path is on the stack together with the paths that led to it. So the
stack is always a chain of references from the root: one that comes by a path twice is refused, and
no other is. As each path of the set can be put on the stack once, the chains are short.
-/

namespace PugTemplate

open Relation

/-! ## The graph of references -/

section Graph

variable (set : TemplateSet) (options : Options) (root : String) (nodes : List Node)

/-- The tree that a path stands for: the one to be linked at the root, elsewhere that of the source
that the path leads to. -/
def treeAt? (path : String) : Option (List Node) :=
  if path = root then some nodes
  else (set.fetch? path).bind fun source => (parseSource options source).toOption

/-- Whether a template refers to another one that is to be linked in turn; text is not looked at. -/
def Refers (here there : String) : Prop :=
  ∃ ns n target, treeAt? set options root nodes here = some ns ∧ n ∈ postorderAll ns ∧
    n.template? = some target ∧ resolvePath options.basedir here target = there

/-- A chain of references from the root comes by a path twice. -/
def OnCycle (path : String) : Prop :=
  ReflTransGen (Refers set options root nodes) root path ∧
    TransGen (Refers set options root nodes) path path

end Graph

variable {set : TemplateSet} {options : Options} {root : String} {nodes : List Node}

@[simp] theorem treeAt?_root : treeAt? set options root nodes root = some nodes :=
  if_pos rfl

theorem treeAt?_eq_some {path source : String} {parsed : List Node} (hne : path ≠ root)
    (hf : set.fetch? path = some source) (hp : parseSource options source = .ok parsed) :
    treeAt? set options root nodes path = some parsed := by
  rw [treeAt?, if_neg hne, hf, Option.bind_some, hp]
  rfl

namespace Linking

/-! ## A run that succeeds walks no circle -/

/-- A template is linked, with success, while a stack that its path and the root's are on is given. -/
def Visits (set : TemplateSet) (options : Options) (root : String) (nodes : List Node)
    (stack : List String) (path : String) : Prop :=
  path ∈ stack ∧ root ∈ stack ∧ ∃ ns out, treeAt? set options root nodes path = some ns ∧
    linkTree set options stack path ns = .ok out

theorem Visits.follow {stack : List String} {path there : String}
    (hv : Visits set options root nodes stack path) (hr : Refers set options root nodes path there) :
    there ∉ stack ∧ Visits set options root nodes (there :: stack) there := by
  obtain ⟨-, hroot, ns, out, hns, ho⟩ := hv
  obtain ⟨ns', n, target, hns', hn, ht, rfl⟩ := hr
  cases hns.symm.trans hns'
  obtain ⟨hnew, source, parsed, hf, hp, out', ho'⟩ := exists_linkTree_of_ok ho hn ht
  have hne : resolvePath options.basedir path target ≠ root := fun he => hnew (he ▸ hroot)
  exact ⟨hnew, List.mem_cons_self, List.mem_cons_of_mem _ hroot, parsed, out',
    treeAt?_eq_some hne hf hp, ho'⟩

/-- The templates that a linked one leads to are linked as well, with their way on the stack. -/
theorem Visits.reach {stack : List String} {path there : String}
    (hv : Visits set options root nodes stack path)
    (hr : ReflTransGen (Refers set options root nodes) path there) :
    ∃ stack', Visits set options root nodes stack' there := by
  induction hr with
  | refl => exact ⟨stack, hv⟩
  | tail _ hstep ih =>
    obtain ⟨stack', hv'⟩ := ih
    exact ⟨_, (hv'.follow hstep).2⟩

/-- No chain of references leads back to the stack that it started with. -/
theorem Visits.eq_or_not_mem {stack : List String} {path there : String}
    (hv : Visits set options root nodes stack path)
    (hr : ReflTransGen (Refers set options root nodes) path there) :
    there = path ∨ there ∉ stack := by
  -- from the head of the chain, since it is there that each step adds to the stack
  induction hr using ReflTransGen.head_induction_on generalizing stack with
  | refl => exact Or.inl rfl
  | head hstep _ ih =>
    obtain ⟨hnew, hv'⟩ := hv.follow hstep
    right
    rcases ih hv' with rfl | hout
    · exact hnew
    · exact fun hmem => hout (List.mem_cons_of_mem _ hmem)

theorem Visits.not_circular {stack : List String} {path : String}
    (hv : Visits set options root nodes stack path) :
    ¬ TransGen (Refers set options root nodes) path path := by
  intro hc
  obtain ⟨there, hstep, hback⟩ := TransGen.head'_iff.mp hc
  obtain ⟨hnew, hv'⟩ := hv.follow hstep
  have hmem := List.mem_cons_of_mem there hv.1
  rcases hv'.eq_or_not_mem hback with rfl | hout
  · exact hnew hv.1
  · exact hout hmem

theorem not_onCycle_of_ok {out : List Node} {path : String}
    (h : linkTree set options [root] root nodes = .ok out) :
    ¬ OnCycle set options root nodes path := by
  rintro ⟨hreach, hc⟩
  have hv : Visits set options root nodes [root] root :=
    ⟨List.mem_singleton_self _, List.mem_singleton_self _, nodes, out, treeAt?_root, h⟩
  obtain ⟨stack, hv'⟩ := hv.reach hreach
  exact hv'.not_circular hc

/-! ## A circular failure is on a circle -/

/-- A failure because of a circular reference, wherever that stands. -/
def Circular (target : String) (e : LinkFailure) : Prop :=
  ∃ path loc, e = .reference ⟨.circularReference target, path, loc⟩

theorem loader_of_mem {stack : List String} {path target : String} {loc : Location}
    (h : target ∈ stack) :
    loader set options stack path target loc = failAt path loc (.circularReference target) :=
  if_pos h

theorem loader_of_fetch {stack : List String} {path target source : String} {loc : Location}
    {parsed : List Node} (h : target ∉ stack) (hf : set.fetch? target = some source)
    (hp : parseSource options source = .ok parsed) :
    loader set options stack path target loc = do
      let linked ← linkTree set options (target :: stack) target parsed
      return ⟨linked, extendsOther parsed⟩ := by
  rw [loader, if_neg h, hf]
  dsimp only
  rw [hp]

/-- A stack under which a template is linked: a chain of references from the root leads to it, and
from every path on the stack. -/
structure Leads (set : TemplateSet) (options : Options) (root : String) (nodes : List Node)
    (stack : List String) (path : String) : Prop where
  onStack : path ∈ stack
  reached : ∀ p ∈ stack, ReflTransGen (Refers set options root nodes) root p
  leads : ∀ p ∈ stack, ReflTransGen (Refers set options root nodes) p path

theorem leads_root : Leads set options root nodes [root] root where
  onStack := List.mem_singleton_self _
  reached := List.forall_mem_singleton.mpr .refl
  leads := List.forall_mem_singleton.mpr .refl

theorem Leads.follow {stack : List String} {path there : String}
    (hl : Leads set options root nodes stack path) (hr : Refers set options root nodes path there) :
    Leads set options root nodes (there :: stack) there where
  onStack := List.mem_cons_self
  reached := List.forall_mem_cons.mpr ⟨(hl.reached path hl.onStack).tail hr, hl.reached⟩
  leads := List.forall_mem_cons.mpr ⟨.refl, fun p hp => (hl.leads p hp).tail hr⟩

/-- The induction is on the chain of references at whose end the failure is. -/
theorem onCycle_of_circular {stack : List String} {path target : String} {ns : List Node}
    {e : LinkFailure} (hl : Leads set options root nodes stack path) (hroot : root ∈ stack)
    (hns : treeAt? set options root nodes path = some ns)
    (h : Failing set options e stack path ns) (hc : Circular target e) :
    OnCycle set options root nodes target := by
  induction h with
  | @itself stack path ns h =>
    obtain ⟨_, _, rfl⟩ := hc
    -- the reference leads back to the stack, which leads to it
    cases h with
    | @circular n there hn ht hs =>
      have hrefers : Refers set options root nodes path (resolvePath options.basedir path there) :=
        ⟨ns, n, there, hns, hn, ht, rfl⟩
      exact ⟨hl.reached _ hs, .tail' (hl.leads _ hs) hrefers⟩
  | @behind stack path ns n there source parsed hn ht hs hf hp _ _ ih =>
    have hrefers : Refers set options root nodes path (resolvePath options.basedir path there) :=
      ⟨ns, n, there, hns, hn, ht, rfl⟩
    have hne : resolvePath options.basedir path there ≠ root := fun he => hs (he ▸ hroot)
    exact ih (hl.follow hrefers) (List.mem_cons_of_mem _ hroot) (treeAt?_eq_some hne hf hp)

/-! ## Linking goes only so deep -/

/-- A way to link the tree of a path while a stack is given. -/
abbrev Linker := List String → String → List Node → Except LinkFailure (List Node)

/-- What a reference leads to when a linker is used for the template behind it. -/
def loaderBy (next : Linker) (set : TemplateSet) (options : Options) (stack : List String)
    (path : String) : Loader :=
  fun target loc =>
    if target ∈ stack then failAt path loc (.circularReference target)
    else match set.fetch? target with
      | none => failAt path loc (.unresolvedPath target)
      | some source =>
        match parseSource options source with
        | .error e => .error (.included target e)
        | .ok parsed => do
          let linked ← next (target :: stack) target parsed
          return ⟨linked, extendsOther parsed⟩

/-- Links through so many references in a row; a template behind more of them is left to `beyond`. -/
def linkWithin (beyond : Linker) (set : TemplateSet) (options : Options) : Nat → Linker
  | 0 => beyond
  | depth + 1 => fun stack path ns =>
    linkWith (loaderBy (linkWithin beyond set options depth) set options stack path) set
      options.basedir path ns

theorem linkWithin_eq (beyond : Linker) {depth : Nat} {stack : List String} (path : String)
    (ns : List Node) (h : (set.unvisited stack).length < depth) :
    linkWithin beyond set options depth stack path ns = linkTree set options stack path ns := by
  induction depth generalizing stack path ns with
  | zero => exact absurd h (Nat.not_lt_zero _)
  | succ depth ih =>
    rw [linkTree_eq]
    show linkWith (loaderBy (linkWithin beyond set options depth) set options stack path) set
      options.basedir path ns = _
    congr 1
    funext target loc
    unfold loaderBy loader
    split
    next => rfl
    next hs =>
      cases hf : set.fetch? target with
      | none => rfl
      | some source =>
        cases hp : parseSource options source with
        | error e => simp only [hp]
        | ok parsed =>
          -- the path is one that was not on the stack yet, so one less is left
          have hlt := TemplateSet.length_unvisited_lt hs hf
          simp only [hp, ih target parsed (by omega : (set.unvisited (target :: stack)).length < depth)]

theorem length_unvisited_le (set : TemplateSet) (stack : List String) :
    (set.unvisited stack).length ≤ 2 * set.length := by
  have hle := List.length_filter_le (fun p => decide (p ∉ stack)) set.paths
  have hpaths : set.paths.length = 2 * set.length := by
    simp only [TemplateSet.paths, Dictionary.keys, List.length_append, List.length_map]
    omega
  exact hpaths ▸ hle

end Linking

/-- Linking ends: it never goes deeper than each template taken once under each of its two paths. It
succeeds on no template that leads to a cycle of references, and a reference is refused as circular
only if what it refers to is on such a cycle: without one, never. -/
theorem link_circular (set : TemplateSet) (options : Options) (root : String) (nodes : List Node) :
    (∀ beyond, link set options root nodes = do
      let tree ← Linking.linkWithin beyond set options (2 * set.length + 1) [root] root nodes
      return ⟨withoutMixins tree, mixinPool tree⟩) ∧
    (∀ p, OnCycle set options root nodes p → ∀ linked, link set options root nodes ≠ .ok linked) ∧
    (∀ target path loc,
      link set options root nodes = .error (.reference ⟨.circularReference target, path, loc⟩) →
        OnCycle set options root nodes target) ∧
    ((∀ p, ¬ OnCycle set options root nodes p) → ∀ target path loc,
      link set options root nodes ≠ .error (.reference ⟨.circularReference target, path, loc⟩)) := by
  have hcycle : ∀ target path loc,
      link set options root nodes = .error (.reference ⟨.circularReference target, path, loc⟩) →
        OnCycle set options root nodes target := by
    intro target path loc h
    rw [link] at h
    cases ht : Linking.linkTree set options [root] root nodes with
    | ok tree =>
      rw [ht] at h
      cases h
    | error e =>
      rw [ht] at h
      cases h
      exact Linking.onCycle_of_circular Linking.leads_root (List.mem_singleton_self _) treeAt?_root
        (Linking.failing_of_error ht) ⟨path, loc, rfl⟩
  refine ⟨fun beyond => ?_, fun p hp linked h => ?_, hcycle, fun hno target path loc h => ?_⟩
  · have hlen := Linking.length_unvisited_le set [root]
    rw [Linking.linkWithin_eq beyond root nodes (by omega), link]
  · obtain ⟨tree, ht, -⟩ := of_bind_eq_ok h
    exact Linking.not_onCycle_of_ok ht hp
  · exact hno target (hcycle target path loc h)

/-! ## A template that includes itself, and one that is included twice -/

namespace RepeatedInclusion

/-- An inclusion at the start of a line. -/
def inclusion (line : Nat) (name : String) : Node :=
  .includes ⟨line, 1⟩ name []

theorem parseSource_a : parseSource {} "include a" = .ok [inclusion 1 "a"] := by
  have hl : (lex "include a").bind (CommentPolicy.strip {}) =
      .ok [⟨.includes none, ⟨1, 1⟩⟩, ⟨.path "a", ⟨1, 9⟩⟩, ⟨.eos, ⟨1, 10⟩⟩] :=
    eq_ok_of_toOption (by decide +kernel)
  have hr : isRawInclude "a" none = false := rfl
  simp only [parseSource, hl, parseTokens, readTokens, readDocument, Node.read, readPath]
  simp [hr, readOptionalBlock, readDocument, bind, Except.bind, pure, Except.pure, inclusion]

theorem parseSource_empty : parseSource {} "" = .ok [] := by
  have hl : (lex "").bind (CommentPolicy.strip {}) = .ok [⟨.eos, ⟨1, 1⟩⟩] :=
    eq_ok_of_toOption (by decide +kernel)
  simp only [parseSource, hl, parseTokens, readTokens, readDocument]
  rfl

theorem resolvePath_a (path : String) (h : path ∈ ["page.pug", "a.pug", "b.pug"]) :
    resolvePath none path "a" = "a.pug" := by
  revert path
  decide

theorem resolvePath_b : resolvePath none "page.pug" "b" = "b.pug" := by
  rfl

theorem resolveIncludes_inclusion {load : Loader} {set : TemplateSet} {basedir : Option String}
    {path name file : String} {line : Nat} {ns : List Node}
    (h : resolvePath basedir path name = file) :
    Linking.resolveIncludes load set basedir path (inclusion line name :: ns) = do
      let loaded ← load file ⟨line, 1⟩
      let more ← Linking.resolveIncludes load set basedir path ns
      return Linking.included loaded ⟨line, 1⟩ [] :: more := by
  rw [Linking.resolveIncludes, rewriteAllM, inclusion, Node.rewriteM, rewriteAllM]
  simp only [pure_bind, Linking.followReference, h, bind_assoc]
  rfl

theorem linkTree_inclusion {set : TemplateSet} {stack : List String} {path name : String}
    {line : Nat} {ns : List Node} :
    Linking.linkTree set {} stack path (inclusion line name :: ns) =
      Linking.resolveIncludes (Linking.loader set {} stack path) set none path
        (inclusion line name :: ns) := by
  rw [Linking.linkTree_eq]
  rfl

/-- The page includes `a`, which includes itself. -/
theorem link_itself : link [("a.pug", "include a")] {} "page.pug" [inclusion 1 "a"] =
    .error (.reference ⟨.circularReference "a.pug", "a.pug", ⟨1, 1⟩⟩) := by
  have hload : Linking.loader [("a.pug", "include a")] {} ["page.pug"] "page.pug" "a.pug" ⟨1, 1⟩ =
      .error (.reference ⟨.circularReference "a.pug", "a.pug", ⟨1, 1⟩⟩) := by
    rw [Linking.loader_of_fetch (by decide) rfl parseSource_a, linkTree_inclusion,
      resolveIncludes_inclusion (resolvePath_a _ (by decide)), Linking.loader_of_mem (by decide)]
    rfl
  rw [link, linkTree_inclusion, resolveIncludes_inclusion (resolvePath_a _ (by decide)), hload]
  rfl

/-- The page includes `a`, and `b`, which includes `a` again. -/
theorem link_twice : link [("a.pug", ""), ("b.pug", "include a")] {} "page.pug"
    [inclusion 1 "a", inclusion 2 "b"] =
    .ok ⟨[.group ⟨1, 1⟩ [], .group ⟨2, 1⟩ [.group ⟨1, 1⟩ []]], []⟩ := by
  have ha : ∀ stack path loc, "a.pug" ∉ stack →
      Linking.loader [("a.pug", ""), ("b.pug", "include a")] {} stack path "a.pug" loc =
        .ok ⟨[], false⟩ := by
    intro stack path loc h
    rw [Linking.loader_of_fetch h rfl parseSource_empty, Linking.linkTree_eq]
    rfl
  have hb : Linking.loader [("a.pug", ""), ("b.pug", "include a")] {} ["page.pug"] "page.pug" "b.pug"
      ⟨2, 1⟩ = .ok ⟨[.group ⟨1, 1⟩ []], false⟩ := by
    rw [Linking.loader_of_fetch (by decide) rfl parseSource_a, linkTree_inclusion,
      resolveIncludes_inclusion (resolvePath_a _ (by decide)), ha _ _ _ (by decide)]
    rfl
  rw [link, linkTree_inclusion, resolveIncludes_inclusion (resolvePath_a _ (by decide)),
    ha _ _ _ (by decide), resolveIncludes_inclusion resolvePath_b, hb]
  rfl

end RepeatedInclusion

open RepeatedInclusion

/-- A template that includes itself is found out, and one that is included twice is not suspected. -/
theorem link_circular_inclusions :
    (OnCycle [("a.pug", "include a")] {} "page.pug" [inclusion 1 "a"] "a.pug" ∧
      ∀ linked, link [("a.pug", "include a")] {} "page.pug" [inclusion 1 "a"] ≠ .ok linked) ∧
    ∀ target path loc,
      link [("a.pug", ""), ("b.pug", "include a")] {} "page.pug"
          [inclusion 1 "a", inclusion 2 "b"] ≠
        .error (.reference ⟨.circularReference target, path, loc⟩) := by
  obtain ⟨-, hne, hcycle, -⟩ :=
    link_circular [("a.pug", "include a")] {} "page.pug" [inclusion 1 "a"]
  obtain ⟨-, hne', -, hno⟩ := link_circular [("a.pug", ""), ("b.pug", "include a")] {} "page.pug"
    [inclusion 1 "a", inclusion 2 "b"]
  have ha := hcycle _ _ _ link_itself
  exact ⟨⟨ha, hne _ ha⟩, hno fun p hp => hne' p hp _ link_twice⟩

end PugTemplate
