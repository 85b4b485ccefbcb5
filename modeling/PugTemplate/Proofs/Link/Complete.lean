import PugTemplate.Link.Resolve
import PugTemplate.Proofs.Basic
import PugTemplate.Proofs.Link.Keep
import PugTemplate.Proofs.Tree.Everywhere

/-!
# What linking resolves

Outside text, linking follows every reference and takes out every definition. Tags in text are not
entered: what they hold stays as it was read.
-/

namespace PugTemplate

/-- The path in a reference to another template or file. -/
def Node.target? : Node → Option String
  | .inherits _ path | .includes _ path _ | .rawInclude _ path _ => some path
  | _ => none

/-- The path in a reference to a template that is to be linked in turn. -/
def Node.template? : Node → Option String
  | .inherits _ path | .includes _ path _ => some path
  | _ => none

theorem Node.target?_of_template? {n : Node} {target : String} (h : n.template? = some target) :
    n.target? = some target := by
  cases n <;> first | exact h | exact nomatch h

/-- Whether a node is a reference or a definition, of which linking is to leave none. -/
def Node.isUnlinked (n : Node) : Bool :=
  n.target?.isSome || n.isMixin

/-- The templates that are read when a tree is linked: it, and those that references outside text
lead to. -/
inductive Reached (set : TemplateSet) (options : Options) (path : String) (nodes : List Node) :
    String → List Node → Prop
  | root : Reached set options path nodes path nodes
  | follow {from_ : String} {ns : List Node} {n : Node} {target source : String}
      {parsed : List Node} (h : Reached set options path nodes from_ ns) (hn : n ∈ postorderAll ns)
      (ht : n.template? = some target)
      (hf : set.fetch? (resolvePath options.basedir from_ target) = some source)
      (hp : parseSource options source = .ok parsed) :
      Reached set options path nodes (resolvePath options.basedir from_ target) parsed

/-- The trees that linking may read: the one it is given, and those of the set. -/
def IsTree (set : TemplateSet) (options : Options) (nodes ns : List Node) : Prop :=
  ns = nodes ∨ ∃ path source, set.fetch? path = some source ∧ parseSource options source = .ok ns

namespace Linking

/-- A text with tags stands in one of the given trees. -/
def Known (trees : List Node → Prop) (n : Node) : Prop :=
  n.tagged ≠ [] → ∃ ns, trees ns ∧ n ∈ postorderAll ns

/-- A node that linking leaves: no reference, and a known text if it holds tags. -/
def Kept (trees : List Node → Prop) (n : Node) : Prop :=
  n.target? = none ∧ Known trees n

/-- What the success of linking says of a node. -/
def Followed (load : Loader) (set : TemplateSet) (basedir : Option String) (path : String) :
    Node → Prop
  | .inherits _ target | .includes _ target _ =>
    ∃ loc l, load (resolvePath basedir path target) loc = .ok l
  | .rawInclude _ target _ => (set.fetch? (resolvePath basedir path target)).isSome
  | _ => True

variable {load : Loader} {set : TemplateSet} {basedir : Option String} {path : String}
  {trees : List Node → Prop}

theorem blind_known : Blind (Known trees) := by
  apply blind_of_husk
  intro n
  cases n <;> simp [Known, Node.husk, Node.tagged]

theorem blind_kept : Blind (Kept trees) := by
  refine Blind.and (blind_of_husk fun n => ?_) blind_known
  cases n <;> simp [Node.husk, Node.target?]

theorem blind_followed : Blind (Followed load set basedir path) := by
  apply blind_of_husk
  intro n
  cases n <;> simp [Node.husk, Followed]

theorem kept_group (loc : Location) (body : List Node) : Kept trees (.group loc body) :=
  ⟨rfl, fun h => absurd rfl h⟩

/-- Text without tags and filtered text are no references, whatever they say. -/
theorem kept_includedText (loc : Location) (text : String) (filter : Option String) :
    Kept trees (includedText loc text filter) := by
  cases filter with
  | some f => exact ⟨rfl, fun h => absurd rfl h⟩
  | none => exact ⟨rfl, fun h => absurd rfl h⟩

theorem postorderAll_filter_subset (p : Node → Bool) (ns : List Node) :
    postorderAll (ns.filter p) ⊆ postorderAll ns := by
  intro k hk
  obtain ⟨n, hn, hk⟩ := mem_postorderAll.mp hk
  exact mem_postorderAll.mpr ⟨n, (List.mem_filter.mp hn).1, hk⟩

/-! ## One template -/

/-- Where `K` holds of the nodes that one template is read with, `P` holds of those that linking
leaves of it, if what its references lead to is as it should be. -/
structure Keeps (load : Loader) (basedir : Option String) (path : String) (K P : Node → Prop) :
    Prop where
  read : Blind K
  left : Blind P
  group : ∀ loc body, P (.group loc body)
  plain : ∀ n, n.target? = none → K n → P n
  text : ∀ loc target filter text, K (.rawInclude loc target filter) →
    P (includedText loc text filter)
  loaded : ∀ n target, K n → n.template? = some target → ∀ loc l,
    load (resolvePath basedir path target) loc = .ok l → ∀ k ∈ postorderAll l.nodes, P k

namespace Keeps

variable {K P : Node → Prop}

/-- What an inclusion contributes is kept if the tree it leads to is. -/
theorem included (r : Keeps load basedir path K P) {loaded : Loaded} {content : List Node}
    (loc : Location) (hl : ∀ k ∈ postorderAll loaded.nodes, P k)
    (hc : ∀ k ∈ postorderAll content, P k) :
    ∀ k ∈ postorderAll [included loaded loc content], P k := by
  refine forall_postorder_singleton (r.group _ _) ?_
  refine forall_spliceContent r.left r.group loc hc ?_
  split
  · exact forall_closeBlocks r.left r.group hl
  · exact hl

theorem includedText (r : Keeps load basedir path K P) {loc : Location} {target : String}
    {filter : Option String} (text : String) (h : K (.rawInclude loc target filter)) :
    ∀ k ∈ postorderAll [includedText loc text filter], P k := by
  apply forall_postorder_singleton (r.text loc target filter text h)
  cases filter with
  | some f => simp [Linking.includedText, Node.parts]
  | none => simp [Linking.includedText, Node.parts]

theorem rewrites (r : Keeps load basedir path K P) :
    Rewrites (Answering.ofExcept LinkFailure) (fun _ => none)
      (followReference load set basedir path) K P (Followed load set basedir path) where
  before := r.read
  itself := blind_followed
  replaced n ns hr := by simp at hr
  finished n hn hp out ho := by
    match n with
    -- only the first node of a template may extend another, and that one is not looked at here
    | .inherits loc target => simp [followReference, failAt] at ho
    | .includes loc target content =>
      rw [followReference] at ho
      obtain ⟨loaded, hl, ho⟩ := of_bind_eq_ok ho
      cases ho
      exact ⟨r.included loc (r.loaded _ target hn rfl _ _ hl) hp, loc, loaded, hl⟩
    | .rawInclude loc target filter =>
      simp only [followReference] at ho
      split at ho
      next text hf =>
        cases ho
        exact ⟨r.includedText text hn, by simp [Followed, hf]⟩
      next => simp [failAt] at ho
    | .group .. | .tag .. | .text .. | .output .. | .statements .. | .comment .. | .doctype ..
    | .conditional .. | .switch .. | .each .. | .loop .. | .mixin .. | .call .. | .slot _
    | .namedBlock .. | .yield _ | .filter .. =>
      cases ho
      exact ⟨forall_postorder_singleton (r.plain _ rfl hn) hp, trivial⟩

theorem resolveIncludes (r : Keeps load basedir path K P) {nodes out : List Node}
    (hn : ∀ k ∈ postorderAll nodes, K k)
    (h : resolveIncludes load set basedir path nodes = .ok out) :
    (∀ k ∈ postorderAll out, P k) ∧ ∀ k ∈ postorderAll nodes, Followed load set basedir path k :=
  r.rewrites.all nodes hn out h

theorem overParent (r : Keeps load basedir path K P) {root parent : List Node}
    (hr : ∀ k ∈ postorderAll root, P k) (hp : ∀ k ∈ postorderAll parent, P k) :
    ∀ k ∈ postorderAll (overParent root parent), P k := by
  have hfilter : ∀ p, ∀ k ∈ postorderAll (root.filter p), P k :=
    fun p k hk => hr k (postorderAll_filter_subset p root hk)
  rw [Linking.overParent, postorderAll_append, postorderAll_append]
  simp only [List.forall_mem_append]
  refine ⟨hfilter _, ?_, hfilter _⟩
  apply forall_mergeAll r.left _ hp
  intro o ho k hk
  -- what an override puts in place stands in the root, inside the block that overrides
  obtain ⟨n, hn, hno⟩ := List.mem_filterMap.mp ho
  apply hr
  refine mem_postorderAll.mpr ⟨n, hn, ?_⟩
  unfold Node.override? at hno
  split at hno
  next loc name mode body =>
    cases hno
    rw [Node.postorder]
    exact List.mem_append_left _ hk
  next => exact nomatch hno

/-- What linking makes of one tree, given what it makes of the trees its references lead to. -/
theorem linkWith (r : Keeps load basedir path K P) {nodes out : List Node}
    (hn : ∀ k ∈ postorderAll nodes, K k)
    (h : linkWith load set basedir path nodes = .ok out) :
    (∀ k ∈ postorderAll out, P k) ∧ ∀ k ∈ postorderAll nodes, Followed load set basedir path k := by
  unfold Linking.linkWith at h
  split at h
  -- a template that extends another: its own tree first, then the one below it
  next loc target rest =>
    rw [postorderAll, List.forall_mem_append] at hn
    obtain ⟨resolved, hr, h⟩ := of_bind_eq_ok h
    have hres := r.resolveIncludes hn.2 hr
    dsimp only at h
    split at h
    next => exact nomatch h
    next =>
      obtain ⟨parent, hp, h⟩ := of_bind_eq_ok h
      cases h
      have hself := hn.1 _ (Node.mem_postorder_self (.inherits loc target))
      refine ⟨r.overParent (forall_ungroupedAll hres.1) (r.loaded _ target hself rfl _ _ hp), ?_⟩
      rw [postorderAll, List.forall_mem_append]
      refine ⟨fun k hk => ?_, hres.2⟩
      rw [List.mem_singleton.mp (hk : k ∈ [Node.inherits loc target])]
      exact ⟨loc, parent, hp⟩
  next => exact r.resolveIncludes hn h

end Keeps

/-! ## All templates -/

/-- What a reference in a template leads to, while those on the stack are linked. -/
def loader (set : TemplateSet) (options : Options) (stack : List String) (path : String) : Loader :=
  fun target loc =>
    if target ∈ stack then failAt path loc (.circularReference target)
    else match set.fetch? target with
      | none => failAt path loc (.unresolvedPath target)
      | some source =>
        match parseSource options source with
        | .error e => .error (.included target e)
        | .ok parsed => do
          let linked ← linkTree set options (target :: stack) target parsed
          return ⟨linked, extendsOther parsed⟩

theorem linkTree_eq (set : TemplateSet) (options : Options) (stack : List String) (path : String)
    (nodes : List Node) :
    linkTree set options stack path nodes =
      linkWith (loader set options stack path) set options.basedir path nodes := by
  rw [linkTree]
  congr 1
  funext target loc
  unfold loader
  split
  · rfl
  · split
    next hf => rw [hf]
    next source hf => exact hf ▸ rfl

theorem loader_ok {set : TemplateSet} {options : Options} {stack : List String}
    {path target : String} {loc : Location} {l : Loaded}
    (h : loader set options stack path target loc = .ok l) :
    target ∉ stack ∧ ∃ source parsed, set.fetch? target = some source ∧
      parseSource options source = .ok parsed ∧
      linkTree set options (target :: stack) target parsed = .ok l.nodes := by
  unfold loader at h
  split at h
  next => simp [failAt] at h
  next hs =>
    refine ⟨hs, ?_⟩
    split at h
    next => simp [failAt] at h
    next source hf =>
      split at h
      next => simp at h
      next parsed hp =>
        obtain ⟨linked, hl, h⟩ := of_bind_eq_ok h
        cases h
        exact ⟨source, parsed, hf, hp, hl⟩

/-- From a template linking goes on to those it refers to, with one path more on the stack. So what
holds of a template once it holds of these holds of every template. -/
@[elab_as_elim]
theorem linking_induction (set : TemplateSet) (options : Options)
    {motive : List String → String → List Node → Prop}
    (step : ∀ stack path ns, (∀ target source parsed, target ∉ stack →
      set.fetch? target = some source → parseSource options source = .ok parsed →
        motive (target :: stack) target parsed) → motive stack path ns)
    (stack : List String) (path : String) (ns : List Node) : motive stack path ns := by
  induction hlen : (set.unvisited stack).length using Nat.strongRecOn generalizing stack path ns with
  | ind len ih =>
    refine step stack path ns fun target source parsed hs hf _ => ?_
    -- the path was not on the stack, so with it fewer are left
    exact ih _ (hlen ▸ TemplateSet.length_unvisited_lt hs hf) _ _ _ rfl

/-- Linking leaves no reference and no text but of the trees it reads, and follows all references of
a tree. -/
theorem forall_linkTree {set : TemplateSet} {options : Options} {nodes : List Node}
    (stack : List String) (path : String) {ns out : List Node} (ht : IsTree set options nodes ns)
    (h : linkTree set options stack path ns = .ok out) :
    (∀ k ∈ postorderAll out, Kept (IsTree set options nodes) k) ∧
      ∀ k ∈ postorderAll ns, Followed (loader set options stack path) set options.basedir path k := by
  induction stack, path, ns using linking_induction set options generalizing out with
  | step stack path ns ih =>
    rw [linkTree_eq] at h
    have r : Keeps (loader set options stack path) options.basedir path
        (Known (IsTree set options nodes)) (Kept (IsTree set options nodes)) :=
      { read := blind_known
        left := blind_kept
        group := kept_group
        plain := fun n hn hk => ⟨hn, hk⟩
        text := fun loc target filter text _ => kept_includedText loc text filter
        loaded := fun n target _ _ loc l hl => by
          obtain ⟨hs, source, parsed, hf, hp, hout⟩ := loader_ok hl
          exact (ih _ _ _ hs hf hp (Or.inr ⟨_, source, hf, hp⟩) hout).1 }
    exact r.linkWith (fun k hk _ => ⟨ns, ht, hk⟩) h

/-- What a linked tree refers to was not on the stack, and was linked in turn with its path on it. -/
theorem exists_linkTree_of_ok {set : TemplateSet} {options : Options} {stack : List String}
    {path target : String} {ns out : List Node} {n : Node}
    (h : linkTree set options stack path ns = .ok out) (hn : n ∈ postorderAll ns)
    (ht : n.template? = some target) :
    resolvePath options.basedir path target ∉ stack ∧ ∃ source parsed,
      set.fetch? (resolvePath options.basedir path target) = some source ∧
        parseSource options source = .ok parsed ∧
          ∃ out', linkTree set options (resolvePath options.basedir path target :: stack)
            (resolvePath options.basedir path target) parsed = .ok out' := by
  have hfollowed := (forall_linkTree stack path (Or.inl rfl) h).2 n hn
  have hload : ∃ loc l,
      loader set options stack path (resolvePath options.basedir path target) loc = .ok l := by
    cases n <;> simp_all [Node.template?, Followed]
  obtain ⟨loc, l, hload⟩ := hload
  obtain ⟨hs, source, parsed, hf, hp, ho⟩ := loader_ok hload
  exact ⟨hs, source, parsed, hf, hp, l.nodes, ho⟩

/-- Every template that linking reaches is linked in turn. -/
theorem linkTree_of_reached {set : TemplateSet} {options : Options} {path : String}
    {nodes out : List Node} (h : linkTree set options [path] path nodes = .ok out)
    {from_ : String} {ns : List Node} (hr : Reached set options path nodes from_ ns) :
    ∃ stack out, linkTree set options stack from_ ns = .ok out := by
  induction hr with
  | root => exact ⟨[path], out, h⟩
  | @follow from_ ns n target source parsed hr hn ht hf hp ih =>
    obtain ⟨stack, out, ho⟩ := ih
    obtain ⟨_, source', parsed', hf', hp', _, ho'⟩ := exists_linkTree_of_ok ho hn ht
    -- both read the same source
    rw [hf] at hf'
    cases hf'
    rw [hp] at hp'
    cases hp'
    exact ⟨_, _, ho'⟩

theorem isSome_fetch?_of_followed {set : TemplateSet} {options : Options} {stack : List String}
    {path target : String} {n : Node}
    (h : Followed (loader set options stack path) set options.basedir path n)
    (ht : n.target? = some target) :
    (set.fetch? (resolvePath options.basedir path target)).isSome := by
  cases n with
  | inherits loc _ | includes loc _ _ =>
    cases ht
    obtain ⟨loc, l, hl⟩ := h
    obtain ⟨_, source, _, hf, _⟩ := loader_ok hl
    simp [hf]
  | rawInclude loc _ _ =>
    cases ht
    exact h
  | _ => simp [Node.target?] at ht

end Linking

/-! ## Hoisting -/

/-- The body of a mixin in the pool is one defined in the tree, its own definitions taken out. -/
theorem mem_mixinPool {ns : List Node} {e : String × Mixin} (h : e ∈ mixinPool ns) :
    ∃ loc name params body, Node.mixin loc name params body ∈ postorderAll ns ∧
      e = (name, ⟨params, withoutMixins body⟩) := by
  obtain ⟨n, hn, he⟩ := List.mem_filterMap.mp (Dictionary.mem_ofEntries h)
  unfold Node.definition? at he
  split at he
  next loc name params body =>
    cases he
    exact ⟨loc, name, params, body, hn, rfl⟩
  next => exact nomatch he

/-- Hoisting spreads a tree over the linked one and the mixins, without the definitions. -/
theorem forall_hoisted {P : Node → Prop} (hb : Blind P) {ns : List Node}
    (h : ∀ k ∈ postorderAll ns, P k) :
    ∀ k ∈ (Linked.mk (withoutMixins ns) (mixinPool ns)).outside, P k ∧ k.isMixin = false := by
  intro k hk
  rw [Linked.outside, List.mem_append, List.mem_flatMap] at hk
  rcases hk with hk | ⟨e, he, hk⟩
  · exact forall_withoutMixins hb h k hk
  · obtain ⟨loc, name, params, body, hm, rfl⟩ := mem_mixinPool he
    have hbody : ∀ k ∈ postorderAll body, P k := by
      intro k hk
      apply h
      exact postorderAll_closed hm (by simp [Node.postorder, hk])
    exact forall_withoutMixins hb hbody k hk

/-! ## The linked template -/

/-- Linking leaves a reference or a definition exactly where a text that it keeps has one in a tag.
Such a text was read with one of the templates, and all references outside text were resolved, also
those in the templates that were reached through others. -/
theorem link_complete_iff_tagged {set : TemplateSet} {options : Options} {path : String}
    {nodes : List Node} {linked : Linked} (h : link set options path nodes = .ok linked) :
    (∀ n ∈ linked.outside, n.isUnlinked = false) ∧
      ((∀ n ∈ linked.everywhere, n.isUnlinked = false) ↔
        ∀ t ∈ linked.outside, ∀ n ∈ t.tagged, n.isUnlinked = false) ∧
      (∀ t ∈ linked.outside, t.tagged ≠ [] →
        ∃ ns, IsTree set options nodes ns ∧ t ∈ postorderAll ns) ∧
      ∀ from_ ns, Reached set options path nodes from_ ns → ∀ n ∈ postorderAll ns,
        ∀ target, n.target? = some target →
          (set.fetch? (resolvePath options.basedir from_ target)).isSome := by
  obtain ⟨tree, ht, h⟩ := of_bind_eq_ok h
  cases h
  have hkept := (Linking.forall_linkTree [path] path (Or.inl rfl) ht).1
  have hout := forall_hoisted Linking.blind_kept hkept
  have hclean : ∀ n ∈ (Linked.mk (withoutMixins tree) (mixinPool tree)).outside,
      n.isUnlinked = false := by
    intro n hn
    obtain ⟨⟨htarget, _⟩, hmixin⟩ := hout n hn
    simp [Node.isUnlinked, htarget, hmixin]
  refine ⟨hclean, ⟨fun hall t ht' n hn => ?_, fun htag n hn => ?_⟩, fun t ht' => (hout t ht').1.2,
    fun from_ ns hr n hn target htarget => ?_⟩
  · exact hall n ((Linked.mem_everywhere_iff _ n).mpr (Or.inr ⟨t, ht', hn⟩))
  -- nothing is left outside text, so what is left stands in a tag
  · rcases (Linked.mem_everywhere_iff _ n).mp hn with hn | ⟨t, ht', hn⟩
    · exact hclean n hn
    · exact htag t ht' n hn
  · obtain ⟨stack, out, ho⟩ := Linking.linkTree_of_reached ht hr
    have hfollowed := (Linking.forall_linkTree stack from_ (Or.inl rfl) ho).2 n hn
    exact Linking.isSome_fetch?_of_followed hfollowed htarget

/-! ## A tag in text is not entered -/

namespace TaggedInclusion

/-- The text `#[include a]`, as it is read at the start of a line behind a pipe. -/
def text : Node :=
  .text ⟨1, 3⟩ "#[include a]" [.tag (.includes ⟨1, 5⟩ "a" [])]

theorem segmentsAt_text :
    segmentsAt "#[include a]" ⟨1, 3⟩ = .ok [.tag (.includes ⟨1, 5⟩ "a" [])] := by
  have hs : Piece.split 0 "#[include a]".toList = [.tag 0 "include a".toList] := by decide +kernel
  have hl : lexAt (String.ofList "include a".toList) ((⟨1, 3⟩ : Location).right (0 + 2)) =
      .ok [⟨.includes none, ⟨1, 5⟩⟩, ⟨.path "a", ⟨1, 13⟩⟩, ⟨.eos, ⟨1, 14⟩⟩] :=
    eq_ok_of_toOption (by decide +kernel)
  have hr : isRawInclude "a" none = false := rfl
  rw [segmentsAt, hs, List.mapM_cons, List.mapM_nil]
  -- the readers of trees recurse on what is left of the tokens, so they are opened step by step
  simp only [segmentOf, nestedNode, hl, readTokens, readDocument, Node.read, readPath]
  simp [hr, readOptionalBlock, readDocument, bind, Except.bind, pure, Except.pure, Functor.map,
    Except.map]

theorem parseSource_text : parseSource {} "| #[include a]" = .ok [text] := by
  have hl : (lex "| #[include a]").bind (CommentPolicy.strip {}) =
      .ok [⟨.text "#[include a]", ⟨1, 3⟩⟩, ⟨.eos, ⟨1, 15⟩⟩] :=
    eq_ok_of_toOption (by decide +kernel)
  simp only [parseSource, hl, parseTokens, readTokens, readDocument, Node.read, textRun,
    TreeContext.textNode]
  simp [segmentsAt_text, readDocument, text, bind, Except.bind, pure, Except.pure]

theorem link_text : link [("a.pug", "b")] {} "page.pug" [text] = .ok ⟨[text], []⟩ := by
  rw [link, Linking.linkTree]
  rfl

end TaggedInclusion

theorem link_complete_iff_tagged_inclusion :
    link [("a.pug", "b")] {} "page.pug" [TaggedInclusion.text] = .ok ⟨[TaggedInclusion.text], []⟩ ∧
      ∃ ns, IsTree [("a.pug", "b")] {} [TaggedInclusion.text] ns ∧
        TaggedInclusion.text ∈ postorderAll ns :=
  ⟨TaggedInclusion.link_text,
    (link_complete_iff_tagged TaggedInclusion.link_text).2.2.1 TaggedInclusion.text
      (by simp [Linked.outside, TaggedInclusion.text, postorderAll, Node.postorder])
      (by simp [TaggedInclusion.text, Node.tagged, everywhereSegments, Node.everywhere])⟩

/-- An inclusion in a tag inside text is left where it stands, although what it names is at hand. -/
theorem link_incomplete_in_tags :
    ¬ ∀ (source : String) (set : TemplateSet) (options : Options) (path : String)
      (nodes : List Node) (linked : Linked), parseSource options source = .ok nodes →
        link set options path nodes = .ok linked →
          ∀ n ∈ linked.everywhere, n.isUnlinked = false := by
  intro h
  have hn := h _ _ _ _ _ _ TaggedInclusion.parseSource_text TaggedInclusion.link_text
    (.includes ⟨1, 5⟩ "a" [])
    (by simp [Linked.everywhere, TaggedInclusion.text, everywhereAll, Node.everywhere,
      everywhereSegments])
  exact absurd hn (by decide)

end PugTemplate
