import PugTemplate.Proofs.Link.Cycle
import PugTemplate.Proofs.Link.TopLevel
import PugTemplate.Proofs.Tree.Rows

/-!
# Mixins of a linked template

Hoisting takes the definitions of mixins out of a tree and enters them into a pool, in one pass that
does the parts of a node before the node. Of two definitions with one name the later counts, and in a
template that extends another, its own mixins come last.
-/

namespace PugTemplate

/-! ## Hoisting -/

/-- Mixins go, all other nodes stay in their order, and the rows in them are done likewise. -/
theorem withoutMixins_eq (ns : List Node) :
    withoutMixins ns =
      (ns.filter fun n => !n.isMixin).map (Node.mapBlocks withoutMixins) := by
  conv_lhs => rw [withoutMixins, rewriteAll_eq_flatMap]
  induction ns with
  | nil => rfl
  | cons n ns ih =>
    rw [List.flatMap_cons, ih]
    cases n <;> rfl

/-- The definitions of mixins in a tree: those in the body of a mixin, and then the mixin. -/
def definitions (ns : List Node) : List (String × Mixin) :=
  (postorderAll ns).filterMap Node.definition?

/-- Enters the definition of a mixin, whose body is done, and leaves any other node. -/
def hoistNode : Node → StateM (Dictionary Mixin) (List Node)
  | .mixin _ name params body => do
    modify (Dictionary.put name ⟨params, body⟩)
    return []
  | n => return [n]

/-- Takes the mixins out of a tree and enters them into a pool, as it comes upon them. -/
def hoist (ns : List Node) : StateM (Dictionary Mixin) (List Node) :=
  rewriteAllM (fun _ => none) hoistNode ns

/-- A computation answers something, and enters the definitions among some nodes in order. -/
def Enters {α : Type} (x : StateM (Dictionary Mixin) α) (a : α) (ks : List Node) : Prop :=
  ∀ pool, x pool = (a, Dictionary.putAll pool (ks.filterMap Node.definition?))

namespace Enters

variable {α β : Type} {x : StateM (Dictionary Mixin) α} {f : α → StateM (Dictionary Mixin) β}
  {a : α} {b : β} {ks ls : List Node}

theorem pure (a : α) : Enters (Pure.pure a) a [] :=
  fun _ => rfl

theorem bind (hx : Enters x a ks) (hf : Enters (f a) b ls) : Enters (x >>= f) b (ks ++ ls) := by
  intro pool
  have hbind : (x >>= f) pool = f (x pool).1 (x pool).2 := rfl
  rw [hbind, hx, hf, List.filterMap_append, Dictionary.putAll, Dictionary.putAll, Dictionary.putAll,
    List.foldl_append]

theorem map {g : α → β} (hx : Enters x a ks) : Enters (do return g (← x)) (g a) ks := by
  have h := hx.bind (f := fun a => Pure.pure (g a)) (pure (g a))
  rwa [List.append_nil] at h

end Enters

theorem enters_hoistNode {n : Node} (h : n.isMixin = false) : Enters (hoistNode n) [n] [n] := by
  cases n with
  | mixin => exact Bool.noConfusion h
  | _ => exact fun _ => rfl

mutual

theorem Node.enters (n : Node) :
    Enters (n.rewriteM (fun _ => none) hoistNode) (withoutMixins [n]) n.postorder := by
  rw [Node.rewriteM.eq_def, Node.postorder_eq, withoutMixins_eq]
  match n with
  | .mixin loc name params body => exact (enters_all body).bind fun pool => rfl
  | .group .. | .tag .. | .loop .. | .namedBlock .. | .includes .. =>
    exact (enters_all _).bind (enters_hoistNode rfl)
  | .conditional loc negate test body next =>
    rw [Node.parts, List.append_assoc]
    exact (enters_all body).bind (next.enters.bind (enters_hoistNode rfl))
  | .switch loc subject branches => exact (enters_branches branches).bind (enters_hoistNode rfl)
  | .each loc value key source body ifEmpty =>
    rw [Node.parts, List.append_assoc]
    exact (enters_all body).bind ((enters_option ifEmpty).bind (enters_hoistNode rfl))
  | .call loc name args head content => exact (enters_option content).bind (enters_hoistNode rfl)
  | .text .. | .output .. | .statements .. | .comment .. | .doctype .. | .slot _ | .rawInclude ..
  | .inherits .. | .yield _ | .filter .. => exact enters_hoistNode rfl

theorem enters_all (ns : List Node) :
    Enters (rewriteAllM (fun _ => none) hoistNode ns) (withoutMixins ns) (postorderAll ns) := by
  match ns with
  | [] =>
    rw [rewriteAllM]
    exact .pure []
  | n :: ns =>
    have hcons : withoutMixins (n :: ns) = withoutMixins [n] ++ withoutMixins ns := by
      rw [withoutMixins_eq, withoutMixins_eq [n], withoutMixins_eq ns, ← List.map_append,
        ← List.filter_append, List.singleton_append]
    rw [rewriteAllM, hcons, postorderAll]
    exact n.enters.bind (enters_all ns).map

theorem Otherwise.enters (o : Otherwise) :
    Enters (o.rewriteM (fun _ => none) hoistNode) (o.mapBlocks withoutMixins) o.postorder := by
  match o with
  | .nothing =>
    rw [Otherwise.rewriteM]
    exact .pure Otherwise.nothing
  | .elseIf loc test body next =>
    rw [Otherwise.rewriteM]
    exact (enters_all body).bind next.enters.map
  | .otherwise loc body =>
    rw [Otherwise.rewriteM]
    exact (enters_all body).map

theorem enters_branches (bs : List Branch) :
    Enters (rewriteBranchesM (fun _ => none) hoistNode bs)
      (bs.map (Branch.mapBlocks withoutMixins)) (postorderBranches bs) := by
  match bs with
  | [] =>
    rw [rewriteBranchesM]
    exact .pure []
  | .mk loc test body :: bs =>
    rw [rewriteBranchesM]
    exact (enters_option body).bind (enters_branches bs).map

theorem enters_option (o : Option (List Node)) :
    Enters (rewriteOptionM (fun _ => none) hoistNode o) (o.map withoutMixins)
      (postorderOption o) := by
  match o with
  | none =>
    rw [rewriteOptionM]
    exact .pure none
  | some ns =>
    rw [rewriteOptionM]
    exact (enters_all ns).map

end

/-- One pass leaves the tree without its mixins, and the pool of them. -/
theorem hoist_eq (ns : List Node) : hoist ns [] = (withoutMixins ns, mixinPool ns) :=
  enters_all ns []

theorem definitions_append (ns ms : List Node) :
    definitions (ns ++ ms) = definitions ns ++ definitions ms := by
  rw [definitions, postorderAll_append, List.filterMap_append]
  rfl

/-- The pool has the definitions by the first place and the last value of each name. -/
theorem find?_mixinPool (name : String) (ns : List Node) :
    (mixinPool ns).find? name = (Dictionary.last? name (definitions ns)).map (·.2) :=
  Dictionary.find?_ofEntries name _

theorem keys_mixinPool (ns : List Node) :
    (mixinPool ns).keys = (Dictionary.keys (definitions ns)).eraseDups :=
  Dictionary.keys_ofEntries _

/-! ## Mixins at the top level -/

/-- A mixin of a name is defined at the top level of a tree. -/
def DefinesAtTop (name : String) (ns : List Node) : Prop :=
  ∃ loc params body, Node.mixin loc name params body ∈ ungroupedAll ns

section Top

variable {name : String} {ns : List Node}

theorem DefinesAtTop.rewriteAll {finish : Node → List Node}
    (hg : ∀ loc body, finish (.group loc body) = [.group loc body])
    (hm : ∀ loc name params body, finish (.mixin loc name params body) =
      [.mixin loc name params body])
    (h : DefinesAtTop name ns) : DefinesAtTop name (rewriteAll (fun _ => none) finish ns) := by
  obtain ⟨loc, params, body, hmem⟩ := h
  have r : Tops .ofId (fun n => pure (finish n)) fun n out => ∀ loc name params body,
      n = .mixin loc name params body → ∃ body', out = [.mixin loc name params body'] :=
    { group := fun loc body => congrArg pure (hg loc body)
      top := fun n _ => by
        rintro loc name params body rfl
        rw [Node.rewriteM]
        exact ⟨_, hm loc name params _⟩ }
  obtain ⟨out, hout, hsub⟩ := (r.all ns).exists_subset hmem
  obtain ⟨body', rfl⟩ := hout loc name params body rfl
  exact ⟨loc, params, body', hsub List.mem_cons_self⟩

theorem DefinesAtTop.closeBlocks (h : DefinesAtTop name ns) : DefinesAtTop name (closeBlocks ns) :=
  h.rewriteAll (fun _ _ => rfl) fun _ _ _ _ => rfl

theorem DefinesAtTop.replaceYields (content : List Node) (h : DefinesAtTop name ns) :
    DefinesAtTop name (replaceYields content ns) :=
  h.rewriteAll (fun _ _ => rfl) fun _ _ _ _ => rfl

variable {added k : Node}

mutual

theorem Node.mem_ungrouped_extended? {n n' : Node} (hk : k ∈ n.ungrouped) (hm : k.isMixin = true)
    (h : Node.extended? added n = some n') : k ∈ n'.ungrouped := by
  match n with
  | .group loc body =>
    rw [Node.extended?] at h
    split at h
    next => exact nomatch h
    next =>
      cases h
      exact mem_ungroupedAll_addDeepest hk hm
  | .tag loc name head selfClosing textOnly body =>
    cases List.mem_singleton.mp hk
    exact nomatch hm
  | .text .. | .output .. | .statements .. | .comment .. | .doctype .. | .conditional .. | .switch ..
  | .each .. | .loop .. | .mixin .. | .call .. | .slot _ | .namedBlock .. | .includes ..
  | .rawInclude .. | .inherits .. | .yield _ | .filter .. => exact nomatch h

theorem mem_ungroupedAll_extendedLast? {ns out : List Node} (hk : k ∈ ungroupedAll ns)
    (hm : k.isMixin = true) (h : extendedLast? added ns = some out) : k ∈ ungroupedAll out := by
  match ns with
  | [] => exact nomatch h
  | n :: ns =>
    rw [ungroupedAll, List.mem_append] at hk
    rw [extendedLast?] at h
    split at h
    -- a later node took what was added
    next ns' hlater =>
      cases h
      rw [ungroupedAll, List.mem_append]
      exact hk.imp id fun hk => mem_ungroupedAll_extendedLast? hk hm hlater
    next =>
      obtain ⟨n', hn, rfl⟩ := Option.map_eq_some_iff.mp h
      rw [ungroupedAll, List.mem_append]
      exact hk.imp (fun hk => Node.mem_ungrouped_extended? hk hm hn) id

/-- A mixin at the top level stays there when something is added. -/
theorem mem_ungroupedAll_addDeepest {ns : List Node} (hk : k ∈ ungroupedAll ns)
    (hm : k.isMixin = true) : k ∈ ungroupedAll (addDeepest added ns) := by
  unfold addDeepest
  cases h : extendedLast? added ns with
  | some out => exact mem_ungroupedAll_extendedLast? hk hm h
  | none =>
    rw [Option.getD_none, ungroupedAll_append]
    exact List.mem_append_left _ hk

end

theorem DefinesAtTop.spliceContent (loc : Location) (content : List Node)
    (h : DefinesAtTop name ns) : DefinesAtTop name (spliceContent loc content ns) := by
  unfold PugTemplate.spliceContent
  split
  · exact h
  · split
    · exact h.replaceYields content
    · obtain ⟨loc, params, body, hmem⟩ := h
      exact ⟨loc, params, body, mem_ungroupedAll_addDeepest hmem rfl⟩

end Top

/-- A mixin of a name is defined at the top level of a template, directly or through inclusions. -/
inductive TopMixin (set : TemplateSet) (options : Options) (name : String) :
    String → List Node → Prop
  | here {path : String} {ns : List Node} {loc : Location} {params : List Param}
      {body : List Node} (hn : Node.mixin loc name params body ∈ ungroupedAll ns) :
      TopMixin set options name path ns
  | included {path target source : String} {ns content parsed : List Node} {loc : Location}
      (hn : Node.includes loc target content ∈ ungroupedAll ns)
      (hf : set.fetch? (resolvePath options.basedir path target) = some source)
      (hp : parseSource options source = .ok parsed)
      (h : TopMixin set options name (resolvePath options.basedir path target) parsed) :
      TopMixin set options name path ns

namespace Linking

section Template

variable {load : Loader} {set : TemplateSet} {basedir : Option String} {path name : String}
  {ns out : List Node}

theorem definesAtTop_resolveIncludes {loc : Location} {params : List Param} {body : List Node}
    (h : resolveIncludes load set basedir path ns = .ok out)
    (hn : Node.mixin loc name params body ∈ ungroupedAll ns) : DefinesAtTop name out := by
  obtain ⟨ms, hms, hsub⟩ := (tops_followReference.all ns out h).exists_subset hn
  cases hms with
  | @kept _ n' _ hhusk =>
    cases n' <;> simp only [Node.husk, reduceCtorEq] at hhusk
    cases hhusk
    exact ⟨_, _, _, hsub List.mem_cons_self⟩

/-- An inclusion at the top level brings the mixins there to the top level. -/
theorem definesAtTop_included {loc : Location} {target : String} {content : List Node}
    (h : resolveIncludes load set basedir path ns = .ok out)
    (hn : Node.includes loc target content ∈ ungroupedAll ns)
    (hl : ∀ loaded, load (resolvePath basedir path target) loc = .ok loaded →
      DefinesAtTop name loaded.nodes) : DefinesAtTop name out := by
  obtain ⟨ms, hms, hsub⟩ := (tops_followReference.all ns out h).exists_subset hn
  cases hms with
  | kept ht => exact nomatch ht
  | @included _ _ _ content' loaded _ hload =>
    have hbody : DefinesAtTop name
        (if loaded.extending then closeBlocks loaded.nodes else loaded.nodes) := by
      split
      · exact (hl loaded hload).closeBlocks
      · exact hl loaded hload
    obtain ⟨loc', params, body, hmem⟩ := hbody.spliceContent loc content'
    refine ⟨loc', params, body, hsub ?_⟩
    rw [ungroupedAll_singleton, included, Node.ungrouped]
    exact hmem

theorem mem_overParent_of_isMixin {root parent : List Node} {n : Node} (hn : n ∈ root)
    (hm : n.isMixin = true) : n ∈ overParent root parent := by
  rw [overParent, List.mem_append, List.mem_append]
  exact Or.inr (Or.inr (List.mem_filter.mpr ⟨hn, hm⟩))

theorem linkWith_inherits {loc : Location} {target : String} {rest : List Node}
    (h : linkWith load set basedir path (.inherits loc target :: rest) = .ok out) :
    ∃ own parent, resolveIncludes load set basedir path rest = .ok own ∧
      load (resolvePath basedir path target) loc = .ok parent ∧
        out = overParent (ungroupedAll own) parent.nodes := by
  rw [linkWith] at h
  obtain ⟨own, hown, h⟩ := of_bind_eq_ok h
  dsimp only at h
  split at h
  next => exact nomatch h
  next =>
    obtain ⟨parent, hparent, h⟩ := of_bind_eq_ok h
    cases h
    exact ⟨own, parent, hown, hparent, rfl⟩

/-- What stands at the top level of a template besides the path to another is in a tree whose
references are followed, and what that tree defines at its top level the linked one does. -/
theorem exists_resolveIncludes (h : linkWith load set basedir path ns = .ok out) :
    ∃ rest own, resolveIncludes load set basedir path rest = .ok own ∧
      (∀ n ∈ ungroupedAll ns, (∀ loc target, n ≠ .inherits loc target) → n ∈ ungroupedAll rest) ∧
        ∀ name, DefinesAtTop name own → DefinesAtTop name out := by
  by_cases hother : ∃ loc target rest, ns = .inherits loc target :: rest
  · obtain ⟨loc, target, rest, rfl⟩ := hother
    obtain ⟨own, parent, hown, -, rfl⟩ := linkWith_inherits h
    refine ⟨rest, own, hown, fun n hn hne => ?_, fun name ⟨loc', params, body, hmem⟩ => ?_⟩
    · exact (List.mem_cons.mp hn).resolve_left (hne loc target)
    · have hover : Node.mixin loc' name params body ∈ overParent (ungroupedAll own) parent.nodes :=
        mem_overParent_of_isMixin hmem rfl
      exact ⟨loc', params, body, mem_ungroupedAll hover (not_isGroup_of_mem_ungroupedAll hmem)⟩
  · rw [linkWith] at h
    · exact ⟨ns, out, h, fun n hn _ => hn, fun _ hd => hd⟩
    · exact fun loc target rest heq => hother ⟨loc, target, rest, heq⟩

end Template

variable {set : TemplateSet} {options : Options} {stack : List String} {path name : String}
  {ns out : List Node}

theorem linkTree_of_loader {target source : String} {parsed : List Node} {loc : Location}
    {loaded : Loaded} (h : loader set options stack path target loc = .ok loaded)
    (hf : set.fetch? target = some source) (hp : parseSource options source = .ok parsed) :
    linkTree set options (target :: stack) target parsed = .ok loaded.nodes := by
  obtain ⟨-, source', parsed', hf', hp', hlinked⟩ := loader_ok h
  cases hf.symm.trans hf'
  cases hp.symm.trans hp'
  exact hlinked

/-- The induction is on the inclusions that lead to the definition. -/
theorem definesAtTop_linkTree (hd : TopMixin set options name path ns)
    (h : linkTree set options stack path ns = .ok out) : DefinesAtTop name out := by
  induction hd generalizing stack out with
  | here hn =>
    rw [linkTree_eq] at h
    obtain ⟨rest, own, hown, hrest, htop⟩ := exists_resolveIncludes h
    exact htop name (definesAtTop_resolveIncludes hown (hrest _ hn fun _ _ => Node.noConfusion))
  | included hn hf hp _ ih =>
    rw [linkTree_eq] at h
    obtain ⟨rest, own, hown, hrest, htop⟩ := exists_resolveIncludes h
    have hincluded := hrest _ hn fun _ _ => Node.noConfusion
    exact htop name (definesAtTop_included hown hincluded fun loaded hload =>
      ih (linkTree_of_loader hload hf hp))

theorem definesAtTop_of_topMixin (hd : TopMixin set options name path ns)
    (h : resolveIncludes (loader set options stack path) set options.basedir path ns = .ok out) :
    DefinesAtTop name out := by
  cases hd with
  | here hn => exact definesAtTop_resolveIncludes h hn
  | included hn hf hp hd =>
    exact definesAtTop_included h hn fun loaded hload =>
      definesAtTop_linkTree hd (linkTree_of_loader hload hf hp)

end Linking

/-! ## Precedence -/

/-- A definition is written in one of some mixins: it is the mixin's own or stands in its body. -/
def WrittenIn (mixins : List Node) (name : String) (m : Mixin) : Prop :=
  ∃ top ∈ mixins, ∃ n ∈ top.postorder, n.definition? = some (name, m)

/-- What a name stands for in a template that extends another and defines it at its top level: the
last definition in its own mixins, whatever the parent has. -/
theorem find?_mixinPool_overParent {name : String} {own parent : List Node}
    (h : DefinesAtTop name own) :
    ∃ m, (mixinPool (Linking.overParent (ungroupedAll own) parent)).find? name = some m ∧
      Dictionary.last? name (definitions ((ungroupedAll own).filter Node.isMixin)) =
        some (name, m) ∧
      WrittenIn ((ungroupedAll own).filter Node.isMixin) name m := by
  obtain ⟨loc, params, body, hmem⟩ := h
  have hself : (name, ⟨params, withoutMixins body⟩) ∈
      definitions ((ungroupedAll own).filter Node.isMixin) :=
    List.mem_filterMap.mpr ⟨_, mem_postorderAll.mpr
      ⟨_, List.mem_filter.mpr ⟨hmem, rfl⟩, Node.mem_postorder_self _⟩, rfl⟩
  obtain ⟨⟨name', m⟩, hlast⟩ := Dictionary.exists_last?_of_mem hself
  have hname : name' = name := Dictionary.last?_key hlast
  subst hname
  refine ⟨m, ?_, hlast, ?_⟩
  · rw [find?_mixinPool, Linking.overParent, ← List.append_assoc, definitions_append,
      Dictionary.last?_append, hlast]
    rfl
  · obtain ⟨n, hn, hdef⟩ := List.mem_filterMap.mp (Dictionary.mem_of_last? hlast)
    obtain ⟨top, htop, hn⟩ := mem_postorderAll.mp hn
    exact ⟨top, htop, n, hn, hdef⟩

/-- Linking takes the mixins out of the merged tree, in one pass, and leaves all other nodes in order.
The pool has each name where it is defined first, with what is defined last. In a template that
extends another, a name that a mixin at its top level defines, be it through inclusions, stands for
a definition in these mixins: they come behind the statements and the tree of the parent. -/
theorem link_hoists {set : TemplateSet} {options : Options} {path : String} {nodes : List Node}
    {linked : Linked} (h : link set options path nodes = .ok linked) :
    ∃ tree, Linking.linkTree set options [path] path nodes = .ok tree ∧
      hoist tree [] = (linked.nodes, linked.mixins) ∧
      linked.nodes = withoutMixins tree ∧
      (∀ ns, withoutMixins ns =
        (ns.filter fun n => !n.isMixin).map (Node.mapBlocks withoutMixins)) ∧
      linked.mixins.keys = (Dictionary.keys (definitions tree)).eraseDups ∧
      (∀ name, linked.mixins.find? name =
        (Dictionary.last? name (definitions tree)).map (·.2)) ∧
      ∀ loc target rest, nodes = .inherits loc target :: rest → ∃ own parent,
        Linking.resolveIncludes (Linking.loader set options [path] path) set options.basedir path
            rest = .ok own ∧
          Linking.loader set options [path] path (resolvePath options.basedir path target) loc =
            .ok parent ∧
          tree = Linking.overParent (ungroupedAll own) parent.nodes ∧
          (∀ name, TopMixin set options name path rest → DefinesAtTop name own) ∧
          ∀ name, DefinesAtTop name own → ∃ m, linked.mixins.find? name = some m ∧
            Dictionary.last? name (definitions ((ungroupedAll own).filter Node.isMixin)) =
              some (name, m) ∧
            WrittenIn ((ungroupedAll own).filter Node.isMixin) name m := by
  obtain ⟨tree, ht, h⟩ := of_bind_eq_ok h
  cases h
  refine ⟨tree, ht, hoist_eq tree, rfl, withoutMixins_eq, keys_mixinPool tree,
    fun name => find?_mixinPool name tree, ?_⟩
  rintro loc target rest rfl
  rw [Linking.linkTree_eq] at ht
  obtain ⟨own, parent, hown, hparent, rfl⟩ := Linking.linkWith_inherits ht
  exact ⟨own, parent, hown, hparent, rfl, fun name hd => Linking.definesAtTop_of_topMixin hd hown,
    fun name hd => find?_mixinPool_overParent hd⟩

/-! ## A mixin that an inclusion redefines -/

namespace RedefinedMixin

open RepeatedInclusion

/-- A template that extends another and includes `a`. -/
def page : List Node :=
  [.inherits ⟨1, 1⟩ "base", inclusion 2 "a"]

/-- Both define one mixin, the parent with a parameter. -/
def set : TemplateSet :=
  [("a.pug", "mixin m"), ("base.pug", "mixin m(x)")]

def own : Node :=
  .mixin ⟨1, 1⟩ "m" [] []

def inherited : Node :=
  .mixin ⟨1, 1⟩ "m" [⟨"x", none, false⟩] []

theorem parseSource_own : parseSource {} "mixin m" = .ok [own] := by
  have hl : (lex "mixin m").bind (CommentPolicy.strip {}) =
      .ok [⟨.mixin "m" none, ⟨1, 1⟩⟩, ⟨.eos, ⟨1, 8⟩⟩] :=
    eq_ok_of_toOption (by decide +kernel)
  have hparams : paramsAt "" ⟨1, 1⟩ = .ok [] := rfl
  simp only [parseSource, hl, parseTokens, readTokens, readDocument, Node.read]
  simp [hparams, readOptionalBlock, readDocument, bind, Except.bind, pure, Except.pure, own]

theorem parseSource_inherited : parseSource {} "mixin m(x)" = .ok [inherited] := by
  have hl : (lex "mixin m(x)").bind (CommentPolicy.strip {}) =
      .ok [⟨.mixin "m" (some "x"), ⟨1, 1⟩⟩, ⟨.eos, ⟨1, 11⟩⟩] :=
    eq_ok_of_toOption (by decide +kernel)
  have hparams : paramsAt "x" ⟨1, 1⟩ = .ok [⟨"x", none, false⟩] := by
    rfl
  simp only [parseSource, hl, parseTokens, readTokens, readDocument, Node.read]
  simp [hparams, readOptionalBlock, readDocument, bind, Except.bind, pure, Except.pure, inherited]

theorem linkTree_a : Linking.linkTree set {} ["a.pug", "page.pug"] "a.pug" [own] = .ok [own] := by
  rw [Linking.linkTree_eq]
  rfl

theorem linkTree_base :
    Linking.linkTree set {} ["base.pug", "page.pug"] "base.pug" [inherited] = .ok [inherited] := by
  rw [Linking.linkTree_eq]
  rfl

theorem resolveIncludes_page :
    Linking.resolveIncludes (Linking.loader set {} ["page.pug"] "page.pug") set none "page.pug"
      [inclusion 2 "a"] = .ok [.group ⟨2, 1⟩ [own]] := by
  have ha : Linking.loader set {} ["page.pug"] "page.pug" "a.pug" ⟨2, 1⟩ = .ok ⟨[own], false⟩ := by
    rw [Linking.loader_of_fetch (by decide) rfl parseSource_own, linkTree_a]
    rfl
  rw [resolveIncludes_inclusion (resolvePath_a _ (by decide)), ha]
  rfl

theorem link_page : link set {} "page.pug" page = .ok ⟨[], [("m", ⟨[], []⟩)]⟩ := by
  have hbase : Linking.loader set {} ["page.pug"] "page.pug" "base.pug" ⟨1, 1⟩ =
      .ok ⟨[inherited], false⟩ := by
    rw [Linking.loader_of_fetch (by decide) rfl parseSource_inherited, linkTree_base]
    rfl
  have hpath : resolvePath none "page.pug" "base" = "base.pug" := rfl
  rw [link, Linking.linkTree_eq, page, Linking.linkWith, resolveIncludes_page]
  have hfind : (ungroupedAll [.group ⟨2, 1⟩ [own]]).find? (fun n => !n.mayOverride) = none := rfl
  simp only [bind, Except.bind, hfind, hpath, hbase]
  rfl

end RedefinedMixin

open RedefinedMixin in
/-- The mixin is the one that the included template defines, without a parameter. -/
theorem link_hoists_included :
    TopMixin set {} "m" "page.pug" [RepeatedInclusion.inclusion 2 "a"] ∧
      ∃ linked m, link set {} "page.pug" page = .ok linked ∧
        linked.mixins.find? "m" = some m ∧ WrittenIn [own] "m" m := by
  have htop : TopMixin set {} "m" "page.pug" [RepeatedInclusion.inclusion 2 "a"] := by
    refine .included List.mem_cons_self ?_ parseSource_own (.here List.mem_cons_self)
    rfl
  refine ⟨htop, ?_⟩
  obtain ⟨tree, -, -, -, -, -, -, hext⟩ := link_hoists link_page
  obtain ⟨own', parent, hown, -, -, htops, hfind⟩ := hext _ _ _ rfl
  cases resolveIncludes_page.symm.trans hown
  obtain ⟨m, hm, -, hwritten⟩ := hfind "m" (htops "m" htop)
  exact ⟨_, m, link_page, hm, hwritten⟩

end PugTemplate
