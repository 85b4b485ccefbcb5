import PugTemplate.Link.Resolve
import PugTemplate.Proofs.Basic
import PugTemplate.Proofs.Tree.Unplaced

/-!
# Linking without positions

Linking looks at what nodes are and never at where they stand. So it may forget the positions before
or after: of two trees that are the same up to positions come linked trees that are, if any come.
-/

namespace PugTemplate

/-! ## Rewriting -/

/-- A way to see a computation as one of another kind. -/
structure Viewing (m m' : Type → Type) [Monad m] [Monad m'] where
  view : ∀ {α : Type}, m α → m' α
  pure : ∀ {α : Type} (a : α), view (Pure.pure a) = Pure.pure a
  bind : ∀ {α β : Type} (x : m α) (f : α → m β), view (x >>= f) = view x >>= fun a => view (f a)

/-- A computation that may fail, whatever it fails with. -/
def Viewing.ofExcept (ε : Type) : Viewing (Except ε) Option where
  view := Except.toOption
  pure _ := rfl
  bind x _ := by cases x <;> rfl

def Viewing.ofId : Viewing Id Id where
  view := id
  pure _ := rfl
  bind _ _ := rfl

section Rewrite

variable {m m' : Type → Type} [Monad m] [Monad m'] [LawfulMonad m'] (y : Viewing m m')
  {replace? replace?' : Node → Option (List Node)} {finish : Node → m (List Node)}
  {finish' : Node → m' (List Node)}

/-- What the first step answers is mapped, and what the second one answers then. -/
theorem Viewing.seq {α α' β β' : Type} {x : m α} {x' : m' α'} {f : α → m β} {f' : α' → m' β'}
    {g : α → α'} {h : β → β'} (hx : x' = g <$> y.view x) (hf : ∀ a, f' (g a) = h <$> y.view (f a)) :
    x' >>= f' = h <$> y.view (x >>= f) := by
  rw [hx, y.bind, bind_map_left, map_bind]
  exact congrArg _ (funext hf)

theorem Viewing.answer {α β : Type} (g : α → β) (a : α) :
    (Pure.pure (g a) : m' β) = g <$> y.view (Pure.pure a) := by
  rw [y.pure, map_pure]

/-- Two ways to rewrite do the same with a node and with the node without positions. -/
structure Viewing.Unplaces (replace? replace?' : Node → Option (List Node))
    (finish : Node → m (List Node)) (finish' : Node → m' (List Node)) : Prop where
  replaced : ∀ n : Node, replace?' n.unplaced = (replace? n).map unplacedAll
  finished : ∀ n : Node, finish' n.unplaced = unplacedAll <$> y.view (finish n)

namespace Viewing.Unplaces

variable {y}

theorem either (r : y.Unplaces replace? replace?' finish finish') (n : Node)
    {x : m (List Node)} {x' : m' (List Node)} (hx : x' = unplacedAll <$> y.view x) :
    (match replace?' n.unplaced with
      | some ns => Pure.pure ns
      | none => x') =
      unplacedAll <$> y.view (match replace? n with
        | some ns => Pure.pure ns
        | none => x) := by
  rw [r.replaced]
  cases replace? n with
  | none => exact hx
  | some ns => exact y.answer unplacedAll ns

mutual

theorem node (r : y.Unplaces replace? replace?' finish finish') (n : Node) :
    n.unplaced.rewriteM replace?' finish' = unplacedAll <$> y.view (n.rewriteM replace? finish) := by
  rw [Node.rewriteM.eq_def, Node.rewriteM.eq_def]
  refine r.either n ?_
  match n with
  | .group loc body => exact y.seq (r.all body) fun b => r.finished (.group loc b)
  | .tag loc name head selfClosing textOnly body =>
    exact y.seq (r.all body) fun b => r.finished (.tag loc name head selfClosing textOnly b)
  | .loop loc test body => exact y.seq (r.all body) fun b => r.finished (.loop loc test b)
  | .mixin loc name params body =>
    exact y.seq (r.all body) fun b => r.finished (.mixin loc name params b)
  | .namedBlock loc name mode body =>
    exact y.seq (r.all body) fun b => r.finished (.namedBlock loc name mode b)
  | .includes loc path content =>
    exact y.seq (r.all content) fun b => r.finished (.includes loc path b)
  | .conditional loc negate test body next =>
    exact y.seq (r.all body) fun b => y.seq (r.otherwise next) fun o =>
      r.finished (.conditional loc negate test b o)
  | .switch loc subject branches =>
    exact y.seq (r.branches branches) fun bs => r.finished (.switch loc subject bs)
  | .each loc value key source body ifEmpty =>
    exact y.seq (r.all body) fun b => y.seq (r.option ifEmpty) fun o =>
      r.finished (.each loc value key source b o)
  | .call loc name args head content =>
    exact y.seq (r.option content) fun o => r.finished (.call loc name args head o)
  | .text .. | .output .. | .statements .. | .comment .. | .doctype .. | .slot _ | .rawInclude ..
  | .inherits .. | .yield _ | .filter .. => exact r.finished _

theorem all (r : y.Unplaces replace? replace?' finish finish') (ns : List Node) :
    rewriteAllM replace?' finish' (unplacedAll ns) =
      unplacedAll <$> y.view (rewriteAllM replace? finish ns) := by
  match ns with
  | [] => exact y.answer unplacedAll []
  | n :: ns =>
    rw [unplacedAll, rewriteAllM, rewriteAllM]
    refine y.seq (r.node n) fun here => y.seq (r.all ns) fun more => ?_
    rw [← unplacedAll_append]
    exact y.answer unplacedAll _

theorem otherwise (r : y.Unplaces replace? replace?' finish finish') (o : Otherwise) :
    o.unplaced.rewriteM replace?' finish' =
      Otherwise.unplaced <$> y.view (o.rewriteM replace? finish) := by
  match o with
  | .nothing => exact y.answer Otherwise.unplaced .nothing
  | .elseIf loc test body next =>
    rw [Otherwise.unplaced, Otherwise.rewriteM, Otherwise.rewriteM]
    exact y.seq (r.all body) fun b => y.seq (r.otherwise next) fun o =>
      y.answer Otherwise.unplaced (.elseIf loc test b o)
  | .otherwise loc body =>
    rw [Otherwise.unplaced, Otherwise.rewriteM, Otherwise.rewriteM]
    exact y.seq (r.all body) fun b => y.answer Otherwise.unplaced (.otherwise loc b)

theorem branches (r : y.Unplaces replace? replace?' finish finish') (bs : List Branch) :
    rewriteBranchesM replace?' finish' (unplacedBranches bs) =
      unplacedBranches <$> y.view (rewriteBranchesM replace? finish bs) := by
  match bs with
  | [] => exact y.answer unplacedBranches []
  | .mk loc test body :: bs =>
    rw [unplacedBranches, rewriteBranchesM, rewriteBranchesM]
    exact y.seq (r.option body) fun o => y.seq (r.branches bs) fun more =>
      y.answer unplacedBranches (.mk loc test o :: more)

theorem option (r : y.Unplaces replace? replace?' finish finish') (o : Option (List Node)) :
    rewriteOptionM replace?' finish' (unplacedOption o) =
      unplacedOption <$> y.view (rewriteOptionM replace? finish o) := by
  match o with
  | none => exact y.answer unplacedOption none
  | some ns =>
    rw [unplacedOption, rewriteOptionM, rewriteOptionM]
    exact y.seq (r.all ns) fun more => y.answer unplacedOption (some more)

end

end Viewing.Unplaces

end Rewrite

theorem unplacedAll_rewriteAll {replace? replace?' : Node → Option (List Node)}
    {finish finish' : Node → List Node}
    (hr : ∀ n : Node, replace?' n.unplaced = (replace? n).map unplacedAll)
    (hf : ∀ n : Node, finish' n.unplaced = unplacedAll (finish n)) (ns : List Node) :
    rewriteAll replace?' finish' (unplacedAll ns) = unplacedAll (rewriteAll replace? finish ns) :=
  Viewing.Unplaces.all (y := .ofId) ⟨hr, hf⟩ ns

/-! ## Blocks, yields and definitions -/

def Override.unplaced (o : Override) : Override :=
  { o with body := unplacedAll o.body }

def Mixin.unplaced (mixin : Mixin) : Mixin :=
  { mixin with body := unplacedAll mixin.body }

theorem unplacedAll_combine (mode : BlockMode) (body override : List Node) :
    unplacedAll (mode.combine body override) =
      mode.combine (unplacedAll body) (unplacedAll override) := by
  cases mode with
  | replace => rfl
  | append => exact unplacedAll_append body override
  | prepend => exact unplacedAll_append override body

theorem Override.replaced_unplaced (o : Override) (n : Node) :
    o.unplaced.apply? n.unplaced = unplacedAll <$> o.apply? n := by
  cases n with
  | namedBlock loc name mode body =>
    cases mode with
    | replace =>
      by_cases hname : name = o.name
      · simp [Node.unplaced, Override.apply?, Override.unplaced, unplacedAll, unplacedAll_combine,
          hname]
      · simp [Node.unplaced, Override.apply?, Override.unplaced, hname]
    | append => rfl
    | prepend => rfl
  | _ => rfl

theorem Override.merge_unplaced (o : Override) (ns : List Node) :
    o.unplaced.merge (unplacedAll ns) = unplacedAll (o.merge ns) :=
  unplacedAll_rewriteAll o.replaced_unplaced (fun _ => rfl) ns

theorem mergeAll_unplaced (overrides : List Override) (ns : List Node) :
    mergeAll (overrides.map Override.unplaced) (unplacedAll ns) =
      unplacedAll (mergeAll overrides ns) := by
  induction overrides generalizing ns with
  | nil => rfl
  | cons o overrides ih =>
    rw [List.map_cons, mergeAll, List.foldl_cons, ← mergeAll, o.merge_unplaced, ih]
    rfl

theorem withoutMixins_unplaced (ns : List Node) :
    withoutMixins (unplacedAll ns) = unplacedAll (withoutMixins ns) := by
  refine unplacedAll_rewriteAll (fun _ => rfl) (fun n => ?_) ns
  cases n <;> rfl

theorem replaceYields_unplaced (content ns : List Node) :
    replaceYields (unplacedAll content) (unplacedAll ns) =
      unplacedAll (replaceYields content ns) := by
  refine unplacedAll_rewriteAll (fun _ => rfl) (fun n => ?_) ns
  cases n <;> rfl

theorem hasYield_unplaced (ns : List Node) : hasYield (unplacedAll ns) = hasYield ns := by
  have hyield : (Node.isYield ∘ Node.unplaced) = Node.isYield :=
    funext fun n => by cases n <;> rfl
  rw [hasYield, postorderAll_unplacedAll, List.any_map, hyield]
  rfl

theorem getD_unplaced (o : Option (List Node)) (ns : List Node) :
    (o.map unplacedAll).getD (unplacedAll ns) = unplacedAll (o.getD ns) := by
  cases o <;> rfl

theorem unplacedAll_concat (ns : List Node) (n : Node) :
    unplacedAll ns ++ [n.unplaced] = unplacedAll (ns ++ [n]) :=
  (unplacedAll_append ns [n]).symm

mutual

theorem Node.extended?_unplaced (added n : Node) :
    Node.extended? added.unplaced n.unplaced = (Node.extended? added n).map Node.unplaced := by
  match n with
  | .group loc body =>
    rw [Node.unplaced, Node.extended?, Node.extended?, unplacedAll_concat,
      extendedLast?_unplaced added body, getD_unplaced]
    simp only [unplacedAll_eq_nil_iff]
    split <;> rfl
  | .tag loc name head selfClosing textOnly body =>
    rw [Node.unplaced, Node.extended?, Node.extended?, unplacedAll_concat,
      extendedLast?_unplaced added body, getD_unplaced]
    simp only [unplacedAll_eq_nil_iff]
    split <;> rfl
  | .text .. | .output .. | .statements .. | .comment .. | .doctype .. | .conditional ..
  | .switch .. | .each .. | .loop .. | .mixin .. | .call .. | .slot _ | .namedBlock ..
  | .includes .. | .rawInclude .. | .inherits .. | .yield _ | .filter .. => rfl

theorem extendedLast?_unplaced (added : Node) (ns : List Node) :
    extendedLast? added.unplaced (unplacedAll ns) = (extendedLast? added ns).map unplacedAll := by
  match ns with
  | [] => rfl
  | n :: ns =>
    rw [unplacedAll, extendedLast?, extendedLast?, extendedLast?_unplaced added ns]
    cases extendedLast? added ns with
    | some ms => rfl
    | none =>
      dsimp only [Option.map_none]
      rw [Node.extended?_unplaced added n]
      cases Node.extended? added n <;> rfl

end

theorem addDeepest_unplaced (added : Node) (ns : List Node) :
    addDeepest added.unplaced (unplacedAll ns) = unplacedAll (addDeepest added ns) := by
  rw [addDeepest, extendedLast?_unplaced, unplacedAll_concat, getD_unplaced]
  rfl

theorem spliceContent_unplaced (loc : Location) (content ns : List Node) :
    spliceContent .nowhere (unplacedAll content) (unplacedAll ns) =
      unplacedAll (spliceContent loc content ns) := by
  rw [spliceContent, spliceContent, hasYield_unplaced, replaceYields_unplaced]
  simp only [unplacedAll_eq_nil_iff]
  split
  next => rfl
  next =>
    split
    next => rfl
    next => exact addDeepest_unplaced (.group loc content) ns

mutual

theorem Node.ungrouped_unplaced (n : Node) : n.unplaced.ungrouped = unplacedAll n.ungrouped := by
  match n with
  | .group _ body => exact ungroupedAll_unplaced body
  | .tag .. | .text .. | .output .. | .statements .. | .comment .. | .doctype .. | .conditional ..
  | .switch .. | .each .. | .loop .. | .mixin .. | .call .. | .slot _ | .namedBlock ..
  | .includes .. | .rawInclude .. | .inherits .. | .yield _ | .filter .. => rfl

theorem ungroupedAll_unplaced (ns : List Node) :
    ungroupedAll (unplacedAll ns) = unplacedAll (ungroupedAll ns) := by
  match ns with
  | [] => rfl
  | n :: ns =>
    rw [unplacedAll, ungroupedAll, ungroupedAll, unplacedAll_append, n.ungrouped_unplaced,
      ungroupedAll_unplaced ns]

end

theorem Node.definition?_unplaced (n : Node) :
    n.unplaced.definition? = n.definition?.map (Prod.map id Mixin.unplaced) := by
  cases n with
  | mixin loc name params body =>
    rw [Node.unplaced, Node.definition?, withoutMixins_unplaced]
    rfl
  | _ => rfl

theorem mixinPool_unplaced (ns : List Node) :
    mixinPool (unplacedAll ns) = (mixinPool ns).map (Prod.map id Mixin.unplaced) := by
  rw [mixinPool, mixinPool, Dictionary.map_ofEntries, postorderAll_unplacedAll, List.filterMap_map,
    List.map_filterMap]
  have hdefinition : Node.definition? ∘ Node.unplaced =
      fun n => n.definition?.map (Prod.map id Mixin.unplaced) :=
    funext Node.definition?_unplaced
  rw [hdefinition]

/-! ## References -/

theorem Node.override?_unplaced (n : Node) :
    n.unplaced.override? = n.override?.map Override.unplaced := by
  cases n <;> rfl

theorem Node.isStatements_unplaced (n : Node) : n.unplaced.isStatements = n.isStatements := by
  cases n <;> rfl

theorem Node.isMixin_unplaced (n : Node) : n.unplaced.isMixin = n.isMixin := by
  cases n <;> rfl

theorem Node.mayOverride_unplaced (n : Node) : n.unplaced.mayOverride = n.mayOverride := by
  cases n <;> rfl

theorem filter_unplacedAll {p : Node → Bool} (h : ∀ n : Node, p n.unplaced = p n)
    (ns : List Node) : (unplacedAll ns).filter p = unplacedAll (ns.filter p) := by
  rw [unplacedAll_eq_map, unplacedAll_eq_map, List.filter_map,
    show p ∘ Node.unplaced = p from funext h]

theorem find?_unplacedAll {p : Node → Bool} (h : ∀ n : Node, p n.unplaced = p n)
    (ns : List Node) : (unplacedAll ns).find? p = (ns.find? p).map Node.unplaced := by
  rw [unplacedAll_eq_map, List.find?_map, show p ∘ Node.unplaced = p from funext h]

namespace Linking

theorem overParent_unplaced (root parent : List Node) :
    overParent (unplacedAll root) (unplacedAll parent) = unplacedAll (overParent root parent) := by
  have hoverrides : (unplacedAll root).filterMap Node.override? =
      (root.filterMap Node.override?).map Override.unplaced := by
    have hoverride : Node.override? ∘ Node.unplaced = fun n => n.override?.map Override.unplaced :=
      funext Node.override?_unplaced
    rw [unplacedAll_eq_map, List.filterMap_map, List.map_filterMap, hoverride]
  rw [overParent, overParent, filter_unplacedAll Node.isStatements_unplaced,
    filter_unplacedAll Node.isMixin_unplaced, hoverrides, mergeAll_unplaced, unplacedAll_append,
    unplacedAll_append]

section References

variable {load : Loader} {set : TemplateSet} {basedir : Option String} {path : String}

/-- What a reference leads to is the same wherever the reference stands. -/
def Steady (load : Loader) : Prop :=
  ∀ target loc loc', (load target loc).toOption = (load target loc').toOption

theorem included_unplaced (loaded : Loaded) (loc : Location) (content : List Node) :
    (included loaded .nowhere (unplacedAll content)).unplaced =
      (included loaded loc content).unplaced := by
  rw [included, included, Node.unplaced, Node.unplaced, ← spliceContent_unplaced,
    ← spliceContent_unplaced loc, unplacedAll_unplacedAll]

theorem includedText_unplaced (loc : Location) (text : String) (filter : Option String) :
    (includedText .nowhere text filter).unplaced = (includedText loc text filter).unplaced := by
  cases filter <;> rfl

theorem followReference_unplaced (hload : Steady load) (n : Node) :
    unplacedAll <$> (followReference load set basedir path n.unplaced).toOption =
      unplacedAll <$> (followReference load set basedir path n).toOption := by
  have hother (n : Node) : unplacedAll <$> some [n.unplaced] = unplacedAll <$> some [n] := by
    simp [unplacedAll, n.unplaced_unplaced]
  cases n with
  | inherits loc target => rfl
  | includes loc target content =>
    have h := hload (resolvePath basedir path target) .nowhere loc
    rw [Node.unplaced, followReference, followReference]
    cases hx : load (resolvePath basedir path target) .nowhere with
    | error e =>
      rw [hx] at h
      cases hy : load (resolvePath basedir path target) loc with
      | error e => rfl
      | ok loaded =>
        rw [hy] at h
        cases h
    | ok loaded =>
      rw [hx] at h
      cases hy : load (resolvePath basedir path target) loc with
      | error e =>
        rw [hy] at h
        cases h
      | ok loaded' =>
        rw [hy] at h
        cases h
        exact congrArg (fun n => some [n]) (included_unplaced loaded loc content)
  | rawInclude loc target filter =>
    rw [Node.unplaced, followReference, followReference]
    cases set.fetch? (resolvePath basedir path target) with
    | none => rfl
    | some text => exact congrArg (fun n => some [n]) (includedText_unplaced loc text filter)
  | _ => exact hother _

/-- Two answers without positions are the same if there are any. -/
theorem answers_of_toOption {ε : Type} {x y : Except ε (List Node)}
    (h : unplacedAll <$> y.toOption = unplacedAll <$> x.toOption) :
    Answers (fun ns ms => unplacedAll ms = unplacedAll ns) x y := by
  rintro ns rfl
  cases y with
  | error e => cases h
  | ok ms => exact ⟨ms, rfl, Option.some.inj h⟩

theorem answers_resolveIncludes (hload : Steady load) {ns ms : List Node}
    (h : unplacedAll ms = unplacedAll ns) :
    Answers (fun ns ms => unplacedAll ms = unplacedAll ns)
      (resolveIncludes load set basedir path ns) (resolveIncludes load set basedir path ms) := by
  have hfollow : (Viewing.ofExcept LinkFailure).Unplaces (fun _ => none) (fun _ => none)
      (followReference load set basedir path)
      fun n => unplacedAll <$> (followReference load set basedir path n).toOption :=
    ⟨fun _ => rfl, followReference_unplaced hload⟩
  refine answers_of_toOption ?_
  have hns := hfollow.all ns
  have hms := hfollow.all ms
  rw [h] at hms
  exact hms.symm.trans hns

/-- Of trees that are the same up to positions come linked trees that are. -/
theorem answers_linkWith (hload : Steady load) {ns ms : List Node}
    (h : unplacedAll ms = unplacedAll ns) :
    Answers (fun ns ms => unplacedAll ms = unplacedAll ns) (linkWith load set basedir path ns)
      (linkWith load set basedir path ms) := by
  unfold linkWith
  split
  next loc target rest =>
    obtain ⟨loc', rest', rfl, hrest⟩ : ∃ loc' rest', ms = .inherits loc' target :: rest' ∧
        unplacedAll rest' = unplacedAll rest := by
      cases ms with
      | nil => cases h
      | cons m ms =>
        obtain ⟨hm, hms⟩ := List.cons.inj h
        cases m <;> cases hm
        exact ⟨_, ms, rfl, hms⟩
    refine .bind (answers_resolveIncludes hload hrest) fun root root' hroot => ?_
    have hungrouped : unplacedAll (ungroupedAll root') = unplacedAll (ungroupedAll root) := by
      rw [← ungroupedAll_unplaced, hroot, ungroupedAll_unplaced]
    have hfind : (ungroupedAll root').find? (fun n => !n.mayOverride) = none ↔
        (ungroupedAll root).find? (fun n => !n.mayOverride) = none := by
      have hform : ∀ n : Node, (!n.unplaced.mayOverride) = !n.mayOverride :=
        fun n => by rw [n.mayOverride_unplaced]
      have heq := find?_unplacedAll (p := fun n => !n.mayOverride) hform (ungroupedAll root')
      rw [hungrouped, find?_unplacedAll (p := fun n => !n.mayOverride) hform] at heq
      rw [← Option.map_eq_none_iff (f := Node.unplaced), ← heq, Option.map_eq_none_iff]
    dsimp only
    split
    next => exact .error
    next hnone =>
      rw [hfind.mpr hnone]
      intro linked hlinked
      obtain ⟨parent, hparent, hlinked⟩ := of_bind_eq_ok hlinked
      cases hlinked
      have heq := hload (resolvePath basedir path target) loc' loc
      rw [hparent] at heq
      have hparent' := eq_ok_of_toOption heq
      refine ⟨overParent (ungroupedAll root') parent.nodes, by rw [hparent']; rfl, ?_⟩
      dsimp only
      rw [← overParent_unplaced, hungrouped, overParent_unplaced]
  next hns =>
    split
    next loc target rest =>
      match ns, h with
      | n :: ns, h =>
        obtain ⟨hn, -⟩ := List.cons.inj h
        cases n <;> cases hn
        exact absurd rfl (hns _ _ _)
    next => exact answers_resolveIncludes hload h

theorem answers_linkTree (set : TemplateSet) (options : Options) (stack : List String)
    (path : String) {ns ms : List Node} (h : unplacedAll ms = unplacedAll ns) :
    Answers (fun ns ms => unplacedAll ms = unplacedAll ns) (linkTree set options stack path ns)
      (linkTree set options stack path ms) := by
  rw [linkTree, linkTree]
  refine answers_linkWith (fun target loc loc' => ?_) h
  split
  next => rfl
  next =>
    split
    next => rfl
    next => rfl

end References

end Linking

def Linked.unplaced (linked : Linked) : Linked :=
  ⟨unplacedAll linked.nodes, linked.mixins.map (Prod.map id Mixin.unplaced)⟩

/-- Trees that are the same up to positions link to templates that are. -/
theorem answers_link (set : TemplateSet) (options : Options) (path : String) {ns ms : List Node}
    (h : unplacedAll ms = unplacedAll ns) :
    Answers (fun x y : Linked => y.unplaced = x.unplaced) (link set options path ns)
      (link set options path ms) := by
  refine .bind (Linking.answers_linkTree set options [path] path h) fun tree tree' htree => .pure ?_
  rw [Linked.unplaced, Linked.unplaced, ← mixinPool_unplaced, ← mixinPool_unplaced,
    ← withoutMixins_unplaced, ← withoutMixins_unplaced, htree]

end PugTemplate
