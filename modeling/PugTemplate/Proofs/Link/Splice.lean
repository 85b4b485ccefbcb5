import PugTemplate.Proofs.Link.Hoist

/-!
# The content of an inclusion

An inclusion stands for the tree of its template, and its content goes into that tree: into the place
of every yield, or, where there is none, behind the last nodes as deep as they reach. Either way it is
not lost, and nothing else of the tree changes.
-/

namespace PugTemplate

/-- The husks of all nodes of a tree, each behind its parts. -/
def husks (ns : List Node) : List Node :=
  (postorderAll ns).map Node.husk

theorem husks_append (ns ms : List Node) : husks (ns ++ ms) = husks ns ++ husks ms := by
  rw [husks, postorderAll_append, List.map_append]
  rfl

theorem husks_singleton (n : Node) : husks [n] = n.rows.flatMap husks ++ [n.husk] := by
  rw [husks, postorderAll, postorderAll, List.append_nil, Node.postorder_eq, Node.parts_eq,
    List.map_append, List.map_flatMap]
  rfl

theorem husks_eq_flatMap (ns : List Node) : husks ns = ns.flatMap fun n => husks [n] := by
  induction ns with
  | nil => rfl
  | cons n ns ih => rw [List.flatMap_cons, ← ih, ← husks_append, List.singleton_append]

/-- What a node leaves besides its rows, and what is made of these, tell all that is left. -/
theorem husks_of_rows {f : List Node → List Node} {own : Node → List Node}
    (h : ∀ ns, husks (f ns) = ns.flatMap fun n => n.rows.flatMap (fun row => husks (f row)) ++ own n)
    (ns : List Node) : husks (f ns) = (postorderAll ns).flatMap own := by
  induction ns using rows_induction with
  | step ns ih =>
    rw [h, postorderAll_eq_flatMap, List.flatMap_assoc]
    refine List.flatMap_congr fun n hn => ?_
    rw [Node.postorder_eq, List.flatMap_append, Node.parts_eq, List.flatMap_assoc,
      List.flatMap_congr (ih n hn), List.flatMap_singleton]

/-! ## The place of a yield -/

/-- A node with content in the place of a yield, and something made of the rows of any other node. -/
def Node.filled (content : List Node) (f : List Node → List Node) : Node → Node
  | .yield loc => .group loc content
  | n => n.mapBlocks f

theorem Node.filled_eq {n : Node} (content : List Node) (f : List Node → List Node)
    (h : n.isYield = false) : n.filled content f = n.mapBlocks f := by
  cases n with
  | yield => exact nomatch h
  | _ => rfl

/-- The husks that stand for a node, its parts left out: those of the content for a yield. -/
def Node.filledHusks (content : List Node) : Node → List Node
  | .yield loc => husks [.group loc content]
  | n => [n.husk]

theorem replaceYields_eq (content ns : List Node) :
    replaceYields content ns = ns.map (Node.filled content (replaceYields content)) := by
  conv_lhs => rw [replaceYields, rewriteAll_eq_flatMap]
  rw [← List.flatMap_singleton' (ns.map _), List.flatMap_map]
  refine List.flatMap_congr fun n _ => ?_
  cases n <;> rfl

theorem husks_replaceYields (content ns : List Node) :
    husks (replaceYields content ns) = (postorderAll ns).flatMap (Node.filledHusks content) := by
  refine husks_of_rows (fun ns => ?_) ns
  rw [replaceYields_eq, husks_eq_flatMap, List.flatMap_map]
  refine List.flatMap_congr fun n _ => ?_
  cases hy : n.isYield with
  | false =>
    rw [Node.filled_eq _ _ hy, husks_singleton, Node.rows_mapBlocks, Node.husk_mapBlocks,
      List.flatMap_map]
    cases n with
    | yield => exact nomatch hy
    | _ => rfl
  | true =>
    cases n with
    | yield => rfl
    | _ => exact nomatch hy

/-- Content stands where a yield stood. -/
theorem group_mem_replaceYields {content ns : List Node} {loc : Location}
    (h : Node.yield loc ∈ postorderAll ns) :
    Node.group loc content ∈ postorderAll (replaceYields content ns) := by
  induction ns using rows_induction with
  | step ns ih =>
    rw [replaceYields_eq]
    obtain ⟨n, hn, h⟩ := mem_postorderAll.mp h
    refine mem_postorderAll.mpr ⟨_, List.mem_map_of_mem hn, ?_⟩
    rw [Node.postorder_eq, List.mem_append, List.mem_singleton] at h
    rcases h with h | rfl
    · rw [Node.parts_eq] at h
      obtain ⟨row, hrow, h⟩ := List.mem_flatMap.mp h
      have hy : n.isYield = false := by
        cases n with
        | yield => exact absurd hrow List.not_mem_nil
        | _ => rfl
      rw [Node.filled_eq _ _ hy]
      refine Node.mem_postorder_of_mem_parts (mem_parts_of_mem_row ?_ (ih n hn row hrow h))
      rw [Node.rows_mapBlocks]
      exact List.mem_map_of_mem hrow
    · exact Node.mem_postorder_self _

theorem hasYield_iff {ns : List Node} :
    hasYield ns = true ↔ ∃ loc, Node.yield loc ∈ postorderAll ns := by
  rw [hasYield, List.any_eq_true]
  constructor
  · rintro ⟨n, hn, hy⟩
    cases n with
    | yield loc => exact ⟨loc, hn⟩
    | _ => exact nomatch hy
  · rintro ⟨loc, h⟩
    exact ⟨_, h, rfl⟩

/-! ## The end of a tree -/

/-- The row of a node that more may go behind: that of a group, or of a tag that is not text alone,
unless it is empty. -/
def Node.openRow? : Node → Option (List Node)
  | .group _ body => if body = [] then none else some body
  | .tag _ _ _ _ textOnly body => if textOnly ∨ body = [] then none else some body
  | _ => none

/-- A node stands at the end of one row of a tree and nothing else is changed: of the row that is
reached from the root by entering, again and again, the last node with an open row. -/
inductive EndsWith (added : Node) : List Node → List Node → Prop
  | here {ns : List Node} (h : ∀ n ∈ ns, n.openRow? = none) : EndsWith added ns (ns ++ [added])
  | inside {front back row row' : List Node} {n : Node} (hn : n.openRow? = some row)
      (hback : ∀ k ∈ back, k.openRow? = none) (h : EndsWith added row row') :
      EndsWith added (front ++ n :: back) (front ++ n.mapBlocks (fun _ => row') :: back)

section End

variable {added : Node} {ns out : List Node}

theorem Node.mem_rows_of_openRow? {n : Node} {row : List Node} (h : n.openRow? = some row) :
    row ∈ n.rows := by
  cases n with
  | group loc body =>
    obtain ⟨-, rfl⟩ : body ≠ [] ∧ body = row := by simpa [openRow?] using h
    exact List.mem_singleton_self _
  | tag loc name head selfClosing textOnly body =>
    obtain ⟨-, rfl⟩ : ¬ (textOnly ∨ body = []) ∧ body = row := by simpa [openRow?] using h
    exact List.mem_singleton_self _
  | _ => cases h

theorem Node.extended?_eq (added n : Node) :
    Node.extended? added n =
      n.openRow?.map fun row => n.mapBlocks fun _ => addDeepest added row := by
  cases n with
  | group loc body => by_cases h : body = [] <;> simp [extended?, openRow?, mapBlocks, addDeepest, h]
  | tag loc name head selfClosing textOnly body =>
    by_cases h : textOnly ∨ body = [] <;>
      simp [extended?, openRow?, mapBlocks, addDeepest, h]
  | _ => rfl

theorem extendedLast?_eq_none (h : ∀ n ∈ ns, n.openRow? = none) :
    extendedLast? added ns = none := by
  induction ns with
  | nil => rfl
  | cons n ns ih =>
    rw [List.forall_mem_cons] at h
    rw [extendedLast?, ih h.2, Node.extended?_eq, h.1]
    rfl

theorem extendedLast?_eq_some {front back row : List Node} {n : Node} (hn : n.openRow? = some row)
    (hback : ∀ k ∈ back, k.openRow? = none) :
    extendedLast? added (front ++ n :: back) =
      some (front ++ n.mapBlocks (fun _ => addDeepest added row) :: back) := by
  induction front with
  | nil =>
    rw [List.nil_append, extendedLast?, extendedLast?_eq_none hback, Node.extended?_eq, hn]
    rfl
  | cons k front ih =>
    rw [List.cons_append, extendedLast?, ih]
    rfl

/-- Of the nodes with an open row, one is the last. -/
theorem exists_last_open (ns : List Node) :
    (∀ n ∈ ns, n.openRow? = none) ∨ ∃ front n back row, ns = front ++ n :: back ∧
      n.openRow? = some row ∧ ∀ k ∈ back, k.openRow? = none := by
  induction ns with
  | nil => exact Or.inl fun _ h => absurd h List.not_mem_nil
  | cons n ns ih =>
    rcases ih with ih | ⟨front, k, back, row, rfl, hk, hback⟩
    · cases hn : n.openRow? with
      | none => exact Or.inl (List.forall_mem_cons.mpr ⟨hn, ih⟩)
      | some row => exact Or.inr ⟨[], n, ns, row, rfl, hn, ih⟩
    · exact Or.inr ⟨n :: front, k, back, row, rfl, hk, hback⟩

/-- There is one way to add a node at the end of a tree. -/
theorem endsWith_iff : EndsWith added ns out ↔ out = addDeepest added ns := by
  constructor
  · intro h
    induction h with
    | here h => rw [addDeepest, extendedLast?_eq_none h, Option.getD_none]
    | inside hn hback _ ih => rw [addDeepest, extendedLast?_eq_some hn hback, Option.getD_some, ih]
  · rintro rfl
    induction ns using rows_induction with
    | step ns ih =>
      rcases exists_last_open ns with h | ⟨front, n, back, row, rfl, hn, hback⟩
      · rw [addDeepest, extendedLast?_eq_none h, Option.getD_none]
        exact .here h
      · rw [addDeepest, extendedLast?_eq_some hn hback, Option.getD_some]
        refine .inside hn hback (ih n ?_ row (Node.mem_rows_of_openRow? hn))
        exact List.mem_append_right _ List.mem_cons_self

theorem EndsWith.mem (h : EndsWith added ns out) : added ∈ postorderAll out := by
  induction h with
  | @here ns h =>
    rw [postorderAll_append]
    exact List.mem_append_right _ (mem_postorderAll.mpr ⟨added, List.mem_cons_self,
      Node.mem_postorder_self added⟩)
  | @inside front back row row' n hn _ _ ih =>
    have hrow : row' ∈ (n.mapBlocks fun _ => row').rows := by
      rw [Node.rows_mapBlocks]
      exact List.mem_map.mpr ⟨row, Node.mem_rows_of_openRow? hn, rfl⟩
    refine mem_postorderAll.mpr ⟨_, List.mem_append_right _ List.mem_cons_self, ?_⟩
    exact Node.mem_postorder_of_mem_parts (mem_parts_of_mem_row hrow ih)

end End

/-! ## Content is kept -/

section Content

variable {loc : Location} {content tree : List Node}

theorem spliceContent_of_yield (hc : content ≠ []) (h : ∃ at_, Node.yield at_ ∈ postorderAll tree) :
    spliceContent loc content tree = replaceYields content tree := by
  rw [spliceContent, if_neg hc, if_pos (hasYield_iff.mpr h)]

theorem spliceContent_of_no_yield (hc : content ≠ [])
    (h : ∀ at_, Node.yield at_ ∉ postorderAll tree) :
    spliceContent loc content tree = addDeepest (.group loc content) tree := by
  have hy : ¬ hasYield tree = true := fun hy => (hasYield_iff.mp hy).elim h
  rw [spliceContent, if_neg hc, if_neg hy]

/-- Content that is not empty stands somewhere in the tree, as a whole. -/
theorem exists_group_mem_spliceContent (hc : content ≠ []) :
    ∃ at_, Node.group at_ content ∈ postorderAll (spliceContent loc content tree) := by
  by_cases h : ∃ at_, Node.yield at_ ∈ postorderAll tree
  · rw [spliceContent_of_yield hc h]
    obtain ⟨at_, h⟩ := h
    exact ⟨at_, group_mem_replaceYields h⟩
  · rw [spliceContent_of_no_yield hc fun at_ hy => h ⟨at_, hy⟩]
    exact ⟨loc, (endsWith_iff.mpr rfl).mem⟩

theorem subset_spliceContent :
    postorderAll content ⊆ postorderAll (spliceContent loc content tree) := by
  by_cases hc : content = []
  · subst hc
    exact List.nil_subset _
  · obtain ⟨at_, hgroup⟩ := exists_group_mem_spliceContent hc
    intro k hk
    exact postorderAll_closed hgroup (Node.mem_postorder_of_mem_parts hk)

end Content

namespace Linking

section Template

variable {load : Loader} {set : TemplateSet} {basedir : Option String} {path target : String}
  {loc : Location} {content ns out : List Node}

/-- A node whose references are followed keeps what is inside it. -/
theorem subset_followReference {n : Node} (h : followReference load set basedir path n = .ok out) :
    n.parts ⊆ postorderAll out := by
  have hself : n.parts ⊆ postorderAll [n] := fun k hk =>
    mem_postorderAll.mpr ⟨n, List.mem_cons_self, Node.mem_postorder_of_mem_parts hk⟩
  match n with
  | .inherits .. => cases h
  | .includes loc target content =>
    rw [followReference] at h
    obtain ⟨loaded, -, h⟩ := of_bind_eq_ok h
    cases h
    intro k hk
    refine mem_postorderAll.mpr ⟨_, List.mem_cons_self, Node.mem_postorder_of_mem_parts ?_⟩
    exact subset_spliceContent hk
  | .rawInclude .. => exact List.nil_subset _
  | .group .. | .tag .. | .text .. | .output .. | .statements .. | .comment .. | .doctype ..
  | .conditional .. | .switch .. | .each .. | .loop .. | .mixin .. | .call .. | .slot _
  | .namedBlock .. | .yield _ | .filter .. =>
    cases h
    exact hself

theorem resolveIncludes_includes {c : List Node} {loaded : Loaded}
    (hc : resolveIncludes load set basedir path content = .ok c)
    (hl : load (resolvePath basedir path target) loc = .ok loaded) :
    resolveIncludes load set basedir path [.includes loc target content] =
      .ok [included loaded loc c] := by
  rw [resolveIncludes, rewriteAllM, Node.rewriteM, ← resolveIncludes, hc]
  show (do
    let here ← followReference load set basedir path (.includes loc target c)
    return here ++ (← rewriteAllM _ _ [])) = _
  rw [followReference, hl, rewriteAllM]
  rfl

theorem resolveIncludes_cons (n : Node) (ns : List Node) :
    resolveIncludes load set basedir path (n :: ns) = do
      let here ← resolveIncludes load set basedir path [n]
      let more ← resolveIncludes load set basedir path ns
      return here ++ more := by
  rw [resolveIncludes, resolveIncludes, resolveIncludes, rewriteAllM, rewriteAllM, rewriteAllM]
  simp only [pure_bind, bind_assoc, List.append_nil]

/-- Every inclusion in a tree whose references are followed became a group, which stands there. -/
theorem exists_included (h : resolveIncludes load set basedir path ns = .ok out)
    (hn : Node.includes loc target content ∈ postorderAll ns) :
    ∃ c loaded, resolveIncludes load set basedir path content = .ok c ∧
      load (resolvePath basedir path target) loc = .ok loaded ∧
        included loaded loc c ∈ postorderAll out := by
  obtain ⟨ms, hms, hsub⟩ := exists_rewriteM_of_mem (fun _ _ => subset_followReference) h hn
  rw [Node.rewriteM] at hms
  obtain ⟨c, hc, hms⟩ := of_bind_eq_ok hms
  rw [followReference] at hms
  obtain ⟨loaded, hl, hms⟩ := of_bind_eq_ok hms
  cases hms
  exact ⟨c, loaded, hc, hl, hsub (mem_postorderAll.mpr
    ⟨_, List.mem_cons_self, Node.mem_postorder_self _⟩)⟩

/-- The nodes of a template besides the reference to the one that it extends. -/
def ownNodes : List Node → List Node
  | .inherits _ _ :: rest => rest
  | ns => ns

/-- To link a template, the references among its own nodes are followed. -/
theorem exists_own (h : linkWith load set basedir path ns = .ok out) :
    ∃ own, resolveIncludes load set basedir path (ownNodes ns) = .ok own ∧
      (extendsOther ns = false → out = own) := by
  unfold linkWith at h
  split at h
  next loc target rest =>
    obtain ⟨own, hown, -⟩ := of_bind_eq_ok h
    exact ⟨own, hown, fun he => nomatch he⟩
  next hne =>
    refine ⟨out, ?_, fun _ => rfl⟩
    unfold ownNodes
    split
    next loc target rest => exact absurd rfl (hne loc target rest)
    next => exact h

theorem mem_ownNodes {n : Node} (hn : n ∈ postorderAll ns)
    (hne : ∀ loc target, n ≠ .inherits loc target) : n ∈ postorderAll (ownNodes ns) := by
  unfold ownNodes
  split
  next loc target rest =>
    rw [postorderAll, List.mem_append] at hn
    exact hn.resolve_left fun h => hne loc target (List.mem_singleton.mp h)
  next => exact hn

end Template

/-- An inclusion in a template that is being linked: its content is done, and the template it leads to
is read and linked. -/
structure Inclusion (set : TemplateSet) (options : Options) (stack : List String)
    (path target : String) (content parsed linked done : List Node) : Prop where
  fresh : resolvePath options.basedir path target ∉ stack
  read : ∃ source, set.fetch? (resolvePath options.basedir path target) = some source ∧
    parseSource options source = .ok parsed
  linked : linkTree set options (resolvePath options.basedir path target :: stack)
    (resolvePath options.basedir path target) parsed = .ok linked
  done : resolveIncludes (loader set options stack path) set options.basedir path content = .ok done

/-- The tree that an included template contributes, before content goes into it. -/
def contributed (parsed linked : List Node) : List Node :=
  if extendsOther parsed then closeBlocks linked else linked

variable {set : TemplateSet} {options : Options} {stack : List String} {path target : String}
  {loc : Location} {content parsed linked done ns out : List Node}

/-- An inclusion becomes the tree of its template with the content in it. -/
theorem Inclusion.resolve (h : Inclusion set options stack path target content parsed linked done) :
    resolveIncludes (loader set options stack path) set options.basedir path
        [.includes loc target content] =
      .ok [.group loc (spliceContent loc done (contributed parsed linked))] := by
  obtain ⟨source, hf, hp⟩ := h.read
  have hl : loader set options stack path (resolvePath options.basedir path target) loc =
      .ok ⟨linked, extendsOther parsed⟩ := by
    rw [loader_of_fetch h.fresh hf hp, h.linked]
    rfl
  exact resolveIncludes_includes h.done hl

theorem exists_inclusion (h : linkTree set options stack path ns = .ok out)
    (hn : Node.includes loc target content ∈ postorderAll ns) :
    ∃ own parsed linked done,
      resolveIncludes (loader set options stack path) set options.basedir path (ownNodes ns) =
          .ok own ∧
        (extendsOther ns = false → out = own) ∧
        Inclusion set options stack path target content parsed linked done ∧
        Node.group loc (spliceContent loc done (contributed parsed linked)) ∈ postorderAll own := by
  rw [linkTree_eq] at h
  obtain ⟨own, hown, hout⟩ := exists_own h
  obtain ⟨done, loaded, hdone, hl, hmem⟩ :=
    exists_included hown (mem_ownNodes hn fun _ _ => Node.noConfusion)
  obtain ⟨hs, source, parsed, hf, hp, hlinked⟩ := loader_ok hl
  have hi : Inclusion set options stack path target content parsed loaded.nodes done :=
    ⟨hs, ⟨source, hf, hp⟩, hlinked, hdone⟩
  -- on its own the inclusion becomes the same group
  have hself := hi.resolve.symm.trans (resolveIncludes_includes hdone hl)
  rw [← List.head_eq_of_cons_eq (Except.ok.inj hself)] at hmem
  exact ⟨own, parsed, loaded.nodes, done, hown, hout, hi, hmem⟩

end Linking

/-- The content of an inclusion takes the place of each yield in the tree of the included template,
once for each, and the yields in the content stay. A tree without a yield has it at its end, in the
one row that is reached by entering the last open node again and again. Nothing else changes, and
without content nothing does. In a template that is linked every inclusion becomes such a tree. -/
theorem inclusion_keeps_content (set : TemplateSet) (options : Options) (stack : List String)
    (path target : String) (loc : Location) (content : List Node) :
    let resolve := Linking.resolveIncludes (Linking.loader set options stack path) set
      options.basedir path
    (∀ parsed linked done,
      Linking.Inclusion set options stack path target content parsed linked done →
        let tree := Linking.contributed parsed linked
        ∃ out, resolve [.includes loc target content] = .ok [.group loc out] ∧
          (done = [] → out = tree) ∧
          (done ≠ [] → (∃ at_, Node.yield at_ ∈ postorderAll tree) →
            out = replaceYields done tree ∧
              (∀ ns, replaceYields done ns = ns.map (Node.filled done (replaceYields done))) ∧
              husks out = (postorderAll tree).flatMap (Node.filledHusks done)) ∧
          (done ≠ [] → (∀ at_, Node.yield at_ ∉ postorderAll tree) →
            ∀ other, EndsWith (.group loc done) tree other ↔ other = out)) ∧
      ∀ ns linkedTree, Linking.linkTree set options stack path ns = .ok linkedTree →
        .includes loc target content ∈ postorderAll ns →
          ∃ own parsed linked done out, resolve (Linking.ownNodes ns) = .ok own ∧
            (extendsOther ns = false → linkedTree = own) ∧
            Linking.Inclusion set options stack path target content parsed linked done ∧
            resolve [.includes loc target content] = .ok [.group loc out] ∧
            .group loc out ∈ postorderAll own := by
  intro resolve
  refine ⟨fun parsed linked done h => ?_, fun ns linkedTree h hn => ?_⟩
  · refine ⟨_, h.resolve, fun hd => ?_, fun hd hy => ?_, fun hd hy other => ?_⟩
    · rw [spliceContent, if_pos hd]
    · rw [spliceContent_of_yield hd hy]
      exact ⟨rfl, replaceYields_eq done, husks_replaceYields done _⟩
    · rw [spliceContent_of_no_yield hd hy]
      exact endsWith_iff
  · obtain ⟨own, parsed, linked, done, hown, hout, hi, hmem⟩ := Linking.exists_inclusion h hn
    exact ⟨own, parsed, linked, done, _, hown, hout, hi, hi.resolve, hmem⟩

namespace YieldedInclusion

/-- An element that holds some nodes. -/
def tree (body : List Node) : List Node :=
  [.tag ⟨1, 1⟩ (.fixed "p") {} false false body]

def inner : Node :=
  .tag ⟨1, 4⟩ (.fixed "b") {} false false []

/-- Two inclusions with a yield as their content. -/
def page : List Node :=
  [.includes ⟨1, 1⟩ "a" [.yield ⟨2, 3⟩], .includes ⟨3, 1⟩ "b" [.yield ⟨4, 3⟩]]

def set : TemplateSet :=
  [("a.pug", "p: yield"), ("b.pug", "p: b")]

theorem parseSource_a : parseSource {} "p: yield" = .ok (tree [.yield ⟨1, 4⟩]) := by
  have hl : (lex "p: yield").bind (CommentPolicy.strip {}) =
      .ok [⟨.tag "p", ⟨1, 1⟩⟩, ⟨.colon, ⟨1, 2⟩⟩, ⟨.yield, ⟨1, 4⟩⟩, ⟨.eos, ⟨1, 9⟩⟩] :=
    eq_ok_of_toOption (by decide +kernel)
  simp only [parseSource, hl, parseTokens, readTokens, readDocument, Node.read]
  simp [readElement, Head.read, readInline, Node.readHere, Node.read, readOptionalBlock,
    readDocument, bind, Except.bind, pure, Except.pure, tree]

theorem parseSource_b : parseSource {} "p: b" = .ok (tree [inner]) := by
  have hl : (lex "p: b").bind (CommentPolicy.strip {}) =
      .ok [⟨.tag "p", ⟨1, 1⟩⟩, ⟨.colon, ⟨1, 2⟩⟩, ⟨.tag "b", ⟨1, 4⟩⟩, ⟨.eos, ⟨1, 5⟩⟩] :=
    eq_ok_of_toOption (by decide +kernel)
  simp only [parseSource, hl, parseTokens, readTokens, readDocument, Node.read]
  simp [readElement, Head.read, readInline, Node.readHere, Node.read, readOptionalBlock,
    readDocument, bind, Except.bind, pure, Except.pure, tree, inner]

theorem inclusion_a : Linking.Inclusion set {} ["page.pug"] "page.pug" "a" [.yield ⟨2, 3⟩]
    (tree [.yield ⟨1, 4⟩]) (tree [.yield ⟨1, 4⟩]) [.yield ⟨2, 3⟩] where
  fresh := by decide
  read := ⟨"p: yield", rfl, parseSource_a⟩
  linked := by
    rw [Linking.linkTree_eq]
    rfl
  done := rfl

theorem inclusion_b : Linking.Inclusion set {} ["page.pug"] "page.pug" "b" [.yield ⟨4, 3⟩]
    (tree [inner]) (tree [inner]) [.yield ⟨4, 3⟩] where
  fresh := by decide
  read := ⟨"p: b", rfl, parseSource_b⟩
  linked := by
    rw [Linking.linkTree_eq]
    rfl
  done := rfl

theorem linkTree_page : Linking.linkTree set {} ["page.pug"] "page.pug" page =
    .ok [.group ⟨1, 1⟩ (tree [.group ⟨1, 4⟩ [.yield ⟨2, 3⟩]]),
      .group ⟨3, 1⟩ (tree [inner, .group ⟨3, 1⟩ [.yield ⟨4, 3⟩]])] := by
  rw [Linking.linkTree_eq, page, Linking.linkWith, Linking.resolveIncludes_cons,
    inclusion_a.resolve, inclusion_b.resolve]
  · rfl
  · rintro _ _ _ ⟨⟩

end YieldedInclusion

open YieldedInclusion in
/-- The content takes the place of the one yield, and in the other tree it stands behind the last node
of the element. Its own yields stay. -/
theorem inclusion_keeps_content_yields :
    Linking.Inclusion set {} ["page.pug"] "page.pug" "a" [.yield ⟨2, 3⟩]
        (tree [.yield ⟨1, 4⟩]) (tree [.yield ⟨1, 4⟩]) [.yield ⟨2, 3⟩] ∧
      Linking.Inclusion set {} ["page.pug"] "page.pug" "b" [.yield ⟨4, 3⟩]
        (tree [inner]) (tree [inner]) [.yield ⟨4, 3⟩] ∧
      ∃ linkedTree, Linking.linkTree set {} ["page.pug"] "page.pug" page = .ok linkedTree ∧
        .group ⟨1, 1⟩ (tree [.group ⟨1, 4⟩ [.yield ⟨2, 3⟩]]) ∈ postorderAll linkedTree ∧
        .group ⟨3, 1⟩ (tree [inner, .group ⟨3, 1⟩ [.yield ⟨4, 3⟩]]) ∈ postorderAll linkedTree := by
  have hyield : ∃ at_, Node.yield at_ ∈ postorderAll (tree [.yield ⟨1, 4⟩]) :=
    ⟨⟨1, 4⟩, List.mem_cons_self⟩
  have hnone : ∀ at_, Node.yield at_ ∉ postorderAll (tree [inner]) := by
    intro at_ h
    simp [tree, YieldedInclusion.inner, postorderAll, Node.postorder] at h
  refine ⟨inclusion_a, inclusion_b, _, linkTree_page, ?_, ?_⟩
  · obtain ⟨hgiven, hlinked⟩ := inclusion_keeps_content set {} ["page.pug"] "page.pug" "a" ⟨1, 1⟩
      [.yield ⟨2, 3⟩]
    obtain ⟨out, hout, -, hyields, -⟩ := hgiven _ _ _ inclusion_a
    obtain ⟨own, -, -, -, out', -, hown, -, hout', hmem⟩ :=
      hlinked _ _ linkTree_page (by simp [page, postorderAll, Node.postorder])
    cases hout.symm.trans hout'
    have heq : out = tree [.group ⟨1, 4⟩ [.yield ⟨2, 3⟩]] :=
      (hyields (List.cons_ne_nil _ _) hyield).1
    rw [hown rfl, ← heq]
    exact hmem
  · obtain ⟨hgiven, hlinked⟩ := inclusion_keeps_content set {} ["page.pug"] "page.pug" "b" ⟨3, 1⟩
      [.yield ⟨4, 3⟩]
    obtain ⟨out, hout, -, -, hends⟩ := hgiven _ _ _ inclusion_b
    obtain ⟨own, -, -, -, out', -, hown, -, hout', hmem⟩ :=
      hlinked _ _ linkTree_page (by simp [page, postorderAll, Node.postorder])
    cases hout.symm.trans hout'
    -- the only node of the tree is open, and the node in it is not
    have hend : EndsWith (.group ⟨3, 1⟩ [.yield ⟨4, 3⟩]) (tree [inner])
        (tree [inner, .group ⟨3, 1⟩ [.yield ⟨4, 3⟩]]) := by
      refine @EndsWith.inside _ [] [] [inner] _ _ rfl (fun _ h => absurd h List.not_mem_nil) (.here ?_)
      exact fun n hn => List.mem_singleton.mp hn ▸ rfl
    rw [hown rfl, (hends (List.cons_ne_nil _ _) hnone _).mp hend]
    exact hmem

end PugTemplate
