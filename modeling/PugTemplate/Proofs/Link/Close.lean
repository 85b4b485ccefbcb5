import PugTemplate.Proofs.Link.Inherit
import PugTemplate.Proofs.Link.Splice

/-!
# Closed blocks

A template that extends another gives up its blocks when it is included: they become groups, and no
override finds a block in the tree any more. What it includes itself, and the content of the
inclusion, stay open.
-/

namespace PugTemplate

/-! ## Blocks become groups -/

/-- A node that is a group if it was a block, with something made of each row that it holds. -/
def Node.closed (f : List Node → List Node) : Node → Node
  | .namedBlock loc _ _ body => .group loc (f body)
  | n => n.mapBlocks f

/-- The husk that stands for a node in a tree whose blocks are closed. -/
def Node.closedHusk : Node → Node
  | .namedBlock loc _ _ _ => .group loc []
  | n => n.husk

theorem closeBlocks_eq (ns : List Node) : closeBlocks ns = ns.map (Node.closed closeBlocks) := by
  conv_lhs => rw [closeBlocks, rewriteAll_eq_flatMap]
  rw [← List.flatMap_singleton' (ns.map _), List.flatMap_map]
  refine List.flatMap_congr fun n _ => ?_
  cases n <;> rfl

theorem Node.rows_closed (f : List Node → List Node) (n : Node) :
    (n.closed f).rows = n.rows.map f := by
  unfold Node.closed
  split
  next => rfl
  next => exact Node.rows_mapBlocks _

theorem Node.husk_closed (f : List Node → List Node) (n : Node) :
    (n.closed f).husk = n.closedHusk := by
  cases n <;> rfl

/-- Nodes are neither added nor lost, and blocks alone become something else. -/
theorem husks_closeBlocks (ns : List Node) :
    husks (closeBlocks ns) = (postorderAll ns).map Node.closedHusk := by
  rw [← List.flatMap_singleton' ((postorderAll ns).map _), List.flatMap_map]
  refine husks_of_rows (fun ns => ?_) ns
  rw [closeBlocks_eq, husks_eq_flatMap, List.flatMap_map]
  refine List.flatMap_congr fun n _ => ?_
  rw [husks_singleton, Node.rows_closed, Node.husk_closed, List.flatMap_map]

/-- No block is left. -/
theorem namedBlock_not_mem_closeBlocks {ns : List Node} {loc : Location} {name : String}
    {mode : BlockMode} {body : List Node} :
    Node.namedBlock loc name mode body ∉ postorderAll (closeBlocks ns) := by
  intro h
  have hhusk : Node.namedBlock loc name mode [] ∈ husks (closeBlocks ns) := List.mem_map_of_mem h
  rw [husks_closeBlocks] at hhusk
  obtain ⟨n, -, hn⟩ := List.mem_map.mp hhusk
  cases n <;> exact nomatch hn

theorem undeclared_closeBlocks (ns : List Node) : Undeclared (closeBlocks ns) := by
  intro k hk
  match k with
  | .namedBlock .. => exact absurd hk namedBlock_not_mem_closeBlocks
  | .group .. | .tag .. | .text .. | .output .. | .statements .. | .comment .. | .doctype ..
  | .conditional .. | .switch .. | .each .. | .loop .. | .mixin .. | .call .. | .slot _
  | .includes .. | .rawInclude .. | .inherits .. | .yield _ | .filter .. => rfl

/-! ## Overrides pass through -/

theorem Node.declared?_mapBlocks (f : List Node → List Node) (n : Node) :
    (n.mapBlocks f).declared? = n.declared? := by
  cases n with
  | namedBlock _ _ mode _ => cases mode <;> rfl
  | _ => rfl

theorem undeclared_append {ns ms : List Node} :
    Undeclared (ns ++ ms) ↔ Undeclared ns ∧ Undeclared ms := by
  rw [Undeclared, postorderAll_append, List.forall_mem_append]
  rfl

theorem Undeclared.declared? {ns : List Node} (h : Undeclared ns) {n : Node} (hn : n ∈ ns) :
    n.declared? = none :=
  h n (mem_postorderAll.mpr ⟨n, hn, Node.mem_postorder_self n⟩)

theorem Undeclared.row {ns : List Node} (h : Undeclared ns) {n : Node} (hn : n ∈ ns)
    {row : List Node} (hrow : row ∈ n.rows) : Undeclared row := fun k hk =>
  h k (mem_postorderAll.mpr
    ⟨n, hn, Node.mem_postorder_of_mem_parts (mem_parts_of_mem_row hrow hk)⟩)

namespace Override

variable {o : Override} {os : List Override} {ns out content : List Node} {loc : Location}

theorem merge_eq_flatMap (ns : List Node) :
    o.merge ns = ns.flatMap fun n => o.apply? n |>.getD [n.mapBlocks o.merge] :=
  rewriteAll_eq_flatMap ns

theorem merge_append (ns ms : List Node) : o.merge (ns ++ ms) = o.merge ns ++ o.merge ms := by
  rw [merge_eq_flatMap, List.flatMap_append, ← merge_eq_flatMap, ← merge_eq_flatMap]

theorem merge_singleton {n : Node} (h : n.declared? = none) :
    o.merge [n] = [n.mapBlocks o.merge] := by
  rw [merge_eq_flatMap, List.flatMap_singleton, passes_undeclared h, Option.getD_none]

theorem merge_undeclared (h : Undeclared ns) : o.merge ns = ns :=
  merge_eq_self fun k hk => by simp [h k hk]

theorem ne_nil_of_applies (n : Node) : o.apply? n ≠ some [] := by
  unfold Override.apply?
  cases n with
  | namedBlock loc name mode body => cases mode <;> simp
  | _ => simp

theorem merge_eq_nil : o.merge ns = [] ↔ ns = [] := by
  rw [merge_eq_flatMap, List.flatMap_eq_nil_iff]
  constructor
  · intro h
    refine List.eq_nil_iff_forall_not_mem.mpr fun n hn => ?_
    have hnil := h n hn
    cases ha : o.apply? n with
    | none => simp [ha] at hnil
    | some ms =>
      rw [ha, Option.getD_some] at hnil
      exact ne_nil_of_applies n (hnil ▸ ha)
  · rintro rfl n hn
    exact absurd hn List.not_mem_nil

/-- Where content takes the place of yields, an override reaches the content alone. -/
theorem merge_replaceYields (h : Undeclared ns) :
    o.merge (replaceYields content ns) = replaceYields (o.merge content) ns := by
  induction ns using rows_induction with
  | step ns ih =>
    rw [replaceYields_eq, replaceYields_eq, merge_eq_flatMap, List.flatMap_map,
      ← List.flatMap_singleton' (ns.map _), List.flatMap_map]
    refine List.flatMap_congr fun n hn => ?_
    have hrows : ∀ row ∈ n.rows, (o.merge ∘ replaceYields content) row =
        replaceYields (o.merge content) row := fun row hrow => ih n hn row hrow (h.row hn hrow)
    unfold Node.filled
    split
    next => rfl
    next =>
      rw [passes_undeclared ((n.declared?_mapBlocks _).trans (h.declared? hn)), Option.getD_none,
        Node.mapBlocks_mapBlocks, Node.mapBlocks_congr hrows]

/-- Where content goes behind the last nodes, an override reaches the content alone. -/
theorem merge_endsWith (hns : Undeclared ns) (h : EndsWith (.group loc content) ns out) :
    EndsWith (.group loc (o.merge content)) ns (o.merge out) := by
  induction h with
  | here hopen =>
    rw [merge_append, merge_undeclared hns, merge_singleton rfl]
    exact .here hopen
  | @inside front back row row' n hrow hback _ ih =>
    obtain ⟨hfront, hns⟩ := undeclared_append.mp hns
    have hn : n.declared? = none := hns.declared? List.mem_cons_self
    have hb : Undeclared back := fun k hk => hns k (by
      rw [postorderAll]
      exact List.mem_append_right _ hk)
    have hnode : o.merge (n.mapBlocks (fun _ => row') :: back) =
        n.mapBlocks (fun _ => o.merge row') :: back := by
      rw [← List.singleton_append, merge_append, merge_undeclared hb,
        merge_singleton ((n.declared?_mapBlocks _).trans hn), Node.mapBlocks_mapBlocks]
      rfl
    rw [merge_append, merge_undeclared hfront, hnode]
    exact .inside hrow hback (ih (hns.row List.mem_cons_self (Node.mem_rows_of_openRow? hrow)))

/-- Of an inclusion, overrides reach the content alone if its tree declares nothing. -/
theorem merge_spliceContent (h : Undeclared ns) :
    o.merge (spliceContent loc content ns) = spliceContent loc (o.merge content) ns := by
  by_cases hc : content = []
  · have hnil : o.merge content = [] := merge_eq_nil.mpr hc
    rw [spliceContent, spliceContent, if_pos hc, if_pos hnil, merge_undeclared h]
  · have hnil : o.merge content ≠ [] := mt merge_eq_nil.mp hc
    by_cases hy : ∃ at_, Node.yield at_ ∈ postorderAll ns
    · rw [spliceContent_of_yield hc hy, spliceContent_of_yield hnil hy, merge_replaceYields h]
    · rw [not_exists] at hy
      rw [spliceContent_of_no_yield hc hy, spliceContent_of_no_yield hnil hy]
      exact endsWith_iff.mp (merge_endsWith h (endsWith_iff.mpr rfl))

end Override

theorem mergeAll_undeclared {os : List Override} {ns : List Node} (h : Undeclared ns) :
    mergeAll os ns = ns := by
  induction os with
  | nil => rfl
  | cons o os ih => rw [mergeAll, List.foldl_cons, o.merge_undeclared h, ← mergeAll, ih]

theorem mergeAll_spliceContent {os : List Override} {loc : Location} {content ns : List Node}
    (h : Undeclared ns) :
    mergeAll os [.group loc (spliceContent loc content ns)] =
      [.group loc (spliceContent loc (mergeAll os content) ns)] := by
  induction os generalizing content with
  | nil => rfl
  | cons o os ih =>
    have hone : o.merge [.group loc (spliceContent loc content ns)] =
        [.group loc (spliceContent loc (o.merge content) ns)] := by
      rw [Override.merge_singleton rfl, Node.mapBlocks, Override.merge_spliceContent h]
    rw [mergeAll, mergeAll, List.foldl_cons, List.foldl_cons, hone]
    exact ih

/-- The tree that an inclusion contributes has no block if its template extends another: it is the
tree of that template in which every block, in whatever mode, is a group of the same nodes. No
override finds anything in it, and what overrides make of the inclusion they make of its content.
A template that does not extend another contributes its tree with its blocks as they are. In a
template that is linked every inclusion becomes such a tree. -/
theorem inclusion_closes_blocks (set : TemplateSet) (options : Options) (stack : List String)
    (path target : String) (loc : Location) (content : List Node) :
    let resolve := Linking.resolveIncludes (Linking.loader set options stack path) set
      options.basedir path
    (∀ parsed linked done,
      Linking.Inclusion set options stack path target content parsed linked done →
        ∃ tree, resolve [.includes loc target content] =
            .ok [.group loc (spliceContent loc done tree)] ∧
          (extendsOther parsed = true →
            (∀ at_ name mode body, .namedBlock at_ name mode body ∉ postorderAll tree) ∧
            (tree = closeBlocks linked ∧
              (∀ ns, closeBlocks ns = ns.map (Node.closed closeBlocks)) ∧
              husks tree = (postorderAll linked).map Node.closedHusk) ∧
            (∀ o : Override, (∀ n ∈ postorderAll tree, o.apply? n = none) ∧ o.merge tree = tree) ∧
            ∀ os, mergeAll os tree = tree ∧
              mergeAll os [.group loc (spliceContent loc done tree)] =
                [.group loc (spliceContent loc (mergeAll os done) tree)]) ∧
          (extendsOther parsed = false → tree = linked)) ∧
      ∀ ns linkedTree, Linking.linkTree set options stack path ns = .ok linkedTree →
        .includes loc target content ∈ postorderAll ns →
          ∃ own parsed linked done out, resolve (Linking.ownNodes ns) = .ok own ∧
            (extendsOther ns = false → linkedTree = own) ∧
            Linking.Inclusion set options stack path target content parsed linked done ∧
            resolve [.includes loc target content] = .ok [.group loc out] ∧
            .group loc out ∈ postorderAll own := by
  intro resolve
  refine ⟨fun parsed linked done h => ?_, fun ns linkedTree h hn => ?_⟩
  · refine ⟨_, h.resolve, fun he => ?_, fun he => ?_⟩
    · rw [Linking.contributed, if_pos he]
      have hplain : Undeclared (closeBlocks linked) := undeclared_closeBlocks linked
      refine ⟨fun _ _ _ _ => namedBlock_not_mem_closeBlocks,
        ⟨rfl, closeBlocks_eq, husks_closeBlocks linked⟩, fun o => ?_, fun os => ?_⟩
      · exact ⟨fun n hn => o.passes_undeclared (hplain n hn), o.merge_undeclared hplain⟩
      · exact ⟨mergeAll_undeclared hplain, mergeAll_spliceContent hplain⟩
    · rw [Linking.contributed, if_neg (ne_true_of_eq_false he)]
  · obtain ⟨own, parsed, linked, done, hown, hout, hi, hmem⟩ := Linking.exists_inclusion h hn
    exact ⟨own, parsed, linked, done, _, hown, hout, hi, hi.resolve, hmem⟩

namespace ClosedInclusion

open OverriddenBlock

def set : TemplateSet :=
  [("base.pug", "block a"), ("mid.pug", source)]

/-- A block of the same name as the included one. -/
def block : Node :=
  .namedBlock ⟨2, 3⟩ "a" .replace []

theorem linkTree_mid : Linking.linkTree set {} ["mid.pug", "page.pug"] "mid.pug" nodes =
    .ok (mergeAll [override] [plain]) := by
  have hmid : Lineage set {} [plain] "mid.pug" ["base.pug"] nodes [override] :=
    lineage rfl parseSource_plain (rfl) (by decide)
  refine Linking.linkTree_lineage ?_ hmid _ (by decide)
  simp [plain, postorderAll, Node.postorder, Node.target?]

theorem inclusion_mid : Linking.Inclusion set {} ["page.pug"] "page.pug" "mid" [block] nodes
    [.namedBlock ⟨1, 1⟩ "a" .replace override.body] [block] where
  fresh := by decide
  read := ⟨source, rfl, parseSource_source⟩
  linked := linkTree_mid.trans rfl
  done := rfl

theorem inclusion_base : Linking.Inclusion set {} ["page.pug"] "page.pug" "base" [] [plain]
    [plain] [] where
  fresh := by decide
  read := ⟨"block a", rfl, parseSource_plain⟩
  linked := by
    rw [Linking.linkTree_eq]
    rfl
  done := rfl

end ClosedInclusion

open OverriddenBlock ClosedInclusion in
/-- A block that the included template inherited stays as it is when its name is overridden, and a
block in the content of the inclusion does not. Of the template that declares the block itself, it
stays a block. -/
theorem inclusion_closes_blocks_override :
    Linking.resolveIncludes (Linking.loader set {} ["page.pug"] "page.pug") set none "page.pug"
        [.includes ⟨1, 1⟩ "mid" [block]] =
      .ok [.group ⟨1, 1⟩ [.group ⟨1, 1⟩ (override.body ++ [.group ⟨1, 1⟩ [block]])]] ∧
    prefixing.merge
        [.group ⟨1, 1⟩ [.group ⟨1, 1⟩ (override.body ++ [.group ⟨1, 1⟩ [block]])]] =
      [.group ⟨1, 1⟩ [.group ⟨1, 1⟩ (override.body ++
        [.group ⟨1, 1⟩ [.namedBlock ⟨2, 3⟩ "a" .replace prefixing.body]])]] ∧
    Linking.resolveIncludes (Linking.loader set {} ["page.pug"] "page.pug") set none "page.pug"
        [.includes ⟨3, 1⟩ "base" []] = .ok [.group ⟨3, 1⟩ [plain]] := by
  obtain ⟨tree, hout, hextends, -⟩ := (inclusion_closes_blocks set {} ["page.pug"] "page.pug" "mid"
    ⟨1, 1⟩ [block]).1 _ _ _ inclusion_mid
  obtain ⟨-, ⟨rfl, -, -⟩, -, hmerge⟩ := hextends rfl
  obtain ⟨other, hother, -, hown⟩ := (inclusion_closes_blocks set {} ["page.pug"] "page.pug" "base"
    ⟨3, 1⟩ []).1 _ _ _ inclusion_base
  obtain rfl := hown rfl
  exact ⟨hout, (hmerge [prefixing]).2, hother⟩

end PugTemplate
