import PugTemplate.Link.Block
import PugTemplate.Proofs.Tree.Rewrite

/-!
# What the steps of linking keep

Every step makes a new tree of nodes that were there before, changed in their parts only, and of
groups. A property of nodes that does not look at parts and holds of groups is therefore kept.
-/

namespace PugTemplate

variable {P : Node → Prop}

theorem forall_closeBlocks (hb : Blind P) (hg : ∀ loc body, P (.group loc body)) {ns : List Node}
    (h : ∀ k ∈ postorderAll ns, P k) : ∀ k ∈ postorderAll (closeBlocks ns), P k := by
  refine forall_rewriteAll hb (fun n ns hr => by simp at hr) (fun n hn hp => ?_) h
  split
  next loc name mode body => exact forall_postorder_singleton (hg loc body) hp
  next => exact forall_postorder_singleton hn hp

theorem forall_replaceYields (hb : Blind P) (hg : ∀ loc body, P (.group loc body))
    {content ns : List Node} (hc : ∀ k ∈ postorderAll content, P k)
    (h : ∀ k ∈ postorderAll ns, P k) : ∀ k ∈ postorderAll (replaceYields content ns), P k := by
  refine forall_rewriteAll hb (fun n ns hr => by simp at hr) (fun n hn hp => ?_) h
  split
  next loc => exact forall_postorder_singleton (hg loc content) hc
  next => exact forall_postorder_singleton hn hp

/-- Hoisting takes all mixins out and keeps the rest. -/
theorem forall_withoutMixins (hb : Blind P) {ns : List Node} (h : ∀ k ∈ postorderAll ns, P k) :
    ∀ k ∈ postorderAll (withoutMixins ns), P k ∧ k.isMixin = false := by
  refine forall_rewriteAll hb (fun n ns hr => by simp at hr) (fun n hn hp => ?_) h
  split
  -- a definition goes, and its body with it
  next => simp [postorderAll]
  next hm =>
    refine forall_postorder_singleton ⟨hn, ?_⟩ hp
    unfold Node.isMixin
    split
    next loc name params body => exact absurd rfl (hm loc name params body)
    next => rfl

theorem forall_merge (hb : Blind P) (o : Override) (ho : ∀ k ∈ postorderAll o.body, P k)
    {ns : List Node} (h : ∀ k ∈ postorderAll ns, P k) : ∀ k ∈ postorderAll (o.merge ns), P k := by
  refine forall_rewriteAll hb (fun n ns hr hn => ?_) (fun n hn hp => ?_) h
  · unfold Override.apply? at hr
    split at hr
    next loc name body =>
      split at hr
      next =>
        cases hr
        have hbody : ∀ k ∈ postorderAll body, P k := by
          intro k hk
          apply hn
          simp [Node.postorder, hk]
        -- the block stays a block with the same name, so only its body is new
        have hblock : ∀ body', P (.namedBlock loc name .replace body') :=
          fun body' => hb.rebuilt hn rfl
        refine forall_postorder_singleton (hblock _) ?_
        cases o.mode with
        | replace => exact ho
        | append =>
          rw [Node.parts, BlockMode.combine, postorderAll_append]
          exact List.forall_mem_append.mpr ⟨hbody, ho⟩
        | prepend =>
          rw [Node.parts, BlockMode.combine, postorderAll_append]
          exact List.forall_mem_append.mpr ⟨ho, hbody⟩
      next => cases hr
    next => cases hr
  · exact forall_postorder_singleton hn hp

theorem forall_mergeAll (hb : Blind P) {os : List Override}
    (ho : ∀ o ∈ os, ∀ k ∈ postorderAll o.body, P k) {ns : List Node}
    (h : ∀ k ∈ postorderAll ns, P k) : ∀ k ∈ postorderAll (mergeAll os ns), P k := by
  induction os generalizing ns with
  | nil => exact h
  | cons o os ih =>
    rw [List.forall_mem_cons] at ho
    exact ih ho.2 (forall_merge hb o ho.1 h)

mutual

theorem forall_extended? (hb : Blind P) {added n n' : Node} (ha : ∀ k ∈ added.postorder, P k)
    (h : ∀ k ∈ n.postorder, P k) (he : Node.extended? added n = some n') :
    ∀ k ∈ n'.postorder, P k := by
  match n with
  | .group _ body | .tag _ _ _ _ _ body =>
    have hbody : ∀ k ∈ postorderAll body, P k := by
      intro k hk
      apply h
      simp [Node.postorder, hk]
    rw [Node.extended?] at he
    split at he
    next => cases he
    next =>
      cases he
      rw [Node.postorder_eq, List.forall_mem_append, List.forall_mem_singleton]
      exact ⟨forall_addDeepest hb ha hbody, hb.rebuilt h rfl⟩
  | .text .. | .output .. | .statements .. | .comment .. | .doctype .. | .conditional .. | .switch ..
  | .each .. | .loop .. | .mixin .. | .call .. | .slot _ | .namedBlock .. | .includes ..
  | .rawInclude .. | .inherits .. | .yield _ | .filter .. =>
    simp [Node.extended?] at he

theorem forall_extendedLast? (hb : Blind P) {added : Node} {ns out : List Node}
    (ha : ∀ k ∈ added.postorder, P k) (h : ∀ k ∈ postorderAll ns, P k)
    (he : extendedLast? added ns = some out) : ∀ k ∈ postorderAll out, P k := by
  match ns with
  | [] => simp [extendedLast?] at he
  | n :: ns =>
    rw [postorderAll, List.forall_mem_append] at h
    rw [extendedLast?] at he
    split at he
    -- a later node took what was added
    next ns' hns =>
      cases he
      rw [postorderAll, List.forall_mem_append]
      exact ⟨h.1, forall_extendedLast? hb ha h.2 hns⟩
    next =>
      obtain ⟨n', hn, rfl⟩ := Option.map_eq_some_iff.mp he
      rw [postorderAll, List.forall_mem_append]
      exact ⟨forall_extended? hb ha h.1 hn, h.2⟩

theorem forall_addDeepest (hb : Blind P) {added : Node} {ns : List Node}
    (ha : ∀ k ∈ added.postorder, P k) (h : ∀ k ∈ postorderAll ns, P k) :
    ∀ k ∈ postorderAll (addDeepest added ns), P k := by
  unfold addDeepest
  cases he : extendedLast? added ns with
  | some out => exact forall_extendedLast? hb ha h he
  -- no node can be extended, so what is added stands behind them all
  | none =>
    rw [Option.getD_none, postorderAll_append, List.forall_mem_append]
    exact ⟨h, by simpa [postorderAll] using ha⟩

end

theorem forall_spliceContent (hb : Blind P) (hg : ∀ loc body, P (.group loc body)) (loc : Location)
    {content ns : List Node} (hc : ∀ k ∈ postorderAll content, P k)
    (h : ∀ k ∈ postorderAll ns, P k) : ∀ k ∈ postorderAll (spliceContent loc content ns), P k := by
  unfold spliceContent
  split
  · exact h
  · split
    · exact forall_replaceYields hb hg hc h
    -- without a yield, the content goes in as a group of its own
    · refine forall_addDeepest hb ?_ h
      rw [Node.postorder_eq, List.forall_mem_append, List.forall_mem_singleton]
      exact ⟨hc, hg loc content⟩

mutual

theorem Node.forall_ungrouped {n : Node} (h : ∀ k ∈ n.postorder, P k) :
    ∀ k ∈ postorderAll n.ungrouped, P k := by
  match n with
  | .group loc body =>
    rw [Node.ungrouped]
    exact forall_ungroupedAll fun k hk => h k (by simp [Node.postorder, hk])
  | .tag .. | .text .. | .output .. | .statements .. | .comment .. | .doctype ..
  | .conditional .. | .switch .. | .each .. | .loop .. | .mixin .. | .call .. | .slot _
  | .namedBlock .. | .includes .. | .rawInclude .. | .inherits .. | .yield _ | .filter .. =>
    simpa [Node.ungrouped, postorderAll] using h

theorem forall_ungroupedAll {ns : List Node} (h : ∀ k ∈ postorderAll ns, P k) :
    ∀ k ∈ postorderAll (ungroupedAll ns), P k := by
  match ns with
  | [] => simp [ungroupedAll, postorderAll]
  | n :: ns =>
    rw [postorderAll, List.forall_mem_append] at h
    rw [ungroupedAll, postorderAll_append, List.forall_mem_append]
    exact ⟨Node.forall_ungrouped h.1, forall_ungroupedAll h.2⟩

end

end PugTemplate
