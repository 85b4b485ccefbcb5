import Mathlib.Data.List.Forall2
import PugTemplate.Proofs.Tree.Rewrite

/-!
# The rows of a node

What a node holds, it holds in rows of nodes, and text is no such row. An induction over rows goes
through a whole tree, and a rewriting is known by what it makes of a node whose rows are done.
-/

namespace PugTemplate

def Otherwise.rows : Otherwise → List (List Node)
  | .nothing => []
  | .elseIf _ _ body next => body :: next.rows
  | .otherwise _ body => [body]

def Branch.rows : Branch → List (List Node)
  | .mk _ _ body => body.toList

/-- The rows that a node holds, in order. -/
def Node.rows : Node → List (List Node)
  | .group _ body | .tag _ _ _ _ _ body | .loop _ _ body | .mixin _ _ _ body | .namedBlock _ _ _ body
  | .includes _ _ body => [body]
  | .conditional _ _ _ body next => body :: next.rows
  | .switch _ _ branches => branches.flatMap Branch.rows
  | .each _ _ _ _ body ifEmpty => body :: ifEmpty.toList
  | .call _ _ _ _ content => content.toList
  | _ => []

def Otherwise.mapBlocks (f : List Node → List Node) : Otherwise → Otherwise
  | .nothing => .nothing
  | .elseIf loc test body next => .elseIf loc test (f body) (next.mapBlocks f)
  | .otherwise loc body => .otherwise loc (f body)

def Branch.mapBlocks (f : List Node → List Node) : Branch → Branch
  | .mk loc test body => .mk loc test (body.map f)

/-- A node with something made of each row that it holds. -/
def Node.mapBlocks (f : List Node → List Node) : Node → Node
  | .group loc body => .group loc (f body)
  | .tag loc name head selfClosing textOnly body => .tag loc name head selfClosing textOnly (f body)
  | .conditional loc negate test body next =>
    .conditional loc negate test (f body) (next.mapBlocks f)
  | .switch loc subject branches => .switch loc subject (branches.map (Branch.mapBlocks f))
  | .each loc value key source body ifEmpty =>
    .each loc value key source (f body) (ifEmpty.map f)
  | .loop loc test body => .loop loc test (f body)
  | .mixin loc name params body => .mixin loc name params (f body)
  | .call loc name args head content => .call loc name args head (content.map f)
  | .namedBlock loc name mode body => .namedBlock loc name mode (f body)
  | .includes loc path content => .includes loc path (f content)
  | n => n

/-! ## Induction over rows -/

theorem Otherwise.sizeOf_lt_of_mem_rows {o : Otherwise} {row : List Node} (h : row ∈ o.rows) :
    sizeOf row < sizeOf o := by
  fun_induction Otherwise.rows o with
  | case1 => exact absurd h List.not_mem_nil
  | case2 loc test body next ih =>
    rw [Otherwise.elseIf.sizeOf_spec]
    rcases List.mem_cons.mp h with rfl | h
    · omega
    · have := ih h
      omega
  | case3 loc body =>
    rw [List.mem_singleton.mp h, Otherwise.otherwise.sizeOf_spec]
    omega

theorem sizeOf_lt_of_mem_toList {o : Option (List Node)} {row : List Node} (h : row ∈ o.toList) :
    sizeOf row < sizeOf o := by
  rw [Option.mem_toList.mp h, Option.some.sizeOf_spec]
  omega

theorem Branch.sizeOf_lt_of_mem_rows {b : Branch} {row : List Node} (h : row ∈ b.rows) :
    sizeOf row < sizeOf b := by
  obtain ⟨loc, test, body⟩ := b
  have := sizeOf_lt_of_mem_toList h
  rw [Branch.mk.sizeOf_spec]
  omega

theorem Node.sizeOf_lt_of_mem_rows {n : Node} {row : List Node} (h : row ∈ n.rows) :
    sizeOf row < sizeOf n := by
  match n with
  | .group .. | .tag .. | .loop .. | .mixin .. | .namedBlock .. | .includes .. =>
    rw [List.mem_singleton.mp h]
    simp +arith
  | .conditional loc negate test body next =>
    rw [Node.conditional.sizeOf_spec]
    rcases List.mem_cons.mp h with rfl | h
    · omega
    · have := Otherwise.sizeOf_lt_of_mem_rows h
      omega
  | .switch loc subject branches =>
    obtain ⟨b, hb, h⟩ := List.mem_flatMap.mp h
    have := List.sizeOf_lt_of_mem hb
    have := Branch.sizeOf_lt_of_mem_rows h
    rw [Node.switch.sizeOf_spec]
    omega
  | .each loc value key source body ifEmpty =>
    rw [Node.each.sizeOf_spec]
    rcases List.mem_cons.mp h with rfl | h
    · omega
    · have := sizeOf_lt_of_mem_toList h
      omega
  | .call loc name args head content =>
    have := sizeOf_lt_of_mem_toList h
    rw [Node.call.sizeOf_spec]
    omega
  | .text .. | .output .. | .statements .. | .comment .. | .doctype .. | .slot _ | .rawInclude ..
  | .inherits .. | .yield _ | .filter .. => exact absurd h List.not_mem_nil

/-- What holds of a row once it holds of all rows in its nodes holds of every row. -/
theorem rows_induction {P : List Node → Prop}
    (step : ∀ ns, (∀ n ∈ ns, ∀ row ∈ n.rows, P row) → P ns) (ns : List Node) : P ns :=
  step ns fun n hn row hrow =>
    have := List.sizeOf_lt_of_mem hn
    have := Node.sizeOf_lt_of_mem_rows hrow
    rows_induction step row
termination_by sizeOf ns

/-! ## All nodes of a tree -/

theorem Otherwise.postorder_eq (o : Otherwise) : o.postorder = o.rows.flatMap postorderAll := by
  fun_induction Otherwise.rows o with
  | case1 => rfl
  | case2 loc test body next ih => rw [Otherwise.postorder, ih, List.flatMap_cons]
  | case3 loc body => rw [Otherwise.postorder, List.flatMap_singleton]

theorem postorderOption_eq (o : Option (List Node)) :
    postorderOption o = o.toList.flatMap postorderAll := by
  cases o with
  | none => rfl
  | some ns => exact (List.flatMap_singleton postorderAll ns).symm

theorem postorderBranches_eq (bs : List Branch) :
    postorderBranches bs = (bs.flatMap Branch.rows).flatMap postorderAll := by
  induction bs with
  | nil => rfl
  | cons b bs ih =>
    obtain ⟨loc, test, body⟩ := b
    rw [postorderBranches, ih, postorderOption_eq, List.flatMap_cons, List.flatMap_append]
    rfl

/-- The nodes inside a node are those of its rows. -/
theorem Node.parts_eq (n : Node) : n.parts = n.rows.flatMap postorderAll := by
  match n with
  | .group .. | .tag .. | .loop .. | .mixin .. | .namedBlock .. | .includes .. =>
    exact (List.flatMap_singleton postorderAll _).symm
  | .conditional loc negate test body next =>
    rw [Node.parts, Otherwise.postorder_eq]
    rfl
  | .switch loc subject branches => exact postorderBranches_eq branches
  | .each loc value key source body ifEmpty =>
    rw [Node.parts, postorderOption_eq]
    rfl
  | .call loc name args head content => exact postorderOption_eq content
  | .text .. | .output .. | .statements .. | .comment .. | .doctype .. | .slot _ | .rawInclude ..
  | .inherits .. | .yield _ | .filter .. => rfl

theorem postorderAll_eq_flatMap (ns : List Node) : postorderAll ns = ns.flatMap Node.postorder := by
  induction ns with
  | nil => rfl
  | cons n ns ih => rw [postorderAll, ih, List.flatMap_cons]

theorem mem_parts_of_mem_row {n k : Node} {row : List Node} (hrow : row ∈ n.rows)
    (hk : k ∈ postorderAll row) : k ∈ n.parts := by
  rw [Node.parts_eq]
  exact List.mem_flatMap.mpr ⟨row, hrow, hk⟩

/-! ## Other rows -/

section MapBlocks

variable {f g : List Node → List Node}

theorem Otherwise.mapBlocks_congr {o : Otherwise} (h : ∀ row ∈ o.rows, f row = g row) :
    o.mapBlocks f = o.mapBlocks g := by
  fun_induction Otherwise.rows o with
  | case1 => rfl
  | case2 loc test body next ih =>
    rw [List.forall_mem_cons] at h
    rw [Otherwise.mapBlocks, Otherwise.mapBlocks, h.1, ih h.2]
  | case3 loc body =>
    rw [List.forall_mem_singleton] at h
    rw [Otherwise.mapBlocks, Otherwise.mapBlocks, h]

theorem map_congr_of_toList {o : Option (List Node)} (h : ∀ row ∈ o.toList, f row = g row) :
    o.map f = o.map g :=
  Option.map_congr fun row hrow => h row (Option.mem_toList.mpr hrow)

theorem Branch.mapBlocks_congr {b : Branch} (h : ∀ row ∈ b.rows, f row = g row) :
    b.mapBlocks f = b.mapBlocks g := by
  obtain ⟨loc, test, body⟩ := b
  rw [Branch.mapBlocks, Branch.mapBlocks, map_congr_of_toList h]

/-- Only what is made of the rows of a node matters. -/
theorem Node.mapBlocks_congr {n : Node} (h : ∀ row ∈ n.rows, f row = g row) :
    n.mapBlocks f = n.mapBlocks g := by
  match n with
  | .group .. | .tag .. | .loop .. | .mixin .. | .namedBlock .. | .includes .. =>
    rw [Node.rows, List.forall_mem_singleton] at h
    rw [Node.mapBlocks, Node.mapBlocks, h]
  | .conditional loc negate test body next =>
    rw [Node.rows, List.forall_mem_cons] at h
    rw [Node.mapBlocks, Node.mapBlocks, h.1, Otherwise.mapBlocks_congr h.2]
  | .switch loc subject branches =>
    rw [Node.rows, List.forall_mem_flatMap] at h
    rw [Node.mapBlocks, Node.mapBlocks, List.map_congr_left fun b hb => Branch.mapBlocks_congr (h b hb)]
  | .each loc value key source body ifEmpty =>
    rw [Node.rows, List.forall_mem_cons] at h
    rw [Node.mapBlocks, Node.mapBlocks, h.1, map_congr_of_toList h.2]
  | .call loc name args head content =>
    rw [Node.mapBlocks, Node.mapBlocks, map_congr_of_toList h]
  | .text .. | .output .. | .statements .. | .comment .. | .doctype .. | .slot _ | .rawInclude ..
  | .inherits .. | .yield _ | .filter .. => rfl

theorem Otherwise.mapBlocks_mapBlocks (o : Otherwise) :
    (o.mapBlocks f).mapBlocks g = o.mapBlocks (g ∘ f) := by
  fun_induction Otherwise.mapBlocks f o with
  | case1 => rfl
  | case2 loc test body next ih => rw [Otherwise.mapBlocks, ih]; rfl
  | case3 loc body => rfl

theorem Branch.mapBlocks_mapBlocks (b : Branch) :
    (b.mapBlocks f).mapBlocks g = b.mapBlocks (g ∘ f) := by
  obtain ⟨loc, test, body⟩ := b
  exact congrArg (Branch.mk loc test) (Option.map_map g f body)

theorem Node.mapBlocks_mapBlocks (n : Node) :
    (n.mapBlocks f).mapBlocks g = n.mapBlocks (g ∘ f) := by
  cases n with
  | conditional => simp [Node.mapBlocks, Otherwise.mapBlocks_mapBlocks]
  | switch => simp [Node.mapBlocks, Branch.mapBlocks_mapBlocks]
  | each => simp [Node.mapBlocks]
  | call => simp [Node.mapBlocks]
  | _ => rfl

theorem Otherwise.rows_mapBlocks (o : Otherwise) : (o.mapBlocks f).rows = o.rows.map f := by
  fun_induction Otherwise.mapBlocks f o with
  | case1 => rfl
  | case2 loc test body next ih => rw [Otherwise.rows, ih]; rfl
  | case3 loc body => rfl

theorem Branch.rows_mapBlocks (b : Branch) : (b.mapBlocks f).rows = b.rows.map f := by
  obtain ⟨loc, test, body⟩ := b
  cases body <;> rfl

theorem Node.rows_mapBlocks (n : Node) : (n.mapBlocks f).rows = n.rows.map f := by
  cases n with
  | conditional => simp [Node.mapBlocks, Node.rows, Otherwise.rows_mapBlocks]
  | switch =>
    simp [Node.mapBlocks, Node.rows, List.flatMap_map, List.map_flatMap, Branch.rows_mapBlocks]
  | each _ _ _ _ _ ifEmpty => cases ifEmpty <;> rfl
  | call _ _ _ _ content => cases content <;> rfl
  | _ => rfl

theorem Node.husk_mapBlocks (n : Node) : (n.mapBlocks f).husk = n.husk := by
  cases n <;> rfl

end MapBlocks

/-! ## Rewriting -/

section Plain

variable {replace? : Node → Option (List Node)} {finish : Node → List Node}

theorem Otherwise.run_rewriteM (o : Otherwise) :
    Id.run (o.rewriteM replace? fun n => pure (finish n)) =
      o.mapBlocks (rewriteAll replace? finish) := by
  match o with
  | .nothing | .otherwise .. => rw [Otherwise.rewriteM]; rfl
  | .elseIf loc test body next =>
    rw [Otherwise.mapBlocks, ← next.run_rewriteM, Otherwise.rewriteM]
    rfl

theorem run_rewriteOptionM (o : Option (List Node)) :
    Id.run (rewriteOptionM replace? (fun n => pure (finish n)) o) =
      o.map (rewriteAll replace? finish) := by
  cases o <;> rw [rewriteOptionM] <;> rfl

theorem run_rewriteBranchesM (bs : List Branch) :
    Id.run (rewriteBranchesM replace? (fun n => pure (finish n)) bs) =
      bs.map (Branch.mapBlocks (rewriteAll replace? finish)) := by
  induction bs with
  | nil => rw [rewriteBranchesM]; rfl
  | cons b bs ih =>
    obtain ⟨loc, test, body⟩ := b
    rw [List.map_cons, Branch.mapBlocks, ← ih, ← run_rewriteOptionM, rewriteBranchesM]
    rfl

/-- A plain rewriting replaces a node outright, or finishes it once it is through with its rows. -/
theorem rewriteAll_eq_flatMap (ns : List Node) :
    rewriteAll replace? finish ns = ns.flatMap fun n =>
      (replace? n).getD (finish (n.mapBlocks (rewriteAll replace? finish))) := by
  induction ns with
  | nil => rw [rewriteAll, rewriteAllM]; rfl
  | cons n ns ih =>
    have hnode : Id.run (n.rewriteM replace? fun n => pure (finish n)) =
        (replace? n).getD (finish (n.mapBlocks (rewriteAll replace? finish))) := by
      rw [Node.rewriteM.eq_def]
      cases replace? n with
      | some ns => rfl
      | none =>
        cases n with
        | conditional => rw [Node.mapBlocks, ← Otherwise.run_rewriteM]; rfl
        | switch => rw [Node.mapBlocks, ← run_rewriteBranchesM]; rfl
        | each => rw [Node.mapBlocks, ← run_rewriteOptionM]; rfl
        | call => rw [Node.mapBlocks, ← run_rewriteOptionM]; rfl
        | _ => rfl
    rw [List.flatMap_cons, ← ih, ← hnode, rewriteAll, rewriteAllM]
    rfl

end Plain

section Failing

variable {ε : Type} {finish : Node → Except ε (List Node)}

/-- Rows beside the same rows rewritten. -/
abbrev RowsDone (finish : Node → Except ε (List Node)) :
    List (List Node) → List (List Node) → Prop :=
  List.Forall₂ fun row row' => rewriteAllM (fun _ => none) finish row = .ok row'

theorem RowsDone.exists_of_mem {rows rows' : List (List Node)} (h : RowsDone finish rows rows')
    {row : List Node} (hrow : row ∈ rows) :
    ∃ row' ∈ rows', rewriteAllM (fun _ => none) finish row = .ok row' := by
  induction h with
  | nil => exact absurd hrow List.not_mem_nil
  | cons hd _ ih =>
    rcases List.mem_cons.mp hrow with rfl | hrow
    · exact ⟨_, List.mem_cons_self, hd⟩
    · obtain ⟨row', hmem, hd⟩ := ih hrow
      exact ⟨row', List.mem_cons_of_mem _ hmem, hd⟩

theorem Otherwise.rowsDone_of_ok {o o' : Otherwise}
    (h : o.rewriteM (fun _ => none) finish = .ok o') : RowsDone finish o.rows o'.rows := by
  match o with
  | .nothing =>
    rw [Otherwise.rewriteM] at h
    cases h
    exact .nil
  | .elseIf loc test body next =>
    rw [Otherwise.rewriteM] at h
    obtain ⟨body', hbody, h⟩ := of_bind_eq_ok h
    obtain ⟨next', hnext, h⟩ := of_bind_eq_ok h
    cases h
    exact .cons hbody (Otherwise.rowsDone_of_ok hnext)
  | .otherwise loc body =>
    rw [Otherwise.rewriteM] at h
    obtain ⟨body', hbody, h⟩ := of_bind_eq_ok h
    cases h
    exact .cons hbody .nil

theorem rowsDone_of_option {o o' : Option (List Node)}
    (h : rewriteOptionM (fun _ => none) finish o = .ok o') :
    RowsDone finish o.toList o'.toList := by
  match o with
  | none =>
    rw [rewriteOptionM] at h
    cases h
    exact .nil
  | some ns =>
    rw [rewriteOptionM] at h
    obtain ⟨ns', hns, h⟩ := of_bind_eq_ok h
    cases h
    exact .cons hns .nil

theorem rowsDone_of_branches {bs bs' : List Branch}
    (h : rewriteBranchesM (fun _ => none) finish bs = .ok bs') :
    RowsDone finish (bs.flatMap Branch.rows) (bs'.flatMap Branch.rows) := by
  induction bs generalizing bs' with
  | nil =>
    rw [rewriteBranchesM] at h
    cases h
    exact .nil
  | cons b bs ih =>
    obtain ⟨loc, test, body⟩ := b
    rw [rewriteBranchesM] at h
    obtain ⟨body', hbody, h⟩ := of_bind_eq_ok h
    obtain ⟨more, hmore, h⟩ := of_bind_eq_ok h
    cases h
    exact List.rel_append (rowsDone_of_option hbody) (ih hmore)

/-- A node that was rewritten was finished with its rows done. -/
theorem Node.exists_finish_of_ok {n : Node} {out : List Node}
    (h : n.rewriteM (fun _ => none) finish = .ok out) :
    ∃ n', finish n' = .ok out ∧ RowsDone finish n.rows n'.rows := by
  rw [Node.rewriteM.eq_def] at h
  dsimp only at h
  match n with
  | .group .. | .tag .. | .loop .. | .mixin .. | .namedBlock .. | .includes .. =>
    obtain ⟨body', hbody, h⟩ := of_bind_eq_ok h
    exact ⟨_, h, .cons hbody .nil⟩
  | .conditional loc negate test body next =>
    obtain ⟨body', hbody, h⟩ := of_bind_eq_ok h
    obtain ⟨next', hnext, h⟩ := of_bind_eq_ok h
    exact ⟨_, h, .cons hbody (Otherwise.rowsDone_of_ok hnext)⟩
  | .switch loc subject branches =>
    obtain ⟨branches', hbranches, h⟩ := of_bind_eq_ok h
    exact ⟨_, h, rowsDone_of_branches hbranches⟩
  | .each loc value key source body ifEmpty =>
    obtain ⟨body', hbody, h⟩ := of_bind_eq_ok h
    obtain ⟨ifEmpty', hempty, h⟩ := of_bind_eq_ok h
    exact ⟨_, h, .cons hbody (rowsDone_of_option hempty)⟩
  | .call loc name args head content =>
    obtain ⟨content', hcontent, h⟩ := of_bind_eq_ok h
    exact ⟨_, h, rowsDone_of_option hcontent⟩
  | .text .. | .output .. | .statements .. | .comment .. | .doctype .. | .slot _ | .rawInclude ..
  | .inherits .. | .yield _ | .filter .. => exact ⟨_, h, .nil⟩

theorem exists_rewriteM_of_mem_row {ns out : List Node}
    (h : rewriteAllM (fun _ => none) finish ns = .ok out) {n : Node} (hn : n ∈ ns) :
    ∃ ms, n.rewriteM (fun _ => none) finish = .ok ms ∧ ms ⊆ out := by
  induction ns generalizing out with
  | nil => exact absurd hn List.not_mem_nil
  | cons k ns ih =>
    rw [rewriteAllM] at h
    obtain ⟨here, hhere, h⟩ := of_bind_eq_ok h
    obtain ⟨more, hmore, h⟩ := of_bind_eq_ok h
    cases h
    rcases List.mem_cons.mp hn with rfl | hn
    · exact ⟨here, hhere, List.subset_append_left _ _⟩
    · obtain ⟨ms, hms, hsub⟩ := ih hmore hn
      exact ⟨ms, hms, List.subset_append_of_subset_right _ hsub⟩

/-- Where no finished node loses what is inside it, what becomes of a node anywhere in a tree is in
what becomes of the tree. -/
theorem exists_rewriteM_of_mem (hkeep : ∀ n out, finish n = .ok out → n.parts ⊆ postorderAll out)
    {ns out : List Node} (h : rewriteAllM (fun _ => none) finish ns = .ok out) {n : Node}
    (hn : n ∈ postorderAll ns) :
    ∃ ms, n.rewriteM (fun _ => none) finish = .ok ms ∧ postorderAll ms ⊆ postorderAll out := by
  induction ns using rows_induction generalizing out with
  | step ns ih =>
    obtain ⟨top, htop, hn⟩ := mem_postorderAll.mp hn
    obtain ⟨here, hhere, hsub⟩ := exists_rewriteM_of_mem_row h htop
    have hsub : postorderAll here ⊆ postorderAll out := by
      intro k hk
      obtain ⟨j, hj, hk⟩ := mem_postorderAll.mp hk
      exact mem_postorderAll.mpr ⟨j, hsub hj, hk⟩
    rw [Node.postorder_eq, List.mem_append, List.mem_singleton] at hn
    rcases hn with hn | rfl
    · rw [Node.parts_eq] at hn
      obtain ⟨row, hrow, hn⟩ := List.mem_flatMap.mp hn
      obtain ⟨top', hfinish, hrows⟩ := Node.exists_finish_of_ok hhere
      obtain ⟨row', hrow', hdone⟩ := hrows.exists_of_mem hrow
      obtain ⟨ms, hms, hmsub⟩ := ih top htop row hrow hdone hn
      refine ⟨ms, hms, fun k hk => hsub (hkeep top' here hfinish ?_)⟩
      exact mem_parts_of_mem_row hrow' (hmsub hk)
    · exact ⟨here, hhere, hsub⟩

end Failing

end PugTemplate
