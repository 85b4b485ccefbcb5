import PugTemplate.Proofs.Link.Cycle
import PugTemplate.Proofs.Link.Stable
import PugTemplate.Proofs.Link.TopLevel

/-!
# Where a failure is reported

A reference that fails is reported with the path of the template and the position of a node in it. A
node that may not stand at the top level is reported with the path of the template that extends
another, but it keeps its own position, and an inclusion may have brought it there from elsewhere.
-/

namespace PugTemplate

/-- A node outside text stands at a position. -/
def Located (ns : List Node) (loc : Location) : Prop :=
  ∃ n ∈ postorderAll ns, n.loc = loc

/-- A node that stands where one stood in a tree or in those that its references lead to, or a group,
which may be new. -/
def Stems (set : TemplateSet) (options : Options) (path : String) (ns : List Node) (n : Node) : Prop :=
  n.IsGroup ∨ ∃ there ms, Reached set options path ns there ms ∧ Located ms n.loc

theorem Node.loc_eq_of_husk {n k : Node} (h : n.husk = k.husk) : n.loc = k.loc := by
  cases n <;> cases k <;> simp_all [Node.husk, Node.loc]

theorem Node.template?_eq_of_husk {n k : Node} (h : n.husk = k.husk) : n.template? = k.template? := by
  cases n <;> cases k <;> simp_all [Node.husk, Node.template?]

theorem Node.mayOverride_eq_of_husk {n k : Node} (h : n.husk = k.husk) :
    n.mayOverride = k.mayOverride := by
  cases n <;> cases k <;> simp_all [Node.husk, Node.mayOverride, Node.override?, Node.isStatements,
    Node.isMixin, Node.isComment]

theorem Linking.Descends.located {ns : List Node} {n : Node} (h : Descends ns n) :
    Located ns n.loc := by
  obtain ⟨k, hk, hn⟩ := h
  exact ⟨k, hk, Node.loc_eq_of_husk hn⟩

theorem Linking.blind_descends (ns : List Node) : Blind (Descends ns) :=
  fun _ _ hm ⟨k, hk, hn⟩ => ⟨k, hk, hn.trans hm⟩

section Stems

variable {set : TemplateSet} {options : Options} {path : String} {ns : List Node} {n : Node}

theorem blind_stems : Blind (Stems set options path ns) := by
  intro n k hk h
  rw [Stems, ← Node.isGroup_of_husk hk, ← Node.loc_eq_of_husk hk]
  exact h

theorem Stems.of_located (h : Located ns n.loc) : Stems set options path ns n :=
  Or.inr ⟨path, ns, .root, h⟩

theorem Stems.of_reached {there : String} {ms : List Node}
    (h : Reached set options path ns there ms) (hn : Stems set options there ms n) :
    Stems set options path ns n :=
  hn.imp id fun ⟨_, _, hr, hloc⟩ => ⟨_, _, h.trans hr, hloc⟩

end Stems

namespace Linking

variable {set : TemplateSet} {options : Options} {stack : List String} {path : String}
  {ns : List Node}

/-- What linking leaves of one tree stems from it, if that is so behind its references. -/
theorem keeps_stems
    (hlinked : ∀ target source parsed out, target ∉ stack → set.fetch? target = some source →
      parseSource options source = .ok parsed →
      linkTree set options (target :: stack) target parsed = .ok out →
      ∀ k ∈ postorderAll out, Stems set options target parsed k) :
    Keeps (loader set options stack path) options.basedir path (Descends ns)
      (Stems set options path ns) where
  read := blind_descends ns
  left := blind_stems
  group loc body := Or.inl ⟨loc, body, rfl⟩
  plain n _ hn := .of_located hn.located
  text loc target filter text hn := by
    refine .of_located ?_
    cases filter <;> exact hn.located
  loaded n target hn ht loc l hl k hk := by
    obtain ⟨n', hn', hhusk⟩ := hn
    obtain ⟨hs, source, parsed, hf, hp, hout⟩ := loader_ok hl
    have hreached := Reached.follow .root hn' ((Node.template?_eq_of_husk hhusk).trans ht) hf hp
    exact .of_reached hreached (hlinked _ _ _ _ hs hf hp hout k hk)

theorem stems_linkTree {out : List Node} (h : linkTree set options stack path ns = .ok out) :
    ∀ k ∈ postorderAll out, Stems set options path ns k := by
  induction stack, path, ns using linking_induction set options generalizing out with
  | step stack path ns ih =>
    rw [linkTree_eq] at h
    have r : Keeps (loader set options stack path) options.basedir path (Descends ns)
        (Stems set options path ns) :=
      keeps_stems fun target source parsed out hs hf hp hout => ih target source parsed hs hf hp hout
    exact (r.linkWith (fun k hk => ⟨k, hk, rfl⟩) h).1

/-- A node at the top level stands where one stood, or an inclusion there led to it. -/
theorem exists_top_of_mem {rest own : List Node} {k : Node}
    (h : resolveIncludes (loader set options stack path) set options.basedir path rest = .ok own)
    (hk : k ∈ ungroupedAll own) (hover : k.mayOverride = false) :
    ∃ top ∈ ungroupedAll rest, top.mayOverride = false ∧ (top.loc = k.loc ∨
      (∃ loc target content, top = .includes loc target content) ∧
        ∃ there ms, Reached set options path [top] there ms ∧ Located ms k.loc) := by
  obtain ⟨top, htop, ms, hms, hk⟩ := (tops_followReference.all rest own h).exists_of_mem hk
  refine ⟨top, htop, ?_⟩
  have hgroup := not_isGroup_of_mem_ungroupedAll hk
  cases hms with
  | @kept _ n' ht hn =>
    have hsame : k = n' := by
      have hn' := mt (Node.isGroup_of_husk hn).mp (not_isGroup_of_mem_ungroupedAll htop)
      rw [ungroupedAll_singleton, Node.ungrouped_eq hn'] at hk
      exact List.mem_singleton.mp hk
    rw [hsame] at hover ⊢
    exact ⟨(Node.mayOverride_eq_of_husk hn).symm.trans hover, Or.inl (Node.loc_eq_of_husk hn).symm⟩
  | @read loc target text filter hf =>
    refine ⟨rfl, Or.inl ?_⟩
    cases filter <;> cases List.mem_singleton.mp hk <;> rfl
  | @included loc target content content' loaded hc hl =>
    refine ⟨rfl, Or.inr ⟨⟨loc, target, content, rfl⟩, ?_⟩⟩
    have r : Keeps (loader set options stack path) options.basedir path
        (Descends [.includes loc target content])
        (Stems set options path [.includes loc target content]) :=
      keeps_stems fun _ _ _ _ _ _ _ hout => stems_linkTree hout
    have hself : Descends [.includes loc target content] (.includes loc target content) :=
      ⟨_, List.mem_append_left _ (Node.mem_postorder_self _), rfl⟩
    have hcontent := (r.resolveIncludes (fun k hk => ⟨k, ?_, rfl⟩) hc).1
    case refine_1 =>
      rw [postorderAll, Node.postorder]
      exact List.mem_append_left _ (List.mem_append_left _ hk)
    have hincluded := r.included loc (r.loaded _ target hself rfl loc loaded hl) hcontent
    have hstems := forall_ungroupedAll hincluded k (mem_postorderAll.mpr ⟨k, hk, k.mem_postorder_self⟩)
    exact hstems.resolve_left hgroup

/-! ## The template that fails -/

variable {root : String} {nodes : List Node} {e : LinkFailure}

/-- A failure is that of one template, which references lead to from the root. -/
theorem exists_failsHere (hroot : root ∈ stack) (hns : treeAt? set options root nodes path = some ns)
    (hr : Reached set options root nodes path ns) (h : Failing set options e stack path ns) :
    ∃ stack there ms, treeAt? set options root nodes there = some ms ∧
      Reached set options root nodes there ms ∧ FailsHere set options stack there ms e := by
  induction h with
  | itself h => exact ⟨_, _, _, hns, hr, h⟩
  | behind hn ht hs hf hp _ _ ih =>
    have hne : resolvePath options.basedir _ _ ≠ root := fun he => hs (he ▸ hroot)
    exact ih (List.mem_cons_of_mem _ hroot) (treeAt?_eq_some hne hf hp) (.follow hr hn ht hf hp)

end Linking

/-- What is wrong with the node that a link error is about. -/
inductive LinkCause.Of (set : TemplateSet) (options : Options) (path : String) (n : Node) :
    LinkCause → Prop
  | inheritsNotFirst (h : ∃ loc target, n = .inherits loc target) :
      LinkCause.Of set options path n .inheritsNotFirst
  | unexpectedNode {kind : String} (h : n.mayOverride = false) :
      LinkCause.Of set options path n (.unexpectedNode kind)
  | unresolvedPath {target : String} (ht : n.target? = some target)
      (hf : set.fetch? (resolvePath options.basedir path target) = none) :
      LinkCause.Of set options path n (.unresolvedPath (resolvePath options.basedir path target))
  | circularReference {target : String} (ht : n.template? = some target) :
      LinkCause.Of set options path n (.circularReference (resolvePath options.basedir path target))

/-- A node that may not stand at the top level of a template, and came there by an inclusion at its
top level. -/
def BroughtIn (set : TemplateSet) (options : Options) (path : String) (ns : List Node)
    (loc : Location) : Prop :=
  ∃ start parent rest, ns = .inherits start parent :: rest ∧ ∃ top ∈ ungroupedAll rest,
    (∃ loc target content, top = .includes loc target content) ∧
      ∃ there ms, Reached set options path [top] there ms ∧ Located ms loc

/-- A link error names a template that was reached, and the position of the node in it that is wrong.
With a node that may not stand at the top level it can be otherwise: if an inclusion at the top level
brought it in, the position is one in a template that the inclusion leads to. -/
theorem link_error_at {set : TemplateSet} {options : Options} {root path : String}
    {nodes : List Node} {cause : LinkCause} {loc : Location}
    (h : link set options root nodes = .error (.reference ⟨cause, path, loc⟩)) :
    ∃ ns, treeAt? set options root nodes path = some ns ∧ Reached set options root nodes path ns ∧
      ((∃ n ∈ postorderAll ns, n.loc = loc ∧ cause.Of set options path n) ∨
        (∃ kind, cause = .unexpectedNode kind) ∧ BroughtIn set options path ns loc) := by
  have hfailing := Linking.failing_of_error (Linking.linkTree_of_link h)
  obtain ⟨stack, there, ns, hns, hr, hfails⟩ :=
    Linking.exists_failsHere (List.mem_singleton_self root) treeAt?_root .root hfailing
  cases hfails with
  | notFirst hn => exact ⟨ns, hns, hr, Or.inl ⟨_, hn, rfl, .inheritsNotFirst ⟨_, _, rfl⟩⟩⟩
  | unresolved hn ht hf => exact ⟨ns, hns, hr, Or.inl ⟨_, hn, rfl, .unresolvedPath ht hf⟩⟩
  | circular hn ht _ => exact ⟨ns, hns, hr, Or.inl ⟨_, hn, rfl, .circularReference ht⟩⟩
  | @unexpected start parent rest own k hrest hown hk hover =>
    subst hrest
    refine ⟨_, hns, hr, ?_⟩
    obtain ⟨top, htop, htopover, hloc | ⟨hinc, hreach⟩⟩ := Linking.exists_top_of_mem hown hk hover
    · have hmem : top ∈ postorderAll rest :=
        forall_ungroupedAll (P := (· ∈ postorderAll rest)) (fun _ h => h) top
          (mem_postorderAll.mpr ⟨top, htop, top.mem_postorder_self⟩)
      exact Or.inl ⟨top, List.mem_append_right _ hmem, hloc, .unexpectedNode htopover⟩
    · exact Or.inr ⟨⟨_, rfl⟩, start, parent, rest, rfl, top, htop, hinc, hreach⟩

/-! ## A node from elsewhere -/

namespace StrayNode

open RepeatedInclusion

/-- A template that extends another and includes `a`. -/
def page : List Node :=
  [.inherits ⟨1, 1⟩ "base", inclusion 2 "a"]

/-- A paragraph behind empty lines. -/
def set : TemplateSet :=
  [("a.pug", "\n\np")]

def paragraph : Node :=
  .tag ⟨3, 1⟩ (.fixed "p") {} false false []

theorem parseSource_page : parseSource {} "extends base\ninclude a" = .ok page := by
  have hl : (lex "extends base\ninclude a").bind (CommentPolicy.strip {}) =
      .ok [⟨.inherits, ⟨1, 1⟩⟩, ⟨.path "base", ⟨1, 9⟩⟩, ⟨.newline, ⟨2, 1⟩⟩, ⟨.includes none, ⟨2, 1⟩⟩,
        ⟨.path "a", ⟨2, 9⟩⟩, ⟨.eos, ⟨2, 10⟩⟩] :=
    eq_ok_of_toOption (by decide +kernel)
  have hr : isRawInclude "a" none = false := rfl
  simp only [parseSource, hl, parseTokens, readTokens, readDocument, Node.read, readPath]
  simp [hr, Node.read, readPath, readOptionalBlock, readDocument, bind, Except.bind, pure,
    Except.pure, page, inclusion]

theorem parseSource_paragraph : parseSource {} "\n\np" = .ok [paragraph] := by
  have hl : (lex "\n\np").bind (CommentPolicy.strip {}) =
      .ok [⟨.tag "p", ⟨3, 1⟩⟩, ⟨.eos, ⟨3, 2⟩⟩] :=
    eq_ok_of_toOption (by decide +kernel)
  simp only [parseSource, hl, parseTokens, readTokens, readDocument, Node.read]
  simp [readElement, Head.read, readInline, readOptionalBlock, readDocument, bind, Except.bind, pure,
    Except.pure, paragraph]

theorem loader_a : Linking.loader set {} ["page.pug"] "page.pug" "a.pug" ⟨2, 1⟩ =
    .ok ⟨[paragraph], false⟩ := by
  rw [Linking.loader_of_fetch (by decide) rfl parseSource_paragraph, Linking.linkTree_eq]
  rfl

theorem link_page : link set {} "page.pug" page =
    .error (.reference ⟨.unexpectedNode "Tag", "page.pug", ⟨3, 1⟩⟩) := by
  rw [link, Linking.linkTree_eq, page, Linking.linkWith,
    resolveIncludes_inclusion (resolvePath_a _ (by decide)), loader_a]
  rfl

/-- The page has only its first two lines. -/
theorem loc_ne {n : Node} (h : n ∈ everywhereAll page) : n.loc ≠ ⟨3, 1⟩ := by
  simp only [page, inclusion, everywhereAll, Node.everywhere, List.append_nil, List.mem_append,
    List.mem_singleton] at h
  rcases h with rfl | rfl
  · decide
  · decide

end StrayNode

open StrayNode

/-- The paragraph is reported where it stands in its own file, under the path of the page. -/
theorem link_error_at_paragraph :
    Located [paragraph] ⟨3, 1⟩ ∧ BroughtIn set {} "page.pug" page ⟨3, 1⟩ := by
  refine ⟨⟨paragraph, by simp [postorderAll, Node.postorder, paragraph], rfl⟩, ?_⟩
  obtain ⟨ns, hns, -, hat⟩ := link_error_at link_page
  cases treeAt?_root.symm.trans hns
  rcases hat with ⟨n, hn, hloc, -⟩ | ⟨-, hin⟩
  · exact absurd hloc (loc_ne ((mem_everywhereAll_iff page n).mpr (Or.inl hn)))
  · exact hin

/-- A link error can name a template that has no node at the position given. -/
theorem link_error_not_at :
    ¬ ∀ (source : String) (set : TemplateSet) (options : Options) (root : String)
      (nodes : List Node) (error : LinkError), parseSource options source = .ok nodes →
        link set options root nodes = .error (.reference error) →
          ∃ ns, treeAt? set options root nodes error.path = some ns ∧
            ∃ n ∈ everywhereAll ns, n.loc = error.loc := by
  intro h
  obtain ⟨ns, hns, n, hn, hloc⟩ := h _ _ _ _ _ _ parseSource_page link_page
  cases treeAt?_root.symm.trans hns
  exact loc_ne hn hloc

end PugTemplate
