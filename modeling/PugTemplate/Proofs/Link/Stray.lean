import PugTemplate.Proofs.Lex.Shape
import PugTemplate.Proofs.Link.Complete
import PugTemplate.Proofs.Tree.Slot

/-!
# Linking makes no block stray

Linking puts trees into one another: what a template includes, what an inclusion holds, what an
override says. None of it stood inside a mixin where it was read, or it goes into a place of the same
mixin. So a bare block is never carried out of a mixin, and once the definitions are taken out no bare
block is left.
-/

namespace PugTemplate

variable {b : Bool} {ns : List Node}

/-! ## Blocks, yields and definitions -/

theorem straysAll_closeBlocks (h : straysAll b ns = []) : straysAll b (closeBlocks ns) = [] := by
  refine straysAll_rewriteAll (fun _ _ n ns hr => by simp at hr) (fun c _ n hn => ?_) h
  split
  · exact straysAll_singleton _ ▸ hn
  · exact straysAll_singleton _ ▸ hn

/-- A definition goes with the whole of its body. -/
theorem straysAll_withoutMixins (h : straysAll b ns = []) : straysAll b (withoutMixins ns) = [] := by
  refine straysAll_rewriteAll (fun _ _ n ns hr => by simp at hr) (fun c _ n hn => ?_) h
  split
  · rfl
  · exact straysAll_singleton _ ▸ hn

/-- Content may go into a mixin, but not out of one. -/
theorem straysAll_replaceYields {content : List Node} (hc : straysAll b content = [])
    (h : straysAll b ns = []) : straysAll b (replaceYields content ns) = [] := by
  refine straysAll_rewriteAll (fun _ _ n ns hr => by simp at hr) (fun c hbc n hn => ?_) h
  split
  · exact straysAll_singleton _ ▸ straysAll_mono hbc hc
  · exact straysAll_singleton _ ▸ hn

theorem Override.straysAll_merge (o : Override) (ho : straysAll b o.body = [])
    (h : straysAll b ns = []) : straysAll b (o.merge ns) = [] := by
  refine straysAll_rewriteAll (fun c hbc n ms hr hn => ?_) (fun c _ n hn => ?_) h
  · unfold Override.apply? at hr
    split at hr
    next loc name body =>
      split at hr
      next =>
        cases hr
        have hbody : straysAll c body = [] := hn
        have hover : straysAll c o.body = [] := straysAll_mono hbc ho
        rw [straysAll_singleton, Node.strays]
        cases o.mode with
        | replace => exact hover
        | append => rw [BlockMode.combine, straysAll_append, hbody, hover, List.append_nil]
        | prepend => rw [BlockMode.combine, straysAll_append, hbody, hover, List.append_nil]
      next => cases hr
    next => cases hr
  · exact straysAll_singleton n ▸ hn

theorem straysAll_mergeAll {overrides : List Override}
    (ho : ∀ o ∈ overrides, straysAll b o.body = []) (h : straysAll b ns = []) :
    straysAll b (mergeAll overrides ns) = [] := by
  induction overrides generalizing ns with
  | nil => exact h
  | cons o overrides ih =>
    obtain ⟨hhead, htail⟩ := List.forall_mem_cons.mp ho
    exact ih htail (o.straysAll_merge hhead h)

mutual

theorem Node.strays_extended? {added n n' : Node} (ha : added.strays b = []) (h : n.strays b = [])
    (he : Node.extended? added n = some n') : n'.strays b = [] := by
  match n with
  | .group _ body | .tag _ _ _ _ _ body =>
    have hbody : straysAll b body = [] := h
    rw [Node.extended?] at he
    split at he
    next => exact nomatch he
    next =>
      cases he
      exact straysAll_addDeepest ha hbody
  | .text .. | .output .. | .statements .. | .comment .. | .doctype .. | .conditional .. | .switch ..
  | .each .. | .loop .. | .mixin .. | .call .. | .slot _ | .namedBlock .. | .includes ..
  | .rawInclude .. | .inherits .. | .yield _ | .filter .. => exact nomatch he

theorem straysAll_extendedLast? {added : Node} {ns out : List Node} (ha : added.strays b = [])
    (h : straysAll b ns = []) (he : extendedLast? added ns = some out) : straysAll b out = [] := by
  match ns with
  | [] => exact nomatch he
  | n :: ns =>
    obtain ⟨hn, hns⟩ := List.append_eq_nil_iff.mp h
    rw [extendedLast?] at he
    split at he
    -- a later node took what was added
    next ns' hlater =>
      cases he
      exact List.append_eq_nil_iff.mpr ⟨hn, straysAll_extendedLast? ha hns hlater⟩
    next =>
      obtain ⟨n', hn', rfl⟩ := Option.map_eq_some_iff.mp he
      exact List.append_eq_nil_iff.mpr ⟨Node.strays_extended? ha hn hn', hns⟩

theorem straysAll_addDeepest {added : Node} {ns : List Node} (ha : added.strays b = [])
    (h : straysAll b ns = []) : straysAll b (addDeepest added ns) = [] := by
  unfold addDeepest
  cases he : extendedLast? added ns with
  | some out => exact straysAll_extendedLast? ha h he
  | none => rw [Option.getD_none, straysAll_append, straysAll_singleton, h, ha, List.append_nil]

end

theorem straysAll_spliceContent (loc : Location) {content : List Node}
    (hc : straysAll b content = []) (h : straysAll b ns = []) :
    straysAll b (spliceContent loc content ns) = [] := by
  unfold spliceContent
  split
  · exact h
  · split
    · exact straysAll_replaceYields hc h
    · exact straysAll_addDeepest hc h

mutual

theorem Node.straysAll_ungrouped {n : Node} (h : n.strays b = []) :
    straysAll b n.ungrouped = [] := by
  match n with
  | .group _ body => exact @straysAll_ungroupedAll body h
  | .tag .. | .text .. | .output .. | .statements .. | .comment .. | .doctype .. | .conditional ..
  | .switch .. | .each .. | .loop .. | .mixin .. | .call .. | .slot _ | .namedBlock ..
  | .includes .. | .rawInclude .. | .inherits .. | .yield _ | .filter .. =>
    exact (straysAll_singleton _).trans h

theorem straysAll_ungroupedAll {ns : List Node} (h : straysAll b ns = []) :
    straysAll b (ungroupedAll ns) = [] := by
  match ns with
  | [] => rfl
  | n :: ns =>
    obtain ⟨hn, hns⟩ := List.append_eq_nil_iff.mp h
    rw [ungroupedAll, straysAll_append, Node.straysAll_ungrouped hn, straysAll_ungroupedAll hns,
      List.append_nil]

end

/-! ## References -/

namespace Linking

variable {load : Loader} {set : TemplateSet} {basedir : Option String} {path : String}

/-- What is included stood outside mixins, so it may stand anywhere. -/
theorem strays_included {loaded : Loaded} (loc : Location) {content : List Node}
    (hl : straysAll false loaded.nodes = []) (hc : straysAll b content = []) :
    (included loaded loc content).strays b = [] := by
  have hanywhere : straysAll b loaded.nodes = [] := straysAll_mono (Bool.false_le b) hl
  refine straysAll_spliceContent loc hc ?_
  split
  · exact straysAll_closeBlocks hanywhere
  · exact hanywhere

theorem strays_includedText (loc : Location) (text : String) (filter : Option String) :
    (includedText loc text filter).strays b = [] := by
  cases filter <;> rfl

theorem straysAll_resolveIncludes {out : List Node}
    (hload : ∀ target loc l, load target loc = .ok l → straysAll false l.nodes = [])
    (hns : straysAll b ns = []) (h : resolveIncludes load set basedir path ns = .ok out) :
    straysAll b out = [] := by
  have hshelters : Shelters (Answering.ofExcept LinkFailure) (fun _ => none)
      (followReference load set basedir path) b := by
    refine ⟨fun _ _ n ms hr => by simp at hr, fun c hbc n hn out ho => ?_⟩
    cases n with
    | inherits loc target => cases ho
    | includes loc target content =>
      obtain ⟨loaded, hl, ho⟩ := of_bind_eq_ok ho
      cases ho
      exact (straysAll_singleton _).trans (strays_included loc (hload _ _ _ hl) hn)
    | rawInclude loc target filter =>
      simp only [followReference] at ho
      split at ho
      next text hf =>
        cases ho
        exact (straysAll_singleton _).trans (strays_includedText loc text filter)
      next => cases ho
    | group | tag | text | output | statements | comment | doctype | conditional | switch | each | loop
    | mixin | call | slot | namedBlock | yield | filter =>
      cases ho
      exact (straysAll_singleton _).trans hn
  exact hshelters.all (Bool.le_refl b) ns hns out h

theorem straysAll_filter (p : Node → Bool) (h : straysAll b ns = []) :
    straysAll b (ns.filter p) = [] :=
  straysAll_eq_nil_iff.mpr fun n hn => straysAll_eq_nil_iff.mp h n (List.mem_filter.mp hn).1

theorem straysAll_overParent {root parent : List Node} (hr : straysAll b root = [])
    (hp : straysAll b parent = []) : straysAll b (overParent root parent) = [] := by
  have hmerged : straysAll b (mergeAll (root.filterMap Node.override?) parent) = [] := by
    refine straysAll_mergeAll (fun o ho => ?_) hp
    obtain ⟨n, hn, hover⟩ := List.mem_filterMap.mp ho
    have hstrays := straysAll_eq_nil_iff.mp hr n hn
    cases n with
    | namedBlock loc name mode body =>
      cases hover
      exact hstrays
    | _ => exact nomatch hover
  rw [overParent, straysAll_append, straysAll_append, straysAll_filter _ hr, hmerged,
    straysAll_filter _ hr]
  rfl

theorem straysAll_linkWith {out : List Node}
    (hload : ∀ target loc l, load target loc = .ok l → straysAll false l.nodes = [])
    (hns : straysAll false ns = []) (h : linkWith load set basedir path ns = .ok out) :
    straysAll false out = [] := by
  unfold linkWith at h
  split at h
  next loc target rest =>
    obtain ⟨resolved, hresolved, h⟩ := of_bind_eq_ok h
    dsimp only at h
    split at h
    next => exact nomatch h
    next =>
      obtain ⟨parent, hparent, h⟩ := of_bind_eq_ok h
      cases h
      have hrest : straysAll false rest = [] := hns
      exact straysAll_overParent
        (straysAll_ungroupedAll (straysAll_resolveIncludes hload hrest hresolved))
        (hload _ _ _ hparent)
  next => exact straysAll_resolveIncludes hload hns h

theorem straysAll_linkTree {set : TemplateSet} {options : Options}
    (hparsed : ∀ source parsed, parseSource options source = .ok parsed → straysAll false parsed = [])
    (stack : List String) (path : String) {ns out : List Node} (hns : straysAll false ns = [])
    (h : linkTree set options stack path ns = .ok out) : straysAll false out = [] := by
  induction stack, path, ns using linking_induction set options generalizing out with
  | step stack path ns ih =>
    rw [linkTree_eq] at h
    refine straysAll_linkWith (fun target loc l hload => ?_) hns h
    obtain ⟨hs, source, parsed, hf, hp, hout⟩ := loader_ok hload
    exact ih target source parsed hs hf hp (hparsed source parsed hp) hout

end Linking

/-- Of trees without stray blocks, linking leaves no bare block outside the mixins. -/
theorem link_slotless {set : TemplateSet} {options : Options} {path : String} {nodes : List Node}
    {linked : Linked}
    (hparsed : ∀ source parsed, parseSource options source = .ok parsed → straysAll false parsed = [])
    (hnodes : straysAll false nodes = []) (h : link set options path nodes = .ok linked) :
    ∀ n ∈ everywhereAll linked.nodes, n.isSlot = false := by
  obtain ⟨tree, htree, hlinked⟩ := of_bind_eq_ok h
  cases hlinked
  have hstrays : straysAll false (withoutMixins tree) = [] :=
    straysAll_withoutMixins (Linking.straysAll_linkTree hparsed [path] path hnodes htree)
  have hmixins : ∀ k ∈ postorderAll (withoutMixins tree), k.isMixin = false := fun k hk =>
    (forall_withoutMixins (P := fun _ => True) (fun _ _ _ _ => trivial) (fun _ _ => trivial) k hk).2
  rw [straysAll_eq_filter hmixins] at hstrays
  exact fun n hn => by simpa using List.filter_eq_nil_iff.mp hstrays n hn

/-! ## Templates -/

/-- What a source lexes to and a policy leaves of it is a stream. -/
theorem stream_of_strip {source : String} {p : CommentPolicy} {tokens kept : List Token}
    (hlex : lex source = .ok tokens) (hstrip : p.strip tokens = .ok kept) : TokenStream [] kept := by
  obtain ⟨_, hkept, hstream⟩ := CommentPolicy.exists_strip (p := p) (stream_of_lex hlex)
  exact Except.ok.inj (hstrip.symm.trans hkept) ▸ hstream

theorem strays_parseSource {options : Options} {source : String} {nodes : List Node}
    (h : parseSource options source = .ok nodes) : straysAll false nodes = [] := by
  unfold parseSource at h
  split at h
  next => cases h
  next kept hkept =>
    obtain ⟨tokens, hlex, hstrip⟩ := of_bind_eq_ok hkept
    split at h
    next => cases h
    next hparse =>
      cases h
      exact ((blaming_parseTokens (stream_of_strip hlex hstrip)).1 _ hparse).1

/-- A tree is read only of a stream with all bare blocks in mixins, and then they are in mixins in
the tree; linked, it has none outside the mixins that are taken out. What is blamed on a bare block
stands outside mixins in the stream, or in a tag of a text, which is read as a stream of its own. -/
theorem slots_in_mixins {source : String} {p : CommentPolicy} {tokens kept : List Token}
    (hlex : lex source = .ok tokens) (hstrip : p.strip tokens = .ok kept) :
    (∀ nodes, parseTokens kept = .ok nodes →
      slotsOutside [] false kept = [] ∧ straysAll false nodes = [] ∧
        ∀ set options path linked, link set options path nodes = .ok linked →
          ∀ n ∈ everywhereAll linked.nodes, n.isSlot = false) ∧
      ∀ e, parseTokens kept = .error e → e.cause = .slotOutsideMixin → Exposes kept e.loc := by
  obtain ⟨hok, herror⟩ := blaming_parseTokens (stream_of_strip hlex hstrip)
  refine ⟨fun nodes hparse => ?_, herror⟩
  obtain ⟨hstrays, hslots⟩ := hok nodes hparse
  exact ⟨hslots, hstrays, fun set options path linked hlink =>
    link_slotless (fun _ _ => strays_parseSource) hstrays hlink⟩

namespace SlotSource

/-- A bare block behind a tag in the body of a mixin, and a call. -/
def source : String := "mixin m\n  p: block\n+m"

def tokens : List Token :=
  [⟨.mixin "m" none, ⟨1, 1⟩⟩, ⟨.indent 2, ⟨2, 3⟩⟩, ⟨.tag "p", ⟨2, 3⟩⟩, ⟨.colon, ⟨2, 4⟩⟩,
    ⟨.slot, ⟨2, 6⟩⟩, ⟨.outdent, ⟨3, 1⟩⟩, ⟨.call "m" false none, ⟨3, 1⟩⟩, ⟨.eos, ⟨3, 3⟩⟩]

theorem lex_source : lex source = .ok tokens :=
  eq_ok_of_toOption (by decide +kernel)

def call : Node := .call ⟨3, 1⟩ (.fixed "m") [] {} none

def body : List Node := [.tag ⟨2, 3⟩ (.fixed "p") {} false false [.slot ⟨2, 6⟩]]

def nodes : List Node := [.mixin ⟨1, 1⟩ "m" [] body, call]

theorem parse_tokens : parseTokens tokens = .ok nodes := by
  simp [parseTokens, readTokens, readDocument, tokens, Node.read, readElement, Head.read,
    readInline, readOptionalBlock, Node.readHere, readItems, callName, callArguments, paramsAt,
    allBlank]
  rfl

theorem link_nodes : link [] {} "page" nodes = .ok ⟨[call], [("m", ⟨[], body⟩)]⟩ := by
  rw [link, Linking.linkTree]
  rfl

end SlotSource

theorem slots_in_mixins_called :
    parseTokens SlotSource.tokens = .ok SlotSource.nodes ∧
      slotsOutside [] false SlotSource.tokens = [] ∧ straysAll false SlotSource.nodes = [] ∧
        ∀ n ∈ everywhereAll [SlotSource.call], n.isSlot = false := by
  have hstrip : CommentPolicy.strip {} SlotSource.tokens = .ok SlotSource.tokens := rfl
  obtain ⟨hslots, hstrays, hlink⟩ :=
    (slots_in_mixins SlotSource.lex_source hstrip).1 _ SlotSource.parse_tokens
  exact ⟨SlotSource.parse_tokens, hslots, hstrays, hlink _ _ _ _ SlotSource.link_nodes⟩

namespace TaggedSlot

/-- A mixin whose body is a text with a tag. -/
def source : String := "mixin m\n  | #[block]"

def tokens : List Token :=
  [⟨.mixin "m" none, ⟨1, 1⟩⟩, ⟨.indent 2, ⟨2, 3⟩⟩, ⟨.text "#[block]", ⟨2, 5⟩⟩,
    ⟨.outdent, ⟨2, 13⟩⟩, ⟨.eos, ⟨2, 13⟩⟩]

theorem lex_source : lex source = .ok tokens :=
  eq_ok_of_toOption (by decide +kernel)

theorem segmentsAt_text : segmentsAt "#[block]" ⟨2, 5⟩ = .error ⟨.slotOutsideMixin, ⟨2, 7⟩⟩ := by
  have hs : Piece.split 0 "#[block]".toList = [.tag 0 "block".toList] := by decide +kernel
  have hl : lexAt (String.ofList "block".toList) ((⟨2, 5⟩ : Location).right (0 + 2)) =
      .ok [⟨.slot, ⟨2, 7⟩⟩, ⟨.eos, ⟨2, 12⟩⟩] := eq_ok_of_toOption (by decide +kernel)
  rw [segmentsAt, hs, List.mapM_cons, List.mapM_nil]
  simp only [segmentOf, nestedNode, hl, readTokens, readDocument, Node.read]
  simp [bind, Except.bind, Functor.map, Except.map]

theorem parse_tokens : parseTokens tokens = .error ⟨.slotOutsideMixin, ⟨2, 7⟩⟩ := by
  have hparams : paramsAt "" ⟨1, 1⟩ = .ok [] := rfl
  simp [parseTokens, readTokens, readDocument, tokens, Node.read, readOptionalBlock, readItems,
    textRun, TreeContext.textNode, segmentsAt_text, hparams, bind, Except.bind]

end TaggedSlot

/-- In the body of a mixin, a bare block in a tag of a text is refused although all of the stream is
that mixin. -/
theorem slot_refused_in_mixin :
    ¬ ∀ (source : String) (p : CommentPolicy) (tokens kept : List Token) (e : ParseError),
      lex source = .ok tokens → p.strip tokens = .ok kept → parseTokens kept = .error e →
        e.cause = .slotOutsideMixin → slotsOutside [] false kept ≠ [] := by
  intro h
  exact h TaggedSlot.source {} _ _ _ TaggedSlot.lex_source rfl TaggedSlot.parse_tokens rfl rfl

end PugTemplate
