import PugTemplate.Proofs.Render.Origin

/-!
# Escaping is complete

A template that asks for no text as it is writes text of its own and escaped text, nothing else.
The characters of markup are all among its own.
-/

namespace PugTemplate

/-! ## Escaped text -/

/-- The characters that begin, end or quote markup. -/
def markupChars : List Char :=
  ['<', '>', '"', '\'']

theorem escapeChar_not_markup {c d : Char} (h : d ∈ escapeChar c) : d ∉ markupChars := by
  have hclean : ∀ entity : List Char, entity.all (· ∉ markupChars) →
      d ∈ entity → d ∉ markupChars := by
    intro entity he hd
    exact of_decide_eq_true (List.all_eq_true.mp he d hd)
  unfold escapeChar at h
  split at h
  -- the five characters that become entities
  iterate 5
    · exact hclean _ (by decide) h
  -- any other character stands for itself, and is none of those
  · rw [List.mem_singleton] at h
    subst h
    simp_all [markupChars]

/-- Escaped text has no character of markup. -/
theorem escapeHtml_not_markup {s : String} {d : Char} (h : d ∈ (escapeHtml s).toList) :
    d ∉ markupChars := by
  rw [escapeHtml, String.toList_ofList] at h
  obtain ⟨c, _, hd⟩ := List.mem_flatMap.mp h
  exact escapeChar_not_markup hd

/-! ## What a value is written as -/

/-- The texts that stand for a value on a page, before they are escaped. -/
inductive Value.Shown (v : Value) : String → Prop where
  | output : Shown v v.toOutput
  | className {s : String} (h : s ∈ classNames v) : Shown v s
  | json : Shown v v.toJson
  | style {entries : List (String × Value)} (h : v = .map entries) : Shown v (styleText entries)
  | items {items : List Value} (h : v = .array items) : Shown v (spacedOutput items)

/-- A piece of an attribute: punctuation, a name, or what a value is written as. -/
inductive Binding.Piece (bs : List Binding) : Fragment → Prop where
  | punctuation {text : String} (h : text ∈ [" ", "=\"", "\"", " class=\""]) :
    Piece bs (.fixed text)
  | name {b : Binding} (h : b ∈ bs) : Piece bs b.nameFragment
  | value {b : Binding} (h : b ∈ bs) {s : String} (hs : b.value.Shown s) :
    Piece bs (.ofData b.escape s)
  | escaped {b : Binding} (h : b ∈ bs) {s : String} (hs : b.value.Shown s) : Piece bs (.escaped s)

namespace Binding

variable {bs : List Binding}

theorem mem_spaced {fs : List Fragment} {piece : Fragment} (h : piece ∈ spaced fs) :
    piece = .fixed " " ∨ piece ∈ fs := by
  fun_induction spaced fs with
  | case1 => exact Or.inr h
  | case2 f => exact Or.inr h
  | case3 f fs hne ih =>
    simp only [List.mem_cons] at h ⊢
    grind

theorem forall_attributeWith {b : Binding} (hb : b ∈ bs) {f : Option Fragment}
    (hf : ∀ piece ∈ f, Piece bs piece) :
    ∀ piece ∈ attributeWith b.nameFragment f, Piece bs piece := by
  cases f with
  | none =>
    simp only [attributeWith, List.forall_mem_cons]
    exact ⟨.punctuation (by decide), .name hb, by simp⟩
  | some f =>
    simp only [attributeWith, List.forall_mem_cons]
    exact ⟨.punctuation (by decide), .name hb, .punctuation (by decide), hf f rfl,
      .punctuation (by decide), by simp⟩

theorem forall_fragments {b : Binding} (hb : b ∈ bs) (dialect : Dialect) :
    ∀ piece ∈ b.fragments dialect, Piece bs piece := by
  unfold fragments
  split
  next => simp
  next => simp
  -- a flag: its name alone, or once more as its value
  next =>
    refine forall_attributeWith hb fun piece h => ?_
    split at h
    · cases h
    · cases h
      exact .name hb
  -- a map is a list of styles in a `style` attribute, and JSON in any other, always escaped
  next entries hv =>
    refine forall_attributeWith hb fun piece h => ?_
    cases h
    split
    · exact .value hb (.style hv)
    · exact .escaped hb .json
  next items hv =>
    refine forall_attributeWith hb fun piece h => ?_
    cases h
    exact .value hb (.items hv)
  next =>
    refine forall_attributeWith hb fun piece h => ?_
    cases h
    exact .value hb .output

theorem forall_classFragments : ∀ piece ∈ classFragments bs, Piece bs piece := by
  intro piece h
  obtain ⟨b, hb, h⟩ := List.mem_flatMap.mp h
  obtain ⟨s, hs, rfl⟩ := List.mem_map.mp h
  exact .value (List.mem_filter.mp hb).1 (.className hs)

theorem forall_attributeFragments (dialect : Dialect) :
    ∀ piece ∈ attributeFragments dialect bs, Piece bs piece := by
  intro piece h
  rw [attributeFragments, List.mem_append] at h
  rcases h with h | h
  -- the classes of all attributes come first, as one attribute
  · split at h
    · cases h
    · simp only [List.mem_cons, List.mem_append, List.not_mem_nil, or_false] at h
      rcases h with rfl | h | rfl
      · exact .punctuation (by decide)
      · rcases mem_spaced h with rfl | h
        · exact .punctuation (by decide)
        · exact forall_classFragments piece h
      · exact .punctuation (by decide)
  · obtain ⟨⟨name, b⟩, hb, h⟩ := List.mem_flatMap.mp h
    obtain ⟨b', hb', he⟩ := List.mem_map.mp (Dictionary.mem_ofEntries hb)
    cases he
    exact forall_fragments (List.mem_filter.mp hb').1 dialect piece h

end Binding

/-! ## What a node writes -/

namespace Segment

/-- Whether data in a segment is escaped. -/
def escapes : Segment → Bool
  | .raw _ => false
  | _ => true

/-- The literal text of a segment. -/
def literal? : Segment → Option String
  | .literal text => some text
  | _ => none

/-- The expression whose value a segment shows. -/
def shown? : Segment → Option Expr
  | .escaped e | .raw e => some e
  | _ => none

end Segment

/-- The texts that markup is made of around names and values. -/
def punctuation : List String :=
  ["<", ">", "/>", "</", "<!--", "-->", " ", "=\"", "\"", " class=\""]

namespace Node

/-- Whether a node asks for no text of data as it is, in no name and no attribute either. -/
def escapes : Node → Bool
  | .tag _ (.fixed _) head _ _ _ => head.attributes.all (·.escape) && head.spreads.isEmpty
  | .tag _ (.computed _) _ _ _ _ | .filter .. => false
  | .text _ _ segments => segments.all Segment.escapes
  | .output _ _ escape => escape
  | _ => true

/-- The texts of its own that a node writes, whatever the data. -/
def ownTexts (options : Options) : Node → List String
  | .tag _ (.fixed name) head _ _ _ => name :: head.attributes.map (·.name)
  | .text _ _ segments => segments.filterMap Segment.literal?
  | .comment _ s true body => [s, (body.map (·.2)).getD ""]
  | .doctype _ value => [Doctype.markup (Doctype.declared options value)]
  | _ => []

/-- The expressions whose values a node shows. -/
def shown : Node → List Expr
  | .tag _ _ head _ _ _ => head.attributes.map (·.value)
  | .text _ _ segments => segments.filterMap Segment.shown?
  | .output _ e _ => [e]
  | _ => []

end Node

/-- A piece that is fixed before there is data. -/
def Linked.Fixes (l : Linked) (options : Options) (piece : Fragment) : Prop :=
  ∃ text, piece = .fixed text ∧
    (text ∈ punctuation ∨ ∃ n ∈ l.everywhere, text ∈ n.ownTexts options)

/-- A piece that shows the value of an expression of the template in a frame, escaped. -/
def Linked.Escapes (l : Linked) (page : Page) (piece : Fragment) : Prop :=
  ∃ s, piece = .escaped s ∧ ∃ n ∈ l.everywhere, ∃ e ∈ n.shown, ∃ f, (page.eval f e).Shown s

theorem Linked.Escapes.of_shown {l : Linked} {page : Page} {n : Node} (hn : n ∈ l.everywhere)
    {e : Expr} (he : e ∈ n.shown) {f : Frame} {s : String} (hs : (page.eval f e).Shown s) :
    l.Escapes page (.escaped s) :=
  ⟨s, rfl, n, hn, e, he, f, hs⟩

/-- The bindings of a head without spreads are its attributes. -/
theorem mem_bindings {page : Page} {f : Frame} {head : Head} (hs : head.spreads.isEmpty = true)
    {b : Binding} (hb : b ∈ page.bindings f head) :
    ∃ a ∈ head.attributes, b = ⟨a.name, page.eval f a.value, a.escape, false⟩ := by
  rw [Page.bindings, Binding.ofHead, List.isEmpty_iff.mp hs, List.flatMap_nil, List.append_nil]
    at hb
  obtain ⟨a, ha, rfl⟩ := List.mem_map.mp hb
  exact ⟨a, ha, rfl⟩

/-- Each piece of a node that asks for escaping is fixed or escaped. -/
theorem of_mem_pieces {l : Linked} {page : Page} {n : Node} (hn : n ∈ l.everywhere)
    (he : n.escapes = true) {f : Frame} {piece : Fragment} (h : piece ∈ page.pieces f n) :
    l.Fixes page.options piece ∨ l.Escapes page piece := by
  have own : ∀ text ∈ n.ownTexts page.options, l.Fixes page.options (.fixed text) :=
    fun text ht => ⟨text, rfl, Or.inr ⟨n, hn, ht⟩⟩
  have mark : ∀ text ∈ punctuation, l.Fixes page.options (.fixed text) :=
    fun text ht => ⟨text, rfl, Or.inl ht⟩
  match n with
  | .tag loc (.fixed name) head selfClosing textOnly body =>
    rw [Node.escapes, Bool.and_eq_true, List.all_eq_true] at he
    rw [Page.pieces, List.mem_append] at h
    rcases h with h | h
    -- the brackets, and the name between them
    · simp only [Page.nameOf, List.mem_cons, List.not_mem_nil, or_false] at h
      rcases h with rfl | rfl | rfl | rfl | rfl
      · exact Or.inl (mark _ (by decide))
      · exact Or.inl (mark _ (by decide))
      · exact Or.inl (mark _ (by decide))
      · exact Or.inl (mark _ (by decide))
      · exact Or.inl (own _ List.mem_cons_self)
    · cases Binding.forall_attributeFragments page.dialect piece h with
      | punctuation ht =>
        refine Or.inl (mark _ ?_)
        revert ht
        simp +contextual [punctuation]
      | name hb =>
        obtain ⟨a, ha, rfl⟩ := mem_bindings he.2 hb
        exact Or.inl (own _ (List.mem_cons_of_mem _ (List.mem_map_of_mem ha)))
      -- without spreads each value is that of an attribute, and all attributes are escaped
      | value hb hs =>
        obtain ⟨a, ha, rfl⟩ := mem_bindings he.2 hb
        rw [he.1 a ha]
        exact Or.inr (.of_shown hn (List.mem_map_of_mem ha) hs)
      | escaped hb hs =>
        obtain ⟨a, ha, rfl⟩ := mem_bindings he.2 hb
        exact Or.inr (.of_shown hn (List.mem_map_of_mem ha) hs)
  | .text loc raw segments =>
    rw [Node.escapes, List.all_eq_true] at he
    obtain ⟨seg, hseg, h⟩ := List.mem_flatMap.mp h
    have hesc := he seg hseg
    cases seg with
    | literal text =>
      rw [List.mem_singleton.mp h]
      exact Or.inl (own _ (List.mem_filterMap.mpr ⟨_, hseg, rfl⟩))
    | escaped e =>
      rw [List.mem_singleton.mp h]
      exact Or.inr (.of_shown hn (List.mem_filterMap.mpr ⟨_, hseg, rfl⟩) .output)
    | raw e => cases hesc
    | tag nd => cases h
  | .output loc e escape =>
    rw [List.mem_singleton.mp h, show escape = true from he]
    exact Or.inr (.of_shown hn List.mem_cons_self .output)
  | .comment loc text true body =>
    simp only [Page.pieces, List.mem_cons, List.not_mem_nil, or_false] at h
    rcases h with rfl | rfl | rfl | rfl
    · exact Or.inl (mark _ (by decide))
    · exact Or.inl (own _ List.mem_cons_self)
    · exact Or.inl (own _ (List.mem_cons_of_mem _ List.mem_cons_self))
    · exact Or.inl (mark _ (by decide))
  | .doctype loc value =>
    rw [List.mem_singleton.mp h]
    exact Or.inl (own _ List.mem_cons_self)
  | .tag _ (.computed _) _ _ _ _ | .filter .. => cases he
  | .group .. | .statements .. | .comment _ _ false _ | .conditional .. | .switch .. | .each ..
  | .loop .. | .mixin .. | .call .. | .slot _ | .namedBlock .. | .includes .. | .rawInclude ..
  | .inherits .. | .yield _ => cases h

/-! ## Pages -/

/-- A character of a page stands in one of its pieces. -/
theorem piece_of_getElem? {pieces : List Fragment} {i : Nat} {c : Char}
    (h : (pieces.flatMap (·.text.toList))[i]? = some c) :
    ∃ before piece after, pieces = before ++ piece :: after ∧
      ∃ j, i = (before.flatMap (·.text.toList)).length + j ∧ piece.text.toList[j]? = some c := by
  induction pieces generalizing i with
  | nil => simp at h
  | cons piece pieces ih =>
    rw [List.flatMap_cons] at h
    by_cases hi : i < piece.text.toList.length
    · rw [List.getElem?_append_left hi] at h
      exact ⟨[], piece, pieces, rfl, i, by simp, h⟩
    · have hle : piece.text.toList.length ≤ i := by omega
      rw [List.getElem?_append_right hle] at h
      obtain ⟨before, q, after, rfl, j, hj, hc⟩ := ih h
      refine ⟨piece :: before, q, after, rfl, j, ?_, hc⟩
      rw [List.flatMap_cons, List.length_append]
      omega

theorem toList_joinFragments (out : Array Fragment) :
    (joinFragments out).toList = out.toList.flatMap (·.text.toList) := by
  have hfold : ∀ (fs : List Fragment) (s : String),
      (fs.foldl (fun s f => s ++ f.text) s).toList = s.toList ++ fs.flatMap (·.text.toList) := by
    intro fs
    induction fs with
    | nil => simp
    | cons f fs ih =>
      intro s
      rw [List.foldl_cons, ih, String.toList_append, List.flatMap_cons, List.append_assoc]
  rw [joinFragments, ← Array.foldl_toList, hfold]
  rfl

/-- A template that asks for no text as it is writes pieces that are fixed before there is data, and
values that are escaped. So each character of markup on the page stands in a fixed piece. -/
theorem render_escapes {l : Linked} (hl : ∀ n ∈ l.everywhere, n.escapes = true) {data : Value}
    {options : Options} {filters : Dictionary Filter} {html : String}
    (h : render l data options filters = .ok html) :
    ∃ pieces : List Fragment, html.toList = pieces.flatMap (·.text.toList) ∧
      (∀ piece ∈ pieces,
        l.Fixes options piece ∨ l.Escapes (l.page data options filters) piece) ∧
      ∀ i c, html.toList[i]? = some c → c ∈ markupChars →
        ∃ before piece after, pieces = before ++ piece :: after ∧ l.Fixes options piece ∧
          ∃ j, i = (before.flatMap (·.text.toList)).length + j ∧
            piece.text.toList[j]? = some c := by
  rw [render] at h
  cases hout : renderFragments l data options filters with
  | error e =>
    rw [hout] at h
    exact nomatch h
  | ok out =>
    rw [hout] at h
    cases h
    have hpieces : ∀ piece ∈ out.toList,
        l.Fixes options piece ∨ l.Escapes (l.page data options filters) piece := by
      intro piece hp
      obtain ⟨n, hn, f, hf⟩ :=
        forall_renderFragments l data options filters hout piece (Array.mem_toList_iff.mp hp)
      exact @of_mem_pieces l (l.page data options filters) n hn (hl n hn) f piece hf
    refine ⟨out.toList, toList_joinFragments out, hpieces, fun i c hi hc => ?_⟩
    rw [toList_joinFragments] at hi
    obtain ⟨before, piece, after, hout, j, hj, hcj⟩ := piece_of_getElem? hi
    refine ⟨before, piece, after, hout, ?_, j, hj, hcj⟩
    have hmem : piece ∈ out.toList := hout ▸ List.mem_append_right _ List.mem_cons_self
    rcases hpieces piece hmem with hfix | ⟨s, rfl, _⟩
    · exact hfix
    -- an escaped piece has no such character
    · exact absurd hc (escapeHtml_not_markup (List.mem_of_getElem? hcj))

/-- A paragraph with a title, showing one name in both places. -/
def titledParagraph : Linked :=
  ⟨[.tag ⟨1, 1⟩ (.fixed "p") { attributes := [⟨"title", some "x", .name "x", true, false⟩] } false
    false [.output ⟨1, 13⟩ (.name "x") true]], []⟩

theorem render_escapes_titledParagraph :
    (∀ n ∈ titledParagraph.everywhere, n.escapes = true) ∧
      render titledParagraph (.map [("x", .string "<\"")]) {} [] =
        .ok "<p title=\"&lt;&quot;\">&lt;&quot;</p>" ∧
      ∃ pieces : List Fragment,
        "<p title=\"&lt;&quot;\">&lt;&quot;</p>".toList = pieces.flatMap (·.text.toList) ∧
        ∀ piece ∈ pieces, titledParagraph.Fixes {} piece ∨
          titledParagraph.Escapes (titledParagraph.page (.map [("x", .string "<\"")]) {} []) piece := by
  have hl : ∀ n ∈ titledParagraph.everywhere, n.escapes = true := by decide
  have hr : render titledParagraph (.map [("x", .string "<\"")]) {} [] =
      .ok "<p title=\"&lt;&quot;\">&lt;&quot;</p>" := eq_ok_of_toOption (by decide +kernel)
  obtain ⟨pieces, hjoin, hpieces, _⟩ := render_escapes hl hr
  exact ⟨hl, hr, pieces, hjoin, hpieces⟩

end PugTemplate
