import PugTemplate.Proofs.Render.Merge

/-!
# Attributes that a call hands on

A mixin sees the attributes of its call as a map, with all class names in one text. An element that
spreads this map and has nothing else carries what the call does. Only a class name without
characters would be lost on the way, and such a name stands in a map only.
-/

namespace PugTemplate

/-! ## Escaping a text in parts -/

theorem escapeHtml_append (s t : String) : escapeHtml (s ++ t) = escapeHtml s ++ escapeHtml t := by
  apply String.toList_inj.mp
  simp only [escapeHtml, String.toList_append, String.toList_ofList, List.flatMap_append]

theorem escapeHtml_intercalate (ss : List String) :
    escapeHtml (String.intercalate " " ss) = String.intercalate " " (ss.map escapeHtml) := by
  have hspace : escapeHtml " " = " " := by decide
  induction ss with
  | nil => rfl
  | cons s ss ih =>
    cases ss with
    | nil => rfl
    | cons t ss =>
      rw [String.intercalate_cons_cons, escapeHtml_append, escapeHtml_append, hspace, ih]
      exact String.intercalate_cons_cons.symm

/-! ## Class names without characters -/

/-- A map with a key without characters stands in a value, or is the value. -/
inductive Value.EmptyKeyed : Value → Prop where
  | map {entries : List (String × Value)} (h : "" ∈ Dictionary.keys entries) :
    EmptyKeyed (.map entries)
  | array {items : List Value} {v : Value} (hv : v ∈ items) (h : EmptyKeyed v) :
    EmptyKeyed (.array items)

theorem empty_not_mem_single (s : String) : "" ∉ if s.isEmpty then [] else [s] := by
  split
  next => exact List.not_mem_nil
  next hs =>
    intro h
    rw [← List.mem_singleton.mp h] at hs
    exact hs rfl

mutual

theorem emptyKeyed_of_mem_classNames (v : Value) (h : "" ∈ classNames v) : v.EmptyKeyed := by
  cases v with
  | null | bool => exact nomatch h
  | array items =>
    obtain ⟨v, hv, h⟩ := emptyKeyed_of_mem_classNamesAll items h
    exact .array hv h
  | map entries =>
    obtain ⟨e, he, hkey⟩ := List.mem_map.mp h
    exact .map (hkey ▸ Dictionary.mem_keys_of_mem (List.mem_of_mem_filter he))
  | int i => exact absurd h (empty_not_mem_single (Value.int i).toOutput)
  | float f => exact absurd h (empty_not_mem_single (Value.float f).toOutput)
  | string t => exact absurd h (empty_not_mem_single (Value.string t).toOutput)

theorem emptyKeyed_of_mem_classNamesAll (vs : List Value) (h : "" ∈ classNamesAll vs) :
    ∃ v ∈ vs, v.EmptyKeyed := by
  cases vs with
  | nil => exact nomatch h
  | cons v vs =>
    rcases List.mem_append.mp h with h | h
    · exact ⟨v, List.mem_cons_self, emptyKeyed_of_mem_classNames v h⟩
    · obtain ⟨w, hw, h⟩ := emptyKeyed_of_mem_classNamesAll vs h
      exact ⟨w, List.mem_cons_of_mem _ hw, h⟩

end

/-! ## The map that a call makes -/

namespace Binding

variable {row : List Binding}

/-- What the value of a name becomes when it has been read from a map. -/
def reread (b : Binding) : Binding :=
  ⟨b.name, b.value, true, true⟩

/-- All that can be escaped is. -/
def Escaping (row : List Binding) : Prop :=
  ∀ b ∈ row, b.escape = true

theorem escaping_ofSpread (v : Value) : Escaping (ofSpread v) := by
  intro b hb
  unfold ofSpread at hb
  split at hb
  next =>
    obtain ⟨entry, _, rfl⟩ := List.mem_map.mp hb
    rfl
  next => exact nomatch hb

theorem written_reread {b : Binding} (h : b.escape = true) (dialect : Dialect) :
    b.reread.written dialect = b.written dialect := by
  have hquoted : b.reread.quoted = b.quoted := by
    rw [quoted, quoted, h, Bool.or_true, if_pos rfl]
    rfl
  rw [written, written, hquoted]
  rfl

/-- The names of the classes of a row, before they are escaped. -/
def allClassNames (row : List Binding) : List String :=
  (row.filter isClass).flatMap fun b => classNames b.value

theorem classTexts_of_escaping (h : Escaping row) :
    classTexts row = (allClassNames row).map escapeHtml := by
  rw [classTexts, allClassNames, List.map_flatMap]
  refine List.flatMap_congr fun b hb => List.map_congr_left fun s _ => ?_
  rw [h b (List.mem_of_mem_filter hb), Bool.or_true, if_pos rfl]

/-- The class that a map of attributes has, if it has one. -/
def classEntry (row : List Binding) : List Binding :=
  if allClassNames row = [] then []
  else [⟨"class", .string (String.intercalate " " (allClassNames row)), true, true⟩]

theorem ofSpread_attributesMap (row : List Binding) :
    ofSpread (attributesMap row) =
      classEntry row ++ (otherBindings row).map fun e => e.2.reread := by
  rw [attributesMap, ofSpread, List.map_append, List.map_map]
  congr 1
  · rw [classEntry, allClassNames]
    split <;> rfl
  · refine List.map_congr_left fun e he => ?_
    rw [reread, ← (mem_of_mem_otherBindings he).1]
    rfl

theorem filter_isClass_reread (row : List Binding) :
    (ofSpread (attributesMap row)).filter isClass = classEntry row := by
  have hothers : ((otherBindings row).map fun e => e.2.reread).filter isClass = [] := by
    refine List.filter_eq_nil_iff.mpr fun b hb => ?_
    obtain ⟨e, he, rfl⟩ := List.mem_map.mp hb
    exact Bool.not_eq_true _ ▸ (mem_of_mem_otherBindings he).2.2
  have hclass : (classEntry row).filter isClass = classEntry row := by
    rw [classEntry]
    split <;> rfl
  rw [ofSpread_attributesMap, List.filter_append, hothers, hclass, List.append_nil]

theorem intercalate_ne_empty {s : String} (hs : s ≠ "") (ss : List String) :
    String.intercalate " " (s :: ss) ≠ "" := by
  cases ss with
  | nil => exact hs
  | cons t ss =>
    rw [String.intercalate_cons_cons, String.append_assoc]
    exact fun h => hs (String.append_eq_empty_iff.mp h).1

/-- What is joined from class names is a class name, unless it has no characters. -/
theorem allClassNames_reread (hne : "" ∉ allClassNames row) :
    allClassNames (ofSpread (attributesMap row)) =
      if allClassNames row = [] then [] else [String.intercalate " " (allClassNames row)] := by
  rw [allClassNames, filter_isClass_reread, classEntry]
  cases hnames : allClassNames row with
  | nil => rfl
  | cons s ss =>
    have hs : s ≠ "" := fun h => hne (by rw [hnames, h]; exact List.mem_cons_self)
    have hjoined := mt String.isEmpty_iff.mp (intercalate_ne_empty hs ss)
    rw [if_neg (List.cons_ne_nil s ss), if_neg (List.cons_ne_nil s ss), List.flatMap_singleton]
    exact if_neg hjoined

theorem classAttribute_reread (hrow : Escaping row) (hne : "" ∉ allClassNames row) :
    classAttribute (ofSpread (attributesMap row)) = classAttribute row := by
  rw [classAttribute, classAttribute, classTexts_of_escaping hrow,
    classTexts_of_escaping (escaping_ofSpread _), allClassNames_reread hne]
  split
  next h => rw [h]
  next h =>
    have htexts : (allClassNames row).map escapeHtml ≠ [] := mt List.map_eq_nil_iff.mp h
    rw [List.map_singleton, if_neg (List.cons_ne_nil _ _), if_neg htexts,
      ← escapeHtml_intercalate (allClassNames row)]
    rfl

theorem otherBindings_reread (row : List Binding) :
    otherBindings (ofSpread (attributesMap row)) =
      (otherBindings row).map (Prod.map id reread) := by
  have hclass : (classEntry row).filter (fun b => !b.isClass) = [] := by
    rw [classEntry]
    split <;> rfl
  have hothers : (((otherBindings row).map fun e => e.2.reread).filter fun b => !b.isClass) =
      (otherBindings row).map fun e => e.2.reread := by
    refine List.filter_eq_self.mpr fun b hb => ?_
    obtain ⟨e, he, rfl⟩ := List.mem_map.mp hb
    exact congrArg not (mem_of_mem_otherBindings he).2.2
  have hentries : ((otherBindings row).map fun e => (e.2.reread.name, e.2.reread)) =
      (otherBindings row).map (Prod.map id reread) :=
    List.map_congr_left fun e he => Prod.ext (mem_of_mem_otherBindings he).1.symm rfl
  have hkeys : Dictionary.keys ((otherBindings row).map (Prod.map id reread)) =
      Dictionary.keys (otherBindings row) := List.map_map
  rw [otherBindings, ofSpread_attributesMap, List.filter_append, hclass, hothers, List.nil_append,
    List.map_map]
  refine (congrArg Dictionary.ofEntries hentries).trans (Dictionary.ofEntries_of_nodup ?_)
  rw [hkeys]
  exact Dictionary.nodup_keys_ofEntries _

theorem merged_reread (hrow : Escaping row) (hne : "" ∉ allClassNames row) (dialect : Dialect) :
    merged dialect (ofSpread (attributesMap row)) = merged dialect row := by
  rw [merged_eq, merged_eq, classAttribute_reread hrow hne, otherBindings_reread, List.map_map]
  refine congrArg (classAttribute row ++ String.join ·) (List.map_congr_left fun e he => ?_)
  exact written_reread (hrow e.2 (mem_of_mem_otherBindings he).2.1) dialect

end Binding

/-! ## In a rendering -/

theorem Action.emit_apply {n : Nat} (fs : List Fragment) (s : Session n) :
    Action.emit fs s = .ok () ⟨s.chain, s.out ++ fs.toArray⟩ :=
  rfl

theorem append_pieces (out : Array Fragment) (start : List Fragment) (f : Fragment)
    (finish : List Fragment) :
    out ++ (start ++ [f]).toArray ++ finish.toArray = out ++ (start ++ f :: finish).toArray := by
  rw [Array.append_assoc, List.append_toArray (start ++ [f]) finish, List.append_assoc]
  rfl

namespace Page

variable {n : Nat} {p : Page}

/-- The pieces that end an element without a body. -/
def endTag (p : Page) (tag : String) (selfClosing : Bool) : List Fragment :=
  if p.isVoid tag selfClosing then
    [.fixed (if p.dialect.terse && !selfClosing then ">" else "/>")]
  else [.fixed ">", .fixed "</", .fixed tag, .fixed ">"]

theorem renderNodes_empty_tag (p : Page) (left : Nat) (loc : Location) (tag : String) (head : Head)
    (selfClosing textOnly : Bool) (s : Session n) :
    p.renderNodes left n [.tag loc (.fixed tag) head selfClosing textOnly []] s =
      .ok () ⟨s.chain, s.out ++ (p.startTag s.chain.frame (.fixed tag) head ++
        p.endTag tag selfClosing).toArray⟩ := by
  obtain ⟨exits, hexits⟩ := p.exists_exits left n
  have hempty : p.renderNodes left n [] = pure () := hexits []
  rw [renderNodes_tag, List.isEmpty_nil, Bool.and_true, endTag, hempty, pure_bind]
  split
  next h => rw [if_pos (show p.isVoid tag selfClosing = true from h)]
  next h =>
    rw [if_neg (show ¬p.isVoid tag selfClosing = true from h)]
    rw [Action.emit_apply, append_pieces]
    rfl

/-- What a mixin without parameters reads as its attributes. -/
theorem lookup_attributes {mixin : Mixin} (hparams : mixin.params = []) (f : Frame)
    (args : List Expr) (head : Head) (hasContent : Bool) :
    p.eval (p.callFrame f mixin args head hasContent) (.name "attributes") =
      attributesMap (p.bindings f head) := by
  rw [eval, Expr.eval, lookup, callFrame, hparams, bindParams]
  rfl

theorem bindings_attributes {mixin : Mixin} (hparams : mixin.params = []) (f : Frame)
    (args : List Expr) (head : Head) (hasContent : Bool) :
    p.bindings (p.callFrame f mixin args head hasContent) { spreads := [.name "attributes"] } =
      Binding.ofSpread (attributesMap (p.bindings f head)) := by
  rw [← lookup_attributes hparams f args head hasContent]
  exact (List.nil_append _).trans (List.flatMap_singleton _ _)

/-- In the frame of a call the element of its mixin has the start tag of the call. -/
theorem joined_startTag_callFrame {mixin : Mixin} (hparams : mixin.params = []) (tag : String)
    {f : Frame} {head : Head} (args : List Expr) (hasContent : Bool)
    (hescape : Binding.Escaping (p.bindings f head))
    (hkeys : ∀ b ∈ p.bindings f head, b.name = "class" → ¬b.value.EmptyKeyed) :
    Fragment.joined (p.startTag (p.callFrame f mixin args head hasContent) (.fixed tag)
        { spreads := [.name "attributes"] }) =
      Fragment.joined (p.startTag f (.fixed tag) head) := by
  have hne : "" ∉ Binding.allClassNames (p.bindings f head) := by
    intro h
    obtain ⟨b, hb, h⟩ := List.mem_flatMap.mp h
    obtain ⟨hb, hclass⟩ := List.mem_filter.mp hb
    exact hkeys b hb (eq_of_beq hclass) (emptyKeyed_of_mem_classNames b.value h)
  rw [joined_startTag, joined_startTag, bindings_attributes hparams,
    Binding.merged_reread hescape hne]
  rfl

/-- A call of a mixin that is one empty element with the attributes of the call renders as this
element does with these attributes in place of the call. -/
theorem call_passes_attributes (p : Page) {mixin : Mixin} {tag : String}
    {selfClosing textOnly : Bool} {l : Location} (hparams : mixin.params = [])
    (hbody : mixin.body =
      [.tag l (.fixed tag) { spreads := [.name "attributes"] } selfClosing textOnly []])
    (loc : Location) (name : NameSource) (args : List Expr) (head : Head)
    (content : Option (List Node)) (hescape : ∀ a ∈ head.attributes, a.escape = true) (left : Nat)
    (s : Session n)
    (hm : Dictionary.find? (p.nameOf s.chain.frame name).1 p.mixins = some mixin)
    (hkeys : ∀ b ∈ p.bindings s.chain.frame head, b.name = "class" → ¬b.value.EmptyKeyed) :
    ∃ called placed : List Fragment,
      p.renderNodes (left + 1) n [.call loc name args head content] s =
        .ok () ⟨s.chain, s.out ++ called.toArray⟩ ∧
      p.renderNodes (left + 1) n [.tag loc (.fixed tag) head selfClosing textOnly []] s =
        .ok () ⟨s.chain, s.out ++ placed.toArray⟩ ∧
      Fragment.joined called = Fragment.joined placed := by
  have hescaping : Binding.Escaping (p.bindings s.chain.frame head) := by
    intro b hb
    rcases List.mem_append.mp hb with hb | hb
    · obtain ⟨a, ha, rfl⟩ := List.mem_map.mp hb
      exact hescape a ha
    · obtain ⟨e, _, hb⟩ := List.mem_flatMap.mp hb
      exact Binding.escaping_ofSpread _ b hb
  have hcall : p.renderNodes (left + 1) n [.call loc name args head content] s =
      .ok () ⟨s.chain, s.out ++ (p.startTag (p.callFrame s.chain.frame mixin args head
        content.isSome) (.fixed tag) { spreads := [.name "attributes"] } ++
          p.endTag tag selfClosing).toArray⟩ := by
    rw [renderNodes_call, hm]
    simp only [hbody]
    rw [inCall, Action.within, renderNodes_empty_tag]
    rfl
  refine ⟨_, _, hcall, renderNodes_empty_tag .., ?_⟩
  rw [Fragment.joined_append, Fragment.joined_append,
    joined_startTag_callFrame hparams tag args content.isSome hescaping hkeys]

end Page

/-- A mixin for links: an element that takes over the attributes of a call. -/
def anchor : Mixin :=
  ⟨[], [.tag ⟨2, 3⟩ (.fixed "a") { spreads := [.name "attributes"] } false false []]⟩

def anchorPage : Page :=
  ⟨[("link", anchor)], {}, [], .map [("to", .string "/?a&b")], ⟨true, false⟩⟩

/-- A link to a place that the data names, with two classes. -/
def anchorHead : Head :=
  { attributes := [⟨"href", some "to", .name "to", true, false⟩,
      ⟨"class", some "['x', 'y']", .array [.literal (.string "x"), .literal (.string "y")], true,
        false⟩] }

theorem call_passes_attributes_anchor :
    (∀ a ∈ anchorHead.attributes, a.escape = true) ∧
      Dictionary.find? "link" anchorPage.mixins = some anchor ∧
      (∀ b ∈ anchorPage.bindings {} anchorHead, b.name = "class" → ¬b.value.EmptyKeyed) ∧
      ∃ called placed : List Fragment,
        anchorPage.renderNodes 1 0 [.call ⟨1, 1⟩ (.fixed "link") [] anchorHead none]
            ⟨.page {}, #[]⟩ = .ok () ⟨.page {}, #[] ++ called.toArray⟩ ∧
        anchorPage.renderNodes 1 0 [.tag ⟨1, 1⟩ (.fixed "a") anchorHead false false []]
            ⟨.page {}, #[]⟩ = .ok () ⟨.page {}, #[] ++ placed.toArray⟩ ∧
        Fragment.joined called = Fragment.joined placed := by
  have hescape : ∀ a ∈ anchorHead.attributes, a.escape = true := by decide
  have hkeys : ∀ b ∈ anchorPage.bindings {} anchorHead, b.name = "class" → ¬b.value.EmptyKeyed := by
    intro b hb hclass hempty
    rcases List.mem_cons.mp hb with rfl | hb
    · exact nomatch hempty
    · obtain rfl := List.mem_singleton.mp hb
      cases hempty with
      | array hv hempty =>
        rcases List.mem_cons.mp hv with rfl | hv
        · exact nomatch hempty
        · obtain rfl := List.mem_singleton.mp hv
          exact nomatch hempty
  exact ⟨hescape, rfl, hkeys, Page.call_passes_attributes anchorPage rfl rfl ⟨1, 1⟩ (.fixed "link") []
    anchorHead none hescape 0 ⟨.page {}, #[]⟩ rfl hkeys⟩

end PugTemplate
