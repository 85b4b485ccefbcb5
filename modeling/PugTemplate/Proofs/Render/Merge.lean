import PugTemplate.Proofs.Render.Call
import PugTemplate.Proofs.Value.Distinct

/-!
# What a start tag carries

The attributes of an element and the entries of the maps it spreads come as one row, and a start tag
is written from that row: one attribute for all classes, then each other name where the row has it
first, with what the row says of it last.
-/

namespace PugTemplate

/-! ## Insertions by first place and last value -/

namespace Dictionary

variable {α : Type}

/-- A dictionary is made of its keys and what it has under them. -/
theorem eq_filterMap_keys {d : Dictionary α} (hd : (keys d).Nodup) :
    d = (keys d).filterMap fun key => (find? key d).map (key, ·) := by
  have hentry : ∀ e ∈ d, (find? e.1 d).map (e.1, ·) = some e := fun e he => by
    rw [find?_of_mem hd he]
    rfl
  rw [keys, List.filterMap_map]
  exact (List.filterMap_some.symm.trans (List.filterMap_congr fun e he => (hentry e he).symm))

theorem ofEntries_eq_filterMap (entries : List (String × α)) :
    ofEntries entries = (keys entries).eraseDups.filterMap (last? · entries) := by
  rw [eq_filterMap_keys (nodup_keys_ofEntries entries), keys_ofEntries]
  refine List.filterMap_congr fun key _ => ?_
  rw [find?_ofEntries, Option.map_map]
  cases h : last? key entries with
  | none => rfl
  | some e => exact congrArg some (Prod.ext (last?_key h).symm rfl)

end Dictionary

/-! ## The text of a start tag -/

namespace Binding

/-- Whether the value is a map that is written as JSON. -/
def isJson (b : Binding) : Bool :=
  match b.value with
  | .map _ => b.name != "style"
  | _ => false

/-- The text of the value before it is escaped. -/
def valueText (b : Binding) : String :=
  match b.value with
  | .map entries => if b.isJson then b.value.toJson else styleText entries
  | .array items => spacedOutput items
  | v => v.toOutput

/-- The text of the value as it stands between the quotes. -/
def quoted (b : Binding) : String :=
  if b.spread || b.isJson || b.escape then escapeHtml b.valueText else b.valueText

/-- One attribute of a start tag: nothing for null and false, and for true the name alone or the name
as its own value. -/
def written (dialect : Dialect) (b : Binding) : String :=
  match b.value with
  | .null | .bool false => ""
  | .bool true =>
    if dialect.terse then " " ++ b.name else " " ++ b.name ++ "=\"" ++ b.name ++ "\""
  | _ => " " ++ b.name ++ "=\"" ++ b.quoted ++ "\""

/-- The class names of a row in order, escaped where that is asked for or where they come from a
map. -/
def classTexts (row : List Binding) : List String :=
  (row.filter Binding.isClass).flatMap fun b =>
    (classNames b.value).map fun s => if b.spread || b.escape then escapeHtml s else s

def classAttribute (row : List Binding) : String :=
  if classTexts row = [] then ""
  else " class=\"" ++ String.intercalate " " (classTexts row) ++ "\""

/-- The other names of a row, each where it comes first. -/
def otherNames (row : List Binding) : List String :=
  ((row.map Binding.name).filter (· ≠ "class")).eraseDups

/-- What a row says of a name last. -/
def last? (name : String) (row : List Binding) : Option Binding :=
  row.reverse.find? fun b => b.name = name

/-- All that a start tag has between its name and its end. -/
def merged (dialect : Dialect) (row : List Binding) : String :=
  classAttribute row ++
    String.join ((otherNames row).filterMap fun name => (last? name row).map (written dialect))

end Binding

/-! ## Pieces and their texts -/

namespace Fragment

/-- The text of pieces in a row. -/
def joined (fs : List Fragment) : String :=
  String.join (fs.map text)

theorem joined_cons (f : Fragment) (fs : List Fragment) : joined (f :: fs) = f.text ++ joined fs :=
  String.join_cons

theorem joined_singleton (f : Fragment) : joined [f] = f.text :=
  (joined_cons f []).trans String.append_empty

theorem joined_append (fs gs : List Fragment) : joined (fs ++ gs) = joined fs ++ joined gs := by
  rw [joined, List.map_append, String.join_append]
  rfl

theorem joined_flatMap {α : Type} (g : α → List Fragment) (xs : List α) :
    joined (xs.flatMap g) = String.join (xs.map fun x => joined (g x)) := by
  induction xs with
  | nil => rfl
  | cons x xs ih => rw [List.flatMap_cons, joined_append, ih, List.map_cons, String.join_cons]

theorem joined_spaced (fs : List Fragment) :
    joined (spaced fs) = String.intercalate " " (fs.map text) := by
  fun_induction spaced fs with
  | case1 => rfl
  | case2 f => exact joined_singleton f
  | case3 f fs hne ih =>
    obtain ⟨g, gs, rfl⟩ := List.exists_cons_of_ne_nil hne
    rw [joined_cons, joined_cons, ih, List.map_cons, List.map_cons, List.map_cons,
      String.intercalate_cons_cons, String.append_assoc]
    rfl

theorem text_ofData (escape : Bool) (s : String) :
    (ofData escape s).text = if escape then escapeHtml s else s := by
  cases escape <;> rfl

end Fragment

theorem joinFragments_toArray (fs : List Fragment) :
    joinFragments fs.toArray = Fragment.joined fs := by
  apply String.toList_inj.mp
  rw [toList_joinFragments, Fragment.joined, String.toList_join, List.flatMap_map]

namespace Binding

variable {row : List Binding}

/-- Whatever comes from a map is to be escaped. -/
def Guarded (row : List Binding) : Prop :=
  ∀ b ∈ row, b.spread = true → b.escape = true

theorem guarded_ofHead (eval : Expr → Value) (head : Head) : Guarded (ofHead eval head) := by
  intro b hb hs
  rcases List.mem_append.mp hb with hb | hb
  · obtain ⟨a, _, rfl⟩ := List.mem_map.mp hb
    exact nomatch hs
  · obtain ⟨e, _, hb⟩ := List.mem_flatMap.mp hb
    unfold ofSpread at hb
    split at hb
    next =>
      obtain ⟨entry, _, rfl⟩ := List.mem_map.mp hb
      rfl
    next => exact nomatch hb

theorem text_nameFragment (b : Binding) : b.nameFragment.text = b.name := by
  rw [nameFragment]
  split <;> rfl

theorem joined_attributeWith (b : Binding) (f : Fragment) :
    Fragment.joined (attributeWith b.nameFragment (some f)) =
      " " ++ b.name ++ "=\"" ++ f.text ++ "\"" := by
  have hfixed : ∀ s, (Fragment.fixed s).text = s := fun _ => rfl
  simp only [attributeWith, Fragment.joined, List.map_cons, List.map_nil, String.join_cons,
    String.join_nil, text_nameFragment, hfixed, String.append_assoc, String.append_empty]

theorem quoted_eq {b : Binding} (hb : b.spread = true → b.escape = true) :
    b.quoted = if b.isJson || b.escape then escapeHtml b.valueText else b.valueText := by
  rw [quoted]
  cases h : b.spread with
  | false => rfl
  | true => simp [hb h]

theorem joined_fragments {b : Binding} (hb : b.spread = true → b.escape = true)
    (dialect : Dialect) : Fragment.joined (b.fragments dialect) = b.written dialect := by
  obtain ⟨name, value, escape, spread⟩ := b
  cases value with
  | null => rfl
  | bool flag =>
    cases flag with
    | false => rfl
    | true =>
      rw [fragments, written]
      cases dialect.terse with
      | false => exact (joined_attributeWith _ _).trans (by rw [text_nameFragment]; rfl)
      | true =>
        show Fragment.joined [.fixed " ", nameFragment _] = _
        rw [Fragment.joined_cons, Fragment.joined_singleton, text_nameFragment]
        rfl
  | map entries =>
    rw [fragments, written, joined_attributeWith, quoted_eq hb]
    by_cases hn : name = "style"
    · simp [isJson, valueText, hn, Fragment.text_ofData]
    · simp [isJson, valueText, hn, Fragment.text]
  | array items =>
    rw [fragments, written, joined_attributeWith, quoted_eq hb, Fragment.text_ofData]
    simp [isJson, valueText]
  | _ =>
    rw [fragments, written, joined_attributeWith, quoted_eq hb, Fragment.text_ofData]
    simp [isJson, valueText]

theorem text_classFragments (hrow : Guarded row) :
    (classFragments row).map Fragment.text = classTexts row := by
  rw [classFragments, classTexts, List.map_flatMap]
  refine List.flatMap_congr fun b hb => ?_
  have hb := hrow b (List.mem_of_mem_filter hb)
  rw [List.map_map]
  refine List.map_congr_left fun s _ => ?_
  show (Fragment.ofData b.escape s).text = _
  rw [Fragment.text_ofData]
  cases h : b.spread with
  | false => rfl
  | true => rw [hb h]; rfl

theorem last?_otherBindings {name : String} (hname : name ≠ "class") (row : List Binding) :
    Dictionary.last? name ((row.filter fun b => !b.isClass).map fun b => (b.name, b)) =
      (last? name row).map fun b => (b.name, b) := by
  rw [Dictionary.last?, last?, ← List.map_reverse, ← List.filter_reverse, List.find?_map,
    List.find?_filter]
  refine congrArg _ (congrArg (row.reverse.find? ·) (funext fun b => ?_))
  by_cases hb : b.name = name
  · simp [hb, hname, isClass]
  · simp [hb]

theorem keys_others (row : List Binding) :
    Dictionary.keys ((row.filter fun b => !b.isClass).map fun b => (b.name, b)) =
      (row.map Binding.name).filter (· ≠ "class") := by
  rw [Dictionary.keys, List.map_map, List.filter_map]
  refine congrArg (List.map _) (List.filter_congr fun b _ => ?_)
  by_cases hb : b.name = "class"
  · simp [isClass, hb]
  · simp [isClass, hb]

theorem mem_otherNames {name : String} {row : List Binding} :
    name ∈ otherNames row ↔ name ∈ row.map Binding.name ∧ name ≠ "class" := by
  rw [otherNames, List.mem_eraseDups, List.mem_filter, decide_eq_true_iff]

theorem nodup_otherNames (row : List Binding) : (otherNames row).Nodup := by
  rw [otherNames, ← keys_others, ← Dictionary.keys_ofEntries]
  exact Dictionary.nodup_keys_ofEntries _

theorem otherBindings_eq (row : List Binding) :
    otherBindings row =
      (otherNames row).filterMap fun name => (last? name row).map fun b => (b.name, b) := by
  rw [otherBindings, Dictionary.ofEntries_eq_filterMap, keys_others]
  exact List.filterMap_congr fun name hname => last?_otherBindings (mem_otherNames.mp hname).2 row

/-- The names other than `class`, as the dictionary of a row has them. -/
theorem merged_eq (dialect : Dialect) (row : List Binding) :
    merged dialect row =
      classAttribute row ++ String.join ((otherBindings row).map fun e => e.2.written dialect) := by
  rw [merged, otherBindings_eq, List.map_filterMap]
  refine congrArg (classAttribute row ++ String.join ·) (List.filterMap_congr fun name _ => ?_)
  rw [Option.map_map]
  rfl

theorem mem_of_mem_otherBindings {e : String × Binding} (h : e ∈ otherBindings row) :
    e.1 = e.2.name ∧ e.2 ∈ row ∧ e.2.isClass = false := by
  obtain ⟨b, hb, rfl⟩ := List.mem_map.mp (Dictionary.mem_ofEntries h)
  obtain ⟨hb, hclass⟩ := List.mem_filter.mp hb
  exact ⟨rfl, hb, by simpa using hclass⟩

theorem joined_classFragments (hrow : Guarded row) :
    Fragment.joined (if classFragments row = [] then []
      else .fixed " class=\"" :: (spaced (classFragments row) ++ [.fixed "\""])) =
      classAttribute row := by
  have htexts := text_classFragments hrow
  rw [classAttribute]
  by_cases hc : classFragments row = []
  · rw [hc] at htexts
    rw [if_pos hc, ← htexts]
    rfl
  · have hne : classTexts row ≠ [] := by
      rw [← htexts]
      exact fun h => hc (List.map_eq_nil_iff.mp h)
    rw [if_neg hc, if_neg hne, Fragment.joined_cons, Fragment.joined_append,
      Fragment.joined_spaced, Fragment.joined_singleton, htexts, String.append_assoc]
    rfl

theorem joined_attributeFragments (hrow : Guarded row) (dialect : Dialect) :
    Fragment.joined (attributeFragments dialect row) = merged dialect row := by
  rw [attributeFragments, Fragment.joined_append, joined_classFragments hrow, merged_eq,
    Fragment.joined_flatMap]
  refine congrArg (classAttribute row ++ String.join ·) (List.map_congr_left fun e he => ?_)
  exact joined_fragments (hrow e.2 (mem_of_mem_otherBindings he).2.1) dialect

end Binding

/-! ## In a rendering -/

namespace Page

variable {n : Nat} {p : Page}

/-- A rendering goes the same way whatever has been written before. -/
theorem parallel_refl (left n : Nat) (ns : List Node) :
    Action.Parallel Eq (fun _ => False) (p.renderNodes left n ns) (p.renderNodes left n ns) := by
  induction left generalizing n ns with
  | zero => exact parallel_renderWith (fun n loc mixin f content => .throw _) n ns
  | succ left ih =>
    refine parallel_renderWith (fun n loc mixin f content => ?_) n ns
    exact .within (ih (n + 1) mixin.body) (fun h => by rw [h]) fun _ h => by rw [h]

/-- What goes the same way again only adds to what is written. -/
theorem exists_out {a : Action n} (ha : Action.Parallel Eq (fun _ => False) a a) (s : Session n) :
    ∃ fs, (Action.session (a s)).out = s.out ++ fs := by
  rcases ha s s rfl with ⟨_, _, _, h⟩ | h
  · exact h.elim
  · obtain ⟨fs, hfs, _⟩ := h.out
    exact ⟨fs, hfs⟩

theorem exists_exits (p : Page) (left n : Nat) :
    ∃ exits : Exits n, ∀ ns, p.renderNodes left n ns = p.actAll exits ns := by
  cases left <;> cases n <;> exact ⟨_, fun _ => rfl⟩

/-- The pieces of a start tag without its end. -/
def startTag (p : Page) (f : Frame) (name : NameSource) (head : Head) : List Fragment :=
  .fixed "<" :: (p.nameOf f name).2 :: attributeFragments p.dialect (p.bindings f head)

/-- An element is its start tag and, unless that is all of it, what it holds and its end tag. -/
theorem renderNodes_tag (p : Page) (left : Nat) (loc : Location) (name : NameSource) (head : Head)
    (selfClosing textOnly : Bool) (body : List Node) (s : Session n) :
    p.renderNodes left n [.tag loc name head selfClosing textOnly body] s =
      if p.isVoid (p.nameOf s.chain.frame name).1 selfClosing && body.isEmpty then
        .ok () ⟨s.chain, s.out ++ (p.startTag s.chain.frame name head ++
          [Fragment.fixed (if p.dialect.terse && !selfClosing then ">" else "/>")]).toArray⟩
      else
        (do
          p.renderNodes left n body
          Action.emit [.fixed "</", (p.nameOf s.chain.frame name).2, .fixed ">"] : Action n)
          ⟨s.chain, s.out ++ (p.startTag s.chain.frame name head ++
            [Fragment.fixed ">"]).toArray⟩ := by
  obtain ⟨exits, hexits⟩ := p.exists_exits left n
  have hact : p.actAll exits [.tag loc name head selfClosing textOnly body] =
      p.act exits (.tag loc name head selfClosing textOnly body) := bind_pure_unit
  rw [hexits, hexits, hact, act, Simulates.get_apply]
  simp only []
  split
  next h => rfl
  next h => rfl

theorem text_nameOf (p : Page) (f : Frame) (name : NameSource) :
    (p.nameOf f name).2.text = (p.nameOf f name).1 := by
  cases name <;> rfl

theorem joined_startTag (p : Page) (f : Frame) (name : NameSource) (head : Head) :
    Fragment.joined (p.startTag f name head) =
      "<" ++ (p.nameOf f name).1 ++ Binding.merged p.dialect (p.bindings f head) := by
  rw [startTag, Fragment.joined_cons, Fragment.joined_cons, text_nameOf,
    Page.bindings, Binding.joined_attributeFragments (Binding.guarded_ofHead _ head),
    String.append_assoc]
  rfl

theorem exists_out_tag (p : Page) (left : Nat) (loc : Location) (name : NameSource) (head : Head)
    (selfClosing textOnly : Bool) (body : List Node) (s : Session n) :
    ∃ close ∈ [">", "/>"], ∃ fs,
      (Action.session (p.renderNodes left n [.tag loc name head selfClosing textOnly body] s)).out =
        s.out ++ (p.startTag s.chain.frame name head ++ [Fragment.fixed close]).toArray ++ fs := by
  rw [renderNodes_tag]
  split
  next =>
    refine ⟨_, ?_, #[], Array.append_empty.symm⟩
    split <;> decide
  next =>
    obtain ⟨fs, hfs⟩ := exists_out ((parallel_refl left n body).seq (.emit _)) ⟨s.chain, _⟩
    exact ⟨">", List.mem_cons_self, fs, hfs⟩

/-- The start tag of an element, in any frame, has all classes of its attributes and of the maps it
spreads in one attribute, in order and before all else, and then each other name once, where it
comes first and with what is said of it last. -/
theorem start_tag_merges (p : Page) (left : Nat) (loc : Location) (name : NameSource) (head : Head)
    (selfClosing textOnly : Bool) (body : List Node) (s : Session n) :
    let row := p.bindings s.chain.frame head
    let after := Action.session
      (p.renderNodes left n [.tag loc name head selfClosing textOnly body] s)
    (∃ close ∈ [">", "/>"], ∃ rest, joinFragments after.out = joinFragments s.out ++
      ("<" ++ (p.nameOf s.chain.frame name).1 ++ Binding.merged p.dialect row ++ close ++ rest)) ∧
    (Binding.otherNames row).Nodup ∧ "class" ∉ Binding.otherNames row := by
  obtain ⟨close, hclose, fs, hfs⟩ :=
    exists_out_tag p left loc name head selfClosing textOnly body s
  refine ⟨⟨close, hclose, joinFragments fs, ?_⟩, Binding.nodup_otherNames _,
    fun h => (Binding.mem_otherNames.mp h).2 rfl⟩
  rw [hfs, joinFragments_append, joinFragments_append, joinFragments_toArray (_ ++ _),
    Fragment.joined_append, joined_startTag, Fragment.joined_singleton]
  simp only [String.append_assoc]
  rfl

/-- A name that a map says again keeps its place and takes the value of the map. -/
example : Binding.merged ⟨true, false⟩
    [⟨"id", .string "<", false, false⟩, ⟨"rel", .bool true, true, false⟩,
      ⟨"class", .array [.string "a", .map [("b", .bool true)]], true, false⟩,
      ⟨"rel", .null, true, true⟩, ⟨"id", .string "<", true, true⟩,
      ⟨"class", .string "c", true, true⟩] = " class=\"a b c\" id=\"&lt;\"" := by
  decide

end Page

end PugTemplate
