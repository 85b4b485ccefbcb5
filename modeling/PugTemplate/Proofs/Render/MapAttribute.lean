import PugTemplate.Proofs.Render.Merge
import PugTemplate.Proofs.Value.Json

/-!
# Maps in attributes, read back

A map in an attribute is written as its JSON text, escaped whether or not that is asked for. Who
reads the page takes the text between the quotes, resolves its references and then reads JSON: what
comes out is the map.
-/

namespace PugTemplate

/-! ## Character references -/

namespace Reference

/-- The references that every reader of markup knows by name. -/
def names : List (List Char × Char) :=
  [("amp".toList, '&'), ("lt".toList, '<'), ("gt".toList, '>'), ("quot".toList, '"'),
    ("apos".toList, '\'')]

/-- A character between the ampersand and the semicolon of a reference. -/
def isInner (c : Char) : Bool :=
  c.isAlphanum || c = '#'

def number? : List Char → Option Nat
  | '#' :: 'x' :: ds | '#' :: 'X' :: ds => if ds = [] then none else Lexeme.hexNumber? ds
  | '#' :: ds => if ds = [] ∨ ¬ ds.all Char.isDigit then none else some (Decimal.digitsValue ds)
  | _ => none

/-- The character with a number. Zero and the numbers from 128 to 159 are no such characters: what
they mean comes from older encodings. -/
def numbered? (n : Nat) : Option Char :=
  if n = 0 ∨ (0x80 ≤ n ∧ n < 0xA0) then none else Lexeme.charOf? n

def meaning? (inner : List Char) : Option Char :=
  (names.lookup inner).or ((number? inner).bind numbered?)

variable (others : List Char → Option (List Char × Nat))

/-- What a text behind an ampersand means, and the count of its characters that say so. There are many
more references, with other names or without a semicolon: `others` says what they mean. -/
def read? (cs : List Char) : Option (List Char × Nat) :=
  let inner := cs.takeWhile isInner
  match cs.drop inner.length, meaning? inner with
  | ';' :: _, some c => some ([c], inner.length + 1)
  | _, _ => others cs

def resolve : List Char → List Char
  | [] => []
  | c :: cs =>
    match if c = '&' then read? others cs else none with
    | some (meant, n) => meant ++ resolve (cs.drop n)
    | none => c :: resolve cs
termination_by cs => cs.length

end Reference

/-- A text of markup with its references resolved. -/
def unescapeHtml (others : List Char → Option (List Char × Nat)) (s : String) : String :=
  String.ofList (Reference.resolve others s.toList)

namespace Reference

variable {others : List Char → Option (List Char × Nat)}

theorem resolve_reference {c : Char} {w rest : List Char}
    (h : read? others (w ++ rest) = some ([c], w.length)) :
    resolve others ('&' :: (w ++ rest)) = c :: resolve others rest := by
  rw [resolve, if_pos rfl, h]
  simp

theorem resolve_escapeChar (c : Char) (rest : List Char) :
    resolve others (escapeChar c ++ rest) = c :: resolve others rest := by
  unfold escapeChar
  split
  · exact resolve_reference (w := "amp;".toList) rfl
  · exact resolve_reference (w := "lt;".toList) rfl
  · exact resolve_reference (w := "gt;".toList) rfl
  · exact resolve_reference (w := "quot;".toList) rfl
  · exact resolve_reference (w := "#39;".toList) rfl
  next hampersand _ _ _ _ => rw [List.singleton_append, resolve, if_neg hampersand]

theorem resolve_flatMap (cs : List Char) : resolve others (cs.flatMap escapeChar) = cs := by
  induction cs with
  | nil => exact resolve.eq_def _ _
  | cons c cs ih => rw [List.flatMap_cons, resolve_escapeChar, ih]

end Reference

/-- Escaped text is the text again once its references are resolved. -/
theorem unescapeHtml_escapeHtml (others : List Char → Option (List Char × Nat)) (s : String) :
    unescapeHtml others (escapeHtml s) = s := by
  rw [unescapeHtml, escapeHtml, String.toList_ofList, Reference.resolve_flatMap,
    String.ofList_toList]

/-! ## One attribute among others -/

namespace Binding

/-- The attributes of a start tag that have certain names, in this order. -/
def writtenAll (dialect : Dialect) (row : List Binding) (names : List String) : String :=
  String.join (names.filterMap fun name => (last? name row).map (written dialect))

theorem merged_eq_writtenAll (dialect : Dialect) (row : List Binding) :
    merged dialect row = classAttribute row ++ writtenAll dialect row (otherNames row) := rfl

variable {dialect : Dialect} {row : List Binding} {key : String} {b : Binding}

theorem writtenAll_append (names names' : List String) :
    writtenAll dialect row (names ++ names') =
      writtenAll dialect row names ++ writtenAll dialect row names' := by
  rw [writtenAll, List.filterMap_append, String.join_append]
  rfl

theorem writtenAll_cons (h : last? key row = some b) (names : List String) :
    writtenAll dialect row (key :: names) = b.written dialect ++ writtenAll dialect row names := by
  rw [writtenAll, List.filterMap_cons_some (b := b.written dialect) (by rw [h]; rfl),
    String.join_cons]
  rfl

theorem name_of_last? (h : last? key row = some b) : b.name = key := by
  rw [last?] at h
  simpa using List.find?_some h

theorem mem_otherNames_of_last? (h : last? key row = some b) (hkey : key ≠ "class") :
    key ∈ otherNames row := by
  refine mem_otherNames.mpr ⟨?_, hkey⟩
  rw [← name_of_last? h]
  exact List.mem_map_of_mem (List.mem_reverse.mp (List.mem_of_find?_eq_some h))

/-- A map that is no list of styles is written as JSON, and is escaped in any case. -/
theorem written_map {m : List (String × Value)} (hm : b.value = .map m) (hname : b.name ≠ "style") :
    b.written dialect = " " ++ b.name ++ "=\"" ++ escapeHtml (Value.map m).toJson ++ "\"" := by
  have hjson : b.isJson = true := by
    rw [isJson, hm]
    exact bne_iff_ne.mpr hname
  have htext : b.valueText = (Value.map m).toJson := by
    rw [valueText, hm]
    exact if_pos hjson
  rw [written, hm, quoted, hjson, htext]
  simp

end Binding

namespace Page

open Binding

/-- The JSON text of a value without floats is read as that value. And where an attribute of an
element, in any frame, has a map without floats, what the start tag has between the quotes of that
attribute has no quote in it, and is the map again once its references are resolved and it is read
as JSON. -/
theorem json_reads_back :
    (∀ v : Value, v.FloatFree → v.Distinct → Json.read v.toJson = some v) ∧
    ∀ {n : Nat} (p : Page) (left : Nat) (loc : Location) (name : NameSource) (head : Head)
      (selfClosing textOnly : Bool) (body : List Node) (s : Session n) (key : String) (b : Binding)
      (m : List (String × Value)) (others : List Char → Option (List Char × Nat)),
      let row := p.bindings s.chain.frame head
      let after := Action.session
        (p.renderNodes left n [.tag loc name head selfClosing textOnly body] s)
      last? key row = some b → b.value = .map m → key ≠ "class" → key ≠ "style" →
      (Value.map m).FloatFree → (Value.map m).Distinct →
      ∃ names names', otherNames row = names ++ key :: names' ∧
      ∃ quotation, '"' ∉ quotation.toList ∧ '\'' ∉ quotation.toList ∧
        Json.read (unescapeHtml others quotation) = some (.map m) ∧
      ∃ close ∈ [">", "/>"], ∃ rest, joinFragments after.out =
        joinFragments s.out ++ "<" ++ (p.nameOf s.chain.frame name).1 ++ classAttribute row ++
          writtenAll p.dialect row names ++ (" " ++ key ++ "=\"" ++ quotation ++ "\"") ++
          (writtenAll p.dialect row names' ++ close ++ rest) := by
  refine ⟨fun v => Json.read_toJson, ?_⟩
  intro n p left loc name head selfClosing textOnly body s key b m others row after hb hm hclass
    hstyle hfloat hdistinct
  -- the attribute stands where the row has its name first
  obtain ⟨names, names', hnames⟩ := List.append_of_mem (mem_otherNames_of_last? hb hclass)
  refine ⟨names, names', hnames, escapeHtml (Value.map m).toJson,
    fun h => escapeHtml_not_markup h (by decide), fun h => escapeHtml_not_markup h (by decide),
    ?_, ?_⟩
  · rw [unescapeHtml_escapeHtml]
    exact Json.read_toJson hfloat hdistinct
  · have hkey := name_of_last? hb
    have hmerged : merged p.dialect row = classAttribute row ++ writtenAll p.dialect row names ++
        (" " ++ key ++ "=\"" ++ escapeHtml (Value.map m).toJson ++ "\"") ++
          writtenAll p.dialect row names' := by
      rw [merged_eq_writtenAll, hnames, writtenAll_append, writtenAll_cons hb,
        written_map hm (hkey ▸ hstyle), hkey]
      simp only [String.append_assoc]
    obtain ⟨close, hclose, fs, hfs⟩ :=
      exists_out_tag p left loc name head selfClosing textOnly body s
    refine ⟨close, hclose, joinFragments fs, ?_⟩
    rw [hfs, joinFragments_append, joinFragments_append, joinFragments_toArray (_ ++ _),
      Fragment.joined_append, joined_startTag, Fragment.joined_singleton, hmerged]
    simp only [String.append_assoc]
    rfl

/-- A map with quotes, markup and what looks like a reference, in a key and in an item. -/
def marks : List (String × Value) :=
  [("'<\"&", .array [.int (-5), .null, .bool true, .string "\\\n\x01é\"&lt;"]), ("", .map [])]

/-- Shows a name in an attribute that is not to be escaped. -/
def unescapedHead : Head :=
  { attributes := [⟨"title", none, .literal (.string "t"), true, false⟩,
      ⟨"data-x", none, .name "x", false, false⟩] }

def marksPage : Page :=
  ⟨[], {}, [], .map [("x", .map marks)], ⟨true, false⟩⟩

theorem json_reads_back_marks :
    (Value.map marks).FloatFree ∧ (Value.map marks).Distinct ∧
      Json.read (Value.map marks).toJson = some (.map marks) ∧
      last? "data-x" (marksPage.bindings {} unescapedHead) =
        some ⟨"data-x", .map marks, false, false⟩ ∧
      ∃ quotation, '"' ∉ quotation.toList ∧ '\'' ∉ quotation.toList ∧
        Json.read (unescapeHtml (fun _ => none) quotation) = some (.map marks) ∧
        ∃ before later, joinFragments (Action.session (marksPage.renderNodes 0 0
          [.tag ⟨1, 1⟩ (.fixed "div") unescapedHead false false []] ⟨.page {}, #[]⟩)).out =
            before ++ (" data-x=\"" ++ quotation ++ "\"") ++ later := by
  have hfloat : (Value.map marks).FloatFree := by
    simp [marks, Value.FloatFree, Value.FloatFreeEntries, Value.FloatFreeItems]
  have hdistinct : (Value.map marks).Distinct := by
    simp [marks, Value.Distinct, Value.DistinctEntries, Value.DistinctItems, Dictionary.keys]
  have hlast : last? "data-x" (marksPage.bindings {} unescapedHead) =
      some ⟨"data-x", .map marks, false, false⟩ := rfl
  obtain ⟨_, _, _, quotation, hdouble, hsingle, hread, close, _, rest, hout⟩ :=
    json_reads_back.2 marksPage 0 ⟨1, 1⟩ (.fixed "div") unescapedHead false false [] ⟨.page {}, #[]⟩
      "data-x" _ marks (fun _ => none) hlast rfl (by decide) (by decide) hfloat hdistinct
  exact ⟨hfloat, hdistinct, json_reads_back.1 _ hfloat hdistinct, hlast, quotation, hdouble,
    hsingle, hread, _, _, hout⟩

end Page

end PugTemplate
