import PugTemplate.Proofs.Tree.Elements

/-!
# Names of attributes

No tag and no call of a tree has two attributes of one name, classes apart. Its head is the one that
its own tokens tell of, so the first id stands, classes keep their order, and a stream that repeats
any other name in an element is no tree. The tags in a text are streams of their own, of which the
same holds, however deep they lie. Main statement: `attribute_names_distinct`.
-/

namespace PugTemplate

/-- The heads of a tree are those of the elements of its stream, in their order. -/
def Attributed (tokens : List Token) (nodes : List Node) : Prop :=
  List.Forall₂ KeptFrom (elements tokens) (headsAll nodes)

/-- The node of a tag in a text. -/
def Segment.tag? : Segment → Option Node
  | tag n => some n
  | _ => none

/-- The stream of a tag in a text that stands at some place. -/
def Piece.stream? (loc : Location) : Piece → Option (List Token)
  | tag offset source => (lexAt (String.ofList source) (loc.right (offset + 2))).toOption
  | _ => none

/-- The tags of a text are read from their own streams, in their order. -/
def TagsAttributed (raw : String) (loc : Location) (segments : List Segment) : Prop :=
  List.Forall₂ (fun inner n => Attributed inner [n])
    ((Piece.split 0 raw.toList).filterMap (Piece.stream? loc)) (segments.filterMap Segment.tag?)

/-- What holds of each node of a tree: of its head, and of the tags in its text. -/
structure Node.Orderly (n : Node) : Prop where
  head : ∀ h ∈ n.head?, h.Distinct
  tags : ∀ loc raw segments, n = .text loc raw segments → TagsAttributed raw loc segments

/-- What holds of a text that is cut, and of all nodes in its tags. -/
def OrderlyText (raw : String) (loc : Location) (segments : List Segment) : Prop :=
  TagsAttributed raw loc segments ∧ ∀ n ∈ everywhereSegments segments, n.Orderly

/-- A reader that cuts the texts of a stream so. -/
def CutsOrderly (cut : String → Location → Except ParseError (List Segment)) (ts : List Token) :
    Prop :=
  ∀ us raw loc segments, us <:+ ts → TextFrom us raw → cut raw loc = .ok segments →
    OrderlyText raw loc segments

theorem exists_related_of_mem {α β : Type} {R : α → β → Prop} {xs : List α} {ys : List β} {y : β}
    (h : List.Forall₂ R xs ys) (hy : y ∈ ys) : ∃ x, R x y := by
  induction h with
  | nil => exact absurd hy List.not_mem_nil
  | @cons x _ _ _ hxy _ ih =>
    obtain rfl | hy := List.mem_cons.mp hy
    · exact ⟨x, hxy⟩
    · exact ih hy

section Streams

variable {cut : String → Location → Except ParseError (List Segment)} {cx : TreeContext}
  {ts : List Token} {ns : List Node}

/-- The end of a stream is read, and nothing behind it. -/
theorem shows_document :
    reading.always (readDocument cx ts) fun ns => Shows cx.segments ts (preorderAll ns) [] := by
  fun_induction readDocument cx ts
  case case1 => exact reading.pure .nil
  case case2 =>
    refine reading.pure ⟨⟨[], ?_, .nil⟩, fun n hn => absurd hn List.not_mem_nil, List.nil_suffix⟩
    rw [elements, elements]
    rfl
  case case3 ih => exact reading.mono ih fun ns hns => hns.skip rfl
  case case4 ih =>
    refine reading.bind (showing_always.node trivial) fun r hr => ?_
    refine reading.bind (ih r.2) fun ns hns => reading.pure ?_
    rw [preorderAll_append]
    exact hr.append hns

theorem Shows.attributed (h : Shows cut ts (preorderAll ns) []) : Attributed ts ns := by
  obtain ⟨rows, hrows, hheads⟩ := h.heads
  have hnil : elements [] = [] := by rw [elements]
  rw [Attributed, hrows, hnil, List.append_nil]
  exact hheads

theorem Shows.orderly (h : Shows cut ts (preorderAll ns) []) (hcut : CutsOrderly cut ts) :
    ∀ n ∈ everywhereAll ns, n.Orderly := by
  have htext {n : Node} (hn : n ∈ preorderAll ns) {loc : Location} {raw : String}
      {segments : List Segment} (heq : n = .text loc raw segments) :
      OrderlyText raw loc segments := by
    obtain ⟨hsegments, us, hus, hraw⟩ := h.texts n hn loc raw segments heq
    exact hcut us raw loc segments hus hraw hsegments
  have houter {n : Node} (hn : n ∈ preorderAll ns) : n.Orderly := by
    refine ⟨fun head hhead => ?_, fun loc raw segments heq => (htext hn heq).1⟩
    have hmem : head ∈ headsAll ns := List.mem_filterMap.mpr ⟨n, hn, hhead⟩
    obtain ⟨row, written, -, hgathers, -⟩ := exists_related_of_mem h.attributed hmem
    exact hgathers.distinct
  intro m hm
  rw [everywhereAll_eq] at hm
  obtain ⟨n, hn, hm⟩ := List.mem_flatMap.mp hm
  obtain rfl | hm := List.mem_cons.mp hm
  · exact houter hn
  · cases n with
    | text loc raw segments => exact (htext hn rfl).2 m hm
    | _ => exact nomatch hm

end Streams

/-! ## Tags in text -/

section Tags

variable {cut : String → Location → Except ParseError (List Segment)} {loc : Location}
  {tokens : List Token} {n : Node}

theorem headsAll_group (ns : List Node) : headsAll [.group loc ns] = headsAll ns := by
  rw [headsAll, preorderAll_singleton, Node.preorder]
  rfl

/-- Several nodes in a tag stand together as one. -/
theorem orderly_nestedNode {source : List Char}
    (hlex : lexAt (String.ofList source) loc = .ok tokens) (hcut : CutsOrderly cut tokens)
    (h : nestedNode cut source loc = .ok n) :
    Attributed tokens [n] ∧ ∀ m ∈ n.everywhere, m.Orderly := by
  unfold nestedNode at h
  rw [hlex] at h
  obtain ⟨ns, hns, h⟩ := of_bind_eq_ok h
  have hshows : Shows cut tokens (preorderAll ns) [] := shows_document ns hns
  have hall := hshows.orderly hcut
  split at h
  next m =>
    cases h
    rw [everywhereAll, everywhereAll, List.append_nil] at hall
    exact ⟨hshows.attributed, hall⟩
  next =>
    cases h
    refine ⟨?_, ?_⟩
    · rw [Attributed, headsAll_group]
      exact hshows.attributed
    · rw [Node.everywhere]
      exact List.forall_mem_cons.mpr ⟨⟨nofun, nofun⟩, hall⟩

theorem orderly_mapM {pieces : List Piece} {out : List Segment}
    (hnested : ∀ offset source inner, .tag offset source ∈ pieces →
      lexAt (String.ofList source) (loc.right (offset + 2)) = .ok inner → CutsOrderly cut inner)
    (h : pieces.mapM (segmentOf cut loc) = .ok out) :
    List.Forall₂ (fun inner n => Attributed inner [n]) (pieces.filterMap (Piece.stream? loc))
      (out.filterMap Segment.tag?) ∧ ∀ n ∈ everywhereSegments out, n.Orderly := by
  induction pieces generalizing out with
  | nil =>
    cases h
    exact ⟨.nil, fun n hn => absurd hn List.not_mem_nil⟩
  | cons p pieces ih =>
    rw [List.mapM_cons] at h
    obtain ⟨s, hs, h⟩ := of_bind_eq_ok h
    obtain ⟨more, hmore, h⟩ := of_bind_eq_ok h
    cases h
    obtain ⟨htags, hall⟩ := ih (fun offset source inner hp =>
      hnested offset source inner (List.mem_cons_of_mem _ hp)) hmore
    cases p with
    | literal text =>
      cases hs
      exact ⟨htags, hall⟩
    | output offset escape source =>
      obtain ⟨e, -, hs⟩ := of_bind_eq_ok hs
      cases hs
      split
      · exact ⟨htags, hall⟩
      · exact ⟨htags, hall⟩
    | tag offset source =>
      obtain ⟨n, hn, hs⟩ := of_bind_eq_ok hs
      cases hs
      obtain ⟨inner, hlex⟩ : ∃ inner,
          lexAt (String.ofList source) (loc.right (offset + 2)) = .ok inner := by
        unfold nestedNode at hn
        split at hn
        next => cases hn
        next inner hlex => exact ⟨inner, hlex⟩
      obtain ⟨hattributed, hn⟩ := orderly_nestedNode hlex
        (hnested offset source inner List.mem_cons_self hlex) hn
      refine ⟨?_, ?_⟩
      · have hstream : Piece.stream? loc (.tag offset source) = some inner := by
          rw [Piece.stream?, hlex]
          rfl
        rw [List.filterMap_cons_some hstream]
        exact .cons hattributed htags
      · rw [everywhereSegments]
        exact List.forall_mem_append.mpr ⟨hn, hall⟩
    | broken offset failure => cases hs

end Tags

/-- However deep the tags of a text lie, each text in them is shorter, so it is cut as texts are. -/
theorem orderly_segmentsAt (raw : String) (loc : Location) {segments : List Segment}
    (h : segmentsAt raw loc = .ok segments) : OrderlyText raw loc segments := by
  rw [segmentsAt] at h
  refine orderly_mapM (fun offset source inner hpiece hlex => ?_) h
  intro us raw' loc' segments' hus htext hcut
  have hsource := htext.length_le_of_lexAt hlex hus
  rw [String.toList_ofList] at hsource
  have hshorter : raw'.toList.length < raw.toList.length :=
    Nat.lt_of_le_of_lt hsource (Piece.length_lt_of_tag hpiece)
  dsimp only at hcut
  rw [if_pos hshorter] at hcut
  exact orderly_segmentsAt raw' loc' hcut
termination_by raw.toList.length

/-- Names of attributes are told apart on every tag and call of a tree, in tags inside text too. In
the order of the source, the heads are those of the elements of the stream: each keeps the first of
the ids that are written on it and all other attributes in their order, and no other name is written
twice. -/
theorem attribute_names_distinct {tokens : List Token} {nodes : List Node}
    (h : parseTokens tokens = .ok nodes) :
    (∀ n ∈ everywhereAll nodes, ∀ head ∈ n.head?, head.Distinct) ∧
      Attributed tokens nodes ∧
      ∀ loc raw segments, .text loc raw segments ∈ everywhereAll nodes →
        TagsAttributed raw loc segments := by
  have hshows : Shows segmentsAt tokens (preorderAll nodes) [] := shows_document nodes h
  have hall := hshows.orderly fun us raw loc segments _ _ hcut => orderly_segmentsAt raw loc hcut
  exact ⟨fun n hn => (hall n hn).head, hshows.attributed,
    fun loc raw segments ht => (hall _ ht).tags loc raw segments rfl⟩

namespace RepeatedAttributes

/-- On one tag, the id and a class both as shorthands and in a list. -/
def tokens : List Token :=
  [⟨.tag "a", ⟨1, 1⟩⟩, ⟨.id "b", ⟨1, 2⟩⟩, ⟨.className "c", ⟨1, 4⟩⟩, ⟨.attributesStart, ⟨1, 6⟩⟩,
    ⟨.attr "class" none true, ⟨1, 7⟩⟩, ⟨.attr "id" none true, ⟨1, 13⟩⟩,
    ⟨.attr "x" none true, ⟨1, 16⟩⟩, ⟨.attributesEnd, ⟨1, 18⟩⟩, ⟨.eos, ⟨1, 18⟩⟩]

def bare (name : String) : Attribute :=
  ⟨name, none, .literal (.bool true), true, false⟩

/-- The id in the list is left out. -/
def nodes : List Node :=
  [.tag ⟨1, 1⟩ (.fixed "a")
    ⟨[.shorthand "id" "b", .shorthand "class" "c", bare "class", bare "x"], []⟩ false false []]

theorem parse_tokens : parseTokens tokens = .ok nodes := by
  simp [parseTokens, readTokens, readDocument, tokens, Node.read, readElement, Head.read,
    attributesRead, Attribute.ofToken, Attribute.shorthand, Head.addAll, Head.add, Head.has, bind,
    Except.bind, pure, Except.pure, readInline, readOptionalBlock, nodes, bare]

end RepeatedAttributes

open RepeatedAttributes in
theorem attribute_names_distinct_repeated :
    parseTokens tokens = .ok nodes ∧
      (∀ n ∈ everywhereAll nodes, ∀ head ∈ n.head?, head.Distinct) ∧ Attributed tokens nodes :=
  have hall := attribute_names_distinct parse_tokens
  ⟨parse_tokens, hall.1, hall.2.1⟩

end PugTemplate
