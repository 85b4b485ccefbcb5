import PugTemplate.Proofs.Tree.Everywhere
import PugTemplate.Proofs.Tree.Extent
import PugTemplate.Proofs.Tree.Head
import PugTemplate.Proofs.Tree.Production

/-!
# Tags and calls in a stream

Each tag and each call of a tree begins with a token, and the parts of its head follow at once. So a
stream can be searched for them without reading it: in the order of the source, the heads of the
tree are those that the stream begins, and each keeps what its own tokens write (`showing`).
-/

namespace PugTemplate

/-! ## Elements of a stream -/

namespace TokenKind

/-- A token that a tag or a call begins with, be it named or not. -/
def beginsElement : TokenKind → Bool
  | tag _ | interpolation _ | call _ _ _ | id _ | className _ | attributesStart => true
  | _ => false

/-- A token that no element begins with, and none of what follows it either because of it. -/
def isInert : TokenKind → Bool
  | eos | filter _ => false
  | k => !k.beginsElement

end TokenKind

/-- The tokens of each tag and call of a stream: the one it begins with, and the parts of its head
behind that. A list of attributes behind a filter belongs to none. -/
def elements (ts : List Token) : List (List Token) :=
  match ts with
  | [] | ⟨.eos, _⟩ :: _ => []
  | ⟨.filter _, _⟩ :: ⟨.attributesStart, _⟩ :: rest => elements rest
  | t :: rest =>
    if t.kind.beginsElement then
      (t :: rest.takeWhile (·.kind.isOfHead)) :: elements (rest.dropWhile (·.kind.isOfHead))
    else elements rest
termination_by ts.length
decreasing_by
  all_goals
    simp only [List.length_cons]
    first
    | omega
    | exact Nat.lt_succ_of_le (List.dropWhile_sublist _).length_le

section Elements

variable {t : Token} {ts : List Token}

theorem elements_of_isInert (ht : t.kind.isInert) : elements (t :: ts) = elements ts := by
  obtain ⟨kind, loc⟩ := t
  rw [elements.eq_def]
  cases kind <;> first | rfl | exact nomatch ht

theorem elements_of_beginsElement (ht : t.kind.beginsElement) :
    elements (t :: ts) =
      (t :: ts.takeWhile (·.kind.isOfHead)) :: elements (ts.dropWhile (·.kind.isOfHead)) := by
  obtain ⟨kind, loc⟩ := t
  rw [elements.eq_def]
  cases kind <;> first | rfl | exact nomatch ht

theorem elements_filter {name : String} {loc : Location}
    (h : ∀ at_ us, ts ≠ ⟨.attributesStart, at_⟩ :: us) :
    elements (⟨.filter name, loc⟩ :: ts) = elements ts := by
  rw [elements]
  · rfl
  all_goals simp_all

theorem elements_filterList {name : String} {loc at_ : Location} :
    elements (⟨.filter name, loc⟩ :: ⟨.attributesStart, at_⟩ :: ts) = elements ts := by
  rw [elements]

end Elements

/-! ## Heads of a tree -/

namespace Node

def head? : Node → Option Head
  | tag _ _ head .. | call _ _ _ head _ => some head
  | _ => none

/-- A node that has neither a head nor text of its own. -/
def isBare : Node → Bool
  | tag .. | call .. | text .. => false
  | _ => true

/-- If it is a text, a reader cut it, and a stream begins with it behind some of the tokens. -/
def CutFrom (cut : String → Location → Except ParseError (List Segment)) (ts : List Token)
    (n : Node) : Prop :=
  ∀ loc raw segments, n = .text loc raw segments →
    cut raw loc = .ok segments ∧ ∃ us, us <:+ ts ∧ TextFrom us raw

theorem CutFrom.of_suffix {cut : String → Location → Except ParseError (List Segment)}
    {ts us : List Token} {n : Node} (h : n.CutFrom cut us) (hsub : us <:+ ts) :
    n.CutFrom cut ts := by
  intro loc raw segments hn
  obtain ⟨hcut, vs, hvs, htext⟩ := h loc raw segments hn
  exact ⟨hcut, vs, hvs.trans hsub, htext⟩

end Node

/-- The heads of a tree in the order of the source; text is not entered. -/
def headsAll (ns : List Node) : List Head :=
  (preorderAll ns).filterMap Node.head?

/-- The head of an element keeps what the tokens of the element write, and none of them repeats a
name but that of an id or a class. -/
def KeptFrom (row : List Token) (h : Head) : Prop :=
  ∃ written, Written row written ∧ h.Gathers written ∧ Once written

theorem KeptFrom.other {t : Token} {row : List Token} {h : Head} (ht : t.kind.isEntry = false)
    (hk : KeptFrom row h) : KeptFrom (t :: row) h := by
  obtain ⟨written, hrow, hh⟩ := hk
  exact ⟨written, hrow.other ht, hh⟩

/-- Nodes in the order of the source are read of a stream up to some place: their heads are those of
its elements, and their texts are cut from its tokens. -/
structure Shows (cut : String → Location → Except ParseError (List Segment)) (ts : List Token)
    (ns : List Node) (rest : List Token) : Prop where
  heads : ∃ rows, elements ts = rows ++ elements rest ∧
    List.Forall₂ KeptFrom rows (ns.filterMap Node.head?)
  texts : ∀ n ∈ ns, n.CutFrom cut ts
  suffix : rest <:+ ts

namespace Shows

variable {cut : String → Location → Except ParseError (List Segment)} {t : Token}
  {ts us rest : List Token} {n : Node} {ns ms : List Node}

theorem nil : Shows cut ts [] ts :=
  ⟨⟨[], rfl, .nil⟩, fun _ hn => absurd hn List.not_mem_nil, List.suffix_rfl⟩

theorem append (h : Shows cut ts ns us) (h' : Shows cut us ms rest) :
    Shows cut ts (ns ++ ms) rest := by
  obtain ⟨rows, hrows, hheads⟩ := h.heads
  obtain ⟨rows', hrows', hheads'⟩ := h'.heads
  refine ⟨⟨rows ++ rows', ?_, ?_⟩, ?_, h'.suffix.trans h.suffix⟩
  · rw [hrows, hrows', List.append_assoc]
  · rw [List.filterMap_append]
    exact List.rel_append hheads hheads'
  · exact List.forall_mem_append.mpr ⟨h.texts, fun n hn => (h'.texts n hn).of_suffix h.suffix⟩

/-- Tokens that begin no element are passed over. -/
theorem behind (heq : elements ts = elements us) (hsub : us <:+ ts) (h : Shows cut us ns rest) :
    Shows cut ts ns rest := by
  obtain ⟨rows, hrows, hheads⟩ := h.heads
  exact ⟨⟨rows, heq.trans hrows, hheads⟩, fun n hn => (h.texts n hn).of_suffix hsub,
    h.suffix.trans hsub⟩

theorem skip (ht : t.kind.isInert) (h : Shows cut ts ns rest) : Shows cut (t :: ts) ns rest :=
  h.behind (elements_of_isInert ht) (List.suffix_cons t ts)

theorem of_drop {k : Nat} (heq : elements (ts.drop k) = elements ts)
    (h : Shows cut (ts.drop k) ns rest) : Shows cut ts ns rest :=
  h.behind heq.symm (List.drop_suffix k ts)

theorem drop {k : Nat} (heq : elements (ts.drop k) = elements ts) : Shows cut ts [] (ts.drop k) :=
  .of_drop heq .nil

/-- A node without a head and text, and what was read behind it. -/
theorem bare (hn : n.isBare) (h : Shows cut ts ns rest) : Shows cut ts (n :: ns) rest := by
  obtain ⟨rows, hrows, hheads⟩ := h.heads
  refine ⟨⟨rows, hrows, ?_⟩, List.forall_mem_cons.mpr ⟨?_, h.texts⟩, h.suffix⟩
  · rwa [List.filterMap_cons_none (by cases n <;> first | rfl | exact nomatch hn)]
  · rintro loc raw segments rfl
    exact nomatch hn

theorem text {loc : Location} {raw : String} {segments : List Segment}
    (hcut : cut raw loc = .ok segments) (hus : us <:+ ts) (htext : TextFrom us raw)
    (h : Shows cut ts ns rest) : Shows cut ts (.text loc raw segments :: ns) rest := by
  obtain ⟨rows, hrows, hheads⟩ := h.heads
  refine ⟨⟨rows, hrows, hheads⟩, List.forall_mem_cons.mpr ⟨?_, h.texts⟩, h.suffix⟩
  rintro _ _ _ ⟨⟩
  exact ⟨hcut, us, hus, htext⟩

/-- An element with its head, and what was read behind that. -/
theorem element {head : Head} (ht : t.kind.beginsElement) (hpre : n.preorder = n :: ns)
    (hn : n.head? = some head) (hkept : KeptFrom (t :: ts.takeWhile (·.kind.isOfHead)) head)
    (h : Shows cut (ts.dropWhile (·.kind.isOfHead)) ns rest) :
    Shows cut (t :: ts) (preorderAll [n]) rest := by
  rw [preorderAll_singleton, hpre]
  obtain ⟨rows, hrows, hheads⟩ := h.heads
  have hsub := (List.dropWhile_suffix (·.kind.isOfHead)).trans (List.suffix_cons t ts)
  refine ⟨⟨(t :: ts.takeWhile (·.kind.isOfHead)) :: rows, ?_, ?_⟩,
    List.forall_mem_cons.mpr ⟨?_, ?_⟩, h.suffix.trans hsub⟩
  · rw [elements_of_beginsElement ht, hrows, List.cons_append]
  · rw [List.filterMap_cons_some hn]
    exact .cons hkept hheads
  · rintro loc raw segments rfl
    exact nomatch hn
  · exact fun n hn => (h.texts n hn).of_suffix hsub

end Shows

/-! ## Parts without elements -/

section Parts

variable {stop loc : Location} {ts : List Token}

theorem elements_textRun (joins : Bool) : elements (ts.drop (textRun joins ts).2) = elements ts := by
  fun_induction textRun joins ts
  case case1 hrun ih =>
    rw [hrun] at ih
    rw [List.drop_succ_cons, ih, elements_of_isInert rfl]
  case case2 hrun ih =>
    rw [hrun] at ih
    rw [List.drop_succ_cons, List.drop_succ_cons, ih, elements_of_isInert rfl,
      elements_of_isInert rfl]
  case case3 | case4 => rfl

theorem elements_htmlRun : elements (ts.drop (htmlRun ts).2) = elements ts := by
  fun_induction htmlRun ts
  case case1 hrun ih =>
    rw [hrun] at ih
    rw [List.drop_succ_cons, ih, elements_of_isInert rfl]
  case case2 hrun ih =>
    rw [hrun] at ih
    rw [List.drop_succ_cons, List.drop_succ_cons, ih, elements_of_isInert rfl,
      elements_of_isInert rfl]
  case case3 => rfl

theorem elements_pipelessRun {text : String} {k : Nat} (h : pipelessRun ts = some (text, k)) :
    elements (ts.drop k) = elements ts := by
  fun_induction pipelessRun ts generalizing text k
  case case1 ih | case2 ih =>
    obtain ⟨⟨more, n⟩, hmore, heq⟩ := Option.map_eq_some_iff.mp h
    cases heq
    rw [List.drop_succ_cons, ih hmore, elements_of_isInert rfl]
  case case3 =>
    cases h
    rw [List.drop_succ_cons, List.drop_zero, elements_of_isInert rfl]
  case case4 => cases h

theorem elements_pipelessBody :
    reading.always (pipelessBody stop ts) fun r =>
      elements (ts.drop r.2.2) = elements ts ∧ TextFrom ts r.2.1 := by
  refine reading.mono (reading_of_blameless parts_pipelessBody) fun r ⟨_, hrun, _⟩ => ?_
  exact ⟨elements_pipelessRun hrun, .block hrun⟩

theorem elements_beforeElse (orElseIf : Bool) :
    elements (ts.drop (beforeElse orElseIf ts)) = elements ts := by
  unfold beforeElse
  split
  · exact (elements_of_isInert rfl).symm
  · split
    · exact (elements_of_isInert rfl).symm
    · rfl
  · rfl

theorem elements_path : reading.always (readPath stop ts) fun _ =>
    elements (ts.drop 1) = elements ts := by
  unfold readPath
  split
  · exact reading.pure (elements_of_isInert rfl).symm
  · exact reading_unexpected

theorem elements_codeBlock :
    reading.always (readCodeBlock stop loc ts) fun r =>
      (∃ list, r.1 = [.statements loc list]) ∧ elements (ts.drop r.2) = elements ts := by
  unfold readCodeBlock
  split
  · refine reading.bind elements_pipelessBody fun r hr => ?_
    refine reading.bind (reading_any _) fun l _ => ?_
    refine reading.pure ⟨⟨l, rfl⟩, ?_⟩
    rw [List.drop_succ_cons, hr.1, elements_of_isInert rfl]
  · exact reading.pure ⟨⟨[], rfl⟩, rfl⟩

theorem elements_comment (text : String) (buffered : Bool) :
    reading.always (readComment stop text buffered loc ts) fun r =>
      (∃ body, r.1 = .comment loc text buffered body) ∧ elements (ts.drop r.2) = elements ts := by
  unfold readComment
  split
  · refine reading.bind elements_pipelessBody fun r hr => reading.pure ⟨⟨_, rfl⟩, ?_⟩
    rw [List.drop_succ_cons, hr.1, elements_of_isInert rfl]
  · exact reading.pure ⟨⟨_, rfl⟩, rfl⟩

theorem elements_attributesRead :
    reading.always (attributesRead stop ts) fun r => elements (ts.drop r.2) = elements ts := by
  fun_induction attributesRead stop ts
  case case1 ih =>
    refine reading.bind (reading_any _) fun a _ => reading.bind ih fun r hr => reading.pure ?_
    rw [List.drop_succ_cons, hr, elements_of_isInert rfl]
  case case2 => exact reading.pure (elements_of_isInert rfl).symm
  case case3 => exact reading_unexpected

theorem elements_filterText :
    reading.always (filterText stop ts) fun r => elements (ts.drop r.2) = elements ts := by
  unfold filterText
  split
  · exact reading.pure (elements_of_isInert rfl).symm
  · refine reading.bind elements_pipelessBody fun r hr => reading.pure ?_
    rw [List.drop_succ_cons, hr.1, elements_of_isInert rfl]
  · exact reading.pure rfl

/-- The list behind the name of a filter belongs to the filter. -/
theorem elements_readFilter (name : String) :
    reading.always (readFilter stop name loc ts) fun r =>
      (∃ as text, r.1 = [.filter loc name as text]) ∧
        elements (ts.drop r.2) = elements (⟨.filter name, loc⟩ :: ts) := by
  have hbehind {as : List Attribute} {k : Nat}
      (hk : elements (ts.drop k) = elements (⟨.filter name, loc⟩ :: ts)) :
      reading.always (filterText stop (ts.drop k) >>= fun t =>
        pure ([Node.filter loc name as t.1], k + t.2)) fun r =>
          (∃ as text, r.1 = [.filter loc name as text]) ∧
            elements (ts.drop r.2) = elements (⟨.filter name, loc⟩ :: ts) := by
    refine reading.bind elements_filterText fun r hr => reading.pure ⟨⟨as, _, rfl⟩, ?_⟩
    rw [← hk, ← hr, List.drop_drop]
  unfold readFilter
  dsimp only
  split
  next =>
    exact reading.bind elements_attributesRead fun r hr =>
      hbehind (by rw [List.drop_succ_cons, hr, elements_filterList])
  next hnone => exact hbehind (elements_filter hnone).symm

end Parts

/-! ## Reading -/

section Reading

variable {loc : Location} {ts us : List Token}

theorem shows_code (cx : TreeContext) (source : String) (buffered escape : Bool) (ts : List Token) :
    reading.always (Node.ofCode source buffered escape loc) fun n =>
      Shows cx.segments (⟨.code source buffered escape, loc⟩ :: ts) n.preorder ts := by
  refine reading.mono (reading_of_blameless (parts_ofCode _ _ _)) fun n hn => ?_
  obtain ⟨_, rfl⟩ | ⟨_, rfl⟩ := hn
  · exact (Shows.bare rfl .nil).skip rfl
  · exact (Shows.bare rfl .nil).skip rfl

/-- A text that some of the tokens begin with. -/
theorem shows_textNode (cx : TreeContext) {raw : String} {k : Nat} (hus : us <:+ ts)
    (htext : TextFrom us raw) (hk : elements (ts.drop k) = elements ts) :
    reading.always (cx.textNode raw loc) fun n =>
      Shows cx.segments ts (preorderAll [n]) (ts.drop k) := by
  refine reading.bind (p := fun segments => cx.segments raw loc = .ok segments) (fun _ h => h)
    fun segments hcut => reading.pure ?_
  exact .text hcut hus htext (.drop hk)

theorem shows_textBody (cx : TreeContext) :
    reading.always (cx.textBody ts) fun r =>
      Shows cx.segments ts (preorderAll r.1) (ts.drop r.2) := by
  unfold TreeContext.textBody
  split
  next =>
    refine reading.bind elements_pipelessBody fun r ⟨hk, htext⟩ => ?_
    refine reading.bind (shows_textNode cx List.suffix_rfl htext hk) fun n hn => reading.pure ?_
    exact hn.skip rfl
  next => exact reading.pure .nil

/-- A tag or a call around what was read. -/
theorem shows_closed {name : NameSource} {head : Head} {selfClosing textOnly : Bool}
    {body : List Node} {e : ParseError} {args : Option (List Expr)} {n : Nat} :
    reading.always (if selfClosing ∧ body ≠ [] then .error e
      else match args with
        | none => pure (Node.tag loc name head selfClosing textOnly body, n)
        | some args =>
          pure (Node.call loc name args head (if body = [] then none else some body), n))
      fun r => r.1.preorder = r.1 :: preorderAll body ∧ r.1.head? = some head ∧ r.2 = n := by
  split
  · exact reading_error
  · split
    · exact reading.pure ⟨by rw [Node.preorder], rfl, rfl⟩
    · refine reading.pure ⟨?_, rfl, rfl⟩
      rw [Node.preorder]
      split
      next h => rw [h, preorderOption, preorderAll]
      next => rfl

/-- What was read behind the line end in front of an `else`. -/
theorem Shows.of_beforeElse {cut : String → Location → Except ParseError (List Segment)}
    {orElseIf : Bool} {t : Token} {ns : List Node} {n : Nat}
    (heq : ts.drop (beforeElse orElseIf ts) = t :: us) (h : Shows cut (t :: us) ns (us.drop n)) :
    Shows cut ts ns (ts.drop (beforeElse orElseIf ts + 1 + n)) := by
  rw [Nat.add_assoc, ← List.drop_drop, heq, Nat.add_comm, List.drop_succ_cons]
  exact .of_drop (elements_beforeElse orElseIf) (heq ▸ h)

/-- The dot behind a head counts for nothing, so both ways of going on begin with the same tokens. -/
theorem exists_behindDot (ts : List Token) (k : Nat) : ∃ j,
    j = (if (ts.drop k).head?.any (fun t => t.kind == .dot) then k + 1 else k) ∧ k ≤ j ∧
      elements (ts.drop j) = elements (ts.drop k) ∧
      ((ts.drop j).head?.any (·.kind.isOfHead) = false →
        (ts.drop k).head?.any (·.kind.isOfHead) = false) := by
  refine ⟨_, rfl, by split <;> omega, ?_⟩
  split
  next hdot =>
    rw [← List.drop_drop]
    cases hd : ts.drop k with
    | nil => exact ⟨rfl, fun _ => rfl⟩
    | cons t more =>
      rw [hd] at hdot
      have hkind : t.kind = .dot := eq_of_beq hdot
      refine ⟨(elements_of_isInert (by rw [hkind]; rfl)).symm, fun _ => ?_⟩
      rw [List.head?_cons, Option.any_some, hkind]
      rfl
  next => exact ⟨rfl, fun h => h⟩

theorem takeWhile_eq_take {α : Type} {p : α → Bool} {xs : List α} {k : Nat}
    (h : ∀ x ∈ xs.take k, p x) (hnext : (xs.drop k).head?.any p = false) :
    xs.takeWhile p = xs.take k ∧ xs.dropWhile p = xs.drop k := by
  have hstop : (xs.drop k).takeWhile p = [] ∧ (xs.drop k).dropWhile p = xs.drop k := by
    cases hd : xs.drop k with
    | nil => exact ⟨rfl, rfl⟩
    | cons y ys =>
      rw [hd] at hnext
      have hy : p y = false := hnext
      exact ⟨List.takeWhile_cons_of_neg (by simp [hy]), List.dropWhile_cons_of_neg (by simp [hy])⟩
  conv => enter [1, 1, 2]; rw [← List.take_append_drop k xs]
  conv => enter [2, 1, 2]; rw [← List.take_append_drop k xs]
  rw [List.takeWhile_append_of_pos h, List.dropWhile_append_of_pos h, hstop.1, hstop.2,
    List.append_nil]
  exact ⟨rfl, rfl⟩

end Reading

/-- Each production reads the elements that the tokens it takes from the stream begin. -/
def showing : Productions where
  optionalBlock cx ts := reading.always (readOptionalBlock cx ts) fun r =>
    Shows cx.segments ts (preorderAll r.1) (ts.drop r.2)
  -- what may follow in the line is no part of a head
  inline cx closable ts := reading.always (readInline cx closable ts) fun r =>
    Shows cx.segments ts (preorderAll r.1) (ts.drop r.2.2) ∧
      ts.head?.any (·.kind.isOfHead) = false
  branchBody cx ts := reading.always (readBranchBody cx ts) fun r =>
    Shows cx.segments ts (preorderOption r.1) (ts.drop r.2)
  branches cx ts := reading.always (readBranches cx ts) fun r =>
    Shows cx.segments ts (preorderBranches r.1) (ts.drop r.2)
  elseBody cx ts := reading.always (readElseBody cx ts) fun r =>
    Shows cx.segments ts (preorderAll r.1) (ts.drop r.2)
  otherwise cx ts := reading.always (readOtherwise cx ts) fun r =>
    Shows cx.segments ts r.1.preorder (ts.drop r.2)
  -- a tag or a call has the head that the parts in front tell of
  element cx loc name shown args ts :=
    reading.always (readElement cx loc name shown ts args) fun r =>
      ∃ head inner, r.1.preorder = r.1 :: inner ∧ r.1.head? = some head ∧
        KeptFrom (ts.takeWhile (·.kind.isOfHead)) head ∧
        Shows cx.segments (ts.dropWhile (·.kind.isOfHead)) inner (ts.drop r.2) ∧
        (ts.head?.any (·.kind.opensHead) → 0 < r.2)
  conditional cx loc negate source ts :=
    reading.always (readConditional cx loc negate source ts) fun r =>
      Shows cx.segments ts (preorderAll r.1) (ts.drop r.2)
  each cx loc value key source ts :=
    reading.always (readEach cx loc value key source ts) fun r =>
      Shows cx.segments ts (preorderAll r.1) (ts.drop r.2)
  node cx t rest := reading.always (Node.read cx t rest) fun r =>
    Shows cx.segments (t :: rest) (preorderAll r.1) (rest.drop r.2)
  here cx ts := reading.always (Node.readHere cx ts) fun r =>
    Shows cx.segments ts (preorderAll r.1) (ts.drop r.2)
  items cx ts := reading.always (readItems cx ts) fun r =>
    Shows cx.segments ts (preorderAll r.1) (ts.drop r.2)

section Steps

variable {cx : TreeContext} {loc : Location} {name : NameSource} {shown source value : String}
  {args : Option (List Expr)} {key : Option String} {closable negate : Bool} {t : Token}
  {rest ts : List Token}

theorem shows_optionalBlock (ih : showing.Below ts) : showing.optionalBlock cx ts := by
  dsimp only [showing]
  unfold readOptionalBlock
  split
  next => exact reading.bind (ih.items .tail) fun _ hr => reading.pure (hr.skip rfl)
  next => exact reading.pure .nil

theorem shows_inline (ih : showing.Below ts) : showing.inline cx closable ts := by
  dsimp only [showing]
  unfold readInline
  split
  next s loc rest =>
    have hk := @elements_textRun (⟨.text s, loc⟩ :: rest) false
    refine reading.bind (shows_textNode cx List.suffix_rfl (.lines loc false) hk)
      fun n hn => reading.pure ⟨hn, rfl⟩
  next source buffered escape _ rest =>
    refine reading.bind (shows_code cx source buffered escape rest) fun n hn => reading.pure ⟨?_, rfl⟩
    rw [preorderAll_singleton]
    exact hn
  next =>
    exact reading.bind (ih.here .tail) fun _ hr => reading.pure ⟨hr.skip rfl, rfl⟩
  next =>
    split
    · exact reading.pure ⟨Shows.nil.skip rfl, rfl⟩
    · exact reading_unexpected
  all_goals first | exact reading.pure ⟨.nil, rfl⟩ | exact reading_unexpected

theorem shows_branchBody (ih : showing.Below ts) : showing.branchBody cx ts := by
  dsimp only [showing]
  unfold readBranchBody
  split
  next => exact reading.bind (ih.here .tail) fun _ hr => reading.pure (hr.skip rfl)
  next => exact reading.bind (ih.items .tail) fun _ hr => reading.pure (hr.skip rfl)
  next => exact reading.pure .nil

theorem shows_branches (ih : showing.Below ts) : showing.branches cx ts := by
  dsimp only [showing]
  unfold readBranches
  split
  next => exact reading.pure (Shows.nil.skip rfl)
  next => exact reading.bind (ih.branches .tail) fun _ hr => reading.pure (hr.skip rfl)
  next =>
    refine reading.bind (elements_comment _ _) fun r hr => ?_
    refine reading.bind (ih.branches (.drop .tail)) fun q hq => reading.pure ?_
    have hmore := Shows.of_drop hr.2 hq
    rw [List.drop_drop] at hmore
    exact hmore.skip rfl
  next =>
    refine reading.bind (reading_any _) fun test _ => ?_
    refine reading.bind (ih.branchBody .tail) fun r hr => ?_
    refine reading.bind (ih.branches (.drop .tail)) fun q hq => reading.pure ?_
    rw [List.drop_drop] at hq
    exact (hr.append hq).skip rfl
  next =>
    refine reading.bind (ih.branchBody .tail) fun r hr => ?_
    refine reading.bind (ih.branches (.drop .tail)) fun q hq => reading.pure ?_
    rw [List.drop_drop] at hq
    exact (hr.append hq).skip rfl
  next => exact reading_unexpected

theorem shows_elseBody (ih : showing.Below ts) : showing.elseBody cx ts := by
  dsimp only [showing]
  unfold readElseBody
  split
  next => exact reading.bind (ih.here .tail) fun _ hr => reading.pure (hr.skip rfl)
  next => exact shows_optionalBlock ih

theorem shows_otherwise (ih : showing.Below ts) : showing.otherwise cx ts := by
  dsimp only [showing]
  unfold readOtherwise
  dsimp only
  split
  next rest heq =>
    refine reading.bind (reading_any _) fun test _ => ?_
    refine reading.bind (ih.optionalBlock (.of_drop heq)) fun r hr => ?_
    refine reading.bind (ih.otherwise (.drop (.of_drop heq))) fun q hq => reading.pure ?_
    rw [List.drop_drop] at hq
    rw [Nat.add_assoc _ r.2]
    exact .of_beforeElse heq ((hr.append hq).skip rfl)
  next => exact reading_error
  next rest heq =>
    exact reading.bind (ih.elseBody (.of_drop heq)) fun _ hr =>
      reading.pure (.of_beforeElse heq (hr.skip rfl))
  next => exact reading.pure .nil

theorem shows_element (ih : showing.Below ts) : showing.element cx loc name shown args ts := by
  dsimp only [showing]
  unfold readElement
  refine reading.bind (reading_and (reading_of_blameless (parts_head {}))
    (Head.gathers_read Head.gathers_empty)) ?_
  rintro ⟨head, k⟩ hhead
  obtain ⟨⟨-, hpos⟩, written, hlists, hgathers⟩ := hhead
  dsimp only at hpos hlists hgathers ⊢
  obtain ⟨j, hj, hle, hbehind, hparts⟩ := exists_behindDot ts k
  rw [← hj]
  refine reading.bind (shows_inline (ih.drop _)) ?_
  rintro ⟨inline, selfClosing, m⟩ hinline
  obtain ⟨hm, hnext⟩ := hinline
  dsimp only at hm ⊢
  rw [List.drop_drop] at hm
  obtain ⟨htake, hdrop⟩ := takeWhile_eq_take hlists.2 (hparts hnext)
  have hend (below : List Node) (n : Nat)
      (hn : Shows cx.segments (ts.drop (j + m)) (preorderAll below) (ts.drop (j + m + n))) :
      KeptFrom (ts.takeWhile (·.kind.isOfHead)) head ∧
        Shows cx.segments (ts.dropWhile (·.kind.isOfHead)) (preorderAll (inline ++ below))
          (ts.drop (j + m + n)) ∧ (ts.head?.any (·.kind.opensHead) → 0 < j + m + n) := by
    rw [preorderAll_append, htake, hdrop]
    refine ⟨⟨written, hlists.1, hgathers, hgathers.once⟩, ?_, fun hopens =>
      Nat.add_pos_left (Nat.add_pos_left (Nat.lt_of_lt_of_le (hpos hopens) hle) m) n⟩
    obtain ⟨i, rfl⟩ := Nat.exists_eq_add_of_le hle
    rw [← List.drop_drop] at hbehind hm
    exact Shows.of_drop hbehind (by rw [List.drop_drop] at hm ⊢; exact hm.append hn)
  split
  · refine reading.bind (shows_textBody cx) ?_
    rintro ⟨below, n⟩ hn
    rw [List.drop_drop] at hn
    refine reading.mono shows_closed fun r hr => ⟨head, _, hr.1, hr.2.1, ?_⟩
    exact hr.2.2 ▸ hend below n hn
  · refine reading.bind (shows_optionalBlock (ih.drop _)) ?_
    rintro ⟨below, n⟩ hn
    rw [List.drop_drop] at hn
    refine reading.mono shows_closed fun r hr => ⟨head, _, hr.1, hr.2.1, ?_⟩
    exact hr.2.2 ▸ hend below n hn

theorem shows_conditional (ih : showing.Below ts) :
    showing.conditional cx loc negate source ts := by
  dsimp only [showing]
  unfold readConditional
  refine reading.bind (reading_any _) fun test _ => ?_
  refine reading.bind (shows_optionalBlock ih) fun r hr => ?_
  refine reading.bind (shows_otherwise (ih.drop _)) fun q hq => reading.pure ?_
  rw [List.drop_drop] at hq
  rw [preorderAll_singleton, Node.preorder]
  exact (hr.append hq).bare rfl

theorem shows_each (ih : showing.Below ts) : showing.each cx loc value key source ts := by
  dsimp only [showing]
  unfold readEach
  refine reading.bind (reading_any _) fun e _ => ?_
  refine reading.bind (shows_optionalBlock ih) ?_
  rintro ⟨body, k⟩ hk
  dsimp only at hk ⊢
  split
  next => exact reading_error
  next more heq =>
    refine reading.bind (ih.elseBody (.of_drop heq)) fun r hr => reading.pure ?_
    have hfrom : (ts.drop k).drop (beforeElse false (ts.drop k)) = _ := List.drop_drop.trans heq
    have hmore := Shows.of_beforeElse hfrom (hr.skip rfl)
    rw [List.drop_drop, ← Nat.add_assoc, ← Nat.add_assoc] at hmore
    rw [preorderAll_singleton, Node.preorder, preorderOption]
    exact (hk.append hmore).bare rfl
  next =>
    refine reading.pure ?_
    rw [preorderAll_singleton, Node.preorder, preorderOption, List.append_nil]
    exact hk.bare rfl

theorem shows_node (ih : showing.Below (t :: rest)) : showing.node cx t rest := by
  dsimp only [showing]
  match t with
  | ⟨.tag name, loc⟩ =>
    rw [Node.read]
    refine reading.bind (ih.element .tail) fun r hr => ?_
    obtain ⟨head, inner, hpre, hhead, hkept, hr, -⟩ := hr
    exact reading.pure (.element rfl hpre hhead (hkept.other rfl) hr)
  | ⟨.id _, loc⟩ | ⟨.className _, loc⟩ | ⟨.attributesStart, loc⟩ =>
    rw [Node.read]
    refine reading.bind (shows_element ih) fun r hr => ?_
    obtain ⟨head, inner, hpre, hhead, hkept, hr, hpos⟩ := hr
    obtain ⟨k, hk⟩ := Nat.exists_eq_succ_of_ne_zero (Nat.ne_of_gt (hpos rfl))
    refine reading.pure ?_
    rw [hk] at hr ⊢
    exact .element rfl hpre hhead hkept hr
  | ⟨.interpolation source, loc⟩ =>
    rw [Node.read]
    refine reading.bind (reading_any _) fun e _ => ?_
    refine reading.bind (ih.element .tail) fun r hr => ?_
    obtain ⟨head, inner, hpre, hhead, hkept, hr, -⟩ := hr
    exact reading.pure (.element rfl hpre hhead (hkept.other rfl) hr)
  | ⟨.text s, loc⟩ =>
    rw [Node.read]
    refine reading.bind (shows_textNode cx (k := (textRun true rest).2 + 1) List.suffix_rfl
      (.lines loc true) ?_) fun n hn => reading.pure hn
    rw [List.drop_succ_cons, elements_textRun, elements_of_isInert rfl]
  | ⟨.html s, loc⟩ =>
    rw [Node.read]
    refine reading.bind (shows_textNode cx (k := (htmlRun rest).2 + 1) List.suffix_rfl
      (.markup loc) ?_) fun n hn => ?_
    · rw [List.drop_succ_cons, elements_htmlRun, elements_of_isInert rfl]
    · refine reading.bind (ih.optionalBlock (.drop .tail)) fun r hr => reading.pure ?_
      rw [List.drop_drop] at hr
      have hall := hn.append hr
      rwa [← preorderAll_append] at hall
  | ⟨.comment text buffered, loc⟩ =>
    rw [Node.read]
    refine reading.bind (elements_comment text buffered) ?_
    rintro r ⟨⟨body, hnode⟩, hk⟩
    refine reading.pure ?_
    rw [hnode]
    exact (Shows.bare rfl (.drop hk)).skip rfl
  | ⟨.doctype _, _⟩ | ⟨.yield, _⟩ =>
    rw [Node.read]
    exact reading.pure ((Shows.bare rfl .nil).skip rfl)
  | ⟨.code source buffered escape, loc⟩ =>
    rw [Node.read]
    refine reading.bind (shows_code cx source buffered escape rest) fun n hn => ?_
    split
    · exact reading_error
    · refine reading.pure ?_
      rw [preorderAll_singleton]
      exact hn
  | ⟨.codeBlock, loc⟩ =>
    rw [Node.read]
    refine reading.mono elements_codeBlock ?_
    rintro r ⟨⟨list, hnode⟩, hk⟩
    rw [hnode]
    exact (Shows.bare rfl (.drop hk)).skip rfl
  | ⟨.ifCond source, loc⟩ | ⟨.unlessCond source, loc⟩ =>
    rw [Node.read]
    exact reading.mono (ih.conditional .tail) fun r hr => hr.skip rfl
  | ⟨.switch _, loc⟩ =>
    rw [Node.read]
    refine reading.bind (reading_any _) fun subject _ => ?_
    split
    · refine reading.bind (ih.branches (.cons .tail)) fun r hr => reading.pure ?_
      rw [preorderAll_singleton, Node.preorder]
      exact ((hr.skip rfl).bare rfl).skip rfl
    · exact reading.pure ((Shows.bare rfl .nil).skip rfl)
  | ⟨.each _ _ _, _⟩ | ⟨.eachOf _ _, _⟩ =>
    rw [Node.read]
    exact reading.mono (ih.each .tail) fun r hr => hr.skip rfl
  | ⟨.loop _, loc⟩ =>
    rw [Node.read]
    refine reading.bind (reading_any _) fun _ _ => ?_
    refine reading.bind (ih.optionalBlock .tail) fun r hr => reading.pure ?_
    rw [preorderAll_singleton, Node.preorder]
    exact (hr.bare rfl).skip rfl
  | ⟨.mixin _ _, loc⟩ =>
    rw [Node.read]
    refine reading.bind (reading_any _) fun _ _ => ?_
    refine reading.bind (ih.optionalBlock .tail) fun r hr => reading.pure ?_
    rw [preorderAll_singleton, Node.preorder]
    exact (hr.bare rfl).skip rfl
  | ⟨.call _ _ _, loc⟩ =>
    rw [Node.read]
    refine reading.bind (reading_any _) fun name _ => reading.bind (reading_any _) fun args _ => ?_
    refine reading.bind (ih.element .tail) fun r hr => ?_
    obtain ⟨head, inner, hpre, hhead, hkept, hr, -⟩ := hr
    exact reading.pure (.element rfl hpre hhead (hkept.other rfl) hr)
  | ⟨.block _ _, loc⟩ =>
    rw [Node.read]
    refine reading.bind (ih.optionalBlock .tail) fun r hr => reading.pure ?_
    rw [preorderAll_singleton, Node.preorder]
    exact (hr.bare rfl).skip rfl
  | ⟨.slot, _⟩ =>
    rw [Node.read]
    split
    · exact reading.pure ((Shows.bare rfl .nil).skip rfl)
    · exact reading_error
  | ⟨.inherits, _⟩ =>
    rw [Node.read]
    exact reading.bind elements_path fun _ hpath =>
      reading.pure ((Shows.bare rfl (.drop hpath)).skip rfl)
  | ⟨.includes _, _⟩ =>
    rw [Node.read]
    refine reading.bind elements_path fun _ hpath => ?_
    split
    · exact reading.pure ((Shows.bare rfl (.drop hpath)).skip rfl)
    · rw [← List.drop_one]
      refine reading.bind (ih.optionalBlock (.drop .tail)) fun r hr => reading.pure ?_
      rw [List.drop_drop, Nat.add_comm] at hr
      rw [preorderAll_singleton, Node.preorder]
      exact ((Shows.of_drop hpath hr).bare rfl).skip rfl
  | ⟨.filter name, loc⟩ =>
    rw [Node.read]
    refine reading.mono (elements_readFilter name) ?_
    rintro r ⟨⟨as, text, hnode⟩, hk⟩
    rw [hnode]
    exact .bare rfl (.behind hk.symm ((List.drop_suffix _ _).trans (List.suffix_cons _ _)) .nil)
  | ⟨.otherwise _, _⟩ | ⟨.elseIf _, _⟩ =>
    rw [Node.read]
    exact reading_error
  | ⟨.attr _ _ _, _⟩ | ⟨.attributesEnd, _⟩ | ⟨.spread _, _⟩ | ⟨.when _, _⟩
  | ⟨.defaultCase, _⟩ | ⟨.path _, _⟩ | ⟨.indent _, _⟩ | ⟨.outdent, _⟩
  | ⟨.newline, _⟩ | ⟨.eos, _⟩ | ⟨.pipelessStart, _⟩ | ⟨.pipelessEnd, _⟩
  | ⟨.slash, _⟩ | ⟨.colon, _⟩ | ⟨.dot, _⟩ =>
    rw [Node.read]
    · exact reading_unexpected
    all_goals simp

theorem shows_here (ih : showing.Below ts) : showing.here cx ts := by
  dsimp only [showing]
  unfold Node.readHere
  split
  · exact reading_unexpected
  · exact reading.bind (shows_node ih) fun _ hr => reading.pure hr

theorem shows_items (ih : showing.Below ts) : showing.items cx ts := by
  dsimp only [showing]
  unfold readItems
  split
  next => exact reading.pure (Shows.nil.skip rfl)
  next => exact reading.bind (ih.items .tail) fun _ hr => reading.pure (hr.skip rfl)
  next => exact reading_unexpected
  next => exact reading_unexpected
  next t rest _ _ _ =>
    refine reading.bind (shows_node ih) fun r hr => ?_
    refine reading.bind (ih.items (.drop .tail)) fun q hq => reading.pure ?_
    rw [List.drop_drop] at hq
    rw [preorderAll_append]
    exact hr.append hq

end Steps

theorem showing_always : showing.Given fun _ => True :=
  Productions.Given.always
    { optionalBlock := shows_optionalBlock
      inline := shows_inline
      branchBody := shows_branchBody
      branches := shows_branches
      elseBody := shows_elseBody
      otherwise := shows_otherwise
      element := shows_element
      conditional := shows_conditional
      each := shows_each
      node := shows_node
      here := shows_here
      items := shows_items }

end PugTemplate
