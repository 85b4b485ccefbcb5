import Mathlib.Logic.Relation
import PugTemplate.Proofs.Tree.Nest
import PugTemplate.Proofs.Tree.Part
import PugTemplate.Proofs.Tree.Production
import PugTemplate.Proofs.Tree.Stray

/-!
# Reading bare blocks

A bare block is refused exactly where no body of a mixin is open. Of each block that is open, the scan
`slotsOutside` remembers whether a mixin opened it; the reader only knows whether one of them did.
A tag in a text is read as a stream of its own, in which none is open.
-/

namespace PugTemplate

/-- Where a stream has its bare blocks that are in no body of a mixin. The bodies are the blocks that
are open, each with whether it is a mixin's; `begun` says whether one of a mixin may open here. -/
def slotsOutside (bodies : List Bool) (begun : Bool) : List Token → List Location
  | [] => []
  | ⟨.mixin _ _, _⟩ :: ts => slotsOutside bodies true ts
  | ⟨.indent _, _⟩ :: ts => slotsOutside (begun :: bodies) false ts
  | ⟨.outdent, _⟩ :: ts => slotsOutside bodies.tail false ts
  | ⟨.slot, loc⟩ :: ts =>
    if true ∈ bodies then slotsOutside bodies false ts else loc :: slotsOutside bodies false ts
  | _ :: ts => slotsOutside bodies false ts

section Scan

variable {bodies : List Bool} {begun : Bool} {t : Token} {ts : List Token} {k : Nat}

theorem slotsOutside_of_isPart (h : t.kind.isPart) :
    slotsOutside bodies begun (t :: ts) = slotsOutside bodies false ts := by
  obtain ⟨kind, loc⟩ := t
  cases kind <;> first | rfl | exact nomatch h

theorem slotsOutside_drop (h : PartsUpTo ts k) :
    slotsOutside bodies false (ts.drop k) = slotsOutside bodies false ts := by
  induction k generalizing ts with
  | zero => rfl
  | succ k ih =>
    cases ts with
    | nil => rfl
    | cons t ts =>
      obtain ⟨ht, hmore⟩ := List.forall_mem_cons.mp h
      rw [List.drop_succ_cons, ih hmore, slotsOutside_of_isPart ht]

/-- A mixin has no body where no block opens. -/
theorem slotsOutside_unbegun (h : ∀ w loc us, ts ≠ ⟨.indent w, loc⟩ :: us) :
    slotsOutside bodies begun ts = slotsOutside bodies false ts := by
  match ts with
  | [] => rfl
  | ⟨kind, loc⟩ :: us =>
    cases kind with
    | indent w => exact absurd rfl (h w loc us)
    | _ => rfl

end Scan

/-- A bare block outside mixins, in a stream or in that of a tag in one of its texts. -/
def Exposes (kept : List Token) (loc : Location) : Prop :=
  ∃ inner, Relation.ReflTransGen Nests kept inner ∧ loc ∈ slotsOutside [] false inner

/-- Some answer is only given with a property, and a failure that blames a bare block is right. -/
abbrev blaming (kept : List Token) : Answering (Except ParseError) :=
  .orFails fun e => e.cause = .slotOutsideMixin → Exposes kept e.loc

/-- A stream of one line, in which no block opens. -/
def Flat (kept : List Token) : Prop :=
  ∀ t ∈ kept, ∀ w, t.kind ≠ .indent w

/-! ## Trees that are read -/

/-- What is read of a stream, as the stray blocks of some nodes and all that stands in them: no block
is stray, and of a stream of one line there is no bare block at all. -/
structure Sheltered (kept : List Token) (strays everywhere : List Node) : Prop where
  none : strays = []
  flat : Flat kept → everywhere.filter Node.isSlot = []

/-- Nodes that are read of a stream inside a mixin or outside. -/
abbrev ShelteredAll (kept : List Token) (inMixin : Bool) (ns : List Node) : Prop :=
  Sheltered kept (straysAll inMixin ns) (everywhereAll ns)

namespace Sheltered

variable {kept : List Token} {strays strays' everywhere everywhere' ns ms : List Node} {n : Node}
  {inMixin : Bool}

theorem nil : Sheltered kept [] [] :=
  ⟨rfl, fun _ => rfl⟩

theorem append (h : Sheltered kept strays everywhere) (h' : Sheltered kept strays' everywhere') :
    Sheltered kept (strays ++ strays') (everywhere ++ everywhere') := by
  refine ⟨by rw [h.none, h'.none, List.append_nil], fun hflat => ?_⟩
  rw [List.filter_append, h.flat hflat, h'.flat hflat, List.append_nil]

/-- A node that is no bare block, and what stands in it. -/
theorem cons (hn : n.isSlot = false) (h : Sheltered kept strays everywhere) :
    Sheltered kept strays (n :: everywhere) :=
  ⟨h.none, fun hflat => by rw [List.filter_cons_of_neg (by simp [hn]), h.flat hflat]⟩

theorem of_filter (h : everywhere.filter Node.isSlot = []) :
    Sheltered kept (everywhere.filter Node.isSlot) everywhere :=
  ⟨h, fun _ => h⟩

theorem one (h : Sheltered kept (n.strays inMixin) n.everywhere) : ShelteredAll kept inMixin [n] := by
  rw [ShelteredAll, straysAll_singleton, everywhereAll, everywhereAll, List.append_nil]
  exact h

theorem all_append (h : ShelteredAll kept inMixin ns) (h' : ShelteredAll kept inMixin ms) :
    ShelteredAll kept inMixin (ns ++ ms) := by
  rw [ShelteredAll, straysAll_append, everywhereAll_append]
  exact h.append h'

end Sheltered

/-! ## Positions in a stream -/

/-- What is left of a stream where the reader is: no bare block outside mixins has been passed. -/
structure Standing (kept : List Token) (bodies : List Bool) (begun : Bool) (ws : List Nat)
    (ts : List Token) : Prop where
  stretch : noForecast.Stretch ws ts
  suffix : ts <:+ kept
  slots : slotsOutside bodies begun ts = slotsOutside [] false kept
  flat : Flat kept → bodies = []

/-- A context knows whether a body of a mixin is open, and cuts texts of the stream rightly. -/
structure Suits (kept : List Token) (bodies : List Bool) (cx : TreeContext) : Prop where
  inMixin : cx.inMixin ↔ true ∈ bodies
  text : ∀ raw loc, TextOf kept raw loc →
    (blaming kept).always (cx.segments raw loc) fun segments =>
      (everywhereSegments segments).filter Node.isSlot = []

section Reading

variable {kept : List Token} {bodies : List Bool} {begun begun' b : Bool} {w : Nat} {ws : List Nat}
  {t : Token} {ts : List Token} {k : Nat} {loc stop : Location} {cx : TreeContext} {α : Type}

namespace Standing

theorem leftOf (h : Standing kept bodies begun ws ts) : LeftOf kept ts :=
  ⟨h.suffix, ws, h.stretch.stream⟩

theorem of_word (h : Standing kept bodies begun ws (t :: ts)) (ht : t.kind.isFree)
    (hs : slotsOutside bodies begun (t :: ts) = slotsOutside bodies begun' ts) :
    Standing kept bodies begun' ws ts where
  stretch := h.stretch.of_word ht
  suffix := (List.suffix_cons t ts).trans h.suffix
  slots := hs.symm.trans h.slots
  flat := h.flat

/-- A block opens, that of a mixin if one has just begun. -/
theorem of_indent (h : Standing kept bodies begun ws (⟨.indent w, loc⟩ :: ts)) :
    Standing kept (begun :: bodies) false (w :: ws) ts where
  stretch := h.stretch.of_indent
  suffix := (List.suffix_cons _ ts).trans h.suffix
  slots := h.slots
  flat hflat := absurd rfl (hflat _ (h.suffix.subset List.mem_cons_self) w)

theorem of_outdent (h : Standing kept (b :: bodies) begun (w :: ws) (⟨.outdent, loc⟩ :: ts)) :
    Standing kept bodies false ws ts where
  stretch := h.stretch.of_outdent
  suffix := (List.suffix_cons _ ts).trans h.suffix
  slots := h.slots
  flat hflat := nomatch h.flat hflat

/-- Parts of nodes behind a word are passed over. -/
theorem behind (h : Standing kept bodies begun ws (t :: ts))
    (ht : slotsOutside bodies begun (t :: ts) = slotsOutside bodies false ts)
    (hparts : PartsUpTo ts k) (hs : noForecast.Stretch ws (ts.drop k)) :
    Standing kept bodies false ws (ts.drop k) where
  stretch := hs
  suffix := ((List.drop_suffix k ts).trans (List.suffix_cons t ts)).trans h.suffix
  slots := (slotsOutside_drop hparts).trans (ht.symm.trans h.slots)
  flat := h.flat

theorem drop (h : Standing kept bodies false ws ts) (hparts : PartsUpTo ts k)
    (hs : noForecast.Stretch ws (ts.drop k)) : Standing kept bodies false ws (ts.drop k) where
  stretch := hs
  suffix := (List.drop_suffix k ts).trans h.suffix
  slots := (slotsOutside_drop hparts).trans h.slots
  flat := h.flat

/-- No block opens here. -/
theorem unbegun (h : Standing kept bodies begun ws ts) (hts : ∀ w loc us, ts ≠ ⟨.indent w, loc⟩ :: us) :
    Standing kept bodies false ws ts where
  stretch := h.stretch
  suffix := h.suffix
  slots := (slotsOutside_unbegun hts).symm.trans h.slots
  flat := h.flat

theorem drop_pred (h : Standing kept bodies begun ws ((t :: ts).drop k)) (hk : 0 < k) :
    Standing kept bodies begun ws (ts.drop (k - 1)) := by
  obtain ⟨k, rfl⟩ := Nat.exists_eq_succ_of_ne_zero (Nat.ne_of_gt hk)
  exact h

/-- Positions behind a token count on from it. -/
theorem drop_behind {us : List Token} {n : Nat} (h : ts.drop k = t :: us)
    (hn : Standing kept bodies begun ws (us.drop n)) :
    Standing kept bodies begun ws (ts.drop (k + 1 + n)) := by
  rwa [Nat.add_assoc, ← List.drop_drop, h, Nat.add_comm, List.drop_succ_cons]

end Standing

theorem Suits.inner (h : Suits kept bodies cx) : Suits kept (false :: bodies) cx :=
  ⟨by simpa using h.inMixin, h.text⟩

theorem Suits.inBody (h : Suits kept bodies cx) :
    Suits kept (true :: bodies) { cx with inMixin := true } :=
  ⟨by simp, h.text⟩

/-! ## Parts -/

theorem blaming_error {p : α → Prop} {e : ParseError} (h : e.cause ≠ .slotOutsideMixin) :
    (blaming kept).always (.error e : Except ParseError α) p :=
  ⟨fun _ ha => (nomatch ha), fun _ he hcause => absurd (Except.error.inj he ▸ hcause) h⟩

theorem blaming_of_blameless {p : α → Prop} {x : Except ParseError α} (h : blameless.always x p) :
    (blaming kept).always x p :=
  ⟨h.1, fun e he hcause => absurd hcause (h.2 e he)⟩

theorem blaming_unexpected {p : α → Prop} {expected : Expectation} :
    (blaming kept).always (unexpected stop ts expected : Except ParseError α) p :=
  blaming_of_blameless blameless_unexpected

theorem blaming_atLocation (source : String) (x : Except ExprError α) :
    (blaming kept).always (atLocation source loc x) fun _ => True :=
  blaming_of_blameless (blameless_atLocation source x)

/-- Reading parts leaves a stream behind. -/
theorem blaming_parts {p q r : α → Prop} {x : Except ParseError α} (hp : blameless.always x p)
    (hq : noForecast.parsing.always x q) (h : ∀ a, p a → q a → r a) :
    (blaming kept).always x r :=
  ⟨fun a ha => h a (hp.1 a ha) (hq.1 a ha), (blaming_of_blameless hp).2⟩

theorem standing_head (h : Standing kept bodies false ws ts) :
    (blaming kept).always (Head.read stop {} ts) fun r =>
      Standing kept bodies false ws (ts.drop r.2) ∧ (ts.head?.any (·.kind.opensHead) → 0 < r.2) :=
  blaming_parts (parts_head {}) (Forecast.parsing_head {} h.stretch) fun _ hp hs =>
    ⟨h.drop hp.1 hs.1, hp.2⟩

theorem standing_comment (b : Bool) {text : String} {buffered : Bool}
    (h : Standing kept bodies false ws (⟨.comment text buffered, loc⟩ :: ts)) :
    (blaming kept).always (readComment stop text buffered loc ts) fun r =>
      ShelteredAll kept b [r.1] ∧ Standing kept bodies false ws (ts.drop r.2) := by
  refine blaming_parts (parts_comment text buffered) (Forecast.parsing_comment h.stretch)
    fun r ⟨⟨body, hnode⟩, hparts⟩ hs => ⟨?_, h.behind rfl hparts hs⟩
  rw [hnode]
  exact .one (.cons rfl .nil)

theorem standing_codeBlock (b : Bool) (h : Standing kept bodies false ws (⟨.codeBlock, loc⟩ :: ts)) :
    (blaming kept).always (readCodeBlock stop loc ts) fun r =>
      ShelteredAll kept b r.1 ∧ Standing kept bodies false ws (ts.drop r.2) := by
  refine blaming_parts parts_codeBlock (Forecast.parsing_codeBlock h.stretch)
    fun r ⟨⟨list, hnode⟩, hparts⟩ hs => ⟨?_, h.behind rfl hparts hs⟩
  rw [hnode]
  exact .one (.cons rfl .nil)

theorem standing_filter (b : Bool) {name : String}
    (h : Standing kept bodies false ws (⟨.filter name, loc⟩ :: ts)) :
    (blaming kept).always (readFilter stop name loc ts) fun r =>
      ShelteredAll kept b r.1 ∧ Standing kept bodies false ws (ts.drop r.2) := by
  refine blaming_parts (parts_filter name) (Forecast.parsing_filter h.stretch)
    fun r ⟨⟨as, text, hnode⟩, hparts⟩ hs => ⟨?_, h.behind rfl hparts hs⟩
  rw [hnode]
  exact .one (.cons rfl .nil)

theorem standing_path (h : Standing kept bodies false ws (t :: ts)) (ht : t.kind.isReference)
    (hslots : slotsOutside bodies false (t :: ts) = slotsOutside bodies false ts) :
    (blaming kept).always (readPath stop ts) fun _ => Standing kept bodies false ws (ts.drop 1) :=
  blaming_parts parts_path (Forecast.parsing_path h.stretch ht) fun _ hparts hs =>
    h.behind hslots hparts (List.drop_one ▸ hs)

theorem sheltered_ofCode (b : Bool) (source : String) (buffered escape : Bool) :
    (blaming kept).always (Node.ofCode source buffered escape loc) fun n =>
      ShelteredAll kept b [n] := by
  refine (blaming kept).mono (blaming_of_blameless (parts_ofCode source buffered escape)) fun n hn => ?_
  obtain ⟨_, rfl⟩ | ⟨_, rfl⟩ := hn <;> exact .one (.cons rfl .nil)

theorem Standing.beforeElse (orElseIf : Bool) (h : Standing kept bodies false ws ts) :
    Standing kept bodies false ws (ts.drop (beforeElse orElseIf ts)) :=
  h.drop (parts_beforeElse orElseIf) (Forecast.drop_beforeElse orElseIf h.stretch)

/-! ## Text -/

theorem sheltered_textNode (b : Bool) {raw : String} (hcx : Suits kept bodies cx)
    (h : TextOf kept raw loc) :
    (blaming kept).always (cx.textNode raw loc) fun n => ShelteredAll kept b [n] :=
  (blaming kept).bind (hcx.text raw loc h) fun _ hsegments =>
    (blaming kept).pure (.one (.cons rfl (.of_filter hsegments)))

theorem standing_lines {s : String} (joins : Bool)
    (h : Standing kept bodies false ws (⟨.text s, loc⟩ :: ts)) :
    TextOf kept (s ++ (textRun joins ts).1) loc ∧
      Standing kept bodies false ws (ts.drop (textRun joins ts).2) :=
  ⟨.lines joins h.leftOf, h.behind rfl (parts_textRun joins) (h.stretch.prints_text joins).1⟩

theorem standing_markup {s : String}
    (h : Standing kept bodies false ws (⟨.html s, loc⟩ :: ts)) :
    TextOf kept (joinLines (s :: (htmlRun ts).1)) loc ∧
      Standing kept bodies false ws (ts.drop (htmlRun ts).2) :=
  ⟨.markup h.leftOf, h.behind rfl parts_htmlRun h.stretch.prints_html.1⟩

/-- What stands behind the dot of a tag: the line goes on or ends, or the text of a block begins. -/
def BelowDot (kept : List Token) (bodies : List Bool) (ws : List Nat) (ts : List Token) : Prop :=
  Standing kept bodies false ws ts ∨ ∃ dot start us, ts = ⟨.pipelessStart, start⟩ :: us ∧
    Standing kept bodies false ws (⟨.dot, dot⟩ :: ts)

theorem standing_textBody (b : Bool) (hcx : Suits kept bodies cx) (h : BelowDot kept bodies ws ts) :
    (blaming kept).always (cx.textBody ts) fun r =>
      ShelteredAll kept b r.1 ∧ Standing kept bodies false ws (ts.drop r.2) := by
  obtain h | ⟨dot, start, us, rfl, h⟩ := h
  · unfold TreeContext.textBody
    split
    next => exact absurd h.stretch Forecast.Stretch.not_pipelessStart
    next => exact (blaming kept).pure ⟨.nil, h⟩
  · have hblock := h.stretch.block_of_dot
    obtain ⟨s, loc, tail, rfl⟩ : ∃ s loc tail, us = ⟨.text s, loc⟩ :: tail := by
      obtain ⟨lines, at_, more, rfl, hl, -⟩ := hblock
      obtain ⟨s, loc, tail, -, -, -, rfl, -⟩ := Forecast.pipelessRun_lines hl at_ more
      exact ⟨s, loc, _, rfl⟩
    refine (blaming kept).bind
      (blaming_parts parts_pipelessBody (Forecast.parsing_pipelessBody hblock)
        fun _ hp hs => And.intro hp hs.1)
      fun (at_, raw, k) ⟨⟨hparts, hrun, hat⟩, hs⟩ => ?_
    obtain rfl : at_ = loc := hat
    refine (blaming kept).bind (sheltered_textNode b hcx (.block h.leftOf hrun)) fun n hn => ?_
    exact (blaming kept).pure ⟨hn, h.behind rfl (hparts.succ rfl) hs⟩

/-- A tag or a call around what was read. -/
theorem sheltered_closed (b : Bool) {loc : Location} {name : NameSource} {head : Head}
    {selfClosing textOnly : Bool} {body : List Node} {e : ParseError} {args : Option (List Expr)}
    {n : Nat} (he : e.cause ≠ .slotOutsideMixin) (hbody : ShelteredAll kept b body) :
    (blaming kept).always (if selfClosing ∧ body ≠ [] then .error e
      else match args with
        | none => pure (Node.tag loc name head selfClosing textOnly body, n)
        | some args =>
          pure (Node.call loc name args head (if body = [] then none else some body), n))
      fun r => ShelteredAll kept b [r.1] ∧ r.2 = n := by
  split
  · exact blaming_error he
  · split
    · exact (blaming kept).pure ⟨.one (.cons rfl hbody), rfl⟩
    · refine (blaming kept).pure ⟨.one (.cons rfl ?_), rfl⟩
      split
      · exact .nil
      · exact hbody

end Reading

/-! ## Nodes -/

variable {kept : List Token}

/-- Each production shelters the bare blocks that it reads, and leaves behind what stood there; only
a bare block that is in no body of a mixin is blamed. -/
def sheltering (kept : List Token) : Productions where
  -- the block behind a word; behind that of a mixin it is the mixin's body
  optionalBlock cx ts := ∀ {begun : Bool} {bodies : List Bool} {ws : List Nat},
    Suits kept (begun :: bodies) cx → Standing kept bodies begun ws ts →
      (blaming kept).always (readOptionalBlock cx ts) fun r =>
        ShelteredAll kept cx.inMixin r.1 ∧ Standing kept bodies false ws (ts.drop r.2)
  inline cx closable ts := ∀ {bodies : List Bool} {ws : List Nat},
    Suits kept bodies cx → Standing kept bodies false ws ts →
      (blaming kept).always (readInline cx closable ts) fun r =>
        ShelteredAll kept cx.inMixin r.1 ∧ Standing kept bodies false ws (ts.drop r.2.2)
  branchBody cx ts := ∀ {bodies : List Bool} {ws : List Nat},
    Suits kept bodies cx → Standing kept bodies false ws ts →
      (blaming kept).always (readBranchBody cx ts) fun r =>
        Sheltered kept (straysOption cx.inMixin r.1) (everywhereOption r.1) ∧
          Standing kept bodies false ws (ts.drop r.2)
  branches cx ts := ∀ {b : Bool} {bodies : List Bool} {w : Nat} {ws : List Nat},
    Suits kept (b :: bodies) cx → Standing kept (b :: bodies) false (w :: ws) ts →
      (blaming kept).always (readBranches cx ts) fun r =>
        Sheltered kept (straysBranches cx.inMixin r.1) (everywhereBranches r.1) ∧
          Standing kept bodies false ws (ts.drop r.2)
  elseBody cx ts := ∀ {bodies : List Bool} {ws : List Nat},
    Suits kept bodies cx → Standing kept bodies false ws ts →
      (blaming kept).always (readElseBody cx ts) fun r =>
        ShelteredAll kept cx.inMixin r.1 ∧ Standing kept bodies false ws (ts.drop r.2)
  otherwise cx ts := ∀ {bodies : List Bool} {ws : List Nat},
    Suits kept bodies cx → Standing kept bodies false ws ts →
      (blaming kept).always (readOtherwise cx ts) fun r =>
        Sheltered kept (r.1.strays cx.inMixin) r.1.everywhere ∧
          Standing kept bodies false ws (ts.drop r.2)
  element cx loc name shown args ts := ∀ {bodies : List Bool} {ws : List Nat},
    Suits kept bodies cx → Standing kept bodies false ws ts →
      (blaming kept).always (readElement cx loc name shown ts args) fun r =>
        ShelteredAll kept cx.inMixin [r.1] ∧ Standing kept bodies false ws (ts.drop r.2) ∧
          (ts.head?.any (·.kind.opensHead) → 0 < r.2)
  conditional cx loc negate source ts := ∀ {bodies : List Bool} {ws : List Nat},
    Suits kept bodies cx → Standing kept bodies false ws ts →
      (blaming kept).always (readConditional cx loc negate source ts) fun r =>
        ShelteredAll kept cx.inMixin r.1 ∧ Standing kept bodies false ws (ts.drop r.2)
  each cx loc value key source ts := ∀ {bodies : List Bool} {ws : List Nat},
    Suits kept bodies cx → Standing kept bodies false ws ts →
      (blaming kept).always (readEach cx loc value key source ts) fun r =>
        ShelteredAll kept cx.inMixin r.1 ∧ Standing kept bodies false ws (ts.drop r.2)
  node cx t rest := ∀ {bodies : List Bool} {ws : List Nat},
    Suits kept bodies cx → Standing kept bodies false ws (t :: rest) →
      (blaming kept).always (Node.read cx t rest) fun r =>
        ShelteredAll kept cx.inMixin r.1 ∧ Standing kept bodies false ws (rest.drop r.2)
  here cx ts := ∀ {bodies : List Bool} {ws : List Nat},
    Suits kept bodies cx → Standing kept bodies false ws ts →
      (blaming kept).always (Node.readHere cx ts) fun r =>
        ShelteredAll kept cx.inMixin r.1 ∧ Standing kept bodies false ws (ts.drop r.2)
  items cx ts := ∀ {b : Bool} {bodies : List Bool} {w : Nat} {ws : List Nat},
    Suits kept (b :: bodies) cx → Standing kept (b :: bodies) false (w :: ws) ts →
      (blaming kept).always (readItems cx ts) fun r =>
        ShelteredAll kept cx.inMixin r.1 ∧ Standing kept bodies false ws (ts.drop r.2)

section Steps

variable {cx : TreeContext} {loc : Location} {name : NameSource} {shown source value : String}
  {args : Option (List Expr)} {key : Option String} {closable negate : Bool} {t : Token}
  {rest ts : List Token}

theorem standing_optionalBlock (ih : (sheltering kept).Below ts) :
    (sheltering kept).optionalBlock cx ts := by
  intro begun bodies ws hcx h
  unfold readOptionalBlock
  split
  next =>
    exact (blaming kept).bind (ih.items .tail hcx h.of_indent) fun _ hr => (blaming kept).pure hr
  next hne => exact (blaming kept).pure ⟨.nil, h.unbegun hne⟩

theorem standing_inline (ih : (sheltering kept).Below ts) :
    (sheltering kept).inline cx closable ts := by
  intro bodies ws hcx h
  unfold readInline
  split
  next =>
    obtain ⟨htext, hdrop⟩ := standing_lines false h
    exact (blaming kept).bind (sheltered_textNode _ hcx htext) fun _ hn =>
      (blaming kept).pure ⟨hn, hdrop⟩
  next =>
    exact (blaming kept).bind (sheltered_ofCode _ _ _ _) fun _ hn =>
      (blaming kept).pure ⟨hn, h.of_word rfl rfl⟩
  next =>
    exact (blaming kept).bind (ih.here .tail hcx (h.of_word rfl rfl)) fun _ hr =>
      (blaming kept).pure hr
  next =>
    split
    · exact (blaming kept).pure ⟨.nil, h.of_word rfl rfl⟩
    · exact blaming_unexpected
  all_goals first | exact (blaming kept).pure ⟨.nil, h⟩ | exact blaming_unexpected

theorem standing_branchBody (ih : (sheltering kept).Below ts) :
    (sheltering kept).branchBody cx ts := by
  intro bodies ws hcx h
  unfold readBranchBody
  split
  next =>
    exact (blaming kept).bind (ih.here .tail hcx (h.of_word rfl rfl)) fun _ hr =>
      (blaming kept).pure hr
  next =>
    exact (blaming kept).bind (ih.items .tail hcx.inner h.of_indent) fun _ hr =>
      (blaming kept).pure hr
  next => exact (blaming kept).pure ⟨.nil, h⟩

theorem standing_branches (ih : (sheltering kept).Below ts) :
    (sheltering kept).branches cx ts := by
  intro b bodies w ws hcx h
  unfold readBranches
  split
  next => exact (blaming kept).pure ⟨.nil, h.of_outdent⟩
  next =>
    exact (blaming kept).bind (ih.branches .tail hcx (h.of_word rfl rfl)) fun _ hr =>
      (blaming kept).pure hr
  next =>
    refine (blaming kept).bind (standing_comment cx.inMixin h) fun r hr => ?_
    refine (blaming kept).bind (ih.branches (.drop .tail) hcx hr.2) fun q hq => ?_
    rw [List.drop_drop] at hq
    exact (blaming kept).pure hq
  next =>
    refine (blaming kept).bind (blaming_atLocation _ _) fun test _ => ?_
    refine (blaming kept).bind (ih.branchBody .tail hcx (h.of_word rfl rfl)) fun r hr => ?_
    refine (blaming kept).bind (ih.branches (.drop .tail) hcx hr.2) fun q hq => ?_
    rw [List.drop_drop] at hq
    exact (blaming kept).pure ⟨hr.1.append hq.1, hq.2⟩
  next =>
    refine (blaming kept).bind (ih.branchBody .tail hcx (h.of_word rfl rfl)) fun r hr => ?_
    refine (blaming kept).bind (ih.branches (.drop .tail) hcx hr.2) fun q hq => ?_
    rw [List.drop_drop] at hq
    exact (blaming kept).pure ⟨hr.1.append hq.1, hq.2⟩
  next => exact blaming_unexpected

theorem standing_elseBody (ih : (sheltering kept).Below ts) :
    (sheltering kept).elseBody cx ts := by
  intro bodies ws hcx h
  unfold readElseBody
  split
  next =>
    exact (blaming kept).bind (ih.here .tail hcx (h.of_word rfl rfl)) fun _ hr =>
      (blaming kept).pure hr
  next => exact standing_optionalBlock ih hcx.inner h

theorem standing_otherwise (ih : (sheltering kept).Below ts) :
    (sheltering kept).otherwise cx ts := by
  intro bodies ws hcx h
  have hskip := h.beforeElse true
  unfold readOtherwise
  dsimp only
  split
  next heq =>
    rw [heq] at hskip
    refine (blaming kept).bind (blaming_atLocation _ _) fun test _ => ?_
    have hbehind := hskip.of_word rfl rfl
    refine (blaming kept).bind (ih.optionalBlock (.of_drop heq) hcx.inner hbehind) fun r hr => ?_
    refine (blaming kept).bind (ih.otherwise (.drop (.of_drop heq)) hcx hr.2) fun q hq => ?_
    rw [List.drop_drop] at hq
    refine (blaming kept).pure ⟨hr.1.append hq.1, ?_⟩
    rw [Nat.add_assoc _ r.2]
    exact Standing.drop_behind heq hq.2
  next => exact blaming_error (by rintro ⟨⟩)
  next heq =>
    rw [heq] at hskip
    exact (blaming kept).bind (ih.elseBody (.of_drop heq) hcx (hskip.of_word rfl rfl)) fun _ hr =>
      (blaming kept).pure ⟨hr.1, Standing.drop_behind heq hr.2⟩
  next => exact (blaming kept).pure ⟨.nil, h⟩

theorem standing_element (ih : (sheltering kept).Below ts) :
    (sheltering kept).element cx loc name shown args ts := by
  intro bodies ws hcx h
  unfold readElement
  refine (blaming kept).bind (standing_head h) ?_
  rintro ⟨head, k⟩ ⟨hk, hpos⟩
  dsimp only at hk hpos ⊢
  have hend {j m n : Nat} (hj : k ≤ j) (hn : Standing kept bodies false ws ((ts.drop (j + m)).drop n)) :
      Standing kept bodies false ws (ts.drop (j + m + n)) ∧
        (ts.head?.any (·.kind.opensHead) → 0 < j + m + n) := by
    rw [List.drop_drop] at hn
    exact ⟨hn, fun hopens => by have := hpos hopens; omega⟩
  by_cases hdot : (ts.drop k).head?.any fun t => t.kind == .dot
  · -- a block of text may stand behind the dot, and then nothing else stands in its line
    have hbelow : BelowDot kept bodies ws (ts.drop (k + 1)) := by
      rw [← List.drop_drop]
      cases hts : ts.drop k with
      | nil => exact absurd hts hk.stretch.ne_nil
      | cons t more =>
        rw [hts] at hk hdot
        obtain ⟨kind, dot⟩ := t
        obtain rfl : kind = .dot := eq_of_beq hdot
        obtain hmore | ⟨start, us, rfl, -⟩ := hk.stretch.below rfl (by simp)
        · exact .inl (hk.behind (k := 0) rfl .zero hmore)
        · exact .inr ⟨dot, start, us, rfl, hk⟩
    simp only [hdot, if_true]
    have hinline : (blaming kept).always (readInline cx args.isNone (ts.drop (k + 1))) fun r =>
        ShelteredAll kept cx.inMixin r.1 ∧ BelowDot kept bodies ws (ts.drop (k + 1 + r.2.2)) := by
      rcases hbelow with hline | ⟨dot, start, us, heq, hblock⟩
      · refine (blaming kept).mono (standing_inline (ih.drop _) hcx hline) fun r hr => ?_
        rw [List.drop_drop] at hr
        exact ⟨hr.1, .inl hr.2⟩
      · rw [heq]
        unfold readInline
        exact (blaming kept).pure ⟨.nil, .inr ⟨dot, start, us, heq, hblock⟩⟩
    refine (blaming kept).bind hinline ?_
    rintro ⟨inline, selfClosing, m⟩ hm
    refine (blaming kept).bind (standing_textBody cx.inMixin hcx hm.2) ?_
    rintro ⟨below, n⟩ hn
    exact (blaming kept).mono (sheltered_closed _ (by rintro ⟨⟩) (.all_append hm.1 hn.1)) fun r hr =>
      ⟨hr.1, hr.2 ▸ hend (Nat.le_succ k) hn.2⟩
  · simp only [hdot]
    refine (blaming kept).bind (standing_inline (ih.drop _) hcx hk) ?_
    rintro ⟨inline, selfClosing, m⟩ hm
    rw [List.drop_drop] at hm
    refine (blaming kept).bind (standing_optionalBlock (ih.drop _) hcx.inner hm.2) ?_
    rintro ⟨below, n⟩ hn
    exact (blaming kept).mono (sheltered_closed _ (by rintro ⟨⟩) (.all_append hm.1 hn.1)) fun r hr =>
      ⟨hr.1, hr.2 ▸ hend (Nat.le_refl k) hn.2⟩

theorem standing_conditional (ih : (sheltering kept).Below ts) :
    (sheltering kept).conditional cx loc negate source ts := by
  intro bodies ws hcx h
  unfold readConditional
  refine (blaming kept).bind (blaming_atLocation _ _) fun test _ => ?_
  refine (blaming kept).bind (standing_optionalBlock ih hcx.inner h) fun r hr => ?_
  refine (blaming kept).bind (standing_otherwise (ih.drop _) hcx hr.2) fun q hq => ?_
  rw [List.drop_drop] at hq
  exact (blaming kept).pure ⟨.one (.cons rfl (hr.1.append hq.1)), hq.2⟩

theorem standing_each (ih : (sheltering kept).Below ts) :
    (sheltering kept).each cx loc value key source ts := by
  intro bodies ws hcx h
  unfold readEach
  refine (blaming kept).bind (blaming_atLocation _ _) fun e _ => ?_
  refine (blaming kept).bind (standing_optionalBlock ih hcx.inner h) ?_
  rintro ⟨body, k⟩ hk
  have hskip := hk.2.beforeElse false
  rw [List.drop_drop] at hskip
  dsimp only
  split
  next => exact blaming_error (by rintro ⟨⟩)
  next heq =>
    rw [heq] at hskip
    exact (blaming kept).bind (ih.elseBody (.of_drop heq) hcx (hskip.of_word rfl rfl)) fun _ hr =>
      (blaming kept).pure
        ⟨.one (.cons rfl (hk.1.append hr.1)), Standing.drop_behind heq hr.2⟩
  next => exact (blaming kept).pure ⟨.one (.cons rfl (hk.1.append .nil)), hk.2⟩

theorem standing_node (ih : (sheltering kept).Below (t :: rest)) :
    (sheltering kept).node cx t rest := by
  intro bodies ws hcx h
  match t, h with
  | ⟨.tag _, _⟩, h =>
    rw [Node.read]
    exact (blaming kept).bind (ih.element .tail hcx (h.of_word rfl rfl)) fun _ hr =>
      (blaming kept).pure ⟨hr.1, hr.2.1⟩
  | ⟨.id _, _⟩, h | ⟨.className _, _⟩, h | ⟨.attributesStart, _⟩, h =>
    rw [Node.read]
    exact (blaming kept).bind (standing_element ih hcx h) fun _ hr =>
      (blaming kept).pure ⟨hr.1, hr.2.1.drop_pred (hr.2.2 rfl)⟩
  | ⟨.interpolation _, _⟩, h =>
    rw [Node.read]
    exact (blaming kept).bind (blaming_atLocation _ _) fun _ _ =>
      (blaming kept).bind (ih.element .tail hcx (h.of_word rfl rfl)) fun _ hr =>
        (blaming kept).pure ⟨hr.1, hr.2.1⟩
  | ⟨.text _, _⟩, h =>
    obtain ⟨htext, hdrop⟩ := standing_lines true h
    rw [Node.read]
    exact (blaming kept).bind (sheltered_textNode _ hcx htext) fun _ hn =>
      (blaming kept).pure ⟨hn, hdrop⟩
  | ⟨.html _, _⟩, h =>
    obtain ⟨htext, hdrop⟩ := standing_markup h
    rw [Node.read]
    refine (blaming kept).bind (sheltered_textNode cx.inMixin hcx htext) fun n hn => ?_
    refine (blaming kept).bind (ih.optionalBlock (.drop .tail) hcx.inner hdrop) fun r hr => ?_
    rw [List.drop_drop] at hr
    exact (blaming kept).pure ⟨Sheltered.all_append hn hr.1, hr.2⟩
  | ⟨.comment text buffered, loc⟩, h =>
    rw [Node.read]
    exact (blaming kept).bind (standing_comment _ h) fun _ hr => (blaming kept).pure hr
  | ⟨.doctype _, _⟩, h | ⟨.yield, _⟩, h =>
    rw [Node.read]
    exact (blaming kept).pure ⟨.one (.cons rfl .nil), h.of_word rfl rfl⟩
  | ⟨.code source buffered escape, loc⟩, h =>
    rw [Node.read]
    refine (blaming kept).bind (sheltered_ofCode cx.inMixin source buffered escape) fun n hn => ?_
    split
    · exact blaming_error (by rintro ⟨⟩)
    · exact (blaming kept).pure ⟨hn, h.of_word rfl rfl⟩
  | ⟨.codeBlock, loc⟩, h =>
    rw [Node.read]
    exact standing_codeBlock _ h
  | ⟨.ifCond source, loc⟩, h | ⟨.unlessCond source, loc⟩, h =>
    rw [Node.read]
    exact ih.conditional .tail hcx (h.of_word rfl rfl)
  | ⟨.switch _, loc⟩, h =>
    rw [Node.read]
    refine (blaming kept).bind (blaming_atLocation _ _) fun subject _ => ?_
    have hrest : Standing kept bodies false ws rest := h.of_word rfl rfl
    split
    · exact (blaming kept).bind (ih.branches (.cons .tail) hcx.inner hrest.of_indent) fun _ hr =>
        (blaming kept).pure ⟨.one (.cons rfl hr.1), hr.2⟩
    · exact (blaming kept).pure ⟨.one (.cons rfl .nil), hrest⟩
  | ⟨.each _ _ _, _⟩, h | ⟨.eachOf _ _, _⟩, h =>
    rw [Node.read]
    exact ih.each .tail hcx (h.of_word rfl rfl)
  | ⟨.loop _, loc⟩, h =>
    rw [Node.read]
    exact (blaming kept).bind (blaming_atLocation _ _) fun _ _ =>
      (blaming kept).bind (ih.optionalBlock .tail hcx.inner (h.of_word rfl rfl)) fun _ hr =>
        (blaming kept).pure ⟨.one (.cons rfl hr.1), hr.2⟩
  -- the body of a mixin shelters what stands in it
  | ⟨.mixin _ _, loc⟩, h =>
    rw [Node.read]
    exact (blaming kept).bind (blaming_of_blameless (blameless_paramsAt _)) fun _ _ =>
      (blaming kept).bind (ih.optionalBlock .tail hcx.inBody (h.of_word rfl rfl)) fun _ hr =>
        (blaming kept).pure ⟨.one (.cons rfl hr.1), hr.2⟩
  | ⟨.call _ _ _, loc⟩, h =>
    rw [Node.read]
    exact (blaming kept).bind (blaming_of_blameless (blameless_callName _ _)) fun _ _ =>
      (blaming kept).bind (blaming_of_blameless (blameless_callArguments _)) fun _ _ =>
        (blaming kept).bind (ih.element .tail hcx (h.of_word rfl rfl)) fun _ hr =>
          (blaming kept).pure ⟨hr.1, hr.2.1⟩
  | ⟨.block _ _, loc⟩, h =>
    rw [Node.read]
    exact (blaming kept).bind (ih.optionalBlock .tail hcx.inner (h.of_word rfl rfl)) fun _ hr =>
      (blaming kept).pure ⟨.one (.cons rfl hr.1), hr.2⟩
  | ⟨.slot, loc⟩, h =>
    rw [Node.read]
    split
    next hin =>
      have hbody : true ∈ bodies := hcx.inMixin.mp hin
      refine (blaming kept).pure ⟨⟨?_, fun hflat => ?_⟩, h.of_word rfl (if_pos hbody)⟩
      · rw [straysAll_singleton, Node.strays, if_pos hin]
      · rw [h.flat hflat] at hbody
        cases hbody
    next hin =>
      have hbody : true ∉ bodies := fun hm => hin (hcx.inMixin.mpr hm)
      refine ⟨fun _ ha => (by cases ha), fun e he _ => ?_⟩
      cases he
      refine ⟨kept, .refl, ?_⟩
      rw [← h.slots, slotsOutside, if_neg hbody]
      exact List.mem_cons_self
  | ⟨.inherits, _⟩, h =>
    rw [Node.read]
    exact (blaming kept).bind (standing_path h rfl rfl) fun _ hpath =>
      (blaming kept).pure ⟨.one (.cons rfl .nil), hpath⟩
  | ⟨.includes _, _⟩, h =>
    rw [Node.read]
    refine (blaming kept).bind (standing_path h rfl rfl) fun _ hpath => ?_
    split
    · exact (blaming kept).pure ⟨.one (.cons rfl .nil), hpath⟩
    · rw [← List.drop_one]
      refine (blaming kept).bind (ih.optionalBlock (.drop .tail) hcx.inner hpath) fun r hr => ?_
      rw [List.drop_drop, Nat.add_comm] at hr
      exact (blaming kept).pure ⟨.one (.cons rfl hr.1), hr.2⟩
  | ⟨.filter name, loc⟩, h =>
    rw [Node.read]
    exact standing_filter _ h
  | ⟨.otherwise _, _⟩, _ | ⟨.elseIf _, _⟩, _ =>
    rw [Node.read]
    exact blaming_error (by rintro ⟨⟩)
  | ⟨.attr _ _ _, _⟩, h | ⟨.attributesEnd, _⟩, h | ⟨.spread _, _⟩, h | ⟨.when _, _⟩, h
  | ⟨.defaultCase, _⟩, h | ⟨.path _, _⟩, h | ⟨.indent _, _⟩, h | ⟨.outdent, _⟩, h
  | ⟨.newline, _⟩, h | ⟨.eos, _⟩, h | ⟨.pipelessStart, _⟩, h | ⟨.pipelessEnd, _⟩, h
  | ⟨.slash, _⟩, h | ⟨.colon, _⟩, h | ⟨.dot, _⟩, h =>
    rw [Node.read]
    · exact blaming_unexpected
    all_goals simp

theorem standing_here (ih : (sheltering kept).Below ts) :
    (sheltering kept).here cx ts := by
  intro bodies ws hcx h
  unfold Node.readHere
  split
  · exact blaming_unexpected
  · exact (blaming kept).bind (standing_node ih hcx h) fun _ hr => (blaming kept).pure hr

theorem standing_items (ih : (sheltering kept).Below ts) :
    (sheltering kept).items cx ts := by
  intro b bodies w ws hcx h
  unfold readItems
  split
  next => exact (blaming kept).pure ⟨.nil, h.of_outdent⟩
  next =>
    exact (blaming kept).bind (ih.items .tail hcx (h.of_word rfl rfl)) fun _ hr =>
      (blaming kept).pure hr
  next => exact blaming_unexpected
  next => exact blaming_unexpected
  next t rest _ _ _ =>
    refine (blaming kept).bind (standing_node ih hcx h) fun r hr => ?_
    refine (blaming kept).bind (ih.items (.drop .tail) hcx hr.2) fun q hq => ?_
    rw [List.drop_drop] at hq
    exact (blaming kept).pure ⟨.all_append hr.1 hq.1, hq.2⟩

end Steps

theorem sheltering_always (kept : List Token) : (sheltering kept).Given fun _ => True :=
  Productions.Given.always
    { optionalBlock := standing_optionalBlock
      inline := standing_inline
      branchBody := standing_branchBody
      branches := standing_branches
      elseBody := standing_elseBody
      otherwise := standing_otherwise
      element := standing_element
      conditional := standing_conditional
      each := standing_each
      node := standing_node
      here := standing_here
      items := standing_items }

/-- A stream that is read through has no bare block outside mixins. -/
theorem standing_document {cx : TreeContext} (hcx : Suits kept [] cx) {ts : List Token}
    (h : Standing kept [] false [] ts) :
    (blaming kept).always (readDocument cx ts) fun ns =>
      ShelteredAll kept cx.inMixin ns ∧ slotsOutside [] false kept = [] := by
  fun_induction readDocument cx ts
  case case1 => exact (blaming kept).pure ⟨.nil, h.slots.symm⟩
  case case2 loc rest =>
    have hrest : rest = [] := by
      cases h.stretch.stream with
      | eos => rfl
      | word ht | print ht | textBlock ht | reference ht => cases ht
    subst hrest
    exact (blaming kept).pure ⟨.nil, h.slots.symm⟩
  case case3 ih => exact ih (h.of_word rfl rfl)
  case case4 ih =>
    refine (blaming kept).bind ((sheltering_always kept).node trivial hcx h) fun r hr => ?_
    refine (blaming kept).bind (ih r.2 hr.2) fun ns hns => ?_
    exact (blaming kept).pure ⟨.all_append hr.1 hns.1, hns.2⟩

/-! ## Tags in text -/

/-- Text that is cut without bare blocks; what is blamed is one in a tag of the text. -/
def Slotless (segments : String → Location → Except ParseError (List Segment)) (raw : String)
    (loc : Location) : Prop :=
  (Answering.orFails fun e : ParseError => e.cause = .slotOutsideMixin →
      ∃ inner, InTag raw loc inner ∧ Exposes inner e.loc).always (segments raw loc)
    fun out => (everywhereSegments out).filter Node.isSlot = []

theorem blaming_readTokens {segments : String → Location → Except ParseError (List Segment)}
    (hs : TokenStream [] kept) (hsegments : ∀ raw loc, TextOf kept raw loc → Slotless segments raw loc) :
    (blaming kept).always (readTokens segments kept) fun ns =>
      ShelteredAll kept false ns ∧ slotsOutside [] false kept = [] := by
  have hstart : Standing kept [] false [] kept :=
    ⟨⟨hs, fun _ _ => trivial⟩, List.suffix_rfl, rfl, fun _ => rfl⟩
  refine standing_document ⟨by simp, fun raw loc htext => ?_⟩ hstart
  refine ⟨(hsegments raw loc htext).1, fun e he hcause => ?_⟩
  obtain ⟨inner, hinner, nested, hnests, hloc⟩ := (hsegments raw loc htext).2 e he hcause
  exact ⟨nested, .head ⟨raw, loc, htext, hinner⟩ hnests, hloc⟩

theorem everywhereSegments_cons (s : Segment) (ss : List Segment) :
    everywhereSegments (s :: ss) = everywhereSegments [s] ++ everywhereSegments ss := by
  cases s with
  | tag n => rw [everywhereSegments, everywhereSegments, everywhereSegments, List.append_nil]
  | _ => rfl

/-- The node of a tag in one line holds no bare block. -/
theorem slotless_nestedNode {segments : String → Location → Except ParseError (List Segment)}
    {raw : String} {loc : Location} (hclosed : LinesClosed raw.toList) {offset : Nat}
    {source : List Char} (hpiece : .tag offset source ∈ Piece.split 0 raw.toList)
    (hsegments : ∀ inner, InTag raw loc inner → ∀ raw' loc', TextOf inner raw' loc' →
      Slotless segments raw' loc') :
    (Answering.orFails fun e : ParseError => e.cause = .slotOutsideMixin →
        ∃ inner, InTag raw loc inner ∧ Exposes inner e.loc).always
      (nestedNode segments source (loc.right (offset + 2)))
      fun n => n.everywhere.filter Node.isSlot = [] := by
  unfold nestedNode
  split
  next e _ =>
    refine ⟨fun _ ha => (by cases ha), fun _ he hcause => ?_⟩
    cases he
    cases hcause
  next tokens hlex =>
    have htag : InTag raw loc tokens := ⟨offset, source, hpiece, hlex⟩
    obtain ⟨hstream, hflat⟩ := htag.stream hclosed
    have hread := blaming_readTokens hstream (hsegments tokens htag)
    refine Answering.bind _ ⟨hread.1, fun e he hcause => ⟨tokens, htag, hread.2 e he hcause⟩⟩
      fun ns hns => ?_
    have hnone := hns.1.flat hflat
    split
    next n =>
      rw [everywhereAll, everywhereAll, List.append_nil] at hnone
      exact Answering.pure _ hnone
    next => exact Answering.pure _ hnone

/-- Text with closed lines is cut without bare blocks, however deep its tags lie. -/
theorem slotless_segmentsAt (raw : String) (loc : Location) (hclosed : LinesClosed raw.toList) :
    Slotless segmentsAt raw loc := by
  refine segmentsAt_of_pieces
    (motive := fun raw cut => LinesClosed raw.toList → ∀ loc, Slotless (fun _ => cut) raw loc)
    (fun _ _ _ => Answering.pure _ rfl) (fun segments hs raw hclosed loc => ?_) raw hclosed loc
  have hnil : (everywhereSegments []).filter Node.isSlot = [] := rfl
  refine Answering.mapM (m := Except ParseError)
    (p := fun out => (everywhereSegments out).filter Node.isSlot = []) _ hnil
    (fun s ss hs hss => ?_) _ fun piece hpiece => ?_
  · rw [everywhereSegments_cons, List.filter_append, hs, hss, List.append_nil]
  cases piece with
  | literal text => exact Answering.pure _ rfl
  | output offset escape source =>
    refine Answering.bind _ (p := fun _ => True) ⟨fun _ _ => trivial, fun e he hcause => ?_⟩
      fun value _ => ?_
    · exact absurd hcause ((blameless_atLocation _ _).2 e he)
    · refine Answering.pure _ ?_
      split <;> rfl
  | tag offset source =>
    have hcut (inner : List Token) (_ : InTag raw loc inner) (raw' : String) (loc' : Location)
        (htext : TextOf inner raw' loc') : Slotless segments raw' loc' :=
      hs raw' htext.linesClosed loc'
    refine Answering.bind _ (slotless_nestedNode hclosed hpiece hcut) fun n hn =>
      Answering.pure _ ?_
    rw [everywhereSegments, everywhereSegments, List.append_nil]
    exact hn
  | broken offset failure =>
    refine ⟨fun _ ha => (by cases ha), fun _ he hcause => ?_⟩
    cases he
    cases hcause

/-- A tree that is read has no stray block, and what is blamed on a bare block stands outside mixins
in the stream or in that of a tag in a text. -/
theorem blaming_parseTokens (hs : TokenStream [] kept) :
    (blaming kept).always (parseTokens kept) fun ns =>
      straysAll false ns = [] ∧ slotsOutside [] false kept = [] :=
  (blaming kept).mono
    (blaming_readTokens hs fun raw loc htext => slotless_segmentsAt raw loc htext.linesClosed)
    fun _ h => ⟨h.1.none, h.2⟩

end PugTemplate
