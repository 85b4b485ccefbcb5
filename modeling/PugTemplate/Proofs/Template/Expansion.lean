import PugTemplate.Link.Resolve
import PugTemplate.Proofs.Lex.Pass
import PugTemplate.Proofs.Template.Comment
import PugTemplate.Proofs.Tree.Expansion

/-!
# Block expansion

`t: x` stands for the tag `t` with `x` indented below it: both sources have the same tree, in which
`x` is the only child of `t`, and the lines that follow stay beside `t`. This fails where `x` ends
with text behind a pipe, or with markup, and the next line begins with the same: behind the colon
the two lines are read as one text.
-/

namespace PugTemplate

/-- The tree of a source up to positions, if it has one. -/
def treeOf (options : Options) (source : String) : Option (List Node) :=
  (parseSource options source).toOption.map unplacedAll

/-! ## Trees of streams -/

/-- The tree of a stream up to positions, if it has one. -/
def streamTree (ts : List Token) : Option (List Node) :=
  (readDocument ⟨.nowhere, false, segmentsAt⟩ ts).toOption.map unplacedAll

/-- The tree of what a policy keeps of a stream. -/
def keptTree (p : CommentPolicy) (ts : List Token) : Option (List Node) :=
  (p.strip ts).toOption.bind streamTree

section Streams

variable {p : CommentPolicy} {ts us : List Token}

theorem toOption_map_eq {ε α β : Type} {f : α → β} {x y : Except ε α}
    (h : Answers (fun a b => f b = f a) x y) (h' : Answers (fun a b => f b = f a) y x) :
    x.toOption.map f = y.toOption.map f := by
  cases x with
  | ok a =>
    obtain ⟨b, rfl, hab⟩ := h a rfl
    exact congrArg some hab.symm
  | error e =>
    cases y with
    | error e' => rfl
    | ok b =>
      obtain ⟨a, ha, -⟩ := h' b rfl
      cases ha

/-- Positions have no part in the tree, nor has the one that counts behind the last token. -/
theorem tree_congr (h : SameKinds ts us) (stop stop' : Location) :
    (readDocument ⟨stop, false, segmentsAt⟩ us).toOption.map unplacedAll =
      (readDocument ⟨stop', false, segmentsAt⟩ ts).toOption.map unplacedAll :=
  toOption_map_eq
    (answers_document (cutAlike_segmentsAt.alike _ _ _) (.of_line (h.symm.padded .line)))
    (answers_document (cutAlike_segmentsAt.alike _ _ _) (.of_line (h.padded .line)))

theorem streamTree_congr (h : SameKinds ts us) : streamTree us = streamTree ts :=
  tree_congr h _ _

theorem keptTree_congr (h : SameKinds ts us) : keptTree p us = keptTree p ts := by
  have hstrip {ts us kept : List Token} (h : SameKinds ts us) (hts : p.strip ts = .ok kept) :
      keptTree p us = keptTree p ts := by
    obtain ⟨kept', hkept, hkinds⟩ := (CommentPolicy.keeps_of_keep hts).alike h
    have hus : p.strip us = .ok kept' := hkept _
    rw [keptTree, keptTree, hts, hus]
    exact streamTree_congr hkinds
  cases hts : p.strip ts with
  | ok kept => exact hstrip h hts
  | error e =>
    cases hus : p.strip us with
    | ok kept => exact (hstrip h.symm hus).symm
    | error e' => rw [keptTree, keptTree, hts, hus]; rfl

theorem treeOf_eq (options : Options) (source : String) :
    treeOf options source = (lex source).toOption.bind (keptTree options.comments) := by
  unfold treeOf parseSource
  cases lex source with
  | error e => rfl
  | ok ts =>
    show _ = keptTree options.comments ts
    unfold keptTree
    dsimp only [Except.bind]
    cases options.comments.strip ts with
    | error e => rfl
    | ok kept =>
      have hparse : (parseTokens kept).toOption.map unplacedAll = streamTree kept :=
        tree_congr (.refl kept) _ _
      show _ = streamTree kept
      rw [← hparse]
      dsimp only
      cases parseTokens kept <;> rfl

/-- Tokens outside comments and text are kept, and have no part in what is kept behind them. -/
theorem strip_append (hplain : ∀ t ∈ ts, t.kind.isPlain) :
    p.strip (ts ++ us) = (ts ++ ·) <$> p.strip us := by
  have hlast (last last' : Location) : p.keep {} last us = p.keep {} last' us := by
    cases us <;> rfl
  have hkeep (last : Location) :
      p.keep {} last (ts ++ us) = (ts ++ ·) <$> p.keep {} .nowhere us := by
    induction ts generalizing last with
    | nil =>
      rw [List.nil_append, hlast last .nowhere]
      cases p.keep {} .nowhere us <;> rfl
    | cons t ts ih =>
      obtain ⟨ht, hplain⟩ := List.forall_mem_cons.mp hplain
      rw [List.cons_append, CommentPolicy.keep, CommentPolicy.step_plain rfl ht]
      dsimp only
      rw [ih hplain]
      cases p.keep {} .nowhere us <;> rfl
  exact hkeep .nowhere

theorem keptTree_append (hplain : ∀ t ∈ ts, t.kind.isPlain) :
    keptTree p (ts ++ us) = (p.strip us).toOption.bind fun kept => streamTree (ts ++ kept) := by
  rw [keptTree, strip_append hplain]
  cases p.strip us <;> rfl

end Streams

/-! ## The two sources -/

/-- A line of a tag with its parts and nothing more in it. The names `append` and `prepend` are left
out: with a colon behind them these words say how a block is put in place. -/
structure TagLine (source : String) (ts : List Token) : Prop extends OneLine source ts where
  last : (normalize source.toList).getLast?.any fun x => !isBlank x
  parts : ∀ t ∈ ts, t.kind.isTagPart
  head : ElementHead ts

/-- A line of a construct that fits behind a colon. -/
structure ConstructLine (source : String) (xs : List Token) : Prop extends OneLine source xs where
  construct : Expandable xs

section Sources

variable {tag construct rest joined nested : String} {ts xs : List Token}
  {indent behind : List Char}

theorem Following.skipLeading_eq (h : Following behind (normalize rest.toList)) :
    Layout.skipLeading ⟨normalize rest.toList, .start⟩ = ⟨normalize rest.toList, .start⟩ := by
  generalize normalize rest.toList = shown at h
  cases h with
  | none =>
    rw [Layout.skipLeading, if_neg fun hand => hand.2 rfl]
    rfl
  | lines _ hs => exact Layout.skipLeading_of_shown hs rfl

/-- A source that goes on with the lines of another one. -/
theorem treeOf_of_front (options : Options) {source : String} {front us : List Token} {c : Cursor}
    (hbehind : Following behind (normalize rest.toList))
    (hlex : lex source = (us ++ ·) <$> Layout.empty.tokens c) (hc : c.rest = normalize rest.toList)
    (hkinds : SameKinds front us) (hplain : ∀ t ∈ front, t.kind.isPlain) :
    treeOf options source = ((lex rest).bind options.comments.strip).toOption.bind fun kept =>
      streamTree (front ++ kept) := by
  have hrest : lex rest = Layout.empty.tokens ⟨normalize rest.toList, .start⟩ := by
    rw [Layout.lex_eq, hbehind.skipLeading_eq]
  rw [treeOf_eq, hlex, hrest]
  cases htokens : Layout.empty.tokens ⟨normalize rest.toList, .start⟩ with
  | error e =>
    cases hlater : Layout.empty.tokens c with
    | error e' => rfl
    | ok vs =>
      have hsame : (⟨normalize rest.toList, .start⟩ : Cursor).rest = c.rest := hc.symm
      obtain ⟨rs, hrs, -⟩ := Layout.sameKinds_tokens hsame hlater
      cases htokens.symm.trans hrs
  | ok rs =>
    obtain ⟨vs, hvs, hsame⟩ := Layout.sameKinds_tokens hc htokens
    rw [hvs]
    show keptTree options.comments (us ++ vs) = _
    rw [keptTree_congr (hkinds.append hsame), keptTree_append hplain]
    rfl

theorem treeOf_line (options : Options) {source : String} {front : List Token}
    (h : OneLine source front) (hplain : ∀ t ∈ front, t.kind.isPlain) :
    ∃ loc, treeOf options source = streamTree (front ++ [⟨.eos, loc⟩]) := by
  obtain ⟨loc, hlex⟩ := h.tokens
  refine ⟨loc, ?_⟩
  rw [treeOf_eq, hlex]
  show keptTree options.comments _ = _
  rw [keptTree_append hplain]
  rfl

theorem lineOver_eos (loc : Location) : LineOver [⟨.eos, loc⟩] :=
  ⟨_, _, rfl, .inr (.inr rfl)⟩

/-- The line of a construct is over in front of the lines that follow. -/
theorem Following.apart (h : Following behind (normalize rest.toList)) {p : CommentPolicy}
    {kept : List Token} (hkept : (lex rest).bind p.strip = .ok kept) (hjoins : ¬ Joins xs kept) :
    Apart xs (Layout.lineEnd (normalize rest.toList) ++ kept) := by
  by_cases hnil : normalize rest.toList = []
  · have hlex : lex rest = .ok [⟨.eos, .start⟩] := by
      rw [Layout.lex_eq, h.skipLeading_eq, hnil, Layout.tokens, if_pos rfl]
      rfl
    rw [hlex] at hkept
    cases hkept
    rw [Layout.lineEnd, if_pos hnil]
    refine ⟨lineOver_eos _, fun n next heq hn => ?_⟩
    cases heq
    cases hn
  · rw [Layout.lineEnd, if_neg hnil]
    refine ⟨⟨_, _, rfl, .inl rfl⟩, fun n next heq _ => ?_⟩
    cases heq
    exact hjoins

theorem readDocument_lineEnd {cx : TreeContext} (cs : List Char) (kept : List Token) :
    readDocument cx (Layout.lineEnd cs ++ kept) = readDocument cx kept := by
  unfold Layout.lineEnd
  split
  · rfl
  · exact readDocument_newline

theorem isPlain_lineEnd (cs : List Char) : ∀ t ∈ Layout.lineEnd cs, t.kind.isPlain := by
  unfold Layout.lineEnd
  split
  · exact List.forall_mem_nil _
  · exact List.forall_mem_singleton.mpr rfl

variable {options : Options}

theorem TagLine.isInLine (h : TagLine tag ts) : ∀ t ∈ ts, t.kind.isInLine :=
  h.head.isInLine

theorem ConstructLine.isInLine (h : ConstructLine construct xs) : ∀ x ∈ xs, x.kind.isInLine :=
  h.construct.isInLine

theorem isPlain_of_isInLine (h : ∀ t ∈ ts, t.kind.isInLine) : ∀ t ∈ ts, t.kind.isPlain :=
  fun t ht => TokenKind.isPlain_of_isInLine (h t ht)

theorem opensText_of_isInLine (h : ∀ t ∈ ts, t.kind.isInLine) :
    ∀ t ∈ ts, t.kind.opensText = false :=
  fun t ht => TokenKind.opensText_of_isInLine (h t ht)

/-- The tree of a source with a construct behind a colon, from what is kept of the lines that
follow. -/
theorem treeOf_colon (ht : TagLine tag ts) (hx : ConstructLine construct xs)
    (hbehind : Following behind (normalize rest.toList))
    (hjoined : normalize joined.toList =
      normalize tag.toList ++ ':' :: ' ' :: (normalize construct.toList ++ behind)) :
    treeOf options joined = ((lex rest).bind options.comments.strip).toOption.bind fun kept =>
      streamTree (ts ++ ⟨.colon, .nowhere⟩ :: (xs ++ Layout.lineEnd (normalize rest.toList)) ++
        kept) := by
  obtain ⟨us, c, hus, hc, hkinds⟩ := lex_joined ht.toOneLine ht.parts ht.last hx.toOneLine
    (opensText_of_isInLine hx.isInLine) hbehind hjoined
  exact treeOf_of_front options hbehind hus hc hkinds (List.forall_mem_append.mpr
    ⟨isPlain_of_isInLine ht.isInLine, List.forall_mem_cons.mpr
      ⟨rfl, List.forall_mem_append.mpr ⟨isPlain_of_isInLine hx.isInLine, isPlain_lineEnd _⟩⟩⟩)

/-- The tree of a source with the construct indented below the tag. -/
theorem treeOf_indent (ht : TagLine tag ts) (hx : ConstructLine construct xs)
    (hbehind : Following behind (normalize rest.toList)) (hindent : Indentation indent)
    (hnested : normalize nested.toList =
      normalize tag.toList ++ '\n' :: (indent ++ (normalize construct.toList ++ behind)))
    (hmixed : ∀ loc, lex nested ≠ .error ⟨.mixedIndentation, loc⟩) :
    treeOf options nested = ((lex rest).bind options.comments.strip).toOption.bind fun kept =>
      streamTree (ts ++ ⟨.indent indent.length, .nowhere⟩ :: (xs ++ [⟨.outdent, .nowhere⟩]) ++
        kept) := by
  obtain ⟨us, c, mark, hus, hc, hkinds⟩ := lex_nested ht.toOneLine
    (opensText_of_isInLine ht.isInLine) hx.toOneLine (opensText_of_isInLine hx.isInLine) hbehind
    hindent hnested
  have hunmarked : Layout.empty.tokens c = (⟨[], mark⟩ : Layout).tokens c := by
    refine (Layout.tokens_unmarked ⟨[], mark⟩ c).resolve_left fun ⟨loc, h⟩ => hmixed loc ?_
    rw [hus, h]
    rfl
  rw [← hunmarked] at hus
  exact treeOf_of_front options hbehind hus hc hkinds (List.forall_mem_append.mpr
    ⟨isPlain_of_isInLine ht.isInLine, List.forall_mem_cons.mpr
      ⟨rfl, List.forall_mem_append.mpr
        ⟨isPlain_of_isInLine hx.isInLine, List.forall_mem_singleton.mpr rfl⟩⟩⟩)

/-- The trees of the two sources, from those of their parts. -/
theorem trees_expanded (ht : TagLine tag ts) (hx : ConstructLine construct xs)
    (hbehind : Following behind (normalize rest.toList)) (hindent : Indentation indent)
    (hjoined : normalize joined.toList =
      normalize tag.toList ++ ':' :: ' ' :: (normalize construct.toList ++ behind))
    (hnested : normalize nested.toList =
      normalize tag.toList ++ '\n' :: (indent ++ (normalize construct.toList ++ behind)))
    (hmixed : ∀ loc, lex nested ≠ .error ⟨.mixedIndentation, loc⟩)
    (hjoins : ∀ kept, (lex rest).bind options.comments.strip = .ok kept → ¬ Joins xs kept) :
    ∃ (e : Option Opened) (n : Option Node) (rs : Option (List Node)),
      (∀ opened ∈ e, opened.args = none) ∧
      treeOf options tag = e.map (fun e => [(e.node false []).unplaced]) ∧
      treeOf options construct = n.map (fun n => [n.unplaced]) ∧
      treeOf options rest = rs.map unplacedAll ∧
      treeOf options joined = (e.bind fun e => n.bind fun n => rs.map fun rs =>
        (e.node false [n]).unplaced :: unplacedAll rs) ∧
      treeOf options nested = treeOf options joined := by
  obtain ⟨y, z, hargs, htag, hconstruct, hcolon, hindented⟩ :=
    exists_documents ⟨.nowhere, false, segmentsAt⟩ ht.head hx.construct
  obtain ⟨tagEnd, htagTree⟩ :=
    treeOf_line options ht.toOneLine (isPlain_of_isInLine ht.isInLine)
  obtain ⟨constructEnd, hconstructTree⟩ :=
    treeOf_line options hx.toOneLine (isPlain_of_isInLine hx.isInLine)
  rw [treeOf_colon ht hx hbehind hjoined, treeOf_indent ht hx hbehind hindent hnested hmixed,
    htagTree, hconstructTree, treeOf_eq]
  -- with the lines that follow behind them, both streams have the tree made of the parts
  have hwhole (kept : List Token) (hkept : (lex rest).bind options.comments.strip = .ok kept) :
      let tree := y.toOption.bind fun e => z.toOption.bind fun n =>
        (readDocument ⟨.nowhere, false, segmentsAt⟩ kept).toOption.map fun rs =>
          (e.node false [n]).unplaced :: unplacedAll rs
      streamTree (ts ++ ⟨.colon, .nowhere⟩ :: (xs ++ Layout.lineEnd (normalize rest.toList)) ++
          kept) = tree ∧
        streamTree (ts ++ ⟨.indent indent.length, .nowhere⟩ :: (xs ++ [⟨.outdent, .nowhere⟩]) ++
          kept) = tree := by
    have hread := hcolon .nowhere _ (hbehind.apart hkept (hjoins kept hkept))
    rw [readDocument_lineEnd] at hread
    simp only [streamTree, List.append_assoc, List.cons_append, List.nil_append, hread, hindented]
    cases y with
    | error e => exact ⟨rfl, rfl⟩
    | ok e =>
      cases z with
      | error e => exact ⟨rfl, rfl⟩
      | ok n =>
        cases readDocument ⟨.nowhere, false, segmentsAt⟩ kept <;> exact ⟨rfl, rfl⟩
  refine ⟨y.toOption, z.toOption, ((lex rest).bind options.comments.strip).toOption.bind fun kept =>
    (readDocument ⟨.nowhere, false, segmentsAt⟩ kept).toOption,
    fun e he => hargs ht.parts e (eq_ok_of_toOption he), ?_, ?_, ?_, ?_, ?_⟩
  · rw [streamTree, htag _ (lineOver_eos _), readDocument]
    cases y <;> rfl
  · have hapart : Apart xs [⟨.eos, constructEnd⟩] := by
      refine ⟨lineOver_eos _, fun n next heq hn => ?_⟩
      cases heq
      cases hn
    rw [streamTree, hconstruct _ hapart, readDocument]
    cases z <;> rfl
  · cases lex rest with
    | error e => rfl
    | ok rs =>
      show keptTree options.comments rs =
        Option.map _ ((options.comments.strip rs).toOption.bind fun kept => _)
      rw [keptTree]
      cases options.comments.strip rs <;> rfl
  · cases hkept : (lex rest).bind options.comments.strip with
    | error e => cases y <;> cases z <;> rfl
    | ok kept => exact (hwhole kept hkept).1
  · cases hkept : (lex rest).bind options.comments.strip with
    | error e => rfl
    | ok kept => exact (hwhole kept hkept).2.trans (hwhole kept hkept).1.symm

/-- A construct behind a colon is the only child of its tag, and the lines that follow stay beside
the tag, as when the construct stands indented below it; unless they go on with what ends the
construct. -/
theorem expansion_nests (ht : TagLine tag ts) (hx : ConstructLine construct xs)
    (hbehind : Following behind (normalize rest.toList)) (hindent : Indentation indent)
    (hjoined : normalize joined.toList =
      normalize tag.toList ++ ':' :: ' ' :: (normalize construct.toList ++ behind))
    (hnested : normalize nested.toList =
      normalize tag.toList ++ '\n' :: (indent ++ (normalize construct.toList ++ behind)))
    (hmixed : ∀ loc, lex nested ≠ .error ⟨.mixedIndentation, loc⟩)
    (hjoins : ∀ kept, (lex rest).bind options.comments.strip = .ok kept → ¬ Joins xs kept) :
    treeOf options joined = treeOf options nested ∧
      ∀ nodes, treeOf options joined = some nodes ↔
        ∃ name head x rs, treeOf options tag = some [.tag .nowhere name head false false []] ∧
          treeOf options construct = some [x] ∧ treeOf options rest = some rs ∧
            nodes = .tag .nowhere name head false false [x] :: rs := by
  obtain ⟨e, n, rs, hargs, htag, hconstruct, hrest, htree, hsame⟩ :=
    trees_expanded ht hx hbehind hindent hjoined hnested hmixed hjoins
  have hnode {e' : Opened} (he : e' ∈ e) (body : List Node) : (e'.node false body).unplaced =
      .tag .nowhere e'.name e'.head false false (unplacedAll body) := by
    rw [Opened.node, hargs e' he]
    rfl
  refine ⟨hsame.symm, fun nodes => ?_⟩
  rw [htag, hconstruct, hrest, htree]
  constructor
  · intro h
    obtain ⟨e', he, h⟩ := Option.bind_eq_some_iff.mp h
    obtain ⟨n', hn, h⟩ := Option.bind_eq_some_iff.mp h
    obtain ⟨rs', hrs, rfl⟩ := Option.map_eq_some_iff.mp h
    subst he hn hrs
    have htag : some [(e'.node false []).unplaced] =
        some [.tag .nowhere e'.name e'.head false false []] := by
      rw [hnode rfl]
      rfl
    refine ⟨e'.name, e'.head, n'.unplaced, unplacedAll rs', htag, rfl, rfl, ?_⟩
    rw [hnode rfl]
    rfl
  · rintro ⟨name, head, x, rs', htag, hconstruct, hrest, rfl⟩
    obtain ⟨e', rfl, he⟩ := Option.map_eq_some_iff.mp htag
    obtain ⟨n', rfl, hn⟩ := Option.map_eq_some_iff.mp hconstruct
    obtain ⟨ds, rfl, rfl⟩ := Option.map_eq_some_iff.mp hrest
    rw [hnode rfl] at he
    cases he
    cases hn
    show some _ = _
    rw [hnode rfl]
    rfl

end Sources

namespace PipedChild

/-- The tokens of the tag and of the text, and of both with another text behind them. -/
theorem lex_sources :
    lex "p" = .ok [⟨.tag "p", ⟨1, 1⟩⟩, ⟨.eos, ⟨1, 2⟩⟩] ∧
      lex "| a" = .ok [⟨.text "a", ⟨1, 3⟩⟩, ⟨.eos, ⟨1, 4⟩⟩] ∧
      lex "p: | a\n| b" = .ok [⟨.tag "p", ⟨1, 1⟩⟩, ⟨.colon, ⟨1, 2⟩⟩, ⟨.text "a", ⟨1, 6⟩⟩,
        ⟨.newline, ⟨2, 1⟩⟩, ⟨.text "b", ⟨2, 3⟩⟩, ⟨.eos, ⟨2, 4⟩⟩] ∧
      lex "p\n  | a\n| b" = .ok [⟨.tag "p", ⟨1, 1⟩⟩, ⟨.indent 2, ⟨2, 3⟩⟩, ⟨.text "a", ⟨2, 5⟩⟩,
        ⟨.outdent, ⟨3, 1⟩⟩, ⟨.text "b", ⟨3, 3⟩⟩, ⟨.eos, ⟨3, 4⟩⟩] := by
  refine ⟨?_, ?_, ?_, ?_⟩
  all_goals exact eq_ok_of_toOption (by decide +kernel)

theorem tagLine : TagLine "p" [⟨.tag "p", .start⟩] where
  shown := ⟨nofun, by decide⟩
  feed := by decide
  tokens := ⟨⟨1, 2⟩, lex_sources.1⟩
  last := by decide
  parts := List.forall_mem_singleton.mpr (by decide)
  head := .tag _ _ .nil

theorem constructLine : ConstructLine "| a" [⟨.text "a", ⟨1, 3⟩⟩] where
  shown := ⟨nofun, by decide⟩
  feed := by decide
  tokens := ⟨⟨1, 4⟩, lex_sources.2.1⟩
  construct := .text _ _

theorem indentation : Indentation [' ', ' '] where
  ne_nil := List.cons_ne_nil _ _
  blank := List.forall_mem_cons.mpr ⟨rfl, List.forall_mem_singleton.mpr rfl⟩
  same := List.forall_mem_cons.mpr ⟨rfl, List.forall_mem_singleton.mpr rfl⟩

def tagNode (loc : Location) (name : String) (body : List Node) : Node :=
  .tag loc (.fixed name) {} false false body

def textNode (loc : Location) (text : String) : Node :=
  .text loc text [.literal text]

theorem segmentsAt_a (loc : Location) : segmentsAt "a" loc = .ok [.literal "a"] :=
  PipedLines.segmentsAt_literal (by simp [Piece.split, Piece.marker?, Piece.prependLiteral]) loc

theorem treeOf_eq_some {source : String} (ts : List Token) (nodes : List Node)
    (hstrip : (lex source).bind (CommentPolicy.strip {}) = .ok ts)
    (hread : readDocument ⟨.nowhere, false, segmentsAt⟩ ts = .ok nodes) :
    treeOf {} source = some (unplacedAll nodes) := by
  rw [treeOf_eq]
  cases hlex : lex source with
  | error e =>
    rw [hlex] at hstrip
    cases hstrip
  | ok us =>
    rw [hlex] at hstrip
    show keptTree {} us = _
    rw [keptTree, show CommentPolicy.strip {} us = .ok ts from hstrip]
    show streamTree ts = _
    rw [streamTree, hread]
    rfl

theorem strip_of_lex {source : String} {ts us : List Token} (hlex : lex source = .ok us)
    (hstrip : CommentPolicy.strip {} us = .ok ts) :
    (lex source).bind (CommentPolicy.strip {}) = .ok ts := by
  rw [hlex]
  exact hstrip

theorem treeOf_name {name : String} (hstrip : (lex name).bind (CommentPolicy.strip {}) =
      .ok [⟨.tag name, ⟨1, 1⟩⟩, ⟨.eos, ⟨1, 2⟩⟩]) :
    treeOf {} name = some [tagNode .nowhere name []] := by
  refine treeOf_eq_some _ [tagNode ⟨1, 1⟩ name []] hstrip ?_
  simp [readDocument, Node.read, readElement, Head.read, readInline, readOptionalBlock, tagNode,
    bind, Except.bind, pure, Except.pure]

theorem treeOf_construct : treeOf {} "| a" = some [textNode .nowhere "a"] := by
  refine treeOf_eq_some _ [textNode ⟨1, 3⟩ "a"] (strip_of_lex lex_sources.2.1 rfl) ?_
  simp [readDocument, Node.read, textRun, TreeContext.textNode, segmentsAt_a, textNode, bind,
    Except.bind, pure, Except.pure]

theorem treeOf_joined :
    treeOf {} "p: | a\n| b" = some [tagNode .nowhere "p" [textNode .nowhere "a\nb"]] := by
  have hsegments (loc : Location) : segmentsAt "a\nb" loc = .ok [.literal "a\nb"] :=
    PipedLines.segmentsAt_literal (by simp [Piece.split, Piece.marker?, Piece.prependLiteral]) loc
  refine treeOf_eq_some _ [tagNode ⟨1, 1⟩ "p" [textNode ⟨1, 6⟩ "a\nb"]]
    (strip_of_lex lex_sources.2.2.1 rfl) ?_
  simp [readDocument, Node.read, readElement, Head.read, readInline, Node.readHere,
    readOptionalBlock, textRun, TreeContext.textNode, hsegments, tagNode, textNode, bind,
    Except.bind, pure, Except.pure]

theorem treeOf_nested :
    treeOf {} "p\n  | a\n| b" =
      some [tagNode .nowhere "p" [textNode .nowhere "a"], textNode .nowhere "b"] := by
  have hsegments (loc : Location) : segmentsAt "b" loc = .ok [.literal "b"] :=
    PipedLines.segmentsAt_literal (by simp [Piece.split, Piece.marker?, Piece.prependLiteral]) loc
  refine treeOf_eq_some _ [tagNode ⟨1, 1⟩ "p" [textNode ⟨2, 5⟩ "a"], textNode ⟨3, 3⟩ "b"]
    (strip_of_lex lex_sources.2.2.2 rfl) ?_
  simp [readDocument, Node.read, readElement, Head.read, readInline, readOptionalBlock,
    readItems, textRun, TreeContext.textNode, segmentsAt_a, hsegments, tagNode, textNode, bind,
    Except.bind, pure, Except.pure]

end PipedChild

/-- With a tag in the next line, text behind a colon is the child that it is below the tag. -/
theorem expansion_nests_text :
    treeOf {} "p: | a\nb" = treeOf {} "p\n  | a\nb" ∧
      treeOf {} "p: | a\nb" = some
        [PipedChild.tagNode .nowhere "p" [PipedChild.textNode .nowhere "a"],
          PipedChild.tagNode .nowhere "b" []] := by
  have hbehind : Following "\nb".toList (normalize "b".toList) := .lines .nil ⟨nofun, by decide⟩
  have hnested : lex "p\n  | a\nb" = .ok [⟨.tag "p", ⟨1, 1⟩⟩, ⟨.indent 2, ⟨2, 3⟩⟩,
      ⟨.text "a", ⟨2, 5⟩⟩, ⟨.outdent, ⟨3, 1⟩⟩, ⟨.tag "b", ⟨3, 1⟩⟩, ⟨.eos, ⟨3, 2⟩⟩] :=
    eq_ok_of_toOption (by decide +kernel)
  have hmixed (loc : Location) : lex "p\n  | a\nb" ≠ .error ⟨.mixedIndentation, loc⟩ := by
    rw [hnested]
    exact nofun
  have hrest : (lex "b").bind (CommentPolicy.strip {}) = .ok [⟨.tag "b", ⟨1, 1⟩⟩, ⟨.eos, ⟨1, 2⟩⟩] :=
    eq_ok_of_toOption (by decide +kernel)
  have hjoins (kept : List Token)
      (hkept : (lex "b").bind ({} : Options).comments.strip = .ok kept) :
      ¬ Joins [⟨.text "a", ⟨1, 3⟩⟩] kept := by
    cases hrest.symm.trans hkept
    rintro ⟨_, _, _, _, ⟨_, h⟩ | ⟨_, h⟩⟩ <;> cases h
  have hjoined : normalize "p: | a\nb".toList =
      normalize "p".toList ++ ':' :: ' ' :: (normalize "| a".toList ++ "\nb".toList) := rfl
  obtain ⟨hsame, htree⟩ := expansion_nests PipedChild.tagLine PipedChild.constructLine hbehind
    PipedChild.indentation hjoined rfl hmixed hjoins
  have htag : treeOf {} "p" = some [PipedChild.tagNode .nowhere "p" []] :=
    PipedChild.treeOf_name (eq_ok_of_toOption (by decide +kernel))
  exact ⟨hsame, (htree _).mpr ⟨_, _, _, _, htag, PipedChild.treeOf_construct,
    PipedChild.treeOf_name hrest, rfl⟩⟩

/-- With text in the next line, the two lines are one text behind a colon, and two texts where the
first is in a line of its own. -/
theorem expansion_not_nests :
    ¬ ∀ (options : Options) (tag construct rest joined nested : String) (ts xs : List Token)
      (indent behind : List Char), TagLine tag ts → ConstructLine construct xs →
      Following behind (normalize rest.toList) → Indentation indent →
      normalize joined.toList =
        normalize tag.toList ++ ':' :: ' ' :: (normalize construct.toList ++ behind) →
      normalize nested.toList =
        normalize tag.toList ++ '\n' :: (indent ++ (normalize construct.toList ++ behind)) →
      (∀ loc, lex nested ≠ .error ⟨.mixedIndentation, loc⟩) →
        treeOf options joined = treeOf options nested := by
  intro hclaim
  have hbehind : Following "\n| b".toList (normalize "| b".toList) := .lines .nil ⟨nofun, by decide⟩
  have hnested : lex "p\n  | a\n| b" = .ok [⟨.tag "p", ⟨1, 1⟩⟩, ⟨.indent 2, ⟨2, 3⟩⟩,
      ⟨.text "a", ⟨2, 5⟩⟩, ⟨.outdent, ⟨3, 1⟩⟩, ⟨.text "b", ⟨3, 3⟩⟩, ⟨.eos, ⟨3, 4⟩⟩] :=
    eq_ok_of_toOption (by decide +kernel)
  have hmixed (loc : Location) : lex "p\n  | a\n| b" ≠ .error ⟨.mixedIndentation, loc⟩ := by
    rw [hnested]
    exact nofun
  have hsame := hclaim {} "p" "| a" "| b" "p: | a\n| b" "p\n  | a\n| b" _ _ _ _ PipedChild.tagLine
    PipedChild.constructLine hbehind PipedChild.indentation rfl rfl hmixed
  rw [PipedChild.treeOf_joined, PipedChild.treeOf_nested] at hsame
  have hlength := congrArg (Option.map List.length) hsame
  exact absurd hlength (by decide)

end PugTemplate
