import PugTemplate.Lex.Read
import PugTemplate.Proofs.Lex.Block

/-!
# The grammar of token streams

A stream is a row of words, attribute lists, blocks of text and references with their paths, between
which indents and outdents open and close blocks. Text reaches to the end of its line, and a block of
text belongs to the word in front of it. The grammar is stated for the rest of a stream and the widths
of the blocks that are open there; what the lexer reads is a stream (`stream_tokens`).
-/

namespace PugTemplate

namespace TokenKind

/-- A token that may stand anywhere between others; the rest are bound to tokens around them. -/
def isWord : TokenKind → Bool
  | attributesStart | attr _ _ _ | attributesEnd | pipelessStart | pipelessEnd | path _ | inherits
  | includes _ | indent _ | outdent | eos => false
  | _ => true

def isAttribute : TokenKind → Bool
  | attr _ _ _ => true
  | _ => false

/-- A token that a path has to follow. -/
def isReference : TokenKind → Bool
  | inherits | includes _ => true
  | _ => false

/-- The text that a token prints. -/
def printed? : TokenKind → Option String
  | text s | html s => some s
  | _ => none

/-- A token that stands where a line has ended. -/
def endsLine : TokenKind → Bool
  | newline | indent _ | outdent | eos => true
  | _ => false

/-- A word below whose line a block of text may stand. -/
def opensBlock : TokenKind → Bool
  | comment _ _ | codeBlock | filter _ | dot => true
  | _ => false

/-- A word that prints nothing. -/
def isSilent (k : TokenKind) : Bool :=
  k.isWord && k.printed?.isNone

theorem isWord_of_isSilent {k : TokenKind} (h : k.isSilent) : k.isWord :=
  (Bool.and_eq_true_iff.mp h).1

theorem isWord_of_printed? {k : TokenKind} {s : String} (h : k.printed? = some s) : k.isWord := by
  cases k <;> first | rfl | exact nomatch h

theorem isSilent_of_opensBlock {k : TokenKind} (h : k.opensBlock) : k.isSilent := by
  cases k <;> first | rfl | exact nomatch h

end TokenKind

/-- The lines of a block of text, at least one. -/
inductive TextLines : List Token → Prop where
  | last (s : String) (loc : Location) : TextLines [⟨.text s, loc⟩]
  | line (s : String) (loc at_ : Location) {ts : List Token} (h : TextLines ts) :
      TextLines (⟨.text s, loc⟩ :: ⟨.newline, at_⟩ :: ts)

/-- The texts that tokens print. -/
def printedTexts (ts : List Token) : List (List Char) :=
  ts.filterMap fun t => t.kind.printed?.map String.toList

/-- In the column of the first text, some token stands in each line that shows something. -/
def Aligned (lines : List Token) : Prop :=
  ∀ t ∈ lines.head?, ∀ i line, (printedTexts lines)[i]? = some line →
    '\n' ∉ line ∧ (allBlank line = false → ⟨t.loc.line + i, t.loc.column⟩ ∈ lines.map Token.loc)

/-- What is known of the block of text below a word. -/
def TokenKind.TextFits : TokenKind → List Token → Prop
  | .dot, lines => ∀ line ∈ printedTexts lines, Printed line
  | .codeBlock, lines => Aligned lines
  | _, _ => True

/-- Tokens that begin where a line has ended. -/
def EndsLine (ts : List Token) : Prop :=
  ts.head?.any (·.kind.endsLine)

/-- What is left of a stream where blocks of some widths are open, the innermost first. -/
inductive TokenStream : List Nat → List Token → Prop where
  | eos (loc : Location) : TokenStream [] [⟨.eos, loc⟩]
  | word {ws : List Nat} {t : Token} {ts : List Token} (ht : t.kind.isSilent)
      (h : TokenStream ws ts) : TokenStream ws (t :: ts)
  | print {ws : List Nat} {t : Token} {s : String} {ts : List Token} (hs : t.kind.printed? = some s)
      (hp : Printed s.toList) (hne : t.kind ≠ .html "") (he : EndsLine ts)
      (h : TokenStream ws ts) : TokenStream ws (t :: ts)
  /-- A block is deeper than all those around it. -/
  | indent {ws : List Nat} {w : Nat} {loc : Location} {ts : List Token} (hw : ∀ v ∈ 0 :: ws, v < w)
      (h : TokenStream (w :: ws) ts) : TokenStream ws (⟨.indent w, loc⟩ :: ts)
  | outdent {ws : List Nat} {w : Nat} {loc : Location} {ts : List Token}
      (h : TokenStream ws ts) : TokenStream (w :: ws) (⟨.outdent, loc⟩ :: ts)
  | attributes {ws : List Nat} {as ts : List Token} {loc at_ : Location}
      (ha : ∀ a ∈ as, a.kind.isAttribute) (h : TokenStream ws ts) :
      TokenStream ws (⟨.attributesStart, loc⟩ :: (as ++ ⟨.attributesEnd, at_⟩ :: ts))
  | textBlock {ws : List Nat} {t : Token} {lines ts : List Token} {loc at_ : Location}
      (ht : t.kind.opensBlock) (hl : TextLines lines) (hf : t.kind.TextFits lines)
      (h : TokenStream ws ts) :
      TokenStream ws (t :: ⟨.pipelessStart, loc⟩ :: (lines ++ ⟨.pipelessEnd, at_⟩ :: ts))
  /-- Attributes may stand between the name of a filter and its text. -/
  | filterBlock {ws : List Nat} {name : String} {as lines ts : List Token}
      {loc loc₁ loc₂ loc₃ loc₄ : Location} (ha : ∀ a ∈ as, a.kind.isAttribute)
      (hl : TextLines lines) (h : TokenStream ws ts) :
      TokenStream ws (⟨.filter name, loc⟩ :: ⟨.attributesStart, loc₁⟩ ::
        (as ++ ⟨.attributesEnd, loc₂⟩ :: ⟨.pipelessStart, loc₃⟩ ::
          (lines ++ ⟨.pipelessEnd, loc₄⟩ :: ts)))
  | reference {ws : List Nat} {t : Token} {target : String} {loc : Location} {ts : List Token}
      (ht : t.kind.isReference) (h : TokenStream ws ts) :
      TokenStream ws (t :: ⟨.path target, loc⟩ :: ts)

/-- Tokens that may stand in front of any stream that is read on from some place. At the end of a
line, such a stream says that the line has ended. -/
def Phrases (d : Cursor) (first : List Token) : Prop :=
  ∀ ws ts, (d.line = [] → EndsLine ts) → TokenStream ws ts → TokenStream ws (first ++ ts)

variable {d : Cursor}

theorem phrases_nil : Phrases d [] :=
  fun _ _ _ h => h

theorem Phrases.cons_word {t : Token} {more : List Token} (ht : t.kind.isSilent)
    (hm : Phrases d more) : Phrases d (t :: more) :=
  fun ws ts he h => .word ht (hm ws ts he h)

theorem phrases_print {t : Token} {s : String} (hs : t.kind.printed? = some s)
    (hp : Printed s.toList) (hne : t.kind ≠ .html "") (hd : d.line = []) : Phrases d [t] :=
  fun _ _ he h => .print hs hp hne (he hd) h

theorem phrases_attributes {as : List Token} (loc at_ : Location)
    (ha : ∀ a ∈ as, a.kind.isAttribute) :
    Phrases d (⟨.attributesStart, loc⟩ :: (as ++ [⟨.attributesEnd, at_⟩])) := by
  intro ws ts _ h
  rw [List.cons_append, List.append_assoc]
  exact .attributes ha h

theorem phrases_textBlock {t : Token} {lines : List Token} (loc at_ : Location)
    (ht : t.kind.opensBlock) (hl : TextLines lines) (hf : t.kind.TextFits lines) :
    Phrases d (t :: ⟨.pipelessStart, loc⟩ :: (lines ++ [⟨.pipelessEnd, at_⟩])) := by
  intro ws ts _ h
  simp only [List.cons_append, List.append_assoc]
  exact .textBlock ht hl hf h

theorem phrases_filterBlock {name : String} {as lines : List Token}
    (loc loc₁ loc₂ loc₃ loc₄ : Location) (ha : ∀ a ∈ as, a.kind.isAttribute)
    (hl : TextLines lines) :
    Phrases d (⟨.filter name, loc⟩ :: ⟨.attributesStart, loc₁⟩ :: (as ++ [⟨.attributesEnd, loc₂⟩]) ++
      ⟨.pipelessStart, loc₃⟩ :: (lines ++ [⟨.pipelessEnd, loc₄⟩])) := by
  intro ws ts _ h
  simp only [List.cons_append, List.append_assoc]
  exact .filterBlock ha hl h

/-! ## Groups of tokens -/

theorem Attribute.isAttribute_of_readList {c : Cursor} {tokens : List Token}
    (h : Attribute.readList c = .ok tokens) : ∀ t ∈ tokens, t.kind.isAttribute := by
  -- every round of the list adds one attribute, with or without a value
  fun_induction Attribute.readList c generalizing tokens
  case case1 =>
    cases h
    exact fun t ht => absurd ht List.not_mem_nil
  case case4 ih | case7 ih =>
    obtain ⟨more, hmore, h⟩ := of_bind_eq_ok h
    cases h
    exact List.forall_mem_cons.mpr ⟨rfl, ih hmore⟩
  case case2 | case3 | case5 | case6 => exact nomatch h

namespace Pipeless

theorem lineTokens_cases {check first : Bool} {base : Nat} {c : Cursor} {line : List Char}
    {lines : List (List Char)} {tokens : List Token}
    (h : lineTokens check base first c (line :: lines) = .ok tokens) :
    ∃ more, lineTokens check base false ((c.skip 1).skip line.length) lines = .ok more ∧
      (check → checkMarkers (shownAt base c line).loc (shownText base line) = .ok ()) ∧
      tokens = (if first then [] else [⟨.newline, (c.skip 1).loc⟩]) ++
        ⟨.text (String.ofList (shownText base line)), (shownAt base c line).loc⟩ :: more := by
  rw [lineTokens_cons] at h
  dsimp only at h
  split at h
  next hcheck =>
    obtain ⟨⟨⟩, hmarkers, h⟩ := of_bind_eq_ok h
    obtain ⟨more, hmore, h⟩ := of_bind_eq_ok h
    cases h
    exact ⟨more, hmore, fun _ => hmarkers, by cases first <;> rfl⟩
  next hcheck =>
    obtain ⟨more, hmore, h⟩ := of_bind_eq_ok h
    cases h
    exact ⟨more, hmore, fun h => absurd h hcheck, by cases first <;> rfl⟩

/-- Each line but the first has a line end in front. -/
theorem textLines_lineTokens {check first : Bool} {base : Nat} {c : Cursor}
    {line : List Char} {lines : List (List Char)} {tokens : List Token}
    (h : lineTokens check base first c (line :: lines) = .ok tokens) :
    ∃ ts, TextLines ts ∧
      tokens = (if first then [] else [⟨.newline, (c.skip 1).loc⟩]) ++ ts := by
  induction lines generalizing first c line tokens with
  | nil =>
    obtain ⟨more, hmore, -, rfl⟩ := lineTokens_cases h
    cases hmore
    exact ⟨_, .last _ _, rfl⟩
  | cons next lines ih =>
    obtain ⟨more, hmore, -, rfl⟩ := lineTokens_cases h
    obtain ⟨ts, hts, rfl⟩ := ih hmore
    exact ⟨_, .line _ _ _ hts, rfl⟩

/-- The tokens of a block print what its lines show. -/
theorem printedTexts_lineTokens {check first : Bool} {base : Nat} {c : Cursor}
    {lines : List (List Char)} {tokens : List Token}
    (h : lineTokens check base first c lines = .ok tokens) :
    printedTexts tokens = lines.map (shownText base) := by
  induction lines generalizing first c tokens with
  | nil =>
    cases h
    rfl
  | cons line lines ih =>
    obtain ⟨more, hmore, -, rfl⟩ := lineTokens_cases h
    rw [List.map_cons, ← ih hmore]
    cases first <;> simp [printedTexts, TokenKind.printed?]

theorem printed_of_checkMarkers {loc : Location} {text : List Char} (hfeed : '\n' ∉ text)
    (h : checkMarkers loc text = .ok ()) : Printed text := by
  unfold checkMarkers at h
  split at h
  · exact nomatch h
  next hb => exact ⟨hfeed, 0, hb⟩

theorem printed_lineTokens {first : Bool} {base : Nat} {c : Cursor} {lines : List (List Char)}
    {tokens : List Token} (hl : Below base c lines)
    (h : lineTokens true base first c lines = .ok tokens) :
    ∀ text ∈ printedTexts tokens, Printed text := by
  rw [printedTexts_lineTokens h, List.forall_mem_map]
  induction lines generalizing first c tokens with
  | nil => exact fun line hm => absurd hm List.not_mem_nil
  | cons line lines ih =>
    obtain ⟨more, hmore, hcheck, -⟩ := lineTokens_cases h
    refine List.forall_mem_cons.mpr ⟨?_, ih hl.next hmore⟩
    exact printed_of_checkMarkers (hl.feed_notMem_shownText List.mem_cons_self) (hcheck rfl)

/-- Where the tokens of a line stand: its text, and the line end in front of it. -/
theorem mem_lineTokens {check first : Bool} {base i : Nat} {c : Cursor} {line : List Char}
    {lines : List (List Char)} {tokens : List Token} (hl : Below base c lines)
    (h : lineTokens check base first c lines = .ok tokens) (hi : lines[i]? = some line) :
    ⟨c.loc.line + 1 + i, 1 + if allBlank line then 0 else base⟩ ∈ tokens.map Token.loc ∧
      (first = false ∨ 0 < i → ⟨c.loc.line + 1 + i, 1⟩ ∈ tokens.map Token.loc) := by
  induction lines generalizing first c tokens i with
  | nil => exact nomatch hi
  | cons head lines ih =>
    obtain ⟨more, hmore, -, rfl⟩ := lineTokens_cases h
    cases i with
    | zero =>
      cases hi
      refine ⟨?_, fun hf => ?_⟩
      · simp [hl.loc_shownAt]
      · obtain rfl : first = false := hf.resolve_right (Nat.lt_irrefl 0)
        simp [hl.loc_skip]
    | succ i =>
      obtain ⟨htext, hend⟩ := ih hl.next hmore hi
      rw [hl.line_next, Nat.add_assoc (c.loc.line + 1), Nat.add_comm 1 i] at htext hend
      refine ⟨?_, fun _ => ?_⟩
      · rw [List.map_append, List.map_cons]
        exact List.mem_append_right _ (List.mem_cons_of_mem _ htext)
      · rw [List.map_append, List.map_cons]
        exact List.mem_append_right _ (List.mem_cons_of_mem _ (hend (.inl rfl)))

theorem aligned_lineTokens {check : Bool} {base : Nat} {c : Cursor} {lines : List (List Char)}
    {tokens : List Token} (hl : Below base c lines)
    (h : lineTokens check base true c lines = .ok tokens) : Aligned tokens := by
  intro t ht i text hi
  rw [printedTexts_lineTokens h, List.getElem?_map, Option.map_eq_some_iff] at hi
  obtain ⟨line, hi, rfl⟩ := hi
  obtain ⟨htext, hend⟩ := mem_lineTokens hl h hi
  refine ⟨hl.feed_notMem_shownText (List.mem_of_getElem? hi), fun hb => ?_⟩
  have hline : ¬ allBlank line := by
    intro hb'
    rw [shownText, if_pos hb'] at hb
    cases hb
  rw [if_neg hline] at htext
  cases lines with
  | nil => cases hi
  | cons head lines =>
    obtain ⟨more, -, -, heq⟩ := lineTokens_cases h
    rw [heq] at ht
    obtain rfl := Option.some.inj ht
    dsimp only
    rw [hl.loc_shownAt]
    by_cases hhead : allBlank head
    -- under a blank line, the column is that of the line ends
    · rw [if_pos hhead]
      have hi' : 0 < i := by
        refine Nat.pos_of_ne_zero fun hzero => ?_
        subst hzero
        cases hi
        exact hline hhead
      exact hend (.inr hi')
    · rw [if_neg hhead]
      exact htext

/-- There is no block below, or one of at least one line. -/
theorem read_cases {check : Bool} {width : Nat} {c d : Cursor} {tokens : List Token}
    (h : read check width c = .ok (tokens, d)) :
    (tokens = [] ∧ d = c) ∨ ∃ lines loc at_,
      tokens = ⟨.pipelessStart, loc⟩ :: (lines ++ [⟨.pipelessEnd, at_⟩]) ∧ TextLines lines ∧
        Aligned lines ∧ (check → ∀ text ∈ printedTexts lines, Printed text) := by
  unfold read at h
  dsimp only at h
  split at h
  next =>
    cases h
    exact .inl ⟨rfl, rfl⟩
  next hne =>
    have hl := below_read width c
    obtain ⟨ts, hts, h⟩ := of_bind_eq_ok h
    cases h
    refine .inr ⟨ts, _, _, rfl, ?_, aligned_lineTokens hl hts, ?_⟩
    · obtain ⟨line, lines, hlines⟩ := List.exists_cons_of_ne_nil hne
      rw [hlines] at hts
      obtain ⟨ts', htext, rfl⟩ := textLines_lineTokens hts
      exact htext
    · rintro rfl
      exact printed_lineTokens hl hts

end Pipeless

/-! ## What the rules read -/

namespace Rule

/-- A reading whose tokens may stand in front of any stream read on from there. -/
def Phrased (r : Reading) : Prop :=
  ∀ tokens d, r = .ok (tokens, d) → Phrases d tokens

theorem phrased_error (e : LexError) : Phrased (.error e) :=
  fun _ _ h => nomatch h

theorem phrased_refuse (cause : LexCause) (loc : Location) : Phrased (refuse cause loc) :=
  phrased_error _

theorem phrased_emit {kind : TokenKind} (loc : Location) (next : Cursor) (hk : kind.isSilent) :
    Phrased (emit kind loc next) := by
  intro tokens d h
  cases h
  exact phrases_nil.cons_word hk

/-- Text is read to the end of its line. -/
theorem phrased_restAsText {kind : String → TokenKind} (c : Cursor)
    (hk : ∀ s, (kind s).printed? = some s) (hne : kind (String.ofList c.line) ≠ .html "") :
    Phrased (restAsText kind c) := by
  unfold restAsText
  split
  next hm =>
    intro tokens d h
    cases h
    have hp := Pipeless.printed_of_checkMarkers (feed_notMem_lineOf c.rest) hm
    exact phrases_print (hk _) (by rwa [String.toList_ofList]) hne (lineOf_drop c.rest)
  next => exact phrased_error _

theorem phrased_withPipeless {check : Bool} {width : Nat} {first : Token} (c : Cursor)
    (ho : first.kind.opensBlock)
    (hf : ∀ lines, Aligned lines → (check → ∀ text ∈ printedTexts lines, Printed text) →
      first.kind.TextFits lines) : Phrased (withPipeless check width first c) := by
  unfold withPipeless
  split
  next more e hp =>
    intro tokens d h
    cases h
    obtain ⟨rfl, -⟩ | ⟨lines, loc, at_, rfl, hl, ha, hc⟩ := Pipeless.read_cases hp
    · exact phrases_nil.cons_word (TokenKind.isSilent_of_opensBlock ho)
    · exact phrases_textBlock loc at_ ho hl (hf lines ha hc)
  next => exact phrased_error _

theorem attributeList_cases {c d : Cursor} {tokens : List Token}
    (h : attributeList c = .ok (tokens, d)) :
    ∃ as loc at_, tokens = ⟨.attributesStart, loc⟩ :: (as ++ [⟨.attributesEnd, at_⟩]) ∧
      ∀ a ∈ as, a.kind.isAttribute := by
  unfold attributeList at h
  split at h
  next => exact nomatch h
  next =>
    split at h
    next => exact nomatch h
    next as ha =>
      cases h
      exact ⟨as, _, _, rfl, Attribute.isAttribute_of_readList ha⟩

theorem phrased_attributeList (c : Cursor) : Phrased (attributeList c) := by
  intro tokens d h
  obtain ⟨as, loc, at_, rfl, ha⟩ := attributeList_cases h
  exact phrases_attributes loc at_ ha

/-- A filter, with its attributes or not, stands alone or in front of a block of text. -/
theorem phrased_filterBody {width : Nat} {first : List Token} (c : Cursor)
    (hf : ∀ d, Phrases d first)
    (hb : ∀ d lines loc at_, TextLines lines →
      Phrases d (first ++ ⟨.pipelessStart, loc⟩ :: (lines ++ [⟨.pipelessEnd, at_⟩]))) :
    Phrased (filterBody width first c) := by
  unfold filterBody
  split
  next =>
    split
    next more e hp =>
      intro tokens d h
      cases h
      obtain ⟨rfl, -⟩ | ⟨lines, loc, at_, rfl, hl, -, -⟩ := Pipeless.read_cases hp
      · rw [List.append_nil]
        exact hf _
      · exact hb _ lines loc at_ hl
    next => exact phrased_error _
  next =>
    intro tokens d h
    cases h
    exact hf _

theorem phrased_path {first : Token} (missing : LexCause) (c : Cursor)
    (hf : first.kind.isReference) : Phrased (path first missing c) := by
  unfold path
  dsimp only
  split
  next => exact phrased_refuse _ _
  next =>
    intro tokens d h
    cases h
    exact fun ws ts _ h => .reference hf h

theorem phrased_namedBlock (loc : Location) (mode : BlockMode) (c : Cursor) :
    Phrased (namedBlock loc mode c) :=
  phrased_emit _ _ rfl

/-- Whatever the rule reads may stand in front of any stream. -/
def Speaks (r : Rule) : Prop :=
  ∀ width c reading, r width c = some reading → Phrased reading

theorem speaks_of_map {α : Type} {look : Nat → Cursor → Option α} {f : Nat → Cursor → α → Reading}
    (h : ∀ width c d, Phrased (f width c d)) :
    Speaks fun width c => (look width c).map (f width c) := by
  intro width c reading hr
  obtain ⟨d, -, rfl⟩ := Option.map_eq_some_iff.mp hr
  exact h width c d

theorem speaks_of_ite {test : Nat → Cursor → Bool} {f : Nat → Cursor → Reading}
    (h : ∀ width c, test width c → Phrased (f width c)) :
    Speaks fun width c => if test width c then some (f width c) else none := by
  intro width c reading hr
  dsimp only at hr
  split at hr
  next ht => exact Option.some.inj hr ▸ h width c ht
  next => exact nomatch hr

/-! ### Rules that begin with a keyword -/

theorem speaks_yieldWord : yieldWord.Speaks :=
  speaks_of_map fun _ _ _ => phrased_emit _ _ rfl

theorem speaks_defaultWord : defaultWord.Speaks :=
  speaks_of_map fun _ _ _ => phrased_emit _ _ rfl

theorem speaks_doctype : doctype.Speaks :=
  speaks_of_map fun _ _ _ => phrased_emit _ _ rfl

theorem speaks_expression (keyword : ExprKeyword) {kind : String → TokenKind}
    (hk : ∀ s, (kind s).isSilent) : (expression keyword kind).Speaks := by
  refine speaks_of_map fun width c d => ?_
  split
  · exact phrased_refuse _ _
  · exact phrased_emit _ _ (hk _)

theorem speaks_when : when.Speaks := by
  refine speaks_of_map fun width c d => ?_
  dsimp only
  split
  · exact phrased_error _
  · split
    · exact phrased_refuse _ _
    · exact phrased_emit _ _ rfl

theorem speaks_otherwise : otherwise.Speaks := by
  refine speaks_of_map fun width c d => ?_
  dsimp only
  split
  · split
    · exact phrased_refuse _ _
    · exact phrased_emit _ _ rfl
  · split
    · exact phrased_emit _ _ rfl
    · exact phrased_emit _ _ rfl

theorem isSilent_of_eachKind {keyword : ExprKeyword} {body : List Char} {kind : TokenKind}
    (h : eachKind keyword body = .ok kind) : kind.isSilent := by
  unfold eachKind at h
  grind [TokenKind.isSilent, TokenKind.isWord, TokenKind.printed?]

theorem speaks_eachWith (keyword : ExprKeyword) : (eachWith keyword).Speaks := by
  refine speaks_of_map fun width c d => ?_
  split
  · exact phrased_refuse _ _
  · split
    next kind hk => exact phrased_emit _ _ (isSilent_of_eachKind hk)
    next => exact phrased_refuse _ _

theorem speaks_inherits : inherits.Speaks :=
  speaks_of_map fun _ _ d => phrased_path _ d rfl

theorem speaks_includes : includes.Speaks := by
  refine speaks_of_map fun width c d => ?_
  split
  · exact phrased_path _ _ rfl
  · exact phrased_path _ _ rfl

theorem speaks_block : block.Speaks := by
  intro width c reading h
  unfold block at h
  split at h
  next mode d hm =>
    cases h
    exact phrased_namedBlock _ _ _
  next =>
    obtain ⟨d, -, rfl⟩ := Option.map_eq_some_iff.mp h
    split
    · exact phrased_emit _ _ rfl
    · split
      · exact phrased_namedBlock _ _ _
      · exact phrased_namedBlock _ _ _

theorem speaks_mixin : mixin.Speaks := by
  refine speaks_of_map fun width c d => ?_
  dsimp only
  split
  · exact phrased_refuse _ _
  · split
    · split
      · exact phrased_error _
      · exact phrased_emit _ _ rfl
    · exact phrased_emit _ _ rfl

theorem speaks_spread : spread.Speaks := by
  refine speaks_of_map fun width c d => ?_
  split
  · split
    · exact phrased_error _
    · exact phrased_emit _ _ rfl
  · exact phrased_refuse _ _

/-! ### Rules that begin with a mark -/

theorem speaks_interpolation : interpolation.Speaks := by
  intro width c reading h
  unfold interpolation at h
  split at h
  · split at h
    · exact Option.some.inj h ▸ phrased_error _
    · exact Option.some.inj h ▸ phrased_emit _ _ rfl
  · exact nomatch h

theorem speaks_tag : tag.Speaks :=
  speaks_of_ite fun _ _ _ => phrased_emit _ _ rfl

theorem speaks_id : id.Speaks := by
  intro width c reading h
  unfold id at h
  split at h
  · exact Option.some.inj h ▸ phrased_restAsText c (fun _ => rfl) nofun
  · split at h
    · dsimp only at h
      split at h
      · exact Option.some.inj h ▸ phrased_emit _ _ rfl
      · exact Option.some.inj h ▸ phrased_refuse _ _
    · exact nomatch h

theorem speaks_className : className.Speaks := by
  intro width c reading h
  unfold className at h
  split at h
  · dsimp only at h
    split at h
    · exact Option.some.inj h ▸ phrased_emit _ _ rfl
    · exact Option.some.inj h ▸ phrased_refuse _ _
  · exact nomatch h

theorem speaks_attributes : attributes.Speaks :=
  speaks_of_ite fun _ c _ => phrased_attributeList c

theorem speaks_dot : dot.Speaks :=
  speaks_of_ite fun _ c _ => phrased_withPipeless c.skipLine rfl fun _ _ hc => hc rfl

theorem speaks_slash : slash.Speaks :=
  speaks_of_ite fun _ _ _ => phrased_emit _ _ rfl

theorem speaks_colon : colon.Speaks :=
  speaks_of_ite fun _ _ _ => phrased_emit _ _ rfl

theorem speaks_call : call.Speaks := by
  intro width c reading h
  unfold call at h
  split at h
  · split at h
    · exact Option.some.inj h ▸ phrased_error _
    · dsimp only at h
      split at h
      · split at h
        · exact Option.some.inj h ▸ phrased_error _
        · split at h
          · exact Option.some.inj h ▸ phrased_emit _ _ rfl
          · exact Option.some.inj h ▸ phrased_emit _ _ rfl
      · exact Option.some.inj h ▸ phrased_emit _ _ rfl
  · exact nomatch h

theorem speaks_filter : filter.Speaks := by
  intro width c reading h
  unfold filter at h
  dsimp only at h
  split at h
  · split at h
    · split at h
      · exact Option.some.inj h ▸ phrased_error _
      next tokens e he =>
        obtain ⟨as, loc, at_, rfl, ha⟩ := attributeList_cases he
        refine Option.some.inj h ▸ phrased_filterBody e (fun _ => ?_) fun _ lines loc' at' hl => ?_
        · exact (phrases_attributes loc at_ ha).cons_word rfl
        · exact phrases_filterBlock _ loc at_ loc' at' ha hl
    · refine Option.some.inj h ▸ phrased_filterBody _ (fun _ => phrases_nil.cons_word rfl) ?_
      exact fun _ lines loc at_ hl => phrases_textBlock loc at_ rfl hl trivial
  · exact nomatch h

theorem speaks_codeBlock : codeBlock.Speaks :=
  speaks_of_ite fun _ c _ => phrased_withPipeless c.skipLine rfl fun _ ha _ => ha

theorem phrased_codeWith (flag : String) (buffered escape : Bool) (c : Cursor) :
    Phrased (codeWith flag buffered escape c) := by
  unfold codeWith
  dsimp only
  split
  · exact phrased_refuse _ _
  · exact phrased_emit _ _ rfl

theorem speaks_code : code.Speaks := by
  intro width c reading h
  unfold code at h
  split at h
  · exact Option.some.inj h ▸ phrased_codeWith _ _ _ c
  · split at h
    · exact Option.some.inj h ▸ phrased_codeWith _ _ _ c
    · split at h
      · exact Option.some.inj h ▸ phrased_codeWith _ _ _ c
      · exact nomatch h

theorem speaks_text : text.Speaks := by
  intro width c reading h
  unfold text at h
  dsimp only at h
  split at h
  · exact Option.some.inj h ▸ phrased_restAsText _ (fun _ => rfl) nofun
  · split at h
    · split at h
      -- blanks at the end of a line leave no token
      · cases h
        intro tokens d h
        cases h
        exact phrases_nil
      · exact Option.some.inj h ▸ phrased_restAsText _ (fun _ => rfl) nofun
    · exact nomatch h

/-- A line of markup begins with its mark, so it is not empty. -/
theorem speaks_html : html.Speaks := by
  refine speaks_of_ite fun _ c hs => phrased_restAsText c (fun _ => rfl) fun heq => ?_
  obtain ⟨cs, hcs⟩ := Cursor.rest_of_startsWith (a := '<') rfl hs
  have hline : c.line ≠ [] := by simp [Cursor.line, lineOf, hcs]
  exact hline (String.ofList_eq_empty_iff.mp (TokenKind.html.inj heq))

theorem speaks_comment : comment.Speaks :=
  speaks_of_ite fun _ _ _ => phrased_withPipeless _ rfl fun _ _ _ => trivial

/-! ### All rules -/

theorem all_speak : ∀ r ∈ all, r.Speaks := by
  simp only [all, List.forall_mem_cons, List.not_mem_nil, false_imp_iff, implies_true, and_true]
  exact ⟨speaks_yieldWord, speaks_doctype, speaks_interpolation, speaks_expression _ fun _ => rfl,
    speaks_when, speaks_defaultWord, speaks_inherits, speaks_block, speaks_includes, speaks_mixin,
    speaks_call, speaks_otherwise, speaks_expression _ fun _ => rfl,
    speaks_expression _ fun _ => rfl, speaks_eachWith _, speaks_eachWith _,
    speaks_expression _ fun _ => rfl, speaks_tag, speaks_filter, speaks_codeBlock, speaks_code,
    speaks_id, speaks_dot, speaks_className, speaks_attributes, speaks_spread, speaks_text,
    speaks_html, speaks_comment, speaks_slash, speaks_colon⟩

theorem phrases_of_read {width : Nat} {c d : Cursor} {tokens : List Token}
    (h : read width c = .ok (tokens, d)) : Phrases d tokens := by
  unfold read at h
  cases hf : first all width c with
  | none =>
    rw [hf] at h
    exact absurd h refuse_ne_ok
  | some reading =>
    rw [hf] at h
    obtain ⟨r, hr, hc⟩ := List.exists_of_findSome?_eq_some hf
    exact all_speak r hr width c reading hc tokens d h

end Rule

/-! ## Indentation -/

namespace Layout

/-- Each open block is deeper than the one around it, and the outermost than the source. -/
def Nested (l : Layout) : Prop :=
  (l.widths ++ [0]).Pairwise (· > ·)

theorem nested_empty : empty.Nested :=
  List.pairwise_singleton _ _

theorem Nested.le_width {l : Layout} (hl : l.Nested) : ∀ v ∈ 0 :: l.widths, v ≤ l.width := by
  obtain ⟨widths, mark⟩ := l
  cases widths with
  | nil => simp [width]
  | cons w ws =>
    intro v hv
    have hlt := (List.pairwise_cons.mp hl).1
    show v ≤ w
    rcases List.mem_cons.mp hv with rfl | hv
    · exact Nat.zero_le w
    rcases List.mem_cons.mp hv with rfl | hv
    · exact Nat.le_refl v
    · exact Nat.le_of_lt (hlt v (List.mem_append_left _ hv))

/-- All that can stand in front of a line: the start of a block, a line end, or ends of blocks. -/
theorem settle_cases {l m : Layout} {width : Nat} {loc : Location} {tokens : List Token}
    (h : l.settle width loc = .ok (tokens, m)) :
    (l.width < width ∧ tokens = [⟨.indent width, loc⟩] ∧ m = { l with widths := width :: l.widths }) ∨
    (width = l.width ∧ tokens = [⟨.newline, loc⟩] ∧ m = l) ∨
    (width < l.width ∧ m.width = width ∧ m.mark = l.mark ∧ ∃ closed, tokens = outdents closed loc ∧
      l.widths = closed ++ m.widths ∧ ∀ v ∈ closed, width < v) := by
  unfold settle at h
  split at h
  next hlt =>
    cases h
    exact Or.inl ⟨hlt, rfl, rfl⟩
  next hle =>
    split at h
    next heq =>
      cases h
      exact Or.inr (Or.inl ⟨heq, rfl, rfl⟩)
    next hne =>
      dsimp only at h
      split at h
      next hkept =>
        cases h
        refine Or.inr (Or.inr ⟨by omega, hkept, rfl, l.widths.takeWhile (width < ·), rfl, ?_, ?_⟩)
        · exact (List.prefix_iff_eq_append.mp (List.takeWhile_prefix _)).symm
        · intro v hv
          exact of_decide_eq_true (List.all_eq_true.mp List.all_takeWhile v hv)
      next => exact nomatch h

theorem stream_outdents (closed : List Nat) {ws : List Nat} {ts : List Token} (loc : Location)
    (h : TokenStream ws ts) : TokenStream (closed ++ ws) (outdents closed loc ++ ts) := by
  induction closed with
  | nil => exact h
  | cons w closed ih => exact .outdent ih

theorem stream_finish (l : Layout) (loc : Location) : TokenStream l.widths (l.finish loc) := by
  have h := stream_outdents l.widths loc (.eos loc)
  rwa [List.append_nil] at h

theorem endsLine_finish (l : Layout) (loc : Location) : EndsLine (l.finish loc) := by
  unfold finish
  cases l.widths <;> rfl

/-- What stands in front of a line ends the line before. -/
theorem endsLine_settle {l m : Layout} {width : Nat} {loc : Location} {tokens : List Token}
    (h : l.settle width loc = .ok (tokens, m)) (ts : List Token) : EndsLine (tokens ++ ts) := by
  obtain ⟨-, rfl, rfl⟩ | ⟨-, rfl, rfl⟩ | ⟨hlt, hm, -, closed, rfl, hw, -⟩ := settle_cases h
  · rfl
  · rfl
  · cases closed with
    | nil =>
      have heq : l.width = m.width := congrArg (List.headD · 0) hw
      omega
    | cons w closed => rfl

theorem stream_settle {l m : Layout} {width : Nat} {loc : Location} {tokens : List Token}
    (hl : l.Nested) (h : l.settle width loc = .ok (tokens, m)) :
    m.Nested ∧ ∀ ts, TokenStream m.widths ts → TokenStream l.widths (tokens ++ ts) := by
  obtain ⟨hlt, rfl, rfl⟩ | ⟨-, rfl, rfl⟩ | ⟨-, -, -, closed, rfl, hw, -⟩ := settle_cases h
  · have hdeeper : ∀ v ∈ 0 :: l.widths, v < width :=
      fun v hv => Nat.lt_of_le_of_lt (hl.le_width v hv) hlt
    refine ⟨List.pairwise_cons.mpr ⟨fun v hv => ?_, hl⟩, fun ts h => .indent hdeeper h⟩
    exact hdeeper v (by simpa [or_comm] using hv)
  · exact ⟨hl, fun ts h => .word rfl h⟩
  · rw [Nested, hw, List.append_assoc] at hl
    exact ⟨(List.pairwise_append.mp hl).2.1, fun ts h => hw ▸ stream_outdents closed loc h⟩

/-- At the end of a line the source ends, or the next line is settled. -/
theorem newline_cases {l m : Layout} {c d : Cursor} {tokens : List Token}
    (h : newline l c = .ok (tokens, m, d)) :
    (tokens = [] ∧ m = l ∧ d.rest = []) ∨
      ∃ mark width loc, settle { l with mark } width loc = .ok (tokens, m) := by
  unfold newline at h
  dsimp only at h
  split at h
  next hd =>
    cases h
    exact .inl ⟨rfl, rfl, hd⟩
  next =>
    split at h
    next => exact nomatch h
    next =>
      split at h
      next hs =>
        cases h
        exact .inr ⟨_, _, _, hs⟩
      next => exact nomatch h

theorem stream_newline {l m : Layout} {c d : Cursor} {tokens : List Token}
    (hl : l.Nested) (h : newline l c = .ok (tokens, m, d)) :
    m.Nested ∧ ∀ ts, TokenStream m.widths ts → TokenStream l.widths (tokens ++ ts) := by
  obtain ⟨rfl, rfl, -⟩ | ⟨mark, width, loc, hs⟩ := newline_cases h
  · exact ⟨hl, fun ts h => h⟩
  · exact stream_settle (l := { l with mark }) hl hs

theorem startsWith_feed {c : Cursor} (hc : c.line = []) (hne : c.rest ≠ []) :
    c.startsWith "\n" := by
  obtain ⟨x, cs, hcs⟩ := List.exists_cons_of_ne_nil hne
  have hx : x = '\n' := Decidable.byContradiction fun hx => by
    simp [Cursor.line, lineOf, hcs, hx] at hc
  simp [Cursor.startsWith, hcs, hx]

/-- What is read from the end of a line says that the line has ended. -/
theorem endsLine_tokens {l : Layout} {c : Cursor} {ts : List Token} (hc : c.line = [])
    (h : l.tokens c = .ok ts) : EndsLine ts := by
  have hfinish {l : Layout} {c : Cursor} {ts : List Token} (hc : c.rest = [])
      (h : l.tokens c = .ok ts) : EndsLine ts := by
    rw [tokens, if_pos hc] at h
    cases h
    exact endsLine_finish l c.loc
  by_cases hne : c.rest = []
  · exact hfinish hne h
  rw [tokens, if_neg hne] at h
  split at h
  next => cases h
  next first m d hs =>
    rw [step, if_pos (startsWith_feed hc hne)] at hs
    split at h
    next => cases h
    next more hmore =>
      cases h
      obtain ⟨rfl, rfl, hd⟩ | ⟨mark, width, loc, hs⟩ := newline_cases hs
      · exact hfinish hd hmore
      · exact endsLine_settle hs more

theorem stream_step {l m : Layout} {c d : Cursor} {tokens : List Token}
    (hl : l.Nested) (h : step l c = .ok (tokens, m, d)) :
    m.Nested ∧ ∀ ts, (d.line = [] → EndsLine ts) → TokenStream m.widths ts →
      TokenStream l.widths (tokens ++ ts) := by
  unfold step at h
  split at h
  next =>
    obtain ⟨hm, hfirst⟩ := stream_newline hl h
    exact ⟨hm, fun ts _ => hfirst ts⟩
  next =>
    split at h
    next tokens' d' hr =>
      cases h
      exact ⟨hl, Rule.phrases_of_read hr l.widths⟩
    next => exact nomatch h

/-- What is read with blocks of some widths open is what is left of a stream there. -/
theorem stream_tokens {l : Layout} {c : Cursor} {tokens : List Token} (hl : l.Nested)
    (h : l.tokens c = .ok tokens) : TokenStream l.widths tokens := by
  fun_induction Layout.tokens l c generalizing tokens with
  | case1 l c hc =>
    cases h
    exact stream_finish l c.loc
  | case2 => exact nomatch h
  | case3 => exact nomatch h
  | case4 l c hc first m d hs more hm ih =>
    cases h
    obtain ⟨hm', hfirst⟩ := stream_step hl hs
    exact hfirst more (fun hd => endsLine_tokens hd hm) (ih hm' hm)

end Layout

end PugTemplate
