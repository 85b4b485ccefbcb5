import PugTemplate.Proofs.Lex.AttributeList
import PugTemplate.Proofs.Lex.Pass
import PugTemplate.Proofs.Lex.TextBlock
import PugTemplate.Proofs.Render.Merge
import PugTemplate.Proofs.Template.Literal

/-!
# A block of text as it is written

The lines below a tag that ends in a dot are its text. What they have in common is taken off, and all
else that they show is on the page: the rest of their indentation, blank lines between them, and
whatever would be markup or code elsewhere. Main statement: `text_block_verbatim`.
-/

namespace PugTemplate

/-! ## Text without markers -/

namespace Piece

/-- No marker stands in a text, not even behind a backslash. -/
def Unmarked (cs : List Char) : Prop :=
  ∀ m ∈ markers, ¬ m <:+: cs

instance (cs : List Char) : Decidable (Unmarked cs) :=
  inferInstanceAs (Decidable (∀ m ∈ markers, ¬ m <:+: cs))

theorem Unmarked.of_part {cs ds : List Char} (h : Unmarked cs) (hin : ds <:+: cs) : Unmarked ds :=
  fun m hm h' => h m hm (h'.trans hin)

theorem Unmarked.marker? {cs : List Char} (h : Unmarked cs) : marker? cs = none := by
  cases hm : Piece.marker? cs with
  | none => rfl
  | some r =>
    obtain ⟨a, b, rest, rfl, hab⟩ := marker?_eq_some hm
    exact absurd ⟨[], rest, rfl⟩ (h _ hab)

theorem split_unmarked {cs : List Char} (h : Unmarked cs) (offset : Nat) :
    split offset cs = literalPieces cs := by
  induction cs generalizing offset with
  | nil => rw [split, literalPieces, if_pos rfl]
  | cons c cs ih =>
    have hcs : Unmarked cs := h.of_part (List.suffix_cons c cs).isInfix
    have hslash : ¬ (c = '\\' ∧ (Piece.marker? cs).isSome) := by
      rw [hcs.marker?]
      simp
    rw [split, if_neg hslash, h.marker?]
    dsimp only
    rw [ih hcs, prependLiteral_literalPieces (List.cons_ne_nil _ _)]
    rfl

theorem firstBroken?_unmarked {cs : List Char} (h : Unmarked cs) :
    firstBroken? (split 0 cs) = none := by
  rw [split_unmarked h, literalPieces]
  split <;> rfl

theorem infix_of_append_cons {α : Type} {m as bs : List α} {x : α} (hx : x ∉ m)
    (h : m <:+: as ++ x :: bs) : m <:+: as ∨ m <:+: bs := by
  obtain ⟨s, t, hst⟩ := h
  obtain ⟨more, has, -⟩ | ⟨extra, hextra, hbs⟩ := List.append_eq_append_iff.mp hst
  · exact .inl ⟨s, more, has.symm⟩
  obtain ⟨rfl, -⟩ | ⟨extra, rfl, rfl⟩ := List.cons_eq_append_iff.mp hbs
  · rw [List.append_nil] at hextra
    exact .inl ⟨s, [], by rw [List.append_nil, hextra]⟩
  obtain ⟨front, -, rfl⟩ | ⟨front, -, hfront⟩ := List.append_eq_append_iff.mp hextra
  · simp at hx
  obtain ⟨-, rfl⟩ | ⟨front, -, rfl⟩ := List.cons_eq_append_iff.mp hfront
  · simp at hx
  · exact .inr ⟨front, t, rfl⟩

/-- No marker reaches over a line end. -/
theorem unmarked_intercalate {texts : List (List Char)} (h : ∀ text ∈ texts, Unmarked text) :
    Unmarked (['\n'].intercalate texts) := by
  induction texts with
  | nil => decide
  | cons text texts ih =>
    rw [List.forall_mem_cons] at h
    cases texts with
    | nil => simpa using h.1
    | cons next texts =>
      intro m hm hin
      have hfeed : ∀ m ∈ markers, '\n' ∉ m := by decide
      rw [List.intercalate_cons_cons, List.append_assoc, List.singleton_append] at hin
      exact (infix_of_append_cons (hfeed m hm) hin).elim (h.1 m hm) (ih h.2 m hm)

end Piece

/-! ## The source and the page -/

namespace TextBlock

/-- A line of a block as it is written: behind some spaces, unless it is blank. -/
def indented (k : Nat) (line : List Char) : List Char :=
  if allBlank line then line else List.replicate k ' ' ++ line

/-- What a line shows: nothing if it is blank. -/
def shown (line : List Char) : List Char :=
  if allBlank line then [] else line

/-- A source of one tag whose text is given by the lines below it. -/
def source (k : Nat) (lines : List (List Char)) : List Char :=
  "pre.".toList ++ joined (lines.map (indented k))

/-- The text of lines. -/
def text (lines : List (List Char)) : String :=
  String.ofList (['\n'].intercalate (lines.map shown))

def page (lines : List (List Char)) : String :=
  "<pre>" ++ text lines ++ "</pre>"

/-- The tag with its text. -/
def node (loc at_ : Location) (lines : List (List Char)) : Node :=
  .tag loc (.fixed "pre") {} false true [.text at_ (text lines) (literalSegments (text lines))]

/-- What the tokens of the block are, wherever they stand. -/
def kinds (lines : List (List Char)) : List TokenKind :=
  .tag "pre" :: .dot :: .pipelessStart :: (Pipeless.kinds (lines.map shown) ++ [.pipelessEnd])

end TextBlock

/-- Lines of plain text, the last of which shows something and one of which is not indented. -/
structure TextBlock (lines : List (List Char)) : Prop where
  oneLine : ∀ line ∈ lines, '\n' ∉ line ∧ '\r' ∉ line
  unmarked : ∀ line ∈ lines, Piece.Unmarked line
  last : ∃ line, lines.getLast? = some line ∧ allBlank line = false
  flush : ∃ c cs, c :: cs ∈ lines ∧ allBlank (c :: cs) = false ∧ isIndent c = false

namespace TextBlock

variable {k : Nat} {lines : List (List Char)} {line : List Char}

theorem indented_of_shown (h : allBlank line = false) :
    indented k line = List.replicate k ' ' ++ line := by
  rw [indented, if_neg (by simp [h])]

theorem allBlank_indented (k : Nat) (line : List Char) :
    allBlank (indented k line) = allBlank line := by
  cases hb : allBlank line with
  | true => rw [indented, if_pos hb, hb]
  | false => rw [indented_of_shown hb, allBlank, List.all_append, ← allBlank, ← allBlank, hb,
      Bool.and_false]

theorem indentOf_indented (k : Nat) (h : allBlank line = false) :
    Pipeless.indentOf (indented k line) = k + Pipeless.indentOf line := by
  have hspaces : ∀ x ∈ List.replicate k ' ', isIndent x := fun x hx => by
    rw [List.eq_of_mem_replicate hx]
    rfl
  rw [indented_of_shown h, Pipeless.indentOf, List.takeWhile_append_of_pos hspaces,
    List.length_append, List.length_replicate, Pipeless.indentOf]

theorem shownText_indented (k : Nat) (line : List Char) :
    Pipeless.shownText k (indented k line) = shown line := by
  rw [Pipeless.shownText, allBlank_indented, shown]
  cases hb : allBlank line with
  | true => rfl
  | false =>
    rw [indented_of_shown hb]
    exact List.drop_left' List.length_replicate

theorem mem_indented {c : Char} (h : c ∈ indented k line) : c = ' ' ∨ c ∈ line := by
  unfold indented at h
  split at h
  · exact .inr h
  · exact (List.mem_append.mp h).imp_left List.eq_of_mem_replicate

theorem shown_isInfix (line : List Char) : shown line <:+: line := by
  unfold shown
  split
  · exact List.nil_infix
  · exact List.infix_rfl

theorem block (h : TextBlock lines) (k : Nat) : Pipeless.Block k (lines.map (indented k)) where
  oneLine := by
    rintro _ hm hfeed
    obtain ⟨line, hline, rfl⟩ := List.mem_map.mp hm
    exact (mem_indented hfeed).elim (by decide) (h.oneLine line hline).1
  deep := by
    rintro _ hm hb
    obtain ⟨line, hline, rfl⟩ := List.mem_map.mp hm
    rw [allBlank_indented] at hb
    rw [indentOf_indented k hb]
    exact Nat.le_add_right _ _
  flush := by
    obtain ⟨c, cs, hline, hb, hc⟩ := h.flush
    refine ⟨_, List.mem_map_of_mem hline, by rw [allBlank_indented, hb], ?_⟩
    rw [indentOf_indented k hb, Pipeless.indentOf, List.takeWhile_cons_of_neg (by simp [hc])]
    rfl
  last := by
    obtain ⟨line, hline, hb⟩ := h.last
    refine ⟨indented k line, ?_, by rw [allBlank_indented, hb]⟩
    rw [List.getLast?_map, hline]
    rfl

theorem map_shownText (k : Nat) (lines : List (List Char)) :
    (lines.map (indented k)).map (Pipeless.shownText k) = lines.map shown := by
  rw [List.map_map]
  exact List.map_congr_left fun line _ => shownText_indented k line

theorem closed (h : TextBlock lines) (k : Nat) : ∀ line ∈ lines.map (indented k),
    Piece.firstBroken? (Piece.split 0 (Pipeless.shownText k line)) = none := by
  intro _ hm
  obtain ⟨line, hline, rfl⟩ := List.mem_map.mp hm
  rw [shownText_indented]
  exact Piece.firstBroken?_unmarked ((h.unmarked line hline).of_part (shown_isInfix line))

theorem return_notMem (h : TextBlock lines) (k : Nat) : '\r' ∉ source k lines := by
  intro hr
  obtain hr | hr := List.mem_append.mp hr
  · exact absurd hr (by decide)
  · obtain ⟨_, hm, hr⟩ := List.mem_flatMap.mp hr
    obtain ⟨line, hline, rfl⟩ := List.mem_map.mp hm
    obtain hr | hr := List.mem_cons.mp hr
    · exact absurd hr (by decide)
    · exact (mem_indented hr).elim (by decide) (h.oneLine line hline).2

theorem count_feed (h : TextBlock lines) (k : Nat) :
    (source k lines).count '\n' = lines.length := by
  have hjoined : ∀ ls : List (List Char), (∀ l ∈ ls, '\n' ∉ l) →
      (joined ls).count '\n' = ls.length := by
    intro ls hls
    induction ls with
    | nil => rfl
    | cons l ls ih =>
      rw [List.forall_mem_cons] at hls
      rw [joined, List.flatMap_cons, ← joined, List.count_append, ih hls.2, List.count_cons_self,
        List.count_eq_zero_of_not_mem hls.1, List.length_cons]
      omega
  rw [source, List.count_append, hjoined _ (h.block k).oneLine, List.length_map]
  exact Nat.zero_add _

end TextBlock

/-! ## The tokens of the source -/

namespace Rule

theorem read_pre (width : Nat) {c : Cursor} {rest : List Char}
    (hc : c.rest = "pre.".toList ++ rest) :
    read width c = .ok ([⟨.tag "pre", c.loc⟩], c.skip 3) := by
  obtain ⟨_, loc⟩ := c
  cases hc
  -- the word of the tag is no keyword, though it begins like one
  have hkeyword : ∀ w ∈ keywords, (⟨"pre.".toList ++ rest, loc⟩ : Cursor).keyword? w = none := by
    simp only [keywords, List.forall_mem_cons, List.not_mem_nil, false_imp_iff, implies_true,
      and_true]
    and_intros <;> rfl
  exact read_eq_of_before 17 rfl (before_tag_of rfl hkeyword rfl width) rfl

/-- A dot at the end of a line opens a block of text. -/
theorem read_dot (width : Nat) {c : Cursor} {rest : List Char} (hc : c.rest = '.' :: rest)
    (hrest : lineOf rest = []) :
    read width c = withPipeless true width ⟨.dot, c.loc⟩ (c.skip 1) := by
  have hline : c.line = ['.'] := by
    rw [Cursor.line, hc, lineOf, List.takeWhile_cons_of_pos rfl, ← lineOf, hrest]
  have hstart : c.startsWith "." = true := by
    rw [Cursor.startsWith, hc]
    rfl
  have hbehind : (c.skip 1).line = [] := by
    rw [Cursor.line, Cursor.rest_skip, hc]
    exact hrest
  refine read_eq_of_before 22 rfl (before_of_head hc (by decide)) ?_
  rw [dot, hstart, hbehind, Cursor.skipLine, hline]
  rfl

end Rule

namespace TextBlock

variable {k : Nat} {lines : List (List Char)} {behind rest : List Char}

/-- The tokens of the source and then those of what is behind it. -/
theorem exists_tokens (h : TextBlock lines) (hk : 1 ≤ k) (hbehind : Following behind rest) :
    ∃ block, block.map Token.kind = kinds lines ∧
      Layout.empty.tokens ⟨source k lines ++ behind, .start⟩ = (block ++ ·) <$>
        Layout.empty.tokens ⟨behind, Location.behind (source k lines)⟩ := by
  let c : Cursor := ⟨source k lines ++ behind, .start⟩
  have hpre : c.rest = "pre.".toList ++ (joined (lines.map (indented k)) ++ behind) :=
    List.append_assoc _ _ _
  have hdot : (c.skip 3).rest = '.' :: (joined (lines.map (indented k)) ++ behind) := by
    rw [Cursor.rest_skip, hpre]
    rfl
  have hlines : ((c.skip 3).skip 1).rest = joined (lines.map (indented k)) ++ behind := by
    rw [Cursor.rest_skip, hdot]
    rfl
  have hnext : lineOf (joined (lines.map (indented k)) ++ behind) = [] := by
    cases lines with
    | nil => exact hbehind.lineOf_eq
    | cons => rfl
  obtain ⟨loc, at_, ts, hread, hkinds⟩ :=
    (h.block k).read hk (h.closed k) hbehind hlines true
  have hend : ((c.skip 3).skip 1).skip (joined (lines.map (indented k))).length =
      ⟨behind, Location.behind (source k lines)⟩ := by
    have hlength : 3 + (1 + (joined (lines.map (indented k))).length) =
        (source k lines).length := by
      rw [source, List.length_append, ← Nat.add_assoc]
      rfl
    rw [Cursor.skip_skip, Cursor.skip_skip, hlength, Cursor.skip, List.drop_left, List.take_left,
      Location.afterText_start]
  have hblock : Rule.withPipeless true 0 ⟨.dot, (c.skip 3).loc⟩ ((c.skip 3).skip 1) =
      .ok (⟨.dot, (c.skip 3).loc⟩ :: ⟨.pipelessStart, loc⟩ :: (ts ++ [⟨.pipelessEnd, at_⟩]),
        ⟨behind, Location.behind (source k lines)⟩) := by
    rw [Rule.withPipeless, hread, hend]
  have hrun := Layout.Run.step (List.ne_nil_of_length_pos (by rw [hpre]; simp))
    (Layout.step_of_read (l := .empty) hpre (by decide) (Rule.read_pre 0 hpre))
    (.step (by rw [hdot]; simp)
      (Layout.step_of_read hdot (by decide) ((Rule.read_dot 0 hdot hnext).trans hblock)) .here)
  refine ⟨_, ?_, hrun.tokens⟩
  rw [map_shownText] at hkinds
  simp [kinds, hkinds]

theorem skipLeading_source (k : Nat) (lines : List (List Char)) (cs : List Char) :
    Layout.skipLeading ⟨source k lines ++ cs, .start⟩ = ⟨source k lines ++ cs, .start⟩ := by
  rw [Layout.skipLeading, if_neg (by rintro ⟨⟨⟩, -⟩)]
  exact Cursor.skip_zero _

theorem lex_source (h : TextBlock lines) (hk : 1 ≤ k) :
    ∃ block loc, block.map Token.kind = kinds lines ∧
      lex (String.ofList (source k lines)) = .ok (block ++ [⟨.eos, loc⟩]) := by
  have hnormal : normalize (source k lines) = source k lines :=
    normalize_eq_self (h.return_notMem k) (by rintro ⟨⟩)
  have hstart := skipLeading_source k lines []
  rw [List.append_nil] at hstart
  obtain ⟨block, hkinds, htokens⟩ := h.exists_tokens hk (.none rfl rfl : Following [] [])
  rw [List.append_nil, Layout.tokens.eq_def _ ⟨[], _⟩, if_pos rfl] at htokens
  refine ⟨block, Location.behind (source k lines), hkinds, ?_⟩
  rw [Layout.lex_eq, String.toList_ofList, hnormal, hstart, htokens]
  rfl

/-- Lines that follow the block at the margin are read as a source of their own, behind a line end. -/
theorem lex_source_following (h : TextBlock lines) (hk : 1 ≤ k) {gap : List Char}
    (hbehind : unifyLineEnds behind = '\n' :: (gap ++ rest)) (hgap : BlankLines gap)
    (hs : Shown [] rest) :
    ∃ block, block.map Token.kind = kinds lines ∧
      lex (String.ofList (source k lines ++ behind)) =
        (block ++ ⟨.newline, ⟨lines.length + gap.count '\n' + 2, 1⟩⟩ :: ·) <$>
          lexAt (String.ofList rest) ⟨lines.length + gap.count '\n' + 2, 1⟩ := by
  have hnormal : normalize (source k lines ++ behind) =
      source k lines ++ '\n' :: (gap ++ rest) := by
    rw [← hbehind, ← unifyLineEnds_append (h.return_notMem k)]
    rfl
  obtain ⟨block, hkinds, htokens⟩ := h.exists_tokens hk (.lines hgap hs)
  refine ⟨block, hkinds, ?_⟩
  have hloc : ((⟨'\n' :: (gap ++ rest), Location.behind (source k lines)⟩ : Cursor).skip
      (gap.length + 1)).loc = ⟨lines.length + gap.count '\n' + 2, 1⟩ := by
    obtain ⟨init, hinit, hcount⟩ := hgap.exists_feed
    have htake : ('\n' :: (gap ++ rest)).take (gap.length + 1) = init ++ ['\n'] := by
      rw [← hinit, List.take_succ_cons, List.take_left]
    show Location.afterText _ (('\n' :: (gap ++ rest)).take (gap.length + 1)) = _
    rw [htake, ← Location.afterText_start, ← Location.afterText_append, Location.afterText_start,
      ← List.append_assoc, Location.behind_feed, List.count_append, h.count_feed, hcount]
  rw [Layout.lex_eq, String.toList_ofList, hnormal, skipLeading_source, htokens,
    Layout.tokens_following hgap hs rfl, hloc]
  cases lexAt (String.ofList rest) ⟨lines.length + gap.count '\n' + 2, 1⟩ <;> rfl

/-! ## The tree -/

theorem pipelessRun_kinds {texts : List (List Char)} {ts : List Token}
    (h : ts.map Token.kind = Pipeless.kinds texts) (at_ : Location) (more : List Token) :
    pipelessRun (ts ++ ⟨.pipelessEnd, at_⟩ :: more) =
      some (String.ofList (['\n'].intercalate texts), ts.length + 1) := by
  induction texts generalizing ts with
  | nil =>
    obtain rfl := List.map_eq_nil_iff.mp h
    rfl
  | cons text texts ih =>
    cases texts with
    | nil =>
      obtain ⟨⟨_, loc⟩, ts, rfl, hkind, hts⟩ := List.map_eq_cons_iff.mp h
      obtain rfl := List.map_eq_nil_iff.mp hts
      cases hkind
      simp [pipelessRun]
    | cons next texts =>
      obtain ⟨⟨_, loc⟩, behind, rfl, hkind, hbehind⟩ := List.map_eq_cons_iff.mp h
      obtain ⟨⟨_, feed⟩, ts, rfl, hfeed, hts⟩ := List.map_eq_cons_iff.mp hbehind
      cases hkind
      cases hfeed
      rw [List.cons_append, List.cons_append, pipelessRun, pipelessRun, ih hts]
      simp

theorem segmentsAt_unmarked {s : String} (h : Piece.Unmarked s.toList) (loc : Location) :
    segmentsAt s loc = .ok (literalSegments s) := by
  rw [segmentsAt, Piece.split_unmarked h, mapM_literalPieces]

theorem unmarked_text (h : TextBlock lines) : Piece.Unmarked (text lines).toList := by
  rw [text, String.toList_ofList]
  refine Piece.unmarked_intercalate fun _ hm => ?_
  obtain ⟨line, hline, rfl⟩ := List.mem_map.mp hm
  exact (h.unmarked line hline).of_part (shown_isInfix line)

theorem ne_nil_of_kinds (h : TextBlock lines) {ts : List Token}
    (hts : ts.map Token.kind = Pipeless.kinds (lines.map shown)) : ts ≠ [] := by
  rintro rfl
  obtain ⟨line, hlast, -⟩ := h.last
  cases lines with
  | nil => exact nomatch hlast
  | cons line lines =>
    rw [List.map_cons, Pipeless.kinds_cons] at hts
    exact nomatch hts

/-- A tag that ends in a dot takes the text below it, and nothing else. -/
theorem read_dotted {cx : TreeContext} {name : String} {loc dot start : Location}
    {body : List Token} {ns : List Node} {m : Nat}
    (h : cx.textBody (⟨.pipelessStart, start⟩ :: body) = .ok (ns, m)) :
    Node.read cx ⟨.tag name, loc⟩ (⟨.dot, dot⟩ :: ⟨.pipelessStart, start⟩ :: body) =
      .ok ([.tag loc (.fixed name) {} false true ns], m + 1) := by
  simp [Node.read, readElement, Head.read, readInline, h, bind, Except.bind, pure, Except.pure,
    Nat.add_comm]

/-- The tokens of the block, with their places. -/
theorem exists_of_kinds {block : List Token} (h : block.map Token.kind = kinds lines) :
    ∃ loc dot start ts at_, block = ⟨.tag "pre", loc⟩ :: ⟨.dot, dot⟩ :: ⟨.pipelessStart, start⟩ ::
        (ts ++ [⟨.pipelessEnd, at_⟩]) ∧
      ts.map Token.kind = Pipeless.kinds (lines.map shown) := by
  obtain ⟨⟨_, loc⟩, behind, rfl, htag, hbehind⟩ := List.map_eq_cons_iff.mp h
  obtain ⟨⟨_, dot⟩, behind, rfl, hdot, hbehind⟩ := List.map_eq_cons_iff.mp hbehind
  obtain ⟨⟨_, start⟩, behind, rfl, hstart, hbehind⟩ := List.map_eq_cons_iff.mp hbehind
  obtain ⟨ts, _, rfl, hts, hstop⟩ := List.map_eq_append_iff.mp hbehind
  obtain ⟨⟨_, at_⟩, _, rfl, hend, hnil⟩ := List.map_eq_cons_iff.mp hstop
  obtain rfl := List.map_eq_nil_iff.mp hnil
  cases htag
  cases hdot
  cases hstart
  cases hend
  exact ⟨loc, dot, start, ts, at_, rfl, hts⟩

/-- The tokens of the block are the tag, and what follows them is read beside it. -/
theorem parseTokens_block (h : TextBlock lines) {block : List Token}
    (hblock : block.map Token.kind = kinds lines) :
    ∃ loc at_, ∀ more ≠ [],
      parseTokens (block ++ more) = (node loc at_ lines :: ·) <$> parseTokens more := by
  obtain ⟨loc, dot, start, ts, at_, rfl, hts⟩ := exists_of_kinds hblock
  obtain ⟨first, ts, rfl⟩ := List.exists_cons_of_ne_nil (h.ne_nil_of_kinds hts)
  refine ⟨loc, first.loc, fun more hmore => ?_⟩
  unfold parseTokens readTokens
  dsimp only
  rw [List.getLast?_append_of_ne_nil _ hmore]
  generalize (more.getLast?.map Token.loc).getD .nowhere = stop
  have hbody : pipelessBody stop (first :: (ts ++ ⟨.pipelessEnd, at_⟩ :: more)) =
      .ok (first.loc, text lines, ts.length + 2) := by
    rw [pipelessBody, ← List.cons_append, pipelessRun_kinds hts at_ more]
    rfl
  have htext : (⟨stop, false, segmentsAt⟩ : TreeContext).textBody
      (⟨.pipelessStart, start⟩ :: first :: (ts ++ ⟨.pipelessEnd, at_⟩ :: more)) =
      .ok ([.text first.loc (text lines) (literalSegments (text lines))], ts.length + 3) := by
    simp [TreeContext.textBody, hbody, TreeContext.textNode, segmentsAt_unmarked h.unmarked_text,
      bind, Except.bind, pure, Except.pure]
  have hdrop (a b c : Token) : (a :: b :: c :: (ts ++ ⟨.pipelessEnd, at_⟩ :: more)).drop
      (ts.length + 4) = more := by
    rw [List.drop_succ_cons, List.drop_succ_cons, List.drop_succ_cons,
      ← List.singleton_append, ← List.append_assoc]
    exact List.drop_left' (by simp)
  have hassoc : first :: ts ++ [⟨.pipelessEnd, at_⟩] ++ more =
      first :: (ts ++ ⟨.pipelessEnd, at_⟩ :: more) := by simp
  rw [List.cons_append, List.cons_append, List.cons_append, hassoc, readDocument, read_dotted htext]
  · show (do return [node loc first.loc lines] ++ (← readDocument _ (List.drop _ _))) = _
    rw [hdrop]
    rfl
  all_goals rintro _ ⟨⟩

/-- A line end in front of a stream is passed over. -/
theorem parseTokens_newline {more : List Token} (h : more ≠ []) (loc : Location) :
    parseTokens (⟨.newline, loc⟩ :: more) = parseTokens more := by
  unfold parseTokens readTokens
  dsimp only
  rw [← List.singleton_append, List.getLast?_append_of_ne_nil _ h, List.singleton_append,
    readDocument]

/-! ## The page -/

theorem isPlain_of_mem_kinds {texts : List (List Char)} {k : TokenKind}
    (h : k ∈ Pipeless.kinds texts) : k.isPlain := by
  cases texts with
  | nil => exact absurd h List.not_mem_nil
  | cons text texts =>
    rw [Pipeless.kinds_cons, List.mem_cons, List.mem_flatMap] at h
    obtain rfl | ⟨text, -, h⟩ := h
    · rfl
    · rw [List.mem_pair] at h
      obtain rfl | rfl := h <;> rfl

/-- No comment is in the block, so none is left out. -/
theorem strip_block {block : List Token} (hblock : block.map Token.kind = kinds lines)
    (p : CommentPolicy) (stop : Location) :
    p.strip (block ++ [⟨.eos, stop⟩]) = .ok (block ++ [⟨.eos, stop⟩]) := by
  obtain ⟨loc, dot, start, ts, at_, rfl, hts⟩ := exists_of_kinds hblock
  have hplain : ∀ t ∈ ts, t.kind.isPlain := fun t ht =>
    isPlain_of_mem_kinds (hts ▸ List.mem_map_of_mem ht)
  have hnil : p.Keeps {} [] [] := fun _ => rfl
  have hstop : p.Keeps {} [⟨.eos, stop⟩] [⟨.eos, stop⟩] := hnil.cons_plain rfl
  have hend : p.Keeps ⟨false, true⟩ [⟨.pipelessEnd, at_⟩, ⟨.eos, stop⟩] _ := hstop.cons rfl
  have hlines := hend.append fun t ht => CommentPolicy.step_plain_inBlock (hplain t ht)
  have hstart : p.Keeps {} (⟨.pipelessStart, start⟩ :: _) _ := hlines.cons rfl
  have hdot : p.Keeps {} (⟨.dot, dot⟩ :: _) _ := .cons_plain rfl hstart
  have htag : p.Keeps {} (⟨.tag "pre", loc⟩ :: _) _ := .cons_plain rfl hdot
  have hassoc : ⟨.tag "pre", loc⟩ :: ⟨.dot, dot⟩ :: ⟨.pipelessStart, start⟩ ::
      (ts ++ [⟨.pipelessEnd, at_⟩]) ++ [⟨.eos, stop⟩] =
        (⟨.tag "pre", loc⟩ :: ⟨.dot, dot⟩ :: ⟨.pipelessStart, start⟩ ::
          (ts ++ [⟨.pipelessEnd, at_⟩, ⟨.eos, stop⟩]) : List Token) := by simp
  rw [hassoc]
  exact htag .nowhere

theorem parseSource_source (h : TextBlock lines) (hk : 1 ≤ k) (options : Options) :
    ∃ loc at_, parseSource options (String.ofList (source k lines)) = .ok [node loc at_ lines] := by
  obtain ⟨block, stop, hkinds, hlex⟩ := h.lex_source hk
  obtain ⟨loc, at_, hparse⟩ := h.parseTokens_block hkinds
  have hstrip : (lex (String.ofList (source k lines))).bind options.comments.strip =
      .ok (block ++ [⟨.eos, stop⟩]) := by
    rw [hlex]
    exact strip_block hkinds options.comments stop
  have hend : parseTokens [⟨.eos, stop⟩] = .ok [] := by
    rw [parseTokens, readTokens, readDocument]
    rfl
  refine ⟨loc, at_, ?_⟩
  rw [parseSource, hstrip]
  dsimp only
  rw [hparse _ (List.cons_ne_nil _ _), hend]
  rfl

theorem link_node (set : TemplateSet) (options : Options) (path : String) (loc at_ : Location)
    (lines : List (List Char)) :
    link set options path [node loc at_ lines] = .ok ⟨[node loc at_ lines], []⟩ := by
  rw [link, Linking.linkTree]
  rfl

theorem render_node (loc at_ : Location) (lines : List (List Char)) (data : Value)
    (options : Options) (filters : Filters) :
    render ⟨[node loc at_ lines], []⟩ data options filters = .ok (page lines) := by
  let written : Array Fragment := if text lines = "" then #[] else #[.fixed (text lines)]
  have hact (p : Page) (exits : Exits 0) (s : Session 0) :
      p.actAll exits [.text at_ (text lines) (literalSegments (text lines))] s =
        .ok () ⟨s.chain, s.out ++ written⟩ := by
    unfold literalSegments written
    split <;> rfl
  have hbody (p : Page) (left : Nat) (s : Session 0) :
      p.renderNodes left 0 [.text at_ (text lines) (literalSegments (text lines))] s =
        .ok () ⟨s.chain, s.out ++ written⟩ := by
    cases left <;> exact hact p _ s
  have hwritten : joinFragments written = text lines := by
    by_cases hs : text lines = ""
    · simp [written, hs, joinFragments]
    · simp [written, hs, joinFragments, Fragment.text]
  have hstart (p : Page) (f : Frame) :
      Fragment.joined (p.startTag f (.fixed "pre") {}) = "<pre" := by
    rw [Page.joined_startTag]
    rfl
  rw [render, renderFragments]
  dsimp only
  rw [node, Page.renderNodes_tag, List.isEmpty_cons, Bool.and_false, if_neg Bool.false_ne_true]
  simp only [bind, EStateM.bind, hbody]
  show Except.ok (joinFragments (#[] ++ (Page.startTag _ _ _ _ ++ [Fragment.fixed ">"]).toArray ++
    written ++ [Fragment.fixed "</", .fixed "pre", .fixed ">"].toArray)) = _
  rw [joinFragments_append, joinFragments_append, joinFragments_append, joinFragments_toArray,
    joinFragments_toArray, Fragment.joined_append, hstart, hwritten]
  rfl

theorem linkSource_source (h : TextBlock lines) (hk : 1 ≤ k) (set : TemplateSet)
    (options : Options) (path : String) :
    ∃ linked, Template.linkSource set options path (String.ofList (source k lines)) = .ok linked ∧
      ∀ data filters, render linked data options filters = .ok (page lines) := by
  obtain ⟨loc, at_, hparse⟩ := h.parseSource_source hk options
  refine ⟨_, ?_, fun data filters => render_node loc at_ lines data options filters⟩
  rw [Template.linkSource, hparse]
  dsimp only
  rw [link_node]

end TextBlock

/-- A source that links, at any path, to what renders to one page for all data is a template of that
page, compiled on its own or as one of a set. -/
theorem renders_of_linkSource {source page : String}
    (h : ∀ set options path, ∃ linked, Template.linkSource set options path source = .ok linked ∧
      ∀ data filters, render linked data options filters = .ok page) (options : Options) :
    (∃ template, Template.ofSource options source = .ok template ∧
      ∀ data, template.render data = .ok page) ∧
    (∀ (set : TemplateSet) filters name, set.fetch? name = some source →
      ∃ template, Template.compile set options filters name = .ok template ∧
        ∀ data, template.render data = .ok page) ∧
    ∀ data, renderSource source data = .ok page := by
  have hsource (options : Options) :
      ∃ template, Template.ofSource options source = .ok template ∧
        ∀ data, template.render data = .ok page := by
    obtain ⟨linked, hlinked, hrender⟩ := h [] options Template.anonymousPath
    refine ⟨_, by rw [Template.ofSource, hlinked]; rfl, fun data => ?_⟩
    rw [Template.render]
    dsimp only
    rw [hrender]
  refine ⟨hsource options, fun set filters name hname => ?_, fun data => ?_⟩
  · obtain ⟨linked, hlinked, hrender⟩ := h set options name
    refine ⟨_, by rw [Template.compile, hname]; dsimp only; rw [hlinked]; rfl, fun data => ?_⟩
    rw [Template.render]
    dsimp only
    rw [hrender]
  · obtain ⟨template, htemplate, hrender⟩ := hsource {}
    rw [renderSource, htemplate]
    exact hrender data

/-- The lines below a tag that ends in a dot, indented by any width, are on the page as they are, but
for blank ones, which are empty: the page is the same for all data. Lines that follow at the margin,
also behind blank ones, are read as a source of their own, with no block opened or closed in between,
and stand beside the tag. -/
theorem text_block_verbatim {k : Nat} (hk : 1 ≤ k) {lines : List (List Char)}
    (h : TextBlock lines) (options : Options) :
    ((∃ template, Template.ofSource options (String.ofList (TextBlock.source k lines)) = .ok template ∧
        ∀ data, template.render data = .ok (TextBlock.page lines)) ∧
      (∀ (set : TemplateSet) filters name,
        set.fetch? name = some (String.ofList (TextBlock.source k lines)) →
          ∃ template, Template.compile set options filters name = .ok template ∧
            ∀ data, template.render data = .ok (TextBlock.page lines)) ∧
      ∀ data, renderSource (String.ofList (TextBlock.source k lines)) data =
        .ok (TextBlock.page lines)) ∧
    ∀ behind gap rest, unifyLineEnds behind = '\n' :: (gap ++ rest) → BlankLines gap →
      Shown [] rest →
        let at_ : Location := ⟨lines.length + gap.count '\n' + 2, 1⟩
        ∃ block, block.map Token.kind = TextBlock.kinds lines ∧
          lex (String.ofList (TextBlock.source k lines ++ behind)) =
            (block ++ ⟨.newline, at_⟩ :: ·) <$> lexAt (String.ofList rest) at_ ∧
          ∃ loc textLoc, ∀ more ≠ [], parseTokens (block ++ ⟨.newline, at_⟩ :: more) =
            (TextBlock.node loc textLoc lines :: ·) <$> parseTokens more := by
  refine ⟨renders_of_linkSource (h.linkSource_source hk) options, ?_⟩
  intro behind gap rest hbehind hgap hs at_
  obtain ⟨block, hkinds, hlex⟩ := h.lex_source_following hk hbehind hgap hs
  obtain ⟨loc, textLoc, hparse⟩ := h.parseTokens_block hkinds
  refine ⟨block, hkinds, hlex, loc, textLoc, fun more hmore => ?_⟩
  rw [hparse _ (List.cons_ne_nil _ _), TextBlock.parseTokens_newline hmore]

namespace TextBlock

/-- Lines of markup, of nothing, of code behind more blanks, and of a backslash. -/
def sample : List (List Char) :=
  ["a <b>", "", "    = x", "\\ end/"].map String.toList

theorem textBlock_sample : TextBlock sample where
  oneLine := by decide
  unmarked := by decide +kernel
  last := ⟨"\\ end/".toList, rfl, by decide⟩
  flush := ⟨'a', " <b>".toList, by decide, by decide, by decide⟩

/-- A line of blanks and a paragraph. -/
def following : List Char :=
  "\n  \np x".toList

theorem lexAt_paragraph : lexAt "p x" ⟨7, 1⟩ =
    .ok [⟨.tag "p", ⟨7, 1⟩⟩, ⟨.text "x", ⟨7, 3⟩⟩, ⟨.eos, ⟨7, 4⟩⟩] :=
  eq_ok_of_toOption (by decide +kernel)

end TextBlock

open TextBlock in
/-- What would be a tag, an output or an escape elsewhere is text, and a paragraph behind it is not. -/
theorem text_block_verbatim_sample :
    renderSource "pre.\n  a <b>\n\n      = x\n  \\ end/" .null =
      .ok "<pre>a <b>\n\n    = x\n\\ end/</pre>" ∧
    ∃ block, block.map Token.kind = kinds sample ∧
      lex "pre.\n  a <b>\n\n      = x\n  \\ end/\n  \np x" = .ok (block ++
        [⟨.newline, ⟨7, 1⟩⟩, ⟨.tag "p", ⟨7, 1⟩⟩, ⟨.text "x", ⟨7, 3⟩⟩, ⟨.eos, ⟨7, 4⟩⟩]) := by
  have hsource : String.ofList (source 2 sample) = "pre.\n  a <b>\n\n      = x\n  \\ end/" := by
    decide +kernel
  have hpage : page sample = "<pre>a <b>\n\n    = x\n\\ end/</pre>" := by decide +kernel
  have hfull : String.ofList (source 2 sample ++ following) =
      "pre.\n  a <b>\n\n      = x\n  \\ end/\n  \np x" := by decide +kernel
  have hgap : BlankLines "  \n".toList :=
    @BlankLines.cons "  ".toList [] rfl (by decide) .nil
  have h := text_block_verbatim (k := 2) (by decide) textBlock_sample {}
  obtain ⟨block, hkinds, hlex, -⟩ :=
    h.2 following "  \n".toList "p x".toList (by decide +kernel) hgap ⟨nofun, rfl⟩
  refine ⟨?_, block, hkinds, ?_⟩
  · rw [← hsource, ← hpage]
    exact h.1.2.2 .null
  · rw [← hfull, hlex, String.ofList_toList]
    exact congrArg _ lexAt_paragraph

end PugTemplate
