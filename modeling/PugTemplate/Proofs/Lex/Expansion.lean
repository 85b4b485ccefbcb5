import PugTemplate.Proofs.Lex.Insert
import PugTemplate.Proofs.Lex.Line

/-!
# In the line of a tag, or below it

What stands behind a colon in the line of a tag may as well stand indented below that tag. The lexer
reads the same tokens in both places: an indent and an outdent take the place of the colon and of
the line end that leads on to the lines below. Main statements: `lex_joined`, `lex_nested`.
-/

namespace PugTemplate

open Layout (Run)

/-- A source of one line, which shows something from its first character on, and its tokens. -/
structure OneLine (source : String) (ts : List Token) : Prop where
  shown : Shown [] (normalize source.toList)
  feed : '\n' ∉ normalize source.toList
  tokens : ∃ loc, lex source = .ok (ts ++ [⟨.eos, loc⟩])

/-- What is behind a line, and the text of the lines that follow it: there are none, or the first
one that shows something is not indented. -/
inductive Following : (behind rest : List Char) → Prop where
  | none {behind : List Char} (hblank : allBlank behind) (hline : lineOf behind = []) :
      Following behind []
  | lines {gap rest : List Char} (hgap : BlankLines gap) (hs : Shown [] rest) :
      Following ('\n' :: (gap ++ rest)) rest

theorem Following.lineOf_eq {behind rest : List Char} (h : Following behind rest) :
    lineOf behind = [] := by
  cases h with
  | none _ hline => exact hline
  | lines => rfl

/-- Tokens put in front of a stream one part after the other. -/
theorem map_append_append {ε α : Type} (ts us : List α) (x : Except ε (List α)) :
    (ts ++ ·) <$> ((us ++ ·) <$> x) = (ts ++ us ++ ·) <$> x := by
  cases x with
  | error => rfl
  | ok vs => exact congrArg Except.ok (List.append_assoc _ _ _).symm

namespace Layout

variable {l m : Layout} {c d : Cursor} {ts : List Token} {behind rest : List Char}

/-! ## Where a source begins and ends -/

theorem lex_eq (source : String) :
    lex source = empty.tokens (skipLeading ⟨normalize source.toList, .start⟩) := by
  rw [lex, lexAt, normalizeText, String.toList_ofList]

theorem skipIndent_of_shown {shown : List Char} (hs : Shown [] shown) (hc : c.rest = shown) :
    c.skipIndent = c := by
  have hindent : c.rest.takeWhile isIndent = [] := hc ▸ hs.takeWhile_eq
  rw [Cursor.skipIndent, hindent, List.length_nil, Cursor.skip_zero]

theorem skipLeading_of_shown {shown : List Char} (hs : Shown [] shown) (hc : c.rest = shown) :
    skipLeading c = c := by
  have hline : ¬ allBlank c.line := by
    rw [Cursor.line, hc]
    exact hs.not_allBlank
  rw [skipLeading, if_neg fun h => hline h.1, skipIndent_of_shown hs hc]

theorem allBlank_drop {cs : List Char} (h : allBlank cs) (n : Nat) : allBlank (cs.drop n) :=
  List.all_eq_true.mpr fun x hx => List.all_eq_true.mp h x (List.mem_of_mem_drop hx)

theorem rest_nextLine_of_allBlank (h : allBlank c.rest) : (nextLine c).rest = [] := by
  fun_induction nextLine c with
  | case1 c _ hend => exact hend
  | case2 c _ _ ih => exact ih (allBlank_drop (allBlank_drop h 1) _)
  | case3 c hshown =>
    refine absurd (List.all_eq_true.mpr fun x hx => ?_) hshown
    have hx' : x ∈ c.rest := List.mem_of_mem_drop ((lineOf_isPrefix _).subset hx)
    exact List.all_eq_true.mp h x hx'

/-- Lines that show nothing lead to the end of the source. -/
theorem tokens_of_allBlank (hblank : allBlank c.rest) (hline : c.line = []) :
    ∃ d, l.tokens c = l.tokens d ∧ d.rest = [] := by
  by_cases hc : c.rest = []
  · exact ⟨c, rfl, hc⟩
  have hend := rest_nextLine_of_allBlank hblank
  have hnew : newline l c = .ok ([], l, nextLine c) := by
    rw [newline]
    exact if_pos hend
  refine ⟨nextLine c, ?_, hend⟩
  rw [tokens_of_ne hc, step, if_pos (startsWith_feed hline hc), hnew]
  show ([] ++ ·) <$> l.tokens (nextLine c) = _
  simp

/-! ## The lines that follow -/

/-- The line end in front of the lines that follow, if there are any. -/
def lineEnd (rest : List Char) : List Token :=
  if rest = [] then [] else [⟨.newline, .nowhere⟩]

theorem fits_nil (l : Layout) : l.Fits [] :=
  nofun

/-- The next line that shows something, and where it is read on. -/
theorem tokens_lines {gap : List Char} {loc : Location} (hgap : BlankLines gap) (hs : Shown [] rest)
    (hc : c.rest = '\n' :: (gap ++ rest)) (h : l.settle 0 loc = .ok (ts, m)) :
    ∃ us d, l.tokens c = (us ++ ·) <$> m.tokens d ∧ d.rest = rest ∧ SameKinds ts us := by
  have hsettle : settle { l with mark := l.mark.or ([] : List Char).head? }
      ([] : List Char).length loc = .ok (ts, m) := by
    rw [List.head?_nil, Option.or_none]
    exact h
  obtain ⟨us, d, hus, hkinds, hd⟩ := newline_of_settle hgap hs hc (fits_nil l) hsettle
  refine ⟨us, d, ?_, hd, hkinds⟩
  rw [tokens_of_feed hc, hus]
  rfl

/-- At the margin, a line end leads on. -/
theorem tokens_margin (h : Following behind rest) (hc : c.rest = behind) :
    ∃ us d, empty.tokens c = (us ++ ·) <$> empty.tokens d ∧ d.rest = rest ∧
      SameKinds (lineEnd rest) us := by
  cases h with
  | none hblank hline =>
    obtain ⟨d, hd, hend⟩ := tokens_of_allBlank (l := empty) (hc ▸ hblank)
      ((congrArg lineOf hc).trans hline)
    exact ⟨[], d, by simp [hd], hend, .refl []⟩
  | lines hgap hs =>
    have hne : rest ≠ [] := hs.ne_nil
    rw [lineEnd, if_neg hne]
    exact tokens_lines hgap hs hc (settle_of_eq rfl)

/-- In a block, the end of the block leads on. -/
theorem tokens_block {w : Nat} {mark : Option Char} (hw : 0 < w) (h : Following behind rest)
    (hc : c.rest = behind) :
    ∃ us d, (⟨[w], mark⟩ : Layout).tokens c = (us ++ ·) <$> (⟨[], mark⟩ : Layout).tokens d ∧
      d.rest = rest ∧ SameKinds [⟨.outdent, .nowhere⟩] us := by
  cases h with
  | none hblank hline =>
    obtain ⟨d, hd, hend⟩ := tokens_of_allBlank (l := ⟨[w], mark⟩) (hc ▸ hblank)
      ((congrArg lineOf hc).trans hline)
    refine ⟨[⟨.outdent, d.loc⟩], d, ?_, hend, .cons rfl (.refl [])⟩
    rw [hd, tokens, if_pos hend, tokens, if_pos hend]
    rfl
  | lines hgap hs =>
    have hsettle : (⟨[w], mark⟩ : Layout).settle 0 .nowhere =
        .ok ([⟨.outdent, .nowhere⟩], ⟨[], mark⟩) := by
      have hnil : [w].dropWhile (0 < ·) = [] := by simp [hw]
      rw [settle_of_lt hw, hnil]
      simp [outdents, hw]
    exact tokens_lines hgap hs hc hsettle

/-! ## The character that indents a source -/

/-- Where it is known what indents the source, a line is read as if it were not, or it is indented
by another character. -/
theorem newline_unmarked (l : Layout) (c : Cursor) :
    (∃ loc, newline l c = .error ⟨.mixedIndentation, loc⟩) ∨
      newline { l with mark := none } c = newline l c ∨
        newline { l with mark := none } c =
          (fun r => (r.1, { r.2.1 with mark := none }, r.2.2)) <$> newline l c := by
  obtain ⟨ws, mark⟩ := l
  obtain rfl | ⟨x, rfl⟩ : mark = none ∨ ∃ x, mark = some x := by
    cases mark <;> simp
  · exact .inr (.inl rfl)
  unfold newline
  dsimp only
  by_cases hend : (nextLine c).rest = []
  · rw [if_pos hend, if_pos hend]
    exact .inr (.inr rfl)
  rw [if_neg hend, if_neg hend]
  cases hindent : (nextLine c).rest.takeWhile isIndent with
  | nil =>
    right
    right
    simp only [List.any_nil, Bool.false_eq_true, if_false, Option.or_none, List.head?_nil]
    rw [settle_mark ws (some x), settle_mark ws none]
    cases (⟨ws, none⟩ : Layout).settle [].length (nextLine c).skipIndent.loc <;> rfl
  | cons y indent =>
    by_cases hxy : y = x
    · subst hxy
      exact .inr (.inl rfl)
    · left
      exact ⟨(nextLine c).loc, if_pos (by simp [hxy])⟩

theorem step_unmarked (l : Layout) (c : Cursor) :
    (∃ loc, l.step c = .error ⟨.mixedIndentation, loc⟩) ∨
      step { l with mark := none } c = l.step c ∨
        step { l with mark := none } c =
          (fun r => (r.1, { r.2.1 with mark := none }, r.2.2)) <$> l.step c := by
  unfold step
  split
  next => exact newline_unmarked l c
  next =>
    right
    right
    rw [show width { l with mark := none } = l.width from rfl]
    cases Rule.read l.width c <;> rfl

/-- A source is read as if it were not known what indents it, or a line is indented otherwise. -/
theorem tokens_unmarked (l : Layout) (c : Cursor) :
    (∃ loc, l.tokens c = .error ⟨.mixedIndentation, loc⟩) ∨
      tokens { l with mark := none } c = l.tokens c := by
  by_cases hend : c.rest = []
  · right
    rw [tokens, if_pos hend, tokens, if_pos hend]
    rfl
  have hstep := step_unmarked l c
  rw [tokens_of_ne hend, tokens_of_ne hend]
  cases hs : l.step c with
  | error e =>
    rw [hs] at hstep
    obtain ⟨loc, h⟩ | h | h := hstep
    · cases h
      exact .inl ⟨loc, rfl⟩
    · exact .inr (by rw [h])
    · exact .inr (by rw [h]; rfl)
  | ok r =>
    obtain ⟨first, m, d⟩ := r
    rw [hs] at hstep
    obtain ⟨loc, h⟩ | h | h := hstep
    · cases h
    · exact .inr (by rw [h])
    · have hlt := length_step_lt hend hs
      obtain ⟨loc, hmore⟩ | hmore := tokens_unmarked m d
      · refine .inl ⟨loc, ?_⟩
        show (first ++ ·) <$> m.tokens d = _
        rw [hmore]
        rfl
      · right
        rw [h]
        show (first ++ ·) <$> tokens { m with mark := none } d = (first ++ ·) <$> m.tokens d
        rw [hmore]
termination_by c.rest.length

end Layout

section Sources

variable {tag construct joined nested : String} {ts xs : List Token}
  {indent behind rest : List Char}

theorem OneLine.line (h : OneLine tag ts) :
    ∃ d, Rule.Line ⟨normalize tag.toList, .start⟩ ts d ∧ d.rest = [] := by
  obtain ⟨loc, hlex⟩ := h.tokens
  rw [Layout.lex_eq, Layout.skipLeading_of_shown h.shown rfl] at hlex
  obtain ⟨us, d, at_, heq, hline, hd⟩ := Rule.line_of_tokens h.feed hlex
  obtain ⟨rfl, -⟩ := List.append_inj' heq rfl
  exact ⟨d, hline, hd⟩

/-- The line is read the same in another place, up to what is behind it. -/
theorem OneLine.run (h : OneLine construct xs) (hxs : ∀ x ∈ xs, x.kind.opensText = false)
    (hbehind : lineOf behind = []) (l : Layout) {c : Cursor}
    (hc : c.rest = normalize construct.toList ++ behind) :
    ∃ us d, Run l c us l d ∧ SameKinds xs us ∧ d.rest = behind := by
  obtain ⟨e, hline, he⟩ := h.line
  have hbeside : (⟨normalize construct.toList, .start⟩ : Cursor).Beside [] behind c := by
    refine ⟨?_, fun _ => ⟨_, (List.append_nil _).symm, hc⟩⟩
    rw [Cursor.line, Cursor.line, hc, Cursor.lineOf_append_congr (a := []) _ hbehind,
      List.append_nil]
  obtain ⟨us, d, hrun, hkinds, hd⟩ := hline.beside (l := l) hbehind hxs hbeside
  obtain ⟨m, hm, hrest⟩ := hd.text (Nat.zero_le _)
  rw [he, List.append_nil] at hm
  exact ⟨us, d, hrun, hkinds, by rw [hrest, ← hm, List.nil_append]⟩

theorem shown_append {indent cs : List Char} (hs : Shown [] cs) (hindent : ∀ x ∈ indent, isIndent x)
    (behind : List Char) : Shown indent (cs ++ behind) := by
  obtain ⟨x, xs, rfl, hx⟩ := hs.exists_cons
  exact ⟨hindent, by simp [hx]⟩

theorem eq_nil_of_allBlank {cs before rest : List Char}
    (hlast : cs.getLast?.any fun x => !isBlank x) (heq : cs = before ++ rest)
    (hblank : allBlank rest) : rest = [] := by
  obtain hnil | ⟨init, x, hx⟩ := List.eq_nil_or_concat rest
  · exact hnil
  · rw [heq, hx, List.concat_eq_append, ← List.append_assoc, List.getLast?_concat] at hlast
    have hshown : isBlank x = false := by simpa using hlast
    have hmem : x ∈ rest := by simp [hx]
    cases hshown.symm.trans (List.all_eq_true.mp hblank x hmem)

/-- Behind a colon and a blank, reading goes on with what is shown there. -/
theorem run_colon {l : Layout} {c : Cursor} {shown : List Char} (hs : Shown [] shown)
    (hc : c.rest = ':' :: ' ' :: shown) :
    ∃ loc d, Run l c [⟨.colon, loc⟩] l d ∧ d.rest = shown := by
  have hne : c.rest ≠ [] := by simp [hc]
  have hstep : l.step c = .ok ([⟨.colon, c.loc⟩], l, (c.skip 1).skipIndent) :=
    Layout.step_of_read hc (by decide) (Rule.read_colon hc)
  have hblank : (c.skip 1).rest = [' '] ++ shown := by
    rw [Cursor.rest_skip, hc]
    rfl
  have hindent : Shown [' '] shown := ⟨List.forall_mem_singleton.mpr rfl, hs.head⟩
  exact ⟨_, _, .step hne hstep .here, hindent.rest_skipIndent hblank⟩

/-- The tokens of a source with a construct behind a colon, in the line of a tag. -/
theorem lex_joined (ht : OneLine tag ts) (hparts : ∀ t ∈ ts, t.kind.isTagPart)
    (hlast : (normalize tag.toList).getLast?.any fun x => !isBlank x) (hx : OneLine construct xs)
    (hxs : ∀ x ∈ xs, x.kind.opensText = false) (hbehind : Following behind rest)
    (hjoined : normalize joined.toList =
      normalize tag.toList ++ ':' :: ' ' :: (normalize construct.toList ++ behind)) :
    ∃ us c, lex joined = (us ++ ·) <$> Layout.empty.tokens c ∧ c.rest = rest ∧
      SameKinds (ts ++ ⟨.colon, .nowhere⟩ :: (xs ++ Layout.lineEnd rest)) us := by
  have hstart : Layout.skipLeading ⟨normalize joined.toList, .start⟩ = Cursor.expanded
      ⟨normalize tag.toList, .start⟩ (normalize construct.toList ++ behind) := by
    have hshown := hjoined ▸ shown_append ht.shown ht.shown.indent _
    rw [Layout.skipLeading_of_shown hshown rfl, hjoined]
    rfl
  obtain ⟨d, hline, hd⟩ := ht.line
  have htag := hline.expanded hparts (fun _ _ => eq_nil_of_allBlank hlast)
    (normalize construct.toList ++ behind)
  have hcolon : (d.expanded (normalize construct.toList ++ behind)).rest =
      ':' :: ' ' :: (normalize construct.toList ++ behind) := by
    rw [Cursor.rest_expanded, hd, List.nil_append]
  obtain ⟨loc, e, hrun, he⟩ :=
    run_colon (l := .empty) (shown_append hx.shown hx.shown.indent behind) hcolon
  obtain ⟨us, f, hconstruct, hkinds, hf⟩ := hx.run hxs hbehind.lineOf_eq .empty he
  obtain ⟨vs, g, hvs, hg, hrest⟩ := Layout.tokens_margin hbehind hf
  refine ⟨ts ++ ([⟨.colon, loc⟩] ++ (us ++ vs)), g, ?_, hg,
    (SameKinds.refl ts).append (.cons rfl (hkinds.append hrest))⟩
  rw [Layout.lex_eq, hstart, htag.tokens, hrun.tokens, hconstruct.tokens, hvs, map_append_append,
    map_append_append, map_append_append]
  simp only [List.append_assoc]

/-- An indentation is made of one character. -/
structure Indentation (indent : List Char) : Prop where
  ne_nil : indent ≠ []
  blank : ∀ x ∈ indent, isIndent x
  same : ∀ x ∈ indent, some x = indent.head?

/-- The tokens of a source with the construct indented below the line of the tag. -/
theorem lex_nested (ht : OneLine tag ts) (hts : ∀ t ∈ ts, t.kind.opensText = false)
    (hx : OneLine construct xs) (hxs : ∀ x ∈ xs, x.kind.opensText = false)
    (hbehind : Following behind rest) (hindent : Indentation indent)
    (hnested : normalize nested.toList =
      normalize tag.toList ++ '\n' :: (indent ++ (normalize construct.toList ++ behind))) :
    ∃ us c mark, lex nested = (us ++ ·) <$> (⟨[], mark⟩ : Layout).tokens c ∧ c.rest = rest ∧
      SameKinds (ts ++ ⟨.indent indent.length, .nowhere⟩ :: (xs ++ [⟨.outdent, .nowhere⟩])) us := by
  have hstart : Layout.skipLeading ⟨normalize nested.toList, .start⟩ =
      ⟨normalize nested.toList, .start⟩ :=
    Layout.skipLeading_of_shown (hnested ▸ shown_append ht.shown ht.shown.indent _) rfl
  have hwidth : 0 < indent.length := List.length_pos_iff.mpr hindent.ne_nil
  obtain ⟨us, d, htag, hkinds, hd⟩ := ht.run hts rfl .empty (c := ⟨normalize nested.toList, .start⟩)
    hnested
  -- the line end opens a block
  have hsettle : Layout.settle { Layout.empty with mark := indent.head? } indent.length .nowhere =
      .ok ([⟨.indent indent.length, .nowhere⟩], ⟨[indent.length], indent.head?⟩) :=
    Layout.settle_of_gt hwidth
  obtain ⟨vs, e, hnew, hopen, he⟩ := Layout.newline_of_settle (l := .empty) .nil
    (shown_append hx.shown hindent.blank behind) hd hindent.same hsettle
  obtain ⟨ws, f, hconstruct, hbody, hf⟩ :=
    hx.run hxs hbehind.lineOf_eq ⟨[indent.length], indent.head?⟩ he
  obtain ⟨zs, g, hzs, hg, hrest⟩ := Layout.tokens_block hwidth hbehind hf
  refine ⟨us ++ (vs ++ (ws ++ zs)), g, indent.head?, ?_, hg,
    hkinds.append (hopen.append (hbody.append hrest))⟩
  have hline : Layout.empty.tokens d =
      (vs ++ ·) <$> (⟨[indent.length], indent.head?⟩ : Layout).tokens e := by
    rw [Layout.tokens_of_feed hd, hnew]
    rfl
  rw [Layout.lex_eq, hstart, htag.tokens, hline, hconstruct.tokens, hzs, map_append_append,
    map_append_append, map_append_append]
  simp only [List.append_assoc]

end Sources

end PugTemplate
