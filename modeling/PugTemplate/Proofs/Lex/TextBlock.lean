import PugTemplate.Proofs.Lex.Expansion

/-!
# Reading a block of text

Deeper lines below a line are a block of text, up to the next line that shows something and is not
deeper. Blank lines between the two belong to neither: they are passed over, and the line behind them
is read as if it stood alone.
-/

namespace PugTemplate

namespace Pipeless

variable {width base : Nat} {lines : List (List Char)} {behind rest : List Char} {c : Cursor}

/-! ## The lines that are found -/

theorem lineOf_append {line more : List Char} (hline : '\n' ∉ line) (hmore : lineOf more = []) :
    lineOf (line ++ more) = line := by
  have hkeep : ∀ x ∈ line, (x ≠ '\n' : Bool) := fun x hx =>
    decide_eq_true fun h => hline (h ▸ hx)
  rw [lineOf, List.takeWhile_append_of_pos hkeep, ← lineOf, hmore, List.append_nil]

/-- Lines that are blank or deeper belong to the block. -/
theorem deeperLines_joined (hfeed : ∀ line ∈ lines, '\n' ∉ line)
    (hdeep : ∀ line ∈ lines, allBlank line = false → width < indentOf line)
    (hbehind : lineOf behind = []) :
    deeperLines width (joined lines ++ behind) = lines ++ deeperLines width behind := by
  induction lines with
  | nil => rfl
  | cons line lines ih =>
    rw [List.forall_mem_cons] at hfeed hdeep
    have hnext : lineOf (joined lines ++ behind) = [] := by
      cases lines with
      | nil => exact hbehind
      | cons => rfl
    have hkept : ¬ (!allBlank line && decide (indentOf line ≤ width)) = true := by
      cases hb : allBlank line with
      | true => simp
      | false => simpa using hdeep.1 hb
    have hcs : joined (line :: lines) ++ behind = '\n' :: (line ++ (joined lines ++ behind)) := by
      simp [joined]
    rw [hcs, deeperLines_cons, lineOf_append hfeed.1 hnext, if_neg hkept, List.drop_left,
      ih hfeed.2 hdeep.2]
    rfl

/-- Up to a line that is not deeper, all further lines are blank. -/
theorem allBlank_of_following (h : Following behind rest) :
    ∀ line ∈ deeperLines width behind, allBlank line := by
  cases h with
  | none hblank _ =>
    intro line hline
    refine List.all_eq_true.mpr fun x hx => List.all_eq_true.mp hblank x ?_
    exact (joined_deeperLines width behind).1.subset
      (List.mem_flatMap.mpr ⟨line, hline, List.mem_cons_of_mem _ hx⟩)
  | lines hgap hs =>
    obtain ⟨blanks, hblanks, hmore⟩ := deeperLines_gap width hgap
    rw [hmore, ← List.nil_append rest, deeperLines_of_le hs (Nat.zero_le _), List.append_nil]
    exact hblanks

theorem dropBlankEnd_append_blank {blanks : List (List Char)}
    (hlast : ∃ last, lines.getLast? = some last ∧ allBlank last = false)
    (hblanks : ∀ line ∈ blanks, allBlank line) : dropBlankEnd (lines ++ blanks) = lines := by
  obtain ⟨last, hlast, hb⟩ := hlast
  obtain ⟨init, rfl⟩ := List.getLast?_eq_some_iff.mp hlast
  have hdrop : ∀ line ∈ blanks.reverse, allBlank line :=
    fun line hl => hblanks line (List.mem_reverse.mp hl)
  rw [dropBlankEnd, List.reverse_append, List.dropWhile_append_of_pos hdrop, List.reverse_append,
    List.reverse_singleton, List.singleton_append, List.dropWhile_cons_of_neg (by simp [hb])]
  simp

/-- A width that all lines have and one has exactly is the common one. -/
theorem commonIndent_eq (hdeep : ∀ line ∈ lines, allBlank line = false → base ≤ indentOf line)
    (hone : ∃ line ∈ lines, allBlank line = false ∧ indentOf line = base) :
    commonIndent lines = base := by
  obtain ⟨line, hline, hb, rfl⟩ := hone
  have hmin : ((lines.filter fun l => !allBlank l).map indentOf).min? = some (indentOf line) := by
    refine List.min?_eq_some_iff.mpr ⟨?_, fun n hn => ?_⟩
    · exact List.mem_map_of_mem (List.mem_filter.mpr ⟨hline, by simp [hb]⟩)
    · obtain ⟨l, hl, rfl⟩ := List.mem_map.mp hn
      obtain ⟨hl, hb⟩ := List.mem_filter.mp hl
      exact hdeep l hl (by simpa using hb)
  rw [commonIndent, hmin, Option.getD_some]

/-! ## The tokens of the lines -/

/-- What the tokens of the lines of a block are, wherever they stand. -/
def kinds (texts : List (List Char)) : List TokenKind :=
  (texts.map fun text => TokenKind.text (String.ofList text)).intersperse .newline

theorem kinds_cons (text : List Char) (more : List (List Char)) :
    kinds (text :: more) = .text (String.ofList text) ::
      more.flatMap fun t => [TokenKind.newline, .text (String.ofList t)] := by
  induction more generalizing text with
  | nil => rfl
  | cons t more ih =>
    have ih := ih t
    rw [kinds, List.map_cons] at ih
    rw [kinds, List.map_cons, List.map_cons, List.intersperse_cons_cons, ih]
    rfl

/-- A line whose markers are closed is read, behind the line end that is read in front of it unless
it is the first. -/
theorem lineTokens_of_closed {check first : Bool} {line : List Char} {ts : List Token}
    (hclosed : Piece.firstBroken? (Piece.split 0 (shownText base line)) = none)
    (hts : lineTokens check base false ((c.skip 1).skip line.length) lines = .ok ts) :
    lineTokens check base first c (line :: lines) =
      .ok ((if first then [] else [⟨.newline, (c.skip 1).loc⟩]) ++
        ⟨.text (String.ofList (shownText base line)), (shownAt base c line).loc⟩ :: ts) := by
  have hcheck : checkMarkers (shownAt base c line).loc (shownText base line) = .ok () := by
    rw [checkMarkers, hclosed]
  rw [lineTokens_cons, hts, hcheck]
  cases check <;> cases first <;> rfl

/-- Lines whose markers are closed are read. -/
theorem exists_lineTokens (check : Bool) (c : Cursor)
    (h : ∀ line ∈ lines, Piece.firstBroken? (Piece.split 0 (shownText base line)) = none) :
    ∃ ts, lineTokens check base true c lines = .ok ts ∧
      ts.map Token.kind = kinds (lines.map (shownText base)) := by
  -- behind the first line, each one comes with a line end
  have hmore {lines : List (List Char)} (c : Cursor)
      (h : ∀ line ∈ lines, Piece.firstBroken? (Piece.split 0 (shownText base line)) = none) :
      ∃ ts, lineTokens check base false c lines = .ok ts ∧
        ts.map Token.kind = (lines.map (shownText base)).flatMap
          fun text => [.newline, .text (String.ofList text)] := by
    induction lines generalizing c with
    | nil => exact ⟨[], rfl, rfl⟩
    | cons line lines ih =>
      rw [List.forall_mem_cons] at h
      obtain ⟨ts, hts, hkinds⟩ := ih ((c.skip 1).skip line.length) h.2
      refine ⟨_, lineTokens_of_closed h.1 hts, ?_⟩
      rw [List.map_append, List.map_cons, hkinds]
      rfl
  cases lines with
  | nil => exact ⟨[], rfl, rfl⟩
  | cons line lines =>
    rw [List.forall_mem_cons] at h
    obtain ⟨ts, hts, hkinds⟩ := hmore ((c.skip 1).skip line.length) h.2
    refine ⟨_, lineTokens_of_closed h.1 hts, ?_⟩
    rw [List.map_append, List.map_cons, hkinds, List.map_cons, kinds_cons]
    rfl

/-- Lines of a block: each that shows something is indented by some width at least, one of them by no
more, and the last one shows something. -/
structure Block (base : Nat) (lines : List (List Char)) : Prop where
  oneLine : ∀ line ∈ lines, '\n' ∉ line
  deep : ∀ line ∈ lines, allBlank line = false → base ≤ indentOf line
  flush : ∃ line ∈ lines, allBlank line = false ∧ indentOf line = base
  last : ∃ line, lines.getLast? = some line ∧ allBlank line = false

/-- A block is read through its last line, and the width of its lines is taken off. -/
theorem Block.read (h : Block base lines) (hwidth : width < base)
    (hclosed : ∀ line ∈ lines, Piece.firstBroken? (Piece.split 0 (shownText base line)) = none)
    (hbehind : Following behind rest) (hc : c.rest = joined lines ++ behind) (check : Bool) :
    ∃ loc at_ ts, Pipeless.read check width c =
        .ok (⟨.pipelessStart, loc⟩ :: (ts ++ [⟨.pipelessEnd, at_⟩]), c.skip (joined lines).length) ∧
      ts.map Token.kind = kinds (lines.map (shownText base)) := by
  have hdeeper : deeperLines width c.rest = lines ++ deeperLines width behind := by
    rw [hc]
    exact deeperLines_joined h.oneLine (fun line hl hb => Nat.lt_of_lt_of_le hwidth (h.deep line hl hb))
      hbehind.lineOf_eq
  have hlines : dropBlankEnd (deeperLines width c.rest) = lines := by
    rw [hdeeper]
    exact dropBlankEnd_append_blank h.last (allBlank_of_following hbehind)
  have hne : lines ≠ [] := by
    rintro rfl
    obtain ⟨line, hnil, -⟩ := h.last
    exact nomatch hnil
  obtain ⟨ts, hts, hkinds⟩ := exists_lineTokens check c hclosed
  refine ⟨c.loc, (c.skip (joined lines).length).loc, ts, ?_, hkinds⟩
  rw [Pipeless.read, hlines, if_neg hne, commonIndent_eq h.deep h.flush, hts, length_joined]
  rfl

end Pipeless

/-! ## The line behind it -/

namespace Cursor

/-- The place behind some text is told by what is left. -/
theorem Reaches.eq_of_rest {c d : Cursor} (h : c.Reaches d) {before : List Char}
    (hc : c.rest = before ++ d.rest) (hd : d.rest ≠ []) : d = c.skip before.length := by
  obtain ⟨n, rfl⟩ := h
  have hlength := congrArg List.length hc
  have hpos := List.length_pos_iff.mpr hd
  rw [rest_skip, List.length_drop] at hpos
  rw [rest_skip, List.length_append, List.length_drop] at hlength
  rw [show n = before.length by omega]

end Cursor

namespace Layout

variable {gap rest : List Char} {c : Cursor}

/-- At the margin, a line end leads on to the next line that shows something. -/
theorem newline_margin (hgap : BlankLines gap) (hs : Shown [] rest)
    (hc : c.rest = '\n' :: (gap ++ rest)) :
    newline empty c = .ok ([⟨.newline, (c.skip (gap.length + 1)).loc⟩], empty,
      c.skip (gap.length + 1)) := by
  have hne : rest ≠ [] := hs.ne_nil
  have hnext : nextLine c = c.skip (gap.length + 1) := by
    have hrest : (nextLine c).rest = rest := rest_nextLine hgap hs hc
    have hbefore : (c.skip 1).rest = gap ++ (nextLine c).rest := by
      rw [hrest, Cursor.rest_skip, hc]
      rfl
    rw [(reaches_nextLine c).eq_of_rest hbefore (hrest ▸ hne), Cursor.skip_skip, Nat.add_comm]
  have hrest : (c.skip (gap.length + 1)).rest = rest := by
    rw [Cursor.rest_skip, hc, List.drop_succ_cons, List.drop_left]
  have hindent : rest.takeWhile isIndent = [] := hs.takeWhile_eq
  unfold newline
  dsimp only
  rw [hnext, skipIndent_of_shown hs hrest, hrest, if_neg hne, hindent]
  rfl

/-- Behind a line end at the margin, the lines that follow are read as a source of their own. -/
theorem tokens_following (hgap : BlankLines gap) (hs : Shown [] rest)
    (hc : c.rest = '\n' :: (gap ++ rest)) :
    empty.tokens c = (⟨.newline, (c.skip (gap.length + 1)).loc⟩ :: ·) <$>
      lexAt (String.ofList rest) (c.skip (gap.length + 1)).loc := by
  have hrest : (c.skip (gap.length + 1)).rest = rest := by
    rw [Cursor.rest_skip, hc, List.drop_succ_cons, List.drop_left]
  have hself : (⟨rest, (c.skip (gap.length + 1)).loc⟩ : Cursor) = c.skip (gap.length + 1) := by
    rw [← hrest]
  rw [tokens_of_feed hc, newline_margin hgap hs hc, lexAt, String.toList_ofList,
    skipLeading_of_shown hs rfl, hself]
  rfl

end Layout

/-- Text that ends in a line feed leads to the first column. -/
theorem Location.behind_feed (before : List Char) :
    Location.behind (before ++ ['\n']) = ⟨before.count '\n' + 2, 1⟩ := by
  simp [Location.behind, byteLength]
  omega

/-- A line end and blank lines lead to the first column. -/
theorem BlankLines.exists_feed {gap : List Char} (h : BlankLines gap) :
    ∃ init, '\n' :: gap = init ++ ['\n'] ∧ init.count '\n' = gap.count '\n' := by
  induction h with
  | nil => exact ⟨[], rfl, rfl⟩
  | @cons line rest _ hfeed _ ih =>
    obtain ⟨init, heq, hcount⟩ := ih
    refine ⟨'\n' :: (line ++ init), ?_, ?_⟩
    · rw [heq]
      simp
    · simp [List.count_eq_zero_of_not_mem hfeed, hcount]

end PugTemplate
