import PugTemplate.Proofs.Lex.Gap
import PugTemplate.Proofs.Lex.Pass

/-!
# A comment in a line of its own

A comment put in front of a line, at the indentation of that line, adds two tokens to the stream: the
comment and a line end. All other tokens stay as they are, up to where they stand.
-/

namespace PugTemplate

/-- A comment that is not shown, and its line end. -/
def commentLine (note : List Char) : List Char :=
  '/' :: '/' :: '-' :: (note ++ ['\n'])

namespace Rule

variable {width : Nat} {c : Cursor} {rest : List Char}

/-- A comment reaches to the end of its line where no deeper line is below. -/
theorem read_comment {note below : List Char} (hnote : '\n' ∉ note)
    (hc : c.rest = commentLine note ++ below)
    (hbelow : Pipeless.deeperLines width ('\n' :: below) = []) :
    ∃ d, read width c = .ok ([⟨.comment (String.ofList note) false, c.loc⟩], d) ∧
      d.rest = '\n' :: below := by
  have hrest : c.rest = '/' :: '/' :: '-' :: (note ++ '\n' :: below) := by
    rw [hc, commentLine]
    simp
  have hstart : c.startsWith "//" := by
    rw [Cursor.startsWith, hrest]
    rfl
  have hmark : (c.skip 2).startsWith "-" := by
    rw [Cursor.startsWith, Cursor.rest_skip, hrest]
    rfl
  have hbehind : ((c.skip 2).skip 1).rest = note ++ '\n' :: below := by
    rw [Cursor.rest_skip, Cursor.rest_skip, hrest]
    rfl
  have hline : ((c.skip 2).skip 1).line = note := Cursor.line_eq hbehind hnote rfl
  have hend : ((c.skip 2).skip 1).skipLine.rest = '\n' :: below := by
    rw [Cursor.skipLine, hline]
    exact (Cursor.line_skip hbehind hnote).1
  have hblock : Pipeless.read false width ((c.skip 2).skip 1).skipLine =
      .ok ([], ((c.skip 2).skip 1).skipLine) := by
    rw [Pipeless.read, hend, hbelow]
    rfl
  refine ⟨_, read_eq_of_before 28 rfl (before_of_head hrest (by decide)) ?_, hend⟩
  rw [comment, if_pos hstart]
  dsimp only
  rw [hmark]
  simp only [Bool.not_true, Bool.false_eq_true, if_false, hline, withPipeless, hblock]

end Rule

namespace Layout

variable {l m : Layout} {c d : Cursor} {text before gap indent shown note : List Char}
  {ts more : List Token}

theorem fits_of_settle {width : Nat} {loc : Location} (hfits : l.Fits indent)
    (h : settle { l with mark := l.mark.or indent.head? } width loc = .ok (ts, m)) :
    m.Fits indent ∧ { m with mark := m.mark.or indent.head? } = m := by
  have hmark : m.mark = l.mark.or indent.head? := mark_of_settle h
  have hor : m.mark.or indent.head? = m.mark := by
    rw [hmark, Option.or_assoc, Option.or_self]
  refine ⟨fun x hx => ?_, by rw [hor]⟩
  rw [hor, hmark]
  exact hfits x hx

/-- A line at the indentation of the one above. -/
theorem newline_level (hs : Shown indent shown) (hw : l.width = indent.length)
    (hfits : l.Fits indent) (hmark : { l with mark := l.mark.or indent.head? } = l)
    (hc : c.rest = '\n' :: (indent ++ shown)) :
    ∃ loc d, newline l c = .ok ([⟨.newline, loc⟩], l, d) ∧ d.rest = shown := by
  have hsettle : settle { l with mark := l.mark.or indent.head? } indent.length c.loc =
      .ok ([⟨.newline, c.loc⟩], l) := by
    rw [hmark]
    exact settle_of_eq hw.symm
  obtain ⟨us, d, hus, hkinds, hd⟩ := newline_of_settle .nil hs hc hfits hsettle
  obtain ⟨u, vs, rfl, hu, hvs⟩ := hkinds.uncons
  obtain rfl := hvs.eq_nil
  obtain ⟨_, loc⟩ := u
  cases hu
  exact ⟨loc, d, hus, hd⟩

/-- Behind a comment in a line of its own, the line below it is read as without the comment. -/
theorem tokens_commentLine (hnote : '\n' ∉ note) (hs : Shown indent shown)
    (hw : l.width = indent.length) (hfits : l.Fits indent)
    (hmark : { l with mark := l.mark.or indent.head? } = l)
    (hc : c.rest = commentLine note ++ (indent ++ shown)) (hd : d.rest = shown)
    (hok : l.tokens d = .ok more) :
    ∃ at_ loc us, l.tokens c =
        .ok (⟨.comment (String.ofList note) false, at_⟩ :: ⟨.newline, loc⟩ :: us) ∧
      SameKinds more us := by
  have hbelow := Pipeless.deeperLines_of_le hs (Nat.le_of_eq hw.symm)
  obtain ⟨e, hread, he⟩ := Rule.read_comment hnote hc hbelow
  obtain ⟨loc, d', hnew, hd'⟩ := newline_level hs hw hfits hmark he
  obtain ⟨us, hus, hkinds⟩ := sameKinds_tokens (d := d') (hd'.trans hd.symm) hok
  have hne : c.rest ≠ [] := by simp [hc, commentLine]
  refine ⟨c.loc, loc, us, ?_, hkinds⟩
  rw [tokens_of_ne hne, step_of_read hc (by decide) hread]
  show ([_] ++ ·) <$> l.tokens e = _
  rw [tokens_of_feed he, hnew]
  show ([_] ++ ·) <$> (([_] ++ ·) <$> l.tokens d') = _
  rw [hus]
  rfl

/-- The lexer begins a line: with the text in front of it, its indentation and what it shows, the
tokens read by then and the blocks that are open in the line. -/
inductive BeginsLine (text : List Char) :
    (before indent shown : List Char) → List Token → Layout → Prop where
  | first {gap shown : List Char} (hgap : BlankLines gap) (hs : Shown [] shown)
      (htext : text = gap ++ shown) : BeginsLine text gap [] shown [] empty
  | below {before gap indent shown : List Char} {ts us : List Token} {l m : Layout} {c d : Cursor}
      (hrun : Run empty (skipLeading ⟨text, .start⟩) ts l c) (hgap : BlankLines gap)
      (hs : Shown indent shown) (hc : c.rest = '\n' :: (gap ++ (indent ++ shown)))
      (hnew : newline l c = .ok (us, m, d)) (htext : text = before ++ '\n' :: (gap ++ (indent ++ shown))) :
      BeginsLine text (before ++ '\n' :: gap) indent shown (ts ++ us) m

/-- The tokens of a source, and those of the source with a comment in front of one of its lines. -/
theorem BeginsLine.tokens (h : BeginsLine text before indent shown ts m) (hnote : '\n' ∉ note)
    {whole : List Token} (hok : empty.tokens (skipLeading ⟨text, .start⟩) = .ok whole) :
    text = before ++ (indent ++ shown) ∧
      ∃ d more, d.rest = shown ∧ m.tokens d = .ok more ∧ whole = ts ++ more ∧
        ∃ us at_ loc vs,
          empty.tokens (skipLeading ⟨before ++ (indent ++ (commentLine note ++ (indent ++ shown))),
            .start⟩) =
            .ok (us ++ ⟨.comment (String.ofList note) false, at_⟩ :: ⟨.newline, loc⟩ :: vs) ∧
          SameKinds ts us ∧ SameKinds more vs := by
  have hcomment : Shown indent (commentLine note ++ (indent ++ shown)) := by
    cases h with
    | first => exact ⟨nofun, rfl⟩
    | below _ _ hs => exact ⟨hs.indent, rfl⟩
  cases h with
  | first hgap hs htext =>
    have hshown := rest_skipLeading_gap (c := ⟨text, .start⟩) hgap hs htext
    have hstart := rest_skipLeading_gap (c := ⟨before ++ (commentLine note ++ shown), .start⟩) hgap
      hcomment rfl
    obtain ⟨at_, loc, vs, hvs, hkinds⟩ := tokens_commentLine (l := empty) hnote hs rfl nofun rfl
      hstart hshown hok
    exact ⟨htext, _, whole, hshown, hok, rfl, [], at_, loc, vs, hvs, .refl [], hkinds⟩
  | @below start gap indent shown ts us l m c d hrun hgap hs hc hnew htext =>
    obtain ⟨hd, hfits, at_, hsettle⟩ := newline_shown hgap hs hc hnew
    obtain ⟨hfits', hmark⟩ := fits_of_settle hfits hsettle
    have hw : m.width = indent.length := width_of_settle hsettle
    rw [hrun.tokens, tokens_of_feed hc, hnew] at hok
    obtain ⟨first, hfirst, hwhole⟩ := of_bind_eq_ok hok
    obtain ⟨more, hmore, hmap⟩ := of_bind_eq_ok (x := m.tokens d) hfirst
    cases hmap
    cases hwhole
    -- the same tokens lead to the same line end, and below it to the comment
    have hbeside : (⟨text, .start⟩ : Cursor).Beside ('\n' :: (gap ++ (indent ++ shown)))
        ('\n' :: (gap ++ (indent ++ (commentLine note ++ (indent ++ shown)))))
        ⟨start ++ '\n' :: (gap ++ (indent ++ (commentLine note ++ (indent ++ shown)))), .start⟩ :=
      ⟨by rw [Cursor.line, Cursor.line, htext]; exact Cursor.lineOf_append_congr _ rfl,
        fun _ => ⟨start, htext, rfl⟩⟩
    have hahead : ('\n' :: (gap ++ (indent ++ shown))).length ≤
        (skipLeading ⟨text, .start⟩).rest.length := hc ▸ hrun.length_le
    obtain ⟨ts', c', hrun', hkinds, hc'⟩ := hrun.beside hc
      (Pipeless.level_of_shown hgap hs hcomment) (beside_skipLeading hbeside hahead)
    obtain ⟨us', d', hnew', hkinds', hd'⟩ := newline_of_settle hgap hcomment hc' hfits hsettle
    obtain ⟨at', loc, vs, hvs, hsame⟩ := tokens_commentLine hnote hs hw hfits' hmark hd' hd hmore
    refine ⟨by rw [htext]; simp, d, more, hd, hmore, by simp, ts' ++ us', at', loc, vs, ?_,
      hkinds.append hkinds', hsame⟩
    have htext' : start ++ '\n' :: gap ++ (indent ++ (commentLine note ++ (indent ++ shown))) =
        start ++ '\n' :: (gap ++ (indent ++ (commentLine note ++ (indent ++ shown)))) := by simp
    rw [htext', hrun'.tokens, tokens_of_feed hc', hnew']
    show (ts' ++ ·) <$> ((us' ++ ·) <$> m.tokens d') = _
    rw [hvs, List.append_assoc]
    rfl

end Layout

end PugTemplate
