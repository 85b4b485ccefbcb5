import PugTemplate.Proofs.Lex.Local
import PugTemplate.Proofs.Lex.Opening
import PugTemplate.Proofs.Lex.Outline
import PugTemplate.Proofs.Lex.Trail

/-!
# A tag in front of a colon

A line for a tag is read the same with a colon and a blank behind it: no rule that passes by applies
because of the colon, and those that read the parts of a tag stop in front of it. Main statement:
`read_expanded`.
-/

namespace PugTemplate

namespace Cursor

variable {c d : Cursor} {more : List Char}

/-- The same place in a text with a colon, a blank and more behind it. -/
def expanded (c : Cursor) (more : List Char) : Cursor :=
  c.extend (':' :: ' ' :: more)

theorem rest_expanded (c : Cursor) (more : List Char) :
    (c.expanded more).rest = c.rest ++ ':' :: ' ' :: more := rfl

theorem skip_extend {n : Nat} (hn : n ≤ c.rest.length) (more : List Char) :
    (c.extend more).skip n = (c.skip n).extend more := by
  simp only [extend, skip, List.drop_append_of_le_length hn, List.take_append_of_le_length hn]

theorem skip_expanded {n : Nat} (hn : n ≤ c.rest.length) (more : List Char) :
    (c.expanded more).skip n = (c.skip n).expanded more :=
  skip_extend hn _

theorem isPrefixOf_append_colon {w : List Char} (hw : ':' ∉ w) (cs more : List Char) :
    w.isPrefixOf (cs ++ ':' :: more) = w.isPrefixOf cs := by
  induction w generalizing cs with
  | nil => rfl
  | cons x w ih =>
    rw [List.mem_cons, not_or] at hw
    cases cs with
    | nil =>
      have hx : (x == ':') = false := beq_false_of_ne fun h => hw.1 h.symm
      rw [List.nil_append, List.isPrefixOf_cons_cons, hx]
      rfl
    | cons y cs =>
      rw [List.cons_append, List.isPrefixOf_cons_cons, List.isPrefixOf_cons_cons, ih hw.2]

theorem startsWith_expanded {w : String} (hw : ':' ∉ w.toList) (c : Cursor) (more : List Char) :
    (c.expanded more).startsWith w = c.startsWith w :=
  isPrefixOf_append_colon hw c.rest _

theorem head?_expanded {p : Char → Bool} (hp : p ':' = false) (c : Cursor) (more : List Char) :
    (c.expanded more).rest.head?.any p = c.rest.head?.any p := by
  rw [rest_expanded]
  cases c.rest with
  | nil => exact hp
  | cons x xs => rfl

theorem keyword?_expanded {w : String} (hw : ':' ∉ w.toList) (c : Cursor) (more : List Char) :
    (c.expanded more).keyword? w = (c.keyword? w).map (·.expanded more) := by
  rw [keyword?, keyword?, startsWith_expanded hw]
  cases hs : c.startsWith w with
  | false => rfl
  | true =>
    rw [skip_expanded (startsWith_length hs), head?_expanded (by decide)]
    cases (c.skip w.toList.length).rest.head?.any isWordOrHyphen <;> rfl

theorem takeWhile_append_colon {p : Char → Bool} (hp : p ':' = false) (cs more : List Char) :
    (cs ++ ':' :: more).takeWhile p = cs.takeWhile p := by
  induction cs with
  | nil => rw [List.nil_append, List.takeWhile_cons_of_neg (by simp [hp]), List.takeWhile_nil]
  | cons x cs ih => rw [List.cons_append, List.takeWhile_cons, List.takeWhile_cons, ih]

theorem word_expanded (c : Cursor) (more : List Char) : (c.expanded more).word = c.word :=
  takeWhile_append_colon (by decide) c.rest _

theorem length_word_le (c : Cursor) : c.word.length ≤ c.rest.length :=
  (List.takeWhile_prefix _).length_le

theorem inside_expanded {b : Bracket} {content : List Char} (h : c.inside b = .ok (content, d))
    (more : List Char) : (c.expanded more).inside b = .ok (content, d.expanded more) := by
  unfold inside at h
  split at h
  next content' hin =>
    cases h
    have hle : content.length + 1 ≤ c.rest.length := Nesting.length_inside hin
    rw [inside, rest_expanded, Nesting.inside_append hin]
    dsimp only
    rw [skip_expanded hle]
  next => cases h

end Cursor

namespace Rule

open Cursor (expanded startsWith_expanded keyword?_expanded skip_expanded word_expanded
  inside_expanded)

variable {width : Nat} {c d : Cursor} {ts : List Token} {word mark : String} {more : List Char}

/-- A place in a line for a tag, with something left to read. The line does not end with a blank, and
what is left of it is not one of the words for the mode of a block. -/
structure InTag (c : Cursor) : Prop where
  ne_nil : c.rest ≠ []
  feed : '\n' ∉ c.rest
  last : ∀ before rest, c.rest = before ++ rest → allBlank rest → rest = []
  append : c.rest ≠ "append".toList
  prepend : c.rest ≠ "prepend".toList

/-! ## Rules that pass by -/

/-- The rule does not apply because of the colon. -/
def Passes (r : Rule) : Prop :=
  ∀ ⦃width c⦄, InTag c → r width c = none → ∀ more, r width (c.expanded more) = none

theorem passes_of_keyword (word : String) (hword : ':' ∉ word.toList)
    {f : Nat → Cursor → Cursor → Reading} :
    Passes fun width c => (c.keyword? word).map (f width c) := by
  intro width c _ h more
  rw [Option.map_eq_none_iff] at h ⊢
  rw [keyword?_expanded hword, h, Option.map_none]

theorem passes_of_startsWith (mark : String) (hmark : ':' ∉ mark.toList)
    {f : Nat → Cursor → Reading} :
    Passes fun width c => if c.startsWith mark then some (f width c) else none := by
  intro width c _ h more
  dsimp only at h ⊢
  split at h
  next => cases h
  next hs => rw [startsWith_expanded hmark, if_neg hs]

theorem passes_expression (keyword : ExprKeyword) (kind : String → TokenKind) :
    (expression keyword kind).Passes :=
  passes_of_keyword keyword.text (by cases keyword <;> decide)

theorem passes_eachWith (keyword : ExprKeyword) : (eachWith keyword).Passes :=
  passes_of_keyword keyword.text (by cases keyword <;> decide)

theorem passes_inherits : inherits.Passes := by
  intro width c _ h more
  rw [inherits, Option.map_eq_none_iff, Option.or_eq_none_iff] at h ⊢
  rw [keyword?_expanded (by decide), keyword?_expanded (by decide), h.1, h.2]
  exact ⟨rfl, rfl⟩

/-- A word that nothing is behind is all that is left. -/
theorem InTag.keyword?_eq_none (h : InTag c) (hword : c.rest ≠ word.toList)
    (hblank : ∀ d, c.keyword? word = some d → allBlank d.line) : c.keyword? word = none := by
  rw [Option.eq_none_iff_forall_ne_some]
  intro d hd
  have hline := hblank d hd
  unfold Cursor.keyword? at hd
  dsimp only at hd
  split at hd
  next hs =>
    cases hd
    obtain ⟨rest, hrest⟩ := List.isPrefixOf_iff_prefix.mp (Bool.and_eq_true_iff.mp hs).1
    have hfeed : '\n' ∉ rest := fun hmem => h.feed (hrest ▸ List.mem_append_right _ hmem)
    have hbehind : (c.skip word.toList.length).rest = rest := by
      rw [Cursor.rest_skip, ← hrest, List.drop_left]
    have hwhole : (c.skip word.toList.length).line = rest :=
      Cursor.line_eq (hbehind.trans (List.append_nil rest).symm) hfeed rfl
    have hnil := h.last _ _ hrest.symm (hwhole ▸ hline)
    exact hword (by rw [← hrest, hnil, List.append_nil])
  next => cases hd

theorem blockMode?_expanded (h : InTag c) (hmode : blockMode? c = none) (more : List Char) :
    blockMode? (c.expanded more) = none := by
  have hnone : c.keyword? "append" = none ∧ c.keyword? "prepend" = none := by
    unfold blockMode? at hmode
    split at hmode
    next d _ hd =>
      split at hmode
      next hblank =>
        have habsurd := h.keyword?_eq_none h.append fun e he => by
          cases hd.symm.trans he
          exact hblank
        exact nomatch hd.symm.trans habsurd
      next => cases hmode
    next d _ hd =>
      split at hmode
      next hblank =>
        have habsurd := h.keyword?_eq_none h.prepend fun e he => by
          cases hd.symm.trans he
          exact hblank
        exact nomatch hd.symm.trans habsurd
      next => cases hmode
    next ha hp => exact ⟨ha, hp⟩
  rw [blockMode?, keyword?_expanded (by decide), keyword?_expanded (by decide), hnone.1, hnone.2]
  rfl

theorem passes_block : block.Passes := by
  intro width c hc h more
  unfold block at h ⊢
  split at h
  next => cases h
  next hmode =>
    rw [Option.map_eq_none_iff] at h
    rw [blockMode?_expanded hc hmode]
    dsimp only
    rw [keyword?_expanded (by decide), h]
    rfl

theorem passes_call : call.Passes := by
  intro width c _ h more
  cases hs : c.startsWith "+" with
  | true => exact absurd h (Option.isSome_iff_ne_none.mp (isSome_call width hs))
  | false => rw [call, startsWith_expanded (by decide), hs, if_neg Bool.false_ne_true]

theorem passes_interpolation : interpolation.Passes := by
  intro width c _ h more
  unfold interpolation at h ⊢
  split at h
  next =>
    split at h
    · cases h
    · cases h
  next hs => rw [startsWith_expanded (by decide), if_neg hs]

theorem passes_tag : tag.Passes := by
  intro width c _ h more
  unfold tag at h ⊢
  split at h
  next => cases h
  next hs => rw [Cursor.head?_expanded (by decide), if_neg hs]

/-- A colon that is left of the line has one that is not a blank behind it. -/
theorem passes_colon : colon.Passes := by
  intro width c hc h more
  obtain ⟨x, xs, hrest⟩ := List.exists_cons_of_ne_nil hc.ne_nil
  unfold colon at h ⊢
  split at h
  next => cases h
  next hs =>
    rw [if_neg]
    simp only [Cursor.startsWith, Cursor.rest_expanded, hrest, Bool.or_eq_true, not_or] at hs ⊢
    cases xs with
    | nil => simp
    | cons y ys => simpa using hs

theorem passes_filter : filter.Passes := by
  intro width c hc h more
  have hlength : 1 ≤ c.rest.length := List.length_pos_iff.mpr hc.ne_nil
  unfold filter at h ⊢
  dsimp only at h ⊢
  rw [skip_expanded hlength, word_expanded]
  obtain ⟨x, xs, hrest⟩ := List.exists_cons_of_ne_nil hc.ne_nil
  have hs : (c.expanded more).startsWith ":" = c.startsWith ":" := by
    simp [Cursor.startsWith, Cursor.rest_expanded, hrest, List.isPrefixOf_cons_cons]
  rw [hs]
  split at h
  next =>
    split at h
    · split at h <;> cases h
    · cases h
  next hno => rw [if_neg hno]

/-- The colon shows, so nothing that ends its line applies. -/
theorem not_allBlank_expanded (hfeed : '\n' ∉ c.rest) (more : List Char) :
    allBlank (c.expanded more).line = false := by
  have hline : (c.expanded more).line = c.rest ++ lineOf (':' :: ' ' :: more) := by
    have hkeep : ∀ x ∈ c.rest, (x ≠ '\n' : Bool) := by
      intro x hx
      have hne : x ≠ '\n' := fun h => hfeed (h ▸ hx)
      simpa using hne
    rw [Cursor.line, Cursor.rest_expanded, lineOf, List.takeWhile_append_of_pos hkeep]
    rfl
  rw [hline, allBlank, List.all_append, Bool.and_eq_false_iff]
  exact .inr rfl

theorem passes_of_blankLine (mark : String) {f : Nat → Cursor → Reading} :
    Passes fun width c =>
      if c.startsWith mark && allBlank (c.skip 1).line then some (f width c) else none := by
  intro width c hc _ more
  have hlength : 1 ≤ c.rest.length := List.length_pos_iff.mpr hc.ne_nil
  have hfeed : '\n' ∉ (c.skip 1).rest := fun h => hc.feed (List.mem_of_mem_drop h)
  dsimp only
  rw [skip_expanded hlength, not_allBlank_expanded hfeed, Bool.and_false, if_neg Bool.false_ne_true]


theorem passes_code : code.Passes := by
  intro width c _ h more
  unfold code at h ⊢
  rw [startsWith_expanded (by decide), startsWith_expanded (by decide),
    startsWith_expanded (by decide)]
  split at h
  next => cases h
  next hne =>
    split at h
    next => cases h
    next heq =>
      split at h
      next => cases h
      next hmin => rw [if_neg hne, if_neg heq, if_neg hmin]

theorem passes_id : id.Passes := by
  intro width c _ h more
  unfold id at h ⊢
  rw [startsWith_expanded (by decide), startsWith_expanded (by decide)]
  split at h
  next => cases h
  next htext =>
    split at h
    next =>
      dsimp only at h
      split at h
      · cases h
      · cases h
    next hs => rw [if_neg htext, if_neg hs]

theorem passes_className : className.Passes := by
  intro width c _ h more
  unfold className at h ⊢
  rw [startsWith_expanded (by decide)]
  split at h
  next =>
    dsimp only at h
    split at h
    · cases h
    · cases h
  next hs => rw [if_neg hs]

theorem passes_text : text.Passes := by
  intro width c _ h more
  unfold text at h ⊢
  dsimp only at h ⊢
  rw [startsWith_expanded (by decide), startsWith_expanded (by decide)]
  split at h
  next => cases h
  next hpipe =>
    split at h
    next =>
      split at h
      · cases h
      · cases h
    next hs => rw [if_neg hpipe, if_neg hs]

theorem all_pass : ∀ r ∈ all, r.Passes := by
  simp only [all, List.forall_mem_cons, List.not_mem_nil, false_imp_iff, implies_true, and_true]
  exact ⟨passes_of_keyword "yield" (by decide), passes_of_keyword "doctype" (by decide),
    passes_interpolation, passes_expression _ _, passes_of_keyword "when" (by decide),
    passes_of_keyword "default" (by decide), passes_inherits, passes_block,
    passes_of_keyword "include" (by decide), passes_of_keyword "mixin" (by decide), passes_call,
    passes_of_keyword "else" (by decide), passes_expression _ _, passes_expression _ _,
    passes_eachWith _, passes_eachWith _, passes_expression _ _, passes_tag, passes_filter,
    passes_of_blankLine "-", passes_code, passes_id, passes_of_blankLine ".", passes_className,
    passes_of_startsWith "(" (by decide), passes_of_keyword "&attributes" (by decide), passes_text,
    passes_of_startsWith "<" (by decide), passes_of_startsWith "//" (by decide),
    passes_of_startsWith "/" (by decide), passes_colon⟩

/-! ## Rules that read a part of a tag -/

/-- What the rule reads of a tag, it reads in front of a colon. -/
def Stops (r : Rule) : Prop :=
  ∀ ⦃width c ts d⦄, InTag c → (∀ t ∈ ts, t.kind.isTagPart) → r width c = some (.ok (ts, d)) →
    ∀ more, r width (c.expanded more) = some (.ok (ts, d.expanded more))

theorem not_isOther (hts : ∀ t ∈ ts, t.kind.isTagPart) : ¬ Reading.IsOther (.ok (ts, d)) := by
  intro h
  obtain ⟨t, ht, hother⟩ := h rfl
  exact nomatch hother.symm.trans (hts t ht)

theorem stops_of_isOther {r : Rule} (h : r.IsOther) : r.Stops :=
  fun _ _ _ _ _ hts hr => absurd (h _ _ _ hr) (not_isOther hts)

theorem stops_text : text.Stops := by
  intro width c ts d hc hts hr
  refine absurd (isOther_text (fun hblank => ?_) hr) (not_isOther hts)
  have hline : c.line = c.rest := Cursor.line_eq (List.append_nil _).symm hc.feed rfl
  exact hc.ne_nil (hc.last [] c.rest rfl (hline ▸ hblank))

theorem stops_interpolation : interpolation.Stops := by
  intro width c ts d _ _ hr more
  unfold interpolation at hr ⊢
  split at hr
  next hs =>
    have hlength : 2 ≤ c.rest.length := Cursor.startsWith_length hs
    rw [startsWith_expanded (by decide), if_pos hs, skip_expanded hlength]
    split at hr
    next => cases hr
    next content e hin =>
      cases hr
      rw [inside_expanded hin]
      rfl
  next => cases hr

/-- A colon at the end of a name belongs to what follows. -/
theorem tagName_expanded (c : Cursor) (more : List Char) :
    tagName (c.expanded more).rest = tagName c.rest := by
  have htake (cs : List Char) :
      (cs ++ ':' :: ' ' :: more).takeWhile isTagChar = cs.takeWhile isTagChar ∨
        (cs ++ ':' :: ' ' :: more).takeWhile isTagChar = cs.takeWhile isTagChar ++ [':'] := by
    induction cs with
    | nil =>
      right
      rw [List.nil_append, List.takeWhile_cons_of_pos (by decide),
        List.takeWhile_cons_of_neg (by decide)]
      rfl
    | cons x cs ih =>
      rw [List.cons_append, List.takeWhile_cons, List.takeWhile_cons]
      split
      next => exact ih.imp (congrArg _) (congrArg _)
      next => exact .inl rfl
  rw [Cursor.rest_expanded, tagName, tagName]
  rcases htake c.rest with h | h
  · rw [h]
  · rw [h, List.reverse_append, List.reverse_singleton, List.singleton_append,
      List.dropWhile_cons_of_pos (by decide)]

theorem stops_tag : tag.Stops := by
  intro width c ts d _ _ hr more
  unfold tag at hr ⊢
  split at hr
  next hs =>
    cases hr
    have hlength := Nat.le_trans (length_tagName_le c) c.length_line_le
    rw [Cursor.head?_expanded (by decide), if_pos hs, tagName_expanded]
    dsimp only
    rw [skip_expanded hlength]
    rfl
  next => cases hr

theorem named_expanded (hs : c.startsWith mark) (hmark : mark.toList.length = 1)
    (more : List Char) :
    ((c.expanded more).skip 1).word = (c.skip 1).word ∧
      (c.expanded more).skip (1 + (c.skip 1).word.length) =
        (c.skip (1 + (c.skip 1).word.length)).expanded more := by
  have hlength : 1 ≤ c.rest.length := hmark ▸ Cursor.startsWith_length hs
  have hword := (c.skip 1).length_word_le
  rw [Cursor.length_skip] at hword
  rw [skip_expanded hlength, word_expanded]
  exact ⟨rfl, skip_expanded (by omega) more⟩

theorem stops_id : id.Stops := by
  intro width c ts d _ hts hr more
  unfold id at hr ⊢
  split at hr
  next =>
    -- a marker begins text
    have hother : (restAsText .text c).IsOther := .restAsText fun _ => rfl
    rw [Option.some.inj hr] at hother
    exact absurd hother (not_isOther hts)
  next htext =>
    split at hr
    next hs =>
      obtain ⟨hword, hnext⟩ := named_expanded hs rfl more
      rw [startsWith_expanded (by decide), startsWith_expanded (by decide), if_neg htext, if_pos hs]
      dsimp only at hr ⊢
      rw [hword, hnext]
      split at hr
      next hname =>
        cases hr
        rw [if_pos hname]
        rfl
      next => cases hr
    next => cases hr

theorem stops_className : className.Stops := by
  intro width c ts d _ _ hr more
  unfold className at hr ⊢
  split at hr
  next hs =>
    obtain ⟨hword, hnext⟩ := named_expanded hs rfl more
    rw [startsWith_expanded (by decide), if_pos hs]
    dsimp only at hr ⊢
    rw [hword, hnext]
    split at hr
    next hname =>
      cases hr
      rw [if_pos hname]
      rfl
    next => cases hr
  next => cases hr

theorem stops_attributes : attributes.Stops := by
  intro width c ts d _ _ hr more
  unfold attributes attributeList at hr ⊢
  split at hr
  next hs =>
    have hlength : 1 ≤ c.rest.length := Cursor.startsWith_length hs
    rw [startsWith_expanded (by decide), if_pos hs, skip_expanded hlength]
    replace hr := Option.some.inj hr
    split at hr
    next => cases hr
    next content e hin =>
      rw [inside_expanded hin]
      split at hr
      next => cases hr
      next tokens htokens =>
        cases hr
        dsimp only
        rw [show ((c.skip 1).expanded more).loc = (c.skip 1).loc from rfl, htokens]
        rfl
  next => cases hr

theorem stops_spread : spread.Stops := by
  intro width c ts d _ _ hr more
  unfold spread at hr ⊢
  obtain ⟨e, he, hr⟩ := Option.map_eq_some_iff.mp hr
  rw [keyword?_expanded (by decide), he]
  refine congrArg some ?_
  dsimp only
  split at hr
  next hs =>
    have hlength : 1 ≤ e.rest.length := Cursor.startsWith_length hs
    rw [startsWith_expanded (by decide), if_pos hs, skip_expanded hlength]
    split at hr
    next => cases hr
    next content f hin =>
      cases hr
      rw [inside_expanded hin]
      rfl
  next => cases hr

theorem all_stop : ∀ r ∈ all, r.Stops := by
  simp only [all, List.forall_mem_cons, List.not_mem_nil, false_imp_iff, implies_true, and_true]
  refine ⟨?_, ?_, stops_interpolation, ?_, ?_, ?_, ?_, ?_, ?_, ?_, ?_, ?_, ?_, ?_, ?_, ?_, ?_,
    stops_tag, ?_, ?_, ?_, stops_id, ?_, stops_className, stops_attributes, stops_spread,
    stops_text, ?_, ?_, ?_, ?_⟩
  all_goals apply stops_of_isOther
  · exact isOther_yieldWord
  · exact isOther_doctype
  · exact isOther_expression _ fun _ => rfl
  · exact isOther_when
  · exact isOther_defaultWord
  · exact isOther_inherits
  · exact isOther_block
  · exact isOther_includes
  · exact isOther_mixin
  · exact isOther_call
  · exact isOther_otherwise
  · exact isOther_expression _ fun _ => rfl
  · exact isOther_expression _ fun _ => rfl
  · exact isOther_eachWith _
  · exact isOther_eachWith _
  · exact isOther_expression _ fun _ => rfl
  · exact isOther_filter
  · exact isOther_codeBlock
  · exact isOther_code
  · exact isOther_dot
  · exact isOther_html
  · exact isOther_comment
  · exact isOther_slash
  · exact isOther_colon

/-- A part of a tag is read the same in front of a colon. -/
theorem read_expanded (hc : InTag c) (hts : ∀ t ∈ ts, t.kind.isTagPart)
    (h : read width c = .ok (ts, d)) (more : List Char) :
    read width (c.expanded more) = .ok (ts, d.expanded more) := by
  have hfirst (rules : List Rule) (hrules : ∀ r ∈ rules, r ∈ all)
      (h : first rules width c = some (.ok (ts, d))) :
      first rules width (c.expanded more) = some (.ok (ts, d.expanded more)) := by
    induction rules with
    | nil => cases h
    | cons r rules ih =>
      obtain ⟨hr, hrules⟩ := List.forall_mem_cons.mp hrules
      rw [first, List.findSome?_cons] at h ⊢
      split at h
      next x hx =>
        cases h
        rw [all_stop r hr hc hts hx more]
      next hx =>
        rw [all_pass r hr hc hx more]
        exact ih hrules h
  unfold read at h ⊢
  cases hx : first all width c with
  | none =>
    rw [hx] at h
    cases h
  | some x =>
    rw [hx] at h
    cases h
    rw [hfirst all (fun _ h => h) hx]
    rfl

/-- Behind a tag, a colon and a blank lead to what stands in its place. -/
theorem read_colon (hc : c.rest = ':' :: ' ' :: more) :
    read width c = .ok ([⟨.colon, c.loc⟩], (c.skip 1).skipIndent) := by
  refine read_eq_of_before 30 rfl ?_ ?_
  · obtain ⟨_, loc⟩ := c
    cases hc
    simp only [all, List.take_succ_cons, List.take_zero, List.forall_mem_cons, List.not_mem_nil,
      false_imp_iff, implies_true, and_true]
    exact ⟨rfl, rfl, rfl, rfl, rfl, rfl, rfl, rfl, rfl, rfl, rfl, rfl, rfl, rfl, rfl, rfl, rfl, rfl,
      rfl, rfl, rfl, rfl, rfl, rfl, rfl, rfl, rfl, rfl, rfl, rfl⟩
  · rw [colon, if_pos]
    · rfl
    · rw [Cursor.startsWith, hc]
      rfl

end Rule

end PugTemplate
