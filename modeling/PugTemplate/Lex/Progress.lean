import PugTemplate.Lex.Mark

/-!
# Every rule leaves less text

A rule that succeeds stands further on than it started, so a text is read in at most as many steps
as it has characters. Main statement: `length_read_lt`.
-/

namespace PugTemplate

namespace Cursor

theorem rest_of_startsWith {c : Cursor} {text : String} {a : Char} {t : List Char}
    (ht : text.toList = a :: t) (h : c.startsWith text = true) : ∃ cs, c.rest = a :: cs := by
  simp only [startsWith, ht] at h
  cases hr : c.rest with
  | nil => simp [hr] at h
  | cons b cs =>
    simp only [hr, List.isPrefixOf_cons_cons, Bool.and_eq_true, beq_iff_eq] at h
    exact ⟨cs, by rw [h.1]⟩

theorem length_skipLine_lt {c : Cursor} {a : Char} {cs : List Char} (h : c.rest = a :: cs)
    (ha : a ≠ '\n') : c.skipLine.rest.length < c.rest.length := by
  have hl : 0 < c.line.length := by simp [line, lineOf, h, ha]
  rw [skipLine, length_skip, h]
  simp only [List.length_cons]
  omega

theorem length_skip_lt {c : Cursor} {n : Nat} (hr : 0 < c.rest.length) (hn : 0 < n) :
    (c.skip n).rest.length < c.rest.length := by
  rw [length_skip]
  omega

end Cursor

namespace Rule

/-! ## Steps that rules are made of -/

theorem eq_of_emit {kind : TokenKind} {loc : Location} {next d : Cursor} {tokens : List Token}
    (h : emit kind loc next = .ok (tokens, d)) : d = next := by
  simp only [emit, Except.ok.injEq, Prod.mk.injEq] at h
  exact h.2.symm

theorem refuse_ne_ok {cause : LexCause} {loc : Location} {out : List Token × Cursor} :
    refuse cause loc ≠ .ok out := by
  simp [refuse]

theorem length_of_keyword {c d : Cursor} {word : String} (h : c.keyword? word = some d)
    (hw : 0 < word.toList.length) : d.rest.length < c.rest.length := by
  obtain ⟨rfl, hl⟩ := Cursor.keyword?_eq_skip h
  rw [Cursor.length_skip]
  omega

theorem length_of_restAsText {kind : String → TokenKind} {c d : Cursor} {tokens : List Token}
    (h : restAsText kind c = .ok (tokens, d)) : d = c.skipLine := by
  unfold restAsText at h
  split at h
  · exact eq_of_emit h
  · simp at h

theorem length_of_withPipeless {check : Bool} {width : Nat} {first : Token} {c d : Cursor}
    {tokens : List Token} (h : withPipeless check width first c = .ok (tokens, d)) :
    d.rest.length ≤ c.rest.length := by
  unfold withPipeless at h
  split at h
  next tokens' d' hp =>
    simp only [Except.ok.injEq, Prod.mk.injEq] at h
    rw [← h.2]
    exact Pipeless.length_read_le hp
  next => simp at h

theorem length_of_attributeList {c d : Cursor} {tokens : List Token}
    (h : attributeList c = .ok (tokens, d)) : d.rest.length ≤ c.rest.length - 1 := by
  unfold attributeList at h
  split at h
  · simp at h
  next content e he =>
    split at h
    · simp at h
    · simp only [Except.ok.injEq, Prod.mk.injEq] at h
      have := Cursor.length_inside he
      rw [Cursor.length_skip] at this
      rw [← h.2]
      omega

theorem length_of_filterBody {width : Nat} {c d : Cursor} {before tokens : List Token}
    (h : filterBody width before c = .ok (tokens, d)) : d.rest.length ≤ c.rest.length := by
  unfold filterBody at h
  split at h
  · split at h
    next more e hp =>
      simp only [Except.ok.injEq, Prod.mk.injEq] at h
      rw [← h.2]
      exact Nat.le_trans (Pipeless.length_read_le hp) c.length_skipLine_le
    next => simp at h
  · simp only [Except.ok.injEq, Prod.mk.injEq] at h
    exact Nat.le_of_eq (congrArg (List.length ·.rest) h.2.symm)

theorem length_of_path {first : Token} {missing : LexCause} {c d : Cursor} {tokens : List Token}
    (h : path first missing c = .ok (tokens, d)) : d.rest.length ≤ c.rest.length := by
  simp only [path] at h
  split at h
  · exact absurd h refuse_ne_ok
  · simp only [Except.ok.injEq, Prod.mk.injEq] at h
    rw [← h.2]
    exact Nat.le_trans c.skipIndent.length_skipLine_le c.length_skipIndent_le

theorem length_of_namedBlock {loc : Location} {mode : BlockMode} {c d : Cursor}
    {tokens : List Token} (h : namedBlock loc mode c = .ok (tokens, d)) :
    d.rest.length ≤ c.rest.length := by
  rw [eq_of_emit h]
  exact c.length_skipLine_le

theorem length_of_blockMode? {c d : Cursor} {mode : BlockMode} (h : blockMode? c = some (mode, d)) :
    d.rest.length < c.rest.length := by
  unfold blockMode? at h
  cases ha : c.keyword? "append" with
  | some e =>
    simp only [ha] at h
    split at h
    · simp at h
    · simp only [Option.some.injEq, Prod.mk.injEq] at h
      rw [← h.2]
      exact length_of_keyword ha (by decide)
  | none =>
    cases hp : c.keyword? "prepend" with
    | some e =>
      simp only [ha, hp] at h
      split at h
      · simp at h
      · simp only [Option.some.injEq, Prod.mk.injEq] at h
        rw [← h.2]
        exact length_of_keyword hp (by decide)
    | none => simp [ha, hp] at h

/-! ## Keyword rules -/

theorem yieldWord_shortens : yieldWord.Shortens := by
  intro width c tokens d h
  simp only [yieldWord, Option.map_eq_some_iff] at h
  obtain ⟨e, he, h⟩ := h
  rw [eq_of_emit h]
  exact length_of_keyword he (by decide)

theorem defaultWord_shortens : defaultWord.Shortens := by
  intro width c tokens d h
  simp only [defaultWord, Option.map_eq_some_iff] at h
  obtain ⟨e, he, h⟩ := h
  rw [eq_of_emit h]
  exact length_of_keyword he (by decide)

theorem doctype_shortens : doctype.Shortens := by
  intro width c tokens d h
  simp only [doctype, Option.map_eq_some_iff] at h
  obtain ⟨e, he, h⟩ := h
  rw [eq_of_emit h]
  exact Nat.lt_of_le_of_lt e.length_skipLine_le (length_of_keyword he (by decide))

theorem expression_shortens (keyword : ExprKeyword) (kind : String → TokenKind) :
    (expression keyword kind).Shortens := by
  intro width c tokens d h
  simp only [expression, Option.map_eq_some_iff] at h
  obtain ⟨e, he, h⟩ := h
  split at h
  · exact absurd h refuse_ne_ok
  · rw [eq_of_emit h]
    exact Nat.lt_of_le_of_lt e.length_skipLine_le
      (length_of_keyword he (by cases keyword <;> decide))

theorem when_shortens : when.Shortens := by
  intro width c tokens d h
  simp only [when, Option.map_eq_some_iff] at h
  obtain ⟨e, he, h⟩ := h
  have hk := length_of_keyword he (by decide)
  have hi := e.length_skipIndent_le
  split at h
  · simp at h
  · split at h
    · exact absurd h refuse_ne_ok
    · rw [eq_of_emit h, Cursor.length_skip]
      omega

theorem otherwise_shortens : otherwise.Shortens := by
  intro width c tokens d h
  simp only [otherwise, Option.map_eq_some_iff] at h
  obtain ⟨e, he, h⟩ := h
  have hk := length_of_keyword he (by decide)
  have hi := e.length_skipIndent_le
  split at h
  next f hf =>
    have hf := length_of_keyword hf (by decide)
    have := f.length_skipLine_le
    split at h
    · exact absurd h refuse_ne_ok
    · rw [eq_of_emit h]
      omega
  · have := e.skipIndent.length_skipLine_le
    split at h <;> rw [eq_of_emit h] <;> omega

theorem eachWith_shortens (keyword : ExprKeyword) : (eachWith keyword).Shortens := by
  intro width c tokens d h
  simp only [eachWith, Option.map_eq_some_iff] at h
  obtain ⟨e, he, h⟩ := h
  have hk := length_of_keyword he (by cases keyword <;> decide)
  have := e.length_skipLine_le
  split at h
  · exact absurd h refuse_ne_ok
  · split at h
    · rw [eq_of_emit h]
      omega
    · exact absurd h refuse_ne_ok

theorem inherits_shortens : inherits.Shortens := by
  intro width c tokens d h
  simp only [inherits, Option.map_eq_some_iff] at h
  obtain ⟨e, he, h⟩ := h
  have hp := length_of_path h
  rcases Option.or_eq_some_iff.mp he with he | ⟨_, he⟩
  · exact Nat.lt_of_le_of_lt hp (length_of_keyword he (by decide))
  · exact Nat.lt_of_le_of_lt hp (length_of_keyword he (by decide))

theorem includes_shortens : includes.Shortens := by
  intro width c tokens d h
  simp only [includes, Option.map_eq_some_iff] at h
  obtain ⟨e, he, h⟩ := h
  have hk := length_of_keyword he (by decide)
  split at h
  · have hp := length_of_path h
    rw [Cursor.length_skip] at hp
    omega
  · exact Nat.lt_of_le_of_lt (length_of_path h) hk

theorem block_shortens : block.Shortens := by
  intro width c tokens d h
  unfold block at h
  split at h
  next mode e he =>
    simp only [Option.some.injEq] at h
    exact Nat.lt_of_le_of_lt (length_of_namedBlock h) (length_of_blockMode? he)
  next =>
    simp only [Option.map_eq_some_iff] at h
    obtain ⟨e, he, h⟩ := h
    have hk := length_of_keyword he (by decide)
    have hi := e.length_skipIndent_le
    split at h
    · rw [eq_of_emit h]
      exact Nat.lt_of_le_of_lt e.length_skipLine_le hk
    · split at h
      next mode f hf =>
        have hb := length_of_blockMode? hf
        have hn := length_of_namedBlock h
        omega
      next =>
        have hn := length_of_namedBlock h
        omega

theorem mixin_shortens : mixin.Shortens := by
  intro width c tokens d h
  simp only [mixin, Option.map_eq_some_iff] at h
  obtain ⟨e, he, h⟩ := h
  have hk := length_of_keyword he (by decide)
  have hi := e.length_skipIndent_le
  split at h
  · exact absurd h refuse_ne_ok
  · have hw := (e.skipIndent.skip e.skipIndent.word.length).length_skipIndent_le
    rw [Cursor.length_skip] at hw
    split at h
    -- the parameters, if a bracket opens behind the name
    · split at h
      · simp at h
      next content f hf =>
        have hn := Cursor.length_inside hf
        rw [Cursor.length_skip] at hn
        rw [eq_of_emit h]
        omega
    · rw [eq_of_emit h]
      omega

theorem spread_shortens : spread.Shortens := by
  intro width c tokens d h
  simp only [spread, Option.map_eq_some_iff] at h
  obtain ⟨e, he, h⟩ := h
  have hk := length_of_keyword he (by decide)
  split at h
  · split at h
    · simp at h
    next content f hf =>
      have hn := Cursor.length_inside hf
      rw [Cursor.length_skip] at hn
      rw [eq_of_emit h]
      omega
  · exact absurd h refuse_ne_ok

/-! ## Mark rules -/

theorem interpolation_shortens : interpolation.Shortens := by
  intro width c tokens d h
  unfold interpolation at h
  split at h
  · split at h
    · simp at h
    next content e he =>
      have hn := Cursor.length_inside he
      rw [Cursor.length_skip] at hn
      rw [eq_of_emit (Option.some.inj h)]
      omega
  · simp at h

theorem forall_of_dropWhile_eq_nil {α : Type} {p : α → Bool} {l : List α}
    (h : l.dropWhile p = []) : ∀ x ∈ l, p x = true := by
  induction l with
  | nil => simp
  | cons a l ih =>
    rw [List.dropWhile_cons] at h
    split at h
    next ha => simpa [ha] using ih h
    next => simp at h

theorem length_tagName_pos {a : Char} {cs : List Char} (ha : isWord a = true) :
    0 < (tagName (a :: cs)).length := by
  have hm : a ∈ (a :: cs).takeWhile isTagChar := by simp [isTagChar, ha]
  have hn : ¬ (a = '-' ∨ a = ':') := by
    rintro (rfl | rfl) <;> revert ha <;> decide
  rw [tagName, List.length_reverse, List.length_pos_iff]
  -- were nothing left, every character would be one of those dropped at the end
  intro he
  have := forall_of_dropWhile_eq_nil he a (List.mem_reverse.mpr hm)
  simp only [Bool.or_eq_true, beq_iff_eq] at this
  exact hn this

theorem tag_shortens : tag.Shortens := by
  intro width c tokens d h
  unfold tag at h
  split at h
  next ha =>
    cases hr : c.rest with
    | nil => simp [hr] at ha
    | cons a cs =>
      simp only [hr, List.head?_cons, Option.any_some] at ha
      have hn : 0 < (tagName (a :: cs)).length := length_tagName_pos ha
      rw [eq_of_emit (Option.some.inj h), ← hr]
      rw [← hr] at hn
      exact Cursor.length_skip_lt (by simp [hr]) hn
  next => simp at h

theorem id_shortens : id.Shortens := by
  intro width c tokens d h
  unfold id at h
  split at h
  next hs =>
    obtain ⟨cs, hr⟩ := Cursor.rest_of_startsWith rfl hs
    rw [length_of_restAsText (Option.some.inj h)]
    exact Cursor.length_skipLine_lt hr (by decide)
  next =>
    split at h
    next hs =>
      obtain ⟨cs, hr⟩ := Cursor.rest_of_startsWith rfl hs
      simp only at h
      split at h
      · rw [eq_of_emit (Option.some.inj h)]
        exact Cursor.length_skip_lt (by simp [hr]) (by omega)
      · exact absurd (Option.some.inj h) refuse_ne_ok
    next => simp at h

theorem className_shortens : className.Shortens := by
  intro width c tokens d h
  unfold className at h
  split at h
  next hs =>
    obtain ⟨cs, hr⟩ := Cursor.rest_of_startsWith rfl hs
    simp only at h
    split at h
    · rw [eq_of_emit (Option.some.inj h)]
      exact Cursor.length_skip_lt (by simp [hr]) (by omega)
    · exact absurd (Option.some.inj h) refuse_ne_ok
  next => simp at h

theorem attributes_shortens : attributes.Shortens := by
  intro width c tokens d h
  unfold attributes at h
  split at h
  next hs =>
    obtain ⟨cs, hr⟩ := Cursor.rest_of_startsWith rfl hs
    have hl := length_of_attributeList (Option.some.inj h)
    simp only [hr, List.length_cons] at *
    omega
  next => simp at h

theorem dot_shortens : dot.Shortens := by
  intro width c tokens d h
  unfold dot at h
  split at h
  next hs =>
    obtain ⟨cs, hr⟩ := Cursor.rest_of_startsWith rfl (Bool.and_eq_true_iff.mp hs).1
    exact Nat.lt_of_le_of_lt (length_of_withPipeless (Option.some.inj h))
      (Cursor.length_skipLine_lt hr (by decide))
  next => simp at h

theorem slash_shortens : slash.Shortens := by
  intro width c tokens d h
  unfold slash at h
  split at h
  next hs =>
    obtain ⟨cs, hr⟩ := Cursor.rest_of_startsWith rfl hs
    rw [eq_of_emit (Option.some.inj h)]
    exact Cursor.length_skip_lt (by simp [hr]) (by decide)
  next => simp at h

theorem colon_shortens : colon.Shortens := by
  intro width c tokens d h
  unfold colon at h
  split at h
  next hs =>
    have hr : 0 < c.rest.length := by
      rcases Bool.or_eq_true_iff.mp hs with hs | hs
      · obtain ⟨cs, hr⟩ := Cursor.rest_of_startsWith rfl hs
        simp [hr]
      · obtain ⟨cs, hr⟩ := Cursor.rest_of_startsWith rfl hs
        simp [hr]
    rw [eq_of_emit (Option.some.inj h)]
    exact Nat.lt_of_le_of_lt (c.skip 1).length_skipIndent_le
      (Cursor.length_skip_lt hr (by decide))
  next => simp at h

theorem length_of_callName {loc : Location} {c d : Cursor} {name : List Char} {computed : Bool}
    (h : callName loc c = .ok (name, computed, d)) : d.rest.length ≤ c.rest.length := by
  unfold callName at h
  split at h
  · split at h
    next content e he =>
      have hn := Cursor.length_inside he
      rw [Cursor.length_skip] at hn
      simp only [Except.ok.injEq, Prod.mk.injEq] at h
      rw [← h.2.2]
      omega
    next => simp at h
  · split at h
    · simp at h
    · simp only [Except.ok.injEq, Prod.mk.injEq] at h
      rw [← h.2.2, Cursor.length_skip]
      omega

theorem call_shortens : call.Shortens := by
  intro width c tokens d h
  unfold call at h
  split at h
  next hs =>
    obtain ⟨cs, hr⟩ := Cursor.rest_of_startsWith rfl hs
    have hi := (c.skip 1).length_skipIndent_le
    rw [Cursor.length_skip] at hi
    have hp : 0 < c.rest.length := by simp [hr]
    split at h
    · simp at h
    next name computed e he =>
      have hn := length_of_callName he
      simp only at h
      split at h
      · split at h
        · simp at h
        next content f hf =>
          have hc := Cursor.length_inside hf
          rw [Cursor.length_skip] at hc
          split at h <;> rw [eq_of_emit (Option.some.inj h)] <;> omega
      · rw [eq_of_emit (Option.some.inj h)]
        omega
  next => simp at h

theorem filter_shortens : filter.Shortens := by
  intro width c tokens d h
  simp only [filter] at h
  split at h
  next hs =>
    obtain ⟨cs, hr⟩ := Cursor.rest_of_startsWith rfl (Bool.and_eq_true_iff.mp hs).1
    have hl : (c.skip (1 + (c.skip 1).word.length)).rest.length < c.rest.length :=
      Cursor.length_skip_lt (by simp [hr]) (by omega)
    split at h
    · split at h
      · simp at h
      next more e he =>
        have ha := length_of_attributeList he
        have hb := length_of_filterBody (Option.some.inj h)
        omega
    · exact Nat.lt_of_le_of_lt (length_of_filterBody (Option.some.inj h)) hl
  next => simp at h

theorem codeBlock_shortens : codeBlock.Shortens := by
  intro width c tokens d h
  unfold codeBlock at h
  split at h
  next hs =>
    obtain ⟨cs, hr⟩ := Cursor.rest_of_startsWith rfl (Bool.and_eq_true_iff.mp hs).1
    exact Nat.lt_of_le_of_lt (length_of_withPipeless (Option.some.inj h))
      (Cursor.length_skipLine_lt hr (by decide))
  next => simp at h

theorem length_of_codeWith {flag : String} {buffered escape : Bool} {c d : Cursor}
    {tokens : List Token} (hf : 0 < flag.toList.length) (hr : 0 < c.rest.length)
    (h : codeWith flag buffered escape c = .ok (tokens, d)) : d.rest.length < c.rest.length := by
  simp only [codeWith] at h
  split at h
  · exact absurd h refuse_ne_ok
  · rw [eq_of_emit h]
    exact Nat.lt_of_le_of_lt (Cursor.length_skipLine_le _) (Cursor.length_skip_lt hr hf)

theorem code_shortens : code.Shortens := by
  intro width c tokens d h
  unfold code at h
  split at h
  next hs =>
    obtain ⟨cs, hr⟩ := Cursor.rest_of_startsWith rfl hs
    exact length_of_codeWith (by decide) (by simp [hr]) (Option.some.inj h)
  next =>
    split at h
    next hs =>
      obtain ⟨cs, hr⟩ := Cursor.rest_of_startsWith rfl hs
      exact length_of_codeWith (by decide) (by simp [hr]) (Option.some.inj h)
    next =>
      split at h
      next hs =>
        obtain ⟨cs, hr⟩ := Cursor.rest_of_startsWith rfl hs
        exact length_of_codeWith (by decide) (by simp [hr]) (Option.some.inj h)
      next => simp at h

theorem text_shortens : text.Shortens := by
  intro width c tokens d h
  unfold text at h
  split at h
  next hs =>
    obtain ⟨cs, hr⟩ := Cursor.rest_of_startsWith rfl hs
    have hl : (c.skip 1).rest.length < c.rest.length :=
      Cursor.length_skip_lt (by simp [hr]) (by decide)
    rw [length_of_restAsText (Option.some.inj h)]
    refine Nat.lt_of_le_of_lt (Cursor.length_skipLine_le _) ?_
    split
    · rw [Cursor.length_skip]
      omega
    · exact hl
  next =>
    split at h
    next hs =>
      obtain ⟨cs, hr⟩ := Cursor.rest_of_startsWith rfl hs
      split at h
      · simp only [Option.some.injEq, Except.ok.injEq, Prod.mk.injEq] at h
        rw [← h.2]
        exact Cursor.length_skipLine_lt hr (by decide)
      · rw [length_of_restAsText (Option.some.inj h)]
        exact Nat.lt_of_le_of_lt (Cursor.length_skipLine_le _)
          (Cursor.length_skip_lt (by simp [hr]) (by decide))
    next => simp at h

theorem html_shortens : html.Shortens := by
  intro width c tokens d h
  unfold html at h
  split at h
  next hs =>
    obtain ⟨cs, hr⟩ := Cursor.rest_of_startsWith rfl hs
    rw [length_of_restAsText (Option.some.inj h)]
    exact Cursor.length_skipLine_lt hr (by decide)
  next => simp at h

theorem comment_shortens : comment.Shortens := by
  intro width c tokens d h
  unfold comment at h
  split at h
  next hs =>
    obtain ⟨cs, hr⟩ := Cursor.rest_of_startsWith rfl hs
    have hl : (c.skip 2).rest.length < c.rest.length :=
      Cursor.length_skip_lt (by simp [hr]) (by decide)
    refine Nat.lt_of_le_of_lt (length_of_withPipeless (Option.some.inj h)) ?_
    refine Nat.lt_of_le_of_lt (Cursor.length_skipLine_le _) ?_
    split
    · exact hl
    · rw [Cursor.length_skip]
      omega
  next => simp at h

/-! ## All rules -/

theorem all_shorten : ∀ r ∈ all, r.Shortens := by
  simp only [all, List.forall_mem_cons, List.not_mem_nil, false_imp_iff, implies_true, and_true]
  exact ⟨yieldWord_shortens, doctype_shortens, interpolation_shortens, expression_shortens _ _,
    when_shortens, defaultWord_shortens, inherits_shortens, block_shortens, includes_shortens,
    mixin_shortens, call_shortens, otherwise_shortens, expression_shortens _ _,
    expression_shortens _ _, eachWith_shortens _, eachWith_shortens _, expression_shortens _ _,
    tag_shortens, filter_shortens, codeBlock_shortens, code_shortens, id_shortens, dot_shortens,
    className_shortens, attributes_shortens, spread_shortens, text_shortens, html_shortens,
    comment_shortens, slash_shortens, colon_shortens⟩

theorem first_shortens {rules : List Rule} (h : ∀ r ∈ rules, r.Shortens) :
    (first rules).Shortens := by
  intro width c tokens d hf
  obtain ⟨r, hr, hc⟩ := List.exists_of_findSome?_eq_some hf
  exact h r hr width c tokens d hc

theorem length_read_lt {width : Nat} {c d : Cursor} {tokens : List Token}
    (h : read width c = .ok (tokens, d)) : d.rest.length < c.rest.length := by
  unfold read at h
  cases hf : first all width c with
  | none =>
    rw [hf] at h
    exact absurd h refuse_ne_ok
  | some reading =>
    rw [hf] at h
    exact first_shortens all_shorten width c tokens d (by rw [hf]; exact congrArg some h)

end Rule

end PugTemplate
