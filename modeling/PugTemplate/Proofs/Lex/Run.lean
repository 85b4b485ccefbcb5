import PugTemplate.Proofs.Lex.Local
import PugTemplate.Proofs.Lex.Outline
import PugTemplate.Proofs.Lex.Place

/-!
# Runs side by side

The tokens of a text do not depend on where it stands, and those read up to a line end do not depend
on what that line end is followed by, as long as the same indentation is.
-/

namespace PugTemplate

open Cursor (Beside)
open Pipeless (Level)

namespace Layout

variable {l m : Layout} {a b : List Char} {c d c' : Cursor} {ts : List Token}

theorem sameKinds_outdents (closed : List Nat) (loc loc' : Location) :
    SameKinds (outdents closed loc) (outdents closed loc') := by
  induction closed with
  | nil => exact .refl []
  | cons w closed ih => exact .cons rfl ih

theorem sameKinds_finish (l : Layout) (loc loc' : Location) :
    SameKinds (l.finish loc) (l.finish loc') :=
  (sameKinds_outdents l.widths loc loc').append (.cons rfl (.refl []))

theorem sameKinds_settle {width : Nat} {loc : Location} (h : l.settle width loc = .ok (ts, m))
    (loc' : Location) : ∃ us, l.settle width loc' = .ok (us, m) ∧ SameKinds ts us := by
  unfold settle at h ⊢
  split at h
  next hdeeper =>
    cases h
    exact ⟨_, if_pos hdeeper, .cons rfl (.refl [])⟩
  next hdeeper =>
    rw [if_neg hdeeper]
    split at h
    next hsame =>
      cases h
      exact ⟨_, if_pos hsame, .cons rfl (.refl [])⟩
    next hsame =>
      rw [if_neg hsame]
      dsimp only at h ⊢
      split at h
      next hkept =>
        cases h
        exact ⟨_, if_pos hkept, sameKinds_outdents _ _ _⟩
      next => cases h

/-- While the first text is ahead, the two texts end together. -/
theorem rest_eq_nil_iff (hends : a = [] ↔ b = []) (h : c.Beside a b d)
    (ha : a.length ≤ c.rest.length) : d.rest = [] ↔ c.rest = [] := by
  obtain ⟨m, hc, hd⟩ := h.text ha
  rw [hc, hd, List.append_eq_nil_iff, List.append_eq_nil_iff, hends]

theorem beside_skip_one (hab : lineOf b = lineOf a) (h : c.Beside a b d) (hc : c.rest ≠ [])
    (ha : a.length ≤ (nextLine c).rest.length) : (c.skip 1).Beside a b (d.skip 1) :=
  h.skip_of_ahead hab (List.length_pos_iff.mpr hc)
    (Nat.le_trans ha (Cursor.length_skip c 1 ▸ length_nextLine_le c))

/-- Both places move on to the next line that shows something. -/
theorem beside_nextLine (hab : lineOf b = lineOf a) (hends : a = [] ↔ b = []) (h : c.Beside a b d)
    (hc : c.rest ≠ []) (ha : a.length ≤ (nextLine c).rest.length) :
    (nextLine c).Beside a b (nextLine d) := by
  have hstep := beside_skip_one hab h hc ha
  have hline := hstep.skipLine
  fun_induction nextLine c generalizing d with
  | case1 c hblank hend =>
    rw [nextLine, hstep.line, if_pos hblank, if_pos ((rest_eq_nil_iff hends hline ha).mpr hend)]
    exact hline
  | case2 c hblank hend ih =>
    have hlength := Nat.le_trans ha (length_nextLine_le _)
    have hend' := mt (rest_eq_nil_iff hends hline (by omega)).mp hend
    have hd : nextLine d = nextLine (d.skip 1).skipLine := by
      rw [nextLine, hstep.line, if_pos hblank, if_neg hend']
    have hnext := beside_skip_one hab hline hend ha
    rw [hd]
    exact ih hline hend ha hnext hnext.skipLine
  | case3 c hshown =>
    rw [nextLine, hstep.line, if_neg hshown]
    exact hstep

theorem length_newline_le (hok : newline l c = .ok (ts, m, c')) :
    c'.rest.length ≤ (nextLine c).rest.length := by
  unfold newline at hok
  dsimp only at hok
  split at hok
  next =>
    cases hok
    exact Nat.le_refl _
  next =>
    split at hok
    next => cases hok
    next =>
      split at hok
      next =>
        cases hok
        exact Cursor.length_skipIndent_le _
      next => cases hok

theorem beside_newline (hab : lineOf b = lineOf a) (hends : a = [] ↔ b = []) (h : c.Beside a b d)
    (hc : c.rest ≠ []) (hok : newline l c = .ok (ts, m, c')) (ha : a.length ≤ c'.rest.length) :
    ∃ us d', newline l d = .ok (us, m, d') ∧ SameKinds ts us ∧ c'.Beside a b d' := by
  have hahead := Nat.le_trans ha (length_newline_le hok)
  have hnext := beside_nextLine hab hends h hc hahead
  have hindent := hnext.takeWhile (p := isIndent) (by decide)
  unfold newline at hok ⊢
  dsimp only at hok ⊢
  split at hok
  next hend =>
    rw [if_pos ((rest_eq_nil_iff hends hnext hahead).mpr hend)]
    cases hok
    exact ⟨[], _, rfl, .refl [], hnext⟩
  next hend =>
    rw [if_neg (mt (rest_eq_nil_iff hends hnext hahead).mp hend), hindent]
    split at hok
    next => cases hok
    next hmixed =>
      rw [if_neg hmixed]
      split at hok
      next tokens l' hsettle =>
        obtain ⟨us, hus, hkinds⟩ := sameKinds_settle hsettle (nextLine d).skipIndent.loc
        cases hok
        rw [hus]
        exact ⟨us, _, rfl, hkinds, hnext.skipIndent⟩
      next => cases hok

/-- What is read next, in a line or at its end. -/
theorem beside_step (hab : lineOf b = lineOf a) (hends : a = [] ↔ b = [])
    (hlevel : Level l.width l.width a b) (h : c.Beside a b d) (hc : c.rest ≠ [])
    (hok : l.step c = .ok (ts, m, c')) (hclear : c'.Clear a) :
    ∃ us d', l.step d = .ok (us, m, d') ∧ SameKinds ts us ∧ c'.Beside a b d' := by
  have hfeed : d.startsWith "\n" = c.startsWith "\n" := by
    have hlt := length_step_lt hc hok
    have ha := hclear.length_le
    obtain ⟨n, hcn, hdn⟩ := h.text (by omega)
    cases n with
    | nil =>
      rw [hcn, List.nil_append] at hlt
      omega
    | cons x n =>
      rw [Cursor.startsWith, Cursor.startsWith, hcn, hdn]
      rfl
  unfold step at hok ⊢
  rw [hfeed]
  split at hok
  next hs =>
    rw [if_pos hs]
    exact beside_newline hab hends h hc hok hclear.length_le
  next hs =>
    rw [if_neg hs]
    split at hok
    next tokens e hread =>
      cases hok
      obtain ⟨us, f, hus, hkinds, hnext⟩ :=
        Rule.beside_read hab h hread hclear fun _ => hlevel
      rw [hus]
      exact ⟨us, f, rfl, hkinds, hnext⟩
    next => cases hok

theorem length_of_reaches (h : c.Reaches d) : d.rest.length ≤ c.rest.length := by
  obtain ⟨n, rfl⟩ := h
  rw [Cursor.length_skip]
  exact Nat.sub_le _ _

theorem skipLine_ne_nil {m below : List Char} (h : c.rest = m ++ '\n' :: below) :
    c.skipLine.rest ≠ [] := by
  intro hnil
  have hline : c.line = c.rest := by
    have hrest := List.prefix_iff_eq_append.mp (lineOf_isPrefix c.rest)
    rw [show c.rest.drop (lineOf c.rest).length = [] from hnil, List.append_nil] at hrest
    exact hrest
  exact feed_notMem_lineOf c.rest (show '\n' ∈ c.line by rw [hline, h]; simp)

/-- Both places move on to the first line that shows something. -/
theorem beside_skipLeading {below below' : List Char}
    (h : c.Beside ('\n' :: below) ('\n' :: below') d)
    (ha : ('\n' :: below).length ≤ (skipLeading c).rest.length) :
    (skipLeading c).Beside ('\n' :: below) ('\n' :: below') (skipLeading d) := by
  obtain ⟨m, hc, hd⟩ := h.text (Nat.le_trans ha (length_of_reaches (reaches_skipLeading c)))
  have hne := skipLine_ne_nil hc
  have hne' := skipLine_ne_nil hd
  fun_induction skipLeading c generalizing d m with
  | case1 c hlead ih =>
    have hbehind := Nat.le_trans ha (length_of_reaches (reaches_skipLeading _))
    have hnext := h.skipLine.skip_of_ahead rfl (List.length_pos_iff.mpr hne) hbehind
    have hd : skipLeading d = skipLeading (d.skipLine.skip 1) := by
      rw [skipLeading, h.line, if_pos ⟨hlead.1, hne'⟩]
    obtain ⟨m', hm, hm'⟩ := hnext.text hbehind
    rw [hd]
    exact ih hnext ha m' hm hm' (skipLine_ne_nil hm) (skipLine_ne_nil hm')
  | case2 c hlead =>
    rw [skipLeading, h.line, if_neg fun hand => hlead ⟨hand.1, hne⟩]
    exact h.skipIndent

/-! ## From one place to another -/

/-- Reading goes on from one place to another, by the tokens between them. -/
inductive Run : Layout → Cursor → List Token → Layout → Cursor → Prop where
  | here {l : Layout} {c : Cursor} : Run l c [] l c
  | step {l m m' : Layout} {c d d' : Cursor} {first ts : List Token} (hc : c.rest ≠ [])
      (h : l.step c = .ok (first, m, d)) (hrest : Run m d ts m' d') :
      Run l c (first ++ ts) m' d'

namespace Run

theorem tokens (h : Run l c ts m d) : l.tokens c = (ts ++ ·) <$> m.tokens d := by
  induction h with
  | @here l c => cases l.tokens c <;> rfl
  | @step l m m' c d d' first ts hc hstep hrest ih =>
    rw [tokens_of_ne hc, hstep]
    show (first ++ ·) <$> m.tokens d = _
    rw [ih]
    cases m'.tokens d' with
    | error => rfl
    | ok more => exact congrArg Except.ok (List.append_assoc _ _ _).symm

theorem length_le (h : Run l c ts m d) : d.rest.length ≤ c.rest.length := by
  induction h with
  | here => exact Nat.le_refl _
  | step hc hstep _ ih => exact Nat.le_trans ih (Nat.le_of_lt (length_step_lt hc hstep))

/-- The step at a parenthesis is over its list of attributes. -/
theorem step_paren {e : Cursor} {first : List Token} (hc : c.startsWith "(")
    (h : l.step c = .ok (first, m, e)) :
    ∃ content, (c.skip 1).inside .round = .ok (content, e) := by
  obtain ⟨rest, hrest⟩ : ∃ rest, c.rest = '(' :: rest := by
    obtain ⟨rest, hrest⟩ := List.isPrefixOf_iff_prefix.mp hc
    exact ⟨rest, hrest.symm⟩
  have hfeed : c.startsWith "\n" = false := by
    rw [Cursor.startsWith, hrest]
    rfl
  rw [Layout.step, hfeed, if_neg Bool.false_ne_true, Rule.read_attributes hrest] at h
  unfold Rule.attributeList at h
  split at h
  next tokens e' hlist =>
    cases h
    split at hlist
    next => cases hlist
    next content _ hin =>
      split at hlist
      next => cases hlist
      next =>
        cases hlist
        exact ⟨content, hin⟩
  next => cases h

/-- Where the text ahead at the end is reached, it is ahead all the way. -/
theorem clear {below : List Char} (h : Run l c ts m d) (hd : d.rest = '\n' :: below) :
    c.Clear ('\n' :: below) := by
  refine ⟨hd ▸ h.length_le, fun hs content e hin => ?_⟩
  cases h with
  | here =>
    rw [Cursor.startsWith, hd] at hs
    cases hs
  | step hc hstep hrest =>
    obtain ⟨content', hin'⟩ := step_paren hs hstep
    cases hin.symm.trans hin'
    exact hd ▸ hrest.length_le

/-- The same tokens lead to the same line end, whatever is below it. -/
theorem beside {below below' : List Char} (h : Run l c ts m c') (hc : c'.rest = '\n' :: below)
    (hlevel : ∀ width, Level width width ('\n' :: below) ('\n' :: below'))
    (hcd : c.Beside ('\n' :: below) ('\n' :: below') d) :
    ∃ us d', Run l d us m d' ∧ SameKinds ts us ∧ d'.rest = '\n' :: below' := by
  have hab : lineOf ('\n' :: below') = lineOf ('\n' :: below) := rfl
  have hends : '\n' :: below = [] ↔ '\n' :: below' = [] := by simp
  induction h generalizing d with
  | here =>
    obtain ⟨n, hn, hd⟩ := hcd.text (Nat.le_of_eq (congrArg List.length hc.symm))
    have hnil : n = [] := List.append_left_eq_self.mp (hn.symm.trans hc)
    exact ⟨[], d, .here, .refl [], by rw [hd, hnil]; rfl⟩
  | step hne hstep hrest ih =>
    have hahead := Nat.le_trans (hrest.clear hc).length_le (Nat.le_of_lt (length_step_lt hne hstep))
    obtain ⟨us, e, hus, hkinds, hnext⟩ :=
      beside_step hab hends (hlevel _) hcd hne hstep (hrest.clear hc)
    obtain ⟨vs, d', hvs, hmore, hd'⟩ := ih hc hnext
    have hd := mt (rest_eq_nil_iff hends hcd hahead).mp hne
    exact ⟨us ++ vs, d', .step hd hus hvs, hkinds.append hmore, hd'⟩

theorem endsLine {tail : List Token} (h : Run l c ts m d) (hc : c.line = [])
    (htail : d.line = [] → EndsLine tail) : EndsLine (ts ++ tail) := by
  cases h with
  | here => exact htail hc
  | @step _ m₁ _ _ e _ first more hne hstep hrest =>
    rw [Layout.step, if_pos (startsWith_feed hc hne)] at hstep
    obtain ⟨rfl, rfl, he⟩ | ⟨mark, width, loc, hs⟩ := newline_cases hstep
    · have hend : e.line = [] := by
        rw [Cursor.line, he]
        rfl
      cases hrest with
      | here => exact htail hend
      | step he' => exact absurd he he'
    · rw [List.append_assoc]
      exact endsLine_settle hs _

/-- Tokens between two places stand in front of any stream that is read on from the second. -/
theorem stream (h : Run l c ts m d) (hl : l.Nested) :
    m.Nested ∧ ∀ tail, (d.line = [] → EndsLine tail) → TokenStream m.widths tail →
      TokenStream l.widths (ts ++ tail) := by
  induction h with
  | here => exact ⟨hl, fun _ _ htail => htail⟩
  | step hc hstep hrest ih =>
    obtain ⟨hm, hfirst⟩ := stream_step hl hstep
    obtain ⟨hm', hmore⟩ := ih hm
    refine ⟨hm', fun tail hends htail => ?_⟩
    rw [List.append_assoc]
    exact hfirst _ (fun he => hrest.endsLine he hends) (hmore tail hends htail)

end Run

/-! ## A text in two places -/

theorem beside_of_eq (h : d.rest = c.rest) : c.Beside [] [] d :=
  ⟨congrArg lineOf h, fun _ => ⟨c.rest, by simp, by simp [h]⟩⟩

theorem clear_nil (c : Cursor) : c.Clear [] :=
  ⟨Nat.zero_le _, fun _ _ _ _ => Nat.zero_le _⟩

/-- The tokens of a text say the same wherever it stands. -/
theorem sameKinds_tokens (h : d.rest = c.rest) (hok : l.tokens c = .ok ts) :
    ∃ us, l.tokens d = .ok us ∧ SameKinds ts us := by
  fun_induction tokens l c generalizing d ts with
  | case1 l c hend =>
    cases hok
    rw [tokens, if_pos (h.trans hend)]
    exact ⟨_, rfl, sameKinds_finish l _ _⟩
  | case2 => cases hok
  | case3 => cases hok
  | case4 l c hend first m e hstep more hmore ih =>
    cases hok
    obtain ⟨us, f, hus, hkinds, hnext⟩ := beside_step rfl Iff.rfl (.refl _ _) (beside_of_eq h) hend
      hstep (clear_nil e)
    obtain ⟨n, he, hf⟩ := hnext.text (Nat.zero_le _)
    obtain ⟨vs, hvs, hrest⟩ := ih (hf.trans he.symm) hmore
    rw [tokens_of_ne (h ▸ hend), hus]
    refine ⟨us ++ vs, ?_, hkinds.append hrest⟩
    show (us ++ ·) <$> m.tokens f = _
    rw [hvs]
    rfl

theorem rest_skipLine (h : d.rest = c.rest) : d.skipLine.rest = c.skipLine.rest := by
  rw [Cursor.skipLine, Cursor.skipLine, Cursor.line, Cursor.line, Cursor.rest_skip,
    Cursor.rest_skip, h]

theorem rest_skipLeading (h : d.rest = c.rest) : (skipLeading d).rest = (skipLeading c).rest := by
  fun_induction skipLeading c generalizing d with
  | case1 c hlead ih =>
    have hd : skipLeading d = skipLeading (d.skipLine.skip 1) := by
      rw [skipLeading, show d.line = c.line from congrArg lineOf h, rest_skipLine h, if_pos hlead]
    rw [hd]
    exact ih (by rw [Cursor.rest_skip, Cursor.rest_skip, rest_skipLine h])
  | case2 c hlead =>
    rw [skipLeading, show d.line = c.line from congrArg lineOf h, rest_skipLine h, if_neg hlead,
      Cursor.skipIndent, Cursor.skipIndent, Cursor.rest_skip, Cursor.rest_skip, h]

end Layout

theorem sameKinds_lexAt {text : String} {loc : Location} {ts : List Token}
    (h : lexAt text loc = .ok ts) (loc' : Location) :
    ∃ us, lexAt text loc' = .ok us ∧ SameKinds ts us :=
  Layout.sameKinds_tokens
    (Layout.rest_skipLeading (c := ⟨text.toList, loc⟩) (d := ⟨text.toList, loc'⟩) rfl) h

end PugTemplate
