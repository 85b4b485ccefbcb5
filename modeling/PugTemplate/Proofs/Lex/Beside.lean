import PugTemplate.Lex.Read
import PugTemplate.Proofs.Lex.Block
import PugTemplate.Proofs.Text.Nesting

/-!
# Readings side by side

A rule looks at the line it stands in, and beyond that line only for a closing bracket or for a block
of text. So where two texts agree up to a place, what is read before that place is the same: what
follows it has no part in it, and neither has the position in the source.
-/

namespace PugTemplate

/-- Tokens that say the same, wherever they stand. -/
def SameKinds (ts us : List Token) : Prop :=
  us.map Token.kind = ts.map Token.kind

namespace SameKinds

variable {ts us ts' us' : List Token}

theorem refl (ts : List Token) : SameKinds ts ts := rfl

theorem cons {t u : Token} (h : u.kind = t.kind) (hs : SameKinds ts us) :
    SameKinds (t :: ts) (u :: us) := by
  rw [SameKinds, List.map_cons, List.map_cons, h, hs]

theorem append (h : SameKinds ts us) (h' : SameKinds ts' us') :
    SameKinds (ts ++ ts') (us ++ us') := by
  rw [SameKinds, List.map_append, List.map_append, h, h']

theorem symm (h : SameKinds ts us) : SameKinds us ts :=
  Eq.symm h

theorem eq_nil (h : SameKinds [] us) : us = [] :=
  List.map_eq_nil_iff.mp h

theorem uncons {t : Token} (h : SameKinds (t :: ts) us) :
    ∃ u vs, us = u :: vs ∧ u.kind = t.kind ∧ SameKinds ts vs := by
  cases us with
  | nil => cases h
  | cons u us =>
    obtain ⟨hk, hs⟩ := List.cons.inj h
    exact ⟨u, us, rfl, hk, hs⟩

end SameKinds

namespace Cursor

variable {c d : Cursor}

/-! ## What a line settles -/

theorem length_line_le (c : Cursor) : c.line.length ≤ c.rest.length :=
  (lineOf_isPrefix c.rest).length_le

theorem takeWhile_line {p : Char → Bool} (hp : p '\n' = false) (c : Cursor) :
    c.line.takeWhile p = c.rest.takeWhile p := by
  show (lineOf c.rest).takeWhile p = _
  induction c.rest with
  | nil => rfl
  | cons x xs ih =>
    by_cases hx : x = '\n'
    · simp [lineOf, hx, hp]
    · have hline : lineOf (x :: xs) = x :: lineOf xs := by simp [lineOf, hx]
      rw [hline, List.takeWhile_cons, List.takeWhile_cons, ih]

theorem any_head?_line {p : Char → Bool} (hp : p '\n' = false) (c : Cursor) :
    c.line.head?.any p = c.rest.head?.any p := by
  show (lineOf c.rest).head?.any p = _
  cases c.rest with
  | nil => rfl
  | cons x xs =>
    by_cases hx : x = '\n'
    · simp [lineOf, hx, hp]
    · simp [lineOf, hx]

theorem isPrefixOf_lineOf {w : List Char} (hw : '\n' ∉ w) (cs : List Char) :
    w.isPrefixOf (lineOf cs) = w.isPrefixOf cs := by
  induction w generalizing cs with
  | nil => rfl
  | cons x w ih =>
    rw [List.mem_cons, not_or] at hw
    cases cs with
    | nil => rfl
    | cons y cs =>
      by_cases hy : y = '\n'
      · have hx : ¬ x = '\n' := fun h => hw.1 h.symm
        simp [lineOf, hy, List.isPrefixOf_cons_cons, hx]
      · have hline : lineOf (y :: cs) = y :: lineOf cs := by simp [lineOf, hy]
        rw [hline, List.isPrefixOf_cons_cons, List.isPrefixOf_cons_cons, ih hw.2]

theorem startsWith_line {w : String} (hw : '\n' ∉ w.toList) (c : Cursor) :
    c.startsWith w = w.toList.isPrefixOf c.line :=
  (isPrefixOf_lineOf hw c.rest).symm

theorem lineOf_drop_of_le {n : Nat} {cs : List Char} (hn : n ≤ (lineOf cs).length) :
    lineOf (cs.drop n) = (lineOf cs).drop n := by
  induction n generalizing cs with
  | zero => rfl
  | succ n ih =>
    cases cs with
    | nil => rfl
    | cons x cs =>
      by_cases hx : x = '\n'
      · simp [lineOf, hx] at hn
      · have hline : lineOf (x :: cs) = x :: lineOf cs := by simp [lineOf, hx]
        rw [hline, List.length_cons, Nat.add_le_add_iff_right] at hn
        rw [hline, List.drop_succ_cons, List.drop_succ_cons, ih hn]

theorem lineOf_append_congr {a b : List Char} (m : List Char) (h : lineOf b = lineOf a) :
    lineOf (m ++ b) = lineOf (m ++ a) := by
  induction m with
  | nil => exact h
  | cons x m ih =>
    by_cases hx : x = '\n'
    · simp [lineOf, hx]
    · simpa [lineOf, hx] using ih

theorem line_skip_of_le {n : Nat} (hn : n ≤ c.line.length) : (c.skip n).line = c.line.drop n :=
  lineOf_drop_of_le hn

/-! ## Places side by side -/

/-- Two places in lines that go on alike. While the text `a` is still ahead of the first one, the
second one has `b` ahead of it, behind the same text. -/
structure Beside (a b : List Char) (c d : Cursor) : Prop where
  line : d.line = c.line
  text : a.length ≤ c.rest.length → ∃ m, c.rest = m ++ a ∧ d.rest = m ++ b

namespace Beside

variable {a b : List Char}

theorem skip (h : Beside a b c d) {n : Nat} (hn : n ≤ c.line.length) :
    Beside a b (c.skip n) (d.skip n) := by
  refine ⟨?_, fun ha => ?_⟩
  · rw [line_skip_of_le hn, line_skip_of_le (h.line ▸ hn), h.line]
  · have hrest := Nat.le_trans hn c.length_line_le
    rw [length_skip] at ha
    obtain ⟨m, hc, hd⟩ := h.text (by omega)
    rw [hc, List.length_append] at ha hrest
    have hm : n ≤ m.length := by omega
    refine ⟨m.drop n, ?_, ?_⟩
    · rw [rest_skip, hc, List.drop_append_of_le_length hm]
    · rw [rest_skip, hd, List.drop_append_of_le_length hm]

theorem skipLine (h : Beside a b c d) : Beside a b c.skipLine d.skipLine := by
  rw [Cursor.skipLine, Cursor.skipLine, h.line]
  exact h.skip (Nat.le_refl _)

theorem takeWhile (h : Beside a b c d) {p : Char → Bool} (hp : p '\n' = false) :
    d.rest.takeWhile p = c.rest.takeWhile p := by
  rw [← takeWhile_line hp, ← takeWhile_line hp, h.line]

theorem skip_takeWhile (h : Beside a b c d) {p : Char → Bool} (hp : p '\n' = false) :
    Beside a b (c.skip (c.rest.takeWhile p).length) (d.skip (c.rest.takeWhile p).length) := by
  rw [← takeWhile_line hp]
  exact h.skip (List.takeWhile_prefix p).length_le

theorem skipIndent (h : Beside a b c d) : Beside a b c.skipIndent d.skipIndent := by
  rw [Cursor.skipIndent, Cursor.skipIndent, h.takeWhile (by decide)]
  exact h.skip_takeWhile (by decide)

theorem word (h : Beside a b c d) : d.word = c.word :=
  h.takeWhile (by decide)

theorem skip_word (h : Beside a b c d) : Beside a b (c.skip c.word.length) (d.skip c.word.length) :=
  h.skip_takeWhile (by decide)

theorem startsWith (h : Beside a b c d) {w : String} (hw : '\n' ∉ w.toList) :
    d.startsWith w = c.startsWith w := by
  rw [startsWith_line hw, startsWith_line hw, h.line]

theorem skip_startsWith (h : Beside a b c d) {w : String} (hw : '\n' ∉ w.toList)
    (hs : c.startsWith w) : Beside a b (c.skip w.toList.length) (d.skip w.toList.length) := by
  rw [startsWith_line hw] at hs
  exact h.skip (length_of_begins hs)

theorem keyword? (h : Beside a b c d) {w : String} (hw : '\n' ∉ w.toList) :
    Option.Rel (Beside a b) (c.keyword? w) (d.keyword? w) := by
  rw [Cursor.keyword?, Cursor.keyword?, h.startsWith hw]
  cases hs : c.startsWith w with
  | false => exact .none
  | true =>
    have hnext := h.skip_startsWith hw hs
    have hends : isWordOrHyphen '\n' = false := by decide
    rw [← any_head?_line hends, ← any_head?_line hends, hnext.line]
    split
    · exact .some hnext
    · exact .none

/-- Where the first text is still ahead further on, both texts agree up to there. -/
theorem exists_text (h : Beside a b c d) {n : Nat} (hn : n ≤ c.rest.length)
    (ha : a.length ≤ (c.skip n).rest.length) :
    ∃ m, c.rest = m ++ a ∧ d.rest = m ++ b ∧ n ≤ m.length := by
  rw [length_skip] at ha
  obtain ⟨m, hcm, hdm⟩ := h.text (by omega)
  rw [hcm, List.length_append] at ha hn
  exact ⟨m, hcm, hdm, by omega⟩

theorem skip_of_ahead (h : Beside a b c d) (hab : lineOf b = lineOf a) {n : Nat}
    (hn : n ≤ c.rest.length) (ha : a.length ≤ (c.skip n).rest.length) :
    Beside a b (c.skip n) (d.skip n) := by
  obtain ⟨m, hcm, hdm, hm⟩ := h.exists_text hn ha
  refine ⟨?_, fun _ => ⟨m.drop n, ?_, ?_⟩⟩
  · simp only [Cursor.line, rest_skip, hcm, hdm, List.drop_append_of_le_length hm]
    exact lineOf_append_congr _ hab
  · rw [rest_skip, hcm, List.drop_append_of_le_length hm]
  · rw [rest_skip, hdm, List.drop_append_of_le_length hm]

/-- A bracket that closes while the first text is still ahead closes in both. -/
theorem inside (h : Beside a b c d) (hab : lineOf b = lineOf a) {br : Bracket}
    {content : List Char} {c' : Cursor} (hc : c.inside br = .ok (content, c'))
    (ha : a.length ≤ c'.rest.length) :
    ∃ d', d.inside br = .ok (content, d') ∧ Beside a b c' d' := by
  unfold Cursor.inside at hc
  split at hc
  next content' hin =>
    cases hc
    have hlength : content.length + 1 ≤ c.rest.length := Nesting.length_inside hin
    obtain ⟨m, hcm, hdm, hm⟩ := h.exists_text hlength ha
    have hin' := Nesting.inside_append (Nesting.inside_of_append (hcm ▸ hin) hm) b
    exact ⟨d.skip (content.length + 1), by rw [Cursor.inside, hdm, hin'],
      h.skip_of_ahead hab hlength ha⟩
  next => cases hc

end Beside

end Cursor

/-! ## Blocks of text -/

theorem checkMarkers_congr {loc : Location} {text : List Char}
    (h : checkMarkers loc text = .ok ()) (loc' : Location) : checkMarkers loc' text = .ok () := by
  unfold checkMarkers at h ⊢
  split at h
  · cases h
  · rfl

namespace Pipeless

/-- The lines of the block of text behind the end of a line. -/
def blockLines (width : Nat) (cs : List Char) : List (List Char) :=
  dropBlankEnd (deeperLines width cs)

/-- A block of text that ends before two texts is the same in front of both. -/
def Level (width width' : Nat) (a b : List Char) : Prop :=
  ∀ m, extent (blockLines width (m ++ a)) ≤ m.length →
    blockLines width' (m ++ b) = blockLines width (m ++ a)

theorem Level.refl (width : Nat) (a : List Char) : Level width width a a :=
  fun _ _ => rfl

theorem sameKinds_lineTokens {check first : Bool} {base : Nat} {lines : List (List Char)}
    {c : Cursor} {ts : List Token} (h : lineTokens check base first c lines = .ok ts) (d : Cursor) :
    ∃ us, lineTokens check base first d lines = .ok us ∧ SameKinds ts us := by
  induction lines generalizing c d first ts with
  | nil =>
    cases h
    exact ⟨[], rfl, .refl []⟩
  | cons line lines ih =>
    rw [lineTokens_cons] at h ⊢
    have hrest {x : Except LexError (List Token)}
        (hx : x = (do
          let more ← lineTokens check base false ((c.skip 1).skip line.length) lines
          let tokens :=
            ⟨.text (String.ofList (shownText base line)), (shownAt base c line).loc⟩ :: more
          return if first then tokens else ⟨.newline, (c.skip 1).loc⟩ :: tokens))
        (hok : x = .ok ts) :
        ∃ us, (do
          let more ← lineTokens check base false ((d.skip 1).skip line.length) lines
          let tokens :=
            ⟨.text (String.ofList (shownText base line)), (shownAt base d line).loc⟩ :: more
          return if first then tokens else ⟨.newline, (d.skip 1).loc⟩ :: tokens) =
            (.ok us : Except LexError (List Token)) ∧ SameKinds ts us := by
      subst hx
      obtain ⟨more, hmore, hok⟩ := of_bind_eq_ok hok
      obtain ⟨more', hmore', hkinds⟩ := ih hmore ((d.skip 1).skip line.length)
      rw [hmore']
      cases hok
      refine ⟨_, rfl, ?_⟩
      cases first with
      | true => exact .cons rfl hkinds
      | false => exact .cons rfl (.cons rfl hkinds)
    cases check with
    | false => exact hrest rfl h
    | true =>
      obtain ⟨⟨⟩, hmarkers, h⟩ := of_bind_eq_ok h
      rw [if_pos rfl, checkMarkers_congr hmarkers]
      exact hrest rfl h

theorem length_joined (lines : List (List Char)) : (joined lines).length = extent lines := by
  induction lines with
  | nil => rfl
  | cons line lines ih =>
    rw [extent, List.foldr_cons, ← extent, ← ih]
    simp only [joined, List.flatMap_cons, List.length_append, List.length_cons]

theorem extent_blockLines_le (width : Nat) (c : Cursor) :
    extent (blockLines width c.rest) ≤ c.rest.length :=
  length_joined _ ▸ (below_read width c).stand.length_le

end Pipeless

/-! ## Readings -/

/-- A token with which a block of text may come. -/
def TokenKind.opensText : TokenKind → Bool
  | dot | codeBlock | comment _ _ | filter _ => true
  | _ => false

/-- A text is still ahead, also behind the parenthesis that opens here, if one does. -/
structure Cursor.Clear (a : List Char) (c : Cursor) : Prop where
  length_le : a.length ≤ c.rest.length
  inside : c.startsWith "(" → ∀ {content d}, (c.skip 1).inside .round = .ok (content, d) →
    a.length ≤ d.rest.length

/-- What the first reading reads while the text `a` is still ahead, the second one reads as well;
where a block of text may be part of it, only if such blocks are the same for both. -/
def Reading.Beside (blocks : Prop) (a b : List Char) (x y : Reading) : Prop :=
  ∀ ⦃ts c⦄, x = .ok (ts, c) → c.Clear a →
    ((ts.head?.any fun t => t.kind.opensText) → blocks) →
    ∃ us d, y = .ok (us, d) ∧ SameKinds ts us ∧ c.Beside a b d

namespace Reading.Beside

variable {blocks : Prop} {a b : List Char} {c d : Cursor} {x y : Reading}

theorem error {e : LexError} : Reading.Beside blocks a b (.error e) y :=
  fun _ _ h => nomatch h

theorem refuse {cause : LexCause} {loc : Location} :
    Reading.Beside blocks a b (Rule.refuse cause loc) y :=
  error

theorem ok {ts us : List Token} (hk : SameKinds ts us) (h : c.Beside a b d) :
    Reading.Beside blocks a b (.ok (ts, c)) (.ok (us, d)) := by
  intro ts' c' heq _ _
  cases heq
  exact ⟨us, d, rfl, hk, h⟩

theorem emit {kind : TokenKind} {loc loc' : Location} (h : c.Beside a b d) :
    Reading.Beside blocks a b (Rule.emit kind loc c) (Rule.emit kind loc' d) :=
  ok (.cons rfl (.refl [])) h

end Reading.Beside

/-- A block of text is read in front of two texts alike. -/
theorem Pipeless.beside_read {width width' : Nat} {a b : List Char} {c d c' : Cursor}
    {ts : List Token} {check : Bool} (hlevel : Level width width' a b) (hab : lineOf b = lineOf a)
    (h : c.Beside a b d) (hc : read check width c = .ok (ts, c'))
    (ha : a.length ≤ c'.rest.length) :
    ∃ us d', read check width' d = .ok (us, d') ∧ SameKinds ts us ∧ c'.Beside a b d' := by
  have hextent := extent_blockLines_le width c
  have hahead : a.length ≤ (c.skip (extent (blockLines width c.rest))).rest.length := by
    unfold read at hc
    dsimp only at hc
    split at hc
    next hnil =>
      cases hc
      rw [blockLines, hnil]
      exact ha
    next =>
      obtain ⟨_, -, hc⟩ := of_bind_eq_ok hc
      cases hc
      exact ha
  obtain ⟨m, hcm, hdm, hm⟩ := h.exists_text hextent hahead
  have hnext := h.skip_of_ahead hab hextent hahead
  have hlines : blockLines width' d.rest = blockLines width c.rest := by
    rw [hcm, hdm]
    exact hlevel m (hcm ▸ hm)
  unfold blockLines at hlines hnext
  unfold read at hc ⊢
  dsimp only at hc ⊢
  rw [hlines]
  split at hc
  next hnil =>
    cases hc
    rw [if_pos hnil]
    exact ⟨[], d, rfl, .refl [], h⟩
  next hne =>
    obtain ⟨tokens, htokens, hc⟩ := of_bind_eq_ok hc
    obtain ⟨tokens', htokens', hkinds⟩ := sameKinds_lineTokens htokens d
    cases hc
    rw [if_neg hne, htokens']
    exact ⟨_, _, rfl, .cons rfl (.append hkinds (.cons rfl (.refl []))), hnext⟩

end PugTemplate
