import PugTemplate.Proofs.Lex.Beside

/-!
# Rules are local

Every rule applies or does not by the line it stands in, and what it reads up to a place is settled
by the text before that place and the line there. Main statement: `beside_read`.
-/

namespace PugTemplate

open Cursor (Beside)
open Pipeless (Level)

/-! ## Attribute lists -/

namespace Attribute

theorem readName_congr {loc loc' : Location} {cs name : List Char} {n : Nat}
    (h : readName loc cs = .ok (name, n)) : readName loc' cs = .ok (name, n) := by
  cases cs with
  | nil => exact h
  | cons q rest =>
    unfold readName at h ⊢
    dsimp only at h ⊢
    split at h
    next hq =>
      rw [if_pos hq]
      split at h
      next hlen =>
        rw [if_pos hlen]
        exact h
      next => cases h
    next hq =>
      rw [if_neg hq]
      exact h

section Item

variable {c here : Cursor} {name : List Char} {n : Nat}

/-- An attribute without a value, and those behind it. -/
theorem readList_bare (hhere : here = c.skip (c.rest.takeWhile isSeparator).length)
    (hne : here.rest ≠ []) (hname : readName here.loc here.rest = .ok (name, n)) (hn : name ≠ [])
    (hmark : mark? (here.skip n).rest = none) :
    readList c = (token here.loc name none true :: ·) <$> readList (here.skip n) := by
  subst hhere
  rw [readList]
  dsimp only
  rw [if_neg hne]
  split
  next e he => cases he.symm.trans hname
  next name' n' he =>
    obtain ⟨rfl, rfl⟩ := Prod.mk.inj (Except.ok.inj (he.symm.trans hname))
    rw [dif_neg hn, hmark]
    rfl

/-- An attribute with a value, and those behind it. -/
theorem readList_value {start : Cursor} {escape : Bool} {m : Nat} {text : List Char}
    (hhere : here = c.skip (c.rest.takeWhile isSeparator).length)
    (hne : here.rest ≠ []) (hname : readName here.loc here.rest = .ok (name, n)) (hn : name ≠ [])
    (hmark : mark? (here.skip n).rest = some (escape, m))
    (hstart : start = ((here.skip n).skip m).skip
      (((here.skip n).skip m).rest.takeWhile isBlank).length)
    (htext : valueText [] none start.rest = .ok text) (hvalue : trim text ≠ []) :
    readList c = (token here.loc name (some (trim text)) escape :: ·) <$>
      readList (start.skip text.length) := by
  subst hhere hstart
  rw [readList]
  dsimp only
  rw [if_neg hne]
  split
  next e he => cases he.symm.trans hname
  next name' n' he =>
    obtain ⟨rfl, rfl⟩ := Prod.mk.inj (Except.ok.inj (he.symm.trans hname))
    rw [dif_neg hn, hmark]
    dsimp only
    rw [htext]
    dsimp only
    rw [if_neg hvalue]
    rfl

end Item

/-- A list says the same wherever it stands. -/
theorem sameKinds_readList {c d : Cursor} {ts : List Token} (hcd : d.rest = c.rest)
    (h : readList c = .ok ts) : ∃ us, readList d = .ok us ∧ SameKinds ts us := by
  have hskip {c d : Cursor} (hcd : d.rest = c.rest) (n : Nat) : (d.skip n).rest = (c.skip n).rest := by
    rw [Cursor.rest_skip, Cursor.rest_skip, hcd]
  fun_induction readList c generalizing d ts
  case case1 c here hnil =>
    cases h
    refine ⟨[], ?_, .refl []⟩
    rw [readList]
    exact if_pos (by rw [Cursor.rest_skip, hcd]; exact hnil)
  case case2 | case3 | case5 | case6 => cases h
  case case4 c here hne name n hname hn behind hmark ih =>
    obtain ⟨more, hmore, h⟩ := of_bind_eq_ok h
    cases h
    have hhere : (d.skip (d.rest.takeWhile isSeparator).length).rest = here.rest := by
      rw [hcd]
      exact hskip hcd _
    obtain ⟨us, hus, hkinds⟩ := ih (hskip hhere n) hmore
    rw [readList_bare rfl (hhere ▸ hne) (hhere ▸ readName_congr hname) hn (hskip hhere n ▸ hmark), hus]
    exact ⟨_, rfl, .cons rfl hkinds⟩
  case case7 c here hne name n hname hn behind escape m hmark vs start text hv value hval ih =>
    obtain ⟨more, hmore, h⟩ := of_bind_eq_ok h
    cases h
    have hhere : (d.skip (d.rest.takeWhile isSeparator).length).rest = here.rest := by
      rw [hcd]
      exact hskip hcd _
    have hafter := hskip (hskip hhere n) m
    have hstart : ((((d.skip (d.rest.takeWhile isSeparator).length).skip n).skip m).skip
        ((((d.skip (d.rest.takeWhile isSeparator).length).skip n).skip m).rest.takeWhile
          isBlank).length).rest = start.rest := by
      rw [hafter]
      exact hskip hafter _
    obtain ⟨us, hus, hkinds⟩ := ih (hskip hstart text.length) hmore
    rw [readList_value rfl (hhere ▸ hne) (hhere ▸ readName_congr hname) hn (hskip hhere n ▸ hmark) rfl
      (hstart ▸ hv) hval, hus]
    exact ⟨_, rfl, .cons rfl hkinds⟩
end Attribute

/-! ## What rules are made of -/

namespace Rule

variable {blocks : Prop} {width width' : Nat} {a b : List Char} {c d : Cursor}

theorem lineText_congr (h : c.Beside a b d) : lineText d = lineText c := by
  rw [lineText, lineText, h.line]

theorem beside_restAsText {kind : String → TokenKind} (h : c.Beside a b d) :
    Reading.Beside blocks a b (restAsText kind c) (restAsText kind d) := by
  unfold restAsText
  rw [h.line]
  cases hm : checkMarkers c.loc c.line with
  | error e => exact .error
  | ok u =>
    rw [checkMarkers_congr hm]
    exact .emit h.skipLine

theorem beside_withPipeless {check : Bool} {kind : TokenKind} {loc loc' : Location}
    (hkind : kind.opensText) (hab : lineOf b = lineOf a) (h : c.Beside a b d) :
    Reading.Beside (Level width width' a b) a b (withPipeless check width ⟨kind, loc⟩ c)
      (withPipeless check width' ⟨kind, loc'⟩ d) := by
  intro ts c' hok hclear hblocks
  unfold withPipeless at hok ⊢
  split at hok
  next tokens e hread =>
    cases hok
    obtain ⟨us, f, hus, hkinds, hnext⟩ :=
      Pipeless.beside_read (hblocks hkind) hab h hread hclear.length_le
    rw [hus]
    exact ⟨_, f, rfl, .cons rfl hkinds, hnext⟩
  next => cases hok

theorem beside_attributeList {c' : Cursor} {ts : List Token} (hab : lineOf b = lineOf a)
    (h : c.Beside a b d) (hs : c.startsWith "(") (hok : attributeList c = .ok (ts, c'))
    (ha : a.length ≤ c'.rest.length) :
    ∃ us d', attributeList d = .ok (us, d') ∧ SameKinds ts us ∧ c'.Beside a b d' := by
  unfold attributeList at hok ⊢
  split at hok
  next => cases hok
  next content e hin =>
    split at hok
    next => cases hok
    next tokens htokens =>
      cases hok
      obtain ⟨f, hin', hnext⟩ := (h.skip_startsWith (by decide) hs).inside hab hin ha
      obtain ⟨us, hus, hkinds⟩ :=
        Attribute.sameKinds_readList (c := ⟨content, (c.skip 1).loc⟩)
          (d := ⟨content, (d.skip 1).loc⟩) rfl htokens
      rw [show (d.skip 1).inside .round = .ok (content, f) from hin']
      dsimp only
      rw [hus]
      exact ⟨_, f, rfl, .cons rfl (.append hkinds (.cons rfl (.refl []))), hnext⟩

theorem beside_path {kind : TokenKind} {loc loc' : Location} (missing : LexCause)
    (h : c.Beside a b d) :
    Reading.Beside blocks a b (path ⟨kind, loc⟩ missing c) (path ⟨kind, loc'⟩ missing d) := by
  have hpath := h.skipIndent
  unfold path
  dsimp only
  rw [hpath.line, lineText_congr hpath]
  split
  · exact .refuse
  · exact .ok (.cons rfl (.cons rfl (.refl []))) hpath.skipLine

theorem beside_namedBlock {loc loc' : Location} {mode : BlockMode} (h : c.Beside a b d) :
    Reading.Beside blocks a b (namedBlock loc mode c) (namedBlock loc' mode d) := by
  rw [namedBlock, namedBlock, lineText_congr h]
  exact .emit h.skipLine

/-- A token whose source is the text in brackets. -/
theorem beside_inside (kind : List Char → TokenKind) (loc loc' : Location) (br : Bracket)
    (hab : lineOf b = lineOf a) (h : c.Beside a b d) :
    Reading.Beside blocks a b
      (match c.inside br with
        | .error e => .error e
        | .ok (content, e) => emit (kind content) loc e)
      (match d.inside br with
        | .error e => .error e
        | .ok (content, e) => emit (kind content) loc' e) := by
  intro ts c' hok hclear hblocks
  split at hok
  next => cases hok
  next content e hin =>
    obtain rfl := eq_of_emit hok
    obtain ⟨f, hin', hnext⟩ := h.inside hab hin hclear.length_le
    rw [hin']
    exact Reading.Beside.emit hnext hok hclear hblocks

/-- A rule that applies where it does and reads what it reads by the line it stands in and by the
text before the place where it stops. -/
def Local (r : Rule) : Prop :=
  ∀ ⦃width width' : Nat⦄ ⦃a b : List Char⦄ ⦃c d : Cursor⦄, lineOf b = lineOf a → c.Beside a b d →
    Option.Rel (Reading.Beside (Level width width' a b) a b) (r width c) (r width' d)

theorem rel_cases {α β : Type} {R : α → β → Prop} {x : Option α} {y : Option β}
    (h : Option.Rel R x y) : x = none ∧ y = none ∨ ∃ p q, x = some p ∧ y = some q ∧ R p q := by
  cases h with
  | none => exact Or.inl ⟨rfl, rfl⟩
  | some h => exact Or.inr ⟨_, _, rfl, rfl, h⟩

theorem rel_map {α : Type} {R : α → α → Prop} {x y : Option α} {f g : α → Reading}
    (h : Option.Rel R x y) (hf : ∀ p q, R p q → Reading.Beside blocks a b (f p) (g q)) :
    Option.Rel (Reading.Beside blocks a b) (x.map f) (y.map g) := by
  cases h with
  | none => exact .none
  | some h => exact .some (hf _ _ h)

theorem local_of_keyword (word : String) (hword : '\n' ∉ word.toList)
    {f : Nat → Cursor → Cursor → Reading}
    (h : ∀ (width width' : Nat) (a b : List Char) (c d c' d' : Cursor), lineOf b = lineOf a →
      c'.Beside a b d' →
      Reading.Beside (Level width width' a b) a b (f width c c') (f width' d d')) :
    Local fun width c => (c.keyword? word).map (f width c) :=
  fun width width' a b c d hab hcd =>
    rel_map (hcd.keyword? hword) fun c' d' => h width width' a b c d c' d' hab

theorem local_of_startsWith (mark : String) (hmark : '\n' ∉ mark.toList)
    {f : Nat → Cursor → Reading}
    (h : ∀ (width width' : Nat) (a b : List Char) (c d : Cursor), lineOf b = lineOf a →
      c.Beside a b d → c.startsWith mark →
      Reading.Beside (Level width width' a b) a b (f width c) (f width' d)) :
    Local fun width c => if c.startsWith mark then some (f width c) else none := by
  intro width width' a b c d hab hcd
  dsimp only
  rw [hcd.startsWith hmark]
  split
  next hs => exact .some (h _ _ _ _ _ _ hab hcd hs)
  next => exact .none

/-! ## Rules that begin with a keyword -/

theorem local_yieldWord : yieldWord.Local :=
  local_of_keyword "yield" (by decide) fun _ _ _ _ _ _ _ _ _ h => .emit h

theorem local_defaultWord : defaultWord.Local :=
  local_of_keyword "default" (by decide) fun _ _ _ _ _ _ _ _ _ h => .emit h

theorem local_doctype : doctype.Local := by
  refine local_of_keyword "doctype" (by decide) fun _ _ _ _ _ _ _ _ _ h => ?_
  rw [h.line, lineText_congr h]
  exact .emit h.skipLine

theorem local_expression (keyword : ExprKeyword) (kind : String → TokenKind) :
    (expression keyword kind).Local := by
  refine local_of_keyword keyword.text (by cases keyword <;> decide) fun _ _ _ _ _ _ _ _ _ h => ?_
  rw [h.line, lineText_congr h]
  split
  · exact .refuse
  · exact .emit h.skipLine

theorem length_whenText_le {open_ : List Enclosure} {before : Char} {cs text : List Char}
    (h : whenText open_ before cs = .ok text) : text.length ≤ cs.length := by
  fun_induction whenText open_ before cs generalizing text
  case case1 => simp [← Except.ok.inj h]
  case case2 => simp [← Except.ok.inj h]
  case case3 | case5 => cases h
  case case4 hrest ih =>
    cases h
    exact Nat.succ_le_succ (ih hrest)

theorem local_when : when.Local := by
  refine local_of_keyword "when" (by decide) fun _ _ _ _ _ _ _ _ _ h => ?_
  have hsource := h.skipIndent
  dsimp only
  rw [hsource.line]
  split
  next => exact .error
  next text htext =>
    split
    · exact .refuse
    · exact .emit (hsource.skip (length_whenText_le htext))

theorem local_otherwise : otherwise.Local := by
  refine local_of_keyword "else" (by decide) fun _ _ _ _ _ _ _ _ _ h => ?_
  have hbehind := h.skipIndent
  dsimp only
  obtain ⟨hc, hd⟩ | ⟨e, f, hc, hd, hef⟩ := rel_cases (hbehind.keyword? (w := "if") (by decide))
  · rw [hc, hd]
    dsimp only
    rw [hbehind.line]
    split
    · exact .emit hbehind
    · exact .emit hbehind.skipLine
  · rw [hc, hd]
    dsimp only
    rw [hef.line, lineText_congr hef]
    split
    · exact .refuse
    · exact .emit hef.skipLine

theorem local_eachWith (keyword : ExprKeyword) : (eachWith keyword).Local := by
  refine local_of_keyword keyword.text (by cases keyword <;> decide) fun _ _ _ _ _ _ _ _ _ h => ?_
  rw [h.line]
  split
  · exact .refuse
  · split
    · exact .emit h.skipLine
    · exact .refuse

theorem local_inherits : inherits.Local := by
  intro width width' a b c d hab h
  have hextends := h.keyword? (w := "extends") (by decide)
  have hextend := h.keyword? (w := "extend") (by decide)
  refine rel_map ?_ fun c' d' hnext => beside_path .missingParentPath hnext
  obtain ⟨hc, hd⟩ | ⟨e, f, hc, hd, hef⟩ := rel_cases hextends
  · rw [hc, hd]
    exact hextend
  · rw [hc, hd]
    exact .some hef

theorem local_includes : includes.Local := by
  refine local_of_keyword "include" (by decide) fun _ _ _ _ _ _ _ _ _ h => ?_
  rw [h.startsWith (by decide)]
  split
  next hs =>
    have hname := h.skip_startsWith (by decide) hs
    have hword := hname.skip_word
    rw [Cursor.skip_skip, Cursor.skip_skip] at hword
    dsimp only
    rw [show (Cursor.skip _ 1).word = _ from hname.word]
    exact beside_path _ hword
  next => exact beside_path _ h

theorem beside_blockMode? (h : c.Beside a b d) :
    Option.Rel (fun p q : BlockMode × Cursor => q.1 = p.1 ∧ p.2.Beside a b q.2) (blockMode? c)
      (blockMode? d) := by
  unfold blockMode?
  obtain ⟨hc, hd⟩ | ⟨e, f, hc, hd, hef⟩ := rel_cases (h.keyword? (w := "append") (by decide))
  · obtain ⟨hc', hd'⟩ | ⟨e, f, hc', hd', hef⟩ := rel_cases (h.keyword? (w := "prepend") (by decide))
    · rw [hc, hd, hc', hd']
      exact .none
    · rw [hc, hd, hc', hd']
      dsimp only
      rw [hef.line]
      split
      · exact .none
      · exact .some ⟨rfl, hef⟩
  · rw [hc, hd]
    dsimp only
    rw [hef.line]
    split
    · exact .none
    · exact .some ⟨rfl, hef⟩

theorem local_block : block.Local := by
  intro width width' a b c d hab h
  unfold block
  obtain ⟨hc, hd⟩ | ⟨p, q, hc, hd, hmode, hpq⟩ := rel_cases (beside_blockMode? h)
  · rw [hc, hd]
    refine rel_map (h.keyword? (by decide)) fun c' d' hnext => ?_
    rw [hnext.line]
    split
    · exact .emit hnext.skipLine
    · obtain ⟨hc, hd⟩ | ⟨p, q, hc, hd, hmode, hpq⟩ := rel_cases (beside_blockMode? hnext.skipIndent)
      · rw [hc, hd]
        exact beside_namedBlock hnext.skipIndent
      · obtain ⟨mode, e⟩ := p
        obtain ⟨_, f⟩ := q
        cases hmode
        rw [hc, hd]
        exact beside_namedBlock hpq
  · obtain ⟨mode, e⟩ := p
    obtain ⟨_, f⟩ := q
    cases hmode
    rw [hc, hd]
    exact .some (beside_namedBlock hpq)

theorem local_mixin : mixin.Local := by
  refine local_of_keyword "mixin" (by decide) fun _ _ _ _ _ _ _ _ hab h => ?_
  have hname := h.skipIndent
  have hbehind := hname.skip_word.skipIndent
  dsimp only
  rw [hname.word]
  split
  · exact .refuse
  · rw [hbehind.startsWith (by decide)]
    split
    next hs =>
      exact beside_inside (fun content => .mixin _ (some (String.ofList (trim content)))) _ _ .round
        hab (hbehind.skip_startsWith (by decide) hs)
    next => exact .emit hbehind

theorem local_spread : spread.Local := by
  refine local_of_keyword "&attributes" (by decide) fun _ _ _ _ _ _ _ _ hab h => ?_
  rw [h.startsWith (by decide)]
  split
  next hs =>
    exact beside_inside (fun content => .spread (String.ofList (trim content))) _ _ .round hab
      (h.skip_startsWith (by decide) hs)
  next => exact .refuse

/-! ## Rules that begin with a mark -/

theorem local_interpolation : interpolation.Local := by
  intro width width' a b c d hab h
  unfold interpolation
  rw [h.startsWith (by decide)]
  split
  next hs =>
    have hinside := @beside_inside (Level width width' a b) a b _ _
      (fun content => .interpolation (String.ofList (trim content))) c.loc d.loc .curly hab
      (h.skip_startsWith (by decide) hs)
    cases hc : (c.skip 2).inside .curly with
    | error e =>
      cases hd : (d.skip 2).inside .curly with
      | error => exact .some .error
      | ok => exact .some .error
    | ok r =>
      rw [show (c.skip "#\x7b".toList.length).inside .curly = .ok r from hc] at hinside
      cases hd : (d.skip 2).inside .curly with
      | error e =>
        rw [show (d.skip "#\x7b".toList.length).inside .curly = .error e from hd] at hinside
        exact .some hinside
      | ok q =>
        rw [show (d.skip "#\x7b".toList.length).inside .curly = .ok q from hd] at hinside
        exact .some hinside
  next => exact .none

theorem length_tagName_le (c : Cursor) : (tagName c.rest).length ≤ c.line.length := by
  have htake : (c.rest.takeWhile isTagChar).length ≤ c.line.length := by
    rw [← Cursor.takeWhile_line (by decide)]
    exact (List.takeWhile_prefix _).length_le
  refine Nat.le_trans ?_ htake
  rw [tagName, List.length_reverse, ← @List.length_reverse _ (c.rest.takeWhile isTagChar)]
  exact (List.dropWhile_suffix _).length_le

theorem tagName_congr (h : c.Beside a b d) : tagName d.rest = tagName c.rest := by
  rw [tagName, tagName, h.takeWhile (by decide)]

theorem local_tag : tag.Local := by
  intro width width' a b c d hab h
  have hword : isWord '\n' = false := by decide
  unfold tag
  rw [← Cursor.any_head?_line hword, ← Cursor.any_head?_line hword, h.line, tagName_congr h]
  split
  · exact .some (.emit (h.skip (length_tagName_le c)))
  · exact .none

theorem beside_named {mark : String} {x : Char} (hmark : mark.toList = [x]) (hx : x ≠ '\n')
    (h : c.Beside a b d) (hs : c.startsWith mark) :
    (d.skip 1).word = (c.skip 1).word ∧
      (c.skip (1 + (c.skip 1).word.length)).Beside a b (d.skip (1 + (c.skip 1).word.length)) := by
  have hnext : (c.skip mark.toList.length).Beside a b (d.skip mark.toList.length) :=
    h.skip_startsWith (by simp [hmark, hx.symm]) hs
  rw [hmark] at hnext
  have hword := hnext.skip_word
  rw [Cursor.skip_skip, Cursor.skip_skip] at hword
  exact ⟨hnext.word, hword⟩

theorem local_id : id.Local := by
  intro width width' a b c d hab h
  unfold id
  rw [h.startsWith (by decide), h.startsWith (by decide)]
  split
  · exact .some (beside_restAsText h)
  · split
    next hs =>
      obtain ⟨hword, hnext⟩ := beside_named rfl (by decide) h hs
      dsimp only
      rw [hword]
      split
      · exact .some (.emit hnext)
      · exact .some .refuse
    next => exact .none

theorem local_className : className.Local := by
  intro width width' a b c d hab h
  unfold className
  rw [h.startsWith (by decide)]
  split
  next hs =>
    obtain ⟨hword, hnext⟩ := beside_named rfl (by decide) h hs
    dsimp only
    rw [hword]
    split
    · exact .some (.emit hnext)
    · exact .some .refuse
  next => exact .none

theorem local_attributes : attributes.Local :=
  local_of_startsWith "(" (by decide) fun _ _ _ _ _ _ hab h hs _ _ hok hclear _ =>
    beside_attributeList hab h hs hok hclear.length_le

theorem local_dot : dot.Local := by
  intro width width' a b c d hab h
  unfold dot
  rw [h.startsWith (by decide)]
  cases hs : c.startsWith "." with
  | false => exact .none
  | true =>
    have hnext := h.skip_startsWith (by decide) hs
    rw [show (d.skip 1).line = (c.skip 1).line from hnext.line]
    split
    · exact .some (beside_withPipeless rfl hab h.skipLine)
    · exact .none

theorem local_slash : slash.Local :=
  local_of_startsWith "/" (by decide) fun _ _ _ _ _ _ _ h hs =>
    .emit (h.skip_startsWith (by decide) hs)

theorem local_colon : colon.Local := by
  intro width width' a b c d hab h
  unfold colon
  rw [h.startsWith (by decide), h.startsWith (by decide)]
  split
  next hs =>
    have hline : 1 ≤ c.line.length := by
      rcases Bool.or_eq_true_iff.mp hs with hs | hs
      · rw [Cursor.startsWith_line (by decide)] at hs
        exact Nat.le_trans (by decide) (Cursor.length_of_begins hs)
      · rw [Cursor.startsWith_line (by decide)] at hs
        exact Nat.le_trans (by decide) (Cursor.length_of_begins hs)
    exact .some (.emit (h.skip hline).skipIndent)
  next => exact .none

theorem local_codeBlock : codeBlock.Local := by
  intro width width' a b c d hab h
  unfold codeBlock
  rw [h.startsWith (by decide)]
  cases hs : c.startsWith "-" with
  | false => exact .none
  | true =>
    have hnext := h.skip_startsWith (by decide) hs
    rw [show (d.skip 1).line = (c.skip 1).line from hnext.line]
    split
    · exact .some (beside_withPipeless rfl hab h.skipLine)
    · exact .none

theorem beside_codeWith {flag : String} (hflag : '\n' ∉ flag.toList) (buffered escape : Bool)
    (h : c.Beside a b d) (hs : c.startsWith flag) :
    Reading.Beside blocks a b (codeWith flag buffered escape c) (codeWith flag buffered escape d) := by
  have hcode := h.skip_startsWith hflag hs
  unfold codeWith
  dsimp only
  rw [hcode.line, lineText_congr hcode]
  split
  · exact .refuse
  · exact .emit hcode.skipLine

theorem local_code : code.Local := by
  intro width width' a b c d hab h
  unfold code
  rw [h.startsWith (by decide), h.startsWith (by decide), h.startsWith (by decide)]
  split
  next hs => exact .some (beside_codeWith (by decide) _ _ h hs)
  next =>
    split
    next hs => exact .some (beside_codeWith (by decide) _ _ h hs)
    next =>
      split
      next hs => exact .some (beside_codeWith (by decide) _ _ h hs)
      next => exact .none

theorem local_text : text.Local := by
  intro width width' a b c d hab h
  unfold text
  dsimp only
  rw [h.startsWith (by decide), h.startsWith (by decide), h.line]
  split
  next hs =>
    have hnext := h.skip_startsWith (by decide) hs
    rw [show (d.skip 1).startsWith " " = (c.skip 1).startsWith " " from
      hnext.startsWith (by decide)]
    split
    next hspace => exact .some (beside_restAsText (hnext.skip_startsWith (by decide) hspace))
    next => exact .some (beside_restAsText hnext)
  next =>
    split
    next hs =>
      split
      · exact .some (.ok (.refl []) h.skipLine)
      · exact .some (beside_restAsText (h.skip_startsWith (by decide) hs))
    next => exact .none

theorem local_html : html.Local :=
  local_of_startsWith "<" (by decide) fun _ _ _ _ _ _ _ h _ => beside_restAsText h

theorem local_comment : comment.Local := by
  intro width width' a b c d hab h
  unfold comment
  rw [h.startsWith (by decide)]
  split
  next hs =>
    have hnext := h.skip_startsWith (by decide) hs
    dsimp only
    rw [show (d.skip 2).startsWith "-" = (c.skip 2).startsWith "-" from hnext.startsWith (by decide)]
    have hbody : Beside a b
        (if !(c.skip 2).startsWith "-" then c.skip 2 else (c.skip 2).skip 1)
        (if !(c.skip 2).startsWith "-" then d.skip 2 else (d.skip 2).skip 1) := by
      cases hhyphen : (c.skip 2).startsWith "-" with
      | false => exact hnext
      | true => exact hnext.skip_startsWith (by decide) hhyphen
    rw [hbody.line]
    exact .some (beside_withPipeless rfl hab hbody.skipLine)
  next => exact .none

/-! ## Calls and filters -/

theorem beside_callName {loc : Location} (loc' : Location) {c' : Cursor} {name : List Char}
    {computed : Bool} (hab : lineOf b = lineOf a) (h : c.Beside a b d)
    (hc : callName loc c = .ok (name, computed, c')) (ha : a.length ≤ c'.rest.length) :
    ∃ d', callName loc' d = .ok (name, computed, d') ∧ c'.Beside a b d' := by
  unfold callName at hc ⊢
  rw [h.startsWith (by decide)]
  split at hc
  next hs =>
    rw [if_pos hs]
    split at hc
    next content e hin =>
      cases hc
      obtain ⟨f, hin', hnext⟩ := (h.skip_startsWith (by decide) hs).inside hab hin ha
      rw [show (d.skip 2).inside .curly = .ok (content, f) from hin']
      exact ⟨f, rfl, hnext⟩
    next => cases hc
  next hs =>
    rw [if_neg hs, h.word]
    split at hc
    next => cases hc
    next hw =>
      cases hc
      exact ⟨_, if_neg hw, h.skip_word⟩

/-- A rule that applies in both places, if in the second it reads what it reads in the first. -/
theorem rel_of_isSome {x y : Option Reading} (hx : x.isSome) (hy : y.isSome)
    (h : ∀ ts c', x = some (.ok (ts, c')) → c'.Clear a →
      ((ts.head?.any fun t => t.kind.opensText) → blocks) →
      ∃ us d', y = some (.ok (us, d')) ∧ SameKinds ts us ∧ c'.Beside a b d') :
    Option.Rel (Reading.Beside blocks a b) x y := by
  obtain ⟨x, rfl⟩ := Option.isSome_iff_exists.mp hx
  obtain ⟨y, rfl⟩ := Option.isSome_iff_exists.mp hy
  refine .some fun ts c' hok hclear hblocks => ?_
  obtain ⟨us, d', hus, hkinds, hnext⟩ := h ts c' (congrArg some hok) hclear hblocks
  exact ⟨us, d', Option.some.inj hus, hkinds, hnext⟩

theorem isSome_call (width : Nat) {c : Cursor} (hs : c.startsWith "+") : (call width c).isSome := by
  unfold call
  rw [if_pos hs]
  split
  · rfl
  · dsimp only
    split
    · split
      · rfl
      · split <;> rfl
    · rfl

theorem call_of_name {width : Nat} {c e : Cursor} {name : List Char} {computed : Bool}
    (hs : c.startsWith "+") (hn : callName c.loc (c.skip 1).skipIndent = .ok (name, computed, e)) :
    call width c =
      if e.startsWith "(" then
        match (e.skip 1).inside .round with
        | .error f => some (.error f)
        | .ok (content, f) =>
          if looksLikeAttributes content then
            some (emit (.call (String.ofList name) computed none) c.loc e)
          else some (emit (.call (String.ofList name) computed (some (String.ofList (trim content))))
            c.loc f)
      else some (emit (.call (String.ofList name) computed none) c.loc e) := by
  rewrite [call, if_pos hs, hn]
  rfl

/-- A call stops behind its name or further on. -/
theorem length_of_call {width : Nat} {c c' e : Cursor} {name : List Char} {computed : Bool}
    {ts : List Token} (hs : c.startsWith "+")
    (hn : callName c.loc (c.skip 1).skipIndent = .ok (name, computed, e))
    (h : call width c = some (.ok (ts, c'))) : c'.rest.length ≤ e.rest.length := by
  rw [call_of_name hs hn] at h
  split at h
  · split at h
    next => cases h
    next content f hin =>
      split at h
      · cases h
        exact Nat.le_refl _
      · cases h
        exact Nat.le_trans (Nat.le_of_lt (Cursor.length_inside hin)) (Cursor.length_skip e 1 ▸ Nat.sub_le _ _)
  · cases h
    exact Nat.le_refl _

/-- A call is read the same, also where it stops in front of the attributes behind its name. -/
theorem local_call : call.Local := by
  intro width width' a b c d hab h
  cases hs : c.startsWith "+" with
  | false =>
    have hs' : d.startsWith "+" = false := (h.startsWith (by decide)).trans hs
    rw [call, hs, call, hs']
    exact .none
  | true =>
    have hs' : d.startsWith "+" = true := (h.startsWith (by decide)).trans hs
    refine rel_of_isSome (isSome_call width hs) (isSome_call width' hs') fun ts c' hok hclear _ => ?_
    have hname := (h.skip_startsWith (by decide) hs).skipIndent
    cases hn : callName c.loc (c.skip 1).skipIndent with
    | error e =>
      rw [call, if_pos hs, hn] at hok
      cases hok
    | ok r =>
      obtain ⟨name, computed, e⟩ := r
      have hahead := Nat.le_trans hclear.length_le (length_of_call hs hn hok)
      obtain ⟨g, hg, hnext⟩ := beside_callName d.loc hab hname hn hahead
      rw [call_of_name hs hn] at hok
      rw [call_of_name hs' hg, hnext.startsWith (by decide)]
      split at hok
      next hopen =>
        rw [if_pos hopen]
        split at hok
        next => cases hok
        next content f hin =>
          have hin' (hf : a.length ≤ f.rest.length) :
              ∃ i, (g.skip 1).inside .round = .ok (content, i) ∧ f.Beside a b i :=
            (hnext.skip_startsWith (by decide) hopen).inside hab hin hf
          split at hok
          next hattributes =>
            cases hok
            obtain ⟨i, hi, -⟩ := hin' (hclear.inside hopen hin)
            rw [hi]
            dsimp only
            rw [if_pos hattributes]
            exact ⟨_, g, rfl, .cons rfl (.refl []), hnext⟩
          next hattributes =>
            cases hok
            obtain ⟨i, hi, hlast⟩ := hin' hclear.length_le
            rw [hi]
            dsimp only
            rw [if_neg hattributes]
            exact ⟨_, i, rfl, .cons rfl (.refl []), hlast⟩
      next hopen =>
        rw [if_neg hopen]
        cases hok
        exact ⟨_, g, rfl, .cons rfl (.refl []), hnext⟩

theorem beside_filterBody {ts us : List Token} {loc : Location} (loc' : Location) {name : String}
    (hab : lineOf b = lineOf a) (hk : SameKinds ts us) (h : c.Beside a b d) :
    Reading.Beside (Level width width' a b) a b (filterBody width (⟨.filter name, loc⟩ :: ts) c)
      (filterBody width' (⟨.filter name, loc'⟩ :: us) d) := by
  intro ts' c' hok hclear hblocks
  have hfirst : SameKinds (⟨.filter name, loc⟩ :: ts) (⟨.filter name, loc'⟩ :: us) := .cons rfl hk
  unfold filterBody at hok ⊢
  rw [h.line]
  split at hok
  next hblank =>
    rw [if_pos hblank]
    split at hok
    next more e hread =>
      cases hok
      obtain ⟨vs, f, hvs, hmore, hnext⟩ :=
        Pipeless.beside_read (hblocks rfl) hab h.skipLine hread hclear.length_le
      rw [hvs]
      exact ⟨_, f, rfl, hfirst.append hmore, hnext⟩
    next => cases hok
  next hshown =>
    rw [if_neg hshown]
    cases hok
    exact ⟨_, d, rfl, hfirst, h⟩

theorem length_filterBody {ts first : List Token} {c' : Cursor}
    (h : filterBody width first c = .ok (ts, c')) : c'.rest.length ≤ c.rest.length := by
  unfold filterBody at h
  split at h
  · split at h
    next hread =>
      cases h
      exact Nat.le_trans (Pipeless.length_read_le hread) (Cursor.length_skipLine_le c)
    next => cases h
  · cases h
    exact Nat.le_refl _

theorem local_filter : filter.Local := by
  intro width width' a b c d hab h
  unfold filter
  dsimp only
  rw [h.startsWith (by decide)]
  cases hs : c.startsWith ":" with
  | false => exact .none
  | true =>
    obtain ⟨hword, hnext⟩ := beside_named rfl (by decide) h hs
    rw [hword, hnext.startsWith (by decide)]
    split
    next =>
      split
      next hopen =>
        refine rel_of_isSome (by split <;> rfl) (by split <;> rfl) fun ts c' hok hclear hblocks => ?_
        split at hok
        next => cases hok
        next tokens e hlist =>
          have hbody := Option.some.inj hok
          have ha := Nat.le_trans hclear.length_le (length_filterBody hbody)
          obtain ⟨us, f, hus, hkinds, hlast⟩ := beside_attributeList hab hnext hopen hlist ha
          rw [hus]
          obtain ⟨vs, g, hvs, hrest⟩ :=
            beside_filterBody d.loc hab hkinds hlast hbody hclear hblocks
          exact ⟨vs, g, congrArg some hvs, hrest⟩
      next => exact .some (beside_filterBody _ hab (.refl []) hnext)
    next => exact .none

/-! ## All rules -/

theorem all_local : ∀ r ∈ all, r.Local := by
  simp only [all, List.forall_mem_cons, List.not_mem_nil, false_imp_iff, implies_true, and_true]
  exact ⟨local_yieldWord, local_doctype, local_interpolation, local_expression _ _, local_when,
    local_defaultWord, local_inherits, local_block, local_includes, local_mixin, local_call,
    local_otherwise, local_expression _ _, local_expression _ _, local_eachWith _, local_eachWith _,
    local_expression _ _, local_tag, local_filter, local_codeBlock, local_code, local_id, local_dot,
    local_className, local_attributes, local_spread, local_text, local_html, local_comment,
    local_slash, local_colon⟩

theorem local_first {rules : List Rule} (h : ∀ r ∈ rules, r.Local) : (first rules).Local := by
  intro width width' a b c d hab hcd
  induction rules with
  | nil => exact .none
  | cons r rules ih =>
    obtain ⟨hr, hrules⟩ := List.forall_mem_cons.mp h
    rw [first, first, List.findSome?_cons, List.findSome?_cons]
    obtain ⟨hc, hd⟩ | ⟨x, y, hc, hd, hxy⟩ := rel_cases (hr hab hcd)
    · rw [hc, hd]
      exact ih hrules
    · rw [hc, hd]
      exact .some hxy

/-- What is read in a line up to a place, with the position and with what follows left open. -/
theorem beside_read (hab : lineOf b = lineOf a) (h : c.Beside a b d) :
    Reading.Beside (Level width width' a b) a b (read width c) (read width' d) := by
  unfold read
  obtain ⟨hc, hd⟩ | ⟨x, y, hc, hd, hxy⟩ := rel_cases (local_first all_local hab h)
  · rw [hc]
    exact .refuse
  · rw [hc, hd]
    exact hxy

end Rule

end PugTemplate
