import PugTemplate.Proofs.Lex.Place
import PugTemplate.Proofs.Lex.Stream

/-!
# Signs of tokens

Some tokens have a sign of their own in the text: no rule but that of comments reads a comment, none
but that of tags the name of a tag, and where a list of attributes begins there is a parenthesis.
What a token prints stands in one line. What opens and closes blocks is read by no rule, but at the
end of a line. So no name of a tag stands where the head of a tag without a name begins
(`rest_eq_of_loc_eq`), and in text without line feeds no block opens (`not_indent_of_noFeed`).
-/

namespace PugTemplate

/-- A token that needs no sign to be told from others. -/
def TokenKind.isSignless : TokenKind → Bool
  | comment _ _ | tag _ | attributesStart | text _ | html _ | indent _ | outdent | eos => false
  | _ => true

/-- A token of a block of text. -/
def TokenKind.isOfBlock : TokenKind → Bool
  | pipelessStart | text _ | newline | pipelessEnd => true
  | _ => false

/-- A token that was read where its sign stands. -/
def Token.SignedFrom (c : Cursor) (t : Token) : Prop :=
  match t.kind with
  | .comment _ _ => c.startsWith "//"
  | .tag _ => t.loc = c.loc ∧ c.rest.head?.any isWord
  | .attributesStart => ∃ m, c.Reaches m ∧ t.loc = m.loc ∧ m.startsWith "("
  | .text s | .html s => '\n' ∉ s.toList
  | .indent _ | .outdent | .eos => False
  | _ => True

theorem Token.signedFrom_of_isSignless {t : Token} (h : t.kind.isSignless) (c : Cursor) :
    t.SignedFrom c := by
  obtain ⟨kind, loc⟩ := t
  cases kind <;> simp_all [SignedFrom, TokenKind.isSignless]

/-- All tokens that are read from some place have their signs. -/
def Reading.Signs (c : Cursor) (x : Reading) : Prop :=
  ∀ ⦃ts d⦄, x = .ok (ts, d) → ∀ t ∈ ts, t.SignedFrom c

theorem isSignless_of_isAttribute {k : TokenKind} (h : k.isAttribute) : k.isSignless := by
  cases k <;> first | rfl | exact nomatch h

theorem TextLines.isOfBlock {lines : List Token} (h : TextLines lines) :
    ∀ t ∈ lines, t.kind.isOfBlock := by
  induction h with
  | last s loc => exact List.forall_mem_singleton.mpr rfl
  | line s loc at_ h ih =>
    exact List.forall_mem_cons.mpr ⟨rfl, List.forall_mem_cons.mpr ⟨rfl, ih⟩⟩

namespace Pipeless

variable {check : Bool} {width : Nat} {c d : Cursor} {ts : List Token}

theorem isOfBlock_of_read (h : read check width c = .ok (ts, d)) : ∀ t ∈ ts, t.kind.isOfBlock := by
  obtain ⟨rfl, -⟩ | ⟨lines, loc, at_, rfl, hl, -⟩ := read_cases h
  · simp
  · simp only [List.forall_mem_cons, List.forall_mem_append]
    exact ⟨rfl, hl.isOfBlock, rfl, by simp⟩

theorem noFeed_of_read (h : read check width c = .ok (ts, d)) {s : String} {loc : Location}
    (hs : ⟨.text s, loc⟩ ∈ ts) : '\n' ∉ s.toList := by
  obtain ⟨rfl, -⟩ | ⟨lines, at_, at', rfl, -, haligned, -⟩ := read_cases h
  · exact absurd hs List.not_mem_nil
  · have hline : ⟨.text s, loc⟩ ∈ lines := by simpa using hs
    have hprinted : s.toList ∈ printedTexts lines := List.mem_filterMap.mpr ⟨_, hline, rfl⟩
    obtain ⟨i, hi⟩ := List.getElem?_of_mem hprinted
    obtain ⟨t, more, rfl⟩ := List.exists_cons_of_ne_nil (List.ne_nil_of_mem hline)
    exact (haligned t rfl i _ hi).1

/-- Of a block of text only the lines have signs. -/
theorem signed_of_read (h : read check width c = .ok (ts, d)) (from_ : Cursor) :
    ∀ t ∈ ts, t.SignedFrom from_ := by
  rintro ⟨kind, loc⟩ ht
  have hblock := isOfBlock_of_read h _ ht
  cases kind with
  | text s => exact noFeed_of_read h ht
  | pipelessStart | newline | pipelessEnd => trivial
  | _ => cases hblock

end Pipeless

namespace Reading.Signs

variable {c d : Cursor} {width : Nat} {kind : TokenKind} {loc : Location}

theorem error {e : LexError} : Signs c (.error e) :=
  fun _ _ h => nomatch h

theorem refuse {cause : LexCause} : Signs c (Rule.refuse cause loc) :=
  error

theorem emit_of (h : Token.SignedFrom c ⟨kind, loc⟩) : Signs c (Rule.emit kind loc d) := by
  rintro _ _ ⟨⟩
  exact List.forall_mem_singleton.mpr h

theorem emit (hk : kind.isSignless) : Signs c (Rule.emit kind loc d) :=
  emit_of (Token.signedFrom_of_isSignless hk c)

theorem restAsText {kind : String → TokenKind}
    (hk : ∀ s loc, '\n' ∉ s.toList → Token.SignedFrom c ⟨kind s, loc⟩) :
    Signs c (Rule.restAsText kind d) := by
  unfold Rule.restAsText
  split
  · exact emit_of (hk _ _ (String.toList_ofList ▸ feed_notMem_lineOf d.rest))
  · exact error

theorem withPipeless {check : Bool} {first : Token} (hf : first.SignedFrom c) :
    Signs c (Rule.withPipeless check width first d) := by
  unfold Rule.withPipeless
  split
  next ts e hp =>
    rintro _ _ ⟨⟩
    refine List.forall_mem_cons.mpr ⟨hf, fun t ht => ?_⟩
    exact Pipeless.signed_of_read hp c t ht
  next => exact error

theorem path {first : Token} {missing : LexCause} (hf : first.kind.isSignless) :
    Signs c (Rule.path first missing d) := by
  unfold Rule.path
  dsimp only
  split
  · exact refuse
  · rintro _ _ ⟨⟩
    simp only [List.forall_mem_cons]
    exact ⟨Token.signedFrom_of_isSignless hf c, trivial, by simp⟩

theorem attributeList (hd : c.Reaches d) (hs : d.startsWith "(") :
    Signs c (Rule.attributeList d) := by
  unfold Rule.attributeList
  split
  next => exact error
  next =>
    split
    next => exact error
    next as has =>
      rintro _ _ ⟨⟩
      simp only [List.forall_mem_cons, List.forall_mem_append]
      refine ⟨⟨d, hd, rfl, hs⟩, fun a ha => ?_, trivial, by simp⟩
      have hattr := Attribute.isAttribute_of_readList has a ha
      exact Token.signedFrom_of_isSignless (isSignless_of_isAttribute hattr) c

theorem filterBody {ts : List Token} (hts : ∀ t ∈ ts, t.SignedFrom c) :
    Signs c (Rule.filterBody width ts d) := by
  unfold Rule.filterBody
  split
  · split
    next more e hp =>
      rintro _ _ ⟨⟩
      refine List.forall_mem_append.mpr ⟨hts, fun t ht => ?_⟩
      exact Pipeless.signed_of_read hp c t ht
    next => exact error
  · rintro _ _ ⟨⟩
    exact hts

end Reading.Signs

namespace Rule

open Reading

/-- Whatever the rule reads has its sign where the rule applies. -/
def Signs (r : Rule) : Prop :=
  ∀ width c x, r width c = some x → x.Signs c

theorem signs_of_map {α : Type} {look : Nat → Cursor → Option α} {f : Nat → Cursor → α → Reading}
    (h : ∀ width c d, (f width c d).Signs c) : Signs fun width c => (look width c).map (f width c) := by
  intro width c x hx
  obtain ⟨d, -, rfl⟩ := Option.map_eq_some_iff.mp hx
  exact h width c d

theorem signs_of_ite {test : Nat → Cursor → Bool} {f : Nat → Cursor → Reading}
    (h : ∀ width c, test width c → (f width c).Signs c) :
    Signs fun width c => if test width c then some (f width c) else none := by
  intro width c x hx
  dsimp only at hx
  split at hx
  next ht => exact Option.some.inj hx ▸ h width c ht
  next => exact nomatch hx

/-! ### Rules that begin with a keyword -/

theorem signs_yieldWord : yieldWord.Signs :=
  signs_of_map fun _ _ _ => .emit rfl

theorem signs_defaultWord : defaultWord.Signs :=
  signs_of_map fun _ _ _ => .emit rfl

theorem signs_doctype : doctype.Signs :=
  signs_of_map fun _ _ _ => .emit rfl

theorem signs_expression (keyword : ExprKeyword) {kind : String → TokenKind}
    (hk : ∀ s, (kind s).isSignless) : (expression keyword kind).Signs := by
  refine signs_of_map fun width c d => ?_
  split
  · exact .refuse
  · exact .emit (hk _)

theorem signs_when : when.Signs := by
  refine signs_of_map fun width c d => ?_
  dsimp only
  split
  · exact .error
  · split
    · exact .refuse
    · exact .emit rfl

theorem signs_otherwise : otherwise.Signs := by
  refine signs_of_map fun width c d => ?_
  dsimp only
  split
  · split
    · exact .refuse
    · exact .emit rfl
  · split
    · exact .emit rfl
    · exact .emit rfl

theorem isSignless_of_eachKind {keyword : ExprKeyword} {body : List Char} {kind : TokenKind}
    (h : eachKind keyword body = .ok kind) : kind.isSignless := by
  unfold eachKind at h
  grind [TokenKind.isSignless]

theorem signs_eachWith (keyword : ExprKeyword) : (eachWith keyword).Signs := by
  refine signs_of_map fun width c d => ?_
  split
  · exact .refuse
  · split
    next kind hkind => exact .emit (isSignless_of_eachKind hkind)
    next => exact .refuse

theorem signs_inherits : inherits.Signs :=
  signs_of_map fun _ _ _ => .path rfl

theorem signs_includes : includes.Signs := by
  refine signs_of_map fun width c d => ?_
  split
  · exact .path rfl
  · exact .path rfl

theorem signs_block : block.Signs := by
  intro width c x hx
  unfold block at hx
  split at hx
  · exact Option.some.inj hx ▸ .emit rfl
  · obtain ⟨d, -, rfl⟩ := Option.map_eq_some_iff.mp hx
    split
    · exact .emit rfl
    · split
      · exact .emit rfl
      · exact .emit rfl

theorem signs_mixin : mixin.Signs := by
  refine signs_of_map fun width c d => ?_
  dsimp only
  split
  · exact .refuse
  · split
    · split
      · exact .error
      · exact .emit rfl
    · exact .emit rfl

theorem signs_spread : spread.Signs := by
  refine signs_of_map fun width c d => ?_
  split
  · split
    · exact .error
    · exact .emit rfl
  · exact .refuse

/-! ### Rules that begin with a mark -/

theorem signs_interpolation : interpolation.Signs := by
  intro width c x hx
  unfold interpolation at hx
  split at hx
  · split at hx
    · exact Option.some.inj hx ▸ .error
    · exact Option.some.inj hx ▸ .emit rfl
  · exact nomatch hx

theorem signs_tag : tag.Signs :=
  signs_of_ite fun _ _ hs => .emit_of ⟨rfl, hs⟩

theorem signs_id : id.Signs := by
  intro width c x hx
  unfold id at hx
  split at hx
  · exact Option.some.inj hx ▸ .restAsText fun _ _ h => h
  · split at hx
    · dsimp only at hx
      split at hx
      · exact Option.some.inj hx ▸ .emit rfl
      · exact Option.some.inj hx ▸ .refuse
    · exact nomatch hx

theorem signs_className : className.Signs := by
  intro width c x hx
  unfold className at hx
  split at hx
  · dsimp only at hx
    split at hx
    · exact Option.some.inj hx ▸ .emit rfl
    · exact Option.some.inj hx ▸ .refuse
  · exact nomatch hx

theorem signs_attributes : attributes.Signs :=
  signs_of_ite fun _ c hs => .attributeList (.refl c) hs

theorem signs_dot : dot.Signs :=
  signs_of_ite fun _ _ _ => .withPipeless trivial

theorem signs_slash : slash.Signs :=
  signs_of_ite fun _ _ _ => .emit rfl

theorem signs_colon : colon.Signs :=
  signs_of_ite fun _ _ _ => .emit rfl

theorem signs_call : call.Signs := by
  intro width c x hx
  unfold call at hx
  split at hx
  · split at hx
    · exact Option.some.inj hx ▸ .error
    · dsimp only at hx
      split at hx
      · split at hx
        · exact Option.some.inj hx ▸ .error
        · split at hx
          · exact Option.some.inj hx ▸ .emit rfl
          · exact Option.some.inj hx ▸ .emit rfl
      · exact Option.some.inj hx ▸ .emit rfl
  · exact nomatch hx

/-- A list of attributes may stand behind the name of a filter. -/
theorem signs_filter : filter.Signs := by
  intro width c x hx
  unfold filter at hx
  dsimp only at hx
  split at hx
  · split at hx
    next hs =>
      have hlist := Signs.attributeList (c.reaches_skip (1 + (c.skip 1).word.length)) hs
      split at hx
      next => exact Option.some.inj hx ▸ .error
      next hts =>
        exact Option.some.inj hx ▸
          .filterBody (List.forall_mem_cons.mpr ⟨trivial, hlist hts⟩)
    next => exact Option.some.inj hx ▸ .filterBody (List.forall_mem_singleton.mpr trivial)
  · exact nomatch hx

theorem signs_codeBlock : codeBlock.Signs :=
  signs_of_ite fun _ _ _ => .withPipeless trivial

theorem signs_codeWith (flag : String) (buffered escape : Bool) (c : Cursor) :
    (codeWith flag buffered escape c).Signs c := by
  unfold codeWith
  dsimp only
  split
  · exact .refuse
  · exact .emit rfl

theorem signs_code : code.Signs := by
  intro width c x hx
  unfold code at hx
  split at hx
  · exact Option.some.inj hx ▸ signs_codeWith _ _ _ c
  · split at hx
    · exact Option.some.inj hx ▸ signs_codeWith _ _ _ c
    · split at hx
      · exact Option.some.inj hx ▸ signs_codeWith _ _ _ c
      · exact nomatch hx

theorem signs_text : text.Signs := by
  intro width c x hx
  unfold text at hx
  dsimp only at hx
  split at hx
  · exact Option.some.inj hx ▸ .restAsText fun _ _ h => h
  · split at hx
    · split at hx
      -- blanks at the end of a line leave no token
      · rintro _ _ rfl
        cases hx
        simp
      · exact Option.some.inj hx ▸ .restAsText fun _ _ h => h
    · exact nomatch hx

theorem signs_html : html.Signs :=
  signs_of_ite fun _ _ _ => .restAsText fun _ _ h => h

theorem signs_comment : comment.Signs :=
  signs_of_ite fun _ _ hs => .withPipeless hs

theorem all_sign : ∀ r ∈ all, r.Signs := by
  simp only [all, List.forall_mem_cons, List.not_mem_nil, false_imp_iff, implies_true, and_true]
  exact ⟨signs_yieldWord, signs_doctype, signs_interpolation, signs_expression _ fun _ => rfl,
    signs_when, signs_defaultWord, signs_inherits, signs_block, signs_includes, signs_mixin,
    signs_call, signs_otherwise, signs_expression _ fun _ => rfl,
    signs_expression _ fun _ => rfl, signs_eachWith _, signs_eachWith _,
    signs_expression _ fun _ => rfl, signs_tag, signs_filter, signs_codeBlock, signs_code,
    signs_id, signs_dot, signs_className, signs_attributes, signs_spread, signs_text,
    signs_html, signs_comment, signs_slash, signs_colon⟩

theorem signs_read {width : Nat} {c d : Cursor} {ts : List Token}
    (h : read width c = .ok (ts, d)) : ∀ t ∈ ts, t.SignedFrom c := by
  unfold read at h
  cases hx : first all width c with
  | none =>
    rw [hx] at h
    exact absurd h refuse_ne_ok
  | some x =>
    rw [hx] at h
    obtain ⟨r, hr, hc⟩ := List.exists_of_findSome?_eq_some hx
    exact all_sign r hr width c x hc h

end Rule

namespace Location

/-- Behind some text is another position. -/
theorem afterText_ne {loc : Location} {cs : List Char} (h : cs ≠ []) : loc.afterText cs ≠ loc := by
  have hlater (loc : Location) (cs : List Char) : loc.line < (loc.afterText cs).line ∨
      (loc.afterText cs).line = loc.line ∧ loc.column + cs.length ≤ (loc.afterText cs).column := by
    induction cs generalizing loc with
    | nil => exact .inr ⟨rfl, Nat.le_refl _⟩
    | cons c cs ih =>
      rw [afterText_cons, List.length_cons]
      have hc := ih (loc.after c)
      have hsize := c.utf8Size_pos
      unfold after at hc ⊢
      split at hc
      next hfeed =>
        rw [if_pos hfeed]
        dsimp only at hc
        omega
      next hfeed =>
        rw [if_neg hfeed]
        dsimp only at hc
        omega
  have hlen := List.length_pos_iff.mpr h
  intro heq
  have := hlater loc cs
  rw [heq] at this
  omega

end Location

namespace Cursor

/-- A position tells a place from all others on the way. -/
theorem rest_eq_of_loc_eq {c m n : Cursor} (hm : c.Reaches m) (hn : c.Reaches n)
    (h : m.loc = n.loc) : m.rest = n.rest := by
  have hskip (m : Cursor) (k : Nat) (h : (m.skip k).loc = m.loc) : (m.skip k).rest = m.rest := by
    have htake : m.rest.take k = [] :=
      Decidable.byContradiction fun hne => Location.afterText_ne hne h
    rw [rest_skip]
    conv_rhs => rw [← List.take_append_drop k m.rest, htake, List.nil_append]
  obtain ⟨i, rfl⟩ := hm
  obtain ⟨j, rfl⟩ := hn
  rcases Nat.le_total i j with hij | hij
  · obtain ⟨k, rfl⟩ := Nat.exists_eq_add_of_le hij
    rw [← skip_skip] at h ⊢
    exact (hskip _ k h.symm).symm
  · obtain ⟨k, rfl⟩ := Nat.exists_eq_add_of_le hij
    rw [← skip_skip] at h ⊢
    exact hskip _ k h

end Cursor

namespace Layout

variable {l m : Layout} {c d : Cursor} {ts : List Token}

theorem endsLine_of_mem_finish {loc : Location} : ∀ t ∈ l.finish loc, t.kind.endsLine := by
  intro t ht
  rcases List.mem_append.mp ht with ht | ht
  · obtain ⟨_, -, rfl⟩ := List.mem_map.mp ht
    rfl
  · exact List.mem_singleton.mp ht ▸ rfl

/-- All tokens at the end of a line say so. -/
theorem endsLine_of_mem_newline (h : newline l c = .ok (ts, m, d)) :
    ∀ t ∈ ts, t.kind.endsLine := by
  intro t ht
  obtain ⟨rfl, -, -⟩ | ⟨mark, width, loc, hs⟩ := newline_cases h
  · exact nomatch ht
  obtain ⟨-, rfl, -⟩ | ⟨-, rfl, -⟩ | ⟨-, -, -, closed, rfl, -⟩ := settle_cases hs
  · exact List.mem_singleton.mp ht ▸ rfl
  · exact List.mem_singleton.mp ht ▸ rfl
  · obtain ⟨_, -, rfl⟩ := List.mem_map.mp ht
    rfl

/-- A token was read at some place on the way, if it does not say that a line ended. -/
theorem signed_tokens (h : l.tokens c = .ok ts) :
    ∀ t ∈ ts, t.kind.endsLine ∨ ∃ m, c.Reaches m ∧ t.SignedFrom m := by
  fun_induction Layout.tokens l c generalizing ts with
  | case1 l c hc =>
    cases h
    exact fun t ht => .inl (endsLine_of_mem_finish t ht)
  | case2 => cases h
  | case3 => cases h
  | case4 l c hc first m d hs more hm ih =>
    cases h
    have hd : c.Reaches d := ((reads_step l c).of_ok hs).reaches
    refine List.forall_mem_append.mpr ⟨fun t ht => ?_, fun t ht => ?_⟩
    · unfold step at hs
      split at hs
      · exact .inl (endsLine_of_mem_newline hs t ht)
      · split at hs
        next hr =>
          cases hs
          exact .inr ⟨c, .refl c, Rule.signs_read hr t ht⟩
        next => cases hs
    · obtain hends | ⟨n, hn, hsign⟩ := ih hm t ht
      · exact .inl hends
      · exact .inr ⟨n, hd.trans hn, hsign⟩

/-- Blocks open behind line feeds only. -/
theorem not_indent_of_noFeed (hc : '\n' ∉ c.rest) (h : l.tokens c = .ok ts) (w : Nat) :
    ∀ t ∈ ts, t.kind ≠ .indent w := by
  fun_induction Layout.tokens l c generalizing ts with
  | case1 l c hnil =>
    cases h
    intro t ht
    rcases List.mem_append.mp ht with ht | ht
    · obtain ⟨_, -, rfl⟩ := List.mem_map.mp ht
      rintro ⟨⟩
    · cases List.mem_singleton.mp ht
      rintro ⟨⟩
  | case2 => cases h
  | case3 => cases h
  | case4 l c hne first m d hs more hm ih =>
    cases h
    obtain ⟨n, rfl⟩ : c.Reaches d := ((reads_step l c).of_ok hs).reaches
    have hd : '\n' ∉ (c.skip n).rest := fun hmem => hc (List.mem_of_mem_drop hmem)
    refine List.forall_mem_append.mpr ⟨fun t ht => ?_, ih hd hm⟩
    unfold step at hs
    split at hs
    next hfeed =>
      obtain ⟨rest, hrest⟩ := Cursor.rest_of_startsWith rfl hfeed
      exact absurd (hrest ▸ List.mem_cons_self) hc
    next =>
      split at hs
      next hr =>
        cases hs
        rintro hk
        have hsign := Rule.signs_read hr t ht
        rw [Token.SignedFrom, hk] at hsign
        exact hsign
      next => cases hs

end Layout

end PugTemplate
