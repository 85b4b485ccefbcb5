import PugTemplate.Lex.Read
import PugTemplate.Proofs.Lex.Block
import PugTemplate.Proofs.Lex.Trail

/-!
# Where tokens stand

Every rule reads tokens on the way from where it applies to where it stops, or fails on that way. So
the tokens of a source stand in it one behind the other, and a failure stands in it too.
-/

namespace PugTemplate

open Cursor (Reaches Ahead Trail Reads ReadsOn reads_checkMarkers)

/-! ## Blocks of text -/

namespace Pipeless

/-- Each text stands behind the indentation of its line, and each line end in front of it. -/
theorem reads_lineTokens {check first : Bool} {base : Nat} {c : Cursor} {lines : List (List Char)}
    (h : Below base c lines) :
    c.Reads (fun ts => Trail c ts (c.skip (extent lines))) (lineTokens check base first c lines) := by
  induction lines generalizing c first with
  | nil => exact .arrive (c.reaches_skip _)
  | cons line lines ih =>
    have hend : ((c.skip 1).skip line.length).skip (extent lines) = c.skip (extent (line :: lines)) := by
      rw [Cursor.skip_skip, Cursor.skip_skip]
      congr 1
      simp only [extent, List.foldr_cons]
      omega
    have hat : (c.skip 1).Reaches (shownAt base c line) := Cursor.reaches_skip _ _
    have hon : (shownAt base c line).Reaches ((c.skip 1).skip line.length) := by
      refine ⟨line.length - if allBlank line then 0 else base, ?_⟩
      rw [shownAt, Cursor.skip_skip _ (if allBlank line then 0 else base),
        Nat.add_sub_cancel' h.shown_le_length]
    have hmarkers := Reads.of_reaches ((c.reaches_skip 1).trans hat)
      (reads_checkMarkers h.shownText_isPrefix (h.feed_notMem_shownText List.mem_cons_self))
    have hlines : ((c.skip 1).skip line.length).Reads _
        (lineTokens check base false ((c.skip 1).skip line.length) lines) := ih h.next
    rw [hend] at hlines
    have htokens : c.Reads (fun ts => Trail c ts (c.skip (extent (line :: lines)))) (do
        let more ← lineTokens check base false ((c.skip 1).skip line.length) lines
        let tokens :=
          ⟨.text (String.ofList (shownText base line)), (shownAt base c line).loc⟩ :: more
        return if first then tokens else ⟨.newline, (c.skip 1).loc⟩ :: tokens) := by
      refine (Reads.of_reaches (((c.reaches_skip 1).trans hat).trans hon) hlines).bind
        fun more hmore => ?_
      have hthere : Trail (shownAt base c line)
          (⟨.text (String.ofList (shownText base line)), _⟩ :: more) _ :=
        .cons ⟨_, by simp [TokenKind.leads], h.shownText_isPrefix⟩ (by rintro ⟨⟩) (hon.trail hmore)
      cases first with
      | true => exact (c.reaches_skip 1).trail (hat.trail hthere)
      | false => exact .newline (c.reaches_skip 1) (c.line_lt_skip h.front) (hat.trail hthere)
    rw [lineTokens_cons]
    dsimp only
    split
    · exact hmarkers.bind fun _ _ => htokens
    · exact htokens

/-- A block of text, or the place itself if there is none. -/
theorem readsOn_read (check : Bool) (width : Nat) (c : Cursor) :
    c.ReadsOn (read check width c) := by
  unfold read
  dsimp only
  split
  next => exact .arrive (.refl c)
  next =>
    refine (reads_lineTokens (below_read width c)).bind fun ts hts => ?_
    have hend : Trail _ (ts ++ [⟨.pipelessEnd, _⟩]) _ :=
      hts.append (.cons_mute rfl (.arrive (.refl _)))
    exact hend.cons_mute rfl

end Pipeless

/-! ## Attribute lists -/

namespace Attribute

theorem plainName_isPrefix (cs : List Char) : plainName cs <+: cs := by
  fun_induction plainName cs with
  | case1 => exact List.nil_prefix
  | case2 => exact List.nil_prefix
  | case3 c cs _ ih => exact (List.prefix_cons_inj c).mpr ih

theorem quoted_isPrefix {q : Char} {cs : List Char}
    (h : (cs.takeWhile (· ≠ q)).length < cs.length) : cs.takeWhile (· ≠ q) ++ [q] <+: cs := by
  induction cs with
  | nil => simp at h
  | cons c cs ih =>
    by_cases hc : c = q
    · simp [hc]
    · simp only [List.takeWhile_cons, ne_eq, hc, not_false_eq_true, decide_true, if_true,
        List.length_cons, Nat.add_lt_add_iff_right] at h ⊢
      exact (List.prefix_cons_inj c).mpr (ih h)

/-- A name stands where it was read, in its quotes if it has some. -/
theorem begins_of_readName {loc : Location} {cs name : List Char} {n : Nat} (value : Option String)
    (escape : Bool) (h : readName loc cs = .ok (name, n)) :
    (TokenKind.attr (String.ofList name) value escape).Begins cs := by
  unfold readName at h
  split at h
  · cases h
    exact ⟨[], by simp [TokenKind.leads], List.nil_prefix⟩
  next q cs =>
    split at h
    next hq =>
      dsimp only at h
      split at h
      next hlen =>
        cases h
        refine ⟨_, ?_, (List.prefix_cons_inj q).mpr (quoted_isPrefix hlen)⟩
        rcases hq with rfl | rfl <;> simp [TokenKind.leads]
      next => cases h
    next =>
      cases h
      exact ⟨_, by simp [TokenKind.leads], plainName_isPrefix _⟩

theorem before_of_continueWith {x : Except Nesting.Failure (List Char)} {a : Char} {cs : List Char}
    {f : Nesting.Failure} (hx : ∀ {g}, x = .error g → g.before <+: cs)
    (h : valueText.continueWith a x = .error f) : f.before <+: a :: cs := by
  cases x with
  | ok text => exact nomatch h
  | error g =>
    cases h
    exact (List.prefix_cons_inj a).mpr (hx rfl)

/-- A failure inside a value stands behind the part of it that was read. -/
theorem valueText_before {open_ : List Enclosure} {last : Option Char} {cs : List Char}
    {f : Nesting.Failure} (h : valueText open_ last cs = .error f) : f.before <+: cs := by
  fun_induction valueText open_ last cs generalizing f
  case case1 | case2 | case4 => exact nomatch h
  case case3 ih | case6 ih => exact before_of_continueWith (fun hg => ih hg) h
  case case5 =>
    cases h
    exact List.nil_prefix

theorem loc_of_readName {loc : Location} {cs : List Char} {e : LexError}
    (h : readName loc cs = .error e) : e.loc = loc := by
  unfold readName at h
  grind

/-- An attribute, and those behind it. -/
theorem reads_token_cons {c here next : Cursor} {name : List Char} {n : Nat}
    (value : Option (List Char)) (escape : Bool) (hhere : c.Reaches here)
    (hname : readName here.loc here.rest = .ok (name, n)) (hnext : here.Reaches next)
    (hmore : next.Reads (fun ts => Trail next ts next.last) (readList next)) :
    c.Reads (fun ts => Trail c ts c.last)
      (do
        let more ← readList next
        return token here.loc name value escape :: more) := by
  refine (Reads.of_reaches (hhere.trans hnext) hmore).bind fun more htrail => ?_
  rw [hnext.last_eq, hhere.last_eq] at htrail
  exact hhere.trail (.cons (begins_of_readName _ escape hname) nofun (hnext.trail htrail))

theorem reads_readList (c : Cursor) : c.Reads (fun ts => Trail c ts c.last) (readList c) := by
  have hskip (c : Cursor) (p : Char → Bool) : c.Reaches (c.skip (c.rest.takeWhile p).length) :=
    c.reaches_skip _
  fun_induction readList c
  case case1 c here hnil => exact .arrive c.reaches_last
  case case2 c here _ e he =>
    show c.Ahead e.loc
    exact loc_of_readName he ▸ (hskip c isSeparator).ahead
  case case3 c here _ _ _ | case6 c here _ _ _ _ _ _ _ _ _ _ _ _ _ _ _ =>
    exact (hskip c isSeparator).ahead
  case case4 c here _ name n hname hne behind hmark ih =>
    exact reads_token_cons _ _ (hskip _ _) hname (here.reaches_skip n) ih
  case case5 c here _ name n hname hne behind escape m hmark _ valueStart f hf =>
    have hstart := (((hskip c isSeparator).skip n).skip m).trans (hskip _ isBlank)
    exact hstart.ahead_of (Cursor.ahead_nestingError (valueText_before hf))
  case case7 c here _ name n hname hne behind escape m hmark _ valueStart text hv value hval ih =>
    have hstart := ((here.reaches_skip n).skip m).trans (hskip _ isBlank)
    exact reads_token_cons _ _ (hskip _ _) hname (hstart.skip text.length) ih

end Attribute

/-! ## What the rules read -/

namespace Rule

theorem readsOn_refuse {c : Cursor} {loc : Location} (cause : LexCause) (h : c.Ahead loc) :
    c.ReadsOn (refuse cause loc) :=
  h

theorem readsOn_emit {c next : Cursor} {kind : TokenKind} (hk : kind.Begins c.rest)
    (hn : kind ≠ .newline) (h : c.Reaches next) : c.ReadsOn (emit kind c.loc next) :=
  .cons hk hn (.arrive h)

theorem readsOn_emit_mute {c next : Cursor} {kind : TokenKind} (hk : kind.isMute)
    (h : c.Reaches next) : c.ReadsOn (emit kind c.loc next) :=
  .cons_mute hk (.arrive h)

theorem readsOn_restAsText {kind : String → TokenKind} (c : Cursor)
    (hk : ∀ s, (kind s).leads = [s.toList]) (hn : ∀ s, kind s ≠ .newline) :
    c.ReadsOn (restAsText kind c) := by
  have hline : c.line <+: c.rest := lineOf_isPrefix c.rest
  have hmarkers := reads_checkMarkers hline (feed_notMem_lineOf c.rest)
  unfold restAsText
  split
  next => exact readsOn_emit ⟨c.line, by simp [hk], hline⟩ (hn _) (Reaches.refl c).skipLine
  next e he => exact hmarkers.of_error he

theorem readsOn_withPipeless {c d : Cursor} {kind : TokenKind} (check : Bool) (width : Nat)
    (hk : kind.Begins c.rest) (hn : kind ≠ .newline) (h : c.Reaches d) :
    c.ReadsOn (withPipeless check width ⟨kind, c.loc⟩ d) := by
  have hblock := ReadsOn.of_reaches h (Pipeless.readsOn_read check width d)
  unfold withPipeless
  split
  next tokens e he => exact .cons hk hn (hblock.of_ok he)
  next e he => exact hblock.of_error he

theorem readsOn_attributeList (c : Cursor) : c.ReadsOn (attributeList c) := by
  unfold attributeList
  split
  next e he => exact (c.reaches_skip 1).ahead_of (Cursor.ahead_of_inside he)
  next content d hd =>
    obtain ⟨more, hmore, hclose⟩ := Cursor.extend_of_inside hd
    have hlist := Attribute.reads_readList ⟨content, (c.skip 1).loc⟩
    split
    next e he =>
      exact (c.reaches_skip 1).ahead_of (hmore ▸ (hlist.of_error he).extend more)
    next tokens ht =>
      have htrail : Trail (c.skip 1) tokens d :=
        (hmore ▸ Trail.extend (hlist.of_ok ht) more).later hclose
      have hend : Trail d [⟨.attributesEnd, d.loc⟩] d := .cons_mute rfl (.arrive (.refl d))
      exact .cons_mute rfl ((c.reaches_skip 1).trail (htrail.append hend))

theorem readsOn_filterBody {c d : Cursor} {first : List Token} (width : Nat) (h : Trail c first d) :
    c.ReadsOn (filterBody width first d) := by
  unfold filterBody
  split
  next =>
    have hblock := ReadsOn.of_reaches (Reaches.refl d).skipLine
      (Pipeless.readsOn_read false width d.skipLine)
    split
    next more e he => exact h.append (hblock.of_ok he)
    next e he => exact h.reaches.ahead_of (hblock.of_error he)
  next => exact h

theorem readsOn_path {c d : Cursor} {kind : TokenKind} (missing : LexCause)
    (hk : kind.isMute) (h : c.Reaches d) : c.ReadsOn (path ⟨kind, c.loc⟩ missing d) := by
  unfold path
  dsimp only
  split
  next => exact readsOn_refuse missing h.skipIndent.ahead
  next =>
    have hpath : Trail d.skipIndent [⟨.path (lineText d.skipIndent), _⟩] d.skipIndent.skipLine :=
      .cons_mute rfl (.arrive (Reaches.refl _).skipLine)
    exact .cons_mute hk (h.skipIndent.trail hpath)

theorem readsOn_namedBlock {c d : Cursor} (mode : BlockMode) (h : c.Reaches d) :
    c.ReadsOn (namedBlock c.loc mode d) :=
  readsOn_emit_mute rfl h.skipLine

/-- Whatever the rule reads stands where it applies or behind. -/
def Follows (r : Rule) : Prop :=
  ∀ width c reading, r width c = some reading → c.ReadsOn reading

theorem follows_of_keyword {word : String} {f : Nat → Cursor → Cursor → Reading}
    (h : ∀ (width : Nat) (c d : Cursor), c.Reaches d → c.ReadsOn (f width c d)) :
    Follows fun width c => (c.keyword? word).map (f width c) := by
  intro width c reading hr
  obtain ⟨d, hd, rfl⟩ := Option.map_eq_some_iff.mp hr
  exact h width c d (Cursor.reaches_keyword? hd)

theorem follows_of_ite {test : Nat → Cursor → Bool} {f : Nat → Cursor → Reading}
    (h : ∀ width c, test width c → c.ReadsOn (f width c)) :
    Follows fun width c => if test width c then some (f width c) else none := by
  intro width c reading hr
  dsimp only at hr
  split at hr
  next ht => exact Option.some.inj hr ▸ h width c ht
  · exact nomatch hr

/-! ### Rules that begin with a keyword -/

theorem follows_yieldWord : yieldWord.Follows :=
  follows_of_keyword fun _ _ _ hd => readsOn_emit_mute rfl hd

theorem follows_defaultWord : defaultWord.Follows :=
  follows_of_keyword fun _ _ _ hd => readsOn_emit_mute rfl hd

theorem follows_doctype : doctype.Follows :=
  follows_of_keyword fun _ _ _ hd => readsOn_emit_mute rfl hd.skipLine

theorem follows_expression (keyword : ExprKeyword) {kind : String → TokenKind}
    (hk : ∀ s, (kind s).isMute) : (expression keyword kind).Follows := by
  refine follows_of_keyword fun width c d hd => ?_
  split
  · exact readsOn_refuse _ (Reaches.refl c).ahead
  · exact readsOn_emit_mute (hk _) hd.skipLine

/-- A failure inside the expression of a `when` stands behind the part of it that was read. -/
theorem whenText_before {open_ : List Enclosure} {before : Char} {cs : List Char}
    {f : Nesting.Failure} (h : whenText open_ before cs = .error f) : f.before <+: cs := by
  fun_induction whenText open_ before cs generalizing f
  case case1 | case2 | case4 => exact nomatch h
  case case3 =>
    cases h
    exact List.nil_prefix
  case case5 c _ _ _ _ _ hg ih =>
    cases h
    exact (List.prefix_cons_inj c).mpr (ih hg)

theorem follows_when : when.Follows := by
  refine follows_of_keyword fun width c d hd => ?_
  dsimp only
  split
  next f hf =>
    have hbefore := (whenText_before hf).trans (lineOf_isPrefix _)
    exact hd.skipIndent.ahead_of (Cursor.ahead_nestingError hbefore)
  next text _ =>
    split
    · exact readsOn_refuse _ (Reaches.refl c).ahead
    · exact readsOn_emit_mute rfl (hd.skipIndent.skip text.length)

theorem follows_otherwise : otherwise.Follows := by
  refine follows_of_keyword fun width c d hd => ?_
  dsimp only
  split
  next e he =>
    have hcond := hd.skipIndent.trans (Cursor.reaches_keyword? he)
    split
    · exact readsOn_refuse _ (Reaches.refl c).ahead
    · exact readsOn_emit_mute rfl hcond.skipLine
  next =>
    split
    · exact readsOn_emit_mute rfl hd.skipIndent
    · exact readsOn_emit_mute rfl hd.skipIndent.skipLine

theorem mute_of_eachKind {keyword : ExprKeyword} {body : List Char} {kind : TokenKind}
    (h : eachKind keyword body = .ok kind) : kind.isMute := by
  unfold eachKind at h
  grind [TokenKind.isMute]

theorem follows_eachWith (keyword : ExprKeyword) : (eachWith keyword).Follows := by
  refine follows_of_keyword fun width c d hd => ?_
  split
  · exact readsOn_refuse _ (Reaches.refl c).ahead
  · split
    next kind hk => exact readsOn_emit_mute (mute_of_eachKind hk) hd.skipLine
    next => exact readsOn_refuse _ (Reaches.refl c).ahead

theorem follows_inherits : inherits.Follows := by
  intro width c reading h
  obtain ⟨d, hd, rfl⟩ := Option.map_eq_some_iff.mp h
  rcases Option.or_eq_some_iff.mp hd with hd | ⟨-, hd⟩
  · exact readsOn_path _ rfl (Cursor.reaches_keyword? hd)
  · exact readsOn_path _ rfl (Cursor.reaches_keyword? hd)

theorem follows_includes : includes.Follows := by
  refine follows_of_keyword fun width c d hd => ?_
  split
  · exact readsOn_path _ rfl (hd.skip _)
  · exact readsOn_path _ rfl hd

theorem reaches_blockMode? {c d : Cursor} {mode : BlockMode} (h : blockMode? c = some (mode, d)) :
    c.Reaches d := by
  unfold blockMode? at h
  split at h
  next e _ he =>
    split at h
    · exact nomatch h
    · cases h
      exact Cursor.reaches_keyword? he
  next e _ he =>
    split at h
    · exact nomatch h
    · cases h
      exact Cursor.reaches_keyword? he
  next => exact nomatch h

theorem follows_block : block.Follows := by
  intro width c reading h
  unfold block at h
  split at h
  next mode d hm =>
    cases h
    exact readsOn_namedBlock mode (reaches_blockMode? hm)
  next =>
    obtain ⟨d, hd, rfl⟩ := Option.map_eq_some_iff.mp h
    have hreach := Cursor.reaches_keyword? hd
    split
    · exact readsOn_emit_mute rfl hreach.skipLine
    · split
      next mode e he =>
        exact readsOn_namedBlock mode (hreach.skipIndent.trans (reaches_blockMode? he))
      next => exact readsOn_namedBlock _ hreach.skipIndent

/-- A token whose source is the text in brackets. -/
theorem readsOn_inside {c d : Cursor} {kind : List Char → TokenKind} (b : Bracket) (h : c.Reaches d)
    (hk : ∀ content, (kind content).isMute) :
    c.ReadsOn (match d.inside b with
      | .error e => .error e
      | .ok (content, e) => emit (kind content) c.loc e) := by
  split
  next e he => exact h.ahead_of (Cursor.ahead_of_inside he)
  next content e he => exact readsOn_emit_mute (hk content) (h.trans (Cursor.reaches_inside he))

theorem follows_mixin : mixin.Follows := by
  refine follows_of_keyword fun width c d hd => ?_
  dsimp only
  split
  · exact readsOn_refuse _ (Reaches.refl c).ahead
  · have hname := (hd.skipIndent.skip d.skipIndent.word.length).skipIndent
    split
    · exact readsOn_inside .round (hname.skip 1) fun _ => rfl
    · exact readsOn_emit_mute rfl hname

theorem follows_spread : spread.Follows := by
  refine follows_of_keyword fun width c d hd => ?_
  split
  · exact readsOn_inside .round (hd.skip 1) fun _ => rfl
  · exact readsOn_refuse _ hd.ahead

/-! ### Rules that begin with a mark -/

theorem follows_interpolation : interpolation.Follows := by
  intro width c reading h
  unfold interpolation at h
  split at h
  · split at h
    next e he => exact Option.some.inj h ▸ (c.reaches_skip 2).ahead_of (Cursor.ahead_of_inside he)
    next content d hd =>
      exact Option.some.inj h ▸ readsOn_emit_mute rfl ((c.reaches_skip 2).trans (Cursor.reaches_inside hd))
  · exact nomatch h

theorem tagName_isPrefix (cs : List Char) : tagName cs <+: cs := by
  refine List.IsPrefix.trans ?_ (List.takeWhile_prefix isTagChar)
  rw [tagName, ← List.reverse_suffix, List.reverse_reverse]
  exact List.dropWhile_suffix _

theorem follows_tag : tag.Follows :=
  follows_of_ite fun _ c _ =>
    readsOn_emit ⟨tagName c.rest, by simp [TokenKind.leads], tagName_isPrefix _⟩ nofun
      (c.reaches_skip _)

theorem word_isPrefix (c : Cursor) : c.word <+: c.rest :=
  List.takeWhile_prefix _

/-- A name stands behind its mark. -/
theorem marked_isPrefix {c : Cursor} {mark : String} {a : Char} (hmark : mark.toList = [a])
    (h : c.startsWith mark) : a :: (c.skip 1).word <+: c.rest := by
  obtain ⟨cs, hcs⟩ := Cursor.rest_of_startsWith hmark h
  have hword := word_isPrefix (c.skip 1)
  rw [Cursor.rest_skip, hcs] at hword
  rw [hcs]
  exact (List.prefix_cons_inj a).mpr hword

theorem follows_id : id.Follows := by
  intro width c reading h
  unfold id at h
  split at h
  · exact Option.some.inj h ▸ readsOn_restAsText c (fun _ => rfl) nofun
  · split at h
    next hs =>
      dsimp only at h
      split at h
      · have hid : (TokenKind.id (String.ofList (c.skip 1).word)).Begins c.rest :=
          ⟨'#' :: (c.skip 1).word, by simp [TokenKind.leads], marked_isPrefix rfl hs⟩
        exact Option.some.inj h ▸ readsOn_emit hid nofun (c.reaches_skip _)
      · exact Option.some.inj h ▸ readsOn_refuse _ (Reaches.refl c).ahead
    · exact nomatch h

theorem follows_className : className.Follows := by
  intro width c reading h
  unfold className at h
  split at h
  next hs =>
    dsimp only at h
    split at h
    · have hclass : (TokenKind.className (String.ofList (c.skip 1).word)).Begins c.rest :=
        ⟨'.' :: (c.skip 1).word, by simp [TokenKind.leads], marked_isPrefix rfl hs⟩
      exact Option.some.inj h ▸ readsOn_emit hclass nofun (c.reaches_skip _)
    · exact Option.some.inj h ▸ readsOn_refuse _ (Reaches.refl c).ahead
  · exact nomatch h

theorem follows_attributes : attributes.Follows :=
  follows_of_ite fun _ c _ => readsOn_attributeList c

theorem follows_dot : dot.Follows :=
  follows_of_ite fun width c _ =>
    readsOn_withPipeless true width (TokenKind.begins_of_isMute rfl _) nofun (Reaches.refl c).skipLine

theorem follows_slash : slash.Follows :=
  follows_of_ite fun _ c _ => readsOn_emit_mute rfl (c.reaches_skip 1)

theorem follows_colon : colon.Follows :=
  follows_of_ite fun _ c _ => readsOn_emit_mute rfl (c.reaches_skip 1).skipIndent

theorem reads_callName {c d : Cursor} (h : c.Reaches d) :
    c.Reads (fun r => c.Reaches r.2.2) (callName c.loc d) := by
  unfold callName
  split
  · split
    next content e he => exact (h.skip 2).trans (Cursor.reaches_inside he)
    next e he => exact (h.skip 2).ahead_of (Cursor.ahead_of_inside he)
  · split
    · exact (Reaches.refl c).ahead
    · exact h.skip _

theorem follows_call : call.Follows := by
  intro width c reading h
  have hname := reads_callName (c.reaches_skip 1).skipIndent
  unfold call at h
  split at h
  · split at h
    next e he => exact Option.some.inj h ▸ hname.of_error he
    next name computed d hd =>
      have hreach : c.Reaches d := hname.of_ok hd
      dsimp only at h
      split at h
      · split at h
        next e he => exact Option.some.inj h ▸ (hreach.skip 1).ahead_of (Cursor.ahead_of_inside he)
        next content e he =>
          split at h
          · exact Option.some.inj h ▸ readsOn_emit_mute rfl hreach
          · exact Option.some.inj h ▸
              readsOn_emit_mute rfl ((hreach.skip 1).trans (Cursor.reaches_inside he))
      · exact Option.some.inj h ▸ readsOn_emit_mute rfl hreach
  · exact nomatch h

theorem follows_filter : filter.Follows := by
  intro width c reading h
  have hname : c.Reaches (c.skip (1 + (c.skip 1).word.length)) := c.reaches_skip _
  unfold filter at h
  dsimp only at h
  split at h
  · split at h
    · have hlist := readsOn_attributeList (c.skip (1 + (c.skip 1).word.length))
      split at h
      next e he => exact Option.some.inj h ▸ hname.ahead_of (hlist.of_error he)
      next tokens e he =>
        exact Option.some.inj h ▸
          readsOn_filterBody width (.cons_mute rfl (hname.trail (hlist.of_ok he)))
    · exact Option.some.inj h ▸ readsOn_filterBody width (.cons_mute rfl (.arrive hname))
  · exact nomatch h

theorem follows_codeBlock : codeBlock.Follows :=
  follows_of_ite fun width c _ =>
    readsOn_withPipeless false width (TokenKind.begins_of_isMute rfl _) nofun (Reaches.refl c).skipLine

theorem readsOn_codeWith (flag : String) (buffered escape : Bool) (c : Cursor) :
    c.ReadsOn (codeWith flag buffered escape c) := by
  unfold codeWith
  dsimp only
  split
  · exact readsOn_refuse _ (Reaches.refl c).ahead
  · exact readsOn_emit_mute rfl (c.reaches_skip _).skipLine

theorem follows_code : code.Follows := by
  intro width c reading h
  unfold code at h
  split at h
  · exact Option.some.inj h ▸ readsOn_codeWith _ _ _ c
  · split at h
    · exact Option.some.inj h ▸ readsOn_codeWith _ _ _ c
    · split at h
      · exact Option.some.inj h ▸ readsOn_codeWith _ _ _ c
      · exact nomatch h

theorem follows_text : text.Follows := by
  intro width c reading h
  unfold text at h
  dsimp only at h
  split at h
  · split at h
    · exact Option.some.inj h ▸
        .of_reaches ((c.reaches_skip 1).skip 1) (readsOn_restAsText _ (fun _ => rfl) nofun)
    · exact Option.some.inj h ▸ .of_reaches (c.reaches_skip 1) (readsOn_restAsText _ (fun _ => rfl) nofun)
  · split at h
    · split at h
      -- blanks at the end of a line leave no token
      · exact Option.some.inj h ▸ .arrive (Reaches.refl c).skipLine
      · exact Option.some.inj h ▸ .of_reaches (c.reaches_skip 1) (readsOn_restAsText _ (fun _ => rfl) nofun)
    · exact nomatch h

theorem follows_html : html.Follows :=
  follows_of_ite fun _ c _ => readsOn_restAsText c (fun _ => rfl) nofun

theorem follows_comment : comment.Follows := by
  refine follows_of_ite fun width c hs => ?_
  have hslashes : ['/', '/'] <+: c.rest := List.isPrefixOf_iff_prefix.mp hs
  refine readsOn_withPipeless false width ⟨_, by simp [TokenKind.leads], hslashes⟩ nofun
    (Reaches.skipLine ?_)
  split
  · exact c.reaches_skip 2
  · exact (c.reaches_skip 2).skip 1

/-! ### All rules -/

theorem all_follow : ∀ r ∈ all, r.Follows := by
  simp only [all, List.forall_mem_cons, List.not_mem_nil, false_imp_iff, implies_true, and_true]
  exact ⟨follows_yieldWord, follows_doctype, follows_interpolation, follows_expression _ fun _ => rfl,
    follows_when, follows_defaultWord, follows_inherits, follows_block, follows_includes,
    follows_mixin, follows_call, follows_otherwise, follows_expression _ fun _ => rfl,
    follows_expression _ fun _ => rfl, follows_eachWith _, follows_eachWith _,
    follows_expression _ fun _ => rfl, follows_tag, follows_filter, follows_codeBlock, follows_code,
    follows_id, follows_dot, follows_className, follows_attributes, follows_spread, follows_text,
    follows_html, follows_comment, follows_slash, follows_colon⟩

theorem readsOn_read (width : Nat) (c : Cursor) : c.ReadsOn (read width c) := by
  unfold read
  cases hf : first all width c with
  | none => exact readsOn_refuse _ (Reaches.refl c).ahead
  | some reading =>
    obtain ⟨r, hr, hc⟩ := List.exists_of_findSome?_eq_some hf
    exact all_follow r hr width c reading hc

end Rule

/-! ## Lines and their indentation -/

namespace Layout

/-- The next line is behind the line feed here. -/
theorem reaches_nextLine (c : Cursor) : (c.skip 1).Reaches (nextLine c) := by
  fun_induction nextLine c with
  | case1 c => exact (Reaches.refl _).skipLine
  | case2 c _ _ ih => exact ((Reaches.refl _).skipLine.skip 1).trans ih
  | case3 c => exact .refl _

theorem reaches_skipLeading (c : Cursor) : c.Reaches (skipLeading c) := by
  fun_induction skipLeading c with
  | case1 c _ ih => exact ((Reaches.refl c).skipLine.skip 1).trans ih
  | case2 c => exact (Reaches.refl c).skipIndent

theorem trail_outdents (closed : List Nat) {c d : Cursor} {ts : List Token} (h : Trail c ts d) :
    Trail c (outdents closed c.loc ++ ts) d := by
  induction closed with
  | nil => exact h
  | cons w closed ih => exact .cons_mute rfl ih

theorem trail_finish (l : Layout) (c : Cursor) : Trail c (l.finish c.loc) c :=
  trail_outdents l.widths (.cons_mute rfl (.arrive (.refl c)))

/-- What stands in front of a line that is further down. -/
theorem reads_settle (l : Layout) (width : Nat) {c d : Cursor} (h : c.Reaches d)
    (hl : c.loc.line < d.loc.line) : c.Reads (fun r => Trail c r.1 d) (l.settle width d.loc) := by
  have hthere : Trail d [] d := .arrive (.refl d)
  unfold settle
  split
  · exact h.trail (.cons_mute rfl hthere)
  · split
    · exact .newline h hl hthere
    · dsimp only
      split
      · have hclosed := trail_outdents (l.widths.takeWhile fun w => width < w) hthere
        rw [List.append_nil] at hclosed
        exact h.trail hclosed
      · exact h.ahead

theorem reads_newline (l : Layout) {c : Cursor} (hc : c.rest.head? = some '\n') :
    c.Reads (fun r => Trail c r.1 r.2.2) (newline l c) := by
  have hnext := reaches_nextLine c
  unfold newline
  dsimp only
  split
  · exact .arrive ((c.reaches_skip 1).trans hnext)
  · have hindent := ((c.reaches_skip 1).trans hnext).skipIndent
    have hbelow : c.loc.line < (nextLine c).skipIndent.loc.line :=
      Nat.lt_of_lt_of_le (c.line_lt_skip hc) hnext.skipIndent.line_le
    split
    · exact ((c.reaches_skip 1).trans hnext).ahead
    · split
      next hs => exact (reads_settle _ _ hindent hbelow).of_ok hs
      next hs => exact (reads_settle _ _ hindent hbelow).of_error hs

theorem reads_step (l : Layout) (c : Cursor) : c.Reads (fun r => Trail c r.1 r.2.2) (step l c) := by
  unfold step
  split
  next hs =>
    obtain ⟨cs, hcs⟩ := Cursor.rest_of_startsWith rfl hs
    exact reads_newline l (by rw [hcs]; rfl)
  · split
    next hr => exact (Rule.readsOn_read l.width c).of_ok hr
    next hr => exact (Rule.readsOn_read l.width c).of_error hr

theorem reads_tokens (l : Layout) (c : Cursor) :
    c.Reads (fun ts => Trail c ts c.last) (tokens l c) := by
  fun_induction tokens l c with
  | case1 l c hc => exact (trail_finish l c).later c.reaches_last
  | case2 l c hc e he => exact (reads_step l c).of_error he
  | case3 l c hc first m d hs e he ih =>
    exact ((reads_step l c).of_ok hs).reaches.ahead_of (ih.of_error he)
  | case4 l c hc first m d hs more hm ih =>
    have hfirst : Trail c first d := (reads_step l c).of_ok hs
    have hmore := ih.of_ok hm
    rw [hfirst.reaches.last_eq] at hmore
    exact hfirst.append hmore

end Layout

/-! ## Whole texts -/

theorem reads_lexAt (text : String) (loc : Location) :
    (⟨text.toList, loc⟩ : Cursor).Reads
      (fun ts => Trail ⟨text.toList, loc⟩ ts (Cursor.last ⟨text.toList, loc⟩)) (lexAt text loc) := by
  have hstart := Layout.reaches_skipLeading ⟨text.toList, loc⟩
  rw [lexAt, ← hstart.last_eq]
  exact .of_reaches hstart ((Layout.reads_tokens _ _).mono fun _ ht => hstart.trail ht)

theorem reads_lex (source : String) :
    (⟨normalize source.toList, .start⟩ : Cursor).Reads
      (fun ts => Trail ⟨normalize source.toList, .start⟩ ts
        (Cursor.last ⟨normalize source.toList, .start⟩)) (lex source) := by
  have h := reads_lexAt (normalizeText source) .start
  rwa [normalizeText, String.toList_ofList] at h

/-- Where the tokens of a source stand, or where it fails to be read. -/
theorem lex_stands (source : String) :
    match lex source with
    | .ok tokens => ∃ offsets : List Nat, offsets.Pairwise (· ≤ ·) ∧
        List.Forall₂ (Token.StandsAt (normalize source.toList)) tokens offsets
    | .error e => ∃ before, before <+: normalize source.toList ∧ e.loc = Location.behind before := by
  have hstart := Cursor.standsBehind_start (normalize source.toList)
  split
  next tokens ht =>
    obtain ⟨offsets, hsorted, hstand⟩ := ((reads_lex source).of_ok ht).offsets hstart
    exact ⟨offsets, (List.pairwise_cons.mp hsorted).2, hstand⟩
  next e he =>
    obtain ⟨d, hd, hloc⟩ := (reads_lex source).of_error he
    obtain ⟨more, htext, hthere⟩ := hstart.reaches hd
    exact ⟨more, ⟨_, htext.symm⟩, hloc.trans hthere⟩

end PugTemplate
