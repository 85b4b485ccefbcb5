import PugTemplate.Proofs.Lex.Insert
import PugTemplate.Proofs.Lex.Shape
import PugTemplate.Proofs.Lex.Sign

/-!
# A stream without its comments

The passage over a stream, which carries two flags from token to token, is a plain filter: a comment
that is to be left out goes with the block of text behind it, if there is one, and nothing else goes.
This rests on what can stand behind a comment: a block of text, or a token that ends the line.
Main statement: `strip_exact`.
-/

namespace PugTemplate

/-! ## What stands behind a comment -/

namespace TokenKind

def isComment : TokenKind → Bool
  | comment _ _ => true
  | _ => false

theorem not_isComment_of_isPlain {k : TokenKind} (h : k.isPlain) : ¬ k.isComment := by
  cases k <;> simp_all [isComment, isPlain]

theorem not_isComment_of_isOfBlock {k : TokenKind} (h : k.isOfBlock) : ¬ k.isComment := by
  cases k <;> simp_all [isComment, isOfBlock]

/-- A token that may stand behind a comment. -/
def endsComment (k : TokenKind) : Bool :=
  k == pipelessStart || k.endsLine

end TokenKind

/-- Behind each comment there is its block of text, or its line ends. -/
def CommentsEnd : List Token → Prop
  | [] => True
  | t :: ts => (t.kind.isComment → ts.head?.any (·.kind.endsComment)) ∧ CommentsEnd ts

theorem CommentsEnd.append {first ts : List Token} (h : CommentsEnd ts)
    (hf : ∀ t ∈ first, ¬ t.kind.isComment) : CommentsEnd (first ++ ts) := by
  induction first with
  | nil => exact h
  | cons t first ih =>
    obtain ⟨ht, hf⟩ := List.forall_mem_cons.mp hf
    exact ⟨fun hc => absurd hc ht, ih hf⟩

theorem CommentsEnd.of_append {first ts : List Token} (h : CommentsEnd (first ++ ts)) :
    CommentsEnd ts := by
  induction first with
  | nil => exact h
  | cons t first ih => exact ih h.2

theorem EndsLine.endsComment {ts : List Token} (h : EndsLine ts) :
    ts.head?.any (·.kind.endsComment) := by
  cases ts with
  | nil => exact h
  | cons t ts => exact Bool.or_eq_true_iff.mpr (.inr h)

namespace Rule

/-- A comment is read with its line and the block of text below. -/
theorem read_comment_cases {width : Nat} {c d : Cursor} {ts : List Token}
    (hc : c.startsWith "//") (h : read width c = .ok (ts, d)) :
    ∃ t more, ts = t :: more ∧ t.kind.isComment ∧ (∀ u ∈ more, ¬ u.kind.isComment) ∧
      ((more = [] ∧ d.line = []) ∨ more.head?.any (·.kind.endsComment)) := by
  obtain ⟨rest, hrest⟩ := Cursor.rest_of_startsWith rfl hc
  rw [read_eq_of_before 28 rfl (before_of_head hrest (by decide)) (if_pos hc)] at h
  unfold withPipeless at h
  split at h
  next more e hp =>
    cases h
    have hblock := Pipeless.isOfBlock_of_read hp
    refine ⟨_, more, rfl, rfl, fun u hu => TokenKind.not_isComment_of_isOfBlock (hblock u hu), ?_⟩
    obtain ⟨rfl, rfl⟩ | ⟨lines, loc, at_, rfl, -⟩ := Pipeless.read_cases hp
    · exact .inl ⟨rfl, lineOf_drop _⟩
    · exact .inr rfl
  next => exact nomatch h

theorem commentsEnd_read {width : Nat} {c d : Cursor} {ts more : List Token}
    (h : read width c = .ok (ts, d)) (hends : d.line = [] → EndsLine more)
    (hmore : CommentsEnd more) : CommentsEnd (ts ++ more) := by
  by_cases hnone : ∀ t ∈ ts, ¬ t.kind.isComment
  · exact hmore.append hnone
  -- only where two slashes stand is a comment read
  obtain ⟨t, ht, hcomment⟩ : ∃ t ∈ ts, t.kind.isComment := by
    simpa using hnone
  have hc : c.startsWith "//" := by
    have hsign := signs_read h t ht
    obtain ⟨kind, loc⟩ := t
    cases kind with
    | comment text buffered => exact hsign
    | _ => exact nomatch hcomment
  obtain ⟨u, block, rfl, -, hblock, hbehind⟩ := read_comment_cases hc h
  refine ⟨fun _ => ?_, hmore.append hblock⟩
  obtain ⟨rfl, hd⟩ | hhead := hbehind
  · exact (hends hd).endsComment
  · cases block with
    | nil => exact nomatch hhead
    | cons b block => exact hhead

end Rule

namespace Layout

theorem commentsEnd_finish (l : Layout) (loc : Location) : CommentsEnd (l.finish loc) := by
  have hnone t ht := TokenKind.not_isComment_of_isPlain (isPlain_finish l loc t ht)
  have hnil : CommentsEnd [] := trivial
  simpa using hnil.append hnone

theorem commentsEnd_step {l m : Layout} {c d : Cursor} {ts more : List Token}
    (h : step l c = .ok (ts, m, d)) (hends : d.line = [] → EndsLine more)
    (hmore : CommentsEnd more) : CommentsEnd (ts ++ more) := by
  unfold step at h
  split at h
  next =>
    obtain ⟨rfl, -, -⟩ | ⟨mark, width, loc, hs⟩ := newline_cases h
    · exact hmore
    · exact hmore.append fun t ht => TokenKind.not_isComment_of_isPlain (isPlain_settle hs t ht)
  next =>
    split at h
    next hr =>
      cases h
      exact Rule.commentsEnd_read hr hends hmore
    next => exact nomatch h

theorem commentsEnd_tokens {l : Layout} {c : Cursor} {ts : List Token}
    (h : l.tokens c = .ok ts) : CommentsEnd ts := by
  fun_induction Layout.tokens l c generalizing ts with
  | case1 l c hc =>
    cases h
    exact commentsEnd_finish l c.loc
  | case2 => cases h
  | case3 => cases h
  | case4 l c hc first m d hs more hm ih =>
    cases h
    exact commentsEnd_step hs (fun hd => endsLine_tokens hd hm) (ih hm)

end Layout

theorem commentsEnd_lex {source : String} {tokens : List Token} (h : lex source = .ok tokens) :
    CommentsEnd tokens :=
  Layout.commentsEnd_tokens h

/-! ## The filter -/

/-- What stands behind the block of text that begins here, if one does. -/
def behindBlock : List Token → List Token
  | ⟨.pipelessStart, _⟩ :: ts => (ts.dropWhile (·.kind != .pipelessEnd)).tail
  | ts => ts

theorem behindBlock_suffix (ts : List Token) : behindBlock ts <:+ ts := by
  unfold behindBlock
  split
  next at_ ts =>
    have hdrop : ts.dropWhile (·.kind != .pipelessEnd) <:+ ts := List.dropWhile_suffix _
    exact ((List.tail_suffix _).trans hdrop).trans (List.suffix_cons _ _)
  next => exact List.suffix_rfl

namespace CommentPolicy

/-- Whether a token is a comment that is to be left out. -/
def dropsToken (p : CommentPolicy) (t : Token) : Bool :=
  match t.kind with
  | .comment _ buffered => p.drops buffered
  | _ => false

/-- The tokens without the comments that are to be left out and the blocks of text behind them. -/
def without (p : CommentPolicy) : List Token → List Token
  | [] => []
  | t :: ts => if p.dropsToken t then without p (behindBlock ts) else t :: without p ts
termination_by ts => ts.length
decreasing_by
  · exact Nat.lt_succ_of_le (behindBlock_suffix ts).length_le
  · exact Nat.lt_succ_self _

/-- Leaves out what one of two policies leaves out. -/
def union (p q : CommentPolicy) : CommentPolicy :=
  ⟨p.dropUnbuffered || q.dropUnbuffered, p.dropBuffered || q.dropBuffered⟩

variable {p q : CommentPolicy} {t : Token} {ws : List Nat} {ts : List Token}

theorem without_nil : p.without [] = [] := by
  rw [without]

theorem without_of_drops (h : p.dropsToken t) : p.without (t :: ts) = p.without (behindBlock ts) := by
  rw [without, if_pos h]

theorem without_of_keeps (h : ¬ p.dropsToken t) : p.without (t :: ts) = t :: p.without ts := by
  rw [without, if_neg h]

theorem not_dropsToken (h : ¬ t.kind.isComment) : ¬ p.dropsToken t := by
  obtain ⟨kind, loc⟩ := t
  cases kind <;> simp_all [dropsToken, TokenKind.isComment]

theorem without_append {first : List Token} (hf : ∀ t ∈ first, ¬ t.kind.isComment) :
    p.without (first ++ ts) = first ++ p.without ts := by
  induction first with
  | nil => rfl
  | cons t first ih =>
    obtain ⟨ht, hf⟩ := List.forall_mem_cons.mp hf
    rw [List.cons_append, without_of_keeps (not_dropsToken ht), ih hf, List.cons_append]

theorem dropsToken_union : (p.union q).dropsToken t = (p.dropsToken t || q.dropsToken t) := by
  obtain ⟨kind, loc⟩ := t
  cases kind with
  | comment text buffered => cases buffered <;> rfl
  | _ => rfl

theorem union_self : p.union p = p := by
  simp [union]

/-! ## The passage over a stream -/

theorem isComment_of_not_isPlain (ht : t.kind.isWord) (hp : ¬ t.kind.isPlain) :
    t.kind.isComment := by
  obtain ⟨kind, loc⟩ := t
  cases kind <;> simp_all [TokenKind.isPlain, TokenKind.isWord, TokenKind.isComment]

theorem step_of_drops (h : p.dropsToken t) (s : Passage) :
    p.step s t = .ok (false, { s with dropping := true }) := by
  obtain ⟨kind, loc⟩ := t
  cases kind with
  | comment text buffered => exact if_pos h
  | _ => exact nomatch h

theorem step_of_keeps (ht : t.kind.isComment) (h : ¬ p.dropsToken t) (s : Passage) :
    p.step s t = .ok (true, s) := by
  obtain ⟨kind, loc⟩ := t
  cases kind with
  | comment text buffered => exact if_neg h
  | _ => exact nomatch ht

theorem behindBlock_textBlock {lines : List Token} (hl : TextLines lines) (loc at_ : Location) :
    behindBlock (⟨.pipelessStart, loc⟩ :: (lines ++ ⟨.pipelessEnd, at_⟩ :: ts)) = ts := by
  have hlines : ∀ t ∈ lines, t.kind != .pipelessEnd := by
    intro t ht
    refine bne_iff_ne.mpr fun hk => ?_
    have hplain := hl.plain t ht
    rw [hk] at hplain
    exact nomatch hplain
  rw [behindBlock, List.dropWhile_append_of_pos hlines]
  rfl

/-- No stream begins with a block of text. -/
theorem head_ne_pipelessStart (h : TokenStream ws ts) :
    ∀ t ∈ ts.head?, t.kind ≠ .pipelessStart := by
  rintro t ht hk
  cases h <;> obtain rfl := Option.some.inj ht <;>
    simp_all [TokenKind.isSilent, TokenKind.isWord, TokenKind.printed?, TokenKind.opensBlock,
      TokenKind.isReference]

theorem behindBlock_stream (h : TokenStream ws ts) : behindBlock ts = ts := by
  unfold behindBlock
  split
  next => exact absurd rfl (head_ne_pipelessStart h _ rfl)
  next => rfl

theorem endsLine_of_endsComment (h : TokenStream ws ts) (he : ts.head?.any (·.kind.endsComment)) :
    EndsLine ts := by
  cases ts with
  | nil => exact nomatch he
  | cons t ts =>
    have ht := head_ne_pipelessStart h t rfl
    simp_all [EndsLine, TokenKind.endsComment]

/-- A token that the passage need not look at stays, and ends the comment before it. -/
theorem Keeps.cons_without {dropping : Bool} (ht : t.kind.isPlain)
    (h : p.Keeps {} ts (p.without ts)) : p.Keeps ⟨dropping, false⟩ (t :: ts) (p.without (t :: ts)) := by
  rw [without_of_keeps (not_dropsToken (TokenKind.not_isComment_of_isPlain ht))]
  exact h.cons_plain ht

theorem without_block {lines : List Token} (hl : ∀ t ∈ lines, t.kind.isPlain) (loc at_ : Location) :
    p.without (⟨.pipelessStart, loc⟩ :: (lines ++ ⟨.pipelessEnd, at_⟩ :: ts)) =
      ⟨.pipelessStart, loc⟩ :: (lines ++ ⟨.pipelessEnd, at_⟩ :: p.without ts) := by
  have hlines t ht := TokenKind.not_isComment_of_isPlain (hl t ht)
  have hstart : ¬ p.dropsToken ⟨.pipelessStart, loc⟩ := Bool.false_ne_true
  have hend : ¬ p.dropsToken ⟨.pipelessEnd, at_⟩ := Bool.false_ne_true
  rw [without_of_keeps hstart, without_append hlines, without_of_keeps hend]

theorem without_attributes {as : List Token} (ha : ∀ a ∈ as, a.kind.isAttribute)
    (loc at_ : Location) :
    p.without (⟨.attributesStart, loc⟩ :: (as ++ ⟨.attributesEnd, at_⟩ :: ts)) =
      ⟨.attributesStart, loc⟩ :: (as ++ ⟨.attributesEnd, at_⟩ :: p.without ts) := by
  have has a hm := TokenKind.not_isComment_of_isPlain (TokenKind.isPlain_of_isAttribute (ha a hm))
  have hstart : ¬ p.dropsToken ⟨.attributesStart, loc⟩ := Bool.false_ne_true
  have hend : ¬ p.dropsToken ⟨.attributesEnd, at_⟩ := Bool.false_ne_true
  rw [without_of_keeps hstart, without_append has, without_of_keeps hend]

/-- No comment was left out right in front of another one. -/
theorem eq_false_of_not_isPlain {dropping : Bool} (hp : ¬ t.kind.isPlain)
    (hd : dropping → EndsLine (t :: ts)) : dropping = false := by
  cases dropping with
  | false => rfl
  | true => exact absurd (isPlain_of_endsLine (hd rfl)) hp

/-- The passage keeps what the filter does. Behind a comment that was left out, this needs that the
line has ended, for the passage would take the next block of text for that of the comment. -/
theorem keeps_without (p : CommentPolicy) (h : TokenStream ws ts) (hc : CommentsEnd ts)
    (dropping : Bool) (hd : dropping → EndsLine ts) : p.Keeps ⟨dropping, false⟩ ts (p.without ts) := by
  induction h generalizing dropping with
  | eos loc =>
    refine Keeps.cons_without rfl ?_
    rw [without_nil]
    exact fun _ => rfl
  | @word ws t ts ht h ih =>
    by_cases hp : t.kind.isPlain
    · exact (ih hc.2 false nofun).cons_without hp
    have hcomment := isComment_of_not_isPlain (TokenKind.isWord_of_isSilent ht) hp
    by_cases hdrop : p.dropsToken t
    · have hends := endsLine_of_endsComment h (hc.1 hcomment)
      rw [without_of_drops hdrop, behindBlock_stream h]
      exact (ih hc.2 true fun _ => hends).cons (step_of_drops hdrop _)
    · obtain rfl := eq_false_of_not_isPlain hp hd
      rw [without_of_keeps hdrop]
      exact (ih hc.2 false nofun).cons (step_of_keeps hcomment hdrop _)
  | print hs hp hne he h ih => exact (ih hc.2 false nofun).cons_without (isPlain_of_printed? hs)
  | indent hw h ih => exact (ih hc.2 false nofun).cons_without rfl
  | outdent h ih => exact (ih hc.2 false nofun).cons_without rfl
  | attributes ha h ih =>
    rw [without_attributes ha]
    exact (ih hc.2.of_append.2 false nofun).attributes ha
  | @textBlock ws t lines ts loc at_ ht hl hf h ih =>
    have hblock (behind : Bool) := (ih hc.2.2.of_append.2 false nofun).textBlock behind loc at_ hl
    have hkept := hblock false
    rw [if_neg Bool.false_ne_true, ← without_block hl.plain] at hkept
    by_cases hp : t.kind.isPlain
    · exact hkept.cons_without hp
    have hword := TokenKind.isWord_of_isSilent (TokenKind.isSilent_of_opensBlock ht)
    by_cases hdrop : p.dropsToken t
    · rw [without_of_drops hdrop, behindBlock_textBlock hl]
      exact (hblock true).cons (step_of_drops hdrop _)
    · obtain rfl := eq_false_of_not_isPlain hp hd
      rw [without_of_keeps hdrop]
      exact hkept.cons (step_of_keeps (isComment_of_not_isPlain hword hp) hdrop _)
  | filterBlock ha hl h ih =>
    refine Keeps.cons_without rfl ?_
    rw [without_attributes ha, without_block hl.plain]
    exact ((ih hc.2.2.of_append.2.2.of_append.2 false nofun).textBlock false _ _ hl).attributes ha
  | reference ht h ih =>
    exact Keeps.cons_without (TokenKind.isPlain_of_isReference ht)
      ((ih hc.2.2 false nofun).cons_without rfl)

theorem stream_without (p : CommentPolicy) (h : TokenStream ws ts) (hc : CommentsEnd ts) :
    TokenStream ws (p.without ts) := by
  obtain ⟨kept, hkeeps, hstream, -⟩ := keepsStream p h false
  obtain rfl : p.without ts = kept :=
    Except.ok.inj ((keeps_without p h hc false nofun .nowhere).symm.trans (hkeeps .nowhere))
  exact hstream

theorem strip_eq_without (p : CommentPolicy) (h : TokenStream [] ts) (hc : CommentsEnd ts) :
    p.strip ts = .ok (p.without ts) :=
  keeps_without p h hc false nofun .nowhere

/-! ## One filter after the other -/

theorem not_dropsToken_of_endsComment (h : t.kind.endsComment) : ¬ p.dropsToken t := by
  obtain ⟨kind, loc⟩ := t
  cases kind <;> simp_all [dropsToken, TokenKind.endsComment, TokenKind.endsLine]

theorem commentsEnd_without (p : CommentPolicy) (h : CommentsEnd ts) :
    CommentsEnd (p.without ts) := by
  fun_induction without p ts with
  | case1 => trivial
  | case2 t ts hdrop ih =>
    obtain ⟨block, hts⟩ := behindBlock_suffix ts
    exact ih (CommentsEnd.of_append (hts ▸ h.2))
  | case3 t ts hkeep ih =>
    refine ⟨fun hcomment => ?_, ih h.2⟩
    have hhead := h.1 hcomment
    cases ts with
    | nil => exact nomatch hhead
    | cons u ts =>
      rw [without_of_keeps (not_dropsToken_of_endsComment hhead)]
      exact hhead

/-- What two policies leave out one after the other, their union leaves out at once. -/
theorem without_without (p q : CommentPolicy) (h : TokenStream ws ts) (hc : CommentsEnd ts) :
    q.without (p.without ts) = (p.union q).without ts := by
  have hplain {p q : CommentPolicy} {t : Token} {ts : List Token} (ht : t.kind.isPlain)
      (ih : q.without (p.without ts) = (p.union q).without ts) :
      q.without (p.without (t :: ts)) = (p.union q).without (t :: ts) := by
    have hkeep (r : CommentPolicy) : ¬ r.dropsToken t :=
      not_dropsToken (TokenKind.not_isComment_of_isPlain ht)
    rw [without_of_keeps (hkeep p), without_of_keeps (hkeep q), without_of_keeps (hkeep _), ih]
  induction h with
  | eos loc => exact hplain rfl (by simp only [without_nil])
  | @word ws t ts ht h ih =>
    have ih := ih hc.2
    have hstream := stream_without p h hc.2
    by_cases hpd : p.dropsToken t
    · have hdrop : (p.union q).dropsToken t := by rw [dropsToken_union, hpd, Bool.true_or]
      rw [without_of_drops hpd, without_of_drops hdrop, behindBlock_stream h, ih]
    · rw [without_of_keeps hpd]
      by_cases hqd : q.dropsToken t
      · have hdrop : (p.union q).dropsToken t := by rw [dropsToken_union, hqd, Bool.or_true]
        rw [without_of_drops hqd, without_of_drops hdrop, behindBlock_stream h,
          behindBlock_stream hstream, ih]
      · have hkeep : ¬ (p.union q).dropsToken t := by simp [dropsToken_union, hpd, hqd]
        rw [without_of_keeps hqd, without_of_keeps hkeep, ih]
  | print hs hp hne he h ih => exact hplain (isPlain_of_printed? hs) (ih hc.2)
  | indent hw h ih => exact hplain rfl (ih hc.2)
  | outdent h ih => exact hplain rfl (ih hc.2)
  | attributes ha h ih => simp only [without_attributes ha, ih hc.2.of_append.2]
  | @textBlock ws t lines ts loc at_ ht hl hf h ih =>
    have ih := ih hc.2.2.of_append.2
    by_cases hpd : p.dropsToken t
    · have hdrop : (p.union q).dropsToken t := by rw [dropsToken_union, hpd, Bool.true_or]
      rw [without_of_drops hpd, without_of_drops hdrop, behindBlock_textBlock hl, ih]
    · rw [without_of_keeps hpd, without_block hl.plain]
      by_cases hqd : q.dropsToken t
      · have hdrop : (p.union q).dropsToken t := by rw [dropsToken_union, hqd, Bool.or_true]
        rw [without_of_drops hqd, without_of_drops hdrop, behindBlock_textBlock hl,
          behindBlock_textBlock hl, ih]
      · have hkeep : ¬ (p.union q).dropsToken t := by simp [dropsToken_union, hpd, hqd]
        rw [without_of_keeps hqd, without_of_keeps hkeep, without_block hl.plain,
          without_block hl.plain, ih]
  | filterBlock ha hl h ih =>
    refine hplain rfl ?_
    simp only [without_attributes ha, without_block hl.plain, ih hc.2.2.of_append.2.2.of_append.2]
  | reference ht h ih => exact hplain (TokenKind.isPlain_of_isReference ht) (hplain rfl (ih hc.2.2))

theorem strip_strip (p q : CommentPolicy) (h : TokenStream [] ts) (hc : CommentsEnd ts) :
    (p.strip ts >>= q.strip) = (p.union q).strip ts := by
  have hleft : q.strip (p.without ts) = .ok (q.without (p.without ts)) :=
    strip_eq_without q (stream_without p h hc) (commentsEnd_without p hc)
  rw [strip_eq_without p h hc, strip_eq_without _ h hc, ← without_without p q h hc, ← hleft]
  rfl

end CommentPolicy

/-- Comments can be left out of whatever is read, and what goes is what the filter says: all other
tokens stay as they are. Once is enough, and two policies one after the other leave out what one of
them does; the unbuffered comments and then the buffered ones are all comments. -/
theorem strip_exact {source : String} {tokens : List Token} (h : lex source = .ok tokens)
    (p : CommentPolicy) :
    p.strip tokens = .ok (p.without tokens) ∧
      (p.without tokens).Sublist tokens ∧
      (p.strip tokens >>= p.strip) = p.strip tokens ∧
      (∀ q : CommentPolicy, (p.strip tokens >>= q.strip) = (p.union q).strip tokens) ∧
      (CommentPolicy.strip ⟨true, false⟩ tokens >>= CommentPolicy.strip ⟨false, true⟩) =
        CommentPolicy.strip ⟨true, true⟩ tokens := by
  have hstream := stream_of_lex h
  have hends := commentsEnd_lex h
  have hstrip := p.strip_eq_without hstream hends
  have htwice (q : CommentPolicy) := p.strip_strip q hstream hends
  have honce := htwice p
  rw [CommentPolicy.union_self] at honce
  exact ⟨hstrip, CommentPolicy.strip_sublist hstrip, honce, htwice,
    CommentPolicy.strip_strip ⟨true, false⟩ ⟨false, true⟩ hstream hends⟩

namespace CommentedSource

def source : String := "//- a\n  b\n// c\n  d\np"

/-- Two comments with text below, of which the first is not shown. -/
def tokens : List Token :=
  [⟨.comment " a" false, ⟨1, 1⟩⟩, ⟨.pipelessStart, ⟨1, 6⟩⟩, ⟨.text "b", ⟨2, 3⟩⟩,
    ⟨.pipelessEnd, ⟨2, 4⟩⟩, ⟨.newline, ⟨3, 1⟩⟩, ⟨.comment " c" true, ⟨3, 1⟩⟩,
    ⟨.pipelessStart, ⟨3, 5⟩⟩, ⟨.text "d", ⟨4, 3⟩⟩, ⟨.pipelessEnd, ⟨4, 4⟩⟩, ⟨.newline, ⟨5, 1⟩⟩,
    ⟨.tag "p", ⟨5, 1⟩⟩, ⟨.eos, ⟨5, 2⟩⟩]

theorem lex_source : lex source = .ok tokens :=
  eq_ok_of_toOption (by decide +kernel)

/-- Nothing of either comment stays. -/
def kept : List Token :=
  [⟨.newline, ⟨3, 1⟩⟩, ⟨.newline, ⟨5, 1⟩⟩, ⟨.tag "p", ⟨5, 1⟩⟩, ⟨.eos, ⟨5, 2⟩⟩]

theorem without_tokens : CommentPolicy.without ⟨true, true⟩ tokens = kept := by
  simp [tokens, kept, CommentPolicy.without, CommentPolicy.dropsToken, CommentPolicy.drops,
    behindBlock]

end CommentedSource

theorem strip_exact_noted :
    lex CommentedSource.source = .ok CommentedSource.tokens ∧
      CommentPolicy.strip ⟨true, true⟩ CommentedSource.tokens = .ok CommentedSource.kept ∧
      CommentedSource.kept.Sublist CommentedSource.tokens := by
  have hexact := strip_exact CommentedSource.lex_source ⟨true, true⟩
  rw [CommentedSource.without_tokens] at hexact
  exact ⟨CommentedSource.lex_source, hexact.1, hexact.2.1⟩

end PugTemplate
