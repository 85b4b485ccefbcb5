import PugTemplate.Proofs.Template.Expansion
import PugTemplate.Proofs.Tree.Condition

/-!
# Conditions in a source

The lines of a condition stand at one indentation, each branch with a block below it, or none. Read
as a whole they are one node, which holds the branches in their order; as a block below a less deep
line they are that again, so conditions nest. Main statements: `ConditionText.document`,
`ConditionText.block`.
-/

namespace PugTemplate

/-- Lines that are all deeper than a line, as the block below it: from their tokens, comments left
out, just these nodes are read. Without anything to show they are a block without nodes. -/
def BlockBelow (p : CommentPolicy) (inMixin : Bool) (mark : Char) (width : Nat) (text : List Char)
    (ns : List Node) : Prop :=
  ∃ ts kept, Layout.Deep (width + 1) ⟨[], some mark⟩ ⟨text, .start⟩ ts ∧ p.strip ts = .ok kept ∧
    IsBlock ⟨.nowhere, inMixin, segmentsAt⟩ kept ns

/-- The lines of the branches behind the first one, from the end of the line above them on. -/
inductive ElseText (p : CommentPolicy) (inMixin : Bool) (mark : Char) (width : Nat) :
    List Char → List (Expr × List Node) → Option (List Node) → Prop where
  | nothing : ElseText p inMixin mark width [] [] none
  | elseIf {blanks tail body more : List Char} {test : Expr} {ns : List Node}
      {bs : List (Expr × List Node)} {last : Option (List Node)} (hne : blanks ≠ [])
      (hblanks : ∀ x ∈ blanks, isIndent x) (htest : TestText tail test)
      (hbody : BlockBelow p inMixin mark width body ns)
      (h : ElseText p inMixin mark width more bs last) :
      ElseText p inMixin mark width ('\n' :: (List.replicate width mark ++ ("else".toList ++
        (blanks ++ ("if".toList ++ (tail ++ (body ++ more))))))) ((test, ns) :: bs) last
  | otherwise {blanks body : List Char} {ns : List Node} (hblanks : ∀ x ∈ blanks, isIndent x)
      (hbody : BlockBelow p inMixin mark width body ns) :
      ElseText p inMixin mark width ('\n' :: (List.replicate width mark ++ ("else".toList ++
        (blanks ++ body)))) [] (some ns)

/-- The lines of a condition, from its keyword on. -/
inductive ConditionText (p : CommentPolicy) (inMixin : Bool) (mark : Char) (width : Nat) :
    List Char → Condition → Prop where
  | mk {tail body more : List Char} {test : Expr} {ns : List Node} {bs : List (Expr × List Node)}
      {last : Option (List Node)} (negate : Bool) (htest : TestText tail test)
      (hbody : BlockBelow p inMixin mark width body ns)
      (h : ElseText p inMixin mark width more bs last) :
      ConditionText p inMixin mark width ((openingWord negate).toList ++ (tail ++ (body ++ more)))
        ⟨negate, test, ns, bs, last⟩

namespace CommentPolicy

variable {p : CommentPolicy} {ts kept : List Token}

theorem passes_of_keeps {s : Passage} (h : p.Keeps s ts kept) :
    ∃ dropping, p.Passes s ts kept ⟨dropping, false⟩ := by
  rw [← List.append_nil ts] at h
  obtain ⟨first, ⟨dropping, inBlock⟩, more, hpass, hrest, rfl⟩ := h.split
  have hend := hrest .nowhere
  unfold keep at hend
  cases inBlock with
  | true => cases hend
  | false =>
    cases hend
    rw [List.append_nil]
    exact ⟨dropping, hpass⟩

end CommentPolicy

section Blocks

variable {p : CommentPolicy} {inMixin : Bool} {mark : Char} {width : Nat} {text : List Char}
  {ns : List Node}

/-- The tokens of a block, with those that are kept. -/
theorem BlockBelow.passes (h : BlockBelow p inMixin mark width text ns) :
    ∃ ts kept dropping, Layout.Deep (width + 1) ⟨[], some mark⟩ ⟨text, .start⟩ ts ∧
      p.Passes {} ts kept ⟨dropping, false⟩ ∧ IsBlock ⟨.nowhere, inMixin, segmentsAt⟩ kept ns ∧
      (ts = [] ↔ kept = []) := by
  obtain ⟨ts, kept, hdeep, hstrip, hblock⟩ := h
  have hkeeps := CommentPolicy.keeps_of_keep hstrip
  obtain ⟨dropping, hpass⟩ := CommentPolicy.passes_of_keeps hkeeps
  refine ⟨ts, kept, dropping, hdeep, hpass, hblock, ?_⟩
  obtain rfl | ⟨front, loc, rfl⟩ := hdeep.eq_nil_or_concat (Nat.succ_pos width)
  · cases hpass
    exact iff_of_true rfl rfl
  · -- the end of the block is kept
    have hplain : ∀ t ∈ [(⟨.outdent, loc⟩ : Token)], t.kind.isPlain :=
      List.forall_mem_singleton.mpr rfl
    obtain ⟨first, ⟨_, inBlock⟩, more, -, hrest, rfl⟩ := hkeeps.split
    obtain rfl : inBlock = false := CommentPolicy.inBlock_of_keeps_plain hplain hrest
    obtain ⟨b, s', rest, hstep, -, rfl⟩ := hrest.uncons
    cases (CommentPolicy.step_plain rfl (hplain _ List.mem_cons_self)).symm.trans hstep
    simp

theorem BlockBelow.lineOf_eq (h : BlockBelow p inMixin mark width text ns) : lineOf text = [] := by
  obtain ⟨ts, kept, hdeep, -⟩ := h
  exact hdeep.line_eq (Nat.succ_pos width)

end Blocks

/-! ## The tokens of the lines -/

/-- From a place on, lines are read to the end of the source in blocks that are all as wide as given
or wider; what is kept of their tokens, up to positions, with the new blocks closed. -/
def Finishes (p : CommentPolicy) (mark : Char) (width : Nat) (l : Layout) (d : Cursor)
    (ts : List Token) : Prop :=
  ∃ us m f inner, Layout.DeepRun width l d us m f ∧ m.widths = inner ++ l.widths ∧
    (m.mark = none ∨ m.mark = some mark) ∧ allBlank f.rest ∧ f.line = [] ∧
    ∃ kept dropping, p.Passes {} (us ++ Layout.outdents inner f.loc) kept ⟨dropping, false⟩ ∧
      SameKinds ts kept

section Lines

variable {p : CommentPolicy} {inMixin : Bool} {mark : Char} {width : Nat} {l m : Layout}
  {d e : Cursor} {ts us kept first : List Token} {text body : List Char} {ns : List Node}
  {bs : List (Expr × List Node)} {last : Option (List Node)}

/-- Tokens behind which no comment goes on are read first. -/
theorem Finishes.front (h : Finishes p mark width m e ts)
    (hrun : Layout.DeepRun width l d us m e) (hw : m.widths = l.widths)
    (hpass : p.Passes {} first kept {}) (hk : SameKinds first us) :
    Finishes p mark width l d (kept ++ ts) := by
  obtain ⟨vs, n, f, inner, hrest, hn, hmark, hblank, hline, rest, dropping, hmore, hkinds⟩ := h
  obtain ⟨kept', hpass', hkept⟩ := hpass.alike hk
  refine ⟨us ++ vs, n, f, inner, hrun.trans hrest, hw ▸ hn, hmark, hblank, hline, kept' ++ rest,
    dropping, ?_, hkept.append hkinds⟩
  rw [List.append_assoc]
  exact hpass'.append hmore

/-- A block at the end of the source. -/
theorem BlockBelow.finishes (h : BlockBelow p inMixin mark width body ns) (hw : l.width = width)
    (hmark : l.mark = none ∨ l.mark = some mark) (hd : d.rest = body) :
    ∃ kept, IsBlock ⟨.nowhere, inMixin, segmentsAt⟩ kept ns ∧ Finishes p mark width l d kept := by
  obtain ⟨ts, kept, dropping, hdeep, hpass, hblock, -⟩ := h.passes
  obtain ⟨us, m, f, inner, hrun, hm, hmark', hblank, hline, hkinds⟩ := hdeep.last hw hmark hd
  obtain ⟨kept', hpass', hkept⟩ := hpass.alike hkinds
  exact ⟨kept, hblock, us, m, f, inner, hrun.mono (Nat.le_succ width), hm, hmark', hblank, hline,
    kept', dropping, hpass', hkept⟩

theorem isPlain_lineBehind (ts : List Token) : ∀ t ∈ Layout.lineBehind ts, t.kind.isPlain := by
  unfold Layout.lineBehind
  split
  · exact List.forall_mem_singleton.mpr rfl
  · exact List.forall_mem_nil _

/-- A block, and the line of a branch behind it. -/
theorem BlockBelow.front {kind : TokenKind} {shown behind : List Char}
    (h : BlockBelow p inMixin mark width body ns) (hw : l.width = width)
    (hmark : l.mark = none ∨ l.mark = some mark) (hindent : isIndent mark)
    (hs : shown.head?.any fun x => !isBlank x)
    (hd : d.rest = body ++ '\n' :: (List.replicate width mark ++ shown)) (hkind : kind.isPlain)
    (hread : ∀ f : Cursor, f.rest = shown →
      ∃ e, Rule.read width f = .ok ([⟨kind, f.loc⟩], e) ∧ e.rest = behind) :
    ∃ kept m e, IsBlock ⟨.nowhere, inMixin, segmentsAt⟩ kept ns ∧ m.width = width ∧
      (m.mark = none ∨ m.mark = some mark) ∧ e.rest = behind ∧ ∀ ts,
        Finishes p mark width m e ts → Finishes p mark width l d
          (kept ++ (Layout.lineBehind kept ++ ⟨kind, .nowhere⟩ :: ts)) := by
  obtain ⟨ts, kept, dropping, hdeep, hpass, hblock, hnil⟩ := h.passes
  obtain ⟨us, m, f, hrun, hm, hmark', hf, hkinds⟩ := hdeep.between hw hmark hindent hs hd
  obtain ⟨e, he, hrest⟩ := hread f hf
  have hm' : m.width = width := by rw [Layout.width, hm, ← Layout.width, hw]
  refine ⟨kept, m, e, hblock, hm', hmark', hrest, fun more hmore => ?_⟩
  have hstep : m.step f = .ok ([⟨kind, f.loc⟩], m, e) := by
    obtain ⟨x, xs, rfl⟩ : ∃ x xs, shown = x :: xs := by
      cases shown with
      | nil => cases hs
      | cons x xs => exact ⟨x, xs, rfl⟩
    refine Layout.step_of_read hf ?_ (hm'.symm ▸ he)
    rintro rfl
    cases hs
  have hne : f.rest ≠ [] := by
    rw [hf]
    rintro rfl
    cases hs
  have hfront : Layout.DeepRun width l d (us ++ [⟨kind, f.loc⟩]) m e :=
    hrun.trans (.one hne hstep (Nat.le_of_eq hm'.symm))
  have hline : Layout.lineBehind kept = Layout.lineBehind ts := by
    simp only [Layout.lineBehind, hnil]
  have hplain : ∀ t ∈ Layout.lineBehind ts ++ [⟨kind, .nowhere⟩], t.kind.isPlain :=
    List.forall_mem_append.mpr ⟨isPlain_lineBehind ts, List.forall_mem_singleton.mpr hkind⟩
  have hpass' := hpass.append (CommentPolicy.passes_plain (by simp) hplain)
  have hall := hmore.front hfront hm hpass' (by
    rw [← List.append_assoc]
    exact hkinds.append (.cons rfl (.refl [])))
  rw [hline]
  simpa using hall

theorem ElseText.lineOf_append (h : ElseText p inMixin mark width text bs last)
    (hbody : BlockBelow p inMixin mark width body ns) : lineOf (body ++ text) = [] := by
  have htext : lineOf text = lineOf [] := by cases h <;> rfl
  rw [Cursor.lineOf_append_congr body htext, List.append_nil]
  exact hbody.lineOf_eq

/-- From a block on, the branches behind it are read to the end. -/
theorem ElseText.finishes (h : ElseText p inMixin mark width text bs last)
    (hbody : BlockBelow p inMixin mark width body ns) (hindent : isIndent mark)
    (hw : l.width = width) (hmark : l.mark = none ∨ l.mark = some mark)
    (hd : d.rest = body ++ text) :
    ∃ kept ts, IsBlock ⟨.nowhere, inMixin, segmentsAt⟩ kept ns ∧
      ElseTokens ⟨.nowhere, inMixin, segmentsAt⟩ ts bs last ∧
      Finishes p mark width l d (kept ++ (joint kept ts ++ ts)) := by
  induction h generalizing body ns l d with
  | nothing =>
    obtain ⟨kept, hblock, hfinish⟩ := hbody.finishes hw hmark (hd.trans (List.append_nil _))
    exact ⟨kept, [], hblock, .nothing, by simpa [joint] using hfinish⟩
  | @elseIf blanks tail own more test _ _ _ hne hblanks htest hown hmore ih =>
    obtain ⟨kept, m, e, hblock, hm, hmark', he, hfront⟩ := hbody.front hw hmark hindent rfl hd rfl
      fun f hf => Rule.read_elseIf hne hblanks hf htest (hmore.lineOf_append hown)
    obtain ⟨kept', ts, hblock', helse, hfinish⟩ := ih hown hm hmark' he
    refine ⟨kept, _, hblock, .elseIf .nowhere ?_ hblock' helse, hfront _ hfinish⟩
    rw [String.toList_ofList]
    exact htest.valid
  | otherwise hblanks hown =>
    obtain ⟨kept, m, e, hblock, hm, hmark', he, hfront⟩ := hbody.front hw hmark hindent rfl hd rfl
      fun f hf => Rule.read_otherwise hblanks hf hown.lineOf_eq
    obtain ⟨kept', hblock', hfinish⟩ := hown.finishes hm hmark' he
    exact ⟨kept, _, hblock, .otherwise .nowhere hblock', hfront _ hfinish⟩

/-- From its first line on, a condition is read to the end. -/
theorem ConditionText.finishes {cond : Condition} (h : ConditionText p inMixin mark width text cond)
    (hindent : isIndent mark) (hw : l.width = width) (hmark : l.mark = none ∨ l.mark = some mark)
    (hd : d.rest = text) :
    ∃ ts, ConditionTokens ⟨.nowhere, inMixin, segmentsAt⟩ ts cond ∧
      Finishes p mark width l d ts := by
  obtain ⟨negate, htest, hbody, hmore⟩ := h
  rename_i tail body more test ns bs last
  have hword : ∃ x xs, (openingWord negate).toList = x :: xs ∧ x ≠ '\n' := by
    cases negate
    · exact ⟨_, _, rfl, by decide⟩
    · exact ⟨_, _, rfl, by decide⟩
  obtain ⟨x, xs, hx, hfeed⟩ := hword
  obtain ⟨e, hread, he⟩ := Rule.read_opening l.width negate hd htest
    (hmore.lineOf_append hbody)
  obtain ⟨kept, ts, hblock, helse, hfinish⟩ := hmore.finishes hbody hindent hw hmark he
  have hrest : d.rest = x :: (xs ++ (tail ++ (body ++ more))) := by
    rw [hd, hx]
    rfl
  have hrun := Layout.DeepRun.one (by simp [hrest]) (Layout.step_of_read hrest hfeed hread)
    (Nat.le_of_eq hw.symm)
  have hplain : ∀ t ∈ [(⟨opening negate (String.ofList (trim tail)), .nowhere⟩ : Token)],
      t.kind.isPlain := by
    refine List.forall_mem_singleton.mpr ?_
    cases negate <;> rfl
  have hall := hfinish.front hrun rfl (CommentPolicy.passes_plain (by simp) hplain)
    (.cons rfl (.refl []))
  refine ⟨_, .mk .nowhere ?_ hblock helse, hall⟩
  rw [String.toList_ofList]
  exact htest.valid

end Lines

/-! ## A condition alone -/

section Alone

variable {p : CommentPolicy} {inMixin : Bool} {mark : Char} {width outer : Nat}
  {text gap : List Char} {cond : Condition} {options : Options} {source : String}

theorem eq_singleton_of_unplacedAll {ns : List Node} {n : Node}
    (h : unplacedAll ns = unplacedAll [n]) : ∃ m, ns = [m] ∧ m.unplaced = n.unplaced := by
  match ns, h with
  | [m], h => exact ⟨m, rfl, (List.cons.inj h).1⟩
  | [], h => cases h
  | _ :: _ :: _, h => cases (List.cons.inj h).2

/-- A source that shows a condition is one node, with the branches of the condition. The lines of a
source stand at the margin: what indents the first one does not count. -/
theorem ConditionText.document (h : ConditionText options.comments false mark 0 text cond)
    (hindent : isIndent mark)
    (hsource : (Layout.skipLeading ⟨normalize source.toList, .start⟩).rest = text) :
    ∃ n c, parseSource options source = .ok [n] ∧ Condition.ofNode? n = some c ∧
      c.unplaced = cond.unplaced := by
  obtain ⟨ts, htokens, hfinish⟩ := h.finishes hindent (l := .empty) rfl (.inl rfl) hsource
  obtain ⟨us, m, f, inner, hrun, hm, -, hblank, hline, kept, dropping, hpass, hkinds⟩ := hfinish
  obtain ⟨g, hg, hend⟩ := Layout.tokens_of_allBlank (l := m) hblank hline
  have hlex : lex source = .ok (us ++ m.finish g.loc) := by
    rw [Layout.lex_eq, hrun.run.tokens, hg, Layout.tokens, if_pos hend]
    rfl
  have hlast : SameKinds (us ++ Layout.outdents inner f.loc ++ [⟨.eos, .nowhere⟩])
      (us ++ m.finish g.loc) := by
    rw [Layout.finish, hm, List.append_assoc, Layout.empty, List.append_nil]
    exact (SameKinds.refl us).append
      ((Layout.sameKinds_outdents inner _ _).append (.cons rfl (.refl [])))
  have hplain : ∀ t ∈ [(⟨.eos, .nowhere⟩ : Token)], t.kind.isPlain :=
    List.forall_mem_singleton.mpr rfl
  obtain ⟨kept', hpass', hkept⟩ :=
    (hpass.append (CommentPolicy.passes_plain (by simp) hplain)).alike hlast
  obtain ⟨n, hread, hn⟩ := htokens.document .nowhere
  have htree : treeOf options source = some (unplacedAll [n]) := by
    rw [treeOf_eq, hlex]
    show keptTree options.comments (us ++ m.finish g.loc) = _
    rw [keptTree, hpass'.strip_eq]
    show streamTree kept' = _
    rw [streamTree_congr (Eq.trans hkept ((hkinds.append (.refl _)))), streamTree, hread]
    rfl
  obtain ⟨ns, hns, hsame⟩ := Option.map_eq_some_iff.mp htree
  obtain ⟨n', rfl, hn'⟩ := eq_singleton_of_unplacedAll hsame
  obtain ⟨c, hc, hcond⟩ := Condition.ofNode?_congr hn' hn
  exact ⟨n', c, eq_ok_of_toOption hns, hc, hcond⟩

/-- A condition below a line that is less deep is a block of one node. -/
theorem ConditionText.block (h : ConditionText p inMixin mark width text cond)
    (hindent : isIndent mark) (hlt : outer < width) (hgap : BlankLines gap) :
    ∃ n c,
      BlockBelow p inMixin mark outer ('\n' :: (gap ++ (List.replicate width mark ++ text))) [n] ∧
      Condition.ofNode? n = some c ∧ c.unplaced = cond.unplaced := by
  have hall : ∀ x ∈ List.replicate width mark, x = mark := fun x hx => List.eq_of_mem_replicate hx
  have hshown : Shown (List.replicate width mark) text := by
    refine ⟨fun x hx => hall x hx ▸ hindent, ?_⟩
    obtain ⟨negate, -, -, -⟩ := h
    cases negate <;> rfl
  -- the line end opens the block that the condition stands in
  have hsettle : Layout.settle { (⟨[], some mark⟩ : Layout) with
      mark := (some mark).or (List.replicate width mark).head? }
      (List.replicate width mark).length .nowhere =
        .ok ([⟨.indent width, .nowhere⟩], ⟨[width], some mark⟩) := by
    rw [List.length_replicate]
    exact Layout.settle_of_gt (Nat.lt_of_le_of_lt (Nat.zero_le outer) hlt)
  obtain ⟨vs, d, hnew, hopen, hd⟩ := Layout.newline_of_settle (l := ⟨[], some mark⟩)
    (c := ⟨'\n' :: (gap ++ (List.replicate width mark ++ text)), .start⟩) hgap hshown rfl
    (fun x hx => congrArg some (hall x hx)) hsettle
  obtain ⟨ts, htokens, hfinish⟩ :=
    h.finishes hindent (l := ⟨[width], some mark⟩) rfl (.inr rfl) hd
  obtain ⟨us, m, f, inner, hrun, hm, -, hblank, hline, kept, dropping, hpass, hkinds⟩ := hfinish
  have hdeep : Layout.Deep (outer + 1) ⟨[], some mark⟩
      ⟨'\n' :: (gap ++ (List.replicate width mark ++ text)), .start⟩
      (vs ++ us ++ Layout.outdents m.widths f.loc) :=
    ⟨vs ++ us, m, f, .step (List.cons_ne_nil _ _) ((Layout.step_of_feed rfl).trans hnew) hlt
      (hrun.mono hlt), hblank, hline, rfl⟩
  have hlast : SameKinds ([⟨.indent width, .nowhere⟩] ++
      (us ++ Layout.outdents inner f.loc ++ [⟨.outdent, .nowhere⟩]))
      (vs ++ us ++ Layout.outdents m.widths f.loc) := by
    rw [hm, Layout.outdents_append, List.append_assoc, List.append_assoc]
    exact hopen.append
      ((SameKinds.refl us).append ((SameKinds.refl _).append (.cons rfl (.refl []))))
  have hplain {kind : TokenKind} (hkind : kind.isPlain) :
      ∀ t ∈ [(⟨kind, .nowhere⟩ : Token)], t.kind.isPlain := List.forall_mem_singleton.mpr hkind
  obtain ⟨kept', hpass', hkept⟩ :=
    ((CommentPolicy.passes_plain (by simp) (hplain rfl)).append
      (hpass.append (CommentPolicy.passes_plain (by simp) (hplain rfl)))).alike hlast
  obtain ⟨n, hread, hn⟩ := htokens.block width .nowhere .nowhere
  obtain ⟨ms, hms, hsame⟩ := hread.congr (Eq.trans hkept
    ((SameKinds.refl [⟨.indent width, .nowhere⟩]).append (hkinds.append (.refl _))))
  obtain ⟨n', rfl, hn'⟩ := eq_singleton_of_unplacedAll hsame
  obtain ⟨c, hc, hcond⟩ := Condition.ofNode?_congr hn' hn
  exact ⟨n', c, ⟨_, kept', hdeep, hpass'.strip_eq, hms⟩, hc, hcond⟩

end Alone

end PugTemplate
