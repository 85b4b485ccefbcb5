import PugTemplate.Proofs.Lex.Run
import PugTemplate.Proofs.Tree.Padded
import PugTemplate.Proofs.Tree.Production
import PugTemplate.Tree.Segment

/-!
# Padded streams are read alike

Line ends that were added to a stream change nothing in the tree that is read from it: each reader
answers the same nodes up to positions, and leaves padded rests behind. Main statement:
`answers_document`.
-/

namespace PugTemplate

/-! ## Where a node may begin -/

theorem Firm.other {s : Spot} {k : TokenKind} {ts us : List Token} (h : Firm s k ts us)
    (hs : k.isText → s ≠ .head) : Firm .other k ts us :=
  ⟨fun ht _ => h.text ht (hs ht), h.html⟩

namespace Behind

variable {t : Token} {ts us : List Token}

theorem of_padded {s : Spot} (h : Padded s ts us) (hb : s ≠ .block) (hh : s ≠ .head) :
    Behind ts us :=
  ⟨s, h, hb, fun hs => absurd hs hh⟩

theorem of_other (h : Padded .other ts us) : Behind ts us :=
  .of_padded h nofun nofun

theorem of_line (h : Padded .line ts us) : Behind ts us :=
  .of_padded h nofun nofun

theorem of_closed (h : Padded .closed ts us) : Behind ts us :=
  .of_padded h nofun nofun

theorem of_nil {s : Spot} (h : Padded s [] us) (hb : s ≠ .block) : Behind [] us :=
  ⟨s, h, hb, nofun⟩

/-- Either the streams go on with the same token, or a line end was added here. -/
theorem cases_cons (h : Behind (t :: ts) us) :
    (∃ u vs, us = u :: vs ∧ u.kind = t.kind ∧ Firm .other t.kind ts vs ∧
        Padded t.kind.spot ts vs) ∨
      ∃ u vs, us = u :: vs ∧ u.kind = .newline ∧ t.kind.goesBelow = false ∧
        Behind (t :: ts) vs := by
  obtain ⟨s, h, hb, hs⟩ := h
  cases h with
  | cons hk hf h =>
    refine .inl ⟨_, _, rfl, hk, hf.other fun ht hhead => ?_, Spot.next_of_ne hb _ ▸ h⟩
    exact nomatch (hs hhead _ rfl).symm.trans ht
  | pad _ hu hp h =>
    exact .inr ⟨_, _, rfl, hu, (hp.1 _ rfl).1, .of_line h⟩

/-- What stands below a line does so in both streams. -/
theorem cons_below (h : Behind (t :: ts) us) (ht : t.kind.goesBelow) :
    ∃ u vs, us = u :: vs ∧ u.kind = t.kind ∧ Padded t.kind.spot ts vs := by
  obtain ⟨u, vs, rfl, hk, -, h⟩ | ⟨_, _, -, -, hno, -⟩ := h.cases_cons
  · exact ⟨u, vs, rfl, hk, h⟩
  · exact nomatch hno.symm.trans ht

theorem of_ne {u : Token} (h : Behind ts (u :: us)) (hu : u.kind ≠ .newline) :
    ∃ t more, ts = t :: more ∧ u.kind = t.kind ∧ Padded t.kind.spot more us := by
  obtain ⟨s, h, hb, -⟩ := h
  obtain ⟨t, more, rfl, hk, -, h⟩ := h.of_ne hu
  exact ⟨t, more, rfl, hk, Spot.next_of_ne hb _ ▸ h⟩

/-- What the first token is not, that of the other stream is not, line ends aside. -/
theorem head_eq_false {form : TokenKind → Bool} (h : Behind ts us) (hform : form .newline = false)
    (hts : ∀ t ∈ ts.head?, form t.kind = false) : ∀ u ∈ us.head?, form u.kind = false := by
  intro u hu
  obtain ⟨vs, rfl⟩ := List.head?_eq_some_iff.mp hu
  by_cases hfeed : u.kind = .newline
  · rwa [hfeed]
  · obtain ⟨t, more, rfl, hk, -⟩ := h.of_ne hfeed
    rw [hk]
    exact hts t rfl

theorem drop_pred {u : Token} {k n : Nat} (h : Behind ((t :: ts).drop k) ((u :: us).drop n))
    (hk : 0 < k) (hn : 0 < n) : Behind (ts.drop (k - 1)) (us.drop (n - 1)) := by
  obtain ⟨k, rfl⟩ := Nat.exists_eq_succ_of_ne_zero (Nat.ne_of_gt hk)
  obtain ⟨n, rfl⟩ := Nat.exists_eq_succ_of_ne_zero (Nat.ne_of_gt hn)
  exact h

end Behind

/-! ## Branches behind a condition -/

/-- A token that `beforeElse` looks for. -/
def TokenKind.continues (orElseIf : Bool) : TokenKind → Bool
  | otherwise _ => true
  | elseIf _ => orElseIf
  | _ => false

theorem TokenKind.isElse_of_continues {o : Bool} {k : TokenKind} (h : k.continues o) : k.isElse := by
  cases k <;> first | rfl | cases h

section BeforeElse

variable {o : Bool} {ts us : List Token}

theorem beforeElse_of_goesOn (h : GoesOn (TokenKind.continues o) ts) : beforeElse o ts = 1 := by
  match ts, h with
  | ⟨_, _⟩ :: ⟨kind, _⟩ :: _, ⟨rfl, hkind⟩ =>
    cases kind with
    | otherwise => rfl
    | elseIf => exact if_pos hkind
    | _ => exact nomatch hkind

theorem beforeElse_of_not (h : ¬ GoesOn (TokenKind.continues o) ts) : beforeElse o ts = 0 := by
  unfold beforeElse
  split
  · exact absurd ⟨rfl, rfl⟩ h
  · split
    next ho => exact absurd ⟨rfl, ho⟩ h
    next => rfl
  · rfl

theorem not_goesOn_of_head {form : TokenKind → Bool} {t : Token} (ht : t.kind ≠ .newline) :
    ¬ GoesOn form (t :: ts) := by
  intro h
  obtain ⟨n, _, _, heq, hn, -⟩ := h.exists_cons
  cases heq
  exact ht hn

theorem TokenKind.ne_newline_of_continues {k : TokenKind} (h : k.continues o) : k ≠ .newline := by
  rintro rfl
  exact nomatch h

/-- Behind the end of a block one line end may be added in front of an `else`, and elsewhere none. -/
theorem Padded.cons_else {s : Spot} {t : Token} (h : Padded s (t :: ts) us) (hb : s ≠ .block)
    (ht : t.kind.isElse) :
    ∃ u vs, u.kind = t.kind ∧ Padded t.kind.spot ts vs ∧
      (us = u :: vs ∨ s = .closed ∧ ∃ n, n.kind = .newline ∧ us = n :: u :: vs) := by
  cases h with
  | cons hk _ h => exact ⟨_, _, hk, Spot.next_of_ne hb _ ▸ h, .inl rfl⟩
  | pad _ hu hp h =>
    have hs := (hp.1 _ rfl).2 ht
    cases h with
    | cons hk _ h =>
      exact ⟨_, _, hk, Spot.next_of_ne (s := .line) nofun _ ▸ h, .inr ⟨hs, _, hu, rfl⟩⟩
    | pad _ _ hp => exact nomatch (hp.1 _ rfl).2 ht

/-- Both streams go on with a branch, or neither does. -/
theorem Behind.branch (o : Bool) (h : Behind ts us) :
    (∃ t more u vs, ts.drop (beforeElse o ts) = t :: more ∧ us.drop (beforeElse o us) = u :: vs ∧
        u.kind = t.kind ∧ t.kind.continues o ∧ Padded t.kind.spot more vs) ∨
      (∀ t ∈ (ts.drop (beforeElse o ts)).head?, t.kind.continues o = false) ∧
        ∀ u ∈ (us.drop (beforeElse o us)).head?, u.kind.continues o = false := by
  have hpad := h
  obtain ⟨s, h, hb, -⟩ := h
  by_cases hgo : GoesOn (TokenKind.continues o) ts
  · -- a line end leads to the branch, and nothing was added at it
    rw [beforeElse_of_goesOn hgo]
    obtain ⟨n, t, more, rfl, hn, ht⟩ := hgo.exists_cons
    have helse := TokenKind.isElse_of_continues ht
    cases h with
    | pad _ _ hp => exact absurd ⟨hn, helse⟩ hp.2
    | @cons _ _ m _ _ hk _ h =>
      rw [Spot.next_of_ne hb, hn] at h
      obtain ⟨u, vs, hk', hvs, rfl | ⟨hs, -⟩⟩ := h.cons_else nofun helse
      · have hus : GoesOn (TokenKind.continues o) (m :: u :: vs) := ⟨hk.trans hn, hk' ▸ ht⟩
        rw [beforeElse_of_goesOn hus]
        exact .inl ⟨t, more, u, vs, rfl, rfl, hk', ht, hvs⟩
      · exact nomatch hs
  rw [beforeElse_of_not hgo]
  by_cases hhead : ∃ t ∈ ts.head?, t.kind.continues o
  · obtain ⟨t, ht, hcont⟩ := hhead
    obtain ⟨more, rfl⟩ := List.head?_eq_some_iff.mp ht
    obtain ⟨u, vs, hk, hvs, hus⟩ := h.cons_else hb (TokenKind.isElse_of_continues hcont)
    have hu : us.drop (beforeElse o us) = u :: vs := by
      obtain rfl | ⟨-, n, hn, rfl⟩ := hus
      · rw [beforeElse_of_not
          (not_goesOn_of_head (hk ▸ TokenKind.ne_newline_of_continues hcont))]
        rfl
      · have hgo : GoesOn (TokenKind.continues o) (n :: u :: vs) := ⟨hn, hk ▸ hcont⟩
        rw [beforeElse_of_goesOn hgo]
        rfl
    exact .inl ⟨t, more, u, vs, rfl, hu, hk, hcont, hvs⟩
  · simp only [not_exists, not_and, Bool.not_eq_true] at hhead
    have hno {u : Token} {vs : List Token} {s : Spot} (hvs : Padded s ts (u :: vs)) :
        u.kind.continues o = false := by
      refine Bool.eq_false_iff.mpr fun hu => ?_
      obtain ⟨t, more, rfl, hk, -⟩ := hvs.of_ne (TokenKind.ne_newline_of_continues hu)
      cases (hhead t rfl).symm.trans (hk ▸ hu)
    have hgo' : ¬ GoesOn (TokenKind.continues o) us := by
      intro hus
      obtain ⟨n, u, vs, rfl, hn, hu⟩ := hus.exists_cons
      cases h with
      | pad _ _ _ h => cases (hno h).symm.trans hu
      | cons hk _ h =>
        obtain ⟨t, more, rfl, hk', -⟩ := h.of_ne (TokenKind.ne_newline_of_continues hu)
        exact hgo ⟨hk ▸ hn, hk' ▸ hu⟩
    rw [beforeElse_of_not hgo']
    refine .inr ⟨hhead, fun u hu => ?_⟩
    obtain ⟨vs, rfl⟩ := List.head?_eq_some_iff.mp hu
    exact hno h

end BeforeElse

/-! ## Readers -/

/-- Contexts that cut text alike, wherever it stands. -/
structure TreeContext.Alike (cx cx' : TreeContext) : Prop where
  inMixin : cx'.inMixin = cx.inMixin
  segments : ∀ raw loc loc',
    Answers (fun ss ss' => unplacedSegments ss' = unplacedSegments ss) (cx.segments raw loc)
      (cx'.segments raw loc')

/-- Readings that answer the same nodes and leave padded rests behind. -/
def ReadAlike (ts us : List Token) (r q : List Node × Nat) : Prop :=
  unplacedAll q.1 = unplacedAll r.1 ∧ Behind (ts.drop r.2) (us.drop q.2)

theorem unplacedAll_singleton {n m : Node} (h : m.unplaced = n.unplaced) :
    unplacedAll [m] = unplacedAll [n] := by
  simp only [unplacedAll, h]

section Readers

variable {cx cx' : TreeContext} {ts us : List Token} {stop stop' : Location}

theorem answers_unexpected {α β : Type} {R : α → β → Prop} (stop : Location) (ts : List Token)
    (expected : Expectation) {y : Except ParseError β} :
    Answers R (unexpected stop ts expected) y := by
  unfold unexpected
  split <;> exact .error

theorem head_cases (form : TokenKind → Bool) (ts : List Token) :
    (∃ t rest, ts = t :: rest ∧ form t.kind) ∨ ∀ t ∈ ts.head?, form t.kind = false := by
  cases ts with
  | nil => exact .inr nofun
  | cons t ts =>
    cases h : form t.kind with
    | true => exact .inl ⟨t, ts, rfl, h⟩
    | false => exact .inr fun _ hu => Option.some.inj hu ▸ h

theorem TreeContext.Alike.textNode (hcx : cx.Alike cx') (raw : String) (loc loc' : Location) :
    Answers (fun n m : Node => m.unplaced = n.unplaced) (cx.textNode raw loc)
      (cx'.textNode raw loc') :=
  (hcx.segments raw loc loc').bind fun _ _ h => .pure (by simp only [Node.unplaced, h])

theorem textBody_of_eq_false (h : ∀ t ∈ ts.head?, t.kind.isTextStart = false) :
    cx.textBody ts = .ok ([], 0) := by
  unfold TreeContext.textBody
  split
  · cases h _ rfl
  · rfl

theorem TreeContext.Alike.textBody (hcx : cx.Alike cx') (h : Behind ts us) :
    Answers (ReadAlike ts us) (cx.textBody ts) (cx'.textBody us) := by
  obtain ⟨⟨kind, loc⟩, rest, rfl, ht⟩ | hts := head_cases TokenKind.isTextStart ts
  · obtain ⟨⟨_, at_⟩, vs, rfl, hk, hvs⟩ := h.cons_below (Bool.or_eq_true_iff.mpr (.inr ht))
    cases hk
    cases kind with
    | pipelessStart =>
      refine .bind (answers_pipelessBody hvs) ?_
      rintro ⟨loc, raw, k⟩ ⟨loc', _, _⟩ ⟨⟨⟩, hrest⟩
      exact .bind (hcx.textNode raw loc loc') fun n m hn =>
        .pure ⟨unplacedAll_singleton hn, .of_other hrest⟩
    | _ => exact nomatch ht
  · rw [textBody_of_eq_false hts, textBody_of_eq_false (h.head_eq_false rfl hts)]
    exact .pure ⟨rfl, h⟩

/-- Behind a token in the same line. -/
theorem readCode_of_eq_false {source : String} {buffered escape : Bool} {loc : Location}
    (h : ∀ t ∈ ts.head?, t.kind.isIndent = false) :
    readCode source buffered escape loc ts =
      (fun n => ([n], 0)) <$> Node.ofCode source buffered escape loc := by
  unfold readCode
  show _ >>= _ = _ >>= _
  congr 1
  funext n
  split
  · cases h _ rfl
  · rfl

theorem answers_readCode {source : String} {buffered escape : Bool} (loc loc' : Location)
    (h : Padded .other ts us) :
    Answers (ReadAlike ts us) (readCode source buffered escape loc ts)
      (readCode source buffered escape loc' us) := by
  obtain ⟨⟨kind, at_⟩, rest, rfl, ht⟩ | hts := head_cases TokenKind.isIndent ts
  · cases kind with
    | indent =>
      intro r hr
      obtain ⟨n, -, hr⟩ := of_bind_eq_ok hr
      cases hr
    | _ => exact nomatch ht
  · rw [readCode_of_eq_false hts, readCode_of_eq_false (h.head_eq_false (.inr rfl) hts)]
    exact (answers_ofCode loc loc' _ _ _).map fun n m hn =>
      ⟨unplacedAll_singleton hn, .of_other h⟩

theorem answers_readCodeBlock (loc loc' : Location) (h : Padded .other ts us) :
    Answers (ReadAlike ts us) (readCodeBlock stop loc ts) (readCodeBlock stop' loc' us) := by
  have hnone {stop loc : Location} {ts : List Token}
      (h : ∀ t ∈ ts.head?, t.kind.isTextStart = false) :
      readCodeBlock stop loc ts = .ok ([.statements loc []], 0) := by
    unfold readCodeBlock
    split
    · cases h _ rfl
    · rfl
  obtain ⟨⟨kind, at_⟩, rest, rfl, ht⟩ | hts := head_cases TokenKind.isTextStart ts
  · obtain ⟨⟨_, at'⟩, vs, rfl, hk, -, hvs⟩ := h.uncons (.inr rfl)
    cases hk
    cases kind with
    | pipelessStart =>
      refine .bind (answers_pipelessBody hvs) ?_
      rintro ⟨loc, text, k⟩ ⟨loc', _, _⟩ ⟨⟨⟩, hrest⟩
      exact .bind_eq (answers_blockStatements _ _ _) fun _ => .pure ⟨rfl, .of_other hrest⟩
    | _ => exact nomatch ht
  · rw [hnone hts, hnone (h.head_eq_false (.inr rfl) hts)]
    exact .pure ⟨rfl, .of_other h⟩

theorem answers_readComment {text : String} {buffered : Bool} (loc loc' : Location)
    (h : Padded .other ts us) :
    Answers (fun r q => q.1.unplaced = r.1.unplaced ∧ Behind (ts.drop r.2) (us.drop q.2))
      (readComment stop text buffered loc ts) (readComment stop' text buffered loc' us) := by
  have hnone {stop loc : Location} {ts : List Token}
      (h : ∀ t ∈ ts.head?, t.kind.isTextStart = false) :
      readComment stop text buffered loc ts = .ok (.comment loc text buffered none, 0) := by
    unfold readComment
    split
    · cases h _ rfl
    · rfl
  obtain ⟨⟨kind, at_⟩, rest, rfl, ht⟩ | hts := head_cases TokenKind.isTextStart ts
  · obtain ⟨⟨_, at'⟩, vs, rfl, hk, -, hvs⟩ := h.uncons (.inr rfl)
    cases hk
    cases kind with
    | pipelessStart =>
      refine .bind (answers_pipelessBody hvs) ?_
      rintro ⟨loc, text, k⟩ ⟨loc', _, _⟩ ⟨⟨⟩, hrest⟩
      exact .pure ⟨rfl, .of_other hrest⟩
    | _ => exact nomatch ht
  · rw [hnone hts, hnone (h.head_eq_false (.inr rfl) hts)]
    exact .pure ⟨rfl, .of_other h⟩

theorem answers_readPath (h : Padded .other ts us) :
    Answers (fun r q => q = r ∧ Padded .other (ts.drop 1) (us.drop 1)) (readPath stop ts)
      (readPath stop' us) := by
  unfold readPath
  split
  next =>
    obtain ⟨⟨_, at'⟩, vs, rfl, hk, -, hvs⟩ := h.uncons (.inr rfl)
    cases hk
    exact .pure ⟨rfl, hvs⟩
  next => exact answers_unexpected _ _ _

/-- A token that the text of a filter begins with. -/
def TokenKind.isFilterText (k : TokenKind) : Bool :=
  k.isText || k.isTextStart

/-- The text of a filter stands in its line or below it. -/
theorem answers_filterText {s : Spot} (hs : s.InLine) (h : Padded s ts us) :
    Answers (fun r q => q = r ∧ Behind (ts.drop r.2) (us.drop r.2)) (filterText stop ts)
      (filterText stop' us) := by
  have hnone {stop : Location} {ts : List Token}
      (h : ∀ t ∈ ts.head?, t.kind.isFilterText = false) : filterText stop ts = .ok ("", 0) := by
    unfold filterText
    split
    · cases h _ rfl
    · cases h _ rfl
    · rfl
  obtain ⟨⟨kind, at_⟩, rest, rfl, ht⟩ | hts := head_cases TokenKind.isFilterText ts
  · obtain ⟨⟨_, at'⟩, vs, rfl, hk, -, hvs⟩ := h.uncons hs
    cases hk
    cases kind with
    | text => exact .pure ⟨rfl, .of_other hvs⟩
    | pipelessStart =>
      refine .bind (answers_pipelessBody hvs) ?_
      rintro ⟨loc, text, k⟩ ⟨loc', _, _⟩ ⟨⟨⟩, hrest⟩
      exact .pure ⟨rfl, .of_other hrest⟩
    | _ => exact nomatch ht
  · rw [hnone hts, hnone (h.head_eq_false hs hts)]
    refine .pure ⟨rfl, s, h, hs.ne nofun nofun, fun _ t ht => ?_⟩
    exact (Bool.or_eq_false_iff.mp (hts t ht)).1

theorem answers_readFilter (name : String) (loc loc' : Location) (h : Padded .head ts us) :
    Answers (ReadAlike ts us) (readFilter stop name loc ts) (readFilter stop' name loc' us) := by
  have htext {k : Nat} {s : Spot} (as : List Attribute) (hs : s.InLine)
      (h : Padded s (ts.drop k) (us.drop k)) :
      Answers (ReadAlike ts us)
        (filterText stop (ts.drop k) >>= fun t => pure ([Node.filter loc name as t.1], k + t.2))
        (filterText stop' (us.drop k) >>= fun t =>
          pure ([Node.filter loc' name as t.1], k + t.2)) := by
    refine .bind (answers_filterText hs h) ?_
    rintro ⟨text, n⟩ _ ⟨rfl, hrest⟩
    rw [List.drop_drop, List.drop_drop] at hrest
    exact .pure ⟨rfl, hrest⟩
  unfold readFilter
  split
  next loc more =>
    obtain ⟨⟨_, at'⟩, vs, rfl, hk, -, hvs⟩ := h.uncons (.inl rfl)
    cases hk
    refine .bind (answers_attributesRead hvs) ?_
    rintro ⟨as, k⟩ _ ⟨rfl, hrest⟩
    exact htext (k := k + 1) as (.inl rfl) hrest
  next hts =>
    split
    next =>
      obtain ⟨⟨_, at_⟩, more, rfl, hk, -⟩ := h.of_ne (by rintro ⟨⟩)
      cases hk
      exact absurd rfl (hts _ _)
    next => exact htext (k := 0) [] (.inl rfl) h

/-! ## Equations -/

def TokenKind.isColon : TokenKind → Bool
  | colon => true
  | _ => false

theorem readItems_node {t : Token} (ho : t.kind ≠ .outdent) (hn : t.kind ≠ .newline)
    (he : t.kind ≠ .eos) :
    readItems cx (t :: ts) = (do
      let (ns, k) ← Node.read cx t ts
      let (more, m) ← readItems cx (ts.drop k)
      return (ns ++ more, k + m + 1)) := by
  obtain ⟨kind, loc⟩ := t
  rw [readItems]
  · rintro _ ⟨⟩
    exact ho rfl
  · rintro _ ⟨⟩
    exact hn rfl
  · rintro _ ⟨⟩
    exact he rfl

theorem readOptionalBlock_of_eq_false (h : ∀ t ∈ ts.head?, t.kind.isIndent = false) :
    readOptionalBlock cx ts = .ok ([], 0) := by
  unfold readOptionalBlock
  split
  · cases h _ rfl
  · rfl

theorem readItems_newline {loc : Location} :
    readItems cx (⟨.newline, loc⟩ :: ts) = (fun r => (r.1, r.2 + 1)) <$> readItems cx ts := by
  rw [readItems]
  rfl

theorem readBranches_newline {loc : Location} :
    readBranches cx (⟨.newline, loc⟩ :: ts) = (fun r => (r.1, r.2 + 1)) <$> readBranches cx ts := by
  rw [readBranches]
  rfl

theorem readElseBody_of_eq_false (h : ∀ t ∈ ts.head?, t.kind.isColon = false) :
    readElseBody cx ts = readOptionalBlock cx ts := by
  unfold readElseBody
  split
  · cases h _ rfl
  · rfl

/-- A token that the body of a branch begins with. -/
def TokenKind.opensBranch (k : TokenKind) : Bool :=
  k.isColon || k.isIndent

theorem readBranchBody_of_eq_false (h : ∀ t ∈ ts.head?, t.kind.opensBranch = false) :
    readBranchBody cx ts = .ok (none, 0) := by
  unfold readBranchBody
  split
  · cases h _ rfl
  · cases h _ rfl
  · rfl

theorem readOtherwise_elseIf {source : String} {loc : Location} {rest : List Token}
    (h : ts.drop (beforeElse true ts) = ⟨.elseIf source, loc⟩ :: rest) :
    readOtherwise cx ts = (do
      let test ← expressionAt source loc
      let (body, k) ← readOptionalBlock cx rest
      let (next, m) ← readOtherwise cx (rest.drop k)
      return (.elseIf loc test body next, beforeElse true ts + 1 + k + m)) := by
  rw [readOtherwise]
  dsimp only
  split
  next heq =>
    cases h.symm.trans heq
    rfl
  next heq => cases h.symm.trans heq
  next heq => cases h.symm.trans heq
  next hno _ _ => exact (hno _ _ _ h).elim

theorem readOtherwise_refused {source : String} {loc : Location} {rest : List Token}
    (h : ts.drop (beforeElse true ts) = ⟨.otherwise (some source), loc⟩ :: rest) :
    readOtherwise cx ts = .error ⟨.elseWithCondition, loc⟩ := by
  rw [readOtherwise]
  dsimp only
  split
  next heq => cases h.symm.trans heq
  next heq =>
    cases h.symm.trans heq
    rfl
  next heq => cases h.symm.trans heq
  next hno _ => exact (hno _ _ _ h).elim

theorem readOtherwise_otherwise {loc : Location} {rest : List Token}
    (h : ts.drop (beforeElse true ts) = ⟨.otherwise none, loc⟩ :: rest) :
    readOtherwise cx ts = (do
      let (body, k) ← readElseBody cx rest
      return (.otherwise loc body, beforeElse true ts + 1 + k)) := by
  rw [readOtherwise]
  dsimp only
  split
  next heq => cases h.symm.trans heq
  next heq => cases h.symm.trans heq
  next heq =>
    cases h.symm.trans heq
    rfl
  next hno => exact (hno _ _ h).elim

theorem readOtherwise_of_eq_false
    (h : ∀ t ∈ (ts.drop (beforeElse true ts)).head?, t.kind.continues true = false) :
    readOtherwise cx ts = .ok (.nothing, 0) := by
  unfold readOtherwise
  dsimp only
  split
  next heq => cases h _ (congrArg List.head? heq)
  next heq => cases h _ (congrArg List.head? heq)
  next heq => cases h _ (congrArg List.head? heq)
  next => rfl

end Readers

/-- What stands behind a tag or call in its line and below it becomes its body. -/
theorem answers_closing {loc loc' : Location} {name : NameSource} {head : Head}
    {selfClosing textOnly : Bool} {args : Option (List Expr)}
    {inline below inline' below' : List Node} {e e' : ParseError} {n n' : Nat}
    {P : Nat → Nat → Prop} (hinline : unplacedAll inline' = unplacedAll inline)
    (hbelow : unplacedAll below' = unplacedAll below) (hP : P n n') :
    Answers (fun r q : Node × Nat => q.1.unplaced = r.1.unplaced ∧ P r.2 q.2)
      (if selfClosing ∧ inline ++ below ≠ [] then .error e
        else match args with
          | none => return (.tag loc name head selfClosing textOnly (inline ++ below), n)
          | some args => return (.call loc name args head
              (if inline ++ below = [] then none else some (inline ++ below)), n))
      (if selfClosing ∧ inline' ++ below' ≠ [] then .error e'
        else match args with
          | none => return (.tag loc' name head selfClosing textOnly (inline' ++ below'), n')
          | some args => return (.call loc' name args head
              (if inline' ++ below' = [] then none else some (inline' ++ below')), n')) := by
  have hbody : unplacedAll (inline' ++ below') = unplacedAll (inline ++ below) := by
    rw [unplacedAll_append, unplacedAll_append, hinline, hbelow]
  have hnil : inline' ++ below' = [] ↔ inline ++ below = [] := by
    rw [← unplacedAll_eq_nil_iff, hbody, unplacedAll_eq_nil_iff]
  simp only [ne_eq, hnil]
  split
  · exact .error
  · cases args with
    | none => exact .pure ⟨by simp only [Node.unplaced, hbody], hP⟩
    | some args =>
      refine .pure ⟨?_, hP⟩
      split
      · rfl
      · simp only [Node.unplaced, unplacedOption, hbody]

theorem drop_of_drop_eq {t : Token} {k n : Nat} {ts us : List Token} (h : ts.drop k = t :: us) :
    ts.drop (k + 1 + n) = us.drop n := by
  rw [Nat.add_assoc, ← List.drop_drop, h, Nat.add_comm, List.drop_succ_cons]

/-! ## Nodes -/

/-- Each production reads the same from padded tokens, as from those that nothing was added to. -/
def answering : Productions where
  optionalBlock cx' us := ∀ {cx : TreeContext} {ts : List Token}, cx.Alike cx' → Behind ts us →
    Answers (ReadAlike ts us) (readOptionalBlock cx ts) (readOptionalBlock cx' us)
  inline cx' closable us := ∀ {cx : TreeContext} {s : Spot} {ts : List Token}, cx.Alike cx' →
    s.InLine → Padded s ts us →
      Answers (fun r q => unplacedAll q.1 = unplacedAll r.1 ∧ q.2.1 = r.2.1 ∧
          Behind (ts.drop r.2.2) (us.drop q.2.2))
        (readInline cx closable ts) (readInline cx' closable us)
  branchBody cx' us := ∀ {cx : TreeContext} {ts : List Token}, cx.Alike cx' →
    Padded .other ts us →
      Answers (fun r q => unplacedOption q.1 = unplacedOption r.1 ∧
          Behind (ts.drop r.2) (us.drop q.2))
        (readBranchBody cx ts) (readBranchBody cx' us)
  branches cx' us := ∀ {cx : TreeContext} {ts : List Token}, cx.Alike cx' → Behind ts us →
    Answers (fun r q => unplacedBranches q.1 = unplacedBranches r.1 ∧
        Behind (ts.drop r.2) (us.drop q.2))
      (readBranches cx ts) (readBranches cx' us)
  elseBody cx' us := ∀ {cx : TreeContext} {ts : List Token}, cx.Alike cx' → Padded .other ts us →
    Answers (ReadAlike ts us) (readElseBody cx ts) (readElseBody cx' us)
  otherwise cx' us := ∀ {cx : TreeContext} {ts : List Token}, cx.Alike cx' → Behind ts us →
    Answers (fun r q => q.1.unplaced = r.1.unplaced ∧ Behind (ts.drop r.2) (us.drop q.2))
      (readOtherwise cx ts) (readOtherwise cx' us)
  element cx' loc' name shown args us := ∀ {cx : TreeContext} {loc : Location} {s : Spot}
    {ts : List Token}, cx.Alike cx' → s.InLine → Padded s ts us →
      Answers (fun r q => q.1.unplaced = r.1.unplaced ∧ Behind (ts.drop r.2) (us.drop q.2) ∧
          (ts.head?.any (·.kind.opensHead) → 0 < r.2 ∧ 0 < q.2))
        (readElement cx loc name shown ts args) (readElement cx' loc' name shown us args)
  conditional cx' loc' negate source us := ∀ {cx : TreeContext} {loc : Location} {ts : List Token},
    cx.Alike cx' → Padded .other ts us →
      Answers (ReadAlike ts us) (readConditional cx loc negate source ts)
        (readConditional cx' loc' negate source us)
  each cx' loc' value key source us := ∀ {cx : TreeContext} {loc : Location} {ts : List Token},
    cx.Alike cx' → Padded .other ts us →
      Answers (ReadAlike ts us) (readEach cx loc value key source ts)
        (readEach cx' loc' value key source us)
  node cx' u us := ∀ {cx : TreeContext} {t : Token} {ts : List Token}, cx.Alike cx' →
    u.kind = t.kind → Firm .other t.kind ts us → Padded t.kind.spot ts us →
      Answers (ReadAlike ts us) (Node.read cx t ts) (Node.read cx' u us)
  here cx' us := ∀ {cx : TreeContext} {ts : List Token}, cx.Alike cx' → Padded .other ts us →
    Answers (ReadAlike ts us) (Node.readHere cx ts) (Node.readHere cx' us)
  items cx' us := ∀ {cx : TreeContext} {ts : List Token}, cx.Alike cx' → Behind ts us →
    Answers (ReadAlike ts us) (readItems cx ts) (readItems cx' us)

section Steps

variable {cx' : TreeContext} {loc' : Location} {name : NameSource} {shown source value : String}
  {args : Option (List Expr)} {key : Option String} {closable negate : Bool} {u : Token}
  {us : List Token}

theorem answers_optionalBlock (ih : answering.Below us) : answering.optionalBlock cx' us := by
  intro cx ts hcx h
  obtain ⟨⟨kind, loc⟩, rest, rfl, ht⟩ | hts := head_cases TokenKind.isIndent ts
  · obtain ⟨⟨_, at_⟩, vs, rfl, hk, hvs⟩ := h.cons_below (Bool.or_eq_true_iff.mpr (.inl ht))
    cases hk
    cases kind with
    | indent =>
      rw [readOptionalBlock, readOptionalBlock]
      exact .bind (ih.items .tail hcx (.of_line hvs)) fun r q hrq => .pure hrq
    | _ => cases ht
  · rw [readOptionalBlock_of_eq_false hts,
      readOptionalBlock_of_eq_false (h.head_eq_false rfl hts)]
    exact .pure ⟨rfl, h⟩

theorem answers_inline (ih : answering.Below us) : answering.inline cx' closable us := by
  intro cx s ts hcx hs h
  cases ts with
  | nil =>
    cases h.eq_nil hs
    rw [readInline, readInline]
    exact .pure ⟨rfl, rfl, .of_nil h hs.ne_block⟩
  | cons t ts =>
    obtain ⟨kind, loc⟩ := t
    obtain ⟨⟨_, loc'⟩, vs, rfl, hk, hf, hvs⟩ := h.uncons hs
    cases hk
    cases kind with
    | text s =>
      obtain ⟨heq, hrest⟩ := textRun_padded false hs (by rintro ⟨⟩) h (by rintro ⟨⟩)
      rw [readInline, readInline, heq]
      exact .bind (hcx.textNode _ _ _) fun n m hn => .pure ⟨unplacedAll_singleton hn, rfl, hrest⟩
    | code source buffered escape =>
      rw [readInline, readInline]
      exact .bind (answers_ofCode _ _ _ _ _) fun n m hn =>
        .pure ⟨unplacedAll_singleton hn, rfl, .of_other hvs⟩
    | colon =>
      rw [readInline, readInline]
      exact .bind (ih.here .tail hcx hvs) fun r q hrq => .pure ⟨hrq.1, rfl, hrq.2⟩
    | slash =>
      rw [readInline, readInline]
      split
      · exact .pure ⟨rfl, rfl, .of_other hvs⟩
      · exact answers_unexpected _ _ _
    | newline | indent | outdent | eos | pipelessStart =>
      rw [readInline, readInline]
      exact .pure ⟨rfl, rfl, s, h, hs.ne_block, fun _ t ht => Option.some.inj ht ▸ rfl⟩
    | _ =>
      rw [readInline]
      · exact answers_unexpected _ _ _
      all_goals simp

theorem answers_branchBody (ih : answering.Below us) : answering.branchBody cx' us := by
  intro cx ts hcx h
  obtain ⟨⟨kind, loc⟩, rest, rfl, ht⟩ | hts := head_cases TokenKind.opensBranch ts
  · obtain ⟨⟨_, at_⟩, vs, rfl, hk, -, hvs⟩ := h.uncons (.inr rfl)
    cases hk
    cases kind with
    | colon =>
      rw [readBranchBody, readBranchBody]
      exact .bind (ih.here .tail hcx hvs) fun r q hrq =>
        .pure ⟨congrArg some hrq.1, hrq.2⟩
    | indent =>
      rw [readBranchBody, readBranchBody]
      exact .bind (ih.items .tail hcx (.of_line hvs)) fun r q hrq =>
        .pure ⟨congrArg some hrq.1, hrq.2⟩
    | _ => cases ht
  · rw [readBranchBody_of_eq_false hts,
      readBranchBody_of_eq_false (h.head_eq_false (.inr rfl) hts)]
    exact .pure ⟨rfl, .of_other h⟩

theorem answers_branches (ih : answering.Below us) : answering.branches cx' us := by
  intro cx ts hcx h
  cases ts with
  | nil =>
    rw [readBranches]
    exact answers_unexpected _ _ _
    all_goals simp
  | cons t ts =>
    obtain ⟨kind, loc⟩ := t
    obtain ⟨⟨_, loc'⟩, vs, rfl, hk, hf, hvs⟩ | ⟨u, vs, rfl, hu, -, hvs⟩ := h.cases_cons
    · cases hk
      cases kind with
      | outdent =>
        rw [readBranches, readBranches]
        exact .pure ⟨rfl, .of_closed hvs⟩
      | newline =>
        rw [readBranches_newline, readBranches_newline]
        exact (ih.branches .tail hcx (.of_line hvs)).map fun r q hrq => hrq
      | comment text buffered =>
        rw [readBranches, readBranches]
        refine .bind (answers_readComment loc loc' hvs) ?_
        rintro ⟨_, k⟩ ⟨_, k'⟩ ⟨-, hrest⟩
        refine .bind (ih.branches (.drop .tail) hcx hrest) ?_
        rintro ⟨bs, m⟩ ⟨bs', m'⟩ ⟨hbs, hrest⟩
        rw [List.drop_drop, List.drop_drop] at hrest
        exact .pure ⟨hbs, hrest⟩
      | when source =>
        rw [readBranches, readBranches]
        refine .bind_eq (answers_atLocation _ _ _ _) fun test => ?_
        refine .bind (ih.branchBody .tail hcx hvs) ?_
        rintro ⟨body, k⟩ ⟨body', k'⟩ ⟨hbody, hrest⟩
        refine .bind (ih.branches (.drop .tail) hcx hrest) ?_
        rintro ⟨bs, m⟩ ⟨bs', m'⟩ ⟨hbs, hrest⟩
        rw [List.drop_drop, List.drop_drop] at hrest
        exact .pure ⟨by simp only [unplacedBranches, hbody, hbs], hrest⟩
      | defaultCase =>
        rw [readBranches, readBranches]
        refine .bind (ih.branchBody .tail hcx hvs) ?_
        rintro ⟨body, k⟩ ⟨body', k'⟩ ⟨hbody, hrest⟩
        refine .bind (ih.branches (.drop .tail) hcx hrest) ?_
        rintro ⟨bs, m⟩ ⟨bs', m'⟩ ⟨hbs, hrest⟩
        rw [List.drop_drop, List.drop_drop] at hrest
        exact .pure ⟨by simp only [unplacedBranches, hbody, hbs], hrest⟩
      | _ =>
        rw [readBranches]
        · exact answers_unexpected _ _ _
        all_goals simp
    · obtain ⟨_, _⟩ := u
      cases hu
      rw [readBranches_newline]
      exact (ih.branches .tail hcx hvs).map_right fun r q hrq => hrq

theorem answers_elseBody (ih : answering.Below us) : answering.elseBody cx' us := by
  intro cx ts hcx h
  obtain ⟨⟨kind, loc⟩, rest, rfl, ht⟩ | hts := head_cases TokenKind.isColon ts
  · obtain ⟨⟨_, at_⟩, vs, rfl, hk, -, hvs⟩ := h.uncons (.inr rfl)
    cases hk
    cases kind with
    | colon =>
      rw [readElseBody, readElseBody]
      exact .bind (ih.here .tail hcx hvs) fun r q hrq => .pure hrq
    | _ => cases ht
  · rw [readElseBody_of_eq_false hts, readElseBody_of_eq_false (h.head_eq_false (.inr rfl) hts)]
    exact answers_optionalBlock ih hcx (.of_other h)

theorem answers_otherwise (ih : answering.Below us) : answering.otherwise cx' us := by
  intro cx ts hcx h
  obtain ⟨⟨kind, loc⟩, more, ⟨_, loc'⟩, vs, hts, hus, hk, hcont, hvs⟩ | ⟨hts, hus⟩ := h.branch true
  · cases hk
    have hback {k k' : Nat} (hrest : Behind (more.drop k) (vs.drop k')) :
        Behind (ts.drop (beforeElse true ts + 1 + k)) (us.drop (beforeElse true us + 1 + k')) := by
      rwa [drop_of_drop_eq hts, drop_of_drop_eq hus]
    cases kind with
    | elseIf source =>
      rw [readOtherwise_elseIf hts, readOtherwise_elseIf hus]
      refine .bind_eq (answers_atLocation _ _ _ _) fun test => ?_
      refine .bind (ih.optionalBlock (.of_drop hus) hcx (.of_other hvs)) ?_
      rintro ⟨body, k⟩ ⟨body', k'⟩ ⟨hbody, hrest⟩
      refine .bind (ih.otherwise (.drop (.of_drop hus)) hcx hrest) ?_
      rintro ⟨next, m⟩ ⟨next', m'⟩ ⟨hnext, hrest⟩
      rw [List.drop_drop, List.drop_drop] at hrest
      refine .pure ⟨by simp only [Otherwise.unplaced, hbody, hnext], ?_⟩
      rw [Nat.add_assoc _ k, Nat.add_assoc _ k']
      exact hback hrest
    | otherwise condition =>
      cases condition with
      | some source =>
        rw [readOtherwise_refused hts]
        exact .error
      | none =>
        rw [readOtherwise_otherwise hts, readOtherwise_otherwise hus]
        refine .bind (ih.elseBody (.of_drop hus) hcx hvs) ?_
        rintro ⟨body, k⟩ ⟨body', k'⟩ ⟨hbody, hrest⟩
        exact .pure ⟨by simp only [Otherwise.unplaced, hbody], hback hrest⟩
    | _ => cases hcont
  · rw [readOtherwise_of_eq_false hts, readOtherwise_of_eq_false hus]
    exact .pure ⟨rfl, h⟩

theorem answers_element (ih : answering.Below us) :
    answering.element cx' loc' name shown args us := by
  intro cx loc s ts hcx hs h
  unfold readElement
  refine .bind (answers_head {} hs h) ?_
  rintro ⟨head, k⟩ _ ⟨rfl, hpos, s', hs', hk⟩
  dsimp only at hpos hk ⊢
  let P (r q : Nat) : Prop :=
    Behind (ts.drop r) (us.drop q) ∧ (ts.head?.any (·.kind.opensHead) → 0 < r ∧ 0 < q)
  have hend {j m n m' n' : Nat} (hj : k ≤ j)
      (hrest : Behind ((ts.drop (j + m)).drop n) ((us.drop (j + m')).drop n')) :
      P (j + m + n) (j + m' + n') := by
    rw [List.drop_drop, List.drop_drop] at hrest
    exact ⟨hrest, fun hopens => by have := hpos hopens; omega⟩
  rw [hk.any_head? hs' (· == .dot)]
  cases hdot : (ts.drop k).head?.any fun t => t.kind == .dot with
  | true =>
    -- behind the dot the line is over, and a block of text may follow
    have hnext : Padded .other (ts.drop (k + 1)) (us.drop (k + 1)) := by
      rw [← List.drop_drop, ← List.drop_drop]
      generalize ts.drop k = more at hk hdot
      generalize us.drop k = more' at hk
      cases more with
      | nil => cases hdot
      | cons t more =>
        obtain ⟨u, vs, rfl, -, -, hvs⟩ := hk.uncons hs'
        rwa [show t.kind = .dot from eq_of_beq hdot] at hvs
    simp only [if_true]
    refine .bind (answers_inline (ih.drop _) hcx (.inr rfl) hnext) ?_
    rintro ⟨inline, selfClosing, m⟩ ⟨inline', _, m'⟩ ⟨hinline, heq, hrest⟩
    dsimp only at heq hrest ⊢
    subst heq
    rw [List.drop_drop, List.drop_drop] at hrest
    refine .bind (hcx.textBody hrest) ?_
    rintro ⟨below, n⟩ ⟨below', n'⟩ ⟨hbelow, hrest⟩
    exact answers_closing (P := P) hinline hbelow (hend (Nat.le_succ k) hrest)
  | false =>
    simp only [Bool.false_eq_true, if_false]
    refine .bind (answers_inline (ih.drop _) hcx hs' hk) ?_
    rintro ⟨inline, selfClosing, m⟩ ⟨inline', _, m'⟩ ⟨hinline, heq, hrest⟩
    dsimp only at heq hrest ⊢
    subst heq
    rw [List.drop_drop, List.drop_drop] at hrest
    refine .bind (answers_optionalBlock (ih.drop _) hcx hrest) ?_
    rintro ⟨below, n⟩ ⟨below', n'⟩ ⟨hbelow, hrest⟩
    exact answers_closing (P := P) hinline hbelow (hend (Nat.le_refl k) hrest)

theorem answers_conditional (ih : answering.Below us) :
    answering.conditional cx' loc' negate source us := by
  intro cx loc ts hcx h
  unfold readConditional
  refine .bind_eq (answers_atLocation _ _ _ _) fun test => ?_
  refine .bind (answers_optionalBlock ih hcx (.of_other h)) ?_
  rintro ⟨body, k⟩ ⟨body', k'⟩ ⟨hbody, hrest⟩
  refine .bind (answers_otherwise (ih.drop _) hcx hrest) ?_
  rintro ⟨next, m⟩ ⟨next', m'⟩ ⟨hnext, hrest⟩
  rw [List.drop_drop, List.drop_drop] at hrest
  exact .pure ⟨unplacedAll_singleton (by simp only [Node.unplaced, hbody, hnext]), hrest⟩

theorem answers_each (ih : answering.Below us) : answering.each cx' loc' value key source us := by
  intro cx loc ts hcx h
  unfold readEach
  refine .bind_eq (answers_atLocation _ _ _ _) fun e => ?_
  refine .bind (answers_optionalBlock ih hcx (.of_other h)) ?_
  rintro ⟨body, k⟩ ⟨body', k'⟩ ⟨hbody, hrest⟩
  have hbranch := hrest.branch false
  rw [List.drop_drop, List.drop_drop] at hbranch
  dsimp only
  obtain ⟨⟨kind, at_⟩, more, ⟨_, at'⟩, vs, hts, hus, hk, hcont, hvs⟩ | ⟨hts, hus⟩ := hbranch
  · cases hk
    cases kind with
    | otherwise condition =>
      split
      next => exact .error
      next heq =>
        cases hts.symm.trans heq
        split
        next heq' => cases hus.symm.trans heq'
        next heq' =>
          cases hus.symm.trans heq'
          refine .bind (ih.elseBody (.of_drop hus) hcx hvs) ?_
          rintro ⟨ifEmpty, n⟩ ⟨ifEmpty', n'⟩ ⟨hifEmpty, hrest⟩
          refine .pure ⟨unplacedAll_singleton ?_, ?_⟩
          · simp only [Node.unplaced, unplacedOption, hbody, hifEmpty]
          · rwa [drop_of_drop_eq hts, drop_of_drop_eq hus]
        next hno => exact (hno _ _ hus).elim
      next hsome hnone =>
        cases condition with
        | some source => exact (hsome _ _ _ hts).elim
        | none => exact (hnone _ _ hts).elim
    | _ => cases hcont
  · split
    next => exact .error
    next heq => cases hts _ (congrArg List.head? heq)
    next =>
      split
      next heq => cases hus _ (congrArg List.head? heq)
      next heq => cases hus _ (congrArg List.head? heq)
      next =>
        exact .pure ⟨unplacedAll_singleton (by simp only [Node.unplaced, unplacedOption, hbody]),
          hrest⟩

theorem answers_node (ih : answering.Below (u :: us)) : answering.node cx' u us := by
  intro cx t ts hcx hk hf h
  have hhere : Padded .other (t :: ts) (u :: us) :=
    .cons hk hf (Spot.next_of_ne (s := .other) (by rintro ⟨⟩) _ ▸ h)
  obtain ⟨kind, loc⟩ := t
  obtain ⟨_, loc'⟩ := u
  cases hk
  cases kind with
  | tag name =>
    rw [Node.read, Node.read]
    refine .bind (ih.element .tail hcx (.inl rfl) h) ?_
    rintro ⟨n, k⟩ ⟨m, k'⟩ ⟨hn, hrest, -⟩
    exact .pure ⟨unplacedAll_singleton hn, hrest⟩
  | id | className | attributesStart =>
    rw [Node.read, Node.read]
    refine .bind (answers_element ih hcx (.inr rfl) hhere) ?_
    rintro ⟨n, k⟩ ⟨m, k'⟩ ⟨hn, hrest, hpos⟩
    exact .pure ⟨unplacedAll_singleton hn, hrest.drop_pred (hpos rfl).1 (hpos rfl).2⟩
  | interpolation source =>
    rw [Node.read, Node.read]
    refine .bind_eq (answers_atLocation _ _ _ _) fun e => ?_
    refine .bind (ih.element .tail hcx (.inl rfl) h) ?_
    rintro ⟨n, k⟩ ⟨m, k'⟩ ⟨hn, hrest, -⟩
    exact .pure ⟨unplacedAll_singleton hn, hrest⟩
  | text s =>
    obtain ⟨heq, hrest⟩ :=
      textRun_padded true (.inr rfl) (by rintro - ⟨⟩) h fun _ => hf.text rfl (by rintro ⟨⟩)
    rw [Node.read, Node.read, heq]
    exact .bind (hcx.textNode _ loc loc') fun n m hn => .pure ⟨unplacedAll_singleton hn, hrest⟩
  | html s =>
    obtain ⟨heq, hrest⟩ := htmlRun_padded h (hf.html rfl)
    rw [Node.read, Node.read, heq]
    refine .bind (hcx.textNode _ loc loc') fun n m hn => ?_
    refine .bind (ih.optionalBlock (.drop .tail) hcx (.of_other hrest)) ?_
    rintro ⟨body, k⟩ ⟨body', k'⟩ ⟨hbody, hrest⟩
    rw [List.drop_drop, List.drop_drop] at hrest
    exact .pure ⟨by simp only [unplacedAll, hn, hbody], hrest⟩
  | comment text buffered =>
    rw [Node.read, Node.read]
    refine .bind (answers_readComment loc loc' h) ?_
    rintro ⟨n, k⟩ ⟨m, k'⟩ ⟨hn, hrest⟩
    exact .pure ⟨unplacedAll_singleton hn, hrest⟩
  | doctype | yield =>
    rw [Node.read, Node.read]
    exact .pure ⟨rfl, .of_other h⟩
  | code source buffered escape =>
    rw [Node.read, Node.read]
    exact answers_readCode loc loc' h
  | codeBlock =>
    rw [Node.read, Node.read]
    exact answers_readCodeBlock loc loc' h
  | ifCond source | unlessCond source =>
    rw [Node.read, Node.read]
    exact ih.conditional .tail hcx h
  | switch source =>
    rw [Node.read, Node.read]
    refine .bind_eq (answers_atLocation _ _ _ _) fun subject => ?_
    split
    next =>
      obtain ⟨⟨_, at_⟩, vs, rfl, hk, -, hvs⟩ := Padded.uncons h (.inr rfl)
      cases hk
      refine .bind (ih.branches (.cons .tail) hcx (.of_line hvs)) ?_
      rintro ⟨bs, k⟩ ⟨bs', k'⟩ ⟨hbs, hrest⟩
      exact .pure ⟨unplacedAll_singleton (by simp only [Node.unplaced, hbs]), hrest⟩
    next hno =>
      split
      next =>
        obtain ⟨⟨_, at_⟩, more, rfl, hk, -⟩ := Padded.of_ne h (by rintro ⟨⟩)
        cases hk
        exact absurd rfl (hno _ _ _)
      next => exact .pure ⟨rfl, .of_other h⟩
  | each | eachOf =>
    rw [Node.read, Node.read]
    exact ih.each .tail hcx h
  | loop source =>
    rw [Node.read, Node.read]
    refine .bind_eq (answers_atLocation _ _ _ _) fun test => ?_
    refine .bind (ih.optionalBlock .tail hcx (.of_other h)) ?_
    rintro ⟨body, k⟩ ⟨body', k'⟩ ⟨hbody, hrest⟩
    exact .pure ⟨unplacedAll_singleton (by simp only [Node.unplaced, hbody]), hrest⟩
  | mixin name params =>
    have hmixin : TreeContext.Alike { cx with inMixin := true } { cx' with inMixin := true } :=
      ⟨rfl, hcx.segments⟩
    rw [Node.read, Node.read]
    refine .bind_eq (answers_paramsAt _ _ _) fun params => ?_
    refine .bind (ih.optionalBlock .tail hmixin (.of_other h)) ?_
    rintro ⟨body, k⟩ ⟨body', k'⟩ ⟨hbody, hrest⟩
    exact .pure ⟨unplacedAll_singleton (by simp only [Node.unplaced, hbody]), hrest⟩
  | call name computed args =>
    rw [Node.read, Node.read]
    refine .bind_eq (answers_callName _ _ _ _) fun name => ?_
    refine .bind_eq (answers_callArguments _ _ _) fun args => ?_
    refine .bind (ih.element .tail hcx (.inl rfl) h) ?_
    rintro ⟨n, k⟩ ⟨m, k'⟩ ⟨hn, hrest, -⟩
    exact .pure ⟨unplacedAll_singleton hn, hrest⟩
  | block name mode =>
    rw [Node.read, Node.read]
    refine .bind (ih.optionalBlock .tail hcx (.of_other h)) ?_
    rintro ⟨body, k⟩ ⟨body', k'⟩ ⟨hbody, hrest⟩
    exact .pure ⟨unplacedAll_singleton (by simp only [Node.unplaced, hbody]), hrest⟩
  | slot =>
    rw [Node.read, Node.read, hcx.inMixin]
    split
    · exact .pure ⟨rfl, .of_other h⟩
    · exact .error
  | inherits =>
    rw [Node.read, Node.read]
    refine .bind (answers_readPath h) ?_
    rintro path _ ⟨rfl, hrest⟩
    exact .pure ⟨rfl, .of_other hrest⟩
  | includes filter =>
    rw [Node.read, Node.read]
    refine .bind (answers_readPath h) ?_
    rintro path _ ⟨rfl, hrest⟩
    split
    · exact .pure ⟨rfl, .of_other hrest⟩
    · rw [← List.drop_one, ← List.drop_one]
      refine .bind (ih.optionalBlock (.drop .tail) hcx (.of_other hrest)) ?_
      rintro ⟨body, k⟩ ⟨body', k'⟩ ⟨hbody, hrest⟩
      rw [List.drop_drop, List.drop_drop, Nat.add_comm, Nat.add_comm 1] at hrest
      exact .pure ⟨unplacedAll_singleton (by simp only [Node.unplaced, hbody]), hrest⟩
  | filter name =>
    rw [Node.read, Node.read]
    exact answers_readFilter name loc loc' h
  | otherwise | elseIf =>
    rw [Node.read]
    exact .error
  | _ =>
    rw [Node.read]
    · exact answers_unexpected _ _ _
    all_goals simp

theorem answers_here (ih : answering.Below us) : answering.here cx' us := by
  intro cx ts hcx h
  cases ts with
  | nil =>
    rw [Node.readHere]
    exact answers_unexpected _ _ _
  | cons t ts =>
    obtain ⟨u, vs, rfl, hk, hf, hvs⟩ := h.uncons (.inr rfl)
    rw [Node.readHere, Node.readHere]
    exact .bind (answers_node ih hcx hk hf hvs) fun r q hrq => .pure hrq

theorem answers_items (ih : answering.Below us) : answering.items cx' us := by
  intro cx ts hcx h
  cases ts with
  | nil =>
    rw [readItems]
    exact answers_unexpected _ _ _
  | cons t ts =>
    obtain ⟨u, vs, rfl, hk, hf, hvs⟩ | ⟨u, vs, rfl, hu, -, hvs⟩ := h.cases_cons
    · by_cases hout : t.kind = .outdent
      · obtain ⟨_, _⟩ := t
        obtain ⟨_, _⟩ := u
        cases hout
        cases hk
        rw [readItems, readItems]
        exact .pure ⟨rfl, .of_closed hvs⟩
      by_cases hfeed : t.kind = .newline
      · obtain ⟨_, _⟩ := t
        obtain ⟨_, _⟩ := u
        cases hfeed
        cases hk
        rw [readItems_newline, readItems_newline]
        exact (ih.items .tail hcx (.of_line hvs)).map fun r q hrq => hrq
      by_cases heos : t.kind = .eos
      · obtain ⟨_, _⟩ := t
        cases heos
        rw [readItems]
        exact answers_unexpected _ _ _
      rw [readItems_node hout hfeed heos,
        readItems_node (hk ▸ hout) (hk ▸ hfeed) (hk ▸ heos)]
      refine .bind (answers_node ih hcx hk hf hvs) ?_
      rintro ⟨ns, k⟩ ⟨ms, k'⟩ ⟨hns, hrest⟩
      refine .bind (ih.items (.drop .tail) hcx hrest) ?_
      rintro ⟨more, m⟩ ⟨more', m'⟩ ⟨hmore, hrest⟩
      rw [List.drop_drop, List.drop_drop] at hrest
      exact .pure ⟨by simp only [unplacedAll_append, hns, hmore], hrest⟩
    · obtain ⟨_, _⟩ := u
      cases hu
      rw [readItems_newline]
      exact (ih.items .tail hcx hvs).map_right fun r q hrq => hrq

end Steps

theorem answering_always : answering.Given fun _ => True :=
  Productions.Given.always
    { optionalBlock := answers_optionalBlock
      inline := answers_inline
      branchBody := answers_branchBody
      branches := answers_branches
      elseBody := answers_elseBody
      otherwise := answers_otherwise
      element := answers_element
      conditional := answers_conditional
      each := answers_each
      node := answers_node
      here := answers_here
      items := answers_items }

/-! ## Whole streams -/

theorem readDocument_newline {cx : TreeContext} {loc : Location} {ts : List Token} :
    readDocument cx (⟨.newline, loc⟩ :: ts) = readDocument cx ts := by
  rw [readDocument]

theorem readDocument_node {cx : TreeContext} {t : Token} {ts : List Token}
    (hn : t.kind ≠ .newline) (he : t.kind ≠ .eos) :
    readDocument cx (t :: ts) = (do
      let (ns, k) ← Node.read cx t ts
      return ns ++ (← readDocument cx (ts.drop k))) := by
  obtain ⟨kind, loc⟩ := t
  rw [readDocument]
  · rintro _ ⟨⟩
    exact he rfl
  · rintro _ ⟨⟩
    exact hn rfl

/-- Of a padded stream the same tree is read. -/
theorem answers_document {cx cx' : TreeContext} (hcx : cx.Alike cx') {ts us : List Token}
    (h : Behind ts us) :
    Answers (fun ns ms => unplacedAll ms = unplacedAll ns) (readDocument cx ts)
      (readDocument cx' us) := by
  match ts, us, h with
  | [], [], _ =>
    rw [readDocument, readDocument]
    exact .pure rfl
  | [], u :: us, ⟨s, h, hb, _⟩ =>
    cases h with
    | pad _ hu _ h =>
      obtain ⟨_, _⟩ := u
      cases hu
      rw [readDocument_newline]
      exact answers_document hcx (.of_line h)
  | t :: ts, us, h =>
    obtain ⟨u, vs, rfl, hk, hf, hvs⟩ | ⟨u, vs, rfl, hu, -, hvs⟩ := h.cases_cons
    · by_cases hfeed : t.kind = .newline
      · obtain ⟨_, _⟩ := t
        obtain ⟨_, _⟩ := u
        cases hfeed
        cases hk
        rw [readDocument_newline, readDocument_newline]
        exact answers_document hcx (.of_line hvs)
      by_cases heos : t.kind = .eos
      · obtain ⟨_, _⟩ := t
        obtain ⟨_, _⟩ := u
        cases heos
        cases hk
        rw [readDocument, readDocument]
        exact .pure rfl
      rw [readDocument_node hfeed heos, readDocument_node (hk ▸ hfeed) (hk ▸ heos)]
      refine .bind (answering_always.node trivial hcx hk hf hvs) ?_
      rintro ⟨ns, k⟩ ⟨ms, k'⟩ ⟨hns, hrest⟩
      refine .bind (answers_document hcx hrest) fun more more' hmore => .pure ?_
      rw [unplacedAll_append, unplacedAll_append, hns, hmore]
    · obtain ⟨_, _⟩ := u
      cases hu
      rw [readDocument_newline]
      exact answers_document hcx hvs
termination_by us.length
decreasing_by
  all_goals
    subst_vars
    first | exact ShorterThan.tail | exact ShorterThan.tail.drop

theorem SameKinds.goesOn {form : TokenKind → Bool} {ts us : List Token} (h : SameKinds ts us)
    (hts : GoesOn form ts) : GoesOn form us := by
  obtain ⟨n, t, more, rfl, hn, ht⟩ := hts.exists_cons
  obtain ⟨m, us, rfl, hm, h⟩ := h.uncons
  obtain ⟨u, us, rfl, hu, -⟩ := h.uncons
  exact ⟨hm.trans hn, hu ▸ ht⟩

/-- A stream that says the same is one with nothing added. -/
theorem SameKinds.padded {ts us : List Token} (h : SameKinds ts us) (s : Spot) :
    Padded s ts us := by
  induction ts generalizing us s with
  | nil =>
    obtain rfl := h.eq_nil
    exact .nil
  | cons t ts ih =>
    obtain ⟨u, us, rfl, hk, h⟩ := h.uncons
    exact .cons hk ⟨fun _ _ => h.goesOn, fun _ => h.goesOn⟩ (ih h _)

/-! ## Tags inside text -/

theorem answers_mapM {α β γ : Type} {R : List β → List γ → Prop} {f : α → Except ParseError β}
    {g : α → Except ParseError γ} (hnil : R [] [])
    (hcons : ∀ b c bs cs, R [b] [c] → R bs cs → R (b :: bs) (c :: cs)) (xs : List α)
    (h : ∀ x ∈ xs, Answers (fun b c => R [b] [c]) (f x) (g x)) :
    Answers R (xs.mapM f) (xs.mapM g) := by
  induction xs with
  | nil =>
    rw [List.mapM_nil, List.mapM_nil]
    exact .pure hnil
  | cons x xs ih =>
    obtain ⟨hx, hxs⟩ := List.forall_mem_cons.mp h
    rw [List.mapM_cons, List.mapM_cons]
    exact .bind hx fun b c hbc => .bind (ih hxs) fun bs cs hbs => .pure (hcons b c bs cs hbc hbs)

section Segments

variable {segments segments' : String → Location → Except ParseError (List Segment)}

/-- Two ways to cut text that are the same up to positions. -/
def CutAlike (segments segments' : String → Location → Except ParseError (List Segment)) : Prop :=
  ∀ raw loc loc', Answers (fun ss ss' => unplacedSegments ss' = unplacedSegments ss)
    (segments raw loc) (segments' raw loc')

theorem CutAlike.alike (h : CutAlike segments segments') (stop stop' : Location) (inMixin : Bool) :
    TreeContext.Alike ⟨stop, inMixin, segments⟩ ⟨stop', inMixin, segments'⟩ :=
  ⟨rfl, h⟩

theorem answers_readTokens (hcut : CutAlike segments segments') {ts us : List Token}
    (h : Padded .line ts us) :
    Answers (fun ns ms => unplacedAll ms = unplacedAll ns) (readTokens segments ts)
      (readTokens segments' us) :=
  answers_document (hcut.alike _ _ false) (.of_line h)

theorem answers_nestedNode (hcut : CutAlike segments segments') (source : List Char)
    (loc loc' : Location) :
    Answers (fun n m : Node => m.unplaced = n.unplaced) (nestedNode segments source loc)
      (nestedNode segments' source loc') := by
  unfold nestedNode
  cases hlex : lexAt (String.ofList source) loc with
  | error e => exact .error
  | ok ts =>
    obtain ⟨us, hus, hkinds⟩ := sameKinds_lexAt hlex loc'
    rw [hus]
    refine .bind (answers_readTokens hcut (hkinds.padded .line)) fun ns ms hns => ?_
    match ns, ms, hns with
    | [], [], _ => exact .pure rfl
    | [n], [m], hns => exact .pure (List.cons.inj hns).1
    | n :: n' :: ns, m :: m' :: ms, hns => exact .pure (congrArg (Node.group .nowhere) hns)
    | [], _ :: _, hns | _ :: _, [], hns => cases hns
    | [_], _ :: _ :: _, hns | _ :: _ :: _, [_], hns => cases (List.cons.inj hns).2

theorem unplacedSegments_cons (s : Segment) (ss : List Segment) :
    unplacedSegments (s :: ss) = unplacedSegments [s] ++ unplacedSegments ss := by
  cases s <;> rfl

theorem answers_segmentOf (hcut : CutAlike segments segments') (loc loc' : Location) (p : Piece) :
    Answers (fun s s' => unplacedSegments [s'] = unplacedSegments [s]) (segmentOf segments loc p)
      (segmentOf segments' loc' p) := by
  cases p with
  | literal text => exact .pure rfl
  | output offset escape source =>
    exact .bind_eq (answers_atLocation _ _ _ _) fun _ => .pure rfl
  | tag offset source =>
    refine (answers_nestedNode hcut source _ _).map fun n m h => ?_
    simp only [unplacedSegments, h]
  | broken offset failure => exact .error

end Segments

/-- The segments of a text do not depend on where it stands. -/
theorem cutAlike_segmentsAt : CutAlike segmentsAt segmentsAt := by
  refine segmentsAt_of_pieces
    (motive := fun _ cut => ∀ loc loc',
      Answers (fun ss ss' => unplacedSegments ss' = unplacedSegments ss) (cut loc) (cut loc'))
    (fun _ _ _ => .pure rfl) fun segments hs raw loc loc' => ?_
  refine answers_mapM (R := fun ss ss' => unplacedSegments ss' = unplacedSegments ss) rfl
    (fun b c bs cs hbc hbs => ?_) _ fun p _ => answers_segmentOf hs loc loc' p
  rw [unplacedSegments_cons, unplacedSegments_cons b, hbc, hbs]

/-- The tree of a padded stream is that of the stream. -/
theorem answers_parseTokens {ts us : List Token} (h : Padded .line ts us) :
    Answers (fun ns ms => unplacedAll ms = unplacedAll ns) (parseTokens ts) (parseTokens us) :=
  answers_readTokens cutAlike_segmentsAt h

end PugTemplate
