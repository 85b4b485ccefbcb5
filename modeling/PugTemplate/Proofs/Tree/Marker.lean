import PugTemplate.Proofs.Basic
import PugTemplate.Proofs.Text.Closed
import PugTemplate.Proofs.Tree.Forecast
import PugTemplate.Tree.Segment

/-!
# Markers of a tree

The lexer prints no line with a marker that is not closed in it. So the tree reader, which looks for
markers in lines that are joined and in tags inside text, never finds one that is not.
-/

namespace PugTemplate

/-- A failure that names a marker in text. -/
def ParseError.IsMarker (e : ParseError) : Prop :=
  e.cause.message = "mismatched bracket in interpolation" ∨
    e.cause.message = "unterminated interpolation"

/-- A text that begins with another letter than the messages of markers. -/
def beginsApart (s : String) : Bool :=
  s.toList.head?.any fun a => a != 'm' && a != 'u'

theorem beginsApart_append {s : String} (h : beginsApart s) (t : String) :
    beginsApart (s ++ t) := by
  unfold beginsApart at *
  rw [String.toList_append, List.head?_append]
  cases hs : s.toList.head? with
  | none =>
    rw [hs] at h
    cases h
  | some a =>
    rw [hs] at h
    exact h

theorem LexCause.beginsApart_code (c : LexCause) : beginsApart c.code := by
  unfold code
  split <;> simp [beginsApart]

theorem ParseCause.beginsApart_message {c : ParseCause} (h : ∀ v, c ≠ .brokenMarker v) :
    beginsApart c.message := by
  cases c with
  | brokenMarker v => exact absurd rfl (h v)
  | nestedText error =>
    show beginsApart error.message
    unfold LexError.message
    iterate 6 refine beginsApart_append ?_ _
    exact error.cause.beginsApart_code
  | unexpectedToken expected found | invalidExpression source cause | invalidParam source fault =>
    iterate 3 refine beginsApart_append ?_ _
    simp [beginsApart]
  | unexpectedEnd expected | duplicateAttribute name | selfClosingContent tag =>
    iterate 2 refine beginsApart_append ?_ _
    simp [beginsApart]
  | elseWithCondition | slotOutsideMixin | codeWithBlock | strayElse =>
    unfold message
    simp [beginsApart]

/-- Only a marker that is not closed has a message that names one. -/
theorem ParseError.isMarker_iff (e : ParseError) :
    e.IsMarker ↔ ∃ v, e.cause = .brokenMarker v := by
  constructor
  · intro h
    refine Classical.byContradiction fun hnone => ?_
    have hapart := ParseCause.beginsApart_message fun v hv => hnone ⟨v, hv⟩
    obtain h | h := h
    · simp [h, beginsApart] at hapart
    · simp [h, beginsApart] at hapart
  · rintro ⟨v, hv⟩
    unfold IsMarker
    rw [hv]
    cases v with
    | mismatch => exact .inl rfl
    | unterminated | feedInString => exact .inr rfl

/-- Nothing is known of single tokens, and no failure names a marker. -/
def unmarked : Forecast where
  knows _ := True
  fails e := ¬ e.IsMarker
  reports t _ cause h := by
    rw [ParseError.isMarker_iff]
    rintro ⟨v, hv⟩
    obtain rfl : cause = .brokenMarker v := hv
    cases h

/-- A way to cut text that names a marker only where a line of the text is not closed. -/
def Trusting (segments : String → Location → Except ParseError (List Segment)) : Prop :=
  ∀ raw loc, LinesClosed raw.toList → unmarked.parsing.always (segments raw loc) fun _ => True

variable {segments : String → Location → Except ParseError (List Segment)}

theorem unmarked_readTokens (hs : Trusting segments) {tokens : List Token}
    (h : TokenStream [] tokens) :
    unmarked.parsing.always (readTokens segments tokens) fun _ => True := by
  refine Forecast.parsing_document ⟨⟨⟨.eos, _⟩, trivial, rfl⟩, fun t raw _ hprints => ?_⟩
    ⟨h, fun _ _ => trivial⟩
  obtain ⟨first, more, -, hraw, hlines, -⟩ := hprints
  exact hs raw t.loc (linesClosed_iff.mpr ⟨_, more, hraw, hlines⟩)

theorem unmarked_nestedNode (hs : Trusting segments) (source : List Char) (loc : Location) :
    unmarked.parsing.always (nestedNode segments source loc) fun _ => True := by
  unfold nestedNode
  split
  next e _ =>
    refine Forecast.parsing_failure fun h => ?_
    obtain ⟨v, hv⟩ := (ParseError.isMarker_iff _).mp h
    cases hv
  next tokens hlex =>
    have hstream : TokenStream [] tokens := Layout.stream_tokens Layout.nested_empty hlex
    refine unmarked.parsing.bind (unmarked_readTokens hs hstream) fun ns _ => ?_
    split <;> exact unmarked.parsing.pure trivial

theorem unmarked_segmentOf (hs : Trusting segments) (loc : Location) {limit : Nat} {piece : Piece}
    (h : piece.Within limit) :
    unmarked.parsing.always (segmentOf segments loc piece) fun _ => True := by
  cases piece with
  | literal text => exact unmarked.parsing.pure trivial
  | output offset escape source =>
    exact unmarked.parsing.bind (Forecast.parsing_atLocation ⟨⟨.eos, _⟩, trivial, rfl⟩ _ _)
      fun _ _ => unmarked.parsing.pure trivial
  | tag offset source => exact Forecast.parsing_map (unmarked_nestedNode hs _ _)
  | broken offset failure => exact h.elim

/-- The pieces of a text whose lines are closed. -/
theorem unmarked_pieces (hs : Trusting segments) {raw : List Char} (h : LinesClosed raw)
    (loc : Location) :
    unmarked.parsing.always ((Piece.split 0 raw).mapM (segmentOf segments loc)) fun _ => True := by
  obtain ⟨first, more, rfl, hlines⟩ := linesClosed_iff.mp h
  obtain ⟨hfirst, hmore⟩ := List.forall_mem_cons.mp hlines
  refine Forecast.parsing_mapM _ fun piece hpiece => ?_
  have hwithin := Piece.within_split hfirst hmore (Nat.le_of_eq (Nat.zero_add _)) piece hpiece
  exact unmarked_segmentOf hs loc hwithin

theorem trusting_segmentsAt : Trusting segmentsAt :=
  segmentsAt_of_pieces
    (motive := fun raw cut => ∀ loc, LinesClosed raw.toList →
      unmarked.parsing.always (cut loc) fun _ => True)
    (fun _ _ _ => unmarked.parsing.pure trivial) fun _ hs _ loc h => unmarked_pieces hs h loc

/-- No tree of a source fails for a marker that is not closed. Whatever way to cut text is given, and
however it treats text that is not closed line by line, it is given none: neither text of the stream,
nor text of a tag inside text that is closed. -/
theorem parse_unmarked {source : String} {tokens : List Token} (hlex : lex source = .ok tokens)
    (policy : CommentPolicy) :
    ∃ kept, policy.strip tokens = .ok kept ∧
      (∀ e, parseTokens kept = .error e → ¬ e.IsMarker) ∧
      ∀ segments, Trusting segments →
        (∀ e, readTokens segments kept = .error e → ¬ e.IsMarker) ∧
        ∀ raw loc e, LinesClosed raw →
          (Piece.split 0 raw).mapM (segmentOf segments loc) = .error e → ¬ e.IsMarker := by
  have hstream : TokenStream [] tokens := Layout.stream_tokens Layout.nested_empty hlex
  obtain ⟨kept, hkept, hs⟩ := CommentPolicy.exists_strip (p := policy) hstream
  refine ⟨kept, hkept, (unmarked_readTokens trusting_segmentsAt hs).2, fun segments ht => ⟨?_, ?_⟩⟩
  · exact (unmarked_readTokens ht hs).2
  · intro raw loc e hraw
    exact (unmarked_pieces ht hraw loc).2 e

namespace MarkedSource

/-- Lines that are joined: a tag inside text, which holds a value, and a marker that is plain text. -/
def source : String := "| a #[b #\x7bc\x7d]\n| \\#[ d\n//- e"

def tokens : List Token :=
  [⟨.text "a #[b #\x7bc\x7d]", ⟨1, 3⟩⟩, ⟨.newline, ⟨2, 1⟩⟩, ⟨.text "\\#[ d", ⟨2, 3⟩⟩,
    ⟨.newline, ⟨3, 1⟩⟩, ⟨.comment " e" false, ⟨3, 1⟩⟩, ⟨.eos, ⟨3, 6⟩⟩]

theorem lex_source : lex source = .ok tokens :=
  eq_ok_of_toOption (by decide +kernel)

end MarkedSource

theorem parse_unmarked_joined :
    lex MarkedSource.source = .ok MarkedSource.tokens ∧
      ∃ kept, CommentPolicy.strip {} MarkedSource.tokens = .ok kept ∧
        ∀ e, parseTokens kept = .error e → ¬ e.IsMarker := by
  obtain ⟨kept, hkept, hparse, -⟩ := parse_unmarked MarkedSource.lex_source {}
  exact ⟨MarkedSource.lex_source, kept, hkept, hparse⟩

end PugTemplate
