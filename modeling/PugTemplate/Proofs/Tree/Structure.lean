import PugTemplate.Proofs.Basic
import PugTemplate.Proofs.Tree.Forecast
import PugTemplate.Tree.Segment

/-!
# Trees of streams

No reader waits in vain for a mark that the lexer sets, neither in the stream of a source nor in that
of a tag inside text.
-/

namespace PugTemplate

def ParseCause.expected? : ParseCause → Option Expectation
  | unexpectedToken expected _ | unexpectedEnd expected => some expected
  | _ => none

def ParseError.isStructural (e : ParseError) : Bool :=
  e.cause.expected?.any Expectation.isStructural

/-- Nothing is known of single tokens, and no failure is structural. -/
def unstructural : Forecast where
  knows _ := True
  fails e := e.isStructural = false
  reports t _ cause h := by
    cases cause with
    | unexpectedToken expected | unexpectedEnd expected =>
      show expected.isStructural = false
      simpa [ParseCause.isOfToken] using h
    | _ => rfl

variable {segments : String → Location → Except ParseError (List Segment)}

theorem parsing_readTokens
    (hs : ∀ raw loc, unstructural.parsing.always (segments raw loc) fun _ => True)
    {tokens : List Token} (h : TokenStream [] tokens) :
    unstructural.parsing.always (readTokens segments tokens) fun _ => True :=
  Forecast.parsing_document ⟨⟨⟨.eos, _⟩, trivial, rfl⟩, fun t raw _ _ => hs raw t.loc⟩
    ⟨h, fun _ _ => trivial⟩

theorem parsing_nestedNode
    (hs : ∀ raw loc, unstructural.parsing.always (segments raw loc) fun _ => True)
    (source : List Char) (loc : Location) :
    unstructural.parsing.always (nestedNode segments source loc) fun _ => True := by
  unfold nestedNode
  split
  next => exact Forecast.parsing_failure rfl
  next tokens hlex =>
    have hstream : TokenStream [] tokens := Layout.stream_tokens Layout.nested_empty hlex
    refine unstructural.parsing.bind (parsing_readTokens hs hstream) fun ns _ => ?_
    split <;> exact unstructural.parsing.pure trivial

theorem parsing_segmentOf
    (hs : ∀ raw loc, unstructural.parsing.always (segments raw loc) fun _ => True)
    (loc : Location) (piece : Piece) :
    unstructural.parsing.always (segmentOf segments loc piece) fun _ => True := by
  have hplace (loc : Location) : unstructural.Place loc := ⟨⟨.eos, loc⟩, trivial, rfl⟩
  cases piece with
  | literal text => exact unstructural.parsing.pure trivial
  | output offset escape source =>
    exact unstructural.parsing.bind (Forecast.parsing_atLocation (hplace _) _ _) fun _ _ =>
      unstructural.parsing.pure trivial
  | tag offset source => exact Forecast.parsing_map (parsing_nestedNode hs _ _)
  | broken offset failure => exact Forecast.parsing_failure rfl

/-- Tags inside text are read without structural failures, however deep they lie. -/
theorem parsing_segmentsAt (raw : String) (loc : Location) :
    unstructural.parsing.always (segmentsAt raw loc) fun _ => True :=
  segmentsAt_of_pieces
    (motive := fun _ cut => ∀ loc, unstructural.parsing.always (cut loc) fun _ => True)
    (fun _ _ => unstructural.parsing.pure trivial)
    (fun _ hs _ loc => Forecast.parsing_mapM _ fun piece _ => parsing_segmentOf hs loc piece) raw loc

/-- What a source lexes to is left a stream by every policy, and no tree reader waits for a structure
that is not there: neither in that stream nor in the tags inside its text. -/
theorem strip_parse_unstructural {source : String} {tokens : List Token}
    (h : lex source = .ok tokens) (policy : CommentPolicy) :
    (∃ kept, policy.strip tokens = .ok kept ∧
      ∀ e, parseTokens kept = .error e → e.isStructural = false) ∧
    ∀ raw loc e, segmentsAt raw loc = .error e → e.isStructural = false := by
  have hstream : TokenStream [] tokens := Layout.stream_tokens Layout.nested_empty h
  obtain ⟨kept, hkept, hs⟩ := CommentPolicy.exists_strip (p := policy) hstream
  exact ⟨⟨kept, hkept, (parsing_readTokens parsing_segmentsAt hs).2⟩,
    fun raw loc => (parsing_segmentsAt raw loc).2⟩

namespace NotedSource

def source : String := "//- note\n  gone\nul(a=1)\n  include c"

/-- A comment with a block of text, an attribute list, and a reference inside a block. -/
def tokens : List Token :=
  [⟨.comment " note" false, ⟨1, 1⟩⟩, ⟨.pipelessStart, ⟨1, 9⟩⟩, ⟨.text "gone", ⟨2, 3⟩⟩,
    ⟨.pipelessEnd, ⟨2, 7⟩⟩, ⟨.newline, ⟨3, 1⟩⟩, ⟨.tag "ul", ⟨3, 1⟩⟩, ⟨.attributesStart, ⟨3, 3⟩⟩,
    ⟨.attr "a" (some "1") true, ⟨3, 4⟩⟩, ⟨.attributesEnd, ⟨3, 8⟩⟩, ⟨.indent 2, ⟨4, 3⟩⟩,
    ⟨.includes none, ⟨4, 3⟩⟩, ⟨.path "c", ⟨4, 11⟩⟩, ⟨.outdent, ⟨4, 12⟩⟩, ⟨.eos, ⟨4, 12⟩⟩]

theorem lex_source : lex source = .ok tokens :=
  eq_ok_of_toOption (by decide +kernel)

end NotedSource

theorem strip_parse_unstructural_note :
    lex NotedSource.source = .ok NotedSource.tokens ∧
      ∃ kept, CommentPolicy.strip {} NotedSource.tokens = .ok kept ∧
        ∀ e, parseTokens kept = .error e → e.isStructural = false :=
  ⟨NotedSource.lex_source, (strip_parse_unstructural NotedSource.lex_source {}).1⟩

end PugTemplate
