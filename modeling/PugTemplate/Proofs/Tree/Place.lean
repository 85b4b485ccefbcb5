import PugTemplate.Proofs.Basic
import PugTemplate.Proofs.Lex.Place
import PugTemplate.Proofs.Tree.Forecast
import PugTemplate.Tree.Segment

/-!
# Where trees fail to be read

A tag inside text is within one line, so whatever fails in it stands in that line. A whole text may
be joined of several lines, and then the columns of what fails in it count on from the first one: they
are columns of the source as far as that line reaches.
-/

namespace PugTemplate

theorem Forecast.parsing_mono {S T : Forecast} (h : ∀ e, S.fails e → T.fails e) {α : Type}
    {p : α → Prop} {x : Except ParseError α} (hx : S.parsing.always x p) : T.parsing.always x p :=
  ⟨hx.1, fun e he => h e (hx.2 e he)⟩

/-! ## In one line -/

/-- Tokens and failures that stand in one line before some column, with all they print. -/
def alongLine (base : Location) (limit : Nat) : Forecast where
  knows t := t.kind ≠ .newline ∧ ∃ k ≤ limit, t.loc = base.right k ∧
    ∀ s, t.kind.printed? = some s → k + byteLength s.toList ≤ limit
  fails e := ∃ k ≤ limit, e.loc = base.right k
  reports _ h _ _ := by
    obtain ⟨-, k, hk, hloc, -⟩ := h
    exact ⟨k, hk, hloc⟩

theorem place_alongLine (base : Location) {limit k : Nat} (h : k ≤ limit) :
    (alongLine base limit).Place (base.right k) :=
  ⟨⟨.eos, _⟩, ⟨nofun, k, h, rfl, nofun⟩, rfl⟩

theorem right_right (base : Location) (m n : Nat) : (base.right m).right n = base.right (m + n) := by
  simp [Location.right, Nat.add_assoc]

/-- What fails behind some column of a line fails in that line. -/
theorem fails_alongLine {base : Location} {limit k n : Nat} (h : k + n ≤ limit) {e : ParseError}
    (he : (alongLine (base.right k) n).fails e) : (alongLine base limit).fails e := by
  obtain ⟨j, hj, hloc⟩ := he
  exact ⟨k + j, Nat.le_trans (Nat.add_le_add_left hj k) h, hloc.trans (right_right base k j)⟩

namespace Cursor

/-- In a text of one line, a place is as far to the right as the text in front of it is long. -/
theorem Reaches.along {text : List Char} {base : Location} (hfeed : '\n' ∉ text) {d : Cursor}
    (h : (⟨text, base⟩ : Cursor).Reaches d) :
    ∃ before, text = before ++ d.rest ∧ d.loc = base.right (byteLength before) := by
  obtain ⟨n, rfl⟩ := h
  refine ⟨text.take n, (List.take_append_drop n text).symm, ?_⟩
  exact Location.afterText_of_no_feed (fun hm => hfeed (List.mem_of_mem_take hm)) base

end Cursor

/-- A token of a text of one line. -/
theorem knows_alongLine {text : List Char} {base : Location} (hfeed : '\n' ∉ text)
    {ts : List Token} {d : Cursor} (h : Cursor.Trail ⟨text, base⟩ ts d) {t : Token} (ht : t ∈ ts) :
    (alongLine base (byteLength text)).knows t := by
  obtain ⟨m, hm, hloc, ⟨lead, hlead, hbegins⟩, hline⟩ := h.exists_reaches ht
  obtain ⟨before, htext, hthere⟩ := hm.along hfeed
  have hlen : byteLength text = byteLength before + byteLength m.rest := by
    rw [htext, byteLength_append]
  refine ⟨fun hn => ?_, byteLength before, by omega, hloc.trans hthere, fun s hs => ?_⟩
  · have hlt := hline hn
    rw [hthere] at hlt
    exact Nat.lt_irrefl _ hlt
  · obtain rfl : lead = s.toList := by
      cases hk : t.kind <;> simp_all [TokenKind.printed?, TokenKind.leads]
    obtain ⟨rest, hrest⟩ := hbegins
    rw [hlen, ← hrest, byteLength_append]
    omega

variable {segments : String → Location → Except ParseError (List Segment)}

/-- The stop of a stream is where its last token stands. -/
theorem Forecast.Stretch.place_stop {S : Forecast} {ts : List Token} (h : S.Stretch [] ts) :
    S.Place ((ts.getLast?.map Token.loc).getD .nowhere) := by
  have hlast := List.getLast?_eq_some_getLast h.ne_nil
  rw [hlast]
  exact ⟨_, h.known _ (List.getLast_mem h.ne_nil), rfl⟩

/-- A text that is printed in one line is cut so that failures stand in that line. -/
def CutsLine (segments : String → Location → Except ParseError (List Segment)) : Prop :=
  ∀ raw loc, Printed raw.toList →
    (alongLine loc (byteLength raw.toList)).parsing.always (segments raw loc) fun _ => True

theorem alongLine_nestedNode (hs : CutsLine segments) {source : List Char} (hfeed : '\n' ∉ source)
    (base : Location) :
    (alongLine base (byteLength source)).parsing.always (nestedNode segments source base)
      fun _ => True := by
  have hreads := reads_lexAt (String.ofList source) base
  rw [String.toList_ofList] at hreads
  unfold nestedNode
  split
  next e he =>
    obtain ⟨d, hd, hloc⟩ := hreads.of_error he
    obtain ⟨before, htext, hthere⟩ := hd.along hfeed
    refine Forecast.parsing_failure ⟨byteLength before, ?_, hloc.trans hthere⟩
    rw [htext, byteLength_append]
    exact Nat.le_add_right _ _
  next tokens hlex =>
    have hstretch : (alongLine base (byteLength source)).Stretch [] tokens :=
      ⟨Layout.stream_tokens Layout.nested_empty hlex,
        fun t ht => knows_alongLine hfeed (hreads.of_ok hlex) ht⟩
    have hcuts : (alongLine base (byteLength source)).Cuts
        ⟨(tokens.getLast?.map Token.loc).getD .nowhere, false, segments⟩ := by
      refine ⟨hstretch.place_stop, fun t raw ht hprints => ?_⟩
      obtain ⟨first, more, hfirst, hraw, hlines, hmore⟩ := hprints
      -- no line ends inside the line
      obtain rfl : more = [] := by
        refine Decidable.byContradiction fun hne => ?_
        obtain ⟨u, hu, hnewline⟩ := hmore hne
        exact hu.1 hnewline
      obtain ⟨-, k, hk, hloc, hprinted⟩ := ht
      rw [joined, List.flatMap_nil, List.append_nil] at hraw
      rw [hloc]
      refine Forecast.parsing_mono (fun e => fails_alongLine ?_)
        (hs raw _ (hraw ▸ hlines _ List.mem_cons_self))
      rw [hraw]
      exact hprinted first hfirst
    refine (alongLine base _).parsing.bind (Forecast.parsing_document hcuts hstretch) fun ns _ => ?_
    split <;> exact (alongLine base _).parsing.pure trivial

theorem alongLine_segmentOf (hs : CutsLine segments) {limit : Nat} {loc : Location} {piece : Piece}
    (hpiece : piece.Within limit) :
    (alongLine loc limit).parsing.always (segmentOf segments loc piece) fun _ => True := by
  cases piece with
  | literal text => exact (alongLine loc limit).parsing.pure trivial
  | output offset escape source =>
    exact (alongLine loc limit).parsing.bind
      (Forecast.parsing_atLocation (place_alongLine loc hpiece) _ _) fun _ _ =>
        (alongLine loc limit).parsing.pure trivial
  | tag offset source =>
    refine Forecast.parsing_map (Forecast.parsing_mono (fun e => fails_alongLine hpiece.1) ?_)
    exact alongLine_nestedNode hs hpiece.2 _
  | broken offset failure => exact hpiece.elim

/-- What fails in a text of printed lines fails behind its beginning, no further than it is long. -/
theorem alongLine_segmentsAt {raw : String} {first : List Char} {more : List (List Char)}
    (hraw : raw.toList = first ++ joined more) (hlines : ∀ line ∈ first :: more, Printed line)
    (loc : Location) :
    (alongLine loc (byteLength raw.toList)).parsing.always (segmentsAt raw loc) fun _ => True := by
  refine segmentsAt_of_pieces
    (motive := fun raw cut => ∀ first more, raw.toList = first ++ joined more →
      (∀ line ∈ first :: more, Printed line) → ∀ loc,
        (alongLine loc (byteLength raw.toList)).parsing.always (cut loc) fun _ => True)
    (fun _ _ _ _ _ loc => (alongLine loc _).parsing.pure trivial)
    (fun segments hs raw first more hraw hlines loc => ?_) raw first more hraw hlines loc
  -- the text of a tag is in one line
  have hinner : CutsLine segments := fun inner at_ hp =>
    hs inner inner.toList [] (List.append_nil _).symm (List.forall_mem_singleton.mpr hp) at_
  obtain ⟨hfirst, hmore⟩ := List.forall_mem_cons.mp hlines
  refine Forecast.parsing_mapM _ fun piece hpiece => alongLine_segmentOf hinner ?_
  rw [hraw] at hpiece ⊢
  exact Piece.within_split hfirst hmore (Nat.le_of_eq (Nat.zero_add _)) piece hpiece

/-! ## In the source -/

/-- A failure in a later one of the lines that a text is joined of. -/
def ParseError.InLaterLine (e : ParseError) (tokens : List Token) : Prop :=
  ∃ t ∈ tokens, ∃ first more raw j, t.kind.printed? = some first ∧
    raw.toList = first.toList ++ joined more ∧ segmentsAt raw t.loc = .error e ∧
    e.loc = t.loc.right j ∧ byteLength first.toList < j ∧ j ≤ byteLength raw.toList

/-- A position to the left of one in a text. -/
theorem Location.In.of_right {loc : Location} {text : List Char} {k n : Nat}
    (h : (loc.right n).In text) (hk : k ≤ n) (hc : 1 ≤ loc.column) : (loc.right k).In text := by
  obtain ⟨line, hline, hfield, -, hhigh⟩ := h
  refine ⟨line, hline, hfield, Nat.le_trans hc (Nat.le_add_right _ _), ?_⟩
  exact Nat.le_trans (Nat.add_le_add_left hk _) hhigh

/-- Tokens that are kept of a source; failures are in the source, or in a later line of a text. -/
def inSource (text : List Char) (tokens : List Token) : Forecast where
  knows t := t ∈ tokens ∧ ∃ offset, t.StandsAt text offset
  fails e := e.loc.In text ∨ e.InLaterLine tokens
  reports _ h _ _ := by
    obtain ⟨-, offset, before, rest, htext, -, hloc, -⟩ := h
    refine .inl (hloc ▸ Location.behind_in ⟨rest, htext.symm⟩)

theorem cuts_inSource {text : List Char} {tokens : List Token} {stop : Location}
    (hstop : (inSource text tokens).Place stop) :
    (inSource text tokens).Cuts ⟨stop, false, segmentsAt⟩ := by
  refine ⟨hstop, fun t raw ⟨ht, hstands⟩ ⟨first, more, hfirst, hraw, hlines, _⟩ =>
    ⟨fun _ _ => trivial, fun e he => ?_⟩⟩
  obtain ⟨j, hj, hloc⟩ := (alongLine_segmentsAt hraw hlines t.loc).2 e he
  by_cases hin : j ≤ byteLength first.toList
  · -- the first line stands in the source as it is
    left
    obtain ⟨offset, before, rest, htext, -, hthere, lead, hlead, more', hrest⟩ := hstands
    obtain rfl : lead = first.toList := by
      cases hk : t.kind <;> simp_all [TokenKind.printed?, TokenKind.leads]
    have hend : (t.loc.right (byteLength first.toList)).In text := by
      rw [hthere, ← Location.afterText_of_no_feed (hlines _ List.mem_cons_self).oneLine,
        ← Location.afterText_start, ← Location.afterText_append, Location.afterText_start]
      exact Location.behind_in ⟨more', by rw [htext, ← hrest, List.append_assoc]⟩
    rw [hloc]
    refine hend.of_right hin ?_
    rw [hthere]
    exact Nat.le_add_right 1 _
  · exact .inr ⟨t, ht, first, more, raw, j, hfirst, hraw, he, hloc, Nat.lt_of_not_le hin, hj⟩

/-- A failure of the tree of a source stands in the source, unless it lies in a later line of a text
that is joined of several: there the column counts on from the first of its lines. -/
theorem parse_error_in {source : String} {tokens kept : List Token} {policy : CommentPolicy}
    {e : ParseError} (hlex : lex source = .ok tokens) (hkept : policy.strip tokens = .ok kept)
    (he : parseTokens kept = .error e) :
    e.loc.In (normalize source.toList) ∨ e.InLaterLine kept := by
  have hstream : TokenStream [] kept := by
    obtain ⟨kept', hstrip, hs⟩ :=
      CommentPolicy.exists_strip (p := policy) (Layout.stream_tokens Layout.nested_empty hlex)
    cases hkept.symm.trans hstrip
    exact hs
  have hstretch : (inSource (normalize source.toList) kept).Stretch [] kept := by
    refine ⟨hstream, fun t ht => ⟨ht, ?_⟩⟩
    have htokens := (CommentPolicy.strip_sublist hkept).subset ht
    obtain ⟨m, hm, hloc, hbegins, -⟩ := ((reads_lex source).of_ok hlex).exists_reaches htokens
    obtain ⟨before, htext, hthere⟩ :=
      (Cursor.standsBehind_start (normalize source.toList)).reaches hm
    exact ⟨_, _, m.rest, htext, rfl, hloc.trans hthere, hbegins⟩
  exact (Forecast.parsing_document (cuts_inSource hstretch.place_stop) hstretch).2 e he

namespace PipedSource

def source : String := "| a\n| #{+}"

def tokens : List Token :=
  [⟨.text "a", ⟨1, 3⟩⟩, ⟨.newline, ⟨2, 1⟩⟩, ⟨.text "#{+}", ⟨2, 3⟩⟩, ⟨.eos, ⟨2, 7⟩⟩]

def failure : ParseError := ⟨.invalidExpression "+" .unexpectedEnd, ⟨1, 5⟩⟩

theorem lex_source : lex source = .ok tokens :=
  eq_ok_of_toOption (by decide +kernel)

theorem strip_tokens : CommentPolicy.strip {} tokens = .ok tokens := rfl

theorem read_plus : Expr.read ['+'] = .error ⟨.unexpectedEnd, 1⟩ := by
  have hplus : isBlank '+' = false ∧ isNameStart '+' = false := by decide
  have hmark : Punct.ofStart? ['+'] = some .plus := by decide
  have hlexemes (inner : List Char → Except ExprError Expr) :
      Lexeme.readAll inner 0 ['+'] = .ok [⟨.punct .plus, 0⟩] := by
    simp [Lexeme.readAll, Lexeme.read, hplus, hmark, bind, Except.bind, pure, Except.pure]
  -- nothing stands behind the sign, where its operand is read
  have hoperand : Expr.readUnary 1 [] = .error ⟨.unexpectedEnd, 1⟩ := by
    rw [Expr.readUnary, Expr.readPrimary]
    rfl
  have hsign : Expr.readUnary 1 [⟨.punct .plus, 0⟩] = .error ⟨.unexpectedEnd, 1⟩ := by
    rw [Expr.readUnary]
    simp [Expr.unary?, hoperand, bind, Except.bind]
  have hlevels : Expr.readLevel 1 Level.table [⟨.punct .plus, 0⟩] = .error ⟨.unexpectedEnd, 1⟩ := by
    simp [Expr.readLevel, Level.table, hsign, bind, Except.bind]
  rw [Expr.read, Expr.readWith, hlexemes]
  show Expr.readTernary 1 _ >>= _ = _
  rw [Expr.readTernary, hlevels]
  rfl

theorem segmentsAt_text : segmentsAt "a\n#{+}" ⟨1, 3⟩ = .error failure := by
  have hs : Piece.split 0 "a\n#{+}".toList = [.literal ['a', '\n'], .output 2 true ['+']] := by
    decide +kernel
  rw [segmentsAt, hs, List.mapM_cons, List.mapM_cons, List.mapM_nil]
  simp [segmentOf, expressionAt, read_plus, bind, Except.bind, pure, Except.pure]
  rfl

theorem parse_tokens : parseTokens tokens = .error failure := by
  simp only [tokens, parseTokens, readTokens, readDocument, Node.read, textRun, TreeContext.textNode]
  simp [segmentsAt_text, bind, Except.bind]

end PipedSource

theorem parse_error_in_piped :
    lex PipedSource.source = .ok PipedSource.tokens ∧
      CommentPolicy.strip {} PipedSource.tokens = .ok PipedSource.tokens ∧
      parseTokens PipedSource.tokens = .error PipedSource.failure ∧
      (PipedSource.failure.loc.In (normalize PipedSource.source.toList) ∨
        PipedSource.failure.InLaterLine PipedSource.tokens) :=
  ⟨PipedSource.lex_source, PipedSource.strip_tokens, PipedSource.parse_tokens,
    parse_error_in PipedSource.lex_source PipedSource.strip_tokens PipedSource.parse_tokens⟩

/-- The failure is in the second line, but it is reported in the first one, which is not that long. -/
theorem parse_error_not_in_source :
    ¬ ∀ (source : String) (policy : CommentPolicy) (tokens kept : List Token) (e : ParseError),
      lex source = .ok tokens → policy.strip tokens = .ok kept → parseTokens kept = .error e →
        e.loc.In (normalize source.toList) := by
  intro h
  obtain ⟨line, -, hline, -, hcolumn⟩ := h _ _ _ _ _ PipedSource.lex_source
    PipedSource.strip_tokens PipedSource.parse_tokens
  have hfirst : (fields '\n' (normalize PipedSource.source.toList))[0]? = some "| a".toList := by
    decide +kernel
  cases hfirst.symm.trans hline
  exact absurd hcolumn (by decide +kernel)

end PugTemplate
