import PugTemplate.Proofs.Render.Unplaced
import PugTemplate.Proofs.Tree.Comment
import PugTemplate.Template.Basic

/-!
# Comments that are not shown

A comment in a line of its own, in front of a line and at its indentation, changes neither the tree of
a template nor its pages, unless its line end parts what would be read as one.
-/

namespace PugTemplate

open Layout (BeginsLine)

section

variable {source source' : String} {before indent shown note : List Char} {ts more : List Token}
  {m : Layout} {options : Options}

/-- The tree of a source with a comment in front of one of its lines. -/
theorem answers_parseSource_comment
    (hline : BeginsLine (normalize source.toList) before indent shown ts m) (hnote : '\n' ∉ note)
    (hsource : normalize source'.toList =
      before ++ (indent ++ (commentLine note ++ (indent ++ shown))))
    (hlex : lex source = .ok (ts ++ more)) (hparts : options.comments.Parts ts more)
    (hp : options.comments.dropUnbuffered) :
    Answers (fun ns ms => unplacedAll ms = unplacedAll ns) (parseSource options source)
      (parseSource options source') := by
  have htext (source : String) : lex source =
      Layout.empty.tokens (Layout.skipLeading ⟨normalize source.toList, .start⟩) := by
    rw [lex, lexAt, normalizeText, String.toList_ofList]
  rw [htext] at hlex
  obtain ⟨-, -, more', -, -, heq, us, at_, loc, vs, hvs, hts, hmore⟩ := hline.tokens hnote hlex
  obtain rfl : more = more' := List.append_cancel_left heq
  rw [← hsource, ← htext] at hvs
  rw [← htext] at hlex
  intro ns hns
  unfold parseSource at hns ⊢
  rw [hlex] at hns
  rw [hvs]
  dsimp only [Except.bind] at hns ⊢
  cases hkept : options.comments.strip (ts ++ more) with
  | error e =>
    rw [hkept] at hns
    cases hns
  | ok kept =>
    obtain ⟨kept', hkept', hpadded⟩ :=
      CommentPolicy.padded_strip hp hparts (hline.passes options.comments) hts hmore hkept
    rw [hkept] at hns
    rw [hkept']
    dsimp only at hns ⊢
    split at hns
    next => cases hns
    next nodes hnodes =>
      cases hns
      obtain ⟨ms, hms, hsame⟩ := answers_parseTokens hpadded _ hnodes
      exact ⟨ms, by rw [hms], hsame⟩

/-- A source that compiles does so with a comment in front of one of its lines, to the same tree up to
positions, which gives the same pages. -/
theorem linkSource_comment {set : TemplateSet} {path : String} {linked : Linked}
    (hline : BeginsLine (normalize source.toList) before indent shown ts m) (hnote : '\n' ∉ note)
    (hsource : normalize source'.toList =
      before ++ (indent ++ (commentLine note ++ (indent ++ shown))))
    (hlex : lex source = .ok (ts ++ more)) (hparts : options.comments.Parts ts more)
    (hp : options.comments.dropUnbuffered)
    (hok : Template.linkSource set options path source = .ok linked) :
    ∃ linked', Template.linkSource set options path source' = .ok linked' ∧
      linked'.unplaced = linked.unplaced ∧
      ∀ (data : Value) (filters : Filters),
        (render linked' data options filters).mapError RenderError.unplaced =
          (render linked data options filters).mapError RenderError.unplaced := by
  unfold Template.linkSource at hok ⊢
  split at hok
  next => cases hok
  next nodes hnodes =>
    obtain ⟨nodes', hnodes', hsame⟩ :=
      answers_parseSource_comment hline hnote hsource hlex hparts hp _ hnodes
    split at hok
    next => cases hok
    next hlinked =>
      cases hok
      obtain ⟨linked', hlinked', hunplaced⟩ := answers_link set options path hsame _ hlinked
      refine ⟨linked', ?_, hunplaced, fun data filters => render_congr hunplaced data options filters⟩
      rw [hnodes']
      dsimp only
      rw [hlinked']

end

namespace PipedLines

def source : String := "| a\n| b"

/-- With a comment in front of the first line. -/
def headed : String := "//- c\n| a\n| b"

/-- With a comment between the lines. -/
def parted : String := "| a\n//- c\n| b"

def tokens : List Token :=
  [⟨.text "a", ⟨1, 3⟩⟩, ⟨.newline, ⟨2, 1⟩⟩, ⟨.text "b", ⟨2, 3⟩⟩, ⟨.eos, ⟨2, 4⟩⟩]

def partedTokens : List Token :=
  [⟨.text "a", ⟨1, 3⟩⟩, ⟨.newline, ⟨2, 1⟩⟩, ⟨.newline, ⟨3, 1⟩⟩, ⟨.text "b", ⟨3, 3⟩⟩, ⟨.eos, ⟨3, 4⟩⟩]

def nodes : List Node :=
  [.text ⟨1, 3⟩ "a\nb" [.literal "a\nb"]]

def partedNodes : List Node :=
  [.text ⟨1, 3⟩ "a" [.literal "a"], .text ⟨3, 3⟩ "b" [.literal "b"]]

theorem lex_source : lex source = .ok tokens :=
  eq_ok_of_toOption (by decide +kernel)

theorem strip_source : (lex source).bind (CommentPolicy.strip {}) = .ok tokens := by
  rw [lex_source]
  rfl

theorem strip_parted : (lex parted).bind (CommentPolicy.strip {}) = .ok partedTokens :=
  eq_ok_of_toOption (by decide +kernel)

theorem segmentsAt_literal {s : String} (h : Piece.split 0 s.toList = [.literal s.toList])
    (loc : Location) : segmentsAt s loc = .ok [.literal s] := by
  rw [segmentsAt, h, List.mapM_cons, List.mapM_nil]
  simp [segmentOf, bind, Except.bind, pure, Except.pure]

theorem parse_source : parseTokens tokens = .ok nodes := by
  have hsegments : segmentsAt "a\nb" ⟨1, 3⟩ = .ok [.literal "a\nb"] :=
    segmentsAt_literal (by simp [Piece.split, Piece.marker?, Piece.prependLiteral]) _
  simp [tokens, nodes, parseTokens, readTokens, readDocument, Node.read, textRun,
    TreeContext.textNode, hsegments, bind, Except.bind, pure, Except.pure]

theorem parse_parted : parseTokens partedTokens = .ok partedNodes := by
  have hfirst : segmentsAt "a" ⟨1, 3⟩ = .ok [.literal "a"] :=
    segmentsAt_literal (by simp [Piece.split, Piece.marker?, Piece.prependLiteral]) _
  have hlast : segmentsAt "b" ⟨3, 3⟩ = .ok [.literal "b"] :=
    segmentsAt_literal (by simp [Piece.split, Piece.marker?, Piece.prependLiteral]) _
  simp [partedTokens, partedNodes, parseTokens, readTokens, readDocument, Node.read, textRun,
    TreeContext.textNode, hfirst, hlast, bind, Except.bind, pure, Except.pure]

theorem linkSource_eq {source : String} {tokens : List Token} {nodes : List Node}
    (hstrip : (lex source).bind (CommentPolicy.strip {}) = .ok tokens)
    (hparse : parseTokens tokens = .ok nodes) (hlink : link [] {} "p" nodes = .ok ⟨nodes, []⟩) :
    Template.linkSource [] {} "p" source = .ok ⟨nodes, []⟩ := by
  have hnodes : parseSource {} source = .ok nodes := by
    unfold parseSource
    rw [hstrip]
    dsimp only
    rw [hparse]
  unfold Template.linkSource
  rw [hnodes]
  dsimp only
  rw [hlink]

theorem linkSource_source : Template.linkSource [] {} "p" source = .ok ⟨nodes, []⟩ := by
  refine linkSource_eq strip_source parse_source ?_
  rw [link, Linking.linkTree]
  rfl

theorem linkSource_parted : Template.linkSource [] {} "p" parted = .ok ⟨partedNodes, []⟩ := by
  refine linkSource_eq strip_parted parse_parted ?_
  rw [link, Linking.linkTree]
  rfl

theorem parts_source : CommentPolicy.Parts {} [] tokens := by
  intro kept rest hkept hrest
  cases hkept
  cases hrest
  refine ⟨⟨fun t ht => ?_, fun h => nomatch h.1⟩, fun ⟨before, t, n, h, _⟩ => ?_⟩
  · cases ht
    exact ⟨rfl, nofun⟩
  · simp at h

theorem begins_second : BeginsLine (normalize source.toList) ("| a".toList ++ ['\n']) [] "| b".toList
    [⟨.text "a", ⟨1, 3⟩⟩, ⟨.newline, ⟨2, 1⟩⟩] .empty := by
  have hstep : Layout.empty.step (Layout.skipLeading ⟨normalize source.toList, .start⟩) =
      .ok ([⟨.text "a", ⟨1, 3⟩⟩], .empty, ⟨"\n| b".toList, ⟨1, 4⟩⟩) :=
    eq_ok_of_toOption (by decide +kernel)
  have hnew : Layout.newline .empty ⟨"\n| b".toList, ⟨1, 4⟩⟩ =
      .ok ([⟨.newline, ⟨2, 1⟩⟩], .empty, ⟨"| b".toList, ⟨2, 1⟩⟩) :=
    eq_ok_of_toOption (by decide +kernel)
  exact .below (.step (by decide +kernel) hstep .here) .nil ⟨List.forall_mem_nil _, by decide⟩ rfl hnew
    rfl

end PipedLines

/-- In front of the first of two lines of text, a comment does not change what becomes of them. -/
theorem linkSource_comment_headed :
    ∃ linked, Template.linkSource [] {} "p" PipedLines.headed = .ok linked ∧
      linked.unplaced = (⟨PipedLines.nodes, []⟩ : Linked).unplaced ∧
      ∀ (data : Value) (filters : Filters),
        (render linked data {} filters).mapError RenderError.unplaced =
          (render ⟨PipedLines.nodes, []⟩ data {} filters).mapError RenderError.unplaced := by
  have hnote : '\n' ∉ " c".toList := by decide
  have hfirst : BeginsLine (normalize PipedLines.source.toList) [] [] "| a\n| b".toList [] .empty :=
    .first .nil ⟨nofun, by decide⟩ rfl
  exact linkSource_comment hfirst hnote rfl PipedLines.lex_source
    PipedLines.parts_source rfl PipedLines.linkSource_source

/-- Between the lines, a comment parts them: they are read as one text without it, and as two with
it. -/
theorem linkSource_comment_parted :
    ¬ ∀ (set : TemplateSet) (path source source' : String) (before indent shown note : List Char)
      (ts : List Token) (m : Layout) (linked : Linked),
      BeginsLine (normalize source.toList) before indent shown ts m → '\n' ∉ note →
        normalize source'.toList =
          before ++ (indent ++ (commentLine note ++ (indent ++ shown))) →
        Template.linkSource set {} path source = .ok linked →
          ∃ linked', Template.linkSource set {} path source' = .ok linked' ∧
            linked'.unplaced = linked.unplaced := by
  intro hclaim
  obtain ⟨linked, hlinked, hsame⟩ := hclaim _ _ _ PipedLines.parted _ _ _ " c".toList _ _ _
    PipedLines.begins_second (by decide) rfl PipedLines.linkSource_source
  cases PipedLines.linkSource_parted.symm.trans hlinked
  have hlength := congrArg (List.length ·.nodes) hsame
  exact absurd hlength (by decide)

end PugTemplate
