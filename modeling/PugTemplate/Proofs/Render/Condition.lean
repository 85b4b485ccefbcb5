import PugTemplate.Proofs.Expr.Print
import PugTemplate.Proofs.Render.Walk
import PugTemplate.Proofs.Template.Condition
import PugTemplate.Proofs.Tree.Embedded

/-!
# Which branch a condition renders

One body at most: that of the first branch whose test holds.
-/

namespace PugTemplate

namespace Page

variable {n : Nat} (p : Page) (exits : Exits n)

/-- Whether a value in a session counts as true. -/
def holds (s : Session n) (e : Expr) : Bool :=
  (p.eval s.chain.frame e).truthy

theorem actOtherwise_eq (o : Otherwise) (s : Session n) :
    p.actOtherwise exits o s = p.actAll exits
      ((((o.branches.find? fun b => p.holds s b.1).map Prod.snd).or o.last).getD []) s := by
  match o with
  | .nothing =>
    show _ = p.actAll exits [] s
    rw [actOtherwise, actAll]
  | .otherwise _ body =>
    rw [actOtherwise]
    rfl
  | .elseIf _ test body next =>
    have ih := actOtherwise_eq next s
    rw [actOtherwise]
    show (if p.holds s test then p.actAll exits body else p.actOtherwise exits next) s = _
    rw [Otherwise.branches, Otherwise.last, List.find?_cons]
    cases p.holds s test with
    | true => rfl
    | false => exact ih

/-- A condition does what the body does that is chosen. -/
theorem act_condition {nd : Node} {c : Condition} (h : Condition.ofNode? nd = some c)
    (s : Session n) : p.act exits nd s = p.actAll exits (c.choose (p.holds s)) s := by
  cases nd with
  | conditional loc negate test body next =>
    cases h
    rw [act]
    show (if p.holds s test != negate then p.actAll exits body else p.actOtherwise exits next) s = _
    unfold Condition.choose
    dsimp only
    split
    · rfl
    · exact p.actOtherwise_eq exits next s
  | _ => cases h

end Page

namespace Condition

/-- A node with the branches of a condition: in every session it does what the body does that is
chosen there, and nothing else. -/
def Renders (cond : Condition) (nd : Node) : Prop :=
  ∃ c, ofNode? nd = some c ∧ c.unplaced = cond.unplaced ∧
    ∀ {n : Nat} (page : Page) (exits : Exits n) (s : Session n),
      page.act exits nd s = page.actAll exits (c.choose (page.holds s)) s ∧
        unplacedAll (c.choose (page.holds s)) = unplacedAll (cond.choose (page.holds s))

theorem renders_of_unplaced {cond c : Condition} {nd : Node} (h : ofNode? nd = some c)
    (hc : c.unplaced = cond.unplaced) : cond.Renders nd :=
  ⟨c, h, hc, fun page exits s => ⟨page.act_condition exits h s, by
    rw [← choose_unplaced, hc, choose_unplaced]⟩⟩

end Condition

/-- The lines of a condition are one node: as a source, where they stand at the margin, and as the
block below a line that is less deep. The node renders the body of the first branch whose test
holds, or fails for a leading `unless`; else that of the `else`, else nothing. -/
theorem condition_selects {p : CommentPolicy} {inMixin : Bool} {mark : Char} {width : Nat}
    {text : List Char} {cond : Condition} (hindent : isIndent mark)
    (h : ConditionText p inMixin mark width text cond) :
    (∀ (options : Options) (source : String), options.comments = p → inMixin = false → width = 0 →
      (Layout.skipLeading ⟨normalize source.toList, .start⟩).rest = text →
        ∃ nd, parseSource options source = .ok [nd] ∧ cond.Renders nd) ∧
    ∀ (outer : Nat) (gap : List Char), outer < width → BlankLines gap →
      ∃ nd, BlockBelow p inMixin mark outer
        ('\n' :: (gap ++ (List.replicate width mark ++ text))) [nd] ∧ cond.Renders nd := by
  refine ⟨?_, fun outer gap hlt hgap => ?_⟩
  · rintro options source rfl rfl rfl hsource
    obtain ⟨nd, c, hparse, hc, hcond⟩ := h.document hindent hsource
    exact ⟨nd, hparse, Condition.renders_of_unplaced hc hcond⟩
  · obtain ⟨nd, c, hblock, hc, hcond⟩ := h.block hindent hlt hgap
    exact ⟨nd, hblock, Condition.renders_of_unplaced hc hcond⟩

namespace ConditionOfThree

def words (text : String) : List Node :=
  [.text ⟨2, 5⟩ text [.literal text]]

def below (text : String) : List Char :=
  "\n  | ".toList ++ text.toList

def source : String :=
  "unless a\n  | x\nelse if b\nelse\n  | y"

def condition : Condition :=
  ⟨true, .name "a", words "x", [(.name "b", [])], some (words "y")⟩

/-- The tokens of a body. -/
def tokens (text : String) : List Token :=
  [⟨.indent 2, ⟨2, 3⟩⟩, ⟨.text text, ⟨2, 5⟩⟩, ⟨.outdent, ⟨2, 6⟩⟩]

theorem steps_below : ∀ text ∈ ["x", "y"],
    ((⟨[], some ' '⟩ : Layout).step ⟨below text, .start⟩).toOption =
        some ([⟨.indent 2, ⟨2, 3⟩⟩], ⟨[2], some ' '⟩, ⟨"| ".toList ++ text.toList, ⟨2, 3⟩⟩) ∧
      ((⟨[2], some ' '⟩ : Layout).step ⟨"| ".toList ++ text.toList, ⟨2, 3⟩⟩).toOption =
        some ([⟨.text text, ⟨2, 5⟩⟩], ⟨[2], some ' '⟩, ⟨[], ⟨2, 6⟩⟩) := by
  decide +kernel

theorem deep_below {text : String} (h : text ∈ ["x", "y"]) :
    Layout.Deep 1 ⟨[], some ' '⟩ ⟨below text, .start⟩ (tokens text) := by
  obtain ⟨hindent, htext⟩ := steps_below text h
  exact ⟨_, _, _, .step (List.cons_ne_nil _ _) (eq_ok_of_toOption hindent) (by decide)
    (.step (List.cons_ne_nil _ _) (eq_ok_of_toOption htext) (by decide) .here), rfl, rfl, rfl⟩

theorem isBlock_tokens {text : String} (h : text ∈ ["x", "y"]) :
    IsBlock ⟨.nowhere, false, segmentsAt⟩ (tokens text) (words text) := by
  have hcut : segmentsAt text ⟨2, 5⟩ = .ok [.literal text] := by
    have hliteral : ∀ s ∈ ["x", "y"], Piece.IsLiteral s.toList ∧
        Piece.literalPieces s.toList = [.literal s.toList] := by
      decide
    obtain ⟨hsplit, hpieces⟩ := hliteral text h
    exact PipedLines.segmentsAt_literal ((Piece.split_literal hsplit 0).trans hpieces) _
  show readOptionalBlock _ (tokens text ++ _) = _
  simp only [tokens, List.cons_append, List.nil_append, readOptionalBlock]
  rw [readItems_node (by simp) (by simp) (by simp), Node.read]
  simp [TreeContext.textNode, textRun, hcut, readItems, bind, Except.bind, pure, Except.pure, words]

theorem blockBelow_words {text : String} (h : text ∈ ["x", "y"]) :
    BlockBelow {} false ' ' 0 (below text) (words text) :=
  ⟨tokens text, tokens text, deep_below h, rfl, isBlock_tokens h⟩

/-- Nothing is below the second branch. -/
theorem blockBelow_nil : BlockBelow {} false ' ' 0 [] [] := by
  refine ⟨[], [], ⟨[], _, _, .here, rfl, rfl, rfl⟩, rfl, ?_⟩
  rw [IsBlock, List.nil_append, readOptionalBlock_of_eq_false (by simp [TokenKind.isIndent])]
  rfl

theorem testText {name : String} (h : name ∈ ["a", "b"]) :
    TestText (' ' :: name.toList) (.name name) := by
  have hprint : ∀ s ∈ ["a", "b"], '\n' ∉ ' ' :: s.toList ∧
      trim (' ' :: s.toList) = (Expr.name s).print (.sparing '\'') ∧
        (Expr.name s).isPlain := by
    decide
  obtain ⟨hline, htrim, hplain⟩ := hprint name h
  exact ⟨rfl, hline, by rw [htrim]; exact Expr.read_print_of_isPlain rfl hplain⟩

theorem conditionText : ConditionText {} false ' ' 0 source.toList condition := by
  have htext : source.toList = "unless".toList ++ (' ' :: "a".toList ++ (below "x" ++ '\n' ::
      ([] ++ ("else".toList ++ ([' '] ++ ("if".toList ++ (' ' :: "b".toList ++ ([] ++ '\n' ::
        ([] ++ ("else".toList ++ ([] ++ below "y"))))))))))) := by
    decide
  rw [htext]
  exact .mk true (testText (by simp)) (blockBelow_words (by simp))
    (.elseIf (by simp) (by simp [isIndent]) (testText (by simp)) blockBelow_nil
      (.otherwise nofun (blockBelow_words (by simp))))

end ConditionOfThree

open ConditionOfThree

theorem condition_selects_three :
    ∃ nd, parseSource {} source = .ok [nd] ∧ condition.Renders nd := by
  have hsource : (Layout.skipLeading ⟨normalize source.toList, .start⟩).rest = source.toList := by
    rw [normalize_eq_self (by decide) (by decide)]
    exact congrArg Cursor.rest (Layout.skipLeading_of_shown ⟨nofun, by decide⟩ rfl)
  exact (condition_selects rfl conditionText).1 {} source rfl rfl rfl hsource

end PugTemplate
