import PugTemplate.Proofs.Expr.Blank
import PugTemplate.Proofs.Lex.Deep

/-!
# The lines that begin a branch

A line with `if`, `unless` or `else if` and a test, or with `else` alone, is one token, and ends the
reading of its line.
-/

namespace PugTemplate

/-- The rest of a line behind a keyword that says what a branch asks for. -/
structure TestText (tail : List Char) (test : Expr) : Prop where
  apart : tail.head?.any isWordOrHyphen = false
  line : '\n' ∉ tail
  valid : Expr.read (trim tail) = .ok test

/-- The token that begins a condition. -/
def opening (negate : Bool) (source : String) : TokenKind :=
  if negate then .unlessCond source else .ifCond source

/-- The keyword that begins a condition. -/
def openingWord (negate : Bool) : String :=
  if negate then "unless" else "if"

theorem TestText.not_allBlank {tail : List Char} {test : Expr} (h : TestText tail test) :
    allBlank tail = false := by
  refine Bool.eq_false_iff.mpr fun hblank => ?_
  have hstart : trimStart tail = [] :=
    List.dropWhile_eq_nil_iff.mpr fun x hx => List.all_eq_true.mp hblank x hx
  have htrim : trim tail = [] := by
    rw [trim, hstart]
    rfl
  have hread := Expr.not_allBlank_of_read h.valid
  rw [htrim] at hread
  cases hread

theorem isWordOrHyphen_of_isIndent {x : Char} (h : isIndent x) : isWordOrHyphen x = false := by
  have hx : x = ' ' ∨ x = '\t' := by simpa [isIndent] using h
  obtain rfl | rfl := hx <;> rfl

namespace Cursor

variable {c : Cursor} {word : String} {tail rest behind : List Char} {test : Expr}

theorem keyword?_of_rest (hc : c.rest = word.toList ++ rest)
    (hrest : rest.head?.any isWordOrHyphen = false) :
    c.keyword? word = some (c.skip word.toList.length) := by
  have hstart : c.startsWith word := by
    rw [startsWith, hc, List.isPrefixOf_iff_prefix]
    exact List.prefix_append _ _
  rw [keyword?, rest_skip, hc, List.drop_left, hrest, hstart]
  rfl

theorem nil_or_feed (h : lineOf behind = []) : behind = [] ∨ ∃ below, behind = '\n' :: below := by
  cases behind with
  | nil => exact .inl rfl
  | cons x xs =>
    have hx : x = '\n' := Decidable.byContradiction fun hx => by simp [lineOf, hx] at h
    exact .inr ⟨xs, congrArg (· :: xs) hx⟩

/-- A line that ends with a test, from its keyword on. -/
theorem keyword?_test (hc : c.rest = word.toList ++ (tail ++ behind)) (ht : TestText tail test)
    (hbehind : lineOf behind = []) :
    ∃ d, c.keyword? word = some d ∧ d.line = tail ∧ d.skipLine.rest = behind := by
  have hrest : (c.skip word.toList.length).rest = tail ++ behind := by
    rw [rest_skip, hc, List.drop_left]
  have hapart : (tail ++ behind).head?.any isWordOrHyphen = false := by
    obtain ⟨x, tail, rfl⟩ : ∃ x xs, tail = x :: xs := by
      refine List.exists_cons_of_ne_nil ?_
      rintro rfl
      exact nomatch ht.not_allBlank
    exact ht.apart
  have hends : behind.head?.all (· = '\n') := by
    obtain rfl | ⟨below, rfl⟩ := nil_or_feed hbehind <;> rfl
  have hline := Cursor.line_eq hrest ht.line hends
  refine ⟨_, keyword?_of_rest hc hapart, hline, ?_⟩
  rw [skipLine, hline]
  exact (Cursor.line_skip hrest ht.line).1

end Cursor

namespace Rule

variable {c : Cursor} {width : Nat} {tail blanks behind : List Char} {test : Expr}

/-- The rules that are tried before that of a branch ask for another word. -/
theorem before_branch {word : String} {n : Nat} {rest : List Char}
    (hword : (word, n) ∈ [("else", 11), ("if", 12), ("unless", 13)])
    (hc : c.rest = word.toList ++ rest) : ∀ q ∈ all.take n, q width c = none := by
  obtain ⟨_, loc⟩ := c
  cases hc
  simp only [List.mem_cons, Prod.mk.injEq, List.not_mem_nil, or_false] at hword
  obtain ⟨rfl, rfl⟩ | ⟨rfl, rfl⟩ | ⟨rfl, rfl⟩ := hword
  all_goals
    simp only [all, List.take_succ_cons, List.take_zero, List.forall_mem_cons, List.not_mem_nil,
      false_imp_iff, implies_true, and_true]
    and_intros <;> rfl

theorem expression_eq (width : Nat) (keyword : ExprKeyword) (kind : String → TokenKind)
    (hc : c.rest = keyword.text.toList ++ (tail ++ behind)) (ht : TestText tail test)
    (hbehind : lineOf behind = []) :
    ∃ d, expression keyword kind width c =
        some (.ok ([⟨kind (String.ofList (trim tail)), c.loc⟩], d)) ∧ d.rest = behind := by
  obtain ⟨d, hd, hline, hrest⟩ := Cursor.keyword?_test hc ht hbehind
  refine ⟨d.skipLine, ?_, hrest⟩
  rw [expression, hd, Option.map_some, lineText, hline, ht.not_allBlank]
  rfl

/-- The line that begins a condition. -/
theorem read_opening (width : Nat) (negate : Bool)
    (hc : c.rest = (openingWord negate).toList ++ (tail ++ behind))
    (ht : TestText tail test) (hbehind : lineOf behind = []) :
    ∃ d, read width c = .ok ([⟨opening negate (String.ofList (trim tail)), c.loc⟩], d) ∧
      d.rest = behind := by
  cases negate with
  | false =>
    obtain ⟨d, hd, hrest⟩ := expression_eq width .ifCond .ifCond hc ht hbehind
    exact ⟨d, read_eq_of_before 12 rfl (before_branch (by simp [openingWord]) hc) hd, hrest⟩
  | true =>
    obtain ⟨d, hd, hrest⟩ := expression_eq width .unlessCond .unlessCond hc ht hbehind
    exact ⟨d, read_eq_of_before 13 rfl (before_branch (by simp [openingWord]) hc) hd, hrest⟩

/-- The line that begins a branch with a test of its own. -/
theorem read_elseIf (hne : blanks ≠ []) (hblanks : ∀ x ∈ blanks, isIndent x)
    (hc : c.rest = "else".toList ++ (blanks ++ ("if".toList ++ (tail ++ behind))))
    (ht : TestText tail test) (hbehind : lineOf behind = []) :
    ∃ d, read width c = .ok ([⟨.elseIf (String.ofList (trim tail)), c.loc⟩], d) ∧
      d.rest = behind := by
  have happart :
      (blanks ++ ("if".toList ++ (tail ++ behind))).head?.any isWordOrHyphen = false := by
    obtain ⟨x, xs, rfl⟩ := List.exists_cons_of_ne_nil hne
    exact isWordOrHyphen_of_isIndent (hblanks x List.mem_cons_self)
  have hshown : Shown blanks ("if".toList ++ (tail ++ behind)) := ⟨hblanks, rfl⟩
  have hif : ((c.skip 4).skipIndent).rest = "if".toList ++ (tail ++ behind) := by
    refine hshown.rest_skipIndent ?_
    rw [Cursor.rest_skip, hc]
    rfl
  obtain ⟨d, hd, hline, hrest⟩ := Cursor.keyword?_test hif ht hbehind
  refine ⟨d.skipLine, read_eq_of_before 11 rfl (before_branch (by simp) hc) ?_, hrest⟩
  have hword : (c.skip "else".toList.length).skipIndent.keyword? "if" = some d := hd
  rw [otherwise, Cursor.keyword?_of_rest hc happart, Option.map_some]
  dsimp only
  rw [hword]
  dsimp only
  rw [lineText, hline, ht.not_allBlank]
  rfl

/-- The line that begins a branch without a test. -/
theorem read_otherwise (hblanks : ∀ x ∈ blanks, isIndent x)
    (hc : c.rest = "else".toList ++ (blanks ++ behind)) (hbehind : lineOf behind = []) :
    ∃ d, read width c = .ok ([⟨.otherwise none, c.loc⟩], d) ∧ d.rest = behind := by
  have hends := Cursor.nil_or_feed hbehind
  have happart : (blanks ++ behind).head?.any isWordOrHyphen = false := by
    cases blanks with
    | nil => obtain rfl | ⟨below, rfl⟩ := hends <;> rfl
    | cons x xs => exact isWordOrHyphen_of_isIndent (hblanks x List.mem_cons_self)
  have hrest : (c.skip "else".toList.length).rest = blanks ++ behind := by
    rw [Cursor.rest_skip, hc, List.drop_left]
  have hblank : (blanks ++ behind).takeWhile isIndent = blanks := by
    rw [List.takeWhile_append_of_pos hblanks]
    obtain rfl | ⟨below, rfl⟩ := hends <;> exact List.append_nil blanks
  have hskip : (c.skip "else".toList.length).skipIndent.rest = behind := by
    rw [Cursor.skipIndent, Cursor.rest_skip, hrest, hblank, List.drop_left]
  refine ⟨_, read_eq_of_before 11 rfl (before_branch (by simp) hc) ?_, hskip⟩
  have hword : (c.skip "else".toList.length).skipIndent.keyword? "if" = none := by
    rw [Cursor.keyword?, Cursor.startsWith, hskip]
    obtain rfl | ⟨below, rfl⟩ := hends <;> rfl
  rw [otherwise, Cursor.keyword?_of_rest hc happart, Option.map_some]
  dsimp only
  rw [hword]
  dsimp only
  rw [Cursor.line, hskip, hbehind]
  rfl

end Rule

end PugTemplate
