import PugTemplate.Expr.Eval
import PugTemplate.Proofs.Expr.Bracket
import PugTemplate.Proofs.Expr.Print
import PugTemplate.Proofs.Text.Closed

/-!
# Texts as literals

Any text can be written as a literal: in quotes of either kind, or in backticks. Read as an
expression, the literal gives the text back, and it closes all that it opens.
-/

namespace PugTemplate

/-- A character inside backticks. Where no dollar sign stands bare, no hole begins. -/
def escapedInBackticks (c : Char) : List Char :=
  if c = '\\' ∨ c = '`' ∨ c = '$' then ['\\', c] else [c]

/-- A text between backticks. -/
def inBackticks (cs : List Char) : List Char :=
  '`' :: (cs.flatMap escapedInBackticks ++ ['`'])

namespace Lexeme

/-- The parts of a backtick literal without holes. -/
def Part.ofText : List Char → List Part
  | [] => []
  | c :: cs => [.text (c :: cs)]

theorem Part.cons_ofText (c : Char) (cs : List Char) :
    Part.cons c (Part.ofText cs) = Part.ofText (c :: cs) := by
  cases cs <;> rfl

/-- What a backtick literal says is read back up to its closing mark. -/
theorem readTemplate_inBackticks (inner : List Char → Except ExprError Expr) (base offset : Nat)
    (cs rest : List Char) :
    readTemplate inner base offset (cs.flatMap escapedInBackticks ++ '`' :: rest) =
      .ok (Part.ofText cs, (cs.flatMap escapedInBackticks).length + 1) := by
  induction cs generalizing offset with
  | nil =>
    rw [List.flatMap_nil, List.nil_append, readTemplate, if_pos rfl]
    rfl
  | cons c cs ih =>
    rw [List.flatMap_cons, List.append_assoc, escapedInBackticks]
    by_cases hc : c = '\\' ∨ c = '`' ∨ c = '$'
    · -- each of the three is what it denotes behind a backslash
      have hescape : ∀ more, readEscape (c :: more) = .ok (some c, 1) := by
        rcases hc with rfl | rfl | rfl <;> exact fun _ => rfl
      rw [if_pos hc, List.cons_append, readTemplate, if_neg (by decide), if_pos rfl,
        List.cons_append, hescape]
      show (readTemplate inner base _ (cs.flatMap escapedInBackticks ++ '`' :: rest) >>= fun r =>
        (pure (Part.cons c r.1, 1 + 1 + r.2) : Except ExprError _)) = _
      rw [ih]
      refine congrArg₂ (fun ps n => Except.ok (ps, n)) (Part.cons_ofText c cs) ?_
      simp only [List.length_append, List.length_cons, List.length_nil]
      omega
    · obtain ⟨hslash, hmark, hdollar⟩ : c ≠ '\\' ∧ c ≠ '`' ∧ c ≠ '$' := by simpa using hc
      rw [if_neg hc, List.cons_append, readTemplate, if_neg hmark, if_neg hslash,
        if_neg fun h => hdollar h.1, List.nil_append, ih]
      refine congrArg₂ (fun ps n => Except.ok (ps, n)) (Part.cons_ofText c cs) ?_
      simp only [List.length_append, List.length_cons, List.length_nil]
      omega

theorem readAll_inBackticks (inner : List Char → Except ExprError Expr) (cs : List Char) :
    readAll inner 0 (inBackticks cs) =
      .ok [⟨.template ((Part.ofText cs).map Part.toExpr), 0⟩] := by
  have hread : read inner 0 '`' (cs.flatMap escapedInBackticks ++ ['`']) =
      .ok (.template ((Part.ofText cs).map Part.toExpr),
        (cs.flatMap escapedInBackticks).length + 1) := by
    rw [read, if_neg (by simp [Char.isDigit]), if_neg (by decide), if_pos rfl,
      readTemplate_inBackticks]
    rfl
  refine readAll_lexeme rfl hread ?_
  rw [List.drop_of_length_le (by simp), readAll_nil]

end Lexeme

namespace Expr

/-- A text in quotes is read as the text. -/
theorem read_inQuotes {mark : Char} (hmark : isQuote mark) (s : String) :
    read (inQuotes mark s.toList) = .ok (.literal (.string s)) := by
  have hprint : (literal (.string s)).print (.sparing mark) = inQuotes mark s.toList :=
    List.intercalate_singleton ..
  rw [← hprint]
  exact read_print_of_isPlain hmark rfl

theorem read_inBackticks (cs : List Char) :
    read (inBackticks cs) = .ok (ofTemplate ((Lexeme.Part.ofText cs).map Lexeme.Part.toExpr)) := by
  rw [read]
  exact readWith_eq_ok_iff.mpr ⟨_, Lexeme.readAll_inBackticks _ cs,
    (Spells.template _ 0).loosen (Nat.zero_le 9) (Nat.le_refl 9)⟩

/-- The joined parts of a text are the text. -/
theorem eval_ofText (scope : Scope) (s : String) :
    (ofTemplate ((Lexeme.Part.ofText s.toList).map Lexeme.Part.toExpr)).eval scope = .string s := by
  cases hs : s.toList with
  | nil =>
    rw [String.toList_eq_nil_iff.mp hs]
    rfl
  | cons c cs =>
    show Value.string ("" ++ String.ofList (c :: cs)) = _
    rw [← hs, String.ofList_toList, String.empty_append]

/-- What is read as an expression closes what it opens. -/
theorem balanced_of_read {src : List Char} {e : Expr} (h : read src = .ok e) :
    Nesting.Balanced src :=
  (passes_read h).foldlM_feed

/-- A text in quotes of either kind is read as the literal of the text, and what is read of a text
in backticks is the text in every scope. Both close all that they open. -/
theorem literals_read_back (s : String) :
    (∀ mark, isQuote mark →
      read (inQuotes mark s.toList) = .ok (.literal (.string s)) ∧
        Nesting.Balanced (inQuotes mark s.toList)) ∧
    (∃ e, read (inBackticks s.toList) = .ok e ∧ ∀ scope, e.eval scope = .string s) ∧
    Nesting.Balanced (inBackticks s.toList) := by
  refine ⟨fun mark hmark => ?_, ⟨_, read_inBackticks _, fun scope => eval_ofText scope s⟩, ?_⟩
  · exact ⟨read_inQuotes hmark s, balanced_of_read (read_inQuotes hmark s)⟩
  · exact balanced_of_read (read_inBackticks _)

example : String.ofList (inBackticks "`$\x7bx\x7d'\\".toList) = "`\\`\\$\x7bx\x7d'\\\\`" := by
  decide

/-- A text with marks of all kinds that looks like a hole and ends in a backslash. -/
def sampleText : String :=
  "`$\x7bx\x7d'\n\"\\"

theorem literals_read_back_sample :
    isQuote '\'' ∧ isQuote '"' ∧
      read (inQuotes '\'' sampleText.toList) = .ok (.literal (.string sampleText)) ∧
      read (inQuotes '"' sampleText.toList) = .ok (.literal (.string sampleText)) ∧
      ∃ e, read (inBackticks sampleText.toList) = .ok e ∧
        ∀ scope, e.eval scope = .string sampleText := by
  obtain ⟨hquotes, hbackticks, -⟩ := literals_read_back sampleText
  exact ⟨rfl, rfl, (hquotes '\'' rfl).1, (hquotes '"' rfl).1, hbackticks⟩

end Expr

end PugTemplate
