import PugTemplate.Expr.Eval
import PugTemplate.Expr.Names

/-!
# Evaluation reads the names that occur
-/

namespace PugTemplate

namespace Expr

theorem mem_identifiers {e : Expr} {x : String} : x ∈ e.identifiers ↔ x ∈ e.occurrences :=
  mem_distinct

mutual

/-- Scopes that agree on all names of an expression give it one value. -/
theorem eval_congr {a b : Scope} (e : Expr) (h : ∀ x ∈ e.occurrences, a x = b x) :
    e.eval a = e.eval b := by
  match e with
  | .literal v => rfl
  | .name x => rw [eval, eval, h x (by simp [occurrences])]
  | .array items => rw [eval, eval, evalItems_congr items h]
  | .object entries => rw [eval, eval, evalEntries_congr entries h]
  | .member whole property => rw [eval, eval, eval_congr whole h]
  | .index whole key =>
    rw [occurrences, List.forall_mem_append] at h
    rw [eval, eval, eval_congr whole h.1, eval_congr key h.2]
  | .unary op operand => rw [eval, eval, eval_congr operand h]
  | .binary op left right =>
    rw [occurrences, List.forall_mem_append] at h
    rw [eval, eval, eval_congr left h.1, eval_congr right h.2]
  | .conditional test consequent alternate =>
    rw [occurrences, List.forall_mem_append, List.forall_mem_append] at h
    rw [eval, eval, eval_congr test h.1, eval_congr consequent h.2.1, eval_congr alternate h.2.2]

theorem evalItems_congr {a b : Scope} (es : List Expr)
    (h : ∀ x ∈ itemOccurrences es, a x = b x) : evalItems a es = evalItems b es := by
  match es with
  | [] => rfl
  | e :: es =>
    rw [itemOccurrences, List.forall_mem_append] at h
    rw [evalItems, evalItems, eval_congr e h.1, evalItems_congr es h.2]

theorem evalEntries_congr {a b : Scope} (es : List (String × Expr))
    (h : ∀ x ∈ entryOccurrences es, a x = b x) : evalEntries a es = evalEntries b es := by
  match es with
  | [] => rfl
  | (key, e) :: es =>
    rw [entryOccurrences, List.forall_mem_append] at h
    rw [evalEntries, evalEntries, eval_congr e h.1, evalEntries_congr es h.2]

end

end Expr

end PugTemplate
