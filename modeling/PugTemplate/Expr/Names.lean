import PugTemplate.Expr.Basic

/-!
# The names an expression reads

`occurrences` lists every name in the order of reading, `identifiers` each name once, where it first
occurs. Properties after a dot and keys of objects are no names.
-/

namespace PugTemplate

/-- Each element once, at its first place. -/
def distinct : List String → List String
  | [] => []
  | x :: xs => x :: (distinct xs).filter (· ≠ x)

theorem mem_distinct {x : String} {xs : List String} : x ∈ distinct xs ↔ x ∈ xs := by
  induction xs with
  | nil => simp [distinct]
  | cons y ys ih => by_cases h : x = y <;> simp [distinct, ih, h]

theorem nodup_distinct (xs : List String) : (distinct xs).Nodup := by
  induction xs with
  | nil => simp [distinct]
  | cons y ys ih => exact List.nodup_cons.mpr ⟨by simp, ih.filter _⟩

namespace Expr

mutual

def occurrences : Expr → List String
  | literal _ => []
  | name n => [n]
  | array items => itemOccurrences items
  | object entries => entryOccurrences entries
  | member whole _ => whole.occurrences
  | index whole key => whole.occurrences ++ key.occurrences
  | unary _ operand => operand.occurrences
  | binary _ left right => left.occurrences ++ right.occurrences
  | conditional test consequent alternate =>
    test.occurrences ++ (consequent.occurrences ++ alternate.occurrences)

def itemOccurrences : List Expr → List String
  | [] => []
  | e :: es => e.occurrences ++ itemOccurrences es

def entryOccurrences : List (String × Expr) → List String
  | [] => []
  | (_, e) :: es => e.occurrences ++ entryOccurrences es

end

def identifiers (e : Expr) : List String :=
  distinct e.occurrences

end Expr

end PugTemplate
