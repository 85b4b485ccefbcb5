import PugTemplate.Expr.Eval
import PugTemplate.Proofs.Basic

/-!
# Values whose maps have each key once

A map is a row of entries, and only a row without a repeated key is one that insertions leave. What
an expression makes of such values is such a value again.
-/

namespace PugTemplate

namespace Dictionary

variable {α : Type}

theorem nodup_keys_put {key : String} {value : α} {d : Dictionary α} (h : (keys d).Nodup) :
    (keys (put key value d)).Nodup := by
  rw [keys_put]
  split
  next => exact h
  next hkey =>
    refine List.nodup_append.mpr ⟨h, by simp, fun x hx y hy => ?_⟩
    rw [List.mem_singleton.mp hy]
    exact fun he => hkey (he ▸ hx)

theorem nodup_keys_putAll {d : Dictionary α} (entries : Dictionary α) (h : (keys d).Nodup) :
    (keys (putAll d entries)).Nodup := by
  induction entries generalizing d with
  | nil => exact h
  | cons e entries ih => exact ih (nodup_keys_put h)

theorem nodup_keys_ofEntries (entries : List (String × α)) : (keys (ofEntries entries)).Nodup :=
  nodup_keys_putAll entries List.nodup_nil

theorem put_of_not_mem {key : String} (value : α) {d : Dictionary α} (h : key ∉ keys d) :
    put key value d = d ++ [(key, value)] := by
  induction d with
  | nil => rfl
  | cons e d ih =>
    obtain ⟨hne, h⟩ := not_or.mp (mt List.mem_cons.mpr h)
    rw [put, if_neg (Ne.symm hne), ih h]
    rfl

theorem ofEntries_of_nodup {entries : List (String × α)} (h : (keys entries).Nodup) :
    ofEntries entries = entries := by
  induction entries using List.reverseRecOn with
  | nil => rfl
  | append_singleton entries e ih =>
    have hkeys : keys (entries ++ [e]) = keys entries ++ [e.1] := List.map_append
    rw [hkeys] at h
    obtain ⟨h, _, hdisjoint⟩ := List.nodup_append.mp h
    rw [ofEntries_append, ih h]
    exact put_of_not_mem _ fun he => hdisjoint _ he _ (List.mem_singleton_self _) rfl

theorem mem_keys_of_mem {e : String × α} {d : Dictionary α} (h : e ∈ d) : e.1 ∈ keys d :=
  List.mem_map_of_mem h

/-- Where each key stands once, every entry is found. -/
theorem find?_of_mem {d : Dictionary α} (hd : (keys d).Nodup) {e : String × α} (h : e ∈ d) :
    find? e.1 d = some e.2 := by
  induction d with
  | nil => exact nomatch h
  | cons f d ih =>
    obtain ⟨hf, hd⟩ := List.nodup_cons.mp hd
    rcases List.mem_cons.mp h with rfl | h
    · exact if_pos rfl
    · have hne : f.1 ≠ e.1 := by
        intro he
        have hmem := mem_keys_of_mem h
        rw [← he] at hmem
        exact hf hmem
      exact (if_neg hne).trans (ih hd h)

end Dictionary

namespace Value

mutual

/-- No map in a value has a key twice. -/
def Distinct : Value → Prop
  | array items => DistinctItems items
  | map entries => (Dictionary.keys entries).Nodup ∧ DistinctEntries entries
  | null | bool _ | int _ | float _ | string _ => True

def DistinctItems : List Value → Prop
  | [] => True
  | v :: vs => v.Distinct ∧ DistinctItems vs

def DistinctEntries : List (String × Value) → Prop
  | [] => True
  | (_, v) :: es => v.Distinct ∧ DistinctEntries es

end

theorem distinctItems_iff {vs : List Value} : DistinctItems vs ↔ ∀ v ∈ vs, v.Distinct := by
  induction vs with
  | nil => simp [DistinctItems]
  | cons v vs ih => simp [DistinctItems, ih]

theorem distinctEntries_iff {es : List (String × Value)} :
    DistinctEntries es ↔ ∀ e ∈ es, e.2.Distinct := by
  induction es with
  | nil => simp [DistinctEntries]
  | cons e es ih => simp [DistinctEntries, ih]

/-! ## Members and items -/

theorem distinct_ofNat (n : Nat) : (ofNat n).Distinct := by
  unfold ofNat
  split <;> trivial

theorem distinct_get? {v found : Value} {key : String} (hv : v.Distinct)
    (h : v.get? key = some found) : found.Distinct := by
  cases v with
  | map entries => exact distinctEntries_iff.mp hv.2 _ (Dictionary.mem_of_find? h)
  | null | bool _ | int _ | float _ | string _ | array _ => exact nomatch h

theorem distinct_member {v : Value} (hv : v.Distinct) (property : String) :
    (v.member property).Distinct := by
  unfold member
  split
  next found h => exact distinct_get? hv h
  next =>
    split
    next =>
      split
      next n _ => exact distinct_ofNat n
      next => trivial
    next => trivial

theorem distinct_item {v : Value} (hv : v.Distinct) (number : Float) :
    (v.item number).Distinct := by
  unfold item
  split
  next => trivial
  next n _ =>
    split
    next items =>
      cases hn : items[n]? with
      | none => trivial
      | some found => exact distinctItems_iff.mp hv found (List.mem_of_getElem? hn)
    next => split <;> trivial
    next => exact distinct_member hv _

theorem distinct_itemUnder {v : Value} (hv : v.Distinct) (key : Value) :
    (v.itemUnder key).Distinct := by
  unfold itemUnder
  split
  next => exact distinct_item hv _
  next => exact distinct_item hv _
  next => exact distinct_member hv _
  next => exact distinct_member hv _

/-! ## Operators -/

theorem distinct_arithmetic (exact : Int → Int → Option Int64) (rounded : Float → Float → Float)
    (a b : Value) : (arithmetic exact rounded a b).Distinct := by
  unfold arithmetic
  split
  next => split <;> trivial
  next => trivial

theorem distinct_neg (v : Value) : v.neg.Distinct := by
  unfold neg
  split
  next => split <;> trivial
  next => trivial

theorem distinct_plus (v : Value) : v.plus.Distinct := by
  unfold plus
  split <;> trivial

end Value

open Value

theorem UnaryOp.distinct_apply (op : UnaryOp) (v : Value) : (op.apply v).Distinct := by
  cases op with
  | not => exact trivial
  | neg => exact distinct_neg v
  | plus => exact distinct_plus v

theorem BinaryOp.distinct_apply (op : BinaryOp) {a b : Value} (ha : a.Distinct) (hb : b.Distinct) :
    (op.apply a b).Distinct := by
  cases op with
  | add =>
    rw [apply, Value.add]
    split
    next => trivial
    next => exact distinct_arithmetic _ _ a b
  | sub | mul | div | rem => exact distinct_arithmetic _ _ a b
  | eq | notEq | strictEq | strictNotEq | lt | le | gt | ge => exact trivial
  | and | or =>
    rw [apply]
    split <;> assumption

/-! ## Expressions -/

/-- All names stand for values whose maps have each key once. -/
def Scope.Distinct (scope : Scope) : Prop :=
  ∀ name v, scope name = some v → v.Distinct

namespace Expr

mutual

/-- The values that are written in an expression. -/
def literals : Expr → List Value
  | literal v => [v]
  | name _ => []
  | array items => itemLiterals items
  | object entries => entryLiterals entries
  | member whole _ => whole.literals
  | index whole key => whole.literals ++ key.literals
  | unary _ operand => operand.literals
  | binary _ left right => left.literals ++ right.literals
  | conditional test consequent alternate =>
    test.literals ++ (consequent.literals ++ alternate.literals)

def itemLiterals : List Expr → List Value
  | [] => []
  | e :: es => e.literals ++ itemLiterals es

def entryLiterals : List (String × Expr) → List Value
  | [] => []
  | (_, e) :: es => e.literals ++ entryLiterals es

end

variable {scope : Scope}

mutual

theorem distinct_eval (hscope : scope.Distinct) (e : Expr) (he : ∀ v ∈ e.literals, v.Distinct) :
    (e.eval scope).Distinct := by
  match e with
  | .literal v => exact he v (List.mem_singleton_self v)
  | .name n =>
    rw [eval]
    cases hn : scope n with
    | none => trivial
    | some v => exact hscope n v hn
  | .array items => exact distinctItems_iff.mpr (distinct_evalItems hscope items he)
  | .object entries =>
    rw [eval]
    refine ⟨Dictionary.nodup_keys_ofEntries _, distinctEntries_iff.mpr fun e h => ?_⟩
    exact distinct_evalEntries hscope entries he e (Dictionary.mem_ofEntries h)
  | .member whole property => exact distinct_member (distinct_eval hscope whole he) property
  | .index whole key =>
    rw [literals, List.forall_mem_append] at he
    exact distinct_itemUnder (distinct_eval hscope whole he.1) _
  | .unary op operand => exact op.distinct_apply _
  | .binary op left right =>
    rw [literals, List.forall_mem_append] at he
    exact op.distinct_apply (distinct_eval hscope left he.1) (distinct_eval hscope right he.2)
  | .conditional test consequent alternate =>
    rw [literals, List.forall_mem_append, List.forall_mem_append] at he
    rw [eval]
    split
    next => exact distinct_eval hscope consequent he.2.1
    next => exact distinct_eval hscope alternate he.2.2

theorem distinct_evalItems (hscope : scope.Distinct) (es : List Expr)
    (he : ∀ v ∈ itemLiterals es, v.Distinct) : ∀ v ∈ evalItems scope es, v.Distinct := by
  match es with
  | [] => simp [evalItems]
  | e :: es =>
    rw [itemLiterals, List.forall_mem_append] at he
    exact List.forall_mem_cons.mpr
      ⟨distinct_eval hscope e he.1, distinct_evalItems hscope es he.2⟩

theorem distinct_evalEntries (hscope : scope.Distinct) (es : List (String × Expr))
    (he : ∀ v ∈ entryLiterals es, v.Distinct) : ∀ e ∈ evalEntries scope es, e.2.Distinct := by
  match es with
  | [] => simp [evalEntries]
  | (key, e) :: es =>
    rw [entryLiterals, List.forall_mem_append] at he
    exact List.forall_mem_cons.mpr
      ⟨distinct_eval hscope e he.1, distinct_evalEntries hscope es he.2⟩

end

end Expr

end PugTemplate
