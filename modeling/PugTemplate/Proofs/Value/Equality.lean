import Mathlib
import PugTemplate.Proofs.Value.Distinct

/-!
# Equality in either order

Strict equality does not depend on the order of its two sides, and implies loose equality. Loose
equality reads a boolean as a number on its left only: beside a number that it counts as, a boolean
is equal to it on the left and not on the right. There alone the order matters.
-/

namespace PugTemplate

theorem float_beq_comm (x y : Float) : (x == y) = (y == x) := by
  rw [Bool.eq_iff_iff, Float.beq_iff_ne_nan_and_eq, Float.beq_iff_ne_nan_and_eq]
  grind

namespace Value

theorem sameEntries_iff {as bs : List (String × Value)} :
    sameEntries as bs = true ↔
      ∀ e ∈ as, ∃ b, Dictionary.find? e.1 bs = some b ∧ same e.2 b = true := by
  induction as with
  | nil => simp [sameEntries]
  | cons e as ih =>
    rw [sameEntries, Bool.and_eq_true, ih, List.forall_mem_cons]
    cases Dictionary.find? e.1 bs with
    | none => simp
    | some b => simp

/-- Maps of one size, of which each key of the first is one of the second, have the same keys. -/
theorem keys_subset {as bs : List (String × Value)} (ha : (Dictionary.keys as).Nodup)
    (hlen : as.length = bs.length) (h : Dictionary.keys as ⊆ Dictionary.keys bs) :
    Dictionary.keys bs ⊆ Dictionary.keys as := by
  have hle : (Dictionary.keys bs).length ≤ (Dictionary.keys as).length := by
    simp [Dictionary.keys, hlen]
  exact ((List.subperm_of_subset ha h).perm_of_length_le hle).symm.subset

mutual

theorem same_symm {a b : Value} (ha : a.Distinct) (hb : b.Distinct) (h : same a b = true) :
    same b a = true := by
  match a, b with
  | null, null => rfl
  | bool _, bool _ | int _, int _ | string _, string _ =>
    rw [same, BEq.comm]
    exact h
  | float x, float y =>
    rw [same, float_beq_comm]
    exact h
  | array as, array bs => exact sameItems_symm ha hb h
  | map as, map bs =>
    rw [same, Bool.and_eq_true, beq_iff_eq] at h ⊢
    obtain ⟨hlen, h⟩ := h
    refine ⟨hlen.symm, sameEntries_iff.mpr fun e he => ?_⟩
    have hfound := found_symm ha.2 (distinctEntries_iff.mp hb.2) h
    -- the maps have one size, so no key of the second is left over
    have hsub : Dictionary.keys as ⊆ Dictionary.keys bs := by
      intro key hkey
      obtain ⟨f, hf, rfl⟩ := List.mem_map.mp hkey
      obtain ⟨b, hfind, -⟩ := hfound f hf
      exact Dictionary.mem_keys_of_mem (e := (f.1, b)) (Dictionary.mem_of_find? hfind)
    have hkey := keys_subset ha.1 hlen hsub (Dictionary.mem_keys_of_mem he)
    obtain ⟨f, hf, hkey⟩ := List.mem_map.mp hkey
    obtain ⟨b, hfind, hsame⟩ := hfound f hf
    rw [hkey, Dictionary.find?_of_mem hb.1 he] at hfind
    cases hfind
    refine ⟨f.2, ?_, hsame⟩
    rw [← hkey]
    exact Dictionary.find?_of_mem ha.1 hf

theorem sameItems_symm {as bs : List Value} (ha : DistinctItems as) (hb : DistinctItems bs)
    (h : sameItems as bs = true) : sameItems bs as = true := by
  match as, bs with
  | [], [] => rfl
  | a :: as, b :: bs =>
    rw [sameItems, Bool.and_eq_true] at h ⊢
    exact ⟨same_symm ha.1 hb.1 h.1, sameItems_symm ha.2 hb.2 h.2⟩

theorem found_symm {as bs : List (String × Value)} (ha : DistinctEntries as)
    (hb : ∀ e ∈ bs, e.2.Distinct) (h : sameEntries as bs = true) :
    ∀ e ∈ as, ∃ b, Dictionary.find? e.1 bs = some b ∧ same b e.2 = true := by
  match as with
  | [] => simp
  | (key, a) :: as =>
    rw [sameEntries, Bool.and_eq_true] at h
    refine List.forall_mem_cons.mpr ⟨?_, found_symm ha.2 hb h.2⟩
    cases hfind : Dictionary.find? key bs with
    | none =>
      rw [hfind] at h
      exact nomatch h.1
    | some b =>
      rw [hfind] at h
      exact ⟨b, rfl, same_symm ha.1 (hb _ (Dictionary.mem_of_find? hfind)) h.1⟩

end

theorem same_comm {a b : Value} (ha : a.Distinct) (hb : b.Distinct) : same a b = same b a :=
  Bool.eq_iff_iff.mpr ⟨same_symm ha hb, same_symm hb ha⟩

theorem strictEq_comm {a b : Value} (ha : a.Distinct) (hb : b.Distinct) :
    a.strictEq b = b.strictEq a := by
  cases a with
  | int i => cases b with
    | float y => rfl
    | null | bool _ | int _ | string _ | array _ | map _ => exact same_comm ha hb
  | float x => cases b with
    | int j => rfl
    | null | bool _ | float _ | string _ | array _ | map _ => exact same_comm ha hb
  | null | bool _ | string _ | array _ | map _ => cases b <;> exact same_comm ha hb

/-! ## Loose equality -/

/-- A boolean stands beside a number that it counts as. -/
def BoolMeetsNumber (a b : Value) : Prop :=
  ((∃ t, a = .bool t) ∧ b.isNumber = true ∨ a.isNumber = true ∧ ∃ t, b = .bool t) ∧
    (a.toNumber == b.toNumber) = true

theorem looseEq_bool_number {t : Bool} {v : Value} (hv : v.isNumber = true) :
    (bool t).looseEq v = ((bool t).toNumber == v.toNumber) := by
  cases v with
  | int _ | float _ => rfl
  | null | bool _ | string _ | array _ | map _ => exact nomatch hv

theorem looseEq_number_bool {t : Bool} {v : Value} (hv : v.isNumber = true) :
    v.looseEq (bool t) = false := by
  cases v with
  | int _ | float _ => rfl
  | null | bool _ | string _ | array _ | map _ => exact nomatch hv

/-- A boolean and a number are equal in one order at most. -/
theorem looseEq_bool_comm {t : Bool} {v : Value} (hv : v.isNumber = true) :
    (bool t).looseEq v = v.looseEq (bool t) ↔ ¬ ((bool t).toNumber == v.toNumber) = true := by
  rw [looseEq_bool_number hv, looseEq_number_bool hv, Bool.not_eq_true]

theorem looseEq_comm_of_not_bool {a b : Value} (ha : a.Distinct) (hb : b.Distinct)
    (hab : ¬ ((∃ t, a = .bool t) ∧ b.isNumber = true))
    (hba : ¬ (a.isNumber = true ∧ ∃ t, b = .bool t)) :
    a.looseEq b = b.looseEq a := by
  have hstrict := strictEq_comm ha hb
  have hnumber := float_beq_comm a.toNumber b.toNumber
  cases a with
  | null => cases b <;> rfl
  | string s => cases b with
    | null => rfl
    | string t => exact BEq.comm
    | bool _ | int _ | float _ => exact hnumber
    | array _ | map _ => exact hstrict
  | bool t => cases b with
    | null => rfl
    | bool _ | string _ => exact hnumber
    | int _ | float _ => exact absurd ⟨⟨t, rfl⟩, rfl⟩ hab
    | array _ | map _ => exact hstrict
  | int _ | float _ => cases b with
    | null => rfl
    | string _ => exact hnumber
    | bool t => exact absurd ⟨rfl, t, rfl⟩ hba
    | int _ | float _ | array _ | map _ => exact hstrict
  | array _ | map _ => cases b with
    | null => rfl
    | bool _ | int _ | float _ | string _ | array _ | map _ => exact hstrict

theorem looseEq_comm_iff {a b : Value} (ha : a.Distinct) (hb : b.Distinct) :
    a.looseEq b = b.looseEq a ↔ ¬ BoolMeetsNumber a b := by
  by_cases hab : (∃ t, a = .bool t) ∧ b.isNumber = true
  · obtain ⟨⟨t, rfl⟩, hnum⟩ := hab
    simp [BoolMeetsNumber, looseEq_bool_comm hnum, hnum]
  by_cases hba : a.isNumber = true ∧ ∃ t, b = .bool t
  · obtain ⟨hnum, t, rfl⟩ := hba
    rw [eq_comm, looseEq_bool_comm hnum, float_beq_comm]
    simp [BoolMeetsNumber, hnum]
  · have hcomm := looseEq_comm_of_not_bool ha hb hab hba
    exact ⟨fun _ h => h.1.elim hab hba, fun _ => hcomm⟩

theorem toNumber_bool_beq (t : Bool) : ((bool t).toNumber == (bool t).toNumber) = true := by
  cases t <;> decide

theorem looseEq_of_strictEq {a b : Value} (h : a.strictEq b = true) : a.looseEq b = true := by
  cases a with
  | null => cases b with
    | null => rfl
    | bool _ | int _ | float _ | string _ | array _ | map _ => exact nomatch h
  | bool t => cases b with
    | bool u =>
      obtain rfl : t = u := eq_of_beq h
      exact toNumber_bool_beq t
    | null | int _ | float _ | string _ | array _ | map _ => exact nomatch h
  | string s => cases b with
    | string _ => exact h
    | null | bool _ | int _ | float _ | array _ | map _ => exact nomatch h
  | int _ | float _ | array _ | map _ => cases b with
    | int _ | float _ | array _ | map _ => exact h
    | null | bool _ | string _ => exact nomatch h

end Value

open Value

/-- Strict equality is symmetric and implies loose equality, which is symmetric but for a boolean
beside a number that it counts as. The operators of templates follow, in every scope. -/
theorem equality_symmetric {a b : Value} (ha : a.Distinct) (hb : b.Distinct) :
    a.strictEq b = b.strictEq a ∧
    (a.strictEq b = true → a.looseEq b = true) ∧
    (a.looseEq b = b.looseEq a ↔ ¬ BoolMeetsNumber a b) ∧
    ∀ (scope : Scope) (x y : Expr), scope.Distinct → (∀ v ∈ x.literals, v.Distinct) →
      (∀ v ∈ y.literals, v.Distinct) →
        (Expr.binary .strictEq x y).eval scope = (Expr.binary .strictEq y x).eval scope ∧
        (Expr.binary .strictNotEq x y).eval scope = (Expr.binary .strictNotEq y x).eval scope ∧
        ((Expr.binary .eq x y).eval scope = (Expr.binary .eq y x).eval scope ↔
          ¬ BoolMeetsNumber (x.eval scope) (y.eval scope)) ∧
        ((Expr.binary .notEq x y).eval scope = (Expr.binary .notEq y x).eval scope ↔
          ¬ BoolMeetsNumber (x.eval scope) (y.eval scope)) := by
  refine ⟨strictEq_comm ha hb, looseEq_of_strictEq, looseEq_comm_iff ha hb,
    fun scope x y hscope hx hy => ?_⟩
  have hx := Expr.distinct_eval hscope x hx
  have hy := Expr.distinct_eval hscope y hy
  have hloose := looseEq_comm_iff hx hy
  simp only [Expr.eval, BinaryOp.apply, strictEq_comm hx hy, bool.injEq, Bool.not_inj_iff, hloose,
    and_self]

/-- Two maps with the same entries in another order. -/
theorem equality_symmetric_ordered :
    (Value.map [("a", .int 1), ("b", .null)]).Distinct ∧
      (Value.map [("b", .null), ("a", .int 1)]).Distinct ∧
      (Value.map [("a", .int 1), ("b", .null)]).strictEq (.map [("b", .null), ("a", .int 1)]) =
        (Value.map [("b", .null), ("a", .int 1)]).strictEq (.map [("a", .int 1), ("b", .null)]) ∧
      (Value.map [("a", .int 1), ("b", .null)]).looseEq (.map [("b", .null), ("a", .int 1)]) =
        true ∧
      (Value.map [("a", .int 1), ("b", .null)]).looseEq (.map [("b", .null), ("a", .int 1)]) =
        (Value.map [("b", .null), ("a", .int 1)]).looseEq (.map [("a", .int 1), ("b", .null)]) := by
  have ha : (Value.map [("a", .int 1), ("b", .null)]).Distinct :=
    ⟨by decide, trivial, trivial, trivial⟩
  have hb : (Value.map [("b", .null), ("a", .int 1)]).Distinct :=
    ⟨by decide, trivial, trivial, trivial⟩
  obtain ⟨hcomm, himp, hiff, -⟩ := equality_symmetric ha hb
  have hbool : ¬ BoolMeetsNumber (.map [("a", .int 1), ("b", .null)])
      (.map [("b", .null), ("a", .int 1)]) := by
    rintro ⟨⟨⟨_, h⟩, -⟩ | ⟨h, -⟩, -⟩ <;> cases h
  exact ⟨ha, hb, hcomm, himp (by decide), hiff.mpr hbool⟩

/-- `true` equals 1, but 1 does not equal `true`. -/
theorem equality_not_symmetric :
    ¬ ∀ a b : Value, a.Distinct → b.Distinct → a.looseEq b = b.looseEq a := by
  intro h
  have hleft : (Value.bool true).looseEq (.int 1) = true := by decide +kernel
  have hright : (Value.int 1).looseEq (.bool true) = false := rfl
  exact nomatch hleft.symm.trans ((h (.bool true) (.int 1) trivial trivial).trans hright)

end PugTemplate
