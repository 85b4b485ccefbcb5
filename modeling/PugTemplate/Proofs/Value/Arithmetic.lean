import Mathlib
import PugTemplate.Expr.Eval

/-!
# Arithmetic on whole numbers

Null, booleans and integers count as whole numbers. On these an operator answers an integer where
its exact result is a 64-bit one, and a float elsewhere. One result that fits is missed: the
remainder of the least integer by -1 is zero, but comes as a float, since the quotient beside it
does not fit.
-/

namespace PugTemplate

namespace Value

/-- A whole number that a 64-bit integer can be. -/
def Fits (k : Int) : Prop :=
  -2 ^ 63 ≤ k ∧ k < 2 ^ 63

instance : DecidablePred Fits :=
  fun _ => inferInstanceAs (Decidable (_ ∧ _))

/-- A value is the whole number `k` where that fits, and the float `f` where it does not. -/
structure Exact (v : Value) (k : Int) (f : Float) : Prop where
  int : Fits k → ∃ i : Int64, v = .int i ∧ i.toInt = k
  float : ¬ Fits k → v = .float f

/-! ## Words -/

theorem word?_of_fits {k : Int} (h : Fits k) : ∃ i : Int64, word? k = some i ∧ i.toInt = k := by
  have hrange : Int64.minValue.toInt ≤ k ∧ k ≤ Int64.maxValue.toInt := by
    rw [Int64.toInt_minValue, Int64.toInt_maxValue]
    exact ⟨h.1, by have := h.2; omega⟩
  exact ⟨Int64.ofInt k, if_pos hrange, Int64.toInt_ofInt_of_le h.1 h.2⟩

theorem word?_of_not_fits {k : Int} (h : ¬ Fits k) : word? k = none := by
  apply if_neg
  rw [Int64.toInt_minValue, Int64.toInt_maxValue]
  intro hrange
  exact h ⟨hrange.1, by have := hrange.2; omega⟩

theorem fits_of_whole? {v : Value} {k : Int} (h : v.whole? = some k) : Fits k := by
  unfold whole? at h
  split at h
  next i =>
    cases h
    exact ⟨Int64.le_toInt i, Int64.toInt_lt i⟩
  next b =>
    cases h
    cases b <;> decide
  next =>
    cases h
    decide
  next => exact nomatch h

/-! ## Operations on two whole numbers -/

section Whole

variable {a b : Value} {m n : Int} {exact : Int → Int → Option Int64}
  {rounded : Float → Float → Float}

theorem arithmetic_of_some {i : Int64} (ha : a.whole? = some m) (hb : b.whole? = some n)
    (h : exact m n = some i) : arithmetic exact rounded a b = .int i := by
  simp only [arithmetic, ha, hb, h]

theorem arithmetic_of_none (ha : a.whole? = some m) (hb : b.whole? = some n)
    (h : exact m n = none) :
    arithmetic exact rounded a b = .float (rounded a.toNumber b.toNumber) := by
  simp only [arithmetic, ha, hb, h]

/-- An operation that takes its exact result for a word answers exactly. -/
theorem exact_arithmetic {k : Int} (ha : a.whole? = some m) (hb : b.whole? = some n)
    (h : exact m n = word? k) :
    Exact (arithmetic exact rounded a b) k (rounded a.toNumber b.toNumber) where
  int hk := by
    obtain ⟨i, hi, hik⟩ := word?_of_fits hk
    exact ⟨i, arithmetic_of_some ha hb (h.trans hi), hik⟩
  float hk := arithmetic_of_none ha hb (h.trans (word?_of_not_fits hk))

theorem joinsTexts_of_whole? (ha : a.whole? = some m) : a.joinsTexts = false := by
  cases a with
  | null | bool _ | int _ => rfl
  | float _ | string _ | array _ | map _ => exact nomatch ha

theorem exact_add (ha : a.whole? = some m) (hb : b.whole? = some n) :
    Exact (a.add b) (m + n) (a.toNumber + b.toNumber) := by
  have hjoins : ¬ (a.joinsTexts || b.joinsTexts) = true := by
    rw [joinsTexts_of_whole? ha, joinsTexts_of_whole? hb]
    decide
  rw [add, if_neg hjoins]
  exact exact_arithmetic ha hb rfl

theorem exact_sub (ha : a.whole? = some m) (hb : b.whole? = some n) :
    Exact (a.sub b) (m - n) (a.toNumber - b.toNumber) :=
  exact_arithmetic ha hb rfl

theorem exact_mul (ha : a.whole? = some m) (hb : b.whole? = some n) :
    Exact (a.mul b) (m * n) (a.toNumber * b.toNumber) :=
  exact_arithmetic ha hb rfl

theorem exact_div (ha : a.whole? = some m) (hb : b.whole? = some n) (hn : n ≠ 0) (hd : n ∣ m) :
    Exact (a.div b) (m / n) (a.toNumber / b.toNumber) := by
  have hmod : m.tmod n = 0 := Int.tmod_eq_zero_of_dvd hd
  apply exact_arithmetic ha hb
  rw [if_pos ⟨hn, hmod⟩, Int.tdiv_eq_ediv_of_dvd hd]

theorem div_of_not_dvd (ha : a.whole? = some m) (hb : b.whole? = some n) (h : n = 0 ∨ ¬ n ∣ m) :
    a.div b = .float (a.toNumber / b.toNumber) := by
  apply arithmetic_of_none ha hb
  apply if_neg
  rintro ⟨hn, hmod⟩
  exact h.elim hn fun hd => hd (Int.dvd_of_tmod_eq_zero hmod)

/-! ## The remainder -/

/-- Only the least integer divided by -1 has a quotient that does not fit. -/
theorem fits_tdiv (hm : Fits m) (hn : n ≠ 0) (hne : ¬ (m = -2 ^ 63 ∧ n = -1)) :
    Fits (m.tdiv n) := by
  have hle : (m.tdiv n).natAbs ≤ m.natAbs := Int.natAbs_tdiv_le_natAbs m n
  unfold Fits at *
  by_cases hone : n = -1
  · have hneg : m.tdiv n = -m := by rw [hone, Int.tdiv_neg, Int.tdiv_one]
    omega
  -- otherwise the quotient is the dividend's size at most, and less with the other sign
  by_cases hpos : 0 < n
  · rcases Int.le_total 0 m with h0 | h0
    · have := Int.tdiv_nonneg h0 (Int.le_of_lt hpos)
      omega
    · have hquot : m.tdiv n = -((-m).tdiv n) := by rw [Int.neg_tdiv, Int.neg_neg]
      have := Int.tdiv_nonneg (Int.neg_nonneg_of_nonpos h0) (Int.le_of_lt hpos)
      omega
  · have hhalf : (m.tdiv n).natAbs ≤ m.natAbs / 2 := by
      rw [Int.natAbs_tdiv]
      exact Nat.div_le_div_left (by omega) (by decide)
    omega

theorem fits_tmod (hm : Fits m) : Fits (m.tmod n) := by
  have habs : (m.tmod n).natAbs ≤ m.natAbs := by
    rw [Int.natAbs_tmod]
    exact Nat.mod_le _ _
  -- the remainder has the sign of the dividend, so it is not `2 ^ 63`
  have hneg : m ≤ 0 → m.tmod n ≤ 0 := by
    intro h
    have := Int.tmod_nonneg n (Int.neg_nonneg_of_nonpos h)
    rw [Int.neg_tmod] at this
    omega
  unfold Fits at *
  omega

theorem rem_eq_int (ha : a.whole? = some m) (hb : b.whole? = some n) (hn : n ≠ 0)
    (hne : ¬ (m = -2 ^ 63 ∧ n = -1)) : ∃ i : Int64, a.rem b = .int i ∧ i.toInt = m.tmod n := by
  have hm := fits_of_whole? ha
  obtain ⟨q, hq, -⟩ := word?_of_fits (fits_tdiv hm hn hne)
  obtain ⟨r, hr, hrem⟩ := word?_of_fits (fits_tmod (n := n) hm)
  refine ⟨r, arithmetic_of_some ha hb ?_, hrem⟩
  rw [if_neg hn, hq, Option.bind_some, hr]

theorem rem_by_zero (ha : a.whole? = some m) (hb : b.whole? = some 0) :
    a.rem b = .float (floatRemainder a.toNumber b.toNumber) :=
  arithmetic_of_none ha hb (if_pos rfl)

/-- The remainder would be zero, but its quotient does not fit. -/
theorem rem_least (ha : a.whole? = some (-2 ^ 63)) (hb : b.whole? = some (-1)) :
    a.rem b = .float (floatRemainder a.toNumber b.toNumber) := by
  apply arithmetic_of_none ha hb
  have hquot : ¬ Fits ((-2 ^ 63 : Int).tdiv (-1)) := by decide
  rw [if_neg (by decide), word?_of_not_fits hquot, Option.bind_none]

end Whole

theorem exact_neg (i : Int64) : Exact (int i).neg (-i.toInt) (-floatOfInt i) where
  int hk := by
    obtain ⟨n, hn, hnk⟩ := word?_of_fits hk
    exact ⟨n, by simp only [neg, hn], hnk⟩
  float hk := by simp only [neg, word?_of_not_fits hk]

end Value

open Value

/-- On whole numbers the operators are exact, and they are floats only where the exact result is no
64-bit integer; but the remainder of the least integer by -1 is a float too. -/
theorem whole_arithmetic {a b : Value} {m n : Int} (ha : a.whole? = some m)
    (hb : b.whole? = some n) :
    Exact (BinaryOp.add.apply a b) (m + n) (a.toNumber + b.toNumber) ∧
    Exact (BinaryOp.sub.apply a b) (m - n) (a.toNumber - b.toNumber) ∧
    Exact (BinaryOp.mul.apply a b) (m * n) (a.toNumber * b.toNumber) ∧
    (n ≠ 0 → n ∣ m → Exact (BinaryOp.div.apply a b) (m / n) (a.toNumber / b.toNumber)) ∧
    (n = 0 ∨ ¬ n ∣ m → BinaryOp.div.apply a b = .float (a.toNumber / b.toNumber)) ∧
    (n ≠ 0 → ((∃ i : Int64, BinaryOp.rem.apply a b = .int i ∧ i.toInt = m.tmod n) ↔
      ¬ (m = -2 ^ 63 ∧ n = -1))) ∧
    (n = 0 ∨ m = -2 ^ 63 ∧ n = -1 →
      BinaryOp.rem.apply a b = .float (floatRemainder a.toNumber b.toNumber)) ∧
    (∀ i : Int64, Exact (UnaryOp.neg.apply (.int i)) (-i.toInt) (-floatOfInt i)) ∧
    Exact (AssignOp.add.apply a b) (m + n) (a.toNumber + b.toNumber) ∧
    Exact (AssignOp.sub.apply a b) (m - n) (a.toNumber - b.toNumber) := by
  have hleast : n = 0 ∨ m = -2 ^ 63 ∧ n = -1 →
      a.rem b = .float (floatRemainder a.toNumber b.toNumber) := by
    rintro (rfl | ⟨rfl, rfl⟩)
    · exact rem_by_zero ha hb
    · exact rem_least ha hb
  have hrem : n ≠ 0 → ((∃ i : Int64, a.rem b = .int i ∧ i.toInt = m.tmod n) ↔
      ¬ (m = -2 ^ 63 ∧ n = -1)) := by
    refine fun hn => ⟨fun ⟨i, hi, _⟩ h => ?_, rem_eq_int ha hb hn⟩
    exact nomatch hi.symm.trans (hleast (Or.inr h))
  exact ⟨exact_add ha hb, exact_sub ha hb, exact_mul ha hb, exact_div ha hb, div_of_not_dvd ha hb,
    hrem, hleast, exact_neg, exact_add ha hb, exact_sub ha hb⟩

/-- The greatest integer and `true`: the sum is past the range, and the others are not. -/
theorem whole_arithmetic_greatest :
    (Value.int Int64.maxValue).whole? = some (2 ^ 63 - 1) ∧ (Value.bool true).whole? = some 1 ∧
      BinaryOp.add.apply (.int Int64.maxValue) (.bool true) =
        .float (floatOfInt Int64.maxValue + 1) ∧
      ∃ i : Int64, BinaryOp.sub.apply (.int Int64.maxValue) (.bool true) = .int i ∧
        i.toInt = 2 ^ 63 - 2 := by
  have ha : (Value.int Int64.maxValue).whole? = some (2 ^ 63 - 1) := by decide
  have hb : (Value.bool true).whole? = some 1 := rfl
  obtain ⟨hadd, hsub, -⟩ := whole_arithmetic ha hb
  exact ⟨ha, hb, hadd.float (by decide), hsub.int (by decide)⟩

/-- The least integer has no whole remainder by -1, although that would be zero. -/
theorem remainder_of_least_not_whole :
    ¬ ∀ (a b : Value) (m n : Int), a.whole? = some m → b.whole? = some n → n ≠ 0 →
      ∃ i : Int64, BinaryOp.rem.apply a b = .int i ∧ i.toInt = m.tmod n := by
  intro h
  have ha : (Value.int Int64.minValue).whole? = some (-2 ^ 63) := by decide
  have hb : (Value.int (-1)).whole? = some (-1) := by decide
  obtain ⟨i, hi, -⟩ := h _ _ _ _ ha hb (by decide)
  exact nomatch hi.symm.trans (rem_least ha hb)

end PugTemplate
