import Mathlib.Data.List.Induction
import PugTemplate.Proofs.Text.Fields
import PugTemplate.Text.Location

/-!
# The positions of a text

The position behind the beginning of a text is counted from that beginning alone, and it is in the
text: in one of its lines, or right behind one.
-/

namespace PugTemplate

namespace Location

/-- The position behind what a source begins with: a line for each line feed, and a column for each
byte behind the last of them. -/
def behind (before : List Char) : Location :=
  ⟨1 + before.count '\n', 1 + byteLength (before.reverse.takeWhile (· ≠ '\n'))⟩

theorem afterText_start (before : List Char) : start.afterText before = behind before := by
  induction before using List.reverseRecOn with
  | nil => rfl
  | append_singleton before c ih =>
    rw [afterText_append, ih, afterText_cons, afterText_nil]
    by_cases hc : c = '\n'
    · simp [after, behind, hc, byteLength, Nat.add_comm]
    · simp [after, behind, hc, byteLength, Nat.add_comm, Nat.add_left_comm]

theorem line_le_afterText (loc : Location) (cs : List Char) :
    loc.line ≤ (loc.afterText cs).line := by
  induction cs generalizing loc with
  | nil => exact Nat.le_refl _
  | cons c cs ih =>
    rw [afterText_cons]
    refine Nat.le_trans ?_ (ih (loc.after c))
    unfold after
    split
    · exact Nat.le_succ _
    · exact Nat.le_refl _

/-- A position in one of the lines of a text, or right behind it. -/
def In (loc : Location) (text : List Char) : Prop :=
  ∃ line, 1 ≤ loc.line ∧ (fields '\n' text)[loc.line - 1]? = some line ∧
    1 ≤ loc.column ∧ loc.column ≤ byteLength line + 1

/-- Reading on from a position stays in the lines of what is read. -/
theorem afterText_in (loc : Location) (before rest : List Char) :
    ∃ n line, (loc.afterText before).line = loc.line + n ∧
      (fields '\n' (before ++ rest))[n]? = some line ∧
      (if n = 0 then loc.column else 1) ≤ (loc.afterText before).column ∧
      (loc.afterText before).column ≤ (if n = 0 then loc.column else 1) + byteLength line := by
  induction before generalizing loc with
  | nil =>
    obtain ⟨f, fs, hf⟩ := exists_fields_cons '\n' rest
    exact ⟨0, f, rfl, by rw [List.nil_append, hf]; rfl, Nat.le_refl _, Nat.le_add_right _ _⟩
  | cons c before ih =>
    obtain ⟨n, line, hn, hline, hlow, hhigh⟩ := ih (loc.after c)
    rw [List.cons_append, fields]
    by_cases hc : c = '\n'
    · refine ⟨n + 1, line, ?_, ?_, ?_⟩
      · rw [afterText_cons, hn, after, if_pos hc, Nat.add_assoc, Nat.add_comm 1]
      · rw [if_pos hc]
        exact hline
      · simpa [after, hc] using And.intro hlow hhigh
    · obtain ⟨f, fs, hf⟩ := exists_fields_cons '\n' (before ++ rest)
      rw [if_neg hc, hf]
      rw [hf] at hline
      rw [after, if_neg hc] at hn hlow hhigh
      cases n with
      | zero =>
        obtain rfl : f = line := Option.some.inj hline
        refine ⟨0, c :: f, by rw [afterText_cons, after, if_neg hc, hn], rfl, ?_⟩
        simp only [if_pos, byteLength, afterText_cons, after, if_neg hc] at *
        omega
      | succ n =>
        refine ⟨n + 1, line, by rw [afterText_cons, after, if_neg hc, hn], hline, ?_⟩
        rw [afterText_cons, after, if_neg hc]
        exact ⟨hlow, hhigh⟩

/-- The position behind the beginning of a text is in the text. -/
theorem behind_in {before text : List Char} (h : before <+: text) : (behind before).In text := by
  obtain ⟨rest, rfl⟩ := h
  obtain ⟨n, line, hn, hline, hlow, hhigh⟩ := afterText_in start before rest
  have hstart : (if n = 0 then start.column else 1) = 1 := by split <;> rfl
  rw [hstart, afterText_start] at hlow hhigh
  rw [afterText_start] at hn
  have hl : (behind before).line - 1 = n := by
    rw [hn]
    exact Nat.add_sub_cancel_left 1 n
  refine ⟨line, ?_, by rw [hl]; exact hline, hlow, by omega⟩
  rw [hn]
  exact Nat.le_add_right 1 n

end Location

end PugTemplate
