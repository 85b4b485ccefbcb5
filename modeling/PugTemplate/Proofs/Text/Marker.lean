import PugTemplate.Proofs.Text.Nesting
import PugTemplate.Text.Marker

/-!
# Where the markers of a text stand

Offsets count the bytes in front of a marker, so each of them is the length of a part of the text.
-/

namespace PugTemplate

namespace Piece

/-- The characters of a marker, a single byte each. -/
theorem marker?_cases {cs : List Char} {b : Bracket} {escape : Bool}
    (h : marker? cs = some (b, escape)) :
    ∃ x y rest, cs = x :: y :: rest ∧ x.utf8Size = 1 ∧ y.utf8Size = 1 := by
  unfold marker? at h
  split at h
  · exact ⟨_, _, _, rfl, by decide, by decide⟩
  · exact ⟨_, _, _, rfl, by decide, by decide⟩
  · exact ⟨_, _, _, rfl, by decide, by decide⟩
  · exact nomatch h

theorem utf8Size_closing (b : Bracket) : b.closing.utf8Size = 1 := by
  cases b <;> decide

theorem firstBroken?_prependLiteral (cs : List Char) (ps : List Piece) :
    firstBroken? (prependLiteral cs ps) = firstBroken? ps := by
  unfold prependLiteral
  split <;> rfl

theorem firstBroken?_enclosed (offset : Nat) (b : Bracket) (escape : Bool) (source : List Char)
    (ps : List Piece) : firstBroken? (enclosed offset b escape source :: ps) = firstBroken? ps := by
  unfold enclosed
  split <;> rfl

/-- A marker that is not closed is reported inside the text. -/
theorem offset_of_firstBroken {offset at_ : Nat} {cs : List Char} {v : Nesting.Violation}
    (h : firstBroken? (split offset cs) = some (v, at_)) :
    ∃ before, before <+: cs ∧ at_ = offset + byteLength before := by
  fun_induction split offset cs with
  | case1 => exact nomatch h
  | case2 offset c cs hesc ih =>
    rw [firstBroken?_prependLiteral] at h
    obtain ⟨before, hbefore, rfl⟩ := ih h
    obtain ⟨⟨b, escape⟩, hm⟩ := Option.isSome_iff_exists.mp hesc.2
    obtain ⟨x, y, rest, rfl, hx, hy⟩ := marker?_cases hm
    refine ⟨c :: x :: y :: before, ?_, ?_⟩
    · simpa using hbefore
    · have hc : c.utf8Size = 1 := hesc.1 ▸ (by decide)
      simp only [byteLength, hc, hx, hy]
      omega
  | case3 offset c cs _ _ ih =>
    rw [firstBroken?_prependLiteral] at h
    obtain ⟨before, hbefore, rfl⟩ := ih h
    refine ⟨c :: before, by simpa using hbefore, ?_⟩
    simp only [byteLength]
    omega
  | case4 offset c cs _ b escape hm failure hf =>
    cases h
    obtain ⟨x, y, rest, hcs, hx, hy⟩ := marker?_cases hm
    cases hcs
    refine ⟨c :: y :: failure.before, ?_, ?_⟩
    · simpa using Nesting.inside_before hf
    · simp only [byteLength, hx, hy]
      omega
  | case5 offset c cs _ b escape hm source hs ih =>
    rw [firstBroken?_enclosed] at h
    obtain ⟨before, hbefore, rfl⟩ := ih h
    obtain ⟨x, y, rest, hcs, hx, hy⟩ := marker?_cases hm
    cases hcs
    obtain ⟨more, hmore⟩ := Nesting.inside_closing hs
    dsimp only [List.tail_cons] at hmore
    subst hmore
    refine ⟨c :: y :: source ++ b.closing :: before, ?_, ?_⟩
    · simpa using hbefore
    · simp only [List.cons_append, byteLength, byteLength_append, hx, hy, utf8Size_closing]
      omega

end Piece

end PugTemplate
