import PugTemplate.Proofs.Text.Fields
import PugTemplate.Proofs.Text.Marker

/-!
# Text of several lines

Markers are closed in the line in which they stand, so lines can be joined without one of them
reaching into the next, and a tag inside text is within one line.
-/

namespace PugTemplate

/-- Lines with a line feed in front of each. -/
def joined (lines : List (List Char)) : List Char :=
  lines.flatMap fun line => '\n' :: line

theorem fields_append_joined {first : List Char} {rest : List (List Char)}
    (h : ∀ line ∈ first :: rest, '\n' ∉ line) :
    fields '\n' (first ++ joined rest) = first :: rest := by
  induction rest generalizing first with
  | nil =>
    rw [joined, List.flatMap_nil, List.append_nil]
    exact fields_of_notMem (h first List.mem_cons_self)
  | cons line rest ih =>
    obtain ⟨hfirst, hrest⟩ := List.forall_mem_cons.mp h
    exact (fields_append_cons hfirst _).trans (congrArg (first :: ·) (ih hrest))

/-- A line of a text is a field of it, but for a carriage return at its end. -/
theorem getElem?_lines {cs line : List Char} {i : Nat} (h : (lines cs)[i]? = some line) :
    ∃ f, (fields '\n' cs)[i]? = some f ∧ line <+: f := by
  have hstrip (f : List Char) : (if f.getLast? = some '\r' then f.dropLast else f) <+: f := by
    split
    · exact List.dropLast_prefix f
    · exact List.prefix_rfl
  unfold lines at h
  split at h
  next => exact nomatch h
  next last ended hfields =>
    have heq : fields '\n' cs = ended.reverse ++ [last] := by
      rw [← List.reverse_reverse (fields '\n' cs), hfields, List.reverse_cons]
    have hended {j : Nat} (hj : (ended.reverse.map fun l =>
        if l.getLast? = some '\r' then l.dropLast else l)[j]? = some line) :
        ∃ f, (fields '\n' cs)[j]? = some f ∧ line <+: f := by
      rw [List.getElem?_map, Option.map_eq_some_iff] at hj
      obtain ⟨f, hf, rfl⟩ := hj
      refine ⟨f, ?_, hstrip f⟩
      rw [heq, List.getElem?_append_left (List.getElem?_eq_some_iff.mp hf).1, hf]
    dsimp only at h
    split at h
    · exact hended h
    · rw [List.getElem?_append] at h
      split at h
      next => exact hended h
      next hi =>
        rw [List.getElem?_singleton] at h
        split at h
        next hzero =>
          cases h
          refine ⟨line, ?_, List.prefix_rfl⟩
          rw [List.length_map] at hi hzero
          rw [heq, List.getElem?_append_right (Nat.le_of_not_lt hi), hzero]
          rfl
        next => exact nomatch h

/-- One line of text with all its markers closed; that does not depend on where the text begins. -/
structure Printed (line : List Char) : Prop where
  oneLine : '\n' ∉ line
  closed : ∃ offset, Piece.firstBroken? (Piece.split offset line) = none

namespace Printed

variable {c : Char} {cs : List Char}

theorem nil : Printed [] := by
  refine ⟨List.not_mem_nil, 0, ?_⟩
  rw [Piece.split]
  rfl

/-- Behind a marker that a backslash makes plain text. -/
theorem of_escaped (h : Printed (c :: cs)) (hesc : c = '\\' ∧ (Piece.marker? cs).isSome) :
    Printed (cs.drop 2) := by
  obtain ⟨hfeed, offset, hclosed⟩ := h
  refine ⟨fun hm => hfeed (List.mem_cons_of_mem c (List.mem_of_mem_drop hm)), offset + 3, ?_⟩
  rwa [Piece.split, if_pos hesc, Piece.firstBroken?_prependLiteral] at hclosed

theorem of_plain (h : Printed (c :: cs)) (hesc : ¬ (c = '\\' ∧ (Piece.marker? cs).isSome))
    (hm : Piece.marker? (c :: cs) = none) : Printed cs := by
  obtain ⟨hfeed, offset, hclosed⟩ := h
  refine ⟨fun hm => hfeed (List.mem_cons_of_mem c hm), offset + c.utf8Size, ?_⟩
  rwa [Piece.split, if_neg hesc, hm, Piece.firstBroken?_prependLiteral] at hclosed

/-- A marker is closed, and so are those behind it. -/
theorem of_marker (h : Printed (c :: cs)) (hesc : ¬ (c = '\\' ∧ (Piece.marker? cs).isSome))
    {b : Bracket} {escape : Bool} (hm : Piece.marker? (c :: cs) = some (b, escape)) :
    ∃ source, Nesting.inside b cs.tail = .ok source ∧ Printed (cs.drop (source.length + 2)) := by
  obtain ⟨hfeed, offset, hclosed⟩ := h
  rw [Piece.split, if_neg hesc, hm] at hclosed
  dsimp only at hclosed
  split at hclosed
  next => cases hclosed
  next source hs =>
    refine ⟨source, hs, fun hm => hfeed (List.mem_cons_of_mem c (List.mem_of_mem_drop hm)), ?_⟩
    rw [Piece.firstBroken?_enclosed] at hclosed
    exact ⟨_, hclosed⟩

end Printed

namespace Piece

/-- A piece that ends before some offset, a tag within one line. -/
def Within (limit : Nat) : Piece → Prop
  | literal _ => True
  | output offset _ _ => offset ≤ limit
  | tag offset source => offset + 2 + byteLength source ≤ limit ∧ '\n' ∉ source
  | broken _ _ => False

theorem within_prependLiteral {limit : Nat} (cs : List Char) {ps : List Piece}
    (h : ∀ p ∈ ps, p.Within limit) : ∀ p ∈ prependLiteral cs ps, p.Within limit := by
  unfold prependLiteral
  split
  · exact List.forall_mem_cons.mpr ⟨trivial, (List.forall_mem_cons.mp h).2⟩
  · exact List.forall_mem_cons.mpr ⟨trivial, h⟩

theorem within_enclosed {limit offset : Nat} (b : Bracket) (escape : Bool) {source : List Char}
    (hl : offset + 2 + byteLength source ≤ limit) (hfeed : '\n' ∉ source) :
    (enclosed offset b escape source).Within limit := by
  unfold enclosed
  split
  · exact ⟨hl, hfeed⟩
  · exact Nat.le_trans (by omega) hl

/-- The first line of joined lines, or the line feed behind it if it is empty. -/
theorem cons_eq_append_joined {c : Char} {cs line : List Char} {more : List (List Char)}
    (h : c :: cs = line ++ joined more) :
    (∃ line', line = c :: line' ∧ cs = line' ++ joined more) ∨
      ∃ l ls, line = [] ∧ more = l :: ls ∧ c = '\n' ∧ cs = l ++ joined ls := by
  cases line with
  | cons a line =>
    obtain ⟨rfl, rfl⟩ := List.cons_eq_cons.mp h
    exact .inl ⟨line, rfl, rfl⟩
  | nil =>
    cases more with
    | nil => exact nomatch h
    | cons l ls =>
      obtain ⟨rfl, rfl⟩ := List.cons_eq_cons.mp h
      exact .inr ⟨l, ls, rfl, rfl, rfl, rfl⟩

/-- A marker does not reach over the end of a line. -/
theorem marker?_append_joined (line : List Char) (more : List (List Char)) :
    marker? (line ++ joined more) = marker? line := by
  match line, more with
  | [], [] => rfl
  | [], _ :: _ => rfl
  | [_], [] => rfl
  | [a], _ :: _ =>
    show marker? (a :: '\n' :: _) = marker? [a]
    unfold marker?
    split <;> simp_all
  | a :: b :: line, more =>
    show marker? (a :: b :: (line ++ joined more)) = marker? (a :: b :: line)
    unfold marker?
    grind

/-- The pieces of joined lines, each of which is printed. -/
theorem within_split {limit offset : Nat} {line : List Char} {more : List (List Char)}
    (hline : Printed line) (hmore : ∀ l ∈ more, Printed l)
    (hl : offset + byteLength (line ++ joined more) ≤ limit) :
    ∀ p ∈ split offset (line ++ joined more), p.Within limit := by
  generalize hcs : line ++ joined more = cs at hl
  fun_induction split offset cs generalizing line more with
  | case1 => exact fun p hp => absurd hp List.not_mem_nil
  | case2 offset c cs hesc ih =>
    obtain ⟨line, rfl, rfl⟩ | ⟨l, ls, rfl, rfl, rfl, rfl⟩ := cons_eq_append_joined hcs.symm
    · rw [marker?_append_joined] at hesc
      obtain ⟨⟨b, escape⟩, hm⟩ := Option.isSome_iff_exists.mp hesc.2
      obtain ⟨x, y, line, rfl, hx, hy⟩ := marker?_cases hm
      refine within_prependLiteral _ (ih (hline.of_escaped hesc) hmore rfl ?_)
      have hc := c.utf8Size_pos
      simp only [List.cons_append, byteLength, hx, hy] at hl
      show offset + 3 + byteLength (line ++ joined more) ≤ limit
      omega
    · exact absurd hesc.1 (by decide)
  | case3 offset c cs hesc hm ih =>
    obtain ⟨line, rfl, rfl⟩ | ⟨l, ls, rfl, rfl, rfl, rfl⟩ := cons_eq_append_joined hcs.symm
    · rw [marker?_append_joined] at hesc
      rw [← List.cons_append, marker?_append_joined] at hm
      refine within_prependLiteral _ (ih (hline.of_plain hesc hm) hmore rfl ?_)
      simp only [byteLength] at hl ⊢
      omega
    · obtain ⟨hl', hmore⟩ := List.forall_mem_cons.mp hmore
      refine within_prependLiteral _ (ih hl' hmore rfl ?_)
      simp only [byteLength] at hl ⊢
      omega
  | case4 offset c cs hesc b escape hm failure hf =>
    obtain ⟨line, rfl, rfl⟩ | ⟨l, ls, rfl, rfl, rfl, rfl⟩ := cons_eq_append_joined hcs.symm
    · rw [marker?_append_joined] at hesc
      rw [← List.cons_append, marker?_append_joined] at hm
      obtain ⟨source, hs, -⟩ := hline.of_marker hesc hm
      obtain ⟨x, y, line, heq, -⟩ := marker?_cases hm
      cases heq
      have hok := Nesting.inside_append hs (joined more)
      cases hf.symm.trans hok
    · cases hm
  | case5 offset c cs hesc b escape hm source hf ih =>
    obtain ⟨line, rfl, rfl⟩ | ⟨l, ls, rfl, rfl, rfl, rfl⟩ := cons_eq_append_joined hcs.symm
    · rw [marker?_append_joined] at hesc
      rw [← List.cons_append, marker?_append_joined] at hm
      obtain ⟨source', hs, hrest⟩ := hline.of_marker hesc hm
      obtain ⟨x, y, line, heq, hx, hy⟩ := marker?_cases hm
      cases heq
      cases hf.symm.trans (Nesting.inside_append hs (joined more))
      obtain ⟨rest, hclose⟩ := Nesting.inside_closing hs
      dsimp only [List.tail_cons] at hclose
      subst hclose
      have hdrop (ds : List Char) :
          (y :: (source ++ b.closing :: ds)).drop (source.length + 2) = ds := by simp
      rw [hdrop] at hrest
      have htail : (y :: (source ++ b.closing :: rest) ++ joined more).drop (source.length + 2) =
          rest ++ joined more := by simp
      rw [htail] at ih ⊢
      simp only [List.cons_append, List.append_assoc, byteLength, byteLength_append, hx, hy,
        utf8Size_closing] at hl
      have hfeed : '\n' ∉ source := fun hm => hline.oneLine (by simp [hm])
      refine List.forall_mem_cons.mpr ⟨within_enclosed b escape (by omega) hfeed, ?_⟩
      exact ih hrest hmore rfl (by rw [byteLength_append]; omega)
    · cases hm

end Piece

end PugTemplate
