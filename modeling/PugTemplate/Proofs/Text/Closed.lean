import PugTemplate.Proofs.Basic
import PugTemplate.Proofs.Text.Passage
import PugTemplate.Proofs.Text.Printed

/-!
# Closed text

Text whose markers are closed where they stand, as a grammar of its own. It does not mention the
scanners: what stands between a marker and its closing bracket closes all that it opens.
-/

namespace PugTemplate

namespace Nesting

/-- A text that closes what it opens, and nothing else. -/
def Balanced (cs : List Char) : Prop :=
  cs.foldlM feed [] = .ok []

variable {es : List Enclosure} {b : Bracket} {cs source : List Char}

theorem foldlM_of_untilClosed (h : untilClosed (es ++ [.bracket b]) cs = .ok source) :
    source.foldlM feed es = .ok [] := by
  induction cs generalizing es source with
  | nil => cases h
  | cons c cs ih =>
    unfold untilClosed at h
    split at h
    next => cases h
    next hf =>
      cases h
      obtain ⟨rfl, -, -⟩ | ⟨es', hes, -⟩ := feed_outermost hf
      · rfl
      · exact absurd hes (by simp)
    next hf =>
      obtain ⟨-, hes, -⟩ | ⟨es', hes, hfeed⟩ := feed_outermost hf
      · cases hes
      rw [hes] at h
      split at h
      next content hc =>
        cases h
        have hhere := hfeed [] trivial
        rw [List.append_nil, List.append_nil] at hhere
        rw [List.foldlM_cons, hhere]
        exact ih hc
      next => cases h

theorem untilClosed_of_foldlM (h : cs.foldlM feed es = .ok []) (rest : List Char) :
    untilClosed (es ++ [.bracket b]) (cs ++ b.closing :: rest) = .ok cs := by
  induction cs generalizing es with
  | nil =>
    cases h
    cases b <;> rfl
  | cons c cs ih =>
    rw [List.foldlM_cons] at h
    obtain ⟨mid, hc, h⟩ := of_bind_eq_ok h
    have hfeed : feed (es ++ [.bracket b]) c = .ok (mid ++ [.bracket b]) := feed_around trivial hc
    obtain ⟨e, more, hmid⟩ := List.exists_cons_of_ne_nil
      (List.append_ne_nil_of_right_ne_nil mid (List.cons_ne_nil (Enclosure.bracket b) []))
    have hcontent := ih h
    rw [hmid] at hfeed hcontent
    rw [List.cons_append, untilClosed, hfeed]
    dsimp only
    rw [hcontent]

/-- What stands inside brackets is balanced, and its closing bracket is the first one behind it. -/
theorem inside_eq_ok_iff :
    inside b cs = .ok source ↔ Balanced source ∧ ∃ rest, cs = source ++ b.closing :: rest := by
  constructor
  · intro h
    have hopen : untilClosed ([] ++ [.bracket b]) cs = .ok source := h
    exact ⟨foldlM_of_untilClosed hopen, inside_closing h⟩
  · rintro ⟨h, rest, rfl⟩
    exact untilClosed_of_foldlM h rest

end Nesting

/-- Text in which each marker that no backslash makes plain is closed by its bracket. -/
inductive Closed : List Char → Prop where
  | nil : Closed []
  | escaped {x y : Char} {cs : List Char} (hm : (Piece.marker? [x, y]).isSome) (h : Closed cs) :
      Closed ('\\' :: x :: y :: cs)
  | plain {c : Char} {cs : List Char} (hesc : ¬ (c = '\\' ∧ (Piece.marker? cs).isSome))
      (hm : Piece.marker? (c :: cs) = none) (h : Closed cs) : Closed (c :: cs)
  | marker {x y : Char} {b : Bracket} {escape : Bool} {source rest : List Char}
      (hm : Piece.marker? [x, y] = some (b, escape)) (hs : Nesting.Balanced source)
      (h : Closed rest) : Closed (x :: y :: (source ++ b.closing :: rest))

/-- Text each of whose lines is closed. -/
def LinesClosed (text : List Char) : Prop :=
  ∀ line ∈ fields '\n' text, Closed line

/-- Two characters make a marker. -/
theorem Piece.marker?_cons_cons (x y : Char) (cs : List Char) :
    marker? (x :: y :: cs) = marker? [x, y] := by
  unfold marker?
  grind

theorem Printed.closed_of {line : List Char} (h : Printed line) : Closed line := by
  match line with
  | [] => exact .nil
  | c :: cs =>
    by_cases hesc : c = '\\' ∧ (Piece.marker? cs).isSome
    · have hbehind := closed_of (h.of_escaped hesc)
      obtain ⟨rfl, hm⟩ := hesc
      obtain ⟨⟨b, escape⟩, hb⟩ := Option.isSome_iff_exists.mp hm
      obtain ⟨x, y, rest, rfl, -⟩ := Piece.marker?_cases hb
      exact .escaped (Piece.marker?_cons_cons x y rest ▸ hm) hbehind
    · cases hm : Piece.marker? (c :: cs) with
      | none => exact .plain hesc hm (closed_of (h.of_plain hesc hm))
      | some marker =>
        obtain ⟨source, hs, hrest⟩ := h.of_marker hesc hm
        obtain ⟨x, y, text, heq, -⟩ := Piece.marker?_cases hm
        cases heq
        obtain ⟨hbalanced, rest, rfl⟩ := Nesting.inside_eq_ok_iff.mp hs
        have hbehind := closed_of hrest
        rw [Piece.marker?_cons_cons] at hm
        refine .marker hm hbalanced ?_
        simpa using hbehind
termination_by line.length
decreasing_by
  all_goals
    subst_vars
    simp
    try omega

theorem Closed.firstBroken {line : List Char} (h : Closed line) (offset : Nat) :
    Piece.firstBroken? (Piece.split offset line) = none := by
  induction h generalizing offset with
  | nil =>
    rw [Piece.split]
    rfl
  | @escaped x y cs hm _ ih =>
    have hesc : '\\' = '\\' ∧ (Piece.marker? (x :: y :: cs)).isSome :=
      ⟨rfl, by rwa [Piece.marker?_cons_cons]⟩
    rw [Piece.split, if_pos hesc, Piece.firstBroken?_prependLiteral]
    exact ih _
  | plain hesc hm _ ih =>
    rw [Piece.split, if_neg hesc, hm, Piece.firstBroken?_prependLiteral]
    exact ih _
  | @marker x y b escape source rest hm hs _ ih =>
    have hesc : ¬ (x = '\\' ∧ (Piece.marker? (y :: (source ++ b.closing :: rest))).isSome) := by
      rintro ⟨rfl, -⟩
      cases hm
    have hinside : Nesting.inside b (source ++ b.closing :: rest) = .ok source :=
      Nesting.inside_eq_ok_iff.mpr ⟨hs, rest, rfl⟩
    rw [← Piece.marker?_cons_cons x y (source ++ b.closing :: rest)] at hm
    rw [Piece.split, if_neg hesc, hm]
    dsimp only [List.tail_cons]
    rw [hinside]
    dsimp only
    rw [Piece.firstBroken?_enclosed]
    simpa using ih _

/-- A line is printed by the lexer's check just if the grammar closes it. -/
theorem printed_iff_closed {line : List Char} : Printed line ↔ '\n' ∉ line ∧ Closed line :=
  ⟨fun h => ⟨h.oneLine, h.closed_of⟩, fun h => ⟨h.1, 0, h.2.firstBroken 0⟩⟩

/-- A text is its lines, joined again. -/
theorem exists_joined (text : List Char) :
    ∃ first more, text = first ++ joined more ∧ fields '\n' text = first :: more ∧
      ∀ line ∈ first :: more, '\n' ∉ line := by
  induction text with
  | nil => exact ⟨[], [], rfl, rfl, by simp⟩
  | cons c cs ih =>
    obtain ⟨first, more, rfl, hfields, hlines⟩ := ih
    by_cases hc : c = '\n'
    · subst hc
      refine ⟨[], first :: more, rfl, ?_, List.forall_mem_cons.mpr ⟨List.not_mem_nil, hlines⟩⟩
      rw [fields, if_pos rfl, hfields]
    · refine ⟨c :: first, more, rfl, ?_, ?_⟩
      · rw [fields, if_neg hc, hfields]
      · obtain ⟨hfirst, hmore⟩ := List.forall_mem_cons.mp hlines
        refine List.forall_mem_cons.mpr ⟨fun hm => ?_, hmore⟩
        exact (List.mem_cons.mp hm).elim (hc ·.symm) hfirst

/-- A text is joined of printed lines just if its lines are closed. -/
theorem linesClosed_iff {text : List Char} :
    LinesClosed text ↔
      ∃ first more, text = first ++ joined more ∧ ∀ line ∈ first :: more, Printed line := by
  constructor
  · intro h
    obtain ⟨first, more, htext, hfields, hlines⟩ := exists_joined text
    refine ⟨first, more, htext, fun line hline => printed_iff_closed.mpr ⟨hlines line hline, ?_⟩⟩
    exact h line (hfields ▸ hline)
  · rintro ⟨first, more, rfl, hlines⟩ line hline
    rw [fields_append_joined fun l hl => (hlines l hl).oneLine] at hline
    exact (hlines line hline).closed_of

end PugTemplate
