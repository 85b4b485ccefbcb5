import PugTemplate.Lex.Pipeless
import PugTemplate.Proofs.Text.Printed

/-!
# The lines of a block of text

The deeper lines below stand in the text as they are, and each line that shows something is indented
at least as deep as what is taken off all of them.
-/

namespace PugTemplate

theorem lineOf_isPrefix (cs : List Char) : lineOf cs <+: cs :=
  List.takeWhile_prefix _

theorem feed_notMem_lineOf (cs : List Char) : '\n' ∉ lineOf cs := by
  intro h
  have hfeed := List.all_eq_true.mp (List.all_takeWhile (l := cs) (p := (· ≠ '\n'))) _ h
  simp at hfeed

/-- Behind a line, the line is at its end. -/
theorem lineOf_drop (cs : List Char) : lineOf (cs.drop (lineOf cs).length) = [] := by
  induction cs with
  | nil => rfl
  | cons c cs ih =>
    by_cases hc : c = '\n'
    · simp [lineOf, hc]
    · have hline : lineOf (c :: cs) = c :: lineOf cs := by simp [lineOf, hc]
      rw [hline]
      exact ih

theorem byteLength_of_isIndent {cs : List Char} (h : ∀ c ∈ cs, isIndent c) :
    byteLength cs = cs.length := by
  induction cs with
  | nil => rfl
  | cons c cs ih =>
    obtain ⟨hc, hcs⟩ := List.forall_mem_cons.mp h
    have hsize : c.utf8Size = 1 := by
      simp only [isIndent, Bool.or_eq_true, beq_iff_eq] at hc
      rcases hc with rfl | rfl <;> decide
    rw [byteLength, hsize, ih hcs, List.length_cons, Nat.add_comm]

namespace Pipeless

/-- The deeper lines below stand in the text as they are. -/
theorem joined_deeperLines (width : Nat) (cs : List Char) :
    joined (deeperLines width cs) <+: cs ∧ ∀ line ∈ deeperLines width cs, '\n' ∉ line := by
  fun_induction deeperLines width cs with
  | case1 => simp [joined]
  | case2 => simp [joined]
  | case3 cs line hline ih =>
    have hcs : line ++ cs.drop line.length = cs := List.prefix_iff_eq_append.mp (lineOf_isPrefix cs)
    refine ⟨?_, List.forall_mem_cons.mpr ⟨feed_notMem_lineOf cs, ih.2⟩⟩
    have hmore := (List.prefix_append_right_inj ('\n' :: line)).mpr ih.1
    rw [List.cons_append, List.cons_append, hcs] at hmore
    exact hmore
  | case4 => simp [joined]

theorem dropBlankEnd_isPrefix (lines : List (List Char)) : dropBlankEnd lines <+: lines := by
  have h := List.reverse_prefix.mpr (List.dropWhile_suffix (l := lines.reverse) allBlank)
  rwa [List.reverse_reverse] at h

/-- The common indentation is part of every line that shows something. -/
theorem commonIndent_le {lines : List (List Char)} {line : List Char} (hm : line ∈ lines)
    (hb : allBlank line = false) : commonIndent lines ≤ indentOf line := by
  have hmem : indentOf line ∈ (lines.filter fun l => !allBlank l).map indentOf :=
    List.mem_map_of_mem (List.mem_filter.mpr ⟨hm, by simp [hb]⟩)
  unfold commonIndent
  cases hmin : ((lines.filter fun l => !allBlank l).map indentOf).min? with
  | none => simp
  | some m => exact (List.min?_eq_some_iff.mp hmin).2 _ hmem

/-- Lines below a place, each that shows something indented by some width at least. -/
structure Below (base : Nat) (c : Cursor) (lines : List (List Char)) : Prop where
  stand : joined lines <+: c.rest
  oneLine : ∀ line ∈ lines, '\n' ∉ line
  deep : ∀ line ∈ lines, allBlank line = false → base ≤ indentOf line

theorem below_read (width : Nat) (c : Cursor) :
    Below (commonIndent (dropBlankEnd (deeperLines width c.rest))) c
      (dropBlankEnd (deeperLines width c.rest)) := by
  have hjoined := joined_deeperLines width c.rest
  have hkept := dropBlankEnd_isPrefix (deeperLines width c.rest)
  refine ⟨?_, fun line hm => hjoined.2 line (hkept.subset hm), fun line => commonIndent_le⟩
  obtain ⟨more, hmore⟩ := hkept
  rw [← hmore, joined, List.flatMap_append] at hjoined
  exact (List.prefix_append _ _).trans hjoined.1

/-- What a line shows. -/
def shownText (base : Nat) (line : List Char) : List Char :=
  if allBlank line then [] else line.drop base

/-- The place of what the line below shows. -/
def shownAt (base : Nat) (c : Cursor) (line : List Char) : Cursor :=
  (c.skip 1).skip (if allBlank line then 0 else base)

theorem lineTokens_cons (check : Bool) (base : Nat) (first : Bool) (c : Cursor) (line : List Char)
    (lines : List (List Char)) :
    lineTokens check base first c (line :: lines) = (do
      if check then checkMarkers (shownAt base c line).loc (shownText base line)
      let more ← lineTokens check base false ((c.skip 1).skip line.length) lines
      let tokens := ⟨.text (String.ofList (shownText base line)), (shownAt base c line).loc⟩ :: more
      return if first then tokens else ⟨.newline, (c.skip 1).loc⟩ :: tokens) :=
  rfl

namespace Below

variable {base : Nat} {c : Cursor} {line : List Char} {lines : List (List Char)}

theorem front (h : Below base c (line :: lines)) : c.rest.head? = some '\n' := by
  obtain ⟨more, hmore⟩ := h.stand
  rw [← hmore]
  rfl

/-- The first line, and the place below it. -/
theorem rest_skip (h : Below base c (line :: lines)) :
    ∃ more, (c.skip 1).rest = line ++ (joined lines ++ more) := by
  obtain ⟨more, hmore⟩ := h.stand
  refine ⟨more, ?_⟩
  rw [Cursor.rest_skip, ← hmore]
  simp [joined]

theorem next (h : Below base c (line :: lines)) :
    Below base ((c.skip 1).skip line.length) lines := by
  obtain ⟨more, hmore⟩ := h.rest_skip
  refine ⟨?_, (List.forall_mem_cons.mp h.oneLine).2, (List.forall_mem_cons.mp h.deep).2⟩
  rw [Cursor.rest_skip, hmore, List.drop_left]
  exact List.prefix_append _ _

/-- What is taken off a line is part of it, and indentation. -/
theorem shown_le (h : Below base c (line :: lines)) :
    (if allBlank line then 0 else base) ≤ indentOf line := by
  split
  · exact Nat.zero_le _
  next hb => exact h.deep line List.mem_cons_self (by simpa using hb)

theorem shown_le_length (h : Below base c (line :: lines)) :
    (if allBlank line then 0 else base) ≤ line.length :=
  Nat.le_trans h.shown_le (List.takeWhile_prefix _).length_le

theorem shownText_isPrefix (h : Below base c (line :: lines)) :
    shownText base line <+: (shownAt base c line).rest := by
  obtain ⟨more, hmore⟩ := h.rest_skip
  rw [shownAt, Cursor.rest_skip, hmore, List.drop_append_of_le_length h.shown_le_length, shownText]
  split
  · exact List.nil_prefix
  · exact List.prefix_append _ _

theorem feed_notMem_shownText (h : Below base c lines) (hm : line ∈ lines) :
    '\n' ∉ shownText base line := by
  unfold shownText
  split
  · exact List.not_mem_nil
  · exact fun hfeed => h.oneLine line hm (List.mem_of_mem_drop hfeed)

theorem loc_skip (h : Below base c (line :: lines)) : (c.skip 1).loc = ⟨c.loc.line + 1, 1⟩ := by
  obtain ⟨cs, hcs⟩ := List.head?_eq_some_iff.mp h.front
  simp [Cursor.skip, hcs, Location.after]

/-- What is shown stands behind what is taken off. -/
theorem loc_shownAt (h : Below base c (line :: lines)) :
    (shownAt base c line).loc = ⟨c.loc.line + 1, 1 + if allBlank line then 0 else base⟩ := by
  have hle := h.shown_le
  obtain ⟨more, hmore⟩ := h.rest_skip
  unfold shownAt
  generalize (if allBlank line then 0 else base) = shown at hle ⊢
  rw [← List.takeWhile_append_dropWhile (p := isIndent) (l := line), List.append_assoc] at hmore
  have htake : (c.skip 1).rest.take shown = (line.takeWhile isIndent).take shown := by
    rw [hmore, List.take_append_of_le_length hle]
  have hindent : ∀ x ∈ (c.skip 1).rest.take shown, isIndent x := by
    intro x hx
    rw [htake] at hx
    exact List.all_eq_true.mp List.all_takeWhile x (List.mem_of_mem_take hx)
  have hfeed : '\n' ∉ (c.skip 1).rest.take shown := fun hm => absurd (hindent _ hm) (by decide)
  have hlen : ((c.skip 1).rest.take shown).length = shown := by
    rw [htake]
    exact List.length_take_of_le hle
  show (c.skip 1).loc.afterText _ = _
  rw [Location.afterText_of_no_feed hfeed, byteLength_of_isIndent hindent, hlen, h.loc_skip]
  rfl

theorem line_next (h : Below base c (line :: lines)) :
    ((c.skip 1).skip line.length).loc.line = c.loc.line + 1 := by
  obtain ⟨more, hmore⟩ := h.rest_skip
  have htake : (c.skip 1).rest.take line.length = line := by rw [hmore, List.take_left]
  have hfeed : '\n' ∉ (c.skip 1).rest.take line.length := by
    rw [htake]
    exact h.oneLine line List.mem_cons_self
  show ((c.skip 1).loc.afterText _).line = _
  rw [Location.afterText_of_no_feed hfeed, h.loc_skip]
  rfl

end Below

end Pipeless

end PugTemplate
