import PugTemplate.Proofs.Lex.Run

/-!
# Lines that show something

Between the end of a line and the next line that shows something there may be lines that show
nothing. Only the indentation of the line that is found counts, for the blocks that open and close
there and for the text blocks that end in front of it.
-/

namespace PugTemplate

/-- Lines that show nothing, each with its line end. -/
inductive BlankLines : List Char → Prop where
  | nil : BlankLines []
  | cons {line rest : List Char} (hline : allBlank line) (hfeed : '\n' ∉ line)
      (h : BlankLines rest) : BlankLines (line ++ '\n' :: rest)

/-- The indentation of a line, and the text from what it shows on. -/
structure Shown (indent shown : List Char) : Prop where
  indent : ∀ x ∈ indent, isIndent x
  head : shown.head?.any fun x => !isBlank x

namespace Shown

variable {indent shown : List Char}

theorem exists_cons (h : Shown indent shown) : ∃ x xs, shown = x :: xs ∧ isBlank x = false := by
  have hhead := h.head
  cases shown with
  | nil => cases hhead
  | cons x xs => exact ⟨x, xs, rfl, by simpa using hhead⟩

theorem takeWhile_eq (h : Shown indent shown) : (indent ++ shown).takeWhile isIndent = indent := by
  obtain ⟨x, xs, rfl, hx⟩ := h.exists_cons
  have hne : ¬ isIndent x := fun hi => nomatch hx.symm.trans (isBlank_of_isIndent hi)
  rw [List.takeWhile_append_of_pos h.indent, List.takeWhile_cons_of_neg hne, List.append_nil]

theorem mem_lineOf (h : Shown indent shown) : ∃ x ∈ lineOf (indent ++ shown), isBlank x = false := by
  obtain ⟨x, xs, rfl, hx⟩ := h.exists_cons
  have hkeep : ∀ y ∈ indent, (y ≠ '\n' : Bool) := by
    intro y hy
    have hi := h.indent y hy
    simp only [decide_eq_true_eq]
    rintro rfl
    exact absurd hi (by decide)
  have hne : x ≠ '\n' := by
    rintro rfl
    exact absurd hx (by decide)
  refine ⟨x, ?_, hx⟩
  rw [lineOf, List.takeWhile_append_of_pos hkeep]
  simp [hne]

theorem not_allBlank (h : Shown indent shown) : ¬ allBlank (lineOf (indent ++ shown)) := by
  obtain ⟨x, hx, hb⟩ := h.mem_lineOf
  intro hall
  exact nomatch hb.symm.trans (List.all_eq_true.mp hall x hx)

theorem indentOf_lineOf (h : Shown indent shown) :
    Pipeless.indentOf (lineOf (indent ++ shown)) = indent.length := by
  have hline := Cursor.takeWhile_line (p := isIndent) (by decide) ⟨indent ++ shown, .nowhere⟩
  rw [Pipeless.indentOf, show (lineOf _).takeWhile _ = _ from hline, h.takeWhile_eq]

theorem ne_nil (h : Shown indent shown) : indent ++ shown ≠ [] := by
  obtain ⟨x, xs, rfl, -⟩ := h.exists_cons
  simp

theorem rest_skipIndent {d : Cursor} (h : Shown indent shown) (hd : d.rest = indent ++ shown) :
    d.skipIndent.rest = shown := by
  rw [Cursor.skipIndent, Cursor.rest_skip, hd, h.takeWhile_eq, List.drop_left]

end Shown

namespace Layout

variable {l m : Layout} {c d : Cursor} {gap indent shown : List Char} {ts : List Token}

/-! ## Finding the line -/

theorem rest_nextLine (hgap : BlankLines gap) (hs : Shown indent shown)
    (hc : c.rest = '\n' :: (gap ++ (indent ++ shown))) : (nextLine c).rest = indent ++ shown := by
  induction hgap generalizing c with
  | nil =>
    have hrest : (c.skip 1).rest = indent ++ shown := by
      rw [Cursor.rest_skip, hc]
      rfl
    rw [nextLine, if_neg (by rw [Cursor.line, hrest]; exact hs.not_allBlank), hrest]
  | @cons line rest hline hfeed hgap ih =>
    have hrest : (c.skip 1).rest = line ++ ('\n' :: (rest ++ (indent ++ shown))) := by
      rw [Cursor.rest_skip, hc]
      simp
    have hlineOf : (c.skip 1).line = line := Cursor.line_eq hrest hfeed rfl
    have hbehind : (c.skip 1).skipLine.rest = '\n' :: (rest ++ (indent ++ shown)) := by
      rw [Cursor.skipLine, hlineOf]
      exact (Cursor.line_skip hrest hfeed).1
    rw [nextLine, hlineOf, if_pos hline, if_neg (by rw [hbehind]; simp)]
    exact ih hbehind

theorem rest_skipLeading_gap (hgap : BlankLines gap) (hs : Shown indent shown)
    (hc : c.rest = gap ++ (indent ++ shown)) : (skipLeading c).rest = shown := by
  induction hgap generalizing c with
  | nil =>
    have hshown : ¬ allBlank c.line := by
      rw [Cursor.line, hc]
      exact hs.not_allBlank
    rw [skipLeading, if_neg fun h => hshown h.1]
    exact hs.rest_skipIndent hc
  | @cons line rest hline hfeed hgap ih =>
    have hrest : c.rest = line ++ ('\n' :: (rest ++ (indent ++ shown))) := by
      rw [hc]
      simp
    have hlineOf : c.line = line := Cursor.line_eq hrest hfeed rfl
    have hbehind : c.skipLine.rest = '\n' :: (rest ++ (indent ++ shown)) := by
      rw [Cursor.skipLine, hlineOf]
      exact (Cursor.line_skip hrest hfeed).1
    rw [skipLeading, hlineOf, if_pos ⟨hline, by rw [hbehind]; simp⟩]
    exact ih (by rw [Cursor.rest_skip, hbehind]; rfl)

/-- The indentation is made of the character that indents the source. -/
def Fits (l : Layout) (indent : List Char) : Prop :=
  ∀ x ∈ indent, some x = l.mark.or indent.head?

/-- What the end of a line leads to, by the indentation of the next line that shows something. -/
theorem newline_shown (hgap : BlankLines gap) (hs : Shown indent shown)
    (hc : c.rest = '\n' :: (gap ++ (indent ++ shown))) (h : newline l c = .ok (ts, m, d)) :
    d.rest = shown ∧ l.Fits indent ∧
      ∃ loc, settle { l with mark := l.mark.or indent.head? } indent.length loc = .ok (ts, m) := by
  have hnext := rest_nextLine hgap hs hc
  unfold newline at h
  dsimp only at h
  rw [hnext, hs.takeWhile_eq, if_neg hs.ne_nil] at h
  split at h
  next => cases h
  next hfits =>
    split at h
    next hsettle =>
      cases h
      refine ⟨hs.rest_skipIndent hnext, fun x hx => ?_, _, hsettle⟩
      exact Decidable.byContradiction fun hne => hfits (List.any_eq_true.mpr ⟨x, hx, by simpa using hne⟩)
    next => cases h

theorem newline_of_settle {loc : Location} (hgap : BlankLines gap) (hs : Shown indent shown)
    (hc : c.rest = '\n' :: (gap ++ (indent ++ shown))) (hfits : l.Fits indent)
    (h : settle { l with mark := l.mark.or indent.head? } indent.length loc = .ok (ts, m)) :
    ∃ us d, newline l c = .ok (us, m, d) ∧ SameKinds ts us ∧ d.rest = shown := by
  have hnext := rest_nextLine hgap hs hc
  obtain ⟨us, hus, hkinds⟩ := sameKinds_settle h (nextLine c).skipIndent.loc
  have hmixed : ¬ indent.any fun x => some x != l.mark.or indent.head? := by
    rw [List.any_eq_true]
    rintro ⟨x, hx, hne⟩
    simp [hfits x hx] at hne
  unfold newline
  dsimp only
  rw [hnext, hs.takeWhile_eq, if_neg hs.ne_nil, if_neg hmixed, hus]
  exact ⟨us, _, rfl, hkinds, hs.rest_skipIndent hnext⟩

theorem width_of_settle {width : Nat} {loc : Location} (h : l.settle width loc = .ok (ts, m)) :
    m.width = width := by
  obtain ⟨-, -, rfl⟩ | ⟨rfl, -, rfl⟩ | ⟨-, hm, -⟩ := settle_cases h
  · rfl
  · rfl
  · exact hm

theorem mark_of_settle {width : Nat} {loc : Location} (h : l.settle width loc = .ok (ts, m)) :
    m.mark = l.mark := by
  obtain ⟨-, -, rfl⟩ | ⟨-, -, rfl⟩ | ⟨-, -, hm, -⟩ := settle_cases h
  · rfl
  · rfl
  · exact hm

end Layout

namespace Pipeless

variable {width : Nat} {gap indent shown shown' a b : List Char}

/-! ## Blocks of text in front of the line -/

theorem deeperLines_cons (width : Nat) (cs : List Char) :
    deeperLines width ('\n' :: cs) =
      if !allBlank (lineOf cs) && indentOf (lineOf cs) ≤ width then []
      else lineOf cs :: deeperLines width (cs.drop (lineOf cs).length) := by
  rw [deeperLines, if_pos rfl]

theorem deeperLines_of_le (hs : Shown indent shown) (hle : indent.length ≤ width) :
    deeperLines width ('\n' :: (indent ++ shown)) = [] := by
  have hline := hs.not_allBlank
  rw [deeperLines_cons, if_pos]
  simp [hline, hs.indentOf_lineOf, hle]

theorem deeperLines_of_lt (hs : Shown indent shown) (hlt : width < indent.length) :
    ∃ line ∈ deeperLines width ('\n' :: (indent ++ shown)), ¬ allBlank line := by
  have hle : ¬ indent.length ≤ width := by omega
  rw [deeperLines_cons, if_neg (by simp [hs.indentOf_lineOf, hle])]
  exact ⟨_, List.mem_cons_self, hs.not_allBlank⟩

/-- Lines that show nothing belong to the lines below whatever follows them. -/
theorem deeperLines_gap (width : Nat) (hgap : BlankLines gap) :
    ∃ blanks : List (List Char), (∀ line ∈ blanks, allBlank line) ∧ ∀ rest,
      deeperLines width ('\n' :: (gap ++ rest)) = blanks ++ deeperLines width ('\n' :: rest) := by
  induction hgap with
  | nil => exact ⟨[], fun line hl => absurd hl List.not_mem_nil, fun _ => rfl⟩
  | @cons line gap hline hfeed hgap ih =>
    obtain ⟨blanks, hblanks, hmore⟩ := ih
    refine ⟨line :: blanks, List.forall_mem_cons.mpr ⟨hline, hblanks⟩, fun rest => ?_⟩
    have hcs : line ++ '\n' :: gap ++ rest = line ++ '\n' :: (gap ++ rest) := by simp
    have hlineOf : lineOf (line ++ '\n' :: (gap ++ rest)) = line :=
      Cursor.line_eq (c := ⟨line ++ '\n' :: (gap ++ rest), .nowhere⟩) rfl hfeed rfl
    rw [hcs, deeperLines_cons, hlineOf, if_neg (by simp [hline]), List.drop_left, hmore]
    rfl

/-- Text in front of a line end is cut into lines alike, whatever line follows. -/
theorem deeperLines_append (ha : lineOf a = []) (hb : lineOf b = []) (width : Nat) (m : List Char) :
    deeperLines width (m ++ b) = deeperLines width (m ++ a) ∨
      ∃ lines, extent lines = m.length ∧
        deeperLines width (m ++ a) = lines ++ deeperLines width a ∧
        deeperLines width (m ++ b) = lines ++ deeperLines width b := by
  match m with
  | [] => exact .inr ⟨[], rfl, rfl, rfl⟩
  | x :: m =>
    by_cases hx : x = '\n'
    · subst hx
      have hlines {a : List Char} (ha : lineOf a = []) : lineOf (m ++ a) = lineOf m := by
        have hcongr : lineOf (m ++ a) = lineOf (m ++ []) :=
          Cursor.lineOf_append_congr m ha
        rw [hcongr, List.append_nil]
      have hle := (lineOf_isPrefix m).length_le
      rw [List.cons_append, List.cons_append, deeperLines_cons, deeperLines_cons, hlines ha,
        hlines hb, List.drop_append_of_le_length hle, List.drop_append_of_le_length hle]
      split
      next => exact .inl rfl
      next =>
        have hlt : m.length - (lineOf m).length < m.length + 1 := by omega
        obtain heq | ⟨lines, hextent, hla, hlb⟩ :=
          deeperLines_append ha hb width (m.drop (lineOf m).length)
        · exact .inl (congrArg (lineOf m :: ·) heq)
        · refine .inr ⟨lineOf m :: lines, ?_, by rw [hla]; rfl, by rw [hlb]; rfl⟩
          rw [extent, List.foldr_cons, ← extent, hextent, List.length_drop, List.length_cons]
          omega
    · left
      rw [List.cons_append, List.cons_append, deeperLines, deeperLines, if_neg hx, if_neg hx]
termination_by m.length
decreasing_by
  simp only [List.length_drop, List.length_cons]
  omega

theorem dropBlankEnd_of_shown (lines : List (List Char)) {more : List (List Char)}
    (h : ∃ line ∈ more, ¬ allBlank line) :
    dropBlankEnd (lines ++ more) = lines ++ dropBlankEnd more ∧ dropBlankEnd more ≠ [] := by
  have hne : more.reverse.dropWhile allBlank ≠ [] := by
    obtain ⟨line, hline, hshown⟩ := h
    intro hnil
    exact hshown (List.dropWhile_eq_nil_iff.mp hnil line (List.mem_reverse.mpr hline))
  refine ⟨?_, fun hnil => hne (List.reverse_eq_nil_iff.mp hnil)⟩
  rw [dropBlankEnd, List.reverse_append, List.dropWhile_append, if_neg (by simpa using hne),
    List.reverse_append, List.reverse_reverse]
  rfl

theorem extent_append (lines more : List (List Char)) :
    extent (lines ++ more) = extent lines + extent more := by
  rw [← length_joined, ← length_joined, ← length_joined]
  simp [joined]

theorem extent_pos {lines : List (List Char)} (h : lines ≠ []) : 0 < extent lines := by
  obtain ⟨line, more, rfl⟩ := List.exists_cons_of_ne_nil h
  rw [extent, List.foldr_cons, ← extent]
  omega

/-- A block of text that ends in front of a line is the same, whatever the line shows. -/
theorem level_of_shown (hgap : BlankLines gap) (hs : Shown indent shown)
    (hs' : Shown indent shown') (width : Nat) :
    Level width width ('\n' :: (gap ++ (indent ++ shown)))
      ('\n' :: (gap ++ (indent ++ shown'))) := by
  intro m hm
  obtain ⟨blanks, -, hgap⟩ := deeperLines_gap width hgap
  have hcut := deeperLines_append (a := '\n' :: (gap ++ (indent ++ shown)))
    (b := '\n' :: (gap ++ (indent ++ shown'))) rfl rfl width m
  obtain heq | ⟨lines, hextent, hla, hlb⟩ := hcut
  · rw [blockLines, heq]
    rfl
  rw [hgap] at hla hlb
  by_cases hle : indent.length ≤ width
  · rw [deeperLines_of_le hs hle] at hla
    rw [deeperLines_of_le hs' hle] at hlb
    rw [blockLines, blockLines, hla, hlb]
  -- a deeper line would belong to the block
  · obtain ⟨line, hline, hshown⟩ := deeperLines_of_lt hs (Nat.lt_of_not_le hle)
    obtain ⟨hdrop, hne⟩ := dropBlankEnd_of_shown lines
      ⟨line, List.mem_append_right blanks hline, hshown⟩
    have hpos := extent_pos hne
    rw [blockLines, hla, hdrop, extent_append, hextent] at hm
    omega

end Pipeless

end PugTemplate
