import PugTemplate.Proofs.Lex.Expansion

/-!
# Lines below a line

Lines that are all deeper than a block are read in the same way wherever the block stands: the
widths of the blocks that are open around them have no part in it, and neither have the lines behind
them that are no deeper than the block. Main statements: `Deep.between`, `Deep.last`.
-/

namespace PugTemplate

open Cursor (Beside)
open Pipeless (Level)

namespace Layout

variable {floor : Nat} {l m l' m' : Layout} {c d e : Cursor} {ts us : List Token}

/-- Reading goes on from one place to another, in blocks that are all as wide as given or wider. -/
inductive DeepRun (floor : Nat) : Layout → Cursor → List Token → Layout → Cursor → Prop where
  | here {l : Layout} {c : Cursor} : DeepRun floor l c [] l c
  | step {l m m' : Layout} {c d d' : Cursor} {first ts : List Token} (hc : c.rest ≠ [])
      (h : l.step c = .ok (first, m, d)) (hw : floor ≤ m.width)
      (hrest : DeepRun floor m d ts m' d') :
      DeepRun floor l c (first ++ ts) m' d'

/-- What lines lex to that are all as deep as given or deeper, with their blocks closed behind them.
The lines at the end may show nothing. -/
def Deep (floor : Nat) (l : Layout) (c : Cursor) (ts : List Token) : Prop :=
  ∃ us m d, DeepRun floor l c us m d ∧ allBlank d.rest ∧ d.line = [] ∧
    ts = us ++ outdents m.widths d.loc

namespace DeepRun

theorem trans (h : DeepRun floor l c ts m d) (h' : DeepRun floor m d us m' e) :
    DeepRun floor l c (ts ++ us) m' e := by
  induction h with
  | here => exact h'
  | step hc hstep hw _ ih =>
    rw [List.append_assoc]
    exact .step hc hstep hw (ih h')

theorem one (hc : c.rest ≠ []) (h : l.step c = .ok (ts, m, d)) (hw : floor ≤ m.width) :
    DeepRun floor l c ts m d := by
  rw [← List.append_nil ts]
  exact .step hc h hw .here

theorem mono {floor' : Nat} (h : DeepRun floor l c ts m d) (hle : floor' ≤ floor) :
    DeepRun floor' l c ts m d := by
  induction h with
  | here => exact .here
  | step hc hstep hw _ ih => exact .step hc hstep (Nat.le_trans hle hw) ih

theorem run (h : DeepRun floor l c ts m d) : Run l c ts m d := by
  induction h with
  | here => exact .here
  | step hc hstep _ _ ih => exact .step hc hstep ih

theorem eq_of_end (h : DeepRun floor l c ts m d) (hc : c.rest = []) : ts = [] ∧ m = l ∧ d = c := by
  cases h with
  | here => exact ⟨rfl, rfl, rfl⟩
  | step hne => exact absurd hc hne

/-- Either nothing is read, or the last block is as wide as given. -/
theorem width_le (h : DeepRun floor l c ts m d) : (ts = [] ∧ m = l) ∨ floor ≤ m.width := by
  induction h with
  | here => exact .inl ⟨rfl, rfl⟩
  | step _ _ hw _ ih =>
    obtain ⟨-, rfl⟩ | hm := ih
    · exact .inr hw
    · exact .inr hm

/-- From the margin, nothing is read in front of the first block. -/
theorem eq_nil_of_widths {mark : Option Char} (h : DeepRun floor ⟨[], mark⟩ c ts m d)
    (hfloor : 0 < floor) (hm : m.widths = []) : ts = [] := by
  obtain ⟨hts, -⟩ | hle := h.width_le
  · exact hts
  · rw [Layout.width, hm] at hle
    exact absurd hle (Nat.not_le_of_lt hfloor)

end DeepRun

theorem line_of_startsWith (h : c.startsWith "\n") : c.line = [] := by
  obtain ⟨below, hbelow⟩ := List.isPrefixOf_iff_prefix.mp h
  rw [Cursor.line, ← hbelow]
  rfl

theorem outdents_append (closed kept : List Nat) (loc : Location) :
    outdents (closed ++ kept) loc = outdents closed loc ++ outdents kept loc :=
  List.map_append

namespace Deep

variable {mark : Option Char}

/-- The last token of a block closes it. -/
theorem eq_nil_or_concat (h : Deep floor ⟨[], mark⟩ c ts) (hfloor : 0 < floor) :
    ts = [] ∨ ∃ front loc, ts = front ++ [⟨.outdent, loc⟩] := by
  obtain ⟨us, m, d, hrun, -, -, rfl⟩ := h
  obtain hnil | ⟨ws, w, hw⟩ := List.eq_nil_or_concat m.widths
  · rw [hnil, hrun.eq_nil_of_widths hfloor hnil]
    exact .inl rfl
  · refine .inr ⟨us ++ outdents ws d.loc, d.loc, ?_⟩
    rw [hw, List.concat_eq_append, List.append_assoc, outdents_append]
    rfl

/-- A block begins at the end of the line above it. -/
theorem line_eq (h : Deep floor ⟨[], mark⟩ c ts) (hfloor : 0 < floor) : c.line = [] := by
  obtain ⟨us, m, d, hrun, -, hline, -⟩ := h
  cases hrun with
  | here => exact hline
  | step hc hstep hw hrest =>
    unfold step at hstep
    split at hstep
    next hs => exact line_of_startsWith hs
    next =>
      -- inside a line, no block begins
      split at hstep
      next =>
        cases hstep
        exact absurd hw (Nat.not_le_of_lt hfloor)
      next => cases hstep

end Deep

/-! ## Closing blocks -/

section Settle

variable {mark : Option Char} {width : Nat} {loc : Location} {closed kept : List Nat}

/-- The blocks that are wider than a line are closed, if a block as wide as the line is left. -/
theorem settle_of_closed (hne : closed ≠ []) (hclosed : ∀ w ∈ closed, width < w)
    (hkept : kept.headD 0 = width) :
    (⟨closed ++ kept, mark⟩ : Layout).settle width loc =
      .ok (outdents closed loc, ⟨kept, mark⟩) := by
  have hpos : ∀ w ∈ closed, decide (width < w) = true := fun w hw => decide_eq_true (hclosed w hw)
  have hlt : width < (closed ++ kept).headD 0 := by
    obtain ⟨w, ws, rfl⟩ := List.exists_cons_of_ne_nil hne
    exact hclosed w List.mem_cons_self
  have htake : kept.takeWhile (width < ·) = [] := by
    cases kept with
    | nil => rfl
    | cons w ws =>
      obtain rfl : w = width := hkept
      exact List.takeWhile_cons_of_neg (by simp)
  have hdrop : kept.dropWhile (width < ·) = kept := by
    cases kept with
    | nil => rfl
    | cons w ws =>
      obtain rfl : w = width := hkept
      exact List.dropWhile_cons_of_neg (by simp)
  rw [settle_of_lt hlt, List.dropWhile_append_of_pos hpos, List.takeWhile_append_of_pos hpos, hdrop,
    htake, if_pos hkept, List.append_nil]

end Settle

/-! ## Below other blocks -/

/-- The first layout has the blocks open that the second one has above others, less wide ones. -/
structure Above (floor : Nat) (base : List Nat) (mark : Char) (l l' : Layout) : Prop where
  widths : l'.widths = l.widths ++ base
  deep : ∀ w ∈ l.widths, floor ≤ w
  inner : l.mark = some mark
  outer : l'.mark = none ∨ l'.mark = some mark

/-- Nothing, or a next line that is less deep. -/
inductive Ends (floor : Nat) : List Char → Prop where
  | source : Ends floor []
  | line {indent shown : List Char} (hs : Shown indent shown) (hlt : indent.length < floor) :
      Ends floor ('\n' :: (indent ++ shown))

section Above

variable {base : List Nat} {mark : Char} {follow : List Char} {loc : Location} {width : Nat}

theorem Ends.lineOf_eq (h : Ends floor follow) : lineOf follow = [] := by
  cases h <;> rfl

/-- In front of lines that are less deep, a block of text ends as at the end of the source. -/
theorem Ends.level (h : Ends floor follow) (hw : floor ≤ width) : Level width width [] follow := by
  intro m hm
  have hcut := @Pipeless.deeperLines_append [] follow rfl h.lineOf_eq width m
  obtain heq | ⟨lines, -, hnil, hfollow⟩ := hcut
  · rw [Pipeless.blockLines, heq]
    rfl
  have hend : Pipeless.deeperLines width follow = [] := by
    cases h with
    | source => rw [Pipeless.deeperLines]
    | line hs hlt => exact Pipeless.deeperLines_of_le hs (by omega)
  have hnone : Pipeless.deeperLines width [] = [] := by rw [Pipeless.deeperLines]
  rw [Pipeless.blockLines, Pipeless.blockLines, hnil, hfollow, hend, hnone]

namespace Above

theorem headD_append (hw : 0 < l.width) : (l.widths ++ base).headD 0 = l.width := by
  unfold Layout.width at hw ⊢
  cases hl : l.widths with
  | nil =>
    rw [hl] at hw
    exact absurd hw (Nat.lt_irrefl 0)
  | cons => rfl

theorem width_eq (h : Above floor base mark l l') (hw : 0 < l.width) : l'.width = l.width := by
  rw [Layout.width, h.widths]
  exact headD_append hw

theorem settle (h : Above floor base mark l l') (hbase : base.headD 0 < floor) (hw : floor ≤ width)
    (hok : l.settle width loc = .ok (ts, m)) (loc' : Location) :
    ∃ us m', { l' with mark := some mark }.settle width loc' = .ok (us, m') ∧ SameKinds ts us ∧
      Above floor base mark m m' := by
  have hpos : 0 < width := by omega
  rw [h.widths]
  obtain ⟨hlt, rfl, rfl⟩ | ⟨rfl, rfl, rfl⟩ | ⟨hlt, hm, hmark, closed, rfl, hl, hclosed⟩ :=
    settle_cases hok
  · have hdeeper : (l.widths ++ base).headD 0 < width := by
      unfold Layout.width at hlt
      cases hl : l.widths with
      | nil => exact Nat.lt_of_lt_of_le hbase hw
      | cons => rwa [hl] at hlt
    exact ⟨_, _, settle_of_gt hdeeper, .cons rfl (.refl []),
      ⟨rfl, List.forall_mem_cons.mpr ⟨hw, h.deep⟩, h.inner, .inr rfl⟩⟩
  · exact ⟨_, _, settle_of_eq (headD_append hpos).symm, .cons rfl (.refl []),
      ⟨rfl, h.deep, h.inner, .inr rfl⟩⟩
  · have hne : closed ≠ [] := by
      rintro rfl
      rw [List.nil_append] at hl
      rw [Layout.width, hl] at hlt
      exact absurd hlt (Nat.not_lt_of_le (Nat.le_of_eq hm))
    have hkept : (m.widths ++ base).headD 0 = width := (headD_append (hm ▸ hpos)).trans hm
    rw [hl, List.append_assoc]
    refine ⟨_, _, settle_of_closed hne hclosed hkept, sameKinds_outdents _ _ _,
      ⟨rfl, fun w hm => h.deep w ?_, hmark.trans h.inner, .inr rfl⟩⟩
    rw [hl]
    exact List.mem_append_right _ hm

end Above

/-! ## Steps -/

theorem ne_nil_of_beside (hcd : c.Beside [] follow d) (hc : c.rest ≠ []) : d.rest ≠ [] := by
  obtain ⟨m, hm, hd⟩ := hcd.text (Nat.zero_le _)
  rw [List.append_nil] at hm
  rw [hd, ← hm]
  exact List.append_ne_nil_of_left_ne_nil hc follow

/-- The next line that shows something is found in front of what follows. -/
theorem beside_nextLine_of_ne (hends : Ends floor follow) (hcd : c.Beside [] follow d)
    (hc : c.rest ≠ []) (hne : (nextLine c).rest ≠ []) :
    (nextLine c).Beside [] follow (nextLine d) := by
  have hstep := hcd.skip_of_ahead hends.lineOf_eq (n := 1) (List.length_pos_iff.mpr hc)
    (Nat.zero_le _)
  have hline := hstep.skipLine
  fun_induction nextLine c generalizing d with
  | case1 c hblank hend => exact absurd hend hne
  | case2 c hblank hend ih =>
    have hd : nextLine d = nextLine (d.skip 1).skipLine := by
      rw [nextLine, hstep.line, if_pos hblank, if_neg (ne_nil_of_beside hline hend)]
    have hnext := hline.skip_of_ahead hends.lineOf_eq (n := 1) (List.length_pos_iff.mpr hend)
      (Nat.zero_le _)
    rw [hd]
    exact ih hline hend hne hnext hnext.skipLine
  | case3 c hshown =>
    rw [nextLine, hstep.line, if_neg hshown]
    exact hstep

theorem newline_within (h : Above floor base mark l l') (hbase : base.headD 0 < floor)
    (hends : Ends floor follow) (hcd : c.Beside [] follow d) (hc : c.rest ≠ [])
    (hne : (nextLine c).rest ≠ []) (hok : newline l c = .ok (ts, m, e)) (hw : floor ≤ m.width) :
    ∃ us m' f, newline l' d = .ok (us, m', f) ∧ SameKinds ts us ∧ Above floor base mark m m' ∧
      e.Beside [] follow f := by
  have hnext := beside_nextLine_of_ne hends hcd hc hne
  have hindent := hnext.takeWhile (p := isIndent) (by decide)
  unfold newline at hok ⊢
  dsimp only at hok ⊢
  rw [if_neg hne, h.inner, Option.some_or] at hok
  rw [if_neg (ne_nil_of_beside hnext hne), hindent]
  split at hok
  next => cases hok
  next hmixed =>
    split at hok
    next tokens n hsettle =>
      cases hok
      have hlength : 0 < ((nextLine c).rest.takeWhile isIndent).length := by
        rw [← width_of_settle hsettle]
        omega
      have hmark : l'.mark.or ((nextLine c).rest.takeWhile isIndent).head? = some mark := by
        obtain ⟨x, xs, hx⟩ := List.exists_cons_of_ne_nil (List.length_pos_iff.mp hlength)
        have hfirst : x = mark := by
          rw [hx] at hmixed
          simp only [List.any_cons, Bool.or_eq_true, not_or] at hmixed
          simpa using hmixed.1
        obtain houter | houter := h.outer <;> simp [houter, hx, hfirst]
      have hinner : { l with mark := some mark } = l := by rw [← h.inner]
      rw [hinner] at hsettle
      obtain ⟨us, m', hus, hkinds, habove⟩ := h.settle hbase
        (width_of_settle hsettle ▸ hw) hsettle (nextLine d).skipIndent.loc
      rw [hmark, if_neg hmixed, hus]
      exact ⟨us, m', _, rfl, hkinds, habove, hnext.skipIndent⟩
    next => cases hok

theorem allBlank_of_feed (hline : c.line = []) (h : allBlank (c.skip 1).rest) :
    allBlank c.rest := by
  cases hrest : c.rest with
  | nil => rfl
  | cons x xs =>
    have hx : x = '\n' := by
      by_contra hne
      simp [Cursor.line, lineOf, hrest, hne] at hline
    rw [Cursor.rest_skip, hrest] at h
    subst hx
    exact h

theorem allBlank_of_skipLine (hline : allBlank c.line) (h : allBlank c.skipLine.rest) :
    allBlank c.rest := by
  have hrest : c.rest = c.line ++ c.skipLine.rest := by
    have hline : c.line = c.rest.take c.line.length :=
      List.prefix_iff_eq_take.mp (lineOf_isPrefix c.rest)
    calc c.rest = c.rest.take c.line.length ++ c.rest.drop c.line.length :=
          (List.take_append_drop _ _).symm
      _ = c.line ++ c.skipLine.rest := by rw [← hline]; rfl
  rw [hrest, allBlank, List.all_append, Bool.and_eq_true]
  exact ⟨hline, h⟩

/-- Where no line that shows something is found, there is nothing to show. -/
theorem allBlank_of_nextLine (hline : c.line = []) (h : (nextLine c).rest = []) :
    allBlank c.rest := by
  refine allBlank_of_feed hline ?_
  fun_induction nextLine c with
  | case1 c hblank hend =>
    refine allBlank_of_skipLine hblank ?_
    rw [hend]
    rfl
  | case2 c hblank hend ih =>
    have hfeed : (c.skip 1).skipLine.line = [] := lineOf_drop _
    exact allBlank_of_skipLine hblank (allBlank_of_feed hfeed (ih hfeed h))
  | case3 c hshown => rw [h]; rfl

/-- What is read in lines of a block is read there as well when other blocks are open around it. -/
theorem step_within (h : Above floor base mark l l') (hbase : base.headD 0 < floor)
    (hends : Ends floor follow) (hcd : c.Beside [] follow d) (hc : c.rest ≠ [])
    (hok : l.step c = .ok (ts, m, e)) (hw : floor ≤ m.width) :
    (ts = [] ∧ m = l ∧ e.rest = [] ∧ allBlank c.rest ∧ c.line = []) ∨
      ∃ us m' f, l'.step d = .ok (us, m', f) ∧ SameKinds ts us ∧ Above floor base mark m m' ∧
        e.Beside [] follow f := by
  have hfeed : d.startsWith "\n" = c.startsWith "\n" := by
    obtain ⟨n, hn, hd⟩ := hcd.text (Nat.zero_le _)
    obtain ⟨x, xs, hx⟩ := List.exists_cons_of_ne_nil hc
    rw [List.append_nil] at hn
    rw [Cursor.startsWith, Cursor.startsWith, hd, ← hn, hx]
    rfl
  unfold step at hok ⊢
  rw [hfeed]
  split at hok
  next hs =>
    rw [if_pos hs]
    by_cases hnil : (nextLine c).rest = []
    · left
      have hnew : newline l c = .ok ([], l, nextLine c) := by
        rw [newline]
        exact if_pos hnil
      cases hnew.symm.trans hok
      have hline := line_of_startsWith hs
      exact ⟨rfl, rfl, hnil, allBlank_of_nextLine hline hnil, hline⟩
    · exact .inr (newline_within h hbase hends hcd hc hnil hok hw)
  next hs =>
    rw [if_neg hs]
    split at hok
    next tokens f hread =>
      cases hok
      rw [h.width_eq (by omega)]
      obtain ⟨us, g, hus, hkinds, hnext⟩ := Rule.beside_read hends.lineOf_eq hcd hread (clear_nil e)
        fun _ => hends.level hw
      rw [hus]
      exact .inr ⟨us, l', g, rfl, hkinds, h, hnext⟩
    next => cases hok

/-! ## Whole blocks -/

/-- A block is read in another place up to the lines at its end that show nothing. -/
theorem DeepRun.within (hrun : DeepRun floor l c ts m e) (h : Above floor base mark l l')
    (hbase : base.headD 0 < floor) (hends : Ends floor follow) (hcd : c.Beside [] follow d)
    (hblank : allBlank e.rest) (hline : e.line = []) :
    ∃ us m' f gap, DeepRun floor l' d us m' f ∧ SameKinds ts us ∧ Above floor base mark m m' ∧
      f.rest = gap ++ follow ∧ allBlank gap ∧ lineOf gap = [] := by
  have hstay {l l' : Layout} {c d : Cursor} (h : Above floor base mark l l')
      (hcd : c.Beside [] follow d) (hblank : allBlank c.rest) (hline : c.line = []) :
      ∃ us m' f gap, DeepRun floor l' d us m' f ∧ SameKinds [] us ∧ Above floor base mark l m' ∧
        f.rest = gap ++ follow ∧ allBlank gap ∧ lineOf gap = [] := by
    obtain ⟨gap, hgap, hd⟩ := hcd.text (Nat.zero_le _)
    rw [List.append_nil] at hgap
    rw [Cursor.line] at hline
    exact ⟨[], l', d, gap, .here, .refl [], h, hd, hgap ▸ hblank, hgap ▸ hline⟩
  induction hrun generalizing l' d with
  | here => exact hstay h hcd hblank hline
  | step hc hstep hw hrest ih =>
    obtain ⟨rfl, rfl, hend, hc', hline'⟩ | ⟨us, n, f, hus, hkinds, habove, hbeside⟩ :=
      step_within h hbase hends hcd hc hstep hw
    -- there is nothing to show from here on
    · obtain ⟨rfl, rfl, rfl⟩ := hrest.eq_of_end hend
      exact hstay h hcd hc' hline'
    · obtain ⟨vs, n', g, gap, hvs, hmore, hlast⟩ := ih habove hbeside hblank hline
      have hw' : floor ≤ n.width := by
        rw [habove.width_eq (by omega)]
        exact hw
      exact ⟨us ++ vs, n', g, gap, .step (ne_nil_of_beside hcd hc) hus hw' hvs,
        hkinds.append hmore, hlast⟩

theorem step_of_feed {cs : List Char} (hc : c.rest = '\n' :: cs) : l.step c = newline l c := by
  rw [step, if_pos]
  rw [Cursor.startsWith, hc]
  rfl

/-- Up to the last line end, lines that show nothing. -/
theorem blankLines_append {line gap : List Char} (hline : allBlank line) (hfeed : '\n' ∉ line)
    (hgap : allBlank gap) : BlankLines (line ++ (gap ++ ['\n'])) := by
  induction gap generalizing line with
  | nil => exact .cons hline hfeed .nil
  | cons x gap ih =>
    rw [allBlank, List.all_cons, Bool.and_eq_true] at hgap
    by_cases hx : x = '\n'
    · subst hx
      exact .cons hline hfeed (ih rfl List.not_mem_nil hgap.2)
    · rw [List.cons_append, List.append_cons]
      refine ih ?_ ?_ hgap.2
      · rw [allBlank, List.all_append, Bool.and_eq_true, List.all_cons, hgap.1]
        exact ⟨hline, rfl⟩
      · simp [hfeed, Ne.symm hx]

/-- The lines that show nothing in front of a line end lead to the line behind it. -/
theorem exists_blankLines {gap : List Char} (rest : List Char) (hgap : allBlank gap)
    (hline : lineOf gap = []) :
    ∃ lines, BlankLines lines ∧ gap ++ '\n' :: rest = '\n' :: (lines ++ rest) := by
  cases gap with
  | nil => exact ⟨[], .nil, rfl⟩
  | cons x gap =>
    have hx : x = '\n' := by
      by_contra hne
      simp [lineOf, hne] at hline
    rw [allBlank, List.all_cons, Bool.and_eq_true] at hgap
    refine ⟨gap ++ ['\n'], blankLines_append rfl List.not_mem_nil hgap.2, ?_⟩
    rw [hx, List.append_assoc]
    rfl

/-- The line end behind a block, where the block does not close one. -/
def lineBehind (ts : List Token) : List Token :=
  if ts = [] then [⟨.newline, .nowhere⟩] else []

section Whole

variable {block indent shown : List Char}

theorem beside_follow (hd : d.rest = block ++ follow) (hfollow : lineOf follow = []) :
    (⟨block, loc⟩ : Cursor).Beside [] follow d := by
  refine ⟨?_, fun _ => ⟨block, (List.append_nil _).symm, hd⟩⟩
  rw [Cursor.line, Cursor.line, hd, Cursor.lineOf_append_congr (a := []) _ hfollow,
    List.append_nil]

theorem above_of_width (hw : l.width = width) (hmark : l.mark = none ∨ l.mark = some mark) :
    Above (width + 1) l.widths mark ⟨[], some mark⟩ l ∧ l.widths.headD 0 < width + 1 :=
  ⟨⟨rfl, nofun, rfl, hmark⟩, Nat.lt_succ_of_le (Nat.le_of_eq hw)⟩

/-- A line as deep as the block around the open ones closes these. -/
theorem settle_behind (hw : l.width = width) (hrun : DeepRun (width + 1) ⟨[], some mark⟩ c ts m d)
    (hdeep : ∀ w ∈ m.widths, width + 1 ≤ w) (at_ at' : Location) (mark' : Option Char) :
    ∃ us, (⟨m.widths ++ l.widths, mark'⟩ : Layout).settle width at' =
        .ok (us, ⟨l.widths, mark'⟩) ∧
      SameKinds (outdents m.widths at_ ++ lineBehind (ts ++ outdents m.widths at_)) us := by
  by_cases hnil : m.widths = []
  · rw [hnil, hrun.eq_nil_of_widths (Nat.succ_pos width) hnil]
    exact ⟨_, settle_of_eq hw.symm, .cons rfl (.refl [])⟩
  · have hne : ts ++ outdents m.widths at_ ≠ [] :=
      List.append_ne_nil_of_right_ne_nil _ fun h => hnil (List.map_eq_nil_iff.mp h)
    rw [lineBehind, if_neg hne, List.append_nil]
    exact ⟨_, settle_of_closed hnil hdeep hw, sameKinds_outdents _ _ _⟩

/-- A block in front of a line that is less deep. -/
theorem Deep.between (h : Deep (width + 1) ⟨[], some mark⟩ ⟨block, loc⟩ ts) (hw : l.width = width)
    (hmark : l.mark = none ∨ l.mark = some mark) (hindent : isIndent mark)
    (hs : shown.head?.any fun x => !isBlank x)
    (hd : d.rest = block ++ '\n' :: (List.replicate width mark ++ shown)) :
    ∃ us m f, DeepRun width l d us m f ∧ m.widths = l.widths ∧
      (m.mark = none ∨ m.mark = some mark) ∧ f.rest = shown ∧
      SameKinds (ts ++ lineBehind ts) us := by
  obtain ⟨ts, n, e, hrun, hblank, hline, rfl⟩ := h
  obtain ⟨habove, hbase⟩ := above_of_width hw hmark
  have hall : ∀ x ∈ List.replicate width mark, x = mark := fun x hx => List.eq_of_mem_replicate hx
  have hshown : Shown (List.replicate width mark) shown :=
    ⟨fun x hx => hall x hx ▸ hindent, hs⟩
  have hends : Ends (width + 1) ('\n' :: (List.replicate width mark ++ shown)) :=
    .line hshown (by simp)
  obtain ⟨us, n', f, gap, hus, hkinds, habove', hf, hgap, hlineOf⟩ :=
    hrun.within habove hbase hends (beside_follow hd rfl) hblank hline
  obtain ⟨lines, hlines, hgap'⟩ :=
    exists_blankLines (List.replicate width mark ++ shown) hgap hlineOf
  have hfits : n'.Fits (List.replicate width mark) := by
    intro x hx
    obtain ⟨k, rfl⟩ : ∃ k, width = k + 1 := by
      cases width with
      | zero => cases hx
      | succ k => exact ⟨k, rfl⟩
    rw [hall x hx, List.replicate_succ]
    obtain houter | houter := habove'.outer <;> simp [houter]
  obtain ⟨vs, hvs, hclosed⟩ := settle_behind hw hrun habove'.deep e.loc e.loc
    (n'.mark.or (List.replicate width mark).head?)
  have hsettle : settle { n' with mark := n'.mark.or (List.replicate width mark).head? }
      (List.replicate width mark).length e.loc =
      .ok (vs, ⟨l.widths, n'.mark.or (List.replicate width mark).head?⟩) := by
    rw [List.length_replicate, habove'.widths]
    exact hvs
  obtain ⟨zs, g, hzs, hsame, hg⟩ := newline_of_settle hlines hshown (hf.trans hgap') hfits hsettle
  rw [← step_of_feed (hf.trans hgap')] at hzs
  have hmark' : n'.mark.or (List.replicate width mark).head? = none ∨
      n'.mark.or (List.replicate width mark).head? = some mark := by
    obtain houter | houter := habove'.outer
    · rw [houter]
      cases width <;> simp [List.replicate_succ]
    · simp [houter]
  refine ⟨us ++ zs, _, g, (hus.mono (Nat.le_succ width)).trans
    (.one (by simp [hf]) hzs (Nat.le_of_eq hw.symm)), rfl, hmark', hg, ?_⟩
  rw [List.append_assoc]
  exact hkinds.append (Eq.trans hsame hclosed)

/-- A block at the end of the source. -/
theorem Deep.last (h : Deep (width + 1) ⟨[], some mark⟩ ⟨block, loc⟩ ts) (hw : l.width = width)
    (hmark : l.mark = none ∨ l.mark = some mark) (hd : d.rest = block) :
    ∃ us m f inner, DeepRun (width + 1) l d us m f ∧ m.widths = inner ++ l.widths ∧
      (m.mark = none ∨ m.mark = some mark) ∧ allBlank f.rest ∧ f.line = [] ∧
      SameKinds ts (us ++ outdents inner f.loc) := by
  obtain ⟨ts, n, e, hrun, hblank, hline, rfl⟩ := h
  obtain ⟨habove, hbase⟩ := above_of_width hw hmark
  have hcd : (⟨block, loc⟩ : Cursor).Beside [] [] d :=
    beside_follow (hd.trans (List.append_nil _).symm) rfl
  obtain ⟨us, m, f, gap, hus, hkinds, habove', hf, hgap, hlineOf⟩ :=
    hrun.within habove hbase .source hcd hblank hline
  rw [List.append_nil] at hf
  refine ⟨us, m, f, n.widths, hus, habove'.widths, habove'.outer, hf ▸ hgap, ?_,
    hkinds.append (sameKinds_outdents _ _ _)⟩
  rw [Cursor.line, hf]
  exact hlineOf

end Whole

end Above

end Layout

end PugTemplate
