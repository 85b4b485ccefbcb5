import PugTemplate.Proofs.Lex.ScanLine

/-!
# Every step of the scanner gets on

The scanner stands at the point of a cursor whenever it makes a step, and a step does there what the
layout does at the cursor. So nothing it cuts is out of range. A step that neither fails nor ends
the stream passes some character, hence a byte, so there are no more steps than bytes, and one at
the end. Main statement: `scanner_progresses`.
-/

namespace PugTemplate

open Point (fail)

variable {src : Source} {c d : Cursor}

/-! ## Line ends -/

/-- What is left behind a line is nothing, or begins with the line feed. -/
theorem Source.Holds.startsWith_feed (h : src.Holds c) (hline : c.line = []) :
    (src.point c).startsWith "\n" = .ok (decide (c.rest ≠ [])) := by
  rw [h.startsWith]
  by_cases hnil : c.rest = []
  · rw [decide_eq_false (not_not.mpr hnil), Cursor.startsWith, hnil]
    rfl
  · rw [decide_eq_true hnil, Layout.startsWith_feed hline hnil]

theorem nextLine_eq (h : src.Holds c) (hfeed : c.rest.head? = some '\n') :
    (src.point c).nextLine =
      .ok (src.point (Layout.nextLine c), decide ((Layout.nextLine c).rest = [])) := by
  have hstep {c : Cursor} (h : src.Holds c) (hfeed : c.rest.head? = some '\n') :
      (src.point c).advanceChar '\n' = src.point (c.skip 1) ∧
        (src.point (c.skip 1)).advance (byteLength (c.skip 1).line) =
          src.point (c.skip 1).skipLine := by
    obtain ⟨cs, hcs⟩ := List.head?_eq_some_iff.mp hfeed
    exact ⟨h.advanceChar hcs,
      (h.skip 1).advance (lineOf_isPrefix _) (feed_notMem_lineOf _)⟩
  have hends (c : Cursor) : (c.skip 1).skipLine.line = [] := lineOf_drop _
  -- behind a blank line there is the end of the text or a line feed, and the scan goes on there
  fun_induction Layout.nextLine c with
  | case1 c hblank hend =>
    obtain ⟨hfirst, hline⟩ := hstep h hfeed
    have hflag := (h.skip 1).skipLine.startsWith_feed (hends c)
    rw [decide_eq_false (not_not.mpr hend)] at hflag
    rw [Point.nextLine, hfirst, (h.skip 1).restOfLine, ok_bind, if_pos hblank, hline,
      decide_eq_true hend]
    split
    next he => cases he.symm.trans hflag
    next he => cases he.symm.trans hflag
    next => rfl
  | case2 c hblank hend ih =>
    obtain ⟨hfirst, hline⟩ := hstep h hfeed
    have hflag := (h.skip 1).skipLine.startsWith_feed (hends c)
    obtain ⟨cs, hcs⟩ := Cursor.rest_of_startsWith rfl (Layout.startsWith_feed (hends c) hend)
    rw [decide_eq_true hend] at hflag
    rw [Point.nextLine, hfirst, (h.skip 1).restOfLine, ok_bind, if_pos hblank, hline]
    split
    next he => cases he.symm.trans hflag
    next => exact ih (h.skip 1).skipLine (by rw [hcs]; rfl)
    next he => cases he.symm.trans hflag
  | case3 c hshown =>
    obtain ⟨hfirst, -⟩ := hstep h hfeed
    have hne : (c.skip 1).rest ≠ [] := by
      intro hnil
      rw [Cursor.line, hnil] at hshown
      exact hshown rfl
    rw [Point.nextLine, hfirst, (h.skip 1).restOfLine, ok_bind, if_neg hshown, decide_eq_false hne]
    rfl

theorem skipLeading_eq (h : src.Holds c) :
    (src.point c).skipLeading = .ok (src.point (Layout.skipLeading c)) := by
  -- the end of the line is the end of the text just if nothing is left behind the line
  have hstops {c : Cursor} (h : src.Holds c) :
      (!allBlank c.line) = true ∨ byteLength src.text ≤ (src.point c).pos + byteLength c.line ↔
        ¬ (allBlank c.line ∧ c.skipLine.rest ≠ []) := by
    have hpos : (src.point c.skipLine).pos = (src.point c).pos + byteLength c.line :=
      h.pos_of_isPrefix (lineOf_isPrefix _)
    have hlen := h.skipLine.pos_add_byteLength
    rw [Ne, ← byteLength_eq_zero, Bool.not_eq_true']
    grind
  fun_induction Layout.skipLeading c with
  | case1 c hblank ih =>
    have hends : c.skipLine.line = [] := lineOf_drop _
    obtain ⟨cs, hcs⟩ : ∃ cs, c.skipLine.rest = '\n' :: cs :=
      Cursor.rest_of_startsWith rfl (Layout.startsWith_feed hends hblank.2)
    have hmove : (src.point c).advance (byteLength c.line) = src.point c.skipLine :=
      h.advance (lineOf_isPrefix _) (feed_notMem_lineOf _)
    rw [Point.skipLeading, h.restOfLine, ok_bind, Source.source_point,
      if_neg fun hs => (hstops h).mp hs hblank, hmove, h.skipLine.advanceChar hcs]
    exact ih (h.skipLine.skip 1)
  | case2 c hshown =>
    rw [Point.skipLeading, h.restOfLine, ok_bind, Source.source_point,
      if_pos ((hstops h).mpr hshown), h.skipIndent_eq]

theorem scanNewline_eq (h : src.Holds c) (hfeed : c.rest.head? = some '\n') (l : Layout) :
    l.scanNewline (src.point c) =
      sliced (fun (tokens, m, d) => (tokens, m, src.point d)) (l.newline c) := by
  have hnext : src.Holds (Layout.nextLine c) :=
    h.reaches ((c.reaches_skip 1).trans (Layout.reaches_nextLine c))
  rw [Layout.scanNewline, nextLine_eq h hfeed, ok_bind, Layout.newline]
  generalize Layout.nextLine c = d at hnext ⊢
  dsimp only
  by_cases hend : d.rest = []
  · rw [if_pos (decide_eq_true hend), if_pos hend]
    rfl
  · -- the indentation of the line is that of what is left, and its width counts bytes
    have hindent : d.line.takeWhile isIndent = d.rest.takeWhile isIndent :=
      Cursor.takeWhile_line (by decide) d
    have hcut := sliceTo_of_isPrefix (List.takeWhile_prefix (p := isIndent) (l := d.line))
    rw [hindent] at hcut
    have hmove : (src.point d).advance (byteLength (d.rest.takeWhile isIndent)) =
        src.point d.skipIndent :=
      hnext.advance (List.takeWhile_prefix _) (feed_notMem_takeWhile rfl _)
    have hlen := byteLength_of_isIndent fun x hx =>
      List.all_eq_true.mp (List.all_takeWhile (p := isIndent) (l := d.rest)) x hx
    rw [if_neg (by simpa using hend), if_neg hend, hnext.restOfLine, ok_bind, hindent, hcut,
      ok_bind, hmove, hlen, hnext.location, hnext.skipIndent.location]
    split
    · rfl
    · cases Layout.settle { l with mark := l.mark.or (d.rest.takeWhile isIndent).head? }
        (d.rest.takeWhile isIndent).length d.skipIndent.loc <;> rfl

/-! ## Steps -/

namespace Scanner

variable {l m : Layout} {tokens : List Token}

/-- Trying scans as steps of the machine is trying them as scans. -/
theorem tryAll_ofScan (scans : List Scan) (s : Scanner) :
    tryAll (scans.map ofScan) s = (do
      match ← Scan.first scans s.layout.width s.point with
      | some (tokens, t) => return { s with point := t, tokens := s.tokens ++ tokens }
      | none => return s) := by
  induction scans with
  | nil => rfl
  | cons f fs ih =>
    rw [List.map_cons, tryAll, Scan.first, ofScan]
    cases f s.layout.width s.point with
    | error e => rfl
    | ok r =>
      cases r with
      | none => exact ih
      | some r => rfl

theorem advance_eq (h : src.Holds c) (l : Layout) (tokens : List Token) :
    (Scanner.mk (src.point c) l tokens false).advance =
      if c.rest = [] then
        .ok ⟨src.point c, { l with widths := [] }, tokens ++ l.finish c.loc, true⟩
      else
        sliced (fun (more, m, d) => ⟨src.point d, m, tokens ++ more, false⟩) (l.step c) := by
  have hend : byteLength src.text ≤ (src.point c).pos ↔ c.rest = [] := by
    have hlen := h.pos_add_byteLength
    rw [← byteLength_eq_zero]
    omega
  rw [advance, tries, tryAll, endOfText, Source.source_point]
  by_cases hnil : c.rest = []
  · rw [if_pos (hend.mpr hnil), if_pos hnil, h.location]
    rfl
  · rw [if_neg (mt hend.mp hnil), if_neg hnil, pure_eq_ok, ok_bind]
    dsimp only
    rw [tryAll, newline, h.startsWith, ok_bind, Layout.step]
    by_cases hs : c.startsWith "\n"
    · obtain ⟨cs, hcs⟩ := Cursor.rest_of_startsWith rfl hs
      rw [if_pos hs, if_pos hs]
      dsimp only
      rw [scanNewline_eq h (by rw [hcs]; rfl)]
      cases l.newline c <;> rfl
    · rw [if_neg hs, if_neg hs, pure_eq_ok, ok_bind]
      dsimp only
      rw [tryAll_ofScan]
      dsimp only
      rw [Scan.inLine_mirrors src c l.width h]
      dsimp only
      cases Rule.read l.width c <;> rfl

/-! ## Runs -/

theorem start_eq (src : Source) :
    start src = .ok ⟨src.point (Layout.skipLeading src.start), .empty, [], false⟩ := by
  have hskip := skipLeading_eq src.holds_start
  rw [Source.point_start] at hskip
  rw [start, hskip]
  rfl

/-- The machine as it stands before a step that is made. -/
inductive Reached (src : Source) : Scanner → Prop
  | start {s : Scanner} (h : Scanner.start src = .ok s) : Reached src s
  | next {s t : Scanner} (hs : Reached src s) (hgoes : s.ended = false) (h : s.advance = .ok t) :
      Reached src t

/-- What a step in a text comes to: it refuses the text, or it ends the stream, or it leaves the
machine at least one byte further on, in front of a character or at the end of the text. -/
inductive Advances (text : List Char) (s : Scanner) : Sliced Scanner → Prop
  | fails (e : LexError) : Advances text s (.error (.refused e))
  | ends {t : Scanner} (h : t.ended) : Advances text s (.ok t)
  | moves {t : Scanner} (hgoes : t.ended = false) (hpos : s.point.pos < t.point.pos)
      (hle : t.point.pos ≤ byteLength text) (hat : Boundary text t.point.pos) :
      Advances text s (.ok t)

/-- What a step of the layout leaves is further on. -/
theorem step_moves (h : src.Holds c) (hne : c.rest ≠ []) (hstep : l.step c = .ok (tokens, m, d)) :
    src.Holds d ∧ (src.point c).pos < (src.point d).pos ∧
      (src.point d).pos ≤ byteLength src.text := by
  have hlt := Layout.length_step_lt hne hstep
  obtain ⟨n, rfl⟩ := ((Layout.reads_step l c).of_ok hstep).reaches
  have hd := h.skip n
  have hlen := hd.pos_add_byteLength
  refine ⟨hd, ?_, by omega⟩
  -- were no byte passed, no character would be
  have hbytes : byteLength (c.rest.take n) ≠ 0 := by
    intro hzero
    have hsame := List.take_append_drop n c.rest
    rw [byteLength_eq_zero.mp hzero, List.nil_append] at hsame
    rw [Cursor.rest_skip, hsame] at hlt
    exact Nat.lt_irrefl _ hlt
  rw [h.pos_skip]
  omega

/-- A state that has not ended is at the point of a cursor. -/
theorem Reached.exists_cursor {s : Scanner} (hs : Reached src s) (hgoes : s.ended = false) :
    ∃ c l tokens, src.Holds c ∧ s = ⟨src.point c, l, tokens, false⟩ := by
  -- a step is made at a cursor, and what it leaves is at a cursor again unless the stream ended
  induction hs with
  | start h =>
    rw [start_eq] at h
    cases h
    exact ⟨_, _, _, src.holds_start.reaches (Layout.reaches_skipLeading _), rfl⟩
  | @next s t hs hbefore h ih =>
    obtain ⟨c, l, tokens, hc, rfl⟩ := ih hbefore
    rw [advance_eq hc] at h
    split at h
    next =>
      cases h
      cases hgoes
    next hne =>
      cases hstep : l.step c with
      | error e =>
        rw [hstep] at h
        cases h
      | ok r =>
        obtain ⟨more, m, d⟩ := r
        rw [hstep] at h
        cases h
        exact ⟨d, m, _, (step_moves hc hne hstep).1, rfl⟩

/-- One step gets on, from every state that is reached. -/
theorem Reached.advances {s : Scanner} (hs : Reached src s) (hgoes : s.ended = false) :
    Advances src.text s s.advance := by
  obtain ⟨c, l, tokens, hc, rfl⟩ := hs.exists_cursor hgoes
  rw [advance_eq hc]
  split
  next => exact .ends rfl
  next hne =>
    cases hstep : l.step c with
    | error e => exact .fails e
    | ok r =>
      obtain ⟨more, m, d⟩ := r
      obtain ⟨hd, hlt, hle⟩ := step_moves hc hne hstep
      exact .moves rfl hlt hle hd.boundary

/-- Each step uses up a byte, so a run takes no more steps than there are bytes left, and the last
one. -/
theorem run_eq (h : src.Holds c) (l : Layout) (tokens : List Token) {calls : Nat}
    (hcalls : byteLength c.rest < calls) :
    run calls ⟨src.point c, l, tokens, false⟩ = some (sliced (tokens ++ ·) (l.tokens c)) := by
  induction calls generalizing c l tokens with
  | zero => exact (Nat.not_lt_zero _ hcalls).elim
  | succ calls ih =>
    rw [run, if_neg nofun, advance_eq h]
    by_cases hnil : c.rest = []
    · rw [if_pos hnil, Layout.tokens, if_pos hnil]
      cases calls <;> rfl
    · rw [if_neg hnil, Layout.tokens_of_ne hnil]
      cases hstep : l.step c with
      | error e => rfl
      | ok r =>
        obtain ⟨more, m, d⟩ := r
        obtain ⟨hd, hlt, -⟩ := step_moves h hnil hstep
        -- what is left and what was passed make up the text before the step and after it
        have hc := h.pos_add_byteLength
        have hlen := hd.pos_add_byteLength
        rw [sliced]
        dsimp only
        rw [ih hd m (tokens ++ more) (by omega)]
        show _ = some (sliced (tokens ++ ·) ((more ++ ·) <$> m.tokens d))
        cases m.tokens d with
        | error e => rfl
        | ok ts => exact congrArg (fun us => some (Except.ok us)) (List.append_assoc ..)

/-- The tokens of a text, if the machine makes them in a number of steps. -/
def tokenize (calls : Nat) (src : Source) : Option (Sliced (List Token)) :=
  match start src with
  | .ok s => s.run calls
  | .error e => some (.error e)

end Scanner

/-- Every step of the scanner fails, ends the stream or gets on; and after as many steps as the text
has bytes, and one, the scanner has made the tokens of the text or found its error. -/
theorem scanner_progresses (text : String) (origin : Location) :
    (∀ s, Scanner.Reached ⟨text.toList, origin⟩ s → s.ended = false →
      Scanner.Advances text.toList s s.advance) ∧
    Scanner.tokenize (byteLength text.toList + 1) ⟨text.toList, origin⟩ =
      some (sliced id (lexAt text origin)) := by
  let src : Source := ⟨text.toList, origin⟩
  refine ⟨fun s hs hgoes => hs.advances hgoes, ?_⟩
  have hskip : src.Holds (Layout.skipLeading src.start) :=
    src.holds_start.reaches (Layout.reaches_skipLeading _)
  have hlen := hskip.pos_add_byteLength
  rw [Scanner.tokenize, Scanner.start_eq]
  dsimp only
  rw [Scanner.run_eq hskip _ _ (by show _ < byteLength src.text + 1; omega)]
  rfl

/-- Behind the tag the machine is one byte into its text, and the next step passes an accent. -/
theorem scanner_progresses_accent : ∃ s,
    Scanner.Reached ⟨"p é".toList, .start⟩ s ∧ s.ended = false ∧ s.point.pos = 1 ∧
      Scanner.Advances "p é".toList s s.advance ∧
      Scanner.tokenize 5 ⟨"p é".toList, .start⟩ = some (sliced id (lexAt "p é" .start)) := by
  let src : Source := ⟨"p é".toList, .start⟩
  have hskip : Layout.skipLeading src.start = src.start := by
    rw [Layout.skipLeading]
    rfl
  have hstart : Scanner.Reached src ⟨src.point src.start, .empty, [], false⟩ :=
    .start (by rw [Scanner.start_eq, hskip])
  have hstep : Layout.empty.step src.start =
      .ok ([⟨.tag "p", .start⟩], .empty, src.start.skip 1) := by
    rfl
  have hnext : Scanner.Reached src
      ⟨src.point (src.start.skip 1), .empty, [⟨.tag "p", .start⟩], false⟩ := by
    refine .next hstart rfl ?_
    rw [Scanner.advance_eq src.holds_start, if_neg (by decide), hstep]
    rfl
  have hpos : (src.point (src.start.skip 1)).pos = 1 := by
    rw [src.holds_start.pos_skip, Source.point_start]
    rfl
  obtain ⟨hadvances, hruns⟩ := scanner_progresses "p é" .start
  exact ⟨_, hnext, rfl, hpos, hadvances _ hnext rfl, hruns⟩

end PugTemplate
