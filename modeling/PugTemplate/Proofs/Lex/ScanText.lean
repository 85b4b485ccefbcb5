import PugTemplate.Proofs.Lex.Moved
import PugTemplate.Proofs.Lex.Scanner

/-!
# What the scanner makes of text

Markers, blocks of text and attribute lists are scanned with offsets into a part that was cut out.
Each loop keeps the same invariant: its offset is the length of the text it has passed, so the cut
it takes next is what the reader of the same text has left.
-/

namespace PugTemplate

open Point (fail)

/-! ## Markers -/

theorem byteAt?_of_single {c : Char} (hc : c.utf8Size = 1) (before cs : List Char) :
    byteAt? (before ++ c :: cs) (byteLength before) = some c := by
  have hat := byteAt?_append before (c :: cs) 0
  rw [Nat.add_zero] at hat
  rw [hat, byteAt?, if_pos (by omega), if_pos hc]

/-- No byte of a character of several is a character. -/
theorem byteAt?_of_several {c : Char} (hc : c.utf8Size ≠ 1) (before cs : List Char) {j : Nat}
    (hj : j < c.utf8Size) : byteAt? (before ++ c :: cs) (byteLength before + j) = none := by
  rw [byteAt?_append, byteAt?, if_pos hj, if_neg hc]

theorem head?_of_byteAt?_zero {cs : List Char} {c : Char} (h : byteAt? cs 0 = some c) :
    cs.head? = some c := by
  cases cs with
  | nil => cases h
  | cons d cs =>
    rw [byteAt?, if_pos d.utf8Size_pos] at h
    split at h
    · exact h
    · cases h

theorem byteAt?_zero_of_single {c : Char} (hc : c.utf8Size = 1) (cs : List Char) :
    byteAt? (c :: cs) 0 = some c :=
  byteAt?_of_single hc [] cs

/-- The two bytes of a marker are its two characters. -/
theorem markerBracket?_eq (c : Char) (cs : List Char) :
    markerBracket? (some c) (byteAt? cs 0) = (Piece.marker? (c :: cs)).map Prod.fst := by
  have hcurly : '\x7b'.utf8Size = 1 := by decide
  have hsquare : '['.utf8Size = 1 := by decide
  unfold Piece.marker?
  split
  next heq =>
    cases heq
    rw [byteAt?_zero_of_single hcurly]
    rfl
  next heq =>
    cases heq
    rw [byteAt?_zero_of_single hcurly]
    rfl
  next heq =>
    cases heq
    rw [byteAt?_zero_of_single hsquare]
    rfl
  next hhash hbang htag =>
    -- a second byte that is a character is the next character, which would make a marker
    have hnext {d : Char} (hd : byteAt? cs 0 = some d) : ∃ rest, cs = d :: rest :=
      List.head?_eq_some_iff.mp (head?_of_byteAt?_zero hd)
    have hnone : ¬ ((some c = some '#' ∨ some c = some '!') ∧ byteAt? cs 0 = some '\x7b') := by
      rintro ⟨hc, hd⟩
      obtain ⟨rest, rfl⟩ := hnext hd
      obtain hc | hc := hc
      · cases hc
        exact hhash _ rfl
      · cases hc
        exact hbang _ rfl
    have hnone' : ¬ (some c = some '#' ∧ byteAt? cs 0 = some '[') := by
      rintro ⟨hc, hd⟩
      obtain ⟨rest, rfl⟩ := hnext hd
      cases hc
      exact htag _ rfl
    rw [markerBracket?, if_neg hnone, if_neg hnone']
    rfl

variable {before cs : List Char} {c : Char} {loc : Location}

/-- The text behind a character of one byte. -/
theorem sliceFrom_succ (hc : c.utf8Size = 1) :
    sliceFrom (before ++ c :: cs) (byteLength before + 1) = .ok cs := by
  have h := sliceFrom_append (before ++ [c]) cs
  rwa [← byteLength_snoc, hc, List.append_assoc] at h

theorem byteAt?_succ (hc : c.utf8Size = 1) :
    byteAt? (before ++ c :: cs) (byteLength before + 1) = byteAt? cs 0 := by
  have h := byteAt?_append (before ++ [c]) cs 0
  rwa [byteLength_append, byteLength_cons, hc, List.append_assoc] at h

theorem escapesAt_eq (hc : c.utf8Size = 1) :
    escapesAt (before ++ c :: cs) (byteLength before) =
      .ok (c = '\\' && (Piece.marker? cs).isSome) := by
  rw [escapesAt, byteAt?_of_single hc, sliceFrom_succ hc, ok_bind]
  by_cases hslash : c = '\\'
  · rw [if_pos (congrArg some hslash), decide_eq_true hslash, Bool.true_and]
    rfl
  · rw [if_neg fun h => hslash (Option.some.inj h), decide_eq_false hslash]
    rfl

/-- What is done at a character of one byte that escapes no marker. -/
theorem scanMarkers_single (hc : c.utf8Size = 1)
    (hescape : ¬ (c = '\\' ∧ (Piece.marker? cs).isSome)) :
    scanMarkers (before ++ c :: cs) loc (byteLength before) =
      match (Piece.marker? (c :: cs)).map Prod.fst with
      | none => scanMarkers (before ++ c :: cs) loc (byteLength before + 1)
      | some b => (do
        match Nesting.inside b (← sliceFrom (before ++ c :: cs) (byteLength before + 2)) with
        | .ok content =>
          scanMarkers (before ++ c :: cs) loc (byteLength before + 2 + byteLength content + 1)
        | .error f =>
          fail (.bracket f.violation)
            (loc.right (byteLength before + 2 + byteLength f.before))) := by
  have hlen : byteLength (before ++ c :: cs) = byteLength before + (1 + byteLength cs) := by
    rw [byteLength_append, byteLength_cons, hc]
  have hbracket := markerBracket?_eq c cs
  rw [scanMarkers, if_pos (by omega), escapesAt_eq hc, ok_bind, if_neg (by simpa using hescape),
    byteAt?_of_single hc, byteAt?_succ hc]
  -- the scan matches on the two bytes, the statement on the marker
  generalize (Piece.marker? (c :: cs)).map Prod.fst = bracket at hbracket ⊢
  subst hbracket
  rfl

/-- A character that begins no marker is passed, byte by byte. -/
theorem scanMarkers_pass (hescape : ¬ (c = '\\' ∧ (Piece.marker? cs).isSome))
    (hmarker : Piece.marker? (c :: cs) = none) :
    scanMarkers (before ++ c :: cs) loc (byteLength before) =
      scanMarkers (before ++ c :: cs) loc (byteLength before + c.utf8Size) := by
  by_cases hc : c.utf8Size = 1
  · rw [scanMarkers_single hc hescape, hmarker, hc]
    rfl
  · -- inside a character of several bytes, no byte is one of a marker
    have hstep (j : Nat) (hj : j < c.utf8Size) :
        scanMarkers (before ++ c :: cs) loc (byteLength before + j) =
          scanMarkers (before ++ c :: cs) loc (byteLength before + (j + 1)) := by
      have hnone := byteAt?_of_several hc before cs hj
      have hlt : byteLength before + j < byteLength (before ++ c :: cs) := by
        rw [byteLength_append, byteLength_cons]
        omega
      rw [scanMarkers, if_pos hlt, escapesAt, hnone, if_neg nofun, pure_eq_ok, ok_bind]
      rfl
    have hsteps (j : Nat) (hj : j ≤ c.utf8Size) :
        scanMarkers (before ++ c :: cs) loc (byteLength before) =
          scanMarkers (before ++ c :: cs) loc (byteLength before + j) := by
      induction j with
      | zero => rfl
      | succ j ih => rw [ih (by omega), hstep j (by omega)]
    exact hsteps c.utf8Size (Nat.le_refl _)

/-- A marker is passed with what is inside it, if it is closed. -/
theorem scanMarkers_marker {b : Bracket} {escape : Bool}
    (hescape : ¬ (c = '\\' ∧ (Piece.marker? cs).isSome))
    (hmarker : Piece.marker? (c :: cs) = some (b, escape)) :
    scanMarkers (before ++ c :: cs) loc (byteLength before) =
      match Nesting.inside b cs.tail with
      | .ok content =>
        scanMarkers (before ++ c :: cs) loc (byteLength before + 2 + byteLength content + 1)
      | .error f =>
        fail (.bracket f.violation) (loc.right (byteLength before + 2 + byteLength f.before)) := by
  obtain ⟨x, y, rest, hcs, hx, hy⟩ := Piece.marker?_cases hmarker
  cases hcs
  have hbehind := sliceFrom_append (before ++ [c, y]) rest
  rw [byteLength_append, show byteLength [c, y] = 2 by rw [byteLength, byteLength, hx, hy]; rfl,
    List.append_assoc] at hbehind
  rw [scanMarkers_single hx hescape, hmarker]
  dsimp only [Option.map]
  rw [show before ++ c :: y :: rest = before ++ ([c, y] ++ rest) from rfl, hbehind]
  rfl

/-- The answer of the scan of markers. -/
def markersAnswer (loc : Location) : Option (Nesting.Violation × Nat) → Sliced Unit
  | none => .ok ()
  | some (v, offset) => fail (.bracket v) (loc.right offset)

theorem scanMarkers_append (before cs : List Char) (loc : Location) :
    scanMarkers (before ++ cs) loc (byteLength before) =
      markersAnswer loc (Piece.firstBroken? (Piece.split (byteLength before) cs)) := by
  generalize hoffset : byteLength before = offset
  -- the offset at which the pieces are read is the length of what is in front of them
  fun_induction Piece.split offset cs generalizing before with
  | case1 =>
    rw [scanMarkers, List.append_nil, hoffset, if_neg (Nat.lt_irrefl _)]
    rfl
  | case2 offset c cs hescape ih =>
    -- the backslash and the marker behind it are three bytes
    obtain ⟨⟨b, escape⟩, hm⟩ := Option.isSome_iff_exists.mp hescape.2
    obtain ⟨x, y, rest, rfl, hx, hy⟩ := Piece.marker?_cases hm
    obtain ⟨rfl, hsome⟩ := hescape
    have hc : '\\'.utf8Size = 1 := by decide
    have hnext := ih (before ++ ['\\', x, y]) (by
      simp only [byteLength_append, byteLength, hc, hx, hy, hoffset])
    subst hoffset
    rw [scanMarkers, if_pos (by simp only [byteLength_append, byteLength, hc]; omega),
      escapesAt_eq hc, ok_bind, if_pos (by simpa using hsome), Piece.firstBroken?_prependLiteral,
      ← hnext]
    simp
  | case3 offset c cs hescape hmarker ih =>
    subst hoffset
    rw [scanMarkers_pass hescape hmarker, Piece.firstBroken?_prependLiteral,
      ← ih (before ++ [c]) (by simp [byteLength]), List.append_assoc]
    rfl
  | case4 offset c cs hescape b escape hmarker failure hfailure =>
    subst hoffset
    rw [scanMarkers_marker hescape hmarker, hfailure]
    rfl
  | case5 offset c cs hescape b escape hmarker source hsource ih =>
    obtain ⟨x, y, rest, hcs, hx, hy⟩ := Piece.marker?_cases hmarker
    cases hcs
    -- passed are the two bytes of the marker, what is inside, and the closing bracket
    obtain ⟨more, hmore⟩ := Nesting.inside_closing hsource
    dsimp only [List.tail_cons] at hmore
    subst hmore hoffset
    have hnext := ih (before ++ c :: y :: (source ++ [b.closing])) (by
      simp only [byteLength_append, byteLength, hx, hy, Piece.utf8Size_closing]
      omega)
    rw [scanMarkers_marker hescape hmarker, hsource, Piece.firstBroken?_enclosed, ← hnext]
    simp

theorem scanMarkers_eq (text : List Char) (loc : Location) :
    scanMarkers text loc 0 = sliced id (checkMarkers loc text) := by
  have h := scanMarkers_append [] text loc
  rw [List.nil_append, byteLength_nil] at h
  rw [h, checkMarkers]
  cases Piece.firstBroken? (Piece.split 0 text) <;> rfl

/-! ## Blocks of text -/

namespace Pipeless

theorem indentBytes_eq (line : List Char) : indentBytes line = indentOf line :=
  byteLength_of_isIndent fun x hx => List.all_eq_true.mp List.all_takeWhile x hx

theorem commonBytes_eq (lines : List (List Char)) : commonBytes lines = commonIndent lines := by
  rw [commonBytes, commonIndent, funext indentBytes_eq]

/-- Indentation has as many bytes as characters. -/
theorem byteLength_take {line : List Char} {n : Nat} (h : n ≤ indentOf line) :
    byteLength (line.take n) = n := by
  have hindent : line.take n = (line.takeWhile isIndent).take n := by
    conv_lhs => rw [← List.takeWhile_append_dropWhile (p := isIndent) (l := line)]
    exact List.take_append_of_le_length h
  have hall : ∀ x ∈ line.take n, isIndent x := fun x hx =>
    List.all_eq_true.mp List.all_takeWhile x (List.mem_of_mem_take (hindent ▸ hx))
  rw [byteLength_of_isIndent hall, hindent, List.length_take_of_le h]

/-- The step over a line feed and the line behind it. -/
theorem linesFrom_feed (width : Nat) (before cs : List Char) :
    linesFrom width (before ++ '\n' :: cs) (byteLength before) =
      if !allBlank (lineOf cs) && indentOf (lineOf cs) ≤ width then .ok []
      else (lineOf cs :: ·) <$>
        linesFrom width (before ++ '\n' :: cs) (byteLength (before ++ '\n' :: lineOf cs)) := by
  have hfeed : '\n'.utf8Size = 1 := by decide
  have hcut := sliceFrom_append before ('\n' :: cs)
  have hline : slice (before ++ '\n' :: cs) (byteLength before + 1)
      (byteLength before + 1 + byteLength (lineOf cs)) = .ok (lineOf cs) := by
    refine slice_eq_ok_iff.mpr ⟨before ++ ['\n'], cs.drop (lineOf cs).length, ?_, ?_, rfl⟩
    · rw [List.append_assoc, List.prefix_iff_eq_append.mp (lineOf_isPrefix cs), List.append_assoc]
      rfl
    · rw [byteLength_append, byteLength_cons, hfeed]
      rfl
  have hnext : byteLength (before ++ '\n' :: lineOf cs) =
      byteLength before + 1 + byteLength (lineOf cs) := by
    rw [byteLength_append, byteLength_cons, hfeed, Nat.add_assoc]
  rw [linesFrom]
  split
  next he => cases he.symm.trans hcut
  next =>
    dsimp only
    rw [sliceFrom_succ hfeed, ok_bind, hline, ok_bind, indentBytes_eq, hnext]
    rfl
  next hno he =>
    cases he.symm.trans hcut
    exact (hno _ rfl).elim

theorem linesFrom_append (width : Nat) (before cs : List Char) :
    linesFrom width (before ++ cs) (byteLength before) = .ok (deeperLines width cs) := by
  fun_induction deeperLines width cs generalizing before with
  | case1 =>
    have hcut := sliceFrom_append before []
    rw [linesFrom]
    split
    next he => cases he.symm.trans hcut
    next he => cases he.symm.trans hcut
    next => rfl
  | case2 cs line hend => rw [linesFrom_feed, if_pos hend]
  | case3 cs line hline ih =>
    have hcs : line ++ cs.drop line.length = cs :=
      List.prefix_iff_eq_append.mp (lineOf_isPrefix cs)
    have hnext := ih (before ++ '\n' :: line)
    rw [List.append_assoc, List.cons_append, hcs] at hnext
    rw [linesFrom_feed, if_neg hline]
    exact congrArg _ hnext
  | case4 c cs hc =>
    have hcut := sliceFrom_append before (c :: cs)
    rw [linesFrom]
    split
    next he => cases he.symm.trans hcut
    next he =>
      cases he.symm.trans hcut
      exact (hc rfl).elim
    next => rfl

variable {src : Source} {c : Cursor} {base : Nat} {line : List Char} {lines : List (List Char)}

/-- What a line shows is cut out of it. -/
theorem scanShown_eq (h : Below base c (line :: lines)) :
    scanShown base line = .ok (shownText base line) := by
  unfold scanShown shownText
  split
  next => rfl
  next hb =>
    have hle := h.deep line List.mem_cons_self (Bool.eq_false_iff.mpr hb)
    have hcut := sliceFrom_of_isPrefix (List.take_prefix base line)
    have hlen : base ≤ line.length := Nat.le_trans hle (List.takeWhile_prefix _).length_le
    rwa [byteLength_take hle, List.length_take_of_le hlen] at hcut

/-- The position of what a line shows. -/
theorem locationAt_shown (hc : src.Holds c) (h : Below base c (line :: lines)) :
    (src.point (c.skip 1)).locationAt
        ((src.point (c.skip 1)).pos + if allBlank line then 0 else base) =
      .ok (shownAt base c line).loc := by
  have hle := h.shown_le
  have hlen := h.shown_le_length
  obtain ⟨more, hmore⟩ := h.rest_skip
  unfold shownAt
  generalize (if allBlank line then 0 else base) = shown at hle hlen ⊢
  have hpre : line.take shown <+: (c.skip 1).rest := by
    rw [hmore]
    exact (List.take_prefix _ _).trans (List.prefix_append _ _)
  have hat := (hc.skip 1).locationAt hpre
  rw [byteLength_take hle] at hat
  rw [hat]
  show Except.ok _ = Except.ok ((c.skip 1).loc.afterText ((c.skip 1).rest.take shown))
  rw [hmore, List.take_append_of_le_length hlen]

theorem checkShown_eq (check : Bool) (loc : Location) (text : List Char) :
    checkShown check loc text = sliced id (if check then checkMarkers loc text else .ok ()) := by
  cases check with
  | false => rfl
  | true => exact scanMarkers_eq text loc

theorem scanLines_eq (hc : src.Holds c) (h : Below base c lines) (check first : Bool) :
    scanLines check base first (src.point c) lines =
      sliced (fun ts => (ts, src.point (c.skip (extent lines))))
        (lineTokens check base first c lines) := by
  induction lines generalizing c first with
  | nil =>
    rw [show extent [] = 0 from rfl, Cursor.skip_zero]
    rfl
  | cons line lines ih =>
    obtain ⟨cs, hcs⟩ := List.head?_eq_some_iff.mp h.front
    obtain ⟨more, hmore⟩ := h.rest_skip
    have hline : line <+: (c.skip 1).rest := hmore ▸ List.prefix_append _ _
    have hmove := (hc.skip 1).advance hline (h.oneLine line List.mem_cons_self)
    have hend : ((c.skip 1).skip line.length).skip (extent lines) =
        c.skip (extent (line :: lines)) := by
      rw [Cursor.skip_skip, Cursor.skip_skip]
      congr 1
      simp only [extent, List.foldr_cons]
      omega
    rw [scanLines, lineTokens_cons]
    dsimp only
    rw [hc.advanceChar hcs, scanShown_eq h, ok_bind, locationAt_shown hc h, ok_bind, checkShown_eq,
      hmove, ih ((hc.skip 1).skip _) h.next false, hend, (hc.skip 1).location]
    -- the markers of this line are checked before the lines below it are looked at
    cases lineTokens check base false ((c.skip 1).skip line.length) lines with
    | error e =>
      cases check with
      | false => rfl
      | true => cases checkMarkers (shownAt base c line).loc (shownText base line) <;> rfl
    | ok tokens =>
      cases check with
      | false => rfl
      | true => cases checkMarkers (shownAt base c line).loc (shownText base line) <;> rfl

theorem scan_eq (hc : src.Holds c) (check : Bool) (width : Nat) :
    scan check width (src.point c) =
      sliced (fun r => (r.1, src.point r.2)) (read check width c) := by
  have hbelow := below_read width c
  have hlines := linesFrom_append width [] c.rest
  rw [List.nil_append, byteLength_nil] at hlines
  rw [scan, hc.rest, ok_bind, hlines, ok_bind, read]
  dsimp only
  rw [commonBytes_eq]
  generalize dropBlankEnd (deeperLines width c.rest) = lines at hbelow ⊢
  by_cases hnil : lines = []
  · rw [if_pos hnil, if_pos hnil]
    rfl
  · rw [if_neg hnil, if_neg hnil, scanLines_eq hc hbelow, hc.location]
    cases lineTokens check (commonIndent lines) true c lines with
    | error e => rfl
    | ok tokens =>
      rw [sliced, ok_bind]
      dsimp only
      rw [(hc.skip _).location]
      rfl

end Pipeless

/-! ## Parts of the text -/

/-- A part of the text begins at an offset and a position: the positions inside it are counted on
from there. -/
def Point.Places (s : Point) (base : Nat) (content : List Char) (loc : Location) : Prop :=
  ∀ xs, xs <+: content → s.locationAt (base + byteLength xs) = .ok (loc.afterText xs)

theorem Source.Holds.places {src : Source} {c : Cursor} (h : src.Holds c) {xs content : List Char}
    (hx : xs ++ content <+: c.rest) :
    (src.point c).Places ((src.point c).pos + byteLength xs) content (c.skip xs.length).loc := by
  intro ys hys
  have hxs : xs <+: c.rest := (List.prefix_append _ _).trans hx
  have hat := h.locationAt (((List.prefix_append_right_inj xs).mpr hys).trans hx)
  rw [byteLength_append, ← Nat.add_assoc, Location.afterText_append] at hat
  rw [hat, Cursor.skip, ← List.prefix_iff_eq_take.mp hxs]

namespace Point.Places

variable {s : Point} {base : Nat} {content : List Char}

/-- A part of a part. -/
theorem behind {part : Source} {e : Cursor} (h : s.Places base part.text part.origin)
    (he : part.Holds e) : s.Places (base + (part.point e).pos) e.rest e.loc := by
  intro ys hys
  obtain ⟨n, rfl⟩ := he
  have hpart : part.text.take n ++ ys <+: part.text := by
    have happend := (List.prefix_append_right_inj (part.text.take n)).mpr hys
    rwa [Cursor.rest_skip, show part.start.rest = part.text from rfl,
      List.take_append_drop] at happend
  have hat := h _ hpart
  rw [byteLength_append, ← Nat.add_assoc, Location.afterText_append] at hat
  rw [Source.point_skip_start, Point.pos_foldl, show part.first.pos = 0 from rfl, Nat.zero_add, hat]
  rfl

theorem nestingError {e : Cursor} {α : Type} (h : s.Places base e.rest e.loc) {f : Nesting.Failure}
    (hf : f.before <+: e.rest) :
    (s.nestingError f.violation (base + byteLength f.before) : Sliced α) =
      .error (.refused (e.nestingError f)) := by
  rw [Point.nestingError, h _ hf, ok_bind]
  rfl

end Point.Places

/-! ## Attribute lists -/

namespace Attribute

theorem plainLength_append (before cs : List Char) :
    plainLength (before ++ cs) (byteLength before) cs =
      .ok (byteLength before + byteLength (plainName cs)) := by
  induction cs generalizing before with
  | nil =>
    rw [List.append_nil]
    rfl
  | cons c cs ih =>
    have hnext := ih (before ++ [c])
    rw [List.append_assoc, ← byteLength_snoc, Nat.add_assoc] at hnext
    rw [plainLength, plainName]
    by_cases hend : isSeparator c || c == '='
    · rw [if_pos hend, hend]
      rfl
    · rw [if_neg hend, Bool.eq_false_iff.mpr hend, Bool.false_or]
      by_cases hbang : c = '!'
      · subst hbang
        rw [if_pos rfl, sliceFrom_succ (by decide), ok_bind]
        by_cases hnot : cs.head? = some '='
        · rw [if_pos hnot, hnot]
          rfl
        · rw [if_neg hnot, if_neg (by simpa using hnot)]
          exact hnext
      · rw [if_neg hbang, if_neg (by simp [hbang])]
        exact hnext

/-- The name is the one that is read, and takes the bytes of the characters it takes. -/
theorem scanName_eq (loc : Location) (text : List Char) :
    scanName loc text =
      sliced (fun (name, n) => (name, byteLength (text.take n))) (readName loc text) := by
  cases text with
  | nil => rfl
  | cons q cs =>
    rw [readName]
    dsimp only [scanName]
    split
    next hq =>
      have hone : q.utf8Size = 1 := by
        obtain rfl | rfl := hq <;> decide
      have hquote : byteLength [q] = 1 := by
        rw [byteLength_cons, hone]
        rfl
      have hcut := sliceFrom_of_isPrefix (List.prefix_append [q] cs)
      rw [hquote] at hcut
      rw [show sliceFrom (q :: cs) 1 = .ok cs from hcut, ok_bind]
      -- the name is shorter than what is behind the quote just if there is a second quote
      by_cases hlen : (cs.takeWhile (· ≠ q)).length < cs.length
      · have hname := quoted_isPrefix hlen
        generalize cs.takeWhile (· ≠ q) = name at hlen hname ⊢
        obtain ⟨more, rfl⟩ := hname
        have hpart : slice (q :: (name ++ [q] ++ more)) 1 (byteLength name + 1) = .ok name :=
          slice_eq_ok_iff.mpr ⟨[q], q :: more, by simp, hquote.symm, Nat.add_comm ..⟩
        have htake : (q :: (name ++ [q] ++ more)).take (name.length + 2) = q :: (name ++ [q]) := by
          rw [List.take_succ_cons, List.take_left' (by simp)]
        rw [if_pos (by simp), hpart, ok_bind, if_pos hlen, sliced, htake, byteLength_cons,
          byteLength_append, byteLength_cons, hone, pure_eq_ok]
        exact congrArg (fun n => Except.ok (name, n)) (by rw [byteLength]; omega)
      · have hq : q ∉ cs := by
          intro hmem
          have hpre := List.takeWhile_prefix (p := (· ≠ q)) (l := cs)
          have hall := hpre.eq_of_length_le (Nat.not_lt.mp hlen)
          rw [← hall] at hmem
          simpa using List.all_eq_true.mp List.all_takeWhile _ hmem
        rw [if_neg hq, if_neg hlen]
        rfl
    next =>
      have hlen := plainLength_append [] (q :: cs)
      rw [List.nil_append, byteLength_nil, Nat.zero_add] at hlen
      rw [hlen, ok_bind, sliceTo_of_isPrefix (plainName_isPrefix _), ok_bind]
      rw [sliced, ← List.prefix_iff_eq_take.mp (plainName_isPrefix _)]
      rfl

theorem scanMark_eq (before cs : List Char) :
    scanMark (before ++ cs) (byteLength before) =
      .ok ((mark? cs).map fun r => (r.1, byteLength (cs.take r.2))) := by
  have hcs := List.prefix_iff_eq_append.mp (List.takeWhile_prefix (p := isBlank) (l := cs))
  -- what follows holds of any text with the blanks in front of it
  rw [scanMark, mark?, sliceFrom_append, ok_bind]
  dsimp only
  generalize cs.takeWhile isBlank = blanks at hcs ⊢
  generalize cs.drop blanks.length = behind at hcs ⊢
  subst hcs
  have hbehind := sliceFrom_append (before ++ blanks) behind
  rw [List.append_assoc, byteLength_append] at hbehind
  have htake (n : Nat) : byteLength ((blanks ++ behind).take (blanks.length + n)) =
      byteLength blanks + byteLength (behind.take n) := by
    rw [List.take_length_add_append, byteLength_append]
  rw [hbehind, ok_bind]
  by_cases hnot : "!=".toList.isPrefixOf behind
  · obtain ⟨more, rfl⟩ := List.isPrefixOf_iff_prefix.mp hnot
    rw [if_pos hnot]
    exact congrArg (fun n => Except.ok (some (false, n))) (htake 2).symm
  · rw [if_neg hnot]
    by_cases heq : "=".toList.isPrefixOf behind
    · obtain ⟨more, rfl⟩ := List.isPrefixOf_iff_prefix.mp heq
      rw [if_pos heq]
      exact congrArg (fun n => Except.ok (some (true, n))) (htake 1).symm
    · rw [if_neg heq]
      split
      next more => exact (hnot (List.isPrefixOf_iff_prefix.mpr ⟨more, rfl⟩)).elim
      next more => exact (heq (List.isPrefixOf_iff_prefix.mpr ⟨more, rfl⟩)).elim
      next => rfl

theorem byteLength_concat (xs ys : List Char) (c : Char) :
    byteLength (xs ++ [c]) + byteLength ys = byteLength xs + byteLength (c :: ys) := by
  rw [← byteLength_snoc, byteLength_cons, Nat.add_assoc]

/-- What is passed of a value, or the failure inside it, for a reading of the value. -/
def valueAnswer (s : Point) (base : Nat) (before : List Char) :
    Except Nesting.Failure (List Char) → Sliced Nat
  | .ok text => .ok (byteLength before + byteLength text)
  | .error f => s.nestingError f.violation (base + (byteLength before + byteLength f.before))

theorem valueAnswer_continueWith (s : Point) (base : Nat) (before : List Char) (c : Char)
    (x : Except Nesting.Failure (List Char)) :
    valueAnswer s base before (valueText.continueWith c x) =
      valueAnswer s base (before ++ [c]) x := by
  cases x with
  | ok text => exact congrArg Except.ok (byteLength_concat before text c).symm
  | error f =>
    exact congrArg (fun n => s.nestingError f.violation (base + n))
      (byteLength_concat before f.before c).symm

/-- The value is the one that is read, and so is the failure inside it. -/
theorem valueLength_append (s : Point) (base : Nat) (before cs : List Char) (open_ : List Enclosure)
    (last : Option Char) :
    valueLength s base (before ++ cs) open_ last (byteLength before) cs =
      valueAnswer s base before (valueText open_ last cs) := by
  fun_induction valueText open_ last cs generalizing before with
  | case1 =>
    rw [valueLength, List.append_nil]
    rfl
  | case2 open_ last c cs hend =>
    rw [valueLength, if_pos hend]
    rfl
  | case3 open_ last c cs hend next carriesOn hblank hgoes ih =>
    obtain ⟨rfl, hc⟩ := hblank
    rw [valueLength, if_neg hend, if_pos ⟨rfl, hc⟩, sliceFrom_append, ok_bind, trimStart,
      List.dropWhile_cons_of_pos hc]
    refine (if_pos hgoes).trans ?_
    rw [valueAnswer_continueWith, byteLength_snoc, List.append_cons, ih]
  | case4 open_ last c cs hend next carriesOn hblank hstops =>
    rw [valueLength, if_neg hend, if_pos hblank, sliceFrom_append, ok_bind, trimStart,
      List.dropWhile_cons_of_pos hblank.2]
    exact if_neg hstops
  | case5 open_ last c cs hend hblank violation hfeed =>
    rw [valueLength, if_neg hend, if_neg hblank, hfeed]
    rfl
  | case6 open_ last c cs hend hblank inner hfeed ih =>
    rw [valueLength, if_neg hend, if_neg hblank, hfeed]
    dsimp only
    rw [valueAnswer_continueWith, byteLength_snoc, List.append_cons, ih]

theorem valueText_isPrefix {open_ : List Enclosure} {last : Option Char} {cs text : List Char}
    (h : valueText open_ last cs = .ok text) : text <+: cs := by
  have hcontinue {c : Char} {cs text : List Char} {x : Except Nesting.Failure (List Char)}
      (hx : ∀ {ys}, x = .ok ys → ys <+: cs) (h : valueText.continueWith c x = .ok text) :
      text <+: c :: cs := by
    cases x with
    | error f => cases h
    | ok ys =>
      cases h
      exact (List.prefix_cons_inj c).mpr (hx rfl)
  fun_induction valueText open_ last cs generalizing text
  case case1 | case2 | case4 =>
    cases h
    exact List.nil_prefix
  case case3 ih | case6 ih => exact hcontinue (fun hy => ih hy) h
  case case5 => cases h

variable {s : Point} {base : Nat} {part : Source} {e : Cursor}

/-- What is scanned of an attribute in a part of the text is what is read at a cursor of the
part. -/
theorem scanValue_eq (h : s.Places base part.text part.origin) (he : part.Holds e) (loc : Location)
    (name : List Char) :
    scanValue s base part.text loc name (part.point e).pos =
      match mark? e.rest with
      | none => .ok (token loc name none true, (part.point e).pos)
      | some (escape, m) =>
        match valueText [] none (valueStart e m).rest with
        | .error f => .error (.refused ((valueStart e m).nestingError f))
        | .ok text =>
          if trim text = [] then
            .error (.refused ⟨.missingAttributeValue (String.ofList name), loc⟩)
          else
            .ok (token loc name (some (trim text)) escape,
              (part.point ((valueStart e m).skip text.length)).pos) := by
  have hmark : scanMark part.text (part.point e).pos =
      .ok ((mark? e.rest).map fun r => (r.1, byteLength (e.rest.take r.2))) := by
    obtain ⟨before, htext, hpos⟩ := he.exists_before
    rw [htext, hpos, scanMark_eq]
  rw [scanValue, hmark, ok_bind]
  cases hm : mark? e.rest with
  | none => rfl
  | some mark =>
    obtain ⟨escape, m⟩ := mark
    -- positions in the value are counted from its own beginning
    have hbehind := he.skip m
    have hvalue : part.Holds (valueStart e m) := hbehind.skip _
    have hstart : (part.point (e.skip m)).pos + byteLength ((e.skip m).rest.takeWhile isBlank) =
        (part.point (valueStart e m)).pos :=
      (hbehind.pos_of_isPrefix (List.takeWhile_prefix _)).symm
    have hplace := h.behind hvalue
    have hlen := valueLength_append s (base + (part.point (valueStart e m)).pos) []
      (valueStart e m).rest [] none
    dsimp only [Option.map]
    rw [← he.pos_skip, hbehind.sliceFrom_pos, ok_bind, hstart, hvalue.sliceFrom_pos, ok_bind]
    rw [List.nil_append, byteLength_nil] at hlen
    rw [hlen]
    cases htext : valueText [] none (valueStart e m).rest with
    | error f =>
      have hfail := hplace.nestingError (α := Nat) (valueText_before htext)
      rw [valueAnswer, byteLength_nil, Nat.zero_add, hfail]
      rfl
    | ok text =>
      have hpre := valueText_isPrefix htext
      rw [valueAnswer, byteLength_nil, Nat.zero_add, ok_bind,
        hvalue.slice_pos hpre, ok_bind, ← hvalue.pos_of_isPrefix hpre]
      rfl

theorem scanAttribute_eq (h : s.Places base part.text part.origin) (he : part.Holds e) :
    scanAttribute s base part.text (part.point e).pos =
      match readName e.loc e.rest with
      | .error x => .error (.refused x)
      | .ok (name, n) =>
        if name = [] then .error (.refused ⟨.missingAttributeName, e.loc⟩)
        else scanValue s base part.text e.loc name (part.point (e.skip n)).pos := by
  have hloc := h.behind he [] List.nil_prefix
  rw [byteLength_nil, Nat.add_zero] at hloc
  rw [scanAttribute, hloc, ok_bind, he.sliceFrom_pos, ok_bind, Location.afterText_nil, scanName_eq]
  cases readName e.loc e.rest with
  | error x => rfl
  | ok r =>
    obtain ⟨name, n⟩ := r
    rw [sliced, ok_bind]
    dsimp only
    rw [he.pos_skip]
    rfl

/-- The step of the loop over the attributes, behind the separators. -/
theorem scanList_step (he : part.Holds e) {here : Cursor}
    (hhere : here = e.skip (e.rest.takeWhile isSeparator).length) :
    scanList s base part.text (part.point e).pos =
      if here.rest = [] then .ok []
      else match scanAttribute s base part.text (part.point here).pos with
        | .error x => .error x
        | .ok (t, next) => (t :: ·) <$> scanList s base part.text next := by
  have hstart : (part.point e).pos + byteLength (e.rest.takeWhile isSeparator) =
      (part.point here).pos := by
    rw [hhere, he.pos_of_isPrefix (List.takeWhile_prefix _)]
  have hend : byteLength part.text ≤ (part.point here).pos ↔ here.rest = [] := by
    have hlen := (hhere ▸ he.skip _ : part.Holds here).pos_add_byteLength
    rw [← byteLength_eq_zero]
    omega
  rw [scanList, he.sliceFrom_pos, ok_bind, hstart]
  dsimp only
  by_cases hnil : here.rest = []
  · rw [if_pos (hend.mpr hnil), if_pos hnil]
    rfl
  · rw [if_neg (mt hend.mp hnil), if_neg hnil]
    split
    next hx => rw [hx]
    next hx =>
      rw [hx]
      rfl

/-- The step over an attribute whose name is read. -/
theorem scanList_of_name (h : s.Places base part.text part.origin) (he : part.Holds e)
    {here : Cursor} (hhere : here = e.skip (e.rest.takeWhile isSeparator).length)
    (hne : here.rest ≠ []) {name : List Char} {n : Nat}
    (hname : readName here.loc here.rest = .ok (name, n)) (hsome : name ≠ []) :
    scanList s base part.text (part.point e).pos =
      match scanValue s base part.text here.loc name (part.point (here.skip n)).pos with
      | .error x => .error x
      | .ok (t, next) => (t :: ·) <$> scanList s base part.text next := by
  have hat : part.Holds here := hhere ▸ he.skip _
  rw [scanList_step he hhere, if_neg hne, scanAttribute_eq h hat, hname]
  dsimp only
  rw [if_neg hsome]

theorem map_sliced (t : Token) (x : Except LexError (List Token)) :
    (t :: ·) <$> sliced id x = sliced id ((t :: ·) <$> x) := by
  cases x <;> rfl

theorem scanList_eq (h : s.Places base part.text part.origin) (he : part.Holds e) :
    scanList s base part.text (part.point e).pos = sliced id (readList e) := by
  fun_induction readList e with
  | case1 c here hnil =>
    rw [scanList_step he rfl, if_pos hnil]
    rfl
  | case2 c here hne x hname =>
    rw [scanList_step he rfl, if_neg hne, scanAttribute_eq h (he.skip _), hname]
    rfl
  | case3 c here hne n hname =>
    rw [scanList_step he rfl, if_neg hne, scanAttribute_eq h (he.skip _), hname]
    rfl
  | case4 c here hne name n hname hsome behind hmark ih =>
    have hbehind : part.Holds behind := (he.skip _).skip _
    rw [scanList_of_name h he rfl hne hname hsome, scanValue_eq h hbehind, hmark]
    dsimp only
    rw [ih hbehind]
    exact map_sliced _ _
  | case5 c here hne name n hname hsome behind escape m hmark _ start f htext =>
    have hbehind : part.Holds behind := (he.skip _).skip _
    rw [scanList_of_name h he rfl hne hname hsome, scanValue_eq h hbehind, hmark]
    dsimp only
    rw [show valueText [] none (valueStart behind m).rest = .error f from htext]
    rfl
  | case6 c here hne name n hname hsome behind escape m hmark _ start text htext value hnil =>
    have hbehind : part.Holds behind := (he.skip _).skip _
    rw [scanList_of_name h he rfl hne hname hsome, scanValue_eq h hbehind, hmark]
    dsimp only
    rw [show valueText [] none (valueStart behind m).rest = .ok text from htext]
    dsimp only
    rw [if_pos hnil]
    rfl
  | case7 c here hne name n hname hsome behind escape m hmark _ start text htext value hvalue ih =>
    have hbehind : part.Holds behind := (he.skip _).skip _
    have hstart : part.Holds start := (hbehind.skip _).skip _
    rw [scanList_of_name h he rfl hne hname hsome, scanValue_eq h hbehind, hmark]
    dsimp only
    rw [show valueText [] none (valueStart behind m).rest = .ok text from htext]
    dsimp only
    rw [if_neg hvalue]
    exact (congrArg _ (ih (hstart.skip _))).trans (map_sliced _ _)

/-- A list is scanned from its beginning. -/
theorem scanList_start {content : List Char} {loc : Location} (h : s.Places base content loc) :
    scanList s base content 0 = sliced id (readList ⟨content, loc⟩) := by
  have hplaces : s.Places base (Source.mk content loc).text (Source.mk content loc).origin := h
  have hlist := scanList_eq hplaces (Source.holds_start _)
  rwa [Source.point_start] at hlist

end Attribute

end PugTemplate
