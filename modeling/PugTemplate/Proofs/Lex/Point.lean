import PugTemplate.Proofs.Lex.Beside
import PugTemplate.Proofs.Lex.Place
import PugTemplate.Proofs.Text.Slice

/-!
# Places counted in bytes

A point is a place in a text as a reader keeps it that counts bytes: the bytes in front of it, the
line it is in and the bytes in front of that line. Whatever such a reader looks at is cut out of the
text. At the point of a cursor no cut is out of range, and every operation answers what the cursor
answers.
-/

namespace PugTemplate

/-- A text and the position at which it begins. -/
structure Source where
  text : List Char
  origin : Location

structure Point where
  source : Source
  /-- The bytes in front. -/
  pos : Nat
  /-- The line, the first line of the text being 1. -/
  line : Nat
  /-- The bytes in front of the line. -/
  lineStart : Nat

namespace Point

variable (s : Point)

def location : Location :=
  ⟨s.source.origin.line + s.line - 1,
    if s.line = 1 then s.source.origin.column + s.pos - s.lineStart else s.pos - s.lineStart + 1⟩

/-- Moves over bytes that hold no line feed. -/
def advance (n : Nat) : Point :=
  { s with pos := s.pos + n }

/-- Moves over a character. -/
def advanceChar (c : Char) : Point :=
  if c = '\n' then
    { s with pos := s.pos + c.utf8Size, line := s.line + 1, lineStart := s.pos + c.utf8Size }
  else s.advance c.utf8Size

/-- The position at an offset into the text, behind the point. -/
def locationAt (offset : Nat) : Sliced Location := do
  let stop := min offset (byteLength s.source.text)
  if s.pos < stop then
    return ((← slice s.source.text s.pos stop).foldl advanceChar s).location
  else return { s with pos := stop }.location

def fail {α : Type} (cause : LexCause) (loc : Location) : Sliced α :=
  .error (.refused ⟨cause, loc⟩)

/-- A failure of the nesting machine at an offset into the text. -/
def nestingError {α : Type} (violation : Nesting.Violation) (offset : Nat) : Sliced α := do
  fail (.bracket violation) (← s.locationAt offset)

def rest : Sliced (List Char) :=
  sliceFrom s.source.text s.pos

def restOfLine : Sliced (List Char) := do
  let rest ← s.rest
  sliceTo rest (byteLength (lineOf rest))

def startsWith (mark : String) : Sliced Bool := do
  return mark.toList.isPrefixOf (← s.rest)

/-- Whether a keyword stands here that no longer word begins with. -/
def atKeyword (word : String) : Sliced Bool := do
  if ← s.startsWith word then
    let behind ← sliceFrom (← s.rest) (byteLength word.toList)
    return !behind.head?.any isWordOrHyphen
  else return false

/-- Behind a mark, if the text goes on with it. -/
def consume (mark : String) : Sliced (Option Point) := do
  if ← s.startsWith mark then return some (s.advance (byteLength mark.toList)) else return none

def keyword? (word : String) : Sliced (Option Point) := do
  if ← s.atKeyword word then s.consume word else return none

def skipIndent : Sliced Point := do
  return s.advance (byteLength ((← s.rest).takeWhile isIndent))

def skipLine : Sliced Point := do
  return s.advance (byteLength (← s.restOfLine))

/-- Moves to an offset, character by character. -/
def advanceTo (s : Point) (target : Nat) : Sliced Point :=
  if s.pos < target then do
    match ← s.rest with
    | [] => return s
    | c :: _ => advanceTo (s.advanceChar c) target
  else return s
termination_by target - s.pos
decreasing_by
  have hc := c.utf8Size_pos
  unfold advanceChar advance
  split <;> dsimp only <;> omega

/-- The bytes of the text in a bracket whose inside begins at an offset. -/
def closing (b : Bracket) (start : Nat) : Sliced Nat := do
  match Nesting.inside b (← sliceFrom s.source.text start) with
  | .ok content => return byteLength content
  | .error f => s.nestingError f.violation (start + byteLength f.before)

/-- The text in a bracket whose inside begins at an offset, and the place behind the bracket. -/
def inside (b : Bracket) (start : Nat) : Sliced (List Char × Point) := do
  let close ← s.closing b start
  let content ← slice s.source.text start (start + close)
  return (content, ← s.advanceTo (start + close + 1))

end Point

theorem ok_bind {α β : Type} (a : α) (f : α → Sliced β) : (Except.ok a >>= f) = f a :=
  rfl

theorem pure_eq_ok {α : Type} (a : α) : (pure a : Sliced α) = .ok a :=
  rfl

/-- An answer of a reader that takes no cuts, as one of a reader that does. -/
def sliced {α β : Type} (f : α → β) : Except LexError α → Sliced β
  | .ok a => .ok (f a)
  | .error e => .error (.refused e)

/-! ## Moving over text -/

namespace Point

variable (s : Point)

@[simp] theorem pos_advance (n : Nat) : (s.advance n).pos = s.pos + n :=
  rfl

@[simp] theorem pos_advanceChar (c : Char) : (s.advanceChar c).pos = s.pos + c.utf8Size := by
  unfold advanceChar
  split <;> rfl

@[simp] theorem source_advanceChar (c : Char) : (s.advanceChar c).source = s.source := by
  unfold advanceChar
  split <;> rfl

@[simp] theorem pos_foldl (xs : List Char) :
    (xs.foldl advanceChar s).pos = s.pos + byteLength xs := by
  induction xs generalizing s with
  | nil => rfl
  | cons x xs ih => rw [List.foldl_cons, ih, pos_advanceChar, byteLength_cons, Nat.add_assoc]

@[simp] theorem source_foldl (xs : List Char) : (xs.foldl advanceChar s).source = s.source := by
  induction xs generalizing s with
  | nil => rfl
  | cons x xs ih => rw [List.foldl_cons, ih, source_advanceChar]

/-- Text without a line feed may be moved over at once. -/
theorem foldl_eq_advance {xs : List Char} (h : '\n' ∉ xs) :
    xs.foldl advanceChar s = s.advance (byteLength xs) := by
  induction xs generalizing s with
  | nil => rfl
  | cons x xs ih =>
    obtain ⟨hx, hxs⟩ := not_or.mp (mt List.mem_cons.mpr h)
    rw [List.foldl_cons, advanceChar, if_neg fun he => hx he.symm, ih _ hxs, byteLength_cons]
    simp only [advance, Nat.add_assoc]

/-- What holds of the line of a point from the beginning of the text on. -/
structure Counts : Prop where
  line_pos : 0 < s.line
  lineStart_le : s.lineStart ≤ s.pos

variable {s}

theorem Counts.advanceChar (h : s.Counts) (c : Char) : (s.advanceChar c).Counts := by
  obtain ⟨hline, hstart⟩ := h
  unfold Point.advanceChar
  split
  · exact ⟨Nat.succ_pos _, Nat.le_refl _⟩
  · exact ⟨hline, Nat.le_add_right_of_le hstart⟩

theorem Counts.location_advanceChar (h : s.Counts) (c : Char) :
    (s.advanceChar c).location = s.location.after c := by
  obtain ⟨hline, hstart⟩ := h
  unfold Point.advanceChar Location.after
  split
  next hc =>
    -- behind a line feed the line is not the first one, whose columns the origin shifts
    subst hc
    simp only [location, Location.mk.injEq]
    constructor
    · omega
    · rw [if_neg (by omega), Nat.sub_self]
  next =>
    simp only [location, advance, Location.mk.injEq, true_and]
    by_cases hone : s.line = 1
    · simp only [hone, if_true]
      omega
    · simp only [hone, if_false]
      omega

theorem Counts.location_foldl (h : s.Counts) (xs : List Char) :
    (xs.foldl Point.advanceChar s).location = s.location.afterText xs := by
  induction xs generalizing s with
  | nil => rfl
  | cons x xs ih =>
    rw [List.foldl_cons, ih (h.advanceChar x), h.location_advanceChar, Location.afterText_cons]

theorem Counts.foldl (h : s.Counts) (xs : List Char) : (xs.foldl Point.advanceChar s).Counts := by
  induction xs generalizing s with
  | nil => exact h
  | cons x xs ih => exact ih (h.advanceChar x)

end Point

/-! ## The point of a cursor -/

theorem feed_notMem_takeWhile {p : Char → Bool} (hp : p '\n' = false) (cs : List Char) :
    '\n' ∉ cs.takeWhile p := by
  intro hmem
  have hkept := List.all_eq_true.mp List.all_takeWhile _ hmem
  rw [hp] at hkept
  cases hkept

theorem Cursor.startsWith_of_keyword? {c d : Cursor} {word : String}
    (h : c.keyword? word = some d) : c.startsWith word := by
  unfold keyword? at h
  grind

namespace Source

variable {src : Source} {c d : Cursor}

def start (src : Source) : Cursor :=
  ⟨src.text, src.origin⟩

def first (src : Source) : Point :=
  ⟨src, 0, 1, 0⟩

/-- The place of a cursor in the text, counted over what stands in front of it. -/
def point (src : Source) (c : Cursor) : Point :=
  (src.text.take (src.text.length - c.rest.length)).foldl Point.advanceChar src.first

/-- A cursor in the text. -/
def Holds (src : Source) (c : Cursor) : Prop :=
  src.start.Reaches c

theorem point_start (src : Source) : src.point src.start = src.first := by
  rw [point, show src.start.rest = src.text from rfl, Nat.sub_self]
  rfl

theorem holds_start (src : Source) : src.Holds src.start :=
  .refl _

theorem point_skip_start (n : Nat) :
    src.point (src.start.skip n) = (src.text.take n).foldl Point.advanceChar src.first := by
  have htake : src.text.take (src.text.length - (src.text.length - n)) = src.text.take n := by
    rw [List.take_eq_take_iff]
    omega
  rw [point, Cursor.rest_skip, List.length_drop, show src.start.rest = src.text from rfl, htake]

theorem source_point (src : Source) (c : Cursor) : (src.point c).source = src := by
  rw [point, Point.source_foldl]
  rfl

theorem counts_point (src : Source) (c : Cursor) : (src.point c).Counts :=
  Point.Counts.foldl ⟨Nat.one_pos, Nat.le_refl 0⟩ _

namespace Holds

theorem skip (h : src.Holds c) (n : Nat) : src.Holds (c.skip n) :=
  h.trans (c.reaches_skip n)

theorem skipLine (h : src.Holds c) : src.Holds c.skipLine :=
  h.skip _

theorem skipIndent (h : src.Holds c) : src.Holds c.skipIndent :=
  h.skip _

theorem reaches (h : src.Holds c) (hd : c.Reaches d) : src.Holds d :=
  h.trans hd

theorem point_skip (h : src.Holds c) (n : Nat) :
    src.point (c.skip n) = (c.rest.take n).foldl Point.advanceChar (src.point c) := by
  obtain ⟨m, rfl⟩ := h
  rw [Cursor.skip_skip, point_skip_start, point_skip_start, List.take_add, List.foldl_append]
  rfl

theorem point_of_isPrefix (h : src.Holds c) {xs : List Char} (hx : xs <+: c.rest) :
    src.point (c.skip xs.length) = xs.foldl Point.advanceChar (src.point c) := by
  rw [h.point_skip, ← List.prefix_iff_eq_take.mp hx]

theorem location (h : src.Holds c) : (src.point c).location = c.loc := by
  obtain ⟨n, rfl⟩ := h
  have hfirst : src.first.Counts := ⟨Nat.one_pos, Nat.le_refl 0⟩
  rw [point_skip_start, hfirst.location_foldl]
  simp [Point.location, first, Cursor.skip, start]

/-- What stands in front of a cursor, and the bytes of it. -/
theorem exists_before (h : src.Holds c) :
    ∃ before, src.text = before ++ c.rest ∧ (src.point c).pos = byteLength before := by
  obtain ⟨n, rfl⟩ := h
  refine ⟨src.text.take n, (List.take_append_drop n src.text).symm, ?_⟩
  rw [point_skip_start, Point.pos_foldl]
  exact Nat.zero_add _

theorem boundary (h : src.Holds c) : Boundary src.text (src.point c).pos := by
  obtain ⟨before, htext, hpos⟩ := h.exists_before
  exact ⟨before, ⟨c.rest, htext.symm⟩, hpos⟩

/-- What is left and what was read make up the text. -/
theorem pos_add_byteLength (h : src.Holds c) :
    (src.point c).pos + byteLength c.rest = byteLength src.text := by
  obtain ⟨before, htext, hpos⟩ := h.exists_before
  rw [htext, byteLength_append, hpos]

theorem pos_of_isPrefix (h : src.Holds c) {xs : List Char} (hx : xs <+: c.rest) :
    (src.point (c.skip xs.length)).pos = (src.point c).pos + byteLength xs := by
  rw [h.point_of_isPrefix hx, Point.pos_foldl]

theorem pos_skip (h : src.Holds c) (n : Nat) :
    (src.point (c.skip n)).pos = (src.point c).pos + byteLength (c.rest.take n) := by
  rw [h.point_skip, Point.pos_foldl]

/-! ### What is cut out of the text -/

theorem sliceFrom (h : src.Holds c) {xs : List Char} (hx : xs <+: c.rest) :
    sliceFrom src.text ((src.point c).pos + byteLength xs) = .ok (c.rest.drop xs.length) := by
  obtain ⟨before, htext, hpos⟩ := h.exists_before
  obtain ⟨more, hmore⟩ := hx
  rw [hpos, ← byteLength_append, htext, ← hmore, ← List.append_assoc, sliceFrom_append,
    List.drop_left]

theorem slice (h : src.Holds c) {xs part : List Char} (hx : xs ++ part <+: c.rest) :
    slice src.text ((src.point c).pos + byteLength xs)
      ((src.point c).pos + byteLength xs + byteLength part) = .ok part := by
  obtain ⟨before, htext, hpos⟩ := h.exists_before
  obtain ⟨more, hmore⟩ := hx
  refine slice_eq_ok_iff.mpr ⟨before ++ xs, more, ?_, ?_, rfl⟩
  · rw [htext, ← hmore]
    simp only [List.append_assoc]
  · rw [hpos, byteLength_append]

theorem sliceFrom_pos (h : src.Holds c) :
    PugTemplate.sliceFrom src.text (src.point c).pos = .ok c.rest :=
  h.sliceFrom List.nil_prefix

theorem slice_pos (h : src.Holds c) {part : List Char} (hx : part <+: c.rest) :
    PugTemplate.slice src.text (src.point c).pos ((src.point c).pos + byteLength part) = .ok part :=
  h.slice (show [] ++ part <+: c.rest from hx)

theorem rest (h : src.Holds c) : (src.point c).rest = .ok c.rest := by
  rw [Point.rest, source_point, h.sliceFrom_pos]

theorem restOfLine (h : src.Holds c) : (src.point c).restOfLine = .ok c.line := by
  rw [Point.restOfLine, h.rest, ok_bind]
  exact sliceTo_of_isPrefix (lineOf_isPrefix c.rest)

theorem startsWith (h : src.Holds c) (mark : String) :
    (src.point c).startsWith mark = .ok (c.startsWith mark) := by
  rw [Point.startsWith, h.rest, ok_bind]
  rfl

theorem locationAt (h : src.Holds c) {xs : List Char} (hx : xs <+: c.rest) :
    (src.point c).locationAt ((src.point c).pos + byteLength xs) = .ok (c.loc.afterText xs) := by
  have hlen := byteLength_of_isPrefix hx
  have hpos := h.pos_add_byteLength
  rw [Point.locationAt, Nat.min_eq_left (by rw [source_point]; omega)]
  -- nothing is cut out for a position that is not behind the point
  by_cases hxs : 0 < byteLength xs
  · rw [if_pos (by omega), source_point, h.slice_pos hx, ok_bind,
      (counts_point src c).location_foldl, h.location]
    rfl
  · obtain rfl := byteLength_eq_zero.mp (Nat.eq_zero_of_not_pos hxs)
    rw [if_neg (by rw [byteLength]; omega)]
    exact congrArg Except.ok h.location

theorem nestingError (h : src.Holds c) {α : Type} {f : Nesting.Failure} (hf : f.before <+: c.rest) :
    ((src.point c).nestingError f.violation ((src.point c).pos + byteLength f.before) : Sliced α) =
      .error (.refused (c.nestingError f)) := by
  rw [Point.nestingError, h.locationAt hf, ok_bind]
  rfl

/-! ### Moves -/

/-- Moving over bytes without a line feed. -/
theorem advance (h : src.Holds c) {xs : List Char} (hx : xs <+: c.rest) (hfeed : '\n' ∉ xs) :
    (src.point c).advance (byteLength xs) = src.point (c.skip xs.length) := by
  rw [h.point_of_isPrefix hx, Point.foldl_eq_advance _ hfeed]

theorem advanceChar (h : src.Holds c) {x : Char} {more : List Char} (hx : c.rest = x :: more) :
    (src.point c).advanceChar x = src.point (c.skip 1) := by
  rw [h.point_skip, hx]
  rfl

theorem skipLine_eq (h : src.Holds c) : (src.point c).skipLine = .ok (src.point c.skipLine) := by
  have hmove := h.advance (lineOf_isPrefix c.rest) (feed_notMem_lineOf c.rest)
  rw [Point.skipLine, h.restOfLine, ok_bind]
  exact congrArg Except.ok hmove

theorem skipIndent_eq (h : src.Holds c) :
    (src.point c).skipIndent = .ok (src.point c.skipIndent) := by
  have hmove := h.advance (List.takeWhile_prefix _) (feed_notMem_takeWhile (p := isIndent) rfl c.rest)
  rw [Point.skipIndent, h.rest, ok_bind, hmove]
  rfl

theorem consume (h : src.Holds c) {mark : String} (hmark : '\n' ∉ mark.toList) :
    (src.point c).consume mark =
      .ok (if c.startsWith mark then some (src.point (c.skip mark.toList.length)) else none) := by
  rw [Point.consume, h.startsWith, ok_bind]
  split
  next hs => rw [h.advance (List.isPrefixOf_iff_prefix.mp hs) hmark, pure_eq_ok]
  next => rfl

theorem atKeyword_eq (h : src.Holds c) (word : String) :
    (src.point c).atKeyword word = .ok (c.keyword? word).isSome := by
  rw [Point.atKeyword, h.startsWith, ok_bind, Cursor.keyword?]
  by_cases hs : c.startsWith word
  · rw [if_pos hs, h.rest, ok_bind, sliceFrom_of_isPrefix (List.isPrefixOf_iff_prefix.mp hs),
      ok_bind, hs, Bool.true_and]
    dsimp only [Cursor.rest_skip]
    have hflag (b : Bool) :
        (pure !b : Sliced Bool) =
          .ok (if !b then some (c.skip word.toList.length) else none).isSome := by
      cases b <;> rfl
    exact hflag _
  · rw [if_neg hs, Bool.eq_false_iff.mpr hs]
    rfl

theorem keyword?_eq (h : src.Holds c) {word : String} (hword : '\n' ∉ word.toList) :
    (src.point c).keyword? word = .ok ((c.keyword? word).map src.point) := by
  rw [Point.keyword?, h.atKeyword_eq, ok_bind]
  cases hd : c.keyword? word with
  | none => rfl
  | some d =>
    rw [Option.isSome_some, if_pos rfl, h.consume hword, if_pos (Cursor.startsWith_of_keyword? hd),
      (Cursor.keyword?_eq_skip hd).1]
    rfl

theorem advanceTo (h : src.Holds c) {xs : List Char} (hx : xs <+: c.rest) :
    (src.point c).advanceTo ((src.point c).pos + byteLength xs) =
      .ok (src.point (c.skip xs.length)) := by
  induction xs generalizing c with
  | nil =>
    rw [byteLength_nil, Nat.add_zero, Point.advanceTo, if_neg (Nat.lt_irrefl _),
      List.length_nil, Cursor.skip_zero, pure_eq_ok]
  | cons x xs ih =>
    obtain ⟨more, hmore⟩ := hx
    -- a character takes bytes, so the target is still ahead
    have hx' := x.utf8Size_pos
    have hnext := h.advanceChar (x := x) hmore.symm
    have hpos : (src.point c).pos + byteLength (x :: xs) =
        (src.point (c.skip 1)).pos + byteLength xs := by
      rw [← hnext, Point.pos_advanceChar, byteLength_cons, Nat.add_assoc]
    have hrest : (src.point c).rest = .ok (x :: (xs ++ more)) := by
      rw [h.rest, ← hmore]
      rfl
    rw [Point.advanceTo, if_pos (by rw [byteLength_cons]; omega), hrest, ok_bind]
    dsimp only
    rw [hnext, hpos, ih (h.skip 1) ⟨more, by rw [Cursor.rest_skip, ← hmore]; rfl⟩,
      Cursor.skip_skip, Nat.add_comm 1]
    rfl

/-! ### Brackets -/

/-- Where a bracket is closed, for one whose inside begins behind a part of the text. -/
theorem closing (h : src.Holds c) {xs : List Char} (hx : xs <+: c.rest) (b : Bracket) :
    (src.point c).closing b ((src.point c).pos + byteLength xs) =
      sliced (fun r => byteLength r.1) ((c.skip xs.length).inside b) := by
  rw [Point.closing, source_point, h.sliceFrom hx, ok_bind, Cursor.inside, Cursor.rest_skip]
  cases hin : Nesting.inside b (c.rest.drop xs.length) with
  | ok content => rfl
  | error f =>
    -- the failure is that far behind the point as what is in front of it is long
    have hbefore : xs ++ f.before <+: c.rest := by
      rw [← List.prefix_iff_eq_append.mp hx]
      exact (List.prefix_append_right_inj xs).mpr (Nesting.inside_before hin)
    dsimp only
    rw [Nat.add_assoc, ← byteLength_append, Point.nestingError, h.locationAt hbefore, ok_bind,
      Location.afterText_append]
    rw [Cursor.nestingError, Cursor.skip, ← List.prefix_iff_eq_take.mp hx]
    rfl

/-- What is cut out, and where the reader stands then, when the bracket is closed. -/
theorem inside_ok (h : src.Holds c) {xs content : List Char} (hx : xs <+: c.rest) {b : Bracket}
    (hin : (c.skip xs.length).inside b = .ok (content, d)) :
    xs ++ content <+: c.rest ∧
      (src.point c).advanceTo ((src.point c).pos + byteLength xs + byteLength content + 1) =
        .ok (src.point d) := by
  unfold Cursor.inside at hin
  split at hin
  next content' hcontent =>
    cases hin
    obtain ⟨more, hmore⟩ := Nesting.inside_closing hcontent
    have htext : (xs ++ content) ++ [b.closing] <+: c.rest := by
      rw [← List.prefix_iff_eq_append.mp hx, List.append_assoc]
      refine (List.prefix_append_right_inj xs).mpr ⟨more, ?_⟩
      rw [← Cursor.rest_skip, hmore, List.append_assoc]
      rfl
    refine ⟨(List.prefix_append _ _).trans htext, ?_⟩
    have hlen :
        byteLength (xs ++ content ++ [b.closing]) = byteLength xs + byteLength content + 1 := by
      simp only [byteLength_append, byteLength, Piece.utf8Size_closing, Nat.add_zero]
    -- the closing bracket is one byte
    have hmove := h.advanceTo htext
    rw [hlen, ← Nat.add_assoc, ← Nat.add_assoc] at hmove
    rw [hmove, Cursor.skip_skip]
    simp only [List.length_append, List.length_singleton, Nat.add_assoc]
  next => cases hin

theorem inside (h : src.Holds c) {xs : List Char} (hx : xs <+: c.rest) (b : Bracket) :
    (src.point c).inside b ((src.point c).pos + byteLength xs) =
      sliced (fun r => (r.1, src.point r.2)) ((c.skip xs.length).inside b) := by
  rw [Point.inside, h.closing hx]
  cases hin : (c.skip xs.length).inside b with
  | error e => rfl
  | ok r =>
    obtain ⟨content, d⟩ := r
    obtain ⟨hpart, hmove⟩ := h.inside_ok hx hin
    rw [sliced, ok_bind, source_point, h.slice hpart, ok_bind, hmove, ok_bind]
    rfl

end Holds

end Source

end PugTemplate
