import Mathlib.Data.List.TakeWhile
import PugTemplate.Proofs.Basic
import PugTemplate.Proofs.Lex.First
import PugTemplate.Proofs.Lex.Stream

/-!
# Outlines

An outline is a source each of whose lines is blank or names a tag behind some indentation. What it
lexes to is settled by the widths of its lines alone.
-/

namespace PugTemplate

/-- The words that do not name a tag in front of a line. -/
def keywords : List String :=
  ["yield", "doctype", "case", "when", "default", "extends", "extend", "block", "include", "mixin",
    "else", "if", "unless", "each", "for", "while"]

inductive OutlineLine where
  | blank (cs : List Char)
  | tag (width : Nat) (name : String)

namespace OutlineLine

def text (indent : Char) : OutlineLine → List Char
  | blank cs => cs
  | tag width name => List.replicate width indent ++ name.toList

/-- Blank lines are made of spaces and tabs, names of ASCII letters, digits and underscores. -/
def Sound : OutlineLine → Prop
  | blank cs => ∀ c ∈ cs, isIndent c
  | tag _ name => name ≠ "" ∧ (∀ c ∈ name.toList, isWord c) ∧ name ∉ keywords

instance : (l : OutlineLine) → Decidable l.Sound
  | blank cs => List.decidableBAll (isIndent ·) cs
  | tag _ name =>
    let := List.decidableBAll (isWord ·) name.toList
    inferInstanceAs (Decidable (name ≠ "" ∧ (∀ c ∈ name.toList, isWord c) ∧ name ∉ keywords))

end OutlineLine

/-- The lines of an outline, indented by one character throughout. -/
def outlineSource (indent : Char) (ls : List OutlineLine) : String :=
  "\n".intercalate (ls.map fun l => String.ofList (l.text indent))

/-- A line that names a tag, and its number in the source. -/
structure Heading where
  line : Nat
  width : Nat
  name : String
deriving DecidableEq, Repr

/-- Where the name stands. -/
def Heading.loc (h : Heading) : Location :=
  ⟨h.line, h.width + 1⟩

def Heading.token (h : Heading) : Token :=
  ⟨.tag h.name, h.loc⟩

/-- The lines that name tags, the first line having a given number. -/
def headingsFrom (line : Nat) : List OutlineLine → List Heading
  | [] => []
  | .blank _ :: ls => headingsFrom (line + 1) ls
  | .tag width name :: ls => ⟨line, width, name⟩ :: headingsFrom (line + 1) ls

/-! ## The characters of an outline -/

/-- What follows a line: all others, each behind a line feed. -/
def behindLine (indent : Char) (ls : List OutlineLine) : List Char :=
  ls.flatMap fun l => '\n' :: l.text indent

theorem intercalate_lines (indent : Char) (l : OutlineLine) (ls : List OutlineLine) :
    ['\n'].intercalate ((l :: ls).map (·.text indent)) = l.text indent ++ behindLine indent ls := by
  induction ls generalizing l with
  | nil => simp [behindLine]
  | cons m ls ih =>
    have hrest := ih m
    rw [List.map_cons] at hrest
    rw [List.map_cons, List.map_cons, List.intercalate_cons_cons, hrest]
    simp [behindLine]

theorem toList_outlineSource (indent : Char) (l : OutlineLine) (ls : List OutlineLine) :
    (outlineSource indent (l :: ls)).toList = l.text indent ++ behindLine indent ls := by
  rw [outlineSource, String.toList_intercalate, List.map_map, ← intercalate_lines]
  congr 1
  apply List.map_congr_left
  intro m _
  exact String.toList_ofList

theorem drop_takeWhile {α : Type} (p : α → Bool) (xs : List α) :
    xs.drop (xs.takeWhile p).length = xs.dropWhile p := by
  have h : (xs.takeWhile p ++ xs.dropWhile p).drop (xs.takeWhile p).length = xs.dropWhile p :=
    List.drop_left
  rwa [List.takeWhile_append_dropWhile] at h

theorem takeWhile_append_cons {p : Char → Bool} {cs : List Char} (hcs : ∀ c ∈ cs, p c) {d : Char}
    (hd : p d = false) (rest : List Char) : (cs ++ d :: rest).takeWhile p = cs := by
  rw [List.takeWhile_append_of_pos hcs, List.takeWhile_cons_of_neg (by simp [hd]), List.append_nil]

theorem ne_of_isWord {a b : Char} (ha : isWord a) (hb : ¬ isWord b) : a ≠ b := by
  rintro rfl
  exact hb ha

theorem toNat_of_isWord {a : Char} (ha : isWord a) : 48 ≤ a.toNat ∧ a.toNat ≤ 122 := by
  show 48 ≤ a.val.toNat ∧ a.val.toNat ≤ 122
  rcases Bool.or_eq_true_iff.mp ha with ha | ha
  · rcases Bool.or_eq_true_iff.mp ha with ha | ha
    · rcases Bool.or_eq_true_iff.mp ha with ha | ha
      · have hl : 65 ≤ a.val.toNat := UInt32.le_iff_toNat_le.mp (of_decide_eq_true ha).1
        have hu : a.val.toNat ≤ 90 := UInt32.le_iff_toNat_le.mp (of_decide_eq_true ha).2
        omega
      · obtain ⟨hl, hu⟩ := Bool.and_eq_true_iff.mp ha
        have hl : 97 ≤ a.val.toNat := UInt32.le_iff_toNat_le.mp (of_decide_eq_true hl)
        have hu : a.val.toNat ≤ 122 := UInt32.le_iff_toNat_le.mp (of_decide_eq_true hu)
        omega
    · obtain ⟨hl, hu⟩ := Bool.and_eq_true_iff.mp ha
      have hl : 48 ≤ a.val.toNat := UInt32.le_iff_toNat_le.mp (of_decide_eq_true hl)
      have hu : a.val.toNat ≤ 57 := UInt32.le_iff_toNat_le.mp (of_decide_eq_true hu)
      omega
  · cases beq_iff_eq.mp ha
    decide

theorem not_isBlank_of_isWord {a : Char} (ha : isWord a) : ¬ isBlank a := by
  have hrange := toNat_of_isWord ha
  simp only [isBlank, Bool.or_eq_true, Bool.and_eq_true, decide_eq_true_eq, beq_iff_eq]
  omega

theorem unifyLineEnds_eq_self {cs : List Char} (hr : '\r' ∉ cs) : unifyLineEnds cs = cs := by
  fun_induction unifyLineEnds cs
  case case1 => rfl
  case case2 => exact absurd List.mem_cons_self hr
  case case3 c cs _ ih =>
    rw [List.mem_cons, not_or] at hr
    rw [if_neg (fun h => hr.1 h.symm), ih hr.2]

/-- Nothing in an outline is rewritten when line ends are unified. -/
theorem normalize_eq_self {cs : List Char} (hr : '\r' ∉ cs) (hm : cs.head? ≠ some '\ufeff') :
    normalize cs = cs := by
  cases cs with
  | nil => rfl
  | cons c cs => rw [normalize, if_neg (fun h => hm (congrArg some h)), unifyLineEnds_eq_self hr]

namespace OutlineLine

theorem mem_text {indent : Char} (hi : isIndent indent) {l : OutlineLine} (hl : l.Sound) {c : Char}
    (hc : c ∈ l.text indent) : isWord c ∨ isIndent c := by
  cases l with
  | blank cs => exact Or.inr (hl c hc)
  | tag width name =>
    rcases List.mem_append.mp hc with hc | hc
    · rw [List.eq_of_mem_replicate hc]
      exact Or.inr hi
    · exact Or.inl (hl.2.1 c hc)

theorem Sound.exists_cons {width : Nat} {name : String} (h : (tag width name).Sound) :
    ∃ x xs, name.toList = x :: xs ∧ isWord x := by
  cases hname : name.toList with
  | nil => exact absurd (String.toList_eq_nil_iff.mp hname) h.1
  | cons x xs => exact ⟨x, xs, rfl, h.2.1 x (by rw [hname]; exact List.mem_cons_self)⟩

/-- A line with a name shows something. -/
theorem Sound.not_allBlank {width : Nat} {name : String} (h : (tag width name).Sound)
    (indent : Char) : ¬ allBlank ((tag width name).text indent) := by
  obtain ⟨x, xs, hname, hx⟩ := h.exists_cons
  have hmem : x ∈ (tag width name).text indent :=
    List.mem_append_right _ (by rw [hname]; exact List.mem_cons_self)
  exact fun hall => not_isBlank_of_isWord hx (List.all_eq_true.mp hall x hmem)

theorem feed_notMem_text {indent : Char} (hi : isIndent indent) {l : OutlineLine} (hl : l.Sound) :
    '\n' ∉ l.text indent := by
  intro h
  rcases mem_text hi hl h with h | h
  · exact absurd h (by decide)
  · exact absurd h (by decide)

end OutlineLine

/-- A character that no line of an outline has, nor ends with. -/
theorem notMem_outline {indent : Char} (hi : isIndent indent) {ls : List OutlineLine}
    (hls : ∀ l ∈ ls, l.Sound) {c : Char} (hw : ¬ isWord c) (hb : ¬ isIndent c) (hn : c ≠ '\n') :
    c ∉ (outlineSource indent ls).toList := by
  intro hc
  cases ls with
  | nil => exact absurd hc List.not_mem_nil
  | cons l ls =>
    obtain ⟨hl, hls⟩ := List.forall_mem_cons.mp hls
    rw [toList_outlineSource, List.mem_append] at hc
    rcases hc with hc | hc
    · exact (OutlineLine.mem_text hi hl hc).elim hw hb
    · obtain ⟨m, hm, hc⟩ := List.mem_flatMap.mp hc
      rcases List.mem_cons.mp hc with hc | hc
      · exact hn hc
      · exact (OutlineLine.mem_text hi (hls m hm) hc).elim hw hb

theorem normalizeText_outlineSource {indent : Char} (hi : isIndent indent) {ls : List OutlineLine}
    (hls : ∀ l ∈ ls, l.Sound) :
    normalizeText (outlineSource indent ls) = outlineSource indent ls := by
  have hr : '\r' ∉ (outlineSource indent ls).toList :=
    notMem_outline hi hls (by decide) (by decide) (by decide)
  have hm : '\ufeff' ∉ (outlineSource indent ls).toList :=
    notMem_outline hi hls (by decide) (by decide) (by decide)
  rw [normalizeText, normalize_eq_self hr fun h => hm (List.mem_of_head? h), String.ofList_toList]

/-! ## The name of a tag -/

/-- No mark stands where a word does. -/
theorem Cursor.startsWith_of_isWord {c : Cursor} {word : String} (hhead : c.rest.head?.any isWord)
    (hw : word.toList.head?.any (¬ isWord ·)) : c.startsWith word = false := by
  cases hword : word.toList with
  | nil => rw [hword] at hw; exact nomatch hw
  | cons a as =>
    rw [hword] at hw
    refine Rule.startsWith_of_head hword ?_
    cases hrest : c.rest with
    | nil => rfl
    | cons x xs =>
      rw [hrest] at hhead
      exact beq_false_of_ne (ne_of_isWord hhead (by simpa using hw))

/-- No rule that is tried before that for tags applies to a word that is no keyword. -/
theorem Rule.before_tag_of {c : Cursor} (hhead : c.rest.head?.any isWord)
    (hkeyword : ∀ w ∈ keywords, c.keyword? w = none) (hmode : Rule.blockMode? c = none)
    (width : Nat) : ∀ r ∈ Rule.all.take 17, r width c = none := by
  have hword {w : String} {f : Cursor → Reading} (hw : w ∈ keywords) :
      (c.keyword? w).map f = none := by
    rw [hkeyword w hw, Option.map_none]
  have hinterpolation : Rule.interpolation width c = none := by
    rw [Rule.interpolation, c.startsWith_of_isWord hhead (by decide), if_neg Bool.false_ne_true]
  have hcall : Rule.call width c = none := by
    rw [Rule.call, c.startsWith_of_isWord hhead (by decide), if_neg Bool.false_ne_true]
  have hinherits : Rule.inherits width c = none := by
    rw [Rule.inherits, hkeyword _ (by decide), hkeyword _ (by decide)]
    rfl
  have hblock : Rule.block width c = none := by
    rw [Rule.block, hmode]
    exact hword (by decide)
  simp only [Rule.all, List.take_succ_cons, List.take_zero, List.forall_mem_cons, List.not_mem_nil,
    false_imp_iff, implies_true, and_true]
  exact ⟨hword (by decide), hword (by decide), hinterpolation, hword (by decide), hword (by decide),
    hword (by decide), hinherits, hblock, hword (by decide), hword (by decide), hcall,
    hword (by decide), hword (by decide), hword (by decide), hword (by decide), hword (by decide),
    hword (by decide)⟩

/-- A place where the name of a tag stands and ends its line. -/
structure AtName (c : Cursor) (name : String) (rest : List Char) : Prop where
  text : c.rest = name.toList ++ rest
  sound : (OutlineLine.tag 0 name).Sound
  ends : rest.head?.all (· = '\n')

namespace AtName

variable {c d : Cursor} {name word : String} {rest : List Char}

theorem head (h : AtName c name rest) : c.rest.head?.any isWord := by
  obtain ⟨x, xs, hname, hx⟩ := h.sound.exists_cons
  rw [h.text, hname]
  exact hx

/-- The only keyword that can stand where a name does is the name. -/
theorem eq_of_keyword? (h : AtName c name rest) (hw : '\n' ∉ word.toList)
    (hk : c.keyword? word = some d) : word = name ∧ d.rest = rest := by
  rw [Cursor.keyword?] at hk
  split at hk
  next hcond =>
    cases hk
    rw [Bool.and_eq_true, Bool.not_eq_true'] at hcond
    obtain ⟨more, hmore⟩ := List.isPrefixOf_iff_prefix.mp hcond.1
    have hbehind : c.rest.drop word.toList.length = more := by
      rw [← hmore, List.drop_left]
    have hshort := hcond.2
    rw [Cursor.rest_skip, hbehind] at hshort ⊢
    rw [h.text] at hmore
    rcases List.append_eq_append_iff.mp hmore with ⟨xs, hname, hmore⟩ | ⟨xs, hword, hrest⟩
    · cases xs with
      | nil =>
        rw [List.append_nil] at hname
        exact ⟨String.toList_inj.mp hname.symm, hmore⟩
      | cons x xs =>
        -- the name goes on behind the keyword
        have hx : isWord x := h.sound.2.1 x (by rw [hname]; simp)
        rw [hmore] at hshort
        simp [isWordOrHyphen, hx] at hshort
    · cases xs with
      | nil =>
        rw [List.append_nil] at hword
        exact ⟨String.toList_inj.mp hword, hrest.symm⟩
      | cons x xs =>
        -- the keyword goes on behind the name
        have hx : x = '\n' := by
          have hends := h.ends
          rw [hrest] at hends
          simpa using hends
        exact absurd (by rw [hword, hx]; simp) hw
  next => cases hk

theorem keyword?_eq_none (h : AtName c name rest) (hw : word ∈ keywords) :
    c.keyword? word = none := by
  cases hk : c.keyword? word with
  | none => rfl
  | some d =>
    have hfeed : ∀ w ∈ keywords, '\n' ∉ w.toList := by decide
    obtain ⟨rfl, -⟩ := h.eq_of_keyword? (hfeed word hw) hk
    exact absurd hw h.sound.2.2

/-- The words for the mode of a block name tags where nothing follows them. -/
theorem blockMode?_eq_none (h : AtName c name rest) : Rule.blockMode? c = none := by
  have hblank {d : Cursor} (hd : d.rest = rest) : allBlank d.line := by
    have hline : d.line = [] := by
      rw [Cursor.line, lineOf, hd]
      cases hrest : rest with
      | nil => rfl
      | cons x xs =>
        have hends := h.ends
        rw [hrest] at hends
        simp_all
    rw [hline]
    rfl
  unfold Rule.blockMode?
  split
  next d _ hk => rw [if_pos (hblank (h.eq_of_keyword? (by decide) hk).2)]
  next d _ hk => rw [if_pos (hblank (h.eq_of_keyword? (by decide) hk).2)]
  next => rfl

theorem tagName_eq (h : AtName c name rest) : Rule.tagName c.rest = name.toList := by
  have htag : ∀ x ∈ name.toList, Rule.isTagChar x := by
    intro x hx
    rw [Rule.isTagChar, h.sound.2.1 x hx, Bool.true_or, Bool.true_or]
  have hend : rest.takeWhile Rule.isTagChar = [] := by
    cases hrest : rest with
    | nil => rfl
    | cons x xs =>
      have hends := h.ends
      rw [hrest] at hends
      have hx : x = '\n' := by simpa using hends
      rw [hx]
      rfl
  have hlast : name.toList.reverse.dropWhile (fun x => x == '-' || x == ':') =
      name.toList.reverse := by
    cases hrev : name.toList.reverse with
    | nil => rfl
    | cons x xs =>
      have hx : isWord x := h.sound.2.1 x (List.mem_reverse.mp (by rw [hrev]; simp))
      have hdash : x ≠ '-' := ne_of_isWord hx (by decide)
      have hcolon : x ≠ ':' := ne_of_isWord hx (by decide)
      rw [List.dropWhile_cons_of_neg (by simp [hdash, hcolon])]
  rw [Rule.tagName, h.text, List.takeWhile_append_of_pos htag, hend, List.append_nil, hlast,
    List.reverse_reverse]

/-- No rule that is tried before that for tags applies to a name. -/
theorem before_tag (h : AtName c name rest) (width : Nat) :
    ∀ r ∈ Rule.all.take 17, r width c = none :=
  Rule.before_tag_of h.head (fun _ hw => h.keyword?_eq_none hw) h.blockMode?_eq_none width

theorem read_eq (h : AtName c name rest) (width : Nat) :
    Rule.read width c = .ok ([⟨.tag name, c.loc⟩], c.skip name.toList.length) := by
  -- the rules are tried in turn, and the one for tags is the eighteenth
  refine Rule.read_eq_of_before 17 rfl (h.before_tag width) ?_
  rw [Rule.tag, if_pos h.head, h.tagName_eq]
  dsimp only
  rw [String.ofList_toList]
  rfl

end AtName

/-! ## Lines -/

theorem head?_behindLine (indent : Char) (ls : List OutlineLine) :
    (behindLine indent ls).head?.all (· = '\n') := by
  cases ls <;> simp [behindLine]

theorem Cursor.line_eq {c : Cursor} {line more : List Char} (hc : c.rest = line ++ more)
    (hline : '\n' ∉ line) (hmore : more.head?.all (· = '\n')) : c.line = line := by
  have hkeep : ∀ x ∈ line, (x ≠ '\n' : Bool) := by
    intro x hx
    have hne : x ≠ '\n' := fun h => hline (h ▸ hx)
    simpa using hne
  rw [Cursor.line, lineOf, hc, List.takeWhile_append_of_pos hkeep]
  cases more with
  | nil => simp
  | cons x xs =>
    have hx : x = '\n' := by simpa using hmore
    simp [hx]

theorem Cursor.line_skip {c : Cursor} {text more : List Char} (hc : c.rest = text ++ more)
    (htext : '\n' ∉ text) :
    (c.skip text.length).rest = more ∧ (c.skip text.length).loc.line = c.loc.line := by
  constructor
  · rw [Cursor.rest_skip, hc, List.drop_left]
  · show (c.loc.afterText (c.rest.take text.length)).line = _
    rw [hc, List.take_left, Location.afterText_of_no_feed htext]
    rfl

/-- Behind the line feed in front of a line. -/
theorem Cursor.skip_feed {c : Cursor} {cs : List Char} (hc : c.rest = '\n' :: cs) :
    c.skip 1 = ⟨cs, ⟨c.loc.line + 1, 1⟩⟩ := by
  rw [Cursor.skip, hc]
  rfl

theorem byteLength_replicate {indent : Char} (hi : isIndent indent) (width : Nat) :
    byteLength (List.replicate width indent) = width := by
  have hsize : indent.utf8Size = 1 := by
    simp only [isIndent, Bool.or_eq_true, beq_iff_eq] at hi
    rcases hi with rfl | rfl <;> rfl
  induction width with
  | zero => rfl
  | succ width ih =>
    rw [List.replicate_succ, byteLength, ih, hsize]
    omega

/-- Behind the indentation of a line, in front of its name. -/
theorem atName_skipIndent {indent : Char} (hi : isIndent indent) {width line : Nat} {name : String}
    {rest : List Char} (hl : (OutlineLine.tag width name).Sound)
    (hrest : rest.head?.all (· = '\n')) {d : Cursor}
    (hd : d = ⟨(OutlineLine.tag width name).text indent ++ rest, ⟨line, 1⟩⟩) :
    d.rest.takeWhile isIndent = List.replicate width indent ∧ AtName d.skipIndent name rest ∧
      d.skipIndent.loc = ⟨line, width + 1⟩ := by
  obtain ⟨x, xs, hname, hx⟩ := hl.exists_cons
  subst hd
  have hname' : (name.toList ++ rest).takeWhile isIndent = [] := by
    have hne : ¬ isIndent x := by
      rintro hb
      simp only [isIndent, Bool.or_eq_true, beq_iff_eq] at hb
      rcases hb with rfl | rfl <;> exact absurd hx (by decide)
    rw [hname, List.cons_append, List.takeWhile_cons_of_neg hne]
  have hindent : ∀ y ∈ List.replicate width indent, isIndent y :=
    fun y hy => List.eq_of_mem_replicate hy ▸ hi
  have htake : ((OutlineLine.tag width name).text indent ++ rest).takeWhile isIndent =
      List.replicate width indent := by
    rw [OutlineLine.text, List.append_assoc, List.takeWhile_append_of_pos hindent, hname',
      List.append_nil]
  have hfeed : '\n' ∉ List.replicate width indent :=
    fun h => absurd (hindent _ h) (by decide)
  refine ⟨htake, ⟨?_, hl, hrest⟩, ?_⟩
  · rw [Cursor.skipIndent, Cursor.rest_skip, htake, OutlineLine.text, List.append_assoc,
      List.drop_left]
  · show Location.afterText ⟨line, 1⟩ (List.take _ _) = _
    rw [htake, OutlineLine.text, List.append_assoc, List.take_left,
      Location.afterText_of_no_feed hfeed, byteLength_replicate hi, Location.right, Nat.add_comm]

namespace Layout

/-! ## What a line opens and closes -/

section Settle

variable {ws : List Nat} {mark : Option Char} {width : Nat} {loc : Location}

theorem settle_of_gt (h : ws.headD 0 < width) :
    (⟨ws, mark⟩ : Layout).settle width loc =
      .ok ([⟨.indent width, loc⟩], ⟨width :: ws, mark⟩) :=
  if_pos h

theorem settle_of_eq (h : width = ws.headD 0) :
    (⟨ws, mark⟩ : Layout).settle width loc = .ok ([⟨.newline, loc⟩], ⟨ws, mark⟩) := by
  have hle : ¬ ws.headD 0 < width := by omega
  unfold settle
  exact (if_neg hle).trans (if_pos h)

theorem settle_of_lt (h : width < ws.headD 0) :
    (⟨ws, mark⟩ : Layout).settle width loc =
      if (ws.dropWhile (width < ·)).headD 0 = width then
        .ok (outdents (ws.takeWhile (width < ·)) loc, ⟨ws.dropWhile (width < ·), mark⟩)
      else .error ⟨.unknownIndentation ((ws.dropWhile (width < ·)).headD 0) width, loc⟩ := by
  have hle : ¬ ws.headD 0 < width := by omega
  have hne : ¬ width = ws.headD 0 := by omega
  unfold settle
  rw [← drop_takeWhile]
  exact (if_neg hle).trans (if_neg hne)

theorem settle_error {l : Layout} {e : LexError} (h : l.settle width loc = .error e) :
    width < l.width ∧ (l.widths.dropWhile (width < ·)).headD 0 ≠ width ∧
      e.cause.code = "INCONSISTENT_INDENTATION" ∧ e.loc = loc := by
  obtain ⟨ws, mark⟩ := l
  rcases Nat.lt_trichotomy width (ws.headD 0) with hlt | heq | hgt
  · rw [settle_of_lt hlt] at h
    split at h
    next => exact nomatch h
    next hkept =>
      cases h
      exact ⟨hlt, hkept, rfl, rfl⟩
  · rw [settle_of_eq heq] at h
    exact nomatch h
  · rw [settle_of_gt hgt] at h
    exact nomatch h

/-- Where blocks are closed, the innermost is closed first. -/
theorem settle_close {v : Nat} {first : List Token} {l : Layout} (hlt : width < v)
    (hs : (⟨v :: ws, mark⟩ : Layout).settle width loc = .ok (first, l)) :
    ∃ rest, first = ⟨.outdent, loc⟩ :: rest ∧
      (width = ws.headD 0 ∧ rest = [] ∧ l = ⟨ws, mark⟩ ∨
        width < ws.headD 0 ∧ (⟨ws, mark⟩ : Layout).settle width loc = .ok (rest, l)) := by
  have hfirst : width < (v :: ws).headD 0 := hlt
  rw [settle_of_lt hfirst, List.takeWhile_cons_of_pos (by simpa using hlt),
    List.dropWhile_cons_of_pos (by simpa using hlt)] at hs
  split at hs
  next hkept =>
    cases hs
    refine ⟨_, rfl, ?_⟩
    by_cases hless : width < ws.headD 0
    · right
      refine ⟨hless, ?_⟩
      rw [settle_of_lt hless, if_pos hkept]
      rfl
    · left
      cases ws with
      | nil => exact ⟨hkept.symm, rfl, rfl⟩
      | cons w ws =>
        have hw : ¬ width < w := hless
        rw [List.dropWhile_cons_of_neg (by simpa using hw)] at hkept ⊢
        rw [List.takeWhile_cons_of_neg (by simpa using hw)]
        exact ⟨hkept.symm, rfl, rfl⟩
  next => exact nomatch hs

end Settle

/-! ## The tokens of lines -/

/-- What a place lexes to: what the next step reads, and what follows. -/
theorem tokens_of_ne {l : Layout} {c : Cursor} (hc : c.rest ≠ []) :
    l.tokens c = (l.step c >>= fun r => (r.1 ++ ·) <$> r.2.1.tokens r.2.2) := by
  rw [tokens, if_neg hc]
  split
  next hs =>
    rw [hs]
    rfl
  next first m d hs =>
    rw [hs]
    show _ = (first ++ ·) <$> m.tokens d
    split
    next hm =>
      rw [hm]
      rfl
    next hm =>
      rw [hm]
      rfl

theorem tokens_of_feed {l : Layout} {c : Cursor} {cs : List Char} (hc : c.rest = '\n' :: cs) :
    l.tokens c = (newline l c >>= fun r => (r.1 ++ ·) <$> r.2.1.tokens r.2.2) := by
  have hfeed : c.startsWith "\n" := by
    rw [Cursor.startsWith, hc]
    rfl
  rw [tokens_of_ne (by simp [hc]), step, if_pos hfeed]

theorem tokens_of_name {l : Layout} {c : Cursor} {name : String} {rest : List Char}
    (hc : AtName c name rest) :
    l.tokens c =
      (⟨.tag name, c.loc⟩ :: ·) <$> l.tokens (c.skip name.toList.length) := by
  obtain ⟨x, xs, hname, -⟩ := hc.sound.exists_cons
  have hne : c.rest ≠ [] := by simp [hc.text, hname]
  have hfeed : c.startsWith "\n" = false := c.startsWith_of_isWord hc.head (by decide)
  rw [tokens_of_ne hne, step, hfeed, if_neg Bool.false_ne_true, hc.read_eq]
  rfl

/-- The character that indents a source has no part in how blocks open and close. -/
theorem settle_mark (ws : List Nat) (mark : Option Char) (width : Nat) (loc : Location) :
    (⟨ws, mark⟩ : Layout).settle width loc =
      (fun r => (r.1, ⟨r.2.widths, mark⟩)) <$> (⟨ws, none⟩ : Layout).settle width loc := by
  rcases Nat.lt_trichotomy width (ws.headD 0) with hlt | heq | hgt
  · rw [settle_of_lt hlt, settle_of_lt hlt]
    split <;> rfl
  · rw [settle_of_eq heq, settle_of_eq heq]
    rfl
  · rw [settle_of_gt hgt, settle_of_gt hgt]
    rfl

/-- A line that shows nothing is passed over. -/
theorem tokens_of_blank {l : Layout} {c : Cursor} {cs rest : List Char}
    (hc : c.rest = '\n' :: (cs ++ rest)) (hcs : ∀ x ∈ cs, isIndent x)
    (hrest : rest.head?.all (· = '\n')) : l.tokens c = l.tokens ((c.skip 1).skip cs.length) := by
  have hfeed : '\n' ∉ cs := fun h => absurd (hcs _ h) (by decide)
  have hblank : allBlank cs := List.all_eq_true.mpr fun x hx => isBlank_of_isIndent (hcs x hx)
  have hline : (c.skip 1).line = cs :=
    Cursor.line_eq (by rw [Cursor.skip_feed hc]) hfeed hrest
  have hskip : (c.skip 1).skipLine = (c.skip 1).skip cs.length := by
    rw [Cursor.skipLine, hline]
  have hd : ((c.skip 1).skip cs.length).rest = rest :=
    (Cursor.line_skip (by rw [Cursor.skip_feed hc]) hfeed).1
  rw [tokens_of_feed hc]
  -- at the end of the source no line end is left to read, so the two cases meet differently
  by_cases hnil : rest = []
  · have hnext : nextLine c = (c.skip 1).skip cs.length := by
      rw [nextLine, hline, if_pos hblank, hskip, if_pos (by rw [hd, hnil])]
    have hnew : newline l c = .ok ([], l, (c.skip 1).skip cs.length) := by
      rw [newline, hnext]
      exact if_pos (by rw [hd, hnil])
    rw [hnew]
    show ([] ++ ·) <$> l.tokens _ = _
    simp
  · obtain ⟨x, xs, rfl⟩ := List.exists_cons_of_ne_nil hnil
    have hx : x = '\n' := by simpa using hrest
    have hnext : nextLine c = nextLine ((c.skip 1).skip cs.length) := by
      rw [nextLine, hline, if_pos hblank, hskip, if_neg (by rw [hd]; simp)]
    have hnew : newline l c = newline l ((c.skip 1).skip cs.length) := by
      rw [newline, newline, hnext]
    rw [hnew, tokens_of_feed (by rw [hd, hx])]

/-- What a source is indented by, once a line of it has been. -/
theorem mark_of_replicate {mark : Option Char} {indent : Char} {width : Nat}
    (hm : mark = none ∨ mark = some indent) :
    (mark.or (List.replicate width indent).head? = none ∨
        mark.or (List.replicate width indent).head? = some indent) ∧
      ¬ (List.replicate width indent).any
        fun x => some x != mark.or (List.replicate width indent).head? := by
  cases width with
  | zero => rcases hm with rfl | rfl <;> simp
  | succ width => rcases hm with rfl | rfl <;> simp [List.replicate_succ]

/-- In front of a name, the width of the indentation decides which blocks open and close. -/
theorem newline_of_tag {indent : Char} (hi : isIndent indent) {width : Nat} {name : String}
    (hl : (OutlineLine.tag width name).Sound) {c : Cursor} {rest : List Char}
    (hc : c.rest = '\n' :: ((OutlineLine.tag width name).text indent ++ rest))
    (hrest : rest.head?.all (· = '\n')) {l : Layout} (hm : l.mark = none ∨ l.mark = some indent) :
    ∃ mark, (mark = none ∨ mark = some indent) ∧
      newline l c = (fun r => (r.1, r.2, (c.skip 1).skipIndent)) <$>
        (⟨l.widths, mark⟩ : Layout).settle width ⟨c.loc.line + 1, width + 1⟩ := by
  have hfeed : '\n' ∉ (OutlineLine.tag width name).text indent :=
    OutlineLine.feed_notMem_text hi hl
  have hline : (c.skip 1).line = (OutlineLine.tag width name).text indent :=
    Cursor.line_eq (by rw [Cursor.skip_feed hc]) hfeed hrest
  have hnext : nextLine c = c.skip 1 := by
    rw [nextLine, hline, if_neg (hl.not_allBlank indent)]
  obtain ⟨htake, -, hloc⟩ := atName_skipIndent hi hl hrest (Cursor.skip_feed hc)
  obtain ⟨hmark, huniform⟩ := mark_of_replicate hm
  have hne : (c.skip 1).rest ≠ [] := by
    obtain ⟨x, xs, hx, -⟩ := hl.exists_cons
    rw [Cursor.skip_feed hc, OutlineLine.text, hx]
    simp
  refine ⟨l.mark.or (List.replicate width indent).head?, hmark, ?_⟩
  rw [newline, hnext]
  dsimp only
  rw [if_neg hne, htake, if_neg huniform, List.length_replicate, hloc]
  cases settle ⟨l.widths, l.mark.or (List.replicate width indent).head?⟩ width
    ⟨c.loc.line + 1, width + 1⟩ <;> rfl

end Layout

/-- What the lines behind some open blocks lex to, by their widths. -/
def outlineTokens (stop : Location) : List Nat → List Heading → Except LexError (List Token)
  | ws, [] => return (⟨ws, none⟩ : Layout).finish stop
  | ws, h :: hs => do
    let (first, l) ← (⟨ws, none⟩ : Layout).settle h.width h.loc
    let more ← outlineTokens stop l.widths hs
    return first ++ h.token :: more

section OutlineTokens

variable {stop : Location} {ws : List Nat} {h : Heading}

theorem outlineTokens_of_ok {first : List Token} {l : Layout} (hs : List Heading)
    (hsettle : (⟨ws, none⟩ : Layout).settle h.width h.loc = .ok (first, l)) :
    outlineTokens stop ws (h :: hs) =
      (fun more => first ++ h.token :: more) <$> outlineTokens stop l.widths hs := by
  rw [outlineTokens, hsettle]
  rfl

theorem outlineTokens_of_error {e : LexError} (hs : List Heading)
    (hsettle : (⟨ws, none⟩ : Layout).settle h.width h.loc = .error e) :
    outlineTokens stop ws (h :: hs) = .error e := by
  rw [outlineTokens, hsettle]
  rfl

theorem outlineTokens_cons {hs : List Heading} {ts : List Token}
    (hts : outlineTokens stop ws (h :: hs) = .ok ts) :
    ∃ first l more, (⟨ws, none⟩ : Layout).settle h.width h.loc = .ok (first, l) ∧
      outlineTokens stop l.widths hs = .ok more ∧ ts = first ++ h.token :: more := by
  cases hsettle : (⟨ws, none⟩ : Layout).settle h.width h.loc with
  | error e =>
    rw [outlineTokens_of_error hs hsettle] at hts
    exact nomatch hts
  | ok r =>
    rw [outlineTokens_of_ok hs hsettle] at hts
    cases hmore : outlineTokens stop r.2.widths hs with
    | error e =>
      rw [hmore] at hts
      exact nomatch hts
    | ok more =>
      rw [hmore] at hts
      cases hts
      exact ⟨r.1, r.2, more, rfl, hmore, rfl⟩

end OutlineTokens

namespace Layout

theorem tokens_behindLine {indent : Char} (hi : isIndent indent) {ls : List OutlineLine}
    (hls : ∀ l ∈ ls, l.Sound) {c : Cursor} (hc : c.rest = behindLine indent ls) :
    ∃ stop, ∀ l : Layout, l.mark = none ∨ l.mark = some indent →
      l.tokens c = outlineTokens stop l.widths (headingsFrom (c.loc.line + 1) ls) := by
  induction ls generalizing c with
  | nil =>
    refine ⟨c.loc, fun l _ => ?_⟩
    have hnil : c.rest = [] := hc
    rw [tokens, if_pos hnil]
    rfl
  | cons line ls ih =>
    obtain ⟨hline, hmore⟩ := List.forall_mem_cons.mp hls
    have hfeed : c.rest = '\n' :: (line.text indent ++ behindLine indent ls) := by
      rw [hc, behindLine, List.flatMap_cons, List.cons_append]
      rfl
    have hrest := head?_behindLine indent ls
    cases line with
    | blank cs =>
      have htext : (c.skip 1).rest = cs ++ behindLine indent ls := by
        rw [Cursor.skip_feed hfeed]
        rfl
      obtain ⟨hd, hloc⟩ := Cursor.line_skip htext fun h => absurd (hline _ h) (by decide)
      have hline' : (c.skip 1).loc.line = c.loc.line + 1 := by rw [Cursor.skip_feed hfeed]
      obtain ⟨stop, hstop⟩ := ih hmore hd
      refine ⟨stop, fun l hm => ?_⟩
      rw [tokens_of_blank hfeed hline hrest]
      rw [hloc, hline'] at hstop
      exact hstop l hm
    | tag width name =>
      obtain ⟨-, hname, hloc⟩ := atName_skipIndent hi hline hrest (Cursor.skip_feed hfeed)
      obtain ⟨hd, hline'⟩ := Cursor.line_skip hname.text fun h => absurd (hline.2.1 _ h) (by decide)
      obtain ⟨stop, hstop⟩ := ih hmore hd
      rw [hline', hloc] at hstop
      refine ⟨stop, fun l hm => ?_⟩
      obtain ⟨mark, hmark, hnew⟩ := newline_of_tag hi hline hfeed hrest hm
      rw [tokens_of_feed hfeed, hnew, settle_mark, headingsFrom, outlineTokens]
      cases hs : (⟨l.widths, none⟩ : Layout).settle width ⟨c.loc.line + 1, width + 1⟩ with
      | error e =>
        rw [Heading.loc, hs]
        rfl
      | ok r =>
        rw [Heading.loc, hs]
        show (r.1 ++ ·) <$> (⟨r.2.widths, mark⟩ : Layout).tokens _ =
          (outlineTokens stop r.2.widths _ >>= fun more => _)
        rw [tokens_of_name hname, hstop _ hmark, hloc]
        cases outlineTokens stop r.2.widths (headingsFrom (c.loc.line + 1 + 1) ls) <;> rfl

theorem tokens_of_first {indent : Char} (hi : isIndent indent) {name : String} {line : Nat}
    {ls : List OutlineLine} (hl : (OutlineLine.tag 0 name).Sound) (hls : ∀ l ∈ ls, l.Sound)
    {c : Cursor} (hc : c = ⟨name.toList ++ behindLine indent ls, ⟨line, 1⟩⟩) :
    ∃ stop, empty.tokens (skipLeading c) =
      ((⟨line, 0, name⟩ : Heading).token :: ·) <$>
        outlineTokens stop [] (headingsFrom (line + 1) ls) := by
  have hrest := head?_behindLine indent ls
  obtain ⟨-, hname, hloc⟩ := atName_skipIndent hi hl hrest hc
  have hshown : ¬ allBlank c.line := by
    have hline : c.line = name.toList :=
      Cursor.line_eq (by rw [hc]) (fun h => absurd (hl.2.1 _ h) (by decide)) hrest
    rw [hline]
    exact hl.not_allBlank indent
  obtain ⟨hd, hline⟩ := Cursor.line_skip hname.text fun h => absurd (hl.2.1 _ h) (by decide)
  obtain ⟨stop, hstop⟩ := tokens_behindLine hi hls hd
  refine ⟨stop, ?_⟩
  rw [skipLeading, if_neg (fun h => hshown h.1), tokens_of_name hname, hstop empty (Or.inl rfl),
    hline, hloc]
  rfl

/-- A blank line in front of others is passed over. -/
theorem skipLeading_blank {cs rest : List Char} {line : Nat} {c : Cursor}
    (hc : c = ⟨cs ++ '\n' :: rest, ⟨line, 1⟩⟩) (hcs : ∀ x ∈ cs, isIndent x) :
    skipLeading c = skipLeading ⟨rest, ⟨line + 1, 1⟩⟩ := by
  have htext : c.rest = cs ++ '\n' :: rest := by rw [hc]
  have hfeed : '\n' ∉ cs := fun h => absurd (hcs _ h) (by decide)
  have hline : c.line = cs := Cursor.line_eq htext hfeed (by simp)
  obtain ⟨hskip, hloc⟩ := Cursor.line_skip htext hfeed
  have hblank : allBlank cs := List.all_eq_true.mpr fun x hx => isBlank_of_isIndent (hcs x hx)
  rw [skipLeading, Cursor.skipLine, hline, if_pos ⟨hblank, by rw [hskip]; simp⟩,
    Cursor.skip_feed hskip, hloc, hc]

/-- Before the first line that shows something, no block is open. -/
theorem tokens_outline {indent : Char} (hi : isIndent indent) {l : OutlineLine}
    {ls : List OutlineLine} (hls : ∀ m ∈ l :: ls, m.Sound) {line : Nat} {c : Cursor}
    (hc : c = ⟨l.text indent ++ behindLine indent ls, ⟨line, 1⟩⟩)
    (hfirst : ∀ h ∈ (headingsFrom line (l :: ls)).head?, h.width = 0) :
    ∃ stop, empty.tokens (skipLeading c) =
      match headingsFrom line (l :: ls) with
      | [] => .ok [⟨.eos, stop⟩]
      | h :: hs => (h.token :: ·) <$> outlineTokens stop [] hs := by
  induction ls generalizing l line c with
  | nil =>
    obtain ⟨hl, hmore⟩ := List.forall_mem_cons.mp hls
    cases l with
    | tag width name =>
      obtain rfl : width = 0 := hfirst _ rfl
      exact tokens_of_first hi hl hmore hc
    | blank cs =>
      have htext : c.rest = cs := by rw [hc]; exact List.append_nil cs
      have hline : c.line = cs := Cursor.line_eq (htext.trans (List.append_nil cs).symm)
        (fun h => absurd (hl _ h) (by decide)) rfl
      have hnil : c.skipIndent.rest = [] := by
        rw [Cursor.skipIndent, Cursor.rest_skip, htext, List.takeWhile_eq_self_iff.mpr hl,
          List.drop_length]
      have hend : ¬ (allBlank c.line ∧ c.skipLine.rest ≠ []) := by
        rw [Cursor.skipLine, hline, Cursor.rest_skip, htext, List.drop_length]
        simp
      exact ⟨c.skipIndent.loc, by rw [skipLeading, if_neg hend, tokens, if_pos hnil]; rfl⟩
  | cons m ls ih =>
    obtain ⟨hl, hmore⟩ := List.forall_mem_cons.mp hls
    cases l with
    | tag width name =>
      obtain rfl : width = 0 := hfirst _ rfl
      exact tokens_of_first hi hl hmore hc
    | blank cs =>
      rw [skipLeading_blank hc hl]
      exact ih hmore rfl hfirst

end Layout

theorem lex_outlineSource {indent : Char} (hi : isIndent indent) {ls : List OutlineLine}
    (hls : ∀ l ∈ ls, l.Sound) (hfirst : ∀ h ∈ (headingsFrom 1 ls).head?, h.width = 0) :
    ∃ stop, lex (outlineSource indent ls) =
      match headingsFrom 1 ls with
      | [] => .ok [⟨.eos, stop⟩]
      | h :: hs => (h.token :: ·) <$> outlineTokens stop [] hs := by
  rw [lex, lexAt, normalizeText_outlineSource hi hls]
  cases ls with
  | nil =>
    have hempty : (outlineSource indent []).toList = [] := rfl
    rw [hempty]
    exact ⟨.start, eq_ok_of_toOption (by decide +kernel)⟩
  | cons l ls =>
    rw [toList_outlineSource]
    exact Layout.tokens_outline hi hls rfl hfirst

end PugTemplate
