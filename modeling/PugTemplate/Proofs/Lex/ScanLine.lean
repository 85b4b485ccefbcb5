import PugTemplate.Proofs.Lex.ScanText

/-!
# What the scans of a line answer

Each scan does at the point of a cursor what a rule, or a few rules in a row, do at the cursor. So
the first scan that applies reads what the first rule that applies reads. Main statement:
`inLine_mirrors`.
-/

namespace PugTemplate

open Point (fail)

variable {src : Source} {c d : Cursor}

/-- What is read at a cursor, as the answer of a scan. -/
def Source.answer (src : Source) (r : Reading) : Scanned :=
  sliced (fun (tokens, d) => (tokens, src.point d)) r

/-- What a rule does, as the answer of a scan. -/
def Source.attempt (src : Source) : Option Reading → Sliced (Option (List Token × Point))
  | none => .ok none
  | some r => some <$> src.answer r

/-- The scan does at the point of a cursor what the rule does at the cursor. -/
def Scan.Mirrors (scan : Scan) (rule : Rule) : Prop :=
  ∀ (src : Source) (c : Cursor) (width : Nat), src.Holds c →
    scan width (src.point c) = src.attempt (rule width c)

namespace Scan

/-! ## Forms of scans -/

theorem answer_ite (p : Prop) [Decidable p] (r r' : Reading) :
    src.answer (if p then r else r') = if p then src.answer r else src.answer r' :=
  apply_ite src.answer p r r'

/-- The answer of a scan that applies. -/
theorem answered (r : Reading) :
    (do return some (← src.answer r) : Sliced (Option (List Token × Point))) =
      src.attempt (some r) := by
  cases r <;> rfl

theorem Mirrors.congr {scan : Scan} {rule rule' : Rule} (h : scan.Mirrors rule)
    (heq : ∀ width c, rule' width c = rule width c) : scan.Mirrors rule' := by
  intro src c width hc
  rw [h src c width hc, heq]

theorem ofKeyword_mirrors {word : String} (hword : '\n' ∉ word.toList)
    {f : Nat → Point → Point → Scanned} {g : Nat → Cursor → Cursor → Reading}
    (h : ∀ {src : Source} {c d : Cursor} (width : Nat), src.Holds c → src.Holds d →
      f width (src.point c) (src.point d) = src.answer (g width c d)) :
    (ofKeyword word f).Mirrors fun width c => (c.keyword? word).map (g width c) := by
  intro src c width hc
  dsimp only
  rw [ofKeyword, hc.keyword?_eq hword, ok_bind]
  cases hd : c.keyword? word with
  | none => rfl
  | some d =>
    have hold := hc.reaches (Cursor.reaches_keyword? hd)
    dsimp only [Option.map]
    rw [h width hc hold, answered]

theorem ofMark_mirrors {mark : String} {f : Nat → Point → Scanned} {g : Nat → Cursor → Reading}
    (h : ∀ {src : Source} {c : Cursor} (width : Nat), src.Holds c → c.startsWith mark →
      f width (src.point c) = src.answer (g width c)) :
    (ofMark mark f).Mirrors fun width c =>
      if c.startsWith mark then some (g width c) else none := by
  intro src c width hc
  dsimp only
  rw [ofMark, hc.startsWith, ok_bind]
  by_cases hs : c.startsWith mark
  · rw [if_pos hs, if_pos hs, h width hc hs, answered]
  · rw [if_neg hs, if_neg hs]
    rfl

/-- Scans behind others are tried where none of those applies. -/
theorem first_append (scans more : List Scan) (width : Nat) (s : Point) :
    first (scans ++ more) width s = (do
      match ← first scans width s with
      | some r => return some r
      | none => first more width s) := by
  induction scans with
  | nil => rfl
  | cons f fs ih =>
    rw [List.cons_append, first, first, ih]
    cases f width s with
    | error e => rfl
    | ok r => cases r <;> rfl

/-- One scan may stand for several rules that are tried one after the other. -/
theorem first_mirrors {scans : List Scan} {groups : List (List Rule)}
    (h : List.Forall₂ (fun scan rules => scan.Mirrors (Rule.first rules)) scans groups) :
    (first scans).Mirrors (Rule.first groups.flatten) := by
  intro src c width hc
  induction h with
  | nil => rfl
  | @cons scan rules scans groups hscan _ ih =>
    -- the rules of a group are tried before those of the groups behind it
    have hfirst : Rule.first (rules :: groups).flatten width c =
        (Rule.first rules width c).or (Rule.first groups.flatten width c) := by
      rw [Rule.first, List.flatten_cons, List.findSome?_append]
      rfl
    rw [first, hscan src c width hc, hfirst]
    cases Rule.first rules width c with
    | none => exact ih
    | some r => cases r <;> rfl

theorem Mirrors.alone {scan : Scan} {rule : Rule} (h : scan.Mirrors rule) :
    scan.Mirrors (Rule.first [rule]) := by
  refine h.congr fun width c => ?_
  rw [Rule.first, List.findSome?_singleton]

/-! ## Keywords -/

theorem yieldWord_mirrors : yieldWord.Mirrors Rule.yieldWord :=
  ofKeyword_mirrors (by decide) fun _ hc _ => by rw [hc.location]; rfl

theorem defaultWord_mirrors : defaultWord.Mirrors Rule.defaultWord :=
  ofKeyword_mirrors (by decide) fun _ hc _ => by rw [hc.location]; rfl

theorem doctype_mirrors : doctype.Mirrors Rule.doctype :=
  ofKeyword_mirrors (by decide) fun _ hc hd => by
    rw [hd.restOfLine, ok_bind, hd.skipLine_eq, ok_bind, hc.location]
    rfl

theorem expression_mirrors (keyword : ExprKeyword) (kind : String → TokenKind) :
    (expression keyword kind).Mirrors (Rule.expression keyword kind) :=
  ofKeyword_mirrors (by cases keyword <;> decide) fun _ hc hd => by
    rw [hd.restOfLine, ok_bind, hd.skipLine_eq, ok_bind, hc.location, answer_ite]
    rfl

/-- The expression of a `when` ends where it is read to end, or fails where its reading fails. -/
theorem whenLength_append (t : Point) (before cs : List Char) (open_ : List Enclosure)
    (last : Char) :
    whenLength t (before ++ cs) open_ last (byteLength before) cs =
      Attribute.valueAnswer t t.pos before (Rule.whenText open_ last cs) := by
  have hends (open_ : List Enclosure) (last c : Char) (before cs : List Char) :
      endsWhen (before ++ c :: cs) open_ last c (byteLength before) =
        .ok (decide (c = ':' ∧ open_ = [] ∧ !isBlank last ∧ cs.head?.all isBlank)) := by
    rw [endsWhen]
    by_cases hend : c = ':' ∧ open_ = [] ∧ !isBlank last
    · obtain ⟨rfl, hopen, hlast⟩ := hend
      rw [if_pos ⟨rfl, hopen, hlast⟩, sliceFrom_succ (by decide), ok_bind, pure_eq_ok]
      simp [hopen, hlast]
    · rw [if_neg hend, decide_eq_false fun h => hend ⟨h.1, h.2.1, h.2.2.1⟩]
      rfl
  -- the offset is the length of what was passed, so a step appends a character to it
  fun_induction Rule.whenText open_ last cs generalizing before with
  | case1 =>
    rw [whenLength, List.append_nil]
    rfl
  | case2 open_ last c cs hend =>
    rw [whenLength, hends, ok_bind, if_pos (decide_eq_true hend)]
    rfl
  | case3 open_ last c cs hend violation hfeed =>
    rw [whenLength, hends, ok_bind, if_neg (by simpa using hend), hfeed]
    rfl
  | case4 open_ last c cs hend inner hfeed text htext ih =>
    rw [whenLength, hends, ok_bind, if_neg (by simpa using hend), hfeed]
    dsimp only
    rw [byteLength_snoc, List.append_cons, ih, htext]
    exact (Attribute.valueAnswer_continueWith t t.pos before c (.ok text)).symm
  | case5 open_ last c cs hend inner hfeed f htext ih =>
    rw [whenLength, hends, ok_bind, if_neg (by simpa using hend), hfeed]
    dsimp only
    rw [byteLength_snoc, List.append_cons, ih, htext]
    exact (Attribute.valueAnswer_continueWith t t.pos before c (.error f)).symm

theorem whenText_isPrefix {open_ : List Enclosure} {last : Char} {cs text : List Char}
    (h : Rule.whenText open_ last cs = .ok text) : text <+: cs := by
  fun_induction Rule.whenText open_ last cs generalizing text
  case case1 | case2 =>
    cases h
    exact List.nil_prefix
  case case3 | case5 => cases h
  case case4 htext ih =>
    cases h
    exact (List.prefix_cons_inj _).mpr (ih htext)

theorem when_mirrors : when.Mirrors Rule.when :=
  ofKeyword_mirrors (by decide) fun {src c d} _ hc hd => by
    have hline := whenLength_append (src.point d.skipIndent) [] d.skipIndent.line [] ' '
    rw [List.nil_append, byteLength_nil] at hline
    have hhere := hd.skipIndent
    rw [hd.skipIndent_eq, ok_bind, hhere.restOfLine, ok_bind, hline]
    dsimp only
    cases htext : Rule.whenText [] ' ' d.skipIndent.line with
    | error f =>
      have hbefore := (Rule.whenText_before htext).trans (lineOf_isPrefix _)
      rw [Attribute.valueAnswer, byteLength_nil, Nat.zero_add,
        hhere.nestingError hbefore]
      rfl
    | ok text =>
      have hpre := whenText_isPrefix htext
      have hmove := hhere.advance (hpre.trans (lineOf_isPrefix _))
        fun hfeed => feed_notMem_lineOf _ (hpre.subset hfeed)
      rw [Attribute.valueAnswer, byteLength_nil, Nat.zero_add, ok_bind,
        sliceTo_of_isPrefix hpre, ok_bind, hmove, hc.location, answer_ite]
      rfl

theorem otherwise_mirrors : otherwise.Mirrors Rule.otherwise :=
  ofKeyword_mirrors (by decide) fun {src c d} _ hc hd => by
    have hhere := hd.skipIndent
    rw [hd.skipIndent_eq, ok_bind, hhere.keyword?_eq (by decide), ok_bind]
    dsimp only
    cases he : d.skipIndent.keyword? "if" with
    | none =>
      dsimp only [Option.map]
      rw [hhere.restOfLine, ok_bind, hhere.skipLine_eq, ok_bind, hc.location, answer_ite]
      rfl
    | some e =>
      have hold := hhere.reaches (Cursor.reaches_keyword? he)
      dsimp only [Option.map]
      rw [hold.restOfLine, ok_bind, hold.skipLine_eq, ok_bind, hc.location, answer_ite]
      rfl

theorem conditional_mirrors :
    conditional.Mirrors (Rule.first [Rule.otherwise, Rule.ifCond, Rule.unlessCond]) := by
  have h := first_mirrors <| .cons otherwise_mirrors.alone <|
    .cons (expression_mirrors .ifCond .ifCond).alone <|
    .cons (expression_mirrors .unlessCond .unlessCond).alone .nil
  exact h

/-! ### Loops -/

theorem leadingName?_eq (cs : List Char) : leadingName? cs = .ok (Rule.leadingName? cs) := by
  have hname := List.takeWhile_prefix (p := isNameChar) (l := cs)
  rw [leadingName?, sliceTo_of_isPrefix hname, ok_bind, sliceFrom_of_isPrefix hname, ok_bind,
    Rule.leadingName?]
  split <;> rfl

/-- A word of two letters is found where it is read. -/
theorem shortWord_eq {word : String} {a b : Char} (hword : word.toList = [a, b])
    (cs : List Char) : shortWord word cs = .ok (Rule.shortWord? a b cs).isSome := by
  rw [shortWord, hword]
  by_cases hs : [a, b].isPrefixOf cs
  · obtain ⟨rest, rfl⟩ := List.isPrefixOf_iff_prefix.mp hs
    rw [if_pos hs, sliceFrom_append, ok_bind, pure_eq_ok]
    show _ = Except.ok (if a = a ∧ b = b ∧ rest.head?.all isBlank then some rest else none).isSome
    by_cases hblank : rest.head?.all isBlank
    · simp [hblank]
    · simp [hblank]
  · have hnone : Rule.shortWord? a b cs = none := by
      unfold Rule.shortWord?
      split
      next x y rest =>
        refine if_neg fun hxy => hs ?_
        rw [hxy.1, hxy.2.1]
        exact List.isPrefixOf_iff_prefix.mpr (List.prefix_append [a, b] rest)
      next => rfl
    rw [if_neg hs, hnone]
    rfl

theorem sliceFrom_of_shortWord? {a b : Char} (hlen : byteLength [a, b] = 2) {cs rest : List Char}
    (h : Rule.shortWord? a b cs = some rest) : sliceFrom cs 2 = .ok rest := by
  unfold Rule.shortWord? at h
  split at h
  next x y cs =>
    split at h
    next hxy =>
      cases h
      obtain ⟨rfl, rfl, -⟩ := hxy
      rw [← hlen]
      exact sliceFrom_append [x, y] rest
    next => cases h
  next => cases h

/-- A cause that is found in a text, as a failure at a position. -/
def failingAt {α : Type} (loc : Location) : Except LexCause α → Sliced α
  | .ok a => .ok a
  | .error cause => fail cause loc

theorem saysOf_eq (malformed : LexCause) (loc : Location) (rest : List Char) :
    saysOf malformed loc rest =
      match Rule.shortWord? 'i' 'n' rest, Rule.shortWord? 'o' 'f' rest with
      | some _, _ => .ok false
      | none, some _ => .ok true
      | none, none => fail malformed loc := by
  rw [saysOf, shortWord_eq (a := 'i') (b := 'n') (by decide), ok_bind,
    shortWord_eq (a := 'o') (b := 'f') (by decide), ok_bind]
  cases Rule.shortWord? 'i' 'n' rest with
  | some _ => rfl
  | none => cases Rule.shortWord? 'o' 'f' rest <;> rfl

theorem eachSource_eq (keyword : ExprKeyword) (loc : Location) (malformed : LexCause)
    (value : String) (key : Option String) (rest : List Char) :
    eachSource keyword loc malformed value key rest =
      failingAt loc (
        match Rule.shortWord? 'i' 'n' rest, Rule.shortWord? 'o' 'f' rest with
        | some source, _ =>
          if allBlank source then .error (.missingCollection keyword)
          else .ok (.each value key (String.ofList (trim source)))
        | none, some source =>
          if allBlank source then .error (.missingCollection keyword)
          else if key.isSome then .error malformed
          else .ok (.eachOf value (String.ofList (trim source)))
        | none, none => .error malformed) := by
  rw [eachSource, saysOf_eq]
  cases hin : Rule.shortWord? 'i' 'n' rest with
  | some source =>
    dsimp only
    rw [ok_bind, sliceFrom_of_shortWord? (by decide) hin, ok_bind]
    split <;> rfl
  | none =>
    cases hof : Rule.shortWord? 'o' 'f' rest with
    | some source =>
      dsimp only
      rw [ok_bind, sliceFrom_of_shortWord? (by decide) hof, ok_bind]
      cases allBlank source <;> cases key <;> rfl
    | none => rfl

theorem keyName?_comma (rest : List Char) :
    Rule.keyName? (',' :: rest) =
      (Rule.leadingName? (trimStart rest)).map fun (name, rest) => (some name, rest) :=
  rfl

theorem keyName?_of_ne {rest : List Char} (hcomma : ∀ more, rest ≠ ',' :: more) :
    Rule.keyName? rest = some (none, rest) := by
  unfold Rule.keyName?
  split
  next => exact (hcomma _ rfl).elim
  next => rfl

theorem eachKind_eq (keyword : ExprKeyword) (loc : Location) (body : List Char) :
    eachKind keyword loc body = failingAt loc (Rule.eachKind keyword body) := by
  rw [eachKind, Rule.eachKind, leadingName?_eq, ok_bind]
  split
  next hname =>
    rw [hname]
    rfl
  next value rest hname =>
    rw [hname, leadingName?_eq, ok_bind]
    dsimp only
    rw [keyName?_comma]
    cases Rule.leadingName? (trimStart rest) with
    | none => rfl
    | some keyed =>
      obtain ⟨key, rest⟩ := keyed
      exact eachSource_eq ..
  next value rest hcomma hname =>
    rw [hname]
    dsimp only
    rw [keyName?_of_ne hcomma]
    exact eachSource_eq ..

theorem eachWith_mirrors (keyword : ExprKeyword) :
    (eachWith keyword).Mirrors (Rule.eachWith keyword) :=
  ofKeyword_mirrors (by cases keyword <;> decide) fun {src c d} _ hc hd => by
    rw [hd.restOfLine, ok_bind, hd.skipLine_eq, ok_bind, hc.location, eachKind_eq, answer_ite]
    cases Rule.eachKind keyword (trim d.line) <;> rfl

theorem each_mirrors :
    each.Mirrors (Rule.first [Rule.eachWith .each, Rule.eachWith .forEach]) := by
  have h := first_mirrors <| .cons (eachWith_mirrors .each).alone <|
    .cons (eachWith_mirrors .forEach).alone .nil
  exact h

/-! ### Inheritance and inclusion -/

theorem path_eq (hd : src.Holds d) (kind : TokenKind) (loc : Location) (missing : LexCause) :
    path kind loc missing (src.point d) = src.answer (Rule.path ⟨kind, loc⟩ missing d) := by
  have hhere := hd.skipIndent
  rw [path, hd.skipIndent_eq, ok_bind, hhere.restOfLine, ok_bind, hhere.skipLine_eq, ok_bind,
    hhere.location, Rule.path, answer_ite]
  rfl

theorem inherits_mirrors : inherits.Mirrors Rule.inherits := by
  have hword (word : String) (hword : '\n' ∉ word.toList) :
      (ofKeyword word fun _ s t => path .inherits s.location .missingParentPath t).Mirrors
        fun _ c => (c.keyword? word).map (Rule.path ⟨.inherits, c.loc⟩ .missingParentPath) :=
    ofKeyword_mirrors hword fun _ hc hd => by rw [hc.location, path_eq hd]
  have h := first_mirrors <| .cons (hword "extends" (by decide)).alone <|
    .cons (hword "extend" (by decide)).alone .nil
  refine h.congr fun width c => ?_
  rw [Rule.inherits]
  dsimp only [Rule.first, List.flatten, List.append, List.findSome?]
  cases c.keyword? "extends" with
  | some d => rfl
  | none => cases c.keyword? "extend" <;> rfl

/-! ### Words -/

theorem feed_notMem_word (c : Cursor) : '\n' ∉ c.word :=
  feed_notMem_takeWhile rfl c.rest

/-- Over a word, behind some text in front of it. -/
theorem advance_word (hc : src.Holds c) :
    (src.point c).advance (wordLength c.rest) = src.point (c.skip c.word.length) :=
  hc.advance (List.takeWhile_prefix _) (feed_notMem_word c)

/-- A word is cut out of the text, and passed. -/
theorem sliceTo_word (c : Cursor) : sliceTo c.rest (wordLength c.rest) = .ok c.word :=
  sliceTo_of_isPrefix (List.takeWhile_prefix _)

theorem wordLength_eq_zero : wordLength c.rest = 0 ↔ c.word = [] :=
  byteLength_eq_zero

theorem includes_mirrors : includes.Mirrors Rule.includes :=
  ofKeyword_mirrors (by decide) fun {src c d} _ hc hd => by
    have hcolon : ":".toList.length = 1 := by decide
    rw [hd.consume (by decide), ok_bind, hc.location, hcolon]
    by_cases hs : d.startsWith ":"
    · have hhere := hd.skip 1
      rw [if_pos hs, if_pos hs]
      dsimp only
      rw [hhere.rest, ok_bind, ok_bind, sliceTo_word, ok_bind, advance_word hhere,
        path_eq (hhere.skip _), Cursor.skip_skip]
    · rw [if_neg hs, if_neg hs]
      exact path_eq hd _ _ _

/-! ### Blocks -/

/-- What stands behind a word in its line. -/
theorem sliceFrom_line {word : String} (hword : '\n' ∉ word.toList) (hs : c.startsWith word) :
    sliceFrom c.line (byteLength word.toList) = .ok (c.skip word.toList.length).line := by
  have hline : word.toList <+: c.line :=
    List.isPrefixOf_iff_prefix.mp ((Cursor.startsWith_line hword c).symm.trans hs)
  rw [sliceFrom_of_isPrefix hline, Cursor.line_skip_of_le hline.length_le]

theorem named?_eq (hc : src.Holds c) {word : String} (hword : '\n' ∉ word.toList) (mode : BlockMode)
    (hd : c.keyword? word = some d) :
    named? word mode (src.point c) =
      .ok (if allBlank d.line then none else some (mode, src.point d)) := by
  have hs := Cursor.startsWith_of_keyword? hd
  rw [named?, hc.restOfLine, ok_bind, sliceFrom_line hword hs, ok_bind, hc.consume hword, ok_bind,
    if_pos hs, ← (Cursor.keyword?_eq_skip hd).1]
  split <;> rfl

theorem blockMode?_eq (hc : src.Holds c) :
    blockMode? (src.point c) =
      .ok ((Rule.blockMode? c).map fun (mode, d) => (mode, src.point d)) := by
  rw [blockMode?, Rule.blockMode?, hc.atKeyword_eq, ok_bind, hc.atKeyword_eq, ok_bind]
  cases happend : c.keyword? "append" with
  | some d =>
    dsimp only [Option.isSome_some]
    rw [if_pos rfl, named?_eq hc (by decide) .append happend]
    split <;> rfl
  | none =>
    cases hprepend : c.keyword? "prepend" with
    | some d =>
      dsimp only [Option.isSome_some, Option.isSome_none]
      rw [if_neg Bool.false_ne_true, if_pos rfl, named?_eq hc (by decide) .prepend hprepend]
      split <;> rfl
    | none => rfl

theorem namedBlock_eq (hd : src.Holds d) (loc : Location) (mode : BlockMode) :
    namedBlock loc mode (src.point d) = src.answer (Rule.namedBlock loc mode d) := by
  rw [namedBlock, hd.restOfLine, ok_bind, hd.skipLine_eq, ok_bind]
  rfl

theorem blockWord_mirrors : blockWord.Mirrors fun _ c =>
    (c.keyword? "block").map fun d =>
      if allBlank d.line then Rule.emit .slot c.loc d.skipLine
      else match Rule.blockMode? d.skipIndent with
        | some (mode, e) => Rule.namedBlock c.loc mode e
        | none => Rule.namedBlock c.loc .replace d.skipIndent :=
  ofKeyword_mirrors (by decide) fun {src c d} _ hc hd => by
    have hhere := hd.skipIndent
    rw [hd.restOfLine, ok_bind, hd.skipLine_eq, ok_bind, hd.skipIndent_eq, ok_bind,
      blockMode?_eq hhere, ok_bind, hc.location, answer_ite]
    cases hmode : Rule.blockMode? d.skipIndent with
    | none =>
      dsimp only [Option.map]
      rw [namedBlock_eq hhere]
      rfl
    | some r =>
      obtain ⟨mode, e⟩ := r
      dsimp only [Option.map]
      rw [namedBlock_eq (hhere.reaches (Rule.reaches_blockMode? hmode))]
      rfl

theorem block_mirrors : block.Mirrors Rule.block := by
  intro src c width hc
  rw [block, blockMode?_eq hc, ok_bind, Rule.block]
  cases hmode : Rule.blockMode? c with
  | none => exact blockWord_mirrors src c width hc
  | some r =>
    obtain ⟨mode, e⟩ := r
    dsimp only [Option.map]
    rw [namedBlock_eq (hc.reaches (Rule.reaches_blockMode? hmode)), answered, hc.location]

/-! ### Mixins -/

theorem inside_paren (hd : src.Holds d) (hs : d.startsWith "(") :
    (src.point d).inside .round ((src.point d).pos + 1) =
      sliced (fun (content, e) => (content, src.point e)) ((d.skip 1).inside .round) :=
  hd.inside (List.isPrefixOf_iff_prefix.mp hs) .round

theorem inside_brace (hd : src.Holds d) (hs : d.startsWith "#\x7b") :
    (src.point d).inside .curly ((src.point d).pos + 2) =
      sliced (fun (content, e) => (content, src.point e)) ((d.skip 2).inside .curly) :=
  hd.inside (List.isPrefixOf_iff_prefix.mp hs) .curly

theorem mixin_mirrors : mixin.Mirrors Rule.mixin :=
  ofKeyword_mirrors (by decide) fun {src c d} _ hc hd => by
    have hhere := hd.skipIndent
    have hbehind := (hhere.skip d.skipIndent.word.length).skipIndent
    rw [hd.skipIndent_eq, ok_bind, hhere.rest, ok_bind]
    dsimp only
    rw [ok_bind, sliceTo_word, ok_bind, advance_word hhere, (hhere.skip _).skipIndent_eq, ok_bind,
      hbehind.startsWith, ok_bind, hc.location, answer_ite]
    by_cases hnil : d.skipIndent.word = []
    · rw [if_pos (wordLength_eq_zero.mpr hnil), if_pos hnil]
      rfl
    · rw [if_neg (mt wordLength_eq_zero.mp hnil), if_neg hnil]
      by_cases hs : (d.skipIndent.skip d.skipIndent.word.length).skipIndent.startsWith "("
      · rw [if_pos hs, if_pos hs, inside_paren hbehind hs]
        cases ((d.skipIndent.skip d.skipIndent.word.length).skipIndent.skip 1).inside .round <;> rfl
      · rw [if_neg hs, if_neg hs]
        rfl

theorem spread_mirrors : spread.Mirrors Rule.spread :=
  ofKeyword_mirrors (by decide) fun {src c d} _ hc hd => by
    rw [hd.startsWith, ok_bind, hc.location, hd.location, answer_ite]
    by_cases hs : d.startsWith "("
    · rw [if_pos hs, if_pos hs, inside_paren hd hs]
      cases (d.skip 1).inside .round <;> rfl
    · rw [if_neg hs, if_neg hs]
      rfl

/-! ## Marks -/

theorem withPipeless_eq (hd : src.Holds d) (check : Bool) (width : Nat) (kind : TokenKind)
    (loc : Location) :
    withPipeless check width kind loc (src.point d) =
      src.answer (Rule.withPipeless check width ⟨kind, loc⟩ d) := by
  rw [withPipeless, Pipeless.scan_eq hd, Rule.withPipeless]
  cases Pipeless.read check width d <;> rfl

theorem restAsText_eq (hd : src.Holds d) (kind : String → TokenKind) :
    restAsText kind (src.point d) = src.answer (Rule.restAsText kind d) := by
  rw [restAsText, hd.restOfLine, ok_bind, hd.location, scanMarkers_eq, hd.skipLine_eq,
    Rule.restAsText]
  cases checkMarkers d.loc d.line <;> rfl

theorem interpolation_mirrors : interpolation.Mirrors Rule.interpolation := by
  intro src c width hc
  rw [interpolation, ofMark, hc.startsWith, ok_bind, Rule.interpolation]
  by_cases hs : c.startsWith "#\x7b"
  · rw [if_pos hs, if_pos hs, inside_brace hc hs, hc.location]
    cases (c.skip 2).inside .curly <;> rfl
  · rw [if_neg hs, if_neg hs]
    rfl

theorem tag_mirrors : tag.Mirrors Rule.tag := by
  intro src c width hc
  have hrun := List.takeWhile_prefix (p := Rule.isTagChar) (l := c.rest)
  have hname := Rule.tagName_isPrefix c.rest
  -- the name is what is left of the run when marks at its end are dropped
  have hfeed : '\n' ∉ Rule.tagName c.rest := by
    intro hmem
    have hdrop := List.mem_reverse.mp ((List.dropWhile_suffix _).subset (List.mem_reverse.mp hmem))
    exact feed_notMem_takeWhile (by decide) c.rest hdrop
  rw [tag, hc.rest, ok_bind, sliceTo_of_isPrefix hrun, ok_bind, Rule.tag]
  split
  next =>
    dsimp only
    rw [← answered, hc.location, ← Rule.tagName, hc.advance hname hfeed]
    rfl
  next => rfl

/-! ### Names behind a mark -/

/-- A word behind a mark of one byte is cut out of the text, and passed. -/
theorem word_behind (hc : src.Holds c) {m : Char} (hm : [m] <+: c.rest) (hone : m.utf8Size = 1)
    (hfeed : m ≠ '\n') :
    sliceFrom c.rest 1 = .ok (c.skip 1).rest ∧
      slice c.rest 1 (wordLength (c.skip 1).rest + 1) = .ok (c.skip 1).word ∧
      (src.point c).advance (wordLength (c.skip 1).rest + 1) =
        src.point (c.skip (1 + (c.skip 1).word.length)) := by
  have hlen : byteLength [m] = 1 := by
    rw [byteLength_cons, hone]
    rfl
  have hword : m :: (c.skip 1).word <+: c.rest := by
    rw [← List.prefix_iff_eq_append.mp hm]
    exact (List.prefix_append_right_inj [m]).mpr (Rule.word_isPrefix (c.skip 1))
  obtain ⟨more, hmore⟩ := hword
  refine ⟨?_, ?_, ?_⟩
  · have hcut := sliceFrom_of_isPrefix hm
    rwa [hlen] at hcut
  · exact slice_eq_ok_iff.mpr ⟨[m], more, hmore.symm, hlen.symm, Nat.add_comm _ _⟩
  · have hmove := hc.advance ⟨more, hmore⟩ fun hmem =>
      (List.mem_cons.mp hmem).elim (fun h => hfeed h.symm) (feed_notMem_word _)
    rw [byteLength_cons, hone, Nat.add_comm] at hmove
    rw [Nat.add_comm 1 (c.skip 1).word.length]
    exact hmove

theorem named_mirrors (mark : String) {m : Char} (hmark : mark.toList = [m]) (hone : m.utf8Size = 1)
    (hfeed : m ≠ '\n') (kind : String → TokenKind) (invalid : String → LexCause) :
    (named mark kind invalid).Mirrors fun _ c =>
      if c.startsWith mark then some (
        if (c.skip 1).word.any isAsciiLetterOrUnderscore then
          Rule.emit (kind (String.ofList (c.skip 1).word)) c.loc
            (c.skip (1 + (c.skip 1).word.length))
        else Rule.refuse (invalid (String.ofList c.line)) c.loc)
      else none :=
  ofMark_mirrors fun {src c} _ hc hs => by
    have hm : [m] <+: c.rest := hmark ▸ List.isPrefixOf_iff_prefix.mp hs
    obtain ⟨hcut, hname, hmove⟩ := word_behind hc hm hone hfeed
    rw [hc.rest, ok_bind, hcut, ok_bind]
    dsimp only
    rw [ok_bind, hname, ok_bind, hmove, hc.restOfLine, ok_bind, hc.location, answer_ite]
    rfl

theorem id_mirrors : id.Mirrors Rule.id := by
  have htext : (ofMark "#[" fun _ s => restAsText .text s).Mirrors fun _ c =>
      if c.startsWith "#[" then some (Rule.restAsText .text c) else none :=
    ofMark_mirrors fun _ hc _ => restAsText_eq hc _
  have hname := named_mirrors "#" rfl (by decide) (by decide) .id .invalidId
  have h := first_mirrors (.cons htext.alone (.cons hname.alone .nil))
  refine h.congr fun width c => ?_
  rw [Rule.id]
  dsimp only [Rule.first, List.flatten, List.append, List.findSome?]
  by_cases hs : c.startsWith "#["
  · rw [if_pos hs, if_pos hs]
  · rw [if_neg hs, if_neg hs]
    split
    · split <;> rfl
    · rfl

theorem className_mirrors : className.Mirrors Rule.className := by
  refine (named_mirrors "." rfl (by decide) (by decide) .className .invalidClass).congr
    fun width c => ?_
  rw [Rule.className]
  split
  · dsimp only
    split <;> rfl
  · rfl

/-! ### Attributes -/

/-- Where the parenthesis here is closed, what stands inside it, and the place behind it. -/
theorem paren_ok (hd : src.Holds d) (hs : d.startsWith "(") {content : List Char} {e : Cursor}
    (hin : (d.skip 1).inside .round = .ok (content, e)) :
    ['('] ++ content <+: d.rest ∧
      slice src.text ((src.point d).pos + 1) ((src.point d).pos + 1 + byteLength content) =
        .ok content ∧
      (src.point d).advanceTo ((src.point d).pos + 1 + byteLength content + 1) =
        .ok (src.point e) := by
  have hx : "(".toList <+: d.rest := List.isPrefixOf_iff_prefix.mp hs
  obtain ⟨hpart, hmove⟩ := hd.inside_ok hx hin
  exact ⟨hpart, hd.slice hpart, hmove⟩

theorem closing_paren (hd : src.Holds d) (hs : d.startsWith "(") :
    (src.point d).closing .round ((src.point d).pos + 1) =
      sliced (fun (content, _) => byteLength content) ((d.skip 1).inside .round) :=
  hd.closing (List.isPrefixOf_iff_prefix.mp hs) .round

theorem attributeList_eq (hd : src.Holds d) (hs : d.startsWith "(") :
    attributeList (src.point d) = src.answer (Rule.attributeList d) := by
  rw [attributeList, Rule.attributeList, closing_paren hd hs, hd.location, Source.source_point]
  cases hin : (d.skip 1).inside .round with
  | error e => rfl
  | ok r =>
    obtain ⟨content, e⟩ := r
    obtain ⟨hpart, hslice, hmove⟩ := paren_ok hd hs hin
    have hlist := Attribute.scanList_start (hd.places hpart)
    rw [show byteLength ['('] = 1 from rfl] at hlist
    have hold : src.Holds e := hd.reaches ((d.reaches_skip 1).trans (Cursor.reaches_inside hin))
    rw [sliced, ok_bind]
    dsimp only
    rw [hslice, ok_bind, hlist, hmove, show (d.skip ['('].length) = d.skip 1 from rfl]
    cases Attribute.readList ⟨content, (d.skip 1).loc⟩ with
    | error e => rfl
    | ok tokens =>
      rw [sliced, ok_bind, ok_bind, hold.location]
      rfl

theorem attributes_mirrors : attributes.Mirrors Rule.attributes :=
  ofMark_mirrors fun _ hc hs => attributeList_eq hc hs

/-! ### Blocks of text -/

theorem endsWithMark_eq (hc : src.Holds c) {mark : String} (hmark : '\n' ∉ mark.toList) :
    endsWithMark mark (src.point c) =
      .ok (c.startsWith mark && allBlank (c.skip mark.toList.length).line) := by
  rw [endsWithMark, hc.startsWith, ok_bind]
  by_cases hs : c.startsWith mark
  · rw [if_pos hs, hc.restOfLine, ok_bind, sliceFrom_line hmark hs, ok_bind, hs, Bool.true_and]
    rfl
  · rw [if_neg hs, Bool.eq_false_iff.mpr hs]
    rfl

theorem dot_mirrors : dot.Mirrors Rule.dot := by
  intro src c width hc
  rw [dot, endsWithMark_eq hc (by decide), ok_bind, hc.skipLine_eq, ok_bind,
    withPipeless_eq hc.skipLine, answered, hc.location, Rule.dot,
    show ".".toList.length = 1 from rfl]
  split <;> rfl

theorem codeBlock_mirrors : codeBlock.Mirrors Rule.codeBlock := by
  intro src c width hc
  rw [codeBlock, endsWithMark_eq hc (by decide), ok_bind, hc.skipLine_eq, ok_bind,
    withPipeless_eq hc.skipLine, answered, hc.location, Rule.codeBlock,
    show "-".toList.length = 1 from rfl]
  split <;> rfl

/-! ### Other marks -/

theorem advance_mark (hc : src.Holds c) (mark : String) (n : Nat)
    (hmark : '\n' ∉ mark.toList ∧ byteLength mark.toList = n ∧ mark.toList.length = n)
    (hs : c.startsWith mark) : (src.point c).advance n = src.point (c.skip n) := by
  obtain ⟨hfeed, hbytes, hlen⟩ := hmark
  have hmove := hc.advance (List.isPrefixOf_iff_prefix.mp hs) hfeed
  rwa [hbytes, hlen] at hmove

theorem slash_mirrors : slash.Mirrors Rule.slash :=
  ofMark_mirrors fun _ hc hs => by
    rw [hc.location, advance_mark hc "/" 1 (by decide) hs]
    rfl

theorem colonWith_mirrors (mark : String) (hmark : ":".toList <+: mark.toList) :
    (colonWith mark).Mirrors fun _ c =>
      if c.startsWith mark then some (Rule.emit .colon c.loc (c.skip 1).skipIndent) else none :=
  ofMark_mirrors fun {_ c} _ hc hs => by
    have hcolon : c.startsWith ":" :=
      List.isPrefixOf_iff_prefix.mpr (hmark.trans (List.isPrefixOf_iff_prefix.mp hs))
    rw [hc.location, advance_mark hc ":" 1 (by decide) hcolon, (hc.skip 1).skipIndent_eq]
    rfl

theorem colon_mirrors : colon.Mirrors Rule.colon := by
  have h := first_mirrors <| .cons (colonWith_mirrors ": " ⟨[' '], rfl⟩).alone <|
    .cons (colonWith_mirrors ":\t" ⟨['\t'], rfl⟩).alone .nil
  refine h.congr fun width c => ?_
  rw [Rule.colon]
  dsimp only [Rule.first, List.flatten, List.append, List.findSome?]
  cases c.startsWith ": " <;> cases c.startsWith ":\t" <;> rfl

/-! ### Calls and filters -/

/-- An equals sign that is not doubled, or one behind an exclamation mark. -/
theorem signs_eq (behind : List Char) :
    ("=".toList.isPrefixOf behind && !"==".toList.isPrefixOf behind ||
        "!=".toList.isPrefixOf behind) =
      match behind with
      | '=' :: '=' :: _ => false
      | '=' :: _ => true
      | '!' :: '=' :: _ => true
      | _ => false := by
  split
  next => rfl
  next rest hno =>
    have hdouble : "==".toList.isPrefixOf ('=' :: rest) = false :=
      Bool.eq_false_iff.mpr fun h => by
        obtain ⟨more, hmore⟩ := List.isPrefixOf_iff_prefix.mp h
        cases hmore
        exact hno _ rfl
    rw [hdouble]
    rfl
  next => rfl
  next hdouble hsingle hnot =>
    have hequals : "=".toList.isPrefixOf behind = false :=
      Bool.eq_false_iff.mpr fun h => by
        obtain ⟨more, rfl⟩ := List.isPrefixOf_iff_prefix.mp h
        exact hsingle _ rfl
    have hunequal : "!=".toList.isPrefixOf behind = false :=
      Bool.eq_false_iff.mpr fun h => by
        obtain ⟨more, rfl⟩ := List.isPrefixOf_iff_prefix.mp h
        exact hnot _ rfl
    rw [hequals, hunequal]
    rfl

theorem looksLikeAttributes_eq (content : List Char) :
    looksLikeAttributes content = .ok (PugTemplate.looksLikeAttributes content) := by
  rw [looksLikeAttributes, PugTemplate.looksLikeAttributes]
  dsimp only
  generalize trimStart content = content
  have hname := List.takeWhile_prefix (p := isWordOrHyphen) (l := content)
  rw [wordLength, sliceFrom_of_isPrefix hname, ok_bind]
  generalize content.takeWhile isWordOrHyphen = name
  cases name with
  | nil => rfl
  | cons x name =>
    rw [if_neg (mt byteLength_eq_zero.mp (List.cons_ne_nil _ _)), signs_eq]
    rfl

theorem callName_eq (hd : src.Holds d) (loc : Location) :
    callName loc (src.point d) =
      sliced (fun (name, computed, e) => (name, computed, src.point e)) (Rule.callName loc d) := by
  rw [callName, Rule.callName, hd.startsWith, ok_bind, hd.rest, ok_bind]
  by_cases hs : d.startsWith "#\x7b"
  · rw [if_pos hs, if_pos hs, inside_brace hd hs]
    cases (d.skip 2).inside .curly <;> rfl
  · rw [if_neg hs, if_neg hs]
    dsimp only
    by_cases hnil : d.word = []
    · rw [if_pos (wordLength_eq_zero.mpr hnil), if_pos hnil]
      rfl
    · rw [if_neg (mt wordLength_eq_zero.mp hnil), if_neg hnil, ok_bind, sliceTo_word, ok_bind,
        advance_word hd]
      rfl

theorem call_mirrors : call.Mirrors Rule.call := by
  intro src c width hc
  rw [call, ofMark, hc.startsWith, ok_bind, Rule.call]
  by_cases hs : c.startsWith "+"
  · have hhere := (hc.skip 1).skipIndent
    rw [if_pos hs, if_pos hs, advance_mark hc "+" 1 (by decide) hs, (hc.skip 1).skipIndent_eq,
      ok_bind, hc.location, callName_eq hhere]
    cases hname : Rule.callName c.loc (c.skip 1).skipIndent with
    | error e => rfl
    | ok r =>
      obtain ⟨name, computed, d⟩ := r
      have hd := hc.reaches ((Rule.reads_callName (c.reaches_skip 1).skipIndent).of_ok hname)
      rw [sliced, ok_bind]
      dsimp only
      rw [hd.startsWith, ok_bind]
      by_cases hparen : d.startsWith "("
      · -- the parenthesis is cut out to be looked at, and passed only if it holds arguments
        rw [if_pos hparen, if_pos hparen, closing_paren hd hparen, Source.source_point]
        cases hin : (d.skip 1).inside .round with
        | error e => rfl
        | ok r =>
          obtain ⟨content, e⟩ := r
          obtain ⟨-, hslice, hmove⟩ := paren_ok hd hparen hin
          rw [sliced, ok_bind]
          dsimp only
          rw [hslice, ok_bind, looksLikeAttributes_eq, ok_bind, hmove]
          split <;> rfl
      · rw [if_neg hparen, if_neg hparen]
        rfl
  · rw [if_neg hs, if_neg hs]
    rfl

theorem filterBody_eq (hd : src.Holds d) (width : Nat) (tokens : List Token) :
    filterBody width tokens (src.point d) = src.answer (Rule.filterBody width tokens d) := by
  rw [filterBody, hd.restOfLine, ok_bind, hd.skipLine_eq, ok_bind, Pipeless.scan_eq hd.skipLine,
    Rule.filterBody, answer_ite]
  cases Pipeless.read false width d.skipLine <;> rfl

theorem filter_mirrors : filter.Mirrors Rule.filter := by
  intro src c width hc
  rw [filter, hc.startsWith, ok_bind, Rule.filter]
  dsimp only
  by_cases hs : c.startsWith ":"
  · have hm : [':'] <+: c.rest := List.isPrefixOf_iff_prefix.mp hs
    -- a colon with no word behind it is left for another scan
    obtain ⟨hcut, hname, hmove⟩ := word_behind hc hm (by decide) (by decide)
    rw [if_pos hs, hc.rest, ok_bind, hcut, ok_bind, hs, Bool.true_and, ok_bind, hname, ok_bind]
    rw [hmove, hc.location]
    have hbehind := hc.skip (1 + (c.skip 1).word.length)
    cases hword : (c.skip 1).word with
    | nil =>
      rw [if_pos (wordLength_eq_zero.mpr hword)]
      rfl
    | cons x xs =>
      have hsome : (!(c.skip 1).word.isEmpty) = true := by
        rw [hword]
        rfl
      have hne : wordLength (c.skip 1).rest ≠ 0 := by
        rw [Ne, wordLength_eq_zero, hword]
        exact List.cons_ne_nil _ _
      rw [← hword, if_neg hne, if_pos hsome, hbehind.startsWith, ok_bind]
      by_cases hparen : (c.skip (1 + (c.skip 1).word.length)).startsWith "("
      · rw [if_pos hparen, if_pos hparen, attributeList_eq hbehind hparen]
        cases hlist : Rule.attributeList (c.skip (1 + (c.skip 1).word.length)) with
        | error e => rfl
        | ok r =>
          obtain ⟨tokens, e⟩ := r
          rw [Source.answer, sliced, ok_bind]
          dsimp only
          have hold := hbehind.reaches ((Rule.readsOn_attributeList _).of_ok hlist).reaches
          rw [filterBody_eq hold, answered]
      · rw [if_neg hparen, if_neg hparen, filterBody_eq hbehind, answered]
  · rw [if_neg hs, Bool.eq_false_iff.mpr hs]
    rfl

/-! ### Code -/

theorem codeWith_mirrors (flag : String) (hflag : '\n' ∉ flag.toList) (buffered escape : Bool) :
    (codeWith flag buffered escape).Mirrors fun _ c =>
      if c.startsWith flag then some (Rule.codeWith flag buffered escape c) else none :=
  ofMark_mirrors fun {src c} _ hc hs => by
    have hbehind := hc.skip flag.toList.length
    rw [hc.advance (List.isPrefixOf_iff_prefix.mp hs) hflag]
    dsimp only
    rw [hbehind.restOfLine, ok_bind, hbehind.skipLine_eq, ok_bind, hc.location, Rule.codeWith,
      answer_ite]
    rfl

theorem code_mirrors : code.Mirrors Rule.code := by
  have h := first_mirrors <| .cons (codeWith_mirrors "!=" (by decide) true false).alone <|
    .cons (codeWith_mirrors "=" (by decide) true true).alone <|
    .cons (codeWith_mirrors "-" (by decide) false false).alone .nil
  refine h.congr fun width c => ?_
  rw [Rule.code]
  dsimp only [Rule.first, List.flatten, List.append, List.findSome?]
  cases c.startsWith "!=" <;> cases c.startsWith "=" <;> cases c.startsWith "-" <;> rfl

/-! ### Text and comments -/

theorem pipe_mirrors : pipe.Mirrors fun _ c =>
    if c.startsWith "|" then some (
      Rule.restAsText .text
        (if (c.skip 1).startsWith " " then (c.skip 1).skip 1 else c.skip 1))
    else none :=
  ofMark_mirrors fun {src c} _ hc hs => by
    have hbehind := hc.skip 1
    rw [advance_mark hc "|" 1 (by decide) hs]
    dsimp only
    rw [hbehind.consume (by decide), ok_bind]
    by_cases hspace : (c.skip 1).startsWith " "
    · rw [if_pos hspace, if_pos hspace]
      exact restAsText_eq (hbehind.skip 1) .text
    · rw [if_neg hspace, if_neg hspace]
      exact restAsText_eq hbehind .text

theorem blankText_mirrors : blankText.Mirrors fun _ c =>
    if c.startsWith " " then some (
      if allBlank c.line then .ok ([], c.skipLine) else Rule.restAsText .text (c.skip 1))
    else none :=
  ofMark_mirrors fun {src c} _ hc hs => by
    rw [hc.restOfLine, ok_bind, hc.skipLine_eq, ok_bind, advance_mark hc " " 1 (by decide) hs,
      restAsText_eq (hc.skip 1), answer_ite]
    rfl

theorem text_mirrors : text.Mirrors Rule.text := by
  have h := first_mirrors (.cons pipe_mirrors.alone (.cons blankText_mirrors.alone .nil))
  refine h.congr fun width c => ?_
  rw [Rule.text]
  dsimp only [Rule.first, List.flatten, List.append, List.findSome?]
  by_cases hpipe : c.startsWith "|"
  · rw [if_pos hpipe, if_pos hpipe]
  · rw [if_neg hpipe, if_neg hpipe]
    split
    · split <;> rfl
    · rfl

theorem html_mirrors : html.Mirrors Rule.html :=
  ofMark_mirrors fun _ hc _ => restAsText_eq hc _

theorem comment_mirrors : comment.Mirrors Rule.comment := by
  have hmark : comment.Mirrors fun width c =>
      if c.startsWith "//" then some (
        let d := c.skip 2
        let buffered := !d.startsWith "-"
        let d := if buffered then d else d.skip 1
        Rule.withPipeless false width ⟨.comment (String.ofList d.line) buffered, c.loc⟩ d.skipLine)
      else none :=
    ofMark_mirrors fun {src c} width hc hs => by
      have hbehind := hc.skip 2
      rw [advance_mark hc "//" 2 (by decide) hs]
      dsimp only
      rw [hbehind.consume (by decide), ok_bind, hc.location]
      by_cases hhyphen : (c.skip 2).startsWith "-"
      · have hold := hbehind.skip 1
        rw [if_pos hhyphen, hhyphen, show "-".toList.length = 1 from rfl]
        dsimp only [Option.getD]
        rw [hold.restOfLine, ok_bind, hold.skipLine_eq, ok_bind, withPipeless_eq hold.skipLine]
        rfl
      · rw [if_neg hhyphen, Bool.eq_false_iff.mpr hhyphen]
        dsimp only [Option.getD]
        rw [hbehind.restOfLine, ok_bind, hbehind.skipLine_eq, ok_bind,
          withPipeless_eq hbehind.skipLine]
        rfl
  refine hmark.congr fun width c => ?_
  rw [Rule.comment]

/-! ## All scans -/

/-- What no rule applies to is refused, whatever its rule. -/
theorem unexpected_eq (hc : src.Holds c) (width : Nat) :
    unexpected width (src.point c) =
      src.attempt (some (Rule.refuse (.unexpectedText (String.ofList (c.rest.take 5))) c.loc)) := by
  rw [unexpected, hc.rest, ok_bind, hc.location]
  rfl

/-- The rules that each scan stands for. -/
def ruleGroups : List (List Rule) :=
  [[Rule.yieldWord], [Rule.doctype], [Rule.interpolation], [Rule.switch], [Rule.when],
    [Rule.defaultWord], [Rule.inherits], [Rule.block], [Rule.includes], [Rule.mixin], [Rule.call],
    [Rule.otherwise, Rule.ifCond, Rule.unlessCond],
    [Rule.eachWith .each, Rule.eachWith .forEach], [Rule.loop], [Rule.tag], [Rule.filter],
    [Rule.codeBlock], [Rule.code], [Rule.id], [Rule.dot], [Rule.className], [Rule.attributes],
    [Rule.spread], [Rule.text], [Rule.html], [Rule.comment], [Rule.slash], [Rule.colon]]

/-- The first scan that applies does what the first rule that applies does, and one always does. -/
theorem inLine_mirrors : (first inLine).Mirrors fun width c => some (Rule.read width c) := by
  have hgroups : List.Forall₂ (fun scan rules => scan.Mirrors (Rule.first rules))
      readers ruleGroups :=
    .cons yieldWord_mirrors.alone <| .cons doctype_mirrors.alone <|
    .cons interpolation_mirrors.alone <| .cons (expression_mirrors _ _).alone <|
    .cons when_mirrors.alone <| .cons defaultWord_mirrors.alone <|
    .cons inherits_mirrors.alone <| .cons block_mirrors.alone <| .cons includes_mirrors.alone <|
    .cons mixin_mirrors.alone <| .cons call_mirrors.alone <| .cons conditional_mirrors <|
    .cons each_mirrors <| .cons (expression_mirrors _ _).alone <| .cons tag_mirrors.alone <|
    .cons filter_mirrors.alone <| .cons codeBlock_mirrors.alone <| .cons code_mirrors.alone <|
    .cons id_mirrors.alone <| .cons dot_mirrors.alone <| .cons className_mirrors.alone <|
    .cons attributes_mirrors.alone <| .cons spread_mirrors.alone <| .cons text_mirrors.alone <|
    .cons html_mirrors.alone <| .cons comment_mirrors.alone <| .cons slash_mirrors.alone <|
    .cons colon_mirrors.alone .nil
  intro src c width hc
  have hall : ruleGroups.flatten = Rule.all := rfl
  have hread := first_mirrors hgroups src c width hc
  rw [hall] at hread
  -- the last scan is reached just where no rule applies
  rw [inLine, first_append, hread]
  show _ = src.attempt (some ((Rule.first Rule.all width c).getD _))
  cases Rule.first Rule.all width c with
  | none =>
    rw [Source.attempt, ok_bind]
    dsimp only
    rw [first, unexpected_eq hc]
    rfl
  | some r => cases r <;> rfl

end Scan

end PugTemplate
