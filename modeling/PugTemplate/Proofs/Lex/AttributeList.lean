import PugTemplate.Proofs.Expr.Ending
import PugTemplate.Proofs.Expr.Print
import PugTemplate.Proofs.Lex.Expansion
import PugTemplate.Proofs.Lex.Local

/-!
# Attributes as they are written

A list of attributes, with blanks and commas around them at will, lexes to these attributes. Three
scans look at it: one for the parenthesis that closes the list, one for the names, one for the end of
each value. Main statement: `lex_attributes`.
-/

namespace PugTemplate

/-! ## What is written -/

/-- A character of an attribute's name. -/
def isAttributeChar (c : Char) : Bool :=
  isLetter c || isNumeral c || "-_:.@".toList.contains c

/-- An attribute with the text of its value, if it has one, and whether that is to be escaped. -/
structure AttributeEntry where
  name : String
  value : Option (Bool × String)

namespace AttributeEntry

/-- The mark in front of a value. -/
def mark (escape : Bool) : List Char :=
  if escape then ['='] else ['!', '=']

/-- What stands behind the name. -/
def suffix (e : AttributeEntry) : List Char :=
  match e.value with
  | none => []
  | some (escape, v) => mark escape ++ v.toList

def text (e : AttributeEntry) : List Char :=
  e.name.toList ++ e.suffix

def kind (e : AttributeEntry) : TokenKind :=
  match e.value with
  | none => .attr e.name none true
  | some (escape, v) => .attr e.name (some v) escape

/-- The name begins with a letter of ASCII or an underscore. The value is read as an expression and
has its blanks inside brackets and literals. -/
structure Sound (e : AttributeEntry) : Prop where
  name : ∃ c cs, e.name.toList = c :: cs ∧ isAsciiLetterOrUnderscore c ∧ ∀ d ∈ cs, isAttributeChar d
  value : ∀ escape v, e.value = some (escape, v) →
    (∃ x, Expr.read v.toList = .ok x) ∧ '\r' ∉ v.toList ∧ Nesting.Compact [] v.toList

end AttributeEntry

open Attribute (isSeparator)

/-- A text of attributes with blanks and commas before, behind and between them. -/
inductive AttributeRow : List Char → List AttributeEntry → Prop where
  | last {sep : List Char} (hsep : ∀ c ∈ sep, isSeparator c) : AttributeRow sep []
  | more {sep text : List Char} {e : AttributeEntry} {es : List AttributeEntry}
      (hsep : ∀ c ∈ sep, isSeparator c) (he : e.Sound) (hend : text.head?.all isSeparator)
      (h : AttributeRow text es) : AttributeRow (sep ++ (e.text ++ text)) (e :: es)

/-! ## Names -/

theorem isAttributeChar_loud : Nesting.loud.any isAttributeChar = false := rfl

theorem isAttributeChar_blanks : ∀ n ∈ blanks, isAttributeChar (Char.ofNat n) = false := by
  decide +kernel

theorem isAttributeChar_of_start {c : Char} (h : isAsciiLetterOrUnderscore c) :
    isAttributeChar c := by
  rcases (Bool.or_eq_true _ _).mp h with h | h
  · rw [isAttributeChar, isLetter_of_isAlpha h]
    rfl
  · rw [eq_of_beq h]
    rfl

theorem not_isSeparator_of_isAttributeChar {c : Char} (h : isAttributeChar c) :
    isSeparator c = false := by
  rw [isSeparator, not_isBlank_of isAttributeChar_blanks h, Bool.false_or]
  refine beq_false_of_ne ?_
  rintro rfl
  exact nomatch h

namespace AttributeEntry

variable {e : AttributeEntry} {tail : List Char}

theorem Sound.exists_cons (he : e.Sound) : ∃ c cs, e.name.toList = c :: cs ∧
    isAsciiLetterOrUnderscore c ∧ ∀ d ∈ e.name.toList, isAttributeChar d := by
  obtain ⟨c, cs, hname, hc, hcs⟩ := he.name
  refine ⟨c, cs, hname, hc, ?_⟩
  rw [hname]
  exact List.forall_mem_cons.mpr ⟨isAttributeChar_of_start hc, hcs⟩

theorem plainName_append {name : List Char} (hname : ∀ c ∈ name, isAttributeChar c)
    (htail : Attribute.plainName tail = []) : Attribute.plainName (name ++ tail) = name := by
  induction name with
  | nil => exact htail
  | cons c cs ih =>
    obtain ⟨hc, hcs⟩ := List.forall_mem_cons.mp hname
    have hne {d : Char} (hd : isAttributeChar d = false) : (c == d) = false := by
      refine beq_false_of_ne ?_
      rintro rfl
      exact nomatch hd.symm.trans hc
    rw [List.cons_append, Attribute.plainName, not_isSeparator_of_isAttributeChar hc,
      hne (d := '=') rfl, hne (d := '!') rfl, ih hcs]
    rfl

theorem Sound.readName_append (he : e.Sound) (htail : Attribute.plainName tail = []) (loc : Location) :
    Attribute.readName loc (e.name.toList ++ tail) =
      .ok (e.name.toList, e.name.toList.length) := by
  obtain ⟨c, cs, hname, hc, hall⟩ := he.exists_cons
  have hquote : ¬ (c = '\'' ∨ c = '"') := by
    rintro (rfl | rfl) <;> exact nomatch hc
  have hplain := plainName_append hall htail
  rw [hname] at hplain ⊢
  rw [List.cons_append] at hplain ⊢
  rw [Attribute.readName, if_neg hquote, hplain]

end AttributeEntry

/-! ## What follows an attribute -/

theorem of_head?_trimStart {cs : List Char} {c : Char} (h : c ∈ (trimStart cs).head?) :
    c ∈ cs ∧ isBlank c = false := by
  have hnot := List.head?_dropWhile_not isBlank cs
  rw [← trimStart, h] at hnot
  exact ⟨(List.dropWhile_sublist isBlank).mem (List.mem_of_head? h), hnot⟩

/-- Behind blanks a row is at its end, or goes on with a comma or a name. -/
theorem AttributeRow.head_trimStart {text : List Char} {es : List AttributeEntry}
    (h : AttributeRow text es) :
    ∀ c ∈ (trimStart text).head?, c = ',' ∨ isAsciiLetterOrUnderscore c := by
  have hcomma {sep : List Char} (hsep : ∀ c ∈ sep, isSeparator c) :
      ∀ c ∈ (trimStart sep).head?, c = ',' := by
    intro c hc
    obtain ⟨hmem, hblank⟩ := of_head?_trimStart hc
    have hc := hsep c hmem
    rwa [isSeparator, hblank, Bool.false_or, beq_iff_eq] at hc
  cases h with
  | last hsep => exact fun c hc => .inl (hcomma hsep c hc)
  | @more sep text e es hsep he =>
    obtain ⟨a, as, hname, ha, hall⟩ := he.exists_cons
    have hblank := not_isBlank_of isAttributeChar_blanks (isAttributeChar_of_start ha)
    intro c hc
    rw [trimStart, List.dropWhile_append] at hc
    split at hc
    next =>
      rw [AttributeEntry.text, hname, List.cons_append, List.cons_append,
        List.dropWhile_cons_of_neg (by simp [hblank])] at hc
      cases hc
      exact .inr ha
    next hne =>
      rw [List.head?_append] at hc
      cases hd : (sep.dropWhile isBlank).head? with
      | none => exact absurd (List.isEmpty_iff.mpr (List.head?_eq_none_iff.mp hd)) hne
      | some d =>
        rw [hd] at hc
        cases hc
        exact .inl (hcomma hsep _ hd)

namespace AttributeRow

variable {text : List Char} {es : List AttributeEntry}

theorem mark?_eq_none (h : AttributeRow text es) : Attribute.mark? text = none := by
  have hhead := h.head_trimStart
  rw [Attribute.mark?, drop_takeWhile]
  rw [trimStart] at hhead
  split
  next heq =>
    rw [heq] at hhead
    rcases hhead _ rfl with h | h <;> cases h
  next heq =>
    rw [heq] at hhead
    rcases hhead _ rfl with h | h <;> cases h
  next => rfl

theorem plainName_eq_nil (hend : text.head?.all isSeparator) : Attribute.plainName text = [] := by
  cases text with
  | nil => rfl
  | cons c cs =>
    rw [Attribute.plainName, show isSeparator c = true from hend]
    rfl

/-- No blank behind a value carries it on. -/
theorem valueText_stop (h : AttributeRow text es) (hend : text.head?.all isSeparator) {last : Char}
    (hlast : isOperatorChar last = false) :
    Attribute.valueText [] (some last) text = .ok [] := by
  cases text with
  | nil => rfl
  | cons c cs =>
    rw [Attribute.valueText]
    by_cases hcomma : c = ','
    · rw [if_pos ⟨rfl, hcomma⟩]
    · have hblank : isBlank c = true := by
        have hsep : isSeparator c = true := hend
        rwa [isSeparator, beq_false_of_ne hcomma, Bool.or_false] at hsep
      have hnext : (trimStart cs).head?.any (fun n => isOperatorChar n && n != '-') = false := by
        have hhead := h.head_trimStart
        rw [trimStart, List.dropWhile_cons_of_pos hblank, ← trimStart] at hhead
        cases hn : (trimStart cs).head? with
        | none => rfl
        | some n =>
          rcases hhead n hn with rfl | hn
          · rfl
          · have hn := not_isOperatorChar_of (p := isAsciiLetterOrUnderscore) (by decide) hn
            rw [Option.any_some, hn, Bool.false_and]
      rw [if_neg fun hand => hcomma hand.2, if_pos ⟨rfl, hblank⟩]
      simp [hlast, hnext]

end AttributeRow

/-! ## Values -/

open Nesting (Passes Compact)

/-- The last character of a text that is not blank, or what was the last one before. -/
def lastShown (last : Option Char) (cs : List Char) : Option Char :=
  cs.foldl (fun last c => if isBlank c then last else some c) last

/-- No value ends on the way through a text. -/
theorem valueText_append {open_ inner : List Enclosure} {cs tail behind : List Char}
    (h : Passes open_ cs inner) (hcs : Compact open_ cs) {last : Option Char}
    (htail : Attribute.valueText inner (lastShown last cs) tail = .ok behind) :
    Attribute.valueText open_ last (cs ++ tail) = .ok (cs ++ behind) := by
  induction h generalizing last with
  | nil => exact htail
  | @cons open_ mid inner c cs hc hcomma h ih =>
    have hblank : ¬ (open_ = [] ∧ isBlank c = true) := by
      rintro ⟨rfl, hblank⟩
      exact nomatch hblank.symm.trans (hcs [] c cs rfl rfl)
    have hrest := ih (hcs.tail (.cons hc hcomma (.nil _))) htail
    rw [List.cons_append, Attribute.valueText, if_neg fun hand => hcomma hand.2 hand.1]
    dsimp only
    rw [if_neg hblank, hc]
    dsimp only
    rw [hrest]
    rfl

theorem lastShown_of_getLast? {cs : List Char} {d : Char} (h : cs.getLast? = some d)
    (hd : isBlank d = false) (last : Option Char) : lastShown last cs = some d := by
  obtain ⟨ds, rfl⟩ := List.getLast?_eq_some_iff.mp h
  rw [lastShown, List.foldl_append, List.foldl_cons, List.foldl_nil, hd]
  rfl

theorem trim_eq_self {cs : List Char} {c d : Char} (hc : cs.head? = some c)
    (hd : cs.getLast? = some d) (hblank : isBlank c = false) (hblank' : isBlank d = false) :
    trim cs = cs := by
  obtain ⟨ds, hds⟩ := List.getLast?_eq_some_iff.mp hd
  obtain ⟨more, rfl⟩ := List.head?_eq_some_iff.mp hc
  have hlast : allBlank [d] = false := by rw [allBlank, List.all_cons, hblank', Bool.false_and]
  rw [trim_cons hblank, hds, trimEnd_append hlast,
    trimEnd_eq_self (List.forall_mem_singleton.mpr hblank')]

namespace AttributeEntry

variable {e : AttributeEntry} {escape : Bool} {v : String}

/-- What the value of an attribute begins and ends with, and that the scans pass it. -/
theorem Sound.exists_ends (he : e.Sound) (hv : e.value = some (escape, v)) :
    ∃ c d, v.toList.head? = some c ∧ isBlank c = false ∧ v.toList.getLast? = some d ∧
      isBlank d = false ∧ isOperatorChar d = false := by
  obtain ⟨⟨x, hx⟩, -, hcompact⟩ := he.value escape v hv
  obtain ⟨d, hd, hblank, hoperator⟩ := Expr.exists_last_read hx hcompact
  cases hcs : v.toList with
  | nil =>
    rw [hcs] at hd
    exact nomatch hd
  | cons c cs =>
    rw [hcs] at hd
    exact ⟨c, d, rfl, hcompact [] c cs hcs rfl, hd, hblank, hoperator⟩

theorem mark?_append (escape : Bool) (rest : List Char) :
    Attribute.mark? (mark escape ++ rest) = some (escape, (mark escape).length) := by
  cases escape <;> rfl

theorem plainName_mark (escape : Bool) (rest : List Char) :
    Attribute.plainName (mark escape ++ rest) = [] := by
  cases escape <;> rfl

end AttributeEntry

/-! ## The list -/

namespace AttributeRow

variable {text : List Char} {es : List AttributeEntry}

theorem takeWhile_isSeparator {sep : List Char} {e : AttributeEntry}
    (hsep : ∀ c ∈ sep, isSeparator c) (he : e.Sound) (tail : List Char) :
    (sep ++ (e.text ++ tail)).takeWhile isSeparator = sep := by
  obtain ⟨c, cs, hname, hc, -⟩ := he.exists_cons
  rw [AttributeEntry.text, hname, List.cons_append, List.cons_append]
  exact takeWhile_append_cons hsep
    (not_isSeparator_of_isAttributeChar (isAttributeChar_of_start hc)) _

section Entry

variable {e : AttributeEntry} {c here : Cursor}

theorem name_ne_nil (he : e.Sound) : e.name.toList ≠ [] := by
  obtain ⟨a, as, hname, -, -⟩ := he.exists_cons
  rw [hname]
  exact List.cons_ne_nil a as

theorem readList_cons_bare (he : e.Sound) (hv : e.value = none)
    (hend : text.head?.all isSeparator) (h : AttributeRow text es)
    (hhere : here = c.skip (c.rest.takeWhile isSeparator).length)
    (hrest : here.rest = e.name.toList ++ text) :
    ∃ t next, t.kind = e.kind ∧ next.rest = text ∧
      Attribute.readList c = (t :: ·) <$> Attribute.readList next := by
  have hn := name_ne_nil he
  have hne : here.rest ≠ [] := hrest ▸ List.append_ne_nil_of_left_ne_nil hn _
  have hbehind : (here.skip e.name.toList.length).rest = text := by
    rw [Cursor.rest_skip, hrest, List.drop_left]
  have hread := he.readName_append (plainName_eq_nil hend) here.loc
  rw [← hrest] at hread
  have hmark : Attribute.mark? (here.skip e.name.toList.length).rest = none := by
    rw [hbehind]
    exact h.mark?_eq_none
  refine ⟨_, _, ?_, hbehind, Attribute.readList_bare hhere hne hread hn hmark⟩
  rw [AttributeEntry.kind, hv, Attribute.token, String.ofList_toList]
  rfl

theorem readList_cons_value {escape : Bool} {v : String} (he : e.Sound)
    (hv : e.value = some (escape, v)) (hend : text.head?.all isSeparator) (h : AttributeRow text es)
    (hhere : here = c.skip (c.rest.takeWhile isSeparator).length)
    (hrest : here.rest = e.name.toList ++ (AttributeEntry.mark escape ++ (v.toList ++ text))) :
    ∃ t next, t.kind = e.kind ∧ next.rest = text ∧
      Attribute.readList c = (t :: ·) <$> Attribute.readList next := by
  have hn := name_ne_nil he
  have hne : here.rest ≠ [] := hrest ▸ List.append_ne_nil_of_left_ne_nil hn _
  have hbehind : (here.skip e.name.toList.length).rest =
      AttributeEntry.mark escape ++ (v.toList ++ text) := by
    rw [Cursor.rest_skip, hrest, List.drop_left]
  have hread := he.readName_append (AttributeEntry.plainName_mark escape (v.toList ++ text)) here.loc
  rw [← hrest] at hread
  have hmark := AttributeEntry.mark?_append escape (v.toList ++ text)
  rw [← hbehind] at hmark
  obtain ⟨start, hstart⟩ : ∃ start,
      start = (here.skip e.name.toList.length).skip (AttributeEntry.mark escape).length := ⟨_, rfl⟩
  have hvalue : start.rest = v.toList ++ text := by
    rw [hstart, Cursor.rest_skip, hbehind, List.drop_left]
  obtain ⟨first, last, hfirst, hblank, hlast, hblank', hoperator⟩ := he.exists_ends hv
  obtain ⟨⟨x, hx⟩, -, hcompact⟩ := he.value escape v hv
  -- no blank stands between the mark and the value
  have hskip : start = start.skip (start.rest.takeWhile isBlank).length := by
    obtain ⟨more, hmore⟩ := List.head?_eq_some_iff.mp hfirst
    rw [hvalue, hmore, List.cons_append, List.takeWhile_cons_of_neg (by simp [hblank]),
      List.length_nil, Cursor.skip_zero]
  have htext : Attribute.valueText [] none start.rest = .ok v.toList := by
    have hstop := h.valueText_stop hend hoperator
    rw [← lastShown_of_getLast? hlast hblank' none] at hstop
    have hwhole := valueText_append (Expr.passes_read hx) hcompact hstop
    rwa [List.append_nil, ← hvalue] at hwhole
  have htrim := trim_eq_self hfirst hlast hblank hblank'
  have hshown : trim v.toList ≠ [] := by
    rw [htrim]
    rintro hnil
    rw [hnil] at hfirst
    exact nomatch hfirst
  refine ⟨_, _, ?_, ?_, Attribute.readList_value hhere hne hread hn hmark (hstart ▸ hskip) htext hshown⟩
  · rw [AttributeEntry.kind, hv, htrim, Attribute.token, String.ofList_toList, Option.map_some,
      String.ofList_toList]
  · rw [Cursor.rest_skip, hvalue, List.drop_left]

/-- An attribute is read as it is written, and reading goes on behind it. -/
theorem readList_cons (he : e.Sound) (hend : text.head?.all isSeparator) (h : AttributeRow text es)
    (hhere : here = c.skip (c.rest.takeWhile isSeparator).length)
    (hrest : here.rest = e.text ++ text) :
    ∃ t next, t.kind = e.kind ∧ next.rest = text ∧
      Attribute.readList c = (t :: ·) <$> Attribute.readList next := by
  rw [AttributeEntry.text, AttributeEntry.suffix] at hrest
  cases hv : e.value with
  | none =>
    rw [hv, List.append_nil] at hrest
    exact readList_cons_bare he hv hend h hhere hrest
  | some value =>
    rw [hv, List.append_assoc, List.append_assoc] at hrest
    exact readList_cons_value he hv hend h hhere hrest

end Entry

/-- A row is read as the attributes that are written in it. -/
theorem readList_eq (h : AttributeRow text es) {c : Cursor} (hc : c.rest = text) :
    ∃ ts, Attribute.readList c = .ok ts ∧ ts.map Token.kind = es.map AttributeEntry.kind := by
  induction h generalizing c with
  | @last sep hsep =>
    have hhere : (c.skip (c.rest.takeWhile isSeparator).length).rest = [] := by
      rw [hc, List.takeWhile_eq_self_iff.mpr hsep, Cursor.rest_skip, hc, List.drop_length]
    refine ⟨[], ?_, rfl⟩
    rw [Attribute.readList]
    dsimp only
    rw [if_pos hhere]
  | @more sep text e es hsep he hend h ih =>
    have hrest : (c.skip (c.rest.takeWhile isSeparator).length).rest = e.text ++ text := by
      rw [Cursor.rest_skip, hc, takeWhile_isSeparator hsep he, List.drop_left]
    obtain ⟨t, next, hkind, hnext, hread⟩ := readList_cons he hend h rfl hrest
    obtain ⟨ts, hts, hkinds⟩ := ih hnext
    exact ⟨t :: ts, by rw [hread, hts]; rfl, by rw [List.map_cons, List.map_cons, hkind, hkinds]⟩

end AttributeRow

/-! ## The parenthesis behind the list -/

/-- A text that stands in parentheses without closing them. -/
def Held (cs : List Char) : Prop :=
  ∀ rest content, Nesting.untilClosed [.bracket .round] rest = .ok content →
    Nesting.untilClosed [.bracket .round] (cs ++ rest) = .ok (cs ++ content)

theorem Held.append {cs ds : List Char} (h : Held cs) (h' : Held ds) : Held (cs ++ ds) := by
  intro rest content hrest
  rw [List.append_assoc, List.append_assoc]
  exact h _ _ (h' _ _ hrest)

theorem held_of_passes {cs : List Char} (h : Passes [] cs []) : Held cs :=
  fun _ _ hrest => h.untilClosed hrest

theorem held_comma : Held [','] := by
  intro rest content hrest
  have hfeed : Nesting.feed [.bracket .round] ',' = .ok [.bracket .round] := rfl
  rw [List.singleton_append, Nesting.untilClosed, hfeed]
  dsimp only
  rw [hrest]
  rfl

theorem held_of_isQuiet {cs : List Char} (h : ∀ c ∈ cs, Nesting.isQuiet c) : Held cs :=
  held_of_passes (Nesting.passes_of_isQuiet trivial h)

theorem held_separators {sep : List Char} (hsep : ∀ c ∈ sep, isSeparator c) : Held sep := by
  induction sep with
  | nil => exact fun _ _ hrest => hrest
  | cons c sep ih =>
    obtain ⟨hc, hsep⟩ := List.forall_mem_cons.mp hsep
    show Held ([c] ++ sep)
    refine Held.append ?_ (ih hsep)
    rcases (Bool.or_eq_true _ _).mp hc with hc | hc
    · exact held_of_isQuiet (List.forall_mem_singleton.mpr (Nesting.isQuiet_of rfl hc))
    · rw [eq_of_beq hc]
      exact held_comma

theorem AttributeEntry.Sound.held {e : AttributeEntry} (he : e.Sound) : Held e.text := by
  obtain ⟨_, _, -, -, hall⟩ := he.exists_cons
  have hname : Held e.name.toList :=
    held_of_isQuiet fun c hc => Nesting.isQuiet_of isAttributeChar_loud (hall c hc)
  refine hname.append ?_
  rw [AttributeEntry.suffix]
  cases hv : e.value with
  | none => exact fun _ _ hrest => hrest
  | some value =>
    obtain ⟨escape, v⟩ := value
    obtain ⟨⟨x, hx⟩, -, -⟩ := he.value escape v hv
    refine Held.append (held_of_isQuiet ?_) (held_of_passes (Expr.passes_read hx))
    cases escape <;> exact List.all_eq_true.mp rfl

theorem AttributeRow.held {text : List Char} {es : List AttributeEntry} (h : AttributeRow text es) :
    Held text := by
  induction h with
  | last hsep => exact held_separators hsep
  | more hsep he _ _ ih => exact (held_separators hsep).append (he.held.append ih)

theorem AttributeRow.inside_eq {text : List Char} {es : List AttributeEntry}
    (h : AttributeRow text es) : Nesting.inside .round (text ++ [')']) = .ok text := by
  have hclosed := h.held [')'] [] rfl
  rwa [List.append_nil] at hclosed

/-! ## Line ends -/

theorem unifyLineEnds_cons {c : Char} (hc : c ≠ '\r') (cs : List Char) :
    unifyLineEnds (c :: cs) = c :: unifyLineEnds cs := by
  simp [unifyLineEnds, hc]

theorem unifyLineEnds_return {cs : List Char} (h : cs.head? ≠ some '\n') :
    unifyLineEnds ('\r' :: cs) = '\n' :: unifyLineEnds cs := by
  cases cs with
  | nil => rfl
  | cons c cs =>
    have hc : c ≠ '\n' := fun hc => h (congrArg some hc)
    simp [unifyLineEnds, hc]

theorem unifyLineEnds_append {cs : List Char} (hcs : '\r' ∉ cs) (rest : List Char) :
    unifyLineEnds (cs ++ rest) = cs ++ unifyLineEnds rest := by
  induction cs with
  | nil => rfl
  | cons c cs ih =>
    obtain ⟨hc, hcs⟩ := not_or.mp (mt List.mem_cons.mpr hcs)
    rw [List.cons_append, unifyLineEnds_cons (Ne.symm hc), ih hcs, List.cons_append]

/-- Blanks and commas stay what they are. -/
theorem exists_unify_separators {sep rest : List Char} (hsep : ∀ c ∈ sep, isSeparator c)
    (hrest : rest.head? ≠ some '\n') :
    ∃ sep', unifyLineEnds (sep ++ rest) = sep' ++ unifyLineEnds rest ∧
      (∀ c ∈ sep', isSeparator c) ∧ (sep' = [] → sep = []) := by
  match sep with
  | [] => exact ⟨[], rfl, nofun, fun _ => rfl⟩
  | c :: sep =>
    obtain ⟨hc, hrow⟩ := List.forall_mem_cons.mp hsep
    by_cases hpair : c = '\r' ∧ sep.head? = some '\n'
    · obtain ⟨rfl, hfeed⟩ := hpair
      obtain ⟨more, rfl⟩ := List.head?_eq_some_iff.mp hfeed
      obtain ⟨hfeed, hmore⟩ := List.forall_mem_cons.mp hrow
      obtain ⟨sep', heq, hall, -⟩ := exists_unify_separators hmore hrest
      exact ⟨'\n' :: sep', congrArg ('\n' :: ·) heq, List.forall_mem_cons.mpr ⟨hfeed, hall⟩, nofun⟩
    · obtain ⟨sep', heq, hall, -⟩ := exists_unify_separators hrow hrest
      by_cases hreturn : c = '\r'
      · subst hreturn
        have hhead : (sep ++ rest).head? ≠ some '\n' := by
          cases sep with
          | nil => exact hrest
          | cons d sep => exact fun hd => hpair ⟨rfl, hd⟩
        refine ⟨'\n' :: sep', ?_, List.forall_mem_cons.mpr ⟨rfl, hall⟩, nofun⟩
        rw [List.cons_append, unifyLineEnds_return hhead, heq, List.cons_append]
      · refine ⟨c :: sep', ?_, List.forall_mem_cons.mpr ⟨hc, hall⟩, nofun⟩
        rw [List.cons_append, unifyLineEnds_cons hreturn, heq, List.cons_append]
termination_by sep.length

theorem AttributeEntry.Sound.no_return {e : AttributeEntry} (he : e.Sound) : '\r' ∉ e.text := by
  obtain ⟨_, _, -, -, hall⟩ := he.exists_cons
  have hname : '\r' ∉ e.name.toList := fun hc => nomatch hall _ hc
  rw [AttributeEntry.text, AttributeEntry.suffix, List.mem_append, not_or]
  refine ⟨hname, ?_⟩
  cases hv : e.value with
  | none => exact List.not_mem_nil
  | some value =>
    obtain ⟨escape, v⟩ := value
    obtain ⟨-, hreturn, -⟩ := he.value escape v hv
    refine fun hc => (List.mem_append.mp hc).elim (fun hc => ?_) hreturn
    cases escape <;> exact absurd hc (by decide)

/-- With line feeds for its carriage returns a row is a row of the same attributes. -/
theorem AttributeRow.unify {text : List Char} {es : List AttributeEntry} (h : AttributeRow text es) :
    ∃ text', unifyLineEnds (text ++ [')']) = text' ++ [')'] ∧ AttributeRow text' es ∧
      (text.head?.all isSeparator → text'.head?.all isSeparator) := by
  have hheads {sep : List Char} (hsep : ∀ c ∈ sep, isSeparator c) (hne : sep ≠ [])
      (rest : List Char) : (sep ++ rest).head?.all isSeparator := by
    cases sep with
    | nil => exact absurd rfl hne
    | cons c sep => exact hsep c List.mem_cons_self
  induction h with
  | @last sep hsep =>
    have hround : [')'].head? ≠ some '\n' := by decide
    obtain ⟨sep', heq, hsep', -⟩ := exists_unify_separators hsep hround
    refine ⟨sep', heq, .last hsep', fun _ => ?_⟩
    by_cases hnil : sep' = []
    · rw [hnil]
      rfl
    · have h := hheads hsep' hnil []
      rwa [List.append_nil] at h
  | @more sep text e es hsep he hend h ih =>
    obtain ⟨text', htext, hrow, hend'⟩ := ih
    obtain ⟨a, as, hname, ha, -⟩ := he.exists_cons
    have hhead : e.text.head? = some a := by
      rw [AttributeEntry.text, hname]
      rfl
    have hfeed : (e.text ++ (text ++ [')'])).head? ≠ some '\n' := by
      rw [List.head?_append, hhead, Option.some_or]
      rintro ⟨⟩
      exact nomatch ha
    obtain ⟨sep', heq, hsep', hnil⟩ := exists_unify_separators hsep hfeed
    refine ⟨sep' ++ (e.text ++ text'), ?_, .more hsep' he (hend' hend) hrow, fun hstart => ?_⟩
    · rw [List.append_assoc, List.append_assoc, heq, unifyLineEnds_append he.no_return, htext,
        List.append_assoc, List.append_assoc]
    · refine hheads hsep' (fun hsep' => ?_) _
      -- a name is no separator
      rw [hnil hsep', List.nil_append, List.head?_append, hhead] at hstart
      have ha' := not_isSeparator_of_isAttributeChar (isAttributeChar_of_start ha)
      exact nomatch ha'.symm.trans hstart

/-! ## The tag in front -/

/-- A name that a tag may have in front of a parenthesis: no keyword stands in front of it. The words
`append` and `prepend` are left out as well: with more in their line they put a block in place. -/
structure IsTagName (name : List Char) : Prop where
  first : name.head?.any isWord
  last : name.getLast?.any isWord
  chars : ∀ c ∈ name, Rule.isTagChar c
  word : String.ofList (name.takeWhile isWordOrHyphen) ∉ "append" :: "prepend" :: keywords

/-- A keyword is the whole word that it stands in. -/
theorem Cursor.keyword?_eq_none {c : Cursor} {word : String}
    (hword : ∀ x ∈ word.toList, isWordOrHyphen x)
    (hne : c.rest.takeWhile isWordOrHyphen ≠ word.toList) : c.keyword? word = none := by
  rw [Cursor.keyword?]
  refine if_neg fun hcond => hne ?_
  rw [Bool.and_eq_true, Bool.not_eq_true'] at hcond
  obtain ⟨more, hmore⟩ := List.isPrefixOf_iff_prefix.mp hcond.1
  have hbehind := hcond.2
  rw [Cursor.rest_skip, ← hmore, List.drop_left] at hbehind
  rw [← hmore, List.takeWhile_append_of_pos hword]
  cases more with
  | nil => rw [List.takeWhile_nil, List.append_nil]
  | cons d more =>
    have hd : isWordOrHyphen d = false := hbehind
    rw [List.takeWhile_cons_of_neg (by simp [hd]), List.append_nil]

namespace IsTagName

variable {name rest : List Char} {c : Cursor}

theorem head (h : IsTagName name) : ∃ x xs, name = x :: xs ∧ isWord x := by
  have hfirst := h.first
  cases name with
  | nil => exact nomatch hfirst
  | cons x xs => exact ⟨x, xs, rfl, hfirst⟩

theorem keyword?_eq_none (h : IsTagName name) (hc : c.rest = name ++ '(' :: rest) {w : String}
    (hw : w ∈ "append" :: "prepend" :: keywords) : c.keyword? w = none := by
  have hwords : ∀ w ∈ "append" :: "prepend" :: keywords, w.toList.all isWordOrHyphen := by decide
  refine Cursor.keyword?_eq_none (List.all_eq_true.mp (hwords w hw)) fun heq => h.word ?_
  have htake : c.rest.takeWhile isWordOrHyphen = name.takeWhile isWordOrHyphen := by
    have hparen : ('(' :: rest).takeWhile isWordOrHyphen = [] := rfl
    rw [hc, List.takeWhile_append, hparen, List.append_nil]
    split
    next hlength => exact (List.takeWhile_prefix isWordOrHyphen).eq_of_length hlength |>.symm
    next => rfl
  rwa [← htake, heq, String.ofList_toList]

theorem tagName_eq (h : IsTagName name) (rest : List Char) :
    Rule.tagName (name ++ '(' :: rest) = name := by
  have hlast : name.reverse.dropWhile (fun c => c == '-' || c == ':') = name.reverse := by
    have hword := h.last
    rw [← List.head?_reverse] at hword
    cases hrev : name.reverse with
    | nil => rfl
    | cons d ds =>
      rw [hrev] at hword
      have hdash : d ≠ '-' := ne_of_isWord hword (by decide)
      have hcolon : d ≠ ':' := ne_of_isWord hword (by decide)
      exact List.dropWhile_cons_of_neg (by simp [hdash, hcolon])
  rw [Rule.tagName, takeWhile_append_cons h.chars rfl rest, hlast, List.reverse_reverse]

/-- The name of a tag is read up to the parenthesis. -/
theorem read_eq (h : IsTagName name) (hc : c.rest = name ++ '(' :: rest) (width : Nat) :
    Rule.read width c = .ok ([⟨.tag (String.ofList name), c.loc⟩], c.skip name.length) := by
  obtain ⟨x, xs, hname, hx⟩ := h.head
  have hhead : c.rest.head?.any isWord := by rw [hc, hname]; exact hx
  have hmode : Rule.blockMode? c = none := by
    rw [Rule.blockMode?, h.keyword?_eq_none hc (by decide), h.keyword?_eq_none hc (by decide)]
  have hbefore := Rule.before_tag_of hhead
    (fun w hw => h.keyword?_eq_none hc (List.mem_cons_of_mem _ (List.mem_cons_of_mem _ hw))) hmode
    width
  refine Rule.read_eq_of_before 17 rfl hbefore ?_
  rw [Rule.tag, if_pos hhead, hc, h.tagName_eq]
  rfl

theorem step_eq (h : IsTagName name) (hc : c.rest = name ++ '(' :: rest) (l : Layout) :
    l.step c = .ok ([⟨.tag (String.ofList name), c.loc⟩], l, c.skip name.length) := by
  obtain ⟨x, xs, rfl, hx⟩ := h.head
  exact Layout.step_of_read hc (ne_of_isWord hx (by decide)) (h.read_eq hc l.width)

end IsTagName

/-! ## In a source -/

namespace AttributeRow

variable {text : List Char} {es : List AttributeEntry}

/-- The tokens of a list in parentheses, with nothing behind it. -/
theorem attributeList_eq (h : AttributeRow text es) {c : Cursor}
    (hc : c.rest = '(' :: (text ++ [')'])) :
    ∃ ts d, Rule.attributeList c = .ok (ts, d) ∧ d.rest = [] ∧
      ts.map Token.kind = .attributesStart :: (es.map AttributeEntry.kind ++ [.attributesEnd]) := by
  have hskip : (c.skip 1).rest = text ++ [')'] := by
    rw [Cursor.rest_skip, hc]
    rfl
  have hinside : (c.skip 1).inside .round = .ok (text, (c.skip 1).skip (text.length + 1)) := by
    rw [Cursor.inside, hskip, h.inside_eq]
  have hend : ((c.skip 1).skip (text.length + 1)).rest = [] := by
    have hlength : (text ++ [')']).length = text.length + 1 := List.length_append
    rw [Cursor.rest_skip, hskip, ← hlength, List.drop_length]
  obtain ⟨ts, hts, hkinds⟩ := h.readList_eq (c := ⟨text, (c.skip 1).loc⟩) rfl
  have hlist : Rule.attributeList c = .ok (⟨.attributesStart, c.loc⟩ ::
      (ts ++ [⟨.attributesEnd, ((c.skip 1).skip (text.length + 1)).loc⟩]),
      (c.skip 1).skip (text.length + 1)) := by
    rw [Rule.attributeList, hinside]
    dsimp only
    rw [hts]
  refine ⟨_, _, hlist, hend, ?_⟩
  rw [List.map_cons, List.map_append, hkinds]
  rfl

theorem step_eq (h : AttributeRow text es) {c : Cursor} (hc : c.rest = '(' :: (text ++ [')']))
    (l : Layout) :
    ∃ ts d, l.step c = .ok (ts, l, d) ∧ d.rest = [] ∧
      ts.map Token.kind = .attributesStart :: (es.map AttributeEntry.kind ++ [.attributesEnd]) := by
  obtain ⟨ts, d, hlist, hd, hkinds⟩ := h.attributeList_eq hc
  refine ⟨ts, d, ?_, hd, hkinds⟩
  exact Layout.step_of_read hc (by decide) ((Rule.read_attributes hc).trans hlist)

end AttributeRow

/-- The text that the source of a tag with attributes is read as. -/
theorem normalize_tag {tag content : String} {text : List Char} (htag : IsTagName tag.toList)
    (htext : unifyLineEnds (content.toList ++ [')']) = text ++ [')']) :
    normalize (tag ++ "(" ++ content ++ ")").toList = tag.toList ++ '(' :: (text ++ [')']) := by
  obtain ⟨x, xs, hname, hx⟩ := htag.head
  have hmark : x ≠ '\ufeff' := ne_of_isWord hx (by decide)
  have hreturn : '\r' ∉ tag.toList := fun hc => absurd (htag.chars _ hc) (by decide)
  have hchars : (tag ++ "(" ++ content ++ ")").toList =
      tag.toList ++ '(' :: (content.toList ++ [')']) := by simp
  have hparen := unifyLineEnds_cons (c := '(') (by decide) (content.toList ++ [')'])
  rw [hchars, hname, List.cons_append, normalize, if_neg hmark, ← List.cons_append, ← hname,
    unifyLineEnds_append hreturn, hparen, htext]

/-- A list of attributes behind a tag lexes to one token for each of them, in order, with its name,
the text of its value, and whether that is to be escaped. -/
theorem lex_attributes {tag content : String} {entries : List AttributeEntry}
    (htag : IsTagName tag.toList) (h : AttributeRow content.toList entries) :
    ∃ tokens, lex (tag ++ "(" ++ content ++ ")") = .ok tokens ∧
      tokens.map Token.kind = .tag tag :: .attributesStart ::
        (entries.map AttributeEntry.kind ++ [.attributesEnd, .eos]) := by
  obtain ⟨text, htext, hrow, -⟩ := h.unify
  have hshown : Shown [] (tag.toList ++ '(' :: (text ++ [')'])) := by
    obtain ⟨x, xs, hname, hx⟩ := htag.head
    have hblank := Bool.eq_false_iff.mpr (not_isBlank_of_isWord hx)
    refine ⟨nofun, ?_⟩
    rw [hname, List.cons_append, List.head?_cons, Option.any_some, hblank]
    rfl
  generalize hstart : (⟨tag.toList ++ '(' :: (text ++ [')']), .start⟩ : Cursor) = start
  have hrest : start.rest = tag.toList ++ '(' :: (text ++ [')']) := by rw [← hstart]
  have hbehind : (start.skip tag.toList.length).rest = '(' :: (text ++ [')']) := by
    rw [Cursor.rest_skip, hrest, List.drop_left]
  have htags := htag.step_eq hrest .empty
  rw [String.ofList_toList] at htags
  obtain ⟨ts, d, hattributes, hd, hkinds⟩ := hrow.step_eq hbehind .empty
  have hrun := Layout.Run.step (hrest ▸ List.append_ne_nil_of_right_ne_nil _ (List.cons_ne_nil _ _))
    htags (.step (hbehind ▸ List.cons_ne_nil _ _) hattributes .here)
  have hend : Layout.empty.tokens d = .ok [⟨.eos, d.loc⟩] := by
    rw [Layout.tokens, if_pos hd]
    rfl
  have hlex : lex (tag ++ "(" ++ content ++ ")") =
      .ok (⟨.tag tag, start.loc⟩ :: (ts ++ [⟨.eos, d.loc⟩])) := by
    rw [Layout.lex_eq, normalize_tag htag htext, Layout.skipLeading_of_shown hshown rfl, hstart,
      hrun.tokens, hend, List.append_nil]
    rfl
  refine ⟨_, hlex, ?_⟩
  rw [List.map_cons, List.map_append, hkinds, List.cons_append, List.append_assoc]
  rfl

namespace ListedAttributes

def quotedEntry : AttributeEntry := ⟨"x", some (true, "'1'")⟩

def arrayEntry : AttributeEntry := ⟨"b", some (false, "[ 'd' , e ]")⟩

def bareEntry : AttributeEntry := ⟨"c", none⟩

theorem sound_quoted : quotedEntry.Sound where
  name := ⟨'x', [], rfl, rfl, nofun⟩
  value := by
    rintro escape v ⟨⟩
    refine ⟨⟨.literal (.string "1"), ?_⟩, by decide, ?_⟩
    · have hprint : "'1'".toList = (Expr.literal (.string "1")).print (.sparing '\'') := by decide
      rw [hprint]
      exact Expr.read_print_of_isPlain rfl (by decide)
    · exact .cons (by decide) rfl <| .cons nofun rfl <| .cons nofun rfl .nil

theorem sound_array : arrayEntry.Sound where
  name := ⟨'b', [], rfl, rfl, nofun⟩
  value := by
    rintro escape v ⟨⟩
    refine ⟨⟨.array [.literal (.string "d"), .name "e"], ?_⟩, by decide, ?_⟩
    · have hprint : "[ 'd' , e ]".toList =
          (Expr.array [.literal (.string "d"), .name "e"]).print (.sparing '\'') := by decide
      rw [hprint]
      exact Expr.read_print_of_isPlain rfl (by decide)
    · -- the blanks and the comma stand inside the brackets
      exact .cons (by decide) rfl <| .cons nofun rfl <| .cons nofun rfl <| .cons nofun rfl <|
        .cons nofun rfl <| .cons nofun rfl <| .cons nofun rfl <| .cons nofun rfl <|
        .cons nofun rfl <| .cons nofun rfl <| .cons nofun rfl .nil

theorem sound_bare : bareEntry.Sound where
  name := ⟨'c', [], rfl, rfl, nofun⟩
  value := nofun

end ListedAttributes

open ListedAttributes in
theorem lex_attributes_listed :
    ∃ tokens, lex ("a" ++ "(" ++ "x='1',\r\n b!=[ 'd' , e ] c" ++ ")") = .ok tokens ∧
      tokens.map Token.kind = .tag "a" :: .attributesStart ::
        ([quotedEntry, arrayEntry, bareEntry].map AttributeEntry.kind ++ [.attributesEnd, .eos]) := by
  have hnone : ∀ c ∈ [], isSeparator c := nofun
  have hbreak : ∀ c ∈ [',', '\r', '\n', ' '], isSeparator c := List.all_eq_true.mp rfl
  have hspace : ∀ c ∈ [' '], isSeparator c := List.all_eq_true.mp rfl
  have hrow : AttributeRow "x='1',\r\n b!=[ 'd' , e ] c".toList [quotedEntry, arrayEntry, bareEntry] :=
    .more hnone sound_quoted rfl <| .more hbreak sound_array rfl <|
      .more hspace sound_bare rfl (.last hnone)
  exact lex_attributes ⟨rfl, rfl, List.all_eq_true.mp rfl, by decide⟩ hrow

end PugTemplate
