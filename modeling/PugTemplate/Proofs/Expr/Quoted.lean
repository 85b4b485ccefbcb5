import Mathlib.Data.Nat.Digits.Defs
import PugTemplate.Proofs.Expr.Comma

/-!
# Strings in quotes

Which texts are strings, as a grammar of items that does not mention the reader. The grammar is open
in one point: how a number is written behind `\x` and `\u`. The reader takes the grammar in which a
plus sign may stand in the first place of a number, and no other.
-/

namespace PugTemplate

/-! ## Numbers -/

/-- The hexadecimal digits with their values. -/
def hexDigits : List (Char × Nat) :=
  "0123456789".toList.zipIdx ++ "abcdef".toList.zipIdx 10 ++ "ABCDEF".toList.zipIdx 10

/-- Hexadecimal digits, of which the last is the lowest, and the number they make. -/
def HexNumber (cs : List Char) (n : Nat) : Prop :=
  ∃ ds, List.Forall₂ (fun c d => (c, d) ∈ hexDigits) cs.reverse ds ∧ Nat.ofDigits 16 ds = n

/-- Digits that fill all places, and the character with their number. No character has the number of
a surrogate. -/
def Numbered (places : Nat) (cs : List Char) (c : Char) : Prop :=
  cs.length = places ∧ HexNumber cs c.toNat

/-- Digits that fill all places, or all but the first, which then holds a plus sign. -/
def NumberedOrSigned (places : Nat) (cs : List Char) (c : Char) : Prop :=
  Numbered places cs c ∨ ∃ ds, cs = '+' :: ds ∧ Numbered (places - 1) ds c

theorem NumberedOrSigned.length_eq {places : Nat} (hplaces : 2 ≤ places) {cs : List Char} {c : Char}
    (h : NumberedOrSigned places cs c) : cs.length = places := by
  obtain h | ⟨ds, rfl, h⟩ := h
  · exact h.1
  · rw [List.length_cons, h.1]
    omega

/-! ## The grammar -/

section Grammar

variable (number : Nat → List Char → Char → Prop) (mark : Char)

/-- What stands behind a backslash, and the character it denotes. -/
inductive Escape : List Char → Option Char → Prop where
  | byte {ds : List Char} {c : Char} (h : number 2 ds c) : Escape ('x' :: ds) (some c)
  | unit {ds : List Char} {c : Char} (h : number 4 ds c) : Escape ('u' :: ds) (some c)
  | feed : Escape ['\n'] none
  | simple {c : Char} (hx : c ≠ 'x') (hu : c ≠ 'u') (hfeed : c ≠ '\n') :
      Escape [c] (some (Lexeme.simpleEscape c))

/-- Items in a row between two marks, and the text they denote. -/
inductive Items : List Char → List Char → Prop where
  | nil : Items [] []
  | plain {c : Char} {cs s : List Char} (hmark : c ≠ mark) (hslash : c ≠ '\\') (hfeed : c ≠ '\n')
      (h : Items cs s) : Items (c :: cs) (c :: s)
  | escape {us cs s : List Char} {r : Option Char} (hr : Escape number us r) (h : Items cs s) :
      Items ('\\' :: (us ++ cs)) (r.toList ++ s)

/-- A string between two marks of one kind, with blanks around it. -/
def Quoted (src : List Char) (s : String) : Prop :=
  ∃ mark front body back, isQuote mark ∧ allBlank front ∧ allBlank back ∧
    src = front ++ mark :: (body ++ mark :: back) ∧ Items number mark body s.toList

end Grammar

/-! ## Numbers are read -/

namespace Lexeme

theorem hexValue?_eq_some_iff {c : Char} {d : Nat} : hexValue? c = some d ↔ (c, d) ∈ hexDigits := by
  constructor
  · intro h
    -- a digit of any kind is one of the first characters, and those are looked through
    have hall : ∀ n ∈ List.range 128, ∀ d ∈ hexValue? (Char.ofNat n),
        (Char.ofNat n, d) ∈ hexDigits := by decide +kernel
    have hc : c.toNat < 128 := by
      unfold hexValue? at h
      split at h
      next hd => exact Nat.lt_of_le_of_lt (toNat_of_isDigit hd).2 (by decide)
      next =>
        split at h
        next hl => exact Nat.lt_of_le_of_lt (UInt32.le_iff_toNat_le.mp hl.2) (by decide)
        next =>
          split at h
          next hu => exact Nat.lt_of_le_of_lt (UInt32.le_iff_toNat_le.mp hu.2) (by decide)
          next => exact nomatch h
    have hdigit := hall c.toNat (List.mem_range.mpr hc)
    rw [Char.ofNat_toNat] at hdigit
    exact hdigit d h
  · intro h
    have hall : ∀ p ∈ hexDigits, hexValue? p.1 = some p.2 := by decide
    exact hall _ h

theorem hexNumber?_concat (cs : List Char) (c : Char) :
    hexNumber? (cs ++ [c]) =
      (hexNumber? cs).bind fun n => (hexValue? c).map (16 * n + ·) := by
  rw [hexNumber?, List.foldl_append]
  rfl

theorem hexNumber?_eq_some_iff {cs : List Char} {n : Nat} :
    hexNumber? cs = some n ↔ HexNumber cs n := by
  induction cs using List.reverseRecOn generalizing n with
  | nil =>
    constructor
    · rintro ⟨⟩
      exact ⟨[], .nil, rfl⟩
    · rintro ⟨ds, hds, rfl⟩
      cases hds
      rfl
  | append_singleton cs c ih =>
    rw [hexNumber?_concat, HexNumber, List.reverse_concat]
    constructor
    · intro h
      obtain ⟨m, hm, h⟩ := Option.bind_eq_some_iff.mp h
      obtain ⟨d, hd, rfl⟩ := Option.map_eq_some_iff.mp h
      obtain ⟨ds, hds, rfl⟩ := ih.mp hm
      refine ⟨d :: ds, .cons (hexValue?_eq_some_iff.mp hd) hds, ?_⟩
      rw [Nat.ofDigits_cons]
      exact Nat.add_comm _ _
    · rintro ⟨es, hes, rfl⟩
      obtain ⟨d, ds, hd, hds, rfl⟩ := List.forall₂_cons_left_iff.mp hes
      rw [ih.mpr ⟨ds, hds, rfl⟩, hexValue?_eq_some_iff.mpr hd, Nat.ofDigits_cons]
      exact congrArg some (Nat.add_comm _ _)

theorem charOf?_eq_some_iff {n : Nat} {c : Char} : charOf? n = some c ↔ c.toNat = n := by
  rw [charOf?]
  by_cases hn : n.isValidChar
  · rw [dif_pos hn]
    constructor
    · rintro ⟨⟩
      rfl
    · rintro rfl
      rfl
  · rw [dif_neg hn]
    constructor
    · rintro ⟨⟩
    · rintro rfl
      exact absurd c.valid hn

theorem hexNumber?_bind_eq_some_iff {cs : List Char} {c : Char} :
    (hexNumber? cs).bind charOf? = some c ↔ HexNumber cs c.toNat := by
  rw [Option.bind_eq_some_iff]
  simp only [hexNumber?_eq_some_iff, charOf?_eq_some_iff, exists_eq_right']

/-- A sign is no digit. -/
theorem not_hexNumber_sign (cs : List Char) (n : Nat) : ¬ HexNumber ('+' :: cs) n := by
  intro h
  have hsign := forall_of_hexNumber? (hexNumber?_eq_some_iff.mpr h) '+' List.mem_cons_self
  exact nomatch hsign

theorem hexChar?_eq_some_iff {places : Nat} (hplaces : 2 ≤ places) {cs : List Char} {c : Char} :
    hexChar? places cs = some c ↔ NumberedOrSigned places (cs.take places) c := by
  unfold hexChar? NumberedOrSigned Numbered
  dsimp only
  split
  next ds heq =>
    rw [heq, List.length_cons]
    constructor
    · intro h
      split at h
      next hlength =>
        exact .inr ⟨ds, rfl, Nat.eq_sub_of_add_eq hlength.1, hexNumber?_bind_eq_some_iff.mp h⟩
      next => exact nomatch h
    · rintro (⟨-, h⟩ | ⟨ds, ⟨⟩, hlength, h⟩)
      · exact absurd h (not_hexNumber_sign _ _)
      · have hne : ds ≠ [] := List.ne_nil_of_length_pos (by omega)
        rw [if_pos ⟨by omega, hne⟩]
        exact hexNumber?_bind_eq_some_iff.mpr h
  next hsign =>
    constructor
    · intro h
      split at h
      next hlength => exact .inl ⟨hlength.1, hexNumber?_bind_eq_some_iff.mp h⟩
      next => exact nomatch h
    · rintro (⟨hlength, h⟩ | ⟨ds, heq, -⟩)
      · have hne : cs.take places ≠ [] := List.ne_nil_of_length_pos (by omega)
        rw [if_pos ⟨hlength, hne⟩]
        exact hexNumber?_bind_eq_some_iff.mpr h
      · exact absurd heq (hsign ds)

/-! ## Strings are read -/

theorem readEscape_number {c : Char} {places : Nat}
    (hc : c = 'x' ∧ places = 2 ∨ c = 'u' ∧ places = 4) (cs : List Char) :
    readEscape (c :: cs) =
      match hexChar? places cs with
      | some ch => .ok (some ch, 1 + places)
      | none => .error .invalidEscape := by
  rcases hc with ⟨rfl, rfl⟩ | ⟨rfl, rfl⟩ <;> rfl

theorem readEscape_simple {c : Char} (hx : c ≠ 'x') (hu : c ≠ 'u') (cs : List Char) :
    readEscape (c :: cs) = .ok (if c = '\n' then none else some (simpleEscape c), 1) := by
  simp [readEscape, hx, hu]

theorem escape_of_number {c : Char} {places : Nat}
    (hc : c = 'x' ∧ places = 2 ∨ c = 'u' ∧ places = 4) {ds : List Char} {ch : Char}
    (h : NumberedOrSigned places ds ch) : Escape NumberedOrSigned (c :: ds) (some ch) := by
  rcases hc with ⟨rfl, rfl⟩ | ⟨rfl, rfl⟩
  · exact .byte h
  · exact .unit h

theorem escape_of_simple {c : Char} (hx : c ≠ 'x') (hu : c ≠ 'u') :
    Escape NumberedOrSigned [c] (if c = '\n' then none else some (simpleEscape c)) := by
  split
  next hfeed =>
    subst hfeed
    exact .feed
  next hfeed => exact .simple hx hu hfeed

/-- The reader takes an escape for what the grammar says, and for nothing else. -/
theorem readEscape_eq_ok_iff {cs : List Char} {r : Option Char} {n : Nat} :
    readEscape cs = .ok (r, n) ↔
      ∃ us rest, cs = us ++ rest ∧ us.length = n ∧ Escape NumberedOrSigned us r := by
  constructor
  · intro h
    have hle := le_length_of_readEscape h
    refine ⟨cs.take n, cs.drop n, (List.take_append_drop n cs).symm, List.length_take_of_le hle, ?_⟩
    cases cs with
    | nil => cases h
    | cons c cs =>
      by_cases hnumber : ∃ places, c = 'x' ∧ places = 2 ∨ c = 'u' ∧ places = 4
      · obtain ⟨places, hc⟩ := hnumber
        rw [readEscape_number hc] at h
        split at h
        next ch hch =>
          cases h
          rw [Nat.add_comm, List.take_succ_cons]
          exact escape_of_number hc ((hexChar?_eq_some_iff (by omega)).mp hch)
        next => cases h
      · have hx : c ≠ 'x' := fun hc => hnumber ⟨2, .inl ⟨hc, rfl⟩⟩
        have hu : c ≠ 'u' := fun hc => hnumber ⟨4, .inr ⟨hc, rfl⟩⟩
        rw [readEscape_simple hx hu] at h
        cases h
        exact escape_of_simple hx hu
  · rintro ⟨us, rest, rfl, rfl, h⟩
    have hnumber {c : Char} {places : Nat} (hc : c = 'x' ∧ places = 2 ∨ c = 'u' ∧ places = 4)
        {ds : List Char} {ch : Char} (h : NumberedOrSigned places ds ch) :
        readEscape (c :: ds ++ rest) = .ok (some ch, (c :: ds).length) := by
      have hlength := h.length_eq (by omega)
      have hch : hexChar? places (ds ++ rest) = some ch := by
        rw [hexChar?_eq_some_iff (by omega), ← hlength, List.take_left, hlength]
        exact h
      rw [List.cons_append, readEscape_number hc, hch, List.length_cons, hlength, Nat.add_comm]
    cases h with
    | byte h => exact hnumber (.inl ⟨rfl, rfl⟩) h
    | unit h => exact hnumber (.inr ⟨rfl, rfl⟩) h
    | feed => rfl
    | simple hx hu hfeed =>
      rw [List.singleton_append, readEscape_simple hx hu, if_neg hfeed]
      rfl

theorem readString_plain {mark c : Char} (hmark : c ≠ mark) (hslash : c ≠ '\\') (hfeed : c ≠ '\n')
    (base offset : Nat) (cs : List Char) :
    readString mark base offset (c :: cs) = do
      let (s, k) ← readString mark base (offset + c.utf8Size) cs
      return (c :: s, 1 + k) := by
  rw [readString, if_neg hmark, if_neg hslash, if_neg hfeed]

theorem readString_escape {mark : Char} (hmark : '\\' ≠ mark) (base offset : Nat) (cs : List Char) :
    readString mark base offset ('\\' :: cs) = do
      let (ch, n) ← placeCause offset (readEscape cs)
      let (s, k) ← readString mark base (offset + 1 + byteLength (cs.take n)) (cs.drop n)
      return (ch.toList ++ s, 1 + n + k) := by
  rw [readString, if_neg hmark, if_pos rfl]

theorem readString_of_items {mark : Char} (hmark : isQuote mark) {body s : List Char}
    (h : Items NumberedOrSigned mark body s) (base offset : Nat) (rest : List Char) :
    readString mark base offset (body ++ mark :: rest) = .ok (s, body.length + 1) := by
  have hslash : '\\' ≠ mark := by
    rintro rfl
    cases hmark
  induction h generalizing offset with
  | nil =>
    rw [List.nil_append, readString, if_pos rfl]
    rfl
  | @plain c cs s hm hs hf _ ih =>
    rw [List.cons_append, readString_plain hm hs hf, ih]
    exact congrArg (fun n => Except.ok (c :: s, n)) (Nat.add_comm _ _)
  | @escape us cs s r hr _ ih =>
    have hread : readEscape (us ++ (cs ++ mark :: rest)) = .ok (r, us.length) :=
      readEscape_eq_ok_iff.mpr ⟨us, _, rfl, rfl, hr⟩
    rw [List.cons_append, List.append_assoc, readString_escape hslash, hread]
    show (readString mark base _ ((us ++ (cs ++ mark :: rest)).drop us.length) >>= fun t =>
      (pure (r.toList ++ t.1, 1 + us.length + t.2) : Except ExprError _)) = _
    rw [List.drop_left, ih]
    refine congrArg (fun n => Except.ok (r.toList ++ s, n)) ?_
    simp only [List.length_cons, List.length_append]
    omega

/-- What is read up to the closing mark is a row of items. -/
theorem items_of_readString {mark : Char} {base offset n : Nat} {cs s : List Char}
    (h : readString mark base offset cs = .ok (s, n)) :
    ∃ body rest, cs = body ++ mark :: rest ∧ body.length + 1 = n ∧
      Items NumberedOrSigned mark body s := by
  match cs with
  | [] => simp [readString] at h
  | c :: cs =>
    by_cases hmark : c = mark
    · rw [readString, if_pos hmark] at h
      cases h
      exact ⟨[], cs, by rw [hmark]; rfl, rfl, .nil⟩
    by_cases hslash : c = '\\'
    · subst hslash
      rw [readString_escape hmark] at h
      obtain ⟨⟨r, m⟩, hr, h⟩ := of_bind_eq_ok h
      obtain ⟨⟨s, k⟩, hs, h⟩ := of_bind_eq_ok h
      cases h
      obtain ⟨us, more, rfl, rfl, hescape⟩ := readEscape_eq_ok_iff.mp (placeCause_eq_ok hr)
      rw [List.drop_left] at hs
      obtain ⟨body, rest, rfl, rfl, hitems⟩ := items_of_readString hs
      refine ⟨'\\' :: (us ++ body), rest, by simp, ?_, .escape hescape hitems⟩
      simp only [List.length_cons, List.length_append]
      omega
    · by_cases hfeed : c = '\n'
      · rw [readString, if_neg hmark, if_neg hslash, if_pos hfeed] at h
        cases h
      rw [readString_plain hmark hslash hfeed] at h
      obtain ⟨⟨s, k⟩, hs, h⟩ := of_bind_eq_ok h
      cases h
      obtain ⟨body, rest, rfl, rfl, hitems⟩ := items_of_readString hs
      exact ⟨c :: body, rest, rfl, Nat.add_comm _ _, .plain hmark hslash hfeed hitems⟩
termination_by cs.length
decreasing_by
  all_goals
    subst_vars
    simp only [List.length_cons, List.length_append]
    omega

/-! ## Whole texts -/

theorem read_quote {mark : Char} (hmark : isQuote mark) (inner : List Char → Except ExprError Expr)
    (offset : Nat) (cs : List Char) :
    read inner offset mark cs = do
      let (s, n) ← readString mark offset (offset + 1) cs
      return (.text (String.ofList s), n) := by
  have hq : mark = '\'' ∨ mark = '"' := by simpa [isQuote] using hmark
  have hdigit : ¬ (mark.isDigit ∨ (mark = '.' ∧ cs.head?.any Char.isDigit)) := by
    rcases hq with rfl | rfl <;> simp [Char.isDigit]
  rw [read, if_neg hdigit, if_pos hq]

/-- Only a quote begins a string. -/
theorem readString_of_read {inner : List Char → Except ExprError Expr} {offset n : Nat} {c : Char}
    {cs : List Char} {s : String} (h : read inner offset c cs = .ok (.text s, n)) :
    isQuote c ∧ readString c offset (offset + 1) cs = .ok (s.toList, n) := by
  by_cases hc : isQuote c
  · rw [read_quote hc] at h
    obtain ⟨⟨t, k⟩, ht, h⟩ := of_bind_eq_ok h
    cases h
    rw [String.toList_ofList]
    exact ⟨hc, ht⟩
  · have hq : ¬ (c = '\'' ∨ c = '"') := by simpa [isQuote] using hc
    unfold read at h
    rw [if_neg hq] at h
    split at h
    next => cases h
    next =>
      split at h
      next =>
        obtain ⟨_, _, h⟩ := of_bind_eq_ok h
        cases h
      next =>
        split at h
        next => cases h
        next =>
          split at h
          next => cases h
          next => cases h

/-- A text without lexemes is blank. -/
theorem allBlank_of_readAll {inner : List Char → Except ExprError Expr} {offset : Nat}
    {cs : List Char} (h : readAll inner offset cs = .ok []) : allBlank cs := by
  induction cs generalizing offset with
  | nil => rfl
  | cons c cs ih =>
    cases hc : isBlank c with
    | true =>
      rw [readAll_blank hc] at h
      exact Bool.and_eq_true_iff.mpr ⟨hc, ih h⟩
    | false =>
      obtain ⟨l, n, more, -, -, hts⟩ := readAll_eq_ok hc h
      cases hts

theorem readAll_allBlank (inner : List Char → Except ExprError Expr) (offset : Nat) {cs : List Char}
    (h : allBlank cs) : readAll inner offset cs = .ok [] := by
  rw [← List.append_nil cs, readAll_blanks inner offset h, readAll_nil]

/-- Where a string is the one lexeme, blanks stand around the row of its items. -/
theorem quoted_of_readAll {inner : List Char → Except ExprError Expr} {offset i : Nat}
    {cs : List Char} {s : String} (h : readAll inner offset cs = .ok [⟨.text s, i⟩]) :
    Quoted NumberedOrSigned cs s := by
  induction cs generalizing offset with
  | nil =>
    rw [readAll_nil] at h
    cases h
  | cons c cs ih =>
    cases hc : isBlank c with
    | true =>
      rw [readAll_blank hc] at h
      obtain ⟨mark, front, body, back, hmark, hfront, hback, rfl, hitems⟩ := ih h
      exact ⟨mark, c :: front, body, back, hmark, Bool.and_eq_true_iff.mpr ⟨hc, hfront⟩, hback, rfl,
        hitems⟩
    | false =>
      obtain ⟨l, n, more, hl, hmore, hts⟩ := readAll_eq_ok hc h
      cases hts
      obtain ⟨hmark, hs⟩ := readString_of_read hl
      obtain ⟨body, back, rfl, rfl, hitems⟩ := items_of_readString hs
      have hback : (body ++ c :: back).drop (body.length + 1) = back := by
        rw [List.drop_length_add_append]
        rfl
      rw [hback] at hmore
      exact ⟨c, [], body, back, hmark, rfl, allBlank_of_readAll hmore, rfl, hitems⟩

theorem readAll_of_quoted {cs : List Char} {s : String} (h : Quoted NumberedOrSigned cs s)
    (inner : List Char → Except ExprError Expr) (offset : Nat) :
    ∃ i, readAll inner offset cs = .ok [⟨.text s, i⟩] := by
  obtain ⟨mark, front, body, back, hmark, hfront, hback, rfl, hitems⟩ := h
  have hblank : isBlank mark = false := by
    have hq : mark = '\'' ∨ mark = '"' := by simpa [isQuote] using hmark
    rcases hq with rfl | rfl <;> rfl
  refine ⟨offset + byteLength front, ?_⟩
  rw [readAll_blanks inner offset hfront]
  refine readAll_lexeme (n := body.length + 1) hblank ?_ ?_
  · rw [read_quote hmark, readString_of_items hmark hitems]
    show Except.ok (Lexeme.text (String.ofList s.toList), _) = _
    rw [String.ofList_toList]
  · rw [List.drop_length_add_append]
    exact readAll_allBlank inner _ hback

end Lexeme

/-! ## The grammar decides -/

/-- A text is read as one string: the string is its one lexeme, and its literal the expression. -/
structure Expr.IsString (src : List Char) (s : String) : Prop where
  lexeme : ∃ i, Lexeme.readAll Expr.read 0 src = .ok [⟨.text s, i⟩]
  literal : Expr.read src = .ok (.literal (.string s))

theorem Expr.isString_iff {src : List Char} {s : String} :
    IsString src s ↔ Quoted NumberedOrSigned src s := by
  constructor
  · rintro ⟨⟨i, hlexeme⟩, -⟩
    exact Lexeme.quoted_of_readAll hlexeme
  · intro h
    refine ⟨Lexeme.readAll_of_quoted h Expr.read 0, ?_⟩
    rw [Expr.read]
    obtain ⟨i, hlexeme⟩ := Lexeme.readAll_of_quoted h (fun hole =>
      if hole.length < src.length then Expr.read hole else .error ⟨.unexpectedEnd, 0⟩) 0
    have hspells : Spells [⟨.text s, i⟩] (.tight 0 (.literal (.string s))) :=
      (Spells.text s i).loosen (Nat.zero_le 9) (Nat.le_refl 9)
    exact readWith_eq_ok_iff.mpr ⟨_, hlexeme, hspells⟩

/-- A text with a plus sign in the first place of a number behind a backslash. -/
def HasSignedNumber (src : List Char) : Prop :=
  ∃ c, (c = 'x' ∨ c = 'u') ∧ ['\\', c, '+'] <:+: src

theorem Numbered.orSigned {places : Nat} {cs : List Char} {c : Char} (h : Numbered places cs c) :
    NumberedOrSigned places cs c :=
  .inl h

section Numbers

variable {P Q : Nat → List Char → Char → Prop} {mark : Char} {cs s : List Char}

/-- Only the numbers behind a backslash count. -/
theorem Items.imp (h : Items P mark cs s)
    (hnumber : ∀ c places ds ch, c = 'x' ∧ places = 2 ∨ c = 'u' ∧ places = 4 →
      '\\' :: c :: ds <:+: cs → P places ds ch → Q places ds ch) :
    Items Q mark cs s := by
  induction h with
  | nil => exact .nil
  | plain hm hs hf _ ih =>
    exact .plain hm hs hf (ih fun c places ds ch hc hds =>
      hnumber c places ds ch hc (List.infix_cons hds))
  | @escape us cs s r hr _ ih =>
    have hfirst : '\\' :: us <:+: '\\' :: (us ++ cs) := (List.prefix_append ('\\' :: us) cs).isInfix
    have hrest : Items Q mark cs s := ih fun c places ds ch hc hds =>
      hnumber c places ds ch hc (hds.trans (List.suffix_append ('\\' :: us) cs).isInfix)
    refine .escape ?_ hrest
    cases hr with
    | byte h => exact .byte (hnumber _ _ _ _ (.inl ⟨rfl, rfl⟩) hfirst h)
    | unit h => exact .unit (hnumber _ _ _ _ (.inr ⟨rfl, rfl⟩) hfirst h)
    | feed => exact .feed
    | simple hx hu hfeed => exact .simple hx hu hfeed

end Numbers

theorem Quoted.orSigned {src : List Char} {s : String} (h : Quoted Numbered src s) :
    Quoted NumberedOrSigned src s := by
  obtain ⟨mark, front, body, back, hmark, hfront, hback, hsrc, hitems⟩ := h
  exact ⟨mark, front, body, back, hmark, hfront, hback, hsrc,
    hitems.imp fun _ _ _ _ _ _ h => h.orSigned⟩

/-- Without such a sign all numbers are digits throughout. -/
theorem Quoted.of_not_signed {src : List Char} {s : String} (h : Quoted NumberedOrSigned src s)
    (hsigned : ¬ HasSignedNumber src) : Quoted Numbered src s := by
  obtain ⟨mark, front, body, back, hmark, hfront, hback, rfl, hitems⟩ := h
  refine ⟨mark, front, body, back, hmark, hfront, hback, rfl, ?_⟩
  refine hitems.imp fun c places ds ch hc hds h => ?_
  obtain h | ⟨es, rfl, -⟩ := h
  · exact h
  · have hsign : ['\\', c, '+'] <:+: '\\' :: c :: '+' :: es :=
      (List.prefix_append ['\\', c, '+'] es).isInfix
    have hbody : body <:+: front ++ mark :: (body ++ mark :: back) :=
      ⟨front ++ [mark], mark :: back, by simp⟩
    exact absurd ⟨c, hc.imp And.left And.left, (hsign.trans hds).trans hbody⟩ hsigned

namespace Expr

/-- A text is read as one string just if the grammar says so in which a number may have a sign. All
strings of the grammar without signs are read, and where no number has a sign, no others. -/
theorem reads_string_iff (src : List Char) (s : String) :
    (IsString src s ↔ Quoted NumberedOrSigned src s) ∧
    (Quoted Numbered src s → IsString src s) ∧
    (¬ HasSignedNumber src → (IsString src s ↔ Quoted Numbered src s)) :=
  ⟨isString_iff, fun h => isString_iff.mpr h.orSigned, fun hsigned =>
    ⟨fun h => (isString_iff.mp h).of_not_signed hsigned, fun h => isString_iff.mpr h.orSigned⟩⟩

/-- A string with blanks around it, both quotes, a letter by its number and an escaped line feed. -/
def sampleString : List Char :=
  " 'it\\'s \"\\u00e9\"\\\n!' ".toList

theorem numbered_sampleLetter : Numbered 4 "00e9".toList 'é' :=
  ⟨rfl, [9, 14, 0, 0], .cons (by decide) (.cons (by decide) (.cons (by decide)
    (.cons (by decide) .nil))), by decide⟩

theorem quoted_sampleString : Quoted Numbered sampleString "it's \"é\"!" := by
  refine ⟨'\'', [' '], "it\\'s \"\\u00e9\"\\\n!".toList, [' '], rfl, rfl, rfl, by decide, ?_⟩
  have hletter : Items Numbered '\'' "\\u00e9\"\\\n!".toList "é\"!".toList :=
    .escape (.unit numbered_sampleLetter) (.plain (by decide) (by decide) (by decide)
      (.escape .feed (.plain (by decide) (by decide) (by decide) .nil)))
  have hmark : Items Numbered '\'' "\\'s \"\\u00e9\"\\\n!".toList "'s \"é\"!".toList :=
    .escape (.simple (by decide) (by decide) (by decide)) (.plain (by decide) (by decide)
      (by decide) (.plain (by decide) (by decide) (by decide) (.plain (by decide) (by decide)
        (by decide) hletter)))
  exact .plain (by decide) (by decide) (by decide) (.plain (by decide) (by decide) (by decide)
    hmark)

theorem reads_string_sample :
    Quoted Numbered sampleString "it's \"é\"!" ∧ IsString sampleString "it's \"é\"!" :=
  ⟨quoted_sampleString, (reads_string_iff _ _).2.1 quoted_sampleString⟩

/-- A sign in front of three digits is read where four digits are asked for. -/
theorem reads_string_signed :
    IsString "'\\u+123'".toList "ģ" ∧ ∀ s, ¬ Quoted Numbered "'\\u+123'".toList s := by
  constructor
  · have hnumber : Numbered 3 "123".toList 'ģ' :=
      ⟨rfl, [3, 2, 1], .cons (by decide) (.cons (by decide) (.cons (by decide) .nil)), by decide⟩
    have hescape : Escape NumberedOrSigned "u+123".toList (some 'ģ') :=
      .unit (Or.inr ⟨_, rfl, hnumber⟩)
    exact isString_iff.mpr
      ⟨'\'', [], "\\u+123".toList, [], rfl, rfl, rfl, by decide, .escape hescape .nil⟩
  · rintro s ⟨mark, front, body, back, hmark, hfront, hback, hsrc, hitems⟩
    cases front with
    | cons c front =>
      obtain ⟨rfl, -⟩ := List.cons.inj hsrc
      exact nomatch hfront
    | nil =>
      obtain ⟨rfl, hsrc⟩ := List.cons.inj hsrc
      generalize s.toList = t at hitems
      cases hitems with
      | nil => exact nomatch hsrc
      | plain hm hslash hf _ => exact hslash (List.cons.inj hsrc).1.symm
      | escape hr _ =>
        cases hr with
        | byte h => exact nomatch hsrc
        | feed => exact nomatch hsrc
        | simple hx hu hfeed => exact hu (List.cons.inj (List.cons.inj hsrc).2).1.symm
        | @unit ds c h =>
          -- the first of the four places holds the sign
          cases ds with
          | nil => exact nomatch h.1
          | cons d ds =>
            obtain ⟨rfl, -⟩ := List.cons.inj (List.cons.inj (List.cons.inj hsrc).2).2
            exact Lexeme.not_hexNumber_sign _ _ h.2

end Expr

end PugTemplate
