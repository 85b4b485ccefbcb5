import PugTemplate.Expr.Parse
import PugTemplate.Lex.Cursor
import PugTemplate.Proofs.Text.Blank
import Mathlib.Data.List.Forall2

/-!
# Lexemes in writing

How a lexeme is written, so that it is read back where a blank follows or the text ends.
-/

namespace PugTemplate

/-! ## Strings -/

/-- A character inside a string with given marks. -/
def escaped (mark c : Char) : List Char :=
  if c = '\n' then ['\\', 'n'] else if c = mark ∨ c = '\\' then ['\\', c] else [c]

/-- A string between its marks. -/
def inQuotes (mark : Char) (cs : List Char) : List Char :=
  mark :: (cs.flatMap (escaped mark) ++ [mark])

def isQuote (c : Char) : Bool :=
  c == '\'' || c == '"'

namespace Lexeme

/-- A character stands for itself, or an escape denotes it. -/
theorem escaped_cases {mark : Char} (hmark : isQuote mark) (c : Char) :
    (escaped mark c = [c] ∧ c ≠ mark ∧ c ≠ '\\' ∧ c ≠ '\n') ∨
      ∃ d, escaped mark c = ['\\', d] ∧ ∀ rest, readEscape (d :: rest) = .ok (some c, 1) := by
  by_cases hfeed : c = '\n'
  · subst hfeed
    exact .inr ⟨'n', rfl, fun _ => rfl⟩
  by_cases hc : c = mark ∨ c = '\\'
  · have h : c = '\'' ∨ c = '"' ∨ c = '\\' := by
      simp only [isQuote, Bool.or_eq_true, beq_iff_eq] at hmark
      grind
    refine .inr ⟨c, by rw [escaped, if_neg hfeed, if_pos hc], fun rest => ?_⟩
    rcases h with rfl | rfl | rfl <;> rfl
  · obtain ⟨hm, hs⟩ := not_or.mp hc
    exact .inl ⟨by rw [escaped, if_neg hfeed, if_neg hc], hm, hs, hfeed⟩

/-- What a string says is read back up to its closing mark. -/
theorem readString_inQuotes {mark : Char} (hmark : isQuote mark) (base offset : Nat)
    (cs rest : List Char) :
    readString mark base offset (cs.flatMap (escaped mark) ++ mark :: rest) =
      .ok (cs, (cs.flatMap (escaped mark)).length + 1) := by
  have hslash : '\\' ≠ mark := by
    rintro rfl
    cases hmark
  induction cs generalizing offset with
  | nil =>
    rw [List.flatMap_nil, List.nil_append, readString, if_pos rfl]
    rfl
  | cons c cs ih =>
    rw [List.flatMap_cons, List.append_assoc]
    obtain ⟨hc, hm, hs, hfeed⟩ | ⟨d, hc, hd⟩ := escaped_cases hmark c
    · rw [hc, List.cons_append, readString, if_neg hm, if_neg hs, if_neg hfeed, List.nil_append, ih]
      refine congrArg (fun n => Except.ok (c :: cs, n)) ?_
      simp only [List.length_append, List.length_cons, List.length_nil]
      omega
    · rw [hc, List.cons_append, readString, if_neg hslash, if_pos rfl, List.cons_append, hd]
      show (readString mark base _ (cs.flatMap (escaped mark) ++ mark :: rest) >>= fun r =>
        (pure (c :: r.1, 1 + 1 + r.2) : Except ExprError _)) = _
      rw [ih]
      refine congrArg (fun n => Except.ok (c :: cs, n)) ?_
      simp only [List.length_append, List.length_cons, List.length_nil]
      omega

/-! ## Names and numbers -/

end Lexeme

theorem isNameChar_blanks : ∀ n ∈ blanks, isNameChar (Char.ofNat n) = false := by decide +kernel

theorem isDigit_blanks : ∀ n ∈ blanks, (Char.ofNat n).isDigit = false := by decide +kernel

theorem not_isBlank_of_isNameChar {c : Char} (h : isNameChar c) : isBlank c = false :=
  not_isBlank_of isNameChar_blanks h

theorem not_isBlank_of_isDigit {c : Char} (h : c.isDigit) : isBlank c = false :=
  not_isBlank_of isDigit_blanks h

theorem toNat_of_isDigit {c : Char} (h : c.isDigit) : 48 ≤ c.toNat ∧ c.toNat ≤ 57 := by
  obtain ⟨hlow, hhigh⟩ := Bool.and_eq_true_iff.mp h
  exact ⟨UInt32.le_iff_toNat_le.mp (of_decide_eq_true hlow),
    UInt32.le_iff_toNat_le.mp (of_decide_eq_true hhigh)⟩

theorem not_isDigit_of_isNameStart {c : Char} (h : isNameStart c) : c.isDigit = false := by
  refine Bool.eq_false_iff.mpr fun hd => ?_
  have hn := toNat_of_isDigit hd
  have hno : ∀ n ∈ List.range' 48 10, isNameStart (Char.ofNat n) = false := by
    decide
  have hc := hno c.toNat (List.mem_range'_1.mpr ⟨hn.1, Nat.lt_succ_of_le hn.2⟩)
  rw [Char.ofNat_toNat] at hc
  exact nomatch hc.symm.trans h

namespace Lexeme

/-- A text is read as one lexeme where a blank follows or the whole text ends. -/
def WrittenAs (l : Lexeme) (text : List Char) : Prop :=
  ∃ c cs, text = c :: cs ∧ isBlank c = false ∧
    ∀ inner offset rest, (∀ d ∈ rest.head?, d = ' ') →
      read inner offset c (cs ++ rest) = .ok (l, cs.length)

theorem writtenAs_text {mark : Char} (hmark : isQuote mark) (s : String) :
    (text s).WrittenAs (inQuotes mark s.toList) := by
  refine ⟨mark, _, rfl, ?_, fun inner offset rest _ => ?_⟩
  · simp only [isQuote, Bool.or_eq_true, beq_iff_eq] at hmark
    rcases hmark with rfl | rfl <;> rfl
  · have hq : mark = '\'' ∨ mark = '"' := by
      simpa [isQuote] using hmark
    have hread := readString_inQuotes hmark offset (offset + 1) s.toList rest
    rw [List.append_assoc, List.cons_append, List.nil_append, read, if_neg, if_pos hq, hread]
    · show Except.ok (text (String.ofList s.toList), _) = _
      simp
    · rcases hq with rfl | rfl <;> simp [Char.isDigit]

theorem writtenAs_name {n : String} (hn : isName n.toList) : (name n).WrittenAs n.toList := by
  match hcs : n.toList, hn with
  | c :: cs, hn =>
    obtain ⟨hc, hall⟩ := Bool.and_eq_true_iff.mp hn
    have hne {d : Char} (hd : isNameStart d = false) : c ≠ d := by
      rintro rfl
      exact nomatch hd.symm.trans hc
    refine ⟨c, cs, rfl, not_isBlank_of_isNameChar (isNameChar_of_isNameStart hc), fun inner offset rest hrest => ?_⟩
    have htake : (cs ++ rest).takeWhile isNameChar = cs := by
      rw [List.takeWhile_append_of_pos (by simpa using hall)]
      cases rest with
      | nil => simp
      | cons d rest =>
        obtain rfl := hrest d rfl
        have hquiet : ¬ isNameChar ' ' := by decide
        rw [List.takeWhile_cons_of_neg hquiet, List.append_nil]
    rw [read, if_neg, if_neg, if_neg (hne rfl), if_pos hc, htake]
    · show Except.ok (name (String.ofList (c :: cs)), cs.length) = _
      rw [← hcs, String.ofList_toList]
    · rintro (h | h)
      · exact hne rfl h
      · exact hne rfl h
    · rintro (h | ⟨h, -⟩)
      · exact nomatch (not_isDigit_of_isNameStart hc).symm.trans h
      · exact hne rfl h

theorem writtenAs_punct (p : Punct) : (punct p).WrittenAs p.text.toList := by
  cases p
  all_goals
    refine ⟨_, _, rfl, rfl, fun inner offset rest hrest => ?_⟩
    cases rest with
    | nil => rfl
    | cons d rest =>
      obtain rfl := hrest d rfl
      rfl

/-- The digits of a number, read back. -/
theorem readNumber_toDigits {n : Nat} {i : Int64} (hi : Value.word? n = some i) {rest : List Char}
    (hrest : ∀ d ∈ rest.head?, d = ' ') :
    readNumber (Nat.toDigits 10 n ++ rest) = (.int i, (Nat.toDigits 10 n).length) := by
  have htake : (Nat.toDigits 10 n ++ rest).takeWhile Char.isDigit = Nat.toDigits 10 n := by
    rw [List.takeWhile_append_of_pos fun c => Nat.isDigit_of_mem_toDigits (by decide) (by decide)]
    cases rest with
    | nil => simp
    | cons d rest =>
      obtain rfl := hrest d rfl
      simp [Char.isDigit]
  have hfraction : fractionOf rest = [] := by
    cases rest with
    | nil => rfl
    | cons d rest =>
      obtain rfl := hrest d rfl
      rfl
  have hexponent : exponentOf rest = [] := by
    cases rest with
    | nil => rfl
    | cons d rest =>
      obtain rfl := hrest d rfl
      rfl
  have hvalue : Decimal.digitsValue (Nat.toDigits 10 n) = n :=
    Nat.ofDigitChars_toDigits (by decide) (by decide)
  unfold readNumber
  simp [htake, hfraction, hexponent, hvalue, hi]

theorem word?_toInt (i : Int64) : Value.word? i.toInt = some i := by
  rw [Value.word?, if_pos ⟨i.minValue_le_toInt, i.toInt_le⟩, Int64.ofInt_toInt]

theorem writtenAs_int {i : Int64} (hi : 0 ≤ i.toInt) :
    (number (.int i)).WrittenAs (Nat.toDigits 10 i.toInt.toNat) := by
  have hword : Value.word? i.toInt.toNat = some i := by
    rw [Int.toNat_of_nonneg hi, word?_toInt]
  obtain ⟨c, cs, hcs⟩ := List.exists_cons_of_ne_nil (Nat.toDigits_ne_nil (n := i.toInt.toNat) (b := 10))
  have hc : c.isDigit :=
    Nat.isDigit_of_mem_toDigits (by decide) (by decide) (hcs ▸ List.mem_cons_self)
  refine ⟨c, cs, hcs, not_isBlank_of_isDigit hc, fun inner offset rest hrest => ?_⟩
  have hnumber := readNumber_toDigits hword hrest
  rw [hcs, List.cons_append] at hnumber
  rw [read, if_pos (.inl hc), hnumber]
  rfl

/-! ## Rows of lexemes -/

theorem readAll_nil (inner : List Char → Except ExprError Expr) (offset : Nat) :
    readAll inner offset [] = .ok [] := by
  unfold readAll
  rfl

theorem readAll_blank {inner : List Char → Except ExprError Expr} {offset : Nat} {c : Char}
    (hc : isBlank c) (cs : List Char) :
    readAll inner offset (c :: cs) = readAll inner (offset + c.utf8Size) cs := by
  conv => lhs; unfold readAll
  exact if_pos hc

/-- Blanks in front move the lexemes, and do no more. -/
theorem readAll_blanks (inner : List Char → Except ExprError Expr) (offset : Nat)
    {front : List Char} (h : allBlank front) (cs : List Char) :
    readAll inner offset (front ++ cs) = readAll inner (offset + byteLength front) cs := by
  induction front generalizing offset with
  | nil => rfl
  | cons c front ih =>
    obtain ⟨hc, hfront⟩ := Bool.and_eq_true_iff.mp h
    rw [List.cons_append, readAll_blank hc, ih _ hfront, byteLength, Nat.add_assoc]

/-- Where no blank stands, the text goes on with a lexeme. -/
theorem readAll_cons {c : Char} (hc : isBlank c = false)
    (inner : List Char → Except ExprError Expr) (offset : Nat) (cs : List Char) :
    readAll inner offset (c :: cs) = do
      let (l, n) ← read inner offset c cs
      let more ← readAll inner (offset + c.utf8Size + byteLength (cs.take n)) (cs.drop n)
      return ⟨l, offset⟩ :: more := by
  conv => lhs; unfold readAll
  exact if_neg (by simp [hc])

theorem readAll_eq_ok {inner : List Char → Except ExprError Expr} {offset : Nat} {c : Char}
    {cs : List Char} {ts : List Placed} (hc : isBlank c = false)
    (h : readAll inner offset (c :: cs) = .ok ts) :
    ∃ l n more, read inner offset c cs = .ok (l, n) ∧
      readAll inner (offset + c.utf8Size + byteLength (cs.take n)) (cs.drop n) = .ok more ∧
      ts = ⟨l, offset⟩ :: more := by
  rw [readAll_cons hc] at h
  obtain ⟨⟨l, n⟩, hl, h⟩ := of_bind_eq_ok h
  obtain ⟨more, hmore, h⟩ := of_bind_eq_ok h
  cases h
  exact ⟨l, n, more, hl, hmore, rfl⟩

theorem readAll_lexeme {inner : List Char → Except ExprError Expr} {offset n : Nat} {l : Lexeme}
    {c : Char} {cs : List Char} {more : List Placed} (hc : isBlank c = false)
    (hl : read inner offset c cs = .ok (l, n))
    (hmore : readAll inner (offset + c.utf8Size + byteLength (cs.take n)) (cs.drop n) = .ok more) :
    readAll inner offset (c :: cs) = .ok (⟨l, offset⟩ :: more) := by
  rw [readAll_cons hc, hl]
  exact congrArg (· >>= fun more => pure (⟨l, offset⟩ :: more)) hmore

/-- Lexemes with a blank between them are read back. -/
theorem readAll_spaced {ls : List Lexeme} {texts : List (List Char)}
    (h : List.Forall₂ WrittenAs ls texts) (inner : List Char → Except ExprError Expr) (offset : Nat) :
    ∃ ps, readAll inner offset ([' '].intercalate texts) = .ok ps ∧ ps.map Placed.lexeme = ls := by
  induction h generalizing offset with
  | nil => exact ⟨[], readAll_nil inner offset, rfl⟩
  | @cons l text ls texts hl h ih =>
    obtain ⟨c, cs, rfl, hc, hread⟩ := hl
    cases h with
    | nil =>
      have hlast := hread inner offset [] nofun
      rw [List.append_nil] at hlast
      rw [List.intercalate_singleton]
      refine ⟨[⟨l, offset⟩], readAll_lexeme hc hlast ?_, rfl⟩
      rw [List.drop_length, readAll_nil]
    | cons =>
      obtain ⟨ps, hps, hls⟩ := ih (offset + c.utf8Size + byteLength cs + ' '.utf8Size)
      refine ⟨⟨l, offset⟩ :: ps, ?_, congrArg (l :: ·) hls⟩
      rw [List.intercalate_cons_cons, List.append_assoc, List.cons_append]
      refine readAll_lexeme hc (hread inner offset _ (by rintro d ⟨⟩; rfl)) ?_
      rw [List.take_left, List.drop_left, List.singleton_append, readAll_blank rfl, hps]

end Lexeme

end PugTemplate
