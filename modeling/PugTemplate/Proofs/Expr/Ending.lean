import PugTemplate.Lex.Attribute
import PugTemplate.Proofs.Expr.Bracket

/-!
# What an expression ends in

An expression ends in a number, a literal, a name or a closing bracket. So its last character is no
operator, and where no blank stands outside its brackets and literals it is no blank either.
-/

namespace PugTemplate

/-- Of a class of characters without an operator, none is one. -/
theorem not_isOperatorChar_of {p : Char → Bool} (hp : "+-*/%?:<>=&|.".toList.any p = false)
    {c : Char} (h : p c) : isOperatorChar c = false :=
  Bool.eq_false_iff.mpr fun hc =>
    List.any_eq_false.mp hp c (List.contains_iff_mem.mp hc) h

/-! ## The last character of a lexeme -/

namespace Lexeme

/-- What a lexeme may end in: a mark in its own last character, any other lexeme in no operator. -/
def EndsIn (l : Lexeme) (d : Char) : Prop :=
  match l with
  | punct p => p.text.toList.getLast? = some d
  | _ => isBlank d = false ∧ isOperatorChar d = false

/-! ### Numbers -/

/-- A text without characters, or one whose last is a digit. -/
def EndsInDigit (text : List Char) : Prop :=
  ∀ d ∈ text.getLast?, d.isDigit

theorem EndsInDigit.nil : EndsInDigit [] :=
  nofun

theorem endsInDigit_of_forall {text : List Char} (h : ∀ d ∈ text, d.isDigit) : EndsInDigit text :=
  fun d hd => h d (List.mem_of_getLast? hd)

theorem endsInDigit_digits (cs : List Char) : EndsInDigit (cs.takeWhile Char.isDigit) :=
  endsInDigit_of_forall (List.all_eq_true.mp List.all_takeWhile)

/-- Whatever stands before digits. -/
theorem EndsInDigit.behind {vs : List Char} (h : EndsInDigit vs) (hne : vs.isEmpty = false)
    (us : List Char) : EndsInDigit (us ++ vs) := by
  have hne : vs ≠ [] := by
    rintro rfl
    exact nomatch hne
  intro d hd
  rw [List.getLast?_append_of_ne_nil us hne] at hd
  exact h d hd

theorem EndsInDigit.append {us vs : List Char} (hu : EndsInDigit us) (hv : EndsInDigit vs) :
    EndsInDigit (us ++ vs) := by
  cases vs with
  | nil => rwa [List.append_nil]
  | cons v vs => exact hv.behind rfl us

theorem endsInDigit_fractionOf (cs : List Char) : EndsInDigit (fractionOf cs) := by
  unfold fractionOf
  split
  next cs =>
    dsimp only
    split
    next => exact .nil
    next h => exact (endsInDigit_digits cs).behind (Bool.eq_false_iff.mpr h) ['.']
  next => exact .nil

theorem endsInDigit_exponentOf (cs : List Char) : EndsInDigit (exponentOf cs) := by
  unfold exponentOf
  split
  next => exact .nil
  next c cs =>
    split
    next =>
      dsimp only
      split
      next => exact .nil
      next h => exact (endsInDigit_digits _).behind (Bool.eq_false_iff.mpr h) (c :: _)
    next => exact .nil

/-- A number takes the first characters of a text, up to a digit. -/
theorem endsInDigit_readNumber (cs : List Char) : EndsInDigit (cs.take (readNumber cs).2) := by
  have hfraction := starts_fractionOf (cs.drop (cs.takeWhile Char.isDigit).length)
  have hnumber := ((starts_digits cs).append hfraction).append (starts_exponentOf _)
  rw [List.length_append] at hnumber
  have htake : cs.take (readNumber cs).2 = _ := (List.prefix_iff_eq_take.mp hnumber.1).symm
  rw [htake]
  exact ((endsInDigit_digits cs).append (endsInDigit_fractionOf _)).append
    (endsInDigit_exponentOf _)

/-- What begins with a digit, or with a point and a digit, has a number in front. -/
theorem readNumber_pos {c : Char} {cs : List Char}
    (h : c.isDigit ∨ (c = '.' ∧ cs.head?.any Char.isDigit)) : 0 < (readNumber (c :: cs)).2 := by
  unfold readNumber
  dsimp only
  rw [List.length_append, List.length_append]
  rcases h with h | ⟨rfl, h⟩
  · rw [List.takeWhile_cons_of_pos h, List.length_cons]
    omega
  · obtain ⟨d, ds, rfl, hdigit⟩ : ∃ d ds, cs = d :: ds ∧ d.isDigit := by
      cases cs with
      | nil => exact nomatch h
      | cons d ds => exact ⟨d, ds, rfl, h⟩
    have hfraction : fractionOf ('.' :: d :: ds) = '.' :: d :: ds.takeWhile Char.isDigit := by
      simp [fractionOf, hdigit]
    rw [List.takeWhile_cons_of_neg (by decide), List.length_nil, List.drop_zero, hfraction,
      List.length_cons]
    omega

/-! ### Literals -/

theorem take_readString {mark : Char} {base offset n : Nat} {cs s : List Char}
    (h : readString mark base offset cs = .ok (s, n)) : ∃ ds, cs.take n = ds ++ [mark] := by
  match cs with
  | [] => simp [readString] at h
  | c :: cs =>
    unfold readString at h
    split at h
    next hc =>
      cases h
      exact ⟨[], by rw [hc]; rfl⟩
    next =>
      split at h
      next =>
        obtain ⟨⟨ch, m⟩, _, h⟩ := of_bind_eq_ok h
        obtain ⟨⟨s, k⟩, hs, h⟩ := of_bind_eq_ok h
        cases h
        obtain ⟨ds, hds⟩ := take_readString hs
        refine ⟨c :: (cs.take m ++ ds), ?_⟩
        rw [Nat.add_assoc, Nat.add_comm, List.take_succ_cons, List.take_add, hds, List.cons_append,
          List.append_assoc]
      next =>
        split at h
        next => cases h
        next =>
          obtain ⟨⟨s, k⟩, hs, h⟩ := of_bind_eq_ok h
          cases h
          obtain ⟨ds, hds⟩ := take_readString hs
          exact ⟨c :: ds, by rw [Nat.add_comm, List.take_succ_cons, hds]; rfl⟩
termination_by cs.length

theorem take_readTemplate {inner : List Char → Except ExprError Expr} {base offset n : Nat}
    {cs : List Char} {ps : List Part} (h : readTemplate inner base offset cs = .ok (ps, n)) :
    ∃ ds, cs.take n = ds ++ ['`'] := by
  match cs with
  | [] => simp [readTemplate] at h
  | c :: cs =>
    unfold readTemplate at h
    split at h
    next hc =>
      cases h
      exact ⟨[], by rw [hc]; rfl⟩
    next =>
      split at h
      next =>
        obtain ⟨⟨ch, m⟩, _, h⟩ := of_bind_eq_ok h
        obtain ⟨⟨ps, k⟩, hps, h⟩ := of_bind_eq_ok h
        cases h
        obtain ⟨ds, hds⟩ := take_readTemplate hps
        refine ⟨c :: (cs.take m ++ ds), ?_⟩
        rw [Nat.add_assoc, Nat.add_comm, List.take_succ_cons, List.take_add, hds, List.cons_append,
          List.append_assoc]
      next =>
        split at h
        next =>
          dsimp only at h
          split at h
          next => cases h
          next content _ =>
            split at h
            next => cases h
            next =>
              obtain ⟨⟨ps, k⟩, hps, h⟩ := of_bind_eq_ok h
              cases h
              obtain ⟨ds, hds⟩ := take_readTemplate hps
              refine ⟨c :: (cs.take (content.length + 2) ++ ds), ?_⟩
              rw [Nat.add_assoc, Nat.add_comm, List.take_succ_cons, List.take_add, hds,
                List.cons_append, List.append_assoc]
        next =>
          obtain ⟨⟨ps, k⟩, hps, h⟩ := of_bind_eq_ok h
          cases h
          obtain ⟨ds, hds⟩ := take_readTemplate hps
          exact ⟨c :: ds, by rw [Nat.add_comm, List.take_succ_cons, hds]; rfl⟩
termination_by cs.length
decreasing_by
  all_goals
    simp only [List.length_cons, List.length_drop]
    omega

/-! ### Any lexeme -/

theorem isDigit_operators : ("+-*/%?:<>=&|.".toList.any Char.isDigit) = false := by decide

theorem isNameChar_operators : ("+-*/%?:<>=&|.".toList.any isNameChar) = false := by decide

theorem endsIn_read {inner : List Char → Except ExprError Expr} {offset n : Nat} {c : Char}
    {cs : List Char} {l : Lexeme} (h : read inner offset c cs = .ok (l, n)) :
    ∃ d, (c :: cs.take n).getLast? = some d ∧ l.EndsIn d := by
  obtain ⟨d, hlast⟩ : ∃ d, (c :: cs.take n).getLast? = some d :=
    ⟨_, List.getLast?_eq_some_getLast (List.cons_ne_nil c (cs.take n))⟩
  unfold read at h
  split at h
  next hc =>
    have hpos := readNumber_pos hc
    have hdigit := endsInDigit_readNumber (c :: cs)
    rcases hnumber : readNumber (c :: cs) with ⟨value, k⟩
    rw [hnumber] at h hpos hdigit
    cases h
    rw [← List.take_succ_cons, Nat.sub_add_cancel hpos] at hlast ⊢
    have hd := hdigit _ hlast
    exact ⟨d, hlast, not_isBlank_of_isDigit hd, not_isOperatorChar_of isDigit_operators hd⟩
  next =>
    split at h
    next hc =>
      obtain ⟨⟨s, k⟩, hs, h⟩ := of_bind_eq_ok h
      cases h
      obtain ⟨ds, hds⟩ := take_readString hs
      refine ⟨c, by rw [hds, ← List.cons_append, List.getLast?_concat], ?_⟩
      rcases hc with rfl | rfl <;> exact ⟨rfl, rfl⟩
    next =>
      split at h
      next hc =>
        obtain ⟨⟨ps, k⟩, hps, h⟩ := of_bind_eq_ok h
        cases h
        obtain ⟨ds, hds⟩ := take_readTemplate hps
        exact ⟨'`', by rw [hds, ← List.cons_append, List.getLast?_concat], rfl, rfl⟩
      next =>
        split at h
        next hc =>
          cases h
          have hall : ∀ d ∈ c :: cs.take (cs.takeWhile isNameChar).length, isNameChar d := by
            rw [← List.prefix_iff_eq_take.mp (List.takeWhile_prefix isNameChar)]
            exact List.forall_mem_cons.mpr ⟨isNameChar_of_isNameStart hc,
              List.all_eq_true.mp List.all_takeWhile⟩
          have hd := hall _ (List.mem_of_getLast? hlast)
          exact ⟨d, hlast, not_isBlank_of_isNameChar hd,
            not_isOperatorChar_of isNameChar_operators hd⟩
        next =>
          split at h
          next p hp =>
            cases h
            have htext : p.text.toList ≠ [] := by
              cases p <;> exact List.cons_ne_nil _ _
            have hmark := cons_take_of_isPrefix (text_of_ofStart? hp) htext
            rw [String.length_toList] at hmark
            rw [hmark] at hlast ⊢
            exact ⟨d, hlast, hlast⟩
          next => exact nomatch h

end Lexeme

/-! ## The last character of an expression -/

namespace Nesting

/-- No blank stands outside all brackets and literals of a text, so many of them being open in front
of it. -/
def Compact (open_ : List Enclosure) (cs : List Char) : Prop :=
  ∀ before c after, cs = before ++ c :: after → before.foldlM feed open_ = .ok [] →
    isBlank c = false

theorem Compact.nil {open_ : List Enclosure} : Compact open_ [] :=
  fun before _ _ h => absurd h.symm (by simp)

theorem Compact.cons {open_ mid : List Enclosure} {c : Char} {cs : List Char}
    (hc : open_ = [] → isBlank c = false) (hfeed : feed open_ c = .ok mid) (h : Compact mid cs) :
    Compact open_ (c :: cs) := by
  intro before d after heq hbefore
  cases before with
  | nil =>
    cases heq
    cases hbefore
    exact hc rfl
  | cons b before =>
    obtain ⟨rfl, rfl⟩ := List.cons.inj heq
    rw [List.foldlM_cons, hfeed] at hbefore
    exact h before d after rfl hbefore

theorem Compact.behind {open_ mid : List Enclosure} {front cs : List Char}
    (h : Compact open_ (front ++ cs)) (hfront : Passes open_ front mid) : Compact mid cs := by
  rintro before c after rfl hbefore
  refine h (front ++ before) c after (List.append_assoc ..).symm ?_
  rw [List.foldlM_append, hfront.foldlM_feed]
  exact hbefore

theorem Compact.tail {open_ mid : List Enclosure} {c : Char} {cs : List Char}
    (h : Compact open_ (c :: cs)) (hc : Passes open_ [c] mid) : Compact mid cs := by
  have h : Compact open_ ([c] ++ cs) := h
  exact h.behind hc

end Nesting

open Nesting (isQuiet passes_of_isQuiet)

namespace Lexeme

theorem endsIn_readAll {inner : List Char → Except ExprError Expr} {offset : Nat} {cs : List Char}
    {ts : List Placed} {open_ : List Bracket} (h : readAll inner offset cs = .ok ts)
    (hts : Expr.nests open_ ts = some []) (hcs : Nesting.Compact (open_.map .bracket) cs)
    (hne : cs ≠ []) :
    ∃ t d, ts.getLast? = some t ∧ cs.getLast? = some d ∧ t.lexeme.EndsIn d := by
  match cs with
  | [] => exact absurd rfl hne
  | c :: cs =>
    cases hc : isBlank c with
    | true =>
      rw [readAll_blank hc] at h
      by_cases hnil : cs = []
      -- a blank at the end would stand outside everything
      · subst hnil
        rw [readAll_nil] at h
        cases h
        cases hts
        exact nomatch hc.symm.trans (hcs [] c [] rfl rfl)
      · have hquiet : ∀ d ∈ [c], isQuiet d :=
          List.forall_mem_singleton.mpr (Nesting.isQuiet_of rfl hc)
        have hblank := passes_of_isQuiet (outside_brackets open_) hquiet
        rw [List.getLast?_cons_of_ne_nil hnil]
        exact endsIn_readAll h hts (hcs.tail hblank) hnil
    | false =>
      obtain ⟨l, n, more, hl, hmore, rfl⟩ := readAll_eq_ok hc h
      obtain ⟨mid, hmid, hts⟩ := Option.bind_eq_some_iff.mp hts
      have hpasses := passes_read hl hmid
      obtain ⟨d, hd, hends⟩ := endsIn_read hl
      have hsplit : c :: cs = (c :: cs.take n) ++ cs.drop n := by
        rw [List.cons_append, List.take_append_drop]
      by_cases hnil : cs.drop n = []
      · rw [hnil] at hmore hsplit
        rw [readAll_nil] at hmore
        cases hmore
        rw [hsplit, List.append_nil]
        exact ⟨_, d, rfl, hd, hends⟩
      · rw [hsplit] at hcs ⊢
        obtain ⟨t, d, ht, hd, hends⟩ := endsIn_readAll hmore hts (hcs.behind hpasses) hnil
        refine ⟨t, d, ?_, by rwa [List.getLast?_append_of_ne_nil _ hnil], hends⟩
        rw [List.getLast?_cons_of_ne_nil fun hm => nomatch hm ▸ ht]
        exact ht
termination_by cs.length
decreasing_by
  all_goals
    simp only [List.length_cons, List.length_drop]
    omega

/-- Whether a lexeme may stand last in what spells an expression. -/
def closes : Lexeme → Bool
  | punct p => p == .closeRound || p == .closeSquare || p == .closeCurly
  | _ => true

theorem not_isOperatorChar_of_closes {l : Lexeme} (hl : l.closes) {d : Char} (h : l.EndsIn d) :
    isBlank d = false ∧ isOperatorChar d = false := by
  cases l with
  | punct p =>
    simp only [closes, Bool.or_eq_true, beq_iff_eq] at hl
    rcases hl with (rfl | rfl) | rfl
    · cases h
      exact ⟨rfl, rfl⟩
    · cases h
      exact ⟨rfl, rfl⟩
    · cases h
      exact ⟨rfl, rfl⟩
  | _ => exact h

end Lexeme

namespace Expr

/-- A row whose last lexeme may end an expression. -/
def Closed (us : List Placed) : Prop :=
  ∃ t, us.getLast? = some t ∧ t.lexeme.closes

theorem Closed.behind {vs : List Placed} (h : Closed vs) (us : List Placed) : Closed (us ++ vs) := by
  obtain ⟨t, ht, hclose⟩ := h
  exact ⟨t, by rw [List.getLast?_append, ht, Option.some_or], hclose⟩

theorem closed_single {t : Placed} (h : t.lexeme.closes) : Closed [t] :=
  ⟨t, rfl, h⟩

theorem closes_of_keyOf? {key : String × Bool} {l : Lexeme} (h : keyOf? l = some key) :
    l.closes := by
  cases l with
  | punct p => exact nomatch h
  | _ => rfl

/-- What spells an expression does not end in an operator. -/
theorem Spells.closed {f : Form} {us : List Placed} (h : Spells us f) : Closed us := by
  induction h with
  | looser _ _ ih => exact ih
  | @conditional _ _ _ us vs ws i j _ _ _ _ _ ih =>
    exact (((ih.behind [_]).behind vs).behind [_]).behind us
  | @binary _ _ _ _ _ t us vs _ _ _ _ _ ih | @moreItems _ _ us vs _ _ _ _ ih
  | @moreEntries _ _ _ us vs _ _ _ _ ih => exact (ih.behind [_]).behind us
  | unary _ _ ih | array _ ih | object _ ih => exact ih.behind [_]
  | member property _ _ => exact ((closed_single (by rfl)).behind [_]).behind _
  | index _ _ _ _ => exact (((closed_single (by rfl)).behind _).behind [_]).behind _
  | parens _ _ => exact ((closed_single (by rfl)).behind _).behind [_]
  | pair _ _ ih => exact ih.behind [_, _]
  | alone hk => exact closed_single (closes_of_keyOf? hk)
  | lastItem _ _ | lastEntry _ _ => exact (closed_single (by rfl)).behind _
  | _ => exact closed_single rfl

/-- What reads as an expression, with its blanks inside brackets and literals, ends in a character
that no blank behind it is carried on by. -/
theorem exists_last_read {src : List Char} {e : Expr} (h : read src = .ok e)
    (hsrc : Nesting.Compact [] src) :
    ∃ d, src.getLast? = some d ∧ isBlank d = false ∧ isOperatorChar d = false := by
  rw [read] at h
  obtain ⟨ts, hts, hspells⟩ := readWith_eq_ok_iff.mp h
  obtain ⟨u, hu, hclose⟩ := hspells.closed
  have hne : src ≠ [] := by
    rintro rfl
    rw [Lexeme.readAll_nil] at hts
    cases hts
    cases hu
  obtain ⟨t, d, ht, hd, hends⟩ := Lexeme.endsIn_readAll hts (hspells.nests []) hsrc hne
  obtain rfl := Option.some.inj (hu.symm.trans ht)
  exact ⟨d, hd, Lexeme.not_isOperatorChar_of_closes hclose hends⟩

end Expr

end PugTemplate
