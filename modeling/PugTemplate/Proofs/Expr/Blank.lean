import PugTemplate.Proofs.Expr.Bracket

/-!
# Blanks around an expression

A lexeme ends in a character that is no blank, and it is read the same where blanks follow. So an
expression stays the same without the blanks behind it, and with others in front.
-/

namespace PugTemplate

namespace Nesting

/-- Blanks behind a closing bracket do not matter to what it closes. -/
theorem inside_of_append_blank {b : Bracket} {cs content blank : List Char}
    (hblank : allBlank blank) (h : inside b (cs ++ blank) = .ok content) :
    content.length < cs.length ∧ inside b cs = .ok content := by
  obtain ⟨rest, hrest⟩ := inside_closing h
  have hlength : content.length < cs.length := by
    refine lt_length_of_drop hblank ?_
    rw [hrest, List.drop_left]
    cases b <;> rfl
  exact ⟨hlength, inside_of_append h hlength⟩

end Nesting

namespace Lexeme

variable {cs blank : List Char}

/-! ## Numbers -/

theorem fractionOf_cons_of_ne {c : Char} (hc : c ≠ '.') (cs : List Char) :
    fractionOf (c :: cs) = [] := by
  unfold fractionOf
  split
  next heq =>
    cases heq
    exact absurd rfl hc
  next => rfl

theorem fractionOf_append_blank (hblank : allBlank blank) (cs : List Char) :
    fractionOf (cs ++ blank) = fractionOf cs := by
  cases cs with
  | nil =>
    cases blank with
    | nil => rfl
    | cons b blank =>
      refine fractionOf_cons_of_ne ?_ blank
      rintro rfl
      exact nomatch hblank
  | cons c cs =>
    rw [List.cons_append]
    by_cases hc : c = '.'
    · subst hc
      simp only [fractionOf,
        takeWhile_append_blank (p := Char.isDigit) isDigit_blanks hblank]
    · rw [fractionOf_cons_of_ne hc, fractionOf_cons_of_ne hc]

theorem filter_take_append_blank (hblank : allBlank blank) (cs : List Char) :
    ((cs ++ blank).take 1).filter (fun s => s == '+' || s == '-') =
      (cs.take 1).filter (fun s => s == '+' || s == '-') := by
  cases cs with
  | nil =>
    cases blank with
    | nil => rfl
    | cons b blank =>
      have hb : isBlank b := List.all_eq_true.mp hblank b List.mem_cons_self
      refine List.filter_eq_nil_iff.mpr fun d hd hsign => ?_
      obtain rfl := List.mem_singleton.mp hd
      exact nomatch (not_isBlank_of (p := fun s => s == '+' || s == '-') (by decide) hsign).symm.trans hb
  | cons c cs => rfl

theorem exponentOf_append_blank (hblank : allBlank blank) (cs : List Char) :
    exponentOf (cs ++ blank) = exponentOf cs := by
  cases cs with
  | nil =>
    cases blank with
    | nil => rfl
    | cons b blank =>
      refine if_neg ?_
      rintro (rfl | rfl) <;> exact nomatch hblank
  | cons c cs =>
    have hlength : ((cs.take 1).filter fun s => s == '+' || s == '-').length ≤ cs.length :=
      Nat.le_trans (List.length_filter_le _ _) (List.length_take_le' _ _)
    simp only [List.cons_append, exponentOf, filter_take_append_blank hblank,
      List.drop_append_of_le_length hlength,
      takeWhile_append_blank (p := Char.isDigit) isDigit_blanks hblank]

theorem readNumber_append_blank (hblank : allBlank blank) (cs : List Char) :
    readNumber (cs ++ blank) = readNumber cs := by
  have hwhole := starts_digits cs
  have hnumber := hwhole.append (starts_fractionOf _)
  have hlength := hnumber.1.length_le
  rw [List.length_append] at hlength
  unfold readNumber
  simp only [takeWhile_append_blank (p := Char.isDigit) isDigit_blanks hblank,
    List.drop_append_of_le_length hwhole.1.length_le, fractionOf_append_blank hblank,
    List.drop_append_of_le_length hlength, exponentOf_append_blank hblank]

/-! ## Strings and backtick literals -/

theorem readEscape_of_append {more : List Char} {r : Option Char} {n : Nat}
    (h : readEscape (cs ++ more) = .ok (r, n)) (hn : n ≤ cs.length) :
    readEscape cs = .ok (r, n) := by
  obtain ⟨d, ds, -, hlength, -⟩ := readEscape_eq_ok h
  match cs, h with
  | [], h =>
    rw [← hlength] at hn
    exact absurd hn (Nat.not_succ_le_zero _)
  | c :: cs, h =>
    rw [List.cons_append] at h
    unfold readEscape at h ⊢
    dsimp only at h ⊢
    generalize (if c = 'u' then 4 else if c = 'x' then 2 else 0) = places at h ⊢
    split at h
    next hp =>
      rw [if_pos hp]
      exact h
    next hp =>
      rw [if_neg hp]
      split at h
      next ch hch =>
        cases h
        have hplaces : places ≤ cs.length := by
          rw [List.length_cons] at hn
          omega
        have hchar : hexChar? places cs = some ch := by
          rw [← hch, hexChar?, hexChar?, List.take_append_of_le_length hplaces]
        rw [hchar]
      next => cases h

/-- No string ends among blanks. -/
theorem not_blank_of_readString {mark : Char} (hmark : isQuote mark) {base offset : Nat}
    {r : List Char × Nat} (h : readString mark base offset cs = .ok r) : allBlank cs = false := by
  refine Bool.eq_false_iff.mpr fun hblank => ?_
  induction cs generalizing offset r with
  | nil => simp [readString] at h
  | cons c cs ih =>
    obtain ⟨hc, hcs⟩ := Bool.and_eq_true_iff.mp hblank
    unfold readString at h
    split at h
    next hm =>
      subst hm
      cases (not_isBlank_of (p := isQuote) (by decide) hmark).symm.trans hc
    next =>
      split at h
      next hs =>
        subst hs
        cases hc
      next =>
        split at h
        next => cases h
        next =>
          obtain ⟨r, hr, -⟩ := of_bind_eq_ok h
          exact ih hr hcs

theorem readString_of_append_blank {mark : Char} (hmark : isQuote mark) {cs blank : List Char}
    (hblank : allBlank blank) {base offset n : Nat} {s : List Char}
    (h : readString mark base offset (cs ++ blank) = .ok (s, n)) (base' offset' : Nat) :
    n ≤ cs.length ∧ readString mark base' offset' cs = .ok (s, n) := by
  match cs with
  | [] => exact nomatch hblank.symm.trans (not_blank_of_readString hmark h)
  | c :: cs =>
    rw [List.cons_append] at h
    unfold readString at h
    rw [readString]
    split at h
    next hc =>
      cases h
      exact ⟨Nat.le_add_left 1 _, if_pos hc⟩
    next hm =>
      rw [if_neg hm]
      split at h
      next hc =>
        rw [if_pos hc]
        obtain ⟨⟨ch, m⟩, hch, h⟩ := of_bind_eq_ok h
        obtain ⟨⟨s, k⟩, hs, h⟩ := of_bind_eq_ok h
        cases h
        have hlt : m < cs.length := lt_length_of_drop hblank (not_blank_of_readString hmark hs)
        rw [List.drop_append_of_le_length (Nat.le_of_lt hlt)] at hs
        have hescape := readEscape_of_append (placeCause_eq_ok hch) (Nat.le_of_lt hlt)
        obtain ⟨hk, hread⟩ := readString_of_append_blank hmark hblank hs base'
          (offset' + 1 + byteLength (cs.take m))
        rw [List.length_drop] at hk
        refine ⟨by rw [List.length_cons]; omega, ?_⟩
        simp only [hescape, placeCause, Expr.ok_bind, hread]
        rfl
      next hs =>
        rw [if_neg hs]
        split at h
        next => cases h
        next hfeed =>
          obtain ⟨⟨s, k⟩, hs, h⟩ := of_bind_eq_ok h
          cases h
          obtain ⟨hk, hread⟩ :=
            readString_of_append_blank hmark hblank hs base' (offset' + c.utf8Size)
          rw [if_neg hfeed, hread]
          exact ⟨by rw [List.length_cons]; omega, rfl⟩
termination_by cs.length
decreasing_by
  all_goals
    subst_vars
    simp only [List.length_cons, List.length_drop]
    omega

theorem not_blank_of_readTemplate {inner : List Char → Except ExprError Expr} {base offset : Nat}
    {r : List Part × Nat} (h : readTemplate inner base offset cs = .ok r) : allBlank cs = false := by
  refine Bool.eq_false_iff.mpr fun hblank => ?_
  induction cs generalizing offset r with
  | nil => simp [readTemplate] at h
  | cons c cs ih =>
    obtain ⟨hc, hcs⟩ := Bool.and_eq_true_iff.mp hblank
    have hne {d : Char} (hd : isBlank d = false) : c ≠ d := by
      rintro rfl
      cases hd.symm.trans hc
    unfold readTemplate at h
    rw [if_neg (hne rfl), if_neg (hne rfl), if_neg fun hhole => hne rfl hhole.1] at h
    obtain ⟨r, hr, -⟩ := of_bind_eq_ok h
    exact ih hr hcs

theorem readTemplate_of_append_blank {inner inner' : List Char → Except ExprError Expr}
    {cs blank : List Char} (hblank : allBlank blank)
    (hinner : ∀ hole, hole.length < cs.length → ∀ e, inner hole = .ok e → inner' hole = .ok e)
    {base offset n : Nat} {ps : List Part}
    (h : readTemplate inner base offset (cs ++ blank) = .ok (ps, n)) (base' offset' : Nat) :
    n ≤ cs.length ∧ readTemplate inner' base' offset' cs = .ok (ps, n) := by
  match cs with
  | [] => exact nomatch hblank.symm.trans (not_blank_of_readTemplate h)
  | c :: cs =>
    rw [List.cons_append] at h
    unfold readTemplate at h
    rw [readTemplate]
    split at h
    next hc =>
      cases h
      exact ⟨Nat.le_add_left 1 _, if_pos hc⟩
    next hm =>
      rw [if_neg hm]
      split at h
      next hc =>
        rw [if_pos hc]
        obtain ⟨⟨ch, m⟩, hch, h⟩ := of_bind_eq_ok h
        obtain ⟨⟨ps, k⟩, hps, h⟩ := of_bind_eq_ok h
        cases h
        have hlt : m < cs.length := lt_length_of_drop hblank (not_blank_of_readTemplate hps)
        rw [List.drop_append_of_le_length (Nat.le_of_lt hlt)] at hps
        have hescape := readEscape_of_append (placeCause_eq_ok hch) (Nat.le_of_lt hlt)
        obtain ⟨hk, hread⟩ := readTemplate_of_append_blank hblank (fun hole hlength => hinner hole
          (by simp only [List.length_drop, List.length_cons] at hlength ⊢; omega)) hps base'
          (offset' + 1 + byteLength (cs.take m))
        rw [List.length_drop] at hk
        refine ⟨by rw [List.length_cons]; omega, ?_⟩
        simp only [hescape, placeCause, Expr.ok_bind, hread]
        rfl
      next hs =>
        rw [if_neg hs]
        split at h
        next hhole =>
          obtain ⟨rfl, hcurly⟩ := hhole
          have hcurly := (head?_append_blank hblank cs rfl).mp hcurly
          rw [if_pos ⟨rfl, hcurly⟩]
          obtain ⟨cs, rfl⟩ := List.head?_eq_some_iff.mp hcurly
          rw [List.cons_append, List.tail_cons] at h
          dsimp only at h
          split at h
          next => cases h
          next content hcontent =>
            split at h
            next => cases h
            next e he =>
              obtain ⟨⟨ps, k⟩, hps, h⟩ := of_bind_eq_ok h
              cases h
              obtain ⟨hlt, hinside⟩ := Nesting.inside_of_append_blank hblank hcontent
              rw [List.drop_succ_cons, List.drop_append_of_le_length hlt] at hps
              have he := hinner content (by simp only [List.length_cons]; omega) e he
              obtain ⟨hk, hread⟩ := readTemplate_of_append_blank hblank (fun hole hlength =>
                hinner hole (by simp only [List.length_drop, List.length_cons] at hlength ⊢; omega))
                hps base' (offset' + 2 + byteLength content + 1)
              rw [List.length_drop] at hk
              refine ⟨by simp only [List.length_cons]; omega, ?_⟩
              simp only [List.tail_cons, hinside, he, List.drop_succ_cons, Expr.ok_bind, hread]
              rfl
        next hhole =>
          rw [if_neg fun hand => hhole ⟨hand.1, (head?_append_blank hblank cs rfl).mpr hand.2⟩]
          obtain ⟨⟨ps, k⟩, hps, h⟩ := of_bind_eq_ok h
          cases h
          obtain ⟨hk, hread⟩ := readTemplate_of_append_blank hblank
            (fun hole hlength => hinner hole (Nat.lt_succ_of_lt hlength)) hps base'
            (offset' + c.utf8Size)
          refine ⟨by rw [List.length_cons]; omega, ?_⟩
          rw [hread]
          rfl
termination_by cs.length
decreasing_by
  all_goals
    subst_vars
    simp only [List.length_cons, List.length_drop]
    omega

/-! ## Any lexeme -/

theorem ofStart?_append_blank (hblank : allBlank blank) (cs : List Char) :
    Punct.ofStart? (cs ++ blank) = Punct.ofStart? cs := by
  unfold Punct.ofStart?
  refine congrArg (Punct.all.find? ·) (funext fun p => ?_)
  exact isPrefixOf_append_blank (by cases p <;> rfl) hblank cs

theorem read_of_append_blank {inner inner' : List Char → Except ExprError Expr}
    (hblank : allBlank blank)
    (hinner : ∀ hole, hole.length < cs.length → ∀ e, inner hole = .ok e → inner' hole = .ok e)
    {offset n : Nat} {c : Char} {l : Lexeme} (h : read inner offset c (cs ++ blank) = .ok (l, n))
    (offset' : Nat) : n ≤ cs.length ∧ read inner' offset' c cs = .ok (l, n) := by
  unfold read at h ⊢
  rw [any_head?_append_blank isDigit_blanks hblank] at h
  split at h
  next hc =>
    rw [if_pos hc]
    obtain ⟨text, ⟨htext, -⟩, hlength⟩ := starts_readNumber (c :: cs)
    have hle := htext.length_le
    rw [← List.cons_append, readNumber_append_blank hblank] at h
    rcases hnumber : readNumber (c :: cs) with ⟨value, k⟩
    rw [hnumber] at h hlength
    cases h
    cases hlength
    exact ⟨by rw [List.length_cons] at hle; omega, rfl⟩
  next hc =>
    rw [if_neg hc]
    split at h
    next hc =>
      rw [if_pos hc]
      obtain ⟨⟨s, k⟩, hs, h⟩ := of_bind_eq_ok h
      cases h
      have hmark : isQuote c := by
        rcases hc with rfl | rfl <;> rfl
      obtain ⟨hn, hread⟩ := readString_of_append_blank hmark hblank hs offset' (offset' + 1)
      rw [hread]
      exact ⟨hn, rfl⟩
    next hc =>
      rw [if_neg hc]
      split at h
      next hc =>
        rw [if_pos hc]
        obtain ⟨⟨ps, k⟩, hps, h⟩ := of_bind_eq_ok h
        cases h
        obtain ⟨hn, hread⟩ := readTemplate_of_append_blank hblank hinner hps offset' (offset' + 1)
        rw [hread]
        exact ⟨hn, rfl⟩
      next hc =>
        rw [if_neg hc]
        split at h
        next hc =>
          rw [if_pos hc]
          rw [takeWhile_append_blank isNameChar_blanks hblank] at h
          cases h
          exact ⟨(List.takeWhile_prefix isNameChar).length_le, rfl⟩
        next hc =>
          rw [if_neg hc]
          rw [← List.cons_append, ofStart?_append_blank hblank] at h
          split at h
          next p hp =>
            cases h
            have htext := (text_of_ofStart? hp).length_le
            rw [String.length_toList, List.length_cons] at htext
            exact ⟨by omega, rfl⟩
          next => exact nomatch h

end Lexeme

/-! ## Rows of lexemes -/

/-- A lexeme that stands further on. -/
def Placed.shift (k : Nat) (t : Placed) : Placed :=
  ⟨t.lexeme, t.offset + k⟩

theorem Lexeme.readAll_of_append_blank {inner inner' : List Char → Except ExprError Expr}
    {cs blank : List Char} (hblank : allBlank blank)
    (hinner : ∀ hole, hole.length < cs.length → ∀ e, inner hole = .ok e → inner' hole = .ok e)
    {offset : Nat} {ts : List Placed} (h : readAll inner offset (cs ++ blank) = .ok ts) (k : Nat) :
    readAll inner' (offset + k) cs = .ok (ts.map (Placed.shift k)) := by
  match cs with
  | [] =>
    rw [List.nil_append, ← List.append_nil blank, readAll_blanks inner offset hblank,
      readAll_nil] at h
    cases h
    exact readAll_nil inner' _
  | c :: cs =>
    rw [List.cons_append] at h
    cases hc : isBlank c with
    | true =>
      rw [readAll_blank hc] at h
      rw [readAll_blank hc, Nat.add_right_comm]
      exact readAll_of_append_blank hblank
        (fun hole hlength => hinner hole (Nat.lt_succ_of_lt hlength)) h k
    | false =>
      obtain ⟨l, n, more, hl, hmore, rfl⟩ := readAll_eq_ok hc h
      obtain ⟨hn, hread⟩ := read_of_append_blank hblank
        (fun hole hlength => hinner hole (Nat.lt_succ_of_lt hlength)) hl (offset + k)
      rw [List.take_append_of_le_length hn, List.drop_append_of_le_length hn] at hmore
      have hrest := readAll_of_append_blank hblank (fun hole hlength => hinner hole
        (by simp only [List.length_drop, List.length_cons] at hlength ⊢; omega)) hmore k
      refine readAll_lexeme hc hread ?_
      rwa [Nat.add_right_comm offset k, Nat.add_right_comm _ k]
termination_by cs.length
decreasing_by
  all_goals
    subst_vars
    simp only [List.length_cons, List.length_drop]
    omega

namespace Expr

/-- Rows of the same lexemes, wherever they stand. -/
def Alike (vs us : List Placed) : Prop :=
  vs.map Placed.lexeme = us.map Placed.lexeme

namespace Alike

variable {us vs ws : List Placed} {t : Placed} {l : Lexeme}

theorem cons (h : Alike ws (t :: us)) : ∃ i vs, ws = ⟨t.lexeme, i⟩ :: vs ∧ Alike vs us := by
  obtain ⟨⟨_, i⟩, vs, rfl, rfl, hvs⟩ := List.map_eq_cons_iff.mp h
  exact ⟨i, vs, rfl, hvs⟩

theorem append (h : Alike ws (us ++ vs)) :
    ∃ us' vs', ws = us' ++ vs' ∧ Alike us' us ∧ Alike vs' vs :=
  List.map_eq_append_iff.mp (h.trans List.map_append)

theorem singleton (h : Alike ws [t]) : ∃ i, ws = [⟨t.lexeme, i⟩] := by
  obtain ⟨i, vs, rfl, hvs⟩ := h.cons
  obtain rfl := List.map_eq_nil_iff.mp hvs
  exact ⟨i, rfl⟩

/-- With a mark between two rows. -/
theorem between (h : Alike ws (us ++ t :: vs)) :
    ∃ us' i vs', ws = us' ++ ⟨t.lexeme, i⟩ :: vs' ∧ Alike us' us ∧ Alike vs' vs := by
  obtain ⟨us', _, rfl, hus, h⟩ := h.append
  obtain ⟨i, vs', rfl, hvs⟩ := h.cons
  exact ⟨us', i, vs', rfl, hus, hvs⟩

/-- With a mark behind a row. -/
theorem behind (h : Alike ws (us ++ [t])) : ∃ us' i, ws = us' ++ [⟨t.lexeme, i⟩] ∧ Alike us' us := by
  obtain ⟨us', _, rfl, hus, h⟩ := h.append
  obtain ⟨i, rfl⟩ := h.singleton
  exact ⟨us', i, rfl, hus⟩

end Alike

theorem operator?_at (level : Level) (t : Placed) (i : Nat) :
    operator? level [⟨t.lexeme, i⟩] = operator? level [t] := by
  obtain ⟨lexeme, j⟩ := t
  cases lexeme <;> rfl

theorem unary?_at (t : Placed) (i : Nat) : unary? [⟨t.lexeme, i⟩] = unary? [t] := by
  obtain ⟨lexeme, j⟩ := t
  cases lexeme with
  | punct p => cases p <;> rfl
  | _ => rfl

/-- Where a row of lexemes stands makes no difference to what it spells. -/
theorem Spells.congr {f : Form} {us vs : List Placed} (h : Spells us f) (hvs : Alike vs us) :
    Spells vs f := by
  induction h generalizing vs with
  | looser hn _ ih => exact .looser hn (ih hvs)
  | conditional _ _ _ iht ihc iha =>
    obtain ⟨us, i, _, rfl, hus, hmore⟩ := hvs.between
    obtain ⟨vs, j, ws, rfl, hvs, hws⟩ := hmore.between
    exact .conditional (iht hus) (ihc hvs) (iha hws)
  | binary hlevel hop _ _ ihl ihr =>
    obtain ⟨us, i, vs, rfl, hus, hvs⟩ := hvs.between
    exact .binary hlevel ((operator?_at _ _ i).trans hop) (ihl hus) (ihr hvs)
  | unary hop _ ih =>
    obtain ⟨i, us, rfl, hus⟩ := hvs.cons
    exact .unary ((unary?_at _ i).trans hop) (ih hus)
  | member property _ ih =>
    obtain ⟨us, i, _, rfl, hus, hmore⟩ := hvs.between
    obtain ⟨j, rfl⟩ := hmore.singleton
    exact .member property (ih hus)
  | index _ _ ih ihk =>
    obtain ⟨us, i, _, rfl, hus, hmore⟩ := hvs.between
    obtain ⟨vs, j, rfl, hkey⟩ := hmore.behind
    exact .index (ih hus) (ihk hkey)
  | number v =>
    obtain ⟨i, rfl⟩ := hvs.singleton
    exact .number v i
  | text s =>
    obtain ⟨i, rfl⟩ := hvs.singleton
    exact .text s i
  | template parts =>
    obtain ⟨i, rfl⟩ := hvs.singleton
    exact .template parts i
  | name n =>
    obtain ⟨i, rfl⟩ := hvs.singleton
    exact .name n i
  | parens _ ih =>
    obtain ⟨i, _, rfl, hmore⟩ := hvs.cons
    obtain ⟨us, j, rfl, hus⟩ := hmore.behind
    exact .parens (ih hus)
  | array _ ih =>
    obtain ⟨i, us, rfl, hus⟩ := hvs.cons
    exact .array (ih hus)
  | object _ ih =>
    obtain ⟨i, us, rfl, hus⟩ := hvs.cons
    exact .object (ih hus)
  | noItems =>
    obtain ⟨i, rfl⟩ := hvs.singleton
    exact .noItems i
  | lastItem _ ih =>
    obtain ⟨us, i, rfl, hus⟩ := hvs.behind
    exact .lastItem (ih hus)
  | moreItems _ _ ih ihs =>
    obtain ⟨us, i, vs, rfl, hus, hvs⟩ := hvs.between
    exact .moreItems (ih hus) (ihs hvs)
  | pair hk _ ih =>
    obtain ⟨i, _, rfl, hmore⟩ := hvs.cons
    obtain ⟨j, us, rfl, hus⟩ := hmore.cons
    exact .pair hk (ih hus)
  | alone hk =>
    obtain ⟨i, rfl⟩ := hvs.singleton
    exact .alone hk
  | noEntries =>
    obtain ⟨i, rfl⟩ := hvs.singleton
    exact .noEntries i
  | lastEntry _ ih =>
    obtain ⟨us, i, rfl, hus⟩ := hvs.behind
    exact .lastEntry (ih hus)
  | moreEntries _ _ ih ihs =>
    obtain ⟨us, i, vs, rfl, hus, hvs⟩ := hvs.between
    exact .moreEntries (ih hus) (ihs hvs)

theorem Spells.shift {f : Form} {us : List Placed} (h : Spells us f) (k : Nat) :
    Spells (us.map (Placed.shift k)) f :=
  h.congr (by simp [Alike, Placed.shift])

/-- Blanks behind an expression make no difference, nor do others in front of it. -/
theorem read_of_append_blank {cs blank front : List Char} {e : Expr} (h : read (cs ++ blank) = .ok e)
    (hblank : allBlank blank) (hfront : allBlank front) : read (front ++ cs) = .ok e := by
  rw [read] at h ⊢
  obtain ⟨ts, hts, hspells⟩ := readWith_eq_ok_iff.mp h
  refine readWith_eq_ok_iff.mpr ⟨ts.map (Placed.shift (byteLength front)), ?_, hspells.shift _⟩
  rw [Lexeme.readAll_blanks _ _ hfront]
  refine Lexeme.readAll_of_append_blank hblank (fun hole hlength e he => ?_) hts _
  rw [if_pos (by rw [List.length_append]; omega)] at he
  rwa [if_pos (by rw [List.length_append]; omega)]

theorem not_allBlank_of_read {src : List Char} {e : Expr} (h : read src = .ok e) :
    allBlank src = false := by
  refine Bool.eq_false_iff.mpr fun hblank => ?_
  rw [read] at h
  obtain ⟨ts, hts, hspells⟩ := readWith_eq_ok_iff.mp h
  obtain ⟨t, rest, rfl, -⟩ := hspells.opens
  rw [← List.append_nil src, Lexeme.readAll_blanks _ _ hblank, Lexeme.readAll_nil] at hts
  cases hts

end Expr

end PugTemplate
