import PugTemplate.Proofs.Expr.Blank

/-!
# Expressions between commas

No lexeme but the comma holds one outside its marks, so a text is read in front of a comma as it is
read alone. Expressions with commas between them are read as the list of them.
-/

namespace PugTemplate

/-- A text that is at its end or goes on with a comma. -/
def AtComma (more : List Char) : Prop :=
  ∀ d ∈ more.head?, d = ','

theorem AtComma.nil : AtComma [] :=
  nofun

theorem AtComma.cons (rest : List Char) : AtComma (',' :: rest) := by
  rintro d ⟨⟩
  rfl

variable {more : List Char}

theorem takeWhile_append_comma {p : Char → Bool} (hp : p ',' = false) (hmore : AtComma more)
    (cs : List Char) : (cs ++ more).takeWhile p = cs.takeWhile p := by
  induction cs with
  | nil =>
    cases more with
    | nil => rfl
    | cons d more =>
      obtain rfl := hmore d rfl
      exact List.takeWhile_cons_of_neg (by simp [hp])
  | cons c cs ih => rw [List.cons_append, List.takeWhile_cons, List.takeWhile_cons, ih]

theorem any_head?_append_comma {p : Char → Bool} (hp : p ',' = false) (hmore : AtComma more)
    (cs : List Char) : (cs ++ more).head?.any p = cs.head?.any p := by
  cases cs with
  | nil =>
    cases more with
    | nil => rfl
    | cons d more =>
      obtain rfl := hmore d rfl
      exact hp
  | cons c cs => rfl

theorem isPrefixOf_append_comma {text : List Char} (htext : ',' ∉ text) (hmore : AtComma more)
    (cs : List Char) : text.isPrefixOf (cs ++ more) = text.isPrefixOf cs := by
  induction text generalizing cs with
  | nil => rfl
  | cons c text ih =>
    obtain ⟨hc, htext⟩ := not_or.mp (mt List.mem_cons.mpr htext)
    cases cs with
    | nil =>
      cases more with
      | nil => rfl
      | cons d more =>
        obtain rfl := hmore d rfl
        rw [List.nil_append, List.isPrefixOf_cons_cons, beq_false_of_ne (Ne.symm hc)]
        rfl
    | cons d cs => simp only [List.cons_append, List.isPrefixOf_cons_cons, ih htext]

namespace Lexeme

variable {cs : List Char}

/-! ## Numbers -/

theorem fractionOf_append_comma (hmore : AtComma more) (cs : List Char) :
    fractionOf (cs ++ more) = fractionOf cs := by
  cases cs with
  | nil =>
    cases more with
    | nil => rfl
    | cons d more =>
      obtain rfl := hmore d rfl
      rfl
  | cons c cs =>
    rw [List.cons_append]
    by_cases hc : c = '.'
    · subst hc
      simp only [fractionOf, takeWhile_append_comma (p := Char.isDigit) rfl hmore]
    · rw [fractionOf_cons_of_ne hc, fractionOf_cons_of_ne hc]

theorem filter_take_append_comma (hmore : AtComma more) (cs : List Char) :
    ((cs ++ more).take 1).filter (fun s => s == '+' || s == '-') =
      (cs.take 1).filter (fun s => s == '+' || s == '-') := by
  cases cs with
  | nil =>
    cases more with
    | nil => rfl
    | cons d more =>
      obtain rfl := hmore d rfl
      rfl
  | cons c cs => rfl

theorem exponentOf_append_comma (hmore : AtComma more) (cs : List Char) :
    exponentOf (cs ++ more) = exponentOf cs := by
  cases cs with
  | nil =>
    cases more with
    | nil => rfl
    | cons d more =>
      obtain rfl := hmore d rfl
      rfl
  | cons c cs =>
    have hlength : ((cs.take 1).filter fun s => s == '+' || s == '-').length ≤ cs.length :=
      Nat.le_trans (List.length_filter_le _ _) (List.length_take_le' _ _)
    simp only [List.cons_append, exponentOf, filter_take_append_comma hmore,
      List.drop_append_of_le_length hlength, takeWhile_append_comma (p := Char.isDigit) rfl hmore]

theorem readNumber_append_comma (hmore : AtComma more) (cs : List Char) :
    readNumber (cs ++ more) = readNumber cs := by
  have hwhole := starts_digits cs
  have hlength := (hwhole.append (starts_fractionOf _)).1.length_le
  rw [List.length_append] at hlength
  unfold readNumber
  simp only [takeWhile_append_comma (p := Char.isDigit) rfl hmore,
    List.drop_append_of_le_length hwhole.1.length_le, fractionOf_append_comma hmore,
    List.drop_append_of_le_length hlength, exponentOf_append_comma hmore]

/-! ## Strings and backtick literals -/

/-- What is read of a text is no longer than the text. -/
theorem le_length_of_readEscape {r : Option Char} {n : Nat} (h : readEscape cs = .ok (r, n)) :
    n ≤ cs.length := by
  obtain ⟨c, ds, htake, hlength, -⟩ := readEscape_eq_ok h
  rw [← hlength, ← htake]
  exact List.length_take_le' n cs

theorem readEscape_append {r : Option Char} {n : Nat} (h : readEscape cs = .ok (r, n))
    (more : List Char) : readEscape (cs ++ more) = .ok (r, n) := by
  match cs, h with
  | c :: cs, h =>
    rw [List.cons_append]
    unfold readEscape at h ⊢
    dsimp only at h ⊢
    generalize (if c = 'u' then 4 else if c = 'x' then 2 else 0) = places at h ⊢
    split at h
    next hp =>
      rw [if_pos hp]
      exact h
    next hp =>
      rw [if_neg hp]
      split at h
      next ch hch =>
        have hplaces : places ≤ cs.length := by
          have hlength := (hexChar?_eq_some hch).1
          rw [← hlength]
          exact List.length_take_le' places cs
        have hchar : hexChar? places (cs ++ more) = some ch := by
          rw [← hch, hexChar?, hexChar?, List.take_append_of_le_length hplaces]
        rw [hchar]
        exact h
      next => cases h

theorem readString_append {mark : Char} {base offset n : Nat} {cs s : List Char}
    (h : readString mark base offset cs = .ok (s, n)) (more : List Char) (base' offset' : Nat) :
    n ≤ cs.length ∧ readString mark base' offset' (cs ++ more) = .ok (s, n) := by
  match cs with
  | [] => simp [readString] at h
  | c :: cs =>
    rw [List.cons_append]
    unfold readString at h
    rw [readString]
    split at h
    next hc =>
      cases h
      exact ⟨Nat.le_add_left 1 _, if_pos hc⟩
    next hm =>
      rw [if_neg hm]
      split at h
      next hc =>
        rw [if_pos hc]
        obtain ⟨⟨ch, m⟩, hch, h⟩ := of_bind_eq_ok h
        obtain ⟨⟨s, k⟩, hs, h⟩ := of_bind_eq_ok h
        cases h
        have hch := placeCause_eq_ok hch
        have hm := le_length_of_readEscape hch
        obtain ⟨hk, hread⟩ := readString_append hs more base'
          (offset' + 1 + byteLength (cs.take m))
        rw [List.length_drop] at hk
        refine ⟨by rw [List.length_cons]; omega, ?_⟩
        simp only [readEscape_append hch, placeCause, Expr.ok_bind,
          List.take_append_of_le_length hm, List.drop_append_of_le_length hm, hread]
        rfl
      next hs =>
        rw [if_neg hs]
        split at h
        next => cases h
        next hfeed =>
          obtain ⟨⟨s, k⟩, hs, h⟩ := of_bind_eq_ok h
          cases h
          obtain ⟨hk, hread⟩ := readString_append hs more base' (offset' + c.utf8Size)
          rw [if_neg hfeed, hread]
          exact ⟨by rw [List.length_cons]; omega, rfl⟩
termination_by cs.length
decreasing_by
  all_goals
    subst_vars
    simp only [List.length_cons, List.length_drop]
    omega

theorem readTemplate_append {inner inner' : List Char → Except ExprError Expr} {cs : List Char}
    (hinner : ∀ hole, hole.length < cs.length → ∀ e, inner hole = .ok e → inner' hole = .ok e)
    {base offset n : Nat} {ps : List Part} (h : readTemplate inner base offset cs = .ok (ps, n))
    (more : List Char) (base' offset' : Nat) :
    n ≤ cs.length ∧ readTemplate inner' base' offset' (cs ++ more) = .ok (ps, n) := by
  match cs with
  | [] => simp [readTemplate] at h
  | c :: cs =>
    rw [List.cons_append]
    unfold readTemplate at h
    rw [readTemplate]
    split at h
    next hc =>
      cases h
      exact ⟨Nat.le_add_left 1 _, if_pos hc⟩
    next hm =>
      rw [if_neg hm]
      split at h
      next hc =>
        rw [if_pos hc]
        obtain ⟨⟨ch, m⟩, hch, h⟩ := of_bind_eq_ok h
        obtain ⟨⟨ps, k⟩, hps, h⟩ := of_bind_eq_ok h
        cases h
        have hch := placeCause_eq_ok hch
        have hm := le_length_of_readEscape hch
        obtain ⟨hk, hread⟩ := readTemplate_append (fun hole hlength => hinner hole
          (by simp only [List.length_drop, List.length_cons] at hlength ⊢; omega)) hps more base'
          (offset' + 1 + byteLength (cs.take m))
        rw [List.length_drop] at hk
        refine ⟨by rw [List.length_cons]; omega, ?_⟩
        simp only [readEscape_append hch, placeCause, Expr.ok_bind,
          List.take_append_of_le_length hm, List.drop_append_of_le_length hm, hread]
        rfl
      next hs =>
        rw [if_neg hs]
        split at h
        next hhole =>
          obtain ⟨rfl, hcurly⟩ := hhole
          obtain ⟨cs, rfl⟩ := List.head?_eq_some_iff.mp hcurly
          rw [if_pos ⟨rfl, rfl⟩]
          rw [List.tail_cons] at h
          dsimp only at h
          split at h
          next => cases h
          next content hcontent =>
            split at h
            next => cases h
            next e he =>
              obtain ⟨⟨ps, k⟩, hps, h⟩ := of_bind_eq_ok h
              cases h
              have hlt := Nesting.length_inside hcontent
              have he := hinner content (by simp only [List.length_cons]; omega) e he
              rw [List.drop_succ_cons] at hps
              obtain ⟨hk, hread⟩ := readTemplate_append (fun hole hlength => hinner hole
                (by simp only [List.length_drop, List.length_cons] at hlength ⊢; omega)) hps more
                base' (offset' + 2 + byteLength content + 1)
              rw [List.length_drop] at hk
              refine ⟨by simp only [List.length_cons]; omega, ?_⟩
              simp only [List.cons_append, List.tail_cons, Nesting.inside_append hcontent more, he,
                List.drop_succ_cons, List.drop_append_of_le_length hlt, Expr.ok_bind, hread]
              rfl
        next hhole =>
          obtain ⟨⟨ps, k⟩, hps, h⟩ := of_bind_eq_ok h
          cases h
          obtain ⟨hk, hread⟩ := readTemplate_append
            (fun hole hlength => hinner hole (Nat.lt_succ_of_lt hlength)) hps more base'
            (offset' + c.utf8Size)
          have hhole' : ¬ (c = '$' ∧ (cs ++ more).head? = some '\x7b') := by
            rintro ⟨hdollar, hcurly⟩
            cases cs with
            | nil => simp [readTemplate] at hps
            | cons d cs => exact hhole ⟨hdollar, hcurly⟩
          rw [if_neg hhole', hread]
          exact ⟨by rw [List.length_cons]; omega, rfl⟩
termination_by cs.length
decreasing_by
  all_goals
    subst_vars
    simp only [List.length_cons, List.length_drop]
    omega

/-! ## Any lexeme -/

theorem ofStart?_append_comma (hmore : AtComma more) (c : Char) (cs : List Char) :
    Punct.ofStart? (c :: (cs ++ more)) = Punct.ofStart? (c :: cs) := by
  have hmark (p : Punct) :
      p.text.toList.isPrefixOf (c :: (cs ++ more)) = p.text.toList.isPrefixOf (c :: cs) := by
    by_cases hp : p = .comma
    · subst hp
      show (',' == c && List.isPrefixOf [] _) = (',' == c && List.isPrefixOf [] _)
      rw [List.isPrefixOf_nil_left, List.isPrefixOf_nil_left]
    · exact isPrefixOf_append_comma (by revert hp; cases p <;> decide) hmore (c :: cs)
  unfold Punct.ofStart?
  exact congrArg (Punct.all.find? ·) (funext hmark)

/-- A lexeme is read in front of a comma as it is read at the end. -/
theorem read_append_comma {inner inner' : List Char → Except ExprError Expr} (hmore : AtComma more)
    (hinner : ∀ hole, hole.length < cs.length → ∀ e, inner hole = .ok e → inner' hole = .ok e)
    {offset n : Nat} {c : Char} {l : Lexeme} (h : read inner offset c cs = .ok (l, n))
    (offset' : Nat) :
    n ≤ cs.length ∧ read inner' offset' c (cs ++ more) = .ok (l, n) := by
  unfold read at h ⊢
  rw [any_head?_append_comma (p := Char.isDigit) rfl hmore]
  split at h
  next hc =>
    rw [if_pos hc]
    obtain ⟨text, ⟨htext, -⟩, hlength⟩ := starts_readNumber (c :: cs)
    have hle := htext.length_le
    rw [← List.cons_append, readNumber_append_comma hmore]
    rcases hnumber : readNumber (c :: cs) with ⟨value, k⟩
    rw [hnumber] at h hlength
    cases h
    cases hlength
    exact ⟨by rw [List.length_cons] at hle; omega, rfl⟩
  next hc =>
    rw [if_neg hc]
    split at h
    next hc =>
      rw [if_pos hc]
      obtain ⟨⟨s, k⟩, hs, h⟩ := of_bind_eq_ok h
      cases h
      obtain ⟨hn, hread⟩ := readString_append hs more offset' (offset' + 1)
      rw [hread]
      exact ⟨hn, rfl⟩
    next hc =>
      rw [if_neg hc]
      split at h
      next hc =>
        rw [if_pos hc]
        obtain ⟨⟨ps, k⟩, hps, h⟩ := of_bind_eq_ok h
        cases h
        obtain ⟨hn, hread⟩ := readTemplate_append hinner hps more offset' (offset' + 1)
        rw [hread]
        exact ⟨hn, rfl⟩
      next hc =>
        rw [if_neg hc]
        split at h
        next hc =>
          rw [if_pos hc, takeWhile_append_comma (p := isNameChar) (by decide) hmore]
          cases h
          exact ⟨(List.takeWhile_prefix isNameChar).length_le, rfl⟩
        next hc =>
          rw [if_neg hc, ofStart?_append_comma hmore]
          split at h
          next p hp =>
            cases h
            have htext := (text_of_ofStart? hp).length_le
            rw [String.length_toList, List.length_cons] at htext
            exact ⟨by omega, rfl⟩
          next => exact nomatch h

/-- The lexemes in front of a comma are those of the text alone, wherever it stands. -/
theorem readAll_append_comma {inner inner' : List Char → Except ExprError Expr}
    (hmore : AtComma more) {cs : List Char}
    (hinner : ∀ hole, hole.length < cs.length → ∀ e, inner hole = .ok e → inner' hole = .ok e)
    {offset : Nat} {ts us : List Placed} (h : readAll inner offset cs = .ok ts) (offset' : Nat)
    (hus : readAll inner' (offset' + byteLength cs) more = .ok us) :
    ∃ ts', readAll inner' offset' (cs ++ more) = .ok (ts' ++ us) ∧
      ts'.map Placed.lexeme = ts.map Placed.lexeme := by
  match cs with
  | [] =>
    rw [readAll_nil] at h
    cases h
    exact ⟨[], hus, rfl⟩
  | c :: cs =>
    rw [byteLength, ← Nat.add_assoc] at hus
    rw [List.cons_append]
    cases hc : isBlank c with
    | true =>
      rw [readAll_blank hc] at h ⊢
      exact readAll_append_comma hmore
        (fun hole hlength => hinner hole (Nat.lt_succ_of_lt hlength)) h _ hus
    | false =>
      obtain ⟨l, n, rest, hl, hrest, rfl⟩ := readAll_eq_ok hc h
      obtain ⟨hn, hread⟩ := read_append_comma hmore
        (fun hole hlength => hinner hole (Nat.lt_succ_of_lt hlength)) hl offset'
      have hsum : byteLength cs = byteLength (cs.take n) + byteLength (cs.drop n) := by
        rw [← byteLength_append, List.take_append_drop]
      rw [hsum, ← Nat.add_assoc] at hus
      obtain ⟨ts', hts', hmap⟩ := readAll_append_comma hmore (fun hole hlength => hinner hole
        (by simp only [List.length_drop, List.length_cons] at hlength ⊢; omega)) hrest _ hus
      refine ⟨⟨l, offset'⟩ :: ts', readAll_lexeme hc hread ?_, congrArg (l :: ·) hmap⟩
      rwa [List.take_append_of_le_length hn, List.drop_append_of_le_length hn]
termination_by cs.length
decreasing_by
  all_goals
    subst_vars
    simp only [List.length_cons, List.length_drop]
    omega

/-- Blanks around a text make no difference to its lexemes. -/
theorem readAll_trim {offset : Nat} {cs : List Char} {ts : List Placed}
    (h : readAll Expr.read offset cs = .ok ts) (offset' : Nat) :
    ∃ ts', readAll Expr.read offset' (trim cs) = .ok ts' ∧ Expr.Alike ts' ts := by
  obtain ⟨blank, hblank, hend⟩ := exists_trimEnd (trimStart cs)
  have hfront : allBlank (cs.takeWhile isBlank) := List.all_takeWhile
  rw [← List.takeWhile_append_dropWhile (p := isBlank) (l := cs), readAll_blanks _ _ hfront] at h
  rw [show cs.dropWhile isBlank = trim cs ++ blank from hend] at h
  have hhere := readAll_of_append_blank hblank (fun hole _ e he => he) h 0
  obtain ⟨ts', hts', hmap⟩ :=
    readAll_append_comma .nil (fun hole _ e he => he) hhere offset' (readAll_nil _ _)
  rw [List.append_nil, List.append_nil] at hts'
  exact ⟨ts', hts', hmap.trans (by simp [Placed.shift])⟩

end Lexeme

namespace Expr

/-! ## Lists of expressions -/

/-- Lexemes that spell expressions with commas between them. -/
inductive Lists : List Placed → List Expr → Prop where
  | last {e : Expr} {us : List Placed} (h : Spells us (.tight 0 e)) : Lists us [e]
  | more {e : Expr} {es : List Expr} {us vs : List Placed} {i : Nat} (h : Spells us (.tight 0 e))
      (hs : Lists vs es) : Lists (us ++ ⟨.punct .comma, i⟩ :: vs) (e :: es)

theorem Lists.congr {es : List Expr} {us vs : List Placed} (h : Lists us es) (hvs : Alike vs us) :
    Lists vs es := by
  induction h generalizing vs with
  | last h => exact .last (h.congr hvs)
  | more h _ ih =>
    obtain ⟨us, i, ws, rfl, hus, hws⟩ := hvs.between
    exact .more (h.congr hus) (ih hws)

theorem Lists.readArguments {es : List Expr} {ts : List Placed} (h : Lists ts es) (stop : Nat) :
    readArguments stop ts = .ok es := by
  induction h with
  | @last e us h =>
    obtain ⟨t, rest, rfl, -⟩ := h.opens
    have hread : readTernary stop (t :: rest ++ []) = .ok (e, (t :: rest).length) :=
      h.answers stop [] (.nil 0)
    rw [List.append_nil] at hread
    rw [Expr.readArguments, if_neg (by simp), hread]
    simp only [ok_bind, List.drop_length]
    rfl
  | @more e es us vs i h _ ih =>
    have hread : readTernary stop (us ++ ⟨.punct .comma, i⟩ :: vs) = .ok (e, us.length) :=
      h.answers stop _ (.of_none rfl)
    rw [Expr.readArguments, if_neg (by simp), hread]
    simp only [ok_bind, List.drop_left, startsWith, beq_self_eq_true, dite_true, List.tail_cons, ih]
    rfl

theorem readAll_comma {offset : Nat} {rest : List Char} {vs : List Placed}
    (h : Lexeme.readAll read (offset + 1) rest = .ok vs) :
    Lexeme.readAll read offset (',' :: rest) = .ok (⟨.punct .comma, offset⟩ :: vs) := by
  have hread : Lexeme.read read offset ',' rest = .ok (.punct .comma, 0) := by
    have hnone : ¬ ((',' : Char).isDigit ∨ (',' = '.' ∧ rest.head?.any Char.isDigit)) := by
      rintro (h | ⟨h, -⟩) <;> exact absurd h (by decide)
    rw [Lexeme.read, if_neg hnone]
    rfl
  exact Lexeme.readAll_lexeme rfl hread h

/-- Expressions with a comma and a blank between them, as lexemes. -/
theorem exists_lists {e : Expr} {es : List Expr} {t : List Char} {texts : List (List Char)}
    (h : List.Forall₂ (fun e t => read t = .ok e) (e :: es) (t :: texts)) (offset : Nat) :
    ∃ ts, Lexeme.readAll read offset ([',', ' '].intercalate (t :: texts)) = .ok ts ∧
      Lists ts (e :: es) := by
  induction texts generalizing e es t offset with
  | nil =>
    cases h with
    | cons he h =>
    cases h
    rw [read] at he
    obtain ⟨us, hus, hspells⟩ := readWith_eq_ok_iff.mp he
    obtain ⟨ts, hts, halike⟩ := Lexeme.readAll_append_comma .nil
      (fun hole hlength e he => by rwa [if_pos hlength] at he) hus offset (Lexeme.readAll_nil read _)
    rw [List.append_nil, List.append_nil] at hts
    rw [List.intercalate_singleton]
    exact ⟨ts, hts, .last (hspells.congr halike)⟩
  | cons u texts ih =>
    cases h with
    | cons he h =>
    cases h with
    | cons hu h =>
    rw [read] at he
    obtain ⟨us, hus, hspells⟩ := readWith_eq_ok_iff.mp he
    obtain ⟨vs, hvs, hlists⟩ := ih (.cons hu h) (offset + byteLength t + 1 + ' '.utf8Size)
    rw [← Lexeme.readAll_blank (c := ' ') rfl] at hvs
    obtain ⟨ts, hts, halike⟩ := Lexeme.readAll_append_comma (.cons _)
      (fun hole hlength e he => by rwa [if_pos hlength] at he) hus offset (readAll_comma hvs)
    rw [List.intercalate_cons_cons, List.append_assoc]
    exact ⟨_, hts, .more (hspells.congr halike) hlists⟩

/-- A row of expressions is read as the list of them, whatever blanks are taken from its ends. -/
theorem readList_trim {e : Expr} {es : List Expr} {t : List Char} {texts : List (List Char)}
    (h : List.Forall₂ (fun e t => read t = .ok e) (e :: es) (t :: texts)) :
    readList (trim ([',', ' '].intercalate (t :: texts))) = .ok (e :: es) := by
  obtain ⟨us, hus, hlists⟩ := exists_lists h 0
  obtain ⟨ts, hts, halike⟩ := Lexeme.readAll_trim hus 0
  rw [readList, hts]
  exact (hlists.congr halike).readArguments _

end Expr

end PugTemplate
