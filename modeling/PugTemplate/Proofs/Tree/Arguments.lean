import PugTemplate.Proofs.Expr.Comma
import PugTemplate.Proofs.Tree.Embedded

/-!
# Arguments of a call

The parentheses behind a call hold its arguments, unless they look like attributes: a word first, and
behind it an equals sign alone or `!=`. No list of expressions has the sign, but a comparison of a
name may have the mark. Main statement: `call_reads_arguments_iff`.
-/

namespace PugTemplate

/-! ## What attributes begin with -/

/-- A text that begins with a word and goes on behind it and some spaces, blanks in front aside. -/
def WordThen (cs behind : List Char) : Prop :=
  ∃ blank word spaces, cs = blank ++ (word ++ (spaces ++ behind)) ∧ allBlank blank ∧ word ≠ [] ∧
    (∀ c ∈ word, isWordOrHyphen c) ∧ ∀ c ∈ spaces, c = ' '

/-- A text whose first word is followed by the mark of an attribute that is not escaped. -/
def BeginsUnequal (cs : List Char) : Prop :=
  ∃ rest, WordThen cs ('!' :: '=' :: rest)

theorem isWordOrHyphen_blanks : ∀ n ∈ blanks, isWordOrHyphen (Char.ofNat n) = false := by decide

/-- The first word of a text, and what stands behind it, are found by passing over them. -/
theorem WordThen.exists_word {cs behind : List Char} (h : WordThen cs ('!' :: behind)) :
    ∃ word, word ≠ [] ∧ (trimStart cs).takeWhile isWordOrHyphen = word ∧
      ((trimStart cs).drop word.length).dropWhile (· == ' ') = '!' :: behind := by
  obtain ⟨blank, word, spaces, rfl, hblank, hne, hword, hspaces⟩ := h
  obtain ⟨c, more, rfl⟩ := List.exists_cons_of_ne_nil hne
  have hc : isBlank c = false := not_isBlank_of isWordOrHyphen_blanks (hword c List.mem_cons_self)
  have htrim : trimStart (blank ++ (c :: more ++ (spaces ++ '!' :: behind))) =
      c :: more ++ (spaces ++ '!' :: behind) := by
    rw [trimStart, List.dropWhile_append_of_pos (List.all_eq_true.mp hblank), List.cons_append,
      List.dropWhile_cons_of_neg (by simp [hc])]
  rw [htrim]
  refine ⟨c :: more, hne, ?_, ?_⟩
  · cases spaces with
    | nil => exact takeWhile_append_cons hword rfl _
    | cons d spaces =>
      obtain rfl := hspaces d List.mem_cons_self
      exact takeWhile_append_cons hword rfl _
  · rw [List.drop_left, List.dropWhile_append_of_pos fun d hd => beq_iff_eq.mpr (hspaces d hd)]
    rfl

theorem BeginsUnequal.looksLikeAttributes {cs : List Char} (h : BeginsUnequal cs) :
    looksLikeAttributes cs = true := by
  obtain ⟨rest, h⟩ := h
  obtain ⟨word, hne, hword, hbehind⟩ := h.exists_word
  rw [PugTemplate.looksLikeAttributes, hword]
  simp only [List.isEmpty_iff, hne, if_false, hbehind]

/-- What looks like attributes has an equals sign alone behind its first word, or the other mark. -/
theorem exists_of_looksLikeAttributes {cs : List Char} (h : looksLikeAttributes cs = true) :
    BeginsUnequal cs ∨ ∃ blank word spaces rest,
      cs = blank ++ (word ++ (spaces ++ '=' :: rest)) ∧ allBlank blank ∧
        (∀ c ∈ word, isWordOrHyphen c) ∧ (∀ c ∈ spaces, c = ' ') ∧ rest.head? ≠ some '=' := by
  unfold looksLikeAttributes at h
  dsimp only at h
  have hcs := List.takeWhile_append_dropWhile (p := isBlank) (l := cs)
  have hblank : allBlank (cs.takeWhile isBlank) := List.all_takeWhile
  generalize hstart : trimStart cs = start at h
  rw [trimStart] at hstart
  rw [hstart] at hcs
  have hword := List.all_eq_true.mp (List.all_takeWhile (p := isWordOrHyphen) (l := start))
  have hwords := List.takeWhile_append_dropWhile (p := isWordOrHyphen) (l := start)
  rw [drop_takeWhile] at h
  have hspaces := List.all_eq_true.mp
    (List.all_takeWhile (p := (· == ' ')) (l := start.dropWhile isWordOrHyphen))
  have hbehind := List.takeWhile_append_dropWhile (p := (· == ' ')) (l := start.dropWhile isWordOrHyphen)
  have hall {tail : List Char} (ht : (start.dropWhile isWordOrHyphen).dropWhile (· == ' ') = tail) :
      cs = cs.takeWhile isBlank ++ (start.takeWhile isWordOrHyphen ++
        ((start.dropWhile isWordOrHyphen).takeWhile (· == ' ') ++ tail)) := by
    rw [← ht, hbehind, hwords, hcs]
  split at h
  next => cases h
  next hne =>
    split at h
    next => cases h
    next rest hno heq =>
      refine .inr ⟨_, _, _, rest, hall heq, hblank, hword, fun c hc => eq_of_beq (hspaces c hc), ?_⟩
      intro hhead
      obtain ⟨more, rfl⟩ := List.head?_eq_some_iff.mp hhead
      exact hno more rfl
    next rest heq =>
      refine .inl ⟨rest, _, _, _, hall heq, hblank, ?_, hword, fun c hc => eq_of_beq (hspaces c hc)⟩
      exact fun hnil => hne (by rw [hnil]; rfl)
    next => cases h

/-! ## No expression assigns -/

namespace Lexeme

/-- The marks of assignments that a word and an equals sign may end in. -/
def isAssignment : Lexeme → Bool
  | punct .assign | punct .minusAssign => true
  | _ => false

theorem length_le_of_starts {p : Char → Bool} {text cs rest : List Char} {d : Char}
    (h : text <+: cs ++ d :: rest) (hp : ∀ c ∈ text, p c) (hd : p d = false) :
    text.length ≤ cs.length := by
  refine Nat.le_of_not_lt fun hlt => ?_
  obtain ⟨more, hmore⟩ := h
  have hget : text[cs.length]? = some d := by
    have hall : (text ++ more)[cs.length]? = some d := by
      rw [hmore, List.getElem?_append_right (Nat.le_refl _), Nat.sub_self]
      rfl
    rwa [List.getElem?_append_left hlt] at hall
  exact nomatch hd.symm.trans (hp d (List.mem_of_getElem? hget))

theorem isNameStart_of_isWord {c : Char} (h : isWord c) (hdigit : c.isDigit = false) :
    isNameStart c := by
  simp only [isWord, Char.isAlphanum, hdigit, Bool.or_false, Bool.or_eq_true, beq_iff_eq] at h
  rcases h with h | rfl
  · simp [isNameStart, isLetter_of_isAlpha h]
  · rfl

/-- A lexeme that begins inside a word ends in it, or with an equals sign behind its hyphen. -/
theorem read_word {inner : List Char → Except ExprError Expr} {offset n : Nat} {c d : Char}
    {word rest : List Char} {l : Lexeme} (hc : isWordOrHyphen c) (hd : d = ' ' ∨ d = '=')
    (h : read inner offset c (word ++ d :: rest) = .ok (l, n)) :
    n ≤ word.length ∨ l = .punct .minusAssign := by
  have hno {p : Char → Bool} (hblank : p ' ' = false) (hmark : p '=' = false) : p d = false := by
    rcases hd with rfl | rfl
    · exact hblank
    · exact hmark
  have hne {a : Char} (ha : isWordOrHyphen a = false) : c ≠ a := by
    rintro rfl
    exact nomatch ha.symm.trans hc
  unfold read at h
  split at h
  next =>
    obtain ⟨text, ⟨htext, hnumeric⟩, hlength⟩ := starts_readNumber (c :: (word ++ d :: rest))
    have hle : text.length ≤ (c :: word).length :=
      length_le_of_starts htext hnumeric (hno rfl rfl)
    rcases hnumber : readNumber (c :: (word ++ d :: rest)) with ⟨value, k⟩
    rw [hnumber] at h hlength
    cases h
    cases hlength
    rw [List.length_cons] at hle
    exact .inl (by omega)
  next hnumber =>
    rw [if_neg (by rintro (h | h) <;> exact hne (by decide) h), if_neg (hne (by decide))] at h
    split at h
    next =>
      cases h
      exact .inl (length_le_of_starts (List.takeWhile_prefix isNameChar)
        (List.all_eq_true.mp List.all_takeWhile) (hno (by decide) (by decide)))
    next hname =>
      have hyphen : c = '-' := by
        obtain hw | hw := (Bool.or_eq_true _ _).mp hc
        · have hdigit : c.isDigit = false := Bool.eq_false_iff.mpr fun h => hnumber (.inl h)
          exact absurd (isNameStart_of_isWord hw hdigit) hname
        · exact eq_of_beq hw
      subst hyphen
      split at h
      next p hp =>
        cases h
        have htext := text_of_ofStart? hp
        cases p with
        | minus => exact .inl (Nat.zero_le _)
        | minusAssign => exact .inr rfl
        | minusMinus =>
          -- the second hyphen is not what stands behind the word
          cases word with
          | nil =>
            obtain ⟨-, htext⟩ := List.cons_prefix_cons.mp htext
            obtain ⟨rfl, -⟩ := List.cons_prefix_cons.mp htext
            rcases hd with hd | hd <;> exact absurd hd (by decide)
          | cons a word => exact .inl (Nat.succ_le_succ (Nat.zero_le _))
        | _ =>
          obtain ⟨hhead, -⟩ := List.cons_prefix_cons.mp htext
          exact absurd hhead (by decide)
      next => cases h

theorem ofStart?_assign {rest : List Char} (h : rest.head? ≠ some '=') :
    Punct.ofStart? ('=' :: rest) = some .assign := by
  cases rest with
  | nil => rfl
  | cons d rest =>
    have hd : ('=' == d) = false := by
      refine beq_false_of_ne ?_
      rintro rfl
      exact h rfl
    unfold Punct.ofStart?
    simp [Punct.all, Punct.text, List.isPrefixOf, hd]

/-- The lexemes of a word with an equals sign alone behind it. -/
theorem exists_assignment {inner : List Char → Except ExprError Expr} {offset : Nat}
    {word spaces rest : List Char} {ts : List Placed} (hword : ∀ c ∈ word, isWordOrHyphen c)
    (hspaces : ∀ c ∈ spaces, c = ' ') (hrest : rest.head? ≠ some '=')
    (h : readAll inner offset (word ++ (spaces ++ '=' :: rest)) = .ok ts) :
    ∃ t ∈ ts, t.lexeme.isAssignment := by
  match word with
  | [] =>
    have hblank : allBlank spaces := List.all_eq_true.mpr fun c hc => hspaces c hc ▸ rfl
    rw [List.nil_append, readAll_blanks _ _ hblank] at h
    obtain ⟨l, n, more, hl, -, rfl⟩ := readAll_eq_ok rfl h
    have hread {offset : Nat} : read inner offset '=' rest = .ok (.punct .assign, 0) := by
      have hnumber : ¬ ('='.isDigit ∨ ('=' = '.' ∧ rest.head?.any Char.isDigit)) := by
        rintro (h | ⟨h, -⟩) <;> exact absurd h (by decide)
      have hquote : ¬ ('=' = '\'' ∨ '=' = '"') := by decide
      rw [read, if_neg hnumber, if_neg hquote, if_neg (by decide), if_neg (by decide),
        ofStart?_assign hrest]
      rfl
    cases hread.symm.trans hl
    exact ⟨_, List.mem_cons_self, rfl⟩
  | c :: word =>
    obtain ⟨hc, hword⟩ := List.forall_mem_cons.mp hword
    obtain ⟨d, behind, hbehind, hd⟩ :
        ∃ d behind, spaces ++ '=' :: rest = d :: behind ∧ (d = ' ' ∨ d = '=') := by
      cases spaces with
      | nil => exact ⟨_, _, rfl, .inr rfl⟩
      | cons d spaces => exact ⟨_, _, rfl, .inl (hspaces d List.mem_cons_self)⟩
    rw [List.cons_append] at h
    obtain ⟨l, n, more, hl, hmore, rfl⟩ :=
      readAll_eq_ok (not_isBlank_of isWordOrHyphen_blanks hc) h
    rw [hbehind] at hl
    obtain hn | rfl := read_word hc hd hl
    · rw [List.drop_append_of_le_length hn] at hmore
      obtain ⟨t, ht, hassign⟩ :=
        exists_assignment (fun a ha => hword a (List.mem_of_mem_drop ha)) hspaces hrest hmore
      exact ⟨t, List.mem_cons_of_mem _ ht, hassign⟩
    · exact ⟨_, List.mem_cons_self, rfl⟩
termination_by word.length
decreasing_by
  subst_vars
  simp only [List.length_cons, List.length_drop]
  omega

end Lexeme

namespace Expr

theorem not_isAssignment_of_rank? {l : Lexeme} (h : l.rank?.isSome) : l.isAssignment = false := by
  cases l with
  | punct p => cases p <;> first | rfl | exact nomatch h
  | _ => rfl

theorem not_isAssignment_of_opens {l : Lexeme} {n : Nat} (h : l.opens n) : l.isAssignment = false := by
  cases l with
  | punct p => cases p <;> first | rfl | exact nomatch h
  | _ => rfl

theorem not_isAssignment_of_keyOf? {l : Lexeme} {key : String × Bool} (h : keyOf? l = some key) :
    l.isAssignment = false := by
  cases l with
  | punct p => exact nomatch h
  | _ => rfl

/-- What spells an expression assigns nothing. -/
theorem Spells.not_isAssignment {f : Form} {us : List Placed} (h : Spells us f) :
    ∀ t ∈ us, t.lexeme.isAssignment = false := by
  induction h with
  | binary hlevel hop _ _ ihl ihr =>
    have hrank := rank?_of_operator? hlevel hop
    have hop := not_isAssignment_of_rank? (Option.isSome_of_eq_some hrank)
    exact List.forall_mem_append.mpr ⟨ihl, List.forall_mem_cons.mpr ⟨hop, ihr⟩⟩
  | unary hop _ ih =>
    exact List.forall_mem_cons.mpr ⟨not_isAssignment_of_opens (opens_of_unary? hop), ih⟩
  | pair hk _ ih =>
    have hkey := not_isAssignment_of_keyOf? hk
    exact List.forall_mem_cons.mpr ⟨hkey, List.forall_mem_cons.mpr ⟨rfl, ih⟩⟩
  | alone hk => exact List.forall_mem_singleton.mpr (not_isAssignment_of_keyOf? hk)
  | _ => simp_all [Lexeme.isAssignment, or_imp]

theorem Lists.not_isAssignment {es : List Expr} {ts : List Placed} (h : Lists ts es) :
    ∀ t ∈ ts, t.lexeme.isAssignment = false := by
  induction h with
  | last h => exact h.not_isAssignment
  | more h _ ih =>
    exact List.forall_mem_append.mpr ⟨h.not_isAssignment, List.forall_mem_cons.mpr ⟨rfl, ih⟩⟩

end Expr

/-! ## A call's line -/

/-- The name of a mixin. -/
def IsMixinName (name : List Char) : Prop :=
  name ≠ [] ∧ ∀ c ∈ name, isWordOrHyphen c

instance (name : List Char) : Decidable (IsMixinName name) :=
  decidable_of_iff (name ≠ [] ∧ name.all isWordOrHyphen) (by rw [List.all_eq_true]; rfl)

section Call

variable {name row : List Char}

/-- The parentheses of a row, and what stands in front of them in its line. -/
def callLine (name row : List Char) : List Char :=
  '+' :: (name ++ '(' :: (row ++ [')']))

theorem callName_eq (hname : IsMixinName name) (rest : List Char) (loc at_ : Location) :
    Rule.callName loc (⟨name ++ '(' :: rest, at_⟩ : Cursor).skipIndent =
      .ok (name, false, ⟨'(' :: rest, at_.afterText name⟩) := by
  obtain ⟨hne, hall⟩ := hname
  obtain ⟨c, cs, rfl⟩ := List.exists_cons_of_ne_nil hne
  have hc {d : Char} (hd : isWordOrHyphen d = false) : c ≠ d := by
    rintro rfl
    exact nomatch hd.symm.trans (hall c List.mem_cons_self)
  have hindent : (⟨c :: cs ++ '(' :: rest, at_⟩ : Cursor).skipIndent =
      ⟨c :: cs ++ '(' :: rest, at_⟩ := by
    have hno : isIndent c = false := by
      simp [isIndent, hc (d := ' ') (by decide), hc (d := '\t') (by decide)]
    rw [Cursor.skipIndent, List.cons_append, List.takeWhile_cons_of_neg (by simp [hno])]
    exact Cursor.skip_zero _
  have hcomputed : (⟨c :: cs ++ '(' :: rest, at_⟩ : Cursor).startsWith "#\x7b" = false := by
    show ('#' == c && _) = false
    rw [beq_false_of_ne (Ne.symm (hc (by decide))), Bool.false_and]
  have hword : (⟨c :: cs ++ '(' :: rest, at_⟩ : Cursor).word = c :: cs :=
    takeWhile_append_cons hall rfl rest
  rw [hindent, Rule.callName, hcomputed, if_neg Bool.false_ne_true, hword,
    if_neg (List.cons_ne_nil c cs)]
  simp only [Cursor.skip, List.drop_left, List.take_left]

/-- The token of a call, and where its line goes on. -/
theorem call_eq (width : Nat) (hname : IsMixinName name)
    (hrow : Nesting.inside .round (row ++ [')']) = .ok row) (loc : Location) :
    ∃ stop, Rule.call width ⟨callLine name row, loc⟩ =
      some (.ok (if looksLikeAttributes row
        then ([⟨.call (String.ofList name) false none, loc⟩], ⟨'(' :: (row ++ [')']), stop⟩)
        else ([⟨.call (String.ofList name) false (some (String.ofList (trim row))), loc⟩],
          ⟨[], stop⟩))) := by
  have hplus : (⟨callLine name row, loc⟩ : Cursor).startsWith "+" = true := rfl
  have hskip : (⟨callLine name row, loc⟩ : Cursor).skip 1 =
      ⟨name ++ '(' :: (row ++ [')']), loc.afterText ['+']⟩ := rfl
  have hopen (at_ : Location) : (⟨'(' :: (row ++ [')']), at_⟩ : Cursor).startsWith "(" = true := rfl
  have hinside (at_ : Location) : ((⟨'(' :: (row ++ [')']), at_⟩ : Cursor).skip 1).inside .round =
      .ok (row, ⟨[], (at_.afterText ['(']).afterText (row ++ [')'])⟩) := by
    have hlength : (row ++ [')']).length = row.length + 1 := List.length_append
    rw [Cursor.inside, Cursor.rest_skip, List.drop_succ_cons, List.drop_zero, hrow]
    simp only [Cursor.skip, List.drop_succ_cons, List.drop_zero, List.take_succ_cons,
      List.take_zero, ← hlength, List.drop_length, List.take_length]
  rw [Rule.call, if_pos hplus, hskip, callName_eq hname]
  dsimp only
  rw [if_pos (hopen _), hinside]
  dsimp only
  cases hattributes : looksLikeAttributes row with
  | true => exact ⟨_, by rw [if_pos rfl, if_pos rfl]; rfl⟩
  | false => exact ⟨_, by rw [if_neg Bool.false_ne_true, if_neg Bool.false_ne_true]; rfl⟩

theorem read_call (width : Nat) (hname : IsMixinName name)
    (hrow : Nesting.inside .round (row ++ [')']) = .ok row) (loc : Location) :
    ∃ stop, Rule.read width ⟨callLine name row, loc⟩ =
      .ok (if looksLikeAttributes row
        then ([⟨.call (String.ofList name) false none, loc⟩], ⟨'(' :: (row ++ [')']), stop⟩)
        else ([⟨.call (String.ofList name) false (some (String.ofList (trim row))), loc⟩],
          ⟨[], stop⟩)) := by
  obtain ⟨stop, hcall⟩ := call_eq width hname hrow loc
  exact ⟨stop, Rule.read_eq_of_before 10 rfl (Rule.before_of_head rfl (by decide)) hcall⟩

/-- The tokens of a call's line: the call with its arguments, or without and with more behind it. -/
theorem lex_call (hname : IsMixinName name)
    (hrow : Nesting.inside .round (row ++ [')']) = .ok row) (hreturn : '\r' ∉ row) :
    ∃ stop, lex (String.ofList (callLine name row)) =
      if looksLikeAttributes row
      then ([⟨.call (String.ofList name) false none, .start⟩] ++ ·) <$>
        Layout.empty.tokens ⟨'(' :: (row ++ [')']), stop⟩
      else .ok [⟨.call (String.ofList name) false (some (String.ofList (trim row))), .start⟩,
        ⟨.eos, stop⟩] := by
  have hnormal : normalizeText (String.ofList (callLine name row)) =
      String.ofList (callLine name row) := by
    rw [normalizeText, String.toList_ofList, normalize_eq_self]
    · have hword : '\r' ∉ name := fun hm => absurd (hname.2 _ hm) (by decide)
      simp [callLine, hreturn, hword]
    · rintro ⟨⟩
  obtain ⟨stop, hread⟩ := read_call 0 hname hrow .start
  have hleading : Layout.skipLeading ⟨callLine name row, .start⟩ = ⟨callLine name row, .start⟩ := by
    have hshown : ¬ allBlank (⟨callLine name row, .start⟩ : Cursor).line := by rintro ⟨⟩
    rw [Layout.skipLeading, if_neg fun hand => hshown hand.1]
    exact Cursor.skip_zero _
  refine ⟨stop, ?_⟩
  rw [lex, hnormal, lexAt, String.toList_ofList, hleading,
    Layout.tokens_of_ne (List.cons_ne_nil _ _),
    Layout.step_of_read (l := .empty) rfl (by decide) hread]
  cases looksLikeAttributes row with
  | true => rfl
  | false =>
    show (_ ++ ·) <$> Layout.empty.tokens ⟨[], stop⟩ = _
    rw [Layout.tokens, if_pos rfl]
    rfl

/-! ## A call's tree -/

theorem parseTokens_call {source : String} {es : List Expr}
    (h : Expr.readList source.toList = .ok es) (shown : String) (loc stop : Location) :
    parseTokens [⟨.call shown false (some source), loc⟩, ⟨.eos, stop⟩] =
      .ok [.call loc (.fixed shown) es {} none] := by
  simp only [parseTokens, readTokens, readDocument, Node.read, callName, callArguments, h,
    atLocation, readElement]
  simp [Head.read, readInline, readOptionalBlock, readDocument, bind, Except.bind, pure, Except.pure]

/-- The arguments of a call are those that its token gives. -/
theorem readElement_call {cx : TreeContext} {loc : Location} {name : NameSource} {shown : String}
    {ts : List Token} {args : List Expr} {n : Node} {k : Nat}
    (h : readElement cx loc name shown ts (some args) = .ok (n, k)) :
    ∃ head content, n = .call loc name args head content := by
  unfold readElement at h
  obtain ⟨⟨head, j⟩, -, h⟩ := of_bind_eq_ok h
  obtain ⟨⟨inline, selfClosing, m⟩, -, h⟩ := of_bind_eq_ok h
  dsimp only at h
  split at h
  all_goals
    obtain ⟨⟨below, i⟩, -, h⟩ := of_bind_eq_ok h
    dsimp only at h
    split at h
    next => cases h
    next =>
      cases h
      exact ⟨_, _, rfl⟩

theorem parseTokens_bare {shown : String} {loc : Location} {ts : List Token} {ns : List Node}
    (h : parseTokens (⟨.call shown false none, loc⟩ :: ts) = .ok ns) :
    ∃ head content more, ns = .call loc (.fixed shown) [] head content :: more := by
  rw [parseTokens, readTokens, readDocument] at h
  · obtain ⟨⟨read, k⟩, hread, h⟩ := of_bind_eq_ok h
    obtain ⟨more, -, h⟩ := of_bind_eq_ok h
    cases h
    have hname : callName shown false loc = .ok (.fixed shown) := rfl
    have hargs : callArguments none loc = .ok [] := rfl
    rw [Node.read, hname, hargs] at hread
    obtain ⟨⟨n, j⟩, hn, hread⟩ := of_bind_eq_ok (x := readElement _ _ _ _ _ _) hread
    cases hread
    obtain ⟨head, content, rfl⟩ := readElement_call hn
    exact ⟨head, content, more, rfl⟩
  · rintro _ ⟨⟩
  · rintro _ ⟨⟩

/-- A call stays in front of what a policy keeps. -/
theorem strip_call {policy : CommentPolicy} {shown : String} {loc : Location}
    {args : Option String} {ts kept : List Token}
    (h : policy.strip (⟨.call shown false args, loc⟩ :: ts) = .ok kept) :
    ∃ more, kept = ⟨.call shown false args, loc⟩ :: more := by
  have hstep : policy.step {} ⟨.call shown false args, loc⟩ = .ok (true, {}) := rfl
  rw [CommentPolicy.strip, CommentPolicy.keep, hstep] at h
  dsimp only at h
  split at h
  next => cases h
  next more _ =>
    cases h
    exact ⟨more, rfl⟩

/-- The tree of a call's line, if its row does not look like attributes, and only then. -/
theorem parseSource_call {e : Expr} {es : List Expr} {t : List Char} {texts : List (List Char)}
    (hname : IsMixinName name) (h : List.Forall₂ (fun t e => Expr.read t = .ok e) (t :: texts) (e :: es))
    (hreturn : ∀ u ∈ t :: texts, '\r' ∉ u) (options : Options) :
    parseSource options (String.ofList (callLine name (Param.row (t :: texts)))) =
        .ok [.call .start (.fixed (String.ofList name)) (e :: es) {} none] ↔
      looksLikeAttributes (Param.row (t :: texts)) = false := by
  have hpasses : ∀ u ∈ t :: texts, Nesting.Passes [] u [] := by
    intro u hu
    obtain ⟨i, hi, rfl⟩ := List.getElem_of_mem hu
    exact Expr.passes_read (h.get hi (h.length_eq ▸ hi))
  have hrow : '\r' ∉ Param.row (t :: texts) := by
    intro hmem
    rcases Param.mem_row hmem with h | ⟨u, hu, hc⟩
    · exact nomatch h
    · exact hreturn u hu hc
  obtain ⟨stop, hlex⟩ := lex_call hname (Param.inside_row hpasses []) hrow
  have hlist : Expr.readList (String.ofList (trim (Param.row (t :: texts)))).toList = .ok (e :: es) := by
    rw [String.toList_ofList]
    exact Expr.readList_trim h.flip
  rw [parseSource, hlex]
  cases looksLikeAttributes (Param.row (t :: texts)) with
  | false =>
    refine iff_of_true ?_ rfl
    rw [if_neg Bool.false_ne_true]
    have hstrip (source : String) : options.comments.strip
        [⟨.call (String.ofList name) false (some source), .start⟩, ⟨.eos, stop⟩] =
        .ok [⟨.call (String.ofList name) false (some source), .start⟩, ⟨.eos, stop⟩] := rfl
    rw [show ∀ x, Except.bind (.ok x) options.comments.strip = options.comments.strip x from
      fun _ => rfl, hstrip]
    dsimp only
    rw [parseTokens_call hlist]
  | true =>
    refine iff_of_false (fun hparse => ?_) (by simp)
    rw [if_pos rfl] at hparse
    split at hparse
    next => cases hparse
    next kept hkept =>
      obtain ⟨tokens, htokens, hkept⟩ := of_bind_eq_ok hkept
      obtain ⟨more, -, hcall⟩ := of_bind_eq_ok htokens
      cases hcall
      obtain ⟨more, rfl⟩ := strip_call hkept
      split at hparse
      next => cases hparse
      next ns hns =>
        obtain ⟨head, content, nodes, rfl⟩ := parseTokens_bare hns
        cases hparse

end Call

/-! ## Main statement -/

/-- A row of expressions looks like attributes for the mark `!=` only. -/
theorem looksLikeAttributes_iff {e : Expr} {es : List Expr} {t : List Char}
    {texts : List (List Char)}
    (h : List.Forall₂ (fun t e => Expr.read t = .ok e) (t :: texts) (e :: es)) :
    looksLikeAttributes (Param.row (t :: texts)) = true ↔ BeginsUnequal (Param.row (t :: texts)) := by
  refine ⟨fun hlooks => ?_, BeginsUnequal.looksLikeAttributes⟩
  obtain hbegins | ⟨blank, word, spaces, rest, hrow, hblank, hword, hspaces, hrest⟩ :=
    exists_of_looksLikeAttributes hlooks
  · exact hbegins
  · -- the sign is a lexeme that no expression has
    obtain ⟨ts, hts, hlists⟩ := Expr.exists_lists h.flip 0
    rw [show [',', ' '].intercalate (t :: texts) = _ from hrow, Lexeme.readAll_blanks _ _ hblank] at hts
    obtain ⟨u, hu, hassign⟩ := Lexeme.exists_assignment hword hspaces hrest hts
    exact nomatch (hlists.not_isAssignment u hu).symm.trans hassign

/-- Expressions in the parentheses behind a mixin's name are read as the arguments of a call, just if
they do not begin with a word and `!=`, whatever follows that mark. -/
theorem call_reads_arguments_iff {name : String} {sources : List String} {es : List Expr}
    (hname : IsMixinName name.toList) (hsources : sources ≠ [])
    (h : List.Forall₂ (fun source e => Expr.read source.toList = .ok e) sources es)
    (hreturn : ∀ source ∈ sources, '\r' ∉ source.toList) (options : Options) :
    parseSource options ("+" ++ name ++ "(" ++ ", ".intercalate sources ++ ")") =
        .ok [.call .start (.fixed name) es {} none] ↔
      ¬ BeginsUnequal (", ".intercalate sources).toList := by
  have hrow : (", ".intercalate sources).toList = Param.row (sources.map String.toList) := by
    rw [String.toList_intercalate]
    rfl
  have hline : "+" ++ name ++ "(" ++ ", ".intercalate sources ++ ")" =
      String.ofList (callLine name.toList (Param.row (sources.map String.toList))) := by
    refine String.toList_inj.mp ?_
    simp [hrow, callLine]
  rw [hrow, hline]
  cases h with
  | nil => exact absurd rfl hsources
  | @cons source e sources es he h =>
    have hall : List.Forall₂ (fun t e => Expr.read t = .ok e)
        (source.toList :: sources.map String.toList) (e :: es) :=
      .cons he (List.forall₂_map_left_iff.mpr h)
    have hreturns : ∀ t ∈ source.toList :: sources.map String.toList, '\r' ∉ t := by
      refine List.forall_mem_cons.mpr ⟨hreturn source List.mem_cons_self, fun t ht => ?_⟩
      obtain ⟨u, hu, rfl⟩ := List.mem_map.mp ht
      exact hreturn u (List.mem_cons_of_mem _ hu)
    have hcall := parseSource_call hname hall hreturns options
    rw [String.ofList_toList] at hcall
    rw [List.map_cons, hcall, ← looksLikeAttributes_iff hall, Bool.not_eq_true]

namespace ComparedName

def source : String := "a !== b"

def value : Expr := .binary .strictNotEq (.name "a") (.name "b")

theorem read_source : Expr.read source.toList = .ok value := by
  have hprint : source.toList = value.print (.sparing '\'') := by decide
  rw [hprint]
  exact Expr.read_print_of_isPlain rfl (by decide)

theorem read_name : Expr.read "b".toList = .ok (.name "b") := by
  have hprint : "b".toList = (Expr.name "b").print (.sparing '\'') := by decide
  rw [hprint]
  exact Expr.read_print_of_isPlain rfl (by decide)

/-- What stands behind the word of the source, and behind no other one. -/
theorem mark_source {rest : List Char} (h : WordThen source.toList ('!' :: rest)) :
    rest = "== b".toList := by
  obtain ⟨word, -, hword, hbehind⟩ := h.exists_word
  rw [← hword, show source.toList = ['a', ' ', '!', '=', '=', ' ', 'b'] from rfl] at hbehind
  exact (List.cons.inj (show _ = _ from hbehind)).2.symm

end ComparedName

theorem call_reads_arguments_compared :
    parseSource {} ("+" ++ "m" ++ "(" ++ ", ".intercalate ["b", ComparedName.source] ++ ")") =
      .ok [.call .start (.fixed "m") [.name "b", ComparedName.value] {} none] := by
  refine (call_reads_arguments_iff (by decide) (by decide)
    (.cons ComparedName.read_name (.cons ComparedName.read_source .nil)) (by decide) {}).mpr ?_
  exact fun h => absurd h.looksLikeAttributes (by decide)

/-- A comparison that is no mark of an attribute keeps the arguments from being read. -/
theorem call_reads_arguments_not_compared :
    ¬ ∀ (sources : List String) (es : List Expr), sources ≠ [] →
      List.Forall₂ (fun source e => Expr.read source.toList = .ok e) sources es →
      (∀ source ∈ sources, '\n' ∉ source.toList ∧ '\r' ∉ source.toList) →
      (¬ ∃ rest, WordThen (", ".intercalate sources).toList ('!' :: '=' :: rest) ∧
        rest.head? ≠ some '=') →
        parseSource {} ("+" ++ "m" ++ "(" ++ ", ".intercalate sources ++ ")") =
          .ok [.call .start (.fixed "m") es {} none] := by
  intro hclaim
  have hexempt : ¬ ∃ rest, WordThen (", ".intercalate [ComparedName.source]).toList
      ('!' :: '=' :: rest) ∧ rest.head? ≠ some '=' := by
    rintro ⟨rest, h, hrest⟩
    have heq := ComparedName.mark_source h
    cases heq
    exact hrest rfl
  have hread := ComparedName.read_source
  have hparse := hclaim [ComparedName.source] [ComparedName.value] (by decide) (.cons hread .nil)
    (by decide) hexempt
  have hline : "+" ++ "m" ++ "(" ++ ", ".intercalate [ComparedName.source] ++ ")" =
      String.ofList (callLine ['m'] (Param.row [ComparedName.source.toList])) := by decide
  rw [hline] at hparse
  have hlooks := (parseSource_call (show IsMixinName ['m'] by decide) (.cons hread .nil) (by decide)
    {}).mp hparse
  exact absurd hlooks (by decide)

end PugTemplate
