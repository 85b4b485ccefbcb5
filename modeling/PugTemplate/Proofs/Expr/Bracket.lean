import PugTemplate.Proofs.Expr.Complete
import PugTemplate.Proofs.Expr.Word
import PugTemplate.Proofs.Text.Passage

/-!
# Brackets of an expression

The reader of expressions and the nesting machine agree on where strings, backtick literals and their
holes end. So whatever is read as an expression leaves the machine where it found it, and has its
commas inside brackets.
-/

namespace PugTemplate

/-! ## Brackets among lexemes -/

/-- What stays open behind a closing bracket, which must be the one waited for. -/
def Bracket.close? (b : Bracket) : List Bracket → Option (List Bracket)
  | [] => none
  | c :: open_ => if c = b then some open_ else none

theorem Bracket.of_close? {b : Bracket} {open_ inner : List Bracket}
    (h : b.close? open_ = some inner) : open_ = b :: inner := by
  unfold close? at h
  split at h
  next => exact nomatch h
  next =>
    split at h
    next hb =>
      cases h
      rw [hb]
    next => exact nomatch h

/-- The brackets open behind a mark. A comma stands inside one. -/
def Punct.nest? (p : Punct) (open_ : List Bracket) : Option (List Bracket) :=
  match p with
  | openRound => some (.round :: open_)
  | openSquare => some (.square :: open_)
  | openCurly => some (.curly :: open_)
  | closeRound => Bracket.round.close? open_
  | closeSquare => Bracket.square.close? open_
  | closeCurly => Bracket.curly.close? open_
  | comma => if open_ = [] then none else some open_
  | _ => some open_

def Lexeme.nest? : Lexeme → List Bracket → Option (List Bracket)
  | punct p, open_ => p.nest? open_
  | _, open_ => some open_

namespace Expr

def nests (open_ : List Bracket) (ts : List Placed) : Option (List Bracket) :=
  ts.foldlM (fun open_ t => t.lexeme.nest? open_) open_

@[simp] theorem nests_nil (open_ : List Bracket) : nests open_ [] = some open_ := rfl

@[simp] theorem nests_cons (open_ : List Bracket) (t : Placed) (ts : List Placed) :
    nests open_ (t :: ts) = (t.lexeme.nest? open_).bind (nests · ts) := rfl

@[simp] theorem nests_append (open_ : List Bracket) (us vs : List Placed) :
    nests open_ (us ++ vs) = (nests open_ us).bind (nests · vs) :=
  List.foldlM_append

theorem nest?_of_operator? {n : Nat} {level : Level} {op : BinaryOp} {t : Placed}
    (hlevel : Level.table[n]? = some level) (h : operator? level [t] = some op)
    (open_ : List Bracket) : t.lexeme.nest? open_ = some open_ := by
  have hrank := rank?_of_operator? hlevel h
  have hn : n < 6 := (List.getElem?_eq_some_iff.mp hlevel).1
  obtain ⟨lexeme, i⟩ := t
  cases lexeme with
  | punct p =>
    cases p with
    | question => exact nomatch hrank
    | dot | openSquare | openRound =>
      cases hrank
      exact absurd hn (by decide)
    | comma | closeRound | closeSquare | openCurly | closeCurly => exact nomatch hrank
    | _ => rfl
  | _ => rfl

theorem nest?_of_unary? {op : UnaryOp} {t : Placed} (h : unary? [t] = some op)
    (open_ : List Bracket) : t.lexeme.nest? open_ = some open_ := by
  obtain ⟨lexeme, i⟩ := t
  cases lexeme with
  | punct p => cases p <;> first | rfl | exact nomatch h
  | _ => rfl

theorem nest?_of_keyOf? {key : String × Bool} {l : Lexeme} (h : keyOf? l = some key)
    (open_ : List Bracket) : l.nest? open_ = some open_ := by
  cases l with
  | punct p => exact nomatch h
  | _ => rfl

/-- What is open in front of a row that spells a form. -/
def Form.around : Form → List Bracket → List Bracket
  | .items _, open_ => .square :: open_
  | .entries _, open_ => .curly :: open_
  | _, open_ => open_

/-- What is spelled closes what it opens. -/
theorem Spells.nests {f : Form} {us : List Placed} (h : Spells us f) (open_ : List Bracket) :
    nests (f.around open_) us = some open_ := by
  induction h generalizing open_ with
  | binary hlevel hop =>
    have hop := nest?_of_operator? hlevel hop
    simp_all [Form.around]
  | unary hop =>
    have hop := nest?_of_unary? hop
    simp_all [Form.around]
  | pair hk | alone hk =>
    have hk := nest?_of_keyOf? hk
    simp_all [Form.around, Lexeme.nest?, Punct.nest?]
  | _ => simp_all [Form.around, Lexeme.nest?, Punct.nest?, Bracket.close?]

end Expr

/-! ## The characters of a lexeme -/

open Nesting (Passes isQuiet passes_of_isQuiet)

theorem outside_brackets (open_ : List Bracket) : Nesting.Outside (open_.map .bracket) := by
  cases open_ <;> exact trivial

theorem Punct.passes {p : Punct} {open_ inner : List Bracket} (h : p.nest? open_ = some inner) :
    Passes (open_.map .bracket) p.text.toList (inner.map .bracket) := by
  have hout := outside_brackets open_
  cases p with
  | openRound | openSquare | openCurly =>
    cases h
    refine .cons ?_ nofun (.nil _)
    rw [Nesting.feed_of_outside hout]
    rfl
  | closeRound | closeSquare | closeCurly =>
    obtain rfl := Bracket.of_close? h
    exact .inside rfl (.nil _)
  | comma =>
    cases open_ with
    | nil => exact nomatch h
    | cons b open_ =>
      cases h
      exact .inside rfl (.nil _)
  | _ =>
    cases h
    exact passes_of_isQuiet hout (List.all_eq_true.mp rfl)

namespace Lexeme

/-! ### Numbers -/

theorem isNameChar_loud : Nesting.loud.any isNameChar = false := rfl

/-- What a number may hold. -/
def isNumeric (c : Char) : Bool :=
  c.isDigit || c ∈ ['.', 'e', 'E', '+', '-']

theorem isNumeric_loud : Nesting.loud.any isNumeric = false := rfl

theorem isNumeric_of_isDigit {c : Char} (h : c.isDigit) : isNumeric c := by
  rw [isNumeric, h]
  rfl

/-- A text of some characters that another one begins with. -/
def Starts (p : Char → Bool) (text cs : List Char) : Prop :=
  text <+: cs ∧ ∀ c ∈ text, p c

theorem Starts.append {r : Char → Bool} {p q cs : List Char} (hp : Starts r p cs)
    (hq : Starts r q (cs.drop p.length)) : Starts r (p ++ q) cs := by
  obtain ⟨⟨rest, rfl⟩, hp⟩ := hp
  rw [List.drop_left] at hq
  exact ⟨(List.prefix_append_right_inj p).mpr hq.1, List.forall_mem_append.mpr ⟨hp, hq.2⟩⟩

theorem starts_takeWhile (p : Char → Bool) (cs : List Char) : Starts p (cs.takeWhile p) cs :=
  ⟨List.takeWhile_prefix p, List.all_eq_true.mp List.all_takeWhile⟩

theorem starts_digits (cs : List Char) : Starts isNumeric (cs.takeWhile Char.isDigit) cs :=
  (starts_takeWhile Char.isDigit cs).imp_right fun h c hc => isNumeric_of_isDigit (h c hc)

theorem Starts.cons {p : Char → Bool} {text cs : List Char} {c : Char} (hc : p c)
    (h : Starts p text cs) : Starts p (c :: text) (c :: cs) :=
  ⟨List.cons_prefix_cons.mpr ⟨rfl, h.1⟩, List.forall_mem_cons.mpr ⟨hc, h.2⟩⟩

theorem starts_nil (p : Char → Bool) (cs : List Char) : Starts p [] cs :=
  ⟨List.nil_prefix, nofun⟩

theorem starts_fractionOf (cs : List Char) : Starts isNumeric (fractionOf cs) cs := by
  unfold fractionOf
  split
  next cs =>
    dsimp only
    split
    next => exact starts_nil _ _
    next => exact (starts_digits cs).cons rfl
  next => exact starts_nil _ cs

theorem starts_exponentOf (cs : List Char) : Starts isNumeric (exponentOf cs) cs := by
  unfold exponentOf
  split
  next => exact starts_nil _ []
  next c cs =>
    split
    next hc =>
      have hletter : isNumeric c := by
        rcases hc with rfl | rfl <;> rfl
      have hsign : Starts isNumeric ((cs.take 1).filter fun s => s == '+' || s == '-') cs := by
        cases cs with
        | nil => exact starts_nil _ []
        | cons d ds =>
          rw [List.take_succ_cons, List.take_zero, List.filter_cons, List.filter_nil]
          split
          next hd =>
            have hd : isNumeric d := by
              simp only [Bool.or_eq_true, beq_iff_eq] at hd
              rcases hd with rfl | rfl <;> rfl
            exact (starts_nil _ ds).cons hd
          next => exact starts_nil _ _
      dsimp only
      split
      next => exact starts_nil _ _
      next => exact (hsign.append (starts_digits _)).cons hletter
    next => exact starts_nil _ _

theorem starts_readNumber (cs : List Char) :
    ∃ text, Starts isNumeric text cs ∧ (readNumber cs).2 = text.length := by
  have hfraction := starts_fractionOf (cs.drop (cs.takeWhile Char.isDigit).length)
  have hnumber := (starts_digits cs).append hfraction
  refine ⟨_, hnumber.append (starts_exponentOf _), ?_⟩
  unfold readNumber
  simp only [List.length_append]

/-! ### Escapes -/

/-- What may stand in the places of a number in an escape. -/
def isPlace (c : Char) : Bool :=
  c == '+' || (hexValue? c).isSome

theorem forall_of_hexNumber? {cs : List Char} {n : Nat} (h : hexNumber? cs = some n) :
    ∀ c ∈ cs, (hexValue? c).isSome := by
  suffices hfrom : ∀ {x : Option Nat}, (cs.foldl (fun n c => n.bind fun n =>
      (hexValue? c).map (16 * n + ·)) x).isSome → x.isSome ∧ ∀ c ∈ cs, (hexValue? c).isSome from
    (hfrom (x := some 0) (Option.isSome_of_eq_some h)).2
  clear h
  induction cs with
  | nil => exact fun h => ⟨h, nofun⟩
  | cons c cs ih =>
    intro x h
    obtain ⟨hx, hcs⟩ := ih h
    obtain ⟨n, hn⟩ := Option.isSome_iff_exists.mp hx
    obtain ⟨m, hm, hc⟩ := Option.bind_eq_some_iff.mp hn
    obtain ⟨v, hv, -⟩ := Option.map_eq_some_iff.mp hc
    exact ⟨Option.isSome_of_eq_some hm,
      List.forall_mem_cons.mpr ⟨Option.isSome_of_eq_some hv, hcs⟩⟩

theorem hexChar?_eq_some {places : Nat} {cs : List Char} {ch : Char}
    (h : hexChar? places cs = some ch) :
    (cs.take places).length = places ∧ ∀ c ∈ cs.take places, isPlace c := by
  have hplace {ds : List Char} (hds : (hexNumber? ds).bind charOf? = some ch) :
      ∀ c ∈ ds, isPlace c := by
    obtain ⟨n, hn, -⟩ := Option.bind_eq_some_iff.mp hds
    exact fun c hc => by simp [isPlace, forall_of_hexNumber? hn c hc]
  unfold hexChar? at h
  dsimp only at h
  split at h
  next ds heq =>
    split at h
    next hlength =>
      rw [heq] at hlength ⊢
      exact ⟨hlength.1, List.forall_mem_cons.mpr ⟨rfl, hplace h⟩⟩
    next => exact nomatch h
  next =>
    split at h
    next hlength => exact ⟨hlength.1, hplace h⟩
    next => exact nomatch h

/-- An escape is one character of any kind, and the places of a number behind it. -/
theorem readEscape_eq_ok {cs : List Char} {r : Option Char} {n : Nat}
    (h : readEscape cs = .ok (r, n)) :
    ∃ c ds, cs.take n = c :: ds ∧ (c :: ds).length = n ∧ ∀ d ∈ ds, isPlace d := by
  match cs, h with
  | c :: cs, h =>
    unfold readEscape at h
    dsimp only at h
    generalize (if c = 'u' then 4 else if c = 'x' then 2 else 0) = places at h
    split at h
    next =>
      cases h
      exact ⟨c, [], rfl, rfl, nofun⟩
    next =>
      split at h
      next ch hch =>
        cases h
        obtain ⟨hlength, hplaces⟩ := hexChar?_eq_some hch
        rw [Nat.add_comm, List.take_succ_cons]
        exact ⟨c, _, rfl, by rw [List.length_cons, hlength], hplaces⟩
      next => cases h

theorem passes_of_isPlace {open_ : Enclosure} {around : List Enclosure} {ds : List Char}
    (hopen : ∀ d, isPlace d → Nesting.feed (open_ :: around) d = .ok (open_ :: around))
    (h : ∀ d ∈ ds, isPlace d) : Passes (open_ :: around) ds (open_ :: around) := by
  induction ds with
  | nil => exact .nil _
  | cons d ds ih =>
    obtain ⟨hd, hds⟩ := List.forall_mem_cons.mp h
    exact .inside (hopen d hd) (ih hds)

/-- An escape ends for the machine no later than for the reader. -/
theorem passes_readEscape {cs : List Char} {r : Option Char} {n : Nat} {open_ : Enclosure}
    {around : List Enclosure} (h : readEscape cs = .ok (r, n))
    (hopen : ∀ d, isPlace d → Nesting.feed (open_ :: around) d = .ok (open_ :: around)) :
    Passes (.escape :: open_ :: around) (cs.take n) (open_ :: around) := by
  obtain ⟨c, ds, htake, -, hds⟩ := readEscape_eq_ok h
  rw [htake]
  exact .inside rfl (passes_of_isPlace hopen hds)

/-! ### Strings and backtick literals -/

theorem placeCause_eq_ok {α : Type} {offset : Nat} {x : Except ExprCause α} {a : α}
    (h : placeCause offset x = .ok a) : x = .ok a := by
  cases x with
  | ok b => exact congrArg Except.ok (Except.ok.inj h)
  | error e => exact nomatch h

theorem feed_quoted_place {mark : Char} (hmark : isQuote mark) (around : List Enclosure) {d : Char}
    (hd : isPlace d) :
    Nesting.feed (.quoted mark :: around) d = .ok (.quoted mark :: around) := by
  have hm : d ≠ mark := by
    rintro rfl
    simp only [isQuote, Bool.or_eq_true, beq_iff_eq] at hmark
    rcases hmark with rfl | rfl <;> cases hd
  have hslash : d ≠ '\\' := by
    rintro rfl
    cases hd
  have hfeed : d ≠ '\n' := by
    rintro rfl
    cases hd
  simp [Nesting.feed, hm, hslash, hfeed]

theorem passes_readString {mark : Char} (hmark : isQuote mark) {base offset n : Nat}
    {cs s : List Char} (h : readString mark base offset cs = .ok (s, n))
    (around : List Enclosure) : Passes (.quoted mark :: around) (cs.take n) around := by
  have hslash : mark ≠ '\\' := by
    rintro rfl
    cases hmark
  have hfeed : mark ≠ '\n' := by
    rintro rfl
    cases hmark
  match cs with
  | [] => simp [readString] at h
  | c :: cs =>
    unfold readString at h
    split at h
    next hc =>
      cases h
      refine .inside ?_ (.nil _)
      simp [Nesting.feed, hc, hslash, hfeed]
    next hm =>
      split at h
      next hc =>
        obtain ⟨⟨ch, m⟩, hch, h⟩ := of_bind_eq_ok h
        obtain ⟨⟨s, k⟩, hs, h⟩ := of_bind_eq_ok h
        cases h
        have hescape := passes_readEscape (placeCause_eq_ok hch)
          (fun d => feed_quoted_place hmark around)
        rw [Nat.add_assoc, Nat.add_comm, List.take_succ_cons, List.take_add]
        refine .inside ?_ (hescape.append (passes_readString hmark hs around))
        simp [Nesting.feed, hc]
      next hs =>
        split at h
        next => cases h
        next hn =>
          obtain ⟨⟨s, k⟩, hs, h⟩ := of_bind_eq_ok h
          cases h
          rw [Nat.add_comm, List.take_succ_cons]
          refine .inside ?_ (passes_readString hmark hs around)
          simp [Nesting.feed, *]
termination_by cs.length

theorem feed_template_place (around : List Enclosure) {d : Char} (hd : isPlace d) :
    Nesting.feed (.template false :: around) d = .ok (.template false :: around) := by
  have hslash : d ≠ '\\' := by
    rintro rfl
    exact nomatch hd
  have hmark : d ≠ '`' := by
    rintro rfl
    exact nomatch hd
  have hdollar : d ≠ '$' := by
    rintro rfl
    exact nomatch hd
  simp [Nesting.feed, hslash, hmark, hdollar]

/-- A hole, from its opening bracket through its closing one. -/
theorem passes_hole {cs content : List Char} (h : Nesting.inside .curly cs = .ok content)
    (around : List Enclosure) :
    Passes (.template true :: around) ('\x7b' :: cs.take (content.length + 1))
      (.template false :: around) := by
  obtain ⟨rest, rfl⟩ := Nesting.inside_closing h
  have hcontent : Passes (.hole :: .template false :: around) content
      (.hole :: .template false :: around) :=
    .of_untilClosed [] trivial h
  rw [List.take_length_add_append]
  exact .inside rfl (hcontent.append (.inside rfl (.nil _)))

/-- The machine sees a hole where the reader does: a dollar sign just before is the one that the
reader has read alone. -/
theorem passes_readTemplate {inner : List Char → Except ExprError Expr} {base offset n : Nat}
    {cs : List Char} {ps : List Part} (h : readTemplate inner base offset cs = .ok (ps, n))
    {dollar : Bool} (hdollar : dollar → cs.head? ≠ some '\x7b') (around : List Enclosure) :
    Passes (.template dollar :: around) (cs.take n) around := by
  match cs with
  | [] => simp [readTemplate] at h
  | c :: cs =>
    unfold readTemplate at h
    split at h
    next hc =>
      cases h
      refine .inside ?_ (.nil _)
      simp [Nesting.feed, hc]
    next hmark =>
      split at h
      next hc =>
        obtain ⟨⟨ch, m⟩, hch, h⟩ := of_bind_eq_ok h
        obtain ⟨⟨ps, k⟩, hps, h⟩ := of_bind_eq_ok h
        cases h
        have hescape := passes_readEscape (placeCause_eq_ok hch)
          (fun d => feed_template_place around)
        rw [Nat.add_assoc, Nat.add_comm, List.take_succ_cons, List.take_add]
        have hmore := passes_readTemplate hps (fun hd => absurd hd Bool.false_ne_true) around
        refine .inside ?_ (hescape.append hmore)
        simp [Nesting.feed, hc]
      next hslash =>
        split at h
        next hhole =>
          obtain ⟨rfl, hcurly⟩ := hhole
          obtain ⟨cs, rfl⟩ := List.head?_eq_some_iff.mp hcurly
          rw [List.tail_cons] at h
          dsimp only at h
          split at h
          next => cases h
          next content hcontent =>
            split at h
            next => cases h
            next =>
              obtain ⟨⟨ps, k⟩, hps, h⟩ := of_bind_eq_ok h
              cases h
              rw [List.drop_succ_cons] at hps
              have hmore := passes_readTemplate hps (fun hd => absurd hd Bool.false_ne_true) around
              have htake : ('$' :: '\x7b' :: cs).take (1 + (content.length + 2) + k) =
                  '$' :: ('\x7b' :: cs.take (content.length + 1) ++
                    (cs.drop (content.length + 1)).take k) := by
                rw [Nat.add_assoc, Nat.add_comm, List.take_succ_cons, List.take_add,
                  List.take_succ_cons, List.drop_succ_cons]
              rw [htake]
              refine .inside ?_ ((passes_hole hcontent around).append hmore)
              simp [Nesting.feed]
        next hhole =>
          obtain ⟨⟨ps, k⟩, hps, h⟩ := of_bind_eq_ok h
          cases h
          have hcurly : ¬ (c = '\x7b' ∧ dollar) := fun hand => hdollar hand.2 (congrArg some hand.1)
          have hfeed : Nesting.feed (.template dollar :: around) c =
              .ok (.template (c == '$') :: around) := by
            simp [Nesting.feed, hmark, hslash, hcurly]
          rw [Nat.add_comm, List.take_succ_cons]
          exact .inside hfeed
            (passes_readTemplate hps (fun hc hcs => hhole ⟨eq_of_beq hc, hcs⟩) around)
termination_by cs.length
decreasing_by
  all_goals
    subst_vars
    simp only [List.length_cons, List.length_drop]
    omega

/-! ### Any lexeme -/

theorem text_of_ofStart? {cs : List Char} {p : Punct} (h : Punct.ofStart? cs = some p) :
    p.text.toList <+: cs := by
  unfold Punct.ofStart? at h
  have htext := List.find?_some h
  exact List.isPrefixOf_iff_prefix.mp htext

theorem cons_take_of_isPrefix {text cs : List Char} {c : Char} (h : text <+: c :: cs)
    (hne : text ≠ []) : c :: cs.take (text.length - 1) = text := by
  obtain ⟨d, ds, rfl⟩ := List.exists_cons_of_ne_nil hne
  obtain ⟨rfl, hds⟩ := List.cons_prefix_cons.mp h
  rw [List.length_cons, Nat.add_sub_cancel, ← List.prefix_iff_eq_take.mp hds]

theorem passes_read {inner : List Char → Except ExprError Expr} {offset n : Nat} {c : Char}
    {cs : List Char} {l : Lexeme} {open_ behind : List Bracket}
    (h : read inner offset c cs = .ok (l, n)) (hl : l.nest? open_ = some behind) :
    Passes (open_.map .bracket) (c :: cs.take n) (behind.map .bracket) := by
  have hout := outside_brackets open_
  unfold read at h
  split at h
  next hc =>
    have hquiet : isQuiet c := by
      rcases hc with hc | ⟨rfl, -⟩
      · exact Nesting.isQuiet_of isNumeric_loud (isNumeric_of_isDigit hc)
      · rfl
    obtain ⟨text, ⟨htext, hall⟩, hlength⟩ := starts_readNumber (c :: cs)
    replace hall := fun d hd => Nesting.isQuiet_of isNumeric_loud (hall d hd)
    rcases hnumber : readNumber (c :: cs) with ⟨value, k⟩
    rw [hnumber] at h hlength
    cases h
    cases hl
    cases hlength
    refine passes_of_isQuiet hout ?_
    by_cases hne : text = []
    · rw [hne]
      exact List.forall_mem_cons.mpr ⟨hquiet, nofun⟩
    · rwa [cons_take_of_isPrefix htext hne]
  next =>
    split at h
    next hc =>
      obtain ⟨⟨s, k⟩, hs, h⟩ := of_bind_eq_ok h
      cases h
      cases hl
      have hmark : isQuote c := by
        rcases hc with rfl | rfl <;> rfl
      refine .cons ?_ ?_ (passes_readString hmark hs (open_.map .bracket))
      · rw [Nesting.feed_of_outside hout]
        rcases hc with rfl | rfl <;> rfl
      · rintro rfl
        exact nomatch hmark
    next =>
      split at h
      next hc =>
        obtain ⟨⟨ps, k⟩, hps, h⟩ := of_bind_eq_ok h
        cases h
        cases hl
        subst hc
        refine .cons ?_ nofun (passes_readTemplate hps (fun hd => absurd hd Bool.false_ne_true) _)
        rw [Nesting.feed_of_outside hout]
        rfl
      next =>
        split at h
        next hc =>
          cases h
          cases hl
          rw [← List.prefix_iff_eq_take.mp (List.takeWhile_prefix isNameChar)]
          have hquiet := Nesting.isQuiet_of isNameChar_loud (isNameChar_of_isNameStart hc)
          refine passes_of_isQuiet hout (List.forall_mem_cons.mpr ⟨hquiet, ?_⟩)
          exact fun d hd => Nesting.isQuiet_of isNameChar_loud ((starts_takeWhile _ cs).2 d hd)
        next =>
          split at h
          next p hp =>
            cases h
            have htext : p.text.toList ≠ [] := by
              cases p <;> exact List.cons_ne_nil _ _
            have hpasses := Punct.passes hl
            rwa [← cons_take_of_isPrefix (text_of_ofStart? hp) htext, String.length_toList] at hpasses
          next => exact nomatch h

theorem passes_readAll {inner : List Char → Except ExprError Expr} {offset : Nat} {cs : List Char}
    {ts : List Placed} {open_ behind : List Bracket} (h : readAll inner offset cs = .ok ts)
    (hts : Expr.nests open_ ts = some behind) :
    Passes (open_.map .bracket) cs (behind.map .bracket) := by
  match cs with
  | [] =>
    rw [readAll_nil] at h
    cases h
    cases hts
    exact .nil _
  | c :: cs =>
    cases hc : isBlank c with
    | true =>
      rw [readAll_blank hc] at h
      have hquiet : ∀ d ∈ [c], isQuiet d :=
        List.forall_mem_singleton.mpr (Nesting.isQuiet_of rfl hc)
      exact (passes_of_isQuiet (outside_brackets open_) hquiet).append (passes_readAll h hts)
    | false =>
      obtain ⟨l, n, more, hl, hmore, rfl⟩ := readAll_eq_ok hc h
      obtain ⟨mid, hmid, hts⟩ := Option.bind_eq_some_iff.mp hts
      have hpasses := (passes_read hl hmid).append (passes_readAll hmore hts)
      rwa [List.cons_append, List.take_append_drop] at hpasses
termination_by cs.length
decreasing_by
  all_goals
    simp only [List.length_cons, List.length_drop]
    omega

end Lexeme

namespace Expr

/-- What reads as an expression leaves nothing open, and has its commas inside brackets or literals. -/
theorem passes_readWith {inner : List Char → Except ExprError Expr} {src : List Char} {e : Expr}
    (h : readWith inner src = .ok e) : Passes [] src [] := by
  obtain ⟨ts, hts, hspells⟩ := readWith_eq_ok_iff.mp h
  exact Lexeme.passes_readAll hts (hspells.nests [])

theorem passes_read {src : List Char} {e : Expr} (h : read src = .ok e) : Passes [] src [] := by
  rw [read] at h
  exact passes_readWith h

end Expr

end PugTemplate
