import PugTemplate.Proofs.Lex.Strip
import PugTemplate.Proofs.Tree.Rewrite
import PugTemplate.Tree.Read

/-!
# Forecasts of a reading

A forecast says what is known of the tokens of a stream, and what the failures of its reading are to be
like. What a reader of the tree is given is a stretch of such a stream: what is left of it somewhere,
or the block of text that belongs to the word in front.
-/

namespace PugTemplate

/-- What a production waits for because of what was read before, and not for what may follow. -/
def Expectation.isStructural : Expectation → Bool
  | indent | outdent | path | attributesEnd | pipelessEnd => true
  | node | inlineContent | branch => false

/-- A cause that lies in the tokens that are read, and not in text. -/
def ParseCause.isOfToken : ParseCause → Bool
  | unexpectedToken expected _ | unexpectedEnd expected => !expected.isStructural
  | brokenMarker _ | nestedText _ => false
  | _ => true

namespace TokenKind

/-- A token that the head of a tag may begin with in place of its name. -/
def opensHead : TokenKind → Bool
  | id _ | className _ | attributesStart => true
  | _ => false

/-- A word below which no block of text can stand. -/
def isFree (k : TokenKind) : Bool :=
  k.isWord && !k.opensBlock

end TokenKind

/-- What is known of the tokens of a stream, and how its reading may fail. -/
structure Forecast where
  knows : Token → Prop
  fails : ParseError → Prop
  reports : ∀ t, knows t → ∀ cause : ParseCause, cause.isOfToken → fails ⟨cause, t.loc⟩

namespace Forecast

/-- Where some known token stands. -/
def Place (S : Forecast) (loc : Location) : Prop :=
  ∃ t, S.knows t ∧ t.loc = loc

/-- Reads on, or fails as the forecast says. -/
def parsing (S : Forecast) : Answering (Except ParseError) :=
  .orFails S.fails

/-- What is left of a stream of known tokens. -/
structure Stretch (S : Forecast) (ws : List Nat) (ts : List Token) : Prop where
  stream : TokenStream ws ts
  known : ∀ t ∈ ts, S.knows t

/-- A token and the lines of text that begin with what it prints; line ends join them. -/
def Prints (S : Forecast) (t : Token) (raw : String) : Prop :=
  ∃ first more, t.kind.printed? = some first ∧ raw.toList = first.toList ++ joined more ∧
    (∀ line ∈ first.toList :: more, Printed line) ∧
    (more ≠ [] → ∃ u, S.knows u ∧ u.kind = .newline)

variable {S : Forecast}

/-! ## What a stream begins with -/

namespace Stretch

variable {ws : List Nat} {t : Token} {ts : List Token} {loc : Location}

theorem place (h : S.Stretch ws (t :: ts)) : S.Place t.loc :=
  ⟨t, h.known t List.mem_cons_self, rfl⟩

theorem known_tail (h : S.Stretch ws (t :: ts)) : ∀ u ∈ ts, S.knows u :=
  (List.forall_mem_cons.mp h.known).2

theorem of_word (h : S.Stretch ws (t :: ts)) (ht : t.kind.isFree) : S.Stretch ws ts := by
  refine ⟨?_, h.known_tail⟩
  obtain ⟨hword, hopens⟩ := Bool.and_eq_true_iff.mp ht
  cases h.stream with
  | word _ h => exact h
  | print _ _ _ _ h => exact h
  | textBlock ho =>
    rw [ho] at hopens
    cases hopens
  | reference hr => cases hk : t.kind <;> simp_all [TokenKind.isWord, TokenKind.isReference]
  | eos | indent | outdent | attributes | filterBlock => cases ht

/-- Text reaches to the end of its line. -/
theorem of_print {s : String} (h : S.Stretch ws (t :: ts)) (ht : t.kind.printed? = some s) :
    Printed s.toList ∧ t.kind ≠ .html "" ∧ EndsLine ts ∧ S.Stretch ws ts := by
  cases h.stream with
  | print hs hp hne he hts =>
    obtain rfl := Option.some.inj (hs.symm.trans ht)
    exact ⟨hp, hne, he, hts, h.known_tail⟩
  | word hw => simp [TokenKind.isSilent, ht] at hw
  | textBlock ho => cases hk : t.kind <;> simp_all [TokenKind.printed?, TokenKind.opensBlock]
  | reference hr => cases hk : t.kind <;> simp_all [TokenKind.printed?, TokenKind.isReference]
  | eos | indent | outdent | attributes | filterBlock => cases ht

theorem of_indent {w : Nat} (h : S.Stretch ws (⟨.indent w, loc⟩ :: ts)) :
    S.Stretch (w :: ws) ts := by
  refine ⟨?_, h.known_tail⟩
  cases h.stream with
  | indent _ h => exact h
  | word ht | print ht | textBlock ht | reference ht => exact nomatch ht

theorem of_outdent {w : Nat} (h : S.Stretch (w :: ws) (⟨.outdent, loc⟩ :: ts)) :
    S.Stretch ws ts := by
  refine ⟨?_, h.known_tail⟩
  cases h.stream with
  | outdent h => exact h
  | word ht | print ht | textBlock ht | reference ht => exact nomatch ht

theorem of_attributesStart (h : S.Stretch ws (⟨.attributesStart, loc⟩ :: ts)) :
    ∃ as at_ more, ts = as ++ ⟨.attributesEnd, at_⟩ :: more ∧ (∀ a ∈ as, a.kind.isAttribute) ∧
      S.Stretch ws more := by
  have hknown := h.known_tail
  cases h.stream with
  | attributes ha hmore =>
    refine ⟨_, _, _, rfl, ha, hmore, fun t ht => hknown t ?_⟩
    exact List.mem_append_right _ (List.mem_cons_of_mem _ ht)
  | word ht | print ht | textBlock ht | reference ht => exact nomatch ht

theorem of_reference (h : S.Stretch ws (t :: ts)) (ht : t.kind.isReference) :
    ∃ target at_ more, ts = ⟨.path target, at_⟩ :: more ∧ S.Stretch ws more := by
  have hknown := h.known_tail
  cases h.stream with
  | reference _ hmore => exact ⟨_, _, _, rfl, hmore, (List.forall_mem_cons.mp hknown).2⟩
  | word hw =>
    cases hk : t.kind <;> simp_all [TokenKind.isSilent, TokenKind.isWord, TokenKind.isReference]
  | print hs => cases hk : t.kind <;> simp_all [TokenKind.printed?, TokenKind.isReference]
  | textBlock ho => cases hk : t.kind <;> simp_all [TokenKind.opensBlock, TokenKind.isReference]
  | eos | indent | outdent | attributes | filterBlock => cases ht

/-- A stream ends behind all blocks. -/
theorem not_eos {w : Nat} : ¬ S.Stretch (w :: ws) (⟨.eos, loc⟩ :: ts) := by
  intro h
  cases h.stream with
  | word ht | print ht | textBlock ht | reference ht => exact nomatch ht

/-- A block of text has its owner in front. -/
theorem not_pipelessStart : ¬ S.Stretch ws (⟨.pipelessStart, loc⟩ :: ts) := by
  intro h
  cases h.stream with
  | word ht | print ht | textBlock ht | reference ht => exact nomatch ht

theorem ne_nil (h : S.Stretch ws ts) : ts ≠ [] := by
  rintro rfl
  exact nomatch h.stream

/-- Positions behind a token count on from it. -/
theorem drop_behind {us : List Token} {k n : Nat} (h : ts.drop k = t :: us)
    (hn : S.Stretch ws (us.drop n)) : S.Stretch ws (ts.drop (k + 1 + n)) := by
  rwa [Nat.add_assoc, ← List.drop_drop, h, Nat.add_comm, List.drop_succ_cons]

theorem drop_pred {k : Nat} (h : S.Stretch ws ((t :: ts).drop k)) (hk : 0 < k) :
    S.Stretch ws (ts.drop (k - 1)) := by
  obtain ⟨k, rfl⟩ := Nat.exists_eq_succ_of_ne_zero (Nat.ne_of_gt hk)
  exact h

end Stretch

/-! ## Blocks of text -/

/-- A block of text behind its start, and the stream behind it. -/
def Block (S : Forecast) (k : TokenKind) (ws : List Nat) (ts : List Token) : Prop :=
  ∃ lines at_ more, ts = lines ++ ⟨.pipelessEnd, at_⟩ :: more ∧ TextLines lines ∧
    k.TextFits lines ∧ (∀ t ∈ lines, S.knows t) ∧ S.Stretch ws more

/-- What stands behind a word that may have a block of text. -/
def Below (S : Forecast) (k : TokenKind) (ws : List Nat) (ts : List Token) : Prop :=
  S.Stretch ws ts ∨ ∃ loc us, ts = ⟨.pipelessStart, loc⟩ :: us ∧ S.Block k ws us

/-- The text of a block, and where it begins. -/
def Body (S : Forecast) (k : TokenKind) (loc : Location) (text : String) : Prop :=
  ∃ first tail rest, (∀ t ∈ ⟨.text first, loc⟩ :: tail, S.knows t) ∧
    k.TextFits (⟨.text first, loc⟩ :: tail) ∧
    printedTexts (⟨.text first, loc⟩ :: tail) = first.toList :: rest ∧
    text.toList = first.toList ++ joined rest ∧ (rest ≠ [] → ∃ t ∈ tail, t.kind = .newline)

theorem Stretch.below {ws : List Nat} {t : Token} {ts : List Token} (h : S.Stretch ws (t :: ts))
    (ht : t.kind.opensBlock) (hf : ∀ name, t.kind ≠ .filter name) : S.Below t.kind ws ts := by
  have hknown := h.known_tail
  cases h.stream with
  | word _ hmore => exact .inl ⟨hmore, hknown⟩
  | textBlock _ hl hfit hmore =>
    refine .inr ⟨_, _, rfl, _, _, _, rfl, hl, hfit, fun t ht => hknown t ?_, hmore,
      fun t ht => hknown t ?_⟩
    · exact List.mem_cons_of_mem _ (List.mem_append_left _ ht)
    · exact List.mem_cons_of_mem _ (List.mem_append_right _ (List.mem_cons_of_mem _ ht))
  | print hs => cases hk : t.kind <;> simp_all [TokenKind.printed?, TokenKind.opensBlock]
  | reference hr => cases hk : t.kind <;> simp_all [TokenKind.isReference, TokenKind.opensBlock]
  | filterBlock => exact absurd rfl (hf _)
  | eos | indent | outdent | attributes => cases ht

/-- Attributes may stand between the name of a filter and its text. -/
theorem Stretch.below_filter {ws : List Nat} {name : String} {loc : Location} {ts : List Token}
    (h : S.Stretch ws (⟨.filter name, loc⟩ :: ts)) :
    S.Below (.filter name) ws ts ∨ ∃ at_ as at' more,
      ts = ⟨.attributesStart, at_⟩ :: (as ++ ⟨.attributesEnd, at'⟩ :: more) ∧
        (∀ a ∈ as, a.kind.isAttribute) ∧ S.Below (.filter name) ws more := by
  have hknown := h.known_tail
  cases h.stream with
  | word _ hmore => exact .inl (.inl ⟨hmore, hknown⟩)
  | textBlock _ hl hfit hmore =>
    refine .inl (.inr ⟨_, _, rfl, _, _, _, rfl, hl, hfit, fun t ht => hknown t ?_, hmore,
      fun t ht => hknown t ?_⟩)
    · exact List.mem_cons_of_mem _ (List.mem_append_left _ ht)
    · exact List.mem_cons_of_mem _ (List.mem_append_right _ (List.mem_cons_of_mem _ ht))
  | filterBlock ha hl hmore =>
    refine .inr ⟨_, _, _, _, rfl, ha, .inr ⟨_, _, rfl, _, _, _, rfl, hl, trivial,
      fun t ht => hknown t ?_, hmore, fun t ht => hknown t ?_⟩⟩
    · simp [ht]
    · simp [ht]
  | print ht | reference ht => exact nomatch ht

theorem pipelessRun_lines {lines : List Token} (hl : TextLines lines) (at_ : Location)
    (ts : List Token) :
    ∃ first loc tail rest text k, lines = ⟨.text first, loc⟩ :: tail ∧
      printedTexts lines = first.toList :: rest ∧
      pipelessRun (lines ++ ⟨.pipelessEnd, at_⟩ :: ts) = some (text, k) ∧
      (lines ++ ⟨.pipelessEnd, at_⟩ :: ts).drop k = ts ∧
      text.toList = first.toList ++ joined rest ∧ (rest ≠ [] → ∃ t ∈ tail, t.kind = .newline) := by
  induction hl with
  | last s loc =>
    refine ⟨s, loc, [], [], s ++ "", 2, rfl, rfl, rfl, rfl, ?_, fun h => absurd rfl h⟩
    simp [joined]
  | line s loc at' hl ih =>
    obtain ⟨first, loc', tail, rest, text, k, rfl, hprinted, hrun, hdrop, htext, -⟩ := ih
    refine ⟨s, loc, _, first.toList :: rest, s ++ ("\n" ++ text), k + 2, rfl, ?_, ?_, hdrop, ?_,
      fun _ => ⟨_, List.mem_cons_self, rfl⟩⟩
    · rw [← hprinted]
      rfl
    · simp only [List.cons_append, pipelessRun] at hrun ⊢
      rw [hrun]
      rfl
    · simp [htext, joined]

/-- A block of text is read through its end. -/
theorem parsing_pipelessBody {k : TokenKind} {ws : List Nat} {ts : List Token} {stop : Location}
    (h : S.Block k ws ts) :
    S.parsing.always (pipelessBody stop ts) fun r =>
      S.Stretch ws (ts.drop r.2.2) ∧ S.Body k r.1 r.2.1 := by
  obtain ⟨lines, at_, more, rfl, hl, hfit, hknown, hmore⟩ := h
  obtain ⟨first, loc, tail, rest, text, k, rfl, hprinted, hrun, hdrop, htext, hfeed⟩ :=
    pipelessRun_lines hl at_ more
  rw [pipelessBody, hrun]
  refine S.parsing.pure ⟨?_, first, tail, rest, hknown, hfit, hprinted, htext, hfeed⟩
  show S.Stretch ws (List.drop k _)
  rwa [hdrop]

/-- The text below a dot begins with what its first line prints. -/
theorem Body.prints {loc : Location} {text : String} (h : S.Body .dot loc text) :
    ∃ t, S.knows t ∧ t.loc = loc ∧ S.Prints t text := by
  obtain ⟨first, tail, rest, hknown, hfit, hprinted, htext, hfeed⟩ := h
  refine ⟨_, hknown _ List.mem_cons_self, rfl, first, rest, rfl, htext, hprinted ▸ hfit, fun hr => ?_⟩
  obtain ⟨t, ht, hnewline⟩ := hfeed hr
  exact ⟨t, hknown t (List.mem_cons_of_mem _ ht), hnewline⟩

/-- In the column where a block of code begins, a token stands in each line that shows something. -/
theorem Body.place {loc : Location} {text : String} (h : S.Body .codeBlock loc text) {i : Nat}
    {line : List Char} (hi : (lines text.toList)[i]? = some line) (hb : allBlank line = false) :
    S.Place ⟨loc.line + i, loc.column⟩ := by
  obtain ⟨first, tail, rest, hknown, hfit, hprinted, htext, -⟩ := h
  have haligned (j : Nat) (l : List Char) (hl : (first.toList :: rest)[j]? = some l) :=
    hfit _ rfl j l (hprinted ▸ hl)
  have hfields : fields '\n' text.toList = first.toList :: rest := by
    rw [htext]
    refine fields_append_joined fun l hl => ?_
    obtain ⟨j, hj⟩ := List.getElem?_of_mem hl
    exact (haligned j l hj).1
  obtain ⟨f, hf, hpre⟩ := getElem?_lines hi
  rw [hfields] at hf
  have hshown : allBlank f = false := by
    obtain ⟨x, hx, hxb⟩ := List.all_eq_false.mp hb
    exact List.all_eq_false.mpr ⟨x, hpre.subset hx, hxb⟩
  obtain ⟨t, ht, hloc⟩ := List.mem_map.mp ((haligned i f hf).2 hshown)
  exact ⟨t, hknown t ht, hloc⟩

end Forecast

end PugTemplate
