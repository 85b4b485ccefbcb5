import PugTemplate.Proofs.Basic
import PugTemplate.Proofs.Lex.Stream

/-!
# The shape of every token stream

What the grammar of streams says of the stream as a whole: where it ends, how its indents and
outdents balance, and into which phrases it falls.
-/

namespace PugTemplate

namespace TokenKind

def isBlockStart : TokenKind → Bool
  | indent _ => true
  | _ => false

def isBlockEnd : TokenKind → Bool
  | outdent => true
  | _ => false

/-- A token that says where blocks and the stream end, and nothing else. -/
def isLayout (k : TokenKind) : Bool :=
  k.isBlockStart || k.isBlockEnd || k == eos

theorem not_isLayout_of_isWord {k : TokenKind} (h : k.isWord) : ¬ k.isLayout := by
  cases k <;> simp_all [isWord, isLayout, isBlockStart, isBlockEnd]

theorem not_isLayout_of_isAttribute {k : TokenKind} (h : k.isAttribute) : ¬ k.isLayout := by
  cases k <;> simp_all [isAttribute, isLayout, isBlockStart, isBlockEnd]

theorem not_isLayout_of_isReference {k : TokenKind} (h : k.isReference) : ¬ k.isLayout := by
  cases k <;> simp_all [isReference, isLayout, isBlockStart, isBlockEnd]

end TokenKind

/-- Tokens that only stand together. Marks of attributes, text blocks, references and paths stand in
no other phrases than these. -/
inductive Phrase : List Token → Prop where
  | single {t : Token} (ht : t.kind.isWord ∨ t.kind.isLayout) : Phrase [t]
  | attributes {as : List Token} (loc at_ : Location) (ha : ∀ a ∈ as, a.kind.isAttribute) :
      Phrase (⟨.attributesStart, loc⟩ :: (as ++ [⟨.attributesEnd, at_⟩]))
  | textBlock {lines : List Token} (loc at_ : Location) (hl : TextLines lines) :
      Phrase (⟨.pipelessStart, loc⟩ :: (lines ++ [⟨.pipelessEnd, at_⟩]))
  | reference {t : Token} (target : String) (loc : Location) (ht : t.kind.isReference) :
      Phrase [t, ⟨.path target, loc⟩]

theorem Phrase.exists_append {p ts : List Token} (hp : Phrase p)
    (h : ∃ phrases : List (List Token), ts = phrases.flatten ∧ ∀ q ∈ phrases, Phrase q) :
    ∃ phrases : List (List Token), p ++ ts = phrases.flatten ∧ ∀ q ∈ phrases, Phrase q := by
  obtain ⟨phrases, rfl, hphrases⟩ := h
  exact ⟨p :: phrases, rfl, List.forall_mem_cons.mpr ⟨hp, hphrases⟩⟩

/-- How many blocks begin. -/
def blockStarts (ts : List Token) : Nat :=
  ts.countP fun t => t.kind.isBlockStart

/-- How many blocks end. -/
def blockEnds (ts : List Token) : Nat :=
  ts.countP fun t => t.kind.isBlockEnd

/-- The widths of the blocks that are open behind some tokens, the innermost first. -/
def openAfter (ws : List Nat) : List Token → List Nat
  | [] => ws
  | ⟨.indent w, _⟩ :: ts => openAfter (w :: ws) ts
  | ⟨.outdent, _⟩ :: ts => openAfter ws.tail ts
  | _ :: ts => openAfter ws ts

theorem blockStarts_cons (t : Token) (ts : List Token) :
    blockStarts (t :: ts) = blockStarts ts + blockStarts [t] := by
  simp only [blockStarts, List.countP_cons, List.countP_nil, Nat.zero_add]

theorem blockEnds_cons (t : Token) (ts : List Token) :
    blockEnds (t :: ts) = blockEnds ts + blockEnds [t] := by
  simp only [blockEnds, List.countP_cons, List.countP_nil, Nat.zero_add]

/-- Where blocks and the stream end, given the widths that are open in front of it. -/
structure Closes (ws : List Nat) (ts : List Token) : Prop where
  eosLast : ∃ before loc, ts = before ++ [⟨.eos, loc⟩] ∧ ∀ t ∈ before, t.kind ≠ .eos
  endsOpen : ∀ p, p <+: ts → blockEnds p ≤ blockStarts p + ws.length
  endsAll : blockEnds ts = blockStarts ts + ws.length
  deeper : ∀ p w loc q, ts = p ++ ⟨.indent w, loc⟩ :: q → ∀ v ∈ 0 :: openAfter ws p, v < w

namespace Closes

variable {ws : List Nat} {ts : List Token}

theorem eos (loc : Location) : Closes [] [⟨.eos, loc⟩] where
  eosLast := ⟨[], loc, rfl, by simp⟩
  endsOpen p hp := by
    obtain rfl | ⟨p, rfl, hnil⟩ := List.prefix_cons_iff.mp hp
    · exact Nat.le_refl 0
    · rw [List.prefix_nil.mp hnil]
      exact Nat.le_refl 0
  endsAll := rfl
  deeper p w at_ q h := by
    have hmem : ⟨.indent w, at_⟩ ∈ [(⟨.eos, loc⟩ : Token)] := h ▸ List.mem_append_cons_self
    simp at hmem

/-- A token in front changes what is open as it says itself. -/
theorem cons {t : Token} {ws' : List Nat} (h : Closes ws' ts) (ht : t.kind ≠ .eos)
    (hopen : ∀ p, openAfter ws (t :: p) = openAfter ws' p)
    (hcount : blockEnds [t] + ws'.length = blockStarts [t] + ws.length)
    (hdeeper : ∀ w, t.kind = .indent w → ∀ v ∈ 0 :: ws, v < w) : Closes ws (t :: ts) where
  eosLast := by
    obtain ⟨before, loc, rfl, hbefore⟩ := h.eosLast
    exact ⟨t :: before, loc, rfl, List.forall_mem_cons.mpr ⟨ht, hbefore⟩⟩
  endsOpen p hp := by
    obtain rfl | ⟨p, rfl, hp'⟩ := List.prefix_cons_iff.mp hp
    · exact Nat.zero_le _
    · have hends := h.endsOpen p hp'
      rw [blockEnds_cons, blockStarts_cons]
      omega
  endsAll := by
    have hends := h.endsAll
    rw [blockEnds_cons, blockStarts_cons]
    omega
  deeper p w loc q heq := by
    cases p with
    | nil =>
      cases heq
      exact hdeeper w rfl
    | cons t' p =>
      obtain ⟨rfl, hts⟩ := List.cons_eq_cons.mp heq
      rw [hopen]
      exact h.deeper p w loc q hts

theorem cons_indent {w : Nat} (loc : Location) (hw : ∀ v ∈ 0 :: ws, v < w)
    (h : Closes (w :: ws) ts) : Closes ws (⟨.indent w, loc⟩ :: ts) := by
  refine h.cons (by simp) (fun _ => rfl) ?_ fun w' heq => ?_
  · exact Nat.add_comm 0 _ |>.trans (Nat.add_comm _ 1)
  · cases heq
    exact hw

theorem cons_outdent {w : Nat} (loc : Location) (h : Closes ws ts) :
    Closes (w :: ws) (⟨.outdent, loc⟩ :: ts) := by
  refine h.cons (by simp) (fun _ => rfl) ?_ fun _ heq => nomatch heq
  exact Nat.add_comm 1 _ |>.trans (Nat.zero_add _).symm

theorem cons_inert {t : Token} (ht : ¬ t.kind.isLayout) (h : Closes ws ts) :
    Closes ws (t :: ts) := by
  obtain ⟨kind, loc⟩ := t
  simp only [TokenKind.isLayout, Bool.or_eq_true, not_or, Bool.not_eq_true, beq_eq_false_iff_ne]
    at ht
  obtain ⟨⟨hstart, hend⟩, heos⟩ := ht
  refine h.cons heos (fun p => ?_) ?_ ?_
  · rw [openAfter]
    · rintro w at_ heq
      cases heq
      exact nomatch hstart
    · rintro at_ heq
      cases heq
      exact nomatch hend
  · simp only [blockStarts, blockEnds, List.countP_singleton, hstart, hend]
  · rintro w rfl
    exact nomatch hstart

theorem append_inert {first : List Token} (hf : ∀ t ∈ first, ¬ t.kind.isLayout)
    (h : Closes ws ts) : Closes ws (first ++ ts) := by
  induction first with
  | nil => exact h
  | cons t first ih =>
    obtain ⟨ht, hf⟩ := List.forall_mem_cons.mp hf
    exact (ih hf).cons_inert ht

theorem attributes {as : List Token} (h : Closes ws ts) (ha : ∀ a ∈ as, a.kind.isAttribute)
    (loc at_ : Location) :
    Closes ws (⟨.attributesStart, loc⟩ :: (as ++ ⟨.attributesEnd, at_⟩ :: ts)) := by
  refine .cons_inert Bool.false_ne_true (.append_inert (fun a hm => ?_) ?_)
  · exact TokenKind.not_isLayout_of_isAttribute (ha a hm)
  · exact h.cons_inert Bool.false_ne_true

end Closes

theorem TextLines.inert {lines : List Token} (h : TextLines lines) :
    ∀ t ∈ lines, ¬ t.kind.isLayout := by
  induction h with
  | last s loc => simp [TokenKind.isLayout, TokenKind.isBlockStart, TokenKind.isBlockEnd]
  | line s loc at_ h ih =>
    exact List.forall_mem_cons.mpr ⟨Bool.false_ne_true,
      List.forall_mem_cons.mpr ⟨Bool.false_ne_true, ih⟩⟩

theorem Closes.textBlock {ws : List Nat} {lines ts : List Token} (h : Closes ws ts)
    (hl : TextLines lines) (loc at_ : Location) :
    Closes ws (⟨.pipelessStart, loc⟩ :: (lines ++ ⟨.pipelessEnd, at_⟩ :: ts)) :=
  .cons_inert Bool.false_ne_true (.append_inert hl.inert (h.cons_inert Bool.false_ne_true))

namespace TokenStream

variable {ws : List Nat} {ts : List Token}

theorem closes (h : TokenStream ws ts) : Closes ws ts := by
  induction h with
  | eos loc => exact .eos loc
  | word ht h ih =>
    exact ih.cons_inert (TokenKind.not_isLayout_of_isWord (TokenKind.isWord_of_isSilent ht))
  | print hs _ _ _ h ih =>
    exact ih.cons_inert (TokenKind.not_isLayout_of_isWord (TokenKind.isWord_of_printed? hs))
  | @indent _ _ loc _ hw h ih => exact ih.cons_indent loc hw
  | @outdent _ _ loc _ h ih => exact ih.cons_outdent loc
  | attributes ha h ih => exact ih.attributes ha _ _
  | textBlock ht hl _ h ih =>
    have hword := TokenKind.isWord_of_isSilent (TokenKind.isSilent_of_opensBlock ht)
    exact .cons_inert (TokenKind.not_isLayout_of_isWord hword) (ih.textBlock hl _ _)
  | filterBlock ha hl h ih =>
    exact .cons_inert Bool.false_ne_true ((ih.textBlock hl _ _).attributes ha _ _)
  | reference ht h ih =>
    refine .cons_inert (TokenKind.not_isLayout_of_isReference ht) ?_
    exact ih.cons_inert Bool.false_ne_true

/-- A stream falls into phrases. -/
theorem exists_phrases (h : TokenStream ws ts) :
    ∃ phrases : List (List Token), ts = phrases.flatten ∧ ∀ p ∈ phrases, Phrase p := by
  induction h with
  | eos loc => exact ⟨[[⟨.eos, loc⟩]], rfl, by simpa using .single (.inr rfl)⟩
  | word ht h ih =>
    exact Phrase.exists_append (.single (.inl (TokenKind.isWord_of_isSilent ht))) ih
  | print hs _ _ _ h ih =>
    exact Phrase.exists_append (.single (.inl (TokenKind.isWord_of_printed? hs))) ih
  | indent hw h ih => exact Phrase.exists_append (.single (.inr rfl)) ih
  | outdent h ih => exact Phrase.exists_append (.single (.inr rfl)) ih
  | attributes ha h ih => simpa using (Phrase.attributes _ _ ha).exists_append ih
  | textBlock ht hl _ h ih =>
    have hword := TokenKind.isWord_of_isSilent (TokenKind.isSilent_of_opensBlock ht)
    simpa using (Phrase.single (.inl hword)).exists_append
      ((Phrase.textBlock _ _ hl).exists_append ih)
  | filterBlock ha hl h ih =>
    simpa using (Phrase.single (.inl rfl)).exists_append
      ((Phrase.attributes _ _ ha).exists_append ((Phrase.textBlock _ _ hl).exists_append ih))
  | reference ht h ih => exact (Phrase.reference _ _ ht).exists_append ih

end TokenStream

theorem stream_of_lex {source : String} {tokens : List Token} (h : lex source = .ok tokens) :
    TokenStream [] tokens :=
  Layout.stream_tokens Layout.nested_empty h

/-- Every stream ends at its only `eos`, its blocks lie in each other and close before that, each
deeper than all around it, and its other tokens stand in phrases. -/
theorem lex_shape {source : String} {tokens : List Token} (h : lex source = .ok tokens) :
    (∃ before loc, tokens = before ++ [⟨.eos, loc⟩] ∧ ∀ t ∈ before, t.kind ≠ .eos) ∧
    (∀ p, p <+: tokens → blockEnds p ≤ blockStarts p) ∧
    blockEnds tokens = blockStarts tokens ∧
    (∀ p w loc q, tokens = p ++ ⟨.indent w, loc⟩ :: q → ∀ v ∈ 0 :: openAfter [] p, v < w) ∧
    ∃ phrases : List (List Token), tokens = phrases.flatten ∧ ∀ p ∈ phrases, Phrase p := by
  have hstream := stream_of_lex h
  have hcloses := hstream.closes
  exact ⟨hcloses.eosLast, hcloses.endsOpen, hcloses.endsAll, hcloses.deeper,
    hstream.exists_phrases⟩

namespace ShapedSource

def source : String := "extends a\ndiv(b=1)\n  p.\n    x\n    y"

/-- A reference, an attribute list and a block of text, the last inside a block. -/
def tokens : List Token :=
  [⟨.inherits, ⟨1, 1⟩⟩, ⟨.path "a", ⟨1, 9⟩⟩, ⟨.newline, ⟨2, 1⟩⟩, ⟨.tag "div", ⟨2, 1⟩⟩,
    ⟨.attributesStart, ⟨2, 4⟩⟩, ⟨.attr "b" (some "1") true, ⟨2, 5⟩⟩, ⟨.attributesEnd, ⟨2, 9⟩⟩,
    ⟨.indent 2, ⟨3, 3⟩⟩, ⟨.tag "p", ⟨3, 3⟩⟩, ⟨.dot, ⟨3, 4⟩⟩, ⟨.pipelessStart, ⟨3, 5⟩⟩,
    ⟨.text "x", ⟨4, 5⟩⟩, ⟨.newline, ⟨5, 1⟩⟩, ⟨.text "y", ⟨5, 5⟩⟩, ⟨.pipelessEnd, ⟨5, 6⟩⟩,
    ⟨.outdent, ⟨5, 6⟩⟩, ⟨.eos, ⟨5, 6⟩⟩]

theorem lex_source : lex source = .ok tokens :=
  eq_ok_of_toOption (by decide +kernel)

end ShapedSource

theorem lex_shape_page :
    lex ShapedSource.source = .ok ShapedSource.tokens ∧
      blockEnds ShapedSource.tokens = blockStarts ShapedSource.tokens ∧
      (∀ v ∈ 0 :: openAfter [] (ShapedSource.tokens.take 7), v < 2) ∧
      ∃ phrases : List (List Token),
        ShapedSource.tokens = phrases.flatten ∧ ∀ p ∈ phrases, Phrase p := by
  have hshape := lex_shape ShapedSource.lex_source
  exact ⟨ShapedSource.lex_source, hshape.2.2.1, hshape.2.2.2.1 _ _ _ _ rfl, hshape.2.2.2.2⟩

end PugTemplate
