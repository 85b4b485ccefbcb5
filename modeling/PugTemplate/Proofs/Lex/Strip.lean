import PugTemplate.Lex.Comments
import PugTemplate.Proofs.Lex.Stream

/-!
# Leaving comments out of a stream

What is left of a stream without its comments is a stream again: a comment goes with the block of
text below it, and what ends a line always stays.
-/

namespace PugTemplate

namespace TokenKind

/-- A token that the passage over a stream need not look at. -/
def isPlain : TokenKind → Bool
  | comment _ _ | pipelessStart | pipelessEnd => false
  | _ => true

theorem isPlain_of_isAttribute {k : TokenKind} (h : k.isAttribute) : k.isPlain := by
  cases k <;> first | rfl | exact h

theorem isPlain_of_isReference {k : TokenKind} (h : k.isReference) : k.isPlain := by
  cases k <;> first | rfl | exact h

end TokenKind

theorem TextLines.plain {lines : List Token} (h : TextLines lines) :
    ∀ t ∈ lines, t.kind.isPlain := by
  induction h with
  | last s loc => exact List.forall_mem_singleton.mpr rfl
  | line s loc at_ h ih =>
    exact List.forall_mem_cons.mpr ⟨rfl, List.forall_mem_cons.mpr ⟨rfl, ih⟩⟩

namespace CommentPolicy

variable {p : CommentPolicy}

theorem step_plain {s : Passage} {t : Token} (hs : s.inBlock = false) (ht : t.kind.isPlain) :
    p.step s t = .ok (true, {}) := by
  unfold step
  split
  next h => simp [h, TokenKind.isPlain] at ht
  next h => simp [h, TokenKind.isPlain] at ht
  next h => simp [h, TokenKind.isPlain] at ht
  next => simp [hs]

theorem step_plain_inBlock {dropping : Bool} {t : Token} (ht : t.kind.isPlain) :
    p.step ⟨dropping, true⟩ t = .ok (!dropping, ⟨dropping, true⟩) := by
  unfold step
  split
  next h => simp [h, TokenKind.isPlain] at ht
  next h => simp [h, TokenKind.isPlain] at ht
  next h => simp [h, TokenKind.isPlain] at ht
  next => rfl

/-- A comment outside text blocks. -/
theorem step_comment (p : CommentPolicy) (dropping : Bool) {t : Token} (ht : t.kind.isWord)
    (hp : ¬ t.kind.isPlain) :
    p.step ⟨dropping, false⟩ t = .ok (false, ⟨true, false⟩) ∨
      p.step ⟨dropping, false⟩ t = .ok (true, ⟨dropping, false⟩) := by
  obtain ⟨kind, loc⟩ := t
  cases kind with
  | comment text buffered =>
    unfold step
    dsimp only
    split
    · exact .inl rfl
    · exact .inr rfl
  | _ => simp_all [TokenKind.isPlain, TokenKind.isWord]

/-- What is kept of some tokens, wherever the last token in front of them stands. -/
def Keeps (p : CommentPolicy) (s : Passage) (ts kept : List Token) : Prop :=
  ∀ last, p.keep s last ts = .ok kept

theorem Keeps.cons {s s' : Passage} {t : Token} {b : Bool} {ts kept : List Token}
    (ht : p.step s t = .ok (b, s')) (h : p.Keeps s' ts kept) :
    p.Keeps s (t :: ts) (if b then t :: kept else kept) := by
  intro last
  simp only [keep, ht, h t.loc]

theorem Keeps.cons_plain {dropping : Bool} {t : Token} {ts kept : List Token}
    (ht : t.kind.isPlain) (h : p.Keeps {} ts kept) :
    p.Keeps ⟨dropping, false⟩ (t :: ts) (t :: kept) :=
  h.cons (step_plain rfl ht)

theorem Keeps.append {s : Passage} {b : Bool} {first ts kept : List Token}
    (hf : ∀ t ∈ first, p.step s t = .ok (b, s)) (h : p.Keeps s ts kept) :
    p.Keeps s (first ++ ts) (if b then first ++ kept else kept) := by
  induction first with
  | nil => cases b <;> exact h
  | cons t first ih =>
    obtain ⟨ht, hf⟩ := List.forall_mem_cons.mp hf
    have hmore := (ih hf).cons ht
    cases b <;> exact hmore

/-- A block of text, behind a comment that was left out or not. -/
theorem Keeps.textBlock {lines ts kept : List Token} (dropping : Bool) (loc at_ : Location)
    (hl : TextLines lines) (h : p.Keeps {} ts kept) :
    p.Keeps ⟨dropping, false⟩ (⟨.pipelessStart, loc⟩ :: (lines ++ ⟨.pipelessEnd, at_⟩ :: ts))
      (if dropping then kept
        else ⟨.pipelessStart, loc⟩ :: (lines ++ ⟨.pipelessEnd, at_⟩ :: kept)) := by
  have hend : p.Keeps ⟨dropping, true⟩ (⟨.pipelessEnd, at_⟩ :: ts) _ := h.cons rfl
  have hlines := hend.append fun t ht => step_plain_inBlock (hl.plain t ht)
  have hblock : p.Keeps ⟨dropping, false⟩ (⟨.pipelessStart, loc⟩ :: _) _ := hlines.cons rfl
  cases dropping <;> exact hblock

theorem Keeps.attributes {dropping : Bool} {as ts kept : List Token} {loc at_ : Location}
    (ha : ∀ a ∈ as, a.kind.isAttribute) (h : p.Keeps {} ts kept) :
    p.Keeps ⟨dropping, false⟩ (⟨.attributesStart, loc⟩ :: (as ++ ⟨.attributesEnd, at_⟩ :: ts))
      (⟨.attributesStart, loc⟩ :: (as ++ ⟨.attributesEnd, at_⟩ :: kept)) := by
  have hend : p.Keeps {} (⟨.attributesEnd, at_⟩ :: ts) _ := h.cons_plain rfl
  have hlist := hend.append fun a hm => step_plain rfl (TokenKind.isPlain_of_isAttribute (ha a hm))
  exact hlist.cons_plain rfl

/-- What is kept of a stream: a stream that ends a line where the other does. -/
def KeepsStream (p : CommentPolicy) (dropping : Bool) (ws : List Nat) (ts : List Token) : Prop :=
  ∃ kept, p.Keeps ⟨dropping, false⟩ ts kept ∧ TokenStream ws kept ∧ (EndsLine ts → EndsLine kept)

/-- A token that the passage need not look at is kept, and what follows it is as behind any other. -/
theorem KeepsStream.cons_plain {dropping : Bool} {ws ws' : List Nat} {t : Token} {ts : List Token}
    (h : p.KeepsStream false ws' ts) (ht : t.kind.isPlain)
    (hs : ∀ kept, (EndsLine ts → EndsLine kept) → TokenStream ws' kept → TokenStream ws (t :: kept)) :
    p.KeepsStream dropping ws (t :: ts) := by
  obtain ⟨kept, hk, hstream, hends⟩ := h
  exact ⟨_, hk.cons_plain ht, hs kept hends hstream, fun h => h⟩

theorem isPlain_of_endsLine {k : TokenKind} (h : k.endsLine) : k.isPlain := by
  cases k <;> first | rfl | exact nomatch h

theorem isPlain_of_printed? {k : TokenKind} {s : String} (h : k.printed? = some s) :
    k.isPlain := by
  cases k <;> first | rfl | exact nomatch h

/-- Of a stream, a stream is kept. -/
theorem keepsStream (p : CommentPolicy) {ws : List Nat} {ts : List Token} (h : TokenStream ws ts)
    (dropping : Bool) : p.KeepsStream dropping ws ts := by
  induction h generalizing dropping with
  | eos loc => exact ⟨_, Keeps.cons_plain rfl fun _ => rfl, .eos loc, fun h => h⟩
  | @word ws t ts ht h ih =>
    by_cases hp : t.kind.isPlain
    · exact (ih false).cons_plain hp fun _ _ h => .word ht h
    have hends : ¬ EndsLine (t :: ts) := fun h => hp (isPlain_of_endsLine h)
    obtain hstep | hstep := step_comment p dropping (TokenKind.isWord_of_isSilent ht) hp
    · obtain ⟨kept, hk, hs, -⟩ := ih true
      exact ⟨_, hk.cons hstep, hs, fun h => absurd h hends⟩
    · obtain ⟨kept, hk, hs, -⟩ := ih dropping
      exact ⟨_, hk.cons hstep, .word ht hs, fun h => absurd h hends⟩
  | print hs hp hne he h ih =>
    exact (ih false).cons_plain (isPlain_of_printed? hs) fun _ hends h => .print hs hp hne (hends he) h
  | indent hw h ih => exact (ih false).cons_plain rfl fun _ _ h => .indent hw h
  | outdent h ih => exact (ih false).cons_plain rfl fun _ _ h => .outdent h
  | attributes ha h ih =>
    obtain ⟨kept, hk, hs, -⟩ := ih false
    exact ⟨_, hk.attributes ha, .attributes ha hs, fun h => nomatch h⟩
  | @textBlock ws t lines ts loc at_ ht hl hf h ih =>
    obtain ⟨kept, hk, hs, -⟩ := ih false
    have hsilent := TokenKind.isSilent_of_opensBlock ht
    have hblock (dropping : Bool) := hk.textBlock dropping loc at_ hl
    by_cases hp : t.kind.isPlain
    · exact ⟨_, (hblock false).cons_plain hp, .textBlock ht hl hf hs, fun h => h⟩
    have hends : ¬ EndsLine (t :: ⟨.pipelessStart, loc⟩ :: (lines ++ ⟨.pipelessEnd, at_⟩ :: ts)) :=
      fun h => hp (isPlain_of_endsLine h)
    obtain hstep | hstep := step_comment p dropping (TokenKind.isWord_of_isSilent hsilent) hp
    · exact ⟨_, (hblock true).cons hstep, hs, fun h => absurd h hends⟩
    · refine ⟨_, (hblock dropping).cons hstep, ?_, fun h => absurd h hends⟩
      cases dropping
      · exact .textBlock ht hl hf hs
      · exact .word hsilent hs
  | filterBlock ha hl h ih =>
    obtain ⟨kept, hk, hs, -⟩ := ih false
    exact ⟨_, ((hk.textBlock false _ _ hl).attributes ha).cons_plain rfl, .filterBlock ha hl hs,
      fun h => nomatch h⟩
  | @reference ws t target loc ts ht h ih =>
    obtain ⟨kept, hk, hs, -⟩ := ih false
    have hpath : p.Keeps {} (⟨.path target, loc⟩ :: ts) _ := hk.cons_plain rfl
    exact ⟨_, hpath.cons_plain (TokenKind.isPlain_of_isReference ht), .reference ht hs, fun h => h⟩

theorem exists_strip {ts : List Token} (h : TokenStream [] ts) :
    ∃ kept, p.strip ts = .ok kept ∧ TokenStream [] kept := by
  obtain ⟨kept, hk, hs, -⟩ := keepsStream p h false
  exact ⟨kept, hk .nowhere, hs⟩

theorem keep_sublist {s : Passage} {last : Location} {ts kept : List Token}
    (h : p.keep s last ts = .ok kept) : kept.Sublist ts := by
  induction ts generalizing s last kept with
  | nil =>
    unfold keep at h
    split at h
    · exact nomatch h
    · cases h
      exact .slnil
  | cons t ts ih =>
    unfold keep at h
    split at h
    · exact nomatch h
    · split at h
      · exact nomatch h
      next hmore =>
        cases h
        split
        · exact (ih hmore).cons_cons t
        · exact (ih hmore).cons t

/-- Nothing is added to what is kept. -/
theorem strip_sublist {ts kept : List Token} (h : p.strip ts = .ok kept) : kept.Sublist ts :=
  keep_sublist h

end CommentPolicy

end PugTemplate
