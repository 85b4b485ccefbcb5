import PugTemplate.Proofs.Lex.Insert
import PugTemplate.Proofs.Tree.Alike

/-!
# A line end between two parts

A comment that is left out leaves its line end behind, between the part of the stream in front of its
line and the part from there on. The tree stays the same unless the line end parts what is read as
one: lines of text, lines of markup, or a condition and its `else`.
-/

namespace PugTemplate

/-- The spot behind some tokens. -/
def Spot.behind (s : Spot) (ts : List Token) : Spot :=
  ts.foldl (fun s t => s.next t.kind) s

/-- The first part ends with a line of text or of markup that the second one goes on with. -/
def LinesGoOn (s : Spot) (ts us : List Token) : Prop :=
  ∃ before t n, ts = before ++ [t, n] ∧ n.kind = .newline ∧
    (t.kind.isText ∧ s.behind before ≠ .head ∧ us.head?.any (·.kind.isText) ∨
      t.kind.isHtml ∧ us.head?.any (·.kind.isHtml))

namespace Spot

variable {s : Spot} {ts us : List Token}

@[simp] theorem behind_nil (s : Spot) : s.behind [] = s := rfl

@[simp] theorem behind_cons (s : Spot) (t : Token) (ts : List Token) :
    s.behind (t :: ts) = (s.next t.kind).behind ts := rfl

theorem behind_append (s : Spot) (ts us : List Token) :
    s.behind (ts ++ us) = (s.behind ts).behind us :=
  List.foldl_append

/-- A block of text goes on behind tokens that do not end it. -/
theorem behind_block (h : ∀ t ∈ ts, t.kind ≠ .pipelessEnd) : behind .block ts = .block := by
  induction ts with
  | nil => rfl
  | cons t ts ih =>
    obtain ⟨ht, hts⟩ := List.forall_mem_cons.mp h
    rw [behind_cons, next, if_pos ⟨rfl, ht⟩, ih hts]

theorem ne_of_form {form : TokenKind → Bool} {k l : TokenKind} (hk : form k) (hl : form l = false) :
    k ≠ l := by
  rintro rfl
  exact absurd hk (by simp [hl])

theorem spot_ne_block {k : TokenKind} (h : k ≠ .pipelessStart) : k.spot ≠ .block := by
  unfold TokenKind.spot
  split
  · exact absurd rfl h
  · rintro ⟨⟩
  · rintro ⟨⟩
  · rintro ⟨⟩
  · split <;> rintro ⟨⟩

theorem next_ne_block (h : s ≠ .block) {k : TokenKind} (hk : k ≠ .pipelessStart) :
    s.next k ≠ .block := by
  rw [next_of_ne h]
  exact spot_ne_block hk

/-- A run of tokens outside text. -/
theorem behind_ne_block (h : s ≠ .block) (hts : ∀ t ∈ ts, t.kind ≠ .pipelessStart) :
    s.behind ts ≠ .block := by
  induction ts generalizing s with
  | nil => exact h
  | cons t ts ih =>
    obtain ⟨ht, hts⟩ := List.forall_mem_cons.mp hts
    exact ih (next_ne_block h ht) hts

theorem behind_textBlock {lines : List Token} (hl : TextLines lines) (s : Spot)
    (loc at_ : Location) (more : List Token) :
    s.behind (⟨.pipelessStart, loc⟩ :: (lines ++ ⟨.pipelessEnd, at_⟩ :: more)) =
      Spot.other.behind more := by
  have hstart : s.next .pipelessStart = .block := by
    unfold next
    split <;> rfl
  have hlines : ∀ t ∈ lines, t.kind ≠ .pipelessEnd := fun t ht => ne_of_form (hl.plain t ht) rfl
  rw [behind_cons, hstart, behind_append, behind_block hlines]
  rfl

theorem behind_attributes {as : List Token} (ha : ∀ a ∈ as, a.kind.isAttribute) (s : Spot)
    (loc at_ : Location) (more : List Token) (hs : s ≠ .block) :
    s.behind (⟨.attributesStart, loc⟩ :: (as ++ ⟨.attributesEnd, at_⟩ :: more)) =
      Spot.head.behind more := by
  have has : (s.next .attributesStart).behind as ≠ .block :=
    behind_ne_block (next_ne_block hs (by rintro ⟨⟩)) fun a hm => ne_of_form (ha a hm) rfl
  rw [behind_cons, behind_append, behind_cons, next_of_ne has]
  rfl

/-- No block of text is open behind a whole stream. -/
theorem behind_of_stream {ws : List Nat} (h : TokenStream ws ts) (hs : s ≠ .block) :
    s.behind ts ≠ .block := by
  induction h generalizing s with
  | eos loc => exact next_ne_block hs (by rintro ⟨⟩)
  | word ht h ih => exact ih (next_ne_block hs (ne_of_form ht rfl))
  | print hp _ _ _ h ih =>
    refine ih (next_ne_block hs fun hk => ?_)
    rw [hk] at hp
    cases hp
  | indent hw h ih => exact ih (next_ne_block hs (by rintro ⟨⟩))
  | outdent h ih => exact ih (next_ne_block hs (by rintro ⟨⟩))
  | attributes ha h ih =>
    rw [behind_attributes ha s _ _ _ hs]
    exact ih (by rintro ⟨⟩)
  | textBlock ht hl hf h ih =>
    rw [behind_cons, behind_textBlock hl]
    exact ih (by rintro ⟨⟩)
  | @filterBlock _ name _ _ _ _ _ _ _ _ ha hl h ih =>
    have hname : s.next (.filter name) ≠ .block := next_ne_block hs (by rintro ⟨⟩)
    rw [behind_cons, behind_attributes ha _ _ _ _ hname, behind_textBlock hl]
    exact ih (by rintro ⟨⟩)
  | @reference _ t _ _ _ ht h ih =>
    exact ih (next_ne_block (next_ne_block hs (ne_of_form ht rfl)) (by rintro ⟨⟩))

end Spot

/-! ## Adding the line end -/

theorem GoesOn.parted {form : TokenKind → Bool} {ts us rest rest' : List Token} {n : Token}
    (h : GoesOn form (ts ++ rest)) (hts : SameKinds ts us) (hne : ts ≠ [])
    (hends : ∀ x, ts = [x] → x.kind = .newline → ¬ rest.head?.any (form ·.kind)) :
    GoesOn form (us ++ n :: rest') := by
  match ts with
  | [] => exact absurd rfl hne
  | [x] =>
    obtain ⟨y, rest, rfl⟩ : ∃ y more, rest = y :: more := by
      cases rest with
      | nil => exact h.elim
      | cons y more => exact ⟨y, more, rfl⟩
    exact absurd h.2 (hends x rfl h.1)
  | x :: y :: ts =>
    obtain ⟨x', us, rfl, hx, hts⟩ := hts.uncons
    obtain ⟨y', us, rfl, hy, hts⟩ := hts.uncons
    exact ⟨hx.trans h.1, hy ▸ h.2⟩

/-- A line does not end with what it shows. -/
theorem ne_nil_of_behind {s : Spot} {k : TokenKind} {ts : List Token} (hk : k.spot = .other)
    (h : (s.next k).behind ts = .line ∨ (s.next k).behind ts = .closed) : ts ≠ [] := by
  rintro rfl
  rw [Spot.behind_nil] at h
  unfold Spot.next at h
  split at h
  · simp at h
  · simp [hk] at h

/-- The first stream with a line end added between its two parts. -/
theorem padded_of_parts {s : Spot} {ts us rest rest' : List Token} {n : Token}
    (hts : SameKinds ts us) (hrest : SameKinds rest rest') (hn : n.kind = .newline)
    (hs : s.behind ts = .line ∨ s.behind ts = .closed) (hpart : MayPart (s.behind ts) rest)
    (hlines : ¬ LinesGoOn s ts rest) : Padded s (ts ++ rest) (us ++ n :: rest') := by
  induction ts generalizing s us with
  | nil =>
    obtain rfl := hts.eq_nil
    exact .pad hs hn hpart (hrest.padded .line)
  | cons t ts ih =>
    obtain ⟨u, us, rfl, hk, hts⟩ := hts.uncons
    have hmore : ¬ LinesGoOn (s.next t.kind) ts rest := by
      rintro ⟨before, x, y, rfl, hy⟩
      exact hlines ⟨t :: before, x, y, rfl, hy⟩
    refine .cons hk ⟨fun htext hhead h => ?_, fun hhtml h => ?_⟩ (ih hts hs hpart hmore)
    · refine h.parted hts (ne_nil_of_behind ?_ hs) ?_
      · obtain ⟨kind, loc⟩ := t
        cases kind <;> first | rfl | exact nomatch htext
      · rintro x rfl hx htext'
        exact hlines ⟨[], t, x, rfl, hx, .inl ⟨htext, hhead, htext'⟩⟩
    · refine h.parted hts (ne_nil_of_behind ?_ hs) ?_
      · obtain ⟨kind, loc⟩ := t
        cases kind <;> first | rfl | exact nomatch hhtml
      · rintro x rfl hx hhtml'
        exact hlines ⟨[], t, x, rfl, hx, .inr ⟨hhtml, hhtml'⟩⟩

namespace Layout

variable {text before indent shown : List Char} {ts : List Token} {m : Layout}

/-- In front of a line, all tokens so far are passed, and a line end may follow. -/
theorem BeginsLine.passes (h : BeginsLine text before indent shown ts m) (p : CommentPolicy) :
    ∃ kept, p.Passes {} ts kept {} ∧
      (Spot.line.behind kept = .line ∨ Spot.line.behind kept = .closed) := by
  cases h with
  | first => exact ⟨[], .nil, .inl rfl⟩
  | below hrun hgap hs hc hnew htext =>
    obtain ⟨-, -, loc, hsettle⟩ := newline_shown hgap hs hc hnew
    obtain ⟨kept, dropping, hpasses, hstream⟩ := hrun.passes nested_empty p
    have hne : Spot.line.behind kept ≠ .block := by
      intro hblock
      refine Spot.behind_of_stream (s := .line) hstream nofun ?_
      rw [Spot.behind_append, hblock]
      exact Spot.behind_block fun t ht hk => nomatch hk ▸ isPlain_finish _ _ t ht
    refine ⟨_, hpasses.append (CommentPolicy.passes_plain (settle_ne_nil hsettle)
      (isPlain_settle hsettle)), ?_⟩
    rw [Spot.behind_append]
    obtain ⟨-, rfl, -⟩ | ⟨-, rfl, -⟩ | ⟨-, -, -, closed, rfl, -⟩ := settle_cases hsettle
    · exact .inl (Spot.next_of_ne hne _)
    · exact .inl (Spot.next_of_ne hne _)
    · have hclosed : closed ≠ [] := fun hnil => settle_ne_nil hsettle (by rw [hnil]; rfl)
      obtain ⟨first, w, rfl⟩ := (List.eq_nil_or_concat closed).resolve_left hclosed
      have hplain : ∀ t ∈ outdents first loc, t.kind ≠ .pipelessStart := by
        intro t ht hk
        obtain ⟨_, -, rfl⟩ := List.mem_map.mp ht
        cases hk
      have hfirst := Spot.behind_ne_block hne hplain
      right
      rw [outdents, List.concat_eq_append, List.map_append, ← outdents, Spot.behind_append]
      exact Spot.next_of_ne hfirst _

end Layout

/-- Two parts of a stream of which a line end may stand between what is kept. -/
def CommentPolicy.Parts (p : CommentPolicy) (ts more : List Token) : Prop :=
  ∀ kept rest, p.strip ts = .ok kept → p.strip more = .ok rest →
    MayPart (Spot.line.behind kept) rest ∧ ¬ LinesGoOn .line kept rest

/-- A comment that is left out adds a line end to what is kept. -/
theorem CommentPolicy.padded_strip {p : CommentPolicy} (hp : p.dropUnbuffered)
    {ts us more more' kept : List Token} {note : String} {at_ loc : Location}
    (hparts : p.Parts ts more) (hfirst : ∃ first, p.Passes {} ts first {} ∧
      (Spot.line.behind first = .line ∨ Spot.line.behind first = .closed))
    (hts : SameKinds ts us) (hmore : SameKinds more more') (h : p.strip (ts ++ more) = .ok kept) :
    ∃ kept', p.strip (us ++ ⟨.comment note false, at_⟩ :: ⟨.newline, loc⟩ :: more') = .ok kept' ∧
      Padded .line kept kept' := by
  obtain ⟨first, hpasses, hspot⟩ := hfirst
  obtain ⟨_, _, rest, hpasses', hrest, rfl⟩ := (keeps_of_keep h).split
  obtain ⟨rfl, rfl⟩ := hpasses.unique hpasses'
  obtain ⟨hpart, hlines⟩ := hparts _ rest hpasses.strip_eq (hrest .nowhere)
  obtain ⟨first', hfirst', hkinds⟩ := hpasses.alike hts
  obtain ⟨rest', hrest', hkinds'⟩ := hrest.alike hmore
  have hcomment : p.step {} ⟨.comment note false, at_⟩ = .ok (false, ⟨true, false⟩) :=
    if_pos hp
  have hline : p.Keeps {} (⟨.comment note false, at_⟩ :: ⟨.newline, loc⟩ :: more')
      (⟨.newline, loc⟩ :: rest') := (hrest'.cons_plain rfl).cons hcomment
  exact ⟨_, hfirst'.keeps hline .nowhere,
    padded_of_parts hkinds hkinds' rfl hspot hpart hlines⟩

end PugTemplate
