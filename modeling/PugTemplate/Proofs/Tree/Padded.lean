import PugTemplate.Proofs.Lex.Beside
import PugTemplate.Proofs.Tree.Forecast
import PugTemplate.Proofs.Tree.Unplaced
import PugTemplate.Tree.Read

/-!
# Streams with line ends added

A line of its own that leaves nothing but its line end behind makes a stream longer by one token. Of
two such streams the readers make the same of every part, as long as the line end does not part what
they would read as one: lines of text, lines of markup, or a condition and its `else`.
-/

namespace PugTemplate

/-! ## Parts of a node -/

section Parts

variable (loc loc' : Location)

theorem answers_atLocation {α : Type} (source : String) (x : Except ExprError α) :
    Answers Eq (atLocation source loc x) (atLocation source loc' x) := by
  cases x with
  | ok a => exact .pure rfl
  | error e => exact .error

theorem answers_check {α : Type} (c : Prop) [Decidable c] (a : α) (e e' : ParseError) :
    Answers Eq (if c then pure a else .error e) (if c then pure a else .error e') := by
  split
  · exact .pure rfl
  · exact .error

theorem answers_blockStatements (lines : List (List Char)) :
    Answers Eq (blockStatements loc lines) (blockStatements loc' lines) := by
  induction lines generalizing loc loc' with
  | nil => exact .pure rfl
  | cons line rest ih =>
    have hmore (here : List Statement) :
        Answers Eq
          (blockStatements ⟨loc.line + 1, loc.column⟩ rest >>= fun more => pure (here ++ more))
          (blockStatements ⟨loc'.line + 1, loc'.column⟩ rest >>= fun more => pure (here ++ more)) :=
      .bind_eq (ih _ _) fun _ => .pure rfl
    unfold blockStatements
    dsimp only
    split
    · exact hmore []
    · exact .bind_eq (answers_atLocation _ _ _ _) hmore

theorem answers_paramAt (last : Bool) (part : List Char) :
    Answers Eq (paramAt loc last part) (paramAt loc' last part) := by
  unfold paramAt
  dsimp only
  split
  · split
    · exact .error
    · exact answers_check _ _ _ _
  · split
    · exact answers_check _ _ _ _
    · exact .bind_eq ((answers_atLocation loc loc' _ _).map fun _ _ h => congrArg some h)
        fun _ => answers_check _ _ _ _

theorem answers_paramsAt (source : String) :
    Answers Eq (paramsAt source loc) (paramsAt source loc') := by
  have hparts : ∀ parts, Answers Eq (paramParts loc parts) (paramParts loc' parts) := by
    intro parts
    induction parts with
    | nil => exact .pure rfl
    | cons part parts ih =>
      exact .bind_eq (answers_paramAt loc loc' _ _) fun _ => .bind_eq ih fun _ => .pure rfl
  unfold paramsAt
  split
  · exact .pure rfl
  · exact hparts _

theorem answers_ofToken (name : String) (source : Option String) (escape : Bool) :
    Answers Eq (Attribute.ofToken name source escape loc)
      (Attribute.ofToken name source escape loc') := by
  unfold Attribute.ofToken
  split
  · exact .pure rfl
  · exact .bind_eq (answers_atLocation _ _ _ _) fun _ => .pure rfl

theorem answers_callName (name : String) (computed : Bool) :
    Answers Eq (callName name computed loc) (callName name computed loc') := by
  unfold callName
  split
  · exact (answers_atLocation _ _ _ _).map fun _ _ h => congrArg _ h
  · exact .pure rfl

theorem answers_callArguments (args : Option String) :
    Answers Eq (callArguments args loc) (callArguments args loc') := by
  unfold callArguments
  split
  · exact answers_atLocation _ _ _ _
  · exact .pure rfl

theorem answers_ofCode (source : String) (buffered escape : Bool) :
    Answers (fun n m : Node => m.unplaced = n.unplaced) (Node.ofCode source buffered escape loc)
      (Node.ofCode source buffered escape loc') := by
  unfold Node.ofCode
  split
  · exact .bind_eq (answers_atLocation _ _ _ _) fun _ => .pure rfl
  · exact .bind_eq (answers_atLocation _ _ _ _) fun _ => .pure rfl

end Parts

/-! ## Streams -/

/-- What may follow at a place in a stream, by the tokens in front of it. -/
inductive Spot where
  /-- Behind a name or what belongs to it: text here is text of that line. -/
  | head
  /-- In front of a line, behind a line end or the start of a block. -/
  | line
  /-- In front of a line, behind the end of a block. -/
  | closed
  /-- Inside a block of text. -/
  | block
  | other
deriving DecidableEq

namespace TokenKind

/-- A token of a head. -/
def isHead : TokenKind → Bool
  | tag _ | id _ | className _ | attributesEnd | spread _ | interpolation _ | call _ _ _
  | filter _ => true
  | _ => false

/-- A token that goes on with a head behind its name. -/
def isHeadPart : TokenKind → Bool
  | id _ | className _ | attributesStart | spread _ => true
  | _ => false

def isText : TokenKind → Bool
  | text _ => true
  | _ => false

def isHtml : TokenKind → Bool
  | html _ => true
  | _ => false

/-- A token that goes on with a condition. -/
def isElse : TokenKind → Bool
  | otherwise _ | elseIf _ => true
  | _ => false

def isIndent : TokenKind → Bool
  | indent _ => true
  | _ => false

def isTextStart : TokenKind → Bool
  | pipelessStart => true
  | _ => false

/-- A token that begins what stands below a line; no line end is in front of it. -/
def goesBelow (k : TokenKind) : Bool :=
  k.isIndent || k.isTextStart

end TokenKind

/-- The spot behind a token that stands outside text. -/
def TokenKind.spot : TokenKind → Spot
  | pipelessStart => .block
  | newline | indent _ => .line
  | outdent => .closed
  | k => if k.isHead then .head else .other

/-- The spot behind a token. -/
def Spot.next (s : Spot) (k : TokenKind) : Spot :=
  if s = .block ∧ k ≠ .pipelessEnd then .block else k.spot

theorem Spot.next_of_ne {s : Spot} (h : s ≠ .block) (k : TokenKind) : s.next k = k.spot :=
  if_neg fun hand => h hand.1

/-- Inside a line. -/
def Spot.InLine (s : Spot) : Prop :=
  s = .head ∨ s = .other

theorem Spot.InLine.ne {s r : Spot} (h : s.InLine) (hh : r ≠ .head) (ho : r ≠ .other) : s ≠ r := by
  rintro rfl
  exact h.elim hh ho

theorem Spot.InLine.ne_block {s : Spot} (h : s.InLine) : s ≠ .block :=
  h.ne nofun nofun

/-- Behind a line end, a token of some form. -/
def GoesOn (form : TokenKind → Bool) : List Token → Prop
  | t :: u :: _ => t.kind = .newline ∧ form u.kind
  | _ => False

theorem GoesOn.exists_cons {form : TokenKind → Bool} {ts : List Token}
    (h : GoesOn form ts) :
    ∃ n t more, ts = n :: t :: more ∧ n.kind = .newline ∧ form t.kind := by
  match ts, h with
  | n :: t :: more, ⟨hn, ht⟩ => exact ⟨n, t, more, rfl, hn, ht⟩

/-- Where a line end may be added: not where the one that is there leads to an `else`, nor in front of
an `else` unless a block ends there. -/
def MayPart (s : Spot) (ts : List Token) : Prop :=
  (∀ t ∈ ts.head?, t.kind.goesBelow = false ∧ (t.kind.isElse → s = .closed)) ∧
    ¬ GoesOn TokenKind.isElse ts

/-- Line ends that lead from text to text, or from markup to markup, do so in both streams. -/
structure Firm (s : Spot) (k : TokenKind) (ts us : List Token) : Prop where
  text : k.isText → s ≠ .head → GoesOn TokenKind.isText ts → GoesOn TokenKind.isText us
  html : k.isHtml → GoesOn TokenKind.isHtml ts → GoesOn TokenKind.isHtml us

/-- The second stream is the first one with line ends added, up to positions. -/
inductive Padded : Spot → List Token → List Token → Prop where
  | nil {s : Spot} : Padded s [] []
  | cons {s : Spot} {t u : Token} {ts us : List Token} (hk : u.kind = t.kind)
      (hf : Firm s t.kind ts us) (h : Padded (s.next t.kind) ts us) : Padded s (t :: ts) (u :: us)
  | pad {s : Spot} {u : Token} {ts us : List Token} (hs : s = .line ∨ s = .closed)
      (hu : u.kind = .newline) (hp : MayPart s ts) (h : Padded .line ts us) : Padded s ts (u :: us)

/-- Two rests of streams behind what was read; no text belongs to a head that was. -/
def Behind (ts us : List Token) : Prop :=
  ∃ s, Padded s ts us ∧ s ≠ .block ∧ (s = .head → ∀ t ∈ ts.head?, t.kind.isText = false)

namespace Padded

variable {s : Spot} {t : Token} {ts us : List Token}

/-- Inside a line no line end is added. -/
theorem uncons (h : Padded s (t :: ts) us) (hs : s.InLine) :
    ∃ u vs, us = u :: vs ∧ u.kind = t.kind ∧ Firm s t.kind ts vs ∧ Padded t.kind.spot ts vs := by
  cases h with
  | cons hk hf h => exact ⟨_, _, rfl, hk, hf, Spot.next_of_ne hs.ne_block _ ▸ h⟩
  | pad hpad => exact absurd hpad (by simp [hs.ne])

/-- Inside a block of text no line end is added. -/
theorem uncons_block (h : Padded .block (t :: ts) us) :
    ∃ u vs, us = u :: vs ∧ u.kind = t.kind ∧ Padded (Spot.next .block t.kind) ts vs := by
  cases h with
  | cons hk _ h => exact ⟨_, _, rfl, hk, h⟩
  | pad hpad => simp at hpad

theorem eq_nil (h : Padded s [] us) (hs : s.InLine) : us = [] := by
  cases h with
  | nil => rfl
  | pad hpad => exact absurd hpad (by simp [hs.ne])

/-- What the first token is not, that of the other stream is not. -/
theorem head_eq_false {form : TokenKind → Bool} (h : Padded s ts us) (hs : s.InLine)
    (hts : ∀ t ∈ ts.head?, form t.kind = false) : ∀ u ∈ us.head?, form u.kind = false := by
  cases h with
  | nil => exact hts
  | cons hk => exact fun u hu => Option.some.inj hu ▸ hk ▸ hts _ rfl
  | pad hpad => exact absurd hpad (by simp [hs.ne])

theorem any_head? (h : Padded s ts us) (hs : s.InLine) (form : TokenKind → Bool) :
    (us.head?.any fun u => form u.kind) = ts.head?.any fun t => form t.kind := by
  cases h with
  | nil => rfl
  | cons hk => exact congrArg form hk
  | pad hpad => exact absurd hpad (by simp [hs.ne])

/-- A token other than a line end was not added. -/
theorem of_ne {u : Token} (h : Padded s ts (u :: us)) (hu : u.kind ≠ .newline) :
    ∃ t more, ts = t :: more ∧ u.kind = t.kind ∧ Firm s t.kind more us ∧
      Padded (s.next t.kind) more us := by
  cases h with
  | cons hk hf h => exact ⟨_, _, rfl, hk, hf, h⟩
  | pad _ hpad => exact absurd hpad hu

section GoesOn

variable {form : TokenKind → Bool}

/-- Where both streams go on behind a line end, they do so with the same token. -/
theorem goesOn (h : Padded s ts us) (hs : s.InLine) (hts : GoesOn form ts) (hus : GoesOn form us) (hform : form .newline = false) :
    ∃ m t ts' n u us', ts = m :: t :: ts' ∧ us = n :: u :: us' ∧ n.kind = .newline ∧
      u.kind = t.kind ∧ Firm .line t.kind ts' us' ∧ Padded t.kind.spot ts' us' := by
  match ts, hts with
  | m :: t :: ts', hts =>
    obtain ⟨n, vs, rfl, hk, -, hvs⟩ := h.uncons hs
    rw [hts.1] at hvs
    match vs, hus with
    | u :: us', hus =>
      have hu : u.kind ≠ .newline := fun hu => nomatch (hu ▸ hform).symm.trans hus.2
      obtain ⟨_, _, heq, hk', hf, hrest⟩ := hvs.of_ne hu
      cases heq
      exact ⟨m, t, ts', n, u, us', rfl, rfl, hk.trans hts.1, hk', hf, hrest⟩

/-- Nothing that is added goes on with another token. -/
theorem goesOn_left (h : Padded s ts us) (hs : s.InLine) (hus : GoesOn form us)
    (hform : form .newline = false) : GoesOn form ts := by
  match us, hus with
  | n :: u :: us', hus =>
    have hu : u.kind ≠ .newline := fun hu => nomatch (hu ▸ hform).symm.trans hus.2
    cases h with
    | cons hk hf h =>
      rw [Spot.next_of_ne hs.ne_block, ← hk, hus.1] at h
      obtain ⟨t, more, rfl, hk', -, -⟩ := h.of_ne hu
      exact ⟨hk ▸ hus.1, hk' ▸ hus.2⟩
    | pad hpad => exact absurd hpad (by simp [hs.ne])

end GoesOn

end Padded

/-! ## Groups of tokens -/

section Groups

variable {s : Spot} {ts us : List Token} {stop stop' : Location}

theorem answers_attributesRead (h : Padded .other ts us) :
    Answers (fun r q => q = r ∧ Padded .head (ts.drop r.2) (us.drop r.2)) (attributesRead stop ts)
      (attributesRead stop' us) := by
  induction ts generalizing us with
  | nil => exact .error
  | cons t ts ih =>
    obtain ⟨⟨kind, at_⟩, vs, rfl, hk, -, hvs⟩ := h.uncons (.inr rfl)
    obtain ⟨_, loc⟩ := t
    cases hk
    cases kind with
    | attr name source escape =>
      refine .bind_eq (answers_ofToken loc at_ name source escape) fun a => ?_
      refine .bind (ih hvs) ?_
      rintro ⟨as, k⟩ _ ⟨rfl, hrest⟩
      exact .pure ⟨rfl, hrest⟩
    | attributesEnd => exact .pure ⟨rfl, hvs⟩
    | _ => exact .error

/-- A token that is not part of a head. -/
theorem headRead_of_eq_false {head : Head} {t : Token} (h : t.kind.isHeadPart = false)
    (ts : List Token) : Head.read stop head (t :: ts) = .ok (head, 0) := by
  obtain ⟨kind, loc⟩ := t
  cases kind <;> first | cases h; done | simp [Head.read, pure, Except.pure]

/-- A head is read the same, as nothing is added inside it. -/
theorem answers_head (head : Head) (hs : s.InLine) (h : Padded s ts us) :
    Answers (fun r q => q = r ∧ (ts.head?.any (·.kind.opensHead) → 0 < r.2) ∧
        ∃ s', s'.InLine ∧ Padded s' (ts.drop r.2) (us.drop r.2))
      (Head.read stop head ts) (Head.read stop' head us) := by
  fun_induction Head.read stop head ts generalizing s us
  case case1 | case3 => exact .error
  case case2 hadd ih | case4 hadd ih =>
    obtain ⟨⟨kind, at_⟩, vs, rfl, hk, -, hvs⟩ := h.uncons hs
    cases hk
    simp only [Head.read, hadd]
    refine .bind (ih (.inl rfl) hvs) ?_
    rintro ⟨head, n⟩ _ ⟨rfl, -, hrest⟩
    exact .pure ⟨rfl, fun _ => Nat.succ_pos _, hrest⟩
  case case5 ih =>
    obtain ⟨⟨kind, at_⟩, vs, rfl, hk, -, hvs⟩ := h.uncons hs
    cases hk
    simp only [Head.read]
    refine .bind (answers_attributesRead hvs) ?_
    rintro ⟨as, k⟩ _ ⟨rfl, hmore⟩
    dsimp only
    split
    next => exact .error
    next hadd =>
      refine .bind (ih _ _ (.inl rfl) hmore) ?_
      rintro ⟨head, n⟩ _ ⟨rfl, -, s', hs', hrest⟩
      rw [List.drop_drop, List.drop_drop, Nat.add_comm] at hrest
      exact .pure ⟨rfl, fun _ => Nat.succ_pos _, s', hs', hrest⟩
  case case6 ih =>
    obtain ⟨⟨kind, at_⟩, vs, rfl, hk, -, hvs⟩ := h.uncons hs
    cases hk
    simp only [Head.read]
    refine .bind_eq (answers_atLocation _ _ _ _) fun e => ?_
    refine .bind (ih e (.inl rfl) hvs) ?_
    rintro ⟨head, n⟩ _ ⟨rfl, -, hrest⟩
    exact .pure ⟨rfl, fun _ => Nat.succ_pos _, hrest⟩
  case case7 head ts hid hclass hlist hspread =>
    match ts, h with
    | [], h =>
      cases h.eq_nil hs
      simp only [Head.read]
      exact .pure ⟨rfl, nofun, s, hs, h⟩
    | t :: ts, h =>
      obtain ⟨u, vs, rfl, hk, -, -⟩ := h.uncons hs
      have hpart : t.kind.isHeadPart = false := by
        obtain ⟨kind, loc⟩ := t
        cases kind with
        | id => exact absurd rfl (hid _ _ _)
        | className => exact absurd rfl (hclass _ _ _)
        | attributesStart => exact absurd rfl (hlist _ _)
        | spread => exact absurd rfl (hspread _ _ _)
        | _ => rfl
      rw [headRead_of_eq_false (hk ▸ hpart)]
      refine .pure ⟨rfl, fun hopens => ?_, s, hs, h⟩
      obtain ⟨kind, loc⟩ := t
      cases kind <;> first | cases hopens; done | cases hpart

theorem textRun_of_not {joins : Bool} (hhead : ∀ t ∈ ts.head?, t.kind.isText = false)
    (hgo : joins → ¬ GoesOn TokenKind.isText ts) : textRun joins ts = ("", 0) := by
  unfold textRun
  split
  next => exact nomatch hhead _ rfl
  next => exact if_neg fun hj => hgo hj ⟨rfl, rfl⟩
  next => rfl

theorem htmlRun_of_not (hhead : ∀ t ∈ ts.head?, t.kind.isHtml = false)
    (hgo : ¬ GoesOn TokenKind.isHtml ts) : htmlRun ts = ([], 0) := by
  unfold htmlRun
  split
  next => exact nomatch hhead _ rfl
  next => exact absurd ⟨rfl, rfl⟩ hgo
  next => rfl

theorem textRun_stop {joins : Bool} (h : Padded s ts us) (hs : s.InLine)
    (hts : ∀ t ∈ ts.head?, t.kind.isText = false)
    (hgo : joins → ¬ GoesOn TokenKind.isText ts) :
    textRun joins us = ("", 0) ∧ Behind ts us :=
  ⟨textRun_of_not (h.head_eq_false hs hts) fun hj hus => hgo hj (h.goesOn_left hs hus rfl), s, h,
    hs.ne nofun nofun, fun _ => hts⟩

/-- Texts in a row, their lines joined or not. -/
theorem textRun_padded (joins : Bool) (hs : s.InLine) (hhead : joins → s ≠ .head)
    (h : Padded s ts us)
    (hfirm : joins → GoesOn TokenKind.isText ts → GoesOn TokenKind.isText us) :
    textRun joins us = textRun joins ts ∧ Behind (ts.drop (textRun joins ts).2)
      (us.drop (textRun joins ts).2) := by
  fun_induction textRun joins ts generalizing s us
  case case1 rest more k hrun ih =>
    obtain ⟨⟨kind, at_⟩, vs, rfl, hk, hf, hvs⟩ := h.uncons hs
    cases hk
    obtain ⟨heq, hrest⟩ := ih (.inr rfl) (by rintro _ ⟨⟩) hvs fun hj => hf.text rfl (hhead hj)
    rw [textRun, heq, hrun]
    rw [hrun] at hrest
    exact ⟨rfl, hrest⟩
  case case2 rest hj more k hrun ih =>
    have hgo := hfirm hj ⟨rfl, rfl⟩
    obtain ⟨_, _, _, ⟨_, at_⟩, ⟨_, at'⟩, us', heq, rfl, rfl, hk, hf, hrest⟩ :=
      h.goesOn hs ⟨rfl, rfl⟩ hgo rfl
    cases heq
    cases hk
    obtain ⟨heq, hrest⟩ := ih (.inr rfl) (by rintro _ ⟨⟩) hrest fun _ =>
      hf.text rfl (by rintro ⟨⟩)
    rw [textRun, if_pos hj, heq, hrun]
    rw [hrun] at hrest
    exact ⟨rfl, hrest⟩
  case case3 hj =>
    exact textRun_stop h hs (fun _ ht => Option.some.inj ht ▸ rfl) fun hj' => absurd hj' hj
  case case4 ts htext hfeed =>
    refine textRun_stop h hs (fun t ht => ?_) fun _ hgo => ?_
    · obtain ⟨more, rfl⟩ := List.head?_eq_some_iff.mp ht
      obtain ⟨kind, loc⟩ := t
      cases kind with
      | text => exact absurd rfl (htext _ _ _)
      | _ => rfl
    · obtain ⟨⟨_, _⟩, ⟨kind, _⟩, _, rfl, rfl, hkind⟩ := hgo.exists_cons
      cases kind with
      | text => exact hfeed _ _ _ _ rfl
      | _ => cases hkind

theorem htmlRun_padded (h : Padded .other ts us)
    (hfirm : GoesOn TokenKind.isHtml ts → GoesOn TokenKind.isHtml us) :
    htmlRun us = htmlRun ts ∧ Padded .other (ts.drop (htmlRun ts).2)
      (us.drop (htmlRun ts).2) := by
  fun_induction htmlRun ts generalizing us
  case case1 rest more k hrun ih =>
    obtain ⟨⟨kind, at_⟩, vs, rfl, hk, hf, hvs⟩ := h.uncons (.inr rfl)
    cases hk
    obtain ⟨heq, hrest⟩ := ih hvs (hf.html rfl)
    rw [htmlRun, heq, hrun]
    rw [hrun] at hrest
    exact ⟨rfl, hrest⟩
  case case2 rest more k hrun ih =>
    obtain ⟨_, _, _, ⟨_, at_⟩, ⟨_, at'⟩, us', heq, rfl, rfl, hk, hf, hrest⟩ :=
      h.goesOn (.inr rfl) ⟨rfl, rfl⟩ (hfirm ⟨rfl, rfl⟩) rfl
    cases heq
    cases hk
    obtain ⟨heq, hrest⟩ := ih hrest (hf.html rfl)
    rw [htmlRun, heq, hrun]
    rw [hrun] at hrest
    exact ⟨rfl, hrest⟩
  case case3 ts hhtml hfeed =>
    refine ⟨htmlRun_of_not (h.head_eq_false (.inr rfl) fun t ht => ?_) fun hus => ?_, h⟩
    · obtain ⟨more, rfl⟩ := List.head?_eq_some_iff.mp ht
      obtain ⟨kind, loc⟩ := t
      cases kind with
      | html => exact absurd rfl (hhtml _ _ _)
      | _ => rfl
    · match ts, h.goesOn_left (.inr rfl) hus rfl with
      | ⟨_, _⟩ :: ⟨kind, _⟩ :: _, ⟨rfl, hkind⟩ =>
        cases kind with
        | html => exact hfeed _ _ _ _ rfl
        | _ => exact nomatch hkind

theorem pipelessRun_padded {text : String} {k : Nat} (h : Padded .block ts us)
    (hts : pipelessRun ts = some (text, k)) :
    pipelessRun us = some (text, k) ∧ Padded .other (ts.drop k) (us.drop k) := by
  induction ts generalizing us text k with
  | nil => cases hts
  | cons t ts ih =>
    obtain ⟨⟨kind, at_⟩, vs, rfl, hk, hvs⟩ := h.uncons_block
    obtain ⟨_, loc⟩ := t
    cases hk
    cases kind with
    | text s =>
      obtain ⟨⟨more, n⟩, hmore, heq⟩ := Option.map_eq_some_iff.mp hts
      obtain ⟨hrun, hrest⟩ := ih hvs hmore
      cases heq
      exact ⟨by rw [pipelessRun, hrun]; rfl, hrest⟩
    | newline =>
      obtain ⟨⟨more, n⟩, hmore, heq⟩ := Option.map_eq_some_iff.mp hts
      obtain ⟨hrun, hrest⟩ := ih hvs hmore
      cases heq
      exact ⟨by rw [pipelessRun, hrun]; rfl, hrest⟩
    | pipelessEnd =>
      cases hts
      exact ⟨rfl, hvs⟩
    | _ => cases hts

theorem answers_pipelessBody (h : Padded .block ts us) :
    Answers (fun r q => q.2 = r.2 ∧ Padded .other (ts.drop r.2.2) (us.drop r.2.2))
      (pipelessBody stop ts) (pipelessBody stop' us) := by
  unfold pipelessBody
  split
  next text k hts =>
    obtain ⟨hus, hrest⟩ := pipelessRun_padded h hts
    rw [hus]
    exact .pure ⟨rfl, hrest⟩
  next => exact .error

end Groups

end PugTemplate
