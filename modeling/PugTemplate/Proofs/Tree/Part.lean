import PugTemplate.Proofs.Basic
import PugTemplate.Proofs.Tree.Forecast

/-!
# Parts of nodes in a stream

Besides the token that begins it, a node takes tokens for its parts: its attributes, its text, its
path. They are of kinds of their own, so reading them passes over no node and no end of a block, and
what goes wrong with them has nothing to do with where the node stands.
-/

namespace PugTemplate

/-- A token that neither begins a node or a branch, nor opens or closes a block. -/
def TokenKind.isPart : TokenKind → Bool
  | id _ | className _ | attributesStart | attr _ _ _ | attributesEnd | spread _ | text _ | html _
  | newline | pipelessStart | pipelessEnd | path _ | dot | slash | colon => true
  | _ => false

/-- So many tokens in front are parts of nodes. -/
def PartsUpTo (ts : List Token) (k : Nat) : Prop :=
  ∀ t ∈ ts.take k, t.kind.isPart

namespace PartsUpTo

variable {t : Token} {ts : List Token} {j k : Nat}

theorem zero : PartsUpTo ts 0 :=
  fun _ ht => nomatch ht

theorem succ (ht : t.kind.isPart) (h : PartsUpTo ts k) : PartsUpTo (t :: ts) (k + 1) :=
  List.forall_mem_cons.mpr ⟨ht, h⟩

theorem one (ht : t.kind.isPart) : PartsUpTo (t :: ts) 1 :=
  succ ht zero

theorem add (h : PartsUpTo ts j) (h' : PartsUpTo (ts.drop j) k) : PartsUpTo ts (j + k) := by
  rw [PartsUpTo, List.take_add]
  exact List.forall_mem_append.mpr ⟨h, h'⟩

end PartsUpTo

/-! ## Failures of parts -/

/-- Some answer is only given with a property, and no failure blames a bare block. -/
abbrev blameless : Answering (Except ParseError) :=
  .orFails fun e => e.cause ≠ .slotOutsideMixin

section Blameless

variable {α β : Type} {p : α → Prop} {stop loc : Location} {ts : List Token}

theorem blameless_error {e : ParseError} (h : e.cause ≠ .slotOutsideMixin) :
    blameless.always (.error e : Except ParseError α) p :=
  ⟨fun _ ha => (nomatch ha), fun _ he => Except.error.inj he ▸ h⟩

theorem blameless_unexpected {expected : Expectation} :
    blameless.always (unexpected stop ts expected : Except ParseError α) p := by
  unfold unexpected
  split <;> exact blameless_error nofun

theorem blameless_map {x : Except ParseError α} {f : α → β}
    (hx : blameless.always x fun _ => True) : blameless.always (f <$> x) fun _ => True :=
  blameless.bind hx fun _ _ => blameless.pure trivial

theorem blameless_atLocation (source : String) (x : Except ExprError α) :
    blameless.always (atLocation source loc x) fun _ => True := by
  cases x with
  | ok a => exact blameless.pure trivial
  | error e => exact blameless_error nofun

theorem blameless_blockStatements (lines : List (List Char)) :
    blameless.always (blockStatements loc lines) fun _ => True := by
  induction lines generalizing loc with
  | nil => exact blameless.pure trivial
  | cons line rest ih =>
    have hmore (here : List Statement) :
        blameless.always
          (blockStatements ⟨loc.line + 1, loc.column⟩ rest >>= fun more => pure (here ++ more))
          fun _ => True :=
      blameless.bind ih fun _ _ => blameless.pure trivial
    unfold blockStatements
    dsimp only
    split
    · exact hmore []
    · exact blameless.bind (blameless_atLocation _ _) fun here _ => hmore here

theorem blameless_paramAt (last : Bool) (part : List Char) :
    blameless.always (paramAt loc last part) fun _ => True := by
  have hcheck {c : Prop} [Decidable c] {a : Param} {e : ParseError}
      (he : e.cause ≠ .slotOutsideMixin) :
      blameless.always (if c then pure a else .error e) fun _ => True := by
    split
    · exact blameless.pure trivial
    · exact blameless_error he
  unfold paramAt
  dsimp only
  split
  · split
    · exact blameless_error nofun
    · exact hcheck nofun
  · split
    · exact hcheck nofun
    · exact blameless.bind (blameless_map (blameless_atLocation _ _)) fun _ _ => hcheck nofun

theorem blameless_paramsAt (source : String) :
    blameless.always (paramsAt source loc) fun _ => True := by
  have hparts : ∀ parts, blameless.always (paramParts loc parts) fun _ => True := by
    intro parts
    induction parts with
    | nil => exact blameless.pure trivial
    | cons part parts ih =>
      exact blameless.bind (blameless_paramAt _ _) fun _ _ =>
        blameless.bind ih fun _ _ => blameless.pure trivial
  unfold paramsAt
  split
  · exact blameless.pure trivial
  · exact hparts _

theorem blameless_ofToken (name : String) (source : Option String) (escape : Bool) :
    blameless.always (Attribute.ofToken name source escape loc) fun _ => True := by
  unfold Attribute.ofToken
  split
  · exact blameless.pure trivial
  · exact blameless.bind (blameless_atLocation _ _) fun _ _ => blameless.pure trivial

theorem blameless_callName (name : String) (computed : Bool) :
    blameless.always (callName name computed loc) fun _ => True := by
  unfold callName
  split
  · exact blameless_map (blameless_atLocation _ _)
  · exact blameless.pure trivial

theorem blameless_callArguments (args : Option String) :
    blameless.always (callArguments args loc) fun _ => True := by
  unfold callArguments
  split
  · exact blameless_atLocation _ _
  · exact blameless.pure trivial

theorem not_slot_of_add {head : Head} {a : Attribute} {cause : ParseCause}
    (h : head.add a = .error cause) : cause ≠ .slotOutsideMixin := by
  unfold Head.add at h
  split at h
  · exact nomatch h
  · split at h
    · cases h
      exact nofun
    · exact nomatch h

theorem not_slot_of_addAll {head : Head} {as : List Attribute} {cause : ParseCause}
    (h : head.addAll as = .error cause) : cause ≠ .slotOutsideMixin := by
  induction as generalizing head with
  | nil => exact nomatch h
  | cons a as ih =>
    unfold Head.addAll at h
    split at h
    · exact ih h
    next hadd =>
      cases h
      exact not_slot_of_add hadd

end Blameless

/-! ## Reading parts -/

section Parts

variable {stop loc : Location} {ts : List Token}

theorem parts_attributesRead :
    blameless.always (attributesRead stop ts) fun r => PartsUpTo ts r.2 := by
  fun_induction attributesRead stop ts
  case case1 ih =>
    exact blameless.bind (blameless_ofToken _ _ _) fun _ _ =>
      blameless.bind ih fun _ h => blameless.pure (h.succ rfl)
  case case2 => exact blameless.pure (.one rfl)
  case case3 => exact blameless_unexpected

/-- A head that opens a tag is not empty. -/
theorem parts_head (head : Head) :
    blameless.always (Head.read stop head ts) fun r =>
      PartsUpTo ts r.2 ∧ (ts.head?.any (·.kind.opensHead) → 0 < r.2) := by
  fun_induction Head.read stop head ts
  case case1 hadd | case3 hadd => exact blameless_error (not_slot_of_add hadd)
  case case2 ih | case4 ih =>
    exact blameless.bind ih fun _ h => blameless.pure ⟨h.1.succ rfl, fun _ => Nat.succ_pos _⟩
  case case5 at_ rest ih =>
    refine blameless.bind parts_attributesRead fun r hr => ?_
    dsimp only
    split
    next hadd => exact blameless_error (not_slot_of_addAll hadd)
    next =>
      refine blameless.bind (ih _ _) fun q hq => blameless.pure ⟨?_, fun _ => Nat.succ_pos _⟩
      have hparts : PartsUpTo (⟨.attributesStart, at_⟩ :: rest) (r.2 + q.2 + 1) :=
        (hr.add hq.1).succ rfl
      rwa [Nat.add_comm r.2] at hparts
  case case6 ih =>
    exact blameless.bind (blameless_atLocation _ _) fun e _ =>
      blameless.bind (ih e) fun _ h => blameless.pure ⟨h.1.succ rfl, fun _ => Nat.succ_pos _⟩
  case case7 ts hid hclass hlist _ =>
    refine blameless.pure ⟨.zero, fun hopens => ?_⟩
    -- a head without a part does not open a tag
    cases ts with
    | nil => cases hopens
    | cons t ts =>
      obtain ⟨kind, at_⟩ := t
      cases kind with
      | id => exact absurd rfl (hid _ _ _)
      | className => exact absurd rfl (hclass _ _ _)
      | attributesStart => exact absurd rfl (hlist _ _)
      | _ => cases hopens

theorem parts_textRun (joins : Bool) : PartsUpTo ts (textRun joins ts).2 := by
  fun_induction textRun joins ts
  case case1 hrun ih =>
    rw [hrun] at ih
    exact ih.succ rfl
  case case2 hrun ih =>
    rw [hrun] at ih
    exact (ih.succ rfl).succ rfl
  case case3 | case4 => exact .zero

theorem parts_htmlRun : PartsUpTo ts (htmlRun ts).2 := by
  fun_induction htmlRun ts
  case case1 hrun ih =>
    rw [hrun] at ih
    exact ih.succ rfl
  case case2 hrun ih =>
    rw [hrun] at ih
    exact (ih.succ rfl).succ rfl
  case case3 => exact .zero

theorem parts_pipelessRun {text : String} {k : Nat} (h : pipelessRun ts = some (text, k)) :
    PartsUpTo ts k := by
  fun_induction pipelessRun ts generalizing text k
  case case1 ih | case2 ih =>
    obtain ⟨⟨more, n⟩, hmore, heq⟩ := Option.map_eq_some_iff.mp h
    cases heq
    exact (ih hmore).succ rfl
  case case3 =>
    cases h
    exact .one rfl
  case case4 => exact nomatch h

theorem parts_pipelessBody :
    blameless.always (pipelessBody stop ts) fun r =>
      PartsUpTo ts r.2.2 ∧ pipelessRun ts = some (r.2.1, r.2.2) ∧ r.1 = placeOf stop ts := by
  unfold pipelessBody
  split
  next h => exact blameless.pure ⟨parts_pipelessRun h, h, rfl⟩
  next => exact blameless_error nofun

theorem parts_beforeElse (orElseIf : Bool) : PartsUpTo ts (beforeElse orElseIf ts) := by
  unfold beforeElse
  split
  · exact .one rfl
  · split
    · exact .one rfl
    · exact .zero
  · exact .zero

theorem parts_path : blameless.always (readPath stop ts) fun _ => PartsUpTo ts 1 := by
  unfold readPath
  split
  · exact blameless.pure (.one rfl)
  · exact blameless_unexpected

theorem parts_ofCode (source : String) (buffered escape : Bool) :
    blameless.always (Node.ofCode source buffered escape loc) fun n =>
      (∃ value, n = .output loc value escape) ∨ ∃ list, n = .statements loc list := by
  unfold Node.ofCode
  split
  · exact blameless.bind (blameless_atLocation _ _) fun e _ => blameless.pure (.inl ⟨e, rfl⟩)
  · exact blameless.bind (blameless_atLocation _ _) fun l _ => blameless.pure (.inr ⟨l, rfl⟩)

theorem parts_codeBlock :
    blameless.always (readCodeBlock stop loc ts) fun r =>
      (∃ list, r.1 = [.statements loc list]) ∧ PartsUpTo ts r.2 := by
  unfold readCodeBlock
  split
  · exact blameless.bind parts_pipelessBody fun _ h =>
      blameless.bind (blameless_blockStatements _) fun l _ =>
        blameless.pure ⟨⟨l, rfl⟩, h.1.succ rfl⟩
  · exact blameless.pure ⟨⟨[], rfl⟩, .zero⟩

theorem parts_comment (text : String) (buffered : Bool) :
    blameless.always (readComment stop text buffered loc ts) fun r =>
      (∃ body, r.1 = .comment loc text buffered body) ∧ PartsUpTo ts r.2 := by
  unfold readComment
  split
  · exact blameless.bind parts_pipelessBody fun _ h => blameless.pure ⟨⟨_, rfl⟩, h.1.succ rfl⟩
  · exact blameless.pure ⟨⟨_, rfl⟩, .zero⟩

theorem parts_filter (name : String) :
    blameless.always (readFilter stop name loc ts) fun r =>
      (∃ as text, r.1 = [.filter loc name as text]) ∧ PartsUpTo ts r.2 := by
  have htext (us : List Token) :
      blameless.always (filterText stop us) fun r => PartsUpTo us r.2 := by
    unfold filterText
    split
    · exact blameless.pure (.one rfl)
    · exact blameless.bind parts_pipelessBody fun _ h => blameless.pure (h.1.succ rfl)
    · exact blameless.pure .zero
  have hbehind {as : List Attribute} {k : Nat} (h : PartsUpTo ts k) :
      blameless.always (filterText stop (ts.drop k) >>= fun t =>
        pure ([Node.filter loc name as t.1], k + t.2)) fun r =>
          (∃ as text, r.1 = [.filter loc name as text]) ∧ PartsUpTo ts r.2 :=
    blameless.bind (htext _) fun _ hr => blameless.pure ⟨⟨as, _, rfl⟩, h.add hr⟩
  unfold readFilter
  dsimp only
  split
  next => exact blameless.bind parts_attributesRead fun _ h => hbehind (h.succ rfl)
  next => exact hbehind .zero

/-- A dot behind a head. -/
theorem parts_dot (h : ts.head?.any (fun t => t.kind == .dot)) : PartsUpTo ts 1 := by
  cases ts with
  | nil => exact nomatch h
  | cons t ts =>
    refine .one ?_
    rw [eq_of_beq (a := t.kind) h]
    rfl

end Parts

end PugTemplate
