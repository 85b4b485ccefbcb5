import PugTemplate.Proofs.Tree.Alike
import PugTemplate.Proofs.Tree.Production

/-!
# Reading up to the end of a block

A reader never looks behind the end of the block it stands in. So of two streams that are the same
up to such an end, the same is read: whatever is read from one of them in front of the end, or
through it, is read from the other one as well. Main statement: `readOptionalBlock_congr`.
-/

namespace PugTemplate

/-- Two streams that begin with the same tokens, so many of them in front of the end of a block. -/
inductive SameUntil : Nat → List Token → List Token → Prop where
  | closing {loc : Location} {ts us : List Token} :
      SameUntil 0 (⟨.outdent, loc⟩ :: ts) (⟨.outdent, loc⟩ :: us)
  | cons {n : Nat} {t : Token} {ts us : List Token} (h : SameUntil n ts us) :
      SameUntil (n + 1) (t :: ts) (t :: us)

theorem bind_eq_ok {ε α β : Type} {x : Except ε α} {f : α → Except ε β} {a : α} {b : β}
    (hx : x = .ok a) (hf : f a = .ok b) : (x >>= f) = .ok b := by
  rw [hx]
  exact hf

theorem unexpected_ne_ok {α : Type} {stop : Location} {ts : List Token} {expected : Expectation}
    {a : α} : unexpected stop ts expected ≠ .ok a := by
  unfold unexpected
  split <;> simp

namespace SameUntil

variable {n k : Nat} {t : Token} {ts us : List Token}

theorem of_append (front : List Token) (loc : Location) (a b : List Token) :
    SameUntil front.length (front ++ ⟨.outdent, loc⟩ :: a) (front ++ ⟨.outdent, loc⟩ :: b) := by
  induction front with
  | nil => exact .closing
  | cons t front ih => exact .cons ih

theorem head? (h : SameUntil n ts us) : us.head? = ts.head? := by
  cases h <;> rfl

theorem drop (h : SameUntil n ts us) (hk : k ≤ n) : SameUntil (n - k) (ts.drop k) (us.drop k) := by
  induction h generalizing k with
  | closing =>
    obtain rfl := Nat.le_zero.mp hk
    exact .closing
  | @cons n t ts us h ih =>
    cases k with
    | zero => exact .cons h
    | succ k =>
      rw [Nat.succ_sub_succ, List.drop_succ_cons, List.drop_succ_cons]
      exact ih (Nat.le_of_succ_le_succ hk)

theorem uncons (h : SameUntil n (t :: ts) us) (ht : t.kind ≠ .outdent) :
    ∃ m vs, n = m + 1 ∧ us = t :: vs ∧ SameUntil m ts vs := by
  cases h with
  | closing => exact absurd rfl ht
  | cons h => exact ⟨_, _, rfl, rfl, h⟩

theorem goesOn {form : TokenKind → Bool} (h : SameUntil n ts us) (hus : GoesOn form us) :
    GoesOn form ts := by
  obtain ⟨m, u, more, rfl, hm, hu⟩ := hus.exists_cons
  cases h with
  | closing => cases hm
  | cons h => cases h <;> exact ⟨hm, hu⟩

/-! ## Groups of tokens -/

theorem beforeElse_eq (h : SameUntil n ts us) (orElseIf : Bool) :
    beforeElse orElseIf us = beforeElse orElseIf ts ∧ beforeElse orElseIf ts ≤ n := by
  cases h with
  | closing => exact ⟨rfl, Nat.le_refl 0⟩
  | @cons n t ts us h =>
    have hle : beforeElse orElseIf (t :: ts) ≤ 1 := by
      unfold beforeElse
      split
      · exact Nat.le_refl 1
      · split <;> omega
      · exact Nat.zero_le 1
    refine ⟨?_, by omega⟩
    obtain ⟨kind, loc⟩ := t
    cases kind with
    | newline =>
      cases h with
      | closing => rfl
      | @cons _ t _ _ _ =>
        obtain ⟨kind, loc⟩ := t
        cases kind <;> rfl
    | _ => rfl

theorem textRun_eq (h : SameUntil n ts us) (joins : Bool) :
    textRun joins us = textRun joins ts := by
  fun_induction textRun joins ts generalizing n us with
  | case1 s loc rest more k hrun ih =>
    obtain ⟨m, vs, rfl, rfl, hvs⟩ := h.uncons (by simp)
    rw [textRun, ih hvs, hrun]
  | case2 loc s loc' rest hjoins more k hrun ih =>
    obtain ⟨_, _, rfl, rfl, hrest⟩ := h.uncons (by simp)
    obtain ⟨m, vs, rfl, rfl, hvs⟩ := hrest.uncons (by simp)
    rw [textRun, if_pos hjoins, ih hvs, hrun]
  | case3 loc s loc' rest hjoins =>
    obtain ⟨_, _, rfl, rfl, hrest⟩ := h.uncons (by simp)
    obtain ⟨m, vs, rfl, rfl, hvs⟩ := hrest.uncons (by simp)
    rw [textRun, if_neg hjoins]
  | case4 ts hno hno' =>
    refine textRun_of_not (fun t ht => ?_) fun _ hgo => ?_
    · rw [h.head?] at ht
      obtain ⟨rest, rfl⟩ := List.head?_eq_some_iff.mp ht
      obtain ⟨kind, loc⟩ := t
      cases kind <;> first | rfl | exact (hno _ _ _ rfl).elim
    · obtain ⟨⟨_, _⟩, ⟨kind, _⟩, _, rfl, rfl, hkind⟩ := (h.goesOn hgo).exists_cons
      cases kind with
      | text => exact hno' _ _ _ _ rfl
      | _ => cases hkind

theorem htmlRun_eq (h : SameUntil n ts us) : htmlRun us = htmlRun ts := by
  fun_induction htmlRun ts generalizing n us with
  | case1 s loc rest more k hrun ih =>
    obtain ⟨m, vs, rfl, rfl, hvs⟩ := h.uncons (by simp)
    rw [htmlRun, ih hvs, hrun]
  | case2 loc s loc' rest more k hrun ih =>
    obtain ⟨_, _, rfl, rfl, hrest⟩ := h.uncons (by simp)
    obtain ⟨m, vs, rfl, rfl, hvs⟩ := hrest.uncons (by simp)
    rw [htmlRun, ih hvs, hrun]
  | case3 ts hno hno' =>
    refine htmlRun_of_not (fun t ht => ?_) fun hgo => ?_
    · rw [h.head?] at ht
      obtain ⟨rest, rfl⟩ := List.head?_eq_some_iff.mp ht
      obtain ⟨kind, loc⟩ := t
      cases kind <;> first | rfl | exact (hno _ _ _ rfl).elim
    · obtain ⟨⟨_, _⟩, ⟨kind, _⟩, _, rfl, rfl, hkind⟩ := (h.goesOn hgo).exists_cons
      cases kind with
      | html => exact hno' _ _ _ _ rfl
      | _ => cases hkind

theorem pipelessRun_eq (h : SameUntil n ts us) : pipelessRun us = pipelessRun ts := by
  induction h with
  | closing => rfl
  | @cons n t ts us h ih =>
    obtain ⟨kind, loc⟩ := t
    cases kind with
    | text | newline => rw [pipelessRun, pipelessRun, ih]
    | _ => rfl

theorem pipelessBody_eq (h : SameUntil n ts us) (stop : Location) :
    pipelessBody stop us = pipelessBody stop ts := by
  have hplace : placeOf stop us = placeOf stop ts := by cases h <;> rfl
  rw [pipelessBody, pipelessBody, h.pipelessRun_eq, hplace]

theorem attributesRead_eq (h : SameUntil n ts us) (stop : Location) :
    attributesRead stop us = attributesRead stop ts := by
  induction h with
  | closing => rfl
  | @cons n t ts us h ih =>
    obtain ⟨kind, loc⟩ := t
    cases kind with
    | attr => rw [attributesRead, attributesRead, ih]
    | _ => rfl

theorem readHead_congr (h : SameUntil n ts us) {stop : Location} {head head' : Head}
    (hok : head.read stop ts = .ok (head', k)) (hk : k ≤ n) :
    head.read stop us = .ok (head', k) := by
  fun_induction Head.read stop head ts generalizing n us k with
  | case1 | case3 => cases hok
  | case2 head name loc rest head₁ hadd ih | case4 head name loc rest head₁ hadd ih =>
    obtain ⟨⟨head₂, j⟩, hrest, hok⟩ := of_bind_eq_ok hok
    cases hok
    obtain ⟨m, vs, rfl, rfl, hvs⟩ := h.uncons (by simp)
    have hj : j ≤ m := Nat.le_of_succ_le_succ hk
    simp only [Head.read, hadd]
    exact bind_eq_ok (ih hvs hrest hj) rfl
  | case5 head loc rest ih =>
    obtain ⟨⟨as, j⟩, has, hok⟩ := of_bind_eq_ok hok
    obtain ⟨m, vs, rfl, rfl, hvs⟩ := h.uncons (by simp)
    rw [Head.read]
    refine bind_eq_ok (hvs.attributesRead_eq stop ▸ has) ?_
    dsimp only at hok ⊢
    split at hok
    next => cases hok
    next head₁ hadd =>
      obtain ⟨⟨head₂, i⟩, hrest, hok⟩ := of_bind_eq_ok hok
      cases hok
      exact bind_eq_ok (ih _ _ (hvs.drop (by omega)) hrest (by omega)) rfl
  | case6 head source loc rest ih =>
    obtain ⟨e, he, hok⟩ := of_bind_eq_ok hok
    obtain ⟨⟨head₂, j⟩, hrest, hok⟩ := of_bind_eq_ok hok
    cases hok
    obtain ⟨m, vs, rfl, rfl, hvs⟩ := h.uncons (by simp)
    have hj : j ≤ m := Nat.le_of_succ_le_succ hk
    rw [Head.read]
    exact bind_eq_ok he (bind_eq_ok (ih _ hvs hrest hj) rfl)
  | case7 head ts =>
    cases hok
    cases h with
    | closing => exact headRead_of_eq_false rfl _
    | @cons _ t _ _ _ =>
      refine headRead_of_eq_false ?_ _
      obtain ⟨kind, loc⟩ := t
      cases kind <;> first | rfl | simp_all

/-! ## Constructs without nodes inside -/

theorem textBody_eq (h : SameUntil n ts us) (cx : TreeContext) :
    cx.textBody us = cx.textBody ts := by
  cases h with
  | closing => rfl
  | @cons _ t _ _ h =>
    obtain ⟨kind, loc⟩ := t
    cases kind with
    | pipelessStart => rw [TreeContext.textBody, TreeContext.textBody, h.pipelessBody_eq]
    | _ => rfl

theorem readComment_eq (h : SameUntil n ts us) (stop : Location) (text : String) (buffered : Bool)
    (loc : Location) :
    readComment stop text buffered loc us = readComment stop text buffered loc ts := by
  cases h with
  | closing => rfl
  | @cons _ t _ _ h =>
    obtain ⟨kind, at_⟩ := t
    cases kind with
    | pipelessStart => rw [readComment, readComment, h.pipelessBody_eq]
    | _ => rfl

theorem readCodeBlock_eq (h : SameUntil n ts us) (stop loc : Location) :
    readCodeBlock stop loc us = readCodeBlock stop loc ts := by
  cases h with
  | closing => rfl
  | @cons _ t _ _ h =>
    obtain ⟨kind, at_⟩ := t
    cases kind with
    | pipelessStart => rw [readCodeBlock, readCodeBlock, h.pipelessBody_eq]
    | _ => rfl

theorem readCode_eq (h : SameUntil n ts us) (source : String) (buffered escape : Bool)
    (loc : Location) :
    readCode source buffered escape loc us = readCode source buffered escape loc ts := by
  cases h with
  | closing => rfl
  | @cons _ t _ _ h =>
    obtain ⟨kind, at_⟩ := t
    cases kind <;> rfl

theorem readPath_eq (h : SameUntil n ts us) (stop : Location) :
    readPath stop us = readPath stop ts := by
  cases h with
  | closing => rfl
  | @cons _ t _ _ h =>
    obtain ⟨kind, at_⟩ := t
    cases kind <;> rfl

theorem filterText_eq (h : SameUntil n ts us) (stop : Location) :
    filterText stop us = filterText stop ts := by
  cases h with
  | closing => rfl
  | @cons _ t _ _ h =>
    obtain ⟨kind, at_⟩ := t
    cases kind with
    | pipelessStart => rw [filterText, filterText, h.pipelessBody_eq]
    | _ => rfl

theorem readFilter_congr (h : SameUntil n ts us) {stop loc : Location} {name : String}
    {ns : List Node} (hok : readFilter stop name loc ts = .ok (ns, k)) (hk : k ≤ n) :
    readFilter stop name loc us = .ok (ns, k) := by
  have htext {j : Nat} (as : List Attribute)
      (hok : (filterText stop (ts.drop j) >>= fun t =>
        pure ([Node.filter loc name as t.1], j + t.2)) = .ok (ns, k)) :
      (filterText stop (us.drop j) >>= fun t =>
        pure ([Node.filter loc name as t.1], j + t.2)) = .ok (ns, k) := by
    obtain ⟨⟨text, m⟩, hrest, hpure⟩ := of_bind_eq_ok hok
    cases hpure
    rwa [(h.drop (Nat.le_of_add_right_le hk)).filterText_eq]
  unfold readFilter at hok ⊢
  split at hok
  next at_ more =>
    obtain ⟨m, vs, rfl, rfl, hvs⟩ := h.uncons (by simp)
    obtain ⟨⟨as, j⟩, has, hok⟩ := of_bind_eq_ok hok
    refine bind_eq_ok (a := (as, j)) (hvs.attributesRead_eq stop ▸ has) ?_
    exact @htext (j + 1) as hok
  next hno =>
    split
    next =>
      cases h with
      | cons h => exact (hno _ _ rfl).elim
    next => exact @htext 0 [] hok

end SameUntil

/-! ## Constructs with nodes inside -/

/-- Where the failure of a refusal stands has no part in what is read. -/
theorem refusal_congr {ε α : Type} {c : Prop} [Decidable c] {e e' : ε} {x : Except ε α} {a : α}
    (h : (if c then .error e else x) = .ok a) : (if c then .error e' else x) = .ok a := by
  split at h
  next => cases h
  next hc => rwa [if_neg hc]

theorem count_of_closing {loc : Location} {name : NameSource} {head : Head}
    {selfClosing textOnly : Bool} {args : Option (List Expr)} {body : List Node} {e : ParseError}
    {m : Node} {k n : Nat}
    (h : (if selfClosing ∧ body ≠ [] then .error e
        else match args with
          | none => return (.tag loc name head selfClosing textOnly body, n)
          | some args => return (.call loc name args head
              (if body = [] then none else some body), n)) =
      (.ok (m, k) : Except ParseError (Node × Nat))) : k = n := by
  split at h
  next => cases h
  next => cases args <;> (cases h; rfl)

/-- What is read from one stream, so many tokens at most, is read from the other one too. -/
def SameWithin {α : Type} (n : Nat) (x y : Except ParseError (α × Nat)) : Prop :=
  ∀ a k, x = .ok (a, k) → k ≤ n → y = .ok (a, k)

section Positive

variable {cx : TreeContext} {k : Nat} {ts : List Token}

/-- The items of a block are read through its end. -/
theorem pos_of_readItems {ns : List Node} (h : readItems cx ts = .ok (ns, k)) : 0 < k := by
  unfold readItems at h
  split at h
  next => cases h; exact Nat.one_pos
  next =>
    obtain ⟨r, -, h⟩ := of_bind_eq_ok h
    cases h
    exact Nat.succ_pos _
  next => exact absurd h unexpected_ne_ok
  next => exact absurd h unexpected_ne_ok
  next =>
    obtain ⟨r, -, h⟩ := of_bind_eq_ok h
    obtain ⟨q, -, h⟩ := of_bind_eq_ok h
    cases h
    exact Nat.succ_pos _

theorem pos_of_readBranches {bs : List Branch} (h : readBranches cx ts = .ok (bs, k)) : 0 < k := by
  unfold readBranches at h
  split at h
  next => cases h; exact Nat.one_pos
  next =>
    obtain ⟨r, -, h⟩ := of_bind_eq_ok h
    cases h
    exact Nat.succ_pos _
  next =>
    obtain ⟨r, -, h⟩ := of_bind_eq_ok h
    obtain ⟨q, -, h⟩ := of_bind_eq_ok h
    cases h
    exact Nat.succ_pos _
  next =>
    obtain ⟨test, -, h⟩ := of_bind_eq_ok h
    obtain ⟨r, -, h⟩ := of_bind_eq_ok h
    obtain ⟨q, -, h⟩ := of_bind_eq_ok h
    cases h
    exact Nat.succ_pos _
  next =>
    obtain ⟨r, -, h⟩ := of_bind_eq_ok h
    obtain ⟨q, -, h⟩ := of_bind_eq_ok h
    cases h
    exact Nat.succ_pos _
  next => exact absurd h unexpected_ne_ok

end Positive

/-- Each production reads the same from two streams that are the same up to the end of a block. What
ends with a block may be read through that end. -/
def agreeing : Productions where
  optionalBlock cx ts := ∀ {n : Nat} {us : List Token}, SameUntil n ts us →
    SameWithin (n + 1) (readOptionalBlock cx ts) (readOptionalBlock cx us)
  inline cx closable ts := ∀ {n : Nat} {us : List Token}, SameUntil n ts us →
    ∀ (ns : List Node) (closed : Bool) (k : Nat), readInline cx closable ts = .ok (ns, closed, k) →
      k ≤ n → readInline cx closable us = .ok (ns, closed, k)
  branchBody cx ts := ∀ {n : Nat} {us : List Token}, SameUntil n ts us →
    SameWithin n (readBranchBody cx ts) (readBranchBody cx us)
  branches cx ts := ∀ {n : Nat} {us : List Token}, SameUntil n ts us →
    SameWithin (n + 1) (readBranches cx ts) (readBranches cx us)
  elseBody cx ts := ∀ {n : Nat} {us : List Token}, SameUntil n ts us →
    SameWithin n (readElseBody cx ts) (readElseBody cx us)
  otherwise cx ts := ∀ {n : Nat} {us : List Token}, SameUntil n ts us →
    SameWithin n (readOtherwise cx ts) (readOtherwise cx us)
  element cx loc name shown args ts := ∀ {n : Nat} {us : List Token}, SameUntil n ts us →
    SameWithin n (readElement cx loc name shown ts args) (readElement cx loc name shown us args)
  conditional cx loc negate source ts := ∀ {n : Nat} {us : List Token}, SameUntil n ts us →
    SameWithin n (readConditional cx loc negate source ts)
      (readConditional cx loc negate source us)
  each cx loc value key source ts := ∀ {n : Nat} {us : List Token}, SameUntil n ts us →
    SameWithin n (readEach cx loc value key source ts) (readEach cx loc value key source us)
  node cx t ts := ∀ {n : Nat} {us : List Token}, SameUntil n ts us →
    SameWithin n (Node.read cx t ts) (Node.read cx t us)
  here cx ts := ∀ {n : Nat} {us : List Token}, SameUntil n ts us →
    SameWithin n (Node.readHere cx ts) (Node.readHere cx us)
  items cx ts := ∀ {n : Nat} {us : List Token}, SameUntil n ts us →
    SameWithin (n + 1) (readItems cx ts) (readItems cx us)

section Steps

variable {cx : TreeContext} {loc : Location} {name : NameSource} {shown source value : String}
  {args : Option (List Expr)} {key : Option String} {closable negate : Bool} {t : Token}
  {ts : List Token}

theorem agrees_optionalBlock (ih : agreeing.Below ts) : agreeing.optionalBlock cx ts := by
  intro n us h ns k hok hk
  obtain ⟨⟨kind, loc⟩, rest, rfl, ht⟩ | hts := head_cases TokenKind.isIndent ts
  · cases kind with
    | indent =>
      obtain ⟨m, vs, rfl, rfl, hvs⟩ := h.uncons (by simp)
      rw [readOptionalBlock] at hok ⊢
      obtain ⟨⟨ms, j⟩, hms, hok⟩ := of_bind_eq_ok hok
      cases hok
      exact bind_eq_ok (ih.items .tail hvs _ _ hms (Nat.le_of_succ_le_succ hk)) rfl
    | _ => cases ht
  · rw [readOptionalBlock_of_eq_false hts] at hok
    rw [readOptionalBlock_of_eq_false (h.head? ▸ hts)]
    exact hok

theorem agrees_inline (ih : agreeing.Below ts) : agreeing.inline cx closable ts := by
  intro n us h ns closed k hok hk
  have hrun := h.textRun_eq false
  cases h with
  | closing =>
    rw [readInline] at hok ⊢
    exact hok
  | @cons n t ts us h =>
    obtain ⟨kind, loc⟩ := t
    cases kind with
    | text s =>
      rw [readInline] at hok ⊢
      rw [hrun]
      exact hok
    | colon =>
      rw [readInline] at hok ⊢
      obtain ⟨⟨ms, j⟩, hms, hok⟩ := of_bind_eq_ok hok
      cases hok
      exact bind_eq_ok (ih.here .tail h _ _ hms (Nat.le_of_succ_le_succ hk)) rfl
    | code | newline | indent | outdent | eos | pipelessStart =>
      rw [readInline] at hok ⊢
      exact hok
    | slash =>
      rw [readInline] at hok ⊢
      split at hok
      next hclosable =>
        rw [if_pos hclosable]
        exact hok
      next => exact absurd hok unexpected_ne_ok
    | _ =>
      rw [readInline] at hok
      · exact absurd hok unexpected_ne_ok
      all_goals simp

theorem agrees_branchBody (ih : agreeing.Below ts) : agreeing.branchBody cx ts := by
  intro n us h body k hok hk
  obtain ⟨⟨kind, loc⟩, rest, rfl, ht⟩ | hts := head_cases TokenKind.opensBranch ts
  · cases kind with
    | colon =>
      obtain ⟨m, vs, rfl, rfl, hvs⟩ := h.uncons (by simp)
      rw [readBranchBody] at hok ⊢
      obtain ⟨⟨ms, j⟩, hms, hok⟩ := of_bind_eq_ok hok
      cases hok
      exact bind_eq_ok (ih.here .tail hvs _ _ hms (Nat.le_of_succ_le_succ hk)) rfl
    | indent =>
      obtain ⟨m, vs, rfl, rfl, hvs⟩ := h.uncons (by simp)
      rw [readBranchBody] at hok ⊢
      obtain ⟨⟨ms, j⟩, hms, hok⟩ := of_bind_eq_ok hok
      cases hok
      -- what is read ends with the block, and may be read through that end
      have hk' := Nat.le_of_succ_le_succ (Nat.le_succ_of_le hk)
      exact bind_eq_ok (ih.items .tail hvs _ _ hms hk') rfl
    | _ => cases ht
  · rw [readBranchBody_of_eq_false hts] at hok
    rw [readBranchBody_of_eq_false (h.head? ▸ hts)]
    exact hok

theorem agrees_branches (ih : agreeing.Below ts) : agreeing.branches cx ts := by
  intro n us h bs k hok hk
  cases h with
  | closing =>
    rw [readBranches] at hok ⊢
    exact hok
  | @cons n t ts us h =>
    obtain ⟨kind, loc⟩ := t
    cases kind with
    | outdent =>
      rw [readBranches] at hok ⊢
      exact hok
    | newline =>
      rw [readBranches] at hok ⊢
      obtain ⟨⟨cs, j⟩, hcs, hok⟩ := of_bind_eq_ok hok
      cases hok
      exact bind_eq_ok (ih.branches .tail h _ _ hcs (Nat.le_of_succ_le_succ hk)) rfl
    | comment text buffered =>
      rw [readBranches] at hok ⊢
      obtain ⟨⟨m, j⟩, hm, hok⟩ := of_bind_eq_ok hok
      obtain ⟨⟨cs, i⟩, hcs, hok⟩ := of_bind_eq_ok hok
      cases hok
      -- the rest reads the end of the block at least, so all in front of it is within the bound
      have hi := pos_of_readBranches hcs
      exact bind_eq_ok ((h.readComment_eq _ _ _ _).trans hm)
        (bind_eq_ok (ih.branches (.drop .tail) (h.drop (by omega)) _ _ hcs (by omega)) rfl)
    | when source =>
      rw [readBranches] at hok ⊢
      obtain ⟨test, htest, hok⟩ := of_bind_eq_ok hok
      obtain ⟨⟨body, j⟩, hbody, hok⟩ := of_bind_eq_ok hok
      obtain ⟨⟨cs, i⟩, hcs, hok⟩ := of_bind_eq_ok hok
      cases hok
      have hi := pos_of_readBranches hcs
      exact bind_eq_ok htest (bind_eq_ok (ih.branchBody .tail h _ _ hbody (by omega))
        (bind_eq_ok (ih.branches (.drop .tail) (h.drop (by omega)) _ _ hcs (by omega)) rfl))
    | defaultCase =>
      rw [readBranches] at hok ⊢
      obtain ⟨⟨body, j⟩, hbody, hok⟩ := of_bind_eq_ok hok
      obtain ⟨⟨cs, i⟩, hcs, hok⟩ := of_bind_eq_ok hok
      cases hok
      have hi := pos_of_readBranches hcs
      exact bind_eq_ok (ih.branchBody .tail h _ _ hbody (by omega))
        (bind_eq_ok (ih.branches (.drop .tail) (h.drop (by omega)) _ _ hcs (by omega)) rfl)
    | _ =>
      rw [readBranches] at hok
      · exact absurd hok unexpected_ne_ok
      all_goals simp

theorem agrees_elseBody (ih : agreeing.Below ts) : agreeing.elseBody cx ts := by
  intro n us h ns k hok hk
  obtain ⟨⟨kind, loc⟩, rest, rfl, ht⟩ | hts := head_cases TokenKind.isColon ts
  · cases kind with
    | colon =>
      obtain ⟨m, vs, rfl, rfl, hvs⟩ := h.uncons (by simp)
      rw [readElseBody] at hok ⊢
      obtain ⟨⟨ms, j⟩, hms, hok⟩ := of_bind_eq_ok hok
      cases hok
      exact bind_eq_ok (ih.here .tail hvs _ _ hms (Nat.le_of_succ_le_succ hk)) rfl
    | _ => cases ht
  · rw [readElseBody_of_eq_false hts] at hok
    rw [readElseBody_of_eq_false (h.head? ▸ hts)]
    exact agrees_optionalBlock ih h _ _ hok (Nat.le_succ_of_le hk)

theorem agrees_otherwise (ih : agreeing.Below ts) : agreeing.otherwise cx ts := by
  intro n us h next k hok hk
  obtain ⟨hbefore, hle⟩ := h.beforeElse_eq true
  obtain ⟨⟨kind, loc⟩, rest, hts, ht⟩ | hts :=
    head_cases (TokenKind.continues true) (ts.drop (beforeElse true ts))
  · have hdrop := h.drop hle
    rw [hts] at hdrop
    cases kind with
    | elseIf source =>
      obtain ⟨m, vs, hm, hus, hvs⟩ := hdrop.uncons (by simp)
      rw [readOtherwise_elseIf hts] at hok
      rw [readOtherwise_elseIf (hbefore.symm ▸ hus), hbefore]
      obtain ⟨test, htest, hok⟩ := of_bind_eq_ok hok
      obtain ⟨⟨body, j⟩, hbody, hok⟩ := of_bind_eq_ok hok
      obtain ⟨⟨more, i⟩, hmore, hok⟩ := of_bind_eq_ok hok
      cases hok
      have hnext := ih.otherwise (.drop (.of_drop hts)) (hvs.drop (by omega)) _ _ hmore
        (by omega)
      exact bind_eq_ok htest (bind_eq_ok (ih.optionalBlock (.of_drop hts) hvs _ _ hbody (by omega))
        (bind_eq_ok hnext rfl))
    | otherwise condition =>
      obtain ⟨m, vs, hm, hus, hvs⟩ := hdrop.uncons (by simp)
      cases condition with
      | some source =>
        rw [readOtherwise_refused hts] at hok
        cases hok
      | none =>
        rw [readOtherwise_otherwise hts] at hok
        rw [readOtherwise_otherwise (hbefore.symm ▸ hus), hbefore]
        obtain ⟨⟨body, j⟩, hbody, hok⟩ := of_bind_eq_ok hok
        cases hok
        exact bind_eq_ok (ih.elseBody (.of_drop hts) hvs _ _ hbody (by omega)) rfl
    | _ => cases ht
  · rw [readOtherwise_of_eq_false hts] at hok
    rw [readOtherwise_of_eq_false (by rwa [hbefore, (h.drop hle).head?])]
    exact hok

theorem agrees_element (ih : agreeing.Below ts) : agreeing.element cx loc name shown args ts := by
  intro n us h m k hok hk
  unfold readElement at hok ⊢
  obtain ⟨⟨head, i⟩, hhead, hok⟩ := of_bind_eq_ok hok
  have hsame {i : Nat} (hi : i ≤ n) :
      ((us.drop i).head?.any fun t => t.kind == .dot) =
        (ts.drop i).head?.any fun t => t.kind == .dot := by
    rw [(h.drop hi).head?]
  cases hdot : (ts.drop i).head?.any fun t => t.kind == .dot with
  | true =>
    simp only [hdot, if_true] at hok
    obtain ⟨⟨inline, closed, j⟩, hinline, hok⟩ := of_bind_eq_ok hok
    obtain ⟨⟨below, l⟩, hbelow, hok⟩ := of_bind_eq_ok hok
    dsimp only at hok
    obtain rfl := count_of_closing hok
    refine bind_eq_ok (a := (head, i)) (h.readHead_congr hhead (by omega)) ?_
    dsimp only
    rw [hsame (by omega), hdot]
    simp only [if_true]
    refine bind_eq_ok
      (agrees_inline (ih.drop _) (h.drop (by omega)) _ _ _ hinline (by omega)) ?_
    dsimp only
    rw [(h.drop (by omega)).textBody_eq]
    exact bind_eq_ok hbelow (refusal_congr hok)
  | false =>
    simp only [hdot, Bool.false_eq_true, if_false] at hok
    obtain ⟨⟨inline, closed, j⟩, hinline, hok⟩ := of_bind_eq_ok hok
    obtain ⟨⟨below, l⟩, hbelow, hok⟩ := of_bind_eq_ok hok
    dsimp only at hok
    obtain rfl := count_of_closing hok
    refine bind_eq_ok (a := (head, i)) (h.readHead_congr hhead (by omega)) ?_
    dsimp only
    rw [hsame (by omega), hdot]
    simp only [Bool.false_eq_true, if_false]
    refine bind_eq_ok
      (agrees_inline (ih.drop _) (h.drop (by omega)) _ _ _ hinline (by omega)) ?_
    dsimp only
    refine bind_eq_ok
      (agrees_optionalBlock (ih.drop _) (h.drop (by omega)) _ _ hbelow (by omega)) ?_
    exact refusal_congr hok

theorem agrees_conditional (ih : agreeing.Below ts) :
    agreeing.conditional cx loc negate source ts := by
  intro n us h ns k hok hk
  unfold readConditional at hok ⊢
  obtain ⟨test, htest, hok⟩ := of_bind_eq_ok hok
  obtain ⟨⟨body, j⟩, hbody, hok⟩ := of_bind_eq_ok hok
  obtain ⟨⟨next, i⟩, hnext, hok⟩ := of_bind_eq_ok hok
  cases hok
  refine bind_eq_ok htest (bind_eq_ok (agrees_optionalBlock ih h _ _ hbody (by omega)) ?_)
  have hmore := agrees_otherwise (ih.drop _) (h.drop (by omega)) _ _ hnext (by omega)
  exact bind_eq_ok hmore rfl

theorem agrees_each (ih : agreeing.Below ts) : agreeing.each cx loc value key source ts := by
  intro n us h ns k hok hk
  unfold readEach at hok ⊢
  obtain ⟨e, he, hok⟩ := of_bind_eq_ok hok
  obtain ⟨⟨body, j⟩, hbody, hok⟩ := of_bind_eq_ok hok
  dsimp only at hok
  have hsame (hj : j ≤ n) : beforeElse false (us.drop j) = beforeElse false (ts.drop j) ∧
      SameUntil (n - (j + beforeElse false (ts.drop j)))
        (ts.drop (j + beforeElse false (ts.drop j)))
        (us.drop (j + beforeElse false (ts.drop j))) := by
    obtain ⟨hbefore, hle⟩ := (h.drop hj).beforeElse_eq false
    exact ⟨hbefore, h.drop (by omega)⟩
  split at hok
  next => cases hok
  next heq =>
    obtain ⟨⟨ifEmpty, i⟩, hifEmpty, hok⟩ := of_bind_eq_ok hok
    cases hok
    obtain ⟨hbefore, hdrop⟩ := hsame (by omega)
    rw [heq] at hdrop
    obtain ⟨m, vs, hm, hus, hvs⟩ := hdrop.uncons (by simp)
    refine bind_eq_ok he (bind_eq_ok (agrees_optionalBlock ih h _ _ hbody (by omega)) ?_)
    dsimp only
    rw [hbefore]
    split
    next heq' => cases hus.symm.trans heq'
    next heq' =>
      cases hus.symm.trans heq'
      exact bind_eq_ok (ih.elseBody (.of_drop heq) hvs _ _ hifEmpty (by omega)) rfl
    next hno => exact (hno _ _ hus).elim
  next hsome hnone =>
    cases hok
    obtain ⟨hbefore, hdrop⟩ := hsame hk
    refine bind_eq_ok he (bind_eq_ok (agrees_optionalBlock ih h _ _ hbody (by omega)) ?_)
    have hhead {t : Token} {more : List Token}
        (hus : us.drop (k + beforeElse false (ts.drop k)) = t :: more) :
        ∃ rest, ts.drop (k + beforeElse false (ts.drop k)) = t :: rest := by
      have heq := hdrop.head?
      rw [hus] at heq
      exact List.head?_eq_some_iff.mp heq.symm
    dsimp only
    rw [hbefore]
    split
    next hus =>
      obtain ⟨rest, hts⟩ := hhead hus
      exact (hsome _ _ _ hts).elim
    next hus =>
      obtain ⟨rest, hts⟩ := hhead hus
      exact (hnone _ _ hts).elim
    next => rfl

theorem agrees_node (ih : agreeing.Below (t :: ts)) : agreeing.node cx t ts := by
  intro n us h ns k hok hk
  obtain ⟨kind, loc⟩ := t
  cases kind with
  | tag name =>
    rw [Node.read] at hok ⊢
    obtain ⟨⟨m, j⟩, hm, hok⟩ := of_bind_eq_ok hok
    cases hok
    exact bind_eq_ok (ih.element .tail h _ _ hm hk) rfl
  | id | className | attributesStart =>
    rw [Node.read] at hok ⊢
    obtain ⟨⟨m, j⟩, hm, hok⟩ := of_bind_eq_ok hok
    cases hok
    exact bind_eq_ok (agrees_element ih (.cons h) _ _ hm (by omega)) rfl
  | interpolation source =>
    rw [Node.read] at hok ⊢
    obtain ⟨e, he, hok⟩ := of_bind_eq_ok hok
    obtain ⟨⟨m, j⟩, hm, hok⟩ := of_bind_eq_ok hok
    cases hok
    exact bind_eq_ok he (bind_eq_ok (ih.element .tail h _ _ hm hk) rfl)
  | text s =>
    rw [Node.read] at hok ⊢
    rw [h.textRun_eq]
    exact hok
  | html s =>
    rw [Node.read] at hok ⊢
    rw [h.htmlRun_eq]
    obtain ⟨m, hm, hok⟩ := of_bind_eq_ok hok
    obtain ⟨⟨body, j⟩, hbody, hok⟩ := of_bind_eq_ok hok
    cases hok
    have hblock := ih.optionalBlock (.drop .tail) (h.drop (by omega)) _ _
      hbody (by omega)
    exact bind_eq_ok hm (bind_eq_ok hblock rfl)
  | comment text buffered =>
    rw [Node.read] at hok ⊢
    rw [h.readComment_eq]
    exact hok
  | doctype | yield | slot =>
    rw [Node.read] at hok ⊢
    exact hok
  | code source buffered escape =>
    rw [Node.read] at hok ⊢
    rw [h.readCode_eq]
    exact hok
  | codeBlock =>
    rw [Node.read] at hok ⊢
    rw [h.readCodeBlock_eq]
    exact hok
  | ifCond source | unlessCond source =>
    rw [Node.read] at hok ⊢
    exact ih.conditional .tail h _ _ hok hk
  | switch source =>
    rw [Node.read] at hok ⊢
    obtain ⟨subject, hsubject, hok⟩ := of_bind_eq_ok hok
    refine bind_eq_ok hsubject ?_
    split at hok
    next =>
      obtain ⟨⟨branches, j⟩, hbranches, hok⟩ := of_bind_eq_ok hok
      cases hok
      obtain ⟨m, vs, rfl, rfl, hvs⟩ := h.uncons (by simp)
      exact bind_eq_ok (ih.branches (.cons .tail) hvs _ _ hbranches (by omega)) rfl
    next hno =>
      cases hok
      split
      next =>
        cases h with
        | cons h => exact (hno _ _ _ rfl).elim
      next => rfl
  | each | eachOf =>
    rw [Node.read] at hok ⊢
    exact ih.each .tail h _ _ hok hk
  | loop source =>
    rw [Node.read] at hok ⊢
    obtain ⟨test, htest, hok⟩ := of_bind_eq_ok hok
    obtain ⟨⟨body, j⟩, hbody, hok⟩ := of_bind_eq_ok hok
    cases hok
    have hblock := ih.optionalBlock .tail h _ _ hbody (Nat.le_succ_of_le hk)
    exact bind_eq_ok htest (bind_eq_ok hblock rfl)
  | mixin name params =>
    rw [Node.read] at hok ⊢
    obtain ⟨ps, hps, hok⟩ := of_bind_eq_ok hok
    obtain ⟨⟨body, j⟩, hbody, hok⟩ := of_bind_eq_ok hok
    cases hok
    have hblock := ih.optionalBlock .tail h _ _ hbody (Nat.le_succ_of_le hk)
    exact bind_eq_ok hps (bind_eq_ok hblock rfl)
  | call name computed args =>
    rw [Node.read] at hok ⊢
    obtain ⟨source, hsource, hok⟩ := of_bind_eq_ok hok
    obtain ⟨as, has, hok⟩ := of_bind_eq_ok hok
    obtain ⟨⟨m, j⟩, hm, hok⟩ := of_bind_eq_ok hok
    cases hok
    have helement := ih.element .tail h _ _ hm hk
    exact bind_eq_ok hsource (bind_eq_ok has (bind_eq_ok helement rfl))
  | block name mode =>
    rw [Node.read] at hok ⊢
    obtain ⟨⟨body, j⟩, hbody, hok⟩ := of_bind_eq_ok hok
    cases hok
    have hblock := ih.optionalBlock .tail h _ _ hbody (Nat.le_succ_of_le hk)
    exact bind_eq_ok hblock rfl
  | inherits =>
    rw [Node.read] at hok ⊢
    rw [h.readPath_eq]
    exact hok
  | includes filter =>
    rw [Node.read] at hok ⊢
    rw [h.readPath_eq]
    obtain ⟨path, hpath, hok⟩ := of_bind_eq_ok hok
    refine bind_eq_ok hpath ?_
    dsimp only at hok ⊢
    split at hok
    next hraw =>
      rw [if_pos hraw]
      exact hok
    next hraw =>
      rw [if_neg hraw]
      obtain ⟨⟨content, j⟩, hcontent, hok⟩ := of_bind_eq_ok hok
      cases hok
      rw [← List.drop_one] at hcontent ⊢
      have hblock := ih.optionalBlock (.drop .tail) (h.drop (by omega)) _ _
        hcontent (by omega)
      exact bind_eq_ok hblock rfl
  | filter name =>
    rw [Node.read] at hok ⊢
    exact h.readFilter_congr hok hk
  | otherwise | elseIf =>
    rw [Node.read] at hok
    cases hok
  | _ =>
    rw [Node.read] at hok
    · exact absurd hok unexpected_ne_ok
    all_goals simp

theorem agrees_here (ih : agreeing.Below ts) : agreeing.here cx ts := by
  intro n us h ns k hok hk
  cases h with
  | closing =>
    rw [Node.readHere] at hok ⊢
    obtain ⟨⟨m, j⟩, hm, hok⟩ := of_bind_eq_ok hok
    cases hok
    omega
  | @cons n t ts us h =>
    rw [Node.readHere] at hok ⊢
    obtain ⟨⟨m, j⟩, hm, hok⟩ := of_bind_eq_ok hok
    cases hok
    exact bind_eq_ok (agrees_node ih h _ _ hm (Nat.le_of_succ_le_succ hk)) rfl

theorem agrees_items (ih : agreeing.Below ts) : agreeing.items cx ts := by
  intro n us h ns k hok hk
  cases h with
  | closing =>
    rw [readItems] at hok ⊢
    exact hok
  | @cons n t ts us h =>
    obtain ⟨kind, loc⟩ := t
    by_cases hout : kind = .outdent
    · subst hout
      rw [readItems] at hok ⊢
      exact hok
    by_cases hfeed : kind = .newline
    · subst hfeed
      rw [readItems] at hok ⊢
      obtain ⟨⟨ms, j⟩, hms, hok⟩ := of_bind_eq_ok hok
      cases hok
      exact bind_eq_ok (ih.items .tail h _ _ hms (Nat.le_of_succ_le_succ hk)) rfl
    by_cases heos : kind = .eos
    · subst heos
      rw [readItems] at hok
      exact absurd hok unexpected_ne_ok
    rw [readItems_node hout hfeed heos] at hok ⊢
    obtain ⟨⟨ms, j⟩, hms, hok⟩ := of_bind_eq_ok hok
    obtain ⟨⟨more, i⟩, hmore, hok⟩ := of_bind_eq_ok hok
    cases hok
    have hi := pos_of_readItems hmore
    exact bind_eq_ok (agrees_node ih h _ _ hms (by omega))
      (bind_eq_ok (ih.items (.drop .tail) (h.drop (by omega)) _ _ hmore (by omega)) rfl)

end Steps

theorem agreeing_always : agreeing.Given fun _ => True :=
  Productions.Given.always
    { optionalBlock := agrees_optionalBlock
      inline := agrees_inline
      branchBody := agrees_branchBody
      branches := agrees_branches
      elseBody := agrees_elseBody
      otherwise := agrees_otherwise
      element := agrees_element
      conditional := agrees_conditional
      each := agrees_each
      node := agrees_node
      here := agrees_here
      items := agrees_items }

/-- A block that is read up to the end of a block, or through it, is read whatever follows. -/
theorem readOptionalBlock_congr {cx : TreeContext} {n : Nat} {ts us : List Token}
    (h : SameUntil n ts us) :
    SameWithin (n + 1) (readOptionalBlock cx ts) (readOptionalBlock cx us) :=
  agreeing_always.optionalBlock trivial h

end PugTemplate
