import PugTemplate.Proofs.Lex.Branch
import PugTemplate.Proofs.Tree.Closing

/-!
# Chains of branches

A condition is one node: its first branch, any number of `else if` branches and, maybe, an `else`.
However many there are, they are read in their order, each with the block below it, and so they
stand in the node. Main statement: `ConditionTokens.read`.
-/

namespace PugTemplate

/-- The branches of a condition in their order. -/
structure Condition where
  /-- The first branch is taken where its test fails. -/
  negate : Bool
  test : Expr
  body : List Node
  /-- The tests behind `else if`, with their bodies. -/
  more : List (Expr × List Node)
  /-- The body of an `else`. -/
  last : Option (List Node)

namespace Otherwise

def branches : Otherwise → List (Expr × List Node)
  | .nothing | .otherwise .. => []
  | .elseIf _ test body next => (test, body) :: next.branches

def last : Otherwise → Option (List Node)
  | .nothing => none
  | .elseIf _ _ _ next => next.last
  | .otherwise _ body => some body

end Otherwise

namespace Condition

def ofNode? : Node → Option Condition
  | .conditional _ negate test body next => some ⟨negate, test, body, next.branches, next.last⟩
  | _ => none

def unplaced (c : Condition) : Condition :=
  ⟨c.negate, c.test, unplacedAll c.body, c.more.map fun b => (b.1, unplacedAll b.2),
    c.last.map unplacedAll⟩

/-- The body of the first branch whose test holds, or fails where it is negated; else that of the
`else`, else nothing. -/
def choose (holds : Expr → Bool) (c : Condition) : List Node :=
  if holds c.test != c.negate then c.body
  else (((c.more.find? fun b => holds b.1).map Prod.snd).or c.last).getD []

end Condition

/-! ## Positions -/

theorem Otherwise.branches_unplaced (o : Otherwise) :
    o.unplaced.branches = o.branches.map fun b => (b.1, unplacedAll b.2) := by
  match o with
  | .nothing | .otherwise .. => rfl
  | .elseIf _ test body next => exact congrArg _ next.branches_unplaced

theorem Otherwise.last_unplaced (o : Otherwise) : o.unplaced.last = o.last.map unplacedAll := by
  match o with
  | .nothing | .otherwise .. => rfl
  | .elseIf _ _ _ next => exact next.last_unplaced

namespace Condition

theorem ofNode?_unplaced (n : Node) : ofNode? n.unplaced = (ofNode? n).map unplaced := by
  cases n with
  | conditional _ negate test body next =>
    rw [Node.unplaced, ofNode?, next.branches_unplaced, next.last_unplaced]
    rfl
  | _ => rfl

/-- Nodes that are the same up to positions have the same branches. -/
theorem ofNode?_congr {n m : Node} {c : Condition} (h : m.unplaced = n.unplaced)
    (hn : ofNode? n = some c) : ∃ c', ofNode? m = some c' ∧ c'.unplaced = c.unplaced := by
  have hm : (ofNode? m).map unplaced = some c.unplaced := by
    rw [← ofNode?_unplaced, h, ofNode?_unplaced, hn]
    rfl
  exact Option.map_eq_some_iff.mp hm

theorem choose_unplaced (holds : Expr → Bool) (c : Condition) :
    c.unplaced.choose holds = unplacedAll (c.choose holds) := by
  obtain ⟨negate, test, body, more, last⟩ := c
  unfold choose unplaced
  dsimp only
  split
  · rfl
  · rw [List.find?_map, Option.map_map]
    show ((((more.find? fun b => holds b.1).map fun b => unplacedAll b.2).or
      (last.map unplacedAll)).getD []) = _
    cases more.find? fun b => holds b.1 with
    | none => cases last <;> rfl
    | some b => rfl

end Condition

/-! ## Blocks as a whole -/

theorem TokenKind.isColon_of_isIndent {k : TokenKind} (h : k.isIndent) : k.isColon = false := by
  cases k <;> first | rfl | cases h

/-- The tokens of a block from its start to its end, or none. -/
def IsBlock (cx : TreeContext) (ts : List Token) (ns : List Node) : Prop :=
  readOptionalBlock cx (ts ++ [⟨.eos, .nowhere⟩]) = .ok (ns, ts.length)

/-- What is read of a block ends with the end of a block. -/
theorem closing_of_readItems {cx : TreeContext} {ts : List Token} {ns : List Node} {k : Nat}
    (h : readItems cx ts = .ok (ns, k)) :
    ∃ front loc rest, ts = front ++ ⟨.outdent, loc⟩ :: rest ∧ k = front.length + 1 := by
  match ts with
  | [] =>
    rw [readItems] at h
    exact absurd h unexpected_ne_ok
  | ⟨kind, loc⟩ :: ts =>
    by_cases hout : kind = .outdent
    · subst hout
      rw [readItems] at h
      cases h
      exact ⟨[], loc, ts, rfl, rfl⟩
    by_cases hfeed : kind = .newline
    · subst hfeed
      rw [readItems] at h
      obtain ⟨⟨ms, j⟩, hms, h⟩ := of_bind_eq_ok h
      cases h
      obtain ⟨front, at_, rest, rfl, rfl⟩ := closing_of_readItems hms
      exact ⟨⟨.newline, loc⟩ :: front, at_, rest, rfl, rfl⟩
    by_cases heos : kind = .eos
    · subst heos
      rw [readItems] at h
      exact absurd h unexpected_ne_ok
    rw [readItems_node hout hfeed heos] at h
    obtain ⟨⟨ms, j⟩, hms, h⟩ := of_bind_eq_ok h
    obtain ⟨⟨more, i⟩, hmore, h⟩ := of_bind_eq_ok h
    cases h
    obtain ⟨front, at_, rest, hrest, rfl⟩ := closing_of_readItems hmore
    refine ⟨⟨kind, loc⟩ :: (ts.take j ++ front), at_, rest, ?_, ?_⟩
    · rw [List.cons_append, List.append_assoc, ← hrest, List.take_append_drop]
    · have hle := congrArg List.length hrest
      simp only [List.length_drop, List.length_append, List.length_cons] at hle
      simp only [List.length_cons, List.length_append, List.length_take]
      omega
termination_by ts.length
decreasing_by
  all_goals
    subst_vars
    simp only [List.length_drop, List.length_cons]
    omega

theorem IsBlock.isIndent {cx : TreeContext} {t : Token} {ts : List Token} {ns : List Node}
    (h : IsBlock cx (t :: ts) ns) : t.kind.isIndent := by
  by_contra hindent
  rw [IsBlock, List.cons_append, readOptionalBlock_of_eq_false (by simpa using hindent)] at h
  cases h

/-- A block is read whatever follows it, as long as no other block does. -/
theorem IsBlock.append {cx : TreeContext} {ts after : List Token} {ns : List Node}
    (h : IsBlock cx ts ns) (hafter : ∀ t ∈ after.head?, t.kind.isIndent = false) :
    readOptionalBlock cx (ts ++ after) = .ok (ns, ts.length) := by
  match ts with
  | [] =>
    rw [IsBlock, List.nil_append, readOptionalBlock_of_eq_false (by simp [TokenKind.isIndent])] at h
    cases h
    exact readOptionalBlock_of_eq_false hafter
  | ⟨kind, loc⟩ :: ts =>
    have hindent := h.isIndent
    obtain ⟨width, rfl⟩ : ∃ width, kind = .indent width := by
      cases kind <;> first | exact ⟨_, rfl⟩ | cases hindent
    have hitems := h
    rw [IsBlock, List.cons_append, readOptionalBlock] at hitems
    obtain ⟨⟨ms, j⟩, hms, hcount⟩ := of_bind_eq_ok hitems
    obtain ⟨front, at_, rest, hrest, rfl⟩ := closing_of_readItems hms
    have hlength : ts.length = front.length + 1 :=
      Nat.succ.inj (congrArg Prod.snd (Except.ok.inj hcount)).symm
    have hsplit : ts ++ [⟨.eos, .nowhere⟩] = (front ++ [⟨.outdent, at_⟩]) ++ rest := by
      rw [hrest, List.append_assoc]
      rfl
    obtain ⟨rfl, rfl⟩ := List.append_inj hsplit (by simp [hlength])
    have hsame : SameUntil (front.length + 1)
        (⟨.indent width, loc⟩ :: (front ++ ⟨.outdent, at_⟩ :: [⟨.eos, .nowhere⟩]))
        (⟨.indent width, loc⟩ :: (front ++ ⟨.outdent, at_⟩ :: after)) :=
      .cons (.of_append front at_ _ after)
    have hread := @readOptionalBlock_congr cx _ _ _ hsame ns
      (⟨.indent width, loc⟩ :: (front ++ [⟨.outdent, at_⟩])).length (by simpa [IsBlock] using h)
      (by simp)
    simpa using hread

/-! ## The branches behind the first one -/

/-- The line end between a body and the branches behind it, if there are any. -/
def joint (body ts : List Token) : List Token :=
  if ts = [] then [] else Layout.lineBehind body

/-- The tokens of the branches behind the first one, and what they stand for. -/
inductive ElseTokens (cx : TreeContext) :
    List Token → List (Expr × List Node) → Option (List Node) → Prop where
  | nothing : ElseTokens cx [] [] none
  | elseIf {source : String} {test : Expr} {body ts : List Token} {ns : List Node}
      {bs : List (Expr × List Node)} {last : Option (List Node)} (loc : Location)
      (htest : Expr.read source.toList = .ok test) (hbody : IsBlock cx body ns)
      (h : ElseTokens cx ts bs last) :
      ElseTokens cx (⟨.elseIf source, loc⟩ :: (body ++ (joint body ts ++ ts))) ((test, ns) :: bs)
        last
  | otherwise {body : List Token} {ns : List Node} (loc : Location) (hbody : IsBlock cx body ns) :
      ElseTokens cx (⟨.otherwise none, loc⟩ :: body) [] (some ns)

/-- A token that would go on with the last branch, or with another one. -/
def TokenKind.goesOnBranch (k : TokenKind) : Bool :=
  k.isIndent || k.isColon || k.isElse

/-- What may follow the branches of a condition: the end of a block or of the source, or a line of
another construct. -/
structure Over (after : List Token) : Prop where
  head : ∀ t ∈ after.head?, t.kind.goesOnBranch = false
  line : ¬ GoesOn TokenKind.isElse after

section Reading

variable {cx : TreeContext} {body ts after : List Token} {ns : List Node}
  {bs : List (Expr × List Node)} {last : Option (List Node)} {source : String} {test : Expr}

theorem Over.eq_false (h : Over after) {form : TokenKind → Bool}
    (hform : ∀ k : TokenKind, form k → k.goesOnBranch) :
    ∀ t ∈ after.head?, form t.kind = false :=
  fun t ht => Bool.eq_false_iff.mpr fun hk => nomatch (h.head t ht).symm.trans (hform _ hk)

theorem Over.isIndent (h : Over after) : ∀ t ∈ after.head?, t.kind.isIndent = false :=
  h.eq_false fun k hk => by simp [TokenKind.goesOnBranch, hk]

theorem Over.single {t : Token} {rest : List Token} (ht : t.kind.goesOnBranch = false)
    (hfeed : t.kind ≠ .newline) : Over (t :: rest) :=
  ⟨by rintro _ ⟨⟩; exact ht, not_goesOn_of_head hfeed⟩

theorem expressionAt_of_read (loc : Location) (h : Expr.read source.toList = .ok test) :
    expressionAt source loc = .ok test := by
  rw [expressionAt, h]
  rfl

theorem joint_cases (body ts : List Token) :
    joint body ts = [] ∨ joint body ts = [⟨.newline, .nowhere⟩] := by
  unfold joint Layout.lineBehind
  split
  · exact .inl rfl
  · split
    · exact .inr rfl
    · exact .inl rfl

/-- Behind the body of a branch no other block follows. -/
theorem ElseTokens.isIndent_eq_false (h : ElseTokens cx ts bs last) (hafter : Over after)
    (body : List Token) :
    ∀ t ∈ (joint body ts ++ (ts ++ after)).head?, t.kind.isIndent = false := by
  obtain hnone | hfeed := joint_cases body ts
  · rw [hnone]
    cases h with
    | nothing => exact hafter.isIndent
    | elseIf | otherwise =>
      rintro t ⟨⟩
      rfl
  · rw [hfeed]
    rintro t ⟨⟩
    rfl

/-- A line end in front of a branch is passed over. -/
theorem drop_joint {t : Token} (ht : t.kind.continues true) (body ts rest : List Token) :
    beforeElse true (joint body ts ++ t :: rest) = (joint body ts).length ∧
      (joint body ts ++ t :: rest).drop (joint body ts).length = t :: rest := by
  refine ⟨?_, List.drop_left⟩
  obtain hnone | hfeed := joint_cases body ts
  · rw [hnone]
    exact beforeElse_of_not (not_goesOn_of_head (TokenKind.ne_newline_of_continues ht))
  · rw [hfeed]
    exact beforeElse_of_goesOn ⟨rfl, ht⟩

/-- Behind a body, with a line end in front or without one, the branches are read in their order. -/
theorem ElseTokens.read (h : ElseTokens cx ts bs last) (hafter : Over after) :
    ∃ next : Otherwise, next.branches = bs ∧ next.last = last ∧ ∀ body,
      readOtherwise cx (joint body ts ++ (ts ++ after)) =
        .ok (next, (joint body ts ++ ts).length) := by
  induction h with
  | nothing =>
    refine ⟨.nothing, rfl, rfl, fun body => ?_⟩
    have hjoint : joint body [] = [] := if_pos rfl
    have hgo : ¬ GoesOn (TokenKind.continues true) after := by
      intro hgo
      obtain ⟨n, t, _, rfl, hn, ht⟩ := hgo.exists_cons
      exact hafter.line ⟨hn, TokenKind.isElse_of_continues ht⟩
    rw [hjoint, List.nil_append, List.nil_append]
    refine readOtherwise_of_eq_false ?_
    rw [beforeElse_of_not hgo]
    refine hafter.eq_false fun k hk => ?_
    simp [TokenKind.goesOnBranch, TokenKind.isElse_of_continues hk]
  | @elseIf source test own ts ns bs last loc htest hbody hmore ih =>
    obtain ⟨next, hbs, hlast, hread⟩ := ih
    refine ⟨.elseIf loc test ns next, congrArg _ hbs, hlast, fun body => ?_⟩
    obtain ⟨hbefore, hdrop⟩ := drop_joint (t := ⟨.elseIf source, loc⟩) rfl body
      (⟨.elseIf source, loc⟩ :: (own ++ (joint own ts ++ ts)))
      (own ++ (joint own ts ++ (ts ++ after)))
    have hstream : ⟨.elseIf source, loc⟩ :: (own ++ (joint own ts ++ ts)) ++ after =
        ⟨.elseIf source, loc⟩ :: (own ++ (joint own ts ++ (ts ++ after))) := by
      simp only [List.cons_append, List.append_assoc]
    rw [hstream, readOtherwise_elseIf (hbefore.symm ▸ hdrop), hbefore]
    refine bind_eq_ok (expressionAt_of_read loc htest)
      (bind_eq_ok (hbody.append (hmore.isIndent_eq_false hafter own)) ?_)
    dsimp only
    rw [List.drop_left, hread own]
    refine congrArg Except.ok (Prod.ext rfl ?_)
    simp only [List.length_append, List.length_cons]
    omega
  | @otherwise own ns loc hbody =>
    refine ⟨.otherwise loc ns, rfl, rfl, fun body => ?_⟩
    obtain ⟨hbefore, hdrop⟩ := drop_joint (t := ⟨.otherwise none, loc⟩) rfl body
      (⟨.otherwise none, loc⟩ :: own) (own ++ after)
    have hcolon : ∀ t ∈ (own ++ after).head?, t.kind.isColon = false := by
      cases own with
      | nil => exact hafter.eq_false fun k hk => by simp [TokenKind.goesOnBranch, hk]
      | cons t own =>
        rintro _ ⟨⟩
        exact TokenKind.isColon_of_isIndent hbody.isIndent
    rw [List.cons_append, readOtherwise_otherwise (hbefore.symm ▸ hdrop), hbefore,
      readElseBody_of_eq_false hcolon]
    refine bind_eq_ok (hbody.append hafter.isIndent) ?_
    refine congrArg Except.ok (Prod.ext rfl ?_)
    simp only [List.length_append, List.length_cons]
    omega

/-! ## The whole condition -/

/-- The tokens of a condition, and what they stand for. -/
inductive ConditionTokens (cx : TreeContext) : List Token → Condition → Prop where
  | mk {negate : Bool} {source : String} {test : Expr} {body ts : List Token} {ns : List Node}
      {bs : List (Expr × List Node)} {last : Option (List Node)} (loc : Location)
      (htest : Expr.read source.toList = .ok test) (hbody : IsBlock cx body ns)
      (h : ElseTokens cx ts bs last) :
      ConditionTokens cx (⟨opening negate source, loc⟩ :: (body ++ (joint body ts ++ ts)))
        ⟨negate, test, ns, bs, last⟩

/-- A condition is one node with its branches in their order. -/
theorem ConditionTokens.read {cond : Condition} (h : ConditionTokens cx ts cond)
    (hafter : Over after) :
    ∃ t rest n, ts = t :: rest ∧ Node.read cx t (rest ++ after) = .ok ([n], rest.length) ∧
      Condition.ofNode? n = some cond := by
  obtain ⟨loc, htest, hbody, hmore⟩ := h
  rename_i negate source test body ts ns bs last
  obtain ⟨next, rfl, rfl, hread⟩ := hmore.read hafter
  refine ⟨_, _, .conditional loc negate test ns next, rfl, ?_, rfl⟩
  have hcond : readConditional cx loc negate source (body ++ (joint body ts ++ (ts ++ after))) =
      .ok ([.conditional loc negate test ns next], (body ++ (joint body ts ++ ts)).length) := by
    rw [readConditional]
    refine bind_eq_ok (expressionAt_of_read loc htest)
      (bind_eq_ok (hbody.append (hmore.isIndent_eq_false hafter body)) ?_)
    dsimp only
    rw [List.drop_left, hread body]
    refine congrArg Except.ok (Prod.ext rfl ?_)
    simp only [List.length_append]
  rw [List.append_assoc, List.append_assoc, opening]
  cases negate with
  | true => rw [if_pos rfl, Node.read, hcond]
  | false => rw [if_neg Bool.false_ne_true, Node.read, hcond]

end Reading

/-! ## Alone in a source or in a block -/

section Alone

variable {cx : TreeContext} {ts us : List Token} {cond : Condition}

theorem ConditionTokens.ne (h : ConditionTokens cx ts cond) {t : Token} {rest : List Token}
    (hts : ts = t :: rest) : t.kind ≠ .outdent ∧ t.kind ≠ .newline ∧ t.kind ≠ .eos := by
  obtain ⟨loc, -, -, -⟩ := h
  obtain ⟨rfl, -⟩ := List.cons.inj hts
  unfold opening
  split <;> simp

theorem ConditionTokens.document (h : ConditionTokens cx ts cond) (loc : Location) :
    ∃ n, readDocument cx (ts ++ [⟨.eos, loc⟩]) = .ok [n] ∧ Condition.ofNode? n = some cond := by
  have hover : Over [⟨.eos, loc⟩] := .single rfl nofun
  obtain ⟨t, rest, n, hts, hread, hn⟩ := h.read hover
  obtain ⟨-, hfeed, heos⟩ := h.ne hts
  refine ⟨n, ?_, hn⟩
  rw [hts, List.cons_append, readDocument_node hfeed heos]
  refine bind_eq_ok hread ?_
  dsimp only
  rw [List.drop_left, readDocument]
  rfl

theorem ConditionTokens.block (h : ConditionTokens cx ts cond) (width : Nat)
    (loc loc' : Location) :
    ∃ n, IsBlock cx (⟨.indent width, loc⟩ :: (ts ++ [⟨.outdent, loc'⟩])) [n] ∧
      Condition.ofNode? n = some cond := by
  have hover : Over [⟨.outdent, loc'⟩, ⟨.eos, .nowhere⟩] := .single rfl nofun
  obtain ⟨t, rest, n, hts, hread, hn⟩ := h.read hover
  obtain ⟨hout, hfeed, heos⟩ := h.ne hts
  refine ⟨n, ?_, hn⟩
  subst hts
  have hstream : ⟨.indent width, loc⟩ :: (t :: rest ++ [⟨.outdent, loc'⟩]) ++ [⟨.eos, .nowhere⟩] =
      ⟨.indent width, loc⟩ :: t :: (rest ++ [⟨.outdent, loc'⟩, ⟨.eos, .nowhere⟩]) := by simp
  rw [IsBlock, hstream, readOptionalBlock, readItems_node hout hfeed heos]
  refine bind_eq_ok (bind_eq_ok hread ?_) (b := ([n], _)) (a := ([n], rest.length + 1 + 1)) ?_
  · dsimp only
    rw [List.drop_left, readItems]
    rfl
  · simp [pure, Except.pure]

theorem length_le_of_padded {s : Spot} (h : Padded s ts us) : ts.length ≤ us.length := by
  induction h with
  | nil => exact Nat.le_refl 0
  | cons _ _ _ ih => exact Nat.succ_le_succ ih
  | pad _ _ _ _ ih => exact Nat.le_succ_of_le ih

/-- Where the tokens of a block stand has no part in it. -/
theorem IsBlock.congr {stop : Location} {inMixin : Bool} {ns : List Node}
    (h : IsBlock ⟨stop, inMixin, segmentsAt⟩ ts ns) (hk : SameKinds ts us) :
    ∃ ms, IsBlock ⟨stop, inMixin, segmentsAt⟩ us ms ∧ unplacedAll ms = unplacedAll ns := by
  have hkinds : SameKinds (ts ++ [⟨.eos, .nowhere⟩]) (us ++ [⟨.eos, .nowhere⟩]) :=
    hk.append (.refl _)
  have hcx := cutAlike_segmentsAt.alike stop stop inMixin
  obtain ⟨⟨ms, j⟩, hms, hsame, _, hrest, -⟩ :=
    answering_always.optionalBlock trivial hcx (.of_line (hkinds.padded .line)) _ h
  -- read the other way round, no more is left of the first stream than of the second one
  obtain ⟨r, hr, -, _, hback, -⟩ :=
    answering_always.optionalBlock trivial hcx (.of_line (hkinds.symm.padded .line)) _ hms
  cases h.symm.trans hr
  have hle := length_le_of_padded hrest
  have hge := length_le_of_padded hback
  simp only [List.length_drop, List.length_append, List.length_singleton] at hle hge
  obtain rfl : j = us.length := by omega
  exact ⟨ms, hms, hsame⟩

end Alone

end PugTemplate
