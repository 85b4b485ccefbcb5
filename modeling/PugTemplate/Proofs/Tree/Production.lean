import PugTemplate.Tree.Segment

/-!
# Induction over the productions of the reader

The readers of nodes, of blocks and of branches call each other, always with fewer tokens or with a
simpler production for the same ones. So a property of all of them is shown one production at a
time, given that it holds of all productions over fewer tokens. Texts are cut by reading the tags in
them, whose texts are cut in turn: what holds of a text if it does of those in its tags, holds of any.
Main statements: `Productions.Given.always`, `segmentsAt_of_pieces`.
-/

namespace PugTemplate

/-- Fewer tokens than `ts`, as any are behind the first of them. -/
def ShorterThan (ts us : List Token) : Prop :=
  us.length < ts.length

namespace ShorterThan

variable {t : Token} {k : Nat} {ts us : List Token}

theorem tail : ShorterThan (t :: ts) ts :=
  Nat.lt_succ_self _

theorem drop (h : ShorterThan ts us) : ShorterThan ts (us.drop k) :=
  Nat.lt_of_le_of_lt (List.drop_sublist k us).length_le h

theorem of_drop (h : ts.drop k = t :: us) : ShorterThan ts us :=
  length_lt_of_drop h

theorem cons (h : ShorterThan ts us) : ShorterThan (t :: ts) us :=
  Nat.lt_succ_of_lt h

end ShorterThan

/-- What is claimed of each production of the reader, at the arguments that it is called with. -/
structure Productions where
  optionalBlock (cx : TreeContext) (ts : List Token) : Prop
  inline (cx : TreeContext) (closable : Bool) (ts : List Token) : Prop
  branchBody (cx : TreeContext) (ts : List Token) : Prop
  branches (cx : TreeContext) (ts : List Token) : Prop
  elseBody (cx : TreeContext) (ts : List Token) : Prop
  otherwise (cx : TreeContext) (ts : List Token) : Prop
  element (cx : TreeContext) (loc : Location) (name : NameSource) (shown : String)
    (args : Option (List Expr)) (ts : List Token) : Prop
  conditional (cx : TreeContext) (loc : Location) (negate : Bool) (source : String)
    (ts : List Token) : Prop
  each (cx : TreeContext) (loc : Location) (value : String) (key : Option String)
    (source : String) (ts : List Token) : Prop
  node (cx : TreeContext) (t : Token) (rest : List Token) : Prop
  here (cx : TreeContext) (ts : List Token) : Prop
  items (cx : TreeContext) (ts : List Token) : Prop

namespace Productions

variable {P : Productions}

/-- Each production is as claimed over any tokens that `given` admits. -/
structure Given (P : Productions) (given : List Token → Prop) : Prop where
  optionalBlock {cx : TreeContext} {ts : List Token} : given ts → P.optionalBlock cx ts
  inline {cx : TreeContext} {closable : Bool} {ts : List Token} :
    given ts → P.inline cx closable ts
  branchBody {cx : TreeContext} {ts : List Token} : given ts → P.branchBody cx ts
  branches {cx : TreeContext} {ts : List Token} : given ts → P.branches cx ts
  elseBody {cx : TreeContext} {ts : List Token} : given ts → P.elseBody cx ts
  otherwise {cx : TreeContext} {ts : List Token} : given ts → P.otherwise cx ts
  element {cx : TreeContext} {loc : Location} {name : NameSource} {shown : String}
    {args : Option (List Expr)} {ts : List Token} :
    given ts → P.element cx loc name shown args ts
  conditional {cx : TreeContext} {loc : Location} {negate : Bool} {source : String}
    {ts : List Token} : given ts → P.conditional cx loc negate source ts
  each {cx : TreeContext} {loc : Location} {value : String} {key : Option String}
    {source : String} {ts : List Token} : given ts → P.each cx loc value key source ts
  node {cx : TreeContext} {t : Token} {rest : List Token} :
    given (t :: rest) → P.node cx t rest
  here {cx : TreeContext} {ts : List Token} : given ts → P.here cx ts
  items {cx : TreeContext} {ts : List Token} : given ts → P.items cx ts

/-- What a step of the induction starts from: the claims over fewer tokens than `ts`. -/
def Below (P : Productions) (ts : List Token) : Prop :=
  P.Given (ShorterThan ts)

theorem Given.mono {given given' : List Token → Prop} (h : P.Given given)
    (himp : ∀ ts, given' ts → given ts) : P.Given given' where
  optionalBlock hts := h.optionalBlock (himp _ hts)
  inline hts := h.inline (himp _ hts)
  branchBody hts := h.branchBody (himp _ hts)
  branches hts := h.branches (himp _ hts)
  elseBody hts := h.elseBody (himp _ hts)
  otherwise hts := h.otherwise (himp _ hts)
  element hts := h.element (himp _ hts)
  conditional hts := h.conditional (himp _ hts)
  each hts := h.each (himp _ hts)
  node hts := h.node (himp _ hts)
  here hts := h.here (himp _ hts)
  items hts := h.items (himp _ hts)

theorem Below.drop {ts : List Token} (ih : P.Below ts) (k : Nat) : P.Below (ts.drop k) :=
  Given.mono ih fun _ h => Nat.lt_of_lt_of_le h (List.drop_sublist k ts).length_le

/-- Claims of which each follows from those over fewer tokens hold. -/
theorem Given.always (step : P.Given P.Below) : P.Given fun _ => True := by
  -- the bound is a length: a step is taken at any tokens within it, with the claims of the one below
  have below (n : Nat) : P.Given (·.length < n) := by
    induction n with
    | zero => exact step.mono fun _ h => absurd h (Nat.not_lt_zero _)
    | succ n ih =>
      exact step.mono fun ts h => ih.mono fun _ hlt => Nat.lt_of_lt_of_le hlt (Nat.le_of_lt_succ h)
  exact step.mono fun ts _ => below ts.length

end Productions

/-- A property of texts and of the ways to cut them holds of all texts if it does wherever the texts
in tags are cut as it says. -/
theorem segmentsAt_of_pieces
    {motive : String → (Location → Except ParseError (List Segment)) → Prop}
    (hempty : ∀ raw, motive raw fun _ => return [])
    (hpieces : ∀ segments, (∀ inner, motive inner (segments inner)) → ∀ raw,
      motive raw fun loc => (Piece.split 0 raw.toList).mapM (segmentOf segments loc))
    (raw : String) : motive raw (segmentsAt raw) := by
  have hcut : segmentsAt raw = fun loc => (Piece.split 0 raw.toList).mapM (segmentOf
      (fun inner at_ =>
        if inner.toList.length < raw.toList.length then segmentsAt inner at_ else return []) loc) := by
    funext loc
    rw [segmentsAt]
  rw [hcut]
  refine hpieces _ (fun inner => ?_) raw
  by_cases hlt : inner.toList.length < raw.toList.length
  · simp only [if_pos hlt]
    exact segmentsAt_of_pieces hempty hpieces inner
  · simp only [if_neg hlt]
    exact hempty inner
termination_by raw.toList.length

end PugTemplate
