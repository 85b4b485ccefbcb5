import PugTemplate.Proofs.Lex.Shape
import PugTemplate.Proofs.Lex.Sign
import PugTemplate.Proofs.Tree.Part
import PugTemplate.Proofs.Tree.Production
import PugTemplate.Tree.Segment

/-!
# The constructs of a tree

A token that begins a construct stands for one node, and where the head of a tag has no name in front
of it, a node stands for a tag that no token names. Nothing else is added by reading, and nothing is
lost: walking through the tree, the constructs come in the order in which their tokens stand.
Main statement: `parse_constructs`.
-/

namespace PugTemplate

/-- What a node is, as far as a token says so. -/
inductive Construct where
  | tag (name : String)
  | computedTag
  | code
  | condition
  | switch
  | branch
  | each
  | loop
  | mixin
  | call
  | namedBlock
  | slot
  | yield
  | inherits
  | includes
  | filter
  | doctype
deriving DecidableEq, Repr

/-- The construct that a token begins. -/
def TokenKind.construct? : TokenKind → Option Construct
  | tag name => some (.tag name)
  | interpolation _ => some .computedTag
  | code _ _ _ | codeBlock => some .code
  | ifCond _ | unlessCond _ | elseIf _ => some .condition
  | switch _ => some .switch
  | when _ | defaultCase => some .branch
  | each _ _ _ | eachOf _ _ => some .each
  | loop _ => some .loop
  | mixin _ _ => some .mixin
  | call _ _ _ => some .call
  | block _ _ => some .namedBlock
  | slot => some .slot
  | yield => some .yield
  | inherits => some .inherits
  | includes _ => some .includes
  | filter _ => some .filter
  | doctype _ => some .doctype
  | _ => none

/-- The constructs that some tokens begin, and where. -/
def constructs (ts : List Token) : List (Construct × Location) :=
  ts.filterMap fun t => t.kind.construct?.map (·, t.loc)

/-- The construct that a tag or a call is; a call has arguments. -/
def NameSource.construct : NameSource → Option (List Expr) → Construct
  | .fixed name, none => .tag name
  | .computed _, none => .computedTag
  | _, some _ => .call

/-! ## Walking through a tree -/

mutual

/-- A node and all that stand inside it, in the order of the source; text is not entered. -/
def Node.walk : Node → List (Construct × Location)
  | .group _ body => walkAll body
  | .tag loc name _ _ _ body => (name.construct none, loc) :: walkAll body
  | .text .. | .comment .. => []
  | .output loc .. | .statements loc .. => [(.code, loc)]
  | .doctype loc _ => [(.doctype, loc)]
  | .conditional loc _ _ body next => (.condition, loc) :: (walkAll body ++ next.walk)
  | .switch loc _ branches => (.switch, loc) :: walkBranches branches
  | .each loc _ _ _ body ifEmpty => (.each, loc) :: (walkAll body ++ walkOption ifEmpty)
  | .loop loc _ body => (.loop, loc) :: walkAll body
  | .mixin loc _ _ body => (.mixin, loc) :: walkAll body
  | .call loc name args _ content => (name.construct (some args), loc) :: walkOption content
  | .slot loc => [(.slot, loc)]
  | .namedBlock loc _ _ body => (.namedBlock, loc) :: walkAll body
  | .includes loc _ content => (.includes, loc) :: walkAll content
  | .rawInclude loc .. => [(.includes, loc)]
  | .inherits loc _ => [(.inherits, loc)]
  | .yield loc => [(.yield, loc)]
  | .filter loc .. => [(.filter, loc)]

def walkAll : List Node → List (Construct × Location)
  | [] => []
  | n :: ns => n.walk ++ walkAll ns

/-- A further condition is one like the first. -/
def Otherwise.walk : Otherwise → List (Construct × Location)
  | .nothing => []
  | .elseIf loc _ body next => (.condition, loc) :: (walkAll body ++ next.walk)
  | .otherwise _ body => walkAll body

def walkBranches : List Branch → List (Construct × Location)
  | [] => []
  | .mk loc _ body :: bs => (.branch, loc) :: (walkOption body ++ walkBranches bs)

def walkOption : Option (List Node) → List (Construct × Location)
  | none => []
  | some ns => walkAll ns

end

theorem walkAll_append (ns ms : List Node) : walkAll (ns ++ ms) = walkAll ns ++ walkAll ms := by
  induction ns with
  | nil => rfl
  | cons n ns ih => rw [List.cons_append, walkAll, walkAll, ih, List.append_assoc]

theorem walkAll_singleton (n : Node) : walkAll [n] = n.walk := by
  rw [walkAll, walkAll, List.append_nil]

/-! ## Parts without constructs -/

theorem construct?_of_isPart {k : TokenKind} (h : k.isPart) : k.construct? = none := by
  cases k <;> simp_all [TokenKind.isPart, TokenKind.construct?]

/-- Parts of nodes begin no constructs. -/
theorem constructs_drop {ts : List Token} {k : Nat} (h : PartsUpTo ts k) :
    constructs (ts.drop k) = constructs ts := by
  have hnone : constructs (ts.take k) = [] :=
    List.filterMap_eq_nil_iff.mpr fun t ht => by rw [construct?_of_isPart (h t ht), Option.map_none]
  have happend : constructs ts = constructs (ts.take k) ++ constructs (ts.drop k) := by
    rw [constructs, constructs, constructs, ← List.filterMap_append, List.take_append_drop]
  rw [happend, hnone, List.nil_append]

/-- Some answer is only given with a property. -/
abbrev reading : Answering (Except ParseError) :=
  .ofExcept ParseError

section Answers

variable {α : Type} {p : α → Prop} {x : Except ParseError α}

theorem reading_error {e : ParseError} : reading.always (.error e : Except ParseError α) p :=
  fun _ h => nomatch h

theorem reading_any (x : Except ParseError α) : reading.always x fun _ => True :=
  fun _ _ => trivial

theorem reading_and {q : α → Prop} (hp : reading.always x p) (hq : reading.always x q) :
    reading.always x fun a => p a ∧ q a :=
  fun a ha => ⟨hp a ha, hq a ha⟩

theorem reading_of_blameless (h : blameless.always x p) : reading.always x p :=
  h.1

theorem reading_unexpected {stop : Location} {ts : List Token} {expected : Expectation} :
    reading.always (unexpected stop ts expected : Except ParseError α) p :=
  reading_of_blameless blameless_unexpected

end Answers

/-! ## Constructs that are named -/

/-- Which constructs some tokens name: those that begin one, but not the tag of a head without a name. -/
structure Tells (named : Construct × Location → Bool) (ts : List Token) : Prop where
  names : ∀ t ∈ ts, ∀ c, t.kind.construct? = some c → named (c, t.loc)
  hides : ∀ t ∈ ts, t.kind.opensHead → ¬ named (.tag "div", t.loc)

namespace Tells

variable {named : Construct × Location → Bool} {t : Token} {ts us : List Token}

theorem drop (h : Tells named ts) (k : Nat) : Tells named (ts.drop k) :=
  ⟨fun t ht => h.names t (List.mem_of_mem_drop ht), fun t ht => h.hides t (List.mem_of_mem_drop ht)⟩

theorem tail (h : Tells named (t :: ts)) : Tells named ts :=
  h.drop 1

theorem of_drop {k : Nat} (h : Tells named ts) (heq : ts.drop k = t :: us) :
    Tells named (t :: us) :=
  heq ▸ h.drop k

theorem head {c : Construct} (h : Tells named (t :: ts)) (hc : t.kind.construct? = some c) :
    named (c, t.loc) :=
  h.names t List.mem_cons_self c hc

end Tells

/-- Of what was read of some tokens, the named constructs are those of the tokens, in their order. -/
def Recounts (named : Construct × Location → Bool) (ts : List Token)
    (read : List (Construct × Location)) (rest : List Token) : Prop :=
  constructs ts = read.filter named ++ constructs rest

namespace Recounts

variable {named : Construct × Location → Bool} {t : Token} {ts us vs : List Token}
  {read more : List (Construct × Location)}

theorem nil (h : constructs us = constructs ts) : Recounts named ts [] us :=
  h.symm

theorem append (h : Recounts named ts read us) (h' : Recounts named us more vs) :
    Recounts named ts (read ++ more) vs := by
  rw [Recounts, List.filter_append, List.append_assoc, ← h', ← h]

/-- A token that begins a construct, and what was read behind it. -/
theorem cons {c : Construct} (hc : t.kind.construct? = some c) (hn : named (c, t.loc))
    (h : Recounts named ts read us) : Recounts named (t :: ts) ((c, t.loc) :: read) us := by
  have hcons : constructs (t :: ts) = (c, t.loc) :: constructs ts := by
    simp [constructs, hc]
  rw [Recounts, hcons, List.filter_cons_of_pos hn, List.cons_append, ← h]

/-- A token that begins none. -/
theorem skip (hc : t.kind.construct? = none) (h : Recounts named ts read us) :
    Recounts named (t :: ts) read us := by
  have hcons : constructs (t :: ts) = constructs ts := by
    simp [constructs, hc]
  rw [Recounts, hcons, ← h]

theorem cons_hidden {c : Construct × Location} (hn : ¬ named c) (h : Recounts named ts read us) :
    Recounts named ts (c :: read) us := by
  rw [Recounts, List.filter_cons_of_neg hn]
  exact h

theorem behind (h : Recounts named us read vs) (heq : constructs ts = constructs us) :
    Recounts named ts read vs :=
  heq.trans h

/-- What was read from a token on that stands behind some others without constructs. -/
theorem of_drop {k n : Nat} (heq : ts.drop k = t :: us) (hskip : constructs (ts.drop k) = constructs ts)
    (h : Recounts named (t :: us) read (us.drop n)) : Recounts named ts read (ts.drop (k + 1 + n)) := by
  rw [Nat.add_assoc, ← List.drop_drop, heq, Nat.add_comm, List.drop_succ_cons]
  exact h.behind (hskip.symm.trans (congrArg constructs heq))

end Recounts

/-! ## Reading -/

section Reading

variable {named : Construct × Location → Bool} {stop loc : Location} {ts : List Token}

theorem recounts_code (source : String) (buffered escape : Bool) :
    reading.always (Node.ofCode source buffered escape loc) fun n => n.walk = [(.code, loc)] := by
  refine reading.mono (reading_of_blameless (parts_ofCode _ _ _)) fun n hn => ?_
  obtain ⟨_, rfl⟩ | ⟨_, rfl⟩ := hn <;> rfl

theorem recounts_codeBlock :
    reading.always (readCodeBlock stop loc ts) fun r =>
      walkAll r.1 = [(.code, loc)] ∧ constructs (ts.drop r.2) = constructs ts := by
  refine reading.mono (reading_of_blameless parts_codeBlock) fun r ⟨⟨list, hnode⟩, hparts⟩ => ?_
  exact ⟨hnode ▸ rfl, constructs_drop hparts⟩

theorem recounts_comment (text : String) (buffered : Bool) :
    reading.always (readComment stop text buffered loc ts) fun r =>
      r.1.walk = [] ∧ constructs (ts.drop r.2) = constructs ts := by
  refine reading.mono (reading_of_blameless (parts_comment _ _)) fun r ⟨⟨body, hnode⟩, hparts⟩ => ?_
  exact ⟨hnode ▸ rfl, constructs_drop hparts⟩

theorem recounts_path :
    reading.always (readPath stop ts) fun _ => constructs (ts.drop 1) = constructs ts :=
  reading.mono (reading_of_blameless parts_path) fun _ h => constructs_drop h

theorem recounts_filter (name : String) :
    reading.always (readFilter stop name loc ts) fun r =>
      walkAll r.1 = [(.filter, loc)] ∧ constructs (ts.drop r.2) = constructs ts := by
  refine reading.mono (reading_of_blameless (parts_filter name)) fun r hr => ?_
  obtain ⟨⟨as, text, hnode⟩, hparts⟩ := hr
  exact ⟨hnode ▸ rfl, constructs_drop hparts⟩

theorem recounts_textNode (cx : TreeContext) (raw : String) :
    reading.always (cx.textNode raw loc) fun n => n.walk = [] :=
  reading.bind (reading_any _) fun _ _ => reading.pure rfl

theorem recounts_textBody (cx : TreeContext) :
    reading.always (cx.textBody ts) fun r =>
      walkAll r.1 = [] ∧ constructs (ts.drop r.2) = constructs ts := by
  unfold TreeContext.textBody
  split
  · refine reading.bind (reading_of_blameless parts_pipelessBody) fun _ h => ?_
    exact reading.bind (recounts_textNode cx _) fun n hn =>
      reading.pure ⟨(walkAll_singleton n).trans hn, constructs_drop (h.1.succ rfl)⟩
  · exact reading.pure ⟨rfl, rfl⟩

/-- A tag or a call around what was read. -/
theorem recounts_closed {name : NameSource} {head : Head} {selfClosing textOnly : Bool}
    {body : List Node} {e : ParseError} {args : Option (List Expr)} {n : Nat} :
    reading.always (if selfClosing ∧ body ≠ [] then .error e
      else match args with
        | none => pure (Node.tag loc name head selfClosing textOnly body, n)
        | some args =>
          pure (Node.call loc name args head (if body = [] then none else some body), n))
      fun r => r.1.walk = (name.construct args, loc) :: walkAll body ∧ r.2 = n := by
  split
  · exact reading_error
  · split
    · exact reading.pure ⟨by rw [Node.walk], rfl⟩
    · refine reading.pure ⟨?_, rfl⟩
      rw [Node.walk]
      split
      next h => rw [h, walkOption, walkAll]
      next => rfl

end Reading

/-- Each production reads a node for every construct whose token it takes from the stream. -/
def recounting (named : Construct × Location → Bool) : Productions where
  optionalBlock cx ts := Tells named ts → reading.always (readOptionalBlock cx ts) fun r =>
    Recounts named ts (walkAll r.1) (ts.drop r.2)
  inline cx closable ts := Tells named ts → reading.always (readInline cx closable ts) fun r =>
    Recounts named ts (walkAll r.1) (ts.drop r.2.2)
  branchBody cx ts := Tells named ts → reading.always (readBranchBody cx ts) fun r =>
    Recounts named ts (walkOption r.1) (ts.drop r.2)
  branches cx ts := Tells named ts → reading.always (readBranches cx ts) fun r =>
    Recounts named ts (walkBranches r.1) (ts.drop r.2)
  elseBody cx ts := Tells named ts → reading.always (readElseBody cx ts) fun r =>
    Recounts named ts (walkAll r.1) (ts.drop r.2)
  otherwise cx ts := Tells named ts → reading.always (readOtherwise cx ts) fun r =>
    Recounts named ts r.1.walk (ts.drop r.2)
  element cx loc name shown args ts := Tells named ts →
    reading.always (readElement cx loc name shown ts args) fun r =>
      ∃ inner, r.1.walk = (name.construct args, loc) :: inner ∧
        Recounts named ts inner (ts.drop r.2) ∧ (ts.head?.any (·.kind.opensHead) → 0 < r.2)
  conditional cx loc negate source ts := Tells named ts →
    reading.always (readConditional cx loc negate source ts) fun r =>
      ∃ inner, walkAll r.1 = (.condition, loc) :: inner ∧ Recounts named ts inner (ts.drop r.2)
  each cx loc value key source ts := Tells named ts →
    reading.always (readEach cx loc value key source ts) fun r =>
      ∃ inner, walkAll r.1 = (.each, loc) :: inner ∧ Recounts named ts inner (ts.drop r.2)
  node cx t rest := Tells named (t :: rest) → reading.always (Node.read cx t rest) fun r =>
    Recounts named (t :: rest) (walkAll r.1) (rest.drop r.2)
  here cx ts := Tells named ts → reading.always (Node.readHere cx ts) fun r =>
    Recounts named ts (walkAll r.1) (ts.drop r.2)
  items cx ts := Tells named ts → reading.always (readItems cx ts) fun r =>
    Recounts named ts (walkAll r.1) (ts.drop r.2)

section Steps

variable {named : Construct × Location → Bool} {cx : TreeContext} {loc : Location}
  {name : NameSource} {shown source value : String} {args : Option (List Expr)}
  {key : Option String} {closable negate : Bool} {t : Token} {rest ts : List Token}

theorem recounts_optionalBlock (ih : (recounting named).Below ts) :
    (recounting named).optionalBlock cx ts := by
  intro h
  unfold readOptionalBlock
  split
  next => exact reading.bind (ih.items .tail h.tail) fun _ hr => reading.pure (hr.skip rfl)
  next => exact reading.pure (.nil rfl)

theorem recounts_inline (ih : (recounting named).Below ts) :
    (recounting named).inline cx closable ts := by
  intro h
  unfold readInline
  split
  next =>
    refine reading.bind (recounts_textNode cx _) fun n hn => reading.pure ?_
    rw [walkAll_singleton, hn]
    exact .nil (constructs_drop (parts_textRun false))
  next =>
    refine reading.bind (recounts_code _ _ _) fun n hn => reading.pure ?_
    rw [walkAll_singleton, hn]
    exact (Recounts.nil rfl).cons rfl (h.head rfl)
  next => exact reading.bind (ih.here .tail h.tail) fun _ hr => reading.pure (hr.skip rfl)
  next =>
    split
    · exact reading.pure ((Recounts.nil rfl).skip rfl)
    · exact reading_unexpected
  all_goals first | exact reading.pure (.nil rfl) | exact reading_unexpected

theorem recounts_branchBody (ih : (recounting named).Below ts) :
    (recounting named).branchBody cx ts := by
  intro h
  unfold readBranchBody
  split
  next => exact reading.bind (ih.here .tail h.tail) fun _ hr => reading.pure (hr.skip rfl)
  next => exact reading.bind (ih.items .tail h.tail) fun _ hr => reading.pure (hr.skip rfl)
  next => exact reading.pure (.nil rfl)

theorem recounts_branches (ih : (recounting named).Below ts) :
    (recounting named).branches cx ts := by
  intro h
  unfold readBranches
  split
  next => exact reading.pure ((Recounts.nil rfl).skip rfl)
  next => exact reading.bind (ih.branches .tail h.tail) fun _ hr => reading.pure (hr.skip rfl)
  next =>
    refine reading.bind (recounts_comment _ _) fun r hr => ?_
    refine reading.bind (ih.branches (.drop .tail) (h.tail.drop r.2)) fun q hq => reading.pure ?_
    rw [List.drop_drop] at hq
    exact (hq.behind hr.2.symm).skip rfl
  next =>
    refine reading.bind (reading_any _) fun test _ => ?_
    refine reading.bind (ih.branchBody .tail h.tail) fun r hr => ?_
    refine reading.bind (ih.branches (.drop .tail) (h.tail.drop r.2)) fun q hq => reading.pure ?_
    rw [List.drop_drop] at hq
    exact (hr.append hq).cons rfl (h.head rfl)
  next =>
    refine reading.bind (ih.branchBody .tail h.tail) fun r hr => ?_
    refine reading.bind (ih.branches (.drop .tail) (h.tail.drop r.2)) fun q hq => reading.pure ?_
    rw [List.drop_drop] at hq
    exact (hr.append hq).cons rfl (h.head rfl)
  next => exact reading_unexpected

theorem recounts_elseBody (ih : (recounting named).Below ts) :
    (recounting named).elseBody cx ts := by
  intro h
  unfold readElseBody
  split
  next => exact reading.bind (ih.here .tail h.tail) fun _ hr => reading.pure (hr.skip rfl)
  next => exact recounts_optionalBlock ih h

theorem recounts_otherwise (ih : (recounting named).Below ts) :
    (recounting named).otherwise cx ts := by
  intro h
  -- the line end in front of a branch makes no node
  have hskip : constructs (ts.drop (beforeElse true ts)) = constructs ts :=
    constructs_drop (parts_beforeElse true)
  unfold readOtherwise
  dsimp only
  split
  next heq =>
    have htells := h.of_drop heq
    refine reading.bind (reading_any _) fun test _ => ?_
    refine reading.bind (ih.optionalBlock (.of_drop heq) htells.tail) fun r hr => ?_
    refine reading.bind (ih.otherwise (.drop (.of_drop heq)) (htells.tail.drop r.2)) fun q hq =>
      reading.pure ?_
    rw [List.drop_drop] at hq
    rw [Nat.add_assoc _ r.2]
    exact ((hr.append hq).cons rfl (htells.head rfl)).of_drop heq hskip
  next => exact reading_error
  next heq =>
    exact reading.bind (ih.elseBody (.of_drop heq) (h.of_drop heq).tail) fun _ hr =>
      reading.pure ((hr.skip rfl).of_drop heq hskip)
  next => exact reading.pure (.nil rfl)

theorem recounts_element (ih : (recounting named).Below ts) :
    (recounting named).element cx loc name shown args ts := by
  intro h
  unfold readElement
  refine reading.bind (reading_of_blameless (parts_head {})) ?_
  rintro ⟨head, k⟩ ⟨hparts, hpos⟩
  have hk := constructs_drop hparts
  dsimp only at hk hpos ⊢
  -- the dot behind a head counts for nothing, so both ways of going on begin with the same tokens
  obtain ⟨j, hj, hle, hbehind⟩ : ∃ j,
      j = (if (ts.drop k).head?.any (fun t => t.kind == .dot) then k + 1 else k) ∧ k ≤ j ∧
        constructs (ts.drop j) = constructs ts := by
    refine ⟨_, rfl, by split <;> omega, ?_⟩
    split
    next hdot =>
      rw [← hk, ← List.drop_drop]
      exact constructs_drop (parts_dot hdot)
    next => exact hk
  rw [← hj]
  refine reading.bind (recounts_inline (ih.drop _) (h.drop j)) ?_
  rintro ⟨inline, selfClosing, m⟩ hm
  dsimp only at hm ⊢
  rw [List.drop_drop] at hm
  have hend (below : List Node) (n : Nat)
      (hn : Recounts named (ts.drop (j + m)) (walkAll below) (ts.drop (j + m + n))) :
      Recounts named ts (walkAll (inline ++ below)) (ts.drop (j + m + n)) ∧
        (ts.head?.any (·.kind.opensHead) → 0 < j + m + n) := by
    rw [walkAll_append]
    exact ⟨(hm.append hn).behind hbehind.symm, fun hopens => by have := hpos hopens; omega⟩
  split
  · refine reading.bind (recounts_textBody cx) ?_
    rintro ⟨below, n⟩ hn
    refine reading.mono recounts_closed fun r hr => ⟨_, hr.1, hr.2 ▸ hend below n ?_⟩
    rw [hn.1]
    rw [List.drop_drop] at hn
    exact .nil hn.2
  · refine reading.bind (recounts_optionalBlock (ih.drop _) (h.drop _)) ?_
    rintro ⟨below, n⟩ hn
    refine reading.mono recounts_closed fun r hr => ⟨_, hr.1, hr.2 ▸ hend below n ?_⟩
    rwa [List.drop_drop] at hn

theorem recounts_conditional (ih : (recounting named).Below ts) :
    (recounting named).conditional cx loc negate source ts := by
  intro h
  unfold readConditional
  refine reading.bind (reading_any _) fun test _ => ?_
  refine reading.bind (recounts_optionalBlock ih h) fun r hr => ?_
  refine reading.bind (recounts_otherwise (ih.drop _) (h.drop r.2)) fun q hq => reading.pure ?_
  rw [List.drop_drop] at hq
  refine ⟨walkAll r.1 ++ q.1.walk, ?_, hr.append hq⟩
  rw [walkAll_singleton, Node.walk]

theorem recounts_each (ih : (recounting named).Below ts) :
    (recounting named).each cx loc value key source ts := by
  intro h
  unfold readEach
  refine reading.bind (reading_any _) fun e _ => ?_
  refine reading.bind (recounts_optionalBlock ih h) ?_
  rintro ⟨body, k⟩ hk
  dsimp only at hk ⊢
  split
  next => exact reading_error
  next heq =>
    have hfrom : (ts.drop k).drop (beforeElse false (ts.drop k)) = _ := List.drop_drop.trans heq
    refine reading.bind (ih.elseBody (.of_drop heq) (h.of_drop heq).tail) fun r hr =>
      reading.pure ?_
    refine ⟨walkAll body ++ walkAll r.1, ?_, hk.append ?_⟩
    · rw [walkAll_singleton, Node.walk, walkOption]
    · have hmore := (hr.skip rfl).of_drop hfrom (constructs_drop (parts_beforeElse false))
      rwa [List.drop_drop, ← Nat.add_assoc, ← Nat.add_assoc] at hmore
  next =>
    refine reading.pure ⟨walkAll body, ?_, hk⟩
    rw [walkAll_singleton, Node.walk, walkOption, List.append_nil]

theorem recounts_node (ih : (recounting named).Below (t :: rest)) :
    (recounting named).node cx t rest := by
  intro h
  match t, h with
  | ⟨.tag name, loc⟩, h =>
    rw [Node.read]
    refine reading.bind (ih.element .tail h.tail) fun r hr => ?_
    obtain ⟨inner, hwalk, hr, -⟩ := hr
    refine reading.pure ?_
    rw [walkAll_singleton, hwalk]
    exact hr.cons rfl (h.head rfl)
  | ⟨.id _, loc⟩, h | ⟨.className _, loc⟩, h | ⟨.attributesStart, loc⟩, h =>
    rw [Node.read]
    refine reading.bind (recounts_element ih h) fun r hr => ?_
    obtain ⟨inner, hwalk, hr, hpos⟩ := hr
    obtain ⟨k, hk⟩ := Nat.exists_eq_succ_of_ne_zero (Nat.ne_of_gt (hpos rfl))
    refine reading.pure ?_
    rw [walkAll_singleton, hwalk]
    rw [hk] at hr ⊢
    have hhidden : ¬ named ((NameSource.fixed "div").construct none, loc) :=
      h.hides _ List.mem_cons_self rfl
    exact hr.cons_hidden hhidden
  | ⟨.interpolation source, loc⟩, h =>
    rw [Node.read]
    refine reading.bind (reading_any _) fun e _ => ?_
    refine reading.bind (ih.element .tail h.tail) fun r hr => ?_
    obtain ⟨inner, hwalk, hr, -⟩ := hr
    refine reading.pure ?_
    rw [walkAll_singleton, hwalk]
    exact hr.cons rfl (h.head rfl)
  | ⟨.text _, _⟩, h =>
    rw [Node.read]
    refine reading.bind (recounts_textNode cx _) fun n hn => reading.pure ?_
    rw [walkAll_singleton, hn]
    exact (Recounts.nil (constructs_drop (parts_textRun true))).skip rfl
  | ⟨.html _, _⟩, h =>
    rw [Node.read]
    refine reading.bind (recounts_textNode cx _) fun n hn => ?_
    refine reading.bind (ih.optionalBlock (.drop .tail) (h.tail.drop _)) fun r hr => reading.pure ?_
    rw [walkAll, hn, List.nil_append]
    rw [List.drop_drop] at hr
    exact (hr.behind (constructs_drop parts_htmlRun).symm).skip rfl
  | ⟨.comment text buffered, loc⟩, h =>
    rw [Node.read]
    refine reading.bind (recounts_comment text buffered) fun r hr => reading.pure ?_
    rw [walkAll_singleton, hr.1]
    exact (Recounts.nil hr.2).skip rfl
  | ⟨.doctype _, _⟩, h | ⟨.yield, _⟩, h =>
    rw [Node.read]
    exact reading.pure ((Recounts.nil rfl).cons rfl (h.head rfl))
  | ⟨.code source buffered escape, loc⟩, h =>
    rw [Node.read]
    refine reading.bind (recounts_code source buffered escape) fun n hn => ?_
    split
    · exact reading_error
    · refine reading.pure ?_
      rw [walkAll_singleton, hn]
      exact (Recounts.nil rfl).cons rfl (h.head rfl)
  | ⟨.codeBlock, loc⟩, h =>
    rw [Node.read]
    refine reading.mono recounts_codeBlock fun r hr => ?_
    rw [hr.1]
    exact (Recounts.nil hr.2).cons rfl (h.head rfl)
  | ⟨.ifCond source, loc⟩, h | ⟨.unlessCond source, loc⟩, h =>
    rw [Node.read]
    refine reading.mono (ih.conditional .tail h.tail) fun r hr => ?_
    obtain ⟨inner, hwalk, hr⟩ := hr
    rw [hwalk]
    exact hr.cons rfl (h.head rfl)
  | ⟨.switch _, loc⟩, h =>
    rw [Node.read]
    refine reading.bind (reading_any _) fun subject _ => ?_
    have hrest := h.tail
    split
    · refine reading.bind (ih.branches (.cons .tail) hrest.tail) fun r hr => reading.pure ?_
      rw [walkAll_singleton, Node.walk]
      exact (hr.skip rfl).cons rfl (h.head rfl)
    · exact reading.pure ((Recounts.nil rfl).cons rfl (h.head rfl))
  | ⟨.each _ _ _, _⟩, h | ⟨.eachOf _ _, _⟩, h =>
    rw [Node.read]
    refine reading.mono (ih.each .tail h.tail) fun r hr => ?_
    obtain ⟨inner, hwalk, hr⟩ := hr
    rw [hwalk]
    exact hr.cons rfl (h.head rfl)
  | ⟨.loop _, loc⟩, h =>
    rw [Node.read]
    refine reading.bind (reading_any _) fun _ _ => ?_
    refine reading.bind (ih.optionalBlock .tail h.tail) fun r hr => reading.pure ?_
    rw [walkAll_singleton, Node.walk]
    exact hr.cons rfl (h.head rfl)
  | ⟨.mixin _ _, loc⟩, h =>
    rw [Node.read]
    refine reading.bind (reading_any _) fun _ _ => ?_
    refine reading.bind (ih.optionalBlock .tail h.tail) fun r hr => reading.pure ?_
    rw [walkAll_singleton, Node.walk]
    exact hr.cons rfl (h.head rfl)
  | ⟨.call _ _ _, loc⟩, h =>
    rw [Node.read]
    refine reading.bind (reading_any _) fun name _ => reading.bind (reading_any _) fun args _ => ?_
    refine reading.bind (ih.element .tail h.tail) fun r hr => ?_
    obtain ⟨inner, hwalk, hr, -⟩ := hr
    refine reading.pure ?_
    rw [walkAll_singleton, hwalk, NameSource.construct]
    exact hr.cons rfl (h.head rfl)
  | ⟨.block _ _, loc⟩, h =>
    rw [Node.read]
    refine reading.bind (ih.optionalBlock .tail h.tail) fun r hr => reading.pure ?_
    rw [walkAll_singleton, Node.walk]
    exact hr.cons rfl (h.head rfl)
  | ⟨.slot, _⟩, h =>
    rw [Node.read]
    split
    · exact reading.pure ((Recounts.nil rfl).cons rfl (h.head rfl))
    · exact reading_error
  | ⟨.inherits, _⟩, h =>
    rw [Node.read]
    exact reading.bind recounts_path fun _ hpath =>
      reading.pure ((Recounts.nil hpath).cons rfl (h.head rfl))
  | ⟨.includes _, _⟩, h =>
    rw [Node.read]
    refine reading.bind recounts_path fun _ hpath => ?_
    split
    · exact reading.pure ((Recounts.nil hpath).cons rfl (h.head rfl))
    · rw [← List.drop_one]
      refine reading.bind (ih.optionalBlock (.drop .tail) (h.tail.drop 1)) fun r hr => ?_
      refine reading.pure ?_
      rw [List.drop_drop, Nat.add_comm] at hr
      rw [walkAll_singleton, Node.walk]
      exact (hr.behind hpath.symm).cons rfl (h.head rfl)
  | ⟨.filter name, loc⟩, h =>
    rw [Node.read]
    refine reading.mono (recounts_filter name) fun r hr => ?_
    rw [hr.1]
    exact (Recounts.nil hr.2).cons rfl (h.head rfl)
  | ⟨.otherwise _, _⟩, _ | ⟨.elseIf _, _⟩, _ =>
    rw [Node.read]
    exact reading_error
  | ⟨.attr _ _ _, _⟩, h | ⟨.attributesEnd, _⟩, h | ⟨.spread _, _⟩, h | ⟨.when _, _⟩, h
  | ⟨.defaultCase, _⟩, h | ⟨.path _, _⟩, h | ⟨.indent _, _⟩, h | ⟨.outdent, _⟩, h
  | ⟨.newline, _⟩, h | ⟨.eos, _⟩, h | ⟨.pipelessStart, _⟩, h | ⟨.pipelessEnd, _⟩, h
  | ⟨.slash, _⟩, h | ⟨.colon, _⟩, h | ⟨.dot, _⟩, h =>
    rw [Node.read]
    · exact reading_unexpected
    all_goals simp

theorem recounts_here (ih : (recounting named).Below ts) :
    (recounting named).here cx ts := by
  intro h
  unfold Node.readHere
  split
  · exact reading_unexpected
  · exact reading.bind (recounts_node ih h) fun _ hr => reading.pure hr

theorem recounts_items (ih : (recounting named).Below ts) :
    (recounting named).items cx ts := by
  intro h
  unfold readItems
  split
  next => exact reading.pure ((Recounts.nil rfl).skip rfl)
  next => exact reading.bind (ih.items .tail h.tail) fun _ hr => reading.pure (hr.skip rfl)
  next => exact reading_unexpected
  next => exact reading_unexpected
  next t rest _ _ _ =>
    refine reading.bind (recounts_node ih h) fun r hr => ?_
    refine reading.bind (ih.items (.drop .tail) (h.tail.drop r.2)) fun q hq => reading.pure ?_
    rw [List.drop_drop] at hq
    rw [walkAll_append]
    exact hr.append hq

end Steps

theorem recounting_always (named : Construct × Location → Bool) :
    (recounting named).Given fun _ => True :=
  Productions.Given.always
    { optionalBlock := recounts_optionalBlock
      inline := recounts_inline
      branchBody := recounts_branchBody
      branches := recounts_branches
      elseBody := recounts_elseBody
      otherwise := recounts_otherwise
      element := recounts_element
      conditional := recounts_conditional
      each := recounts_each
      node := recounts_node
      here := recounts_here
      items := recounts_items }

/-- Nothing stands behind the end of a stream. -/
theorem Closes.nil_of_eos {ws : List Nat} {ts us : List Token} {loc : Location} (h : Closes ws ts)
    (hus : ⟨.eos, loc⟩ :: us <:+ ts) : us = [] := by
  obtain ⟨before, at_, rfl, hbefore⟩ := h.eosLast
  obtain ⟨first, heq⟩ := hus
  rcases List.append_eq_append_iff.mp heq with ⟨between, rfl, hlast⟩ | ⟨between, -, hlast⟩
  · cases between with
    | nil => exact (List.cons_eq_cons.mp hlast).2
    | cons t between =>
      obtain ⟨rfl, -⟩ := List.cons_eq_cons.mp hlast
      exact absurd rfl (hbefore ⟨.eos, loc⟩ (List.mem_append_right _ List.mem_cons_self))
  · have hlen := congrArg List.length hlast
    simp only [List.length_append, List.length_cons, List.length_nil] at hlen
    exact List.eq_nil_of_length_eq_zero (by omega)

/-- A stream ends where its reading does. -/
theorem recounts_document {cx : TreeContext} {named : Construct × Location → Bool}
    {ts : List Token} (h : Tells named ts)
    (hlast : ∀ loc us, ⟨.eos, loc⟩ :: us <:+ ts → us = []) :
    reading.always (readDocument cx ts) fun ns => constructs ts = (walkAll ns).filter named := by
  fun_induction readDocument cx ts
  case case1 => exact reading.pure rfl
  case case2 rest =>
    obtain rfl := hlast _ rest List.suffix_rfl
    exact reading.pure rfl
  case case3 ih =>
    exact ih h.tail fun loc us hus => hlast loc us (hus.trans (List.suffix_cons _ _))
  case case4 ih =>
    refine reading.bind ((recounting_always named).node trivial h) fun r hr => ?_
    have hrest := ih r.2 (h.tail.drop r.2) fun loc us hus =>
      hlast loc us ((hus.trans (List.drop_suffix _ _)).trans (List.suffix_cons _ _))
    refine reading.bind hrest fun ns hns => reading.pure ?_
    rw [walkAll_append, List.filter_append, ← hns]
    exact hr

/-! ## Heads without a name -/

/-- Where a head begins, no word does. -/
theorem exists_opening {c d : Cursor} {tokens : List Token} (htrail : Cursor.Trail c tokens d)
    (hsigned : ∀ t ∈ tokens, t.kind.endsLine ∨ ∃ m, c.Reaches m ∧ t.SignedFrom m) {t : Token}
    (ht : t ∈ tokens) (hopens : t.kind.opensHead) :
    ∃ m, c.Reaches m ∧ t.loc = m.loc ∧ ¬ m.rest.head?.any isWord := by
  have hmark {m : Cursor} {mark : Char} {cs : List Char} (hword : isWord mark = false)
      (h : mark :: cs <+: m.rest) : ¬ m.rest.head?.any isWord := by
    obtain ⟨rest, hrest⟩ := h
    simp [← hrest, hword]
  obtain ⟨m, hm, hloc, ⟨lead, hlead, hbegins⟩, -⟩ := htrail.exists_reaches ht
  obtain ⟨kind, loc⟩ := t
  cases kind with
  | id name =>
    obtain rfl := List.mem_singleton.mp hlead
    exact ⟨m, hm, hloc, hmark rfl hbegins⟩
  | className name =>
    obtain rfl := List.mem_singleton.mp hlead
    exact ⟨m, hm, hloc, hmark rfl hbegins⟩
  | attributesStart =>
    obtain hends | ⟨n, hn, k, hk, hplace, hs⟩ := hsigned _ ht
    · exact nomatch hends
    obtain ⟨cs, hcs⟩ := Cursor.rest_of_startsWith (a := '(') rfl hs
    have hmarked : '(' :: cs <+: k.rest := hcs ▸ List.prefix_rfl
    exact ⟨k, hn.trans hk, hplace, hmark rfl hmarked⟩
  | _ => exact nomatch hopens

/-- The name of a tag and a head without one never stand at one place. -/
theorem tag_loc_ne {source name : String} {tokens : List Token} (h : lex source = .ok tokens)
    {t u : Token} (ht : t ∈ tokens) (hu : u ∈ tokens) (hname : t.kind = .tag name)
    (hopens : u.kind.opensHead) : t.loc ≠ u.loc := by
  have htrail := (reads_lex source).of_ok h
  have hstart := Layout.reaches_skipLeading ⟨normalize source.toList, .start⟩
  have hsigned : ∀ t ∈ tokens, t.kind.endsLine ∨
      ∃ m, (⟨normalize source.toList, .start⟩ : Cursor).Reaches m ∧ t.SignedFrom m := by
    rw [lex, lexAt, normalizeText, String.toList_ofList] at h
    intro t ht
    obtain hends | ⟨m, hm, hsign⟩ := Layout.signed_tokens h t ht
    · exact .inl hends
    · exact .inr ⟨m, hstart.trans hm, hsign⟩
  obtain ⟨n, hn, hloc, hword⟩ := exists_opening htrail hsigned hu hopens
  obtain hends | ⟨m, hm, hsign⟩ := hsigned t ht
  · rw [hname] at hends
    cases hends
  rw [Token.SignedFrom, hname] at hsign
  intro heq
  rw [Cursor.rest_eq_of_loc_eq hn hm (hloc.symm.trans (heq.symm.trans hsign.1))] at hword
  exact hword hsign.2

/-- A tag that some tokens do not name: the head of a `div` begins where it stands. -/
def isUnnamed (ts : List Token) (c : Construct × Location) : Bool :=
  c.1 == .tag "div" && ts.any fun t => t.kind.opensHead && t.loc == c.2

theorem eq_tag_of_isUnnamed {ts : List Token} {c : Construct × Location} (h : isUnnamed ts c) :
    c.1 = .tag "div" ∧ ∃ t ∈ ts, t.kind.opensHead ∧ t.loc = c.2 := by
  simpa [isUnnamed] using h

/-- Where a construct stands. -/
def placesOf (c : Construct) (cs : List (Construct × Location)) : List Location :=
  (cs.filter (·.1 == c)).map Prod.snd

/-- The tree of a source has the constructs that the tokens begin, each once and in their order, and
besides only the tags that no token names. -/
theorem parse_constructs {source : String} {p : CommentPolicy} {tokens kept : List Token}
    {nodes : List Node} (hlex : lex source = .ok tokens) (hstrip : p.strip tokens = .ok kept)
    (hparse : parseTokens kept = .ok nodes) :
    constructs kept = (walkAll nodes).filter (fun c => !isUnnamed kept c) ∧
      ∀ c : Construct, (∀ name, c ≠ .tag name) →
        placesOf c (constructs kept) = placesOf c (walkAll nodes) := by
  obtain ⟨_, hkept, hstream⟩ := CommentPolicy.exists_strip (p := p) (stream_of_lex hlex)
  obtain rfl := Except.ok.inj (hstrip.symm.trans hkept)
  have hsub := CommentPolicy.strip_sublist hstrip
  have htells : Tells (fun c => !isUnnamed kept c) kept := by
    refine ⟨fun t ht c hc => ?_, fun t ht hopens => ?_⟩
    · refine Bool.not_eq_true' _ ▸ Bool.eq_false_iff.mpr fun hunnamed => ?_
      obtain ⟨heq, u, hu, hopens, hloc⟩ := eq_tag_of_isUnnamed hunnamed
      obtain rfl : c = .tag "div" := heq
      have hname : t.kind = .tag "div" := by
        obtain ⟨kind, loc⟩ := t
        cases kind <;> simp_all [TokenKind.construct?]
      exact tag_loc_ne hlex (hsub.subset ht) (hsub.subset hu) hname hopens hloc.symm
    · have hany : kept.any fun u => u.kind.opensHead && u.loc == t.loc :=
        List.any_eq_true.mpr ⟨t, ht, by simp [hopens]⟩
      simp [isUnnamed, hany]
  have hlast loc us (hus : ⟨.eos, loc⟩ :: us <:+ kept) : us = [] := hstream.closes.nil_of_eos hus
  have hall := recounts_document htells hlast nodes hparse
  refine ⟨hall, fun c hc => ?_⟩
  rw [hall, placesOf, placesOf, List.filter_filter]
  refine congrArg _ (List.filter_congr fun d _ => ?_)
  by_cases hd : d.1 = c
  · have hnamed : isUnnamed kept d = false :=
      Bool.eq_false_iff.mpr fun h => hc "div" (hd.symm.trans (eq_tag_of_isUnnamed h).1)
    rw [hnamed, Bool.not_false, Bool.and_true]
  · rw [beq_false_of_ne hd, Bool.false_and]

namespace ConstructsSource

def source : String := "#a: p\n  block c\n    br\nyield"

/-- A tag without a name around one with a name, and a block with its default. -/
def tokens : List Token :=
  [⟨.id "a", ⟨1, 1⟩⟩, ⟨.colon, ⟨1, 3⟩⟩, ⟨.tag "p", ⟨1, 5⟩⟩, ⟨.indent 2, ⟨2, 3⟩⟩,
    ⟨.block "c" .replace, ⟨2, 3⟩⟩, ⟨.indent 4, ⟨3, 5⟩⟩, ⟨.tag "br", ⟨3, 5⟩⟩, ⟨.outdent, ⟨4, 1⟩⟩,
    ⟨.outdent, ⟨4, 1⟩⟩, ⟨.yield, ⟨4, 1⟩⟩, ⟨.eos, ⟨4, 6⟩⟩]

theorem lex_source : lex source = .ok tokens :=
  eq_ok_of_toOption (by decide +kernel)

def nodes : List Node :=
  [.tag ⟨1, 1⟩ (.fixed "div") ⟨[.shorthand "id" "a"], []⟩ false false
    [.tag ⟨1, 5⟩ (.fixed "p") {} false false
      [.namedBlock ⟨2, 3⟩ "c" .replace [.tag ⟨3, 5⟩ (.fixed "br") {} false false []]]],
    .yield ⟨4, 1⟩]

theorem parse_tokens : parseTokens tokens = .ok nodes := by
  simp [parseTokens, readTokens, readDocument, tokens, Node.read, readElement, Head.read,
    readInline, readOptionalBlock, Node.readHere, readItems, Head.add, Head.has]
  rfl

end ConstructsSource

/-- The first tag is the one that no token names. -/
theorem parse_constructs_unnamed :
    parseTokens ConstructsSource.tokens = .ok ConstructsSource.nodes ∧
      constructs ConstructsSource.tokens =
        [(.tag "p", ⟨1, 5⟩), (.namedBlock, ⟨2, 3⟩), (.tag "br", ⟨3, 5⟩), (.yield, ⟨4, 1⟩)] ∧
      constructs ConstructsSource.tokens = (walkAll ConstructsSource.nodes).filter
        fun c => !isUnnamed ConstructsSource.tokens c := by
  have hstrip : CommentPolicy.strip {} ConstructsSource.tokens = .ok ConstructsSource.tokens := rfl
  exact ⟨ConstructsSource.parse_tokens, rfl,
    (parse_constructs ConstructsSource.lex_source hstrip ConstructsSource.parse_tokens).1⟩

end PugTemplate
