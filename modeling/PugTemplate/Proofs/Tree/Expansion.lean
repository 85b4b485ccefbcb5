import PugTemplate.Proofs.Lex.Expansion
import PugTemplate.Proofs.Tree.Alike

/-!
# Block expansion

A construct behind a colon in the line of a tag becomes the only child of the tag, and the lines
that follow stay beside the tag, as if the construct stood indented below it. What a construct in a
line reads is settled by its own tokens, but for one case: text behind a pipe and markup are read on
over line ends, so the lines that follow may go on with what ends the line. Main statement:
`exists_documents`.
-/

namespace PugTemplate

/-! ## Lines for elements -/

/-- Ids, classes, attribute lists and spreads in a row. -/
inductive HeadParts : List Token → Prop where
  | nil : HeadParts []
  | id (name : String) (loc : Location) {ts : List Token} (h : HeadParts ts) :
      HeadParts (⟨.id name, loc⟩ :: ts)
  | className (name : String) (loc : Location) {ts : List Token} (h : HeadParts ts) :
      HeadParts (⟨.className name, loc⟩ :: ts)
  | spread (source : String) (loc : Location) {ts : List Token} (h : HeadParts ts) :
      HeadParts (⟨.spread source, loc⟩ :: ts)
  | attributes (loc at_ : Location) {as ts : List Token} (ha : ∀ a ∈ as, a.kind.isAttribute)
      (h : HeadParts ts) :
      HeadParts (⟨.attributesStart, loc⟩ :: (as ++ ⟨.attributesEnd, at_⟩ :: ts))

/-- A tag or call with its parts. -/
inductive ElementHead : List Token → Prop where
  | tag (name : String) (loc : Location) {ts : List Token} (h : HeadParts ts) :
      ElementHead (⟨.tag name, loc⟩ :: ts)
  | interpolation (source : String) (loc : Location) {ts : List Token} (h : HeadParts ts) :
      ElementHead (⟨.interpolation source, loc⟩ :: ts)
  | call (name : String) (computed : Bool) (args : Option String) (loc : Location)
      {ts : List Token} (h : HeadParts ts) : ElementHead (⟨.call name computed args, loc⟩ :: ts)
  /-- The name may be left out. -/
  | parts {t : Token} {ts : List Token} (ht : t.kind.opensHead) (h : HeadParts (t :: ts)) :
      ElementHead (t :: ts)

/-- A construct in one line: text behind a pipe, markup, code, or a tag or call with what may stand
in its line. -/
inductive Expandable : List Token → Prop where
  | text (s : String) (loc : Location) : Expandable [⟨.text s, loc⟩]
  | html (s : String) (loc : Location) : Expandable [⟨.html s, loc⟩]
  | code (source : String) (buffered escape : Bool) (loc : Location) :
      Expandable [⟨.code source buffered escape, loc⟩]
  | bare {ts : List Token} (h : ElementHead ts) : Expandable ts
  | withText {ts : List Token} (h : ElementHead ts) (s : String) (loc : Location) :
      Expandable (ts ++ [⟨.text s, loc⟩])
  | withCode {ts : List Token} (h : ElementHead ts) (source : String) (buffered escape : Bool)
      (loc : Location) : Expandable (ts ++ [⟨.code source buffered escape, loc⟩])
  | selfClosing {ts : List Token} (h : ElementHead ts) (loc : Location) :
      Expandable (ts ++ [⟨.slash, loc⟩])
  | expanded {ts xs : List Token} (h : ElementHead ts) (loc : Location) (hx : Expandable xs) :
      Expandable (ts ++ ⟨.colon, loc⟩ :: xs)

/-- A token of a construct in one line. -/
def TokenKind.isInLine : TokenKind → Bool
  | tag _ | id _ | className _ | attributesStart | attr _ _ _ | attributesEnd | spread _
  | interpolation _ | call _ _ _ | text _ | html _ | code _ _ _ | slash | colon => true
  | _ => false

theorem HeadParts.isInLine {ts : List Token} (h : HeadParts ts) : ∀ t ∈ ts, t.kind.isInLine := by
  induction h with
  | nil => exact List.forall_mem_nil _
  | id _ _ _ ih | className _ _ _ ih | spread _ _ _ ih => exact List.forall_mem_cons.mpr ⟨rfl, ih⟩
  | @attributes _ _ as ts ha _ ih =>
    have has : ∀ a ∈ as, a.kind.isInLine := by
      intro a hmem
      obtain ⟨kind, loc⟩ := a
      cases kind with
      | attr => rfl
      | _ => cases ha _ hmem
    exact List.forall_mem_cons.mpr ⟨rfl, List.forall_mem_append.mpr
      ⟨has, List.forall_mem_cons.mpr ⟨rfl, ih⟩⟩⟩

theorem ElementHead.isInLine {ts : List Token} (h : ElementHead ts) :
    ∀ t ∈ ts, t.kind.isInLine := by
  cases h with
  | tag _ _ h | interpolation _ _ h | call _ _ _ _ h =>
    exact List.forall_mem_cons.mpr ⟨rfl, h.isInLine⟩
  | parts _ h => exact h.isInLine

theorem Expandable.isInLine {xs : List Token} (h : Expandable xs) : ∀ x ∈ xs, x.kind.isInLine := by
  induction h with
  | text | html | code => exact List.forall_mem_singleton.mpr rfl
  | bare h => exact h.isInLine
  | withText h | withCode h | selfClosing h =>
    exact List.forall_mem_append.mpr ⟨h.isInLine, List.forall_mem_singleton.mpr rfl⟩
  | expanded h _ _ ih =>
    exact List.forall_mem_append.mpr ⟨h.isInLine, List.forall_mem_cons.mpr ⟨rfl, ih⟩⟩

theorem TokenKind.opensText_of_isInLine {k : TokenKind} (h : k.isInLine) : k.opensText = false := by
  cases k <;> first | rfl | cases h

theorem TokenKind.isPlain_of_isInLine {k : TokenKind} (h : k.isInLine) : k.isPlain := by
  cases k <;> first | rfl | cases h

/-- A construct ends with text behind a pipe or with markup, and the next line begins with the
same. -/
def Joins (xs next : List Token) : Prop :=
  ∃ before t, xs = before ++ [t] ∧ (∀ u ∈ before.getLast?, u.kind = .colon) ∧
    (t.kind.isText ∧ next.head?.any (·.kind.isText) ∨
      t.kind.isHtml ∧ next.head?.any (·.kind.isHtml))

/-- A line is over, and no block is below it. -/
def LineOver (ts : List Token) : Prop :=
  ∃ t us, ts = t :: us ∧ (t.kind = .newline ∨ t.kind = .outdent ∨ t.kind = .eos)

theorem Joins.expanded {ts xs next : List Token} {loc : Location} (h : Joins xs next) :
    Joins (ts ++ ⟨.colon, loc⟩ :: xs) next := by
  obtain ⟨before, t, rfl, hbefore, hform⟩ := h
  refine ⟨ts ++ ⟨.colon, loc⟩ :: before, t, by simp, fun u hu => ?_, hform⟩
  cases hlast : before.getLast? with
  | none =>
    rw [List.getLast?_eq_none_iff.mp hlast, List.getLast?_concat] at hu
    cases hu
    rfl
  | some v =>
    rw [List.getLast?_append, List.getLast?_cons, hlast] at hu
    cases hu
    exact hbefore v hlast

/-! ## Readings that their own tokens settle -/

section Readings

variable {cx : TreeContext} {stop : Location} {ts xs rest : List Token}

theorem LineOver.head_eq_false (h : LineOver rest) (form : TokenKind → Bool)
    (hn : form .newline = false) (ho : form .outdent = false) (he : form .eos = false) :
    ∀ t ∈ rest.head?, form t.kind = false := by
  obtain ⟨t, us, rfl, hkind⟩ := h
  rintro _ ⟨⟩
  rcases hkind with hk | hk | hk
  · exact hk ▸ hn
  · exact hk ▸ ho
  · exact hk ▸ he

/-- A computation in front of one that gives an answer of its own, whatever follows. -/
theorem exists_bind {α β γ : Type} {may : List Token → Prop}
    {f : α → List Token → Except ParseError γ}
    {g : List Token → Except ParseError β → Except ParseError γ} (x : Except ParseError α)
    (hg : ∀ rest e, g rest (.error e) = .error e)
    (h : ∀ a, ∃ y : Except ParseError β, ∀ rest, may rest → f a rest = g rest y) :
    ∃ y : Except ParseError β, ∀ rest, may rest → (x >>= fun a => f a rest) = g rest y := by
  cases x with
  | error e => exact ⟨.error e, fun rest _ => (hg rest e).symm⟩
  | ok a => exact h a

theorem exists_attributesRead (stop : Location) {as : List Token}
    (ha : ∀ a ∈ as, a.kind.isAttribute) (at_ : Location) :
    ∃ y : Except ParseError (List Attribute), ∀ rest,
      attributesRead stop (as ++ ⟨.attributesEnd, at_⟩ :: rest) =
        (fun l => (l, as.length + 1)) <$> y := by
  induction as with
  | nil => exact ⟨.ok [], fun _ => rfl⟩
  | cons a as ih =>
    obtain ⟨hattr, ha⟩ := List.forall_mem_cons.mp ha
    obtain ⟨y, hy⟩ := ih ha
    obtain ⟨kind, loc⟩ := a
    cases kind with
    | attr name source escape =>
      refine ⟨do return (← Attribute.ofToken name source escape loc) :: (← y), fun rest => ?_⟩
      rw [List.cons_append, attributesRead, hy]
      cases Attribute.ofToken name source escape loc <;> cases y <;> rfl
    | _ => cases hattr

/-- A refused attribute is reported where it stands. -/
def atAttribute {α : Type} (loc : Location) : Except ParseCause α → Except ParseError α
  | .error cause => .error ⟨cause, loc⟩
  | .ok a => .ok a

theorem headRead_id (head : Head) (name : String) (loc : Location) (rest : List Token) :
    Head.read stop head (⟨.id name, loc⟩ :: rest) =
      (atAttribute loc (head.add (.shorthand "id" name)) >>= fun head =>
        (fun r => (r.1, r.2 + 1)) <$> Head.read stop head rest) := by
  rw [Head.read]
  cases head.add (.shorthand "id" name) <;> rfl

theorem headRead_className (head : Head) (name : String) (loc : Location) (rest : List Token) :
    Head.read stop head (⟨.className name, loc⟩ :: rest) =
      (atAttribute loc (head.add (.shorthand "class" name)) >>= fun head =>
        (fun r => (r.1, r.2 + 1)) <$> Head.read stop head rest) := by
  rw [Head.read]
  cases head.add (.shorthand "class" name) <;> rfl

theorem headRead_spread (head : Head) (source : String) (loc : Location) (rest : List Token) :
    Head.read stop head (⟨.spread source, loc⟩ :: rest) =
      (expressionAt source loc >>= fun e => (fun r => (r.1, r.2 + 1)) <$>
        Head.read stop { head with spreads := head.spreads ++ [e] } rest) := by
  rw [Head.read]
  rfl

theorem headRead_attributes (head : Head) (loc : Location) (rest : List Token) :
    Head.read stop head (⟨.attributesStart, loc⟩ :: rest) =
      (attributesRead stop rest >>= fun l => atAttribute loc (head.addAll l.1) >>= fun head =>
        (fun r => (r.1, r.2 + l.2 + 1)) <$> Head.read stop head (rest.drop l.2)) := by
  rw [Head.read]
  cases attributesRead stop rest with
  | error e => rfl
  | ok l =>
    dsimp only [bind, Except.bind]
    cases head.addAll l.1 <;> rfl

/-- The parts of a tag are read alike, whatever follows them. -/
theorem HeadParts.exists_read (h : HeadParts ts) (stop : Location) (head : Head) :
    ∃ y : Except ParseError Head, ∀ rest, (∀ t ∈ rest.head?, t.kind.isHeadPart = false) →
      Head.read stop head (ts ++ rest) = (fun head => (head, ts.length)) <$> y := by
  have hnext {ts : List Token} {k n : Nat} (hk : n = ts.length + k)
      (ih : ∀ head : Head, ∃ y : Except ParseError Head, ∀ rest : List Token,
        (∀ t ∈ rest.head?, t.kind.isHeadPart = false) →
          Head.read stop head (ts ++ rest) = (fun head => (head, ts.length)) <$> y)
      (head : Head) : ∃ y : Except ParseError Head, ∀ rest : List Token,
        (∀ t ∈ rest.head?, t.kind.isHeadPart = false) →
          (fun r => (r.1, r.2 + k)) <$> Head.read stop head (ts ++ rest) =
            (fun head => (head, n)) <$> y := by
    obtain ⟨y, hy⟩ := ih head
    refine ⟨y, fun rest hrest => ?_⟩
    rw [hy rest hrest, hk]
    cases y <;> rfl
  induction h generalizing head with
  | nil =>
    refine ⟨.ok head, fun rest hrest => ?_⟩
    cases rest with
    | nil => simp [Head.read, pure, Except.pure, Functor.map, Except.map]
    | cons t rest => exact headRead_of_eq_false (hrest t rfl) rest
  | id name loc h ih =>
    simp only [List.cons_append, headRead_id]
    exact exists_bind _ (fun _ _ => rfl) (hnext rfl ih)
  | className name loc h ih =>
    simp only [List.cons_append, headRead_className]
    exact exists_bind _ (fun _ _ => rfl) (hnext rfl ih)
  | spread source loc h ih =>
    simp only [List.cons_append, headRead_spread]
    exact exists_bind _ (fun _ _ => rfl) fun e => hnext rfl ih _
  | @attributes loc at_ as ts ha h ih =>
    obtain ⟨y, hy⟩ := exists_attributesRead stop ha at_
    have hdrop (rest : List Token) :
        (as ++ ⟨.attributesEnd, at_⟩ :: (ts ++ rest)).drop (as.length + 1) = ts ++ rest := by
      simp [List.drop_append]
    have hlength : (⟨.attributesStart, loc⟩ :: (as ++ ⟨.attributesEnd, at_⟩ :: ts)).length =
        ts.length + (as.length + 1 + 1) := by
      simp
      omega
    simp only [List.cons_append, List.append_assoc, headRead_attributes, hy]
    cases y with
    | error e => exact ⟨.error e, fun _ _ => rfl⟩
    | ok l =>
      refine exists_bind (atAttribute loc (head.addAll l)) (fun _ _ => rfl) fun head => ?_
      simp only [hdrop]
      exact hnext hlength ih head

end Readings

/-! ## Tags and calls -/

/-- A tag or call without its content. -/
structure Opened where
  loc : Location
  name : NameSource
  shown : String
  args : Option (List Expr)
  head : Head

namespace Opened

/-- The tag or call with its content. -/
def node (e : Opened) (selfClosing : Bool) (body : List Node) : Node :=
  match e.args with
  | none => .tag e.loc e.name e.head selfClosing false body
  | some args => .call e.loc e.name args e.head (if body = [] then none else some body)

/-- Reads what stands in the line of a tag or call behind its parts, and what stands below it. -/
def finish (e : Opened) (cx : TreeContext) (ts : List Token) : Except ParseError (Node × Nat) := do
  let (inline, selfClosing, m) ← readInline cx e.args.isNone ts
  let (below, n) ← readOptionalBlock cx (ts.drop m)
  if selfClosing ∧ inline ++ below ≠ [] then
    .error ⟨.selfClosingContent e.shown, placeOf cx.stop ts⟩
  else return (e.node selfClosing (inline ++ below), m + n)

end Opened

/-- The parts of a tag or call end in front of these tokens, without a dot that would open a block
of text. -/
def EndsHead (rest : List Token) : Prop :=
  ∀ t ∈ rest.head?, t.kind.isHeadPart = false ∧ (t.kind == .dot) = false

section Elements

variable {cx : TreeContext} {ts xs rest : List Token}

theorem HeadParts.exists_element (h : HeadParts ts) (cx : TreeContext) (loc : Location)
    (name : NameSource) (shown : String) (args : Option (List Expr)) :
    ∃ y : Except ParseError Head, ∀ rest, EndsHead rest →
      readElement cx loc name shown (ts ++ rest) args =
        (y >>= fun head => (fun r => (r.1, ts.length + r.2)) <$>
          Opened.finish ⟨loc, name, shown, args, head⟩ cx rest) := by
  obtain ⟨y, hy⟩ := h.exists_read cx.stop {}
  refine ⟨y, fun rest hrest => ?_⟩
  have hdot : (rest.head?.any fun t => t.kind == .dot) = false := by
    cases rest with
    | nil => rfl
    | cons t rest => exact (hrest t rfl).2
  rw [readElement, hy rest fun t ht => (hrest t ht).1]
  cases y with
  | error e => rfl
  | ok head =>
    have hdrop (m : Nat) : (ts ++ rest).drop (ts.length + m) = rest.drop m := by
      rw [← List.drop_drop, List.drop_left]
    simp only [bind, Except.bind, Functor.map, Except.map, List.drop_left, hdot, Opened.finish,
      Bool.false_eq_true, if_false, hdrop]
    cases readInline cx args.isNone rest with
    | error e => rfl
    | ok inline =>
      dsimp only
      cases readOptionalBlock cx (rest.drop inline.2.2) with
      | error e => rfl
      | ok below =>
        dsimp only
        split
        next => rfl
        next => cases args <;> exact congrArg Except.ok (Prod.ext rfl (Nat.add_assoc _ _ _))

/-- What a tag or call is, is settled by its parts. -/
theorem ElementHead.exists_opened (h : ElementHead ts) (cx : TreeContext) :
    ∃ y : Except ParseError Opened,
      ((∀ t ∈ ts, t.kind.isTagPart) → ∀ e, y = .ok e → e.args = none) ∧
      ∀ rest, EndsHead rest → Node.readHere cx (ts ++ rest) =
        (y >>= fun e => (fun r => ([r.1], ts.length + r.2)) <$> e.finish cx rest) := by
  have hparts {ts : List Token} (h : HeadParts ts) {n : Nat} {g : Nat → Nat}
      (hcount : ∀ m, g (ts.length + m) = n + m) (loc : Location) (name : NameSource)
      (shown : String) (args : Option (List Expr)) :
      ∃ y : Except ParseError Opened, (∀ e, y = .ok e → e.args = args) ∧ ∀ rest, EndsHead rest →
        (fun r => ([r.1], g r.2)) <$> readElement cx loc name shown (ts ++ rest) args =
          (y >>= fun e => (fun r => ([r.1], n + r.2)) <$> e.finish cx rest) := by
    obtain ⟨y, hy⟩ := h.exists_element cx loc name shown args
    refine ⟨(fun head => ⟨loc, name, shown, args, head⟩) <$> y, fun e he => ?_,
      fun rest hrest => ?_⟩
    · cases y <;> cases he
      rfl
    rw [hy rest hrest]
    cases y with
    | error e => rfl
    | ok head =>
      show _ <$> (_ <$> Opened.finish ⟨loc, name, shown, args, head⟩ cx rest) =
        _ <$> Opened.finish ⟨loc, name, shown, args, head⟩ cx rest
      cases Opened.finish ⟨loc, name, shown, args, head⟩ cx rest with
      | error e => rfl
      | ok r => exact congrArg Except.ok (Prod.ext rfl (hcount r.2))
  have hnamed (k m : Nat) : k + m + 1 = k + 1 + m := by omega
  cases h with
  | @tag name loc ts h =>
    have hread (rest : List Token) : Node.readHere cx (⟨.tag name, loc⟩ :: ts ++ rest) =
        (fun r => ([r.1], r.2 + 1)) <$> readElement cx loc (.fixed name) name (ts ++ rest) := by
      rw [List.cons_append, Node.readHere, Node.read]
      cases readElement cx loc (.fixed name) name (ts ++ rest) <;> rfl
    simp only [hread]
    obtain ⟨y, hargs, hy⟩ := hparts h (hnamed _) loc (.fixed name) name none
    exact ⟨y, fun _ => hargs, hy⟩
  | @interpolation source loc ts h =>
    cases hname : expressionAt source loc with
    | error e =>
      refine ⟨.error e, fun _ _ he => (by cases he), fun rest _ => ?_⟩
      rw [List.cons_append, Node.readHere, Node.read, hname]
      rfl
    | ok name =>
      have hread (rest : List Token) :
          Node.readHere cx (⟨.interpolation source, loc⟩ :: ts ++ rest) =
            (fun r => ([r.1], r.2 + 1)) <$>
              readElement cx loc (.computed name) source (ts ++ rest) := by
        rw [List.cons_append, Node.readHere, Node.read, hname]
        dsimp only [bind, Except.bind]
        cases readElement cx loc (.computed name) source (ts ++ rest) <;> rfl
      simp only [hread]
      obtain ⟨y, hargs, hy⟩ := hparts h (hnamed _) loc (.computed name) source none
      exact ⟨y, fun _ => hargs, hy⟩
  | @call name computed args loc ts h =>
    have hread (rest : List Token) :
        Node.readHere cx (⟨.call name computed args, loc⟩ :: ts ++ rest) =
          (callName name computed loc >>= fun name => callArguments args loc >>= fun args =>
            (fun r => ([r.1], r.2 + 1)) <$>
              readElement cx loc name "mixin call" (ts ++ rest) (some args)) := by
      rw [List.cons_append, Node.readHere, Node.read]
      cases callName name computed loc with
      | error e => rfl
      | ok name =>
        cases callArguments args loc with
        | error e => rfl
        | ok args =>
          dsimp only [bind, Except.bind]
          cases readElement cx loc name "mixin call" (ts ++ rest) (some args) <;> rfl
    simp only [hread]
    refine (exists_bind _ (fun _ _ => rfl) fun name => exists_bind _ (fun _ _ => rfl) fun args =>
      (hparts h (hnamed _) loc name "mixin call" (some args)).imp fun _ => And.right).imp
        fun y hy => ⟨fun htag => ?_, hy⟩
    cases htag _ List.mem_cons_self
  | @parts t ts ht h =>
    have hread (rest : List Token) : Node.readHere cx (t :: ts ++ rest) =
        (fun r => ([r.1], r.2 - 1 + 1)) <$>
          readElement cx t.loc (.fixed "div") "div" (t :: ts ++ rest) := by
      obtain ⟨kind, loc⟩ := t
      rw [List.cons_append, Node.readHere]
      cases kind with
      | id | className | attributesStart =>
        rw [Node.read]
        cases readElement cx loc (.fixed "div") "div" (_ :: (ts ++ rest)) <;> rfl
      | _ => cases ht
    have hcount (m : Nat) : (t :: ts).length + m - 1 + 1 = (t :: ts).length + m := by
      rw [List.length_cons]
      omega
    simp only [hread]
    obtain ⟨y, hargs, hy⟩ :=
      hparts h (g := fun k => k - 1 + 1) hcount t.loc (.fixed "div") "div" none
    exact ⟨y, fun _ => hargs, hy⟩

namespace Opened

variable {e : Opened} {selfClosing : Bool} {m : Nat}

/-- Nothing is below the line. -/
theorem finish_of_inline {z : Except ParseError Node}
    (hinline : readInline cx e.args.isNone ts = (fun n => ([n], false, m)) <$> z)
    (hover : ∀ t ∈ (ts.drop m).head?, t.kind.isIndent = false) :
    e.finish cx ts = (fun n => (n, m)) <$> ((fun n => e.node false [n]) <$> z) := by
  rw [finish, hinline]
  cases z with
  | error e => rfl
  | ok n =>
    show (readOptionalBlock cx (ts.drop m) >>= _) = _
    rw [readOptionalBlock_of_eq_false hover]
    rfl

theorem finish_bare (hinline : readInline cx e.args.isNone ts = .ok ([], selfClosing, m))
    (hover : ∀ t ∈ (ts.drop m).head?, t.kind.isIndent = false) :
    e.finish cx ts = .ok (e.node selfClosing [], m) := by
  rw [finish, hinline]
  show (readOptionalBlock cx (ts.drop m) >>= _) = _
  rw [readOptionalBlock_of_eq_false hover]
  cases selfClosing <;> rfl

/-- A construct behind a colon. -/
theorem finish_colon {z : Except ParseError Node} {loc : Location} (hover : LineOver rest)
    (hz : Node.readHere cx (xs ++ rest) = (fun n => ([n], xs.length)) <$> z) :
    e.finish cx (⟨.colon, loc⟩ :: (xs ++ rest)) =
      (fun n => (n, xs.length + 1)) <$> ((fun n => e.node false [n]) <$> z) := by
  refine finish_of_inline ?_ ?_
  · rw [readInline, hz]
    cases z <;> rfl
  · rw [List.drop_succ_cons, List.drop_left]
    exact hover.head_eq_false _ rfl rfl rfl

end Opened

theorem readInline_over (h : LineOver rest) (closable : Bool) :
    readInline cx closable rest = .ok ([], false, 0) := by
  obtain ⟨⟨kind, loc⟩, us, rfl, rfl | rfl | rfl⟩ := h
  · rw [readInline]
    rfl
  · rw [readInline]
    rfl
  · rw [readInline]
    rfl

theorem textRun_over (h : LineOver rest) : textRun false rest = ("", 0) :=
  textRun_of_not (h.head_eq_false _ rfl rfl rfl) nofun

theorem endsHead_over (h : LineOver rest) : EndsHead rest := fun t ht =>
  ⟨h.head_eq_false _ rfl rfl rfl t ht, h.head_eq_false (· == .dot) rfl rfl rfl t ht⟩

theorem endsHead_cons {t : Token} (ht : t.kind.isHeadPart = false)
    (hdot : (t.kind == .dot) = false) :
    EndsHead (t :: rest) := by
  rintro _ ⟨⟩
  exact ⟨ht, hdot⟩

/-- Nothing that follows goes on with a construct. -/
def Apart (xs rest : List Token) : Prop :=
  LineOver rest ∧ ∀ n next, rest = n :: next → n.kind = .newline → ¬ Joins xs next

theorem ElementHead.exists_tail (h : ElementHead ts) (cx : TreeContext) (tail : List Token)
    (may : List Token → Prop)
    (hends : ∀ rest, may rest → EndsHead (tail ++ rest))
    (hfinish : ∀ e : Opened, ∃ z : Except ParseError Node, ∀ rest, may rest →
      e.finish cx (tail ++ rest) = (fun n => (n, tail.length)) <$> z) :
    ∃ z : Except ParseError Node, ∀ rest, may rest →
      Node.readHere cx (ts ++ tail ++ rest) = (fun n => ([n], (ts ++ tail).length)) <$> z := by
  obtain ⟨y, -, hy⟩ := h.exists_opened cx
  cases y with
  | error e =>
    refine ⟨.error e, fun rest hrest => ?_⟩
    rw [List.append_assoc, hy _ (hends rest hrest)]
    rfl
  | ok e =>
    obtain ⟨z, hz⟩ := hfinish e
    refine ⟨z, fun rest hrest => ?_⟩
    rw [List.append_assoc, hy _ (hends rest hrest), List.length_append]
    show _ <$> e.finish cx (tail ++ rest) = _
    rw [hz rest hrest]
    cases z <;> rfl

/-- What a construct in one line is, is settled by its tokens, if nothing goes on with it. -/
theorem Expandable.exists_read (h : Expandable xs) (cx : TreeContext) :
    ∃ z : Except ParseError Node, ∀ rest, Apart xs rest →
      Node.readHere cx (xs ++ rest) = (fun n => ([n], xs.length)) <$> z := by
  induction h with
  | text s loc =>
    refine ⟨cx.textNode (s ++ "") loc, fun rest hrest => ?_⟩
    obtain ⟨hover, hapart⟩ := hrest
    have hrun : textRun true rest = ("", 0) := by
      refine textRun_of_not (hover.head_eq_false _ rfl rfl rfl) fun _ hgo => ?_
      obtain ⟨n, t, more, rfl, hn, ht⟩ := hgo.exists_cons
      exact hapart n _ rfl hn ⟨[], _, rfl, nofun, .inl ⟨rfl, ht⟩⟩
    rw [List.singleton_append, Node.readHere, Node.read, hrun]
    dsimp only
    cases cx.textNode (s ++ "") loc <;> rfl
  | html s loc =>
    refine ⟨cx.textNode (joinLines [s]) loc, fun rest hrest => ?_⟩
    obtain ⟨hover, hapart⟩ := hrest
    have hrun : htmlRun rest = ([], 0) := by
      refine htmlRun_of_not (hover.head_eq_false _ rfl rfl rfl) fun hgo => ?_
      obtain ⟨n, t, more, rfl, hn, ht⟩ := hgo.exists_cons
      exact hapart n _ rfl hn ⟨[], _, rfl, nofun, .inr ⟨rfl, ht⟩⟩
    have hblock : readOptionalBlock cx rest = .ok ([], 0) :=
      readOptionalBlock_of_eq_false (hover.head_eq_false _ rfl rfl rfl)
    rw [List.singleton_append, Node.readHere, Node.read, hrun]
    dsimp only
    rw [List.drop_zero, hblock]
    cases cx.textNode (joinLines [s]) loc <;> rfl
  | code source buffered escape loc =>
    refine ⟨Node.ofCode source buffered escape loc, fun rest hrest => ?_⟩
    rw [List.singleton_append, Node.readHere, Node.read,
      readCode_of_eq_false (hrest.1.head_eq_false _ rfl rfl rfl)]
    cases Node.ofCode source buffered escape loc <;> rfl
  | @bare ts h =>
    have htail := h.exists_tail cx [] (Apart ts) (fun _ hrest => endsHead_over hrest.1)
      fun e => ⟨.ok (e.node false []), fun rest hrest =>
        Opened.finish_bare (readInline_over hrest.1 _) (hrest.1.head_eq_false _ rfl rfl rfl)⟩
    simpa only [List.append_nil] using htail
  | @withText ts h s loc =>
    refine h.exists_tail cx _ _ (fun _ _ => endsHead_cons rfl rfl) fun e =>
      ⟨(fun n => e.node false [n]) <$> cx.textNode (s ++ "") loc, fun rest hrest => ?_⟩
    refine Opened.finish_of_inline ?_ (hrest.1.head_eq_false _ rfl rfl rfl)
    rw [List.singleton_append, readInline, textRun, textRun_over hrest.1]
    dsimp only
    cases cx.textNode (s ++ "") loc <;> rfl
  | @withCode ts h source buffered escape loc =>
    refine h.exists_tail cx _ _ (fun _ _ => endsHead_cons rfl rfl) fun e =>
      ⟨(fun n => e.node false [n]) <$> Node.ofCode source buffered escape loc,
        fun rest hrest => ?_⟩
    refine Opened.finish_of_inline ?_ (hrest.1.head_eq_false _ rfl rfl rfl)
    rw [List.singleton_append, readInline]
    cases Node.ofCode source buffered escape loc <;> rfl
  | @selfClosing ts h loc =>
    refine h.exists_tail cx _ _ (fun _ _ => endsHead_cons rfl rfl) fun e => ?_
    cases hclosable : e.args.isNone with
    | true =>
      refine ⟨.ok (e.node true []), fun rest hrest => ?_⟩
      refine Opened.finish_bare ?_ (hrest.1.head_eq_false _ rfl rfl rfl)
      rw [List.singleton_append, readInline, if_pos hclosable]
      rfl
    | false =>
      refine ⟨.error ⟨.unexpectedToken .inlineContent .slash, loc⟩, fun rest _ => ?_⟩
      rw [List.singleton_append, Opened.finish, readInline, if_neg (by simp [hclosable])]
      rfl
  | @expanded ts xs h loc hx ih =>
    obtain ⟨z, hz⟩ := ih
    refine h.exists_tail cx _ _ (fun _ _ => endsHead_cons rfl rfl) fun e =>
      ⟨(fun n => e.node false [n]) <$> z, fun rest hrest => ?_⟩
    obtain ⟨hover, hapart⟩ := hrest
    have hinner : Apart xs rest :=
      ⟨hover, fun n next hrest hn hjoins => hapart n next hrest hn hjoins.expanded⟩
    exact Opened.finish_colon hover (hz rest hinner)

end Elements

/-! ## Trees -/

section Trees

variable {cx : TreeContext} {t : Token} {ts xs rest : List Token} {z : Except ParseError Node}

theorem ElementHead.exists_cons (h : ElementHead ts) :
    ∃ t us, ts = t :: us ∧ t.kind.endsLine = false := by
  cases h with
  | tag | interpolation | call => exact ⟨_, _, rfl, rfl⟩
  | @parts t ts ht =>
    obtain ⟨kind, loc⟩ := t
    refine ⟨_, _, rfl, ?_⟩
    cases kind <;> first | rfl | cases ht

theorem Expandable.exists_cons (h : Expandable xs) :
    ∃ t us, xs = t :: us ∧ t.kind.endsLine = false := by
  have happend {ts us : List Token} (h : ElementHead ts) :
      ∃ t vs, ts ++ us = t :: vs ∧ t.kind.endsLine = false := by
    obtain ⟨t, vs, rfl, ht⟩ := h.exists_cons
    exact ⟨t, vs ++ us, rfl, ht⟩
  cases h with
  | text | html | code => exact ⟨_, _, rfl, rfl⟩
  | bare h => exact h.exists_cons
  | withText h | withCode h | selfClosing h | expanded h => exact happend h

theorem readItems_here (ht : t.kind.endsLine = false) (ts : List Token) :
    readItems cx (t :: ts) = (Node.readHere cx (t :: ts) >>= fun r =>
      (fun q => (r.1 ++ q.1, r.2 + q.2)) <$> readItems cx ((t :: ts).drop r.2)) := by
  have hne {k : TokenKind} (hk : k.endsLine) : t.kind ≠ k := by
    rintro rfl
    cases ht.symm.trans hk
  rw [readItems_node (hne rfl) (hne rfl) (hne rfl), Node.readHere]
  cases Node.read cx t ts with
  | error e => rfl
  | ok r =>
    show (readItems cx (ts.drop r.2) >>= _) = _ <$> readItems cx (ts.drop r.2)
    cases readItems cx (ts.drop r.2) with
    | error e => rfl
    | ok q => exact congrArg Except.ok (Prod.ext rfl (by dsimp only; omega))

theorem readDocument_here (ht : t.kind.endsLine = false) (ts : List Token) :
    readDocument cx (t :: ts) = (Node.readHere cx (t :: ts) >>= fun r =>
      (r.1 ++ ·) <$> readDocument cx ((t :: ts).drop r.2)) := by
  have hne {k : TokenKind} (hk : k.endsLine) : t.kind ≠ k := by
    rintro rfl
    cases ht.symm.trans hk
  rw [readDocument_node (hne rfl) (hne rfl), Node.readHere]
  cases Node.read cx t ts with
  | error e => rfl
  | ok r =>
    show (readDocument cx (ts.drop r.2) >>= _) = _ <$> readDocument cx (ts.drop r.2)
    cases readDocument cx (ts.drop r.2) <;> rfl

/-- A construct indented below its tag, up to the end of the block. -/
theorem Opened.finish_nested {e : Opened} {width : Nat} {loc at_ : Location} (hx : Expandable xs)
    (hz : Node.readHere cx (xs ++ ⟨.outdent, at_⟩ :: rest) = (fun n => ([n], xs.length)) <$> z) :
    e.finish cx (⟨.indent width, loc⟩ :: (xs ++ ⟨.outdent, at_⟩ :: rest)) =
      (fun n => (n, xs.length + 2)) <$> ((fun n => e.node false [n]) <$> z) := by
  obtain ⟨t, us, rfl, ht⟩ := hx.exists_cons
  have hitems : readItems cx (t :: us ++ ⟨.outdent, at_⟩ :: rest) =
      (fun n => ([n], (t :: us).length + 1)) <$> z := by
    rw [List.cons_append, readItems_here ht, ← List.cons_append, hz]
    cases z with
    | error e => rfl
    | ok n =>
      show _ <$> readItems cx ((t :: us ++ ⟨.outdent, at_⟩ :: rest).drop (t :: us).length) = _
      rw [List.drop_left, readItems]
      rfl
  rw [finish, readInline]
  show (readOptionalBlock cx (⟨.indent width, loc⟩ :: _) >>= _) = _
  rw [readOptionalBlock, hitems]
  cases z with
  | error e => rfl
  | ok n => exact congrArg Except.ok (Prod.ext rfl (Nat.zero_add _))

/-- The trees of a tag, of a construct in one line, of the construct behind a colon and of the
construct indented below the tag, each with the lines that follow. -/
theorem exists_documents (cx : TreeContext) (ht : ElementHead ts) (hx : Expandable xs) :
    ∃ (y : Except ParseError Opened) (z : Except ParseError Node),
      ((∀ t ∈ ts, t.kind.isTagPart) → ∀ e, y = .ok e → e.args = none) ∧
      (∀ rest, LineOver rest → readDocument cx (ts ++ rest) =
        (y >>= fun e => (e.node false [] :: ·) <$> readDocument cx rest)) ∧
      (∀ rest, Apart xs rest → readDocument cx (xs ++ rest) =
        (z >>= fun n => (n :: ·) <$> readDocument cx rest)) ∧
      (∀ loc rest, Apart xs rest → readDocument cx (ts ++ ⟨.colon, loc⟩ :: (xs ++ rest)) =
        (y >>= fun e => z >>= fun n => (e.node false [n] :: ·) <$> readDocument cx rest)) ∧
      ∀ width loc at_ rest,
        readDocument cx (ts ++ ⟨.indent width, loc⟩ :: (xs ++ ⟨.outdent, at_⟩ :: rest)) =
          (y >>= fun e => z >>= fun n => (e.node false [n] :: ·) <$> readDocument cx rest) := by
  obtain ⟨y, hargs, hy⟩ := ht.exists_opened cx
  obtain ⟨z, hz⟩ := hx.exists_read cx
  obtain ⟨t, us, rfl, hkind⟩ := ht.exists_cons
  have htag {more : List Token} {w : Opened → Except ParseError Node} {k : Nat}
      (hmore : EndsHead more) (hw : ∀ e, Opened.finish e cx more = (fun n => (n, k)) <$> w e) :
      readDocument cx (t :: us ++ more) =
        (y >>= fun e => w e >>= fun n => (n :: ·) <$> readDocument cx (more.drop k)) := by
    rw [List.cons_append, readDocument_here hkind, ← List.cons_append, hy more hmore]
    cases y with
    | error e => rfl
    | ok e =>
      show (_ <$> Opened.finish e cx more >>= _) = (w e >>= _)
      rw [hw e]
      cases w e with
      | error e => rfl
      | ok n =>
        show _ <$> readDocument cx ((t :: us ++ more).drop ((t :: us).length + k)) = _
        rw [← List.drop_drop, List.drop_left]
        rfl
  refine ⟨y, z, hargs, fun rest hover => ?_, fun rest hapart => ?_, fun loc rest hapart => ?_,
    fun width loc at_ rest => ?_⟩
  · refine htag (w := fun e => .ok (e.node false [])) (endsHead_over hover) fun e =>
      Opened.finish_bare (readInline_over hover _) (hover.head_eq_false _ rfl rfl rfl)
  · obtain ⟨t, us, rfl, hkind⟩ := hx.exists_cons
    rw [List.cons_append, readDocument_here hkind, ← List.cons_append, hz rest hapart]
    cases z with
    | error e => rfl
    | ok n =>
      show _ <$> readDocument cx ((t :: us ++ rest).drop (t :: us).length) = _
      rw [List.drop_left]
      rfl
  · rw [htag (endsHead_cons rfl rfl) fun e => Opened.finish_colon hapart.1 (hz rest hapart),
      List.drop_succ_cons, List.drop_left]
    cases z <;> rfl
  · have hapart : Apart xs (⟨.outdent, at_⟩ :: rest) :=
      ⟨⟨_, _, rfl, .inr (.inl rfl)⟩, fun n next heq hn => nomatch (List.cons.inj heq).1 ▸ hn⟩
    have hdrop : (⟨.indent width, loc⟩ :: (xs ++ ⟨.outdent, at_⟩ :: rest)).drop (xs.length + 2) =
        rest := by
      rw [List.drop_succ_cons, ← List.drop_drop, List.drop_left]
      rfl
    rw [htag (endsHead_cons rfl rfl) fun e => Opened.finish_nested hx (hz _ hapart), hdrop]
    cases z <;> rfl

end Trees

end PugTemplate
