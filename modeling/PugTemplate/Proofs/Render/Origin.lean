import PugTemplate.Proofs.Basic
import PugTemplate.Proofs.Render.Frame
import PugTemplate.Proofs.Render.Walk
import PugTemplate.Proofs.Tree.Everywhere
import PugTemplate.Render.Render

/-!
# Where pages and failures come from

Each piece of a page is written by one node of the template, and each failure is raised by one.
`Page.pieces` and `Page.failures` say what a node contributes itself, its parts left out, in a
frame. A run only adds such pieces, and frames only gain names in it.
-/

namespace PugTemplate

namespace Page

/-- The pieces a segment of a text writes itself. -/
def segmentPieces (p : Page) (f : Frame) : Segment → List Fragment
  | .literal text => [.fixed text]
  | .escaped e => [.escaped (p.eval f e).toOutput]
  | .raw e => [.raw (p.eval f e).toOutput]
  | .tag _ => []

/-- The pieces a node writes itself. -/
def pieces (p : Page) (f : Frame) : Node → List Fragment
  | .tag _ name head _ _ _ =>
    [.fixed "<", .fixed ">", .fixed "/>", .fixed "</", (p.nameOf f name).2] ++
      attributeFragments p.dialect (p.bindings f head)
  | .text _ _ segments => segments.flatMap (p.segmentPieces f)
  | .output _ e escape => [.ofData escape (p.eval f e).toOutput]
  | .comment _ text true body =>
    [.fixed "<!--", .fixed text, .fixed ((body.map (·.2)).getD ""), .fixed "-->"]
  | .doctype _ value => [.fixed (Doctype.markup (Doctype.declared p.options value))]
  | .filter _ name attributes text =>
    let given := Dictionary.ofEntries (attributes.map fun a => (a.name, p.eval f a.value))
    ((Dictionary.find? name p.filters).map fun g => Fragment.raw (g text given)).toList
  | _ => []

/-- The failures a node raises itself. -/
def failures (p : Page) (f : Frame) : Node → List RenderError
  | .loop loc _ _ => [.iterationLimit p.budget loc]
  | .call loc name _ _ _ =>
    match Dictionary.find? (p.nameOf f name).1 p.mixins with
    | none => [.undefinedMixin (p.nameOf f name).1 loc]
    | some _ => [.callDepth p.options.maxDepth loc]
  | .filter loc name _ _ =>
    match Dictionary.find? name p.filters with
    | none => [.unknownFilter name loc]
    | some _ => []
  | _ => []

end Page

namespace Chain

/-- The contents of all calls at hand stand in the template. -/
def Within (N : Node → Prop) : {n : Nat} → Chain n → Prop
  | _, page _ => True
  | _, call _ content caller => (∀ m ∈ everywhereOption content, N m) ∧ caller.Within N

theorem within_true {n : Nat} (c : Chain n) : c.Within fun _ => True := by
  induction c with
  | page f => trivial
  | call f content caller ih => exact ⟨fun _ _ => trivial, ih⟩

theorem Grows.within {N : Node → Prop} {n : Nat} {a b : Chain n} (h : a.Grows b)
    (ha : a.Within N) : b.Within N := by
  induction a with
  | page f =>
    cases b
    exact ha
  | call f content caller ih =>
    cases b
    obtain ⟨_, rfl, hc⟩ := h
    exact ⟨ha.1, ih hc ha.2⟩

theorem within_mapFrame {N : Node → Prop} {n : Nat} {g : Frame → Frame} {c : Chain n} :
    (c.mapFrame g).Within N ↔ c.Within N := by
  cases c <;> rfl

end Chain

section

variable (p : Page) (N : Node → Prop)

/-- A node of the template writes the piece in some frame. -/
def Page.Written (piece : Fragment) : Prop :=
  ∃ m, N m ∧ ∃ f, piece ∈ p.pieces f m

/-- A node of the template raises the failure in some frame. -/
def Page.Raised (e : RenderError) : Prop :=
  ∃ m, N m ∧ ∃ f, e ∈ p.failures f m

/-- A session goes on: names are kept, and what is added to the page is written by the template. -/
structure Session.Continues {n : Nat} (s t : Session n) : Prop where
  chain : s.chain.Grows t.chain
  out : ∃ fs : List Fragment, t.out = s.out ++ fs.toArray ∧ ∀ piece ∈ fs, p.Written N piece

/-- All that an action does comes from the nodes of the template. -/
def Page.Accounts {n : Nat} {α : Type} (a : EStateM RenderError (Session n) α) : Prop :=
  ∀ s, s.chain.Within N →
    match a s with
    | .ok _ t => Session.Continues p N s t
    | .error e t => Session.Continues p N s t ∧ p.Raised N e

end

variable {p : Page} {N : Node → Prop} {n : Nat} {α β : Type}

theorem Session.Continues.refl (s : Session n) : Session.Continues p N s s :=
  ⟨.refl _, [], by simp, by simp⟩

theorem Session.Continues.trans {s t u : Session n} (h : Session.Continues p N s t)
    (h' : Session.Continues p N t u) : Session.Continues p N s u := by
  obtain ⟨fs, hfs, hw⟩ := h.out
  obtain ⟨gs, hgs, hw'⟩ := h'.out
  refine ⟨h.chain.trans h'.chain, fs ++ gs, ?_, List.forall_mem_append.mpr ⟨hw, hw'⟩⟩
  rw [hgs, hfs]
  simp

namespace Page.Accounts

/-! ## Single steps -/

theorem pure (x : α) : p.Accounts N (pure x : EStateM RenderError (Session n) α) :=
  fun s _ => .refl s

theorem get : p.Accounts N (get : EStateM RenderError (Session n) (Session n)) :=
  fun s _ => .refl s

theorem bind {a : EStateM RenderError (Session n) α} {k : α → EStateM RenderError (Session n) β}
    (ha : p.Accounts N a) (hk : ∀ x, p.Accounts N (k x)) : p.Accounts N (a >>= k) := by
  intro s hs
  have h := ha s hs
  simp only [Bind.bind, EStateM.bind]
  cases hx : a s with
  | error e t =>
    rw [hx] at h
    exact h
  | ok x t =>
    rw [hx] at h
    -- the contents at hand are those there were, so the second action may rely on them too
    have h' := hk x t (h.chain.within hs)
    dsimp only
    cases hy : k x t with
    | ok y u =>
      rw [hy] at h'
      exact h.trans h'
    | error e u =>
      rw [hy] at h'
      exact ⟨h.trans h'.1, h'.2⟩

/-- What is done with a value is done with what the expression is worth in some frame. -/
theorem withValue {e : Expr} {k : Value → EStateM RenderError (Session n) β}
    (h : ∀ f, p.Accounts N (k (p.eval f e))) : p.Accounts N (p.value e >>= k) :=
  fun s hs => h s.chain.frame s hs

theorem emit {fs : List Fragment} (h : ∀ piece ∈ fs, p.Written N piece) :
    p.Accounts N (Action.emit fs : Action n) :=
  fun _ _ => ⟨.refl _, fs, rfl, h⟩

theorem throw {e : RenderError} (h : p.Raised N e) : p.Accounts N (throw e : Action n) :=
  fun s _ => ⟨.refl s, h⟩

theorem mapFrame {g : Frame → Frame} (h : ∀ f : Frame, f.Grows (g f)) :
    p.Accounts N (modify fun s => { s with chain := s.chain.mapFrame g } : Action n) :=
  fun _ _ => ⟨Chain.grows_mapFrame h _, [], by simp, by simp⟩

/-- Acting on other frames accounts for what leaving brings back. -/
theorem within {m : Nat} {enter : Chain n → Chain m} {leave : Chain n → Chain m → Chain n}
    {a : Action m} (ha : p.Accounts N a) (hin : ∀ c, c.Within N → (enter c).Within N)
    (hout : ∀ c c', (enter c).Grows c' → c.Grows (leave c c')) :
    p.Accounts N (Action.within enter leave a) := by
  rintro ⟨c, out⟩ hs
  have h := ha ⟨enter c, out⟩ (hin c hs)
  simp only [Action.within]
  cases hx : a ⟨enter c, out⟩ with
  | ok x t =>
    rw [hx] at h
    exact ⟨hout c _ h.chain, h.out⟩
  | error e t =>
    rw [hx] at h
    exact ⟨⟨hout c _ h.1.chain, h.1.out⟩, h.2⟩

theorem withScope {scope : Dictionary Value} {a : Action n} (ha : p.Accounts N a) :
    p.Accounts N (a.withScope scope) :=
  within ha (fun _ hc => Chain.within_mapFrame.mpr hc) fun _ _ => Chain.Grows.popped

theorem inCall {f : Frame} {content : Option (List Node)} {a : Action (n + 1)}
    (ha : p.Accounts N a) (hc : ∀ m ∈ everywhereOption content, N m) :
    p.Accounts N (Page.inCall f content a) :=
  within ha (fun _ h => ⟨hc, h⟩) fun _ _ => Chain.Grows.returned

theorem inCaller {run : List Node → Action n}
    (hr : ∀ ns, (∀ m ∈ everywhereAll ns, N m) → p.Accounts N (run ns)) :
    p.Accounts N (Page.inCaller run) := by
  rintro ⟨c, out⟩ hs
  cases c with
  | call f content caller =>
    cases content with
    | none => exact .refl _
    | some ns =>
      have hin : ∀ c : Chain (n + 1), c.Within N → c.caller.Within N := by
        intro c hc
        cases c
        exact hc.2
      -- the content stands in the template, since all contents of the chain do
      have hrun : p.Accounts N (run ns) := hr ns hs.1
      have hwithin := within hrun hin fun _ _ => Chain.Grows.resumed
      exact hwithin ⟨.call f (some ns) caller, out⟩ hs

/-! ## Statements, loops and branches -/

theorem grows_executeAll (f : Frame) (list : List Statement) : f.Grows (p.executeAll f list) := by
  induction list generalizing f with
  | nil => exact .refl f
  | cons st list ih =>
    refine Frame.Grows.trans ?_ (ih (p.execute f st))
    cases st with
    | declare name e => exact .declare name _ f
    | assign name op e => exact .assign name _ f

theorem repeatWhile {loc : Location} {test : Expr} {body : Action n} (hb : p.Accounts N body)
    (hl : p.Raised N (.iterationLimit p.budget loc)) (left : Nat) :
    p.Accounts N (p.repeatWhile loc test body left) := by
  induction left with
  | zero =>
    refine withValue fun f => ?_
    split
    -- the test still holds, and no turn is left
    · exact throw hl
    · exact pure ()
  | succ left ih =>
    refine withValue fun f => ?_
    split
    · exact bind hb fun _ => ih
    · exact pure ()

theorem forEntries {name : String} {key : Option String} {body : Action n}
    (hb : p.Accounts N body) (es : List (Value × Value)) :
    p.Accounts N (Page.forEntries name key body es) := by
  induction es with
  | nil => exact pure ()
  | cons entry es ih => exact bind (withScope hb) fun _ => ih

/-! ## Nodes -/

/-- The ways out of a tree account for what they do. -/
structure Leads (p : Page) (N : Node → Prop) (exits : Exits n) : Prop where
  slot : p.Accounts N exits.slot
  enter : ∀ loc mixin f content, p.Raised N (.callDepth p.options.maxDepth loc) →
    (∀ m ∈ everywhereAll mixin.body, N m) → (∀ m ∈ everywhereOption content, N m) →
      p.Accounts N (exits.enter loc mixin f content)

/-- The bodies of all mixins stand in the template. -/
def Pooled (p : Page) (N : Node → Prop) : Prop :=
  ∀ e ∈ p.mixins, ∀ m ∈ everywhereAll e.2.body, N m

variable {exits : Exits n}

theorem call (hx : Leads p N exits) (hp : Pooled p N) {loc : Location} {name : NameSource}
    {args : List Expr} {head : Head} {content : Option (List Node)}
    (hn : ∀ m ∈ (Node.call loc name args head content).everywhere, N m) :
    p.Accounts N (p.call exits loc name args head content) := by
  rw [Node.everywhere, List.forall_mem_cons] at hn
  refine bind get fun s => ?_
  dsimp only
  cases hm : Dictionary.find? (p.nameOf s.chain.frame name).1 p.mixins with
  | none => exact throw ⟨_, hn.1, s.chain.frame, by simp [failures, hm]⟩
  | some mixin =>
    -- a call of a mixin that is there can only fail for its depth
    have hdepth : p.Raised N (.callDepth p.options.maxDepth loc) :=
      ⟨_, hn.1, s.chain.frame, by simp [failures, hm]⟩
    have hbody : ∀ m ∈ everywhereAll mixin.body, N m := hp _ (Dictionary.mem_of_find? hm)
    exact hx.enter _ _ _ _ hdepth hbody hn.2

theorem filter {loc : Location} {name : String} {attributes : List Attribute} {text : String}
    (hn : N (.filter loc name attributes text)) :
    p.Accounts N (p.filter loc name attributes text : Action n) := by
  refine bind get fun s => ?_
  dsimp only
  cases hg : Dictionary.find? name p.filters with
  | none => exact throw ⟨_, hn, s.chain.frame, by simp [failures, hg]⟩
  | some g => exact emit fun piece hp => ⟨_, hn, s.chain.frame, by simpa [pieces, hg] using hp⟩

mutual

theorem node (hx : Leads p N exits) (hp : Pooled p N) (nd : Node)
    (hn : ∀ m ∈ nd.everywhere, N m) : p.Accounts N (p.act exits nd) := by
  have hself : N nd := hn nd nd.mem_everywhere_self
  match nd with
  | .group _ body | .namedBlock _ _ _ body =>
    rw [Node.everywhere, List.forall_mem_cons] at hn
    exact all hx hp body hn.2
  | .tag loc name head selfClosing textOnly body =>
    rw [Node.everywhere, List.forall_mem_cons] at hn
    rw [act]
    refine bind get fun s => ?_
    dsimp only
    have hw : ∀ piece ∈ p.pieces s.chain.frame (.tag loc name head selfClosing textOnly body),
        p.Written N piece := fun piece h => ⟨_, hself, s.chain.frame, h⟩
    -- the start tag and the end tag hold nothing but these pieces
    simp only [pieces, List.mem_append, List.mem_cons] at hw
    split
    · exact emit fun piece h => hw piece (by grind)
    · exact bind (emit fun piece h => hw piece (by grind)) fun _ =>
        bind (all hx hp body hn.2) fun _ => emit fun piece h => hw piece (by grind)
  | .text loc raw segs =>
    rw [Node.everywhere, List.forall_mem_cons] at hn
    refine segments hx hp segs hn.2 fun seg hs f piece h => ⟨_, hself, f, ?_⟩
    exact List.mem_flatMap.mpr ⟨seg, hs, h⟩
  | .output loc e escape =>
    rw [act]
    exact withValue fun f => emit fun piece h => ⟨_, hself, f, h⟩
  | .statements _ list => exact mapFrame fun f => grows_executeAll f list
  | .comment _ text true body => exact emit fun piece h => ⟨_, hself, {}, h⟩
  | .doctype _ value => exact emit fun piece h => ⟨_, hself, {}, h⟩
  | .conditional _ negate test body next =>
    rw [Node.everywhere, List.forall_mem_cons, List.forall_mem_append] at hn
    rw [act]
    refine withValue fun f => ?_
    split
    · exact all hx hp body hn.2.1
    · exact otherwise hx hp next hn.2.2
  -- the tests write nothing, so only the body that is taken counts
  | .switch _ subject bs =>
    rw [Node.everywhere, List.forall_mem_cons] at hn
    rw [act_switch]
    refine bind get fun s => ?_
    cases hc : p.chosen s.chain.frame subject bs with
    | none => exact pure ()
    | some ns =>
      obtain ⟨b, hb, he⟩ := mem_of_chosen p hc
      exact branches hx hp bs hn.2 b hb ns he
  | .each _ name key source body ifEmpty =>
    rw [Node.everywhere, List.forall_mem_cons, List.forall_mem_append] at hn
    rw [act]
    refine withValue fun f => ?_
    split
    · exact option hx hp ifEmpty hn.2.2
    · exact forEntries (all hx hp body hn.2.1) _
  | .loop loc test body =>
    rw [Node.everywhere, List.forall_mem_cons] at hn
    exact repeatWhile (all hx hp body hn.2) ⟨_, hself, {}, by simp [failures]⟩ p.budget
  | .call loc name args head content => exact call hx hp hn
  | .slot _ => exact hx.slot
  | .filter loc name attributes text => exact filter hself
  | .comment _ _ false _ | .mixin .. | .includes .. | .rawInclude .. | .inherits .. | .yield _ =>
    exact pure ()

theorem all (hx : Leads p N exits) (hp : Pooled p N) (ns : List Node)
    (hn : ∀ m ∈ everywhereAll ns, N m) : p.Accounts N (p.actAll exits ns) := by
  match ns with
  | [] => exact pure ()
  | nd :: ns =>
    rw [everywhereAll, List.forall_mem_append] at hn
    exact bind (node hx hp nd hn.1) fun _ => all hx hp ns hn.2

theorem segments (hx : Leads p N exits) (hp : Pooled p N) (segs : List Segment)
    (hn : ∀ m ∈ everywhereSegments segs, N m)
    (hw : ∀ seg ∈ segs, ∀ f, ∀ piece ∈ p.segmentPieces f seg, p.Written N piece) :
    p.Accounts N (p.actSegments exits segs) := by
  match segs with
  | [] => exact pure ()
  | .literal text :: rest =>
    rw [List.forall_mem_cons] at hw
    exact bind (emit (hw.1 {})) fun _ => segments hx hp rest hn hw.2
  | .escaped e :: rest | .raw e :: rest =>
    rw [List.forall_mem_cons] at hw
    rw [actSegments]
    exact withValue fun f => bind (emit (hw.1 f)) fun _ => segments hx hp rest hn hw.2
  | .tag nd :: rest =>
    rw [List.forall_mem_cons] at hw
    rw [everywhereSegments, List.forall_mem_append] at hn
    exact bind (node hx hp nd hn.1) fun _ => segments hx hp rest hn.2 hw.2

theorem otherwise (hx : Leads p N exits) (hp : Pooled p N) (o : Otherwise)
    (hn : ∀ m ∈ o.everywhere, N m) : p.Accounts N (p.actOtherwise exits o) := by
  match o with
  | .nothing => exact pure ()
  | .elseIf _ test body next =>
    rw [Otherwise.everywhere, List.forall_mem_append] at hn
    rw [actOtherwise]
    refine withValue fun f => ?_
    split
    · exact all hx hp body hn.1
    · exact otherwise hx hp next hn.2
  | .otherwise _ body => exact all hx hp body hn

theorem branches (hx : Leads p N exits) (hp : Pooled p N) (bs : List Branch)
    (hn : ∀ m ∈ everywhereBranches bs, N m) :
    ∀ b ∈ bs, ∀ ns, b.body = some ns → p.Accounts N (p.actAll exits ns) := by
  match bs with
  | [] => simp
  | .mk _ _ none :: rest =>
    rw [List.forall_mem_cons]
    exact ⟨fun ns h => (nomatch h), branches hx hp rest hn⟩
  | .mk _ _ (some body) :: rest =>
    rw [everywhereBranches, List.forall_mem_append] at hn
    rw [List.forall_mem_cons]
    refine ⟨fun ns h => ?_, branches hx hp rest hn.2⟩
    cases h
    exact all hx hp body hn.1

theorem option (hx : Leads p N exits) (hp : Pooled p N) (o : Option (List Node))
    (hn : ∀ m ∈ everywhereOption o, N m) : p.Accounts N (p.actOption exits o) := by
  match o with
  | none => exact pure ()
  | some ns => exact all hx hp ns hn

end

/-! ## Calls -/

/-- The induction is on the length of the chain: content is rendered one frame further out. -/
theorem renderWith (hp : Pooled p N) {enter : Page.Entrance}
    (he : ∀ n loc mixin f content, p.Raised N (.callDepth p.options.maxDepth loc) →
      (∀ m ∈ everywhereAll mixin.body, N m) → (∀ m ∈ everywhereOption content, N m) →
        p.Accounts N (enter n loc mixin f content)) (n : Nat) (ns : List Node)
    (hn : ∀ m ∈ everywhereAll ns, N m) : p.Accounts N (p.renderWith enter n ns) := by
  induction n generalizing ns with
  | zero => exact all ⟨pure (), he 0⟩ hp ns hn
  | succ n ih => exact all ⟨inCaller ih, he (n + 1)⟩ hp ns hn

/-- The induction is on how many more calls may be active. -/
theorem renderNodes (hp : Pooled p N) (left n : Nat) (ns : List Node)
    (hn : ∀ m ∈ everywhereAll ns, N m) : p.Accounts N (p.renderNodes left n ns) := by
  induction left generalizing n ns with
  | zero =>
    -- any call is one too many
    refine renderWith hp (fun n loc mixin f content hr _ _ => ?_) n ns hn
    exact throw hr
  | succ left ih =>
    refine renderWith hp (fun n loc mixin f content _ hm hc => ?_) n ns hn
    have hbody := ih (n + 1) mixin.body hm
    exact inCall hbody hc

end Page.Accounts

/-! ## The page -/

/-- What stays the same while a linked template is rendered. -/
def Linked.page (l : Linked) (data : Value) (options : Options) (filters : Dictionary Filter) :
    Page :=
  ⟨l.mixins, options, filters, data, Dialect.ofDoctype (Doctype.name? options l.nodes)⟩

variable (l : Linked) (data : Value) (options : Options) (filters : Dictionary Filter)

theorem renderFragments_eq :
    renderFragments l data options filters =
      match (l.page data options filters).renderNodes options.maxDepth 0 l.nodes
        ⟨.page {}, #[]⟩ with
      | .ok () s => .ok s.out
      | .error e _ => .error e :=
  rfl

/-- A run from the start only does what the nodes of the template account for. -/
theorem Linked.accounts_render :
    (l.page data options filters).Accounts (· ∈ l.everywhere)
      ((l.page data options filters).renderNodes options.maxDepth 0 l.nodes) := by
  refine Page.Accounts.renderNodes (fun e he m hm => ?_) _ _ _ fun m hm => ?_
  · exact List.mem_append_right _ (List.mem_flatMap.mpr ⟨e, he, hm⟩)
  · exact List.mem_append_left _ hm

theorem forall_renderFragments {out : Array Fragment}
    (h : renderFragments l data options filters = .ok out) :
    ∀ piece ∈ out, ∃ m ∈ l.everywhere, ∃ f, piece ∈ (l.page data options filters).pieces f m := by
  have ha := l.accounts_render data options filters ⟨.page {}, #[]⟩ trivial
  rw [renderFragments_eq] at h
  split at h
  next s hs =>
    cases h
    rw [hs] at ha
    obtain ⟨fs, hfs, hw⟩ := ha.out
    intro piece hp
    rw [hfs] at hp
    exact hw piece (by simpa using hp)
  next => exact nomatch h

theorem of_renderFragments_error {e : RenderError}
    (h : renderFragments l data options filters = .error e) :
    ∃ m ∈ l.everywhere, ∃ f, e ∈ (l.page data options filters).failures f m := by
  have ha := l.accounts_render data options filters ⟨.page {}, #[]⟩ trivial
  rw [renderFragments_eq] at h
  split at h
  next => exact nomatch h
  next e' s hs =>
    cases h
    rw [hs] at ha
    exact ha.2

end PugTemplate
