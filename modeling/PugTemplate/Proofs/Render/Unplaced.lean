import PugTemplate.Proofs.Link.Unplaced
import PugTemplate.Proofs.Render.Walk
import PugTemplate.Render.Render

/-!
# Rendering without positions

A position is used by a failure to say where it happened, and by nothing else. So the page of a
template whose positions are forgotten is the page of the template, and where one cannot be rendered
neither can the other, for the same reason.
-/

namespace PugTemplate

/-- A failure whose position is forgotten. -/
def RenderError.unplaced : RenderError → RenderError
  | undefinedMixin name _ => .undefinedMixin name .nowhere
  | unknownFilter name _ => .unknownFilter name .nowhere
  | iterationLimit limit _ => .iterationLimit limit .nowhere
  | callDepth limit _ => .callDepth limit .nowhere

def Chain.unplaced {n : Nat} : Chain n → Chain n
  | page f => page f
  | call f content caller => call f (unplacedOption content) caller.unplaced

def Session.unplaced {n : Nat} (s : Session n) : Session n :=
  { s with chain := s.chain.unplaced }

def Page.unplaced (p : Page) : Page :=
  { p with mixins := p.mixins.map (Prod.map id Mixin.unplaced) }

namespace Chain

variable {n : Nat}

@[simp] theorem frame_unplaced (c : Chain n) : c.unplaced.frame = c.frame := by
  cases c <;> rfl

theorem mapFrame_unplaced (g : Frame → Frame) (c : Chain n) :
    c.unplaced.mapFrame g = (c.mapFrame g).unplaced := by
  cases c <;> rfl

theorem caller_unplaced (c : Chain (n + 1)) : c.unplaced.caller = c.caller.unplaced := by
  cases c
  rfl

theorem content_unplaced (c : Chain (n + 1)) : c.unplaced.content = unplacedOption c.content := by
  cases c
  rfl

theorem withCaller_unplaced (c : Chain (n + 1)) (d : Chain n) :
    c.unplaced.withCaller d.unplaced = (c.withCaller d).unplaced := by
  cases c
  rfl

end Chain

namespace Action

variable {n : Nat}

def unplacedResult : EStateM.Result RenderError (Session n) Unit →
    EStateM.Result RenderError (Session n) Unit
  | .ok () s => .ok () s.unplaced
  | .error e s => .error e.unplaced s.unplaced

/-- From the session without positions, the second action does what the first one does. -/
def Unplaces (a b : Action n) : Prop :=
  ∀ s, b s.unplaced = unplacedResult (a s)

end Action

namespace Action.Unplaces

variable {n m : Nat} {a b c d : Action n} {p : Page}

theorem pure : Unplaces (n := n) (pure ()) (pure ()) :=
  fun _ => rfl

theorem throw (e : RenderError) : Unplaces (n := n) (throw e) (throw e.unplaced) :=
  fun _ => rfl

theorem emit (fs : List Fragment) : Unplaces (n := n) (Action.emit fs) (Action.emit fs) :=
  fun _ => rfl

theorem mapFrame (g : Frame → Frame) :
    Unplaces (n := n) (modify fun s => { s with chain := s.chain.mapFrame g })
      (modify fun s => { s with chain := s.chain.mapFrame g }) := by
  intro s
  exact congrArg (fun c => EStateM.Result.ok () (⟨c, s.out⟩ : Session n))
    (s.chain.mapFrame_unplaced g)

theorem seq (hab : Unplaces a b) (hcd : Unplaces c d) : Unplaces (do a; c) (do b; d) := by
  intro s
  simp only [bind, EStateM.bind]
  rw [hab s]
  cases a s with
  | error e t => rfl
  | ok _ t => exact hcd t

theorem either {q : Prop} [Decidable q] (hab : Unplaces a b) (hcd : Unplaces c d) :
    Unplaces (if q then a else c) (if q then b else d) := by
  split
  · exact hab
  · exact hcd

theorem get {k l : Session n → Action n} (h : ∀ s, Unplaces (k s) (l s.unplaced)) :
    Unplaces (get >>= k) (get >>= l) :=
  fun s => h s s

theorem value {e : Expr} {k l : Value → Action n} (h : ∀ v, Unplaces (k v) (l v)) :
    Unplaces (p.value e >>= k) (p.unplaced.value e >>= l) := by
  intro s
  have hl : (p.unplaced.value e >>= l) s.unplaced = l (p.eval s.chain.frame e) s.unplaced := by
    rw [← s.chain.frame_unplaced]
    rfl
  rw [hl]
  exact h (p.eval s.chain.frame e) s

theorem within {a b : Action m} {enter enter' : Chain n → Chain m}
    {leave leave' : Chain n → Chain m → Chain n} (h : Unplaces a b)
    (hin : ∀ c, enter' c.unplaced = (enter c).unplaced)
    (hout : ∀ c d, leave' c.unplaced d.unplaced = (leave c d).unplaced) :
    Unplaces (a.within enter leave) (b.within enter' leave') := by
  intro s
  have hb : b ⟨enter' s.chain.unplaced, s.out⟩ = unplacedResult (a ⟨enter s.chain, s.out⟩) := by
    rw [hin]
    exact h ⟨enter s.chain, s.out⟩
  obtain ⟨chain, out⟩ := s
  show Action.within enter' leave' b ⟨chain.unplaced, out⟩ = _
  rw [Action.within, Action.within, hb]
  cases a ⟨enter chain, out⟩ with
  | error e t =>
    exact congrArg (fun c => EStateM.Result.error e.unplaced (⟨c, t.out⟩ : Session n))
      (hout chain t.chain)
  | ok _ t =>
    exact congrArg (fun c => EStateM.Result.ok () (⟨c, t.out⟩ : Session n)) (hout chain t.chain)

theorem withScope (h : Unplaces a b) (scope : Dictionary Value) :
    Unplaces (a.withScope scope) (b.withScope scope) :=
  within h (fun c => c.mapFrame_unplaced _) fun _ d => d.mapFrame_unplaced _

/-! ## Loops -/

theorem repeatWhile (h : Unplaces a b) (loc : Location) (test : Expr) (left : Nat) :
    Unplaces (p.repeatWhile loc test a left) (p.unplaced.repeatWhile .nowhere test b left) := by
  induction left with
  | zero => exact value fun v => either (throw (.iterationLimit p.budget loc)) pure
  | succ left ih => exact value fun v => either (seq h ih) pure

theorem forEntries (h : Unplaces a b) (value : String) (key : Option String)
    (es : List (Value × Value)) :
    Unplaces (Page.forEntries value key a es) (Page.forEntries value key b es) := by
  induction es with
  | nil => exact pure
  | cons entry es ih => exact seq (withScope h _) ih

end Action.Unplaces

/-- Two ways out of a tree, one for trees without positions. -/
structure Exits.Unplaces {n : Nat} (x y : Exits n) : Prop where
  slot : Action.Unplaces x.slot y.slot
  enter : ∀ loc mixin f content, Action.Unplaces (x.enter loc mixin f content)
    (y.enter .nowhere mixin.unplaced f (unplacedOption content))

namespace Action.Unplaces

variable {n : Nat} {x y : Exits n} {p : Page}

/-! ## Nodes -/

theorem call (hx : x.Unplaces y) (loc : Location) (name : NameSource) (args : List Expr)
    (head : Head) (content : Option (List Node)) :
    Unplaces (p.call x loc name args head content)
      (p.unplaced.call y .nowhere name args head (unplacedOption content)) := by
  refine get fun s => ?_
  rw [show s.unplaced.chain.frame = s.chain.frame from s.chain.frame_unplaced]
  have hmixins := Dictionary.find?_map Mixin.unplaced (p.nameOf s.chain.frame name).1 p.mixins
  dsimp only
  rw [show Dictionary.find? (p.unplaced.nameOf s.chain.frame name).1 p.unplaced.mixins = _ from
    hmixins]
  cases Dictionary.find? (p.nameOf s.chain.frame name).1 p.mixins with
  | none => exact throw (.undefinedMixin _ loc)
  | some mixin =>
    rw [isSome_unplacedOption]
    exact hx.enter loc mixin _ content

theorem filter (loc : Location) (name : String) (attributes : List Attribute) (text : String) :
    Unplaces (n := n) (p.filter loc name attributes text)
      (p.unplaced.filter .nowhere name attributes text) := by
  refine get fun s => ?_
  rw [show s.unplaced.chain.frame = s.chain.frame from s.chain.frame_unplaced]
  dsimp only
  rw [show p.unplaced.filters = p.filters from rfl]
  cases Dictionary.find? name p.filters with
  | none => exact throw (.unknownFilter name loc)
  | some g => exact emit _

theorem chosen_unplaced (f : Frame) (subject : Expr) (bs : List Branch) :
    p.unplaced.chosen f subject (unplacedBranches bs) = unplacedOption (p.chosen f subject bs) := by
  have hbranches : (unplacedBranches bs).map (fun b => (b.test, b.body)) =
      (bs.map fun b => (b.test, b.body)).map fun b => (b.1, b.2.map unplacedAll) := by
    rw [unplacedBranches_eq_map, List.map_map, List.map_map]
    refine List.map_congr_left fun b _ => ?_
    obtain ⟨loc, test, body⟩ := b
    cases body <;> rfl
  have hoption (o : Option (List Node)) : o.map unplacedAll = unplacedOption o := by
    cases o <;> rfl
  rw [Page.chosen, hbranches, ← hoption]
  exact Page.choose_map unplacedAll none _

mutual

theorem node (hx : x.Unplaces y) (nd : Node) :
    Unplaces (p.act x nd) (p.unplaced.act y nd.unplaced) := by
  match nd with
  | .group _ body | .namedBlock _ _ _ body => exact all hx body
  | .tag loc name head selfClosing textOnly body =>
    rw [Node.unplaced, Page.act, Page.act]
    refine get fun s => ?_
    rw [show s.unplaced.chain.frame = s.chain.frame from s.chain.frame_unplaced]
    have hempty : (unplacedAll body).isEmpty = body.isEmpty := by cases body <;> rfl
    dsimp only
    rw [hempty]
    exact either (emit _) (seq (emit _) (seq (all hx body) (emit _)))
  | .text _ _ segs => exact segments hx segs
  | .output _ e escape =>
    rw [Node.unplaced, Page.act, Page.act]
    exact value fun v => emit _
  | .statements _ list => exact mapFrame _
  | .comment _ text true body =>
    cases body with
    | none => exact emit _
    | some _ => exact emit _
  | .doctype _ value => exact emit _
  | .conditional _ negate test body next =>
    rw [Node.unplaced, Page.act, Page.act]
    exact value fun v => either (all hx body) (otherwise hx next)
  | .switch _ subject bs =>
    rw [Node.unplaced, Page.act_switch, Page.act_switch]
    refine get fun s => ?_
    rw [show s.unplaced.chain.frame = s.chain.frame from s.chain.frame_unplaced, chosen_unplaced]
    cases hc : p.chosen s.chain.frame subject bs with
    | none => exact pure
    | some ns =>
      obtain ⟨b, hb, he⟩ := Page.mem_of_chosen p hc
      exact branches hx bs b hb ns he
  | .each _ name key source body ifEmpty =>
    rw [Node.unplaced, Page.act, Page.act]
    refine value fun v => ?_
    split
    · exact option hx ifEmpty
    · exact forEntries (all hx body) name key _
  | .loop loc test body => exact repeatWhile (all hx body) loc test _
  | .call loc name args head content => exact call hx loc name args head content
  | .slot _ => exact hx.slot
  | .filter loc name attributes text => exact filter loc name attributes text
  | .comment _ _ false _ | .mixin .. | .includes .. | .rawInclude .. | .inherits .. | .yield _ =>
    exact pure

theorem all (hx : x.Unplaces y) (ns : List Node) :
    Unplaces (p.actAll x ns) (p.unplaced.actAll y (unplacedAll ns)) := by
  match ns with
  | [] => exact pure
  | nd :: ns => exact seq (node hx nd) (all hx ns)

theorem segments (hx : x.Unplaces y) (segs : List Segment) :
    Unplaces (p.actSegments x segs) (p.unplaced.actSegments y (unplacedSegments segs)) := by
  match segs with
  | [] => exact pure
  | .literal text :: rest => exact seq (emit _) (segments hx rest)
  | .escaped e :: rest | .raw e :: rest =>
    rw [unplacedSegments, Page.actSegments, Page.actSegments]
    · exact value fun v => seq (emit _) (segments hx rest)
    · exact nofun
  | .tag nd :: rest => exact seq (node hx nd) (segments hx rest)

theorem otherwise (hx : x.Unplaces y) (o : Otherwise) :
    Unplaces (p.actOtherwise x o) (p.unplaced.actOtherwise y o.unplaced) := by
  match o with
  | .nothing => exact pure
  | .elseIf _ test body next =>
    rw [Otherwise.unplaced, Page.actOtherwise, Page.actOtherwise]
    exact value fun v => either (all hx body) (otherwise hx next)
  | .otherwise _ body => exact all hx body

theorem branches (hx : x.Unplaces y) (bs : List Branch) :
    ∀ b ∈ bs, ∀ ns, b.body = some ns →
      Unplaces (p.actAll x ns) (p.unplaced.actAll y (unplacedAll ns)) := by
  match bs with
  | [] => simp
  | .mk _ _ none :: rest =>
    rw [List.forall_mem_cons]
    exact ⟨fun ns h => (nomatch h), branches hx rest⟩
  | .mk _ _ (some body) :: rest =>
    rw [List.forall_mem_cons]
    refine ⟨fun ns h => ?_, branches hx rest⟩
    cases h
    exact all hx body

theorem option (hx : x.Unplaces y) (o : Option (List Node)) :
    Unplaces (p.actOption x o) (p.unplaced.actOption y (unplacedOption o)) := by
  match o with
  | none => exact pure
  | some ns => exact all hx ns

end

end Action.Unplaces

namespace Page

variable {n : Nat} {p : Page}

theorem inCaller_unplaces {run run' : List Node → Action n}
    (h : ∀ ns, Action.Unplaces (run ns) (run' (unplacedAll ns))) :
    Action.Unplaces (inCaller run) (inCaller run') := by
  intro s
  rw [inCaller, inCaller, show s.unplaced.chain.content = _ from s.chain.content_unplaced]
  cases hc : s.chain.content with
  | none => rfl
  | some content =>
    exact Action.Unplaces.within (h content) Chain.caller_unplaced Chain.withCaller_unplaced s

theorem inCall_unplaces {a b : Action (n + 1)} (f : Frame) (content : Option (List Node))
    (h : Action.Unplaces a b) :
    Action.Unplaces (inCall f content a) (inCall f (unplacedOption content) b) :=
  .within h (fun _ => rfl) fun _ d => d.caller_unplaced

/-- What calls do, and what they do in a page without positions. -/
def Entrance.Unplaces (enter enter' : Entrance) : Prop :=
  ∀ n loc mixin f content, Action.Unplaces (enter n loc mixin f content)
    (enter' n .nowhere mixin.unplaced f (unplacedOption content))

theorem renderWith_unplaces {enter enter' : Entrance} (h : Entrance.Unplaces enter enter')
    (ns : List Node) :
    Action.Unplaces (p.renderWith enter n ns) (p.unplaced.renderWith enter' n (unplacedAll ns)) := by
  induction n generalizing ns with
  | zero => exact .all ⟨.pure, h 0⟩ ns
  | succ n ih => exact .all ⟨inCaller_unplaces ih, h (n + 1)⟩ ns

theorem renderNodes_unplaces (left : Nat) (ns : List Node) :
    Action.Unplaces (p.renderNodes left n ns) (p.unplaced.renderNodes left n (unplacedAll ns)) := by
  induction left generalizing n ns with
  | zero => exact renderWith_unplaces (fun _ loc _ _ _ => .throw (.callDepth _ loc)) ns
  | succ left ih =>
    exact renderWith_unplaces (fun _ _ mixin f content => inCall_unplaces f content (ih mixin.body))
      ns

end Page

theorem Doctype.name?_unplacedAll (options : Options) (ns : List Node) :
    Doctype.name? options (unplacedAll ns) = Doctype.name? options ns := by
  have hdoctype : Doctype.ofNode? ∘ Node.unplaced = Doctype.ofNode? :=
    funext fun n => by cases n <;> rfl
  rw [Doctype.name?, postorderAll_unplacedAll, List.findSome?_map, hdoctype]
  rfl

theorem renderFragments_unplaced (linked : Linked) (data : Value) (options : Options)
    (filters : Dictionary Filter) :
    renderFragments linked.unplaced data options filters =
      (renderFragments linked data options filters).mapError RenderError.unplaced := by
  have hpage := Page.renderNodes_unplaces (n := 0)
    (p := ⟨linked.mixins, options, filters, data,
      .ofDoctype (Doctype.name? options linked.nodes)⟩) options.maxDepth linked.nodes
    ⟨.page {}, #[]⟩
  unfold renderFragments
  dsimp only [Linked.unplaced]
  rw [Doctype.name?_unplacedAll]
  dsimp only [Page.unplaced, Session.unplaced, Chain.unplaced] at hpage
  rw [hpage]
  generalize Page.renderNodes _ _ _ _ _ = result
  cases result <;> rfl

/-- Without positions a template renders as it does with them, up to the position of a failure. -/
theorem render_unplaced (linked : Linked) (data : Value) (options : Options)
    (filters : Dictionary Filter) :
    render linked.unplaced data options filters =
      (render linked data options filters).mapError RenderError.unplaced := by
  rw [render, render, renderFragments_unplaced]
  cases renderFragments linked data options filters <;> rfl

/-- Templates that are the same up to positions give the same pages. -/
theorem render_congr {x y : Linked} (h : y.unplaced = x.unplaced) (data : Value)
    (options : Options) (filters : Dictionary Filter) :
    (render y data options filters).mapError RenderError.unplaced =
      (render x data options filters).mapError RenderError.unplaced := by
  rw [← render_unplaced, h, render_unplaced]

end PugTemplate
