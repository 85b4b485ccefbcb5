import PugTemplate.Proofs.Render.Machine
import PugTemplate.Proofs.Render.Origin

/-!
# Rendering ends

The machine does what the rendering by level does, task by task. Three things go down while it runs:
how many more calls may be active, the index of the current frame when content is rendered, and the
tree. So it stops, and what it stops with is the page, or a failure that a node of the template
accounts for.
-/

namespace PugTemplate

/-- The ways out of a tree do what the machine does, and loops have a limit. -/
structure Exits.Simulated (p : Page) (left : Nat) {n : Nat} (x : Exits n) : Prop where
  limited : ∃ limit, p.options.maxIterations = some limit
  slot : p.Simulates left x.slot [.slot]
  enter : ∀ loc mixin f content,
    p.Simulates left (x.enter loc mixin f content) [.enter loc mixin f content]

namespace Page.Simulates

variable {p : Page} {left n : Nat} {x : Exits n} {a : Action n}

/-! ## Actions that look first

In a session, such an action is what it goes on with. -/

theorem get_apply (k : Session n → Action n) (s : Session n) : (get >>= k) s = k s s :=
  rfl

theorem value_apply (e : Expr) (k : Value → Action n) (s : Session n) :
    (p.value e >>= k) s = k (p.eval s.chain.frame e) s :=
  rfl

/-! ## Loops -/

theorem turns {value : String} {key : Option String} {body : List Node}
    (ha : p.Simulates left a [.nodes body]) (es : List (Value × Value)) :
    p.Simulates left (forEntries value key a es) [.turns value key body es] := by
  induction es with
  | nil => exact lead (fun _ => rfl) fun s => ⟨_, rfl, nil⟩
  | cons entry es ih =>
    refine lead (fun _ => rfl) fun s => ⟨_, rfl, ?_⟩
    exact seq_one (withScope ha) ih rfl

/-- The machine counts the turns that are done, and the action those that are left. -/
theorem again {limit : Nat} (hlimit : p.options.maxIterations = some limit) {loc : Location}
    {test : Expr} {body : List Node} (ha : p.Simulates left a [.nodes body]) {more done : Nat}
    (hd : more + done = limit) :
    p.Simulates left (p.repeatWhile loc test a more) [.again loc test body done] := by
  have hbudget : p.budget = limit := by rw [budget, hlimit]; rfl
  induction more generalizing done with
  | zero =>
    refine lead (fun _ => rfl) fun s => ?_
    -- no turn is left, so all have been done
    have hle : limit ≤ done := by omega
    rw [Page.repeatWhile, value_apply, expand]
    by_cases ht : (p.eval s.chain.frame test).truthy = true
    · rw [if_pos ht, if_pos ht, hlimit, hbudget]
      simp only [hle, if_true]
      exact ⟨_, rfl, fail _⟩
    · rw [if_neg ht, if_neg ht]
      exact ⟨_, rfl, nil⟩
  | succ more ih =>
    refine lead (fun _ => rfl) fun s => ?_
    have hlt : ¬limit ≤ done := by omega
    rw [Page.repeatWhile, value_apply, expand]
    by_cases ht : (p.eval s.chain.frame test).truthy = true
    · rw [if_pos ht, if_pos ht, hlimit]
      simp only [hlt, if_false]
      have hrest : p.Simulates left (p.repeatWhile loc test a more)
          [.again loc test body (done + 1)] := ih (by omega)
      exact ⟨_, rfl, seq_one ha hrest rfl⟩
    · rw [if_neg ht, if_neg ht]
      exact ⟨_, rfl, nil⟩

/-! ## Nodes -/

theorem call (hx : x.Simulated p left) (loc : Location) (name : NameSource) (args : List Expr)
    (head : Head) (content : Option (List Node)) :
    p.Simulates left (p.call x loc name args head content)
      [.node (.call loc name args head content)] := by
  refine lead (fun _ => rfl) fun s => ?_
  rw [Page.call, get_apply, expand]
  cases Dictionary.find? (p.nameOf s.chain.frame name).1 p.mixins with
  | none => exact ⟨_, rfl, fail _⟩
  | some mixin => exact ⟨_, rfl, hx.enter loc mixin _ content⟩

theorem filter (loc : Location) (name : String) (attributes : List Attribute) (text : String) :
    p.Simulates left (p.filter loc name attributes text : Action n)
      [.node (.filter loc name attributes text)] := by
  refine lead (fun _ => rfl) fun s => ?_
  rw [Page.filter, get_apply, expand]
  dsimp only
  cases Dictionary.find? name p.filters with
  | none => exact ⟨_, rfl, fail _⟩
  | some g => exact ⟨_, rfl, emit _⟩

mutual

theorem node (hx : x.Simulated p left) (nd : Node) : p.Simulates left (p.act x nd) [.node nd] := by
  match nd with
  | .group _ body | .namedBlock _ _ _ body =>
    exact lead (fun _ => rfl) fun s => ⟨_, rfl, all hx body⟩
  | .tag loc name head selfClosing textOnly body =>
    refine lead (fun _ => rfl) fun s => ?_
    rw [act, get_apply, expand]
    dsimp only
    split
    · exact ⟨_, rfl, emit _⟩
    · have hbody := seq_one (all hx body) (emit [.fixed "</", (p.nameOf s.chain.frame name).2,
        .fixed ">"]) rfl
      exact ⟨_, rfl, seq (emit _) hbody (by simp [Task.restores])⟩
  | .text _ _ segs => exact lead (fun _ => rfl) fun s => ⟨_, rfl, segments hx segs⟩
  | .output _ e escape =>
    refine lead (fun _ => rfl) fun s => ?_
    rw [act, value_apply]
    exact ⟨_, rfl, emit _⟩
  | .statements _ list => exact lead (fun _ => rfl) fun s => ⟨_, rfl, execute list⟩
  | .comment _ text true body => exact lead (fun _ => rfl) fun s => ⟨_, rfl, emit _⟩
  | .doctype _ value => exact lead (fun _ => rfl) fun s => ⟨_, rfl, emit _⟩
  | .conditional loc negate test body next =>
    refine lead (fun _ => rfl) fun s => ?_
    rw [act, value_apply, expand]
    split
    · exact ⟨_, rfl, all hx body⟩
    · exact ⟨_, rfl, otherwise hx next⟩
  | .switch _ subject bs =>
    refine lead (fun _ => rfl) fun s => ?_
    rw [act_switch]
    refine ⟨p.actOption x (p.chosen s.chain.frame subject bs), rfl, ?_⟩
    rw [expand]
    cases hc : p.chosen s.chain.frame subject bs with
    | none => exact nil
    | some ns =>
      obtain ⟨b, hb, he⟩ := mem_of_chosen p hc
      exact branches hx bs b hb ns he
  | .each loc name key source body ifEmpty =>
    refine lead (fun _ => rfl) fun s => ?_
    rw [act, value_apply, expand]
    cases entries (p.eval s.chain.frame source) with
    | nil => exact ⟨_, rfl, option hx ifEmpty⟩
    | cons entry es => exact ⟨_, rfl, turns (all hx body) _⟩
  | .loop loc test body =>
    obtain ⟨limit, hlimit⟩ := hx.limited
    have hbudget : p.budget = limit := by rw [budget, hlimit]; rfl
    refine lead (fun _ => rfl) fun s => ⟨_, rfl, ?_⟩
    exact again hlimit (all hx body) hbudget
  | .call loc name args head content => exact call hx loc name args head content
  | .slot _ => exact lead (fun _ => rfl) fun s => ⟨_, rfl, hx.slot⟩
  | .filter loc name attributes text => exact filter loc name attributes text
  | .comment _ _ false _ | .mixin .. | .includes .. | .rawInclude .. | .inherits .. | .yield _ =>
    exact lead (fun _ => rfl) fun s => ⟨_, rfl, nil⟩

theorem all (hx : x.Simulated p left) (ns : List Node) :
    p.Simulates left (p.actAll x ns) [.nodes ns] := by
  match ns with
  | [] => exact lead (fun _ => rfl) fun s => ⟨_, rfl, nil⟩
  | nd :: ns =>
    refine lead (fun _ => rfl) fun s => ⟨_, rfl, ?_⟩
    exact seq_one (node hx nd) (all hx ns) rfl

theorem segments (hx : x.Simulated p left) (segs : List Segment) :
    p.Simulates left (p.actSegments x segs) [.segments segs] := by
  match segs with
  | [] => exact lead (fun _ => rfl) fun s => ⟨_, rfl, nil⟩
  | .literal text :: rest =>
    refine lead (fun _ => rfl) fun s => ⟨_, rfl, ?_⟩
    exact seq_one (emit _) (segments hx rest) rfl
  | .escaped e :: rest | .raw e :: rest =>
    refine lead (fun _ => rfl) fun s => ?_
    rw [actSegments, value_apply]
    exact ⟨_, rfl, seq_one (emit _) (segments hx rest) rfl⟩
  | .tag nd :: rest =>
    refine lead (fun _ => rfl) fun s => ⟨_, rfl, ?_⟩
    exact seq_one (node hx nd) (segments hx rest) rfl

theorem otherwise (hx : x.Simulated p left) (o : Otherwise) :
    p.Simulates left (p.actOtherwise x o) [.otherwise o] := by
  match o with
  | .nothing => exact lead (fun _ => rfl) fun s => ⟨_, rfl, nil⟩
  | .elseIf loc test body next =>
    refine lead (fun _ => rfl) fun s => ?_
    rw [actOtherwise, value_apply, expand]
    split
    · exact ⟨_, rfl, all hx body⟩
    · exact ⟨_, rfl, otherwise hx next⟩
  | .otherwise _ body => exact lead (fun _ => rfl) fun s => ⟨_, rfl, all hx body⟩

theorem branches (hx : x.Simulated p left) (bs : List Branch) :
    ∀ b ∈ bs, ∀ ns, b.body = some ns → p.Simulates left (p.actAll x ns) [.nodes ns] := by
  match bs with
  | [] => simp
  | .mk _ _ none :: rest =>
    rw [List.forall_mem_cons]
    exact ⟨fun ns h => (nomatch h), branches hx rest⟩
  | .mk _ _ (some body) :: rest =>
    rw [List.forall_mem_cons]
    refine ⟨fun ns h => ?_, branches hx rest⟩
    cases h
    exact all hx body

theorem option (hx : x.Simulated p left) (o : Option (List Node)) :
    p.Simulates left (p.actOption x o) (o.toList.map .nodes) := by
  match o with
  | none => exact nil
  | some ns => exact all hx ns

end

/-! ## Calls -/

/-- The page itself was not called, so it has no content. -/
theorem atPage : p.Simulates left (pure () : Action 0) [.slot] := by
  intro frames i t c out rest hs hd
  refine ⟨frames, hs, rfl, fun _ _ => rfl, .step ?_ (.refl p _)⟩
  cases hs with
  | page h =>
    simp only [step, expand, perform, h, List.cons_append, List.nil_append, Option.isSome_none,
      Bool.false_and, Bool.false_eq_true, if_false, Option.bind_some, Option.map_none]
    rfl

/-- The induction is on the length of the chain: content goes on in a frame further down. -/
theorem renderWith (hlimit : ∃ limit, p.options.maxIterations = some limit) {enter : Entrance}
    (he : ∀ n loc mixin f content,
      p.Simulates left (enter n loc mixin f content) [.enter loc mixin f content])
    (n : Nat) (ns : List Node) : p.Simulates left (p.renderWith enter n ns) [.nodes ns] := by
  induction n generalizing ns with
  | zero => exact all ⟨hlimit, atPage, he 0⟩ ns
  | succ n ih => exact all ⟨hlimit, inCaller ih, he (n + 1)⟩ ns

/-- The induction is on how many more calls may be active. -/
theorem renderNodes (hlimit : ∃ limit, p.options.maxIterations = some limit) (left n : Nat)
    (ns : List Node) : p.Simulates left (p.renderNodes left n ns) [.nodes ns] := by
  induction left generalizing n ns with
  | zero => exact renderWith hlimit (fun _ _ _ _ _ => tooDeep) n ns
  | succ left ih =>
    exact renderWith hlimit (fun n _ mixin _ _ => inCall (ih (n + 1) mixin.body)) n ns

end Page.Simulates

/-! ## The page -/

/-- What a machine without tasks has come to. -/
def Machine.result (m : Machine) : Except RenderError String :=
  match m.failure with
  | none => .ok (joinFragments m.out)
  | some e => .error e

/-- The failures that the nodes of a template raise, each with what has to be the case for it. -/
inductive Linked.FailsBy (l : Linked) (page : Page) : RenderError → Prop where
  | iterationLimit {loc : Location} {test : Expr} {body : List Node}
      (h : .loop loc test body ∈ l.everywhere) : FailsBy l page (.iterationLimit page.budget loc)
  | callDepth {loc : Location} {name : NameSource} {args : List Expr} {head : Head}
      {content : Option (List Node)} (h : .call loc name args head content ∈ l.everywhere) :
      FailsBy l page (.callDepth page.options.maxDepth loc)
  | undefinedMixin {loc : Location} {name : NameSource} {args : List Expr} {head : Head}
      {content : Option (List Node)} (h : .call loc name args head content ∈ l.everywhere)
      {f : Frame} (hf : Dictionary.find? (page.nameOf f name).1 l.mixins = none) :
      FailsBy l page (.undefinedMixin (page.nameOf f name).1 loc)
  | unknownFilter {loc : Location} {name : String} {attributes : List Attribute} {text : String}
      (h : .filter loc name attributes text ∈ l.everywhere)
      (hf : Dictionary.find? name page.filters = none) : FailsBy l page (.unknownFilter name loc)

/-- Whether a node calls only what is there: a defined mixin by a fixed name, or a filter that is
registered. -/
def Node.isResolved (mixins : Dictionary Mixin) (filters : Dictionary Filter) : Node → Bool
  | .call _ (.fixed name) _ _ _ => Dictionary.has name mixins
  | .call _ (.computed _) _ _ _ => false
  | .filter _ name _ _ => Dictionary.has name filters
  | _ => true

theorem failsBy_of_mem_failures {l : Linked} {data : Value} {options : Options}
    {filters : Dictionary Filter} {n : Node} (hn : n ∈ l.everywhere) {f : Frame} {e : RenderError}
    (he : e ∈ (l.page data options filters).failures f n) :
    l.FailsBy (l.page data options filters) e := by
  match n with
  | .loop loc test body =>
    rw [List.mem_singleton.mp he]
    exact .iterationLimit hn
  | .call loc name args head content =>
    rw [Page.failures] at he
    split at he
    next hf =>
      rw [List.mem_singleton.mp he]
      exact .undefinedMixin hn hf
    next =>
      rw [List.mem_singleton.mp he]
      exact .callDepth hn
  | .filter loc name attributes text =>
    rw [Page.failures] at he
    split at he
    next hf =>
      rw [List.mem_singleton.mp he]
      exact .unknownFilter hn hf
    next => exact nomatch he
  | .group .. | .tag .. | .text .. | .output .. | .statements .. | .comment .. | .doctype ..
  | .conditional .. | .switch .. | .each .. | .mixin .. | .slot _ | .namedBlock .. | .includes ..
  | .rawInclude .. | .inherits .. | .yield _ => exact nomatch he

theorem error_of_render_error {l : Linked} {data : Value} {options : Options}
    {filters : Dictionary Filter} {e : RenderError}
    (h : render l data options filters = .error e) :
    renderFragments l data options filters = .error e := by
  rw [render] at h
  cases hf : renderFragments l data options filters with
  | ok out =>
    rw [hf] at h
    exact nomatch h
  | error e' =>
    rw [hf] at h
    exact congrArg Except.error (Except.error.inj h)

/-- Rendering ends if loops have a limit: from the start of the page, the machine comes to a stop
with the page or the failure. A failure is a limit that is hit, or a call or a filter that names
nothing; where all names are fixed and known, only the limits are left. -/
theorem render_halts {options : Options} {limit : Nat}
    (hlimit : options.maxIterations = some limit) (l : Linked) (data : Value)
    (filters : Dictionary Filter) :
    (∃ k, ((l.page data options filters).step^[k] (Page.start l.nodes)).tasks = [] ∧
      ((l.page data options filters).step^[k] (Page.start l.nodes)).result =
        render l data options filters) ∧
    (∀ e, render l data options filters = .error e →
      l.FailsBy (l.page data options filters) e) ∧
    ((∀ n ∈ l.everywhere, n.isResolved l.mixins filters = true) →
      ∀ e, render l data options filters = .error e →
        ∃ loc, e = .iterationLimit limit loc ∨ e = .callDepth options.maxDepth loc) := by
  have hfails : ∀ e, render l data options filters = .error e →
      l.FailsBy (l.page data options filters) e := by
    intro e he
    obtain ⟨n, hn, f, hf⟩ :=
      of_renderFragments_error l data options filters (error_of_render_error he)
    exact failsBy_of_mem_failures hn hf
  refine ⟨?_, hfails, fun hresolved e he => ?_⟩
  · have hsim := Page.Simulates.renderNodes (p := l.page data options filters) ⟨limit, hlimit⟩
      options.maxDepth 0 l.nodes
    -- one frame at the start, and as many more as calls may be active
    obtain ⟨frames, -, -, -, k, hk⟩ := hsim [⟨{}, none, 0⟩] 0 [] (.page {}) #[] [] (.page rfl)
      (Nat.add_comm ..)
    have hk' : (l.page data options filters).step^[k] (Page.start l.nodes) = _ := hk
    refine ⟨k, by rw [hk'], ?_⟩
    rw [hk', Machine.result, render, renderFragments_eq]
    cases (l.page data options filters).renderNodes options.maxDepth 0 l.nodes ⟨.page {}, #[]⟩ with
    | ok _ s => rfl
    | error e s => rfl
  · have hbudget : (l.page data options filters).budget = limit := by
      show options.maxIterations.getD _ = limit
      rw [hlimit]
      rfl
    cases hfails e he with
    | iterationLimit h => exact ⟨_, Or.inl (by rw [hbudget])⟩
    | callDepth h => exact ⟨_, Or.inr rfl⟩
    -- a name that is fixed is the same in every frame, and it is one of a mixin that is there
    | @undefinedMixin loc name args head content h f hf =>
      have hn := hresolved _ h
      cases name with
      | fixed name =>
        have hf : Dictionary.find? name l.mixins = none := hf
        simp [Node.isResolved, Dictionary.has, hf] at hn
      | computed e => simp [Node.isResolved] at hn
    | @unknownFilter loc name attributes text h hf =>
      have hn := hresolved _ h
      have hf : Dictionary.find? name filters = none := hf
      simp [Node.isResolved, Dictionary.has, hf] at hn

/-- Two mixins that call each other. -/
def callsInTurn : Linked :=
  ⟨[.call ⟨1, 1⟩ (.fixed "a") [] {} none],
    [("a", ⟨[], [.call ⟨2, 3⟩ (.fixed "b") [] {} none]⟩),
      ("b", ⟨[], [.call ⟨3, 3⟩ (.fixed "a") [] {} none]⟩)]⟩

/-- Even where calls follow each other without end, the machine stops. -/
theorem render_halts_callsInTurn :
    ({} : Options).maxIterations = some 10000 ∧
      (∃ k, ((callsInTurn.page .null {} []).step^[k] (Page.start callsInTurn.nodes)).tasks = []) ∧
      (∀ n ∈ callsInTurn.everywhere, n.isResolved callsInTurn.mixins [] = true) ∧
      ∀ e, render callsInTurn .null {} [] = .error e →
        ∃ loc, e = .iterationLimit 10000 loc ∨ e = .callDepth 256 loc := by
  have hresolved : ∀ n ∈ callsInTurn.everywhere, n.isResolved callsInTurn.mixins [] = true := by
    decide
  have hlimit : ({} : Options).maxIterations = some 10000 := rfl
  obtain ⟨⟨k, hk, _⟩, -, hlimits⟩ := render_halts hlimit callsInTurn .null []
  exact ⟨hlimit, ⟨k, hk⟩, hresolved, hlimits hresolved⟩

end PugTemplate
