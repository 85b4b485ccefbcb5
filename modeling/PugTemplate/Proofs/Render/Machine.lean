import Mathlib.Logic.Function.Iterate
import PugTemplate.Proofs.Render.Frame
import PugTemplate.Proofs.Render.Walk
import PugTemplate.Render.Render

/-!
# Rendering in single steps

A machine renders with one stack of frames, of which one is current: a call pushes a frame, and the
content of a call goes on in the frame of the caller while all others stay where they are. What is
left to do is a list of tasks. A failure drops all tasks but those that bring frames back. Nothing
bounds the run of the machine but the limits of the settings.
-/

namespace PugTemplate

/-- A frame on the stack: its names, the content of its call, and the frame of the caller. -/
structure Activation where
  frame : Frame
  content : Option (List Node)
  caller : Nat
deriving Inhabited

inductive Task where
  | node (n : Node)
  | nodes (ns : List Node)
  | segments (segs : List Segment)
  | otherwise (o : Otherwise)
  /-- The turns that a loop over a value has left. -/
  | turns (value : String) (key : Option String) (body : List Node) (es : List (Value × Value))
  /-- A loop that has run so many times. -/
  | again (loc : Location) (test : Expr) (body : List Node) (done : Nat)
  | emit (fs : List Fragment)
  | execute (list : List Statement)
  | pushScope (scope : Dictionary Value)
  | popScope
  | enter (loc : Location) (mixin : Mixin) (frame : Frame) (content : Option (List Node))
  /-- The end of a call, with the frame that was current before. -/
  | leave (previous : Nat)
  | slot
  /-- The end of the content of a call, with the frame that was current before. -/
  | resume (previous : Nat)
  | fail (e : RenderError)

/-- Whether a task brings frames back, also behind a failure. -/
def Task.restores : Task → Bool
  | .popScope | .leave _ | .resume _ => true
  | _ => false

structure Machine where
  frames : List Activation
  current : Nat
  out : Array Fragment
  tasks : List Task
  failure : Option RenderError

namespace Machine

/-- The frame that names are looked up in. -/
def frame (m : Machine) : Frame :=
  ((m.frames[m.current]?).map Activation.frame).getD {}

def mapFrame (g : Frame → Frame) (m : Machine) : Machine :=
  { m with frames := m.frames.modify m.current fun a => { a with frame := g a.frame } }

end Machine

namespace Page

/-- The tasks that a task stands for in a frame, if it only leads to others. -/
def expand (p : Page) (f : Frame) : Task → List Task
  | .nodes [] => []
  | .nodes (n :: ns) => [.node n, .nodes ns]
  | .segments [] => []
  | .segments (.literal text :: rest) => [.emit [.fixed text], .segments rest]
  | .segments (.escaped e :: rest) => [.emit [.escaped (p.eval f e).toOutput], .segments rest]
  | .segments (.raw e :: rest) => [.emit [.raw (p.eval f e).toOutput], .segments rest]
  | .segments (.tag n :: rest) => [.node n, .segments rest]
  | .otherwise .nothing => []
  | .otherwise (.elseIf _ test body next) =>
    if (p.eval f test).truthy then [.nodes body] else [.otherwise next]
  | .otherwise (.otherwise _ body) => [.nodes body]
  | .turns _ _ _ [] => []
  | .turns value key body (entry :: es) =>
    [.pushScope (turnScope value key entry), .nodes body, .popScope, .turns value key body es]
  | .again loc test body done =>
    if (p.eval f test).truthy then
      match p.options.maxIterations with
      | some limit =>
        if limit ≤ done then [.fail (.iterationLimit limit loc)]
        else [.nodes body, .again loc test body (done + 1)]
      | none => [.nodes body, .again loc test body (done + 1)]
    else []
  | .node (.group _ body) | .node (.namedBlock _ _ _ body) => [.nodes body]
  | .node (.tag _ name head selfClosing _ body) =>
    let (name, shown) := p.nameOf f name
    let start := .fixed "<" :: shown :: attributeFragments p.dialect (p.bindings f head)
    if p.isVoid name selfClosing && body.isEmpty then
      [.emit (start ++ [.fixed (if p.dialect.terse && !selfClosing then ">" else "/>")])]
    else
      [.emit (start ++ [.fixed ">"]), .nodes body, .emit [.fixed "</", shown, .fixed ">"]]
  | .node (.text _ _ segs) => [.segments segs]
  | .node (.output _ e escape) => [.emit [.ofData escape (p.eval f e).toOutput]]
  | .node (.statements _ list) => [.execute list]
  | .node (.comment _ text true body) =>
    [.emit [.fixed "<!--", .fixed text, .fixed ((body.map (·.2)).getD ""), .fixed "-->"]]
  | .node (.doctype _ value) =>
    [.emit [.fixed (Doctype.markup (Doctype.declared p.options value))]]
  | .node (.conditional _ negate test body next) =>
    if (p.eval f test).truthy != negate then [.nodes body] else [.otherwise next]
  | .node (.switch _ subject bs) => (p.chosen f subject bs).toList.map .nodes
  | .node (.each _ value key source body ifEmpty) =>
    match entries (p.eval f source) with
    | [] => ifEmpty.toList.map .nodes
    | es => [.turns value key body es]
  | .node (.loop loc test body) => [.again loc test body 0]
  | .node (.call loc name args head content) =>
    match Dictionary.find? (p.nameOf f name).1 p.mixins with
    | none => [.fail (.undefinedMixin (p.nameOf f name).1 loc)]
    | some mixin => [.enter loc mixin (p.callFrame f mixin args head content.isSome) content]
  | .node (.slot _) => [.slot]
  | .node (.filter loc name attributes text) =>
    match Dictionary.find? name p.filters with
    | none => [.fail (.unknownFilter name loc)]
    | some g =>
      let given := Dictionary.ofEntries (attributes.map fun a => (a.name, p.eval f a.value))
      [.emit [.raw (g text given)]]
  | _ => []

/-- Does a task whose own tasks are already put in front. -/
def perform (p : Page) (m : Machine) : Task → Machine
  | .emit fs => { m with out := m.out ++ fs.toArray }
  | .execute list => m.mapFrame fun f => p.executeAll f list
  | .pushScope scope => m.mapFrame (Frame.push scope)
  | .popScope => m.mapFrame Frame.pop
  | .enter loc mixin f content =>
    if p.options.maxDepth < m.frames.length then
      { m with failure := some (.callDepth p.options.maxDepth loc) }
    else
      { m with
        frames := m.frames ++ [⟨f, content, m.current⟩]
        current := m.frames.length
        tasks := .nodes mixin.body :: .leave m.current :: m.tasks }
  | .leave previous => { m with frames := m.frames.dropLast, current := previous }
  | .slot =>
    match (m.frames[m.current]?).bind fun a => a.content.map fun ns => (a.caller, ns) with
    | none => m
    | some (caller, ns) =>
      { m with current := caller, tasks := .nodes ns :: .resume m.current :: m.tasks }
  | .resume previous => { m with current := previous }
  | .fail e => { m with failure := some e }
  | _ => m

/-- One step; a machine without tasks stays as it is. -/
def step (p : Page) (m : Machine) : Machine :=
  match m.tasks with
  | [] => m
  | t :: rest =>
    let m := { m with tasks := rest }
    if m.failure.isSome && !t.restores then m
    else p.perform { m with tasks := p.expand m.frame t ++ rest } t

/-- The machine at the start of a page. -/
def start (nodes : List Node) : Machine :=
  ⟨[⟨{}, none, 0⟩], 0, #[], [.nodes nodes], none⟩

end Page

/-! ## Chains on the stack -/

/-- A chain is made of frames of the stack, each with its caller below it. -/
inductive Stands (frames : List Activation) : {n : Nat} → List Nat → Chain n → Prop where
  | page {f : Frame} (h : frames[0]? = some ⟨f, none, 0⟩) : Stands frames [0] (.page f)
  | call {n i j : Nat} {t : List Nat} {f : Frame} {content : Option (List Node)}
      {caller : Chain n} (h : frames[i]? = some ⟨f, content, j⟩) (hj : j < i)
      (hc : Stands frames (j :: t) caller) : Stands frames (i :: j :: t) (.call f content caller)

namespace Stands

variable {frames frames' : List Activation} {n i : Nat} {t : List Nat} {c : Chain n}

theorem frame (h : Stands frames (i :: t) c) :
    (frames[i]?).map Activation.frame = some c.frame := by
  cases h with
  | page h => rw [h]; rfl
  | call h _ _ => rw [h]; rfl

theorem lt_of_mem (h : Stands frames (i :: t) c) {j : Nat} (hj : j ∈ t) : j < i := by
  induction t generalizing n i with
  | nil => exact absurd hj List.not_mem_nil
  | cons k t ih =>
    cases h with
    | call _ hk hc =>
      rcases List.mem_cons.mp hj with rfl | hj
      · exact hk
      · exact Nat.lt_trans (ih hc hj) hk

theorem lt_length (h : Stands frames (i :: t) c) : i < frames.length := by
  have hf := h.frame
  rcases Nat.lt_or_ge i frames.length with hi | hi
  · exact hi
  · simp [List.getElem?_eq_none hi] at hf

theorem lt_length_of_mem (h : Stands frames (i :: t) c) {j : Nat} (hj : j ∈ i :: t) :
    j < frames.length := by
  rcases List.mem_cons.mp hj with rfl | hj
  · exact h.lt_length
  · exact Nat.lt_trans (h.lt_of_mem hj) h.lt_length

/-- Only the frames of the chain matter. -/
theorem congr {trail : List Nat} (h : Stands frames trail c)
    (hf : ∀ j ∈ trail, frames'[j]? = frames[j]?) : Stands frames' trail c := by
  induction h with
  | page h => exact .page ((hf 0 (by simp)).trans h)
  | @call n i j t f content caller h hj hc ih =>
    rw [List.forall_mem_cons] at hf
    exact .call (hf.1.trans h) hj (ih hf.2)

theorem mapFrame (g : Frame → Frame) (h : Stands frames (i :: t) c) :
    Stands (frames.modify i fun a => { a with frame := g a.frame }) (i :: t) (c.mapFrame g) := by
  -- the frames of the callers lie below the one that is changed
  have hbelow : ∀ k ∈ t, k < i := fun k hk => h.lt_of_mem hk
  cases h with
  | page h => exact .page (by simp [h])
  | call h hj hc =>
    refine .call (by simp [h]) hj (hc.congr fun k hk => ?_)
    exact List.getElem?_modify_ne _ _ (Nat.ne_of_gt (hbelow k hk))

theorem push (f : Frame) (content : Option (List Node)) (h : Stands frames (i :: t) c) :
    Stands (frames ++ [⟨f, content, i⟩]) (frames.length :: i :: t) (.call f content c) := by
  refine .call (by simp) h.lt_length (h.congr fun k hk => ?_)
  exact List.getElem?_append_left (h.lt_length_of_mem hk)

theorem pop {c : Chain (n + 1)} (h : Stands frames (i :: t) c) (hi : frames.length = i + 1) :
    Stands frames.dropLast t c.caller := by
  -- only the frame on top goes, and the callers lie below it
  have hbelow : ∀ k ∈ t, k < i := fun k hk => h.lt_of_mem hk
  cases h with
  | call h hj hc =>
    refine hc.congr fun k hk => ?_
    have hk' : k < frames.length - 1 := by
      have := hbelow k hk
      omega
    rw [List.getElem?_dropLast, if_pos hk']

end Stands

/-! ## Actions as runs -/

namespace Page

/-- A machine comes to another in some number of steps. -/
def Reaches (p : Page) (m m' : Machine) : Prop :=
  ∃ k, p.step^[k] m = m'

theorem Reaches.refl (p : Page) (m : Machine) : p.Reaches m m :=
  ⟨0, rfl⟩

theorem Reaches.trans {p : Page} {a b c : Machine} (h : p.Reaches a b) (h' : p.Reaches b c) :
    p.Reaches a c := by
  obtain ⟨k, rfl⟩ := h
  obtain ⟨l, rfl⟩ := h'
  exact ⟨l + k, Function.iterate_add_apply p.step l k a⟩

theorem Reaches.step {p : Page} {a b c : Machine} (h : p.step a = b) (h' : p.Reaches b c) :
    p.Reaches a c :=
  .trans ⟨1, h⟩ h'

end Page

namespace Action

variable {n : Nat}

/-- The session that a result leaves. -/
def session : EStateM.Result RenderError (Session n) Unit → Session n
  | .ok _ s | .error _ s => s

def failure? : EStateM.Result RenderError (Session n) Unit → Option RenderError
  | .ok _ _ => none
  | .error e _ => some e

section Within

variable {m : Nat} (enter : Chain n → Chain m) (leave : Chain n → Chain m → Chain n)
  (a : Action m) (c : Chain n) (out : Array Fragment)

theorem session_within : session (a.within enter leave ⟨c, out⟩) =
    ⟨leave c (session (a ⟨enter c, out⟩)).chain, (session (a ⟨enter c, out⟩)).out⟩ := by
  rw [within]
  cases a ⟨enter c, out⟩ with
  | ok _ s => rfl
  | error e s => rfl

theorem failure?_within :
    failure? (a.within enter leave ⟨c, out⟩) = failure? (a ⟨enter c, out⟩) := by
  rw [within]
  cases a ⟨enter c, out⟩ with
  | ok _ s => rfl
  | error e s => rfl

end Within

end Action

/-- A machine does what an action does: it comes back to the current frame with the output of the
action, and with the frames of the chain as the action leaves them. All other frames stay. `left` is
how many more calls may be active. -/
def Page.Simulates (p : Page) (left : Nat) {n : Nat} (a : Action n) (ts : List Task) : Prop :=
  ∀ frames i t (c : Chain n) out rest, Stands frames (i :: t) c →
    frames.length + left = p.options.maxDepth + 1 →
      ∃ frames', Stands frames' (i :: t) (Action.session (a ⟨c, out⟩)).chain ∧
        frames'.length = frames.length ∧ (∀ j ∉ i :: t, frames'[j]? = frames[j]?) ∧
        p.Reaches ⟨frames, i, out, ts ++ rest, none⟩
          ⟨frames', i, (Action.session (a ⟨c, out⟩)).out, rest, Action.failure? (a ⟨c, out⟩)⟩

namespace Page.Simulates

variable {p : Page} {left n : Nat} {a b : Action n} {ts us : List Task}

/-- Behind a failure, tasks that bring no frame back are dropped. -/
theorem dropped (hu : ∀ u ∈ us, u.restores = false) (frames : List Activation) (i : Nat)
    (out : Array Fragment) (rest : List Task) (e : RenderError) :
    p.Reaches ⟨frames, i, out, us ++ rest, some e⟩ ⟨frames, i, out, rest, some e⟩ := by
  induction us with
  | nil => exact .refl p _
  | cons u us ih =>
    rw [List.forall_mem_cons] at hu
    refine .step ?_ (ih hu.2)
    simp [step, hu.1]

theorem nil : p.Simulates left (pure () : Action n) [] :=
  fun frames _ _ _ _ _ h _ => ⟨frames, h, rfl, fun _ _ => rfl, .refl p _⟩

theorem seq (ha : p.Simulates left a ts) (hb : p.Simulates left b us)
    (hu : ∀ u ∈ us, u.restores = false) : p.Simulates left (do a; b) (ts ++ us) := by
  intro frames i t c out rest hs hd
  obtain ⟨frames₁, hs₁, hl₁, ho₁, hr₁⟩ := ha frames i t c out (us ++ rest) hs hd
  rw [← List.append_assoc] at hr₁
  simp only [bind, EStateM.bind]
  cases hx : a ⟨c, out⟩ with
  -- the tasks of the second action are still on the list when the first fails
  | error e s =>
    rw [hx] at hs₁ hr₁
    exact ⟨frames₁, hs₁, hl₁, ho₁, hr₁.trans (dropped hu _ _ _ _ _)⟩
  | ok _ s =>
    rw [hx] at hs₁ hr₁
    obtain ⟨frames₂, hs₂, hl₂, ho₂, hr₂⟩ := hb frames₁ i t s.chain s.out rest hs₁ (by omega)
    exact ⟨frames₂, hs₂, hl₂.trans hl₁, fun j hj => (ho₂ j hj).trans (ho₁ j hj), hr₁.trans hr₂⟩

theorem seq_one {u : Task} (ha : p.Simulates left a ts) (hb : p.Simulates left b [u])
    (hu : u.restores = false) : p.Simulates left (do a; b) (ts ++ [u]) :=
  seq ha hb (List.forall_mem_singleton.mpr hu)

/-- A task that only leads to others. -/
theorem lead {task : Task} (hp : ∀ m, p.perform m task = m)
    (h : ∀ s, ∃ b, a s = b s ∧ p.Simulates left b (p.expand s.chain.frame task)) :
    p.Simulates left a [task] := by
  intro frames i t c out rest hs hd
  obtain ⟨b, heq, hb⟩ := h ⟨c, out⟩
  obtain ⟨frames', hs', hl', ho', hr'⟩ := hb frames i t c out rest hs hd
  rw [heq]
  refine ⟨frames', hs', hl', ho', .step ?_ hr'⟩
  have hframe : Machine.frame ⟨frames, i, out, rest, none⟩ = c.frame := by
    simp [Machine.frame, hs.frame]
  simp [step, hframe, hp]

theorem emit (fs : List Fragment) : p.Simulates left (Action.emit fs : Action n) [.emit fs] :=
  fun frames _ _ _ _ _ h _ => ⟨frames, h, rfl, fun _ _ => rfl, 1, rfl⟩

theorem fail (e : RenderError) : p.Simulates left (throw e : Action n) [.fail e] :=
  fun frames _ _ _ _ _ h _ => ⟨frames, h, rfl, fun _ _ => rfl, 1, rfl⟩

/-- Only the current frame is changed. -/
theorem others_modify {frames : List Activation} {i : Nat} {t : List Nat}
    (g : Activation → Activation) {j : Nat} (hj : j ∉ i :: t) :
    (frames.modify i g)[j]? = frames[j]? :=
  List.getElem?_modify_ne _ _ fun h => hj (h ▸ List.mem_cons_self)

theorem execute (list : List Statement) :
    p.Simulates left
      (modify fun s => { s with chain := s.chain.mapFrame fun f => p.executeAll f list } : Action n)
      [.execute list] :=
  fun _ _ _ _ _ _ h _ => ⟨_, h.mapFrame _, List.length_modify .., fun _ => others_modify _, 1, rfl⟩

theorem withScope {scope : Dictionary Value} (ha : p.Simulates left a ts) :
    p.Simulates left (a.withScope scope) (.pushScope scope :: (ts ++ [.popScope])) := by
  intro frames i t c out rest hs hd
  obtain ⟨frames₁, hs₁, hl₁, ho₁, hr₁⟩ := ha _ i t _ out (.popScope :: rest)
    (hs.mapFrame (Frame.push scope)) (by rwa [List.length_modify])
  rw [List.length_modify] at hl₁
  have hout : ∀ j ∉ i :: t, (frames₁.modify i fun a => { a with frame := a.frame.pop })[j]? =
      frames[j]? := by
    intro j hj
    rw [others_modify _ hj, ho₁ j hj, others_modify _ hj]
  rw [Action.withScope, Action.session_within, Action.failure?_within]
  refine ⟨_, hs₁.mapFrame Frame.pop, (List.length_modify ..).trans hl₁, hout, ?_⟩
  -- the scope is popped behind a failure too
  refine .step ?_ (hr₁.trans (.step ?_ (.refl p _)))
  · simp [step, expand, perform, Machine.mapFrame]
  · simp [step, expand, perform, Machine.mapFrame, Task.restores]

theorem inCaller {run : List Node → Action n} (hr : ∀ ns, p.Simulates left (run ns) [.nodes ns]) :
    p.Simulates left (Page.inCaller run) [.slot] := by
  intro frames i t c out rest hs hd
  have hbelow : ∀ k ∈ t, k < i := fun k hk => hs.lt_of_mem hk
  cases hs with
  | @call _ _ j t f content caller hi hj hc =>
    cases content with
    | none =>
      refine ⟨frames, .call hi hj hc, rfl, fun _ _ => rfl, .step ?_ (.refl p _)⟩
      simp [step, expand, perform, hi, Page.inCaller, Chain.content, Action.failure?,
        Action.session]
    | some ns =>
      obtain ⟨frames₁, hs₁, hl₁, ho₁, hr₁⟩ := hr ns frames j t caller out (.resume i :: rest) hc hd
      -- the content runs on the frames of the caller, so the frame of the call stays as it was
      have hij : i ∉ j :: t := fun h => Nat.lt_irrefl i (hbelow i h)
      have hi₁ := (ho₁ i hij).trans hi
      have ho : ∀ k ∉ i :: j :: t, frames₁[k]? = frames[k]? :=
        fun k hk => ho₁ k fun h => hk (List.mem_cons_of_mem _ h)
      simp only [Page.inCaller, Chain.content]
      rw [Action.session_within, Action.failure?_within]
      refine ⟨frames₁, .call hi₁ hj hs₁, hl₁, ho, .step ?_ (hr₁.trans (.step ?_ (.refl p _)))⟩
      · simp [step, expand, perform, hi]
      · simp [step, expand, perform, Task.restores, Chain.caller]

theorem inCall {f : Frame} {content : Option (List Node)} {mixin : Mixin} {loc : Location}
    {a : Action (n + 1)} (ha : p.Simulates left a [.nodes mixin.body]) :
    p.Simulates (left + 1) (Page.inCall f content a) [.enter loc mixin f content] := by
  intro frames i t c out rest hs hd
  obtain ⟨frames₁, hs₁, hl₁, ho₁, hr₁⟩ := ha _ _ _ _ out (.leave i :: rest) (hs.push f content)
    (by rw [List.length_append, List.length_singleton]; omega)
  rw [List.length_append, List.length_singleton] at hl₁
  -- a frame that is not of the chain is either below the top and untouched, or was never there
  have ho : ∀ j ∉ i :: t, frames₁.dropLast[j]? = frames[j]? := by
    intro j hj
    rw [List.getElem?_dropLast, hl₁]
    split
    next h =>
      rw [ho₁ j, List.getElem?_append_left (by omega)]
      intro h'
      rcases List.mem_cons.mp h' with h' | h'
      · omega
      · exact hj h'
    next h => exact (List.getElem?_eq_none (by omega)).symm
  -- one more call may be active, so the machine lets it in
  have hshallow : ¬p.options.maxDepth < frames.length := by omega
  rw [Page.inCall, Action.session_within, Action.failure?_within]
  refine ⟨_, hs₁.pop hl₁, by rw [List.length_dropLast, hl₁]; rfl, ho,
    .step ?_ (hr₁.trans (.step ?_ (.refl p _)))⟩
  · simp [step, expand, perform, hshallow]
  · simp [step, expand, perform, Task.restores]

theorem tooDeep {f : Frame} {content : Option (List Node)} {mixin : Mixin} {loc : Location} :
    p.Simulates 0 (throw (.callDepth p.options.maxDepth loc) : Action n)
      [.enter loc mixin f content] := by
  intro frames i t c out rest hs hd
  have hdeep : p.options.maxDepth < frames.length := by omega
  have hrefused : ∀ m : Machine, m.frames = frames → p.perform m (.enter loc mixin f content) =
      { m with failure := some (.callDepth p.options.maxDepth loc) } := by
    intro m hm
    rw [perform, hm, if_pos hdeep]
  refine ⟨frames, hs, rfl, fun _ _ => rfl, .step ?_ (.refl p _)⟩
  exact hrefused _ rfl

end Page.Simulates

end PugTemplate
