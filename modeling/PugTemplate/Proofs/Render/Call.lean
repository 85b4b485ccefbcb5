import PugTemplate.Proofs.Render.Balance
import PugTemplate.Proofs.Render.Parallel

/-!
# Calls of mixins

A call without content sees nothing of the frames below it and leaves them as they are. A call whose
mixin only shows its content does what the content does in its place. Both are facts about sessions;
the machine has them too, with all frames of its stack.
-/

namespace PugTemplate

/-! ## A call by itself -/

namespace Page

variable {n : Nat}

theorem renderWith_call (p : Page) (enter : Entrance) (loc : Location) (name : NameSource)
    (args : List Expr) (head : Head) (content : Option (List Node)) (s : Session n) :
    p.renderWith enter n [.call loc name args head content] s =
      match Dictionary.find? (p.nameOf s.chain.frame name).1 p.mixins with
      | none => .error (.undefinedMixin (p.nameOf s.chain.frame name).1 loc) s
      | some mixin =>
        enter n loc mixin (p.callFrame s.chain.frame mixin args head content.isSome) content s := by
  have hcall : ∀ slot : Action n, p.actAll ⟨slot, enter n⟩ [.call loc name args head content] s =
      p.call ⟨slot, enter n⟩ loc name args head content s :=
    fun slot => congrFun bind_pure_unit s
  have hfound : p.renderWith enter n [.call loc name args head content] s =
      p.call ⟨pure (), enter n⟩ loc name args head content s := by
    cases n with
    | zero => exact hcall _
    | succ n => exact hcall _
  rw [hfound, Page.call, Simulates.get_apply]
  cases Dictionary.find? (p.nameOf s.chain.frame name).1 p.mixins with
  | none => rfl
  | some mixin => rfl

/-- What a call comes to: a failure, or the body of the mixin in a frame of its own. -/
theorem renderNodes_call (p : Page) (left : Nat) (loc : Location) (name : NameSource)
    (args : List Expr) (head : Head) (content : Option (List Node)) (s : Session n) :
    p.renderNodes left n [.call loc name args head content] s =
      match Dictionary.find? (p.nameOf s.chain.frame name).1 p.mixins with
      | none => .error (.undefinedMixin (p.nameOf s.chain.frame name).1 loc) s
      | some mixin =>
        match left with
        | 0 => .error (.callDepth p.options.maxDepth loc) s
        | left + 1 =>
          inCall (p.callFrame s.chain.frame mixin args head content.isSome) content
            (p.renderNodes left (n + 1) mixin.body) s := by
  cases left with
  | zero => exact renderWith_call ..
  | succ left => exact renderWith_call ..

end Page

/-! ## Chains above others -/

/-- Two chains of calls, so many frames above two others: the lowest call has no content, and there
is nothing else in which they differ. -/
inductive Chain.Over {k l : Nat} (a : Chain k) (b : Chain l) :
    Nat → {n m : Nat} → Chain n → Chain m → Prop where
  | bottom (f : Frame) : Over a b 0 (.call f none a) (.call f none b)
  | call {d n m : Nat} {c : Chain n} {c' : Chain m} (f : Frame) (content : Option (List Node))
      (h : Over a b d c c') : Over a b (d + 1) (.call f content c) (.call f content c')

namespace Chain.Over

variable {k l d n m : Nat} {a : Chain k} {b : Chain l} {E : RenderError → Prop} {p : Page}

theorem steady : Chain.Steady (Over a b d : Chain n → Chain m → Prop) where
  frame h := by cases h <;> rfl
  mapFrame h g := by
    cases h with
    | bottom f => exact .bottom (g f)
    | call f content h => exact .call (g f) content h

/-- No such chain is that of a page. -/
theorem exists_succ {c : Chain n} {c' : Chain m} (h : Over a b d c c') :
    ∃ n' m', n = n' + 1 ∧ m = m' + 1 := by
  cases h <;> exact ⟨_, _, rfl, rfl⟩

theorem inCall {f : Frame} {content : Option (List Node)} {x : Action (n + 1)}
    {y : Action (m + 1)} (h : Action.Parallel (Over a b (d + 1)) E x y) :
    Action.Parallel (Over a b d) E (Page.inCall f content x) (Page.inCall f content y) := by
  refine .within h (fun hcd => .call f content hcd) fun _ hcd => ?_
  cases hcd with
  | call _ _ hcd => exact hcd

/-- The lowest call has no content to render. -/
theorem inCaller_bottom {run : List Node → Action n} {run' : List Node → Action m} :
    Action.Parallel (Over a b 0) E (Page.inCaller run) (Page.inCaller run') := by
  rintro ⟨c, out⟩ ⟨c', out'⟩ h
  cases h with
  | bottom f => exact Or.inr (.silent rfl rfl rfl (.bottom f))

theorem inCaller {run : List Node → Action n} {run' : List Node → Action m}
    (hr : ∀ ns, Action.Parallel (Over a b d) E (run ns) (run' ns)) :
    Action.Parallel (Over a b (d + 1)) E (Page.inCaller run) (Page.inCaller run') := by
  rintro ⟨c, out⟩ ⟨c', out'⟩ h
  cases h with
  | @call d _ _ c c' f content h =>
    cases content with
    | none => exact Or.inr (.silent rfl rfl rfl (.call f none h))
    | some ns =>
      exact Action.Parallel.within_at (hr ns ⟨c, out⟩ ⟨c', out'⟩ h) fun h' => .call f (some ns) h'

/-- The induction is on how many frames lie between: content is rendered one frame further down. -/
theorem renderWith {enter enter' : Page.Entrance}
    (he : ∀ d n m loc mixin f content, Action.Parallel (Over a b d : Chain n → Chain m → Prop) E
      (enter n loc mixin f content) (enter' m loc mixin f content)) (d n m : Nat)
    (ns : List Node) :
    Action.Parallel (Over a b d) E (p.renderWith enter n ns) (p.renderWith enter' m ns) := by
  induction d generalizing n m ns with
  | zero =>
    intro s t h
    obtain ⟨n, m, rfl, rfl⟩ := h.exists_succ
    exact Action.Parallel.all ⟨steady, inCaller_bottom, he 0 _ _⟩ ns s t h
  | succ d ih =>
    intro s t h
    obtain ⟨n, m, rfl, rfl⟩ := h.exists_succ
    exact Action.Parallel.all ⟨steady, inCaller (ih n m), he (d + 1) _ _⟩ ns s t h

/-- The induction is on how many more calls may be active. -/
theorem renderNodes (left d n m : Nat) (ns : List Node) :
    Action.Parallel (Over a b d) E (p.renderNodes left n ns) (p.renderNodes left m ns) := by
  induction left generalizing d n m ns with
  | zero =>
    refine renderWith (fun d n m loc mixin f content => ?_) d n m ns
    exact .throw _
  | succ left ih =>
    refine renderWith (fun d n m loc mixin f content => ?_) d n m ns
    exact inCall (ih (d + 1) (n + 1) (m + 1) mixin.body)

/-- Behind the lowest call the two chains are as they were. -/
theorem agree_inCall {f : Frame} {x : Action (k + 1)} {y : Action (l + 1)}
    (h : Action.Parallel (Over a b 0) (fun _ => False) x y) (out out' : Array Fragment) :
    Action.Agree (fun c d => c = a ∧ d = b) ⟨a, out⟩ ⟨b, out'⟩ (Page.inCall f none x ⟨a, out⟩)
      (Page.inCall f none y ⟨b, out'⟩) := by
  have hback : ∀ {c : Chain (k + 1)} {d : Chain (l + 1)}, Over a b 0 c d →
      c.caller = a ∧ d.caller = b := by
    intro c d hcd
    cases hcd with
    | bottom f => exact ⟨rfl, rfl⟩
  have hbody := h ⟨.call f none a, out⟩ ⟨.call f none b, out'⟩ (.bottom f)
  have halike : Action.Alike (fun c d => c = a ∧ d = b) (fun _ => False) ⟨a, out⟩ ⟨b, out'⟩
      (Page.inCall f none x ⟨a, out⟩) (Page.inCall f none y ⟨b, out'⟩) :=
    Action.Parallel.within_at hbody hback
  exact halike.resolve_left fun ⟨_, _, _, he⟩ => he

end Chain.Over

/-! ## What a call is given -/

namespace Page

/-- The fallbacks that are evaluated for some arguments. -/
def usedFallbacks : List Param → List Value → List Expr
  | [], _ => []
  | param :: params, args =>
    if param.rest then usedFallbacks params []
    else
      match args.head?.filter fun v => !v.isNull with
      | some _ => usedFallbacks params args.tail
      | none => param.fallback.toList ++ usedFallbacks params args.tail

theorem bindParams_congr_used {a b : Expr → Value} {params : List Param} {args : List Value}
    (h : ∀ e ∈ usedFallbacks params args, b e = a e) :
    bindParams b params args = bindParams a params args := by
  induction params generalizing args with
  | nil => rfl
  | cons param params ih =>
    rw [usedFallbacks] at h
    rw [bindParams, bindParams]
    by_cases hr : param.rest = true
    · rw [if_pos hr] at h
      rw [if_pos hr, if_pos hr, ih h]
    · rw [if_neg hr] at h
      rw [if_neg hr, if_neg hr]
      dsimp only
      cases hv : args.head?.filter fun v => !v.isNull with
      | some v =>
        rw [hv] at h
        rw [ih h]
      -- the argument is missing, so the fallback counts
      | none =>
        rw [hv, List.forall_mem_append] at h
        have hf : param.fallback.map b = param.fallback.map a :=
          Option.map_congr fun e he => h.1 e (Option.mem_toList.mpr he)
        rw [hf, ih h.2]

/-- In two frames all that a call evaluates has the same values. -/
structure GivenAlike (p : Page) (f g : Frame) (name : NameSource) (args : List Expr)
    (head : Head) : Prop where
  called : (p.nameOf g name).1 = (p.nameOf f name).1
  arguments : args.map (p.eval g) = args.map (p.eval f)
  attributes : ∀ a ∈ head.attributes, p.eval g a.value = p.eval f a.value
  spreads : ∀ e ∈ head.spreads, p.eval g e = p.eval f e
  fallbacks : ∀ mixin, Dictionary.find? (p.nameOf f name).1 p.mixins = some mixin →
    ∀ e ∈ usedFallbacks mixin.params (args.map (p.eval f)), p.eval g e = p.eval f e

namespace GivenAlike

variable {p : Page} {f g : Frame} {name : NameSource} {args : List Expr} {head : Head}

/-- So the frames that the call opens are the same. -/
theorem callFrame (h : p.GivenAlike f g name args head) {mixin : Mixin}
    (hm : Dictionary.find? (p.nameOf f name).1 p.mixins = some mixin) (hasContent : Bool) :
    p.callFrame g mixin args head hasContent = p.callFrame f mixin args head hasContent := by
  have hbindings : p.bindings g head = p.bindings f head := by
    rw [bindings, bindings, Binding.ofHead, Binding.ofHead]
    congr 1
    · exact List.map_congr_left fun a ha => by rw [h.attributes a ha]
    · exact List.flatMap_congr fun e he => by rw [h.spreads e he]
  rw [Page.callFrame, Page.callFrame, hbindings, h.arguments,
    bindParams_congr_used (h.fallbacks mixin hm)]

end GivenAlike

end Page

/-- The result with a failure, if there is one, and a session. -/
def Action.resultOf {n : Nat} (failure : Option RenderError) (s : Session n) :
    EStateM.Result RenderError (Session n) Unit :=
  match failure with
  | none => .ok () s
  | some e => .error e s

theorem Action.eq_resultOf {n : Nat} {x : EStateM.Result RenderError (Session n) Unit}
    {failure : Option RenderError} {c : Chain n} {out : Array Fragment}
    (hf : failure? x = failure) (hc : (session x).chain = c) (ho : (session x).out = out) :
    x = resultOf failure ⟨c, out⟩ := by
  subst hf hc ho
  cases x <;> rfl

/-! ## Calls without content -/

namespace Page

variable {p : Page} {n m : Nat} {name : NameSource} {args : List Expr} {head : Head}

/-- Where a call without content is given the same, it comes to the same, and the chains stay. -/
theorem agree_call (left : Nat) (loc : Location) (s : Session n) (t : Session m)
    (h : p.GivenAlike s.chain.frame t.chain.frame name args head) :
    Action.Agree (fun c d => c = s.chain ∧ d = t.chain) s t
      (p.renderNodes left n [.call loc name args head none] s)
      (p.renderNodes left m [.call loc name args head none] t) := by
  rw [renderNodes_call, renderNodes_call, h.called]
  cases hm : Dictionary.find? (p.nameOf s.chain.frame name).1 p.mixins with
  | none => exact .silent rfl rfl rfl ⟨rfl, rfl⟩
  | some mixin =>
    cases left with
    | zero => exact .silent rfl rfl rfl ⟨rfl, rfl⟩
    | succ left =>
      dsimp only
      rw [h.callFrame hm]
      exact Chain.Over.agree_inCall (Chain.Over.renderNodes left 0 _ _ mixin.body) s.out t.out

end Page

/-! ## Chains of a stack -/

namespace Stands

variable {frames frames' : List Activation} {n : Nat} {trail : List Nat} {c : Chain n}

/-- A chain fixes the frames it is made of. -/
theorem getElem?_eq (h : Stands frames trail c) (h' : Stands frames' trail c) :
    ∀ j ∈ trail, frames'[j]? = frames[j]? := by
  induction h with
  | page h =>
    cases h' with
    | page h' => exact List.forall_mem_singleton.mpr (h'.trans h.symm)
  | call h hj hc ih =>
    cases h' with
    | call h' _ hc' => exact List.forall_mem_cons.mpr ⟨h'.trans h.symm, ih hc'⟩

theorem frames_eq (h : Stands frames trail c) (h' : Stands frames' trail c)
    (ho : ∀ j ∉ trail, frames'[j]? = frames[j]?) : frames' = frames := by
  refine List.ext_getElem? fun j => ?_
  by_cases hj : j ∈ trail
  · exact getElem?_eq h h' j hj
  · exact ho j hj

end Stands

/-- From every frame of a stack a chain leads down to the page. -/
theorem Formed.exists_stands {limit i : Nat} {frames : List Activation}
    (hf : Formed limit frames i) :
    ∃ (n : Nat) (t : List Nat) (c : Chain n), Stands frames (i :: t) c := by
  induction i using Nat.strongRecOn with
  | ind i ih =>
    obtain ⟨a, ha⟩ : ∃ a, frames[i]? = some a := ⟨_, List.getElem?_eq_getElem hf.current⟩
    obtain ⟨f, content, j⟩ := a
    rcases Nat.eq_zero_or_pos i with rfl | hpos
    · obtain ⟨rfl, rfl⟩ := hf.page _ ha
      exact ⟨0, [], .page f, .page ha⟩
    · have hj : j < i := hf.callers i _ ha hpos
      obtain ⟨n, t, c, hc⟩ := ih j hj (hf.goTo (Nat.lt_trans hj hf.current))
      exact ⟨n + 1, j :: t, .call f content c, .call ha hj hc⟩

/-- A machine is about to render nodes, with other tasks behind. -/
structure Machine.Begins (limit : Nat) (m : Machine) (ns : List Node) (rest : List Task) : Prop
    extends Formed limit m.frames m.current where
  tasks : m.tasks = .nodes ns :: rest
  failure : m.failure = none

/-- How many more calls may be active. -/
def Machine.left (limit : Nat) (m : Machine) : Nat :=
  limit + 1 - m.frames.length

/-- It comes to what rendering gives for the chain of the current frame. -/
theorem Machine.Begins.reaches {p : Page} {m : Machine} {ns : List Node} {rest : List Task}
    (h : m.Begins p.options.maxDepth ns rest) (hlimit : p.options.maxIterations.isSome)
    {n : Nat} {t : List Nat} {c : Chain n} (hc : Stands m.frames (m.current :: t) c)
    {x : EStateM.Result RenderError (Session n) Unit}
    (hx : p.renderNodes (m.left p.options.maxDepth) n ns ⟨c, m.out⟩ = x) :
    ∃ frames, Stands frames (m.current :: t) (Action.session x).chain ∧
      (∀ j ∉ m.current :: t, frames[j]? = m.frames[j]?) ∧
      p.Reaches m ⟨frames, m.current, (Action.session x).out, rest, Action.failure? x⟩ := by
  have hdepth : m.frames.length + m.left p.options.maxDepth = p.options.maxDepth + 1 :=
    Nat.add_sub_of_le h.depth
  have hsim := Page.Simulates.renderNodes (Option.isSome_iff_exists.mp hlimit)
    (m.left p.options.maxDepth) n ns
  obtain ⟨frames, hs, -, ho, hr⟩ := hsim m.frames m.current t c m.out rest hc hdepth
  rw [hx] at hs hr
  have hm : m = ⟨m.frames, m.current, m.out, .nodes ns :: rest, none⟩ := by
    rw [← h.tasks, ← h.failure]
  refine ⟨frames, hs, ho, ?_⟩
  rw [hm]
  exact hr

theorem Stands.frame_eq {m : Machine} {n : Nat} {t : List Nat} {c : Chain n}
    (h : Stands m.frames (m.current :: t) c) : c.frame = m.frame := by
  rw [Machine.frame, h.frame, Option.getD_some]

/-! ## A call keeps to itself -/

/-- A call without content, in two states that give it the same, adds the same text and comes to the
same failure, if any; and it leaves both states as they were, with all their frames. -/
theorem call_isolated (p : Page) (loc : Location) (name : NameSource) (args : List Expr)
    (head : Head) :
    (∀ (left n m : Nat) (s : Session n) (t : Session m),
      p.GivenAlike s.chain.frame t.chain.frame name args head →
        ∃ failure fs,
          p.renderNodes left n [.call loc name args head none] s =
            Action.resultOf failure ⟨s.chain, s.out ++ fs⟩ ∧
          p.renderNodes left m [.call loc name args head none] t =
            Action.resultOf failure ⟨t.chain, t.out ++ fs⟩) ∧
    (p.options.maxIterations.isSome → ∀ (m₁ m₂ : Machine) (rest₁ rest₂ : List Task),
      m₁.Begins p.options.maxDepth [.call loc name args head none] rest₁ →
      m₂.Begins p.options.maxDepth [.call loc name args head none] rest₂ →
      m₁.frames.length = m₂.frames.length → p.GivenAlike m₁.frame m₂.frame name args head →
        ∃ failure fs,
          p.Reaches m₁ { m₁ with out := m₁.out ++ fs, tasks := rest₁, failure } ∧
          p.Reaches m₂ { m₂ with out := m₂.out ++ fs, tasks := rest₂, failure }) := by
  refine ⟨fun left n m s t h => ?_, fun hlimit m₁ m₂ rest₁ rest₂ h₁ h₂ hlen h => ?_⟩
  · obtain ⟨hfailure, ⟨hs, ht⟩, fs, hfs, hft⟩ := Page.agree_call left loc s t h
    exact ⟨_, fs, Action.eq_resultOf rfl hs hfs, Action.eq_resultOf hfailure ht hft⟩
  · obtain ⟨n₁, t₁, c₁, hc₁⟩ := h₁.exists_stands
    obtain ⟨n₂, t₂, c₂, hc₂⟩ := h₂.exists_stands
    have hleft : m₂.left p.options.maxDepth = m₁.left p.options.maxDepth := by
      rw [Machine.left, Machine.left, hlen]
    have hgiven : p.GivenAlike c₁.frame c₂.frame name args head := by
      rw [hc₁.frame_eq, hc₂.frame_eq]
      exact h
    obtain ⟨hfailure, ⟨hs, ht⟩, fs, hfs, hft⟩ :=
      Page.agree_call (m₁.left p.options.maxDepth) loc ⟨c₁, m₁.out⟩ ⟨c₂, m₂.out⟩ hgiven
    obtain ⟨frames₁, hf₁, ho₁, hr₁⟩ := h₁.reaches hlimit hc₁ rfl
    obtain ⟨frames₂, hf₂, ho₂, hr₂⟩ := h₂.reaches hlimit hc₂ rfl
    rw [hleft] at hf₂ hr₂
    rw [hs] at hf₁
    rw [ht] at hf₂
    rw [hc₁.frames_eq hf₁ ho₁, hfs] at hr₁
    rw [hc₂.frames_eq hf₂ ho₂, hft, hfailure] at hr₂
    exact ⟨_, fs, hr₁, hr₂⟩

/-- A mixin that gives a name its callers may have too a value, and shows it with its argument. -/
def greet : Mixin :=
  ⟨[⟨"who", some (.name "y"), false⟩],
    [.statements ⟨2, 3⟩ [.assign "x" .set (.literal (.string "Hello "))],
      .output ⟨3, 3⟩ (.name "x") true, .output ⟨4, 3⟩ (.name "who") true]⟩

def greetPage : Page :=
  ⟨[("greet", greet)], {}, [], .null, ⟨true, false⟩⟩

def greetCall : Node :=
  .call ⟨1, 1⟩ (.fixed "greet") [] {} none

/-- A caller with some value of its own for `x`, and one for `y`, which the fallback reads. -/
def greetCaller (x : String) : Frame :=
  { base := [("x", .string x), ("y", .string "World")] }

def greetMachine (x : String) : Machine :=
  ⟨[⟨greetCaller x, none, 0⟩], 0, #[], [.nodes [greetCall]], none⟩

theorem call_isolated_greet :
    greetPage.GivenAlike (greetCaller "a") (greetCaller "b") (.fixed "greet") [] {} ∧
      (∃ failure fs,
        greetPage.renderNodes 1 0 [greetCall] ⟨.page (greetCaller "a"), #[]⟩ =
          Action.resultOf failure ⟨.page (greetCaller "a"), #[] ++ fs⟩ ∧
        greetPage.renderNodes 1 1 [greetCall] ⟨.call (greetCaller "b") none (.page {}), #[]⟩ =
          Action.resultOf failure ⟨.call (greetCaller "b") none (.page {}), #[] ++ fs⟩) ∧
      ∃ failure fs,
        greetPage.Reaches (greetMachine "a")
          { greetMachine "a" with out := #[] ++ fs, tasks := [], failure } ∧
        greetPage.Reaches (greetMachine "b")
          { greetMachine "b" with out := #[] ++ fs, tasks := [], failure } := by
  have hgiven : greetPage.GivenAlike (greetCaller "a") (greetCaller "b") (.fixed "greet") [] {} :=
    { called := rfl
      arguments := rfl
      attributes := fun _ h => nomatch h
      spreads := fun _ h => nomatch h
      fallbacks := fun mixin hm e he => by
        cases hm
        rw [List.mem_singleton.mp he]
        rfl }
  have hbegins : ∀ x, (greetMachine x).Begins 256 [greetCall] [] :=
    fun x => ⟨.single 256 (greetCaller x), rfl, rfl⟩
  obtain ⟨hsessions, hmachines⟩ := call_isolated greetPage ⟨1, 1⟩ (.fixed "greet") [] {}
  exact ⟨hgiven, hsessions 1 0 1 _ _ hgiven,
    hmachines rfl _ _ [] [] (hbegins "a") (hbegins "b") rfl hgiven⟩

/-! ## More calls allowed -/

namespace Page

/-- The failure of a call that is one too many. -/
def TooDeep (p : Page) (e : RenderError) : Prop :=
  ∃ loc, e = .callDepth p.options.maxDepth loc

variable {p : Page} {n : Nat}

theorem steady_eq : Chain.Steady (Eq : Chain n → Chain n → Prop) where
  frame h := by rw [h]
  mapFrame h g := by rw [h]

theorem parallel_inCaller {E : RenderError → Prop} {run run' : List Node → Action n}
    (hr : ∀ ns, Action.Parallel Eq E (run ns) (run' ns)) :
    Action.Parallel Eq E (inCaller run) (inCaller run') := by
  rintro ⟨c, out⟩ ⟨_, out'⟩ rfl
  cases c with
  | call f content c =>
    cases content with
    | none => exact Or.inr (.silent rfl rfl rfl rfl)
    | some ns =>
      refine Action.Parallel.within_at (hr ns ⟨c, out⟩ ⟨c, out'⟩ rfl) fun h => ?_
      rw [h]

theorem parallel_renderWith {E : RenderError → Prop} {enter enter' : Entrance}
    (he : ∀ n loc mixin f content, Action.Parallel (Eq : Chain n → Chain n → Prop) E
      (enter n loc mixin f content) (enter' n loc mixin f content)) (n : Nat) (ns : List Node) :
    Action.Parallel Eq E (p.renderWith enter n ns) (p.renderWith enter' n ns) := by
  induction n generalizing ns with
  | zero => exact Action.Parallel.all ⟨steady_eq, .pure, he 0⟩ ns
  | succ n ih => exact Action.Parallel.all ⟨steady_eq, parallel_inCaller ih, he (n + 1)⟩ ns

/-- With one more call allowed nothing changes, unless there was one too many. -/
theorem parallel_succ (left n : Nat) (ns : List Node) :
    Action.Parallel Eq p.TooDeep (p.renderNodes left n ns) (p.renderNodes (left + 1) n ns) := by
  induction left generalizing n ns with
  | zero =>
    refine parallel_renderWith (fun n loc mixin f content => ?_) n ns
    exact .ignored ⟨loc, rfl⟩
  | succ left ih =>
    refine parallel_renderWith (fun n loc mixin f content => ?_) n ns
    exact .within (ih (n + 1) mixin.body) (fun h => by rw [h]) fun _ h => by rw [h]

theorem renderNodes_succ (left n : Nat) (ns : List Node) (s : Session n) :
    (∃ e t, p.renderNodes left n ns s = .error e t ∧ p.TooDeep e) ∨
      p.renderNodes (left + 1) n ns s = p.renderNodes left n ns s := by
  refine (parallel_succ left n ns s s rfl).imp id fun h => ?_
  obtain ⟨fs, hs, ht⟩ := h.out
  have hout := ht.trans hs.symm
  exact (Action.eq_resultOf h.failure h.chain.symm hout).trans (Action.eq_resultOf rfl rfl rfl).symm

/-- A bare block renders the content of the call at hand. -/
theorem renderNodes_slot (left n : Nat) (loc : Location) :
    p.renderNodes left (n + 1) [.slot loc] = inCaller (p.renderNodes left n) := by
  cases left with
  | zero => exact bind_pure_unit
  | succ left => exact bind_pure_unit

/-- A frame that is opened for its content only leaves nothing behind. -/
theorem inCall_inCaller (f : Frame) (ns : List Node) (run : List Node → Action n) :
    inCall f (some ns) (inCaller run) = run ns := by
  funext ⟨c, out⟩
  show Action.within (.call f (some ns)) (fun _ c => c.caller) (inCaller run) ⟨c, out⟩ = _
  simp only [Action.within, inCaller, Chain.content, Chain.caller]
  cases run ns ⟨c, out⟩ with
  | ok _ s => rfl
  | error e s => rfl

/-- A call whose mixin only shows its content does what the content does. -/
theorem renderNodes_call_slot {mixin : Mixin} {l : Location} (hbody : mixin.body = [.slot l])
    {name : NameSource} (s : Session n)
    (hm : Dictionary.find? (p.nameOf s.chain.frame name).1 p.mixins = some mixin) (left : Nat)
    (loc : Location) (args : List Expr) (head : Head) (ns : List Node) :
    (∃ e t, p.renderNodes left n [.call loc name args head (some ns)] s = .error e t ∧
      p.TooDeep e) ∨
      p.renderNodes left n [.call loc name args head (some ns)] s = p.renderNodes left n ns s := by
  rw [renderNodes_call, hm]
  cases left with
  | zero => exact Or.inl ⟨_, _, rfl, loc, rfl⟩
  | succ left =>
    dsimp only
    rw [hbody, renderNodes_slot, inCall_inCaller]
    exact (renderNodes_succ left n ns s).imp id Eq.symm

end Page

/-! ## Content stands for itself -/

/-- A call of a mixin that is nothing but the place for its content comes to what its content comes
to in place of the call: the same text, the same failure and the same frames. Only the frame of the
call itself may be one too many. -/
theorem call_as_its_content (p : Page) {mixin : Mixin} {l : Location}
    (hbody : mixin.body = [.slot l]) (loc : Location) (name : NameSource) (args : List Expr)
    (head : Head) (ns : List Node) :
    (∀ (left n : Nat) (s : Session n),
      Dictionary.find? (p.nameOf s.chain.frame name).1 p.mixins = some mixin →
        (∃ loc' t, p.renderNodes left n [.call loc name args head (some ns)] s =
          .error (.callDepth p.options.maxDepth loc') t) ∨
        p.renderNodes left n [.call loc name args head (some ns)] s = p.renderNodes left n ns s) ∧
    (p.options.maxIterations.isSome → ∀ (m : Machine) (rest : List Task),
      m.Begins p.options.maxDepth [.call loc name args head (some ns)] rest →
      Dictionary.find? (p.nameOf m.frame name).1 p.mixins = some mixin →
        (∃ m' loc', p.Reaches m m' ∧ m'.tasks = rest ∧
          m'.failure = some (.callDepth p.options.maxDepth loc')) ∨
        ∃ m', p.Reaches m m' ∧ p.Reaches { m with tasks := .nodes ns :: rest } m' ∧
          m'.tasks = rest) := by
  refine ⟨fun left n s hm => ?_, fun hlimit m rest h hm => ?_⟩
  · refine (Page.renderNodes_call_slot hbody s hm left loc args head ns).imp ?_ id
    rintro ⟨_, t, he, loc', rfl⟩
    exact ⟨loc', t, he⟩
  · obtain ⟨n, t, c, hc⟩ := h.exists_stands
    have hplain : ({ m with tasks := .nodes ns :: rest } : Machine).Begins p.options.maxDepth ns
        rest := ⟨h.toFormed, rfl, h.failure⟩
    rw [← hc.frame_eq] at hm
    obtain ⟨frames₁, hf₁, ho₁, hr₁⟩ := h.reaches hlimit hc rfl
    obtain ⟨frames₂, hf₂, ho₂, hr₂⟩ := hplain.reaches hlimit hc rfl
    rcases Page.renderNodes_call_slot hbody ⟨c, m.out⟩ hm (m.left p.options.maxDepth) loc args head
      ns with ⟨_, _, he, loc', rfl⟩ | heq
    · rw [he] at hr₁
      exact Or.inl ⟨_, loc', hr₁, rfl, rfl⟩
    · rw [heq] at hf₁ hr₁
      have hframes : frames₂ = frames₁ :=
        hf₁.frames_eq hf₂ fun j hj => (ho₂ j hj).trans (ho₁ j hj).symm
      rw [hframes] at hr₂
      exact Or.inr ⟨_, hr₁, hr₂, rfl⟩

/-- A mixin that is nothing but the place for its content. -/
def wrap : Mixin :=
  ⟨[], [.slot ⟨2, 3⟩]⟩

def wrapPage : Page :=
  ⟨[("w", wrap)], {}, [], .null, ⟨true, false⟩⟩

/-- Content that gives a local name of the caller a new value and shows it in a call of its own. -/
def wrapContent : List Node :=
  [.statements ⟨3, 3⟩ [.assign "x" .set (.literal (.string "b"))],
    .call ⟨4, 3⟩ (.fixed "w") [] {} (some [.output ⟨5, 5⟩ (.name "x") true])]

def wrapCall : Node :=
  .call ⟨1, 1⟩ (.fixed "w") [] {} (some wrapContent)

def wrapMachine (ns : List Node) : Machine :=
  ⟨[⟨{ base := [("x", .string "a")] }, none, 0⟩], 0, #[], [.nodes ns], none⟩

theorem call_as_its_content_wrap :
    wrapPage.renderNodes 2 0 [wrapCall] ⟨.page { base := [("x", .string "a")] }, #[]⟩ =
        wrapPage.renderNodes 2 0 wrapContent ⟨.page { base := [("x", .string "a")] }, #[]⟩ ∧
      ((∃ m' loc, wrapPage.Reaches (wrapMachine [wrapCall]) m' ∧ m'.tasks = [] ∧
        m'.failure = some (.callDepth 256 loc)) ∨
      ∃ m', wrapPage.Reaches (wrapMachine [wrapCall]) m' ∧
        wrapPage.Reaches (wrapMachine wrapContent) m' ∧ m'.tasks = []) := by
  have hbody : wrap.body = [.slot ⟨2, 3⟩] := rfl
  obtain ⟨hsessions, hmachines⟩ :=
    call_as_its_content wrapPage hbody ⟨1, 1⟩ (.fixed "w") [] {} wrapContent
  have hbegins : (wrapMachine [wrapCall]).Begins 256 [wrapCall] [] := ⟨.single 256 _, rfl, rfl⟩
  refine ⟨(hsessions 2 0 _ rfl).resolve_left ?_, hmachines rfl _ [] hbegins rfl⟩
  rintro ⟨loc, t, he⟩
  exact nomatch congrArg Action.failure? he

end PugTemplate
