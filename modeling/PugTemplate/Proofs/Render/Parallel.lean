import PugTemplate.Proofs.Render.Frame
import PugTemplate.Proofs.Render.Machine
import PugTemplate.Proofs.Render.Walk

/-!
# Two runs side by side

Nodes look at the current frame only. So runs over two chains that have the current frame in common
go the same way, as long as the ways out of the tree do: they write the same text, and fail the same
way. The chains may differ in all that lies behind the current frame, also in length.
-/

namespace PugTemplate

/-- A relation of chains that nodes keep: what is current is the same, and may be changed. -/
structure Chain.Steady {n m : Nat} (R : Chain n → Chain m → Prop) : Prop where
  frame : ∀ {c d}, R c d → d.frame = c.frame
  mapFrame : ∀ {c d}, R c d → ∀ g, R (c.mapFrame g) (d.mapFrame g)

namespace Action

/-- From two sessions two results come about alike: with related chains, by the same text and with
the same failure. -/
structure Agree {n m : Nat} (R : Chain n → Chain m → Prop) (s : Session n) (t : Session m)
    (x : EStateM.Result RenderError (Session n) Unit)
    (y : EStateM.Result RenderError (Session m) Unit) : Prop where
  failure : failure? y = failure? x
  chain : R (session x).chain (session y).chain
  out : ∃ fs, (session x).out = s.out ++ fs ∧ (session y).out = t.out ++ fs

/-- Results without new text come about alike if they fail alike. -/
theorem Agree.silent {n m : Nat} {R : Chain n → Chain m → Prop} {s : Session n} {t : Session m}
    {x : EStateM.Result RenderError (Session n) Unit}
    {y : EStateM.Result RenderError (Session m) Unit} (hf : failure? y = failure? x)
    (hx : (session x).out = s.out) (hy : (session y).out = t.out)
    (h : R (session x).chain (session y).chain) : Agree R s t x y where
  failure := hf
  chain := h
  out := ⟨#[], by rw [hx, Array.append_empty], by rw [hy, Array.append_empty]⟩

/-- Two results come about alike, unless the first one is a failure that does not count. -/
def Alike {n m : Nat} (R : Chain n → Chain m → Prop) (E : RenderError → Prop) (s : Session n)
    (t : Session m) (x : EStateM.Result RenderError (Session n) Unit)
    (y : EStateM.Result RenderError (Session m) Unit) : Prop :=
  (∃ e u, x = .error e u ∧ E e) ∨ Agree R s t x y

/-- From related chains two actions have results alike. -/
def Parallel {n m : Nat} (R : Chain n → Chain m → Prop) (E : RenderError → Prop) (a : Action n)
    (b : Action m) : Prop :=
  ∀ s t, R s.chain t.chain → Alike R E s t (a s) (b t)

end Action

namespace Action.Parallel

variable {n m : Nat} {R : Chain n → Chain m → Prop} {E : RenderError → Prop} {a c : Action n}
  {b d : Action m} {p : Page}

theorem pure : Parallel R E (pure ()) (pure ()) :=
  fun _ _ h => Or.inr (.silent rfl rfl rfl h)

theorem throw (e : RenderError) : Parallel R E (throw e) (throw e) :=
  fun _ _ h => Or.inr (.silent rfl rfl rfl h)

/-- A failure that does not count goes with all. -/
theorem ignored {e : RenderError} (he : E e) : Parallel R E (MonadExcept.throw e) b :=
  fun s _ _ => Or.inl ⟨e, s, rfl, he⟩

theorem emit (fs : List Fragment) : Parallel R E (Action.emit fs) (Action.emit fs) :=
  fun _ _ h => Or.inr ⟨rfl, h, fs.toArray, rfl, rfl⟩

theorem mapFrame (hR : Chain.Steady R) (g : Frame → Frame) :
    Parallel R E (modify fun s => { s with chain := s.chain.mapFrame g })
      (modify fun s => { s with chain := s.chain.mapFrame g }) :=
  fun _ _ h => Or.inr (.silent rfl rfl rfl (hR.mapFrame h g))

theorem seq (hab : Parallel R E a b) (hcd : Parallel R E c d) :
    Parallel R E (do a; c) (do b; d) := by
  intro s t h
  have h := hab s t h
  simp only [bind, EStateM.bind]
  cases hx : a s with
  | error e u =>
    rw [hx] at h
    rcases h with ⟨e', u', he', hE⟩ | h
    · exact Or.inl ⟨e', u', he', hE⟩
    · cases hy : b t with
      | error e' u' =>
        rw [hy] at h
        exact Or.inr h
      | ok _ u' => exact nomatch hy ▸ h.failure
  | ok _ u =>
    rw [hx] at h
    rcases h with ⟨e', u', he', _⟩ | h
    · exact nomatch he'
    · cases hy : b t with
      | error e' u' => exact nomatch hy ▸ h.failure
      | ok _ u' =>
        rw [hy] at h
        obtain ⟨fs, hs, ht⟩ := h.out
        refine (hcd u u' h.chain).imp id fun h' => ?_
        obtain ⟨gs, hs', ht'⟩ := h'.out
        refine ⟨h'.failure, h'.chain, fs ++ gs, ?_, ?_⟩
        · rw [hs', show u.out = s.out ++ fs from hs, Array.append_assoc]
        · rw [ht', show u'.out = t.out ++ fs from ht, Array.append_assoc]

theorem get {k : Session n → Action n} {l : Session m → Action m}
    (h : ∀ s t, R s.chain t.chain → Parallel R E (k s) (l t)) :
    Parallel R E (get >>= k) (get >>= l) :=
  fun s t hst => h s t hst s t hst

theorem value (hR : Chain.Steady R) {e : Expr} {k : Value → Action n} {l : Value → Action m}
    (h : ∀ v, Parallel R E (k v) (l v)) : Parallel R E (p.value e >>= k) (p.value e >>= l) := by
  intro s t hst
  have hv : p.eval t.chain.frame e = p.eval s.chain.frame e := by rw [hR.frame hst]
  have hl : (p.value e >>= l) t = l (p.eval s.chain.frame e) t := by rw [← hv]; rfl
  rw [hl]
  exact h (p.eval s.chain.frame e) s t hst

section Within

variable {n' m' : Nat} {R' : Chain n' → Chain m' → Prop} {a : Action n'} {b : Action m'}
  {enter : Chain n → Chain n'} {leave : Chain n → Chain n' → Chain n}
  {enter' : Chain m → Chain m'} {leave' : Chain m → Chain m' → Chain m}

/-- Acting on other chains, that are related in another way. -/
theorem within_at {c : Chain n} {d : Chain m} {out out' : Array Fragment}
    (h : Alike R' E ⟨enter c, out⟩ ⟨enter' d, out'⟩ (a ⟨enter c, out⟩) (b ⟨enter' d, out'⟩))
    (hout : ∀ {c' d'}, R' c' d' → R (leave c c') (leave' d d')) :
    Alike R E ⟨c, out⟩ ⟨d, out'⟩ (a.within enter leave ⟨c, out⟩)
      (b.within enter' leave' ⟨d, out'⟩) := by
  rcases h with ⟨e, u, hx, he⟩ | h
  · refine Or.inl ⟨e, ⟨leave c u.chain, u.out⟩, ?_, he⟩
    rw [Action.within, hx]
  · refine Or.inr ⟨?_, ?_, ?_⟩
    · rw [failure?_within, failure?_within]
      exact h.failure
    · rw [session_within, session_within]
      exact hout h.chain
    · rw [session_within, session_within]
      exact h.out

theorem within (h : Parallel R' E a b) (hin : ∀ {c d}, R c d → R' (enter c) (enter' d))
    (hout : ∀ {c d c' d'}, R c d → R' c' d' → R (leave c c') (leave' d d')) :
    Parallel R E (a.within enter leave) (b.within enter' leave') :=
  fun _ _ hst => within_at (h _ _ (hin hst)) (hout hst)

end Within

theorem withScope (hR : Chain.Steady R) (h : Parallel R E a b) (scope : Dictionary Value) :
    Parallel R E (a.withScope scope) (b.withScope scope) :=
  within h (fun hcd => hR.mapFrame hcd _) fun _ hcd => hR.mapFrame hcd _

/-! ## Loops -/

theorem repeatWhile (hR : Chain.Steady R) (h : Parallel R E a b) (loc : Location) (test : Expr)
    (left : Nat) :
    Parallel R E (p.repeatWhile loc test a left) (p.repeatWhile loc test b left) := by
  induction left with
  | zero =>
    refine value hR fun v => ?_
    split
    · exact throw _
    · exact pure
  | succ left ih =>
    refine value hR fun v => ?_
    split
    · exact seq h ih
    · exact pure

theorem forEntries (hR : Chain.Steady R) (h : Parallel R E a b) (value : String)
    (key : Option String) (es : List (Value × Value)) :
    Parallel R E (Page.forEntries value key a es) (Page.forEntries value key b es) := by
  induction es with
  | nil => exact pure
  | cons entry es ih => exact seq (withScope hR h _) ih

end Action.Parallel

/-- Two ways out of a tree go side by side. -/
structure Exits.Parallel {n m : Nat} (R : Chain n → Chain m → Prop) (E : RenderError → Prop)
    (x : Exits n) (y : Exits m) : Prop where
  steady : Chain.Steady R
  slot : Action.Parallel R E x.slot y.slot
  enter : ∀ loc mixin f content,
    Action.Parallel R E (x.enter loc mixin f content) (y.enter loc mixin f content)

namespace Action.Parallel

variable {n m : Nat} {R : Chain n → Chain m → Prop} {E : RenderError → Prop} {x : Exits n}
  {y : Exits m} {p : Page}

/-! ## Nodes -/

theorem call (hx : x.Parallel R E y) (loc : Location) (name : NameSource) (args : List Expr)
    (head : Head) (content : Option (List Node)) :
    Parallel R E (p.call x loc name args head content) (p.call y loc name args head content) := by
  refine get fun s t hst => ?_
  rw [hx.steady.frame hst]
  dsimp only
  cases Dictionary.find? (p.nameOf s.chain.frame name).1 p.mixins with
  | none => exact throw _
  | some mixin => exact hx.enter loc mixin _ content

theorem filter (hR : Chain.Steady R) (loc : Location) (name : String)
    (attributes : List Attribute) (text : String) :
    Parallel R E (p.filter loc name attributes text) (p.filter loc name attributes text) := by
  refine get fun s t hst => ?_
  rw [hR.frame hst]
  dsimp only
  cases Dictionary.find? name p.filters with
  | none => exact throw _
  | some g => exact emit _

mutual

theorem node (hx : x.Parallel R E y) (nd : Node) : Parallel R E (p.act x nd) (p.act y nd) := by
  match nd with
  | .group _ body | .namedBlock _ _ _ body => exact all hx body
  | .tag loc name head selfClosing textOnly body =>
    rw [Page.act, Page.act]
    refine get fun s t hst => ?_
    rw [hx.steady.frame hst]
    dsimp only
    split
    · exact emit _
    · exact seq (emit _) (seq (all hx body) (emit _))
  | .text _ _ segs => exact segments hx segs
  | .output _ e escape =>
    rw [Page.act, Page.act]
    exact value hx.steady fun v => emit _
  | .statements _ list => exact mapFrame hx.steady _
  | .comment _ text true body => exact emit _
  | .doctype _ value => exact emit _
  | .conditional _ negate test body next =>
    rw [Page.act, Page.act]
    refine value hx.steady fun v => ?_
    split
    · exact all hx body
    · exact otherwise hx next
  | .switch _ subject bs =>
    rw [Page.act_switch, Page.act_switch]
    refine get fun s t hst => ?_
    rw [hx.steady.frame hst]
    cases hc : p.chosen s.chain.frame subject bs with
    | none => exact pure
    | some ns =>
      obtain ⟨b, hb, he⟩ := Page.mem_of_chosen p hc
      exact branches hx bs b hb ns he
  | .each _ name key source body ifEmpty =>
    rw [Page.act, Page.act]
    refine value hx.steady fun v => ?_
    split
    · exact option hx ifEmpty
    · exact forEntries hx.steady (all hx body) name key _
  | .loop loc test body => exact repeatWhile hx.steady (all hx body) loc test _
  | .call loc name args head content => exact call hx loc name args head content
  | .slot _ => exact hx.slot
  | .filter loc name attributes text => exact filter hx.steady loc name attributes text
  | .comment _ _ false _ | .mixin .. | .includes .. | .rawInclude .. | .inherits .. | .yield _ =>
    exact pure

theorem all (hx : x.Parallel R E y) (ns : List Node) :
    Parallel R E (p.actAll x ns) (p.actAll y ns) := by
  match ns with
  | [] => exact pure
  | nd :: ns => exact seq (node hx nd) (all hx ns)

theorem segments (hx : x.Parallel R E y) (segs : List Segment) :
    Parallel R E (p.actSegments x segs) (p.actSegments y segs) := by
  match segs with
  | [] => exact pure
  | .literal text :: rest => exact seq (emit _) (segments hx rest)
  | .escaped e :: rest | .raw e :: rest =>
    rw [Page.actSegments, Page.actSegments]
    exact value hx.steady fun v => seq (emit _) (segments hx rest)
  | .tag nd :: rest => exact seq (node hx nd) (segments hx rest)

theorem otherwise (hx : x.Parallel R E y) (o : Otherwise) :
    Parallel R E (p.actOtherwise x o) (p.actOtherwise y o) := by
  match o with
  | .nothing => exact pure
  | .elseIf _ test body next =>
    rw [Page.actOtherwise, Page.actOtherwise]
    refine value hx.steady fun v => ?_
    split
    · exact all hx body
    · exact otherwise hx next
  | .otherwise _ body => exact all hx body

theorem branches (hx : x.Parallel R E y) (bs : List Branch) :
    ∀ b ∈ bs, ∀ ns, b.body = some ns → Parallel R E (p.actAll x ns) (p.actAll y ns) := by
  match bs with
  | [] => simp
  | .mk _ _ none :: rest =>
    rw [List.forall_mem_cons]
    exact ⟨fun ns h => (nomatch h), branches hx rest⟩
  | .mk _ _ (some body) :: rest =>
    rw [List.forall_mem_cons]
    refine ⟨fun ns h => ?_, branches hx rest⟩
    cases h
    exact all hx body

theorem option (hx : x.Parallel R E y) (o : Option (List Node)) :
    Parallel R E (p.actOption x o) (p.actOption y o) := by
  match o with
  | none => exact pure
  | some ns => exact all hx ns

end

end Action.Parallel

end PugTemplate
