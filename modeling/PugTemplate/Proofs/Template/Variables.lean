import PugTemplate.Proofs.Basic
import PugTemplate.Proofs.Render.Origin
import PugTemplate.Proofs.Template.Reads
import PugTemplate.Template.Basic

/-!
# A page depends on what its template reads

Two runs of a template over data that agree on `Linked.reads` go the same way step by step: their
frames and outputs stay equal. Since frames only gain names, what is bound for sure behind a node
still is when a later one is rendered, and also when the content of a call is rendered in the frame
of its caller.
-/

namespace PugTemplate

/-! ## Names that are bound -/

namespace Frame

/-- All of some names have a binding. -/
def BindsAll (f : Frame) (names : List String) : Prop :=
  ∀ x ∈ names, f.binds x

theorem BindsAll.nil (f : Frame) : f.BindsAll [] :=
  fun _ h => absurd h List.not_mem_nil

theorem BindsAll.append {f : Frame} {xs ys : List String} (h : f.BindsAll xs)
    (h' : f.BindsAll ys) : f.BindsAll (xs ++ ys) :=
  List.forall_mem_append.mpr ⟨h, h'⟩

theorem Grows.bindsAll {f g : Frame} (h : f.Grows g) {names : List String}
    (hf : f.BindsAll names) : g.BindsAll names :=
  fun x hx => h.binds (hf x hx)

theorem binds_declare (f : Frame) (name : String) (value : Value) :
    (f.declare name value).binds name := by
  rw [binds_iff, declare]
  split
  next h => exact Or.inr ((Dictionary.has_put _ _ _ _).mpr (Or.inl rfl))
  next d ds h =>
    exact Or.inl ⟨_, List.mem_cons_self, (Dictionary.has_put _ _ _ _).mpr (Or.inl rfl)⟩

theorem exists_has_of_replaceIn {name : String} {value : Value}
    {ds es : List (Dictionary Value)} (h : replaceIn name value ds = some es) :
    ∃ e ∈ es, Dictionary.has name e := by
  induction ds generalizing es with
  | nil => exact nomatch h
  | cons d ds ih =>
    rw [replaceIn] at h
    split at h
    next =>
      cases h
      exact ⟨_, List.mem_cons_self, (Dictionary.has_put _ _ _ _).mpr (Or.inl rfl)⟩
    next =>
      obtain ⟨rest, hr, rfl⟩ := Option.map_eq_some_iff.mp h
      obtain ⟨e, he, hn⟩ := ih hr
      exact ⟨e, List.mem_cons_of_mem _ he, hn⟩

theorem binds_assign (f : Frame) (name : String) (value : Value) :
    (f.assign name value).binds name := by
  rw [binds_iff, assign]
  split
  next h => exact Or.inl (exists_has_of_replaceIn h)
  next h => exact Or.inr ((Dictionary.has_put _ _ _ _).mpr (Or.inl rfl))

/-- A turn of a loop binds the names of the loop and keeps all others. -/
theorem bindsAll_push {f : Frame} {names : List String} (hf : f.BindsAll names) (value : String)
    (key : Option String) (entry : Value × Value) :
    (f.push (Page.turnScope value key entry)).BindsAll (value :: key.toList ++ names) := by
  intro x hx
  rw [List.cons_append, List.mem_cons, List.mem_append] at hx
  rw [binds_iff, push, List.exists_mem_cons_iff]
  have hturn : x = value ∨ x ∈ key.toList → Dictionary.has x (Page.turnScope value key entry) := by
    intro h
    have hone : Dictionary.has x [(value, entry.2)] ↔ x = value := by
      rw [Dictionary.has, Dictionary.find?_isSome_iff]
      exact List.mem_singleton
    cases key with
    | none => exact hone.mpr (h.resolve_right List.not_mem_nil)
    | some k =>
      refine (Dictionary.has_put _ _ _ _).mpr (h.symm.imp (fun h => ?_) hone.mpr)
      exact (List.mem_singleton.mp h).symm
  rcases hx with hx | hx | hx
  · exact Or.inl (Or.inl (hturn (Or.inl hx)))
  · exact Or.inl (Or.inl (hturn (Or.inr hx)))
  · rcases (binds_iff f x).mp (hf x hx) with h | h
    · exact Or.inl (Or.inr h)
    · exact Or.inr h

end Frame

namespace Page

theorem keys_bindParams (fallback : Expr → Value) (params : List Param) (args : List Value) :
    Dictionary.keys (bindParams fallback params args) = params.map Param.name := by
  induction params generalizing args with
  | nil => rfl
  | cons param params ih =>
    rw [bindParams]
    split
    · exact congrArg (param.name :: ·) (ih [])
    · exact congrArg (param.name :: ·) (ih args.tail)

/-- A new frame binds what the body of the mixin counts on. -/
theorem bindsAll_callFrame (p : Page) (f : Frame) (mixin : Mixin) (args : List Expr) (head : Head)
    (hasContent : Bool) : (p.callFrame f mixin args head hasContent).BindsAll mixin.bound := by
  intro x hx
  rw [Frame.binds_iff]
  right
  rw [callFrame, Dictionary.has_ofEntries, Dictionary.keys, List.map_append, ← Dictionary.keys,
    keys_bindParams]
  exact hx

theorem bindParams_congr {a b : Expr → Value} (params : List Param)
    (h : ∀ e ∈ params.filterMap Param.fallback, a e = b e) (args : List Value) :
    bindParams a params args = bindParams b params args := by
  induction params generalizing args with
  | nil => rfl
  | cons param params ih =>
    have hrest : ∀ e ∈ params.filterMap Param.fallback, a e = b e := by
      intro e he
      obtain ⟨q, hq, hf⟩ := List.mem_filterMap.mp he
      exact h e (List.mem_filterMap.mpr ⟨q, List.mem_cons_of_mem _ hq, hf⟩)
    have hhere : param.fallback.map a = param.fallback.map b := by
      cases hf : param.fallback with
      | none => rfl
      | some e =>
        exact congrArg some (h e (List.mem_filterMap.mpr ⟨param, List.mem_cons_self, hf⟩))
    simp only [bindParams, ih hrest, hhere]

end Page

/-! ## Two runs -/

section

variable (D : String → Prop)

/-- Data that has the same under the given names. -/
def Value.Agrees (a b : Value) : Prop :=
  ∀ x, D x → a.get? x = b.get? x

/-- The content of each call reads only the given names, beside what its caller binds. -/
def Chain.Ready : {n : Nat} → Chain n → Prop
  | _, .page _ => True
  | _, .call _ content caller =>
    (∃ bound, caller.frame.BindsAll bound ∧ ∀ x ∈ readsOption bound content, D x) ∧ caller.Ready

/-- Two actions go the same way where some names are bound, and bind others. -/
def Action.Same {n : Nat} (bound more : List String) (a b : Action n) : Prop :=
  ∀ s, s.chain.Ready D → s.chain.frame.BindsAll bound →
    b s = a s ∧ ∀ t, a s = .ok () t → t.chain.frame.BindsAll more

end

/-- The same page over other data. -/
def Page.over (p : Page) (data : Value) : Page :=
  { p with data }

theorem Chain.Grows.ready {D : String → Prop} {n : Nat} {a b : Chain n} (h : a.Grows b)
    (ha : a.Ready D) : b.Ready D := by
  induction a with
  | page f =>
    cases b
    exact ha
  | call f content caller ih =>
    cases b
    obtain ⟨_, rfl, hc⟩ := h
    obtain ⟨⟨bound, hb, hr⟩, ha⟩ := ha
    exact ⟨⟨bound, hc.frame.bindsAll hb, hr⟩, ih hc ha⟩

theorem Chain.ready_mapFrame {D : String → Prop} {n : Nat} {g : Frame → Frame} {c : Chain n} :
    (c.mapFrame g).Ready D ↔ c.Ready D := by
  cases c <;> rfl

namespace Action.Same

variable {D : String → Prop} {n : Nat} {bound more others : List String} {a b c d : Action n}
  {p : Page} {data : Value}

/-- What an action of a page does to frames, wherever its nodes stand. -/
theorem grows_of_ok (ha : p.Accounts (fun _ => True) a) {s t : Session n}
    (h : a s = .ok () t) : s.chain.Grows t.chain := by
  have hs := ha s (Chain.within_true s.chain)
  rw [h] at hs
  exact hs.chain

theorem refl (a : Action n) : Same D bound [] a a :=
  fun _ _ _ => ⟨rfl, fun _ _ => .nil _⟩

theorem weaken (h : Same D bound more a b) {names : List String} (hn : bound ⊆ names)
    (ho : others ⊆ more) : Same D names others a b := by
  intro s hs hb
  obtain ⟨heq, hmore⟩ := h s hs fun x hx => hb x (hn hx)
  exact ⟨heq, fun t ht x hx => hmore t ht x (ho hx)⟩

/-- One action after another: what the first binds is bound for the second, and behind it. -/
theorem seq (ha : p.Accounts (fun _ => True) a) (hc : p.Accounts (fun _ => True) c)
    (h : Same D bound more a b) (h' : Same D (more ++ bound) others c d) :
    Same D bound (others ++ more) (do a; c) (do b; d) := by
  intro s hs hb
  obtain ⟨heq, hmore⟩ := h s hs hb
  simp only [bind, EStateM.bind, heq]
  cases hx : a s with
  | error e t => exact ⟨rfl, fun u hu => nomatch hu⟩
  | ok x t =>
    have hgrow := grows_of_ok ha hx
    -- what was bound before the first action still is, and so is what it binds itself
    have hbound := (hmore t hx).append (hgrow.frame.bindsAll hb)
    obtain ⟨heq', hothers⟩ := h' t (hgrow.ready hs) hbound
    refine ⟨heq', fun u hu => (hothers u hu).append ?_⟩
    exact (grows_of_ok hc hu).frame.bindsAll (hmore t hx)

/-- First an action that binds nothing for sure. -/
theorem after (ha : p.Accounts (fun _ => True) a) (hc : p.Accounts (fun _ => True) c)
    (h : Same D bound [] a b) (h' : Same D bound others c d) :
    Same D bound others (do a; c) (do b; d) := by
  have hseq := seq ha hc h h'
  rwa [List.append_nil] at hseq

theorem get {k k' : Session n → Action n}
    (h : ∀ s, s.chain.frame.BindsAll bound → Same D bound more (k s) (k' s)) :
    Same D bound more (get >>= k) (get >>= k') :=
  fun s hs hb => h s hb s hs hb

/-- Acting on other frames goes the same way if acting there does. -/
theorem within {m : Nat} {enter : Chain n → Chain m} {leave : Chain n → Chain m → Chain n}
    {a b : Action m} {c : Chain n} {out : Array Fragment}
    (h : b ⟨enter c, out⟩ = a ⟨enter c, out⟩) :
    Action.within enter leave b ⟨c, out⟩ = Action.within enter leave a ⟨c, out⟩ := by
  simp only [Action.within, h]

theorem inTurn {value : String} {key : Option String} {entry : Value × Value}
    (h : Same D (value :: key.toList ++ bound) more a b) :
    Same D bound [] (a.withScope (Page.turnScope value key entry))
      (b.withScope (Page.turnScope value key entry)) := by
  rintro ⟨c, out⟩ hs hb
  refine ⟨within (h _ (Chain.ready_mapFrame.mpr hs) ?_).1, fun _ _ => .nil _⟩
  show (c.mapFrame _).frame.BindsAll _
  rw [Chain.frame_mapFrame]
  exact Frame.bindsAll_push hb value key entry

theorem inCall {f : Frame} {content : Option (List Node)} {names : List String}
    {a b : Action (n + 1)} (h : Same D names more a b) (hf : f.BindsAll names)
    (hc : ∀ x ∈ readsOption bound content, D x) :
    Same D bound [] (Page.inCall f content a) (Page.inCall f content b) := by
  rintro ⟨c, out⟩ hs hb
  have hready : (Chain.call f content c).Ready D := ⟨⟨bound, hb, hc⟩, hs⟩
  exact ⟨within (h ⟨.call f content c, out⟩ hready hf).1, fun _ _ => .nil _⟩

theorem inCaller {run run' : List Node → Action n}
    (h : ∀ bound ns, (∀ x ∈ readsAll bound ns, D x) →
      Same D bound (bindsAll ns) (run ns) (run' ns)) :
    Same D bound [] (Page.inCaller run) (Page.inCaller run') := by
  rintro ⟨c, out⟩ hs hb
  refine ⟨?_, fun _ _ => .nil _⟩
  cases c with
  | call f content caller =>
    obtain ⟨⟨names, hn, hr⟩, hs⟩ := hs
    cases content with
    | none => rfl
    | some ns =>
      -- where the call was met, all names that the content counts on were bound in this frame
      show Action.within Chain.caller Chain.withCaller (run' ns) ⟨.call f (some ns) caller, out⟩ =
        Action.within Chain.caller Chain.withCaller (run ns) ⟨.call f (some ns) caller, out⟩
      exact within (h names ns hr ⟨caller, out⟩ hs hn).1

/-! ## Values -/

section

variable (hd : Value.Agrees D p.data data)
include hd

theorem eval {f : Frame} {e : Expr} (hf : f.BindsAll bound) (he : ∀ x ∈ e.free bound, D x) :
    (p.over data).eval f e = p.eval f e := by
  refine Expr.eval_congr e fun x hx => ?_
  by_cases hb : x ∈ bound
  -- a local name hides the data
  · obtain ⟨v, hv⟩ := Option.isSome_iff_exists.mp (hf x hb)
    rw [Page.lookup, Page.lookup, hv]
    rfl
  · have hx := hd x (he x (Expr.mem_free.mpr ⟨hx, hb⟩))
    rw [Page.lookup, Page.lookup, Page.over, hx]

theorem evalAll {f : Frame} {es : List Expr} (hf : f.BindsAll bound)
    (he : ∀ x ∈ es.flatMap (·.free bound), D x) :
    ∀ e ∈ es, (p.over data).eval f e = p.eval f e :=
  fun e hm => eval hd hf fun x hx => he x (List.mem_flatMap.mpr ⟨e, hm, hx⟩)

theorem nameOf {f : Frame} {name : NameSource} (hf : f.BindsAll bound)
    (hn : ∀ x ∈ name.exprs.flatMap (·.free bound), D x) :
    (p.over data).nameOf f name = p.nameOf f name := by
  cases name with
  | fixed s => rfl
  | computed e =>
    rw [Page.nameOf, Page.nameOf, evalAll hd hf hn e List.mem_cons_self]

theorem bindings {f : Frame} {head : Head} (hf : f.BindsAll bound)
    (hh : ∀ x ∈ head.exprs.flatMap (·.free bound), D x) :
    (p.over data).bindings f head = p.bindings f head := by
  have he := evalAll hd hf hh
  rw [Head.exprs, List.forall_mem_append, List.forall_mem_map] at he
  rw [Page.bindings, Page.bindings, Binding.ofHead, Binding.ofHead]
  congr 1
  · exact List.map_congr_left fun a ha => by rw [he.1 a ha]
  · exact List.flatMap_congr fun e hm => by rw [he.2 e hm]

theorem callFrame {f : Frame} {mixin : Mixin} {args : List Expr} {head : Head}
    {hasContent : Bool} (hf : f.BindsAll bound) (ha : ∀ x ∈ args.flatMap (·.free bound), D x)
    (hh : ∀ x ∈ head.exprs.flatMap (·.free bound), D x)
    (hm : ∀ x ∈ (mixin.params.filterMap Param.fallback).flatMap (·.free []), D x) :
    (p.over data).callFrame f mixin args head hasContent =
      p.callFrame f mixin args head hasContent := by
  have hargs : args.map ((p.over data).eval f) = args.map (p.eval f) :=
    List.map_congr_left (evalAll hd hf ha)
  rw [Page.callFrame, Page.callFrame, bindings hd hf hh, hargs,
    Page.bindParams_congr mixin.params (evalAll hd (.nil f) hm)]

theorem value {e : Expr} {k k' : Value → Action n} (he : ∀ x ∈ e.free bound, D x)
    (h : ∀ v, Same D bound more (k v) (k' v)) :
    Same D bound more (p.value e >>= k) ((p.over data).value e >>= k') := by
  intro s hs hb
  obtain ⟨heq, hmore⟩ := h (p.eval s.chain.frame e) s hs hb
  refine ⟨?_, hmore⟩
  show k' ((p.over data).eval s.chain.frame e) s = k (p.eval s.chain.frame e) s
  rw [eval hd hb he]
  exact heq

theorem executeAll {list : List Statement} {f : Frame} (hf : f.BindsAll bound)
    (hl : ∀ x ∈ statementReads bound list, D x) :
    (p.over data).executeAll f list = p.executeAll f list ∧
      (p.executeAll f list).BindsAll (list.map Statement.target) := by
  induction list generalizing f bound with
  | nil => exact ⟨rfl, .nil f⟩
  | cons st list ih =>
    have hstep : (p.over data).execute f st = p.execute f st ∧
        (p.execute f st).binds st.target ∧
          ∀ x ∈ statementReads (st.target :: bound) list, D x := by
      cases st with
      | declare name e =>
        rw [statementReads, List.forall_mem_append] at hl
        refine ⟨?_, Frame.binds_declare f name _, hl.2⟩
        rw [Page.execute, Page.execute, eval hd hf hl.1]
      | assign name op e =>
        rw [statementReads, List.forall_mem_append, List.forall_mem_append] at hl
        refine ⟨?_, Frame.binds_assign f name _, hl.2.2⟩
        rw [Page.execute, Page.execute, eval hd hf hl.1]
        cases op with
        | set => rfl
        | add | sub =>
          have hname : ∀ x ∈ (Expr.name name).free bound, D x := by
            intro x hx
            rw [Expr.mem_free, Expr.occurrences, List.mem_singleton] at hx
            obtain ⟨rfl, hx⟩ := hx
            apply hl.2.1
            simp [hx]
          rw [eval hd hf hname]
    obtain ⟨heq, hbinds, hrest⟩ := hstep
    have hgrow : f.Grows (p.execute f st) := Page.Accounts.grows_executeAll f [st]
    have hall : (p.execute f st).BindsAll (st.target :: bound) :=
      List.forall_mem_cons.mpr ⟨hbinds, hgrow.bindsAll hf⟩
    obtain ⟨heq', hbinds'⟩ := ih hall hrest
    refine ⟨?_, List.forall_mem_cons.mpr ⟨?_, hbinds'⟩⟩
    · show ((p.over data).executeAll ((p.over data).execute f st) list) =
        p.executeAll (p.execute f st) list
      rw [heq]
      exact heq'
    · exact (Page.Accounts.grows_executeAll (p.execute f st) list).binds hbinds

end

/-! ## Loops and branches -/

theorem repeatWhile (hd : Value.Agrees D p.data data) (ha : p.Accounts (fun _ => True) a)
    (h : Same D bound more a b) {loc : Location} {test : Expr}
    (ht : ∀ x ∈ test.free bound, D x) (left : Nat) :
    Same D bound [] (p.repeatWhile loc test a left) ((p.over data).repeatWhile loc test b left) := by
  induction left with
  | zero =>
    refine value hd ht fun v => ?_
    exact refl _
  | succ left ih =>
    refine value hd ht fun v => ?_
    split
    · have hl : p.Raised (fun _ => True) (.iterationLimit p.budget loc) :=
        ⟨.loop loc test [], trivial, {}, List.mem_singleton_self _⟩
      -- the body may bind more for the turns to come, but a loop binds nothing for sure
      have hrest : Same D (more ++ bound) [] (p.repeatWhile loc test a left)
          ((p.over data).repeatWhile loc test b left) :=
        ih.weaken (List.subset_append_right _ _) fun _ h => h
      exact (seq ha (.repeatWhile ha hl left) h hrest).weaken (fun _ h => h) (List.nil_subset _)
    · exact refl _

theorem forEntries (ha : p.Accounts (fun _ => True) a) {name : String} {key : Option String}
    (h : Same D (name :: key.toList ++ bound) more a b) (es : List (Value × Value)) :
    Same D bound [] (Page.forEntries name key a es) (Page.forEntries name key b es) := by
  induction es with
  | nil => exact refl _
  | cons entry es ih =>
    exact seq (.withScope ha) (.forEntries ha es) (inTurn h) ih

theorem chosen (hd : Value.Agrees D p.data data) {f : Frame} (hf : f.BindsAll bound)
    {subject : Expr} (hs : ∀ x ∈ subject.free bound, D x) {bs : List Branch}
    (hb : ∀ x ∈ readsBranches bound bs, D x) :
    (p.over data).chosen f subject bs = p.chosen f subject bs := by
  refine Page.choose_congr fun b hmem e he => ?_
  obtain ⟨branch, hbranch, rfl⟩ := List.mem_map.mp hmem
  have htest : ∀ x ∈ e.free bound, D x := by
    intro x hx
    apply hb
    apply Branch.reads_subset hbranch
    exact List.mem_append_left _ (List.mem_flatMap.mpr ⟨e, Option.mem_toList.mpr he, hx⟩)
  rw [eval hd hf hs, eval hd hf htest]

end Action.Same

/-- Two ways out of trees go the same way, over data that agrees on what the mixins read. -/
structure Exits.Same (D : String → Prop) (p : Page) (data : Value) {n : Nat} (x y : Exits n) :
    Prop where
  agrees : Value.Agrees D p.data data
  pool : ∀ e ∈ p.mixins, ∀ x ∈ e.2.reads, D x
  leads : Page.Accounts.Leads p (fun _ => True) x
  slot : Action.Same D [] [] x.slot y.slot
  enter : ∀ loc mixin f content bound, (∀ x ∈ mixin.reads, D x) → f.BindsAll mixin.bound →
    (∀ x ∈ readsOption bound content, D x) →
      Action.Same D bound [] (x.enter loc mixin f content) (y.enter loc mixin f content)

namespace Action.Same

variable {D : String → Prop} {n : Nat} {p : Page} {data : Value} {x y : Exits n}

theorem call (h : x.Same D p data y) {bound : List String} {loc : Location} {name : NameSource}
    {args : List Expr} {head : Head} {content : Option (List Node)}
    (hn : ∀ x ∈ (Node.call loc name args head content).reads bound, D x) :
    Same D bound [] (p.call x loc name args head content)
      ((p.over data).call y loc name args head content) := by
  simp only [Node.reads, List.forall_mem_append] at hn
  obtain ⟨hname, hargs, hhead, hcontent⟩ := hn
  have hd := h.agrees
  refine get fun s hs => ?_
  dsimp only
  have hmixins : (p.over data).mixins = p.mixins := rfl
  rw [nameOf hd hs hname, hmixins]
  cases hf : Dictionary.find? (p.nameOf s.chain.frame name).1 p.mixins with
  | none => exact refl _
  | some mixin =>
    have hreads := h.pool _ (Dictionary.mem_of_find? hf)
    dsimp only
    rw [callFrame hd hs hargs hhead (List.forall_mem_append.mp hreads).1]
    exact h.enter _ _ _ _ _ hreads
      (p.bindsAll_callFrame s.chain.frame mixin args head content.isSome) hcontent

theorem filter (hd : Value.Agrees D p.data data) {bound : List String} {loc : Location}
    {name : String} {attributes : List Attribute} {text : String}
    (hn : ∀ x ∈ (Node.filter loc name attributes text).reads bound, D x) :
    Same D bound [] (p.filter loc name attributes text : Action n)
      ((p.over data).filter loc name attributes text) := by
  refine get fun s hs => ?_
  have he := evalAll hd hs hn
  rw [List.forall_mem_map] at he
  have hgiven : (attributes.map fun a => (a.name, (p.over data).eval s.chain.frame a.value)) =
      attributes.map fun a => (a.name, p.eval s.chain.frame a.value) :=
    List.map_congr_left fun a ha => by rw [he a ha]
  dsimp only
  rw [hgiven]
  exact refl _

/-! ## Nodes -/

/-- Every piece may be written by some node. -/
theorem accounts_emit (fs : List Fragment) :
    p.Accounts (fun _ => True) (Action.emit fs : Action n) := by
  refine .emit fun piece _ => ?_
  cases piece with
  | fixed text => exact ⟨.text ⟨0, 0⟩ "" [.literal text], trivial, {}, List.mem_singleton_self _⟩
  | escaped text =>
    exact ⟨.output ⟨0, 0⟩ (.literal (.string text)) true, trivial, {}, List.mem_singleton_self _⟩
  | raw text =>
    exact ⟨.output ⟨0, 0⟩ (.literal (.string text)) false, trivial, {}, List.mem_singleton_self _⟩

theorem accounts_act (h : x.Same D p data y) (nd : Node) :
    p.Accounts (fun _ => True) (p.act x nd) :=
  .node h.leads (fun _ _ _ _ => trivial) nd fun _ _ => trivial

theorem accounts_actAll (h : x.Same D p data y) (ns : List Node) :
    p.Accounts (fun _ => True) (p.actAll x ns) :=
  .all h.leads (fun _ _ _ _ => trivial) ns fun _ _ => trivial

theorem accounts_actSegments (h : x.Same D p data y) (segs : List Segment) :
    p.Accounts (fun _ => True) (p.actSegments x segs) :=
  .segments h.leads (fun _ _ _ _ => trivial) segs (fun _ _ => trivial)
    fun seg _ f piece hp => ⟨.text ⟨0, 0⟩ "" [seg], trivial, f, by simpa [Page.pieces] using hp⟩

mutual

theorem node (h : x.Same D p data y) (nd : Node) (bound : List String)
    (hn : ∀ x ∈ nd.reads bound, D x) :
    Same D bound nd.binds (p.act x nd) ((p.over data).act y nd) := by
  match nd with
  | .group _ body | .namedBlock _ _ _ body => exact all h body bound hn
  | .tag _ name head selfClosing _ body =>
    simp only [Node.reads, List.forall_mem_append] at hn
    rw [Page.act, Page.act]
    refine get fun s hs => ?_
    dsimp only
    rw [nameOf h.agrees hs hn.1, bindings h.agrees hs hn.2.1]
    by_cases hv : (p.isVoid (p.nameOf s.chain.frame name).1 selfClosing && body.isEmpty) = true
    · have hv' : ((p.over data).isVoid (p.nameOf s.chain.frame name).1 selfClosing &&
          body.isEmpty) = true := hv
      rw [if_pos hv, if_pos hv', List.isEmpty_iff.mp (Bool.and_eq_true_iff.mp hv).2]
      exact refl _
    · have hv' : ¬((p.over data).isVoid (p.nameOf s.chain.frame name).1 selfClosing &&
          body.isEmpty) = true := hv
      rw [if_neg hv, if_neg hv']
      have hbody := accounts_actAll h body
      exact after (accounts_emit _) (.bind hbody fun _ => accounts_emit _) (refl _)
        (seq hbody (accounts_emit _) (all h body bound hn.2.2) (refl _))
  | .text _ _ segs => exact segments h segs bound hn
  | .output _ e escape =>
    rw [Page.act, Page.act]
    exact value h.agrees hn fun v => refl _
  | .statements _ list =>
    rintro ⟨c, out⟩ hs hb
    obtain ⟨heq, hbinds⟩ := executeAll h.agrees hb hn
    have hmap : c.mapFrame ((p.over data).executeAll · list) = c.mapFrame (p.executeAll · list) :=
      Chain.mapFrame_congr heq
    refine ⟨?_, fun t ht => ?_⟩
    · show EStateM.Result.ok () (Session.mk (c.mapFrame _) out) =
        .ok () (Session.mk (c.mapFrame _) out)
      rw [hmap]
    · cases ht
      show (c.mapFrame _).frame.BindsAll _
      rw [Chain.frame_mapFrame]
      exact hbinds
  | .comment _ text true body => exact refl _
  | .doctype _ value => exact refl _
  | .conditional _ negate test body next =>
    simp only [Node.reads, List.forall_mem_append] at hn
    rw [Page.act, Page.act]
    refine value h.agrees hn.1 fun v => ?_
    split
    · exact (all h body bound hn.2.1).weaken (fun _ h => h) (List.filter_subset_self _)
    · exact (otherwise h next bound hn.2.2).weaken (fun _ h => h) fun x hx => by
        simpa using (List.mem_filter.mp hx).2
  | .switch _ subject bs =>
    simp only [Node.reads, List.forall_mem_append] at hn
    rw [Page.act_switch, Page.act_switch]
    refine get fun s hs => ?_
    rw [chosen h.agrees hs hn.1 hn.2]
    cases hc : p.chosen s.chain.frame subject bs with
    | none => exact refl _
    | some ns =>
      obtain ⟨b, hb, he⟩ := Page.mem_of_chosen p hc
      -- another run might have taken another branch, so none binds anything for sure
      exact (branches h bs bound hn.2 b hb ns he).weaken (fun _ h => h) (List.nil_subset _)
  | .each _ name key source body ifEmpty =>
    simp only [Node.reads, List.forall_mem_append] at hn
    rw [Page.act, Page.act]
    refine value h.agrees hn.1 fun v => ?_
    split
    · exact (option h ifEmpty bound hn.2.2).weaken (fun _ h => h) (List.nil_subset _)
    · exact forEntries (accounts_actAll h body) (all h body _ hn.2.1) _
  | .loop loc test body =>
    simp only [Node.reads, List.forall_mem_append] at hn
    exact repeatWhile h.agrees (accounts_actAll h body) (all h body bound hn.2) hn.1 _
  | .call loc name args head content => exact call h hn
  | .slot _ => exact h.slot.weaken (List.nil_subset _) fun _ h => h
  | .filter loc name attributes text => exact filter h.agrees hn
  | .comment _ _ false _ | .mixin .. | .includes .. | .rawInclude .. | .inherits .. | .yield _ =>
    exact refl _

theorem all (h : x.Same D p data y) (ns : List Node) (bound : List String)
    (hn : ∀ x ∈ readsAll bound ns, D x) :
    Same D bound (bindsAll ns) (p.actAll x ns) ((p.over data).actAll y ns) := by
  match ns with
  | [] => exact refl _
  | nd :: ns =>
    rw [readsAll, List.forall_mem_append] at hn
    exact seq (accounts_act h nd) (accounts_actAll h ns) (node h nd bound hn.1)
      (all h ns _ hn.2)

theorem segments (h : x.Same D p data y) (segs : List Segment) (bound : List String)
    (hn : ∀ x ∈ readsSegments bound segs, D x) :
    Same D bound (bindsSegments segs) (p.actSegments x segs)
      ((p.over data).actSegments y segs) := by
  match segs with
  | [] => exact refl _
  | .literal text :: rest =>
    exact after (accounts_emit _) (accounts_actSegments h rest) (refl _)
      (segments h rest bound hn)
  | .escaped e :: rest | .raw e :: rest =>
    rw [readsSegments, List.forall_mem_append] at hn
    rw [Page.actSegments, Page.actSegments]
    refine value h.agrees hn.1 fun v => ?_
    exact after (accounts_emit _) (accounts_actSegments h rest) (refl _)
      (segments h rest bound hn.2)
  | .tag nd :: rest =>
    rw [readsSegments, List.forall_mem_append] at hn
    exact seq (accounts_act h nd) (accounts_actSegments h rest) (node h nd bound hn.1)
      (segments h rest _ hn.2)

theorem otherwise (h : x.Same D p data y) (o : Otherwise) (bound : List String)
    (hn : ∀ x ∈ o.reads bound, D x) :
    Same D bound o.binds (p.actOtherwise x o) ((p.over data).actOtherwise y o) := by
  match o with
  | .nothing => exact refl _
  | .elseIf _ test body next =>
    simp only [Otherwise.reads, List.forall_mem_append] at hn
    rw [Page.actOtherwise, Page.actOtherwise]
    refine value h.agrees hn.1 fun v => ?_
    split
    · exact (all h body bound hn.2.1).weaken (fun _ h => h) (List.filter_subset_self _)
    · exact (otherwise h next bound hn.2.2).weaken (fun _ h => h) fun x hx => by
        simpa using (List.mem_filter.mp hx).2
  | .otherwise _ body => exact all h body bound hn

theorem branches (h : x.Same D p data y) (bs : List Branch) (bound : List String)
    (hn : ∀ x ∈ readsBranches bound bs, D x) :
    ∀ b ∈ bs, ∀ ns, b.body = some ns →
      Same D bound (bindsAll ns) (p.actAll x ns) ((p.over data).actAll y ns) := by
  match bs with
  | [] => simp
  | .mk _ test none :: rest =>
    rw [List.forall_mem_cons]
    refine ⟨fun ns h => (nomatch h), branches h rest bound fun x hx => hn x ?_⟩
    cases test <;> simp [readsBranches, hx]
  | .mk loc test (some body) :: rest =>
    rw [List.forall_mem_cons]
    refine ⟨fun ns hns => ?_, branches h rest bound fun x hx => hn x ?_⟩
    · cases hns
      have hbody : ∀ x ∈ readsAll bound body, D x := by
        intro x hx
        apply hn
        exact Branch.reads_subset List.mem_cons_self (List.mem_append_right _ hx)
      exact all h body bound hbody
    · cases test <;> simp [readsBranches, hx]

theorem option (h : x.Same D p data y) (o : Option (List Node)) (bound : List String)
    (hn : ∀ x ∈ readsOption bound o, D x) :
    Same D bound [] (p.actOption x o) ((p.over data).actOption y o) := by
  match o with
  | none => exact refl _
  | some ns => exact (all h ns bound hn).weaken (fun _ h => h) (List.nil_subset _)

end

/-! ## Calls -/

/-- The induction is on the length of the chain: content is rendered one frame further out. -/
theorem renderWith (hd : Value.Agrees D p.data data)
    (hm : ∀ e ∈ p.mixins, ∀ x ∈ e.2.reads, D x) {enter enter' : Page.Entrance}
    (ha : ∀ n loc mixin f content, p.Raised (fun _ => True) (.callDepth p.options.maxDepth loc) →
      p.Accounts (fun _ => True) (enter n loc mixin f content))
    (he : ∀ n loc mixin f content bound, (∀ x ∈ mixin.reads, D x) → f.BindsAll mixin.bound →
      (∀ x ∈ readsOption bound content, D x) →
        Same D bound [] (enter n loc mixin f content) (enter' n loc mixin f content))
    (n : Nat) (bound : List String) (ns : List Node) (hn : ∀ x ∈ readsAll bound ns, D x) :
    Same D bound (bindsAll ns) (p.renderWith enter n ns) ((p.over data).renderWith enter' n ns) := by
  have hleads : ∀ n, ∀ ns, p.Accounts (fun _ => True) (p.renderWith enter n ns) :=
    fun n ns => .renderWith (fun _ _ _ _ => trivial)
      (fun n loc mixin f content hr _ _ => ha n loc mixin f content hr) n ns fun _ _ => trivial
  induction n generalizing bound ns with
  | zero =>
    refine all ⟨hd, hm, ⟨.pure (), ?_⟩, refl (pure ()), he 0⟩ ns bound hn
    exact fun loc mixin f content hr _ _ => ha 0 loc mixin f content hr
  | succ n ih =>
    refine all ⟨hd, hm, ⟨.inCaller fun ns _ => hleads n ns, ?_⟩, inCaller ih, he (n + 1)⟩ ns bound hn
    exact fun loc mixin f content hr _ _ => ha (n + 1) loc mixin f content hr

/-- The induction is on how many more calls may be active. -/
theorem renderNodes (hd : Value.Agrees D p.data data)
    (hm : ∀ e ∈ p.mixins, ∀ x ∈ e.2.reads, D x) (left n : Nat) (bound : List String)
    (ns : List Node) (hn : ∀ x ∈ readsAll bound ns, D x) :
    Same D bound (bindsAll ns) (p.renderNodes left n ns)
      ((p.over data).renderNodes left n ns) := by
  induction left generalizing n bound ns with
  | zero =>
    -- any call is one too many, in both runs
    exact renderWith hd hm (fun _ _ _ _ _ hr => .throw hr) (fun _ _ _ _ _ _ _ _ _ => refl _) n
      bound ns hn
  | succ left ih =>
    refine renderWith hd hm (fun n _ mixin f content _ => ?_)
      (fun n _ mixin f content bound hreads hf hc => ?_) n bound ns hn
    · have hbody : p.Accounts (fun _ => True) (p.renderNodes left (n + 1) mixin.body) :=
        .renderNodes (fun _ _ _ _ => trivial) left _ _ fun _ _ => trivial
      exact .inCall hbody fun _ _ => trivial
    · have hbody := ih (n + 1) mixin.bound mixin.body (List.forall_mem_append.mp hreads).2
      exact inCall hbody hf hc

end Action.Same

/-- Data that agrees on what a template reads gives one page, or one failure. -/
theorem Linked.render_congr {l : Linked} {data data' : Value}
    (h : ∀ x ∈ l.reads, data.get? x = data'.get? x) (options : Options)
    (filters : Dictionary Filter) :
    render l data' options filters = render l data options filters := by
  have hmixins : ∀ e ∈ l.mixins, ∀ x ∈ e.2.reads, x ∈ l.reads :=
    fun e he x hx => List.mem_append_right _ (List.mem_flatMap.mpr ⟨e, he, hx⟩)
  have hnodes : ∀ x ∈ readsAll [] l.nodes, x ∈ l.reads :=
    fun x hx => List.mem_append_left _ hx
  have hsame := Action.Same.renderNodes (p := l.page data options filters) h hmixins
    options.maxDepth 0 [] l.nodes hnodes
  have hrun := (hsame ⟨.page {}, #[]⟩ trivial (.nil _)).1
  have hfragments :
      renderFragments l data' options filters = renderFragments l data options filters := by
    rw [renderFragments_eq, renderFragments_eq, ← hrun]
    rfl
  rw [render, render, hfragments]

/-- Data that agrees on the variables of a template gives one page, or one failure, if it also
agrees on each name that a statement binds somewhere and that is read where it is not bound for
sure. -/
theorem Template.render_eq_of_variables {t : Template} {data data' : Value}
    (hv : ∀ x ∈ t.variables, data.get? x = data'.get? x)
    (hs : ∀ x ∈ t.linked.targets, x ∈ t.linked.reads → data.get? x = data'.get? x) :
    t.render data' = t.render data := by
  have hreads : ∀ x ∈ t.linked.reads, data.get? x = data'.get? x := by
    intro x hx
    rcases Linked.mem_variables_or_targets hx with h | h
    · exact hv x h
    · exact hs x h hx
  rw [Template.render, Template.render, Linked.render_congr hreads]

/-! ## A name bound in a branch that is not taken -/

namespace BranchBinding

/-- Lines that bind a name in a branch and show it behind. -/
def source : String :=
  "if y\n  - x = y\n= x"

def nodes : List Node :=
  [.conditional ⟨1, 1⟩ false (.name "y")
      [.statements ⟨2, 3⟩ [.assign "x" .set (.name "y")]] .nothing,
    .output ⟨3, 1⟩ (.name "x") true]

def template : Template :=
  ⟨source, none, ⟨nodes, []⟩, {}, .builtin⟩

theorem readTernary_name (stop offset : Nat) (n : String) :
    Expr.readTernary stop [⟨.name n, offset⟩] = .ok (Expr.ofName n, 1) := by
  simp [Expr.readTernary, Expr.readLevel, Level.table, Expr.readUnary, Expr.unary?,
    Expr.readPrimary, Expr.readSuffixes, Expr.readChain, Expr.operator?, Expr.startsWith, bind,
    Except.bind, pure, Except.pure]

theorem readAll_letter (inner : List Char → Except ExprError Expr) {c : Char}
    (hc : c = 'x' ∨ c = 'y') :
    Lexeme.readAll inner 0 [c] = .ok [⟨.name (String.ofList [c]), 0⟩] := by
  have hb : isBlank c = false := by
    rcases hc with rfl | rfl <;> decide
  have hs : isNameStart c = true := by
    rcases hc with rfl | rfl <;> decide
  have hd : c.isDigit = false ∧ c ≠ '.' ∧ c ≠ '\'' ∧ c ≠ '"' ∧ c ≠ '`' := by
    rcases hc with rfl | rfl <;> decide
  simp [Lexeme.readAll, Lexeme.read, hb, hs, hd, bind, Except.bind, pure, Except.pure]

theorem read_letter {c : Char} (hc : c = 'x' ∨ c = 'y') :
    Expr.read [c] = .ok (.name (String.singleton c)) := by
  have hn : Expr.ofName (String.singleton c) = .name (String.singleton c) := by
    rcases hc with rfl | rfl <;> rfl
  rw [Expr.read, Expr.readWith, readAll_letter _ hc]
  simp [bind, Except.bind, pure, Except.pure, readTernary_name, hn]

theorem readAll_assignment (inner : List Char → Except ExprError Expr) :
    Lexeme.readAll inner 0 "x = y".toList =
      .ok [⟨.name "x", 0⟩, ⟨.punct .assign, 2⟩, ⟨.name "y", 4⟩] := by
  have hx : isBlank 'x' = false ∧ isNameStart 'x' = true := by decide
  have hy : isBlank 'y' = false ∧ isNameStart 'y' = true := by decide
  have hblank : isBlank ' ' = true ∧ isNameChar ' ' = false := by decide
  have hmark : isBlank '=' = false ∧ isNameStart '=' = false := by decide
  have hp : Punct.ofStart? ['=', ' ', 'y'] = some .assign := by decide
  have hl : Punct.assign.text.length = 1 := by decide
  show Lexeme.readAll inner 0 ['x', ' ', '=', ' ', 'y'] = _
  simp [Lexeme.readAll, Lexeme.read, hx, hy, hblank, hmark, hp, hl, byteLength, bind, Except.bind,
    pure, Except.pure]
  decide

theorem statements_read :
    Statement.readAll "x = y".toList = .ok [.assign "x" .set (.name "y")] := by
  rw [Statement.readAll, readAll_assignment]
  simp [bind, Except.bind, pure, Except.pure, Statement.readSequence, Statement.readOne,
    Statement.readAssigned, readTernary_name, Expr.startsWith, Expr.ofName]

theorem ofSource_source : Template.ofSource {} source = .ok template := by
  have hl : (lex source).bind (CommentPolicy.strip {}) =
      .ok [⟨.ifCond "y", ⟨1, 1⟩⟩, ⟨.indent 2, ⟨2, 3⟩⟩, ⟨.code "x = y" false false, ⟨2, 3⟩⟩,
        ⟨.outdent, ⟨3, 1⟩⟩, ⟨.code "x" true true, ⟨3, 1⟩⟩, ⟨.eos, ⟨3, 4⟩⟩] :=
    eq_ok_of_toOption (by decide +kernel)
  have hparse : parseSource {} source = .ok nodes := by
    have hx : expressionAt "x" ⟨3, 1⟩ = .ok (.name "x") := by
      rw [expressionAt, show "x".toList = ['x'] from rfl, read_letter (Or.inl rfl)]
      rfl
    have hy : expressionAt "y" ⟨1, 1⟩ = .ok (.name "y") := by
      rw [expressionAt, show "y".toList = ['y'] from rfl, read_letter (Or.inr rfl)]
      rfl
    have hs : statementsAt "x = y" ⟨2, 3⟩ = .ok [.assign "x" .set (.name "y")] := by
      rw [statementsAt, statements_read]
      rfl
    have ho : ∀ cx, readOtherwise cx [⟨.code "x" true true, ⟨3, 1⟩⟩, ⟨.eos, ⟨3, 4⟩⟩] =
        .ok (.nothing, 0) := by
      intro cx
      rw [readOtherwise]
      rfl
    simp only [parseSource, hl, parseTokens, readTokens, readDocument, Node.read, readConditional,
      readOptionalBlock, readItems, readCode, Node.ofCode, hy, hs]
    simp [ho, readDocument, Node.read, readCode, Node.ofCode, readItems, nodes, hx, bind,
      Except.bind, pure, Except.pure]
  have hlink : link [] {} Template.anonymousPath nodes = .ok ⟨nodes, []⟩ := by
    rw [link, Linking.linkTree]
    rfl
  rw [Template.ofSource, Template.linkSource, hparse]
  dsimp only
  rw [hlink]
  rfl

theorem variables_template : template.variables = ["y"] := by
  decide

theorem targets_template : template.linked.targets = ["x"] := by
  decide

theorem render_named : template.render (.map [("x", .string "A")]) = .ok "A" := by
  have hr : render template.linked (.map [("x", .string "A")]) template.options template.filters =
      .ok "A" := eq_ok_of_toOption (by decide)
  rw [Template.render, hr]

theorem render_empty : template.render (.map []) = .ok "" := by
  have hr : render template.linked (.map []) template.options template.filters = .ok "" :=
    eq_ok_of_toOption (by decide)
  rw [Template.render, hr]

end BranchBinding

theorem render_eq_of_variables_branchBinding :
    (∀ x ∈ BranchBinding.template.variables,
      (Value.map [("x", .bool true)]).get? x = (Value.map [("x", .bool true), ("z", .null)]).get? x) ∧
    (∀ x ∈ BranchBinding.template.linked.targets, x ∈ BranchBinding.template.linked.reads →
      (Value.map [("x", .bool true)]).get? x = (Value.map [("x", .bool true), ("z", .null)]).get? x) ∧
    BranchBinding.template.render (.map [("x", .bool true), ("z", .null)]) =
      BranchBinding.template.render (.map [("x", .bool true)]) := by
  have hv : ∀ x ∈ BranchBinding.template.variables, (Value.map [("x", .bool true)]).get? x =
      (Value.map [("x", .bool true), ("z", .null)]).get? x := by
    rw [BranchBinding.variables_template]
    exact List.forall_mem_singleton.mpr rfl
  have hs : ∀ x ∈ BranchBinding.template.linked.targets,
      x ∈ BranchBinding.template.linked.reads → (Value.map [("x", .bool true)]).get? x =
        (Value.map [("x", .bool true), ("z", .null)]).get? x := by
    rw [BranchBinding.targets_template]
    exact List.forall_mem_singleton.mpr fun _ => rfl
  exact ⟨hv, hs, Template.render_eq_of_variables hv hs⟩

/-- The name that a branch binds is no variable, but where the branch is not taken it is read. -/
theorem variables_incomplete :
    ¬ ∀ (options : Options) (source : String) (t : Template) (data data' : Value),
      Template.ofSource options source = .ok t →
        (∀ x ∈ t.variables, data.get? x = data'.get? x) → t.render data' = t.render data := by
  intro h
  have heq := h _ _ _ (.map [("x", .string "A")]) (.map []) BranchBinding.ofSource_source
    (by rw [BranchBinding.variables_template]; exact List.forall_mem_singleton.mpr rfl)
  rw [BranchBinding.render_named, BranchBinding.render_empty] at heq
  exact absurd heq (by simp)

end PugTemplate
