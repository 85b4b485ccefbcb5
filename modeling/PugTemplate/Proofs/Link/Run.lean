import PugTemplate.Proofs.Link.Path
import PugTemplate.Proofs.Link.Stable

/-!
# Linking as a run

`link` says what becomes of a template. Here it is followed step by step: which paths are asked for,
one after the other, and how a failure is handed up. Each template on the way puts its path in front
of a failure that has none yet. A run comes to the same end as `link`, and it asks only for paths that
references lead to.
-/

namespace PugTemplate

open Linking (Access)

/-! ## Failures on their way up -/

inductive Report where
  | reference (error : LinkError)
  | source (error : SourceError)
  | included (path : String) (inner : Report)

/-- Puts the path of a template in front of a failure that does not say where it is. -/
def Report.inTemplate (path : String) : Report → Report
  | .source e => .included path (.source e)
  | r => r

def LinkFailure.report : LinkFailure → Report
  | .reference e => .reference e
  | .included path e => .included path (.source e)

/-- A failure that left one template says where it is, so the next one adds nothing. -/
@[simp] theorem LinkFailure.inTemplate_report (path : String) (e : LinkFailure) :
    e.report.inTemplate path = e.report := by
  cases e <;> rfl

/-! ## Runs -/

/-- The paths that were asked for, and what became of it. -/
structure Run (α : Type) where
  asked : List String
  result : Except Report α

namespace Run

instance : Monad Run where
  pure a := ⟨[], .ok a⟩
  bind x f :=
    match x.result with
    | .error e => ⟨x.asked, .error e⟩
    | .ok a => ⟨x.asked ++ (f a).asked, (f a).result⟩

section Bind

variable {α β : Type} {x : Run α} {f : α → Run β}

theorem bind_of_error {e : Report} (h : x.result = .error e) : x >>= f = ⟨x.asked, .error e⟩ := by
  simp only [bind, h]

theorem bind_of_ok {a : α} (h : x.result = .ok a) :
    x >>= f = ⟨x.asked ++ (f a).asked, (f a).result⟩ := by
  simp only [bind, h]

/-- What is asked for in two steps is asked for in one of them. -/
theorem mem_asked_bind {file : String} (h : file ∈ (x >>= f).asked) :
    file ∈ x.asked ∨ ∃ a, x.result = .ok a ∧ file ∈ (f a).asked := by
  cases hx : x.result with
  | error e =>
    rw [bind_of_error hx] at h
    exact Or.inl h
  | ok a =>
    rw [bind_of_ok hx] at h
    exact (List.mem_append.mp h).imp id fun h => ⟨a, rfl, h⟩

end Bind

def failAt {α : Type} (path : String) (loc : Location) (cause : LinkCause) : Run α :=
  ⟨[], .error (.reference ⟨cause, path, loc⟩)⟩

/-- Asks for the source under a path, and goes on with what is there. -/
def ask {α : Type} (file : String) (x : Run α) : Run α :=
  ⟨file :: x.asked, x.result⟩

def inTemplate {α : Type} (path : String) (x : Run α) : Run α :=
  ⟨x.asked, x.result.mapError (·.inTemplate path)⟩

/-- The tree of a source. -/
def parse (options : Options) (source : String) : Run (List Node) :=
  ⟨[], (parseSource options source).mapError .source⟩

/-- Access to a set of templates by asking for their sources. -/
def asking (load : String → Location → Run Loaded) (set : TemplateSet) (path : String) :
    Access Run where
  fail e := ⟨[], .error (.reference e)⟩
  read file loc :=
    ask file (match set.fetch? file with
      | some text => pure text
      | none => failAt path loc (.unresolvedPath file))
  load := load

def linkTree (set : TemplateSet) (options : Options) (stack : List String) (path : String)
    (nodes : List Node) : Run (List Node) :=
  (asking
    (fun target loc =>
      if _hs : target ∈ stack then failAt path loc (.circularReference target)
      else ask target (match _hf : set.fetch? target with
        | none => failAt path loc (.unresolvedPath target)
        | some source => do
          let parsed ← inTemplate target (parse options source)
          let linked ← inTemplate target (linkTree set options (target :: stack) target parsed)
          return ⟨linked, extendsOther parsed⟩))
    set path).link options.basedir path nodes
termination_by (set.unvisited stack).length
decreasing_by exact TemplateSet.length_unvisited_lt _hs _hf

/-- What a source leads to, for a reference from a template that is being linked. -/
def opened (set : TemplateSet) (options : Options) (stack : List String) (target source : String) :
    Run Loaded := do
  let parsed ← inTemplate target (parse options source)
  let linked ← inTemplate target (linkTree set options (target :: stack) target parsed)
  return ⟨linked, extendsOther parsed⟩

def loader (set : TemplateSet) (options : Options) (stack : List String) (path target : String)
    (loc : Location) : Run Loaded :=
  if target ∈ stack then failAt path loc (.circularReference target)
  else ask target (match set.fetch? target with
    | none => failAt path loc (.unresolvedPath target)
    | some source => opened set options stack target source)

theorem linkTree_eq (set : TemplateSet) (options : Options) (stack : List String) (path : String)
    (ns : List Node) :
    linkTree set options stack path ns =
      (asking (loader set options stack path) set path).link options.basedir path ns := by
  rw [linkTree]
  congr 2
  funext target loc
  unfold loader
  split
  · rfl
  · congr 1
    split
    next hf => rw [hf]
    next source hf =>
      rw [hf]
      rfl

variable {set set' : TemplateSet} {options : Options} {stack : List String} {path target file : String}
  {loc : Location} {ns : List Node}

/-! ## A run comes to the same end -/

def ending : Coupling Run (Except LinkFailure) where
  rel x y := x.result = y.mapError LinkFailure.report
  pure _ := rfl
  bind {_ _ _ y _ _} hx hf := by
    cases y with
    | error e =>
      rw [bind_of_error hx]
      rfl
    | ok a =>
      rw [bind_of_ok hx]
      exact hf a

/-- Once a template has been left, the ones above it leave its failure as it is. -/
theorem result_inTemplate {α : Type} {x : Run α} {y : Except LinkFailure α}
    (h : x.result = y.mapError LinkFailure.report) :
    (inTemplate path x).result = y.mapError LinkFailure.report := by
  rw [inTemplate, h]
  cases y with
  | error e => exact congrArg Except.error (e.inTemplate_report path)
  | ok a => rfl

theorem result_read :
    ((asking (loader set options stack path) set path).read file loc).result =
      ((Access.plain (Linking.loader set options stack path) set path).read file loc).mapError
        LinkFailure.report := by
  simp only [asking, Access.plain, ask]
  cases set.fetch? file with
  | none => rfl
  | some text => rfl

theorem opened_of_ok {source : String} {parsed : List Node}
    (hp : parseSource options source = .ok parsed) :
    opened set options stack target source = do
      let linked ← inTemplate target (linkTree set options (target :: stack) target parsed)
      return ⟨linked, extendsOther parsed⟩ := by
  rw [opened, inTemplate, parse, hp]
  rfl

/-- The template whose text is at fault is the one that is named. -/
theorem opened_of_error {source : String} {e : SourceError}
    (hp : parseSource options source = .error e) :
    opened set options stack target source = ⟨[], .error (.included target (.source e))⟩ := by
  rw [opened, inTemplate, parse, hp]
  rfl

theorem result_opened {source : String}
    (h : ∀ parsed, parseSource options source = .ok parsed →
      (linkTree set options (target :: stack) target parsed).result =
        (Linking.linkTree set options (target :: stack) target parsed).mapError
          LinkFailure.report)
    (hs : target ∉ stack) (hf : set.fetch? target = some source) :
    (opened set options stack target source).result =
      (Linking.loader set options stack path target loc).mapError LinkFailure.report := by
  rw [Linking.loader, if_neg hs, hf]
  dsimp only
  cases hp : parseSource options source with
  | error e =>
    rw [opened_of_error hp]
    rfl
  | ok parsed =>
    rw [opened_of_ok hp]
    exact ending.bind (result_inTemplate (h parsed hp)) fun linked => rfl

theorem result_linkTree :
    (linkTree set options stack path ns).result =
      (Linking.linkTree set options stack path ns).mapError LinkFailure.report := by
  induction stack, path, ns using Linking.linking_induction set options with
  | step stack path ns ih =>
    rw [linkTree_eq, Linking.linkTree_eq, ← Access.link_plain]
    have hload : ∀ target loc, ending.rel (loader set options stack path target loc)
        (Linking.loader set options stack path target loc) := by
      intro target loc
      rw [loader]
      split
      next hs =>
        rw [Linking.loader, if_pos hs]
        rfl
      next hs =>
        cases hf : set.fetch? target with
        | none =>
          rw [Linking.loader, if_neg hs, hf]
          rfl
        | some source =>
          exact result_opened (fun parsed hp => ih target source parsed hs hf hp) hs hf
    have halike : ∀ k ∈ postorderAll ns, Access.Alike ending
        (asking (loader set options stack path) set path)
        (.plain (Linking.loader set options stack path) set path) options.basedir path k :=
      fun _ _ => ⟨fun _ _ _ => hload _ _, fun _ _ _ => result_read⟩
    refine Access.link_coupled ?_ halike
    exact fun _ => rfl

/-! ## What is asked for -/

theorem subset_asked_bind {α β : Type} {x : Run α} {f : α → Run β} {a : α} (h : x.result = .ok a) :
    (f a).asked ⊆ (x >>= f).asked := by
  rw [bind_of_ok h]
  exact List.subset_append_right _ _

theorem subset_asked_first {α β : Type} (x : Run α) (f : α → Run β) :
    x.asked ⊆ (x >>= f).asked := by
  cases hx : x.result with
  | error e =>
    rw [bind_of_error hx]
    exact List.Subset.refl _
  | ok a =>
    rw [bind_of_ok hx]
    exact List.subset_append_left _ _

/-- All that a run asks for has a property, whatever it is compared with. -/
def askingOnly (p : String → Prop) : Coupling Run Run where
  rel x _ := ∀ file ∈ x.asked, p file
  pure _ _ h := absurd h List.not_mem_nil
  bind {_ _ _ _ _ _} hx hf file h := by
    rcases mem_asked_bind h with h | ⟨a, -, h⟩
    · exact hx file h
    · exact hf a file h

/-- Another set answers alike what a run asks for, and the run is the same with it. -/
def answering (set set' : TemplateSet) : Coupling Run Run where
  rel x y := (∀ file ∈ x.asked, set'.fetch? file = set.fetch? file) → y = x
  pure _ _ := rfl
  bind {_ _ x y f g} hx hf h := by
    rw [hx fun file hfile => h file (subset_asked_first x f hfile)]
    cases hr : x.result with
    | error e => rw [bind_of_error hr, bind_of_error hr]
    | ok a => rw [bind_of_ok hr, bind_of_ok hr, hf a fun file hfile => h file (subset_asked_bind hr hfile)]

theorem mem_asked_loader (h : file ∈ (loader set options stack path target loc).asked) :
    file = target ∨ target ∉ stack ∧ ∃ source parsed, set.fetch? target = some source ∧
      parseSource options source = .ok parsed ∧
        file ∈ (linkTree set options (target :: stack) target parsed).asked := by
  unfold loader at h
  split at h
  next => exact absurd h List.not_mem_nil
  next hs =>
    refine (List.mem_cons.mp h).imp id fun h => ⟨hs, ?_⟩
    split at h
    next => exact absurd h List.not_mem_nil
    next source hf =>
      refine ⟨source, ?_⟩
      cases hp : parseSource options source with
      | error e =>
        rw [opened_of_error hp] at h
        exact absurd h List.not_mem_nil
      | ok parsed =>
        rw [opened_of_ok hp] at h
        refine ⟨parsed, hf, rfl, ?_⟩
        rcases mem_asked_bind h with h | ⟨linked, -, h⟩
        · exact h
        · exact absurd h List.not_mem_nil

/-- A run asks only for paths that references in the templates it reaches lead to. -/
theorem consults_of_mem_asked (h : file ∈ (linkTree set options stack path ns).asked) :
    Consults set options path ns file := by
  induction stack, path, ns using Linking.linking_induction set options generalizing file with
  | step stack path ns ih =>
    rw [linkTree_eq] at h
    have halike : ∀ k ∈ postorderAll ns, Access.Alike (askingOnly (Consults set options path ns))
        (asking (loader set options stack path) set path)
        (asking (loader set options stack path) set path) options.basedir path k := by
      intro k hk
      refine ⟨fun target ht loc file hfile => ?_, fun target ht loc file hfile => ?_⟩
      · rcases mem_asked_loader hfile with rfl | ⟨hs, source, parsed, hf, hp, hfile⟩
        · exact ⟨path, ns, k, target, .root, hk, Node.target?_of_template? ht, rfl⟩
        · exact (ih _ source parsed hs hf hp hfile).of_reached
            (.follow .root hk ht hf hp)
      · refine ⟨path, ns, k, target, .root, hk, ht, ?_⟩
        simp only [asking, ask, List.mem_cons] at hfile
        rcases hfile with rfl | hfile
        · rfl
        · split at hfile <;> exact absurd hfile List.not_mem_nil
    refine Access.link_coupled ?_ halike file h
    exact fun _ _ h => absurd h List.not_mem_nil

/-- A set that answers alike what is asked for makes no difference. -/
theorem linkTree_answering
    (h : ∀ file ∈ (linkTree set options stack path ns).asked, set'.fetch? file = set.fetch? file) :
    linkTree set' options stack path ns = linkTree set options stack path ns := by
  induction stack, path, ns using Linking.linking_induction set options with
  | step stack path ns ih =>
    rw [linkTree_eq] at h ⊢
    rw [linkTree_eq]
    have hload : ∀ target loc, (answering set set').rel (loader set options stack path target loc)
        (loader set' options stack path target loc) := by
      intro target loc h
      unfold loader at h ⊢
      split
      next => rfl
      next hs =>
        rw [if_neg hs] at h
        rw [h target List.mem_cons_self]
        congr 1
        cases hf : set.fetch? target with
        | none => rfl
        | some source =>
          rw [hf] at h
          have hrel : (answering set set').rel (opened set options stack target source)
              (opened set' options stack target source) := by
            cases hp : parseSource options source with
            | error e =>
              rw [opened_of_error hp, opened_of_error hp]
              exact fun _ => rfl
            | ok parsed =>
              rw [opened_of_ok hp, opened_of_ok hp]
              exact (answering set set').bind
                (fun h => congrArg (inTemplate target) (ih _ _ _ hs hf hp h)) fun linked _ => rfl
          exact hrel fun file hfile => h file (List.mem_cons_of_mem _ hfile)
    have hread : ∀ file loc, (answering set set').rel
        ((asking (loader set options stack path) set path).read file loc)
        ((asking (loader set' options stack path) set' path).read file loc) := by
      intro file loc h
      simp only [asking]
      rw [h file List.mem_cons_self]
    have halike : ∀ k ∈ postorderAll ns, Access.Alike (answering set set')
        (asking (loader set options stack path) set path)
        (asking (loader set' options stack path) set' path) options.basedir path k :=
      fun _ _ => ⟨fun _ _ _ => hload _ _, fun _ _ _ => hread _ _⟩
    refine Access.link_coupled ?_ halike h
    exact fun _ _ => rfl

end Run

/-! ## Linked templates -/

/-- Links the tree of the template at a path, step by step. -/
def linkRun (set : TemplateSet) (options : Options) (path : String) (nodes : List Node) :
    Run Linked := do
  let tree ← Run.linkTree set options [path] path nodes
  return ⟨withoutMixins tree, mixinPool tree⟩

section

variable {set set' : TemplateSet} {options : Options} {path file : String} {nodes : List Node}

theorem result_linkRun :
    (linkRun set options path nodes).result =
      (link set options path nodes).mapError LinkFailure.report :=
  Run.ending.bind Run.result_linkTree fun _ => rfl

theorem mem_asked_linkRun (h : file ∈ (linkRun set options path nodes).asked) :
    file ∈ (Run.linkTree set options [path] path nodes).asked := by
  rcases Run.mem_asked_bind h with h | ⟨tree, -, h⟩
  · exact h
  · exact absurd h List.not_mem_nil

theorem linkRun_answering
    (h : ∀ file ∈ (linkRun set options path nodes).asked, set'.fetch? file = set.fetch? file) :
    linkRun set' options path nodes = linkRun set options path nodes := by
  have htree := Run.linkTree_answering fun file hfile => h file (Run.subset_asked_first _ _ hfile)
  rw [linkRun, htree]
  rfl

end

/-- A reference leads to a path below the root, with dots followed once and for all and the name of a
file at its end. Linking asks for such paths only, each because of a reference in a template that it
reached, and nothing but the answers decides how it ends. -/
theorem asked_contained :
    (∀ basedir current target,
      TemplatePath.Contained (resolvePath basedir current target).toList ∧
        TemplatePath.normalize (resolvePath basedir current target).toList =
          (resolvePath basedir current target).toList) ∧
      (∀ path, TemplatePath.normalize (TemplatePath.normalize path) =
        TemplatePath.normalize path) ∧
      ∀ set options path nodes,
        (linkRun set options path nodes).result =
            (link set options path nodes).mapError LinkFailure.report ∧
          (∀ file ∈ (linkRun set options path nodes).asked,
            TemplatePath.Contained file.toList ∧ Consults set options path nodes file) ∧
          ∀ set', (∀ file ∈ (linkRun set options path nodes).asked,
              set'.fetch? file = set.fetch? file) →
            linkRun set' options path nodes = linkRun set options path nodes := by
  refine ⟨fun basedir current target => ⟨contained_resolvePath basedir current target,
    normalize_resolvePath basedir current target⟩, TemplatePath.normalize_normalize,
    fun set options path nodes => ⟨result_linkRun, fun file hfile => ?_,
      fun set' h => linkRun_answering h⟩⟩
  have hconsults := Run.consults_of_mem_asked (mem_asked_linkRun hfile)
  refine ⟨?_, hconsults⟩
  obtain ⟨here, ns, n, target, -, -, -, rfl⟩ := hconsults
  exact contained_resolvePath options.basedir here target

namespace StrayPath

/-- A file at the root, and a template that references climb to from further down. -/
def nodes : List Node :=
  [.rawInclude ⟨1, 1⟩ "/../notes.txt" none, .includes ⟨2, 1⟩ "../../../a" []]

def set : TemplateSet :=
  [("/notes.txt", "x")]

theorem linkRun_nodes :
    linkRun set { basedir := some "/views/../.." } "pages/home.pug" nodes =
      ⟨["/notes.txt", "a.pug"],
        .error (.reference ⟨.unresolvedPath "a.pug", "pages/home.pug", ⟨2, 1⟩⟩)⟩ := by
  rw [linkRun, Run.linkTree_eq]
  rfl

end StrayPath

/-- The ways up in references and in the base directory end at the root. -/
theorem asked_contained_stray :
    ∀ file ∈ ["/notes.txt", "a.pug"], TemplatePath.Contained file.toList := by
  intro file hfile
  refine ((asked_contained.2.2 StrayPath.set { basedir := some "/views/../.." } "pages/home.pug"
    StrayPath.nodes).2.1 file ?_).1
  rw [StrayPath.linkRun_nodes]
  exact hfile

end PugTemplate
