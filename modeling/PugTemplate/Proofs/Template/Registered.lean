import PugTemplate.Engine
import PugTemplate.Proofs.Link.Cycle
import PugTemplate.Proofs.Link.Stable

/-!
# Templates that are registered stay as they are

A failed addition leaves no trace. A template that is added under a new name changes nothing for
those that compile already, unless it takes over a path they look up: a path with the extension of
templates that led to a template stored without it.
-/

namespace PugTemplate

namespace Engine

/-! ## Histories -/

/-- What a host does with an engine. -/
inductive Operation where
  | add (name source : String)
  | registerFilter (name : String) (filter : Filter)
  | names
  | resolve (path : String)
  | compile (name : String)
  | variables (name : String)
  | render (name : String) (data : Value)

inductive Answer where
  | added (result : Except TemplateError Unit)
  | registered
  | names (names : List String)
  | source (result : Except TemplateError String)
  | template (result : Except TemplateError Template)
  | variables (result : Except TemplateError (List String))
  | page (result : Except TemplateError String)

/-- The answer to an operation, and the engine behind it. -/
def perform (engine : Engine) : Operation → Answer × Engine
  | .add name source =>
    match engine.add name source with
    | .ok later => (.added (.ok ()), later)
    | .error e => (.added (.error e), engine)
  | .registerFilter name filter => (.registered, engine.registerFilter name filter)
  | .names => (.names engine.names, engine)
  | .resolve path => (.source (engine.resolve path), engine)
  | .compile name => (.template (engine.compile name), engine)
  | .variables name => (.variables (engine.variables name), engine)
  | .render name data => (.page (engine.render name data), engine)

def answers (engine : Engine) : List Operation → List Answer
  | [] => []
  | op :: ops => (engine.perform op).1 :: (engine.perform op).2.answers ops

def after (engine : Engine) : List Operation → Engine
  | [] => engine
  | op :: ops => (engine.perform op).2.after ops

/-! ## Additions -/

theorem add_eq_ok {engine later : Engine} {name source : String}
    (h : engine.add name source = .ok later) : name ∉ engine.names ∧
      later = { engine with templates := Dictionary.put name source engine.templates } := by
  unfold add at h
  split at h
  next => cases h
  next hfree =>
    split at h
    next => cases h
    next =>
      cases h
      exact ⟨fun hmem => hfree ((Dictionary.find?_isSome_iff name engine.templates).mpr hmem), rfl⟩

theorem add_of_free (engine : Engine) {name source : String} {nodes : List Node}
    (hfree : Dictionary.has name engine.templates = false)
    (hparse : parseSource engine.options source = .ok nodes) : engine.add name source =
      .ok { engine with templates := Dictionary.put name source engine.templates } := by
  rw [add, hfree, if_neg Bool.false_ne_true, hparse]

/-- An operation changes no settings, and no templates but by adding one under a free name. -/
theorem perform_cases (engine : Engine) (op : Operation) :
    (engine.perform op).2.options = engine.options ∧
      ((engine.perform op).2.templates = engine.templates ∨ ∃ name source, op = .add name source ∧
        name ∉ engine.names ∧
          (engine.perform op).2.templates = Dictionary.put name source engine.templates) := by
  cases op with
  | add name source =>
    rw [perform]
    cases h : engine.add name source with
    | error e => exact ⟨rfl, .inl rfl⟩
    | ok later =>
      obtain ⟨hfree, rfl⟩ := add_eq_ok h
      exact ⟨rfl, .inr ⟨name, source, rfl, hfree, rfl⟩⟩
  | _ => exact ⟨rfl, .inl rfl⟩

theorem options_after (engine : Engine) (ops : List Operation) :
    (engine.after ops).options = engine.options := by
  induction ops generalizing engine with
  | nil => rfl
  | cons op ops ih => rw [after, ih, (engine.perform_cases op).1]

end Engine

/-- What a path leads to, it still leads to once another path is given a template. -/
theorem TemplateSet.fetch?_put {set : TemplateSet} {name source file text : String}
    (hfree : name ∉ Dictionary.keys set) (hne : name ≠ file) (h : set.fetch? file = some text) :
    TemplateSet.fetch? (Dictionary.put name source set) file = some text := by
  unfold fetch? at h ⊢
  rw [Dictionary.find?_put, if_neg hne]
  cases hfile : Dictionary.find? file set with
  | some found =>
    rw [hfile] at h
    exact h
  | none =>
    rw [hfile] at h
    obtain ⟨stem, hstem, hfound⟩ := Option.bind_eq_some_iff.mp h
    -- the template without the extension is there already, so it is not the new one
    have hmem : stem ∈ Dictionary.keys set :=
      (Dictionary.find?_isSome_iff stem set).mp (by rw [hfound]; rfl)
    have hother : name ≠ stem := fun he => hfree (he ▸ hmem)
    dsimp only
    rw [hstem, Option.bind_some, Dictionary.find?_put, if_neg hother, hfound]

/-- A path that leads to a template without being its name is its name with the extension. -/
theorem TemplateSet.exists_stem {set : TemplateSet} {file text : String}
    (hfree : file ∉ Dictionary.keys set) (h : set.fetch? file = some text) :
    ∃ stem ∈ Dictionary.keys set, file = stem ++ extension := by
  unfold fetch? at h
  split at h
  next found hfile =>
    exact absurd ((Dictionary.find?_isSome_iff file set).mp (by rw [hfile]; rfl)) hfree
  next =>
    obtain ⟨stem, hstem, hfound⟩ := Option.bind_eq_some_iff.mp h
    exact ⟨stem, (Dictionary.find?_isSome_iff stem set).mp (by rw [hfound]; rfl),
      (append_of_stem? hstem).symm⟩

namespace Engine

variable {engine : Engine} {name : String} {t : Template}

/-- One step keeps what a path leads to, unless it adds the path; so does a history. -/
theorem fetch?_after {file text : String} {ops : List Operation}
    (hops : ∀ m source, .add m source ∈ ops → m ∉ engine.names → m ≠ file)
    (h : engine.templates.fetch? file = some text) :
    (engine.after ops).templates.fetch? file = some text := by
  induction ops generalizing engine with
  | nil => exact h
  | cons op ops ih =>
    rw [after]
    rcases (engine.perform_cases op).2 with hsame | ⟨m, source, rfl, hfree, hput⟩
    · refine ih (fun m source hmem hm => ?_) (by rw [hsame]; exact h)
      rw [names, hsame] at hm
      exact hops m source (List.mem_cons_of_mem _ hmem) hm
    · have hne := hops m source List.mem_cons_self hfree
      have hkept : TemplateSet.fetch? (Dictionary.put m source engine.templates) file = some text :=
        TemplateSet.fetch?_put hfree hne h
      refine ih (fun m' source' hmem hm => ?_) (by rw [hput]; exact hkept)
      -- the names only become more
      refine hops m' source' (List.mem_cons_of_mem _ hmem) fun hm' => hm ?_
      rw [names] at hfree hm'
      rw [names, hput, Dictionary.keys_put, if_neg hfree]
      exact List.mem_append_left _ hm'

/-! ## What compiling looks up -/

/-- A template or a reference that is followed from it leads to a path. -/
def LooksUp (engine : Engine) (name file : String) : Prop :=
  file = name ∨ ∃ source nodes, engine.templates.fetch? name = some source ∧
    parseSource engine.options source = .ok nodes ∧
      Consults engine.templates engine.options name nodes file

/-- A template is compiled from a source that is found, read and linked. -/
theorem compile_eq_ok (h : engine.compile name = .ok t) :
    ∃ source nodes linked, engine.templates.fetch? name = some source ∧
      parseSource engine.options source = .ok nodes ∧
        link engine.templates engine.options name nodes = .ok linked ∧
          t = ⟨source, some name, linked, engine.options, engine.filters⟩ := by
  rw [compile, Template.compile] at h
  split at h
  next => cases h
  next source hf =>
    obtain ⟨linked, hl, h⟩ := of_bind_eq_ok h
    cases h
    unfold Template.linkSource at hl
    split at hl
    next => cases hl
    next nodes hp =>
      split at hl
      next => cases hl
      next linked' hlink =>
        cases hl
        exact ⟨source, nodes, linked, hf, hp, hlink, rfl⟩

theorem compile_of_link {source : String} {nodes : List Node} {linked : Linked}
    (hf : engine.templates.fetch? name = some source)
    (hp : parseSource engine.options source = .ok nodes)
    (hl : link engine.templates engine.options name nodes = .ok linked) :
    engine.compile name = .ok ⟨source, some name, linked, engine.options, engine.filters⟩ := by
  have hlink : Template.linkSource engine.templates engine.options name source = .ok linked := by
    simp only [Template.linkSource, hp, hl]
  simp only [compile, Template.compile, hf, hlink]
  rfl

/-- All that a template looks up is found, if it compiles. -/
theorem exists_fetch?_of_looksUp (h : engine.compile name = .ok t) {file : String}
    (hl : engine.LooksUp name file) : ∃ text, engine.templates.fetch? file = some text := by
  obtain ⟨source, nodes, linked, hf, hp, hlink, -⟩ := compile_eq_ok h
  rcases hl with rfl | ⟨source', nodes', hf', hp', here, ns, n, target, hr, hn, ht, rfl⟩
  · exact ⟨source, hf⟩
  · cases hf.symm.trans hf'
    cases hp.symm.trans hp'
    obtain ⟨tree, hroot, -⟩ := of_bind_eq_ok hlink
    obtain ⟨stack, out, ho⟩ := Linking.linkTree_of_reached hroot hr
    have hfollowed := (Linking.forall_linkTree stack here (Or.inl rfl) ho).2 n hn
    exact Option.isSome_iff_exists.mp (Linking.isSome_fetch?_of_followed hfollowed ht)

/-- No history takes a template away that compiles, as long as it adds no path that is looked up. -/
theorem compile_after (h : engine.compile name = .ok t) {ops : List Operation}
    (hops : ∀ m source, .add m source ∈ ops → m ∉ engine.names → ¬ engine.LooksUp name m) :
    (engine.after ops).compile name = .ok { t with filters := (engine.after ops).filters } := by
  obtain ⟨source, nodes, linked, hf, hp, hlink, rfl⟩ := compile_eq_ok h
  have hoptions := engine.options_after ops
  have hkeeps : ∀ file text, engine.LooksUp name file →
      engine.templates.fetch? file = some text →
        (engine.after ops).templates.fetch? file = some text := by
    intro file text hl hfile
    refine fetch?_after (fun m source hmem hfree he => ?_) hfile
    exact hops m source hmem hfree (he ▸ hl)
  have hlater := compile_of_link (hkeeps name source (.inl rfl) hf) (hoptions.symm ▸ hp)
    (hoptions.symm ▸ link_agrees (fun file text hc => hkeeps file text
      (.inr ⟨source, nodes, hf, hp, hc⟩)) hlink)
  rw [hlater, hoptions]

end Engine

/-- A template that compiles is not changed by what is added later, as long as that takes over no
path it looks up; a path that can be taken over is the name of a template with the extension behind
it. An addition that fails might as well not have been tried. -/
theorem registered_stable {engine : Engine} {name : String} {t : Template}
    (h : engine.compile name = .ok t) :
    (∀ m source later, m ∉ engine.names → ¬ engine.LooksUp name m →
      engine.add m source = .ok later →
        later.compile name = .ok t ∧ ∀ data, later.render name data = engine.render name data) ∧
    (∀ ops, (∀ m source, .add m source ∈ ops → m ∉ engine.names → ¬ engine.LooksUp name m) →
      (engine.after ops).compile name = .ok { t with filters := (engine.after ops).filters }) ∧
    (∀ m, m ∉ engine.names → engine.LooksUp name m →
      ∃ stem ∈ engine.names, m = stem ++ TemplateSet.extension) ∧
    ∀ m source e, engine.add m source = .error e → ∀ ops,
      engine.answers (.add m source :: ops) = .added (.error e) :: engine.answers ops := by
  refine ⟨fun m source later hfree hl hadd => ?_, fun ops => Engine.compile_after h,
    fun m hfree hl => ?_, fun m source e hadd ops => ?_⟩
  · have hafter : engine.after [.add m source] = later := by
      simp only [Engine.after, Engine.perform, hadd]
    have hops : ∀ m' source', Engine.Operation.add m' source' ∈ [.add m source] →
        m' ∉ engine.names → ¬ engine.LooksUp name m' := by
      intro m' source' hmem _
      cases List.mem_singleton.mp hmem
      exact hl
    have hlater := Engine.compile_after h hops
    obtain ⟨_, _, _, _, _, _, rfl⟩ := Engine.compile_eq_ok h
    obtain ⟨-, rfl⟩ := Engine.add_eq_ok hadd
    rw [hafter] at hlater
    exact ⟨hlater, fun data => by rw [Engine.render, hlater, Engine.render, h]⟩
  · obtain ⟨text, hf⟩ := Engine.exists_fetch?_of_looksUp h hl
    exact TemplateSet.exists_stem hfree hf
  · simp only [Engine.answers, Engine.perform, hadd]

/-! ## A page that includes a template stored without the extension -/

namespace StoredWithoutExtension

open RepeatedInclusion

def engine : Engine := { templates := [("a", ""), ("page", "include a")] }

/-- The page as it compiles: the included template is empty. -/
def page : Template :=
  ⟨"include a", some "page", ⟨[.group ⟨1, 1⟩ []], []⟩, {}, .builtin⟩

theorem resolvePath_page : resolvePath none "page" "a" = "a.pug" := by
  rfl

theorem link_page : link engine.templates {} "page" [inclusion 1 "a"] =
    .ok ⟨[.group ⟨1, 1⟩ []], []⟩ := by
  have hload : Linking.loader engine.templates {} ["page"] "page" "a.pug" ⟨1, 1⟩ =
      .ok ⟨[], false⟩ := by
    rw [Linking.loader_of_fetch (by decide) rfl parseSource_empty, Linking.linkTree_eq]
    rfl
  rw [link, linkTree_inclusion, resolveIncludes_inclusion resolvePath_page, hload]
  rfl

theorem compile_page : engine.compile "page" = .ok page :=
  Engine.compile_of_link rfl parseSource_a link_page

theorem add_empty : engine.add "b" "" =
    .ok { templates := [("a", ""), ("page", "include a"), ("b", "")] } :=
  engine.add_of_free rfl parseSource_empty

/-- The included path is taken over by a template that includes itself. -/
theorem add_inclusion : engine.add "a.pug" "include a" =
    .ok { templates := [("a", ""), ("page", "include a"), ("a.pug", "include a")] } :=
  engine.add_of_free rfl parseSource_a

theorem link_taken : link [("a", ""), ("page", "include a"), ("a.pug", "include a")] {} "page"
    [inclusion 1 "a"] = .error (.reference ⟨.circularReference "a.pug", "a.pug", ⟨1, 1⟩⟩) := by
  have hload : Linking.loader [("a", ""), ("page", "include a"), ("a.pug", "include a")] {} ["page"]
      "page" "a.pug" ⟨1, 1⟩ =
        .error (.reference ⟨.circularReference "a.pug", "a.pug", ⟨1, 1⟩⟩) := by
    rw [Linking.loader_of_fetch (by decide) rfl parseSource_a, linkTree_inclusion,
      resolveIncludes_inclusion (resolvePath_a _ (by decide)), Linking.loader_of_mem (by decide)]
    rfl
  rw [link, linkTree_inclusion, resolveIncludes_inclusion resolvePath_page, hload]
  rfl

end StoredWithoutExtension

open StoredWithoutExtension

/-- A template under another name leaves the page as it is. -/
theorem registered_stable_page :
    ∃ later, engine.add "b" "" = .ok later ∧ later.compile "page" = .ok page := by
  obtain ⟨hadd, -, hlooked, -⟩ := registered_stable compile_page
  have hfree : "b" ∉ engine.names := by decide
  have hl : ¬ engine.LooksUp "page" "b" := by
    intro hl
    obtain ⟨stem, hstem, he⟩ := hlooked "b" hfree hl
    revert stem
    decide
  exact ⟨_, add_empty, (hadd "b" "" _ hfree hl add_empty).1⟩

/-- A template that takes over a path keeps a page from compiling. -/
theorem registered_not_stable :
    ¬ ∀ (engine : Engine) (name m source : String) (t : Template) (later : Engine),
      engine.compile name = .ok t → m ∉ engine.names → engine.add m source = .ok later →
        later.compile name = .ok t := by
  intro h
  have hlater := h _ _ _ _ _ _ compile_page (by decide) add_inclusion
  obtain ⟨source, nodes, linked, hf, hp, hlink, -⟩ := Engine.compile_eq_ok hlater
  cases hf
  cases RepeatedInclusion.parseSource_a.symm.trans hp
  cases link_taken.symm.trans hlink

end PugTemplate
