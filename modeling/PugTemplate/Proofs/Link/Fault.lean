import PugTemplate.Proofs.Link.Cycle
import PugTemplate.Proofs.Link.Run

/-!
# Faults in templates that are referred to

A template that cannot be read makes every template fail that leads to it. All of them report the same
fault, under the path of the template that has it: a failure is wrapped where it arises, and what led
there can be linked alone without another outcome.
-/

namespace PugTemplate

namespace Linking

/-! ## With less on the stack -/

/-- Two computations are the same, unless the first one comes upon a circular reference. -/
def unlessCircular : Coupling (Except LinkFailure) (Except LinkFailure) where
  rel x y := (∀ target e, x = .error e → ¬ Circular target e) → y = x
  pure _ _ := rfl
  bind {_ _ x y f g} hx hf h := by
    cases x with
    | error e =>
      have hsame : y = .error e := hx fun target e' he' =>
        h target e' (by cases he'; rfl)
      rw [hsame]
      rfl
    | ok a =>
      have hsame : y = .ok a := hx fun _ _ he => nomatch he
      rw [hsame]
      exact hf a h

variable {set : TemplateSet} {options : Options} {stack stack' : List String} {path : String}
  {ns : List Node} {e : LinkFailure}

/-- The stack only tells which references are circular. -/
theorem linkTree_of_subset (hsub : stack' ⊆ stack) :
    unlessCircular.rel (linkTree set options stack path ns)
      (linkTree set options stack' path ns) := by
  induction stack, path, ns using linking_induction set options generalizing stack' with
  | step stack path ns ih =>
    rw [linkTree_eq, linkTree_eq, ← Access.link_plain, ← Access.link_plain]
    have hload : ∀ target loc, unlessCircular.rel (loader set options stack path target loc)
        (loader set options stack' path target loc) := by
      intro target loc h
      by_cases hs : target ∈ stack
      · exact absurd ⟨path, loc, rfl⟩ (h target _ (if_pos hs))
      · have hs' : target ∉ stack' := fun hmem => hs (hsub hmem)
        unfold loader at h ⊢
        rw [if_neg hs] at h ⊢
        rw [if_neg hs']
        cases hf : set.fetch? target with
        | none => rfl
        | some source =>
          rw [hf] at h
          dsimp only at h ⊢
          cases hp : parseSource options source with
          | error fault => rfl
          | ok parsed =>
            rw [hp] at h
            have hlinked : unlessCircular.rel
                (linkTree set options (target :: stack) target parsed)
                (linkTree set options (target :: stack') target parsed) :=
              ih target source parsed hs hf hp (List.cons_subset_cons target hsub)
            exact unlessCircular.bind hlinked (fun linked _ => rfl) h
    have halike : ∀ k ∈ postorderAll ns, Access.Alike unlessCircular
        (.plain (loader set options stack path) set path)
        (.plain (loader set options stack' path) set path) options.basedir path k :=
      fun _ _ => ⟨fun _ _ _ => hload _ _, fun _ _ _ _ => rfl⟩
    refine Access.link_coupled ?_ halike
    exact fun _ _ => rfl

theorem link_of_linkTree (hmem : path ∈ stack) (hc : ∀ target, ¬ Circular target e)
    (h : linkTree set options stack path ns = .error e) : link set options path ns = .error e := by
  have hsub : [path] ⊆ stack := List.cons_subset.mpr ⟨hmem, List.nil_subset stack⟩
  have halone : linkTree set options [path] path ns = .error e := by
    rw [← h]
    refine linkTree_of_subset hsub fun target e' he' => ?_
    cases h.symm.trans he'
    exact hc target
  rw [link, halone]
  rfl

end Linking

/-! ## The way to a fault -/

/-- Templates that lead from the tree at a path to a file, each by a reference to the next. Linked
alone, each of them fails in the same way. -/
inductive LeadsTo (set : TemplateSet) (options : Options) (e : LinkFailure) (file : String) :
    String → List Node → List String → Prop
  | last {path : String} {ns : List Node} {n : Node} {target : String}
      (hn : n ∈ postorderAll ns) (ht : n.template? = some target)
      (hfile : resolvePath options.basedir path target = file)
      (hfail : link set options path ns = .error e) :
      LeadsTo set options e file path ns [path]
  | next {path : String} {ns : List Node} {n : Node} {target source : String}
      {parsed : List Node} {way : List String}
      (hn : n ∈ postorderAll ns) (ht : n.template? = some target)
      (hf : set.fetch? (resolvePath options.basedir path target) = some source)
      (hp : parseSource options source = .ok parsed)
      (hfail : link set options path ns = .error e)
      (h : LeadsTo set options e file (resolvePath options.basedir path target) parsed way) :
      LeadsTo set options e file path ns (path :: way)

theorem Linking.leadsTo_of_failing {set : TemplateSet} {options : Options} {stack : List String}
    {path file : String} {ns : List Node} {fault : SourceError} {e : LinkFailure}
    (he : e = .included file fault) (hmem : path ∈ stack)
    (hfail : linkTree set options stack path ns = .error e)
    (h : Failing set options e stack path ns) :
    ∃ source way, set.fetch? file = some source ∧ parseSource options source = .error fault ∧
      LeadsTo set options e file path ns way ∧ file ∉ way ∧ file ∉ stack := by
  have hc : ∀ target, ¬ Circular target e := by
    rintro target ⟨_, _, hcirc⟩
    exact nomatch he.symm.trans hcirc
  induction h with
  | @itself stack path ns h =>
    have halone := link_of_linkTree hmem hc hfail
    cases h with
    | notFirst | unexpected | unresolved | circular => cases he
    | @broken n target source fault' hn ht hs hf hp =>
      injection he with hfile hfault
      subst hfault
      rw [hfile] at hs hf
      refine ⟨source, [path], hf, hp, .last hn ht hfile halone, ?_, hs⟩
      intro hway
      rw [List.mem_singleton] at hway
      rw [hway] at hs
      exact hs hmem
  | @behind stack path ns n target source parsed hn ht hs hf hp hbelow _ ih =>
    obtain ⟨source, way, hfile, hfault, hway, hnot, hstack⟩ := ih List.mem_cons_self hbelow
    rw [List.mem_cons, not_or] at hstack
    have halone := link_of_linkTree hmem hc hfail
    refine ⟨source, _, hfile, hfault, .next hn ht hf hp halone hway, ?_, hstack.2⟩
    rw [List.mem_cons, not_or]
    refine ⟨fun heq => hstack.2 ?_, hnot⟩
    rw [heq]
    exact hmem

/-- If linking fails, a reference cannot be followed, or a template has a fault: the very fault of its
own text, wrapped once, under its own path. All templates that led to it fail so alone, it is none of
them, and it makes no other template fail in another way. -/
theorem link_fault {set : TemplateSet} {options : Options} {root : String} {nodes : List Node}
    {e : LinkFailure} (h : link set options root nodes = .error e) :
    (∃ error, e = .reference error ∧
        (linkRun set options root nodes).result = .error (.reference error)) ∨
      ∃ file source fault way, e = .included file fault ∧
        (linkRun set options root nodes).result = .error (.included file (.source fault)) ∧
        set.fetch? file = some source ∧ parseSource options source = .error fault ∧
        LeadsTo set options e file root nodes way ∧ file ∉ way ∧
        ∀ root' nodes' fault', link set options root' nodes' = .error (.included file fault') →
          link set options root' nodes' = .error e := by
  have hrun : (linkRun set options root nodes).result = .error e.report := by
    rw [result_linkRun, h]
    rfl
  have hfault : ∀ root nodes file fault, link set options root nodes = .error (.included file fault) →
      ∃ source way, set.fetch? file = some source ∧ parseSource options source = .error fault ∧
        LeadsTo set options (.included file fault) file root nodes way ∧ file ∉ way ∧
          file ∉ [root] := fun root nodes file fault h =>
    Linking.leadsTo_of_failing rfl (List.mem_singleton_self root) (Linking.linkTree_of_link h)
      (Linking.failing_of_error (Linking.linkTree_of_link h))
  cases e with
  | reference error => exact Or.inl ⟨error, rfl, hrun⟩
  | included file fault =>
    obtain ⟨source, way, hf, hp, hway, hnot, -⟩ := hfault _ _ _ _ h
    refine Or.inr ⟨file, source, fault, way, rfl, hrun, hf, hp, hway, hnot,
      fun root' nodes' fault' h' => ?_⟩
    obtain ⟨source', -, hf', hp', -⟩ := hfault _ _ _ _ h'
    -- both faults are those of the source that the path leads to
    cases hf.symm.trans hf'
    cases hp.symm.trans hp'
    exact h'

namespace BrokenInclusion

open RepeatedInclusion

def fault : SourceError :=
  .lex ⟨.bracket .unterminated, ⟨1, 3⟩⟩

/-- A template that is not closed, and one that includes it. -/
def set : TemplateSet :=
  [("a.pug", "p("), ("b.pug", "include a")]

theorem parseSource_unclosed : parseSource {} "p(" = .error fault := by
  have hl : lex "p(" = .error ⟨.bracket .unterminated, ⟨1, 3⟩⟩ :=
    eq_error_of_failure? (by decide +kernel)
  rw [parseSource, hl]
  rfl

theorem loader_a {stack : List String} {path : String} {loc : Location} (h : "a.pug" ∉ stack) :
    Linking.loader set {} stack path "a.pug" loc = .error (.included "a.pug" fault) := by
  have hf : set.fetch? "a.pug" = some "p(" := rfl
  rw [Linking.loader, if_neg h, hf]
  dsimp only
  rw [parseSource_unclosed]

theorem link_page : link set {} "page.pug" [inclusion 1 "b"] =
    .error (.included "a.pug" fault) := by
  have hb : Linking.loader set {} ["page.pug"] "page.pug" "b.pug" ⟨1, 1⟩ =
      .error (.included "a.pug" fault) := by
    rw [Linking.loader_of_fetch (by decide) rfl parseSource_a, linkTree_inclusion,
      resolveIncludes_inclusion (resolvePath_a _ (by decide)), loader_a (by decide)]
    rfl
  rw [link, linkTree_inclusion, resolveIncludes_inclusion resolvePath_b, hb]
  rfl

end BrokenInclusion

open BrokenInclusion in
/-- The page fails because of what is two references away, and says where that is. -/
theorem link_fault_inclusion :
    (linkRun set {} "page.pug" [RepeatedInclusion.inclusion 1 "b"]).result =
      .error (.included "a.pug" (.source fault)) := by
  rcases link_fault link_page with ⟨_, he, -⟩ | ⟨file, source, e, way, he, hrun, -⟩
  · cases he
  · cases he
    exact hrun

end PugTemplate
