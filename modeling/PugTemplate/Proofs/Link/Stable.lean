import PugTemplate.Proofs.Link.Access

/-!
# Linking against another set of templates

Linking looks up the paths that references lead to, and no others. So a set that answers these as
the one at hand does gives the same linked tree, whatever else the two hold.
-/

namespace PugTemplate

/-! ## All templates that are reached -/

section Reach

variable {set set' : TemplateSet} {options : Options} {path : String} {nodes : List Node}

theorem Reached.trans {here there : String} {ns ms : List Node}
    (h : Reached set options path nodes here ns) (h' : Reached set options here ns there ms) :
    Reached set options path nodes there ms := by
  induction h' with
  | root => exact h
  | follow _ hn ht hf hp ih => exact .follow ih hn ht hf hp

/-- A reference in a template that is reached leads to a path. -/
def Consults (set : TemplateSet) (options : Options) (path : String) (nodes : List Node)
    (file : String) : Prop :=
  ∃ here ns n target, Reached set options path nodes here ns ∧ n ∈ postorderAll ns ∧
    n.target? = some target ∧ resolvePath options.basedir here target = file

theorem Consults.of_reached {here file : String} {ns : List Node}
    (h : Reached set options path nodes here ns) (h' : Consults set options here ns file) :
    Consults set options path nodes file := by
  obtain ⟨there, ms, n, target, hr, hn⟩ := h'
  exact ⟨there, ms, n, target, h.trans hr, hn⟩

theorem Linking.linkTree_agrees {stack : List String} {ns out : List Node}
    (hfetch : ∀ file text, Consults set options path ns file → set.fetch? file = some text →
      set'.fetch? file = some text)
    (h : linkTree set options stack path ns = .ok out) :
    linkTree set' options stack path ns = .ok out := by
  induction stack, path, ns using linking_induction set options generalizing out with
  | step stack path ns ih =>
    rw [linkTree_eq, ← Access.link_plain] at h ⊢
    have halike : ∀ k ∈ postorderAll ns, Access.Alike (.answers LinkFailure LinkFailure)
        (.plain (loader set options stack path) set path)
        (.plain (loader set' options stack path) set' path) options.basedir path k := by
      intro k hk
      refine ⟨fun target ht loc loaded hload => ?_, fun target ht loc text hread => ?_⟩
      · obtain ⟨hs, source, parsed, hf, hp, hlinked⟩ := loader_ok hload
        have hconsults : Consults set options path ns (resolvePath options.basedir path target) :=
          ⟨path, ns, k, target, .root, hk, Node.target?_of_template? ht, rfl⟩
        have hreached := Reached.follow .root hk ht hf hp
        -- what is looked up below the reference is looked up here
        have hlinked' := ih _ _ _ hs hf hp
          (fun file text hc => hfetch file text (hc.of_reached hreached)) hlinked
        refine ⟨loaded, ?_, rfl⟩
        simp only [Access.plain, loader] at hload ⊢
        rw [if_neg hs, hf] at hload
        rw [if_neg hs, hfetch _ _ hconsults hf]
        dsimp only at hload ⊢
        rw [hp] at hload ⊢
        dsimp only at hload ⊢
        rw [hlinked] at hload
        rw [hlinked']
        exact hload
      · have hconsults : Consults set options path ns (resolvePath options.basedir path target) :=
          ⟨path, ns, k, target, .root, hk, ht, rfl⟩
        simp only [Access.plain] at hread ⊢
        split at hread
        next text' hf =>
          rw [hfetch _ _ hconsults hf]
          exact ⟨text, hread, rfl⟩
        next => exact nomatch hread
    obtain ⟨_, hout, rfl⟩ := Access.link_coupled (fun _ => Answers.error) halike out h
    exact hout

/-- A set that answers all paths a template leads to gives the same linked tree. -/
theorem link_agrees {linked : Linked}
    (hfetch : ∀ file text, Consults set options path nodes file → set.fetch? file = some text →
      set'.fetch? file = some text)
    (h : link set options path nodes = .ok linked) : link set' options path nodes = .ok linked := by
  obtain ⟨tree, ht, h⟩ := of_bind_eq_ok h
  rw [link, Linking.linkTree_agrees hfetch ht]
  exact h

end Reach

end PugTemplate
