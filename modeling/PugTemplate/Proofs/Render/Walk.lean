import PugTemplate.Render.Walk

/-!
# Taking a branch

Which body of a `case` runs depends on the tests alone.
-/

namespace PugTemplate

namespace Branch

def test : Branch → Option Expr
  | mk _ test _ => test

def body : Branch → Option (List Node)
  | mk _ _ body => body

end Branch

namespace Page

variable {α β : Type} {holds : Expr → Bool} {falling : Bool}

theorem choose_map (g : α → β) (fallback : Option α) (branches : List (Option Expr × Option α)) :
    choose holds falling (fallback.map g) (branches.map fun b => (b.1, b.2.map g)) =
      (choose holds falling fallback branches).map g := by
  fun_induction choose holds falling fallback branches with
  | case1 fallback => rfl
  | case2 fallback rest b => rfl
  -- a default that is not fallen into waits as the fallback
  | case3 falling fallback body rest hne ih =>
    rw [← ih, List.map_cons]
    cases body with
    | none => simp [choose]
    | some b =>
      have hf : falling = false := by simpa using hne b
      simp [choose, hf]
  | case4 falling fallback e rest hh b => simp [choose, hh]
  | case5 falling fallback e rest hh ih => simpa [choose, hh] using ih
  | case6 falling fallback e body rest hh ih => simpa [choose, hh] using ih

/-- Only the outcomes of the tests count. -/
theorem choose_congr {holds' : Expr → Bool} {fallback : Option α}
    {branches : List (Option Expr × Option α)}
    (h : ∀ b ∈ branches, ∀ e ∈ b.1, holds' e = holds e) :
    choose holds' falling fallback branches = choose holds falling fallback branches := by
  fun_induction choose holds falling fallback branches with
  | case1 fallback => rfl
  | case2 fallback rest b => rfl
  | case3 falling fallback body rest hne ih =>
    rw [List.forall_mem_cons] at h
    rw [← ih h.2]
    cases body with
    | none => simp [choose]
    | some b =>
      have hf : falling = false := by simpa using hne b
      simp [choose, hf]
  | case4 falling fallback e rest hh b =>
    rw [List.forall_mem_cons] at h
    simp [choose, h.1 e rfl, hh]
  | case5 falling fallback e rest hh ih | case6 falling fallback e body rest hh ih =>
    rw [List.forall_mem_cons] at h
    simpa [choose, h.1 e rfl, hh] using ih h.2

/-- What is chosen is the fallback or one of the branches. -/
theorem mem_of_choose {fallback : Option α} {branches : List (Option Expr × Option α)} {a : α}
    (h : choose holds falling fallback branches = some a) :
    fallback = some a ∨ ∃ test, (test, some a) ∈ branches := by
  fun_induction choose holds falling fallback branches with
  | case1 fallback => exact Or.inl h
  | case2 fallback rest b =>
    cases h
    exact Or.inr ⟨none, List.mem_cons_self⟩
  | case3 falling fallback body rest hne ih =>
    rcases ih h with h | ⟨test, ht⟩
    · rcases Option.or_eq_some_iff.mp h with h | ⟨_, rfl⟩
      · exact Or.inl h
      · exact Or.inr ⟨none, List.mem_cons_self⟩
    · exact Or.inr ⟨test, List.mem_cons_of_mem _ ht⟩
  | case4 falling fallback e rest hh b =>
    cases h
    exact Or.inr ⟨some e, List.mem_cons_self⟩
  | case5 falling fallback e rest hh ih | case6 falling fallback e body rest hh ih =>
    exact (ih h).imp id fun ⟨test, ht⟩ => ⟨test, List.mem_cons_of_mem _ ht⟩

variable {n : Nat} (p : Page) (exits : Exits n)

theorem branchActions_eq (bs : List Branch) :
    p.branchActions exits bs = bs.map fun b => (b.test, b.body.map (p.actAll exits)) := by
  induction bs with
  | nil => rfl
  | cons b bs ih =>
    obtain ⟨loc, test, body⟩ := b
    cases body <;> simp [branchActions, ih, Branch.test, Branch.body]

/-- The body that a `case` takes. -/
def chosen (f : Frame) (subject : Expr) (bs : List Branch) : Option (List Node) :=
  choose (fun e => (p.eval f subject).strictEq (p.eval f e)) false none
    (bs.map fun b => (b.test, b.body))

theorem mem_of_chosen {f : Frame} {subject : Expr} {bs : List Branch} {ns : List Node}
    (h : p.chosen f subject bs = some ns) : ∃ b ∈ bs, b.body = some ns := by
  rcases mem_of_choose h with h | ⟨test, hb⟩
  · exact nomatch h
  · obtain ⟨b, hb, he⟩ := List.mem_map.mp hb
    exact ⟨b, hb, congrArg Prod.snd he⟩

theorem choose_branchActions (f : Frame) (subject : Expr) (bs : List Branch) :
    choose (fun e => (p.eval f subject).strictEq (p.eval f e)) false none
        (p.branchActions exits bs) =
      (p.chosen f subject bs).map (p.actAll exits) := by
  rw [branchActions_eq, chosen, ← choose_map, List.map_map]
  rfl

theorem act_switch (loc : Location) (subject : Expr) (bs : List Branch) :
    p.act exits (.switch loc subject bs) =
      (do p.actOption exits (p.chosen (← get).chain.frame subject bs)) := by
  rw [act]
  simp only [choose_branchActions]
  refine bind_congr fun s => ?_
  cases p.chosen s.chain.frame subject bs with
  | none => rw [Option.map_none, actOption]
  | some ns => rw [Option.map_some, actOption]

end Page

end PugTemplate
