import PugTemplate.Proofs.Render.Walk

/-!
# Which branch a switch renders

The first branch whose value matches decides: from it on, the first body is rendered. Without a
match it is the first body of a default. A match that runs off the end is to leave nothing, but then
the walk falls back to a default that it passed before the match.
-/

namespace PugTemplate

namespace Branch

/-- A branch with a value that matches; a default has none. -/
def meets (holds : Expr → Bool) (b : Branch) : Bool :=
  b.test.any holds

/-- The body of a default. -/
def defaultBody (b : Branch) : Option (List Node) :=
  if b.test.isNone then b.body else none

end Branch

namespace Switch

variable (holds : Expr → Bool) (bs : List Branch)

/-- The body that a switch is to render. -/
def selected : Option (List Node) :=
  match bs.findIdx? (·.meets holds) with
  | some i => (bs.drop i).findSome? Branch.body
  | none => bs.findSome? Branch.defaultBody

/-- No body follows the first match, and a default before it has one. -/
def RunsOff : Prop :=
  ∃ i body, bs.findIdx? (·.meets holds) = some i ∧ (bs.drop i).findSome? Branch.body = none ∧
    (bs.take i).findSome? Branch.defaultBody = some body

end Switch

namespace Page

open Switch

variable {holds : Expr → Bool}

/-- Behind a match the first body is taken, of a default too. -/
theorem choose_falling (fallback : Option (List Node)) (bs : List Branch) :
    choose holds true fallback (bs.map fun b => (b.test, b.body)) =
      (bs.findSome? Branch.body).or fallback := by
  induction bs generalizing fallback with
  | nil => rfl
  | cons b bs ih =>
    obtain ⟨loc, test, body⟩ := b
    cases body with
    | some ns => cases test <;> rfl
    | none =>
      have hcons : (Branch.mk loc test none :: bs).findSome? Branch.body =
          bs.findSome? Branch.body := rfl
      rw [hcons, ← ih]
      cases test with
      | none => simp only [List.map_cons, Branch.test, Branch.body, choose, Option.or_none]
      | some e => rfl

/-- The walk remembers the first default body on its way to the first match, or to the end. -/
theorem choose_eq (fallback : Option (List Node)) (bs : List Branch) :
    choose holds false fallback (bs.map fun b => (b.test, b.body)) =
      match bs.findIdx? (·.meets holds) with
      | some i => ((bs.drop i).findSome? Branch.body).or
          (fallback.or ((bs.take i).findSome? Branch.defaultBody))
      | none => fallback.or (bs.findSome? Branch.defaultBody) := by
  induction bs generalizing fallback with
  | nil => exact (Option.or_none).symm
  | cons b bs ih =>
    obtain ⟨loc, test, body⟩ := b
    by_cases hmeets : (Branch.mk loc test body).meets holds = true
    · -- the match itself: from here on the first body is taken
      rw [List.findIdx?_cons, if_pos hmeets]
      cases test with
      | none => exact nomatch hmeets
      | some e =>
        have he : holds e = true := hmeets
        have hhead : choose holds false fallback ((Branch.mk loc (some e) body :: bs).map
            fun b => (b.test, b.body)) = choose holds true fallback
              ((Branch.mk loc (some e) body :: bs).map fun b => (b.test, b.body)) := by
          simp [choose, Branch.test, he]
        rw [hhead, choose_falling]
        exact congrArg _ (Option.or_none).symm
    · -- no match yet: a default adds its body to what is remembered
      have hstep : choose holds false fallback ((Branch.mk loc test body :: bs).map
          fun b => (b.test, b.body)) =
            choose holds false (fallback.or (Branch.mk loc test body).defaultBody)
              (bs.map fun b => (b.test, b.body)) := by
        cases test with
        | none => rfl
        | some e =>
          have he : ¬ holds e = true := hmeets
          simp [choose, Branch.test, Branch.body, Branch.defaultBody, he]
      have hfirst : ∀ cs : List Branch,
          (Branch.mk loc test body :: cs).findSome? Branch.defaultBody =
            (Branch.mk loc test body).defaultBody.or (cs.findSome? Branch.defaultBody) := by
        intro cs
        rw [List.findSome?_cons]
        cases (Branch.mk loc test body).defaultBody <;> rfl
      rw [hstep, ih, List.findIdx?_cons, if_neg hmeets]
      cases bs.findIdx? (·.meets holds) with
      | none => simp only [Option.map_none, hfirst, Option.or_assoc]
      | some i => simp only [Option.map_some, List.drop_succ_cons, List.take_succ_cons, hfirst,
          Option.or_assoc]

theorem choose_eq_selected {bs : List Branch} (h : ¬ RunsOff holds bs) :
    choose holds false none (bs.map fun b => (b.test, b.body)) = selected holds bs := by
  rw [choose_eq, selected]
  cases hi : bs.findIdx? (·.meets holds) with
  | none => rfl
  | some i =>
    dsimp only
    rw [Option.none_or]
    cases hbody : (bs.drop i).findSome? Branch.body with
    | some ns => rfl
    | none =>
      cases hdefault : (bs.take i).findSome? Branch.defaultBody with
      | none => rfl
      | some ns => exact absurd ⟨i, ns, hi, hbody, hdefault⟩ h

theorem choose_of_runsOff {bs : List Branch} (h : RunsOff holds bs) :
    selected holds bs = none ∧ ∃ body,
      choose holds false none (bs.map fun b => (b.test, b.body)) = some body ∧
        bs.findSome? Branch.defaultBody = some body := by
  obtain ⟨i, body, hi, hbody, hdefault⟩ := h
  refine ⟨by simp only [selected, hi, hbody], body, ?_, ?_⟩
  · simp only [choose_eq, hi, hbody, hdefault, Option.none_or]
  · rw [← List.take_append_drop i bs, List.findSome?_append, hdefault]
    rfl

section Act

variable {n : Nat} (p : Page) (exits : Exits n) (loc : Location) (subject : Expr)
  {bs : List Branch} {s : Session n}

/-- Whether a value in a session is strictly the subject of a switch. -/
def matching (s : Session n) (e : Expr) : Bool :=
  (p.eval s.chain.frame subject).strictEq (p.eval s.chain.frame e)

theorem act_switch_eq : p.act exits (.switch loc subject bs) s =
    p.actOption exits
      (choose (p.matching subject s) false none (bs.map fun b => (b.test, b.body))) s := by
  rw [act_switch]
  rfl

theorem act_switch_of_not_runsOff (h : ¬ RunsOff (p.matching subject s) bs) :
    p.act exits (.switch loc subject bs) s =
      p.actOption exits (selected (p.matching subject s) bs) s := by
  rw [act_switch_eq, choose_eq_selected h]

theorem act_switch_of_runsOff (h : RunsOff (p.matching subject s) bs) :
    selected (p.matching subject s) bs = none ∧ ∃ body,
      bs.findSome? Branch.defaultBody = some body ∧
        p.act exits (.switch loc subject bs) s = p.actAll exits body s := by
  obtain ⟨hnone, body, hchoose, hdefault⟩ := choose_of_runsOff h
  refine ⟨hnone, body, hdefault, ?_⟩
  rw [act_switch_eq, hchoose, actOption]

end Act

end Page

open Switch

/-- A switch renders one body at most: from the first match on the first body, and without a match
the first default body. It is wrong only where no body follows the match: then nothing is to be
rendered, but a default body before the match is. -/
theorem switch_selects {n : Nat} (p : Page) (exits : Exits n) (loc : Location) (subject : Expr)
    (bs : List Branch) (s : Session n) :
    (¬ RunsOff (p.matching subject s) bs →
      p.act exits (.switch loc subject bs) s =
        p.actOption exits (selected (p.matching subject s) bs) s) ∧
    (RunsOff (p.matching subject s) bs → selected (p.matching subject s) bs = none ∧ ∃ body,
      bs.findSome? Branch.defaultBody = some body ∧
        p.act exits (.switch loc subject bs) s = p.actAll exits body s) :=
  ⟨p.act_switch_of_not_runsOff exits loc subject, p.act_switch_of_runsOff exits loc subject⟩

/-! ## A match in front of a default, and one behind it -/

namespace SwitchOnOne

/-- A text alone. -/
def words (text : String) : List Node :=
  [.text ⟨1, 1⟩ text [.literal text]]

def one : Expr := .literal (.int 1)

/-- The page that knows nothing, before anything is written. -/
def page : Page := ⟨[], {}, [], .null, ⟨true, false⟩⟩

def start : Session 0 := ⟨.page {}, #[]⟩

def exits : Exits 0 := ⟨pure (), fun _ _ _ _ => pure ()⟩

/-- A default, a match without a body and a branch to fall into. -/
def falling : List Branch :=
  [.mk ⟨2, 1⟩ none (some (words "other")), .mk ⟨3, 1⟩ (some one) none,
    .mk ⟨4, 1⟩ (some (.literal .null)) (some (words "more"))]

/-- A default, and a match without a body at the end. -/
def runningOff : List Branch :=
  [.mk ⟨2, 1⟩ none (some (words "other")), .mk ⟨3, 1⟩ (some one) none]

end SwitchOnOne

open SwitchOnOne

theorem switch_selects_falling :
    page.act exits (.switch ⟨1, 1⟩ one falling) start = page.actAll exits (words "more") start := by
  obtain ⟨hselect, -⟩ := switch_selects page exits ⟨1, 1⟩ one falling start
  refine hselect ?_
  rintro ⟨i, body, hi, hbody, -⟩
  cases hi
  cases hbody

/-- Nothing is to be rendered here, as the match has no body behind it. -/
theorem switch_runs_off :
    ¬ ∀ (p : Page) (exits : Exits 0) (loc : Location) (subject : Expr) (bs : List Branch)
      (s : Session 0), p.act exits (.switch loc subject bs) s =
        p.actOption exits (selected (p.matching subject s) bs) s := by
  intro h
  have hoff : RunsOff (page.matching one start) runningOff :=
    ⟨1, words "other", by decide, rfl, rfl⟩
  obtain ⟨hnone, body, hdefault, hact⟩ := page.act_switch_of_runsOff exits ⟨1, 1⟩ one hoff
  cases hdefault
  have hsame := hact.symm.trans (h page exits ⟨1, 1⟩ one runningOff start)
  have hleft : page.actAll exits (words "other") start = .ok () ⟨.page {}, #[.fixed "other"]⟩ := by
    simp only [words, Page.actAll, Page.act, Page.actSegments]
    rfl
  rw [hnone, hleft] at hsame
  cases hsame

end PugTemplate
