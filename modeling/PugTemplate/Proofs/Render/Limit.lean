import Mathlib.Data.Nat.Count
import PugTemplate.Proofs.Render.Balance

/-!
# Limits

A loop goes through its turns one by one, and gives up before the turn that the limit does not
allow. A call is refused where as many calls are active as may be. Calls are counted by the tasks
that end them, so the content of a call counts the call it was given to.
-/

namespace PugTemplate

/-! ## Turns of a loop -/

namespace Page

variable {n : Nat}

/-- Whether the test of a loop holds in a session. -/
def TestHolds (p : Page) (test : Expr) (s : Session n) : Prop :=
  (p.eval s.chain.frame test).truthy = true

/-- Turns of a loop that come to their end, from one session to another, with the sessions in which
they begin. Nothing limits them. -/
inductive Turns (p : Page) (test : Expr) (body : Action n) :
    Session n → List (Session n) → Session n → Prop where
  | none (s : Session n) : Turns p test body s [] s
  | turn {s t u : Session n} {begins : List (Session n)} (ht : p.TestHolds test s)
      (hb : body s = .ok () t) (h : Turns p test body t begins u) :
      Turns p test body s (s :: begins) u

variable {p : Page} {loc : Location} {test : Expr} {body : Action n} {s t u : Session n}
  {begins : List (Session n)}

theorem repeatWhile_of_not_holds (h : ¬ p.TestHolds test s) (left : Nat) :
    p.repeatWhile loc test body left s = .ok () s := by
  cases left with
  | zero =>
    rw [repeatWhile, Simulates.value_apply]
    exact congrFun (if_neg h) s
  | succ left =>
    rw [repeatWhile, Simulates.value_apply]
    exact congrFun (if_neg h) s

theorem repeatWhile_zero (h : p.TestHolds test s) :
    p.repeatWhile loc test body 0 s = .error (.iterationLimit p.budget loc) s := by
  rw [repeatWhile, Simulates.value_apply]
  exact congrFun (if_pos h) s

theorem repeatWhile_succ (h : p.TestHolds test s) (left : Nat) :
    p.repeatWhile loc test body (left + 1) s =
      (do body; p.repeatWhile loc test body left : Action n) s := by
  rw [repeatWhile, Simulates.value_apply]
  exact congrFun (if_pos h) s

/-- A loop goes through turns that come to their end, and goes on with what is left. -/
theorem Turns.repeatWhile_eq (h : p.Turns test body s begins u) {left : Nat}
    (hl : begins.length ≤ left) :
    p.repeatWhile loc test body left s =
      p.repeatWhile loc test body (left - begins.length) u := by
  induction h generalizing left with
  | none s => rfl
  | @turn s t u begins ht hb h ih =>
    rw [List.length_cons] at hl ⊢
    obtain ⟨left, rfl⟩ : ∃ k, left = k + 1 := ⟨left - 1, by omega⟩
    rw [repeatWhile_succ ht]
    show EStateM.bind body _ s = _
    rw [EStateM.bind, hb, Nat.add_sub_add_right]
    exact ih (Nat.le_of_succ_le_succ hl)

theorem Turns.done (h : p.Turns test body s begins u) (hu : ¬ p.TestHolds test u) {left : Nat}
    (hl : begins.length ≤ left) : p.repeatWhile loc test body left s = .ok () u := by
  rw [h.repeatWhile_eq hl, repeatWhile_of_not_holds hu]

theorem Turns.failed (h : p.Turns test body s begins u) (hu : p.TestHolds test u)
    {e : RenderError} {v : Session n} (hb : body u = .error e v) {left : Nat}
    (hl : begins.length < left) : p.repeatWhile loc test body left s = .error e v := by
  obtain ⟨k, hk⟩ : ∃ k, left - begins.length = k + 1 := ⟨left - begins.length - 1, by omega⟩
  rw [h.repeatWhile_eq (Nat.le_of_lt hl), hk, repeatWhile_succ hu]
  show EStateM.bind body _ u = _
  rw [EStateM.bind, hb]

theorem Turns.over (h : p.Turns test body s begins u) (hu : p.TestHolds test u) :
    p.repeatWhile loc test body begins.length s =
      .error (.iterationLimit p.budget loc) u := by
  rw [h.repeatWhile_eq (Nat.le_refl _), Nat.sub_self, repeatWhile_zero hu]

/-- After turns, one of three things: the loop ends, the next turn fails, or no turn is left. -/
theorem exists_turns (p : Page) (test : Expr) (body : Action n) (left : Nat) (s : Session n) :
    ∃ begins u, p.Turns test body s begins u ∧
      ((begins.length ≤ left ∧ ¬ p.TestHolds test u) ∨
        (begins.length < left ∧ p.TestHolds test u ∧ ∃ e v, body u = .error e v) ∨
          (begins.length = left ∧ p.TestHolds test u)) := by
  induction left generalizing s with
  | zero =>
    refine ⟨[], s, .none s, ?_⟩
    by_cases ht : p.TestHolds test s
    · exact Or.inr (Or.inr ⟨rfl, ht⟩)
    · exact Or.inl ⟨Nat.le_refl _, ht⟩
  | succ left ih =>
    by_cases ht : p.TestHolds test s
    · cases hb : body s with
      | error e v =>
        exact ⟨[], s, .none s, Or.inr (Or.inl ⟨Nat.succ_pos left, ht, e, v, hb⟩)⟩
      | ok _ t =>
        obtain ⟨begins, u, hturns, hend⟩ := ih t
        refine ⟨s :: begins, u, .turn ht hb hturns, ?_⟩
        simpa only [List.length_cons, Nat.add_le_add_iff_right, Nat.add_lt_add_iff_right,
          Nat.add_right_cancel_iff] using hend
    · exact ⟨[], s, .none s, Or.inl ⟨Nat.zero_le _, ht⟩⟩

/-- Where more turns come to their end, the next one does. -/
theorem Turns.next {begins' : List (Session n)} {u' : Session n}
    (h : p.Turns test body s begins u) (h' : p.Turns test body s begins' u')
    (hl : begins.length < begins'.length) : ∃ v, body u = .ok () v := by
  induction h generalizing begins' with
  | none s =>
    cases h' with
    | none => exact absurd hl (Nat.lt_irrefl _)
    | turn _ hb _ => exact ⟨_, hb⟩
  | turn _ hb _ ih =>
    cases h' with
    | none => exact absurd hl (Nat.not_lt_zero _)
    | turn _ hb' h' =>
      cases hb.symm.trans hb'
      exact ih h' (Nat.lt_of_succ_lt_succ hl)

/-- A loop goes through at most so many turns, and fails by itself only where its test holds after
all of them. -/
structure LoopExact (p : Page) (limit : Nat) (loc : Location) (test : Expr) (body loop : Action n)
    (s : Session n) : Prop where
  ends_iff : ∀ u, loop s = .ok () u ↔
    ∃ begins, begins.length ≤ limit ∧ p.Turns test body s begins u ∧ ¬ p.TestHolds test u
  fails_iff : ∀ e v, loop s = .error e v ↔
    (∃ begins u, begins.length < limit ∧ p.Turns test body s begins u ∧ p.TestHolds test u ∧
      body u = .error e v) ∨
    (e = .iterationLimit limit loc ∧
      ∃ begins, begins.length = limit ∧ p.Turns test body s begins v ∧ p.TestHolds test v)
  /-- The failure is that of the loop itself if no turn fails. -/
  own_iff : ((∃ v, loop s = .error (.iterationLimit limit loc) v) ∧
      ∀ begins u, begins.length < limit → p.Turns test body s begins u → p.TestHolds test u →
        ∃ v, body u = .ok () v) ↔
    ∃ begins u, begins.length = limit ∧ p.Turns test body s begins u ∧ p.TestHolds test u

theorem loopExact {limit : Nat} (hlimit : p.options.maxIterations = some limit) (exits : Exits n)
    (loc : Location) (test : Expr) (body : List Node) (s : Session n) :
    p.LoopExact limit loc test (p.actAll exits body) (p.act exits (.loop loc test body)) s := by
  have hbudget : p.budget = limit := by rw [budget, hlimit, Option.getD_some]
  have hloop : p.act exits (.loop loc test body) =
      p.repeatWhile loc test (p.actAll exits body) limit := by rw [act, hbudget]
  have hover : ∀ {begins u}, begins.length = limit →
      p.Turns test (p.actAll exits body) s begins u → p.TestHolds test u →
        p.repeatWhile loc test (p.actAll exits body) limit s =
          .error (.iterationLimit limit loc) u := by
    rintro begins u rfl hturns hu
    rw [hturns.over hu, hbudget]
  rw [hloop]
  obtain ⟨begins, u, hturns, hend⟩ := p.exists_turns test (p.actAll exits body) limit s
  have hends : ∀ u', p.repeatWhile loc test (p.actAll exits body) limit s = .ok () u' →
      ∃ begins, begins.length ≤ limit ∧ p.Turns test (p.actAll exits body) s begins u' ∧
        ¬ p.TestHolds test u' := by
    intro u' h
    rcases hend with ⟨hl, hu⟩ | ⟨hl, hu, e, v, hb⟩ | ⟨hl, hu⟩
    · cases h.symm.trans (hturns.done hu hl)
      exact ⟨begins, hl, hturns, hu⟩
    · exact nomatch h.symm.trans (hturns.failed hu hb hl)
    · exact nomatch h.symm.trans (hover hl hturns hu)
  have hfails : ∀ e v, p.repeatWhile loc test (p.actAll exits body) limit s = .error e v →
      (∃ begins u, begins.length < limit ∧ p.Turns test (p.actAll exits body) s begins u ∧
        p.TestHolds test u ∧ p.actAll exits body u = .error e v) ∨
      (e = .iterationLimit limit loc ∧ ∃ begins, begins.length = limit ∧
        p.Turns test (p.actAll exits body) s begins v ∧ p.TestHolds test v) := by
    intro e v h
    rcases hend with ⟨hl, hu⟩ | ⟨hl, hu, e', v', hb⟩ | ⟨hl, hu⟩
    · exact nomatch h.symm.trans (hturns.done hu hl)
    · cases h.symm.trans (hturns.failed hu hb hl)
      exact Or.inl ⟨begins, u, hl, hturns, hu, hb⟩
    · cases h.symm.trans (hover hl hturns hu)
      exact Or.inr ⟨rfl, begins, hl, hturns, hu⟩
  -- forwards by what the loop comes to, backwards by the turns
  refine ⟨fun u' => ⟨hends u', fun ⟨begins', hl', h', hu'⟩ => h'.done hu' hl'⟩,
    fun e v => ⟨hfails e v, ?_⟩, ⟨fun ⟨⟨v, h⟩, hgood⟩ => ?_, ?_⟩⟩
  · rintro (⟨begins', u', hl', h', hu', hb'⟩ | ⟨rfl, begins', hl', h', hu'⟩)
    · exact h'.failed hu' hb' hl'
    · exact hover hl' h' hu'
  · rcases hfails _ v h with ⟨begins', u', hl', h', hu', hb'⟩ | ⟨-, begins', hl', h', hu'⟩
    · obtain ⟨w, hok⟩ := hgood begins' u' hl' h' hu'
      exact nomatch hok.symm.trans hb'
    · exact ⟨begins', v, hl', h', hu'⟩
  -- where the loop fails by itself, all turns before have come to their end
  · rintro ⟨begins', u', hl', h', hu'⟩
    exact ⟨⟨u', hover hl' h' hu'⟩, fun begins u hl hturns _ => hturns.next h' (hl' ▸ hl)⟩

end Page

/-! ## Turns on the machine -/

namespace Page

variable {p : Page} {m : Machine} {t : Task} {us rest : List Task} {loc : Location} {test : Expr}
  {body : List Node}

/-- A step works on the first task and leaves those behind it as they are. -/
theorem exists_tasks_step (h : m.tasks = t :: us) : ∃ ts, (p.step m).tasks = ts ++ us := by
  rw [step_eq h]
  split
  · exact ⟨[], rfl⟩
  · cases t with
    | enter loc mixin f content =>
      rw [perform]
      split
      · exact ⟨[], rfl⟩
      · exact ⟨[.nodes mixin.body, .leave m.current], rfl⟩
    | slot =>
      rw [perform]
      split
      · exact ⟨[], rfl⟩
      · exact ⟨[.nodes _, .resume m.current], rfl⟩
    | _ => exact ⟨_, rfl⟩

/-- A machine begins to render the body of a loop behind which the tasks `rest` stand. -/
def BeginsTurn (p : Page) (loc : Location) (test : Expr) (body : List Node) (rest : List Task)
    (m : Machine) : Prop :=
  ∃ done, m.tasks = .again loc test body done :: rest ∧
    (p.step m).tasks = .nodes body :: .again loc test body (done + 1) :: rest

/-- A loop that has run so many times ends, fails by itself or begins one more turn. -/
theorem step_again {limit : Nat} (hlimit : p.options.maxIterations = some limit) {done : Nat}
    (h : m.tasks = .again loc test body done :: rest) :
    (p.step m).tasks = rest ∨ (p.step m).tasks = .fail (.iterationLimit limit loc) :: rest ∨
      (done < limit ∧
        (p.step m).tasks = .nodes body :: .again loc test body (done + 1) :: rest) := by
  rw [step_eq h]
  split
  · exact Or.inl rfl
  · simp only [perform, expand, hlimit]
    split
    · split
      next => exact Or.inr (Or.inl rfl)
      next hlt => exact Or.inr (Or.inr ⟨Nat.lt_of_not_le hlt, rfl⟩)
    · exact Or.inl rfl

theorem not_beginsTurn (h : ∀ done, m.tasks ≠ .again loc test body done :: rest) :
    ¬ p.BeginsTurn loc test body rest m :=
  fun ⟨done, hm, _⟩ => h done hm

/-- What a loop has come to, of which so many turns have begun: the loop itself is still to be done,
or it goes through the tasks of a turn, or it has failed by itself. -/
inductive AtTurn (limit : Nat) (loc : Location) (test : Expr) (body : List Node)
    (rest : List Task) : List Task → Nat → Prop where
  | first : AtTurn limit loc test body rest (.node (.loop loc test body) :: rest) 0
  | turn {done : Nat} (hd : done ≤ limit) (ts : List Task) :
    AtTurn limit loc test body rest (ts ++ .again loc test body done :: rest) done
  | failed {done : Nat} (hd : done ≤ limit) :
    AtTurn limit loc test body rest (.fail (.iterationLimit limit loc) :: rest) done

/-- What one step makes of a loop that goes on, and of how many of its turns have begun. -/
theorem AtTurn.step {limit : Nat} (hlimit : p.options.maxIterations = some limit) {begun : Nat}
    (h : AtTurn limit loc test body rest m.tasks begun)
    (hgo : rest.length < (p.step m).tasks.length) :
    ∃ begun', AtTurn limit loc test body rest (p.step m).tasks begun' ∧
      ((p.BeginsTurn loc test body rest m ∧ begun' = begun + 1) ∨
        (¬ p.BeginsTurn loc test body rest m ∧ begun' = begun)) := by
  generalize hts : m.tasks = tasks at h
  cases h with
  | first =>
    refine ⟨0, ?_, Or.inr ⟨not_beginsTurn fun done h => ?_, rfl⟩⟩
    · have hstep : (p.step m).tasks = rest ∨
          (p.step m).tasks = [] ++ .again loc test body 0 :: rest := by
        rw [step_eq hts]
        split
        · exact Or.inl rfl
        · exact Or.inr rfl
      rcases hstep with hstep | hstep
      · rw [hstep] at hgo
        exact absurd hgo (Nat.lt_irrefl _)
      · rw [hstep]
        exact .turn (Nat.zero_le _) []
    · exact nomatch hts.symm.trans h
  | turn hd ts =>
    cases ts with
    -- the turn is over, and the test decides
    | nil =>
      rcases step_again hlimit hts with hstep | hstep | ⟨hlt, hstep⟩
      · rw [hstep] at hgo
        exact absurd hgo (Nat.lt_irrefl _)
      · refine ⟨begun, ?_, Or.inr ⟨fun ⟨_, _, h⟩ => ?_, rfl⟩⟩
        · rw [hstep]
          exact .failed hd
        · exact nomatch hstep.symm.trans h
      · refine ⟨begun + 1, ?_, Or.inl ⟨⟨begun, hts, hstep⟩, rfl⟩⟩
        rw [hstep]
        exact .turn hlt [.nodes body]
    -- a turn goes on: the task of the loop stays where it is
    | cons t ts =>
      rw [List.cons_append] at hts
      obtain ⟨us, hus⟩ := exists_tasks_step (p := p) hts
      refine ⟨begun, ?_, Or.inr ⟨not_beginsTurn fun done h => ?_, rfl⟩⟩
      · rw [hus, ← List.append_assoc]
        exact .turn hd (us ++ ts)
      · have hlen := congrArg List.length (hts.symm.trans h)
        simp only [List.length_cons, List.length_append] at hlen
        omega
  | failed hd =>
    have hrest : (p.step m).tasks = rest := by
      rw [step_eq hts]
      split <;> rfl
    rw [hrest] at hgo
    exact absurd hgo (Nat.lt_irrefl _)

theorem AtTurn.begun_le {limit begun : Nat} {tasks : List Task}
    (h : AtTurn limit loc test body rest tasks begun) : begun ≤ limit := by
  cases h with
  | first => exact Nat.zero_le _
  | turn hd | failed hd => exact hd

open Classical in
/-- How many turns of a loop a machine begins in so many steps. -/
noncomputable def turnsBegun (p : Page) (loc : Location) (test : Expr) (body : List Node)
    (rest : List Task) (m : Machine) (k : Nat) : Nat :=
  Nat.count (fun j => p.BeginsTurn loc test body rest (p.step^[j] m)) k

theorem turnsBegun_succ_of_begins {k : Nat}
    (h : p.BeginsTurn loc test body rest (p.step^[k] m)) :
    p.turnsBegun loc test body rest m (k + 1) = p.turnsBegun loc test body rest m k + 1 := by
  rw [turnsBegun, Nat.count_succ, if_pos h, turnsBegun]

theorem turnsBegun_succ_of_not_begins {k : Nat}
    (h : ¬ p.BeginsTurn loc test body rest (p.step^[k] m)) :
    p.turnsBegun loc test body rest m (k + 1) = p.turnsBegun loc test body rest m k := by
  rw [turnsBegun, Nat.count_succ, if_neg h, turnsBegun, Nat.add_zero]

/-- The induction is on the steps; as long as the loop goes on, as many turns have begun as it
counts. -/
theorem atTurn_turnsBegun {limit : Nat} (hlimit : p.options.maxIterations = some limit)
    (h : m.tasks = .node (.loop loc test body) :: rest) {k : Nat}
    (hgo : ∀ j ≤ k, rest.length < (p.step^[j] m).tasks.length) :
    AtTurn limit loc test body rest (p.step^[k] m).tasks
      (p.turnsBegun loc test body rest m k) := by
  induction k with
  | zero =>
    rw [Function.iterate_zero_apply, h, turnsBegun, Nat.count_zero]
    exact .first
  | succ k ih =>
    have hnext := hgo (k + 1) (Nat.le_refl _)
    rw [Function.iterate_succ_apply'] at hnext ⊢
    obtain ⟨begun, hat, ⟨hb, rfl⟩ | ⟨hb, rfl⟩⟩ :=
      (ih fun j hj => hgo j (Nat.le_succ_of_le hj)).step hlimit hnext
    · rwa [turnsBegun_succ_of_begins hb]
    · rwa [turnsBegun_succ_of_not_begins hb]

/-- However long a loop goes on, no more of its turns begin than may. -/
theorem turnsBegun_le {limit : Nat} (hlimit : p.options.maxIterations = some limit)
    (h : m.tasks = .node (.loop loc test body) :: rest) {k : Nat}
    (hgo : ∀ j < k, rest.length < (p.step^[j] m).tasks.length) :
    p.turnsBegun loc test body rest m k ≤ limit := by
  cases k with
  | zero => exact Nat.zero_le _
  | succ k =>
    by_cases hb : p.BeginsTurn loc test body rest (p.step^[k] m)
    -- a turn that begins has tasks of its own, so the loop goes on for one more step
    · refine (atTurn_turnsBegun hlimit h fun j hj => ?_).begun_le
      rcases Nat.lt_or_eq_of_le hj with hj | rfl
      · exact hgo j hj
      · obtain ⟨done, -, hstep⟩ := hb
        rw [Function.iterate_succ_apply', hstep, List.length_cons, List.length_cons]
        omega
    · rw [turnsBegun_succ_of_not_begins hb]
      exact (atTurn_turnsBegun hlimit h fun j hj => hgo j (Nat.lt_succ_of_le hj)).begun_le

end Page

/-! ## Active calls -/

/-- Whether a task ends a call. -/
def Task.leaves : Task → Bool
  | .leave _ => true
  | _ => false

/-- How many calls are active: the body of each is being rendered, and the task that ends it is
still to be done. -/
def Machine.active (m : Machine) : Nat :=
  m.tasks.countP Task.leaves

namespace Page

variable {p : Page} {m : Machine} {t : Task} {us rest : List Task}

theorem countP_leaves_expand (f : Frame) (t : Task) :
    (p.expand f t).countP Task.leaves = 0 := by
  have hleaves : ∀ u : Task, u.moves = false → u.leaves = false := by
    intro u hu
    cases u with
    | leave => exact nomatch hu
    | _ => rfl
  rcases p.expand_cases f t with h | ⟨scope, body, more, h, hm⟩
  · exact List.countP_eq_zero.mpr fun u hu => by simp [hleaves u (h u hu)]
  · have hmore := hleaves more hm
    rw [h]
    exact List.countP_eq_zero.mpr (by simp [Task.leaves.eq_def] at hmore ⊢; exact hmore)

/-- Each active call has a frame, and the page has one. -/
theorem length_frames_step (h : m.frames.length = m.active + 1) :
    (p.step m).frames.length = (p.step m).active + 1 := by
  cases ht : m.tasks with
  | nil => rwa [step, ht]
  | cons t us =>
    have hcount : m.active = us.countP Task.leaves + if t.leaves then 1 else 0 := by
      rw [Machine.active, ht, List.countP_cons]
    have hlead : (p.expand m.frame t ++ us).countP Task.leaves = us.countP Task.leaves := by
      rw [List.countP_append, countP_leaves_expand, Nat.zero_add]
    rw [step_eq ht]
    split
    -- behind a failure the ends of calls are not passed over
    next hdrop =>
      have hstays : t.leaves = false := by
        cases t with
        | leave => simp [Task.restores] at hdrop
        | _ => rfl
      rw [hstays, if_neg Bool.false_ne_true, Nat.add_zero] at hcount
      rwa [Machine.active, ← hcount]
    next =>
      cases t with
      | enter loc mixin f content =>
        rw [perform]
        split
        · exact h.trans (congrArg (· + 1) hcount)
        · have hactive : m.active = us.countP Task.leaves := hcount
          show (m.frames ++ [_]).length =
            (Task.nodes mixin.body :: .leave m.current :: us).countP Task.leaves + 1
          rw [List.length_append, List.length_singleton, h, hactive, List.countP_cons_of_neg,
            List.countP_cons_of_pos rfl]
          exact Bool.false_ne_true
      | leave previous =>
        have hactive : m.active = us.countP Task.leaves + 1 := hcount
        show m.frames.dropLast.length = us.countP Task.leaves + 1
        rw [List.length_dropLast, h, hactive, Nat.add_sub_cancel]
      | slot =>
        have hactive : m.active = us.countP Task.leaves := hcount
        rw [perform]
        split
        · exact h.trans (congrArg (· + 1) hactive)
        · simp [Machine.active, expand, Task.leaves, ← hactive, h]
      -- the others neither add a frame nor take one away
      | _ =>
        have hactive : m.active = us.countP Task.leaves := hcount
        simp [perform, Machine.mapFrame, Machine.active, hlead, ← hactive, h]

theorem length_frames_run (nodes : List Node) (k : Nat) :
    (p.step^[k] (start nodes)).frames.length = (p.step^[k] (start nodes)).active + 1 := by
  induction k with
  | zero => rfl
  | succ k ih =>
    rw [Function.iterate_succ_apply']
    exact length_frames_step ih

theorem active_le (p : Page) (nodes : List Node) (k : Nat) :
    (p.step^[k] (start nodes)).active ≤ p.options.maxDepth := by
  have hdepth := (p.owes_page nodes k).1.depth
  rw [length_frames_run] at hdepth
  exact Nat.le_of_succ_le_succ hdepth

/-- What has failed stays so. -/
theorem failure_step {e : RenderError} (h : m.failure = some e) :
    (p.step m).failure = some e := by
  cases ht : m.tasks with
  | nil => rwa [step, ht]
  | cons t us =>
    rw [step_eq ht]
    split
    next => exact h
    next hgo =>
      cases t with
      | popScope | leave | resume => exact h
      | _ => exact absurd (by simp [h, Task.restores]) hgo

theorem failure_run {e : RenderError} (h : m.failure = some e) (k : Nat) :
    (p.step^[k] m).failure = some e := by
  induction k with
  | zero => exact h
  | succ k ih =>
    rw [Function.iterate_succ_apply']
    exact failure_step ih

/-- With a limit for loops, a failure at some moment is what rendering comes to. -/
theorem render_of_failure (l : Linked) (data : Value) {options : Options}
    (filters : Dictionary Filter) {limit : Nat} (hlimit : options.maxIterations = some limit)
    {e : RenderError} {k : Nat}
    (h : ((l.page data options filters).step^[k] (start l.nodes)).failure = some e) :
    render l data options filters = .error e := by
  obtain ⟨halt, htasks, hresult⟩ := exists_result l data filters hlimit
  have hstay : (l.page data options filters).step
      ((l.page data options filters).step^[halt] (start l.nodes)) =
      (l.page data options filters).step^[halt] (start l.nodes) := by
    rw [step, htasks]
  -- the machine that has come to its end is also where the failed one ends
  have hfailed := failure_run (p := l.page data options filters) h halt
  rw [← Function.iterate_add_apply, Nat.add_comm, Function.iterate_add_apply,
    Function.iterate_fixed hstay] at hfailed
  rw [← hresult, Machine.result, hfailed]

/-- A call of a mixin comes to the body of the mixin, or it is refused, at the place of the call,
because as many calls are active as may be. -/
structure CallExact (p : Page) (loc : Location) (mixin : Mixin) (rest : List Task) (m : Machine) :
    Prop where
  refused_iff : (p.step^[2] m).failure = some (.callDepth p.options.maxDepth loc) ↔
    m.active = p.options.maxDepth
  entered : m.active < p.options.maxDepth → (p.step^[2] m).failure = none ∧
    (p.step^[2] m).tasks = .nodes mixin.body :: .leave m.current :: rest

section

variable {loc : Location} {name : NameSource} {args : List Expr} {head : Head}
  {content : Option (List Node)} {mixin : Mixin}

theorem step_call (hn : m.failure = none)
    (ht : m.tasks = .node (.call loc name args head content) :: rest)
    (hf : Dictionary.find? (p.nameOf m.frame name).1 p.mixins = some mixin) :
    p.step m = { m with
      tasks := .enter loc mixin (p.callFrame m.frame mixin args head content.isSome) content ::
        rest } := by
  have hexpand : p.expand m.frame (.node (.call loc name args head content)) =
      [.enter loc mixin (p.callFrame m.frame mixin args head content.isSome) content] := by
    simp only [expand, hf]
  rw [step_eq ht, hexpand, if_neg (by simp [hn])]
  rfl

theorem step_enter_refused {f : Frame} (hn : m.failure = none)
    (ht : m.tasks = .enter loc mixin f content :: rest)
    (hd : p.options.maxDepth < m.frames.length) :
    (p.step m).failure = some (.callDepth p.options.maxDepth loc) := by
  rw [step_eq ht, if_neg (by simp [hn]), perform, if_pos hd]

theorem step_enter {f : Frame} (hn : m.failure = none)
    (ht : m.tasks = .enter loc mixin f content :: rest)
    (hd : ¬ p.options.maxDepth < m.frames.length) :
    (p.step m).failure = none ∧
      (p.step m).tasks = .nodes mixin.body :: .leave m.current :: rest := by
  rw [step_eq ht, if_neg (by simp [hn]), perform, if_neg hd]
  exact ⟨hn, rfl⟩

theorem callExact (hl : m.frames.length = m.active + 1) (hd : m.active ≤ p.options.maxDepth)
    (hn : m.failure = none) (ht : m.tasks = .node (.call loc name args head content) :: rest)
    (hf : Dictionary.find? (p.nameOf m.frame name).1 p.mixins = some mixin) :
    p.CallExact loc mixin rest m := by
  have hstep := step_call hn ht hf
  have htwo : p.step^[2] m = p.step (p.step m) := rfl
  have hn₁ : (p.step m).failure = none := by rw [hstep, hn]
  have ht₁ := congrArg Machine.tasks hstep
  have hl₁ : (p.step m).frames.length = m.active + 1 := by rw [hstep, hl]
  have hc₁ : (p.step m).current = m.current := by rw [hstep]
  rcases Nat.lt_or_ge m.active p.options.maxDepth with hlt | hge
  · have hin := step_enter (p := p) hn₁ ht₁ (by omega)
    rw [← htwo, hc₁] at hin
    refine ⟨⟨fun h => ?_, fun h => absurd h (Nat.ne_of_lt hlt)⟩, fun _ => hin⟩
    exact nomatch h.symm.trans hin.1
  · have hout := step_enter_refused (p := p) hn₁ ht₁ (by omega)
    exact ⟨⟨fun _ => Nat.le_antisymm hd hge, fun _ => hout⟩,
      fun hlt => absurd hlt (Nat.not_lt_of_le hge)⟩

end

end Page

/-! ## The page -/

/-- A loop goes through at most as many turns as the limit says, and fails by itself only where its
test holds after all of them. No more calls are active than may be, and a call of a mixin fails for
that only where as many are. -/
theorem limits_exact (l : Linked) (data : Value) (options : Options)
    (filters : Dictionary Filter) :
    (∀ limit, options.maxIterations = some limit →
      (∀ (n : Nat) (exits : Exits n) loc test body s,
        (l.page data options filters).LoopExact limit loc test
          ((l.page data options filters).actAll exits body)
          ((l.page data options filters).act exits (.loop loc test body)) s) ∧
      ∀ m loc test body rest k, m.tasks = .node (.loop loc test body) :: rest →
        (∀ j < k, rest.length < ((l.page data options filters).step^[j] m).tasks.length) →
          (l.page data options filters).turnsBegun loc test body rest m k ≤ limit) ∧
    ∀ k m, (l.page data options filters).step^[k] (Page.start l.nodes) = m →
      m.active ≤ options.maxDepth ∧
      ∀ loc name args head content mixin rest,
        m.failure = none → m.tasks = .node (.call loc name args head content) :: rest →
        Dictionary.find? ((l.page data options filters).nameOf m.frame name).1 l.mixins =
          some mixin →
        (l.page data options filters).CallExact loc mixin rest m ∧
          (m.active = options.maxDepth → options.maxIterations.isSome →
            render l data options filters = .error (.callDepth options.maxDepth loc)) := by
  refine ⟨fun limit hlimit => ⟨?_, ?_⟩, ?_⟩
  · exact fun n exits loc test body s => Page.loopExact hlimit exits loc test body s
  · exact fun m loc test body rest k h hgo => Page.turnsBegun_le hlimit h hgo
  · rintro k m rfl
    refine ⟨Page.active_le _ l.nodes k, fun loc name args head content mixin rest hn ht hf => ?_⟩
    have hcall := Page.callExact (Page.length_frames_run l.nodes k) (Page.active_le _ l.nodes k) hn
      ht hf
    refine ⟨hcall, fun hfull hsome => ?_⟩
    obtain ⟨limit, hlimit⟩ := Option.isSome_iff_exists.mp hsome
    have hfailed := hcall.refused_iff.mpr hfull
    rw [← Function.iterate_add_apply] at hfailed
    exact Page.render_of_failure l data filters hlimit hfailed

/-- Ends a loop by its only turn. -/
def clearName : List Node :=
  [.statements ⟨3, 3⟩ [.assign "n" .set (.literal (.bool false))]]

/-- A loop of one turn, and a call whose content calls the same mixin. -/
def turnAndCalls : Linked :=
  ⟨[.statements ⟨1, 1⟩ [.declare "n" (.literal (.bool true))],
    .loop ⟨2, 1⟩ (.name "n") clearName,
    .call ⟨4, 1⟩ (.fixed "m") [] {} (some [.call ⟨5, 3⟩ (.fixed "m") [] {} none])],
    [("m", ⟨[], [.slot ⟨7, 3⟩]⟩)]⟩

def atMostOne : Options :=
  { maxIterations := some 1, maxDepth := 1 }

def turnAndCallsPage : Page :=
  turnAndCalls.page .null atMostOne []

/-- Where one of each is allowed, the loop comes to its end and the call from the content is
refused: the call that the content was given to is active. -/
theorem limits_exact_turnAndCalls :
    (∃ begins u, begins.length ≤ 1 ∧
      turnAndCallsPage.Turns (.name "n")
        (turnAndCallsPage.actAll ⟨pure (), fun _ _ _ _ => pure ()⟩ clearName)
        (⟨.page { base := [("n", .bool true)] }, #[]⟩ : Session 0) begins u ∧
      ¬ turnAndCallsPage.TestHolds (.name "n") u) ∧
    (∃ rest, (turnAndCallsPage.step^[4] (Page.start turnAndCalls.nodes)).tasks =
        .node (.loop ⟨2, 1⟩ (.name "n") clearName) :: rest ∧
      turnAndCallsPage.turnsBegun ⟨2, 1⟩ (.name "n") clearName rest
        (turnAndCallsPage.step^[4] (Page.start turnAndCalls.nodes)) 7 ≤ 1) ∧
    (turnAndCallsPage.step^[18] (Page.start turnAndCalls.nodes)).active = 1 ∧
    (turnAndCallsPage.step^[20] (Page.start turnAndCalls.nodes)).failure =
      some (.callDepth 1 ⟨5, 3⟩) ∧
    render turnAndCalls .null atMostOne [] = .error (.callDepth 1 ⟨5, 3⟩) := by
  obtain ⟨hloops, hcalls⟩ := limits_exact turnAndCalls .null atMostOne []
  obtain ⟨hexact, hcount⟩ := hloops 1 rfl
  have hloop : (turnAndCallsPage.step^[4] (Page.start turnAndCalls.nodes)).tasks =
      .node (.loop ⟨2, 1⟩ (.name "n") clearName) :: _ := rfl
  have hrunning : ∀ j < 7, 1 < (turnAndCallsPage.step^[j]
      (turnAndCallsPage.step^[4] (Page.start turnAndCalls.nodes))).tasks.length := by
    decide
  have hcall : (turnAndCallsPage.step^[18] (Page.start turnAndCalls.nodes)).tasks =
      .node (.call ⟨5, 3⟩ (.fixed "m") [] {} none) :: _ := rfl
  have hfull : (turnAndCallsPage.step^[18] (Page.start turnAndCalls.nodes)).active = 1 := rfl
  obtain ⟨-, hdepth⟩ := hcalls 18 _ rfl
  obtain ⟨hrefused, hrender⟩ := hdepth _ _ _ _ _ ⟨[], [.slot ⟨7, 3⟩]⟩ _ rfl hcall rfl
  have hone := hexact 0 ⟨pure (), fun _ _ _ _ => pure ()⟩ ⟨2, 1⟩ (.name "n") clearName
    ⟨.page { base := [("n", .bool true)] }, #[]⟩
  obtain ⟨begins, hends⟩ := (hone.ends_iff ⟨.page { base := [("n", .bool false)] }, #[]⟩).mp rfl
  exact ⟨⟨begins, _, hends⟩, ⟨_, hloop, hcount _ _ _ _ _ 7 hloop hrunning⟩, hfull,
    hrefused.refused_iff.mpr hfull, hrender hfull rfl⟩

end PugTemplate
