import Mathlib.Data.Nat.Find
import PugTemplate.Proofs.Render.Escape
import PugTemplate.Proofs.Render.Halt

/-!
# Frames are given back

A task and all that it leads to leave the stack as they found it: as many frames, the same one
current, and in each frame as many scopes. The names that frames bind do not count here. What the
tasks on the list will make of the stack in the end does not change from step to step, and that is
the invariant.
-/

namespace PugTemplate

/-- The scopes of a frame, the innermost first; the last one is there as long as the frame is. -/
def Frame.scopes (f : Frame) : List (Dictionary Value) :=
  f.inner ++ [f.base]

/-- A frame of the stack without the names it binds. -/
structure Outline where
  /-- How many turns of loops have a scope open. -/
  turns : Nat
  caller : Nat

def Activation.outline (a : Activation) : Outline :=
  ⟨a.frame.inner.length, a.caller⟩

/-- A stack without the names that its frames bind. -/
structure Shape where
  outlines : List Outline
  current : Nat

def Shape.of (frames : List Activation) (current : Nat) : Shape :=
  ⟨frames.map Activation.outline, current⟩

/-! ## What is still to be given back -/

namespace Task

/-- Whether a task itself moves the stack: it opens a scope, or it brings something back. -/
def moves : Task → Bool
  | .pushScope _ | .popScope | .leave _ | .resume _ => true
  | _ => false

def opens : Task → Bool
  | .pushScope _ => true
  | _ => false

theorem not_opens_of_not_moves {t : Task} (h : t.moves = false) : t.opens = false := by
  cases t with
  | pushScope => exact nomatch h
  | _ => rfl

theorem not_moves {t : Task} (ho : t.opens = false) (hr : t.restores = false) :
    t.moves = false := by
  cases t with
  | pushScope => exact nomatch ho
  | popScope | leave | resume => exact nomatch hr
  | _ => rfl

end Task

namespace Shape

def mapTurns (g : Nat → Nat) (s : Shape) : Shape :=
  { s with outlines := s.outlines.modify s.current fun o => { o with turns := g o.turns } }

/-- The stack behind a task, but for what the task leads to; `none` if there is nothing to bring
back. -/
def after (s : Shape) : Task → Option Shape
  | .pushScope _ => some (s.mapTurns (· + 1))
  | .popScope =>
    if (s.outlines[s.current]?).any (0 < ·.turns) then some (s.mapTurns (· - 1)) else none
  | .leave previous =>
    if previous < s.current ∧ s.outlines.length = s.current + 1 then
      some ⟨s.outlines.dropLast, previous⟩
    else none
  | .resume previous => if previous < s.outlines.length then some ⟨s.outlines, previous⟩ else none
  | _ => some s

/-- The stack behind a list of tasks. -/
def unwind (s : Shape) (ts : List Task) : Option Shape :=
  ts.foldlM after s

variable {s s' : Shape}

theorem after_of_not_moves {t : Task} (h : t.moves = false) : s.after t = some s := by
  cases t with
  | pushScope | popScope | leave | resume => exact nomatch h
  | _ => rfl

theorem unwind_cons (t : Task) (ts : List Task) :
    s.unwind (t :: ts) = (s.after t).bind (unwind · ts) :=
  List.foldlM_cons

theorem unwind_append (ts us : List Task) :
    s.unwind (ts ++ us) = (s.unwind ts).bind (unwind · us) :=
  List.foldlM_append

theorem unwind_of_not_moves {ts : List Task} (h : ∀ t ∈ ts, t.moves = false) :
    s.unwind ts = some s := by
  induction ts with
  | nil => rfl
  | cons t ts ih =>
    rw [List.forall_mem_cons] at h
    rw [unwind_cons, after_of_not_moves h.1]
    exact ih h.2

theorem mapTurns_id (s : Shape) : s.mapTurns id = s :=
  congrArg (Shape.mk · s.current) (List.modify_id s.current s.outlines)

theorem after_popScope_mapTurns (hs : s.current < s.outlines.length) :
    (s.mapTurns (· + 1)).after .popScope = some s := by
  have hopen : ((s.mapTurns (· + 1)).outlines[(s.mapTurns (· + 1)).current]?).any
      (0 < ·.turns) = true := by
    simp [mapTurns, List.getElem?_eq_getElem hs]
  have hback : (s.mapTurns (· + 1)).mapTurns (· - 1) = s := by
    show Shape.mk ((s.outlines.modify s.current _).modify s.current _) s.current = s
    rw [List.modify_modify_eq]
    exact congrArg (Shape.mk · s.current) (List.modify_id s.current s.outlines)
  rw [after, if_pos hopen, hback]

/-- A scope that is opened and closed again leaves nothing behind. -/
theorem unwind_scope {scope : Dictionary Value} {t u : Task} (ht : t.moves = false)
    (hu : u.moves = false) (hs : s.current < s.outlines.length) :
    s.unwind [.pushScope scope, t, .popScope, u] = some s := by
  rw [unwind_cons, after, Option.bind_some, unwind_cons, after_of_not_moves ht, Option.bind_some,
    unwind_cons, after_popScope_mapTurns hs, Option.bind_some]
  exact unwind_of_not_moves (List.forall_mem_singleton.mpr hu)

end Shape

namespace Page

variable (p : Page) (f : Frame)

/-- Most tasks lead to tasks that do not move the stack. A turn of a loop opens a scope first, and
closes it behind the body. -/
theorem expand_cases (t : Task) :
    (∀ u ∈ p.expand f t, u.moves = false) ∨
      ∃ scope body more, p.expand f t = [.pushScope scope, .nodes body, .popScope, more] ∧
        more.moves = false := by
  match t with
  | .turns value key body (entry :: es) => exact Or.inr ⟨_, _, _, rfl, rfl⟩
  | .node n =>
    left
    cases n with
    | tag loc name head selfClosing textOnly body =>
      rw [expand]
      dsimp only
      split <;> simp [Task.moves]
    | comment loc text buffered body => cases buffered <;> simp [expand, Task.moves]
    | conditional loc negate test body next =>
      rw [expand]
      split <;> simp [Task.moves]
    | switch loc subject bs => simp [expand, Task.moves]
    | each loc value key source body ifEmpty =>
      rw [expand]
      split <;> simp [Task.moves]
    | call loc name args head content =>
      rw [expand]
      split <;> simp [Task.moves]
    | filter loc name attributes text =>
      rw [expand]
      split <;> simp [Task.moves]
    | _ => simp [expand, Task.moves]
  | .again loc test body done =>
    left
    rw [expand]
    split
    · split
      · split <;> simp [Task.moves]
      · simp [Task.moves]
    · simp
  | .otherwise (.elseIf loc test body next) =>
    left
    rw [expand]
    split <;> simp [Task.moves]
  | .nodes [] | .nodes (_ :: _) | .segments [] | .segments (.literal _ :: _)
  | .segments (.escaped _ :: _) | .segments (.raw _ :: _) | .segments (.tag _ :: _)
  | .otherwise .nothing | .otherwise (.otherwise _ _) | .turns _ _ _ [] | .emit _ | .execute _
  | .pushScope _ | .popScope | .enter .. | .leave _ | .slot | .resume _ | .fail _ =>
    left
    simp [expand, Task.moves]

variable {p f}

/-- What a task leads to gives the stack back as it finds it. -/
theorem unwind_expand (t : Task) {s : Shape} (hs : s.current < s.outlines.length) :
    s.unwind (p.expand f t) = some s := by
  rcases p.expand_cases f t with h | ⟨scope, body, more, h, hm⟩
  · exact Shape.unwind_of_not_moves h
  · rw [h]
    exact Shape.unwind_scope rfl hm hs

/-- Only the first task that a task leads to may open a scope. -/
theorem not_opens_of_mem_tail_expand {t u : Task} (hu : u ∈ (p.expand f t).tail) :
    u.opens = false := by
  rcases p.expand_cases f t with h | ⟨scope, body, more, h, hm⟩
  · exact Task.not_opens_of_not_moves (h u (List.mem_of_mem_tail hu))
  · rw [h, List.tail_cons] at hu
    simp only [List.mem_cons, List.not_mem_nil, or_false] at hu
    rcases hu with rfl | rfl | rfl
    · rfl
    · rfl
    · exact Task.not_opens_of_not_moves hm

end Page

/-! ## The stack at every moment -/

/-- The frames are a stack: each has its caller below it, that of the page was not called, and there
are no more than the page and the calls that may be active. -/
structure Formed (limit : Nat) (frames : List Activation) (current : Nat) : Prop where
  current : current < frames.length
  callers : ∀ i a, frames[i]? = some a → 1 ≤ i → a.caller < i
  page : ∀ a, frames[0]? = some a → a.content = none ∧ a.caller = 0
  depth : frames.length ≤ limit + 1

section

variable {limit i : Nat} {frames : List Activation}

theorem Shape.of_modify (frames : List Activation) (i : Nat) {g : Frame → Frame} {h : Nat → Nat}
    (hg : ∀ f : Frame, (g f).inner.length = h f.inner.length) :
    Shape.of (frames.modify i fun a => { a with frame := g a.frame }) i =
      (Shape.of frames i).mapTurns h := by
  have hl : (frames.modify i fun a => { a with frame := g a.frame }).map Activation.outline =
      (frames.map Activation.outline).modify i fun o => { o with turns := h o.turns } := by
    apply List.ext_getElem?
    intro j
    simp only [List.getElem?_map, List.getElem?_modify, Option.map_map, Option.map_eq_map]
    congr 1
    funext a
    by_cases hj : i = j <;> simp [hj, Activation.outline, hg]
  exact congrArg (Shape.mk · i) hl

/-- The end of a call takes its frame away again. -/
theorem Shape.unwind_call (hi : i < frames.length) (a : Activation) (ns : List Node)
    (us : List Task) :
    (Shape.of (frames ++ [a]) frames.length).unwind (.nodes ns :: .leave i :: us) =
      (Shape.of frames i).unwind us := by
  have hleave : (Shape.of (frames ++ [a]) frames.length).after (.leave i) =
      some (Shape.of frames i) := by
    simp [Shape.of, Shape.after, hi]
  rw [unwind_cons, after_of_not_moves rfl, Option.bind_some, unwind_cons, hleave, Option.bind_some]

theorem Shape.unwind_content (hi : i < frames.length) (j : Nat) (ns : List Node)
    (us : List Task) :
    (Shape.of frames j).unwind (.nodes ns :: .resume i :: us) =
      (Shape.of frames i).unwind us := by
  have hresume : (Shape.of frames j).after (.resume i) = some (Shape.of frames i) := by
    simp [Shape.of, Shape.after, hi]
  rw [unwind_cons, after_of_not_moves rfl, Option.bind_some, unwind_cons, hresume,
    Option.bind_some]

/-- Names do not change what a frame was called for. -/
theorem exists_of_modify {g : Frame → Frame} {j : Nat} {a : Activation}
    (h : (frames.modify i fun a => { a with frame := g a.frame })[j]? = some a) :
    ∃ b, frames[j]? = some b ∧ b.caller = a.caller ∧ b.content = a.content := by
  rw [List.getElem?_modify] at h
  obtain ⟨b, hb, rfl⟩ := Option.map_eq_some_iff.mp h
  refine ⟨b, hb, ?_⟩
  by_cases hj : i = j <;> simp [hj]

namespace Formed

/-- The frame of the page alone. -/
theorem single (limit : Nat) (f : Frame) : Formed limit [⟨f, none, 0⟩] 0 where
  current := Nat.zero_lt_one
  callers i a ha hi := absurd (List.getElem?_eq_some_iff.mp ha).1 (Nat.not_lt_of_le hi)
  page a ha := by
    cases ha
    exact ⟨rfl, rfl⟩
  depth := Nat.le_add_left ..

theorem modify (hf : Formed limit frames i) (g : Frame → Frame) :
    Formed limit (frames.modify i fun a => { a with frame := g a.frame }) i where
  current := by
    rw [List.length_modify]
    exact hf.current
  callers j a ha hj := by
    obtain ⟨b, hb, hcaller, -⟩ := exists_of_modify ha
    rw [← hcaller]
    exact hf.callers j b hb hj
  page a ha := by
    obtain ⟨b, hb, hcaller, hcontent⟩ := exists_of_modify ha
    rw [← hcaller, ← hcontent]
    exact hf.page b hb
  depth := by
    rw [List.length_modify]
    exact hf.depth

theorem goTo (hf : Formed limit frames i) {j : Nat} (hj : j < frames.length) :
    Formed limit frames j :=
  ⟨hj, hf.callers, hf.page, hf.depth⟩

theorem enter (hf : Formed limit frames i) (hd : frames.length ≤ limit) (f : Frame)
    (content : Option (List Node)) :
    Formed limit (frames ++ [⟨f, content, i⟩]) frames.length where
  current := by
    rw [List.length_append]
    exact Nat.lt_succ_self _
  callers j a ha hj := by
    rw [List.getElem?_append] at ha
    split at ha
    next => exact hf.callers j a ha hj
    -- the frame on top was called from the one that was current
    next hle =>
      rw [List.mem_singleton.mp (List.mem_of_getElem? ha)]
      exact Nat.lt_of_lt_of_le hf.current (Nat.le_of_not_lt hle)
  page a ha := by
    rw [List.getElem?_append_left (Nat.zero_lt_of_lt hf.current)] at ha
    exact hf.page a ha
  depth := by
    rw [List.length_append]
    exact Nat.succ_le_succ hd

theorem leave (hf : Formed limit frames i) {previous : Nat} (hp : previous < i)
    (hl : frames.length = i + 1) : Formed limit frames.dropLast previous where
  current := by
    rw [List.length_dropLast]
    omega
  callers j a ha hj := by
    rw [List.getElem?_dropLast] at ha
    split at ha
    · exact hf.callers j a ha hj
    · exact nomatch ha
  page a ha := by
    rw [List.getElem?_dropLast] at ha
    split at ha
    · exact hf.page a ha
    · exact nomatch ha
  depth := by
    have hd := hf.depth
    rw [List.length_dropLast]
    omega

/-- A call that has content has a caller on the stack. -/
theorem caller_lt (hf : Formed limit frames i) {a : Activation} {ns : List Node}
    (ha : frames[i]? = some a) (hc : a.content = some ns) : a.caller < frames.length := by
  rcases Nat.eq_zero_or_pos i with rfl | hpos
  · rw [(hf.page a ha).1] at hc
    exact nomatch hc
  · exact Nat.lt_trans (hf.callers i a ha hpos) hf.current

end Formed

end

/-- A part of the tasks has come to `ts`, and behind it stands `rest`. Once the part is done the
stack will have the shape `s`. -/
structure Machine.Owes (m : Machine) (ts rest : List Task) (s : Shape) : Prop where
  tasks : m.tasks = ts ++ rest
  unwinds : (Shape.of m.frames m.current).unwind ts = some s
  /-- A scope is opened at once. -/
  opened : ∀ t ∈ ts.tail, t.opens = false
  /-- Behind a failure no scope is opened. -/
  failed : m.failure.isSome → ∀ t ∈ ts, t.opens = false

/-- Where no scope is to be opened, a part owes what its tasks unwind to. -/
theorem Machine.Owes.of_unwind {m : Machine} {ts rest : List Task} {s : Shape}
    (ht : m.tasks = ts ++ rest) (hs : (Shape.of m.frames m.current).unwind ts = some s)
    (ho : ∀ t ∈ ts, t.opens = false) : m.Owes ts rest s :=
  ⟨ht, hs, fun t h => ho t (List.mem_of_mem_tail h), fun _ => ho⟩

namespace Page

variable {p : Page} {m : Machine} {t : Task} {us rest : List Task} {s : Shape}

theorem step_eq (h : m.tasks = t :: us) :
    p.step m =
      if m.failure.isSome && !t.restores then { m with tasks := us }
      else p.perform { m with tasks := p.expand m.frame t ++ us } t := by
  rw [step, h]
  rfl

theorem length_inner_executeAll (f : Frame) (list : List Statement) :
    (p.executeAll f list).inner.length = f.inner.length :=
  (Accounts.grows_executeAll f list).inner.length_eq.symm

/-- A task that only leads to others owes what was owed. -/
theorem owes_lead (hf : Formed p.options.maxDepth m.frames m.current) (hn : m.failure = none)
    (hs : (Shape.of m.frames m.current).unwind us = some s) (hu : ∀ u ∈ us, u.opens = false) :
    ({ m with tasks := p.expand m.frame t ++ (us ++ rest) } : Machine).Owes
      (p.expand m.frame t ++ us) rest s where
  tasks := (List.append_assoc ..).symm
  unwinds := by
    have hlen : m.current < (m.frames.map Activation.outline).length := by
      rw [List.length_map]
      exact hf.current
    rw [Shape.unwind_append]
    show ((Shape.of m.frames m.current).unwind (p.expand m.frame t)).bind _ = some s
    rw [unwind_expand t hlen]
    exact hs
  opened u hmem := by
    cases he : p.expand m.frame t with
    | nil =>
      rw [he] at hmem
      exact hu u (List.mem_of_mem_tail hmem)
    | cons v vs =>
      rw [he, List.cons_append, List.tail_cons, List.mem_append] at hmem
      rcases hmem with hmem | hmem
      · exact not_opens_of_mem_tail_expand (by rw [he]; exact hmem)
      · exact hu u hmem
  failed h := by
    rw [show m.failure = none from hn] at h
    exact nomatch h

/-- What one step does to a part of the tasks. -/
theorem owes_step (hf : Formed p.options.maxDepth m.frames m.current)
    (ho : m.Owes (t :: us) rest s) :
    Formed p.options.maxDepth (p.step m).frames (p.step m).current ∧
      ∃ ts, (p.step m).Owes ts rest s := by
  have hu : ∀ u ∈ us, u.opens = false := ho.opened
  have hunwinds := ho.unwinds
  rw [Shape.unwind_cons] at hunwinds
  obtain ⟨s₁, hafter, hs⟩ := Option.bind_eq_some_iff.mp hunwinds
  rw [step_eq ho.tasks]
  split
  -- behind a failure a task that brings nothing back is passed over
  next hfail =>
    rw [Bool.and_eq_true_iff, Bool.not_eq_true'] at hfail
    have hopens := ho.failed hfail.1 t List.mem_cons_self
    rw [Shape.after_of_not_moves (Task.not_moves hopens hfail.2)] at hafter
    cases hafter
    exact ⟨hf, us, .of_unwind rfl hs hu⟩
  next hgo =>
    cases t with
    | pushScope scope =>
      cases hafter
      refine ⟨hf.modify _, us, .of_unwind rfl ?_ hu⟩
      have hshape := Shape.of_modify m.frames m.current (g := Frame.push scope) (h := (· + 1))
        fun _ => rfl
      exact hshape ▸ hs
    | popScope =>
      rw [Shape.after] at hafter
      split at hafter
      · cases hafter
        refine ⟨hf.modify _, us, .of_unwind rfl ?_ hu⟩
        have hshape := Shape.of_modify m.frames m.current (g := Frame.pop) (h := (· - 1))
          fun _ => List.length_tail
        exact hshape ▸ hs
      · exact nomatch hafter
    | leave previous =>
      rw [Shape.after] at hafter
      split at hafter
      next h =>
        cases hafter
        have hl : m.frames.length = m.current + 1 := by
          have hl := h.2
          rwa [Shape.of, List.length_map] at hl
        refine ⟨hf.leave h.1 hl, us, .of_unwind rfl ?_ hu⟩
        show (Shape.of m.frames.dropLast previous).unwind us = some s
        rw [Shape.of, List.map_dropLast]
        exact hs
      next => exact nomatch hafter
    | resume previous =>
      rw [Shape.after] at hafter
      split at hafter
      next h =>
        cases hafter
        rw [Shape.of, List.length_map] at h
        exact ⟨hf.goTo h, us, .of_unwind rfl hs hu⟩
      next => exact nomatch hafter
    | emit fs =>
      cases hafter
      exact ⟨hf, us, .of_unwind rfl hs hu⟩
    | execute list =>
      cases hafter
      refine ⟨hf.modify fun f => p.executeAll f list, us, .of_unwind rfl ?_ hu⟩
      have hshape := Shape.of_modify m.frames m.current (g := fun f => p.executeAll f list)
        (h := id) fun f => length_inner_executeAll f list
      rw [Shape.mapTurns_id] at hshape
      exact hshape ▸ hs
    | enter loc mixin f content =>
      cases hafter
      rw [perform]
      split
      next => exact ⟨hf, us, .of_unwind rfl hs hu⟩
      -- the new frame is owed back behind the body of the mixin
      next hd =>
        refine ⟨hf.enter (Nat.le_of_not_lt hd) f content,
          .nodes mixin.body :: .leave m.current :: us, .of_unwind rfl ?_ ?_⟩
        · exact (Shape.unwind_call hf.current _ mixin.body us).trans hs
        · simpa [Task.opens] using hu
    | slot =>
      cases hafter
      rw [perform]
      split
      next => exact ⟨hf, us, .of_unwind rfl hs hu⟩
      -- no frame is taken away: the caller is current for the content, and then the call again
      next caller ns h =>
        obtain ⟨a, ha, hc⟩ := Option.bind_eq_some_iff.mp h
        obtain ⟨ns', hc, he⟩ := Option.map_eq_some_iff.mp hc
        cases he
        refine ⟨hf.goTo (hf.caller_lt ha hc), .nodes ns :: .resume m.current :: us,
          .of_unwind rfl ?_ ?_⟩
        · exact (Shape.unwind_content hf.current a.caller ns us).trans hs
        · simpa [Task.opens] using hu
    | fail e =>
      cases hafter
      exact ⟨hf, us, .of_unwind rfl hs hu⟩
    -- these only lead to others, so they are done as long as nothing has failed
    | node | nodes | segments | otherwise | turns | again =>
      cases hafter
      have hn : m.failure = none := by simpa [Task.restores] using hgo
      exact ⟨hf, _, owes_lead hf hn hs hu⟩

/-- A step only adds to the page. -/
theorem exists_out_step (m : Machine) : ∃ fs, (p.step m).out = m.out ++ fs := by
  cases h : m.tasks with
  | nil =>
    rw [step, h]
    exact ⟨#[], by simp⟩
  | cons t us =>
    rw [step_eq h]
    split
    · exact ⟨#[], by simp⟩
    · cases t with
      | emit fs => exact ⟨fs.toArray, rfl⟩
      | enter loc mixin f content =>
        rw [perform]
        split <;> exact ⟨#[], by simp⟩
      | slot =>
        rw [perform]
        split <;> exact ⟨#[], by simp⟩
      | _ => exact ⟨#[], by simp [perform, Machine.mapFrame]⟩

theorem exists_out_run (m : Machine) (k : Nat) : ∃ fs, (p.step^[k] m).out = m.out ++ fs := by
  induction k with
  | zero => exact ⟨#[], by simp⟩
  | succ k ih =>
    obtain ⟨fs, hfs⟩ := ih
    obtain ⟨gs, hgs⟩ := p.exists_out_step (p.step^[k] m)
    refine ⟨fs ++ gs, ?_⟩
    rw [Function.iterate_succ_apply', hgs, hfs, Array.append_assoc]

/-- What a part of the tasks owes it still owes after any number of steps, unless it is done. -/
theorem owes_run (hf : Formed p.options.maxDepth m.frames m.current) {ts : List Task}
    (ho : m.Owes ts rest s) {k : Nat}
    (hk : ∀ j < k, rest.length < (p.step^[j] m).tasks.length) :
    Formed p.options.maxDepth (p.step^[k] m).frames (p.step^[k] m).current ∧
      ∃ ts, (p.step^[k] m).Owes ts rest s := by
  induction k with
  | zero => exact ⟨hf, ts, ho⟩
  | succ k ih =>
    obtain ⟨hf', ts', ho'⟩ := ih fun j hj => hk j (Nat.lt_succ_of_lt hj)
    rw [Function.iterate_succ_apply']
    cases ts' with
    | nil =>
      have hlt := hk k (Nat.lt_succ_self k)
      rw [ho'.tasks] at hlt
      exact absurd hlt (Nat.lt_irrefl _)
    | cons t us => exact owes_step hf' ho'

/-- A machine does its first task, with all that this leads to, and comes to another machine: the
first one that has only the tasks behind left. -/
def Returns (p : Page) (m m' : Machine) : Prop :=
  ∃ k, p.step^[k] m = m' ∧ m'.tasks = m.tasks.tail ∧
    ∀ j < k, m.tasks.tail.length < (p.step^[j] m).tasks.length

end Page

/-- What a machine has given back when another one has come of it. -/
structure Machine.GivesBack (m m' : Machine) : Prop where
  current : m'.current = m.current
  scopes : (m'.frames.map fun a => a.frame.scopes.length) =
    m.frames.map fun a => a.frame.scopes.length
  callers : m'.frames.map Activation.caller = m.frames.map Activation.caller
  out : ∃ text, joinFragments m'.out = joinFragments m.out ++ text

/-- The frames of a machine are in order. -/
structure Machine.InOrder (limit : Nat) (m : Machine) : Prop extends
    Formed limit m.frames m.current where
  lasting : ∀ a ∈ m.frames, 1 ≤ a.frame.scopes.length
  /-- The scope that is closed is never the last one of its frame. -/
  closed : ∀ rest, m.tasks = .popScope :: rest → 2 ≤ m.frame.scopes.length
  /-- The frame that is taken away is the current one. -/
  left : ∀ previous rest, m.tasks = .leave previous :: rest → m.frames.length = m.current + 1

theorem joinFragments_append (fs gs : Array Fragment) :
    joinFragments (fs ++ gs) = joinFragments fs ++ joinFragments gs := by
  apply String.toList_inj.mp
  rw [String.toList_append, toList_joinFragments, toList_joinFragments, toList_joinFragments,
    Array.toList_append, List.flatMap_append]

namespace Page

variable {p : Page} {m : Machine} {t : Task} {us rest : List Task} {s : Shape}

theorem owes_first (ht : m.tasks = t :: rest) (hm : t.moves = false) :
    m.Owes [t] rest (Shape.of m.frames m.current) :=
  .of_unwind ht (Shape.unwind_of_not_moves (List.forall_mem_singleton.mpr hm))
    (List.forall_mem_singleton.mpr (Task.not_opens_of_not_moves hm))

theorem Returns.givesBack (hf : Formed p.options.maxDepth m.frames m.current)
    (ht : m.tasks = t :: rest) (hm : t.moves = false) {m' : Machine} (h : p.Returns m m') :
    m.GivesBack m' := by
  obtain ⟨k, rfl, hk, hlt⟩ := h
  rw [ht, List.tail_cons] at hk hlt
  obtain ⟨-, ts, ho⟩ := owes_run hf (owes_first ht hm) hlt
  have hnil : ts = [] := by
    have htasks := ho.tasks
    rw [hk] at htasks
    exact List.append_left_eq_self.mp htasks.symm
  subst hnil
  have hshape : Shape.of (p.step^[k] m).frames (p.step^[k] m).current =
      Shape.of m.frames m.current := Option.some.inj ho.unwinds
  have houtlines : (p.step^[k] m).frames.map Activation.outline =
      m.frames.map Activation.outline := congrArg Shape.outlines hshape
  obtain ⟨fs, hfs⟩ := p.exists_out_run m k
  refine ⟨congrArg Shape.current hshape, ?_, ?_, joinFragments fs, ?_⟩
  · have h := congrArg (List.map fun o => o.turns + 1) houtlines
    simpa [Function.comp_def, Activation.outline, Frame.scopes] using h
  · have h := congrArg (List.map Outline.caller) houtlines
    simpa [Function.comp_def, Activation.outline] using h
  · rw [hfs, joinFragments_append]

/-- Where the tasks grow fewer at some time, the first of them is done before. -/
theorem exists_returns (hf : Formed p.options.maxDepth m.frames m.current)
    (ht : m.tasks = t :: rest) (hm : t.moves = false)
    (h : ∃ k, (p.step^[k] m).tasks.length ≤ rest.length) : ∃ m', p.Returns m m' := by
  have hbefore : ∀ j < Nat.find h, rest.length < (p.step^[j] m).tasks.length :=
    fun j hj => Nat.lt_of_not_le (Nat.find_min h hj)
  obtain ⟨-, ts, ho⟩ := owes_run hf (owes_first ht hm) hbefore
  have hle := Nat.find_spec h
  rw [ho.tasks, List.length_append] at hle
  have hnil : ts = [] := List.eq_nil_of_length_eq_zero (by omega)
  refine ⟨_, Nat.find h, rfl, ?_, ?_⟩
  · rw [ho.tasks, hnil, ht]
    rfl
  · rw [ht]
    exact hbefore

/-! ## From the start of a page -/

/-- At every moment of a page the stack is one, and the tasks left bring it back to the page. -/
theorem owes_page (p : Page) (nodes : List Node) (k : Nat) :
    Formed p.options.maxDepth (p.step^[k] (start nodes)).frames (p.step^[k] (start nodes)).current ∧
      ∃ ts, (p.step^[k] (start nodes)).Owes ts [] ⟨[⟨0, 0⟩], 0⟩ := by
  induction k with
  | zero => exact ⟨.single _ _, [.nodes nodes], owes_first rfl rfl⟩
  | succ k ih =>
    obtain ⟨hf, ts, ho⟩ := ih
    rw [Function.iterate_succ_apply']
    cases ts with
    -- a machine without tasks stays as it is
    | nil =>
      have hstay : p.step (p.step^[k] (start nodes)) = p.step^[k] (start nodes) := by
        rw [step, ho.tasks]
        rfl
      rw [hstay]
      exact ⟨hf, [], ho⟩
    | cons t us => exact owes_step hf ho

/-- The first of the tasks that are owed has something to bring back. -/
theorem exists_after (ho : m.Owes (t :: us) rest s) :
    ∃ s', (Shape.of m.frames m.current).after t = some s' := by
  have hunwinds := ho.unwinds
  rw [Shape.unwind_cons] at hunwinds
  obtain ⟨s', hafter, -⟩ := Option.bind_eq_some_iff.mp hunwinds
  exact ⟨s', hafter⟩

theorem inOrder_of_owes {ts : List Task} (hf : Formed p.options.maxDepth m.frames m.current)
    (ho : m.Owes ts [] s) : m.InOrder p.options.maxDepth where
  toFormed := hf
  lasting a _ := by simp [Frame.scopes]
  closed rest h := by
    have htasks := ho.tasks
    rw [h, List.append_nil] at htasks
    subst htasks
    obtain ⟨s', hafter⟩ := exists_after ho
    rw [Shape.after] at hafter
    split at hafter
    next hopen =>
      obtain ⟨o, hget, hturns⟩ := (Option.any_eq_true _ _).mp hopen
      rw [Shape.of, List.getElem?_map] at hget
      obtain ⟨a, ha, rfl⟩ := Option.map_eq_some_iff.mp hget
      have hinner : 0 < a.frame.inner.length := of_decide_eq_true hturns
      rw [Machine.frame, ha]
      simp only [Option.map_some, Option.getD_some, Frame.scopes, List.length_append,
        List.length_singleton]
      omega
    next => cases hafter
  left previous rest h := by
    have htasks := ho.tasks
    rw [h, List.append_nil] at htasks
    subst htasks
    obtain ⟨s', hafter⟩ := exists_after ho
    rw [Shape.after] at hafter
    split at hafter
    next hlast =>
      have hl := hlast.2
      rwa [Shape.of, List.length_map] at hl
    next => cases hafter

/-- Where the page comes to an end, each of its tasks is done at some time. -/
theorem exists_returns_of_halt {nodes : List Node} {halt k : Nat}
    (hhalt : (p.step^[halt] (start nodes)).tasks = [])
    (ht : (p.step^[k] (start nodes)).tasks = t :: rest) (hm : t.moves = false) :
    ∃ m', p.Returns (p.step^[k] (start nodes)) m' := by
  refine exists_returns (owes_page p nodes k).1 ht hm ⟨halt, ?_⟩
  have hstay : p.step (p.step^[halt] (start nodes)) = p.step^[halt] (start nodes) := by
    rw [step, hhalt]
  rw [← Function.iterate_add_apply, Nat.add_comm, Function.iterate_add_apply,
    Function.iterate_fixed hstay, hhalt]
  exact Nat.zero_le _

/-- With a limit for loops, the machine comes to an end, and with what rendering gives. -/
theorem exists_result (l : Linked) (data : Value) {options : Options}
    (filters : Dictionary Filter) {limit : Nat} (hlimit : options.maxIterations = some limit) :
    ∃ k, ((l.page data options filters).step^[k] (start l.nodes)).tasks = [] ∧
      ((l.page data options filters).step^[k] (start l.nodes)).result =
        render l data options filters := by
  have hsim := Simulates.renderNodes (p := l.page data options filters) ⟨limit, hlimit⟩
    options.maxDepth 0 l.nodes
  obtain ⟨frames, -, -, -, k, hk⟩ := hsim [⟨{}, none, 0⟩] 0 [] (.page {}) #[] [] (.page rfl)
    (Nat.add_comm ..)
  refine ⟨k, congrArg Machine.tasks hk, (congrArg Machine.result hk).trans ?_⟩
  rw [Machine.result, render, renderFragments_eq]
  cases (l.page data options filters).renderNodes options.maxDepth 0 l.nodes ⟨.page {}, #[]⟩ with
  | ok _ s => rfl
  | error e s => rfl

end Page

/-! ## The chain of a session -/

/-- How many scopes the frames of a chain have, each. -/
def Chain.scopeCounts : {n : Nat} → Chain n → List Nat
  | _, page f => [f.scopes.length]
  | _, call f _ caller => f.scopes.length :: caller.scopeCounts

theorem Chain.Grows.scopeCounts_eq {n : Nat} {c d : Chain n} (h : c.Grows d) :
    d.scopeCounts = c.scopeCounts := by
  have hframe : ∀ {f g : Frame}, f.Grows g → g.scopes.length = f.scopes.length := by
    intro f g hg
    simp [Frame.scopes, hg.inner.length_eq]
  induction c with
  | page f =>
    cases d
    simp only [scopeCounts, hframe h]
  | call f content caller ih =>
    cases d
    simp only [scopeCounts, hframe h.1, ih h.2.2]

/-- Nodes leave a session with the scopes it had, and only add to the text. -/
theorem Page.scopeCounts_renderNodes (p : Page) (left n : Nat) (ns : List Node) (s : Session n) :
    (Action.session (p.renderNodes left n ns s)).chain.scopeCounts = s.chain.scopeCounts ∧
      ∃ text, joinFragments (Action.session (p.renderNodes left n ns s)).out =
        joinFragments s.out ++ text := by
  have hacc := Accounts.renderNodes (p := p) (N := fun _ => True) (fun _ _ _ _ => trivial) left n ns
    (fun _ _ => trivial) s s.chain.within_true
  have hgo : Session.Continues p (fun _ => True) s
      (Action.session (p.renderNodes left n ns s)) := by
    cases hr : p.renderNodes left n ns s with
    | ok _ t =>
      rw [hr] at hacc
      exact hacc
    | error e t =>
      rw [hr] at hacc
      exact hacc.1
  obtain ⟨fs, hfs, -⟩ := hgo.out
  exact ⟨hgo.chain.scopeCounts_eq, _, by rw [hfs, joinFragments_append]⟩

/-! ## The page -/

/-- At every moment of a page the frames are a stack in order. When a node is done, also by a
failure, the stack is as it was before and text was added. With a limit for loops, each node that is
begun is done at some time, and the machine ends with what rendering gives. -/
theorem stack_in_order (l : Linked) (data : Value) (options : Options)
    (filters : Dictionary Filter) :
    (∀ k m, (l.page data options filters).step^[k] (Page.start l.nodes) = m →
      m.InOrder options.maxDepth ∧
        ∀ n rest, m.tasks = .node n :: rest →
          (∀ m', (l.page data options filters).Returns m m' → m.GivesBack m') ∧
            (options.maxIterations.isSome → ∃ m', (l.page data options filters).Returns m m')) ∧
    (options.maxIterations.isSome → ∃ k,
      ((l.page data options filters).step^[k] (Page.start l.nodes)).tasks = [] ∧
        ((l.page data options filters).step^[k] (Page.start l.nodes)).result =
          render l data options filters) ∧
    ∀ left n ns (s t : Session n),
      Action.session ((l.page data options filters).renderNodes left n ns s) = t →
        t.chain.scopeCounts = s.chain.scopeCounts ∧
          ∃ text, joinFragments t.out = joinFragments s.out ++ text := by
  refine ⟨?_, ?_, ?_⟩
  · rintro k m rfl
    obtain ⟨hf, ts, ho⟩ := (l.page data options filters).owes_page l.nodes k
    refine ⟨Page.inOrder_of_owes hf ho, fun n rest ht => ⟨fun m' => ?_, fun hsome => ?_⟩⟩
    · exact Page.Returns.givesBack hf ht rfl
    · obtain ⟨limit, hlimit⟩ := Option.isSome_iff_exists.mp hsome
      obtain ⟨halt, hhalt, -⟩ := Page.exists_result l data filters hlimit
      exact Page.exists_returns_of_halt hhalt ht rfl
  · intro hsome
    obtain ⟨limit, hlimit⟩ := Option.isSome_iff_exists.mp hsome
    exact Page.exists_result l data filters hlimit
  · rintro left n ns s t rfl
    exact Page.scopeCounts_renderNodes _ left n ns s

/-- A loop over names, which shows each of them through a mixin that shows its content. -/
def wrappedNames : Linked :=
  ⟨[.each ⟨1, 1⟩ "x" none (.name "xs")
      [.call ⟨2, 3⟩ (.fixed "w") [] {} (some [.output ⟨3, 5⟩ (.name "x") true])] none],
    [("w", ⟨[], [.slot ⟨5, 3⟩]⟩)]⟩

def wrappedNamesPage : Page :=
  wrappedNames.page (.map [("xs", .array [.string "a", .string "b"])]) {} []

/-- After eight steps the content of the first call is asked for, with the scope of the loop and the
frame of the call open. The node is done at some time, and both are still open then. -/
theorem stack_in_order_wrappedNames :
    ∃ m rest, wrappedNamesPage.step^[8] (Page.start wrappedNames.nodes) = m ∧
      m.tasks = .node (.slot ⟨5, 3⟩) :: rest ∧
      (m.frames.map fun a => a.frame.scopes.length) = [2, 1] ∧ m.InOrder 256 ∧
      ∃ m', wrappedNamesPage.Returns m m' ∧ m.GivesBack m' := by
  have ht : (wrappedNamesPage.step^[8] (Page.start wrappedNames.nodes)).tasks =
      .node (.slot ⟨5, 3⟩) :: _ := rfl
  obtain ⟨horder, hdone⟩ := (stack_in_order wrappedNames
    (.map [("xs", .array [.string "a", .string "b"])]) {} []).1 8 _ rfl
  obtain ⟨hback, hreturns⟩ := hdone _ _ ht
  obtain ⟨m', hm'⟩ := hreturns rfl
  exact ⟨_, _, rfl, ht, rfl, horder, m', hm', hback m' hm'⟩

end PugTemplate
