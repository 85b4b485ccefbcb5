import PugTemplate.Proofs.Render.Balance

/-!
# Names of loops

Each turn of a loop has a scope of its own in the frame it runs in, and that scope is gone when the
turn is over, also by a failure. What the loop leaves in the scopes that were there before comes
from statements that assign. The branch for a loop with nothing to run over has no scope of its own,
so what it declares stays.
-/

namespace PugTemplate

/-! ## Scopes before and after -/

/-- The scopes of a frame before and after, the innermost first. Only the last one gains names that
are assigned, and only the first one names that are declared. Other names keep their values. -/
structure KeepsScopes (assigned declared : String → Prop) (ds es : List (Dictionary Value)) :
    Prop where
  length : es.length = ds.length
  names : ∀ n d e, ds[n]? = some d → es[n]? = some e →
    ∃ more, Dictionary.keys e = Dictionary.keys d ++ more ∧
      ∀ name ∈ more, (n + 1 = ds.length ∧ assigned name) ∨ (n = 0 ∧ declared name)
  values : ∀ n d e, ds[n]? = some d → es[n]? = some e → ∀ name,
    ¬ assigned name → ¬ (n = 0 ∧ declared name) →
      Dictionary.find? name e = Dictionary.find? name d

namespace KeepsScopes

variable {A D A' D' : String → Prop} {ds es gs : List (Dictionary Value)}

theorem refl (A D : String → Prop) (ds : List (Dictionary Value)) : KeepsScopes A D ds ds where
  length := rfl
  names n d e hd he := by
    cases hd.symm.trans he
    exact ⟨[], (List.append_nil _).symm, fun _ h => nomatch h⟩
  values n d e hd he := by
    cases hd.symm.trans he
    exact fun _ _ _ => rfl

theorem mono (h : KeepsScopes A D ds es) (hA : ∀ name, A name → A' name)
    (hD : ∀ name, D name → D' name) : KeepsScopes A' D' ds es where
  length := h.length
  names n d e hd he := by
    obtain ⟨more, hkeys, hmore⟩ := h.names n d e hd he
    refine ⟨more, hkeys, fun name hname => ?_⟩
    exact (hmore name hname).imp (And.imp_right (hA name)) (And.imp_right (hD name))
  values n d e hd he name ha hd' := h.values n d e hd he name (fun hn => ha (hA name hn))
    fun hn => hd' ⟨hn.1, hD name hn.2⟩

theorem trans (h : KeepsScopes A D ds es) (h' : KeepsScopes A D es gs) :
    KeepsScopes A D ds gs := by
  -- each scope is also there in between
  have hmiddle : ∀ {n : Nat} {d : Dictionary Value}, ds[n]? = some d → ∃ e, es[n]? = some e := by
    intro n d hd
    have hn := (List.getElem?_eq_some_iff.mp hd).1
    exact ⟨_, List.getElem?_eq_getElem (h.length.symm ▸ hn)⟩
  refine ⟨h'.length.trans h.length, fun n d g hd hg => ?_, fun n d g hd hg name ha hdecl => ?_⟩
  · obtain ⟨e, he⟩ := hmiddle hd
    obtain ⟨more, hkeys, hmore⟩ := h.names n d e hd he
    obtain ⟨more', hkeys', hmore'⟩ := h'.names n e g he hg
    refine ⟨more ++ more', by rw [hkeys', hkeys, List.append_assoc], fun name hname => ?_⟩
    rcases List.mem_append.mp hname with hname | hname
    · exact hmore name hname
    · rw [← h.length]
      exact hmore' name hname
  · obtain ⟨e, he⟩ := hmiddle hd
    exact (h'.values n e g he hg name ha hdecl).trans (h.values n d e hd he name ha hdecl)

/-- A name is bound in one scope: by an assignment where it is bound already or in the last one, by
a declaration in the first one. -/
theorem modify {n : Nat} {name : String} (value : Value)
    (h : (n = 0 ∧ D name) ∨
      (A name ∧ (n + 1 = ds.length ∨ ∃ d, ds[n]? = some d ∧ Dictionary.has name d))) :
    KeepsScopes A D ds (ds.modify n (Dictionary.put name value)) := by
  have hother : ∀ {j : Nat} {d e : Dictionary Value}, ds[j]? = some d →
      (ds.modify n (Dictionary.put name value))[j]? = some e →
        (n = j ∧ e = Dictionary.put name value d) ∨ e = d := by
    intro j d e hd he
    by_cases hj : n = j
    · subst hj
      rw [List.getElem?_modify_eq, hd] at he
      exact Or.inl ⟨rfl, (Option.some.inj he).symm⟩
    · rw [List.getElem?_modify_ne _ _ hj, hd] at he
      exact Or.inr (Option.some.inj he).symm
  refine ⟨List.length_modify .., fun j d e hd he => ?_, fun j d e hd he other ha hdecl => ?_⟩
  · rcases hother hd he with ⟨rfl, rfl⟩ | rfl
    · by_cases hbound : name ∈ Dictionary.keys d
      · refine ⟨[], ?_, fun _ h => nomatch h⟩
        rw [Dictionary.keys_put, if_pos hbound, List.append_nil]
      · refine ⟨[name], by rw [Dictionary.keys_put, if_neg hbound], fun other hmem => ?_⟩
        rw [List.mem_singleton.mp hmem]
        rcases h with h | ⟨hname, hlast | ⟨d', hd', hhas⟩⟩
        · exact Or.inr h
        · exact Or.inl ⟨hlast, hname⟩
        -- an assignment further in finds the name bound already
        · cases hd.symm.trans hd'
          exact absurd ((Dictionary.find?_isSome_iff name d).mp hhas) hbound
    · exact ⟨[], (List.append_nil _).symm, fun _ h => nomatch h⟩
  · rcases hother hd he with ⟨rfl, rfl⟩ | rfl
    · have hne : name ≠ other := by
        rintro rfl
        exact h.elim hdecl fun h => ha h.1
      rw [Dictionary.find?_put, if_neg hne]
    · rfl

end KeepsScopes

/-! ## Statements in a frame -/

namespace Frame

theorem scopes_declare (name : String) (value : Value) (f : Frame) :
    (f.declare name value).scopes = f.scopes.modify 0 (Dictionary.put name value) := by
  rw [declare, scopes, scopes]
  split
  next h => simp [h]
  next d ds h => simp [h]

theorem exists_modify_of_replaceIn {name : String} {value : Value}
    {ds es : List (Dictionary Value)} (h : replaceIn name value ds = some es) :
    ∃ n d, ds[n]? = some d ∧ Dictionary.has name d ∧
      es = ds.modify n (Dictionary.put name value) := by
  induction ds generalizing es with
  | nil => exact nomatch h
  | cons d ds ih =>
    rw [replaceIn] at h
    split at h
    next hhas =>
      cases h
      exact ⟨0, d, rfl, hhas, rfl⟩
    next =>
      obtain ⟨rest, hr, rfl⟩ := Option.map_eq_some_iff.mp h
      obtain ⟨n, d', hd', hhas, rfl⟩ := ih hr
      exact ⟨n + 1, d', hd', hhas, rfl⟩

theorem modify_append_left {α : Type} {ds : List α} {n : Nat} (hn : n < ds.length) (g : α → α)
    (es : List α) : (ds ++ es).modify n g = ds.modify n g ++ es := by
  apply List.ext_getElem?
  intro j
  by_cases hj : j < ds.length
  · rw [List.getElem?_append_left (by rwa [List.length_modify]), List.getElem?_modify,
      List.getElem?_modify, List.getElem?_append_left hj]
  · have hle : ds.length ≤ j := Nat.le_of_not_lt hj
    rw [List.getElem?_modify_ne _ _ (by omega), List.getElem?_append_right hle,
      List.getElem?_append_right (by rwa [List.length_modify]), List.length_modify]

/-- An assignment goes to a scope that has the name, or to the one that lasts. -/
theorem exists_scopes_assign (name : String) (value : Value) (f : Frame) :
    ∃ n, (f.assign name value).scopes = f.scopes.modify n (Dictionary.put name value) ∧
      (n + 1 = f.scopes.length ∨ ∃ d, f.scopes[n]? = some d ∧ Dictionary.has name d) := by
  rw [assign]
  split
  next inner h =>
    obtain ⟨n, d, hd, hhas, rfl⟩ := exists_modify_of_replaceIn h
    have hn := (List.getElem?_eq_some_iff.mp hd).1
    refine ⟨n, (modify_append_left hn _ _).symm, Or.inr ⟨d, ?_, hhas⟩⟩
    rw [scopes, List.getElem?_append_left hn, hd]
  next h =>
    refine ⟨f.inner.length, ?_, Or.inl ?_⟩
    · rw [scopes, scopes, List.modify_eq_take_drop]
      simp
    · rw [scopes, List.length_append, List.length_singleton]

/-- The scopes of a frame that were there when it had so many. -/
def oldest (count : Nat) (f : Frame) : List (Dictionary Value) :=
  f.scopes.drop (f.scopes.length - count)

theorem oldest_of_length {count : Nat} {f : Frame} (h : f.scopes.length = count) :
    f.oldest count = f.scopes := by
  rw [oldest, h, Nat.sub_self, List.drop_zero]

theorem oldest_push {count : Nat} {f : Frame} (h : count ≤ f.scopes.length)
    (scope : Dictionary Value) : (f.push scope).oldest count = f.oldest count := by
  have hscopes : (f.push scope).scopes = scope :: f.scopes := rfl
  rw [oldest, oldest, hscopes, List.length_cons, Nat.succ_sub h, List.drop_succ_cons]

theorem oldest_pop {count : Nat} {f : Frame} (hf : f.inner ≠ []) (h : count < f.scopes.length) :
    f.pop.oldest count = f.oldest count := by
  obtain ⟨d, ds, hd⟩ := List.exists_cons_of_ne_nil hf
  have hf' : f = f.pop.push d := by
    obtain ⟨base, inner⟩ := f
    cases hd
    rfl
  rw [hf'] at h ⊢
  exact (oldest_push (Nat.le_of_lt_succ h) d).symm

/-- A name that is bound in one scope is bound in that one of the oldest scopes, or in none of
them. -/
theorem keepsScopes_oldest_modify {A D : String → Prop} {count n : Nat} {name : String}
    {f g : Frame} (hcount : count ≤ f.scopes.length) (value : Value)
    (hg : g.scopes = f.scopes.modify n (Dictionary.put name value))
    (h : (n = 0 ∧ (f.scopes.length = count → D name)) ∨
      (A name ∧ (n + 1 = f.scopes.length ∨
        ∃ d, f.scopes[n]? = some d ∧ Dictionary.has name d))) :
    KeepsScopes A D (f.oldest count) (g.oldest count) := by
  rw [oldest, oldest, hg, List.length_modify]
  rcases Nat.lt_or_ge n (f.scopes.length - count) with hlt | hge
  -- a scope that was opened later
  · rw [List.drop_modify_of_lt _ _ _ _ hlt]
    exact .refl _ _ _
  · rw [List.drop_modify_of_ge _ _ _ _ hge]
    refine .modify value ?_
    rcases h with ⟨rfl, hD⟩ | ⟨hA, hlast | ⟨d, hd, hhas⟩⟩
    -- the innermost scope of all is one of the oldest only if there are no others
    · exact Or.inl ⟨Nat.zero_sub _, hD (by omega)⟩
    · refine Or.inr ⟨hA, Or.inl ?_⟩
      rw [List.length_drop]
      omega
    · refine Or.inr ⟨hA, Or.inr ⟨d, ?_, hhas⟩⟩
      rw [List.getElem?_drop, ← hd]
      congr 1
      omega

end Frame

namespace Page

variable {p : Page} {A D : String → Prop} {count : Nat} {f : Frame}

/-- What one statement does to the oldest scopes: it declares in one of them only if there is none
further in. -/
theorem keepsScopes_execute (hcount : count ≤ f.scopes.length) (st : Statement)
    (hA : ∀ name op e, st = .assign name op e → A name)
    (hD : ∀ name e, st = .declare name e → f.scopes.length = count → D name) :
    KeepsScopes A D (f.oldest count) ((p.execute f st).oldest count) := by
  cases st with
  | declare name e =>
    exact Frame.keepsScopes_oldest_modify hcount _ (Frame.scopes_declare _ _ f)
      (Or.inl ⟨rfl, hD name e rfl⟩)
  | assign name op e =>
    obtain ⟨n, hscopes, hn⟩ := f.exists_scopes_assign name
      (op.apply (p.eval f (.name name)) (p.eval f e))
    exact Frame.keepsScopes_oldest_modify hcount _ hscopes (Or.inr ⟨hA name op e rfl, hn⟩)

theorem length_scopes_executeAll (f : Frame) (list : List Statement) :
    (p.executeAll f list).scopes.length = f.scopes.length := by
  rw [Frame.scopes, Frame.scopes, List.length_append, List.length_append,
    length_inner_executeAll, List.length_singleton, List.length_singleton]

theorem keepsScopes_executeAll (hcount : count ≤ f.scopes.length) (list : List Statement)
    (hA : ∀ name op e, .assign name op e ∈ list → A name)
    (hD : ∀ name e, .declare name e ∈ list → f.scopes.length = count → D name) :
    KeepsScopes A D (f.oldest count) ((p.executeAll f list).oldest count) := by
  induction list generalizing f with
  | nil => exact .refl _ _ _
  | cons st list ih =>
    have hlen : (p.execute f st).scopes.length = f.scopes.length :=
      length_scopes_executeAll f [st]
    have hfirst := keepsScopes_execute (p := p) hcount st
      (fun name op e h => hA name op e (h ▸ List.mem_cons_self))
      (fun name e h => hD name e (h ▸ List.mem_cons_self))
    refine hfirst.trans (ih (hlen ▸ hcount) (fun name op e h => ?_) fun name e h hl => ?_)
    · exact hA name op e (List.mem_cons_of_mem _ h)
    · exact hD name e (List.mem_cons_of_mem _ h) (hlen.symm.trans hl)

end Page

/-! ## What is still there when a part is done -/

namespace Shape

variable {s s' : Shape} {i : Nat} {o : Outline}

/-- A task that does not open a scope adds none to a frame, and adds no frame. -/
theorem exists_of_after {t : Task} (h : s.after t = some s') (ht : t.opens = false)
    (ho : s'.outlines[i]? = some o) : ∃ o', s.outlines[i]? = some o' ∧ o.turns ≤ o'.turns := by
  cases t with
  | pushScope => cases ht
  | popScope =>
    rw [after] at h
    split at h
    next =>
      cases h
      have hmod : (s.outlines.modify s.current fun o => { o with turns := o.turns - 1 })[i]? =
          some o := ho
      by_cases hi : s.current = i
      · subst hi
        rw [List.getElem?_modify_eq] at hmod
        obtain ⟨o', ho', rfl⟩ := Option.map_eq_some_iff.mp hmod
        exact ⟨o', ho', Nat.sub_le _ _⟩
      · rw [List.getElem?_modify_ne _ _ hi] at hmod
        exact ⟨o, hmod, Nat.le_refl _⟩
    next => cases h
  | leave previous =>
    rw [after] at h
    split at h
    next =>
      cases h
      rw [List.getElem?_dropLast] at ho
      split at ho
      · exact ⟨o, ho, Nat.le_refl _⟩
      · cases ho
    next => cases h
  | resume previous =>
    rw [after] at h
    split at h
    next =>
      cases h
      exact ⟨o, ho, Nat.le_refl _⟩
    next => cases h
  | _ =>
    cases h
    exact ⟨o, ho, Nat.le_refl _⟩

theorem exists_of_unwind {ts : List Task} (h : s.unwind ts = some s')
    (hts : ∀ t ∈ ts, t.opens = false) (ho : s'.outlines[i]? = some o) :
    ∃ o', s.outlines[i]? = some o' ∧ o.turns ≤ o'.turns := by
  induction ts generalizing s with
  | nil =>
    cases h
    exact ⟨o, ho, Nat.le_refl _⟩
  | cons t ts ih =>
    rw [List.forall_mem_cons] at hts
    rw [unwind_cons] at h
    obtain ⟨s₁, hafter, h⟩ := Option.bind_eq_some_iff.mp h
    obtain ⟨o₁, ho₁, hle⟩ := ih h hts.2
    obtain ⟨o', ho', hle'⟩ := exists_of_after hafter hts.1 ho₁
    exact ⟨o', ho', Nat.le_trans hle hle'⟩

end Shape

theorem Formed.exists_current {limit current : Nat} {frames : List Activation}
    (h : Formed limit frames current) : ∃ a, frames[current]? = some a :=
  ⟨_, List.getElem?_eq_getElem h.current⟩

/-! ## Statements on the machine -/

namespace Machine

/-- A machine is about to execute a statement in the frame at a place of the stack. -/
def Executes (m : Machine) (i : Nat) (st : Statement) : Prop :=
  m.failure = none ∧ m.current = i ∧ ∃ list rest, m.tasks = .execute list :: rest ∧ st ∈ list

def Assigns (m : Machine) (i : Nat) (name : String) : Prop :=
  ∃ op e, m.Executes i (.assign name op e)

/-- A machine is about to declare a name in the frame at a place, which has so many scopes. -/
def Declares (m : Machine) (i count : Nat) (name : String) : Prop :=
  (∃ e, m.Executes i (.declare name e)) ∧ m.frame.scopes.length = count

/-- The frame at a place of the stack. -/
def frameAt (m : Machine) (i : Nat) : Frame :=
  ((m.frames[i]?).map Activation.frame).getD {}

theorem frameAt_eq {m : Machine} {i : Nat} {a : Activation} (h : m.frames[i]? = some a) :
    m.frameAt i = a.frame := by
  rw [frameAt, h]
  rfl

theorem frame_eq {m : Machine} {a : Activation} (h : m.frames[m.current]? = some a) :
    m.frame = a.frame :=
  frameAt_eq h

end Machine

/-- Whether a task executes an assignment to a name. -/
def Task.assigns (name : String) : Task → Bool
  | .execute list => list.any fun
    | .assign other _ _ => other == name
    | .declare _ _ => false
  | _ => false

/-- A frame that had so many scopes still has them, at its place of the stack. -/
def KeptAt (assigned declared : String → Prop) (count i : Nat) (scopes : List (Dictionary Value))
    (frames : List Activation) : Prop :=
  ∃ a, frames[i]? = some a ∧ count ≤ a.frame.scopes.length ∧
    KeepsScopes assigned declared scopes (a.frame.oldest count)

namespace KeptAt

variable {A D : String → Prop} {count i j : Nat} {frames : List Activation} {a : Activation}

theorem refl (ha : frames[i]? = some a) (hcount : count ≤ a.frame.scopes.length) :
    KeptAt A D count i (a.frame.oldest count) frames :=
  ⟨a, ha, hcount, .refl _ _ _⟩

/-- A change of one frame counts where it is the one at the place. -/
theorem modify (ha : frames[i]? = some a) (hcount : count ≤ a.frame.scopes.length)
    {g : Frame → Frame}
    (hg : j = i → count ≤ (g a.frame).scopes.length ∧
      KeepsScopes A D (a.frame.oldest count) ((g a.frame).oldest count)) :
    KeptAt A D count i (a.frame.oldest count)
      (frames.modify j fun a => { a with frame := g a.frame }) := by
  by_cases hj : j = i
  · obtain ⟨hlen, hkeeps⟩ := hg hj
    exact ⟨{ a with frame := g a.frame }, by rw [hj, List.getElem?_modify_eq, ha]; rfl, hlen,
      hkeeps⟩
  · exact ⟨a, by rw [List.getElem?_modify_ne _ _ hj, ha], hcount, .refl _ _ _⟩

end KeptAt

namespace Page

variable {p : Page} {m : Machine} {t : Task} {us rest : List Task} {s : Shape} {i : Nat}
  {o : Outline} {a : Activation}

/-- The frame is still there behind the first task, with the scopes it has when the part is done. -/
theorem exists_behind (ho : m.Owes (t :: us) rest s) (hs : s.outlines[i]? = some o) :
    ∃ s' o', (Shape.of m.frames m.current).after t = some s' ∧ s'.outlines[i]? = some o' ∧
      o.turns ≤ o'.turns := by
  have hunwinds := ho.unwinds
  rw [Shape.unwind_cons] at hunwinds
  obtain ⟨s', hafter, hrest⟩ := Option.bind_eq_some_iff.mp hunwinds
  obtain ⟨o', ho', hle⟩ := Shape.exists_of_unwind hrest ho.opened hs
  exact ⟨s', o', hafter, ho', hle⟩

/-- A scope that is closed was opened after those that are there when the part is done. -/
theorem turns_lt_of_popScope (ho : m.Owes (.popScope :: us) rest s)
    (hs : s.outlines[m.current]? = some o) (ha : m.frames[m.current]? = some a) :
    o.turns < a.frame.inner.length := by
  obtain ⟨s', o', hafter, ho', hle⟩ := exists_behind ho hs
  have hget : (m.frames.map Activation.outline)[m.current]? = some a.outline := by
    rw [List.getElem?_map, ha]
    rfl
  rw [Shape.after] at hafter
  split at hafter
  next hopen =>
    cases hafter
    have hpos : 0 < a.frame.inner.length := by
      have hany : ((m.frames.map Activation.outline)[m.current]?).any (0 < ·.turns) = true := hopen
      rw [hget] at hany
      exact of_decide_eq_true hany
    have hturns : ((m.frames.map Activation.outline).modify m.current
        fun o => { o with turns := o.turns - 1 })[m.current]? = some o' := ho'
    rw [List.getElem?_modify_eq, hget] at hturns
    cases hturns
    exact Nat.lt_of_le_of_lt hle (Nat.sub_lt hpos Nat.one_pos)
  next => cases hafter

/-- The frame that is taken away is not one that is there when the part is done. -/
theorem getElem?_dropLast_of_leave {previous : Nat} (ho : m.Owes (.leave previous :: us) rest s)
    (hs : s.outlines[i]? = some o) : m.frames.dropLast[i]? = m.frames[i]? := by
  obtain ⟨s', o', hafter, ho', -⟩ := exists_behind ho hs
  rw [Shape.after] at hafter
  split at hafter
  next =>
    cases hafter
    have hi := (List.getElem?_eq_some_iff.mp ho').1
    rw [Shape.of, List.length_dropLast, List.length_map] at hi
    rw [List.getElem?_dropLast, if_pos hi]
  next => cases hafter

/-- What one step does to the oldest scopes of a frame that is there when the part is done. -/
theorem keptAt_step (ho : m.Owes (t :: us) rest s) (hs : s.outlines[i]? = some o)
    (ha : m.frames[i]? = some a) (hcount : o.turns + 1 ≤ a.frame.scopes.length) :
    KeptAt (m.Assigns i) (m.Declares i (o.turns + 1)) (o.turns + 1) i
      (a.frame.oldest (o.turns + 1)) (p.step m).frames := by
  have hstays : KeptAt (m.Assigns i) (m.Declares i (o.turns + 1)) (o.turns + 1) i
      (a.frame.oldest (o.turns + 1)) m.frames := .refl ha hcount
  rw [step_eq ho.tasks]
  split
  next => exact hstays
  next hgo =>
    cases t with
    | execute list =>
      have hn : m.failure = none := by simpa [Task.restores] using hgo
      have hexec : m.current = i → ∀ st ∈ list, m.Executes i st := fun hi st hst =>
        ⟨hn, hi, list, us ++ rest, ho.tasks, hst⟩
      refine KeptAt.modify (g := fun f => p.executeAll f list) ha hcount fun hi => ⟨?_, ?_⟩
      · rwa [length_scopes_executeAll]
      · subst hi
        refine keepsScopes_executeAll hcount list (fun name op e h => ⟨op, e, hexec rfl _ h⟩) ?_
        exact fun name e h hl =>
          ⟨⟨e, hexec rfl _ h⟩, (Machine.frame_eq ha).symm ▸ hl⟩
    | pushScope scope =>
      refine KeptAt.modify (g := Frame.push scope) ha hcount fun _ => ⟨Nat.le_succ_of_le hcount, ?_⟩
      rw [Frame.oldest_push hcount]
      exact .refl _ _ _
    | popScope =>
      refine KeptAt.modify (g := Frame.pop) ha hcount fun hi => ?_
      subst hi
      -- the scope that goes is the innermost, and not one of the oldest
      have hlt := turns_lt_of_popScope ho hs ha
      have hne : a.frame.inner ≠ [] := List.ne_nil_of_length_pos (Nat.zero_lt_of_lt hlt)
      have hlen : a.frame.scopes.length = a.frame.inner.length + 1 := by simp [Frame.scopes]
      have hpop : a.frame.pop.scopes.length = a.frame.inner.length - 1 + 1 := by
        simp [Frame.scopes, Frame.pop]
      rw [Frame.oldest_pop hne (by omega)]
      exact ⟨by omega, .refl _ _ _⟩
    | enter loc mixin f content =>
      rw [perform]
      split
      · exact hstays
      · have hi := (List.getElem?_eq_some_iff.mp ha).1
        exact ⟨a, by rw [List.getElem?_append_left hi, ha], hcount, .refl _ _ _⟩
    | leave previous =>
      exact ⟨a, (getElem?_dropLast_of_leave ho hs).trans ha, hcount, .refl _ _ _⟩
    | slot =>
      rw [perform]
      split <;> exact hstays
    | _ => exact hstays

/-! ## From the first task to its end -/

/-- A name is assigned in the current frame in one of so many steps. -/
def Assigned (p : Page) (m : Machine) (k : Nat) (name : String) : Prop :=
  ∃ j < k, (p.step^[j] m).Assigns m.current name

/-- A name is declared in the current frame in one of so many steps, while no scope is open that was
not before. -/
def Declared (p : Page) (m : Machine) (k : Nat) (name : String) : Prop :=
  ∃ j < k, (p.step^[j] m).Declares m.current m.frame.scopes.length name

theorem not_assigned {k : Nat} {name : String}
    (h : ∀ j < k, (p.step^[j] m).tasks.head?.any (Task.assigns name) = false) :
    ¬ p.Assigned m k name := by
  rintro ⟨j, hj, op, e, -, -, list, rest, ht, hmem⟩
  have hnone := h j hj
  rw [ht, List.head?_cons, Option.any_some, Task.assigns, List.any_eq_false] at hnone
  exact hnone _ hmem (beq_self_eq_true name)

theorem length_scopes_eq (ha : m.frames[m.current]? = some a) :
    m.frame.scopes.length = a.outline.turns + 1 := by
  rw [Machine.frame_eq ha, Frame.scopes, List.length_append, List.length_singleton]
  rfl

theorem outline_getElem? (ha : m.frames[i]? = some a) :
    (Shape.of m.frames m.current).outlines[i]? = some a.outline := by
  rw [Shape.of, List.getElem?_map, ha]
  rfl

/-- As long as the first task is not done, a step keeps what the current frame had before it. -/
theorem keptAt_next (hf : Formed p.options.maxDepth m.frames m.current) (ht : m.tasks = t :: rest)
    (hm : t.moves = false) {k : Nat} (hgo : ∀ j ≤ k, rest.length < (p.step^[j] m).tasks.length)
    {b : Activation} (hb : (p.step^[k] m).frames[m.current]? = some b)
    (hcount : m.frame.scopes.length ≤ b.frame.scopes.length) :
    KeptAt ((p.step^[k] m).Assigns m.current)
      ((p.step^[k] m).Declares m.current m.frame.scopes.length) m.frame.scopes.length m.current
      (b.frame.oldest m.frame.scopes.length) (p.step^[k + 1] m).frames := by
  obtain ⟨a, ha⟩ := hf.exists_current
  obtain ⟨-, ts, ho⟩ := owes_run hf (owes_first ht hm) fun j hj => hgo j (Nat.le_of_lt hj)
  rw [length_scopes_eq ha] at hcount ⊢
  rw [Function.iterate_succ_apply']
  cases ts with
  | nil =>
    have hlt := hgo k (Nat.le_refl k)
    rw [ho.tasks] at hlt
    exact absurd hlt (Nat.lt_irrefl _)
  | cons u us => exact keptAt_step ho (outline_getElem? ha) hb hcount

/-- The induction is on the steps; what is assigned and declared adds up. -/
theorem keptAt_run (hf : Formed p.options.maxDepth m.frames m.current) (ht : m.tasks = t :: rest)
    (hm : t.moves = false) {k : Nat}
    (hgo : ∀ j < k, rest.length < (p.step^[j] m).tasks.length) :
    KeptAt (p.Assigned m k) (p.Declared m k) m.frame.scopes.length m.current m.frame.scopes
      (p.step^[k] m).frames := by
  induction k with
  | zero =>
    obtain ⟨a, ha⟩ := hf.exists_current
    refine ⟨a, ha, by rw [Machine.frame_eq ha], ?_⟩
    rw [← Machine.frame_eq ha, Frame.oldest_of_length rfl]
    exact .refl _ _ _
  | succ k ih =>
    obtain ⟨b, hb, hcount, hbefore⟩ := ih fun j hj => hgo j (Nat.lt_succ_of_lt hj)
    obtain ⟨d, hd, hcount', hnext⟩ :=
      keptAt_next hf ht hm (fun j hj => hgo j (Nat.lt_succ_of_le hj)) hb hcount
    refine ⟨d, hd, hcount', (hbefore.mono ?_ ?_).trans (hnext.mono ?_ ?_)⟩
    · exact fun name ⟨j, hj, h⟩ => ⟨j, Nat.lt_succ_of_lt hj, h⟩
    · exact fun name ⟨j, hj, h⟩ => ⟨j, Nat.lt_succ_of_lt hj, h⟩
    · exact fun name h => ⟨k, Nat.lt_succ_self k, h⟩
    · exact fun name h => ⟨k, Nat.lt_succ_self k, h⟩

end Page

/-! ## The turns of a loop -/

/-- A loop over the items of a value, with the tasks `rest` behind it: it is between two turns, or
it goes through one, with a scope more than before. -/
inductive EachAt (body : List Node) (rest : List Task) (s : Shape) (m : Machine) : Prop where
  | between (value : String) (key : Option String) (es : List (Value × Value))
      (ht : m.tasks = .turns value key body es :: rest) (hs : Shape.of m.frames m.current = s)
  | inTurn (value : String) (key : Option String) (es : List (Value × Value)) (ts : List Task)
      (ho : m.Owes ts (.popScope :: .turns value key body es :: rest) (s.mapTurns (· + 1)))

namespace Page

variable {p : Page} {m : Machine} {rest : List Task} {loc : Location} {value : String}
  {key : Option String} {source : Expr} {body : List Node} {ifEmpty : Option (List Node)}
  {s : Shape} {o : Outline}

theorem eachAt_step (hf : Formed p.options.maxDepth m.frames m.current)
    (hc : s.current < s.outlines.length) (h : EachAt body rest s m)
    (hgo : rest.length < (p.step m).tasks.length) : EachAt body rest s (p.step m) := by
  cases h with
  | between value key es ht hs =>
    rw [step_eq ht] at hgo ⊢
    split at hgo
    next => exact absurd hgo (Nat.lt_irrefl _)
    next hrun =>
      rw [if_neg hrun]
      have hn : m.failure = none := by simpa [Task.restores] using hrun
      cases es with
      | nil => exact absurd hgo (Nat.lt_irrefl _)
      | cons entry es =>
        refine .inTurn value key es [.pushScope (turnScope value key entry), .nodes body]
          ⟨rfl, ?_, List.forall_mem_singleton.mpr rfl, fun hfail => ?_⟩
        · exact congrArg (fun s => some (s.mapTurns (· + 1))) hs
        · cases hfail.symm.trans (congrArg Option.isSome hn)
  | inTurn value key es ts ho =>
    cases ts with
    -- the turn is over, and its scope goes
    | nil =>
      have hs : Shape.of m.frames m.current = s.mapTurns (· + 1) := Option.some.inj ho.unwinds
      have ht : m.tasks = .popScope :: .turns value key body es :: rest := ho.tasks
      rw [step_eq ht, if_neg (by simp [Task.restores])]
      refine .between value key es rfl ?_
      have hshape := Shape.of_modify m.frames m.current (g := Frame.pop) (h := (· - 1))
        fun _ => List.length_tail
      have hback := Shape.after_popScope_mapTurns hc
      rw [Shape.after] at hback
      split at hback
      · exact (hshape.trans (congrArg (Shape.mapTurns (· - 1)) hs)).trans (Option.some.inj hback)
      · cases hback
    | cons t us =>
      obtain ⟨-, ts, ho⟩ := owes_step hf ho
      exact .inTurn value key es ts ho

/-- A loop declares nothing in the scopes that were there: in a turn there is one more. -/
theorem not_declares_of_eachAt (h : EachAt body rest s m) (hs : s.outlines[s.current]? = some o)
    (name : String) : ¬ m.Declares s.current (o.turns + 1) name := by
  rintro ⟨⟨e, -, hcur, list, behind, ht, -⟩, hcount⟩
  cases h with
  | between _ _ _ ht' _ => exact nomatch ht.symm.trans ht'
  | inTurn value key es ts ho =>
    cases ts with
    | nil => exact nomatch ht.symm.trans ho.tasks
    | cons t us =>
      have hs' : (s.mapTurns (· + 1)).outlines[m.current]? = some ⟨o.turns + 1, o.caller⟩ := by
        rw [hcur, Shape.mapTurns, List.getElem?_modify_eq, hs]
        rfl
      have htask : t = .execute list := by
        have h := ht.symm.trans ho.tasks
        exact (List.cons.inj h).1.symm
      subst htask
      obtain ⟨s', o', hafter, ho', hle⟩ := exists_behind ho hs'
      cases hafter
      rw [Shape.of, List.getElem?_map] at ho'
      obtain ⟨a, ha, rfl⟩ := Option.map_eq_some_iff.mp ho'
      rw [length_scopes_eq ha] at hcount
      exact absurd (Nat.succ.inj hcount) (Nat.ne_of_gt hle)

theorem eachAt_run (hf : Formed p.options.maxDepth m.frames m.current)
    (ht : m.tasks = .node (.each loc value key source body ifEmpty) :: rest)
    (hitems : entries (p.eval m.frame source) ≠ []) {k : Nat}
    (hgo : ∀ j ≤ k + 1, rest.length < (p.step^[j] m).tasks.length) :
    EachAt body rest (Shape.of m.frames m.current) (p.step^[k + 1] m) := by
  induction k with
  | zero =>
    have hfirst := hgo 1 (Nat.le_refl _)
    rw [Function.iterate_one, step_eq ht] at hfirst ⊢
    split at hfirst
    next => exact absurd hfirst (Nat.lt_irrefl _)
    next hrun =>
      rw [if_neg hrun]
      have hexpand : p.expand m.frame (.node (.each loc value key source body ifEmpty)) =
          [.turns value key body (entries (p.eval m.frame source))] := by
        rw [expand]
        split
        next h => exact absurd h hitems
        next => rfl
      exact .between value key _ (congrArg (· ++ rest) hexpand) rfl
  | succ k ih =>
    have hnext := hgo (k + 2) (Nat.le_refl _)
    rw [Function.iterate_succ_apply'] at hnext ⊢
    have hformed := (owes_run hf (owes_first ht rfl) fun j hj =>
      hgo j (Nat.le_succ_of_le (Nat.le_of_lt hj) : j ≤ k + 2)).1
    refine eachAt_step hformed ?_ (ih fun j hj => hgo j (Nat.le_succ_of_le hj)) hnext
    rw [Shape.of, List.length_map]
    exact hf.current

/-- What a loop declares in its frame it declares in a turn. -/
theorem not_declared (hf : Formed p.options.maxDepth m.frames m.current)
    (ht : m.tasks = .node (.each loc value key source body ifEmpty) :: rest)
    (hitems : entries (p.eval m.frame source) ≠ []) {j : Nat}
    (hgo : ∀ i ≤ j, rest.length < (p.step^[i] m).tasks.length) (name : String) :
    ¬ (p.step^[j] m).Declares m.current m.frame.scopes.length name := by
  obtain ⟨a, ha⟩ := hf.exists_current
  rw [length_scopes_eq ha]
  cases j with
  | zero => exact fun ⟨⟨_, _, _, _, _, ht', _⟩, _⟩ => nomatch ht.symm.trans ht'
  | succ j => exact not_declares_of_eachAt (eachAt_run hf ht hitems hgo) (outline_getElem? ha) name

end Page

/-! ## What the names come to -/

namespace Frame

variable {A D : String → Prop} {f g : Frame}

theorem find?_eq_findSome?_scopes (name : String) (f : Frame) :
    f.find? name = f.scopes.findSome? (Dictionary.find? name) := by
  rw [find?, scopes, List.findSome?_append]
  cases h : Dictionary.find? name f.base <;> simp [h]

/-- A name that is neither assigned nor declared has the value it had. -/
theorem find?_of_keepsScopes (h : KeepsScopes A D f.scopes g.scopes) {name : String}
    (hA : ¬ A name) (hD : ¬ D name) : g.find? name = f.find? name := by
  have hmap : g.scopes.map (Dictionary.find? name) = f.scopes.map (Dictionary.find? name) := by
    apply List.ext_getElem
    · rw [List.length_map, List.length_map, h.length]
    · intro n hg hf
      rw [List.getElem_map, List.getElem_map]
      exact h.values n _ _ (List.getElem?_eq_getElem _) (List.getElem?_eq_getElem _) name hA
        fun hn => hD hn.2
  have hid : ∀ ds : List (Dictionary Value), ds.findSome? (Dictionary.find? name) =
      (ds.map (Dictionary.find? name)).findSome? id := by
    intro ds
    rw [List.findSome?_map]
    rfl
  rw [find?_eq_findSome?_scopes, find?_eq_findSome?_scopes, hid, hid, hmap]

/-- Where nothing is declared, the scopes of loops bind the same names. -/
theorem keys_inner_of_keepsScopes (h : KeepsScopes A D f.scopes g.scopes)
    (hD : ∀ name, ¬ D name) : g.inner.map Dictionary.keys = f.inner.map Dictionary.keys := by
  have hlen : g.inner.length = f.inner.length := by
    simpa [scopes] using h.length
  apply List.ext_getElem
  · rw [List.length_map, List.length_map, hlen]
  · intro n hg hf
    rw [List.length_map] at hg hf
    rw [List.getElem_map, List.getElem_map]
    have hscope : ∀ {e : Frame} (he : n < e.inner.length), e.scopes[n]? = some e.inner[n] := by
      intro e he
      rw [scopes, List.getElem?_append_left he, List.getElem?_eq_getElem he]
    obtain ⟨more, hkeys, hmore⟩ := h.names n _ _ (hscope hf) (hscope hg)
    have hnil : more = [] := by
      refine List.eq_nil_iff_forall_not_mem.mpr fun name hname => ?_
      rcases hmore name hname with ⟨hlast, -⟩ | ⟨-, hd⟩
      · simp only [scopes, List.length_append, List.length_singleton] at hlast
        omega
      · exact hD name hd
    rw [hkeys, hnil, List.append_nil]

/-- The scope that lasts keeps its names. -/
theorem keys_base_of_keepsScopes (h : KeepsScopes A D f.scopes g.scopes) :
    ∃ more, Dictionary.keys g.base = Dictionary.keys f.base ++ more ∧
      ∀ name ∈ more, A name ∨ (f.inner = [] ∧ D name) := by
  have hlen : g.inner.length = f.inner.length := by
    simpa [scopes] using h.length
  have hbase : ∀ e : Frame, e.scopes[e.inner.length]? = some e.base := by
    intro e
    simp [scopes]
  obtain ⟨more, hkeys, hmore⟩ := h.names f.inner.length _ _ (hbase f) (hlen ▸ hbase g)
  refine ⟨more, hkeys, fun name hname => ?_⟩
  rcases hmore name hname with ⟨-, ha⟩ | ⟨hfirst, hd⟩
  · exact Or.inl ha
  · exact Or.inr ⟨List.eq_nil_of_length_eq_zero hfirst, hd⟩

end Frame

namespace Page

variable {p : Page} {m : Machine} {t : Task} {rest : List Task}

/-- A machine has done its first task after so many steps, and not before. -/
def ReturnsIn (p : Page) (m : Machine) (k : Nat) : Prop :=
  (p.step^[k] m).tasks = m.tasks.tail ∧
    ∀ j < k, m.tasks.tail.length < (p.step^[j] m).tasks.length

/-- What a loop in the current frame leaves of the scopes that were there, in so many steps. If
there is nothing to run over, names may also be declared in the innermost of them. -/
structure LoopKeeps (p : Page) (m : Machine) (nothing : Prop) (k : Nat) : Prop where
  current : (p.step^[k] m).current = m.current
  /-- The scopes of the loops around bind the same names. -/
  inner : ¬ nothing →
    (p.step^[k] m).frame.inner.map Dictionary.keys = m.frame.inner.map Dictionary.keys
  base : ∃ more,
    Dictionary.keys (p.step^[k] m).frame.base = Dictionary.keys m.frame.base ++ more ∧
      ∀ name ∈ more, p.Assigned m k name ∨
        (m.frame.inner = [] ∧ nothing ∧ p.Declared m k name)
  scopes : KeepsScopes (p.Assigned m k) (fun name => nothing ∧ p.Declared m k name)
    m.frame.scopes (p.step^[k] m).frame.scopes
  find? : ∀ name, ¬ p.Assigned m k name → ¬ (nothing ∧ p.Declared m k name) →
    (p.step^[k] m).frame.find? name = m.frame.find? name
  /-- Each step only changes what it assigns or declares. -/
  steps : ∀ j < k, KeepsScopes ((p.step^[j] m).Assigns m.current)
    (fun name => nothing ∧ (p.step^[j] m).Declares m.current m.frame.scopes.length name)
    (((p.step^[j] m).frameAt m.current).oldest m.frame.scopes.length)
    (((p.step^[j + 1] m).frameAt m.current).oldest m.frame.scopes.length)

theorem loopKeeps (hf : Formed p.options.maxDepth m.frames m.current) {loc : Location}
    {value : String} {key : Option String} {source : Expr} {body : List Node}
    {ifEmpty : Option (List Node)}
    (ht : m.tasks = .node (.each loc value key source body ifEmpty) :: rest) {k : Nat}
    (hk : p.ReturnsIn m k) : p.LoopKeeps m (entries (p.eval m.frame source) = []) k := by
  have hgo : ∀ j < k, rest.length < (p.step^[j] m).tasks.length := by
    have h := hk.2
    rwa [ht, List.tail_cons] at h
  have hback := Returns.givesBack hf ht rfl ⟨k, rfl, hk⟩
  have hnothing : ∀ j < k, ∀ name,
      (p.step^[j] m).Declares m.current m.frame.scopes.length name →
        entries (p.eval m.frame source) = [] := by
    intro j hj name hdecl
    by_contra hitems
    exact not_declared hf ht hitems (fun i hi => hgo i (Nat.lt_of_le_of_lt hi hj)) name hdecl
  have hscopes : KeepsScopes (p.Assigned m k)
      (fun name => entries (p.eval m.frame source) = [] ∧ p.Declared m k name)
      m.frame.scopes (p.step^[k] m).frame.scopes := by
    obtain ⟨b, hb, -, hkeeps⟩ := keptAt_run hf ht rfl hgo
    -- at the end the frame has no more scopes than before, so the oldest ones are all
    obtain ⟨a, ha⟩ := hf.exists_current
    have hframe : (p.step^[k] m).frame = b.frame := Machine.frame_eq (by rw [hback.current, hb])
    have hlen : b.frame.scopes.length = m.frame.scopes.length := by
      have h := congrArg (·[m.current]?) hback.scopes
      simpa [hb, ha, Machine.frame_eq ha] using h
    rw [Frame.oldest_of_length hlen] at hkeeps
    rw [hframe]
    exact hkeeps.mono (fun _ h => h) fun name ⟨j, hj, h⟩ => ⟨hnothing j hj name h, j, hj, h⟩
  refine ⟨hback.current, fun hitems => ?_, ?_, hscopes, fun name hA hD => ?_, fun j hj => ?_⟩
  · exact Frame.keys_inner_of_keepsScopes hscopes fun name hn => hitems hn.1
  · exact Frame.keys_base_of_keepsScopes hscopes
  · exact Frame.find?_of_keepsScopes hscopes hA hD
  -- a single step, from what the steps before it have kept
  · obtain ⟨b, hb, hcount, -⟩ := keptAt_run hf ht rfl fun i hi => hgo i (Nat.lt_trans hi hj)
    obtain ⟨d, hd, -, hnext⟩ :=
      keptAt_next hf ht rfl (fun i hi => hgo i (Nat.lt_of_le_of_lt hi hj)) hb hcount
    rw [Machine.frameAt_eq hb, Machine.frameAt_eq hd]
    exact hnext.mono (fun _ h => h) fun name h => ⟨hnothing j hj name h, h⟩

end Page

/-! ## The page -/

/-- A loop leaves the scopes of the frame it runs in with the names they had. -/
theorem loop_names (l : Linked) (data : Value) (options : Options) (filters : Dictionary Filter) :
    (∀ k m, (l.page data options filters).step^[k] (Page.start l.nodes) = m →
      ∀ loc value key source body ifEmpty rest,
        m.tasks = .node (.each loc value key source body ifEmpty) :: rest →
        (∀ steps, (l.page data options filters).ReturnsIn m steps →
          (l.page data options filters).LoopKeeps m
            (Page.entries ((l.page data options filters).eval m.frame source) = []) steps) ∧
        (options.maxIterations.isSome →
          ∃ steps, (l.page data options filters).ReturnsIn m steps)) ∧
    (options.maxIterations.isSome → ∃ k,
      ((l.page data options filters).step^[k] (Page.start l.nodes)).tasks = [] ∧
        ((l.page data options filters).step^[k] (Page.start l.nodes)).result =
          render l data options filters) := by
  refine ⟨?_, fun hsome => ?_⟩
  · rintro k m rfl loc value key source body ifEmpty rest ht
    have hf := ((l.page data options filters).owes_page l.nodes k).1
    refine ⟨fun steps hsteps => Page.loopKeeps hf ht hsteps, fun hsome => ?_⟩
    obtain ⟨limit, hlimit⟩ := Option.isSome_iff_exists.mp hsome
    obtain ⟨halt, hhalt, -⟩ := Page.exists_result l data filters hlimit
    obtain ⟨_, steps, rfl, hsteps⟩ := Page.exists_returns_of_halt hhalt ht rfl
    exact ⟨steps, hsteps⟩
  · obtain ⟨limit, hlimit⟩ := Option.isSome_iff_exists.mp hsome
    exact Page.exists_result l data filters hlimit

/-- A loop that declares a name and assigns another one. -/
def keepingLast : Linked :=
  ⟨[.each ⟨1, 1⟩ "x" none (.array [.literal (.string "a")])
      [.statements ⟨2, 3⟩ [.declare "y" (.name "x"), .assign "z" .set (.name "y")]] none], []⟩

def keepingLastPage : Page :=
  keepingLast.page .null {} []

/-- After the loop the name that is assigned is bound, and the two others are not. -/
theorem loop_names_keepingLast :
    keepingLastPage.ReturnsIn (keepingLastPage.step^[1] (Page.start keepingLast.nodes)) 9 ∧
    (keepingLastPage.step^[10] (Page.start keepingLast.nodes)).frame.find? "x" = none ∧
    (keepingLastPage.step^[10] (Page.start keepingLast.nodes)).frame.find? "y" = none ∧
    (keepingLastPage.step^[10] (Page.start keepingLast.nodes)).frame.find? "z" =
      some (.string "a") := by
  have hreturns : keepingLastPage.ReturnsIn
      (keepingLastPage.step^[1] (Page.start keepingLast.nodes)) 9 := ⟨rfl, by decide⟩
  have hkeeps := ((loop_names keepingLast .null {} []).1 1 _ rfl _ _ _ _ _ _ _ rfl).1 9 hreturns
  refine ⟨hreturns, ?_, ?_, rfl⟩
  · exact hkeeps.find? "x" (Page.not_assigned (by decide)) fun h => nomatch h.1
  · exact hkeeps.find? "y" (Page.not_assigned (by decide)) fun h => nomatch h.1

/-- A loop over nothing, whose other branch declares a name that is shown behind it. -/
def declaredElse : Linked :=
  ⟨[.each ⟨1, 1⟩ "x" none (.array []) []
      (some [.statements ⟨4, 3⟩ [.declare "y" (.literal (.string "b"))]]),
    .output ⟨5, 1⟩ (.name "y") true], []⟩

def declaredElsePage : Page :=
  declaredElse.page .null {} []

/-- The other branch of a loop has no scope of its own: a name that is declared there, and assigned
nowhere, is still bound when the loop is over. -/
theorem declaredElse_gains :
    ∃ m, declaredElsePage.step^[1] (Page.start declaredElse.nodes) = m ∧
      declaredElsePage.ReturnsIn m 5 ∧
      ¬ (∀ name ∈ Dictionary.keys (declaredElsePage.step^[5] m).frame.base,
        name ∈ Dictionary.keys m.frame.base ∨ declaredElsePage.Assigned m 5 name) ∧
      render declaredElse .null {} [] = .ok "b" := by
  refine ⟨_, rfl, ⟨rfl, by decide⟩, fun h => ?_, rfl⟩
  rcases h "y" (by decide) with hbefore | hassigned
  · exact absurd hbefore (by decide)
  · exact Page.not_assigned (by decide) hassigned

end PugTemplate
