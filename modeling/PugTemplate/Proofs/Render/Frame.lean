import Mathlib.Data.List.Forall2
import PugTemplate.Proofs.Basic
import PugTemplate.Render.Frame

/-!
# Frames only gain names

No step of a rendering unbinds a name or replaces the content of a call. What a loop leaves behind
is gone with its scope, so growth is scope by scope.
-/

namespace PugTemplate

namespace Dictionary

variable {α : Type}

/-- What has a binding in one dictionary has one in another. -/
def Grows (d e : Dictionary α) : Prop :=
  ∀ name, has name d → has name e

theorem Grows.refl (d : Dictionary α) : Grows d d :=
  fun _ h => h

theorem Grows.trans {d e g : Dictionary α} (h : Grows d e) (h' : Grows e g) : Grows d g :=
  fun name hd => h' name (h name hd)

theorem grows_put (name : String) (value : α) (d : Dictionary α) : Grows d (put name value d) :=
  fun other h => (has_put name other value d).mpr (Or.inr h)

end Dictionary

namespace Frame

theorem forall₂_grows_trans {ds es gs : List (Dictionary Value)}
    (h : List.Forall₂ Dictionary.Grows ds es) (h' : List.Forall₂ Dictionary.Grows es gs) :
    List.Forall₂ Dictionary.Grows ds gs := by
  induction h generalizing gs with
  | nil => exact h'
  | cons hd _ ih =>
    obtain ⟨g, gs, hg, hgs, rfl⟩ := List.forall₂_cons_left_iff.mp h'
    exact .cons (hd.trans hg) (ih hgs)

theorem exists_of_forall₂_grows {ds es : List (Dictionary Value)} {name : String}
    (h : List.Forall₂ Dictionary.Grows ds es) (hd : ∃ d ∈ ds, Dictionary.has name d) :
    ∃ e ∈ es, Dictionary.has name e := by
  induction h with
  | nil => exact hd
  | cons hde _ ih =>
    simp only [List.exists_mem_cons_iff] at hd ⊢
    exact hd.imp (hde name) ih

/-- Scope by scope, a frame binds what another does. -/
structure Grows (f g : Frame) : Prop where
  base : Dictionary.Grows f.base g.base
  inner : List.Forall₂ Dictionary.Grows f.inner g.inner

theorem Grows.refl (f : Frame) : f.Grows f :=
  ⟨.refl _, List.forall₂_same.mpr fun _ _ => .refl _⟩

theorem Grows.trans {f g h : Frame} (hf : f.Grows g) (hg : g.Grows h) : f.Grows h :=
  ⟨hf.base.trans hg.base, forall₂_grows_trans hf.inner hg.inner⟩

theorem Grows.declare (name : String) (value : Value) (f : Frame) :
    f.Grows (f.declare name value) := by
  unfold Frame.declare
  split
  next h => exact ⟨Dictionary.grows_put _ _ _, h ▸ .nil⟩
  next d ds h =>
    refine ⟨.refl _, ?_⟩
    rw [h]
    exact .cons (Dictionary.grows_put _ _ _) (List.forall₂_same.mpr fun _ _ => .refl _)

theorem grows_replaceIn {name : String} {value : Value} {ds es : List (Dictionary Value)}
    (h : replaceIn name value ds = some es) : List.Forall₂ Dictionary.Grows ds es := by
  induction ds generalizing es with
  | nil => exact nomatch h
  | cons d ds ih =>
    rw [replaceIn] at h
    split at h
    -- the innermost scope with the name takes the value, and those further out stay
    next =>
      cases h
      exact .cons (Dictionary.grows_put _ _ _) (List.forall₂_same.mpr fun _ _ => .refl _)
    next =>
      obtain ⟨rest, hr, rfl⟩ := Option.map_eq_some_iff.mp h
      exact .cons (.refl _) (ih hr)

theorem Grows.assign (name : String) (value : Value) (f : Frame) :
    f.Grows (f.assign name value) := by
  unfold Frame.assign
  split
  next h => exact ⟨.refl _, grows_replaceIn h⟩
  -- a name that no scope has is bound for the whole frame
  next => exact ⟨Dictionary.grows_put _ _ _, List.forall₂_same.mpr fun _ _ => .refl _⟩

theorem Grows.pop {scope : Dictionary Value} {f g : Frame} (h : (f.push scope).Grows g) :
    f.Grows g.pop := by
  obtain ⟨hb, hi⟩ := h
  refine ⟨hb, ?_⟩
  unfold Frame.pop
  -- the scope that was pushed is still the first, so there is one to pop
  cases hg : g.inner with
  | nil => simp [hg, push] at hi
  | cons d ds =>
    rw [hg] at hi
    exact (List.forall₂_cons.mp hi).2

/-- Whether a name has a binding in a frame. -/
def binds (f : Frame) (name : String) : Prop :=
  (f.find? name).isSome

theorem binds_iff (f : Frame) (name : String) :
    f.binds name ↔ (∃ d ∈ f.inner, Dictionary.has name d) ∨ Dictionary.has name f.base := by
  simp [binds, find?, Dictionary.has, List.findSome?_isSome_iff]

theorem Grows.binds {f g : Frame} (h : f.Grows g) {name : String} (hf : f.binds name) :
    g.binds name := by
  rw [binds_iff] at hf ⊢
  exact hf.imp (exists_of_forall₂_grows h.inner) (h.base name)

end Frame

namespace Chain

/-- Frame by frame, a chain binds what another does, and the contents are the same. -/
def Grows : {n : Nat} → Chain n → Chain n → Prop
  | _, page f, page g => f.Grows g
  | _, call f content caller, call g content' caller' =>
    f.Grows g ∧ content' = content ∧ caller.Grows caller'

theorem Grows.refl {n : Nat} (c : Chain n) : c.Grows c := by
  induction c with
  | page f => exact Frame.Grows.refl f
  | call f content caller ih => exact ⟨.refl f, rfl, ih⟩

theorem Grows.trans {n : Nat} {a b c : Chain n} (h : a.Grows b) (h' : b.Grows c) : a.Grows c := by
  induction a with
  | page f =>
    cases b
    cases c
    exact Frame.Grows.trans h h'
  | call f content caller ih =>
    cases b
    cases c
    exact ⟨h.1.trans h'.1, h'.2.1.trans h.2.1, ih h.2.2 h'.2.2⟩

theorem Grows.frame {n : Nat} {a b : Chain n} (h : a.Grows b) : a.frame.Grows b.frame := by
  cases a <;> cases b
  · exact h
  · exact h.1

theorem frame_mapFrame {n : Nat} (g : Frame → Frame) (c : Chain n) :
    (c.mapFrame g).frame = g c.frame := by
  cases c <;> rfl

theorem mapFrame_congr {n : Nat} {g h : Frame → Frame} {c : Chain n} (hf : h c.frame = g c.frame) :
    c.mapFrame h = c.mapFrame g := by
  cases c with
  | page f => exact congrArg page hf
  | call f content caller => exact congrArg (call · content caller) hf

theorem grows_mapFrame {n : Nat} {g : Frame → Frame} (h : ∀ f : Frame, f.Grows (g f))
    (c : Chain n) : c.Grows (c.mapFrame g) := by
  cases c with
  | page f => exact h f
  | call f content caller => exact ⟨h f, rfl, .refl caller⟩

/-- What is pushed before and popped after cancels out. -/
theorem Grows.popped {n : Nat} {scope : Dictionary Value} {a b : Chain n}
    (h : (a.mapFrame (Frame.push scope)).Grows b) : a.Grows (b.mapFrame Frame.pop) := by
  cases a <;> cases b
  · exact Frame.Grows.pop h
  · exact ⟨h.1.pop, h.2⟩

theorem Grows.returned {n : Nat} {f : Frame} {content : Option (List Node)} {a : Chain n}
    {b : Chain (n + 1)} (h : (call f content a).Grows b) : a.Grows b.caller := by
  cases b
  exact h.2.2

theorem Grows.resumed {n : Nat} {a : Chain (n + 1)} {b : Chain n} (h : a.caller.Grows b) :
    a.Grows (a.withCaller b) := by
  cases a
  exact ⟨.refl _, rfl, h⟩

end Chain

end PugTemplate
