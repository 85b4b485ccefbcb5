import Mathlib.Data.List.Induction
import PugTemplate.Dictionary
import PugTemplate.Lex.Cursor

/-!
# Results and dictionaries

Facts about success and about insertions that do not depend on what is stored.
-/

namespace PugTemplate

/-- Success is decided on the answer alone. -/
theorem eq_ok_of_toOption {ε α : Type} {x : Except ε α} {a : α} (h : x.toOption = some a) :
    x = .ok a := by
  cases x with
  | error e => exact nomatch h
  | ok b => exact congrArg Except.ok (Option.some.inj h)

/-- What a computation fails with, if it does. -/
def failure? {ε α : Type} : Except ε α → Option ε
  | .error e => some e
  | .ok _ => none

theorem eq_error_of_failure? {ε α : Type} {x : Except ε α} {e : ε} (h : failure? x = some e) :
    x = .error e := by
  cases x with
  | error e' => exact congrArg Except.error (Option.some.inj h)
  | ok a => exact nomatch h

/-! ## What a computation answers -/

/-- A way to say that whatever a computation answers has a property. -/
structure Answering (m : Type → Type) [Monad m] where
  always : ∀ {α : Type}, m α → (α → Prop) → Prop
  pure : ∀ {α : Type} {a : α} {p : α → Prop}, p a → always (Pure.pure a) p
  bind : ∀ {α β : Type} {x : m α} {f : α → m β} {p : α → Prop} {q : β → Prop},
    always x p → (∀ a, p a → always (f a) q) → always (x >>= f) q
  mono : ∀ {α : Type} {x : m α} {p q : α → Prop}, always x p → (∀ a, p a → q a) → always x q

/-- What is made of a list one by one, for a property of lists that is put together. -/
theorem Answering.mapM {m : Type → Type} [Monad m] [LawfulMonad m] (y : Answering m)
    {α β : Type} {f : α → m β} {p : List β → Prop} (hnil : p [])
    (hcons : ∀ b bs, p [b] → p bs → p (b :: bs)) (xs : List α)
    (h : ∀ x ∈ xs, y.always (f x) fun b => p [b]) : y.always (xs.mapM f) p := by
  induction xs with
  | nil =>
    rw [List.mapM_nil]
    exact y.pure hnil
  | cons x xs ih =>
    obtain ⟨hx, hxs⟩ := List.forall_mem_cons.mp h
    rw [List.mapM_cons]
    exact y.bind hx fun b hb => y.bind (ih hxs) fun bs hbs => y.pure (hcons b bs hb hbs)

/-- A computation that may fail answers what it succeeds with. -/
def Answering.ofExcept (ε : Type) : Answering (Except ε) where
  always x p := ∀ a, x = .ok a → p a
  pure h a ha := Except.ok.inj ha ▸ h
  bind hx hf b hb := by
    obtain ⟨a, ha, hb⟩ := of_bind_eq_ok hb
    exact hf a (hx a ha) b hb
  mono hx h a ha := h a (hx a ha)

/-- A computation that fails only as a predicate allows. -/
def Answering.orFails {ε : Type} (fails : ε → Prop) : Answering (Except ε) where
  always x p := (∀ a, x = .ok a → p a) ∧ ∀ e, x = .error e → fails e
  pure h := ⟨fun a ha => Except.ok.inj ha ▸ h, fun e he => nomatch he⟩
  bind {_ _ x _ _ _} hx hf := by
    cases x with
    | ok a => exact hf a (hx.1 a rfl)
    | error e =>
      refine ⟨fun b hb => (nomatch hb), fun e' he => ?_⟩
      cases he
      exact hx.2 e rfl
  mono hx h := ⟨fun a ha => h a (hx.1 a ha), hx.2⟩

def Answering.ofId : Answering Id where
  always x p := p x.run
  pure h := h
  bind hx hf := hf _ hx
  mono hx h := h _ hx

/-! ## Computations side by side -/

/-- A relation between computations of two kinds that is kept when they go on alike. -/
structure Coupling (m m' : Type → Type) [Monad m] [Monad m'] where
  rel : ∀ {α : Type}, m α → m' α → Prop
  pure : ∀ {α : Type} (a : α), rel (Pure.pure a : m α) (Pure.pure a)
  bind : ∀ {α β : Type} {x : m α} {y : m' α} {f : α → m β} {g : α → m' β},
    rel x y → (∀ a, rel (f a) (g a)) → rel (x >>= f) (y >>= g)

/-! ## Answers side by side -/

/-- Whatever one computation answers, another one answers something related. -/
def Answers {ε ε' α β : Type} (R : α → β → Prop) (x : Except ε α) (y : Except ε' β) : Prop :=
  ∀ a, x = .ok a → ∃ b, y = .ok b ∧ R a b

namespace Answers

variable {ε ε' α β γ δ : Type} {R : α → β → Prop} {Q : γ → δ → Prop} {x : Except ε α}
  {y : Except ε' β}

theorem pure {a : α} {b : β} (h : R a b) :
    Answers R (Pure.pure a : Except ε α) (Pure.pure b : Except ε' β) := by
  rintro _ ⟨⟩
  exact ⟨b, rfl, h⟩

theorem error {e : ε} : Answers R (.error e) y :=
  fun _ h => nomatch h

theorem bind {f : α → Except ε γ} {g : β → Except ε' δ} (h : Answers R x y)
    (hf : ∀ a b, R a b → Answers Q (f a) (g b)) : Answers Q (x >>= f) (y >>= g) := by
  intro c hc
  obtain ⟨a, ha, hc⟩ := of_bind_eq_ok hc
  obtain ⟨b, rfl, hab⟩ := h a ha
  exact hf a b hab c hc

theorem bind_eq {x : Except ε α} {y : Except ε' α} {f : α → Except ε γ} {g : α → Except ε' δ}
    (h : Answers Eq x y) (hf : ∀ a, Answers Q (f a) (g a)) : Answers Q (x >>= f) (y >>= g) :=
  h.bind fun a _ hab => hab ▸ hf a

theorem map {f : α → γ} {g : β → δ} (h : Answers R x y) (hf : ∀ a b, R a b → Q (f a) (g b)) :
    Answers Q (f <$> x) (g <$> y) :=
  h.bind fun a b hab => .pure (hf a b hab)

theorem map_right {Q : α → δ → Prop} {g : β → δ} (h : Answers R x y)
    (hg : ∀ a b, R a b → Q a (g b)) : Answers Q x (g <$> y) := by
  intro a ha
  obtain ⟨b, rfl, hab⟩ := h a ha
  exact ⟨g b, rfl, hg a b hab⟩

end Answers

/-- Whatever one computation answers, the other one answers too. -/
def Coupling.answers (ε ε' : Type) : Coupling (Except ε) (Except ε') where
  rel := Answers Eq
  pure _ := .pure rfl
  bind := Answers.bind_eq

/-! ## Insertions add no entries but their own -/

namespace Dictionary

variable {α : Type}

theorem mem_put {key : String} {value : α} {d : Dictionary α} {e : String × α}
    (h : e ∈ put key value d) : e = (key, value) ∨ e ∈ d := by
  induction d with
  | nil => exact Or.inl (List.mem_singleton.mp h)
  | cons f d ih =>
    rw [put] at h
    split at h
    next hk =>
      rcases List.mem_cons.mp h with rfl | h
      · exact Or.inl (by rw [hk])
      · exact Or.inr (List.mem_cons_of_mem _ h)
    next =>
      rcases List.mem_cons.mp h with rfl | h
      · exact Or.inr List.mem_cons_self
      · exact (ih h).imp id (List.mem_cons_of_mem _)

theorem mem_putAll {d entries : Dictionary α} {e : String × α} (h : e ∈ putAll d entries) :
    e ∈ d ∨ e ∈ entries := by
  induction entries generalizing d with
  | nil => exact Or.inl h
  | cons f entries ih =>
    rcases ih h with h | h
    · rcases mem_put h with rfl | h
      · exact Or.inr List.mem_cons_self
      · exact Or.inl h
    · exact Or.inr (List.mem_cons_of_mem _ h)

theorem mem_ofEntries {entries : List (String × α)} {e : String × α} (h : e ∈ ofEntries entries) :
    e ∈ entries :=
  (mem_putAll h).resolve_left List.not_mem_nil

theorem mem_of_find? {key : String} {value : α} {d : Dictionary α}
    (h : find? key d = some value) : (key, value) ∈ d := by
  induction d with
  | nil => exact nomatch h
  | cons f d ih =>
    obtain ⟨k, v⟩ := f
    rw [find?] at h
    split at h
    next hk =>
      cases h
      rw [hk]
      exact List.mem_cons_self
    next => exact List.mem_cons_of_mem _ (ih h)

/-! ## Entries with other values -/

section Map

variable {β : Type} (f : α → β)

theorem find?_map (key : String) (d : Dictionary α) :
    find? key (d.map (Prod.map id f)) = (find? key d).map f := by
  induction d with
  | nil => rfl
  | cons e d ih =>
    obtain ⟨k, v⟩ := e
    by_cases h : k = key
    · simp [find?, h]
    · simpa [find?, h] using ih

theorem map_put (key : String) (value : α) (d : Dictionary α) :
    (put key value d).map (Prod.map id f) = put key (f value) (d.map (Prod.map id f)) := by
  induction d with
  | nil => rfl
  | cons e d ih =>
    obtain ⟨k, v⟩ := e
    by_cases h : k = key
    · simp [put, h]
    · simpa [put, h] using ih

theorem map_putAll (d entries : Dictionary α) :
    (putAll d entries).map (Prod.map id f) =
      putAll (d.map (Prod.map id f)) (entries.map (Prod.map id f)) := by
  induction entries generalizing d with
  | nil => rfl
  | cons e entries ih =>
    rw [putAll, List.foldl_cons, ← putAll, ih, map_put]
    rfl

theorem map_ofEntries (entries : List (String × α)) :
    (ofEntries entries).map (Prod.map id f) = ofEntries (entries.map (Prod.map id f)) :=
  map_putAll f [] entries

end Map

/-! ## Which names have entries -/

theorem has_put (key other : String) (value : α) (d : Dictionary α) :
    has other (put key value d) ↔ key = other ∨ has other d := by
  simp only [has, find?_put]
  by_cases hk : key = other
  · simp [hk]
  · simp [hk]

theorem has_putAll (name : String) (d entries : Dictionary α) :
    has name (putAll d entries) ↔ has name d ∨ name ∈ keys entries := by
  induction entries generalizing d with
  | nil => simp [putAll, keys]
  | cons e entries ih =>
    rw [putAll, List.foldl_cons, ← putAll, ih, has_put]
    simp only [keys, List.map_cons, List.mem_cons]
    grind

theorem has_ofEntries (name : String) (entries : List (String × α)) :
    has name (ofEntries entries) ↔ name ∈ keys entries := by
  rw [ofEntries, has_putAll]
  simp [has, find?]

/-! ## First place and last value -/

/-- The last entry of a row under a key. -/
def last? (key : String) (entries : List (String × α)) : Option (String × α) :=
  entries.reverse.find? fun e => e.1 = key

theorem last?_key {key : String} {entries : List (String × α)} {e : String × α}
    (h : last? key entries = some e) : e.1 = key := by
  have hd := List.find?_some h
  exact of_decide_eq_true hd

theorem mem_of_last? {key : String} {entries : List (String × α)} {e : String × α}
    (h : last? key entries = some e) : e ∈ entries :=
  List.mem_reverse.mp (List.mem_of_find?_eq_some h)

theorem exists_last?_of_mem {entries : List (String × α)} {e : String × α} (h : e ∈ entries) :
    ∃ e', last? e.1 entries = some e' := by
  refine Option.isSome_iff_exists.mp (List.find?_isSome.mpr ⟨e, List.mem_reverse.mpr h, ?_⟩)
  exact decide_eq_true rfl

theorem last?_append (key : String) (entries more : List (String × α)) :
    last? key (entries ++ more) = (last? key more).or (last? key entries) := by
  rw [last?, List.reverse_append, List.find?_append, last?, last?]

theorem last?_concat (key : String) (entries : List (String × α)) (e : String × α) :
    last? key (entries ++ [e]) = if e.1 = key then some e else last? key entries := by
  rw [last?_append, last?, List.reverse_singleton, List.find?_singleton]
  by_cases h : e.1 = key
  · simp [h]
  · simp [h]

theorem ofEntries_append (entries : List (String × α)) (e : String × α) :
    ofEntries (entries ++ [e]) = put e.1 e.2 (ofEntries entries) := by
  rw [ofEntries, putAll, List.foldl_append]
  rfl

theorem find?_ofEntries (key : String) (entries : List (String × α)) :
    find? key (ofEntries entries) = (last? key entries).map (·.2) := by
  induction entries using List.reverseRecOn with
  | nil => rfl
  | append_singleton entries e ih =>
    rw [ofEntries_append, find?_put, last?_concat, ih]
    split <;> rfl

theorem keys_ofEntries (entries : List (String × α)) :
    keys (ofEntries entries) = (keys entries).eraseDups := by
  induction entries using List.reverseRecOn with
  | nil => rfl
  | append_singleton entries e ih =>
    have hkeys : keys (entries ++ [e]) = keys entries ++ [e.1] := List.map_append
    rw [ofEntries_append, keys_put, hkeys, List.eraseDups_append, ih]
    by_cases h : e.1 ∈ keys entries
    · simp [List.removeAll, h]
    · simp [List.removeAll, h, List.eraseDups_cons]

end Dictionary

end PugTemplate
