import PugTemplate.Proofs.Expr.Eval

/-!
# Where names stand in an expression

A part of an expression is found by a path from the whole to it, and the parts of one expression come
in the order in which they are written. The names that are collected are those that stand at some
path, each listed by the first path it stands at; they are all that evaluation looks up. Main
statement: `identifiers_suffice`.
-/

namespace PugTemplate

namespace Expr

/-- The expressions that an expression is made of, in the order in which they are written. -/
def parts : Expr → List Expr
  | literal _ | name _ => []
  | array items => items
  | object entries => entries.map Prod.snd
  | member whole _ => [whole]
  | index whole key => [whole, key]
  | unary _ operand => [operand]
  | binary _ left right => [left, right]
  | conditional test consequent alternate => [test, consequent, alternate]

/-- The expression at a path, which goes from part to part. -/
def at? (e : Expr) : List Nat → Option Expr
  | [] => some e
  | i :: path => e.parts[i]?.bind fun part => part.at? path

/-- A name stands at a path. -/
def NameAt (e : Expr) (path : List Nat) (x : String) : Prop :=
  e.at? path = some (name x)

/-! ## Paths -/

theorem sizeOf_lt_of_mem_parts {e part : Expr} (h : part ∈ e.parts) : sizeOf part < sizeOf e := by
  cases e with
  | literal | name => cases h
  | array items =>
    have hitem : part ∈ items := h
    have := List.sizeOf_lt_of_mem hitem
    simp only [array.sizeOf_spec]
    omega
  | object entries =>
    obtain ⟨⟨key, value⟩, hentry, rfl⟩ := List.mem_map.mp h
    have := List.sizeOf_lt_of_mem hentry
    simp only [object.sizeOf_spec, Prod.mk.sizeOf_spec] at *
    omega
  | member | unary =>
    cases List.mem_singleton.mp h
    simp only [member.sizeOf_spec, unary.sizeOf_spec]
    omega
  | index | binary | conditional =>
    simp only [parts, List.mem_cons, List.not_mem_nil, or_false] at h
    simp only [index.sizeOf_spec, binary.sizeOf_spec, conditional.sizeOf_spec]
    rcases h with rfl | rfl | rfl <;> omega

/-- A name is all there is of it, and any other expression reads what its parts read. -/
theorem occurrences_eq (e : Expr) :
    (∃ x, e = name x) ∨
      (∀ x, e ≠ name x) ∧ e.occurrences = e.parts.flatMap occurrences := by
  have hitems (items : List Expr) : itemOccurrences items = items.flatMap occurrences := by
    induction items with
    | nil => rfl
    | cons item items ih => rw [itemOccurrences, ih, List.flatMap_cons]
  have hentries (entries : List (String × Expr)) :
      entryOccurrences entries = (entries.map Prod.snd).flatMap occurrences := by
    induction entries with
    | nil => rfl
    | cons entry entries ih => rw [entryOccurrences, ih, List.map_cons, List.flatMap_cons]
  cases e with
  | name x => exact .inl ⟨x, rfl⟩
  | array items => exact .inr ⟨by simp, hitems items⟩
  | object entries => exact .inr ⟨by simp, hentries entries⟩
  | _ => exact .inr ⟨by simp, by simp [occurrences, parts]⟩

/-- Names with the paths they stand at, one path behind the other. -/
structure Listing (stands : List Nat → String → Prop) (names : List String)
    (places : List (List Nat × String)) : Prop where
  names_eq : places.map Prod.snd = names
  sorted : places.Pairwise fun a b => a.1 < b.1
  mem_iff : ∀ path x, (path, x) ∈ places ↔ stands path x

/-- A row of expressions, the first of which is the part of a given number. -/
def RowAt (row : List Expr) (first : Nat) (path : List Nat) (x : String) : Prop :=
  ∃ i part rest, row[i]? = some part ∧ path = (first + i) :: rest ∧ part.NameAt rest x

theorem rowAt_cons {part : Expr} {row : List Expr} {first : Nat} {path : List Nat} {x : String} :
    RowAt (part :: row) first path x ↔
      (∃ rest, path = first :: rest ∧ part.NameAt rest x) ∨ RowAt row (first + 1) path x := by
  constructor
  · rintro ⟨i, other, rest, hi, rfl, hx⟩
    cases i with
    | zero =>
      cases hi
      exact .inl ⟨rest, rfl, hx⟩
    | succ i => exact .inr ⟨i, other, rest, hi, by rw [Nat.add_right_comm, Nat.add_assoc], hx⟩
  · rintro (⟨rest, rfl, hx⟩ | ⟨i, other, rest, hi, rfl, hx⟩)
    · exact ⟨0, part, rest, rfl, rfl, hx⟩
    · exact ⟨i + 1, other, rest, hi, by rw [Nat.add_right_comm, Nat.add_assoc], hx⟩

/-- Behind a part come the parts of higher numbers. -/
theorem exists_rowListing {row : List Expr}
    (h : ∀ part ∈ row, ∃ places, Listing part.NameAt part.occurrences places) (first : Nat) :
    ∃ places, Listing (RowAt row first) (row.flatMap occurrences) places := by
  induction row generalizing first with
  | nil => exact ⟨[], rfl, .nil, fun path x => by simp [RowAt]⟩
  | cons part row ih =>
    obtain ⟨hpart, hrow⟩ := List.forall_mem_cons.mp h
    obtain ⟨here, hhere⟩ := hpart
    obtain ⟨more, hmore⟩ := ih hrow (first + 1)
    refine ⟨here.map (fun place => (first :: place.1, place.2)) ++ more, ?_, ?_, ?_⟩
    · rw [List.map_append, List.map_map, hmore.names_eq, List.flatMap_cons, ← hhere.names_eq]
      rfl
    · refine List.pairwise_append.mpr ⟨?_, hmore.sorted, ?_⟩
      · rw [List.pairwise_map]
        exact hhere.sorted.imp fun hlt => List.cons_lt_cons_iff.mpr (.inr ⟨rfl, hlt⟩)
      · intro a ha b hb
        obtain ⟨place, -, rfl⟩ := List.mem_map.mp ha
        obtain ⟨i, _, rest, -, hpath, -⟩ := (hmore.mem_iff b.1 b.2).mp hb
        rw [hpath]
        exact List.cons_lt_cons_iff.mpr (.inl (by omega))
    · intro path x
      rw [List.mem_append, List.mem_map, hmore.mem_iff, rowAt_cons]
      refine or_congr_left ⟨?_, ?_⟩
      · rintro ⟨⟨rest, y⟩, hplace, heq⟩
        cases heq
        exact ⟨rest, rfl, (hhere.mem_iff rest _).mp hplace⟩
      · rintro ⟨rest, rfl, hx⟩
        exact ⟨(rest, x), (hhere.mem_iff rest x).mpr hx, rfl⟩

theorem nameAt_iff_rowAt {e : Expr} (he : ∀ x, e ≠ name x) (path : List Nat) (x : String) :
    e.NameAt path x ↔ RowAt e.parts 0 path x := by
  cases path with
  | nil =>
    refine ⟨fun h => absurd (Option.some.inj h) (he x), ?_⟩
    rintro ⟨i, part, rest, -, heq, -⟩
    cases heq
  | cons j path =>
    simp only [NameAt, at?, Option.bind_eq_some_iff]
    constructor
    · rintro ⟨part, hpart, hx⟩
      exact ⟨j, part, path, hpart, by rw [Nat.zero_add], hx⟩
    · rintro ⟨i, part, rest, hpart, heq, hx⟩
      rw [Nat.zero_add] at heq
      cases heq
      exact ⟨part, hpart, hx⟩

/-- The names that occur in an expression, by the paths they stand at. -/
theorem exists_listing (e : Expr) : ∃ places, Listing e.NameAt e.occurrences places := by
  obtain ⟨y, rfl⟩ | ⟨hname, hparts⟩ := e.occurrences_eq
  · refine ⟨[([], y)], rfl, List.pairwise_singleton _ _, fun path x => ?_⟩
    cases path with
    | nil => simp [NameAt, at?, eq_comm]
    | cons i path => simp [NameAt, at?, parts]
  · obtain ⟨places, hplaces⟩ := exists_rowListing (fun part _ => exists_listing part) 0
    refine ⟨places, hparts ▸ hplaces.names_eq, hplaces.sorted, fun path x => ?_⟩
    rw [hplaces.mem_iff, nameAt_iff_rowAt hname]
termination_by sizeOf e
decreasing_by exact sizeOf_lt_of_mem_parts (by assumption)

/-! ## First places -/

/-- Of two names that are kept, the first one of all comes with a place in front of every place of
the other. -/
theorem Listing.distinct {stands : List Nat → String → Prop} {names : List String}
    {places : List (List Nat × String)} (h : Listing stands names places) :
    (distinct names).Pairwise fun x y => ∃ p, stands p x ∧ ∀ q, stands q y → p < q := by
  obtain ⟨rfl, hsorted, hmem⟩ := h
  simp only [← hmem]
  clear hmem
  induction places with
  | nil => exact .nil
  | cons place places ih =>
    obtain ⟨path, x⟩ := place
    obtain ⟨hfirst, hsorted⟩ := List.pairwise_cons.mp hsorted
    have hbehind {q : List Nat} {y : String} (hy : y ≠ x) (hq : (q, y) ∈ (path, x) :: places) :
        (q, y) ∈ places := by
      obtain heq | hq := List.mem_cons.mp hq
      · exact absurd (congrArg Prod.snd heq) hy
      · exact hq
    refine List.pairwise_cons.mpr ⟨fun y hy => ?_, ?_⟩
    · have hne : y ≠ x := by simpa using (List.mem_filter.mp hy).2
      exact ⟨path, List.mem_cons_self, fun q hq => hfirst _ (hbehind hne hq)⟩
    · rw [List.pairwise_filter]
      refine (ih hsorted).imp fun ⟨p, hp, hlt⟩ _ hy => ?_
      exact ⟨p, List.mem_cons_of_mem _ hp, fun q hq => hlt q (hbehind (by simpa using hy) hq)⟩

/-- Evaluation looks up no name but those that are collected. Each of them is collected once, in the
order of the first places where they stand, and nothing else is. -/
theorem identifiers_suffice (e : Expr) :
    (∀ a b : Scope, (∀ x ∈ e.identifiers, a x = b x) → e.eval a = e.eval b) ∧
    e.identifiers.Nodup ∧
    (∀ x, x ∈ e.identifiers ↔ ∃ path, e.NameAt path x) ∧
    e.identifiers.Pairwise fun x y => ∃ p, e.NameAt p x ∧ ∀ q, e.NameAt q y → p < q := by
  obtain ⟨places, hplaces⟩ := e.exists_listing
  refine ⟨fun a b h => eval_congr e fun x hx => h x (mem_identifiers.mpr hx),
    nodup_distinct _, fun x => ?_, hplaces.distinct⟩
  rw [mem_identifiers, ← hplaces.names_eq, List.mem_map]
  constructor
  · rintro ⟨⟨path, y⟩, hplace, rfl⟩
    exact ⟨path, (hplaces.mem_iff path y).mp hplace⟩
  · rintro ⟨path, hpath⟩
    exact ⟨(path, x), (hplaces.mem_iff path x).mpr hpath, rfl⟩

namespace Lookup

/-- `b ? a.c : b[a]` -/
def expr : Expr :=
  .conditional (.name "b") (.member (.name "a") "c") (.index (.name "b") (.name "a"))

def scope : Scope := fun x => if x = "b" then some (.int 1) else none

/-- The same but for a name that is only the name of a member. -/
def other : Scope := fun x => if x = "c" then some (.int 2) else scope x

end Lookup

theorem identifiers_suffice_member :
    Lookup.expr.identifiers = ["b", "a"] ∧
      (∀ x ∈ Lookup.expr.identifiers, Lookup.scope x = Lookup.other x) ∧
      Lookup.scope "c" ≠ Lookup.other "c" ∧
      Lookup.expr.eval Lookup.scope = Lookup.expr.eval Lookup.other := by
  have hagree : ∀ x ∈ Lookup.expr.identifiers, Lookup.scope x = Lookup.other x := by
    intro x hx
    have hx : x ∈ ["b", "a"] := hx
    simp only [List.mem_cons, List.not_mem_nil, or_false] at hx
    rcases hx with rfl | rfl <;> rfl
  exact ⟨rfl, hagree, nofun, (identifiers_suffice Lookup.expr).1 _ _ hagree⟩

end Expr

end PugTemplate
