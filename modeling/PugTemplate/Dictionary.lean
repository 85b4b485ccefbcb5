/-!
# Dictionaries in insertion order

A dictionary is the list of its entries. A key keeps the place of its first insertion, and its last
value: `keys_put` and `find?_put` say so.
-/

namespace PugTemplate

abbrev Dictionary (α : Type) := List (String × α)

namespace Dictionary

variable {α : Type}

def find? (key : String) : Dictionary α → Option α
  | [] => none
  | (k, v) :: rest => if k = key then some v else find? key rest

def has (key : String) (d : Dictionary α) : Bool :=
  (find? key d).isSome

def keys (d : Dictionary α) : List String :=
  d.map (·.1)

def put (key : String) (value : α) : Dictionary α → Dictionary α
  | [] => [(key, value)]
  | (k, v) :: rest => if k = key then (k, value) :: rest else (k, v) :: put key value rest

def putAll (d entries : Dictionary α) : Dictionary α :=
  entries.foldl (fun d e => put e.1 e.2 d) d

/-- The dictionary that a sequence of insertions leaves. -/
def ofEntries (entries : List (String × α)) : Dictionary α :=
  putAll [] entries

theorem find?_put (key other : String) (value : α) (d : Dictionary α) :
    find? other (put key value d) = if key = other then some value else find? other d := by
  induction d with
  | nil => simp [put, find?]
  | cons e d ih =>
    obtain ⟨k, v⟩ := e
    by_cases h : k = key
    · subst h; by_cases ho : k = other <;> simp [put, find?, ho]
    · by_cases ho : k = other
      · subst ho; simp [put, find?, h, Ne.symm h]
      · simp [put, find?, h, ho, ih]

@[simp] theorem find?_put_self (key : String) (value : α) (d : Dictionary α) :
    find? key (put key value d) = some value := by
  simp [find?_put]

theorem keys_put (key : String) (value : α) (d : Dictionary α) :
    keys (put key value d) = if key ∈ keys d then keys d else keys d ++ [key] := by
  induction d with
  | nil => simp [put, keys]
  | cons e d ih =>
    obtain ⟨k, v⟩ := e
    by_cases h : k = key
    · subst h; simp [put, keys]
    · simp only [keys] at ih ⊢
      by_cases hk : key ∈ d.map (·.1)
      · simp [put, h, ih, hk]
      · simp [put, h, Ne.symm h, ih, hk]

theorem find?_isSome_iff (key : String) (d : Dictionary α) :
    (find? key d).isSome ↔ key ∈ keys d := by
  induction d with
  | nil => simp [find?, keys]
  | cons e d ih =>
    obtain ⟨k, v⟩ := e
    by_cases h : k = key
    · simp [find?, keys, h]
    · simp only [keys] at ih
      simp [find?, keys, h, Ne.symm h, ih]

end Dictionary

end PugTemplate
