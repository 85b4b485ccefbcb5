import PugTemplate.Text.Lines

/-!
# Fields of a text

Cutting a text at a separator and putting the fields together again undo each other.
-/

namespace PugTemplate

variable {sep : Char}

theorem exists_fields_cons (sep : Char) (cs : List Char) : ∃ f fs, fields sep cs = f :: fs := by
  cases cs with
  | nil => exact ⟨[], [], rfl⟩
  | cons c cs =>
    unfold fields
    split
    · exact ⟨_, _, rfl⟩
    · split
      · exact ⟨_, _, rfl⟩
      · exact ⟨_, _, rfl⟩

theorem fields_of_notMem {cs : List Char} (h : sep ∉ cs) : fields sep cs = [cs] := by
  induction cs with
  | nil => rfl
  | cons c cs ih =>
    obtain ⟨hc, hcs⟩ := not_or.mp (mt List.mem_cons.mpr h)
    rw [fields, if_neg (Ne.symm hc), ih hcs]

theorem fields_append_cons {cs : List Char} (h : sep ∉ cs) (ds : List Char) :
    fields sep (cs ++ sep :: ds) = cs :: fields sep ds := by
  induction cs with
  | nil => exact if_pos rfl
  | cons c cs ih =>
    obtain ⟨hc, hcs⟩ := not_or.mp (mt List.mem_cons.mpr h)
    rw [List.cons_append, fields, if_neg (Ne.symm hc), ih hcs]

theorem notMem_of_mem_fields {cs f : List Char} (h : f ∈ fields sep cs) : sep ∉ f := by
  induction cs generalizing f with
  | nil =>
    cases List.mem_singleton.mp h
    exact List.not_mem_nil
  | cons c cs ih =>
    rw [fields] at h
    split at h
    next =>
      rcases List.mem_cons.mp h with rfl | h
      · exact List.not_mem_nil
      · exact ih h
    next hc =>
      obtain ⟨first, rest, hcs⟩ := exists_fields_cons sep cs
      rw [hcs] at h ih
      rcases List.mem_cons.mp h with rfl | h
      -- the first field has the new character, which is no separator
      · rw [List.mem_cons, not_or]
        exact ⟨Ne.symm hc, ih List.mem_cons_self⟩
      · exact ih (List.mem_cons_of_mem _ h)

/-- Fields that are put together with separators are the fields of the text. -/
theorem fields_intercalate {f : List Char} {fs : List (List Char)} (h : ∀ g ∈ f :: fs, sep ∉ g) :
    fields sep (List.intercalate [sep] (f :: fs)) = f :: fs := by
  induction fs generalizing f with
  | nil =>
    rw [List.intercalate_singleton]
    exact fields_of_notMem (h f List.mem_cons_self)
  | cons g gs ih =>
    obtain ⟨hf, hgs⟩ := List.forall_mem_cons.mp h
    rw [List.intercalate_cons_cons, List.append_assoc, List.singleton_append,
      fields_append_cons hf, ih hgs]

end PugTemplate
