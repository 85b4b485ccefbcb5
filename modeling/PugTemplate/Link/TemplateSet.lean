import PugTemplate.Dictionary

/-!
# Sets of templates

Sources by path. A path with the extension of templates also leads to a source that is stored
without it; `mem_paths_of_fetch?` bounds the paths that lead anywhere.
-/

namespace PugTemplate

abbrev TemplateSet := Dictionary String

namespace TemplateSet

def extension : String := ".pug"

/-- The path without the extension of templates. -/
def stem? (path : String) : Option String :=
  if extension.toList.isSuffixOf path.toList then
    some (String.ofList (path.toList.take (path.toList.length - extension.toList.length)))
  else none

/-- The source that a path leads to. -/
def fetch? (set : TemplateSet) (path : String) : Option String :=
  match Dictionary.find? path set with
  | some source => some source
  | none => (stem? path).bind fun stem => Dictionary.find? stem set

/-- All paths that lead to a source. -/
def paths (set : TemplateSet) : List String :=
  Dictionary.keys set ++ (Dictionary.keys set).map fun k => k ++ extension

theorem append_of_stem? {path stem : String} (h : stem? path = some stem) :
    stem ++ extension = path := by
  unfold stem? at h
  split at h
  next hs =>
    obtain ⟨t, ht⟩ := List.isSuffixOf_iff_suffix.mp hs
    rw [← Option.some.inj h]
    apply String.toList_inj.mp
    rw [String.toList_append, String.toList_ofList, ← ht]
    simp
  next => simp at h

theorem mem_paths_of_fetch? {set : TemplateSet} {path source : String}
    (h : fetch? set path = some source) : path ∈ paths set := by
  unfold fetch? at h
  cases hf : Dictionary.find? path set with
  | some s =>
    have : path ∈ Dictionary.keys set := (Dictionary.find?_isSome_iff path set).mp (by simp [hf])
    exact List.mem_append_left _ this
  | none =>
    simp only [hf, Option.bind_eq_some_iff] at h
    obtain ⟨stem, hs, hf⟩ := h
    have : stem ∈ Dictionary.keys set := (Dictionary.find?_isSome_iff stem set).mp (by simp [hf])
    rw [← append_of_stem? hs]
    exact List.mem_append_right _ (List.mem_map.mpr ⟨stem, this, rfl⟩)

/-- The paths of a set that are not among those given. -/
def unvisited (set : TemplateSet) (visited : List String) : List String :=
  (paths set).filter fun p => p ∉ visited

theorem unvisited_cons (set : TemplateSet) (path : String) (visited : List String) :
    unvisited set (path :: visited) = (unvisited set visited).filter fun p => p ≠ path := by
  simp only [unvisited, List.filter_filter]
  apply List.filter_congr
  intro p _
  by_cases hp : p = path <;> simp [hp]

/-- One more path visited is one path less to go. -/
theorem length_unvisited_lt {set : TemplateSet} {visited : List String} {path source : String}
    (hv : path ∉ visited) (hf : fetch? set path = some source) :
    (unvisited set (path :: visited)).length < (unvisited set visited).length := by
  have hm : path ∈ unvisited set visited :=
    List.mem_filter.mpr ⟨mem_paths_of_fetch? hf, by simpa using hv⟩
  have hle := List.length_filter_le (fun p => decide (p ≠ path)) (unvisited set visited)
  have hne : ((unvisited set visited).filter fun p => p ≠ path).length ≠
      (unvisited set visited).length := by
    intro he
    have := List.length_filter_eq_length_iff.mp he path hm
    simp at this
  rw [unvisited_cons]
  omega

end TemplateSet

end PugTemplate
