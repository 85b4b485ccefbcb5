import PugTemplate.Link.Path
import PugTemplate.Proofs.Text.Fields

/-!
# Resolved paths

Once dots are followed, a path is a row of names, with a slash in front if it begins at the root. The
way up ends at the root, so nothing is left that would lead out of it, and the last name is that of a
file.
-/

namespace PugTemplate

namespace TemplatePath

/-- A part that names a file or directory, and does not lead to this one or the one above. -/
def IsName (part : List Char) : Prop :=
  part ≠ [] ∧ part ≠ ['.'] ∧ part ≠ ['.', '.'] ∧ '/' ∉ part

/-- A path that stays below its root: each part of it is a name, but for the empty one in front of a
path that begins with a slash, and the last one has a dot in it. -/
structure Contained (path : List Char) : Prop where
  no_dots : ∀ part ∈ fields '/' path, part ≠ ['.'] ∧ part ≠ ['.', '.']
  no_gaps : ∀ part ∈ (fields '/' path).tail, part ≠ []
  begins : (fields '/' path).head? = some [] → isAbsolute path
  file : ∃ part, (fields '/' path).getLast? = some part ∧ '.' ∈ part

/-- Names in a row, from the root or not. -/
def rooted (absolute : Bool) (ps : List (List Char)) : List Char :=
  if absolute then '/' :: join ps else join ps

variable {ps : List (List Char)}

/-! ## Following dots -/

theorem walk_of_isName {part : List Char} (h : IsName part) (above : List (List Char)) :
    walk above part = part :: above := by
  obtain ⟨hempty, hdot, hdots, -⟩ := h
  rw [walk, if_neg (not_or.mpr ⟨hempty, hdot⟩), if_neg hdots]

/-- A step adds a name, or takes one away if there is one. -/
theorem forall_walk {above : List (List Char)} {part : List Char} (ha : ∀ p ∈ above, IsName p)
    (hp : '/' ∉ part) : ∀ p ∈ walk above part, IsName p := by
  unfold walk
  split
  next => exact ha
  next hstays =>
    split
    next => exact fun p hmem => ha p (List.mem_of_mem_tail hmem)
    next hup =>
      rw [not_or] at hstays
      exact List.forall_mem_cons.mpr ⟨⟨hstays.1, hstays.2, hup, hp⟩, ha⟩

theorem forall_parts (path : List Char) : ∀ p ∈ parts path, IsName p := by
  have hwalk : ∀ (fs above : List (List Char)), (∀ f ∈ fs, '/' ∉ f) → (∀ p ∈ above, IsName p) →
      ∀ p ∈ fs.foldl walk above, IsName p := by
    intro fs
    induction fs with
    | nil => exact fun _ _ ha => ha
    | cons f fs ih =>
      intro above hfs ha
      rw [List.forall_mem_cons] at hfs
      exact ih (walk above f) hfs.2 (forall_walk ha hfs.1)
  intro p hp
  exact hwalk (fields '/' path) [] (fun f hf => notMem_of_mem_fields hf)
    (fun _ h => absurd h List.not_mem_nil) p (List.mem_reverse.mp hp)

/-- The empty part in front of a slash leads nowhere. -/
theorem parts_slash (cs : List Char) : parts ('/' :: cs) = parts cs := by
  rw [parts, fields, if_pos rfl]
  rfl

theorem foldl_walk_names (above : List (List Char)) (h : ∀ p ∈ ps, IsName p) :
    ps.foldl walk above = ps.reverse ++ above := by
  induction ps generalizing above with
  | nil => rfl
  | cons p ps ih =>
    rw [List.forall_mem_cons] at h
    rw [List.foldl_cons, walk_of_isName h.1, ih _ h.2, List.reverse_cons, List.append_assoc,
      List.singleton_append]

theorem fields_join (h : ∀ p ∈ ps, IsName p) (hne : ps ≠ []) : fields '/' (join ps) = ps := by
  obtain ⟨p, rest, rfl⟩ := List.exists_cons_of_ne_nil hne
  exact fields_intercalate fun q hq => (h q hq).2.2.2

theorem parts_join (h : ∀ p ∈ ps, IsName p) : parts (join ps) = ps := by
  by_cases hne : ps = []
  · subst hne
    rfl
  · rw [parts, fields_join h hne, foldl_walk_names [] h, List.append_nil, List.reverse_reverse]

/-! ## Names in a row -/

theorem isAbsolute_join (h : ∀ p ∈ ps, IsName p) : isAbsolute (join ps) = false := by
  cases ps with
  | nil => rfl
  | cons p rest =>
    obtain ⟨hempty, -, -, hslash⟩ := h p List.mem_cons_self
    obtain ⟨c, cs, rfl⟩ := List.exists_cons_of_ne_nil hempty
    have hc : c ≠ '/' := fun hc => hslash (hc ▸ List.mem_cons_self)
    have hhead : (join ((c :: cs) :: rest)).head? = some c := by
      cases rest with
      | nil => rw [join, List.intercalate_singleton, List.head?_cons]
      | cons q rest =>
        rw [join, List.intercalate_cons_cons, List.cons_append, List.cons_append, List.head?_cons]
    rw [isAbsolute, hhead]
    exact beq_eq_false_iff_ne.mpr fun he => hc (Option.some.inj he)

theorem normalize_eq (path : List Char) : normalize path = rooted (isAbsolute path) (parts path) :=
  rfl

theorem normalize_rooted (absolute : Bool) (h : ∀ p ∈ ps, IsName p) :
    normalize (rooted absolute ps) = rooted absolute ps := by
  cases absolute with
  | true =>
    have hslash : rooted true ps = '/' :: join ps := rfl
    rw [normalize_eq, hslash, parts_slash, parts_join h]
    rfl
  | false =>
    have hjoin : rooted false ps = join ps := rfl
    rw [normalize_eq, hjoin, isAbsolute_join h, parts_join h, hjoin]

theorem normalize_normalize (path : List Char) :
    normalize (normalize path) = normalize path := by
  rw [normalize_eq path]
  exact normalize_rooted _ (forall_parts path)

theorem fields_rooted (absolute : Bool) (h : ∀ p ∈ ps, IsName p) (hne : ps ≠ []) :
    fields '/' (rooted absolute ps) = if absolute then [] :: ps else ps := by
  cases absolute with
  | true =>
    rw [rooted, if_pos rfl, if_pos rfl, fields, if_pos rfl, fields_join h hne]
  | false =>
    exact fields_join h hne

/-! ## The name of the file -/

theorem forall_reverse_ne {f : List Char} (h : '/' ∉ f) :
    ∀ c ∈ f.reverse, decide (c ≠ '/') = true :=
  fun _ hc => decide_eq_true fun he => h (he ▸ List.mem_reverse.mp hc)

theorem fileName_append {cs f : List Char} (h : '/' ∉ f) : fileName (cs ++ '/' :: f) = f := by
  have hreverse : (cs ++ '/' :: f).reverse = f.reverse ++ '/' :: cs.reverse := by
    rw [List.reverse_append, List.reverse_cons, List.append_assoc, List.singleton_append]
  rw [fileName, hreverse, List.takeWhile_append_of_pos (forall_reverse_ne h),
    List.takeWhile_cons_of_neg (by simp), List.append_nil, List.reverse_reverse]

theorem fileName_of_notMem {f : List Char} (h : '/' ∉ f) : fileName f = f := by
  have htake := @List.takeWhile_append_of_pos _ _ f.reverse [] (forall_reverse_ne h)
  rw [List.append_nil, List.takeWhile_nil, List.append_nil] at htake
  rw [fileName, htake, List.reverse_reverse]

/-- What stands in front of the last name does not depend on it. -/
theorem exists_join_append (above : List (List Char)) :
    ∃ front, (∀ file, join (above ++ [file]) = front ++ file) ∧
      (front = [] ∨ ∃ cs, front = cs ++ ['/']) := by
  induction above with
  | nil => exact ⟨[], fun file => List.intercalate_singleton, Or.inl rfl⟩
  | cons p above ih =>
    obtain ⟨front, hfront, hends⟩ := ih
    have hcons : ∀ file, join (p :: above ++ [file]) = p ++ '/' :: join (above ++ [file]) := by
      intro file
      obtain ⟨q, rest, hq⟩ := List.exists_cons_of_ne_nil
        (List.append_ne_nil_of_right_ne_nil above (List.cons_ne_nil file []))
      rw [List.cons_append, hq, join, List.intercalate_cons_cons, List.append_assoc]
      rfl
    refine ⟨p ++ '/' :: front, fun file => ?_, Or.inr ?_⟩
    · rw [hcons, hfront, List.append_assoc, List.cons_append]
    · rcases hends with rfl | ⟨cs, rfl⟩
      · exact ⟨p, rfl⟩
      · exact ⟨p ++ '/' :: cs, by rw [List.append_assoc, List.cons_append]⟩

theorem exists_rooted_append (absolute : Bool) (above : List (List Char)) :
    ∃ front, (∀ file, rooted absolute (above ++ [file]) = front ++ file) ∧
      (front = [] ∨ ∃ cs, front = cs ++ ['/']) := by
  obtain ⟨front, hfront, hends⟩ := exists_join_append above
  cases absolute with
  | false => exact ⟨front, hfront, hends⟩
  | true =>
    refine ⟨'/' :: front, fun file => congrArg ('/' :: ·) (hfront file), Or.inr ?_⟩
    rcases hends with rfl | ⟨cs, rfl⟩
    · exact ⟨[], rfl⟩
    · exact ⟨'/' :: cs, rfl⟩

theorem fileName_rooted (absolute : Bool) (above : List (List Char)) {file : List Char}
    (h : '/' ∉ file) : fileName (rooted absolute (above ++ [file])) = file := by
  obtain ⟨front, hfront, rfl | ⟨cs, rfl⟩⟩ := exists_rooted_append absolute above
  · rw [hfront, List.nil_append, fileName_of_notMem h]
  · rw [hfront, List.append_assoc, List.singleton_append, fileName_append h]

theorem isName_extended {file : List Char} (h : '/' ∉ file) : IsName (file ++ extension) := by
  have hlength : 4 ≤ (file ++ extension).length := by
    rw [List.length_append]
    exact Nat.le_add_left 4 file.length
  have hslash : '/' ∉ extension := by decide
  refine ⟨?_, ?_, ?_, fun hmem => (List.mem_append.mp hmem).elim h hslash⟩
  all_goals
    intro he
    rw [he] at hlength
    exact absurd hlength (by decide)

/-- The extension only changes the last name, and makes one if there is none. -/
theorem withExtension_rooted (absolute : Bool) (h : ∀ p ∈ ps, IsName p) :
    ∃ above file, withExtension (rooted absolute ps) = rooted absolute (above ++ [file]) ∧
      (∀ p ∈ above ++ [file], IsName p) ∧ '.' ∈ file := by
  have hdot : '.' ∈ extension := by decide
  rcases List.eq_nil_or_concat ps with rfl | ⟨above, file, rfl⟩
  · refine ⟨[], extension, by cases absolute <;> rfl, ?_, hdot⟩
    exact List.forall_mem_singleton.mpr (@isName_extended [] List.not_mem_nil)
  · rw [List.concat_eq_append, List.forall_mem_append, List.forall_mem_singleton] at h
    rw [List.concat_eq_append, withExtension, fileName_rooted absolute above h.2.2.2.2]
    split
    next hfile =>
      exact ⟨above, file, rfl, List.forall_mem_append.mpr
        ⟨h.1, List.forall_mem_singleton.mpr h.2⟩, hfile⟩
    next =>
      obtain ⟨front, hfront, -⟩ := exists_rooted_append absolute above
      refine ⟨above, file ++ extension, ?_, List.forall_mem_append.mpr ⟨h.1,
        List.forall_mem_singleton.mpr (isName_extended h.2.2.2.2)⟩, List.mem_append_right file hdot⟩
      rw [hfront, hfront, List.append_assoc]

theorem contained_rooted (absolute : Bool) {above : List (List Char)} {file : List Char}
    (h : ∀ p ∈ above ++ [file], IsName p) (hdot : '.' ∈ file) :
    Contained (rooted absolute (above ++ [file])) := by
  have hne : above ++ [file] ≠ [] := List.append_ne_nil_of_right_ne_nil above (List.cons_ne_nil _ _)
  have hfields := fields_rooted absolute h hne
  have hlast : (above ++ [file]).getLast? = some file := List.getLast?_concat
  cases absolute with
  | true =>
    rw [if_pos rfl] at hfields
    refine ⟨?_, ?_, fun _ => rfl, file, ?_, hdot⟩ <;> rw [hfields]
    · exact List.forall_mem_cons.mpr ⟨by simp, fun p hp => ⟨(h p hp).2.1, (h p hp).2.2.1⟩⟩
    · exact fun p hp => (h p hp).1
    · rw [List.getLast?_cons, hlast]
      rfl
  | false =>
    rw [if_neg Bool.false_ne_true] at hfields
    refine ⟨?_, ?_, fun hhead => ?_, file, ?_, hdot⟩
    · rw [hfields]
      exact fun p hp => ⟨(h p hp).2.1, (h p hp).2.2.1⟩
    · rw [hfields]
      exact fun p hp => (h p (List.mem_of_mem_tail hp)).1
    -- a row of names does not begin with an empty one
    · rw [hfields] at hhead
      exact absurd rfl (h [] (List.mem_of_mem_head? hhead)).1
    · rw [hfields]
      exact hlast

end TemplatePath

open TemplatePath

theorem exists_rooted_resolvePath (basedir : Option String) (current target : String) :
    ∃ absolute above file,
      (resolvePath basedir current target).toList = rooted absolute (above ++ [file]) ∧
        (∀ p ∈ above ++ [file], IsName p) ∧ '.' ∈ file := by
  rw [resolvePath, String.toList_ofList, normalize_eq]
  exact ⟨_, withExtension_rooted _ (forall_parts _)⟩

/-- Wherever a reference stands and whatever it says, it leads to a path below the root. -/
theorem contained_resolvePath (basedir : Option String) (current target : String) :
    Contained (resolvePath basedir current target).toList := by
  obtain ⟨absolute, above, file, he, hnames, hdot⟩ :=
    exists_rooted_resolvePath basedir current target
  exact he ▸ contained_rooted absolute hnames hdot

theorem normalize_resolvePath (basedir : Option String) (current target : String) :
    TemplatePath.normalize (resolvePath basedir current target).toList =
      (resolvePath basedir current target).toList := by
  obtain ⟨absolute, above, file, he, hnames, -⟩ :=
    exists_rooted_resolvePath basedir current target
  rw [he, normalize_rooted absolute hnames]

end PugTemplate
