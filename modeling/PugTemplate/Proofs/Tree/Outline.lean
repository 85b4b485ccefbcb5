import PugTemplate.Proofs.Lex.Widths
import PugTemplate.Tree.Segment

/-!
# The tree of an outline

The lines of an outline become tags, each over the deeper lines behind it. So the tag a line stands
in is that of the nearest line before with a smaller width.
-/

namespace PugTemplate

/-- A tag with nothing but what stands below it. -/
def Heading.node (h : Heading) (below : List Node) : Node :=
  .tag h.loc (.fixed h.name) {} false false below

/-- Each line over the deeper ones behind it. -/
def forest : List Heading → List Node
  | [] => []
  | h :: hs =>
    h.node (forest (hs.takeWhile (h.width < ·.width))) :: forest (hs.dropWhile (h.width < ·.width))
termination_by hs => hs.length
decreasing_by
  · exact Nat.lt_succ_of_le (List.takeWhile_prefix _).length_le
  · exact Nat.lt_succ_of_le (List.dropWhile_suffix _).length_le

/-! ## Runs of deeper lines -/

section Deeper

variable {v w : Nat} {hs : List Heading}

theorem le_of_dropWhile : ∀ x ∈ (hs.dropWhile (w < ·.width)).head?, x.width ≤ w := by
  intro x hx
  have h := List.head?_dropWhile_not (fun x : Heading => decide (w < x.width)) hs
  rw [hx] at h
  simpa using h

theorem none_deeper (hle : ∀ x ∈ hs.head?, x.width ≤ w) :
    hs.takeWhile (w < ·.width) = [] ∧ hs.dropWhile (w < ·.width) = hs := by
  cases hs with
  | nil => exact ⟨rfl, rfl⟩
  | cons x hs =>
    have hx : ¬ w < x.width := Nat.not_lt.mpr (hle x rfl)
    simp [hx]

/-- Lines that are deeper than one width are as deep as another, if the first that is not as deep is
not deeper either. -/
theorem deeper_eq (hlt : w < v) (hend : ∀ x ∈ (hs.dropWhile (v ≤ ·.width)).head?, x.width ≤ w) :
    hs.takeWhile (w < ·.width) = hs.takeWhile (v ≤ ·.width) ∧
      hs.dropWhile (w < ·.width) = hs.dropWhile (v ≤ ·.width) := by
  induction hs with
  | nil => exact ⟨rfl, rfl⟩
  | cons x hs ih =>
    -- a line that is not as deep ends both runs, since it is not deeper either
    by_cases hx : v ≤ x.width
    · have hw : w < x.width := by omega
      simp only [List.takeWhile_cons, List.dropWhile_cons, hx, hw, decide_true, if_true] at hend ⊢
      exact ⟨congrArg (x :: ·) (ih hend).1, (ih hend).2⟩
    · simp only [List.dropWhile_cons, hx, decide_false, Bool.false_eq_true, if_false] at hend
      have hw : ¬ w < x.width := Nat.not_lt.mpr (hend x rfl)
      simp [hx, hw]

/-- The lines that are as deep as a width are those that are deeper and some behind them. -/
theorem asDeep_eq (v : Nat) (hs : List Heading) :
    (hs.takeWhile (v ≤ ·.width)).takeWhile (v < ·.width) = hs.takeWhile (v < ·.width) ∧
      (hs.takeWhile (v ≤ ·.width)).dropWhile (v < ·.width) =
        (hs.dropWhile (v < ·.width)).takeWhile (v ≤ ·.width) ∧
      (hs.dropWhile (v < ·.width)).dropWhile (v ≤ ·.width) = hs.dropWhile (v ≤ ·.width) := by
  induction hs with
  | nil => exact ⟨rfl, rfl, rfl⟩
  | cons x hs ih =>
    by_cases hlt : v < x.width
    · have hle : v ≤ x.width := Nat.le_of_lt hlt
      simpa [hlt, hle] using ih
    · by_cases hle : v ≤ x.width
      · simp [hlt, hle]
      · simp [hlt, hle]

end Deeper

/-- The tree of the lines that are as deep as the first one. -/
theorem forest_asDeep (h : Heading) (hs : List Heading) :
    forest ((h :: hs).takeWhile (h.width ≤ ·.width)) =
      h.node (forest (hs.takeWhile (h.width < ·.width))) ::
        forest ((hs.dropWhile (h.width < ·.width)).takeWhile (h.width ≤ ·.width)) := by
  obtain ⟨hbelow, hmore, -⟩ := asDeep_eq h.width hs
  rw [List.takeWhile_cons_of_pos (by simp), forest, hbelow, hmore]

/-! ## The nearest line before that is less deep -/

mutual

/-- The tags of a tree from the top, each with its name and the place of the tag it stands in. -/
def Node.family (above : Option Location) : Node → List (Location × NameSource × Option Location)
  | .tag loc name _ _ _ body => (loc, name, above) :: familyAll (some loc) body
  | _ => []

def familyAll (above : Option Location) :
    List Node → List (Location × NameSource × Option Location)
  | [] => []
  | n :: ns => n.family above ++ familyAll above ns

end

/-- Every line with the nearest line before that has a smaller width, or with what is above them
all. The lines before come with the nearest first. -/
def parents (above : Option Location) (before : List Heading) :
    List Heading → List (Location × NameSource × Option Location)
  | [] => []
  | h :: hs =>
    (h.loc, .fixed h.name, ((before.find? (·.width < h.width)).map Heading.loc).or above) ::
      parents above (h :: before) hs

section Parents

variable {above : Option Location} {before hs : List Heading}

theorem parents_append (more : List Heading) :
    parents above before (hs ++ more) =
      parents above before hs ++ parents above (hs.reverse ++ before) more := by
  induction hs generalizing before with
  | nil => rfl
  | cons h hs ih =>
    rw [List.cons_append, parents, parents, ih, List.reverse_cons, List.append_assoc]
    rfl

/-- Lines that are all deeper than the one above them have it for the last resort. -/
theorem parents_below {h : Heading} (hdeep : ∀ x ∈ hs, h.width < x.width) :
    parents above (before ++ [h]) hs = parents (some h.loc) before hs := by
  induction hs generalizing before with
  | nil => rfl
  | cons x hs ih =>
    obtain ⟨hx, hmore⟩ := List.forall_mem_cons.mp hdeep
    have hself : [h].find? (fun p => decide (p.width < x.width)) = some h := by
      rw [List.find?_cons_of_pos (by simpa using hx)]
    rw [parents, parents, ← List.cons_append, ih hmore, List.find?_append, hself]
    cases before.find? (fun p => decide (p.width < x.width)) <;> rfl

/-- Behind a line that is not deeper than some lines, these are nobody's parents any more. -/
theorem parents_behind {old : List Heading} {w : Nat} (hold : ∀ x ∈ old, w ≤ x.width)
    (hpast : (∃ p ∈ before, p.width ≤ w) ∨ ∀ p ∈ hs.head?, p.width ≤ w) :
    parents above (before ++ old) hs = parents above before hs := by
  induction hs generalizing before with
  | nil => rfl
  | cons x hs ih =>
    have hfind : (before ++ old).find? (fun p => decide (p.width < x.width)) =
        before.find? (fun p => decide (p.width < x.width)) := by
      rw [List.find?_append]
      by_cases hx : x.width ≤ w
      · have hnone : old.find? (fun p => decide (p.width < x.width)) = none := by
          rw [List.find?_eq_none]
          intro p hp hlt
          have hw := hold p hp
          have hlt : p.width < x.width := of_decide_eq_true hlt
          omega
        rw [hnone, Option.or_none]
      · -- the line is deeper again, so its parent is not further back than the one that was not
        obtain ⟨p, hp, hle⟩ := hpast.resolve_right fun hfirst => hx (hfirst x rfl)
        have hsome : (before.find? (fun p => decide (p.width < x.width))).isSome := by
          rw [List.find?_isSome]
          exact ⟨p, hp, decide_eq_true (by omega)⟩
        exact Option.or_of_isSome hsome
    have hpast' : ∃ p ∈ x :: before, p.width ≤ w := by
      rcases hpast with ⟨p, hp, hle⟩ | hfirst
      · exact ⟨p, List.mem_cons_of_mem _ hp, hle⟩
      · exact ⟨x, List.mem_cons_self, hfirst x rfl⟩
    rw [parents, parents, hfind, ← List.cons_append, ih (Or.inl hpast')]

end Parents

/-- In the tree of some lines, a line stands in the nearest one before that is less deep. -/
theorem familyAll_forest (above : Option Location) (hs : List Heading) :
    familyAll above (forest hs) = parents above [] hs := by
  fun_induction forest hs generalizing above with
  | case1 => rfl
  | case2 h hs ihbelow ihmore =>
    have hdeep : ∀ x ∈ hs.takeWhile (h.width < ·.width), h.width < x.width :=
      fun x hx => by simpa using List.mem_takeWhile_imp hx
    -- all that stand in the tag are as deep as its line, so the lines behind pass them over
    have hold : ∀ x ∈ (hs.takeWhile (h.width < ·.width)).reverse ++ [h], h.width ≤ x.width := by
      intro x hx
      rcases List.mem_append.mp hx with hx | hx
      · exact Nat.le_of_lt (hdeep x (List.mem_reverse.mp hx))
      · rw [List.mem_singleton.mp hx]
    have hbelow : parents above [h] (hs.takeWhile (h.width < ·.width)) =
        parents (some h.loc) [] (hs.takeWhile (h.width < ·.width)) :=
      @parents_below above [] _ h hdeep
    have hbehind : parents above ((hs.takeWhile (h.width < ·.width)).reverse ++ [h])
          (hs.dropWhile (h.width < ·.width)) =
        parents above [] (hs.dropWhile (h.width < ·.width)) :=
      @parents_behind above [] _ _ h.width hold (Or.inr le_of_dropWhile)
    calc familyAll above (h.node (forest (hs.takeWhile (h.width < ·.width))) ::
          forest (hs.dropWhile (h.width < ·.width)))
        = (h.loc, .fixed h.name, above) ::
            (parents (some h.loc) [] (hs.takeWhile (h.width < ·.width)) ++
              parents above [] (hs.dropWhile (h.width < ·.width))) := by
          rw [familyAll, Heading.node, Node.family, ihbelow, ihmore, List.cons_append]
      _ = (h.loc, .fixed h.name, above) ::
            parents above [h] (hs.takeWhile (h.width < ·.width) ++
              hs.dropWhile (h.width < ·.width)) := by
          rw [parents_append, hbelow, hbehind]
      _ = parents above [] (h :: hs) := by
          rw [List.takeWhile_append_dropWhile]
          rfl

/-! ## What is left of a stream -/

/-- How a stream goes on where a line may start in the innermost block: none does any more, the next
one does, or it closes the block. -/
inductive Resumes (stop : Location) (ws : List Nat) : List Heading → List Token → Prop
  | finish : Resumes stop ws [] ((⟨ws, none⟩ : Layout).finish stop)
  | newline {hs : List Heading} {ts : List Token} (loc : Location) (more : Resumes stop ws hs ts) :
      Resumes stop ws hs (⟨.newline, loc⟩ :: ts)
  | line {h : Heading} {hs : List Heading} {ts : List Token} (same : h.width = ws.headD 0)
      (more : outlineTokens stop ws hs = .ok ts) : Resumes stop ws (h :: hs) (h.token :: ts)
  | close {h : Heading} {hs : List Heading} {ts : List Token} (less : h.width < ws.headD 0)
      (more : outlineTokens stop ws (h :: hs) = .ok ts) : Resumes stop ws (h :: hs) ts

section Tokens

variable {stop : Location} {ws : List Nat} {h : Heading} {hs : List Heading} {ts : List Token}

theorem outlineTokens_close {v : Nat} (hlt : h.width < v)
    (hts : outlineTokens stop (v :: ws) (h :: hs) = .ok ts) :
    ∃ loc more, ts = ⟨.outdent, loc⟩ :: more ∧ Resumes stop ws (h :: hs) more := by
  obtain ⟨first, l, more, hsettle, hmore, rfl⟩ := outlineTokens_cons hts
  obtain ⟨rest, rfl, ⟨heq, rfl, rfl⟩ | ⟨hless, hrest⟩⟩ := Layout.settle_close hlt hsettle
  · exact ⟨_, _, rfl, .line heq hmore⟩
  · refine ⟨_, _, rfl, .close hless ?_⟩
    rw [outlineTokens_of_ok hs hrest, hmore]
    rfl

/-- Behind a name its line ends, and a block opens or the stream goes on where it was. -/
theorem outlineTokens_cases (hts : outlineTokens stop ws hs = .ok ts) :
    (∃ h hs' ts', hs = h :: hs' ∧ ws.headD 0 < h.width ∧
      ts = ⟨.indent h.width, h.loc⟩ :: ts' ∧ Resumes stop (h.width :: ws) hs ts') ∨
    Resumes stop ws hs ts ∧
      ∃ t more, ts = t :: more ∧ (t.kind = .newline ∨ t.kind = .outdent ∨ t.kind = .eos) := by
  cases hs with
  | nil =>
    cases hts
    refine Or.inr ⟨.finish, ?_⟩
    cases ws with
    | nil => exact ⟨_, _, rfl, by simp⟩
    | cons w ws => exact ⟨_, _, rfl, by simp⟩
  | cons h hs =>
    obtain ⟨first, l, more, hsettle, hmore, rfl⟩ := outlineTokens_cons hts
    obtain ⟨hlt, rfl, rfl⟩ | ⟨heq, rfl, rfl⟩ | ⟨hlt, -⟩ := Layout.settle_cases hsettle
    · exact Or.inl ⟨h, hs, _, rfl, hlt, rfl, .line rfl hmore⟩
    · exact Or.inr ⟨.newline _ (.line heq hmore), _, _, rfl, by simp⟩
    · refine Or.inr ⟨.close hlt hts, ?_⟩
      cases ws with
      | nil => exact absurd hlt (Nat.not_lt_zero _)
      | cons w ws =>
        obtain ⟨loc, rest, heq, -⟩ := outlineTokens_close hlt hts
        exact ⟨_, _, heq, by simp⟩

theorem Resumes.le (hres : Resumes stop ws hs ts) : ∀ x ∈ hs.head?, x.width ≤ ws.headD 0 := by
  induction hres with
  | finish => exact fun x hx => nomatch hx
  | newline loc more ih => exact ih
  | line same more =>
    rintro x ⟨⟩
    exact Nat.le_of_eq same
  | close less more =>
    rintro x ⟨⟩
    exact Nat.le_of_lt less

/-! ## Reading the tree -/

variable (cx : TreeContext)

/-- A name is a tag over the block that follows, if one does. -/
theorem Node.read_heading (hts : outlineTokens stop ws hs = .ok ts) :
    Node.read cx h.token ts = (fun r => ([h.node r.1], r.2)) <$> readOptionalBlock cx ts := by
  have hends : ∃ kind loc more, ts = ⟨kind, loc⟩ :: more ∧
      (kind = .newline ∨ kind = .outdent ∨ kind = .eos ∨ ∃ width, kind = .indent width) := by
    obtain ⟨_, _, _, _, _, rfl, _⟩ | ⟨_, t, more, rfl, hkind⟩ := outlineTokens_cases hts
    · exact ⟨_, _, _, rfl, by simp⟩
    · exact ⟨t.kind, t.loc, more, rfl, hkind.imp_right fun h => h.imp_right Or.inl⟩
  obtain ⟨kind, loc, more, rfl, hkind⟩ := hends
  have hhead : Head.read cx.stop {} (⟨kind, loc⟩ :: more) = .ok ({}, 0) := by
    rcases hkind with rfl | rfl | rfl | ⟨width, rfl⟩ <;> simp [Head.read, pure, Except.pure]
  have hinline : readInline cx true (⟨kind, loc⟩ :: more) = .ok ([], false, 0) := by
    rcases hkind with rfl | rfl | rfl | ⟨width, rfl⟩ <;> simp [readInline, pure, Except.pure]
  have hdot : (kind == .dot) = false := by
    rcases hkind with rfl | rfl | rfl | ⟨width, rfl⟩ <;> rfl
  have helement : readElement cx h.loc (.fixed h.name) h.name (⟨kind, loc⟩ :: more) =
      (fun r => (h.node r.1, r.2)) <$> readOptionalBlock cx (⟨kind, loc⟩ :: more) := by
    rw [readElement, hhead]
    simp only [bind, Except.bind, List.drop_zero, List.head?_cons, Option.any_some, hdot,
      Option.isNone_none, hinline, Bool.false_eq_true, if_false, false_and, List.nil_append,
      Nat.zero_add]
    cases readOptionalBlock cx (⟨kind, loc⟩ :: more) <;> rfl
  rw [Heading.token, Node.read, helement]
  cases readOptionalBlock cx (⟨kind, loc⟩ :: more) <;> rfl

theorem readItems_outdent (loc : Location) (ts : List Token) :
    readItems cx (⟨.outdent, loc⟩ :: ts) = .ok ([], 1) := by
  simp [readItems, pure, Except.pure]

theorem readItems_heading {below more : List Node} {k m : Nat}
    (hts : outlineTokens stop ws hs = .ok ts) (hbelow : readOptionalBlock cx ts = .ok (below, k))
    (hmore : readItems cx (ts.drop k) = .ok (more, m)) :
    readItems cx (h.token :: ts) = .ok (h.node below :: more, k + m + 1) := by
  have hread : Node.read cx ⟨.tag h.name, h.loc⟩ ts = .ok ([h.node below], k) := by
    rw [← Heading.token, Node.read_heading cx hts, hbelow]
    rfl
  simp [Heading.token, readItems, hread, hmore, bind, Except.bind, pure, Except.pure]

mutual

/-- A block is read up to the first line that is less deep. The recursion is on the tokens that are
left, as it is in the readers. -/
theorem readItems_of_resumes {v : Nat} {ws : List Nat} {hs : List Heading} {ts : List Token}
    (hres : Resumes stop (v :: ws) hs ts) :
    ∃ k, readItems cx ts = .ok (forest (hs.takeWhile (v ≤ ·.width)), k) ∧
      Resumes stop ws (hs.dropWhile (v ≤ ·.width)) (ts.drop k) := by
  cases hres with
  | finish =>
    refine ⟨1, ?_, .finish⟩
    rw [List.takeWhile_nil, forest]
    exact readItems_outdent cx stop _
  | newline loc more =>
    obtain ⟨k, hread, hrest⟩ := readItems_of_resumes more
    refine ⟨k + 1, ?_, hrest⟩
    rw [readItems, hread]
    rfl
  | @line h hs ts same more =>
    obtain rfl : h.width = v := same
    -- the block below the line, then the lines beside it
    obtain ⟨k, hread, hrest⟩ := readOptionalBlock_of_tokens more
    obtain ⟨m, hitems, hback⟩ := readItems_of_resumes hrest
    refine ⟨k + m + 1, ?_, ?_⟩
    · rw [forest_asDeep, readItems_heading cx more hread hitems]
      rfl
    · rw [List.dropWhile_cons_of_pos (by simp), ← (asDeep_eq h.width hs).2.2, List.drop_succ_cons,
        ← List.drop_drop]
      exact hback
  | @close h hs ts less more =>
    obtain ⟨loc, rest, rfl, hrest⟩ := outlineTokens_close less more
    have hle : ¬ v ≤ h.width := Nat.not_le.mpr less
    refine ⟨1, ?_, ?_⟩
    · rw [readItems_outdent, List.takeWhile_cons_of_neg (by simpa using hle), forest]
    · rw [List.dropWhile_cons_of_neg (by simpa using hle)]
      exact hrest
termination_by (ts.length, 1)

/-- Below a name stand the lines that are deeper. -/
theorem readOptionalBlock_of_tokens {ws : List Nat} {hs : List Heading} {ts : List Token}
    (hts : outlineTokens stop ws hs = .ok ts) :
    ∃ k, readOptionalBlock cx ts = .ok (forest (hs.takeWhile (ws.headD 0 < ·.width)), k) ∧
      Resumes stop ws (hs.dropWhile (ws.headD 0 < ·.width)) (ts.drop k) := by
  obtain ⟨h, hs', ts', rfl, hlt, rfl, hmore⟩ | ⟨hres, t, more, rfl, hkind⟩ :=
    outlineTokens_cases hts
  · obtain ⟨k, hread, hrest⟩ := readItems_of_resumes hmore
    -- what goes on behind the block is not deeper than the name, so the block has all that is
    obtain ⟨htake, hdrop⟩ := deeper_eq hlt hrest.le
    refine ⟨k + 1, ?_, ?_⟩
    · rw [readOptionalBlock, hread, htake]
      rfl
    · rw [hdrop]
      exact hrest
  · have hnone : readOptionalBlock cx (t :: more) = .ok ([], 0) := by
      obtain ⟨kind, loc⟩ := t
      rcases hkind with rfl | rfl | rfl <;> simp [readOptionalBlock, pure, Except.pure]
    obtain ⟨htake, hdrop⟩ := none_deeper hres.le
    refine ⟨0, ?_, ?_⟩
    · rw [hnone, htake, forest]
    · rw [hdrop]
      exact hres
termination_by (ts.length, 0)

end

theorem readDocument_of_resumes {hs : List Heading} {ts : List Token}
    (hres : Resumes stop [] hs ts) : readDocument cx ts = .ok (forest hs) := by
  cases hres with
  | finish => simp [Layout.finish, Layout.outdents, readDocument, forest, pure, Except.pure]
  | newline loc more =>
    rw [readDocument]
    exact readDocument_of_resumes more
  | @line h hs ts same more =>
    obtain ⟨k, hbelow, hrest⟩ := readOptionalBlock_of_tokens cx more
    have hread : Node.read cx ⟨.tag h.name, h.loc⟩ ts =
        .ok ([h.node (forest (hs.takeWhile (0 < ·.width)))], k) := by
      rw [← Heading.token, Node.read_heading cx more, hbelow]
      rfl
    have hmore : readDocument cx (ts.drop k) = .ok (forest (hs.dropWhile (0 < ·.width))) :=
      readDocument_of_resumes hrest
    have hw : h.width = 0 := same
    rw [forest, hw]
    simp [Heading.token, readDocument, hread, hmore, bind, Except.bind, pure, Except.pure]
  | close less more => exact absurd less (Nat.not_lt_zero _)
termination_by ts.length

end Tokens

section Outline

variable {indent : Char} {ls : List OutlineLine}

theorem resumes_of_lex {tokens : List Token} (hi : isIndent indent) (hls : ∀ l ∈ ls, l.Sound)
    (hfirst : ∀ h ∈ (headingsFrom 1 ls).head?, h.width = 0)
    (ht : lex (outlineSource indent ls) = .ok tokens) :
    ∃ stop, Resumes stop [] (headingsFrom 1 ls) tokens := by
  obtain ⟨stop, hrun⟩ := lex_outlineSource hi hls hfirst
  rw [ht] at hrun
  refine ⟨stop, ?_⟩
  cases hhs : headingsFrom 1 ls with
  | nil =>
    rw [hhs] at hrun
    cases hrun
    exact .finish
  | cons h hs =>
    rw [hhs] at hrun
    have hw : h.width = 0 := hfirst h (by rw [hhs]; rfl)
    have hrun : .ok tokens = (h.token :: ·) <$> outlineTokens stop [] hs := hrun
    cases hmore : outlineTokens stop [] hs with
    | error e =>
      rw [hmore] at hrun
      exact nomatch hrun
    | ok more =>
      rw [hmore] at hrun
      cases hrun
      exact .line hw hmore

/-- The widths of the lines of an outline decide whether it lexes, and then each line stands in the
nearest one before that is less deep. -/
theorem outline_tree (hi : isIndent indent) (hls : ∀ l ∈ ls, l.Sound)
    (hfirst : ∀ h ∈ (headingsFrom 1 ls).head?, h.width = 0) :
    ((∃ tokens, lex (outlineSource indent ls) = .ok tokens) ↔ Settled [] (headingsFrom 1 ls)) ∧
      (¬ Settled [] (headingsFrom 1 ls) →
        ∃ before h after e, headingsFrom 1 ls = before ++ h :: after ∧ Settled [] before ∧
          ¬ Fits before h ∧ lex (outlineSource indent ls) = .error e ∧
            e.cause.code = "INCONSISTENT_INDENTATION" ∧ e.loc = h.loc) ∧
      ∀ tokens, lex (outlineSource indent ls) = .ok tokens →
        parseTokens tokens = .ok (forest (headingsFrom 1 ls)) ∧
          familyAll none (forest (headingsFrom 1 ls)) = parents none [] (headingsFrom 1 ls) := by
  obtain ⟨hok, herr⟩ := lex_settled hi hls hfirst
  have hlex : (∃ tokens, lex (outlineSource indent ls) = .ok tokens) ↔
      Settled [] (headingsFrom 1 ls) := by
    constructor
    · rintro ⟨tokens, ht⟩
      exact hok tokens ht
    · intro hset
      cases hrun : lex (outlineSource indent ls) with
      | ok tokens => exact ⟨tokens, rfl⟩
      | error e =>
        obtain ⟨before, h, after, heq, -, hmis, -⟩ := herr e hrun
        exact absurd (hset before h after heq) hmis
  refine ⟨hlex, fun hmis => ?_, fun tokens ht => ⟨?_, familyAll_forest none _⟩⟩
  · cases hrun : lex (outlineSource indent ls) with
    | ok tokens => exact absurd (hlex.mp ⟨tokens, hrun⟩) hmis
    | error e =>
      obtain ⟨before, h, after, heq, hset, hfits, hcode, hloc⟩ := herr e hrun
      exact ⟨before, h, after, e, heq, hset, hfits, rfl, hcode, hloc⟩
  · obtain ⟨stop, hres⟩ := resumes_of_lex hi hls hfirst ht
    exact readDocument_of_resumes _ hres

end Outline

namespace Menu

def lines : List OutlineLine :=
  [.blank ['\t'], .tag 0 "ul", .tag 2 "li", .tag 4 "a", .blank [], .tag 2 "li", .tag 0 "p"]

theorem sound : ∀ l ∈ lines, l.Sound := by
  decide

def nodes : List Node :=
  [(⟨2, 0, "ul"⟩ : Heading).node
    [(⟨3, 2, "li"⟩ : Heading).node [(⟨4, 4, "a"⟩ : Heading).node []],
      (⟨6, 2, "li"⟩ : Heading).node []],
    (⟨7, 0, "p"⟩ : Heading).node []]

theorem forest_eq : forest (headingsFrom 1 lines) = nodes := by
  simp [lines, headingsFrom, forest, nodes]

theorem lex_isOk : (lex (outlineSource ' ' lines)).isOk := by
  decide +kernel

end Menu

theorem outline_tree_menu :
    isIndent ' ' ∧ (∀ l ∈ Menu.lines, l.Sound) ∧
      (∀ h ∈ (headingsFrom 1 Menu.lines).head?, h.width = 0) ∧
      ∃ tokens, lex (outlineSource ' ' Menu.lines) = .ok tokens ∧
        parseTokens tokens = .ok Menu.nodes := by
  have hfirst : ∀ h ∈ (headingsFrom 1 Menu.lines).head?, h.width = 0 := by
    rintro h ⟨⟩
    rfl
  have hi : isIndent ' ' := rfl
  obtain ⟨-, -, htree⟩ := outline_tree hi Menu.sound hfirst
  refine ⟨hi, Menu.sound, hfirst, ?_⟩
  cases hrun : lex (outlineSource ' ' Menu.lines) with
  | error e =>
    have hok := Menu.lex_isOk
    rw [hrun] at hok
    exact nomatch hok
  | ok tokens => exact ⟨tokens, rfl, Menu.forest_eq ▸ (htree tokens hrun).1⟩

end PugTemplate
