import PugTemplate.Proofs.Lex.Outline

/-!
# The widths of an outline

An outline lexes if every line that is less deep than the one before stands where an earlier one
stood that is still open.
-/

namespace PugTemplate

/-- Some line had this width, and none behind it was less deep. -/
def StillOpen (before : List Heading) (width : Nat) : Prop :=
  ∃ pre h post, before = pre ++ h :: post ∧ h.width = width ∧ ∀ p ∈ post, width ≤ p.width

/-- A line that is less deep than the one before it stands at a width that is still open. -/
def Fits (before : List Heading) (h : Heading) : Prop :=
  ∀ p ∈ before.getLast?, h.width < p.width → StillOpen before h.width

/-- All lines fit where they stand, behind some others. -/
def Settled (before hs : List Heading) : Prop :=
  ∀ mid h after, hs = mid ++ h :: after → Fits (before ++ mid) h

theorem stillOpen_concat {before : List Heading} {h : Heading} {width : Nat} :
    StillOpen (before ++ [h]) width ↔
      width = h.width ∨ StillOpen before width ∧ width ≤ h.width := by
  constructor
  · rintro ⟨pre, q, post, heq, hw, hpost⟩
    rcases List.eq_nil_or_concat post with rfl | ⟨post, p, rfl⟩
    · obtain ⟨-, hq⟩ := List.append_inj' heq rfl
      left
      rw [← hw, List.singleton_inj.mp hq]
    · rw [List.concat_eq_append, ← List.cons_append, ← List.append_assoc] at heq
      obtain ⟨hbefore, hp⟩ := List.append_inj' heq rfl
      rw [List.concat_eq_append, List.forall_mem_append] at hpost
      right
      rw [List.singleton_inj.mp hp]
      exact ⟨⟨pre, q, post, hbefore, hw, hpost.1⟩, hpost.2 p List.mem_cons_self⟩
  · rintro (rfl | ⟨⟨pre, q, post, rfl, hw, hpost⟩, hle⟩)
    · exact ⟨before, h, [], rfl, rfl, by simp⟩
    · refine ⟨pre, q, post ++ [h], by simp, hw, ?_⟩
      rw [List.forall_mem_append]
      exact ⟨hpost, List.forall_mem_singleton.mpr hle⟩

theorem settled_nil (before : List Heading) : Settled before [] := by
  intro mid h after heq
  simp at heq

theorem settled_cons {before hs : List Heading} {h : Heading} :
    Settled before (h :: hs) ↔ Fits before h ∧ Settled (before ++ [h]) hs := by
  constructor
  · intro hset
    refine ⟨?_, fun mid q after heq => ?_⟩
    · have hfirst := hset [] h hs rfl
      rwa [List.append_nil] at hfirst
    · have hq := hset (h :: mid) q after (by rw [heq, List.cons_append])
      rwa [List.append_assoc]
  · rintro ⟨hfits, hset⟩ mid q after heq
    cases mid with
    | nil =>
      obtain ⟨rfl, -⟩ := List.cons_eq_cons.mp heq
      rwa [List.append_nil]
    | cons m mid =>
      obtain ⟨rfl, hmore⟩ := List.cons_eq_cons.mp heq
      have hq := hset mid q after hmore
      rwa [List.append_assoc] at hq

namespace Layout

variable {ws : List Nat} {width : Nat} {loc : Location} {first : List Token} {l : Layout}

theorem headD_mem (ws : List Nat) : ws.headD 0 ∈ ws ++ [0] := by
  cases ws <;> simp

theorem le_headD (hl : (⟨ws, none⟩ : Layout).Nested) : ∀ v ∈ ws ++ [0], v ≤ ws.headD 0 := by
  intro v hv
  exact hl.le_width v (by simpa [or_comm] using hv)

/-- Behind a line its own width is open, and those that were open and are not deeper. -/
theorem open_settle (hl : (⟨ws, none⟩ : Layout).Nested)
    (hs : (⟨ws, none⟩ : Layout).settle width loc = .ok (first, l)) :
    l.widths.headD 0 = width ∧ (width < ws.headD 0 → width ∈ ws ++ [0]) ∧
      ∀ v, v ∈ l.widths ++ [0] ↔ v = width ∨ v ∈ ws ++ [0] ∧ v ≤ width := by
  obtain ⟨hgt, -, rfl⟩ | ⟨rfl, -, rfl⟩ | ⟨-, hwidth, -, closed, -, hclosed, hdeep⟩ :=
    settle_cases hs
  · have hgt : ws.headD 0 < width := hgt
    refine ⟨rfl, fun h => by omega, fun v => ?_⟩
    show v ∈ width :: (ws ++ [0]) ↔ _
    rw [List.mem_cons]
    -- nothing that was open is deeper than the line
    refine or_congr_right ⟨fun hv => ⟨hv, ?_⟩, And.left⟩
    have := le_headD hl v hv
    omega
  · refine ⟨rfl, fun _ => headD_mem ws, fun v => ?_⟩
    show v ∈ ws ++ [0] ↔ v = ws.headD 0 ∨ v ∈ ws ++ [0] ∧ v ≤ ws.headD 0
    constructor
    · exact fun hv => Or.inr ⟨hv, le_headD hl v hv⟩
    · rintro (rfl | ⟨hv, -⟩)
      · exact headD_mem ws
      · exact hv
  · obtain ⟨kept, mark⟩ := l
    obtain rfl : ws = closed ++ kept := hclosed
    obtain rfl : kept.headD 0 = width := hwidth
    have hkept : (⟨kept, none⟩ : Layout).Nested := by
      rw [Nested, List.append_assoc] at hl
      exact (List.pairwise_append.mp hl).2.1
    have hsub : ∀ v ∈ kept ++ [0], v ∈ closed ++ kept ++ [0] := by
      intro v hv
      rw [List.append_assoc]
      exact List.mem_append_right _ hv
    refine ⟨rfl, fun _ => hsub _ (headD_mem kept), fun v => ?_⟩
    constructor
    · exact fun hv => Or.inr ⟨hsub v hv, le_headD hkept v hv⟩
    · rintro (rfl | ⟨hv, hle⟩)
      · exact headD_mem kept
      · rw [List.append_assoc] at hv
        rcases List.mem_append.mp hv with hv | hv
        -- a width that was closed is deeper than the line
        · have := hdeep v hv
          omega
        · exact hv

/-- Where blocks are closed for a width, they are closed down to it if it is open. -/
theorem headD_dropWhile (hl : (⟨ws, none⟩ : Layout).Nested) (hw : width ∈ ws ++ [0]) :
    (ws.dropWhile (width < ·)).headD 0 = width := by
  induction ws with
  | nil => exact (List.mem_singleton.mp hw).symm
  | cons v ws ih =>
    obtain ⟨hv, hmore⟩ := List.pairwise_cons.mp hl
    by_cases hlt : width < v
    · have hne : width ≠ v := by omega
      rw [List.dropWhile_cons_of_pos (by simpa using hlt)]
      exact ih hmore ((List.mem_cons.mp hw).resolve_left hne)
    · rw [List.dropWhile_cons_of_neg (by simpa using hlt)]
      rcases List.mem_cons.mp hw with rfl | hw
      · rfl
      · have := hv width hw
        omega

end Layout

/-- The open blocks are those of the widths that are still open, and the last line stands in the
innermost. -/
structure OpenBehind (before : List Heading) (ws : List Nat) : Prop where
  nested : (⟨ws, none⟩ : Layout).Nested
  opened : ∀ width, width ∈ ws ++ [0] ↔ StillOpen before width
  last : ∃ p, before.getLast? = some p ∧ p.width = ws.headD 0

namespace OpenBehind

variable {before : List Heading} {ws : List Nat} {h : Heading}

theorem first (hw : h.width = 0) : OpenBehind [h] [] where
  nested := Layout.nested_empty
  opened width := by
    rw [List.nil_append, List.mem_singleton]
    constructor
    · rintro rfl
      exact ⟨[], h, [], rfl, hw, by simp⟩
    · rintro ⟨pre, q, post, heq, hq, -⟩
      have hmem : q ∈ [h] := by rw [heq]; simp
      rw [← hq, List.mem_singleton.mp hmem, hw]
  last := ⟨h, rfl, hw⟩

theorem settle {first : List Token} {l : Layout} (hst : OpenBehind before ws)
    (hs : (⟨ws, none⟩ : Layout).settle h.width h.loc = .ok (first, l)) :
    Fits before h ∧ OpenBehind (before ++ [h]) l.widths := by
  obtain ⟨hnested, -⟩ := Layout.stream_settle hst.nested hs
  obtain ⟨hwidth, hmem, hopen⟩ := Layout.open_settle hst.nested hs
  obtain ⟨p, hp, hpw⟩ := hst.last
  constructor
  · intro q hq hlt
    rw [hp] at hq
    obtain rfl : p = q := Option.some.inj hq
    rw [hpw] at hlt
    exact (hst.opened _).mp (hmem hlt)
  · refine ⟨hnested, fun v => ?_, h, by simp, hwidth.symm⟩
    rw [hopen, stillOpen_concat, hst.opened]

theorem misfit {e : LexError} (hst : OpenBehind before ws)
    (hs : (⟨ws, none⟩ : Layout).settle h.width h.loc = .error e) :
    ¬ Fits before h ∧ e.cause.code = "INCONSISTENT_INDENTATION" ∧ e.loc = h.loc := by
  obtain ⟨hlt, hkept, hcode, hloc⟩ := Layout.settle_error hs
  refine ⟨fun hfits => hkept ?_, hcode, hloc⟩
  obtain ⟨p, hp, hpw⟩ := hst.last
  have hopen : StillOpen before h.width := hfits p hp (hpw ▸ hlt)
  exact Layout.headD_dropWhile hst.nested ((hst.opened _).mpr hopen)

end OpenBehind

/-- Lines are read as long as they fit, and the first that does not is refused. -/
theorem outlineTokens_settled {stop : Location} {hs before : List Heading} {ws : List Nat}
    (hst : OpenBehind before ws) :
    (∀ tokens, outlineTokens stop ws hs = .ok tokens → Settled before hs) ∧
      ∀ e, outlineTokens stop ws hs = .error e → ∃ mid h after, hs = mid ++ h :: after ∧
        Settled before mid ∧ ¬ Fits (before ++ mid) h ∧
          e.cause.code = "INCONSISTENT_INDENTATION" ∧ e.loc = h.loc := by
  induction hs generalizing before ws with
  | nil => exact ⟨fun _ _ => settled_nil before, fun _ he => (nomatch he)⟩
  | cons h hs ih =>
    cases hsettle : (⟨ws, none⟩ : Layout).settle h.width h.loc with
    | error e =>
      rw [outlineTokens_of_error hs hsettle]
      refine ⟨fun _ ht => (nomatch ht), fun e' he => ?_⟩
      cases he
      obtain ⟨hmis, hcode, hloc⟩ := hst.misfit hsettle
      exact ⟨[], h, hs, rfl, settled_nil before, by rwa [List.append_nil], hcode, hloc⟩
    | ok r =>
      obtain ⟨hfits, hst'⟩ := hst.settle hsettle
      obtain ⟨hok, herr⟩ := ih hst'
      rw [outlineTokens_of_ok hs hsettle]
      cases hmore : outlineTokens stop r.2.widths hs with
      | ok more =>
        exact ⟨fun _ _ => settled_cons.mpr ⟨hfits, hok more hmore⟩, fun _ he => (nomatch he)⟩
      | error e =>
        refine ⟨fun _ ht => (nomatch ht), fun e' he => ?_⟩
        cases he
        obtain ⟨mid, q, after, rfl, hmid, hmis, hcode, hloc⟩ := herr e hmore
        refine ⟨h :: mid, q, after, rfl, settled_cons.mpr ⟨hfits, hmid⟩, ?_, hcode, hloc⟩
        rwa [List.append_assoc] at hmis

/-- An outline lexes if all its lines fit, and otherwise the first that does not is refused. -/
theorem lex_settled {indent : Char} (hi : isIndent indent) {ls : List OutlineLine}
    (hls : ∀ l ∈ ls, l.Sound) (hfirst : ∀ h ∈ (headingsFrom 1 ls).head?, h.width = 0) :
    (∀ tokens, lex (outlineSource indent ls) = .ok tokens → Settled [] (headingsFrom 1 ls)) ∧
      ∀ e, lex (outlineSource indent ls) = .error e →
        ∃ mid h after, headingsFrom 1 ls = mid ++ h :: after ∧ Settled [] mid ∧ ¬ Fits mid h ∧
          e.cause.code = "INCONSISTENT_INDENTATION" ∧ e.loc = h.loc := by
  obtain ⟨stop, hlex⟩ := lex_outlineSource hi hls hfirst
  rw [hlex]
  cases hhs : headingsFrom 1 ls with
  | nil => exact ⟨fun _ _ => settled_nil [], fun _ he => (nomatch he)⟩
  | cons h hs =>
    have hw : h.width = 0 := hfirst h (by rw [hhs]; rfl)
    have hfits : Fits [] h := fun p hp => nomatch hp
    have hrun : (∀ tokens, outlineTokens stop [] hs = .ok tokens → Settled [h] hs) ∧ _ :=
      outlineTokens_settled (OpenBehind.first hw)
    dsimp only
    cases hmore : outlineTokens stop [] hs with
    | ok more =>
      exact ⟨fun _ _ => settled_cons.mpr ⟨hfits, hrun.1 more hmore⟩, fun _ he => (nomatch he)⟩
    | error e =>
      refine ⟨fun _ ht => (nomatch ht), fun e' he => ?_⟩
      cases he
      obtain ⟨mid, q, after, rfl, hmid, hmis, hcode, hloc⟩ := hrun.2 e hmore
      exact ⟨h :: mid, q, after, rfl, settled_cons.mpr ⟨hfits, hmid⟩, hmis, hcode, hloc⟩

end PugTemplate
