import PugTemplate.Text.Blank

/-!
# Blanks around a text

What begins in front of blanks ends in front of them, unless it may be blank itself. Trimming takes
nothing but blanks, and it takes them where a text ends.
-/

namespace PugTemplate

/-! ## Blanks are few -/

/-- The numbers of the blanks. -/
def blanks : List Nat :=
  List.range' 9 5 ++ [0x20, 0x85, 0xa0, 0x1680, 0x2028, 0x2029, 0x202f, 0x205f, 0x3000] ++
    List.range' 0x2000 11

theorem toNat_mem_blanks {c : Char} (h : isBlank c) : c.toNat ∈ blanks := by
  simp [isBlank] at h
  simp [blanks, List.mem_range'_1]
  omega

/-- Blanks are few, so it can be decided that none of them is in a class of characters. -/
theorem not_isBlank_of {p : Char → Bool} (hp : ∀ n ∈ blanks, p (Char.ofNat n) = false) {c : Char}
    (h : p c) : isBlank c = false := by
  refine Bool.eq_false_iff.mpr fun hb => ?_
  have hc := hp _ (toNat_mem_blanks hb)
  rw [Char.ofNat_toNat] at hc
  exact nomatch hc.symm.trans h

/-! ## What ends in front of blanks -/

theorem allBlank_drop_append {cs blank : List Char} {n : Nat} (hblank : allBlank blank)
    (hn : cs.length ≤ n) : allBlank ((cs ++ blank).drop n) := by
  rw [List.drop_append, List.drop_eq_nil_of_le hn, List.nil_append]
  exact List.all_eq_true.mpr fun c hc => List.all_eq_true.mp hblank c (List.mem_of_mem_drop hc)

/-- Where more than blanks is left, the blanks at the end are not reached. -/
theorem lt_length_of_drop {cs blank : List Char} {n : Nat} (hblank : allBlank blank)
    (h : allBlank ((cs ++ blank).drop n) = false) : n < cs.length :=
  Nat.lt_of_not_le fun hn => nomatch h.symm.trans (allBlank_drop_append hblank hn)

theorem takeWhile_append_blank {p : Char → Bool} (hp : ∀ n ∈ blanks, p (Char.ofNat n) = false)
    {blank : List Char} (hblank : allBlank blank) (cs : List Char) :
    (cs ++ blank).takeWhile p = cs.takeWhile p := by
  induction cs with
  | nil =>
    cases blank with
    | nil => rfl
    | cons b blank =>
      have hb : isBlank b := List.all_eq_true.mp hblank b List.mem_cons_self
      have hpb : p b = false := Bool.eq_false_iff.mpr fun h =>
        nomatch (not_isBlank_of hp h).symm.trans hb
      rw [List.nil_append, List.takeWhile_cons, hpb]
      rfl
  | cons c cs ih => rw [List.cons_append, List.takeWhile_cons, List.takeWhile_cons, ih]

theorem head?_append_blank {blank : List Char} (hblank : allBlank blank) (cs : List Char) {d : Char}
    (hd : isBlank d = false) : (cs ++ blank).head? = some d ↔ cs.head? = some d := by
  cases cs with
  | nil =>
    cases blank with
    | nil => exact Iff.rfl
    | cons b blank =>
      refine ⟨fun h => ?_, nofun⟩
      obtain rfl := Option.some.inj h
      exact nomatch hd.symm.trans (List.all_eq_true.mp hblank b List.mem_cons_self)
  | cons c cs => exact Iff.rfl

theorem any_head?_append_blank {p : Char → Bool} (hp : ∀ n ∈ blanks, p (Char.ofNat n) = false)
    (hblank : allBlank blank) (cs : List Char) :
    (cs ++ blank).head?.any p = cs.head?.any p := by
  cases cs with
  | nil =>
    cases blank with
    | nil => rfl
    | cons b blank =>
      have hb : isBlank b := List.all_eq_true.mp hblank b List.mem_cons_self
      exact Bool.eq_false_iff.mpr fun h => nomatch (not_isBlank_of hp h).symm.trans hb
  | cons c cs => rfl

theorem isPrefixOf_append_blank {text : List Char} (htext : text.any isBlank = false)
    (hblank : allBlank blank) (cs : List Char) :
    text.isPrefixOf (cs ++ blank) = text.isPrefixOf cs := by
  induction text generalizing cs with
  | nil => rfl
  | cons c text ih =>
    obtain ⟨hc, htext⟩ := Bool.or_eq_false_iff.mp htext
    cases cs with
    | nil =>
      cases blank with
      | nil => rfl
      | cons b blank =>
        have hb : isBlank b := List.all_eq_true.mp hblank b List.mem_cons_self
        have hne : c ≠ b := by
          rintro rfl
          exact nomatch hc.symm.trans hb
        rw [List.nil_append, List.isPrefixOf_cons_cons, beq_false_of_ne hne]
        rfl
    | cons d cs => simp only [List.cons_append, List.isPrefixOf_cons_cons, ih htext]

/-! ## Trimming -/

theorem trimEnd_append {ds : List Char} (h : allBlank ds = false) (cs : List Char) :
    trimEnd (cs ++ ds) = cs ++ trimEnd ds := by
  have hne : ds.reverse.dropWhile isBlank ≠ [] := by
    intro hnil
    have hds : ds.reverse.takeWhile isBlank = ds.reverse := by
      rw [← List.append_nil (List.takeWhile _ _), ← hnil, List.takeWhile_append_dropWhile]
    rw [allBlank, ← List.all_reverse, ← hds, List.all_takeWhile] at h
    exact nomatch h
  rw [trimEnd, List.reverse_append, List.dropWhile_append, if_neg (by simpa using hne),
    List.reverse_append, List.reverse_reverse, trimEnd]

theorem exists_trimEnd (cs : List Char) :
    ∃ blank, allBlank blank ∧ cs = trimEnd cs ++ blank := by
  refine ⟨(cs.reverse.takeWhile isBlank).reverse, ?_, ?_⟩
  · rw [allBlank, List.all_reverse]
    exact List.all_takeWhile
  · rw [trimEnd, ← List.reverse_append, List.takeWhile_append_dropWhile, List.reverse_reverse]

theorem trimEnd_append_blank {blank : List Char} (hblank : allBlank blank) (cs : List Char) :
    trimEnd (cs ++ blank) = trimEnd cs := by
  have hdrop : blank.reverse.dropWhile isBlank = [] := by
    rw [← List.append_nil blank.reverse, List.dropWhile_append_of_pos]
    · rfl
    · exact fun c hc => List.all_eq_true.mp hblank c (List.mem_reverse.mp hc)
  rw [trimEnd, List.reverse_append, List.dropWhile_append, hdrop]
  rfl

theorem trimEnd_eq_self {cs : List Char} (h : ∀ c ∈ cs, isBlank c = false) : trimEnd cs = cs := by
  rw [trimEnd]
  cases hrev : cs.reverse with
  | nil => rw [← List.reverse_reverse cs, hrev, List.dropWhile_nil]
  | cons c rest =>
    have hc := h c (List.mem_reverse.mp (by rw [hrev]; exact List.mem_cons_self))
    rw [List.dropWhile_cons, if_neg (by simp [hc]), ← hrev, List.reverse_reverse]

theorem trim_cons {c : Char} (hc : isBlank c = false) (cs : List Char) :
    trim (c :: cs) = trimEnd (c :: cs) := by
  rw [trim, trimStart, List.dropWhile_cons, if_neg (by simp [hc])]

theorem trim_blank_cons {c : Char} (hc : isBlank c) (cs : List Char) : trim (c :: cs) = trim cs := by
  rw [trim, trimStart, List.dropWhile_cons, if_pos hc]
  rfl

end PugTemplate
