import PugTemplate.Text.Nesting

/-!
# What the nesting machine reads

A character looks at the innermost enclosure only, so what lies around it makes no difference. A text
up to its closing bracket is followed by that bracket, and a failure stands behind a text that was
read.
-/

namespace PugTemplate

namespace Nesting

/-- Outside any string or backtick literal. -/
def Outside : List Enclosure → Prop
  | .quoted _ :: _ | .template _ :: _ | .escape :: _ => False
  | _ => True

/-! ## One character -/

theorem feed_of_outside {open_ : List Enclosure} (h : Outside open_) (c : Char) :
    feed open_ c = feedPlain open_ c := by
  unfold feed
  split
  · exact h.elim
  · exact h.elim
  · exact h.elim
  · rfl

theorem feedPlain_append (e : Enclosure) (es around : List Enclosure) (c : Char) :
    feedPlain (e :: es ++ around) c = (feedPlain (e :: es) c).map (· ++ around) := by
  unfold feedPlain
  cases Bracket.ofOpening? c with
  | some b => rfl
  | none =>
    simp only [List.cons_append, apply_ite (Except.map (· ++ around))]
    rfl

/-- What lies around an enclosure makes no difference inside it. -/
theorem feed_append (e : Enclosure) (es around : List Enclosure) (c : Char) :
    feed (e :: es ++ around) c = (feed (e :: es) c).map (· ++ around) := by
  cases e with
  | bracket b => exact feedPlain_append _ _ _ _
  | hole => exact feedPlain_append _ _ _ _
  | quoted mark | template dollar =>
    simp only [List.cons_append, feed, apply_ite (Except.map (· ++ around))]
    rfl
  | escape => rfl

/-- A character outside literals opens something, or nothing, whatever lies around, or it closes the
innermost enclosure. -/
theorem feedPlain_cases {open_ inner : List Enclosure} {c : Char}
    (h : feedPlain open_ c = .ok inner) :
    (∃ tops, inner = tops ++ open_ ∧ ∀ around, feedPlain around c = .ok (tops ++ around)) ∨
      ∃ e, open_ = e :: inner ∧ e.closedBy c = true := by
  unfold feedPlain at h ⊢
  cases hb : Bracket.ofOpening? c with
  | some b =>
    rw [hb] at h
    cases h
    exact .inl ⟨[.bracket b], rfl, fun _ => rfl⟩
  | none =>
    rw [hb] at h
    dsimp only at h ⊢
    split at h
    next =>
      split at h
      next e rest =>
        split at h
        next he =>
          cases h
          exact .inr ⟨e, rfl, he⟩
        next => exact nomatch h
      next => exact nomatch h
    next hclose =>
      simp only [if_neg hclose]
      split at h
      next hq =>
        cases h
        exact .inl ⟨[.quoted c], rfl, fun _ => if_pos hq⟩
      next hq =>
        simp only [if_neg hq]
        split at h
        next ht =>
          cases h
          exact .inl ⟨[.template false], rfl, fun _ => if_pos ht⟩
        next ht =>
          cases h
          exact .inl ⟨[], rfl, fun _ => if_neg ht⟩

/-- What a character opens where nothing is open, it opens outside any literal. -/
theorem feed_of_nil {inner around : List Enclosure} {c : Char} (ho : Outside around)
    (h : feed [] c = .ok inner) : feed around c = .ok (inner ++ around) := by
  rw [feed_of_outside ho]
  obtain ⟨tops, rfl, htops⟩ | ⟨e, he, -⟩ := feedPlain_cases h
  · rw [List.append_nil]
    exact htops around
  · exact nomatch he

/-- The outermost bracket stays open until its own mark; until then anything may stand in its
place. -/
theorem feed_outermost {es inner : List Enclosure} {b : Bracket} {c : Char}
    (h : feed (es ++ [.bracket b]) c = .ok inner) :
    (es = [] ∧ inner = [] ∧ c = b.closing) ∨
      ∃ es', inner = es' ++ [.bracket b] ∧
        ∀ around, Outside around → feed (es ++ around) c = .ok (es' ++ around) := by
  cases es with
  | nil =>
    obtain ⟨tops, rfl, htops⟩ | ⟨e, he, hc⟩ := feedPlain_cases h
    · refine .inr ⟨tops, rfl, fun around ho => ?_⟩
      rw [List.nil_append, feed_of_outside ho]
      exact htops around
    · cases he
      exact .inl ⟨rfl, rfl, eq_of_beq hc⟩
  | cons e es =>
    rw [feed_append] at h
    cases hf : feed (e :: es) c with
    | error v =>
      rw [hf] at h
      exact nomatch h
    | ok es' =>
      rw [hf] at h
      refine .inr ⟨es', (Except.ok.inj h).symm, fun around _ => ?_⟩
      rw [feed_append, hf]
      rfl

/-! ## The text between brackets -/

theorem untilClosed_closing (es : List Enclosure) {b : Bracket} {cs content : List Char}
    (h : untilClosed (es ++ [.bracket b]) cs = .ok content) :
    ∃ rest, cs = content ++ b.closing :: rest := by
  induction cs generalizing es content with
  | nil => cases h
  | cons c cs ih =>
    unfold untilClosed at h
    split at h
    next => cases h
    next hf =>
      cases h
      obtain ⟨-, -, rfl⟩ | ⟨es', he, -⟩ := feed_outermost hf
      · exact ⟨cs, rfl⟩
      · exact absurd he (by simp)
    next hf =>
      obtain ⟨-, he, -⟩ | ⟨es', he, -⟩ := feed_outermost hf
      · cases he
      rw [he] at h
      split at h
      next content' hc =>
        cases h
        obtain ⟨rest, rfl⟩ := ih es' hc
        exact ⟨rest, rfl⟩
      next => cases h

/-- What stands between brackets is followed by the closing one. -/
theorem inside_closing {b : Bracket} {cs content : List Char} (h : inside b cs = .ok content) :
    ∃ rest, cs = content ++ b.closing :: rest :=
  untilClosed_closing [] h

theorem untilClosed_append {open_ : List Enclosure} {cs content : List Char}
    (h : untilClosed open_ cs = .ok content) (more : List Char) :
    untilClosed open_ (cs ++ more) = .ok content := by
  induction cs generalizing open_ content with
  | nil => cases h
  | cons c cs ih =>
    rw [List.cons_append]
    unfold untilClosed at h ⊢
    split at h
    next => cases h
    next => exact h
    next =>
      split at h
      next content' hc =>
        rw [ih hc]
        exact h
      next => cases h

/-- What follows a closing bracket makes no difference inside it. -/
theorem inside_append {b : Bracket} {cs content : List Char} (h : inside b cs = .ok content)
    (more : List Char) : inside b (cs ++ more) = .ok content :=
  untilClosed_append h more

theorem untilClosed_of_append {open_ : List Enclosure} {cs content more : List Char}
    (h : untilClosed open_ (cs ++ more) = .ok content) (hcontent : content.length < cs.length) :
    untilClosed open_ cs = .ok content := by
  induction cs generalizing open_ content with
  | nil => exact absurd hcontent (Nat.not_lt_zero _)
  | cons c cs ih =>
    rw [List.cons_append] at h
    unfold untilClosed at h ⊢
    split at h
    next => cases h
    next => exact h
    next =>
      split at h
      next content' hc =>
        cases h
        rw [ih hc (Nat.lt_of_succ_lt_succ hcontent)]
      next => cases h

/-- A bracket that closes inside a text closes there whatever follows that text. -/
theorem inside_of_append {b : Bracket} {cs content more : List Char}
    (h : inside b (cs ++ more) = .ok content) (hcontent : content.length < cs.length) :
    inside b cs = .ok content :=
  untilClosed_of_append h hcontent

/-- A failure stands behind a text that was read. -/
theorem untilClosed_before {open_ : List Enclosure} {cs : List Char} {f : Failure}
    (h : untilClosed open_ cs = .error f) : f.before <+: cs := by
  induction cs generalizing open_ f with
  | nil =>
    cases h
    exact List.nil_prefix
  | cons c cs ih =>
    unfold untilClosed at h
    split at h
    next =>
      cases h
      exact List.nil_prefix
    next => cases h
    next =>
      split at h
      next => cases h
      next f' hf =>
        cases h
        exact List.cons_prefix_cons.mpr ⟨rfl, ih hf⟩

theorem inside_before {b : Bracket} {cs : List Char} {f : Failure} (h : inside b cs = .error f) :
    f.before <+: cs :=
  untilClosed_before h

end Nesting

end PugTemplate
