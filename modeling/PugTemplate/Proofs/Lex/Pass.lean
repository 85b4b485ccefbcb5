import PugTemplate.Proofs.Lex.Run
import PugTemplate.Proofs.Lex.Strip

/-!
# Leaving comments out part by part

The passage over a stream can be cut anywhere: what is kept of both parts is what is kept of the
whole. Only the kinds of the tokens count for it. Behind a line it stands outside all comments, so a
comment that has a line of its own leaves nothing but its line end.
-/

namespace PugTemplate

namespace CommentPolicy

variable {p : CommentPolicy} {s s' s'' : Passage} {ts us kept more : List Token} {last : Location}

theorem keeps_of_keep (h : p.keep s last ts = .ok kept) : p.Keeps s ts kept := by
  intro last'
  cases ts with
  | nil =>
    unfold keep at h ⊢
    split at h
    next => cases h
    next hs => rw [if_neg hs, ← h]
  | cons t ts =>
    unfold keep at h ⊢
    exact h

/-- The passage over some tokens: what it keeps of them, and where it stands then. -/
inductive Passes (p : CommentPolicy) : Passage → List Token → List Token → Passage → Prop where
  | nil {s : Passage} : Passes p s [] [] s
  | cons {s s' s'' : Passage} {t : Token} {b : Bool} {ts kept : List Token}
      (ht : p.step s t = .ok (b, s')) (h : Passes p s' ts kept s'') :
      Passes p s (t :: ts) (if b then t :: kept else kept) s''

namespace Passes

theorem append {us more : List Token} (h : p.Passes s ts kept s') (h' : p.Passes s' us more s'') :
    p.Passes s (ts ++ us) (kept ++ more) s'' := by
  induction h with
  | nil => exact h'
  | @cons _ _ _ _ b _ _ ht _ ih =>
    have hmore := Passes.cons ht (ih h')
    cases b <;> exact hmore

theorem unique {kept' : List Token} (h : p.Passes s ts kept s') (h' : p.Passes s ts kept' s'') :
    kept' = kept ∧ s'' = s' := by
  induction h generalizing kept' with
  | nil =>
    cases h'
    exact ⟨rfl, rfl⟩
  | cons ht _ ih =>
    cases h' with
    | cons ht' h' =>
      cases ht.symm.trans ht'
      obtain ⟨rfl, rfl⟩ := ih h'
      exact ⟨rfl, rfl⟩

theorem keeps {rest more : List Token} (h : p.Passes s ts kept s') (hrest : p.Keeps s' rest more) :
    p.Keeps s (ts ++ rest) (kept ++ more) := by
  induction h with
  | nil => exact hrest
  | @cons _ _ _ _ b _ _ ht _ ih =>
    have hmore := (ih hrest).cons ht
    cases b <;> exact hmore

theorem strip_eq (h : p.Passes {} ts kept {}) : p.strip ts = .ok kept := by
  have hnil : p.Keeps {} [] [] := fun _ => rfl
  have hkeeps := h.keeps hnil .nowhere
  rwa [List.append_nil, List.append_nil] at hkeeps

end Passes

theorem Keeps.uncons {t : Token} (h : p.Keeps s (t :: ts) kept) :
    ∃ b s' more, p.step s t = .ok (b, s') ∧ p.Keeps s' ts more ∧
      kept = if b then t :: more else more := by
  have hkeep := h t.loc
  unfold keep at hkeep
  split at hkeep
  next => cases hkeep
  next b s' hstep =>
    split at hkeep
    next => cases hkeep
    next more hmore =>
      cases hkeep
      exact ⟨b, s', more, hstep, keeps_of_keep hmore, rfl⟩

/-- The passage over two parts is that over the first and then that over the second. -/
theorem Keeps.split {rest : List Token} (h : p.Keeps s (ts ++ rest) kept) :
    ∃ first s' more, p.Passes s ts first s' ∧ p.Keeps s' rest more ∧ kept = first ++ more := by
  induction ts generalizing s kept with
  | nil => exact ⟨[], s, kept, .nil, h, rfl⟩
  | cons t ts ih =>
    obtain ⟨b, s₁, kept₁, hstep, hkept, rfl⟩ := h.uncons
    obtain ⟨first, s', more, hfirst, hmore, rfl⟩ := ih hkept
    exact ⟨_, s', more, .cons hstep hfirst, hmore, by cases b <;> rfl⟩

/-! ## Only kinds count -/

theorem step_congr {t u : Token} {b : Bool} (hk : u.kind = t.kind) (h : p.step s t = .ok (b, s')) :
    p.step s u = .ok (b, s') := by
  unfold step at h ⊢
  rw [hk]
  split at h
  next => exact h
  next => exact h
  next =>
    split at h
    next hs => rw [if_pos hs, ← h]
    next => cases h
  next => exact h

theorem sameKinds_kept {t u : Token} (b : Bool) (hk : u.kind = t.kind) (h : SameKinds ts us) :
    SameKinds (if b then t :: ts else ts) (if b then u :: us else us) := by
  cases b with
  | true => exact .cons hk h
  | false => exact h

theorem Passes.alike (h : p.Passes s ts kept s') (hk : SameKinds ts us) :
    ∃ kept', p.Passes s us kept' s' ∧ SameKinds kept kept' := by
  induction h generalizing us with
  | nil =>
    obtain rfl := hk.eq_nil
    exact ⟨[], .nil, .refl []⟩
  | @cons _ _ _ _ b _ _ ht _ ih =>
    obtain ⟨u, us, rfl, hu, hk⟩ := hk.uncons
    obtain ⟨kept', hpass, hsame⟩ := ih hk
    exact ⟨_, .cons (step_congr hu ht) hpass, sameKinds_kept b hu hsame⟩

theorem Keeps.alike (h : p.Keeps s ts kept) (hk : SameKinds ts us) :
    ∃ kept', p.Keeps s us kept' ∧ SameKinds kept kept' := by
  induction ts generalizing s kept us with
  | nil =>
    obtain rfl := hk.eq_nil
    exact ⟨kept, h, .refl kept⟩
  | cons t ts ih =>
    obtain ⟨u, us, rfl, hu, hk⟩ := hk.uncons
    obtain ⟨b, s₁, kept₁, hstep, hkept, rfl⟩ := h.uncons
    obtain ⟨kept', hkeeps, hsame⟩ := ih hkept hk
    exact ⟨_, hkeeps.cons (step_congr hu hstep), sameKinds_kept b hu hsame⟩

/-! ## Behind a line -/

/-- Tokens outside text are all kept; behind them, no comment goes on. -/
theorem passes_plain {dropping : Bool} (hts : ts ≠ []) (hplain : ∀ t ∈ ts, t.kind.isPlain) :
    p.Passes ⟨dropping, false⟩ ts ts {} := by
  induction ts generalizing dropping with
  | nil => exact absurd rfl hts
  | cons t ts ih =>
    obtain ⟨ht, hplain⟩ := List.forall_mem_cons.mp hplain
    have hstep : p.step ⟨dropping, false⟩ t = .ok (true, {}) := step_plain rfl ht
    cases ts with
    | nil => exact .cons hstep .nil
    | cons u ts => exact .cons hstep (ih (List.cons_ne_nil _ _) hplain)

/-- A block of text does not end with tokens outside text. -/
theorem inBlock_of_keeps_plain (hplain : ∀ t ∈ ts, t.kind.isPlain) (h : p.Keeps s ts kept) :
    s.inBlock = false := by
  obtain ⟨dropping, inBlock⟩ := s
  cases inBlock with
  | false => rfl
  | true =>
    induction ts generalizing kept with
    | nil => cases h .nowhere
    | cons t ts ih =>
      obtain ⟨ht, hplain⟩ := List.forall_mem_cons.mp hplain
      obtain ⟨b, s', more, hstep, hmore, -⟩ := h.uncons
      cases (step_plain_inBlock ht).symm.trans hstep
      exact ih hplain hmore

end CommentPolicy

namespace Layout

variable {l m : Layout} {c d : Cursor} {ts : List Token}

theorem isPlain_finish (l : Layout) (loc : Location) : ∀ t ∈ l.finish loc, t.kind.isPlain := by
  intro t ht
  rcases List.mem_append.mp ht with ht | ht
  · obtain ⟨_, -, rfl⟩ := List.mem_map.mp ht
    rfl
  · rw [List.mem_singleton.mp ht]
    rfl

theorem isPlain_settle {width : Nat} {loc : Location} (h : l.settle width loc = .ok (ts, m)) :
    ∀ t ∈ ts, t.kind.isPlain := by
  obtain ⟨-, rfl, -⟩ | ⟨-, rfl, -⟩ | ⟨-, -, -, closed, rfl, -⟩ := settle_cases h
  · exact List.forall_mem_singleton.mpr rfl
  · exact List.forall_mem_singleton.mpr rfl
  · intro t ht
    obtain ⟨_, -, rfl⟩ := List.mem_map.mp ht
    rfl

theorem settle_ne_nil {width : Nat} {loc : Location} (h : l.settle width loc = .ok (ts, m)) :
    ts ≠ [] := by
  rintro rfl
  exact nomatch endsLine_settle h []

/-- Between two places, the passage over the tokens leaves all blocks of text again, and what is kept
stands in front of the tokens that close all blocks. -/
theorem Run.passes (h : Run l c ts m d) (hl : l.Nested) (p : CommentPolicy) :
    ∃ kept dropping, p.Passes {} ts kept ⟨dropping, false⟩ ∧
      TokenStream l.widths (kept ++ m.finish .nowhere) := by
  obtain ⟨-, hstream⟩ := h.stream hl
  have hwhole := hstream (m.finish .nowhere) (fun _ => endsLine_finish m _) (stream_finish m _)
  obtain ⟨kept, hkeeps, hkept, -⟩ := CommentPolicy.keepsStream p hwhole false
  obtain ⟨first, ⟨dropping, inBlock⟩, more, hfirst, hmore, rfl⟩ := hkeeps.split
  obtain rfl : inBlock = false := CommentPolicy.inBlock_of_keeps_plain (isPlain_finish m _) hmore
  have hfinish : p.Keeps ⟨dropping, false⟩ (m.finish .nowhere) (m.finish .nowhere) := by
    have hplain : p.Passes ⟨dropping, false⟩ (m.finish .nowhere) (m.finish .nowhere) {} :=
      CommentPolicy.passes_plain (by simp [finish]) (isPlain_finish m .nowhere)
    have hnil : p.Keeps {} [] [] := fun _ => rfl
    simpa using hplain.keeps hnil
  obtain rfl : more = m.finish .nowhere :=
    Except.ok.inj ((hmore .nowhere).symm.trans (hfinish .nowhere))
  exact ⟨first, dropping, hfirst, hkept⟩

end Layout

end PugTemplate
