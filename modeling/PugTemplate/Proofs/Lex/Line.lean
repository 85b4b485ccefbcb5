import PugTemplate.Proofs.Lex.Colon
import PugTemplate.Proofs.Lex.Gap

/-!
# Lines on their own

A line that was read on its own is read the same with other lines below it, at any indentation. If it
is a line for a tag, it is also read the same in front of a colon.
-/

namespace PugTemplate

open Layout (Run)

namespace Rule

variable {c d e : Cursor} {ts us : List Token} {more below : List Char}

/-- Reading goes on inside a line, from one place to another. -/
inductive Line : Cursor → List Token → Cursor → Prop where
  | here {c : Cursor} : Line c [] c
  | step {c d e : Cursor} {first ts : List Token} (hne : c.rest ≠ []) (hfeed : '\n' ∉ c.rest)
      (h : read 0 c = .ok (first, d)) (hd : d.rest <:+ c.rest) (hrest : Line d ts e) :
      Line c (first ++ ts) e

theorem rest_isSuffix_of_read {width : Nat} (h : read width c = .ok (ts, d)) :
    d.rest <:+ c.rest := by
  obtain ⟨n, rfl⟩ := ((readsOn_read width c).of_ok h).reaches
  exact List.drop_suffix n c.rest

theorem startsWith_feed_of_notMem (hfeed : '\n' ∉ c.rest) : c.startsWith "\n" = false := by
  cases hrest : c.rest with
  | nil => simp [Cursor.startsWith, hrest]
  | cons x xs =>
    have hx : ('\n' == x) = false := beq_false_of_ne fun h => hfeed (by rw [hrest, h]; simp)
    simp [Cursor.startsWith, hrest, List.isPrefixOf_cons_cons, hx]

/-- A text without line ends is one line. -/
theorem line_of_tokens (hfeed : '\n' ∉ c.rest) (h : Layout.empty.tokens c = .ok ts) :
    ∃ us d loc, ts = us ++ [⟨.eos, loc⟩] ∧ Line c us d ∧ d.rest = [] := by
  generalize hl : Layout.empty = l at h
  fun_induction Layout.tokens l c generalizing ts with
  | case1 l c hend =>
    cases h
    cases hl
    exact ⟨[], c, c.loc, rfl, .here, hend⟩
  | case2 => cases h
  | case3 => cases h
  | case4 l c hend first m d hstep more hmore ih =>
    cases h
    cases hl
    rw [Layout.step, startsWith_feed_of_notMem hfeed, if_neg Bool.false_ne_true] at hstep
    split at hstep
    next first' d' hread =>
      cases hstep
      have hsuffix := rest_isSuffix_of_read hread
      obtain ⟨us, e, loc, rfl, hline, he⟩ := ih (fun hm => hfeed (hsuffix.subset hm)) rfl hmore
      exact ⟨first ++ us, e, loc, (List.append_assoc _ _ _).symm,
        .step hend hfeed hread hsuffix hline, he⟩
    next => cases hstep

/-- The line is read the same in front of a colon. -/
theorem Line.expanded (h : Line c ts d) (hparts : ∀ t ∈ ts, t.kind.isTagPart)
    (hlast : ∀ before rest, c.rest = before ++ rest → allBlank rest → rest = [])
    (more : List Char) : Run .empty (c.expanded more) ts .empty (d.expanded more) := by
  induction h with
  | here => exact .here
  | @step c d e first ts hne hfeed hread hsuffix hrest ih =>
    obtain ⟨hfirst, hparts⟩ := List.forall_mem_append.mp hparts
    obtain ⟨before, hbefore⟩ := hsuffix
    have hin : InTag c := by
      refine ⟨hne, hfeed, hlast, fun heq => ?_, fun heq => ?_⟩
      · obtain ⟨_, loc⟩ := c
        cases heq
        cases hread
        exact nomatch hfirst _ (List.mem_singleton_self _)
      · obtain ⟨_, loc⟩ := c
        cases heq
        cases hread
        exact nomatch hfirst _ (List.mem_singleton_self _)
    have hstep : Layout.empty.step (c.expanded more) = .ok (first, .empty, d.expanded more) := by
      rw [Layout.step, Cursor.startsWith_expanded (by decide), startsWith_feed_of_notMem hfeed,
        if_neg Bool.false_ne_true]
      have hread' := read_expanded hin hfirst hread more
      rw [show Layout.empty.width = 0 from rfl, hread']
    refine .step (by simp [Cursor.rest_expanded]) hstep (ih hparts fun x y hxy => ?_)
    refine hlast (before ++ x) y ?_
    rw [← hbefore, hxy, List.append_assoc]

/-- The line is read the same with other lines below it. -/
theorem Line.beside {l : Layout} (h : Line c ts e) (hbelow : lineOf below = [])
    (hts : ∀ t ∈ ts, t.kind.opensText = false) (hcd : c.Beside [] below d) :
    ∃ us f, Run l d us l f ∧ SameKinds ts us ∧ e.Beside [] below f := by
  induction h generalizing d with
  | here => exact ⟨[], d, .here, .refl [], hcd⟩
  | @step c c' e first ts hne hfeed hread hsuffix hrest ih =>
    obtain ⟨hfirst, hts⟩ := List.forall_mem_append.mp hts
    have hclosed : (first.head?.any fun t => t.kind.opensText) → Pipeless.Level 0 l.width [] below := by
      intro hopens
      cases first with
      | nil => cases hopens
      | cons t rest => exact nomatch (hfirst t List.mem_cons_self).symm.trans hopens
    have hbeside : Reading.Beside (Pipeless.Level 0 l.width [] below) [] below (read 0 c)
        (read l.width d) := beside_read hbelow hcd
    obtain ⟨us, d', hus, hkinds, hnext⟩ := hbeside hread (Layout.clear_nil c') hclosed
    obtain ⟨vs, f, hvs, hmore, hf⟩ := ih hts hnext
    obtain ⟨m, hm, hd⟩ := hcd.text (Nat.zero_le _)
    rw [List.append_nil] at hm
    have hstep : l.step d = .ok (us, l, d') := by
      have hno : d.startsWith "\n" = false := by
        rw [← startsWith_feed_of_notMem hfeed, Cursor.startsWith, Cursor.startsWith, hd, ← hm]
        obtain ⟨x, xs, hx⟩ := List.exists_cons_of_ne_nil hne
        simp [hx, List.isPrefixOf_cons_cons]
      rw [Layout.step, hno, if_neg Bool.false_ne_true, hus]
    have hd' : d.rest ≠ [] := by
      rw [hd, ← hm]
      exact fun hnil => hne (List.append_eq_nil_iff.mp hnil).1
    exact ⟨us ++ vs, f, .step hd' hstep hvs, hkinds.append hmore, hf⟩

end Rule

end PugTemplate
