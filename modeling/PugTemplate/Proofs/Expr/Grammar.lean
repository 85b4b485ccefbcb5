import PugTemplate.Expr.Parse
import PugTemplate.Proofs.Basic

/-!
# The grammar of expressions

`Spells` says which rows of lexemes spell an expression, and how tight it binds: the conditional at
level 0, the operators of `Level.table` at the levels 1 to 6, unary operators at 7, members and
indices at 8, and what nothing can be torn from at 9. The reader decides the grammar: what it reads is
spelled so, and it reads whatever is spelled, up to where nothing can go on.
-/

namespace PugTemplate

namespace Expr

/-- What a row of lexemes can spell. -/
inductive Form where
  /-- An expression that binds at some level or tighter. -/
  | tight (level : Nat) (e : Expr)
  /-- The items of an array, with the bracket behind them. -/
  | items (es : List Expr)
  | entry (key : String) (value : Expr)
  /-- The entries of an object, with the bracket behind them. -/
  | entries (es : List (String × Expr))

inductive Spells : List Placed → Form → Prop where
  | looser {n : Nat} {e : Expr} {us : List Placed} (hn : n < 9) (h : Spells us (.tight (n + 1) e)) :
      Spells us (.tight n e)
  | conditional {test consequent alternate : Expr} {us vs ws : List Placed} {i j : Nat}
      (ht : Spells us (.tight 1 test)) (hc : Spells vs (.tight 0 consequent))
      (ha : Spells ws (.tight 0 alternate)) :
      Spells (us ++ ⟨.punct .question, i⟩ :: (vs ++ ⟨.punct .colon, j⟩ :: ws))
        (.tight 0 (.conditional test consequent alternate))
  | binary {n : Nat} {level : Level} {op : BinaryOp} {l r : Expr} {t : Placed} {us vs : List Placed}
      (hlevel : Level.table[n]? = some level) (hop : operator? level [t] = some op)
      (hl : Spells us (.tight (n + 1) l)) (hr : Spells vs (.tight (n + 2) r)) :
      Spells (us ++ t :: vs) (.tight (n + 1) (.binary op l r))
  | unary {op : UnaryOp} {e : Expr} {t : Placed} {us : List Placed} (hop : unary? [t] = some op)
      (h : Spells us (.tight 7 e)) : Spells (t :: us) (.tight 7 (.unary op e))
  | member {e : Expr} {us : List Placed} {i j : Nat} (property : String)
      (h : Spells us (.tight 8 e)) :
      Spells (us ++ [⟨.punct .dot, i⟩, ⟨.name property, j⟩]) (.tight 8 (.member e property))
  | index {e key : Expr} {us vs : List Placed} {i j : Nat} (h : Spells us (.tight 8 e))
      (hk : Spells vs (.tight 0 key)) :
      Spells (us ++ ⟨.punct .openSquare, i⟩ :: (vs ++ [⟨.punct .closeSquare, j⟩]))
        (.tight 8 (.index e key))
  | number (v : Value) (i : Nat) : Spells [⟨.number v, i⟩] (.tight 9 (.literal v))
  | text (s : String) (i : Nat) : Spells [⟨.text s, i⟩] (.tight 9 (.literal (.string s)))
  | template (parts : List Expr) (i : Nat) : Spells [⟨.template parts, i⟩] (.tight 9 (ofTemplate parts))
  | name (n : String) (i : Nat) : Spells [⟨.name n, i⟩] (.tight 9 (ofName n))
  | parens {e : Expr} {us : List Placed} {i j : Nat} (h : Spells us (.tight 0 e)) :
      Spells (⟨.punct .openRound, i⟩ :: (us ++ [⟨.punct .closeRound, j⟩])) (.tight 9 e)
  | array {es : List Expr} {us : List Placed} {i : Nat} (h : Spells us (.items es)) :
      Spells (⟨.punct .openSquare, i⟩ :: us) (.tight 9 (.array es))
  | object {es : List (String × Expr)} {us : List Placed} {i : Nat} (h : Spells us (.entries es)) :
      Spells (⟨.punct .openCurly, i⟩ :: us) (.tight 9 (.object es))
  | noItems (i : Nat) : Spells [⟨.punct .closeSquare, i⟩] (.items [])
  | lastItem {e : Expr} {us : List Placed} {i : Nat} (h : Spells us (.tight 0 e)) :
      Spells (us ++ [⟨.punct .closeSquare, i⟩]) (.items [e])
  | moreItems {e : Expr} {es : List Expr} {us vs : List Placed} {i : Nat}
      (h : Spells us (.tight 0 e)) (hs : Spells vs (.items es)) :
      Spells (us ++ ⟨.punct .comma, i⟩ :: vs) (.items (e :: es))
  | pair {key : String} {alone : Bool} {value : Expr} {t : Placed} {us : List Placed} {i : Nat}
      (hk : keyOf? t.lexeme = some (key, alone)) (h : Spells us (.tight 0 value)) :
      Spells (t :: ⟨.punct .colon, i⟩ :: us) (.entry key value)
  /-- A name stands for itself. -/
  | alone {key : String} {t : Placed} (hk : keyOf? t.lexeme = some (key, true)) :
      Spells [t] (.entry key (.name key))
  | noEntries (i : Nat) : Spells [⟨.punct .closeCurly, i⟩] (.entries [])
  | lastEntry {key : String} {value : Expr} {us : List Placed} {i : Nat}
      (h : Spells us (.entry key value)) :
      Spells (us ++ [⟨.punct .closeCurly, i⟩]) (.entries [(key, value)])
  | moreEntries {key : String} {value : Expr} {es : List (String × Expr)} {us vs : List Placed}
      {i : Nat} (h : Spells us (.entry key value)) (hs : Spells vs (.entries es)) :
      Spells (us ++ ⟨.punct .comma, i⟩ :: vs) (.entries ((key, value) :: es))

/-- Tighter than some level is at that level too. -/
theorem Spells.loosen {m n : Nat} {e : Expr} {us : List Placed} (h : Spells us (.tight n e))
    (hm : m ≤ n) (hn : n ≤ 9) : Spells us (.tight m e) := by
  induction hm with
  | refl => exact h
  | step hm ih => exact ih (.looser hn h) (Nat.le_of_succ_le hn)

/-! ## What begins a row -/

theorem exists_of_startsWith {p : Punct} {ts : List Placed} (h : startsWith p ts = true) :
    ∃ i rest, ts = ⟨.punct p, i⟩ :: rest := by
  unfold startsWith at h
  split at h
  · obtain rfl := eq_of_beq h
    exact ⟨_, _, rfl⟩
  · exact nomatch h

theorem exists_of_operator? {level : Level} {op : BinaryOp} {ts : List Placed}
    (h : operator? level ts = some op) : ∃ t rest, ts = t :: rest ∧ operator? level [t] = some op := by
  unfold operator? at h
  split at h
  · exact ⟨_, _, rfl, h⟩
  · exact nomatch h

theorem exists_of_unary? {op : UnaryOp} {ts : List Placed} (h : unary? ts = some op) :
    ∃ t rest, ts = t :: rest ∧ unary? [t] = some op := by
  unfold unary? at h
  split at h
  · cases h
    exact ⟨_, _, rfl, rfl⟩
  · cases h
    exact ⟨_, _, rfl, rfl⟩
  · cases h
    exact ⟨_, _, rfl, rfl⟩
  · exact nomatch h

/-! ## What is read is spelled -/

/-- A beginning of a row, of some length, spells a form. -/
def Takes (ts : List Placed) (k : Nat) (f : Form) : Prop :=
  ∃ us rest, ts = us ++ rest ∧ us.length = k ∧ Spells us f

abbrev reading : Answering (Except ExprError) :=
  .ofExcept ExprError

theorem reading_error {α : Type} {e : ExprError} {p : α → Prop} :
    reading.always (.error e : Except ExprError α) p :=
  fun _ h => nomatch h

mutual

theorem takes_ternary (stop : Nat) (ts : List Placed) :
    reading.always (readTernary stop ts) fun r => Takes ts r.2 (.tight 0 r.1) := by
  unfold readTernary
  refine reading.bind (takes_level stop Level.table ts 0 rfl (by decide)) ?_
  rintro ⟨test, k⟩ ⟨us, rest, rfl, rfl, ht⟩
  simp only [List.drop_left]
  split
  next hq =>
    obtain ⟨i, rest, rfl⟩ := exists_of_startsWith hq
    refine reading.bind (takes_ternary stop rest) ?_
    rintro ⟨consequent, m⟩ ⟨vs, rest, rfl, rfl, hc⟩
    simp only [List.tail_cons, List.drop_left]
    split
    next hcolon =>
      obtain ⟨j, rest, rfl⟩ := exists_of_startsWith hcolon
      refine reading.bind (takes_ternary stop rest) ?_
      rintro ⟨alternate, n⟩ ⟨ws, rest, rfl, rfl, ha⟩
      refine reading.pure ⟨_, rest, ?_, ?_, .conditional (i := i) (j := j) ht hc ha⟩
      · simp
      · simp only [List.length_append, List.length_cons]
        omega
    next => exact reading_error
  next => exact reading.pure ⟨us, rest, rfl, rfl, ht.loosen (by decide) (by decide)⟩
termination_by (ts.length, 20)
decreasing_by
  all_goals
    subst_vars
    simp only [Prod.lex_def, List.length_append, List.length_cons, true_and, Level.table,
      List.length_nil]
    omega

theorem takes_level (stop : Nat) (levels : List Level) (ts : List Placed) (n : Nat)
    (hlevels : Level.table.drop n = levels) (hn : n ≤ 6) :
    reading.always (readLevel stop levels ts) fun r => Takes ts r.2 (.tight (n + 1) r.1) := by
  match levels, hlevels with
  | [], hlevels =>
    -- behind the last level stand the unary operators
    obtain rfl : n = 6 := Nat.le_antisymm hn (List.drop_eq_nil_iff.mp hlevels)
    rw [readLevel]
    exact takes_unary stop ts
  | level :: tighter, hlevels =>
    have hlt : n < 6 := by
      refine Nat.lt_of_le_of_ne hn fun h => ?_
      rw [h] at hlevels
      exact nomatch hlevels
    have htighter : Level.table.drop (n + 1) = tighter := by
      rw [← List.tail_drop, hlevels]
      rfl
    rw [readLevel]
    refine reading.bind (takes_level stop tighter ts (n + 1) htighter hlt) ?_
    rintro ⟨left, k⟩ ⟨us, rest, rfl, rfl, hl⟩
    simp only [List.drop_left]
    refine reading.bind (takes_chain stop level tighter left rest n hlevels
      (hl.loosen (Nat.le_succ _) (by omega))) ?_
    rintro ⟨e, m⟩ ⟨vs, rest, rfl, rfl, he⟩
    exact reading.pure ⟨us ++ vs, rest, by simp, by simp, he⟩
termination_by (ts.length, levels.length + 8)
decreasing_by
  all_goals
    subst_vars
    simp only [Prod.lex_def, List.length_append, List.length_cons, true_and]
    omega

theorem takes_chain (stop : Nat) (level : Level) (tighter : List Level) (left : Expr)
    (ts : List Placed) (n : Nat) (hlevels : Level.table.drop n = level :: tighter)
    {us : List Placed} (hl : Spells us (.tight (n + 1) left)) :
    reading.always (readChain stop level tighter left ts) fun r =>
      ∃ vs rest, ts = vs ++ rest ∧ vs.length = r.2 ∧ Spells (us ++ vs) (.tight (n + 1) r.1) := by
  have hn : n < 6 := by
    refine Nat.lt_of_not_le fun h => ?_
    rw [List.drop_eq_nil_iff.mpr h] at hlevels
    exact nomatch hlevels
  have hlevel : Level.table[n]? = some level := by
    rw [← List.head?_drop, hlevels]
    rfl
  have htighter : Level.table.drop (n + 1) = tighter := by
    rw [← List.tail_drop, hlevels]
    rfl
  unfold readChain
  split
  next => exact reading.pure ⟨[], ts, rfl, rfl, by simpa using hl⟩
  next op hop =>
    obtain ⟨t, rest, rfl, ht⟩ := exists_of_operator? hop
    refine reading.bind (takes_level stop tighter rest (n + 1) htighter hn) ?_
    rintro ⟨right, k⟩ ⟨vs, rest, rfl, rfl, hr⟩
    simp only [List.tail_cons, List.drop_left]
    refine reading.bind (takes_chain stop level tighter _ rest n hlevels
      (.binary hlevel ht hl hr)) ?_
    rintro ⟨e, m⟩ ⟨ws, rest, rfl, rfl, he⟩
    refine reading.pure ⟨t :: (vs ++ ws), rest, by simp, ?_, by simpa using he⟩
    simp only [List.length_append, List.length_cons]
    omega
termination_by (ts.length, tighter.length + 8)
decreasing_by
  all_goals
    subst_vars
    simp only [Prod.lex_def, List.length_append, List.length_cons]
    omega

theorem takes_unary (stop : Nat) (ts : List Placed) :
    reading.always (readUnary stop ts) fun r => Takes ts r.2 (.tight 7 r.1) := by
  unfold readUnary
  split
  next op hop =>
    obtain ⟨t, rest, rfl, ht⟩ := exists_of_unary? hop
    refine reading.bind (takes_unary stop rest) ?_
    rintro ⟨operand, k⟩ ⟨us, rest, rfl, rfl, h⟩
    exact reading.pure ⟨t :: us, rest, rfl, Nat.add_comm _ _, .unary ht h⟩
  next =>
    refine reading.bind (takes_primary stop ts) ?_
    rintro ⟨e, k⟩ ⟨us, rest, rfl, rfl, h⟩
    simp only [List.drop_left]
    refine reading.bind (takes_suffixes stop e rest (.looser (by decide) h)) ?_
    rintro ⟨e, n⟩ ⟨vs, rest, rfl, rfl, he⟩
    exact reading.pure ⟨us ++ vs, rest, by simp, by simp, .looser (by decide) he⟩
termination_by (ts.length, 7)
decreasing_by
  all_goals
    subst_vars
    simp only [Prod.lex_def, List.length_append, List.length_cons, true_and]
    omega

theorem takes_suffixes (stop : Nat) (e : Expr) (ts : List Placed) {us : List Placed}
    (h : Spells us (.tight 8 e)) :
    reading.always (readSuffixes stop e ts) fun r =>
      ∃ vs rest, ts = vs ++ rest ∧ vs.length = r.2 ∧ Spells (us ++ vs) (.tight 8 r.1) := by
  unfold readSuffixes
  split
  next i property j rest =>
    refine reading.bind (takes_suffixes stop _ rest (.member (i := i) (j := j) property h)) ?_
    rintro ⟨e, n⟩ ⟨vs, rest, rfl, rfl, he⟩
    refine reading.pure ⟨⟨.punct .dot, i⟩ :: ⟨.name property, j⟩ :: vs, rest, rfl, ?_, ?_⟩
    · simp only [List.length_cons]
      omega
    · simpa using he
  next => exact reading_error
  next i rest =>
    refine reading.bind (takes_ternary stop rest) ?_
    rintro ⟨key, k⟩ ⟨vs, rest, rfl, rfl, hk⟩
    simp only [List.drop_left]
    split
    next hc =>
      obtain ⟨j, rest, rfl⟩ := exists_of_startsWith hc
      refine reading.bind (takes_suffixes stop _ rest (.index (i := i) (j := j) h hk)) ?_
      rintro ⟨e, n⟩ ⟨ws, rest, rfl, rfl, he⟩
      refine reading.pure ⟨⟨.punct .openSquare, i⟩ :: (vs ++ ⟨.punct .closeSquare, j⟩ :: ws), rest,
        by simp, ?_, by simpa using he⟩
      simp only [List.length_append, List.length_cons]
      omega
    next => exact reading_error
  next => exact reading_error
  next => exact reading.pure ⟨[], ts, rfl, rfl, by simpa using h⟩
termination_by (ts.length, 5)
decreasing_by
  all_goals
    subst_vars
    simp only [Prod.lex_def, List.length_append, List.length_cons]
    omega

theorem takes_primary (stop : Nat) (ts : List Placed) :
    reading.always (readPrimary stop ts) fun r => Takes ts r.2 (.tight 9 r.1) := by
  unfold readPrimary
  split
  next => exact reading_error
  next v i rest => exact reading.pure ⟨_, rest, rfl, rfl, .number v i⟩
  next s i rest => exact reading.pure ⟨_, rest, rfl, rfl, .text s i⟩
  next parts i rest => exact reading.pure ⟨_, rest, rfl, rfl, .template parts i⟩
  next n i rest => exact reading.pure ⟨_, rest, rfl, rfl, .name n i⟩
  next i rest =>
    refine reading.bind (takes_ternary stop rest) ?_
    rintro ⟨e, k⟩ ⟨us, rest, rfl, rfl, h⟩
    simp only [List.drop_left]
    split
    next hc =>
      obtain ⟨j, rest, rfl⟩ := exists_of_startsWith hc
      refine reading.pure ⟨_, rest, ?_, ?_, .parens (i := i) (j := j) h⟩
      · simp
      · simp only [List.length_cons, List.length_append, List.length_nil]
        omega
    next => exact reading_error
  next i rest =>
    refine reading.bind (takes_items stop rest) ?_
    rintro ⟨es, k⟩ ⟨us, rest, rfl, rfl, h⟩
    exact reading.pure ⟨_, rest, rfl, Nat.add_comm _ _, .array (i := i) h⟩
  next i rest =>
    refine reading.bind (takes_entries stop rest) ?_
    rintro ⟨es, k⟩ ⟨us, rest, rfl, rfl, h⟩
    exact reading.pure ⟨_, rest, rfl, Nat.add_comm _ _, .object (i := i) h⟩
  next => exact reading_error
termination_by (ts.length, 6)
decreasing_by
  all_goals
    subst_vars
    simp only [Prod.lex_def, List.length_cons]
    omega

theorem takes_items (stop : Nat) (ts : List Placed) :
    reading.always (readItems stop ts) fun r => Takes ts r.2 (.items r.1) := by
  unfold readItems
  split
  next hc =>
    obtain ⟨i, rest, rfl⟩ := exists_of_startsWith hc
    exact reading.pure ⟨_, rest, rfl, rfl, .noItems i⟩
  next =>
    refine reading.bind (takes_ternary stop ts) ?_
    rintro ⟨e, k⟩ ⟨us, rest, rfl, rfl, h⟩
    simp only [List.drop_left]
    split
    next hc =>
      obtain ⟨i, rest, rfl⟩ := exists_of_startsWith hc
      refine reading.bind (takes_items stop rest) ?_
      rintro ⟨es, n⟩ ⟨vs, rest, rfl, rfl, hs⟩
      refine reading.pure ⟨_, rest, ?_, ?_, .moreItems (i := i) h hs⟩
      · simp
      · simp only [List.length_append, List.length_cons]
        omega
    next =>
      split
      next hc =>
        obtain ⟨i, rest, rfl⟩ := exists_of_startsWith hc
        exact reading.pure ⟨_, rest, by simp, by simp, .lastItem (i := i) h⟩
      next => exact reading_error
termination_by (ts.length, 21)
decreasing_by
  all_goals
    subst_vars
    simp only [Prod.lex_def, List.length_append, List.length_cons, true_and]
    omega

theorem takes_value (stop : Nat) (t : Placed) (key : String) (alone : Bool) (ts : List Placed)
    (hk : keyOf? t.lexeme = some (key, alone)) :
    reading.always (readValue stop key alone ts) fun r =>
      ∃ us rest, ts = us ++ rest ∧ us.length = r.2 ∧ Spells (t :: us) (.entry key r.1) := by
  unfold readValue
  split
  next hc =>
    obtain ⟨i, rest, rfl⟩ := exists_of_startsWith hc
    refine reading.bind (takes_ternary stop rest) ?_
    rintro ⟨value, k⟩ ⟨us, rest, rfl, rfl, h⟩
    exact reading.pure ⟨_, rest, rfl, Nat.add_comm _ _, .pair (i := i) hk h⟩
  next =>
    split
    next ha =>
      rw [ha] at hk
      exact reading.pure ⟨[], ts, rfl, rfl, .alone hk⟩
    next => exact reading_error
termination_by (ts.length, 0)
decreasing_by
  all_goals
    subst_vars
    simp only [Prod.lex_def, List.length_cons]
    omega

theorem takes_entries (stop : Nat) (ts : List Placed) :
    reading.always (readEntries stop ts) fun r => Takes ts r.2 (.entries r.1) := by
  unfold readEntries
  split
  next hc =>
    obtain ⟨i, rest, rfl⟩ := exists_of_startsWith hc
    exact reading.pure ⟨_, rest, rfl, rfl, .noEntries i⟩
  next =>
    split
    next => exact reading_error
    next t ts _ =>
      split
      next => exact reading_error
      next key alone hk =>
        refine reading.bind (takes_value stop t key alone ts hk) ?_
        rintro ⟨value, k⟩ ⟨us, rest, rfl, rfl, h⟩
        simp only [List.drop_left]
        split
        next hc =>
          obtain ⟨i, rest, rfl⟩ := exists_of_startsWith hc
          refine reading.bind (takes_entries stop rest) ?_
          rintro ⟨es, n⟩ ⟨vs, rest, rfl, rfl, hs⟩
          refine reading.pure ⟨_, rest, ?_, ?_, .moreEntries (i := i) h hs⟩
          · simp
          · simp only [List.length_append, List.length_cons]
            omega
        next =>
          split
          next hc =>
            obtain ⟨i, rest, rfl⟩ := exists_of_startsWith hc
            refine reading.pure ⟨_, rest, ?_, ?_, .lastEntry (i := i) h⟩
            · simp
            · simp only [List.length_append, List.length_cons, List.length_nil]
              omega
          next => exact reading_error
termination_by (ts.length, 21)
decreasing_by
  all_goals
    subst_vars
    simp only [Prod.lex_def, List.length_append, List.length_cons]
    omega

end

end Expr

end PugTemplate
