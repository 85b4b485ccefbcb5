import PugTemplate.Proofs.Expr.Grammar

/-!
# What is spelled is read

A row of lexemes that spells an expression is read as that expression, up to where nothing goes on
with it. Operators of one level group to the left, so behind the operand of a level its chain is read
on from that operand.
-/

namespace PugTemplate

/-! ## Going on -/

/-- The level at which a mark carries on with the expression in front of it. -/
def Punct.rank? : Punct → Option Nat
  | question => some 0
  | dot | openSquare | openRound => some 8
  | p => (Level.table.findIdx? fun level => (level.lookup p).isSome).map (· + 1)

def Lexeme.rank? : Lexeme → Option Nat
  | punct p => p.rank?
  | _ => none

/-- Whether an expression of some level may begin with a lexeme. -/
def Lexeme.opens (n : Nat) : Lexeme → Bool
  | number _ | text _ | template _ | name _ => true
  | punct .openRound | punct .openSquare | punct .openCurly => true
  | punct .bang | punct .minus | punct .plus => n ≤ 7
  | _ => false

theorem Lexeme.opens_mono {m n : Nat} {l : Lexeme} (h : l.opens n = true) (hm : m ≤ n) :
    l.opens m = true := by
  revert h
  cases l with
  | punct p => cases p <;> simp [Lexeme.opens] <;> omega
  | _ => exact fun _ => rfl

namespace Expr

theorem operator?_cons (level : Level) (t : Placed) (ts : List Placed) :
    operator? level (t :: ts) = operator? level [t] := by
  unfold operator?
  cases ht : t.lexeme <;> grind

theorem unary?_cons (t : Placed) (ts : List Placed) : unary? (t :: ts) = unary? [t] := by
  unfold unary?
  cases ht : t.lexeme <;> grind

theorem opens_of_unary? {op : UnaryOp} {t : Placed} (h : unary? [t] = some op) :
    t.lexeme.opens 7 = true := by
  obtain ⟨lexeme, i⟩ := t
  cases lexeme with
  | punct p => cases p <;> first | rfl | exact nomatch h
  | _ => exact nomatch h

theorem unary?_of_opens {t : Placed} (h : t.lexeme.opens 8 = true) (ts : List Placed) :
    unary? (t :: ts) = none := by
  obtain ⟨lexeme, i⟩ := t
  cases lexeme with
  | punct p => cases p <;> first | rfl | exact nomatch h
  | _ => rfl

theorem rank?_of_operator? {n : Nat} {level : Level} {op : BinaryOp} {t : Placed}
    (hlevel : Level.table[n]? = some level) (h : operator? level [t] = some op) :
    t.lexeme.rank? = some (n + 1) := by
  obtain ⟨lexeme, i⟩ := t
  cases lexeme with
  | punct p =>
    match n, hlevel with
    | 0, hlevel | 1, hlevel | 2, hlevel | 3, hlevel | 4, hlevel | 5, hlevel =>
      cases hlevel
      cases p <;> first | rfl | exact nomatch h
  | _ => exact nomatch h

/-- Nothing goes on here with an expression of some level. -/
def Stops (n : Nat) (ts : List Placed) : Prop :=
  ∀ t ∈ ts.head?, ∀ r, t.lexeme.rank? = some r → r < n

namespace Stops

variable {m n : Nat} {ts : List Placed}

theorem mono (h : Stops m ts) (hn : m ≤ n) : Stops n ts :=
  fun t ht r hr => Nat.lt_of_lt_of_le (h t ht r hr) hn

theorem nil (n : Nat) : Stops n [] :=
  nofun

theorem of_none {t : Placed} (h : t.lexeme.rank? = none) : Stops n (t :: ts) := by
  rintro t ⟨⟩ r hr
  exact nomatch h.symm.trans hr

/-- Behind the last rank nothing goes on. -/
theorem of_lt (h : 8 < n) : Stops n ts := by
  intro t _ r hr
  refine Nat.lt_of_le_of_lt ?_ h
  cases hl : t.lexeme with
  | punct p =>
    rw [hl] at hr
    cases p <;> cases hr <;> decide
  | _ => simp [hl, Lexeme.rank?] at hr

theorem of_operator? {level : Level} {op : BinaryOp} {t : Placed}
    (hlevel : Level.table[n]? = some level) (h : operator? level [t] = some op) :
    Stops (n + 2) (t :: ts) := by
  rintro t ⟨⟩ r hr
  cases hr.symm.trans (rank?_of_operator? hlevel h)
  exact Nat.lt_succ_self _

theorem operator?_eq_none {level : Level} (h : Stops (n + 1) ts)
    (hlevel : Level.table[n]? = some level) : operator? level ts = none := by
  cases hop : operator? level ts with
  | none => rfl
  | some op =>
    obtain ⟨t, rest, rfl, ht⟩ := exists_of_operator? hop
    exact absurd (h t rfl _ (rank?_of_operator? hlevel ht)) (Nat.lt_irrefl _)

theorem startsWith_eq_false {p : Punct} {r : Nat} (h : Stops n ts) (hp : p.rank? = some r)
    (hr : n ≤ r) : startsWith p ts = false := by
  cases hs : startsWith p ts with
  | false => rfl
  | true =>
    obtain ⟨i, rest, rfl⟩ := exists_of_startsWith hs
    exact absurd (h _ rfl r hp) (Nat.not_lt_of_le hr)

end Stops

/-! ## Readers of one level -/

@[simp] theorem ok_bind {α β : Type} (a : α) (f : α → Except ExprError β) :
    (Except.ok a >>= f) = f a := rfl

theorem pure_eq_ok {α : Type} {a : α} {k n : Nat} (h : k = n) :
    (pure (a, k) : Except ExprError (α × Nat)) = .ok (a, n) :=
  h ▸ rfl

/-- An expression further on, behind some more lexemes. -/
def further (k : Nat) (x : Except ExprError (Expr × Nat)) : Except ExprError (Expr × Nat) := do
  let (e, n) ← x
  return (e, k + n)

@[simp] theorem further_further (j k : Nat) (x : Except ExprError (Expr × Nat)) :
    further j (further k x) = further (j + k) x := by
  cases x with
  | error e => rfl
  | ok r => exact congrArg (fun n => Except.ok (r.1, n)) (Nat.add_assoc j k r.2).symm

/-- The reader of the level behind `n`. -/
def readTight (stop n : Nat) (ts : List Placed) : Except ExprError (Expr × Nat) :=
  if n ≤ 6 then readLevel stop (Level.table.drop n) ts
  else if n = 7 then readUnary stop ts
  else readPrimary stop ts

/-- What the reader of the level behind `n` does behind an operand. -/
def readBehind (stop n : Nat) (e : Expr) (ts : List Placed) : Except ExprError (Expr × Nat) :=
  match Level.table.drop n with
  | level :: tighter => readChain stop level tighter e ts
  | [] => if n = 7 then readSuffixes stop e ts else .ok (e, 0)

/-- Behind the operators of the table stands a unary expression. -/
theorem readTight_unary (stop : Nat) (ts : List Placed) : readTight stop 6 ts = readUnary stop ts :=
  readLevel.eq_1 stop ts

theorem drop_table {n : Nat} {level : Level} (h : Level.table[n]? = some level) :
    Level.table.drop n = level :: Level.table.drop (n + 1) := by
  obtain ⟨hn, hlevel⟩ := List.getElem?_eq_some_iff.mp h
  rw [List.drop_eq_getElem_cons hn, hlevel]

theorem readSuffixes_of_stops {stop : Nat} {e : Expr} {ts : List Placed} (h : Stops 8 ts) :
    readSuffixes stop e ts = .ok (e, 0) := by
  have hmark (p : Punct) (i : Nat) (rest : List Placed) (hp : p.rank? = some 8) :
      ts ≠ ⟨.punct p, i⟩ :: rest := by
    rintro rfl
    exact absurd (h _ rfl 8 hp) (Nat.lt_irrefl 8)
  unfold readSuffixes
  split
  next => exact absurd rfl (hmark _ _ _ rfl)
  next => exact absurd rfl (hmark _ _ _ rfl)
  next => exact absurd rfl (hmark _ _ _ rfl)
  next => exact absurd rfl (hmark _ _ _ rfl)
  next => rfl

theorem readBehind_of_stops {stop n : Nat} {e : Expr} {ts : List Placed} (h : Stops (n + 1) ts) :
    readBehind stop n e ts = .ok (e, 0) := by
  unfold readBehind
  split
  next level tighter hdrop =>
    have hlevel : Level.table[n]? = some level := by
      rw [← List.head?_drop, hdrop]
      rfl
    unfold readChain
    split
    next => rfl
    next hop => cases hop.symm.trans (h.operator?_eq_none hlevel)
  next =>
    split
    next hn =>
      subst hn
      exact readSuffixes_of_stops h
    next => rfl

/-- A level reads an operand of the next one, and then its own chain. -/
theorem readTight_of_level {stop n : Nat} {level : Level} {ts : List Placed}
    (h : Level.table[n]? = some level) :
    readTight stop n ts = do
      let (left, k) ← readTight stop (n + 1) ts
      let (e, m) ← readBehind stop n left (ts.drop k)
      return (e, k + m) := by
  have hn : n < 6 := (List.getElem?_eq_some_iff.mp h).1
  have hn' : n + 1 ≤ 6 := hn
  rw [readTight, if_pos (Nat.le_of_lt hn), readTight, if_pos hn', drop_table h, readLevel]
  simp only [readBehind, drop_table h]

theorem readBehind_of_operator? {stop n : Nat} {level : Level} {op : BinaryOp} {left : Expr}
    {t : Placed} {ts : List Placed} (h : Level.table[n]? = some level)
    (hop : operator? level [t] = some op) :
    readBehind stop n left (t :: ts) = do
      let (right, k) ← readTight stop (n + 1) ts
      let (e, m) ← readBehind stop n (.binary op left right) (ts.drop k)
      return (e, 1 + k + m) := by
  have hn : n < 6 := (List.getElem?_eq_some_iff.mp h).1
  have hn' : n + 1 ≤ 6 := hn
  have hop' : operator? level (t :: ts) = some op := (operator?_cons level t ts).trans hop
  simp only [readBehind, drop_table h, readTight, if_pos hn']
  rw [readChain]
  split
  next hnone => cases hop'.symm.trans hnone
  next op' hsome =>
    cases hop'.symm.trans hsome
    rfl

/-! ## What is spelled is read -/

/-- How a row of lexemes is read where a form is looked for. -/
def Answers (us : List Placed) : Form → Prop
  | .tight 0 e => ∀ stop rest, Stops 0 rest → readTernary stop (us ++ rest) = .ok (e, us.length)
  | .tight (n + 1) e => ∀ stop rest, Stops (n + 2) rest →
      readTight stop n (us ++ rest) = further us.length (readBehind stop n e rest)
  | .items es => ∀ stop rest, readItems stop (us ++ rest) = .ok (es, us.length)
  | .entry key value => ∃ t alone vs, us = t :: vs ∧ keyOf? t.lexeme = some (key, alone) ∧
      ∀ stop rest, Stops 0 rest → startsWith .colon rest = false →
        readValue stop key alone (vs ++ rest) = .ok (value, vs.length)
  | .entries es => ∀ stop rest, readEntries stop (us ++ rest) = .ok (es, us.length)

/-- Where nothing goes on, the operand of a level is all that is read. -/
theorem Answers.readTight_eq {n : Nat} {e : Expr} {us rest : List Placed}
    (h : Answers us (.tight (n + 1) e)) (stop : Nat) (hstop : Stops (n + 1) rest) :
    readTight stop n (us ++ rest) = .ok (e, us.length) := by
  rw [h stop rest (hstop.mono (Nat.le_succ _)), readBehind_of_stops hstop]
  rfl

/-- What an expression begins with. -/
theorem Spells.opens {n : Nat} {e : Expr} {us : List Placed} (h : Spells us (.tight n e)) :
    ∃ t rest, us = t :: rest ∧ t.lexeme.opens n = true := by
  generalize hf : Form.tight n e = f at h
  induction h generalizing n e with
  | looser hn h ih =>
    cases hf
    obtain ⟨t, rest, rfl, ht⟩ := ih rfl
    exact ⟨t, rest, rfl, Lexeme.opens_mono ht (Nat.le_succ _)⟩
  | conditional _ _ _ ih | binary _ _ _ _ ih | member _ _ ih | index _ _ ih =>
    cases hf
    obtain ⟨t, rest, rfl, ht⟩ := ih rfl
    exact ⟨t, _, rfl, Lexeme.opens_mono ht (by omega)⟩
  | unary hop _ _ =>
    cases hf
    exact ⟨_, _, rfl, opens_of_unary? hop⟩
  | number | text | template | name | parens | array | object =>
    cases hf
    exact ⟨_, _, rfl, rfl⟩
  | _ => exact nomatch hf

theorem readUnary_eq {stop : Nat} {ts : List Placed} (h : unary? ts = none) :
    readUnary stop ts = do
      let (e, k) ← readPrimary stop ts
      let (e, n) ← readSuffixes stop e (ts.drop k)
      return (e, k + n) := by
  rw [readUnary]
  split
  next hop => cases h.symm.trans hop
  next => rfl

theorem readUnary_of_unary? {stop : Nat} {op : UnaryOp} {t : Placed} {ts : List Placed}
    (h : unary? [t] = some op) :
    readUnary stop (t :: ts) = do
      let (operand, k) ← readUnary stop ts
      return (.unary op operand, 1 + k) := by
  have hop := (unary?_cons t ts).trans h
  rw [readUnary]
  split
  next hsome =>
    cases hop.symm.trans hsome
    rfl
  next hnone => cases hop.symm.trans hnone

/-- What a level reads, the next looser one reads too. -/
theorem Answers.looser {n : Nat} {e : Expr} {us : List Placed} (hn : n < 9)
    (hopens : ∃ t rest, us = t :: rest ∧ t.lexeme.opens (n + 1) = true)
    (h : Answers us (.tight (n + 1) e)) : Answers us (.tight n e) := by
  cases n with
  | zero =>
    intro stop rest hstop
    have hread : readLevel stop Level.table (us ++ rest) = .ok (e, us.length) :=
      h.readTight_eq stop (hstop.mono (Nat.zero_le _))
    have hq : startsWith .question rest = false := hstop.startsWith_eq_false rfl (Nat.le_refl 0)
    rw [readTernary, hread]
    simp only [ok_bind, List.drop_left, hq, Bool.false_eq_true, dite_false]
    rfl
  | succ n =>
    intro stop rest hstop
    have hread := h.readTight_eq stop hstop
    obtain hlt | rfl | rfl : n < 6 ∨ n = 6 ∨ n = 7 := by omega
    · have hlevel : Level.table[n]? = some Level.table[n] := List.getElem?_eq_getElem hlt
      rw [readTight_of_level hlevel, hread]
      simp only [ok_bind, List.drop_left]
      rfl
    · exact (readTight_unary stop _).trans hread
    · obtain ⟨t, vs, rfl, ht⟩ := hopens
      have hprimary : readPrimary stop (t :: vs ++ rest) = .ok (e, (t :: vs).length) := hread
      have hunary : unary? (t :: vs ++ rest) = none :=
        unary?_of_opens (Lexeme.opens_mono ht (by decide)) _
      show readUnary stop (t :: vs ++ rest) = further _ (readSuffixes stop e rest)
      rw [readUnary_eq hunary, hprimary]
      simp only [ok_bind, List.drop_left]
      rfl

theorem Answers.conditional {test consequent alternate : Expr} {us vs ws : List Placed} {i j : Nat}
    (ht : Answers us (.tight 1 test)) (hc : Answers vs (.tight 0 consequent))
    (ha : Answers ws (.tight 0 alternate)) :
    Answers (us ++ ⟨.punct .question, i⟩ :: (vs ++ ⟨.punct .colon, j⟩ :: ws))
      (.tight 0 (.conditional test consequent alternate)) := by
  intro stop rest hstop
  have htest : readLevel stop Level.table
      (us ++ ⟨.punct .question, i⟩ :: (vs ++ ⟨.punct .colon, j⟩ :: (ws ++ rest))) =
      .ok (test, us.length) := by
    refine ht.readTight_eq stop ?_
    rintro t ⟨⟩ r hr
    cases hr
    exact Nat.one_pos
  have hconsequent := hc stop (⟨.punct .colon, j⟩ :: (ws ++ rest)) (.of_none rfl)
  have halternate := ha stop rest hstop
  simp only [List.append_assoc, List.cons_append]
  rw [readTernary, htest]
  simp only [ok_bind, List.drop_left, startsWith, beq_self_eq_true, dite_true, List.tail_cons,
    hconsequent, halternate]
  refine pure_eq_ok ?_
  simp only [List.length_append, List.length_cons]
  omega

theorem Answers.binary {n : Nat} {level : Level} {op : BinaryOp} {l r : Expr} {t : Placed}
    {us vs : List Placed} (hlevel : Level.table[n]? = some level)
    (hop : operator? level [t] = some op) (hl : Answers us (.tight (n + 1) l))
    (hr : Answers vs (.tight (n + 2) r)) :
    Answers (us ++ t :: vs) (.tight (n + 1) (.binary op l r)) := by
  intro stop rest hstop
  have hleft := hl stop (t :: (vs ++ rest)) (.of_operator? hlevel hop)
  have hright := hr.readTight_eq stop hstop
  rw [List.append_assoc, List.cons_append, hleft, readBehind_of_operator? hlevel hop, hright]
  simp only [ok_bind, List.drop_left]
  refine (further_further us.length (1 + vs.length) _).trans ?_
  simp only [List.length_append, List.length_cons, Nat.add_comm 1]

theorem Answers.unary {op : UnaryOp} {e : Expr} {t : Placed} {us : List Placed}
    (hop : unary? [t] = some op) (h : Answers us (.tight 7 e)) :
    Answers (t :: us) (.tight 7 (.unary op e)) := by
  intro stop rest hstop
  have hread : readUnary stop (us ++ rest) = .ok (e, us.length) :=
    (readTight_unary stop _).symm.trans (h stop rest hstop)
  rw [readTight_unary, List.cons_append, readUnary_of_unary? hop, hread]
  exact pure_eq_ok (Nat.add_comm _ _)

theorem Answers.member {e : Expr} {us : List Placed} {i j : Nat} (property : String)
    (h : Answers us (.tight 8 e)) :
    Answers (us ++ [⟨.punct .dot, i⟩, ⟨.name property, j⟩]) (.tight 8 (.member e property)) := by
  intro stop rest _
  have hread := h stop (⟨.punct .dot, i⟩ :: ⟨.name property, j⟩ :: rest) (.of_lt (by decide))
  have hsuffix : readSuffixes stop e (⟨.punct .dot, i⟩ :: ⟨.name property, j⟩ :: rest) =
      further 2 (readSuffixes stop (.member e property) rest) := by
    rw [readSuffixes]
    rfl
  rw [List.append_assoc]
  refine hread.trans ?_
  show further _ (readSuffixes _ _ _) = further _ (readSuffixes _ _ _)
  rw [hsuffix, further_further, List.length_append]
  rfl

theorem Answers.index {e key : Expr} {us vs : List Placed} {i j : Nat} (h : Answers us (.tight 8 e))
    (hk : Answers vs (.tight 0 key)) :
    Answers (us ++ ⟨.punct .openSquare, i⟩ :: (vs ++ [⟨.punct .closeSquare, j⟩]))
      (.tight 8 (.index e key)) := by
  intro stop rest _
  have hread := h stop (⟨.punct .openSquare, i⟩ :: (vs ++ ⟨.punct .closeSquare, j⟩ :: rest))
    (.of_lt (by decide))
  have hkey := hk stop (⟨.punct .closeSquare, j⟩ :: rest) (.of_none rfl)
  have hsuffix :
      readSuffixes stop e (⟨.punct .openSquare, i⟩ :: (vs ++ ⟨.punct .closeSquare, j⟩ :: rest)) =
        further (1 + vs.length + 1) (readSuffixes stop (.index e key) rest) := by
    rw [readSuffixes, hkey]
    simp only [ok_bind, List.drop_left, startsWith, beq_self_eq_true, dite_true, List.tail_cons]
    rfl
  rw [List.append_assoc, List.cons_append, List.append_assoc]
  refine hread.trans ?_
  show further _ (readSuffixes _ _ _) = further _ (readSuffixes _ _ _)
  rw [hsuffix, further_further]
  congr 1
  simp only [List.length_append, List.length_cons, List.length_nil]
  omega

/-- What nothing can be torn from is read whatever stands behind it. -/
theorem answers_primary {e : Expr} {us : List Placed}
    (h : ∀ stop rest, readPrimary stop (us ++ rest) = .ok (e, us.length)) :
    Answers us (.tight 9 e) :=
  fun stop rest _ => h stop rest

theorem Answers.parens {e : Expr} {us : List Placed} {i j : Nat} (h : Answers us (.tight 0 e)) :
    Answers (⟨.punct .openRound, i⟩ :: (us ++ [⟨.punct .closeRound, j⟩])) (.tight 9 e) := by
  refine answers_primary fun stop rest => ?_
  have hread := h stop (⟨.punct .closeRound, j⟩ :: rest) (.of_none rfl)
  rw [List.cons_append, List.append_assoc, readPrimary]
  refine (congrArg (· >>= _) hread).trans ?_
  simp only [ok_bind, List.drop_left, startsWith]
  refine pure_eq_ok ?_
  simp only [List.length_append, List.length_cons, List.length_nil]
  omega

/-! ### Items and entries -/

theorem Spells.startsWith_eq_false {n : Nat} {e : Expr} {us : List Placed}
    (h : Spells us (.tight n e)) {p : Punct} (hp : (Lexeme.punct p).opens n = false)
    (rest : List Placed) : startsWith p (us ++ rest) = false := by
  obtain ⟨t, vs, rfl, ht⟩ := h.opens
  cases hs : startsWith p (t :: vs ++ rest) with
  | false => rfl
  | true =>
    obtain ⟨i, ws, heq⟩ := exists_of_startsWith hs
    cases heq
    exact nomatch hp.symm.trans ht

theorem Answers.lastItem {e : Expr} {us : List Placed} {i : Nat} (hs : Spells us (.tight 0 e))
    (h : Answers us (.tight 0 e)) : Answers (us ++ [⟨.punct .closeSquare, i⟩]) (.items [e]) := by
  intro stop rest
  have hread := h stop (⟨.punct .closeSquare, i⟩ :: rest) (.of_none rfl)
  have hclose := hs.startsWith_eq_false (p := .closeSquare) rfl (⟨.punct .closeSquare, i⟩ :: rest)
  rw [List.append_assoc, List.cons_append, List.nil_append, readItems, hclose, hread]
  simp only [Bool.false_eq_true, if_false, ok_bind, List.drop_left]
  rw [dif_neg (by simp [startsWith])]
  simp only [startsWith, beq_self_eq_true, if_true]
  exact pure_eq_ok (by simp)

theorem Answers.moreItems {e : Expr} {es : List Expr} {us vs : List Placed} {i : Nat}
    (hs : Spells us (.tight 0 e)) (h : Answers us (.tight 0 e)) (hmore : Answers vs (.items es)) :
    Answers (us ++ ⟨.punct .comma, i⟩ :: vs) (.items (e :: es)) := by
  intro stop rest
  have hread := h stop (⟨.punct .comma, i⟩ :: (vs ++ rest)) (.of_none rfl)
  have hclose := hs.startsWith_eq_false (p := .closeSquare) rfl (⟨.punct .comma, i⟩ :: (vs ++ rest))
  rw [List.append_assoc, List.cons_append, readItems, hclose, hread]
  simp only [Bool.false_eq_true, if_false, ok_bind, List.drop_left, startsWith, beq_self_eq_true,
    dite_true, List.tail_cons, hmore stop rest]
  refine pure_eq_ok ?_
  simp only [List.length_append, List.length_cons]
  omega

theorem Answers.pair {key : String} {alone : Bool} {value : Expr} {t : Placed} {us : List Placed}
    {i : Nat} (hk : keyOf? t.lexeme = some (key, alone)) (h : Answers us (.tight 0 value)) :
    Answers (t :: ⟨.punct .colon, i⟩ :: us) (.entry key value) := by
  refine ⟨t, alone, _, rfl, hk, fun stop rest hstop _ => ?_⟩
  rw [List.cons_append, readValue]
  simp only [startsWith, beq_self_eq_true, dite_true, List.tail_cons, h stop rest hstop, ok_bind]
  exact pure_eq_ok (Nat.add_comm _ _)

theorem Answers.alone {key : String} {t : Placed} (hk : keyOf? t.lexeme = some (key, true)) :
    Answers [t] (.entry key (.name key)) := by
  refine ⟨t, true, [], rfl, hk, fun stop rest _ hcolon => ?_⟩
  rw [List.nil_append, readValue, dif_neg (by simp [hcolon])]
  rfl

/-- A key is no bracket. -/
theorem startsWith_of_keyOf? {t : Placed} {key : String} {alone : Bool}
    (hk : keyOf? t.lexeme = some (key, alone)) (p : Punct) (ts : List Placed) :
    startsWith p (t :: ts) = false := by
  cases hs : startsWith p (t :: ts) with
  | false => rfl
  | true =>
    obtain ⟨i, ws, heq⟩ := exists_of_startsWith hs
    cases heq
    exact nomatch hk

theorem Answers.lastEntry {key : String} {value : Expr} {us : List Placed} {i : Nat}
    (h : Answers us (.entry key value)) :
    Answers (us ++ [⟨.punct .closeCurly, i⟩]) (.entries [(key, value)]) := by
  intro stop rest
  obtain ⟨t, alone, vs, rfl, hk, hread⟩ := h
  have hvalue := hread stop (⟨.punct .closeCurly, i⟩ :: rest) (.of_none rfl) rfl
  rw [List.append_assoc, List.cons_append, readEntries, startsWith_of_keyOf? hk]
  simp only [Bool.false_eq_true, if_false, hk, List.cons_append, List.nil_append, hvalue, ok_bind,
    List.drop_left]
  rw [dif_neg (by simp [startsWith])]
  simp only [startsWith, beq_self_eq_true, if_true]
  refine pure_eq_ok ?_
  simp only [List.length_append, List.length_cons, List.length_nil]
  omega

theorem Answers.moreEntries {key : String} {value : Expr} {es : List (String × Expr)}
    {us vs : List Placed} {i : Nat} (h : Answers us (.entry key value))
    (hmore : Answers vs (.entries es)) :
    Answers (us ++ ⟨.punct .comma, i⟩ :: vs) (.entries ((key, value) :: es)) := by
  intro stop rest
  obtain ⟨t, alone, ws, rfl, hk, hread⟩ := h
  have hvalue := hread stop (⟨.punct .comma, i⟩ :: (vs ++ rest)) (.of_none rfl) rfl
  rw [List.append_assoc, List.cons_append, readEntries, startsWith_of_keyOf? hk]
  simp only [Bool.false_eq_true, if_false, hk, List.cons_append, hvalue, ok_bind, List.drop_left,
    startsWith, beq_self_eq_true, dite_true, List.tail_cons, hmore stop rest]
  refine pure_eq_ok ?_
  simp only [List.length_append, List.length_cons]
  omega

theorem Spells.answers {f : Form} {us : List Placed} (h : Spells us f) : Answers us f := by
  induction h with
  | looser hn h ih => exact ih.looser hn h.opens
  | conditional _ _ _ iht ihc iha => exact iht.conditional ihc iha
  | binary hlevel hop _ _ ihl ihr => exact .binary hlevel hop ihl ihr
  | unary hop _ ih => exact .unary hop ih
  | member property _ ih => exact ih.member property
  | index _ _ ih ihk => exact ih.index ihk
  | number | text | template | name =>
    refine answers_primary fun stop rest => ?_
    rw [List.cons_append, readPrimary]
    rfl
  | parens _ ih => exact ih.parens
  | array _ ih | object _ ih =>
    refine answers_primary fun stop rest => ?_
    rw [List.cons_append, readPrimary]
    refine (congrArg (· >>= _) (ih stop rest)).trans ?_
    exact pure_eq_ok (Nat.add_comm _ _)
  | noItems i =>
    intro stop rest
    rw [List.cons_append, readItems]
    simp [startsWith, pure, Except.pure]
  | lastItem h ih => exact .lastItem h ih
  | moreItems h _ ih ihs => exact .moreItems h ih ihs
  | pair hk _ ih => exact .pair hk ih
  | alone hk => exact .alone hk
  | noEntries i =>
    intro stop rest
    rw [List.cons_append, readEntries]
    simp [startsWith, pure, Except.pure]
  | lastEntry _ ih => exact ih.lastEntry
  | moreEntries _ _ ih ihs => exact ih.moreEntries ihs

/-! ## Whole texts -/

/-- The reader takes a whole text for what its lexemes spell, and for nothing else. -/
theorem readWith_eq_ok_iff {inner : List Char → Except ExprError Expr} {src : List Char} {e : Expr} :
    readWith inner src = .ok e ↔
      ∃ ts, Lexeme.readAll inner 0 src = .ok ts ∧ Spells ts (.tight 0 e) := by
  unfold readWith
  constructor
  · intro h
    obtain ⟨ts, hts, h⟩ := of_bind_eq_ok h
    refine ⟨ts, hts, ?_⟩
    dsimp only at h
    split at h
    next => exact nomatch h
    next =>
      obtain ⟨⟨e', k⟩, hread, h⟩ := of_bind_eq_ok h
      obtain ⟨us, rest, rfl, rfl, hspells⟩ := takes_ternary _ _ _ hread
      dsimp only at h
      rw [List.drop_left] at h
      split at h
      next hrest =>
        cases h
        rwa [List.isEmpty_iff.mp hrest, List.append_nil]
      next => exact nomatch h
  · rintro ⟨ts, hts, hspells⟩
    obtain ⟨t, rest, rfl, -⟩ := hspells.opens
    have hread := hspells.answers (byteLength src) [] (.nil 0)
    rw [List.append_nil] at hread
    rw [hts]
    simp only [ok_bind, List.isEmpty_cons, Bool.false_eq_true, if_false, hread, List.drop_length,
      List.isEmpty_nil, if_true]
    rfl

end Expr

end PugTemplate
