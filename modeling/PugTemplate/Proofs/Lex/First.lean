import PugTemplate.Lex.Read

/-!
# Which rule is read

Of the rules the first one that applies is read. All rules ask for their first character: a keyword
or a mark stands at the place, or a word does. So where the character is known, the rules that ask
for another one are out (`before_of_head`).
-/

namespace PugTemplate

/-- A rule that reads here makes a step. -/
theorem Layout.step_of_read {l : Layout} {c d : Cursor} {x : Char} {xs : List Char}
    {ts : List Token} (hc : c.rest = x :: xs) (hx : x ≠ '\n')
    (hread : Rule.read l.width c = .ok (ts, d)) : l.step c = .ok (ts, l, d) := by
  have hfeed : c.startsWith "\n" = false := by
    rw [Cursor.startsWith, hc]
    show ('\n' == x && _) = false
    rw [beq_false_of_ne hx.symm, Bool.false_and]
  rw [Layout.step, hfeed, if_neg Bool.false_ne_true, hread]

namespace Rule

variable {c : Cursor} {width : Nat} {word : String} {a : Char} {as : List Char}

/-- The rule that is read is the first of the list that applies. -/
theorem read_eq_of_before {r : Rule} {x : Reading} (n : Nat) (hn : all[n]? = some r)
    (hbefore : ∀ q ∈ all.take n, q width c = none) (h : r width c = some x) : read width c = x := by
  obtain ⟨hlt, rfl⟩ := List.getElem?_eq_some_iff.mp hn
  rw [read, first, ← List.take_append_drop n all, List.findSome?_append,
    List.findSome?_eq_none_iff.mpr hbefore, Option.none_or, List.drop_eq_getElem_cons hlt,
    List.findSome?_cons, h, Option.getD_some]

/-! ## The first character -/

theorem startsWith_of_head (hword : word.toList = a :: as)
    (h : c.rest.head?.any (· == a) = false) : c.startsWith word = false := by
  rw [Cursor.startsWith, hword]
  cases hc : c.rest with
  | nil => rfl
  | cons x xs =>
    have hx : x ≠ a := by simpa [hc] using h
    rw [List.isPrefixOf_cons_cons, beq_false_of_ne hx.symm, Bool.false_and]

theorem keyword?_of_head (hword : word.toList = a :: as)
    (h : c.rest.head?.any (· == a) = false) : c.keyword? word = none := by
  rw [Cursor.keyword?, startsWith_of_head hword h, Bool.false_and]
  rfl

/-- A rule that only applies where the first character is as asked for. -/
def Asks (r : Rule) (p : Char → Bool) : Prop :=
  ∀ ⦃width : Nat⦄ ⦃c : Cursor⦄, c.rest.head?.any p = false → r width c = none

theorem asks_keyword {f : Nat → Cursor → Cursor → Reading} (hword : word.toList = a :: as) :
    Asks (fun width c => (c.keyword? word).map (f width c)) (· == a) := by
  intro width c h
  dsimp only
  rw [keyword?_of_head hword h, Option.map_none]

theorem asks_mark {f : Rule} (hword : word.toList = a :: as) :
    Asks (fun width c => if c.startsWith word then f width c else none) (· == a) := by
  intro width c h
  dsimp only
  rw [startsWith_of_head hword h, if_neg Bool.false_ne_true]

theorem asks_mark_and {f : Rule} {test : Nat → Cursor → Bool} (hword : word.toList = a :: as) :
    Asks (fun width c => if c.startsWith word && test width c then f width c else none)
      (· == a) := by
  intro width c h
  dsimp only
  rw [startsWith_of_head hword h, Bool.false_and, if_neg Bool.false_ne_true]

theorem any_head_or {p q : Char → Bool} {xs : List Char}
    (h : xs.head?.any (fun x => p x || q x) = false) :
    xs.head?.any p = false ∧ xs.head?.any q = false := by
  cases xs with
  | nil => exact ⟨rfl, rfl⟩
  | cons x xs => exact Bool.or_eq_false_iff.mp h

/-- Marks that are tried in turn. -/
theorem asks_mark_or {f r : Rule} {p : Char → Bool} (hword : word.toList = a :: as)
    (hr : Asks r p) :
    Asks (fun width c => if c.startsWith word then f width c else r width c)
      fun x => x == a || p x := by
  intro width c h
  obtain ⟨ha, hp⟩ := any_head_or h
  dsimp only
  rw [startsWith_of_head hword ha, if_neg Bool.false_ne_true]
  exact hr hp

/-- The rules in their order, each with what it asks of the first character. -/
def openings : List (Rule × (Char → Bool)) :=
  [(yieldWord, (· == 'y')), (doctype, (· == 'd')), (interpolation, (· == '#')),
    (switch, (· == 'c')), (when, (· == 'w')), (defaultWord, (· == 'd')), (inherits, (· == 'e')),
    (block, fun x => x == 'a' || (x == 'p' || x == 'b')), (includes, (· == 'i')),
    (mixin, (· == 'm')), (call, (· == '+')), (otherwise, (· == 'e')), (ifCond, (· == 'i')),
    (unlessCond, (· == 'u')), (eachWith .each, (· == 'e')), (eachWith .forEach, (· == 'f')),
    (loop, (· == 'w')), (tag, isWord), (filter, (· == ':')), (codeBlock, (· == '-')),
    (code, fun x => x == '!' || (x == '=' || x == '-')), (id, (· == '#')), (dot, (· == '.')),
    (className, (· == '.')), (attributes, (· == '(')), (spread, (· == '&')),
    (text, fun x => x == '|' || x == ' '), (html, (· == '<')), (comment, (· == '/')),
    (slash, (· == '/')), (colon, (· == ':'))]

theorem asks_inherits : Asks inherits (· == 'e') := by
  intro width c h
  rw [inherits, keyword?_of_head rfl h, keyword?_of_head rfl h]
  rfl

theorem asks_block : Asks block fun x => x == 'a' || (x == 'p' || x == 'b') := by
  intro width c h
  obtain ⟨hadd, h⟩ := any_head_or h
  obtain ⟨hpre, hblock⟩ := any_head_or h
  rw [block, blockMode?, keyword?_of_head rfl hadd, keyword?_of_head rfl hpre]
  dsimp only
  rw [keyword?_of_head rfl hblock, Option.map_none]

theorem asks_tag : Asks tag isWord := by
  intro width c h
  rw [tag, h, if_neg Bool.false_ne_true]

theorem asks_id : Asks id (· == '#') := by
  intro width c h
  rw [id, startsWith_of_head rfl h, if_neg Bool.false_ne_true, startsWith_of_head rfl h,
    if_neg Bool.false_ne_true]

theorem asks_colon : Asks colon (· == ':') := by
  intro width c h
  rw [colon, startsWith_of_head rfl h, startsWith_of_head rfl h]
  rfl

theorem asks_of_mem_openings : ∀ o ∈ openings, Asks o.1 o.2 := by
  simp only [openings, List.forall_mem_cons, List.not_mem_nil, false_imp_iff, implies_true,
    and_true]
  exact ⟨asks_keyword rfl, asks_keyword rfl, asks_mark rfl, asks_keyword rfl, asks_keyword rfl,
    asks_keyword rfl, asks_inherits, asks_block, asks_keyword rfl, asks_keyword rfl, asks_mark rfl,
    asks_keyword rfl, asks_keyword rfl, asks_keyword rfl, asks_keyword rfl, asks_keyword rfl,
    asks_keyword rfl, asks_tag, asks_mark_and rfl, asks_mark_and rfl,
    asks_mark_or rfl (asks_mark_or rfl (asks_mark rfl)), asks_id, asks_mark_and rfl,
    asks_mark rfl, asks_mark rfl, asks_keyword rfl, asks_mark_or rfl (asks_mark rfl), asks_mark rfl,
    asks_mark rfl, asks_mark rfl, asks_colon⟩

/-- No rule applies that is tried before one and asks for another first character. -/
theorem before_of_head {x : Char} {rest : List Char} {n : Nat} (hc : c.rest = x :: rest)
    (hx : ∀ o ∈ openings.take n, o.2 x = false) : ∀ q ∈ all.take n, q width c = none := by
  have hall : all = openings.map Prod.fst := rfl
  rw [hall, ← List.map_take]
  refine List.forall_mem_map.mpr fun o ho => ?_
  refine asks_of_mem_openings o (List.mem_of_mem_take ho) ?_
  rw [hc]
  exact hx o ho

/-- A parenthesis opens a list of attributes. -/
theorem read_attributes {rest : List Char} (hc : c.rest = '(' :: rest) :
    read width c = attributeList c := by
  refine read_eq_of_before 24 rfl (before_of_head hc (by decide)) (if_pos ?_)
  rw [Cursor.startsWith, hc]
  rfl

end Rule

end PugTemplate
