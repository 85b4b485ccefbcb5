import PugTemplate.Proofs.Expr.Complete
import PugTemplate.Proofs.Expr.Word

/-!
# Printed expressions

An expression is printed as lexemes with blanks between them. Parentheses stand around an operand that
binds looser than its place asks for, and around any other a style wants them for. Whatever the style,
the text is read back as the expression it was printed from.
-/

namespace PugTemplate

namespace UnaryOp

def punct : UnaryOp → Punct
  | not => .bang
  | neg => .minus
  | plus => .plus

end UnaryOp

namespace BinaryOp

def punct : BinaryOp → Punct
  | add => .plus
  | sub => .minus
  | mul => .times
  | div => .slash
  | rem => .percent
  | eq => .eq
  | notEq => .notEq
  | strictEq => .strictEq
  | strictNotEq => .strictNotEq
  | lt => .lt
  | le => .le
  | gt => .gt
  | ge => .ge
  | and => .andAnd
  | or => .orOr

/-- How tight an operator binds, from 1, the loosest. -/
def level : BinaryOp → Nat
  | or => 1
  | and => 2
  | eq | notEq | strictEq | strictNotEq => 3
  | lt | le | gt | ge => 4
  | add | sub => 5
  | mul | div | rem => 6

end BinaryOp

/-- How expressions are printed. -/
structure Style where
  /-- The mark that strings stand in. -/
  mark : Char
  /-- The operands that stand in parentheses even where they need not. -/
  wraps : Expr → Bool

namespace Expr

/-- How tight an expression binds: conditionals the loosest, and what has no operands the tightest. -/
def level : Expr → Nat
  | conditional _ _ _ => 0
  | binary op _ _ => op.level
  | unary _ _ => 7
  | member _ _ | index _ _ => 8
  | _ => 9

/-- An expression with parts. -/
def isCompound : Expr → Bool
  | literal _ | name _ => false
  | _ => true

end Expr

namespace Style

/-- Only the parentheses that are needed. -/
def sparing (mark : Char) : Style :=
  ⟨mark, fun _ => false⟩

/-- Parentheses around every compound operand. -/
def full (mark : Char) : Style :=
  ⟨mark, Expr.isCompound⟩

/-- The lexemes of an operand in a place that asks for some level. -/
def operand (y : Style) (n : Nat) (e : Expr) (ls : List Lexeme) : List Lexeme :=
  if y.wraps e || e.level < n then .punct .openRound :: (ls ++ [.punct .closeRound]) else ls

/-- The text of a lexeme that is printed. -/
def write (y : Style) : Lexeme → List Char
  | .number (.int i) => Nat.toDigits 10 i.toInt.toNat
  | .text s => inQuotes y.mark s.toList
  | .name n => n.toList
  | .punct p => p.text.toList
  | .number _ | .template _ => []

end Style

/-- A name stands as it is, any other key as a string. -/
def Lexeme.ofKey (key : String) : Lexeme :=
  if isName key.toList then .name key else .text key

def Lexeme.ofValue : Value → Lexeme
  | .bool b => .name (Value.boolText b)
  | .string s => .text s
  | .null => .name "null"
  | v => .number v

namespace Expr

mutual

/-- The lexemes an expression is printed as. -/
def lexemes (y : Style) : Expr → List Lexeme
  | literal v => [.ofValue v]
  | name n => [.name n]
  | array items => .punct .openSquare :: itemLexemes y items
  | object entries => .punct .openCurly :: entryLexemes y entries
  | member e property => y.operand 8 e (lexemes y e) ++ [.punct .dot, .name property]
  | index e key =>
    y.operand 8 e (lexemes y e) ++
      .punct .openSquare :: (y.operand 0 key (lexemes y key) ++ [.punct .closeSquare])
  | unary op e => .punct op.punct :: y.operand 7 e (lexemes y e)
  | binary op l r =>
    y.operand op.level l (lexemes y l) ++
      .punct op.punct :: y.operand (op.level + 1) r (lexemes y r)
  | conditional test consequent alternate =>
    y.operand 1 test (lexemes y test) ++
      .punct .question :: (y.operand 0 consequent (lexemes y consequent) ++
        .punct .colon :: y.operand 0 alternate (lexemes y alternate))

/-- The items of an array, with the bracket behind them. -/
def itemLexemes (y : Style) : List Expr → List Lexeme
  | [] => [.punct .closeSquare]
  | e :: es =>
    y.operand 0 e (lexemes y e) ++
      if es.isEmpty then [.punct .closeSquare] else .punct .comma :: itemLexemes y es

/-- The entries of an object, with the bracket behind them. -/
def entryLexemes (y : Style) : List (String × Expr) → List Lexeme
  | [] => [.punct .closeCurly]
  | (key, e) :: es =>
    .ofKey key :: .punct .colon :: (y.operand 0 e (lexemes y e) ++
      if es.isEmpty then [.punct .closeCurly] else .punct .comma :: entryLexemes y es)

end

/-- The text an expression is printed as. -/
def print (y : Style) (e : Expr) : List Char :=
  [' '].intercalate ((e.lexemes y).map y.write)

/-- The names that stand for constants. -/
def constants : List String :=
  ["true", "false", "null", "undefined"]

/-- A literal that can be written as one lexeme. -/
def writable : Value → Bool
  | .null | .bool _ | .string _ => true
  | .int i => 0 ≤ i.toInt
  | _ => false

mutual

/-- Literals, names and properties throughout are such as can be written. -/
def isPlain : Expr → Bool
  | literal v => writable v
  | name n => isName n.toList && n ∉ constants
  | array items => itemsPlain items
  | object entries => entriesPlain entries
  | member e property => e.isPlain && isName property.toList
  | index e key => e.isPlain && key.isPlain
  | unary _ e => e.isPlain
  | binary _ l r => l.isPlain && r.isPlain
  | conditional test consequent alternate =>
    test.isPlain && consequent.isPlain && alternate.isPlain

def itemsPlain : List Expr → Bool
  | [] => true
  | e :: es => e.isPlain && itemsPlain es

def entriesPlain : List (String × Expr) → Bool
  | [] => true
  | (_, e) :: es => e.isPlain && entriesPlain es

end

/-! ## What is printed is spelled -/

/-- Lexemes spell a form wherever they stand. -/
def Prints (ls : List Lexeme) (f : Form) : Prop :=
  ∀ ts : List Placed, ts.map Placed.lexeme = ls → Spells ts f

theorem level_le (e : Expr) : e.level ≤ 9 := by
  cases e with
  | binary op =>
    show op.level ≤ 9
    cases op <;> decide
  | _ => simp [level]

/-- Lexemes around a mark, wherever they stand. -/
theorem exists_of_map_append {ts : List Placed} {ls ms : List Lexeme} {p : Punct}
    (h : ts.map Placed.lexeme = ls ++ .punct p :: ms) :
    ∃ us i vs, ts = us ++ ⟨.punct p, i⟩ :: vs ∧ us.map Placed.lexeme = ls ∧
      vs.map Placed.lexeme = ms := by
  obtain ⟨us, rest, rfl, hus, hrest⟩ := List.map_eq_append_iff.mp h
  obtain ⟨⟨l, i⟩, vs, rfl, hl, hvs⟩ := List.map_eq_cons_iff.mp hrest
  obtain rfl : l = .punct p := hl
  exact ⟨us, i, vs, rfl, hus, hvs⟩

theorem exists_of_map_cons {ts : List Placed} {l : Lexeme} {ls : List Lexeme}
    (h : ts.map Placed.lexeme = l :: ls) :
    ∃ i us, ts = ⟨l, i⟩ :: us ∧ us.map Placed.lexeme = ls := by
  obtain ⟨⟨l', i⟩, us, rfl, hl, hus⟩ := List.map_eq_cons_iff.mp h
  obtain rfl : l' = l := hl
  exact ⟨i, us, rfl, hus⟩

theorem eq_of_map_singleton {ts : List Placed} {l : Lexeme} (h : ts.map Placed.lexeme = [l]) :
    ∃ i, ts = [⟨l, i⟩] := by
  obtain ⟨i, us, rfl, hus⟩ := exists_of_map_cons h
  rw [List.map_eq_nil_iff.mp hus]
  exact ⟨i, rfl⟩

theorem Prints.parens {e : Expr} {ls : List Lexeme} (h : Prints ls (.tight 0 e)) :
    Prints (.punct .openRound :: (ls ++ [.punct .closeRound])) (.tight 9 e) := by
  intro ts hts
  obtain ⟨i, rest, rfl, hrest⟩ := exists_of_map_cons hts
  obtain ⟨us, j, vs, rfl, hus, hvs⟩ := exists_of_map_append hrest
  rw [List.map_eq_nil_iff.mp hvs]
  exact .parens (h us hus)

/-- An operand fits into a place that asks for some level. -/
theorem Prints.operand {y : Style} {n : Nat} {e : Expr} {ls : List Lexeme}
    (h : Prints ls (.tight e.level e)) (hn : n ≤ 9) : Prints (y.operand n e ls) (.tight n e) := by
  intro ts hts
  unfold Style.operand at hts
  split at hts
  next =>
    have h0 : Prints ls (.tight 0 e) := fun us hus => (h us hus).loosen (Nat.zero_le _) e.level_le
    exact (h0.parens ts hts).loosen hn (Nat.le_refl 9)
  next hwrap =>
    obtain ⟨-, hlevel⟩ := not_or.mp (mt Bool.or_eq_true_iff.mpr hwrap)
    exact (h ts hts).loosen (Nat.le_of_not_lt fun hlt => hlevel (decide_eq_true hlt)) e.level_le

theorem prints_value {v : Value} (h : writable v) : Prints [.ofValue v] (.tight 9 (.literal v)) := by
  intro ts hts
  obtain ⟨i, rfl⟩ := eq_of_map_singleton hts
  cases v with
  | null => exact .name "null" i
  | bool b => cases b <;> exact .name _ i
  | int n => exact .number _ i
  | string s => exact .text s i
  | float | array | map => exact nomatch h

theorem prints_name {n : String} (h : n ∉ constants) : Prints [.name n] (.tight 9 (.name n)) := by
  intro ts hts
  obtain ⟨i, rfl⟩ := eq_of_map_singleton hts
  have hname : ofName n = .name n := by
    simp only [constants, List.mem_cons, not_or] at h
    simp [ofName, h]
  exact hname ▸ .name n i

theorem Prints.binary {op : BinaryOp} {l r : Expr} {ls rs : List Lexeme}
    (hl : Prints ls (.tight op.level l)) (hr : Prints rs (.tight (op.level + 1) r)) :
    Prints (ls ++ .punct op.punct :: rs) (.tight op.level (.binary op l r)) := by
  intro ts hts
  obtain ⟨us, i, vs, rfl, hus, hvs⟩ := exists_of_map_append hts
  have hop : ∃ n level, op.level = n + 1 ∧ Level.table[n]? = some level ∧
      operator? level [⟨.punct op.punct, i⟩] = some op := by
    cases op <;> exact ⟨_, _, rfl, rfl, rfl⟩
  obtain ⟨n, level, hn, hlevel, hop⟩ := hop
  rw [hn] at hl hr ⊢
  exact .binary hlevel hop (hl us hus) (hr vs hvs)

theorem keyOf?_ofKey (key : String) : ∃ alone, keyOf? (.ofKey key) = some (key, alone) := by
  unfold Lexeme.ofKey
  split
  · exact ⟨true, rfl⟩
  · exact ⟨false, rfl⟩

mutual

theorem prints_lexemes (y : Style) (e : Expr) (h : e.isPlain) :
    Prints (e.lexemes y) (.tight e.level e) := by
  match e with
  | .literal v => exact prints_value h
  | .name n =>
    obtain ⟨-, hn⟩ := Bool.and_eq_true_iff.mp h
    exact prints_name (of_decide_eq_true hn)
  | .array items =>
    intro ts hts
    obtain ⟨i, us, rfl, hus⟩ := exists_of_map_cons hts
    exact .array (prints_items y items h us hus)
  | .object entries =>
    intro ts hts
    obtain ⟨i, us, rfl, hus⟩ := exists_of_map_cons hts
    exact .object (prints_entries y entries h us hus)
  | .member e property =>
    intro ts hts
    obtain ⟨he, -⟩ := Bool.and_eq_true_iff.mp h
    obtain ⟨us, i, vs, rfl, hus, hvs⟩ := exists_of_map_append hts
    obtain ⟨j, rfl⟩ := eq_of_map_singleton hvs
    exact .member property ((prints_lexemes y e he).operand (by decide) us hus)
  | .index e key =>
    intro ts hts
    obtain ⟨he, hkey⟩ := Bool.and_eq_true_iff.mp h
    obtain ⟨us, i, rest, rfl, hus, hrest⟩ := exists_of_map_append hts
    obtain ⟨vs, j, ws, rfl, hvs, hws⟩ := exists_of_map_append hrest
    rw [List.map_eq_nil_iff.mp hws]
    exact .index ((prints_lexemes y e he).operand (by decide) us hus)
      ((prints_lexemes y key hkey).operand (by decide) vs hvs)
  | .unary op e =>
    intro ts hts
    obtain ⟨i, us, rfl, hus⟩ := exists_of_map_cons hts
    have hop : unary? [⟨.punct op.punct, i⟩] = some op := by cases op <;> rfl
    exact .unary hop ((prints_lexemes y e h).operand (by decide) us hus)
  | .binary op l r =>
    obtain ⟨hl, hr⟩ := Bool.and_eq_true_iff.mp h
    have hlevel : op.level + 1 ≤ 9 := by cases op <;> decide
    exact ((prints_lexemes y l hl).operand (Nat.le_of_succ_le hlevel)).binary
      ((prints_lexemes y r hr).operand hlevel)
  | .conditional test consequent alternate =>
    intro ts hts
    obtain ⟨htc, ha⟩ := Bool.and_eq_true_iff.mp h
    obtain ⟨ht, hc⟩ := Bool.and_eq_true_iff.mp htc
    obtain ⟨us, i, rest, rfl, hus, hrest⟩ := exists_of_map_append hts
    obtain ⟨vs, j, ws, rfl, hvs, hws⟩ := exists_of_map_append hrest
    exact .conditional ((prints_lexemes y test ht).operand (by decide) us hus)
      ((prints_lexemes y consequent hc).operand (by decide) vs hvs)
      ((prints_lexemes y alternate ha).operand (by decide) ws hws)

theorem prints_items (y : Style) (es : List Expr) (h : itemsPlain es) :
    Prints (itemLexemes y es) (.items es) := by
  match es with
  | [] =>
    intro ts hts
    obtain ⟨i, rfl⟩ := eq_of_map_singleton hts
    exact .noItems i
  | e :: es =>
    intro ts hts
    obtain ⟨he, hes⟩ := Bool.and_eq_true_iff.mp h
    have hfirst : Prints (y.operand 0 e (lexemes y e)) (.tight 0 e) :=
      (prints_lexemes y e he).operand (Nat.zero_le 9)
    rw [itemLexemes] at hts
    split at hts
    next hnil =>
      obtain ⟨us, i, vs, rfl, hus, hvs⟩ := exists_of_map_append hts
      rw [List.map_eq_nil_iff.mp hvs, List.isEmpty_iff.mp hnil]
      exact .lastItem (hfirst us hus)
    next =>
      obtain ⟨us, i, vs, rfl, hus, hvs⟩ := exists_of_map_append hts
      exact .moreItems (hfirst us hus) (prints_items y es hes vs hvs)

theorem prints_entries (y : Style) (es : List (String × Expr)) (h : entriesPlain es) :
    Prints (entryLexemes y es) (.entries es) := by
  match es with
  | [] =>
    intro ts hts
    obtain ⟨i, rfl⟩ := eq_of_map_singleton hts
    exact .noEntries i
  | (key, e) :: es =>
    intro ts hts
    obtain ⟨he, hes⟩ := Bool.and_eq_true_iff.mp h
    obtain ⟨alone, hkey⟩ := keyOf?_ofKey key
    have hvalue : Prints (y.operand 0 e (lexemes y e)) (.tight 0 e) :=
      (prints_lexemes y e he).operand (Nat.zero_le 9)
    rw [entryLexemes] at hts
    obtain ⟨i, rest, rfl, hrest⟩ := exists_of_map_cons hts
    obtain ⟨j, behind, rfl, hbehind⟩ := exists_of_map_cons hrest
    split at hbehind
    next hnil =>
      obtain ⟨us, k, vs, rfl, hus, hvs⟩ := exists_of_map_append hbehind
      rw [List.map_eq_nil_iff.mp hvs, List.isEmpty_iff.mp hnil]
      exact .lastEntry (.pair hkey (hvalue us hus))
    next =>
      obtain ⟨us, k, vs, rfl, hus, hvs⟩ := exists_of_map_append hbehind
      exact .moreEntries (.pair hkey (hvalue us hus)) (prints_entries y es hes vs hvs)

end

/-! ## What is printed is read back -/

theorem writtenAs_ofKey {y : Style} (hmark : isQuote y.mark) (key : String) :
    (Lexeme.ofKey key).WrittenAs (y.write (.ofKey key)) := by
  unfold Lexeme.ofKey
  split
  next hkey => exact Lexeme.writtenAs_name hkey
  next => exact Lexeme.writtenAs_text hmark key

theorem writtenAs_value {y : Style} (hmark : isQuote y.mark) {v : Value} (h : writable v) :
    (Lexeme.ofValue v).WrittenAs (y.write (.ofValue v)) := by
  cases v with
  | null => exact Lexeme.writtenAs_name (n := "null") (by decide)
  | bool b =>
    refine Lexeme.writtenAs_name ?_
    cases b <;> decide
  | int i => exact Lexeme.writtenAs_int (of_decide_eq_true h)
  | string s => exact Lexeme.writtenAs_text hmark s
  | float | array | map => exact nomatch h

/-- Every lexeme is read back from its text. -/
def Readable (y : Style) (ls : List Lexeme) : Prop :=
  ∀ l ∈ ls, l.WrittenAs (y.write l)

section Readable

variable {y : Style} {ls ms : List Lexeme}

theorem Readable.punct (p : Punct) (h : Readable y ls) : Readable y (.punct p :: ls) :=
  List.forall_mem_cons.mpr ⟨Lexeme.writtenAs_punct p, h⟩

theorem Readable.append (h : Readable y ls) (h' : Readable y ms) : Readable y (ls ++ ms) :=
  List.forall_mem_append.mpr ⟨h, h'⟩

theorem readable_nil : Readable y [] :=
  nofun

theorem Readable.operand (n : Nat) (e : Expr) (h : Readable y ls) :
    Readable y (y.operand n e ls) := by
  unfold Style.operand
  split
  · exact (h.append (readable_nil.punct _)).punct _
  · exact h

mutual

theorem readable_lexemes (hmark : isQuote y.mark) (e : Expr) (h : e.isPlain) : Readable y (e.lexemes y) := by
  match e with
  | .literal v => exact List.forall_mem_singleton.mpr (writtenAs_value hmark h)
  | .name n =>
    obtain ⟨hn, -⟩ := Bool.and_eq_true_iff.mp h
    exact List.forall_mem_singleton.mpr (Lexeme.writtenAs_name hn)
  | .array items => exact (readable_items hmark items h).punct _
  | .object entries => exact (readable_entries hmark entries h).punct _
  | .member e property =>
    obtain ⟨he, hp⟩ := Bool.and_eq_true_iff.mp h
    have hproperty : Readable y [.name property] :=
      List.forall_mem_singleton.mpr (Lexeme.writtenAs_name hp)
    exact ((readable_lexemes hmark e he).operand 8 e).append (hproperty.punct _)
  | .index e key =>
    obtain ⟨he, hkey⟩ := Bool.and_eq_true_iff.mp h
    exact ((readable_lexemes hmark e he).operand 8 e).append
      ((((readable_lexemes hmark key hkey).operand 0 key).append (readable_nil.punct _)).punct _)
  | .unary op e => exact ((readable_lexemes hmark e h).operand 7 e).punct _
  | .binary op l r =>
    obtain ⟨hl, hr⟩ := Bool.and_eq_true_iff.mp h
    exact ((readable_lexemes hmark l hl).operand _ l).append (((readable_lexemes hmark r hr).operand _ r).punct _)
  | .conditional test consequent alternate =>
    obtain ⟨htc, ha⟩ := Bool.and_eq_true_iff.mp h
    obtain ⟨ht, hc⟩ := Bool.and_eq_true_iff.mp htc
    exact ((readable_lexemes hmark test ht).operand 1 test).append
      ((((readable_lexemes hmark consequent hc).operand 0 consequent).append
        (((readable_lexemes hmark alternate ha).operand 0 alternate).punct _)).punct _)

theorem readable_items (hmark : isQuote y.mark) (es : List Expr) (h : itemsPlain es) :
    Readable y (itemLexemes y es) := by
  match es with
  | [] => exact readable_nil.punct _
  | e :: es =>
    obtain ⟨he, hes⟩ := Bool.and_eq_true_iff.mp h
    refine ((readable_lexemes hmark e he).operand 0 e).append ?_
    split
    · exact readable_nil.punct _
    · exact (readable_items hmark es hes).punct _

theorem readable_entries (hmark : isQuote y.mark) (es : List (String × Expr))
    (h : entriesPlain es) : Readable y (entryLexemes y es) := by
  match es with
  | [] => exact readable_nil.punct _
  | (key, e) :: es =>
    obtain ⟨he, hes⟩ := Bool.and_eq_true_iff.mp h
    refine List.forall_mem_cons.mpr ⟨writtenAs_ofKey hmark key, Readable.punct _ ?_⟩
    refine ((readable_lexemes hmark e he).operand 0 e).append ?_
    split
    · exact readable_nil.punct _
    · exact (readable_entries hmark es hes).punct _

end

end Readable

/-- Whatever operands a style wraps, what it prints is read back. -/
theorem read_print_of_isPlain {y : Style} (hmark : isQuote y.mark) {e : Expr} (h : e.isPlain) :
    Expr.read (e.print y) = .ok e := by
  have htexts : List.Forall₂ Lexeme.WrittenAs (e.lexemes y) ((e.lexemes y).map y.write) :=
    List.forall₂_map_right_iff.mpr (List.forall₂_same.mpr (readable_lexemes hmark e h))
  obtain ⟨ts, hts, hls⟩ := Lexeme.readAll_spaced htexts
    (fun hole => if hole.length < (e.print y).length then read hole else .error ⟨.unexpectedEnd, 0⟩) 0
  rw [read]
  exact readWith_eq_ok_iff.mpr
    ⟨ts, hts, (prints_lexemes y e h ts hls).loosen (Nat.zero_le _) e.level_le⟩

/-- The reader inverts printing, be it with parentheses around every compound operand or only where
they are needed. -/
theorem read_print {mark : Char} (hmark : isQuote mark) {e : Expr} (h : e.isPlain) :
    Expr.read (e.print (.full mark)) = .ok e ∧ Expr.read (e.print (.sparing mark)) = .ok e :=
  ⟨read_print_of_isPlain hmark h, read_print_of_isPlain hmark h⟩

/-- A choice between a difference that groups to the right and an object. -/
def sampleChoice : Expr :=
  .conditional (.binary .lt (.member (.name "x") "null") (.literal (.int 7)))
    (.binary .sub (.name "a") (.binary .sub (.unary .neg (.name "b")) (.literal (.string "c'"))))
    (.object [("k", .array [.literal .null]), ("not a name", .index (.name "y") (.literal (.bool true)))])

example : String.ofList (sampleChoice.print (.sparing '\'')) =
    "x . null < 7 ? a - ( - b - 'c\\'' ) : \x7b k : [ null ] , 'not a name' : y [ true ] \x7d" := by
  decide

theorem read_print_choice :
    isQuote '\'' ∧ sampleChoice.isPlain ∧
      Expr.read (sampleChoice.print (.full '\'')) = .ok sampleChoice ∧
      Expr.read (sampleChoice.print (.sparing '\'')) = .ok sampleChoice :=
  ⟨rfl, by decide, read_print rfl (by decide)⟩

end Expr

end PugTemplate
