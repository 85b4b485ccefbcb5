import PugTemplate.Proofs.Expr.Word
import PugTemplate.Proofs.Value.Distinct
import Mathlib.Data.List.TakeWhile

/-!
# JSON texts, read back

`Json.read` reads any JSON text. A text is taken token by token, and after each token the arrays and
objects that are still open say what may come next. An object becomes the map that its members leave
when they are put in one after another. Numbers without fraction and exponent are integers as far as
they fit into 64 bits.

The JSON text of a value without floats is read as that value.
-/

namespace PugTemplate

namespace Json

/-! ## Tokens -/

inductive Token where
  | beginArray
  | endArray
  | beginObject
  | endObject
  | nameSeparator
  | valueSeparator
  | text (s : String)
  /-- A literal name or a number. -/
  | plain (v : Value)

def isBlank (c : Char) : Bool :=
  c ∈ [' ', '\t', '\n', '\r']

def mark? : Char → Option Token
  | '[' => some .beginArray
  | ']' => some .endArray
  | '\x7b' => some .beginObject
  | '\x7d' => some .endObject
  | ':' => some .nameSeparator
  | ',' => some .valueSeparator
  | _ => none

/-- The number that four hexadecimal digits denote. -/
def unit? (cs : List Char) : Option Nat :=
  if (cs.take 4).length = 4 then Lexeme.hexNumber? (cs.take 4) else none

/-- The letters that stand for a character behind a backslash. -/
def letters : List (Char × Char) :=
  [('"', '"'), ('\\', '\\'), ('/', '/'), ('b', '\x08'), ('f', '\x0c'), ('n', '\n'), ('r', '\r'),
    ('t', '\t')]

/-- The character that is meant behind a backslash, and the count of characters that say so. A
character past the first plane is written as two surrogates. -/
def escaped? : List Char → Option (Char × Nat)
  | [] => none
  | 'u' :: cs => do
    let high ← unit? cs
    match Lexeme.charOf? high with
    | some c => some (c, 5)
    | none =>
      -- a number that is no character is a surrogate, and the second one has to follow
      if (cs.drop 4).take 2 = ['\\', 'u'] ∧ high < 0xDC00 then do
        let low ← unit? (cs.drop 6)
        if 0xDC00 ≤ low ∧ low < 0xE000 then
          (Lexeme.charOf? (0x10000 + 0x400 * (high - 0xD800) + (low - 0xDC00))).map (·, 11)
        else none
      else none
  | c :: _ => (letters.lookup c).map (·, 1)

/-- The characters of a string up to its closing quote, and the count of those that were read. -/
def text? : List Char → Option (List Char × Nat)
  | [] => none
  | c :: cs =>
    if c = '"' then some ([], 1)
    else do
      let (d, n) ← if c = '\\' then escaped? cs else if c.toNat < 0x20 then none else some (c, 0)
      let (ds, m) ← text? (cs.drop n)
      return (d :: ds, 1 + n + m)
termination_by cs => cs.length

/-- A number behind its sign: digits without a zero in front, perhaps a fraction, perhaps an
exponent. -/
def unsigned? (negative : Bool) (w : List Char) : Option Value :=
  let whole := w.takeWhile Char.isDigit
  let size : Int := Decimal.digitsValue whole
  let asFloat := (Decimal.unsigned? w).map fun f => Value.float (Decimal.withSign negative f)
  if whole = [] ∨ (whole.head? = some '0' ∧ whole ≠ ['0']) then none
  else
    -- a fraction has a digit behind its point; the rest is read as in any float
    match w.dropWhile Char.isDigit, Value.word? (if negative then -size else size) with
    | [], some i => some (.int i)
    | '.' :: ds, _ => if ds.head?.any Char.isDigit then asFloat else none
    | _, _ => asFloat

def number? : List Char → Option Value
  | '-' :: w => unsigned? true w
  | w => unsigned? false w

/-- A character of a literal name or a number. -/
def isPlain (c : Char) : Bool :=
  c.isAlphanum || c ∈ ['-', '+', '.']

def names : List (List Char × Value) :=
  [("null".toList, .null), ("true".toList, .bool true), ("false".toList, .bool false)]

def plain? (w : List Char) : Option Value :=
  (number? w).or (names.lookup w)

/-- The token that begins with a character, and the count of characters it takes behind that. -/
def token? (c : Char) (cs : List Char) : Option (Token × Nat) :=
  match mark? c with
  | some t => some (t, 0)
  | none =>
    if c = '"' then (text? cs).map fun r => (.text (String.ofList r.1), r.2)
    else if isPlain c then
      let more := cs.takeWhile isPlain
      (plain? (c :: more)).map fun v => (.plain v, more.length)
    else none

/-! ## What may come next -/

/-- An array or object that has begun, with what it has so far. -/
inductive Open where
  | array (items : List Value)
  /-- The member that comes next has its name already. -/
  | object (entries : List (String × Value)) (name : String)

inductive State where
  /-- A value comes next. -/
  | value (outer : List Open)
  /-- The first item of an array or its end. -/
  | items (outer : List Open)
  /-- The first name of an object or its end. -/
  | members (outer : List Open)
  /-- Another name of an object. -/
  | name (entries : List (String × Value)) (outer : List Open)
  /-- What separates a name from its value. -/
  | separator (entries : List (String × Value)) (name : String) (outer : List Open)
  /-- A value has been read. -/
  | done (v : Value) (outer : List Open)

namespace State

/-- A token where a value comes next. -/
def begin? (outer : List Open) : Token → Option State
  | .text s => some (.done (.string s) outer)
  | .plain v => some (.done v outer)
  | .beginArray => some (.items outer)
  | .beginObject => some (.members outer)
  | _ => none

def step : State → Token → Option State
  | value outer, t => begin? outer t
  | items outer, .endArray => some (.done (.array []) outer)
  | items outer, t => begin? (.array [] :: outer) t
  | members outer, .endObject => some (.done (.map []) outer)
  | members outer, .text s => some (.separator [] s outer)
  | name entries outer, .text s => some (.separator entries s outer)
  | separator entries s outer, .nameSeparator => some (.value (.object entries s :: outer))
  | done v (.array vs :: outer), .valueSeparator => some (.value (.array (vs ++ [v]) :: outer))
  | done v (.array vs :: outer), .endArray => some (.done (.array (vs ++ [v])) outer)
  | done v (.object entries s :: outer), .valueSeparator => some (.name (entries ++ [(s, v)]) outer)
  | done v (.object entries s :: outer), .endObject =>
    some (.done (.map (Dictionary.ofEntries (entries ++ [(s, v)]))) outer)
  | _, _ => none

/-- The value of a text that has been read to its end. -/
def answer? : State → Option Value
  | done v [] => some v
  | _ => none

end State

def run (s : State) : List Char → Option Value
  | [] => s.answer?
  | c :: cs =>
    if isBlank c then run s cs
    else do
      let (t, n) ← token? c cs
      let s ← s.step t
      run s (cs.drop n)
termination_by cs => cs.length

def read (s : String) : Option Value :=
  run (.value []) s.toList

example : (read " [ -5, \"\\u00e9\\ud83d\\ude00\\/\", \x7b\"a\" : 1, \"a\":[] \x7d]").map
    Value.toJson = some "[-5,\"é😀/\",\x7b\"a\":[]\x7d]" := by
  decide +kernel

/-! ## Tokens that are written, read back -/

/-- No name and no number goes on behind here. -/
def Ends (rest : List Char) : Prop :=
  ∀ c ∈ rest.head?, isPlain c = false

theorem run_append {c : Char} {w : List Char} {t : Token} (hc : isBlank c = false)
    {rest : List Char} (h : token? c (w ++ rest) = some (t, w.length)) (s : State) :
    run s (c :: (w ++ rest)) = (s.step t).bind (run · rest) := by
  rw [run, hc, h]
  simp

theorem run_mark {c : Char} {t : Token} (h : mark? c = some t) (s : State) (rest : List Char) :
    run s (c :: rest) = (s.step t).bind (run · rest) := by
  have hc : isBlank c = false := by
    unfold mark? at h
    split at h
    iterate 6
      · decide
    · exact nomatch h
  have htoken : token? c ([] ++ rest) = some (t, 0) := by
    rw [token?, h]
  exact run_append hc htoken s

theorem charOf?_toNat (c : Char) : Lexeme.charOf? c.toNat = some c :=
  dif_pos c.valid

/-- A control character has its number in two hexadecimal digits. -/
theorem unit?_control {n : Nat} (hn : n < 0x20) (rest : List Char) :
    unit? ('0' :: '0' :: Value.hexDigit (n / 16) :: Value.hexDigit n :: rest) = some n := by
  have hall : ∀ n < 0x20,
      Lexeme.hexNumber? ['0', '0', Value.hexDigit (n / 16), Value.hexDigit n] = some n := by decide
  exact hall n hn

theorem text?_escaped {c : Char} {w rest : List Char}
    (h : escaped? (w ++ rest) = some (c, w.length)) :
    text? ('\\' :: (w ++ rest)) =
      (text? rest).map fun r => (c :: r.1, 1 + w.length + r.2) := by
  rw [text?, if_neg (by decide), if_pos rfl, h]
  cases hrest : text? rest <;> simp [hrest]

theorem text?_jsonChar (c : Char) (rest : List Char) :
    text? (Value.jsonChar c ++ rest) =
      (text? rest).map fun r => (c :: r.1, (Value.jsonChar c).length + r.2) := by
  unfold Value.jsonChar
  split
  -- the five characters that have a letter, or stand for themselves behind a backslash
  iterate 5
    · exact text?_escaped (w := [_]) rfl
  next _ hquote hbackslash _ _ _ =>
    split
    next hcontrol =>
      have h : escaped? ('u' :: '0' :: '0' :: Value.hexDigit (c.toNat / 16) ::
          Value.hexDigit c.toNat :: rest) = some (c, 5) := by
        simp [escaped?, unit?_control hcontrol, charOf?_toNat]
      exact text?_escaped (w := ['u', '0', '0', _, _]) h
    next hcontrol =>
      rw [List.singleton_append, text?, if_neg hquote, if_neg hbackslash, if_neg hcontrol]
      cases hrest : text? rest <;> simp [hrest]

theorem text?_flatMap (cs rest : List Char) :
    text? (cs.flatMap Value.jsonChar ++ '"' :: rest) =
      some (cs, (cs.flatMap Value.jsonChar).length + 1) := by
  induction cs with
  | nil => rw [List.flatMap_nil, List.nil_append, text?, if_pos rfl]; rfl
  | cons c cs ih =>
    rw [List.flatMap_cons, List.append_assoc, text?_jsonChar, ih]
    simp [Nat.add_assoc]

theorem run_text (str : String) (s : State) (rest : List Char) :
    run s ((Value.jsonString str).toList ++ rest) = (s.step (.text str)).bind (run · rest) := by
  have htoken : token? '"' ((str.toList.flatMap Value.jsonChar ++ ['"']) ++ rest) =
      some (.text str, (str.toList.flatMap Value.jsonChar ++ ['"']).length) := by
    rw [List.append_assoc, List.singleton_append]
    show (text? _).map _ = _
    rw [text?_flatMap]
    simp
  rw [Value.jsonString, String.toList_ofList]
  exact run_append (by decide) htoken s

/-! ### Names and numbers -/

theorem plain_starts {c : Char} (h : isPlain c = true) :
    isBlank c = false ∧ mark? c = none ∧ c ≠ '"' := by
  refine ⟨Bool.eq_false_iff.mpr fun hblank => ?_, ?_, ?_⟩
  · have hnone : [' ', '\t', '\n', '\r'].all (!isPlain ·) = true := rfl
    have hc := List.all_eq_true.mp hnone c (of_decide_eq_true hblank)
    simp [h] at hc
  · unfold mark?
    split
    iterate 6
      · exact absurd h (by decide)
    · rfl
  · rintro rfl
    exact absurd h (by decide)

theorem takeWhile_plain {w rest : List Char} (hall : ∀ c ∈ w, isPlain c = true)
    (hrest : Ends rest) : (w ++ rest).takeWhile isPlain = w := by
  rw [List.takeWhile_append_of_pos hall]
  cases rest with
  | nil => exact List.append_nil w
  | cons d rest =>
    rw [List.takeWhile_cons_of_neg (by simp [hrest d rfl]), List.append_nil]

theorem run_plain {w : List Char} {v : Value} (hne : w ≠ []) (hall : ∀ c ∈ w, isPlain c = true)
    (hv : plain? w = some v) {rest : List Char} (hrest : Ends rest) (s : State) :
    run s (w ++ rest) = (s.step (.plain v)).bind (run · rest) := by
  obtain ⟨c, w, rfl⟩ := List.exists_cons_of_ne_nil hne
  obtain ⟨hc, hw⟩ := List.forall_mem_cons.mp hall
  obtain ⟨hblank, hmark, hquote⟩ := plain_starts hc
  refine run_append hblank ?_ s
  rw [token?, hmark]
  simp [hquote, hc, takeWhile_plain hw hrest, hv]

/-- The digits of a number do not begin with a zero, unless it is zero. -/
theorem head?_toDigits {n : Nat} (hn : n ≠ 0) : (Nat.toDigits 10 n).head? ≠ some '0' := by
  induction n using Nat.strongRecOn with
  | ind n ih =>
    by_cases hlt : n < 10
    · have hall : ∀ d < 10, d ≠ 0 → [d.digitChar].head? ≠ some '0' := by decide
      rw [Nat.toDigits_of_lt_base hlt]
      exact hall n hlt hn
    · rw [Nat.toDigits_of_base_le (by decide) (by omega),
        List.head?_append_of_ne_nil _ Nat.toDigits_ne_nil]
      exact ih (n / 10) (by omega) (by omega)

theorem unsigned?_toDigits {negative : Bool} {n : Nat} {i : Int64}
    (hi : i.toInt = if negative then -(n : Int) else n) :
    unsigned? negative (Nat.toDigits 10 n) = some (.int i) := by
  have hdigits : ∀ c ∈ Nat.toDigits 10 n, c.isDigit = true := fun c =>
    Nat.isDigit_of_mem_toDigits (by decide) (by decide)
  have htake : (Nat.toDigits 10 n).takeWhile Char.isDigit = Nat.toDigits 10 n :=
    List.takeWhile_eq_self_iff.mpr hdigits
  have hdrop : (Nat.toDigits 10 n).dropWhile Char.isDigit = [] :=
    List.dropWhile_eq_nil_iff.mpr hdigits
  have hvalue : Decimal.digitsValue (Nat.toDigits 10 n) = n :=
    Nat.ofDigitChars_toDigits (by decide) (by decide)
  have hzero : ¬ ((Nat.toDigits 10 n).head? = some '0' ∧ Nat.toDigits 10 n ≠ ['0']) := by
    rintro ⟨hhead, hne⟩
    by_cases hn : n = 0
    · exact hne (hn ▸ Nat.toDigits_zero 10)
    · exact head?_toDigits hn hhead
  have hword : Value.word? (if negative then -(n : Int) else n) = some i := by
    rw [← hi, Lexeme.word?_toInt]
  simp only [unsigned?, htake, hdrop, hvalue, hword, Nat.toDigits_ne_nil, hzero, false_or, if_false]

theorem toList_intText (i : Int64) :
    (Value.intText i).toList =
      if i.toInt < 0 then '-' :: Nat.toDigits 10 i.toInt.natAbs
      else Nat.toDigits 10 i.toInt.natAbs := by
  rw [Value.intText, Int.toString_eq_repr]
  cases i.toInt with
  | ofNat n => simp [Int.repr, Nat.repr_eq_ofList_toDigits]
  | negSucc n => simp [Int.repr, Nat.repr_eq_ofList_toDigits, Int.negSucc_lt_zero]

theorem isPlain_of_isDigit {c : Char} (h : c.isDigit = true) : isPlain c = true := by
  simp [isPlain, Char.isAlphanum, h]

theorem isPlain_of_mem_intText {i : Int64} {c : Char} (h : c ∈ (Value.intText i).toList) :
    isPlain c = true := by
  have hdigit : c ∈ Nat.toDigits 10 i.toInt.natAbs → isPlain c = true := fun h =>
    isPlain_of_isDigit (Nat.isDigit_of_mem_toDigits (by decide) (by decide) h)
  rw [toList_intText] at h
  split at h
  next =>
    rcases List.mem_cons.mp h with rfl | h
    · decide
    · exact hdigit h
  next => exact hdigit h

theorem number?_intText (i : Int64) : number? (Value.intText i).toList = some (.int i) := by
  rw [toList_intText]
  split
  next hneg => exact unsigned?_toDigits (by rw [if_pos rfl]; omega)
  next hpos =>
    -- without a sign the first character is a digit
    have hminus : ∀ w, Nat.toDigits 10 i.toInt.natAbs ≠ '-' :: w := fun w he =>
      absurd (Nat.isDigit_of_mem_toDigits (b := 10) (by decide) (by decide)
        (he ▸ List.mem_cons_self)) (by decide)
    unfold number?
    split
    next w he => exact absurd he (hminus w)
    next => exact unsigned?_toDigits (by rw [if_neg (by decide)]; omega)

theorem run_int (i : Int64) {rest : List Char} (hrest : Ends rest) (s : State) :
    run s ((Value.intText i).toList ++ rest) = (s.step (.plain (.int i))).bind (run · rest) := by
  have hplain : plain? (Value.intText i).toList = some (.int i) := by
    rw [plain?, number?_intText, Option.some_or]
  have hne : (Value.intText i).toList ≠ [] := by
    rw [toList_intText]
    split
    · exact List.cons_ne_nil _ _
    · exact Nat.toDigits_ne_nil
  exact run_plain hne (fun c => isPlain_of_mem_intText) hplain hrest s

theorem run_name {v : Value} (h : (v.toJson.toList, v) ∈ names) {rest : List Char}
    (hrest : Ends rest) (s : State) :
    run s (v.toJson.toList ++ rest) = (s.step (.plain v)).bind (run · rest) := by
  simp only [names, List.mem_cons, List.not_mem_nil, or_false, Prod.mk.injEq] at h
  rcases h with ⟨-, rfl⟩ | ⟨-, rfl⟩ | ⟨-, rfl⟩
  iterate 3
    · exact run_plain (by decide) (List.all_eq_true.mp rfl) rfl hrest s

end Json

/-! ## Values that are written, read back -/

namespace Value

mutual

/-- No float stands in a value. -/
def FloatFree : Value → Prop
  | float _ => False
  | array items => FloatFreeItems items
  | map entries => FloatFreeEntries entries
  | null | bool _ | int _ | string _ => True

def FloatFreeItems : List Value → Prop
  | [] => True
  | v :: vs => v.FloatFree ∧ FloatFreeItems vs

def FloatFreeEntries : List (String × Value) → Prop
  | [] => True
  | (_, v) :: es => v.FloatFree ∧ FloatFreeEntries es

end

end Value

namespace Json

/-- A value may come next. -/
structure State.Expects (s : State) (outer : List Open) : Prop where
  text (str : String) : s.step (.text str) = some (.done (.string str) outer)
  plain (v : Value) : s.step (.plain v) = some (.done v outer)
  array : s.step .beginArray = some (.items outer)
  object : s.step .beginObject = some (.members outer)

theorem State.expects_value (outer : List Open) : (value outer).Expects outer :=
  ⟨fun _ => rfl, fun _ => rfl, rfl, rfl⟩

theorem State.expects_items (outer : List Open) : (items outer).Expects (.array [] :: outer) :=
  ⟨fun _ => rfl, fun _ => rfl, rfl, rfl⟩

theorem ends_cons {c : Char} (h : isPlain c = false) (rest : List Char) : Ends (c :: rest) := by
  intro d hd
  cases hd
  exact h

open State Value

mutual

/-- Where a value is expected, the JSON text of a value is read as that value. -/
theorem run_toJson (v : Value) (hf : v.FloatFree) (hd : v.Distinct) {s : State} {outer : List Open}
    (hs : s.Expects outer) {rest : List Char} (hrest : Ends rest) :
    run s (v.toJson.toList ++ rest) = run (.done v outer) rest := by
  match v with
  | .null | .bool true | .bool false =>
    exact (run_name (by simp [names, toJson, boolText]) hrest s).trans (by rw [hs.plain]; rfl)
  | .int i =>
    rw [toJson, run_int i hrest, hs.plain]
    rfl
  | .string str =>
    rw [toJson, run_text, hs.text]
    rfl
  | .array [] =>
    show run s ('[' :: ']' :: rest) = _
    rw [run_mark (t := .beginArray) rfl, hs.array]
    exact run_mark (t := .endArray) rfl _ rest
  | .array (v :: vs) =>
    have htext : (toJson (.array (v :: vs))).toList =
        '[' :: ((commaSeparated (jsonItems (v :: vs))).toList ++ [']']) := by
      simp [toJson]
    -- behind the bracket the array may end, or an item may come as in an array without items so far
    rw [htext, List.cons_append, List.append_assoc, run_mark (t := .beginArray) rfl, hs.array]
    exact run_jsonItems (v :: vs) (List.cons_ne_nil v vs) hf hd (expects_items outer) rest
  | .map [] =>
    show run s ('\x7b' :: '\x7d' :: rest) = _
    rw [run_mark (t := .beginObject) rfl, hs.object]
    exact run_mark (t := .endObject) rfl _ rest
  | .map (e :: es) =>
    have htext : (toJson (.map (e :: es))).toList =
        '\x7b' :: ((commaSeparated (jsonEntries (e :: es))).toList ++ ['\x7d']) := by
      simp [toJson]
    rw [htext, List.cons_append, List.append_assoc, run_mark (t := .beginObject) rfl, hs.object]
    refine (run_jsonEntries (e :: es) (List.cons_ne_nil e es) hf hd.2 (fun _ => rfl) rest).trans ?_
    -- no name comes twice, so the insertions leave the entries as they are
    rw [List.nil_append, Dictionary.ofEntries_of_nodup hd.1]

/-- Where the next item of an array is expected, its other items are read to its end. -/
theorem run_jsonItems (vs : List Value) (hne : vs ≠ []) (hf : FloatFreeItems vs)
    (hd : DistinctItems vs) {s : State} {items : List Value} {outer : List Open}
    (hs : s.Expects (.array items :: outer)) (rest : List Char) :
    run s ((commaSeparated (jsonItems vs)).toList ++ ']' :: rest) =
      run (.done (.array (items ++ vs)) outer) rest := by
  match vs with
  | [] => exact absurd rfl hne
  | [v] =>
    show run s (v.toJson.toList ++ ']' :: rest) = _
    rw [run_toJson v hf.1 hd.1 hs (ends_cons (by decide) rest)]
    exact run_mark (t := .endArray) rfl _ rest
  | v :: w :: vs =>
    have htext : (commaSeparated (jsonItems (v :: w :: vs))).toList =
        v.toJson.toList ++ ',' :: (commaSeparated (jsonItems (w :: vs))).toList := by
      simp [jsonItems, commaSeparated]
    -- a comma ends the text of the first item, also where that is a number
    rw [htext, List.append_assoc, List.cons_append,
      run_toJson v hf.1 hd.1 hs (ends_cons (by decide) _), run_mark (t := .valueSeparator) rfl]
    have hrest := run_jsonItems (w :: vs) (List.cons_ne_nil w vs) hf.2 hd.2
      (expects_value (.array (items ++ [v]) :: outer)) rest
    rw [List.append_assoc, List.singleton_append] at hrest
    exact hrest

/-- Where the next name of an object is expected, its other members are read to its end. -/
theorem run_jsonEntries (es : List (String × Value)) (hne : es ≠ []) (hf : FloatFreeEntries es)
    (hd : DistinctEntries es) {s : State} {entries : List (String × Value)} {outer : List Open}
    (hs : ∀ str, s.step (.text str) = some (.separator entries str outer)) (rest : List Char) :
    run s ((commaSeparated (jsonEntries es)).toList ++ '\x7d' :: rest) =
      run (.done (.map (Dictionary.ofEntries (entries ++ es))) outer) rest := by
  match es with
  | [] => exact absurd rfl hne
  | (key, v) :: es =>
    -- up to the end of the first member's value
    have hmember : ∀ more, Ends more → run s
        ((jsonString key ++ ":" ++ v.toJson).toList ++ more) =
          run (.done v (.object entries key :: outer)) more := by
      intro more hmore
      rw [String.toList_append, String.toList_append, List.append_assoc, List.append_assoc,
        run_text, hs]
      refine (run_mark (t := .nameSeparator) rfl _ _).trans ?_
      exact run_toJson v hf.1 hd.1 (expects_value _) hmore
    match es with
    | [] =>
      rw [jsonEntries, jsonEntries, commaSeparated, hmember _ (ends_cons (by decide) rest)]
      exact run_mark (t := .endObject) rfl _ rest
    | e :: es =>
      have htext : (commaSeparated (jsonEntries ((key, v) :: e :: es))).toList =
          (jsonString key ++ ":" ++ v.toJson).toList ++
            ',' :: (commaSeparated (jsonEntries (e :: es))).toList := by
        simp [jsonEntries, commaSeparated]
      rw [htext, List.append_assoc, List.cons_append, hmember _ (ends_cons (by decide) _),
        run_mark (t := .valueSeparator) rfl]
      have hrest := run_jsonEntries (e :: es) (List.cons_ne_nil e es) hf.2 hd.2
        (s := .name (entries ++ [(key, v)]) outer) (fun _ => rfl) rest
      rw [List.append_assoc, List.singleton_append] at hrest
      exact hrest

end

/-- The JSON text of a value without floats is read as that value, its maps with their entries in
their order. -/
theorem read_toJson {v : Value} (hf : v.FloatFree) (hd : v.Distinct) : read v.toJson = some v := by
  have h : run (.value []) (v.toJson.toList ++ []) = run (.done v []) [] :=
    run_toJson v hf hd (expects_value []) nofun
  rw [List.append_nil] at h
  exact h.trans (run.eq_def _ _)

end Json
end PugTemplate
