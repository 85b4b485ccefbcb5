import PugTemplate.Link.Resolve
import PugTemplate.Proofs.Expr.Blank
import PugTemplate.Proofs.Expr.Print
import PugTemplate.Proofs.Lex.Outline
import PugTemplate.Proofs.Text.Marker

/-!
# Expressions in templates

What reads as an expression by itself is cut out whole where it stands in a template: as a value in a
text, and as a default in the parameters of a mixin. Main statement: `nesting_follows_expressions`.
-/

namespace PugTemplate

open Nesting (Passes)

/-! ## Literal text -/

namespace Piece

def markers : List (List Char) :=
  [['#', '\x7b'], ['!', '\x7b'], ['#', '[']]

/-- No backslash and no marker stands in a text. -/
def IsLiteral (cs : List Char) : Prop :=
  '\\' ∉ cs ∧ ∀ m ∈ markers, ¬ m <:+: cs

instance (cs : List Char) : Decidable (IsLiteral cs) :=
  inferInstanceAs (Decidable ('\\' ∉ cs ∧ ∀ m ∈ markers, ¬ m <:+: cs))

theorem IsLiteral.of_cons {c : Char} {cs : List Char} (h : IsLiteral (c :: cs)) :
    c ≠ '\\' ∧ IsLiteral cs := by
  obtain ⟨hc, hcs⟩ := not_or.mp fun hmem => h.1 (List.mem_cons.mpr hmem)
  exact ⟨fun heq => hc heq.symm, hcs, fun m hm hin => h.2 m hm (hin.trans (List.suffix_cons c cs).isInfix)⟩

theorem marker?_eq_some {cs : List Char} {r : Bracket × Bool} (h : marker? cs = some r) :
    ∃ a b rest, cs = a :: b :: rest ∧ [a, b] ∈ markers := by
  unfold marker? at h
  split at h
  · exact ⟨_, _, _, rfl, by decide⟩
  · exact ⟨_, _, _, rfl, by decide⟩
  · exact ⟨_, _, _, rfl, by decide⟩
  · exact nomatch h

/-- The first character of a marker is not the second one of another, so none begins in a literal
text in front of a marker. -/
theorem marker?_append {c : Char} {cs rest : List Char} (h : IsLiteral (c :: cs))
    (hrest : ∀ d ∈ rest.head?, d = '#' ∨ d = '!') : marker? (c :: (cs ++ rest)) = none := by
  cases hm : marker? (c :: (cs ++ rest)) with
  | none => rfl
  | some r =>
    obtain ⟨a, b, more, heq, hab⟩ := marker?_eq_some hm
    cases cs with
    | nil =>
      obtain ⟨rfl, hb⟩ := List.cons.inj heq
      rw [List.nil_append] at hb
      rcases hrest b (by rw [hb]; rfl) with rfl | rfl
      · simp [markers] at hab
      · simp [markers] at hab
    | cons d ds =>
      cases heq
      exact absurd ⟨[], ds, rfl⟩ (h.2 _ hab)

/-- What a literal text is by itself: nothing if it is empty. -/
def literalPieces (cs : List Char) : List Piece :=
  if cs = [] then [] else [.literal cs]

theorem prependLiteral_cons (c : Char) (cs : List Char) (ps : List Piece) :
    prependLiteral [c] (prependLiteral cs ps) = prependLiteral (c :: cs) ps := by
  cases ps with
  | nil => rfl
  | cons p ps => cases p <;> rfl

theorem split_append {cs rest : List Char} (h : IsLiteral cs)
    (hrest : ∀ d ∈ rest.head?, d = '#' ∨ d = '!') (offset : Nat) :
    split offset (cs ++ rest) =
      if cs = [] then split offset rest else prependLiteral cs (split (offset + byteLength cs) rest) := by
  induction cs generalizing offset with
  | nil => rfl
  | cons c cs ih =>
    obtain ⟨hc, hcs⟩ := h.of_cons
    rw [List.cons_append, split, if_neg fun hand => hc hand.1, marker?_append h hrest]
    dsimp only
    rw [ih hcs, if_neg (List.cons_ne_nil c cs), byteLength, ← Nat.add_assoc]
    by_cases hnil : cs = []
    · rw [if_pos hnil, hnil]
      rfl
    · rw [if_neg hnil, prependLiteral_cons]

theorem split_literal {cs : List Char} (h : IsLiteral cs) (offset : Nat) :
    split offset cs = literalPieces cs := by
  have hsplit : split offset (cs ++ []) = _ := split_append h (by simp) offset
  rw [List.append_nil] at hsplit
  rw [hsplit, literalPieces, split, split]
  rfl

/-- The character that begins the marker of a value. -/
def valueMark (escape : Bool) : Char :=
  if escape then '#' else '!'

/-- A value in a text is one piece, whatever brackets it has. -/
theorem split_value {before after source : List Char} (hbefore : IsLiteral before)
    (hafter : IsLiteral after) (hsource : Passes [] source []) (escape : Bool) :
    split 0 (before ++ valueMark escape :: '\x7b' :: (source ++ '\x7d' :: after)) =
      literalPieces before ++ .output (byteLength before) escape source :: literalPieces after := by
  have hvalue (offset : Nat) :
      split offset (valueMark escape :: '\x7b' :: (source ++ '\x7d' :: after)) =
        .output offset escape source :: literalPieces after := by
    have hmarker : marker? (valueMark escape :: '\x7b' :: (source ++ '\x7d' :: after)) =
        some (.curly, escape) := by
      cases escape <;> rfl
    have hslash : valueMark escape ≠ '\\' := by
      cases escape <;> decide
    have hinside : Nesting.inside .curly (source ++ '\x7d' :: after) = .ok source :=
      hsource.inside_closing .curly after
    have hdrop : ('\x7b' :: (source ++ '\x7d' :: after)).drop (source.length + 2) = after := by
      rw [List.drop_succ_cons, List.drop_length_add_append]
      rfl
    rw [split, if_neg fun hand => hslash hand.1, hmarker]
    dsimp only
    rw [List.tail_cons, hinside]
    dsimp only
    rw [hdrop, split_literal hafter]
    rfl
  have hhead : ∀ d ∈ (valueMark escape :: '\x7b' :: (source ++ '\x7d' :: after)).head?,
      d = '#' ∨ d = '!' := by
    rintro d ⟨⟩
    cases escape
    · exact .inr rfl
    · exact .inl rfl
  rw [split_append hbefore hhead, hvalue, hvalue, Nat.zero_add]
  unfold literalPieces
  by_cases hnil : before = []
  · simp [hnil, byteLength]
  · simp [hnil, prependLiteral]

end Piece

/-! ## Values in text -/

def literalSegments (s : String) : List Segment :=
  if s = "" then [] else [.literal s]

theorem mapM_literalPieces
    (segments : String → Location → Except ParseError (List Segment)) (loc : Location) (s : String) :
    (Piece.literalPieces s.toList).mapM (segmentOf segments loc) = .ok (literalSegments s) := by
  unfold Piece.literalPieces literalSegments
  by_cases hs : s = ""
  · rw [if_pos (String.toList_eq_nil_iff.mpr hs), if_pos hs]
    rfl
  · rw [if_neg fun h => hs (String.toList_eq_nil_iff.mp h), if_neg hs, List.mapM_cons,
      List.mapM_nil, segmentOf, String.ofList_toList]
    rfl

theorem segmentsAt_value (escape : Bool) {before after source raw : String} {e : Expr}
    (hbefore : Piece.IsLiteral before.toList) (hafter : Piece.IsLiteral after.toList)
    (he : Expr.read source.toList = .ok e)
    (hraw : raw.toList = before.toList ++
      Piece.valueMark escape :: '\x7b' :: (source.toList ++ '\x7d' :: after.toList))
    (loc : Location) :
    segmentsAt raw loc = .ok (literalSegments before ++
      (if escape then .escaped e else .raw e) :: literalSegments after) := by
  have hvalue : expressionAt source = fun _ => .ok e := by
    funext at_
    rw [expressionAt, he]
    rfl
  rw [segmentsAt, hraw, Piece.split_value hbefore hafter (Expr.passes_read he), List.mapM_append,
    mapM_literalPieces, List.mapM_cons, mapM_literalPieces, segmentOf, String.ofList_toList, hvalue]
  rfl

/-! ## Parameters -/

namespace Param

/-- How a parameter is written: a name, alone or with the text of its default. -/
inductive Written : Param → List Char → Prop where
  | bare {name : String} (hname : isName name.toList) : Written ⟨name, none, false⟩ name.toList
  | defaulted {name : String} {source : List Char} {e : Expr} (hname : isName name.toList)
      (he : Expr.read source = .ok e) :
      Written ⟨name, some e, false⟩ (name.toList ++ [' ', '=', ' '] ++ source)

theorem forall_isNameChar {cs : List Char} (h : isName cs) : ∀ c ∈ cs, isNameChar c := by
  cases cs with
  | nil => exact nomatch h
  | cons c cs =>
    obtain ⟨hc, hcs⟩ := Bool.and_eq_true_iff.mp h
    exact List.forall_mem_cons.mpr ⟨isNameChar_of_isNameStart hc, List.all_eq_true.mp hcs⟩

theorem not_isBlank_of_isName {cs : List Char} (h : isName cs) : ∀ c ∈ cs, isBlank c = false :=
  fun c hc => not_isBlank_of_isNameChar (forall_isNameChar h c hc)

theorem passes_of_isName {cs : List Char} (h : isName cs) : Passes [] cs [] :=
  Nesting.passes_of_isQuiet trivial fun c hc =>
    Nesting.isQuiet_of Lexeme.isNameChar_loud (forall_isNameChar h c hc)

namespace Written

variable {p : Param} {cs : List Char}

theorem exists_name (h : p.Written cs) : ∃ more, isName p.name.toList ∧ cs = p.name.toList ++ more := by
  cases h with
  | bare hname => exact ⟨[], hname, (List.append_nil _).symm⟩
  | defaulted hname _ => exact ⟨_, hname, List.append_assoc _ _ _⟩

theorem exists_cons (h : p.Written cs) : ∃ c rest, cs = c :: rest ∧ isNameStart c := by
  obtain ⟨more, hname, rfl⟩ := h.exists_name
  match p.name.toList, hname with
  | c :: rest, hname => exact ⟨c, rest ++ more, rfl, (Bool.and_eq_true_iff.mp hname).1⟩

theorem not_allBlank (h : p.Written cs) (rest : List Char) : allBlank (cs ++ rest) = false := by
  obtain ⟨c, more, rfl, hc⟩ := h.exists_cons
  have hblank := not_isBlank_of_isNameChar (isNameChar_of_isNameStart hc)
  rw [List.cons_append, allBlank, List.all_cons, hblank, Bool.false_and]

theorem passes (h : p.Written cs) : Passes [] cs [] := by
  cases h with
  | bare hname => exact passes_of_isName hname
  | defaulted hname he =>
    have hmark : Passes [] [' ', '=', ' '] [] :=
      Nesting.passes_of_isQuiet trivial (List.all_eq_true.mp rfl)
    exact ((passes_of_isName hname).append hmark).append (Expr.passes_read he)

/-- Blanks at the end are no part of what is written. -/
theorem trimEnd (h : p.Written cs) : p.Written (trimEnd cs) := by
  cases h with
  | bare hname =>
    rw [trimEnd_eq_self (not_isBlank_of_isName hname)]
    exact .bare hname
  | @defaulted name source e hname he =>
    obtain ⟨blank, hblank, hsource⟩ := exists_trimEnd source
    rw [trimEnd_append (Expr.not_allBlank_of_read he)]
    rw [hsource] at he
    have hread : Expr.read ([] ++ PugTemplate.trimEnd source) = .ok e :=
      Expr.read_of_append_blank he hblank rfl
    exact .defaulted hname hread

theorem restName?_eq_none (h : p.Written cs) : restName? cs = none := by
  obtain ⟨c, rest, rfl, hc⟩ := h.exists_cons
  unfold restName?
  split
  next heq =>
    cases heq
    exact nomatch hc
  next => rfl

theorem paramAt (h : p.Written cs) (loc : Location) (last : Bool) : paramAt loc last cs = .ok p := by
  have hequals {name : String} (hname : isName name.toList) :
      ∀ c ∈ name.toList, (decide (c ≠ '=')) = true := by
    intro c hc
    refine decide_eq_true ?_
    rintro rfl
    exact nomatch forall_isNameChar hname _ hc
  rw [PugTemplate.paramAt, h.restName?_eq_none]
  cases h with
  | @bare name hname =>
    have htake : name.toList.takeWhile (· ≠ '=') = name.toList := by
      rw [← List.append_nil name.toList, List.takeWhile_append_of_pos (hequals hname)]
      rfl
    dsimp only
    rw [htake, List.drop_length]
    show (if isName name.toList then _ else _) = _
    rw [if_pos hname]
    exact congrArg (fun n => Except.ok (⟨n, none, false⟩ : Param)) String.ofList_toList
  | @defaulted name source e hname he =>
    have htake : (name.toList ++ [' ', '=', ' '] ++ source).takeWhile (· ≠ '=') =
        name.toList ++ [' '] := by
      rw [List.append_assoc, List.takeWhile_append_of_pos (hequals hname)]
      rfl
    dsimp only
    have hdrop : (name.toList ++ [' ', '=', ' '] ++ source).drop (name.toList ++ [' ']).length =
        '=' :: ' ' :: source := by
      rw [show [' ', '=', ' '] = [' '] ++ ['=', ' '] from rfl, ← List.append_assoc,
        List.append_assoc, List.drop_left]
      rfl
    have hvalue : expressionAt (String.ofList (' ' :: source)) loc = .ok e := by
      have hread : Expr.read ([' '] ++ source) = .ok e :=
        Expr.read_of_append_blank ((List.append_nil source).symm ▸ he) rfl rfl
      rw [expressionAt, String.toList_ofList, ← List.singleton_append, hread]
      rfl
    have htrim : trim (name.toList ++ [' ']) = name.toList := by
      obtain ⟨c, rest, hcs, hc⟩ := (bare hname).exists_cons
      have hblank := not_isBlank_of_isNameChar (isNameChar_of_isNameStart hc)
      rw [hcs, List.cons_append, trim_cons hblank, ← List.cons_append, ← hcs,
        trimEnd_append_blank rfl, trimEnd_eq_self (not_isBlank_of_isName hname)]
    rw [htake, hdrop]
    dsimp only
    rw [hvalue]
    show (if isName (trim (name.toList ++ [' '])) then _ else _) = _
    rw [htrim, if_pos hname]
    exact congrArg (fun n => Except.ok (⟨n, some e, false⟩ : Param)) String.ofList_toList

/-- Blanks around a parameter do not matter. -/
theorem paramAt_trim (h : p.Written cs) (loc : Location) (last : Bool) :
    PugTemplate.paramAt loc last (trim cs) = .ok p := by
  obtain ⟨c, rest, rfl, hc⟩ := h.exists_cons
  rw [trim_cons (not_isBlank_of_isNameChar (isNameChar_of_isNameStart hc))]
  exact h.trimEnd.paramAt loc last

end Written

/-! ### Rows of parameters -/

/-- Parameters with a comma and a blank between them. -/
def row (texts : List (List Char)) : List Char :=
  [',', ' '].intercalate texts

theorem row_cons_cons (t u : List Char) (texts : List (List Char)) :
    row (t :: u :: texts) = t ++ [',', ' '] ++ row (u :: texts) :=
  List.intercalate_cons_cons

theorem mem_row {texts : List (List Char)} {c : Char} (h : c ∈ row texts) :
    c ∈ [',', ' '] ∨ ∃ t ∈ texts, c ∈ t := by
  induction texts with
  | nil => exact nomatch h
  | cons t texts ih =>
    cases texts with
    | nil =>
      rw [row, List.intercalate_singleton] at h
      exact .inr ⟨t, List.mem_cons_self, h⟩
    | cons u texts =>
      rw [row_cons_cons, List.mem_append, List.mem_append] at h
      obtain (h | h) | h := h
      · exact .inr ⟨t, List.mem_cons_self, h⟩
      · exact .inl h
      · exact (ih h).imp_right fun ⟨v, hv, hc⟩ => ⟨v, List.mem_cons_of_mem t hv, hc⟩

theorem exists_row_cons (t : List Char) (texts : List (List Char)) :
    ∃ more, row (t :: texts) = t ++ more := by
  cases texts with
  | nil => exact ⟨[], by rw [row, List.intercalate_singleton, List.append_nil]⟩
  | cons u texts => exact ⟨_, (row_cons_cons t u texts).trans (List.append_assoc _ _ _)⟩

theorem Written.not_allBlank_row {p : Param} {t : List Char} (h : p.Written t)
    (texts : List (List Char)) : allBlank (row (t :: texts)) = false := by
  obtain ⟨more, hmore⟩ := exists_row_cons t texts
  rw [hmore]
  exact h.not_allBlank more

theorem Written.trim_row {p : Param} {t : List Char} (h : p.Written t)
    (texts : List (List Char)) : trim (row (t :: texts)) = PugTemplate.trimEnd (row (t :: texts)) := by
  obtain ⟨more, hmore⟩ := exists_row_cons t texts
  obtain ⟨c, rest, rfl, hc⟩ := h.exists_cons
  rw [hmore, List.cons_append, trim_cons (not_isBlank_of_isNameChar (isNameChar_of_isNameStart hc))]

variable {params : List Param} {texts : List (List Char)}

theorem passes_row (h : List.Forall₂ Written params texts) : ∀ t ∈ texts, Passes [] t [] := by
  induction h with
  | nil => exact nofun
  | cons hp _ ih => exact List.forall_mem_cons.mpr ⟨hp.passes, ih⟩

/-- Trimmed, a row is a row of the same parameters. -/
theorem exists_trim_row (h : List.Forall₂ Written params texts) :
    ∃ trimmed, List.Forall₂ Written params trimmed ∧ trim (row texts) = row trimmed := by
  induction h with
  | nil => exact ⟨[], .nil, rfl⟩
  | @cons p t params texts hp h ih =>
    rw [hp.trim_row]
    cases h with
    | nil =>
      refine ⟨[PugTemplate.trimEnd t], .cons hp.trimEnd .nil, ?_⟩
      rw [row, row, List.intercalate_singleton, List.intercalate_singleton]
    | @cons q u params texts hq h =>
      obtain ⟨trimmed, htrimmed, hrow⟩ := ih
      rw [hq.trim_row] at hrow
      cases htrimmed with
      | @cons _ v _ trimmed hv htrimmed =>
        refine ⟨t :: v :: trimmed, .cons hp (.cons hv htrimmed), ?_⟩
        rw [row_cons_cons, row_cons_cons, ← hrow]
        exact trimEnd_append (hq.not_allBlank_row texts) _

theorem commaParts_row {t : List Char} (h : ∀ u ∈ t :: texts, Passes [] u []) :
    Nesting.commaParts [] (row (t :: texts)) = t :: texts.map (' ' :: ·) := by
  induction texts generalizing t with
  | nil =>
    have ht : Nesting.commaParts [] (t ++ []) = [t ++ []] := (h t List.mem_cons_self).commaParts rfl
    rw [List.append_nil] at ht
    rwa [row, List.intercalate_singleton]
  | cons u texts ih =>
    obtain ⟨ht, hrest⟩ := List.forall_mem_cons.mp h
    have hparts : Nesting.commaParts [] (',' :: ' ' :: row (u :: texts)) =
        [] :: (' ' :: u) :: texts.map (' ' :: ·) := by
      have hblank : Passes [] [' '] [] := Nesting.passes_of_isQuiet trivial (List.all_eq_true.mp rfl)
      rw [Nesting.commaParts, if_pos ⟨rfl, rfl⟩]
      exact congrArg ([] :: ·) (hblank.commaParts (ih hrest))
    have hrow := ht.commaParts hparts
    rw [List.append_nil] at hrow
    rw [row_cons_cons, List.append_assoc]
    exact hrow

theorem inside_row (h : ∀ u ∈ texts, Passes [] u []) (rest : List Char) :
    Nesting.inside .round (row texts ++ ')' :: rest) = .ok (row texts) := by
  induction texts with
  | nil => rfl
  | cons t texts ih =>
    obtain ⟨ht, hrest⟩ := List.forall_mem_cons.mp h
    cases texts with
    | nil =>
      rw [row, List.intercalate_singleton]
      exact ht.inside_closing .round rest
    | cons u texts =>
      have hcomma : Nesting.untilClosed [.bracket .round]
          (',' :: ' ' :: (row (u :: texts) ++ ')' :: rest)) = .ok (',' :: ' ' :: row (u :: texts)) := by
        have hmore := ih hrest
        rw [Nesting.inside] at hmore
        simp [Nesting.untilClosed, Nesting.feed, Nesting.feedPlain, Bracket.ofOpening?, hmore]
      have hrow := ht.untilClosed (b := .round) hcomma
      simp only [row_cons_cons, List.append_assoc]
      exact hrow

theorem paramParts_eq_ok {parts : List (List Char)} {loc : Location}
    (h : List.Forall₂ (fun p part => ∀ last, paramAt loc last (trim part) = .ok p) params parts) :
    paramParts loc parts = .ok params := by
  induction h with
  | nil => rfl
  | cons hp _ ih =>
    rw [paramParts, hp, ih]
    rfl

theorem paramsAt_row (h : List.Forall₂ Written params texts) (loc : Location) :
    paramsAt (String.ofList (trim (row texts))) loc = .ok params := by
  obtain ⟨trimmed, htrimmed, hrow⟩ := exists_trim_row h
  rw [paramsAt, String.toList_ofList, hrow]
  cases htrimmed with
  | nil => rfl
  | @cons p t params trimmed hp htrimmed =>
    have hpasses := passes_row (.cons hp htrimmed)
    rw [if_neg (by simp [hp.not_allBlank_row trimmed]), commaParts_row hpasses]
    refine paramParts_eq_ok (.cons (hp.paramAt_trim loc) ?_)
    refine List.forall₂_map_right_iff.mpr (htrimmed.imp fun q u hq last => ?_)
    rw [trim_blank_cons rfl]
    exact hq.paramAt_trim loc last

end Param

/-! ## A mixin's line -/

theorem mixin_eq (width : Nat) {row : List Char}
    (hrow : Nesting.inside .round (row ++ [')']) = .ok row) (loc : Location) :
    ∃ stop, Rule.mixin width ⟨"mixin m(".toList ++ (row ++ [')']), loc⟩ =
      some (.ok ([⟨.mixin "m" (some (String.ofList (trim row))), loc⟩], ⟨[], stop⟩)) := by
  have hkeyword : (⟨"mixin m(".toList ++ (row ++ [')']), loc⟩ : Cursor).keyword? "mixin" =
      some ⟨" m(".toList ++ (row ++ [')']), loc.afterText "mixin".toList⟩ := rfl
  have hname (at_ : Location) : (⟨" m(".toList ++ (row ++ [')']), at_⟩ : Cursor).skipIndent =
      ⟨"m(".toList ++ (row ++ [')']), at_.afterText [' ']⟩ := rfl
  have hword (at_ : Location) : (⟨"m(".toList ++ (row ++ [')']), at_⟩ : Cursor).word = ['m'] := rfl
  have hbracket (at_ : Location) :
      ((⟨"m(".toList ++ (row ++ [')']), at_⟩ : Cursor).skip ['m'].length).skipIndent =
        ⟨'(' :: (row ++ [')']), (at_.afterText ['m']).afterText []⟩ := rfl
  have hopen (at_ : Location) : (⟨'(' :: (row ++ [')']), at_⟩ : Cursor).startsWith "(" = true := rfl
  have hinside (at_ : Location) : ((⟨'(' :: (row ++ [')']), at_⟩ : Cursor).skip 1).inside .round =
      .ok (row, ⟨[], (at_.afterText ['(']).afterText (row ++ [')'])⟩) := by
    have hlength : (row ++ [')']).length = row.length + 1 := List.length_append
    rw [Cursor.inside, Cursor.rest_skip, List.drop_succ_cons, List.drop_zero, hrow]
    simp only [Cursor.skip, List.drop_succ_cons, List.drop_zero, List.take_succ_cons,
      List.take_zero, ← hlength, List.drop_length, List.take_length]
  refine ⟨(((((loc.afterText "mixin".toList).afterText [' ']).afterText ['m']).afterText
    []).afterText ['(']).afterText (row ++ [')']), ?_⟩
  rw [Rule.mixin, hkeyword, Option.map_some]
  dsimp only
  rw [hname, hword, if_neg (List.cons_ne_nil _ _), hbracket, if_pos (hopen _), hinside]
  rfl

/-- What is read at the definition of a mixin. -/
theorem read_mixin (width : Nat) {row : List Char}
    (hrow : Nesting.inside .round (row ++ [')']) = .ok row) (loc : Location) :
    ∃ stop, Rule.read width ⟨"mixin m(".toList ++ (row ++ [')']), loc⟩ =
      .ok ([⟨.mixin "m" (some (String.ofList (trim row))), loc⟩], ⟨[], stop⟩) := by
  obtain ⟨stop, hmixin⟩ := mixin_eq width hrow loc
  exact ⟨stop, Rule.read_eq_of_before 9 rfl (Rule.before_of_head rfl (by decide)) hmixin⟩

theorem lex_mixin {row : List Char} (hrow : Nesting.inside .round (row ++ [')']) = .ok row)
    (hreturn : '\r' ∉ row) :
    ∃ stop, lex (String.ofList ("mixin m(".toList ++ (row ++ [')']))) =
      .ok [⟨.mixin "m" (some (String.ofList (trim row))), .start⟩, ⟨.eos, stop⟩] := by
  have hnormal : normalizeText (String.ofList ("mixin m(".toList ++ (row ++ [')']))) =
      String.ofList ("mixin m(".toList ++ (row ++ [')'])) := by
    rw [normalizeText, String.toList_ofList, normalize_eq_self]
    · simp [hreturn]
    · rintro ⟨⟩
  obtain ⟨stop, hread⟩ := read_mixin 0 hrow .start
  have hleading : Layout.skipLeading ⟨"mixin m(".toList ++ (row ++ [')']), .start⟩ =
      ⟨"mixin m(".toList ++ (row ++ [')']), .start⟩ := by
    rw [Layout.skipLeading, if_neg (by rintro ⟨⟨⟩, -⟩)]
    exact Cursor.skip_zero _
  have hstep : Layout.empty.step ⟨"mixin m(".toList ++ (row ++ [')']), .start⟩ =
      .ok ([⟨.mixin "m" (some (String.ofList (trim row))), .start⟩], .empty, ⟨[], stop⟩) :=
    Layout.step_of_read rfl (by decide) hread
  refine ⟨stop, ?_⟩
  rw [lex, hnormal, lexAt, String.toList_ofList, hleading,
    Layout.tokens_of_ne (List.cons_ne_nil _ _), hstep]
  show (_ ++ ·) <$> Layout.empty.tokens ⟨[], stop⟩ = _
  rw [Layout.tokens, if_pos rfl]
  rfl

theorem parseTokens_mixin {source : String} {params : List Param} {loc : Location}
    (h : paramsAt source loc = .ok params) (stop : Location) :
    parseTokens [⟨.mixin "m" (some source), loc⟩, ⟨.eos, stop⟩] = .ok [.mixin loc "m" params []] := by
  simp only [parseTokens, readTokens, readDocument, Node.read, Option.getD_some, h]
  simp [readOptionalBlock, readDocument, bind, Except.bind, pure, Except.pure]

theorem parseSource_mixin {params : List Param} {texts : List (List Char)}
    (h : List.Forall₂ Param.Written params texts) (hreturn : ∀ t ∈ texts, '\r' ∉ t)
    (options : Options) :
    parseSource options (String.ofList ("mixin m(".toList ++ (Param.row texts ++ [')']))) =
      .ok [.mixin .start "m" params []] := by
  have hrow : '\r' ∉ Param.row texts := by
    intro hmem
    rcases Param.mem_row hmem with h | ⟨t, ht, hc⟩
    · exact nomatch h
    · exact hreturn t ht hc
  obtain ⟨stop, hlex⟩ := lex_mixin (Param.inside_row (Param.passes_row h) []) hrow
  have hstrip : options.comments.strip [⟨.mixin "m" (some (String.ofList (trim (Param.row texts)))),
      .start⟩, ⟨.eos, stop⟩] = .ok [⟨.mixin "m" (some (String.ofList (trim (Param.row texts)))),
      .start⟩, ⟨.eos, stop⟩] := rfl
  rw [parseSource, hlex]
  rw [show ∀ x, Except.bind (.ok x) options.comments.strip = options.comments.strip x from fun _ => rfl,
    hstrip]
  dsimp only
  rw [parseTokens_mixin (Param.paramsAt_row h .start)]

/-! ## Main statement -/

/-- The nesting machine reads an expression from outside any literal without failing, and is left
where it was. So a value in a text, escaped or not, is cut out whole between literal texts, and the
parameters of a mixin are read with the defaults that are written. -/
theorem nesting_follows_expressions :
    (∀ (source : String) (e : Expr), Expr.read source.toList = .ok e →
      ∀ open_, Nesting.Outside open_ → source.toList.foldlM Nesting.feed open_ = .ok open_) ∧
    (∀ (before source after : String) (e : Expr) (loc : Location),
      Piece.IsLiteral before.toList → Expr.read source.toList = .ok e →
      Piece.IsLiteral after.toList →
        segmentsAt (before ++ "#\x7b" ++ source ++ "\x7d" ++ after) loc =
          .ok (literalSegments before ++ .escaped e :: literalSegments after) ∧
        segmentsAt (before ++ "!\x7b" ++ source ++ "\x7d" ++ after) loc =
          .ok (literalSegments before ++ .raw e :: literalSegments after)) ∧
    ∀ (params : List Param) (texts : List String) (options : Options),
      List.Forall₂ (fun p t => p.Written t.toList) params texts →
      (∀ t ∈ texts, '\r' ∉ t.toList) →
        parseSource options ("mixin m(" ++ ", ".intercalate texts ++ ")") =
          .ok [.mixin .start "m" params []] := by
  refine ⟨fun source e he open_ ho => ?_, fun before source after e loc hb he ha => ⟨?_, ?_⟩,
    fun params texts options h hreturn => ?_⟩
  · have hpasses : Passes ([] ++ open_) source.toList ([] ++ open_) :=
      (Expr.passes_read he).framed ho
    exact hpasses.foldlM_feed
  · exact segmentsAt_value true hb ha he (by simp [Piece.valueMark]) loc
  · exact segmentsAt_value false hb ha he (by simp [Piece.valueMark]) loc
  · have hsource : "mixin m(" ++ ", ".intercalate texts ++ ")" =
        String.ofList ("mixin m(".toList ++ (Param.row (texts.map String.toList) ++ [')'])) := by
      refine String.toList_inj.mp ?_
      simp [String.toList_intercalate, Param.row]
    rw [hsource]
    refine parseSource_mixin (List.forall₂_map_right_iff.mpr h) (fun t ht => ?_) options
    obtain ⟨u, hu, rfl⟩ := List.mem_map.mp ht
    exact hreturn u hu

namespace BracedValue

def source : String := "f [ '\x7d' ]"

def value : Expr := .index (.name "f") (.literal (.string "\x7d"))

def params : List Param := [⟨"x", some value, false⟩, ⟨"y", none, false⟩]

theorem read_source : Expr.read source.toList = .ok value := by
  have hprint : source.toList = value.print (.sparing '\'') := by decide
  rw [hprint]
  exact Expr.read_print_of_isPlain rfl (by decide)

theorem written : List.Forall₂ (fun p t => p.Written t.toList) params ["x = f [ '\x7d' ]", "y"] :=
  .cons (.defaulted rfl read_source) (.cons (.bare rfl) .nil)

end BracedValue

theorem nesting_follows_expressions_braced :
    Expr.read BracedValue.source.toList = .ok BracedValue.value ∧
      BracedValue.source.toList.foldlM Nesting.feed [.hole] = .ok [.hole] ∧
      segmentsAt ("a " ++ "#\x7b" ++ BracedValue.source ++ "\x7d" ++ "!") .start =
        .ok [.literal "a ", .escaped BracedValue.value, .literal "!"] ∧
      segmentsAt ("a " ++ "!\x7b" ++ BracedValue.source ++ "\x7d" ++ "!") .start =
        .ok [.literal "a ", .raw BracedValue.value, .literal "!"] ∧
      parseSource {} ("mixin m(" ++ ", ".intercalate ["x = f [ '\x7d' ]", "y"] ++ ")") =
        .ok [.mixin .start "m" BracedValue.params []] := by
  obtain ⟨hnesting, hvalues, hparams⟩ := nesting_follows_expressions
  obtain ⟨hescaped, hraw⟩ := hvalues "a " BracedValue.source "!" BracedValue.value .start (by decide)
    BracedValue.read_source (by decide)
  exact ⟨BracedValue.read_source, hnesting _ _ BracedValue.read_source [.hole] trivial, hescaped, hraw,
    hparams _ _ {} BracedValue.written (by decide)⟩

end PugTemplate
