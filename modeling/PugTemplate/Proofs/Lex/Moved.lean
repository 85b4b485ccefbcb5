import PugTemplate.Proofs.Lex.Local
import PugTemplate.Proofs.Lex.Outline
import PugTemplate.Proofs.Lex.Place

/-!
# A text that begins elsewhere

A text may be read as a part of another one, from any position on. Moving its beginning moves every
position by the same rule: the first line goes on where the beginning is, and the lines below keep
their columns. Every rule reads the same tokens at the moved places. Main statement: `lexAt_moved`.
-/

namespace PugTemplate

/-- Where a position comes to be when its text begins at `origin`. -/
def Location.moved (origin l : Location) : Location :=
  if l.line = 1 then ⟨origin.line, origin.column + l.column - 1⟩
  else ⟨origin.line + l.line - 1, l.column⟩

def Token.moved (origin : Location) (t : Token) : Token :=
  ⟨t.kind, origin.moved t.loc⟩

def LexError.moved (origin : Location) (e : LexError) : LexError :=
  ⟨e.cause, origin.moved e.loc⟩

def Cursor.moved (origin : Location) (c : Cursor) : Cursor :=
  ⟨c.rest, origin.moved c.loc⟩

/-- An answer read at another place: what is read is changed as given, and a failure is moved. -/
def movedWith {α β : Type} (origin : Location) (f : α → β) :
    Except LexError α → Except LexError β
  | .ok a => .ok (f a)
  | .error e => .error (e.moved origin)

def movedTokens (origin : Location) : Except LexError (List Token) → Except LexError (List Token) :=
  movedWith origin (List.map (Token.moved origin))

def movedReading (origin : Location) : Reading → Reading :=
  movedWith origin fun r => (r.1.map (Token.moved origin), r.2.moved origin)

variable {o : Location} {c d : Cursor}

/-! ## Positions -/

namespace Location

variable {l : Location}

theorem moved_start (ho : 0 < o.column) : o.moved start = o := by
  obtain ⟨line, column⟩ := o
  simp [moved, start]

theorem moved_after (ho : 0 < o.column) (hl : 0 < l.line) (c : Char) :
    (o.moved l).after c = o.moved (l.after c) := by
  unfold moved after
  split <;> split <;> simp only [Location.mk.injEq] <;> grind

theorem line_pos_afterText (hl : 0 < l.line) (cs : List Char) : 0 < (l.afterText cs).line :=
  Nat.lt_of_lt_of_le hl (l.line_le_afterText cs)

theorem moved_afterText (ho : 0 < o.column) (hl : 0 < l.line) (cs : List Char) :
    (o.moved l).afterText cs = o.moved (l.afterText cs) := by
  induction cs generalizing l with
  | nil => rfl
  | cons c cs ih =>
    have hafter : 0 < (l.after c).line := line_pos_afterText hl [c]
    rw [afterText_cons, afterText_cons, moved_after ho hl, ih hafter]

theorem moved_right (ho : 0 < o.column) (n : Nat) : (o.moved l).right n = o.moved (l.right n) := by
  by_cases hl : l.line = 1
  · simp only [moved, right, hl, if_true, Location.mk.injEq, true_and]
    omega
  · simp only [moved, right, hl, if_false]

end Location

/-! ## Places -/

namespace Cursor

theorem startsWith_moved (text : String) : (c.moved o).startsWith text = c.startsWith text :=
  rfl

/-- The text here may be moved. -/
structure Moves (o : Location) (c : Cursor) : Prop where
  column : 0 < o.column
  line : 0 < c.loc.line

namespace Moves

theorem reaches (h : c.Moves o) (hd : c.Reaches d) : d.Moves o :=
  ⟨h.column, Nat.lt_of_lt_of_le h.line hd.line_le⟩

theorem skip (h : c.Moves o) (n : Nat) : (c.skip n).Moves o :=
  h.reaches (c.reaches_skip n)

theorem skip_eq (h : c.Moves o) (n : Nat) : (c.moved o).skip n = (c.skip n).moved o :=
  congrArg (Cursor.mk _) (Location.moved_afterText h.column h.line _)

theorem skipLine_eq (h : c.Moves o) : (c.moved o).skipLine = c.skipLine.moved o :=
  h.skip_eq _

theorem skipIndent_eq (h : c.Moves o) : (c.moved o).skipIndent = c.skipIndent.moved o :=
  h.skip_eq _

theorem keyword?_eq (h : c.Moves o) (word : String) :
    (c.moved o).keyword? word = (c.keyword? word).map (Cursor.moved o) := by
  unfold keyword?
  dsimp only
  rw [h.skip_eq, apply_ite (Option.map (Cursor.moved o))]
  rfl

theorem nestingError_eq (h : c.Moves o) (f : Nesting.Failure) :
    (c.moved o).nestingError f = (c.nestingError f).moved o :=
  congrArg (LexError.mk _) (Location.moved_afterText h.column h.line _)

theorem inside_eq (h : c.Moves o) (b : Bracket) :
    (c.moved o).inside b = movedWith o (fun r => (r.1, r.2.moved o)) (c.inside b) := by
  unfold Cursor.inside
  rw [show (c.moved o).rest = c.rest from rfl]
  cases Nesting.inside b c.rest with
  | ok content => exact congrArg (fun d => Except.ok (content, d)) (h.skip_eq _)
  | error f => exact congrArg Except.error (h.nestingError_eq f)

end Moves

end Cursor

/-! ## Text and its lines -/

theorem checkMarkers_moved (h : 0 < o.column) (loc : Location) (text : List Char) :
    checkMarkers (o.moved loc) text = movedWith o id (checkMarkers loc text) := by
  unfold checkMarkers
  split
  · exact congrArg (fun l => Except.error (LexError.mk _ l)) (Location.moved_right h _)
  · rfl

namespace Pipeless

theorem lineTokens_moved (h : c.Moves o) (check : Bool) (base : Nat) (first : Bool)
    (lines : List (List Char)) :
    lineTokens check base first (c.moved o) lines =
      movedTokens o (lineTokens check base first c lines) := by
  induction lines generalizing c first with
  | nil => rfl
  | cons line lines ih =>
    have hshown : shownAt base (c.moved o) line = (shownAt base c line).moved o := by
      rw [shownAt, h.skip_eq, (h.skip 1).skip_eq]
      rfl
    have hmore := ih (c := (c.skip 1).skip line.length) ((h.skip 1).skip _) false
    rw [lineTokens_cons, lineTokens_cons, hshown, h.skip_eq, (h.skip 1).skip_eq, hmore]
    dsimp only
    rw [show ((shownAt base c line).moved o).loc = o.moved (shownAt base c line).loc from rfl,
      checkMarkers_moved h.column]
    cases check <;> cases first <;>
      cases checkMarkers (shownAt base c line).loc (shownText base line) <;>
      cases lineTokens _ base false ((c.skip 1).skip line.length) lines <;> rfl

theorem read_moved (h : c.Moves o) (check : Bool) (width : Nat) :
    read check width (c.moved o) = movedReading o (read check width c) := by
  unfold read
  dsimp only
  rw [show (c.moved o).rest = c.rest from rfl, lineTokens_moved h, h.skip_eq]
  split
  · rfl
  · cases lineTokens check _ true c _ with
    | error e => rfl
    | ok tokens =>
      refine congrArg Except.ok (Prod.ext ?_ rfl)
      simp [Token.moved, Cursor.moved]

end Pipeless

/-! ## Attribute lists -/

namespace Attribute

theorem readName_moved (loc : Location) (cs : List Char) :
    readName (o.moved loc) cs = movedWith o id (readName loc cs) := by
  unfold readName
  split
  · rfl
  · dsimp only
    split
    · split <;> rfl
    · rfl

/-- Where a value begins, behind its mark and the blanks there. -/
def valueStart (c : Cursor) (m : Nat) : Cursor :=
  (c.skip m).skip ((c.skip m).rest.takeWhile isBlank).length

theorem valueStart_moved (h : c.Moves o) (m : Nat) :
    valueStart (c.moved o) m = (valueStart c m).moved o := by
  rw [valueStart, h.skip_eq, (h.skip m).skip_eq]
  rfl

/-- What is read from a place behind the separators. -/
theorem readList_eq {here : Cursor} (hhere : here = c.skip (c.rest.takeWhile isSeparator).length) :
    readList c =
      if here.rest = [] then .ok []
      else match readName here.loc here.rest with
        | .error e => .error e
        | .ok (name, n) =>
          if name = [] then .error ⟨.missingAttributeName, here.loc⟩
          else match mark? (here.skip n).rest with
            | none => (token here.loc name none true :: ·) <$> readList (here.skip n)
            | some (escape, m) =>
              match valueText [] none (valueStart (here.skip n) m).rest with
              | .error f => .error ((valueStart (here.skip n) m).nestingError f)
              | .ok text =>
                if trim text = [] then
                  .error ⟨.missingAttributeValue (String.ofList name), here.loc⟩
                else (token here.loc name (some (trim text)) escape :: ·) <$>
                  readList ((valueStart (here.skip n) m).skip text.length) := by
  subst hhere
  rw [readList]
  dsimp only
  split
  · rfl
  · split
    next he => rw [he]
    next name n he =>
      rw [he]
      dsimp only
      by_cases hn : name = []
      · rw [dif_pos hn, if_pos hn]
      · rw [dif_neg hn, if_neg hn]
        rfl

theorem map_movedTokens (t : Token) (x : Except LexError (List Token)) :
    (t.moved o :: ·) <$> movedTokens o x = movedTokens o ((t :: ·) <$> x) := by
  cases x <;> rfl

theorem readList_moved (h : c.Moves o) : readList (c.moved o) = movedTokens o (readList c) := by
  have hname {here : Cursor} {x} (hx : readName here.loc here.rest = x) :
      readName (here.moved o).loc (here.moved o).rest = movedWith o id x :=
    hx ▸ readName_moved here.loc here.rest
  have hhere {c : Cursor} (h : c.Moves o) :
      (c.skip (c.rest.takeWhile isSeparator).length).moved o =
        (c.moved o).skip ((c.moved o).rest.takeWhile isSeparator).length :=
    (h.skip_eq _).symm
  fun_induction readList c
  case case1 c here hnil =>
    rw [@readList_eq _ (here.moved o) (hhere h)]
    exact if_pos hnil
  case case2 c here hne e he =>
    rw [@readList_eq _ (here.moved o) (hhere h), if_neg (by exact hne), hname he]
    rfl
  case case3 c here hne n hn =>
    rw [@readList_eq _ (here.moved o) (hhere h), if_neg (by exact hne), hname hn]
    rfl
  case case4 c here hne name n hn hempty behind hmark ih =>
    have hat : here.Moves o := h.skip _
    rw [@readList_eq _ (here.moved o) (hhere h), if_neg (by exact hne), hname hn]
    dsimp only [movedWith, id]
    rw [if_neg hempty, hat.skip_eq, show mark? ((here.skip n).moved o).rest = none from hmark]
    dsimp only
    rw [ih (hat.skip n)]
    exact map_movedTokens (token here.loc name _ _) _
  case case5 c here hne name n hn hempty behind escape m hmark _ start f hf =>
    have hat : here.Moves o := h.skip _
    have hstart : (valueStart (here.skip n) m).Moves o := ((hat.skip n).skip m).skip _
    rw [@readList_eq _ (here.moved o) (hhere h), if_neg (by exact hne), hname hn]
    dsimp only [movedWith, id]
    rw [if_neg hempty, hat.skip_eq, show mark? ((here.skip n).moved o).rest = _ from hmark]
    dsimp only
    rw [valueStart_moved (hat.skip n),
      show valueText [] none ((valueStart (here.skip n) m).moved o).rest = _ from hf]
    exact congrArg Except.error (hstart.nestingError_eq f)
  case case6 c here hne name n hn hempty behind escape m hmark _ start text hf value hval =>
    have hat : here.Moves o := h.skip _
    rw [@readList_eq _ (here.moved o) (hhere h), if_neg (by exact hne), hname hn]
    dsimp only [movedWith, id]
    rw [if_neg hempty, hat.skip_eq, show mark? ((here.skip n).moved o).rest = _ from hmark]
    dsimp only
    rw [valueStart_moved (hat.skip n),
      show valueText [] none ((valueStart (here.skip n) m).moved o).rest = _ from hf]
    exact if_pos hval
  case case7 c here hne name n hn hempty behind escape m hmark _ start text hf value hval ih =>
    have hat : here.Moves o := h.skip _
    have hstart : (valueStart (here.skip n) m).Moves o := ((hat.skip n).skip m).skip _
    rw [@readList_eq _ (here.moved o) (hhere h), if_neg (by exact hne), hname hn]
    dsimp only [movedWith, id]
    rw [if_neg hempty, hat.skip_eq, show mark? ((here.skip n).moved o).rest = _ from hmark]
    dsimp only
    rw [valueStart_moved (hat.skip n),
      show valueText [] none ((valueStart (here.skip n) m).moved o).rest = _ from hf]
    dsimp only
    have hmore : readList (((valueStart (here.skip n) m).skip text.length).moved o) = _ :=
      ih (hstart.skip _)
    rw [if_neg hval, hstart.skip_eq, hmore]
    exact map_movedTokens (token here.loc name _ _) _

end Attribute

/-! ## What rules are made of -/

namespace Rule

open Cursor (startsWith_moved)

theorem restAsText_moved (h : c.Moves o) (kind : String → TokenKind) :
    restAsText kind (c.moved o) = movedReading o (restAsText kind c) := by
  unfold restAsText
  rw [show (c.moved o).line = c.line from rfl,
    show (c.moved o).loc = o.moved c.loc from rfl, checkMarkers_moved h.column, h.skipLine_eq]
  cases checkMarkers c.loc c.line <;> rfl

theorem withPipeless_moved (h : c.Moves o) (check : Bool) (width : Nat) (first : Token) :
    withPipeless check width (first.moved o) (c.moved o) =
      movedReading o (withPipeless check width first c) := by
  unfold withPipeless
  rw [Pipeless.read_moved h]
  cases Pipeless.read check width c <;> rfl

theorem attributeList_moved (h : c.Moves o) :
    attributeList (c.moved o) = movedReading o (attributeList c) := by
  unfold attributeList
  rw [h.skip_eq, (h.skip 1).inside_eq]
  cases hin : (c.skip 1).inside .round with
  | error e => rfl
  | ok r =>
    obtain ⟨content, d⟩ := r
    have hlist : Attribute.readList ⟨content, ((c.skip 1).moved o).loc⟩ =
        movedTokens o (Attribute.readList ⟨content, (c.skip 1).loc⟩) :=
      Attribute.readList_moved (c := ⟨content, (c.skip 1).loc⟩) ⟨h.column, (h.skip 1).line⟩
    dsimp only [movedWith]
    rw [hlist]
    cases Attribute.readList ⟨content, (c.skip 1).loc⟩ with
    | error e => rfl
    | ok tokens =>
      refine congrArg Except.ok (Prod.ext ?_ rfl)
      simp [Token.moved, Cursor.moved]

theorem path_moved (h : c.Moves o) (first : Token) (missing : LexCause) :
    path (first.moved o) missing (c.moved o) = movedReading o (path first missing c) := by
  have hpath : c.skipIndent.Moves o := h.skip _
  unfold path
  dsimp only
  rw [h.skipIndent_eq, hpath.skipLine_eq, apply_ite (movedReading o)]
  rfl

theorem namedBlock_moved (h : c.Moves o) (loc : Location) (mode : BlockMode) :
    namedBlock (o.moved loc) mode (c.moved o) = movedReading o (namedBlock loc mode c) := by
  rw [namedBlock, h.skipLine_eq]
  rfl

/-- A token whose source is the text in brackets. -/
theorem inside_moved (h : c.Moves o) (kind : List Char → TokenKind) (loc : Location) (b : Bracket) :
    (match (c.moved o).inside b with
      | .error e => .error e
      | .ok (content, e) => emit (kind content) (o.moved loc) e) =
      movedReading o (match c.inside b with
        | .error e => .error e
        | .ok (content, e) => emit (kind content) loc e) := by
  rw [h.inside_eq]
  cases c.inside b <;> rfl

/-- A rule that reads the same in a text that begins elsewhere. -/
def Moves (r : Rule) : Prop :=
  ∀ ⦃o : Location⦄ ⦃c : Cursor⦄ (width : Nat), c.Moves o →
    r width (c.moved o) = (r width c).map (movedReading o)

theorem moves_of_keyword (word : String) {f : Nat → Cursor → Cursor → Reading}
    (h : ∀ (o : Location) (width : Nat) (c d : Cursor), c.Moves o → d.Moves o →
      f width (c.moved o) (d.moved o) = movedReading o (f width c d)) :
    Moves fun width c => (c.keyword? word).map (f width c) := by
  intro o c width hc
  dsimp only
  rw [hc.keyword?_eq]
  cases hd : c.keyword? word with
  | none => rfl
  | some d => exact congrArg some (h o width c d hc (hc.reaches (Cursor.reaches_keyword? hd)))

theorem moves_of_ite {test : Nat → Cursor → Bool} {f : Nat → Cursor → Reading}
    (htest : ∀ (o : Location) (width : Nat) (c : Cursor), test width (c.moved o) = test width c)
    (h : ∀ (o : Location) (width : Nat) (c : Cursor), c.Moves o →
      f width (c.moved o) = movedReading o (f width c)) :
    Moves fun width c => if test width c then some (f width c) else none := by
  intro o c width hc
  dsimp only
  rw [htest, h o width c hc, apply_ite (Option.map (movedReading o))]
  rfl

/-! ## Rules that begin with a keyword -/

theorem moves_yieldWord : yieldWord.Moves :=
  moves_of_keyword "yield" fun _ _ _ _ _ _ => rfl

theorem moves_defaultWord : defaultWord.Moves :=
  moves_of_keyword "default" fun _ _ _ _ _ _ => rfl

theorem moves_doctype : doctype.Moves := by
  refine moves_of_keyword "doctype" fun o width c d _ hd => ?_
  rw [hd.skipLine_eq]
  rfl

theorem moves_expression (keyword : ExprKeyword) (kind : String → TokenKind) :
    (expression keyword kind).Moves := by
  refine moves_of_keyword keyword.text fun o width c d _ hd => ?_
  rw [hd.skipLine_eq, apply_ite (movedReading o)]
  rfl

theorem moves_when : when.Moves := by
  refine moves_of_keyword "when" fun o width c d _ hd => ?_
  have hsource : d.skipIndent.Moves o := hd.skip _
  dsimp only
  rw [hd.skipIndent_eq, show (d.skipIndent.moved o).line = d.skipIndent.line from rfl]
  cases whenText [] ' ' d.skipIndent.line with
  | error f => exact congrArg Except.error (hsource.nestingError_eq f)
  | ok text =>
    dsimp only
    rw [hsource.skip_eq, apply_ite (movedReading o)]
    rfl

theorem moves_otherwise : otherwise.Moves := by
  refine moves_of_keyword "else" fun o width c d _ hd => ?_
  have hbehind : d.skipIndent.Moves o := hd.skip _
  dsimp only
  rw [hd.skipIndent_eq, hbehind.keyword?_eq]
  cases he : d.skipIndent.keyword? "if" with
  | none =>
    dsimp only [Option.map]
    rw [hbehind.skipLine_eq, apply_ite (movedReading o)]
    rfl
  | some e =>
    have hcondition : e.Moves o := hbehind.reaches (Cursor.reaches_keyword? he)
    dsimp only [Option.map]
    rw [hcondition.skipLine_eq, apply_ite (movedReading o)]
    rfl

theorem moves_eachWith (keyword : ExprKeyword) : (eachWith keyword).Moves := by
  refine moves_of_keyword keyword.text fun o width c d _ hd => ?_
  rw [hd.skipLine_eq, apply_ite (movedReading o)]
  rw [show (d.moved o).line = d.line from rfl]
  cases eachKind keyword (trim d.line) <;> rfl

theorem moves_inherits : inherits.Moves := by
  intro o c width h
  have hword (d : Cursor) (hd : (c.keyword? "extends").or (c.keyword? "extend") = some d) :
      d.Moves o := by
    obtain hd | ⟨-, hd⟩ := Option.or_eq_some_iff.mp hd <;>
      exact h.reaches (Cursor.reaches_keyword? hd)
  unfold inherits
  rw [h.keyword?_eq, h.keyword?_eq, ← Option.map_or]
  cases hd : (c.keyword? "extends").or (c.keyword? "extend") with
  | none => rfl
  | some d => exact congrArg some (path_moved (hword d hd) ⟨.inherits, c.loc⟩ _)

theorem moves_includes : includes.Moves := by
  refine moves_of_keyword "include" fun o width c d _ hd => ?_
  dsimp only
  rw [startsWith_moved]
  split
  · rw [hd.skip_eq, hd.skip_eq]
    exact path_moved (hd.skip _) ⟨.includes _, c.loc⟩ _
  · exact path_moved hd ⟨.includes none, c.loc⟩ _

theorem blockMode?_moved (h : c.Moves o) :
    blockMode? (c.moved o) = (blockMode? c).map fun r => (r.1, r.2.moved o) := by
  unfold blockMode?
  rw [h.keyword?_eq, h.keyword?_eq]
  have hite (mode : BlockMode) (d : Cursor) :
      (if allBlank d.line then none else some (mode, d.moved o)) =
        (if allBlank d.line then none else some (mode, d)).map fun r => (r.1, r.2.moved o) := by
    split <;> rfl
  cases c.keyword? "append" with
  | some d => exact hite .append d
  | none =>
    cases c.keyword? "prepend" with
    | some d => exact hite .prepend d
    | none => rfl

theorem moves_block : block.Moves := by
  intro o c width h
  unfold block
  rw [blockMode?_moved h]
  cases hmode : blockMode? c with
  | some r =>
    obtain ⟨mode, d⟩ := r
    exact congrArg some (namedBlock_moved (h.reaches (reaches_blockMode? hmode)) c.loc mode)
  | none =>
    change Option.map _ ((c.moved o).keyword? "block") =
      Option.map _ (Option.map _ (c.keyword? "block"))
    rw [h.keyword?_eq]
    cases hblock : c.keyword? "block" with
    | none => rfl
    | some d =>
      have hd : d.Moves o := h.reaches (Cursor.reaches_keyword? hblock)
      have hname : d.skipIndent.Moves o := hd.skip _
      refine congrArg some ?_
      beta_reduce
      rw [hd.skipLine_eq, hd.skipIndent_eq, blockMode?_moved hname, apply_ite (movedReading o)]
      cases hmode : blockMode? d.skipIndent with
      | some r =>
        obtain ⟨mode, e⟩ := r
        dsimp only [Option.map]
        rw [← namedBlock_moved (hname.reaches (reaches_blockMode? hmode))]
        rfl
      | none =>
        dsimp only [Option.map]
        rw [← namedBlock_moved hname]
        rfl

theorem moves_mixin : mixin.Moves := by
  refine moves_of_keyword "mixin" fun o width c d _ hd => ?_
  have hname : d.skipIndent.Moves o := hd.skip _
  have hbehind := hname.skip d.skipIndent.word.length
  have hparams : (d.skipIndent.skip d.skipIndent.word.length).skipIndent.Moves o := hbehind.skip _
  dsimp only
  rw [hd.skipIndent_eq, show (d.skipIndent.moved o).word = d.skipIndent.word from rfl,
    hname.skip_eq, hbehind.skipIndent_eq, hparams.skip_eq, startsWith_moved]
  split
  · rfl
  · split
    · exact inside_moved (hparams.skip 1) (fun content =>
        .mixin (String.ofList d.skipIndent.word) (some (String.ofList (trim content)))) c.loc .round
    · rfl

theorem moves_spread : spread.Moves := by
  refine moves_of_keyword "&attributes" fun o width c d _ hd => ?_
  rw [hd.skip_eq, startsWith_moved]
  split
  · exact inside_moved (hd.skip 1) (fun content => .spread (String.ofList (trim content))) c.loc .round
  · rfl

/-! ## Rules that begin with a mark -/

theorem moves_interpolation : interpolation.Moves := by
  intro o c width h
  unfold interpolation
  rw [startsWith_moved, h.skip_eq, (h.skip 2).inside_eq]
  split
  · cases (c.skip 2).inside .curly <;> rfl
  · rfl

theorem moves_tag : tag.Moves := by
  refine moves_of_ite (fun _ _ _ => rfl) fun o width c h => ?_
  rw [show (c.moved o).rest = c.rest from rfl, h.skip_eq]
  rfl

/-- A name behind a mark. -/
theorem named_moved (h : c.Moves o) (kind : String → TokenKind) (cause : LexCause) :
    (if ((c.moved o).skip 1).word.any isAsciiLetterOrUnderscore then
      some (emit (kind (String.ofList ((c.moved o).skip 1).word)) (c.moved o).loc
        ((c.moved o).skip (1 + ((c.moved o).skip 1).word.length)))
    else some (refuse cause (c.moved o).loc)) =
      Option.map (movedReading o) (if (c.skip 1).word.any isAsciiLetterOrUnderscore then
        some (emit (kind (String.ofList (c.skip 1).word)) c.loc
          (c.skip (1 + (c.skip 1).word.length)))
      else some (refuse cause c.loc)) := by
  rw [h.skip_eq, h.skip_eq, apply_ite (Option.map (movedReading o))]
  rfl

theorem moves_id : id.Moves := by
  intro o c width h
  unfold id
  rw [startsWith_moved, startsWith_moved]
  split
  · exact congrArg some (restAsText_moved h .text)
  · split
    · exact named_moved h .id _
    · rfl

theorem moves_className : className.Moves := by
  intro o c width h
  unfold className
  rw [startsWith_moved]
  split
  · exact named_moved h .className _
  · rfl

theorem moves_attributes : attributes.Moves :=
  moves_of_ite (fun _ _ _ => rfl) fun _ _ _ h => attributeList_moved h

theorem moves_dot : dot.Moves := by
  refine moves_of_ite (fun _ _ _ => rfl) fun o width c h => ?_
  rw [h.skipLine_eq]
  exact withPipeless_moved (h.skip _) true width ⟨.dot, c.loc⟩

theorem moves_slash : slash.Moves := by
  refine moves_of_ite (fun _ _ _ => rfl) fun o width c h => ?_
  rw [h.skip_eq]
  rfl

theorem moves_colon : colon.Moves := by
  refine moves_of_ite (fun _ _ _ => rfl) fun o width c h => ?_
  rw [h.skip_eq, (h.skip 1).skipIndent_eq]
  rfl

theorem moves_codeBlock : codeBlock.Moves := by
  refine moves_of_ite (fun _ _ _ => rfl) fun o width c h => ?_
  rw [h.skipLine_eq]
  exact withPipeless_moved (h.skip _) false width ⟨.codeBlock, c.loc⟩

theorem codeWith_moved (h : c.Moves o) (flag : String) (buffered escape : Bool) :
    codeWith flag buffered escape (c.moved o) =
      movedReading o (codeWith flag buffered escape c) := by
  unfold codeWith
  dsimp only
  rw [h.skip_eq, (h.skip _).skipLine_eq, apply_ite (movedReading o)]
  rfl

theorem moves_code : code.Moves := by
  intro o c width h
  unfold code
  rw [startsWith_moved, startsWith_moved, startsWith_moved, codeWith_moved h, codeWith_moved h,
    codeWith_moved h]
  split
  · rfl
  · split
    · rfl
    · split <;> rfl

theorem moves_text : text.Moves := by
  intro o c width h
  unfold text
  dsimp only
  rw [startsWith_moved, startsWith_moved, h.skip_eq, startsWith_moved, (h.skip 1).skip_eq,
    h.skipLine_eq]
  split
  · rw [← apply_ite (Cursor.moved o)]
    refine congrArg some (restAsText_moved ?_ .text)
    split
    · exact (h.skip 1).skip 1
    · exact h.skip 1
  · split
    · rw [show (c.moved o).line = c.line from rfl]
      split
      · rfl
      · exact congrArg some (restAsText_moved (h.skip 1) .text)
    · rfl

theorem moves_html : html.Moves :=
  moves_of_ite (fun _ _ _ => rfl) fun _ _ _ h => restAsText_moved h .html

theorem moves_comment : comment.Moves := by
  refine moves_of_ite (fun _ _ _ => rfl) fun o width c h => ?_
  rw [h.skip_eq, startsWith_moved, (h.skip 2).skip_eq, ← apply_ite (Cursor.moved o)]
  have hbody : (if !(c.skip 2).startsWith "-" then c.skip 2 else (c.skip 2).skip 1).Moves o := by
    split
    · exact h.skip 2
    · exact (h.skip 2).skip 1
  rw [hbody.skipLine_eq]
  exact withPipeless_moved (hbody.skip _) false width ⟨.comment _ _, c.loc⟩

/-! ## Calls and filters -/

theorem callName_moved (h : c.Moves o) (loc : Location) :
    callName (o.moved loc) (c.moved o) =
      movedWith o (fun r => (r.1, r.2.1, r.2.2.moved o)) (callName loc c) := by
  unfold callName
  rw [startsWith_moved, h.skip_eq, h.skip_eq, (h.skip 2).inside_eq]
  split
  · cases (c.skip 2).inside .curly <;> rfl
  · rw [apply_ite (movedWith o _)]
    rfl

theorem reaches_callName {loc : Location} {name : List Char} {computed : Bool}
    (h : callName loc c = .ok (name, computed, d)) : c.Reaches d := by
  unfold callName at h
  split at h
  · split at h
    next hin =>
      cases h
      exact (c.reaches_skip 2).trans (Cursor.reaches_inside hin)
    next => cases h
  · split at h
    · cases h
    · cases h
      exact c.reaches_skip _

theorem moves_call : call.Moves := by
  intro o c width h
  unfold call
  have hname : (c.skip 1).skipIndent.Moves o := (h.skip 1).skip _
  rw [startsWith_moved, h.skip_eq, (h.skip 1).skipIndent_eq,
    show (c.moved o).loc = o.moved c.loc from rfl, callName_moved hname]
  split
  · cases hn : callName c.loc (c.skip 1).skipIndent with
    | error e => rfl
    | ok r =>
      obtain ⟨name, computed, d⟩ := r
      have hd : d.Moves o := hname.reaches (reaches_callName hn)
      dsimp only [movedWith]
      rw [startsWith_moved, hd.skip_eq, (hd.skip 1).inside_eq]
      split
      · cases (d.skip 1).inside .round with
        | error e => rfl
        | ok r =>
          dsimp only [movedWith]
          rw [apply_ite (Option.map (movedReading o))]
          rfl
      · rfl
  · rfl

theorem filterBody_moved (h : c.Moves o) (width : Nat) (ts : List Token) :
    filterBody width (ts.map (Token.moved o)) (c.moved o) =
      movedReading o (filterBody width ts c) := by
  have hbelow : c.skipLine.Moves o := h.skip _
  unfold filterBody
  rw [show (c.moved o).line = c.line from rfl, h.skipLine_eq, Pipeless.read_moved hbelow]
  split
  · cases Pipeless.read false width c.skipLine with
    | error e => rfl
    | ok r =>
      dsimp only [movedReading, movedWith]
      rw [← List.map_append]
  · rfl

theorem reaches_attributeList {ts : List Token} (h : attributeList c = .ok (ts, d)) :
    c.Reaches d :=
  ((readsOn_attributeList c).of_ok h).reaches

theorem moves_filter : filter.Moves := by
  intro o c width h
  unfold filter
  dsimp only
  rw [h.skip_eq, startsWith_moved, show ((c.skip 1).moved o).word = (c.skip 1).word from rfl,
    h.skip_eq, startsWith_moved]
  have hd := h.skip (1 + (c.skip 1).word.length)
  rw [attributeList_moved hd]
  split
  · split
    · cases hlist : attributeList (c.skip (1 + (c.skip 1).word.length)) with
      | error e => rfl
      | ok r =>
        obtain ⟨tokens, e⟩ := r
        exact congrArg some (filterBody_moved (hd.reaches (reaches_attributeList hlist)) width
          (⟨.filter _, c.loc⟩ :: tokens))
    · exact congrArg some (filterBody_moved hd width [⟨.filter _, c.loc⟩])
  · rfl

/-! ## All rules -/

theorem all_move : ∀ r ∈ all, r.Moves := by
  simp only [all, List.forall_mem_cons, List.not_mem_nil, false_imp_iff, implies_true, and_true]
  exact ⟨moves_yieldWord, moves_doctype, moves_interpolation, moves_expression _ _, moves_when,
    moves_defaultWord, moves_inherits, moves_block, moves_includes, moves_mixin, moves_call,
    moves_otherwise, moves_expression _ _, moves_expression _ _, moves_eachWith _, moves_eachWith _,
    moves_expression _ _, moves_tag, moves_filter, moves_codeBlock, moves_code, moves_id, moves_dot,
    moves_className, moves_attributes, moves_spread, moves_text, moves_html, moves_comment,
    moves_slash, moves_colon⟩

theorem moves_first {rules : List Rule} (h : ∀ r ∈ rules, r.Moves) : (first rules).Moves := by
  intro o c width hc
  induction rules with
  | nil => rfl
  | cons r rules ih =>
    obtain ⟨hr, hrules⟩ := List.forall_mem_cons.mp h
    rw [first, first, List.findSome?_cons, List.findSome?_cons, hr width hc]
    cases r width c with
    | none => exact ih hrules
    | some reading => rfl

theorem read_moved (h : c.Moves o) (width : Nat) :
    read width (c.moved o) = movedReading o (read width c) := by
  unfold read
  rw [moves_first all_move width h]
  cases first all width c <;> rfl

end Rule

/-! ## Lines and their indentation -/

namespace Layout

theorem outdents_moved (closed : List Nat) (loc : Location) :
    outdents closed (o.moved loc) = (outdents closed loc).map (Token.moved o) := by
  rw [outdents, outdents, List.map_map]
  rfl

theorem finish_moved (l : Layout) (loc : Location) :
    l.finish (o.moved loc) = (l.finish loc).map (Token.moved o) := by
  rw [finish, finish, List.map_append, outdents_moved]
  rfl

theorem settle_moved (l : Layout) (width : Nat) (loc : Location) :
    l.settle width (o.moved loc) =
      movedWith o (fun r => (r.1.map (Token.moved o), r.2)) (l.settle width loc) := by
  unfold settle
  dsimp only
  rw [outdents_moved]
  split
  · rfl
  · split
    · rfl
    · split <;> rfl

theorem nextLine_moved (h : c.Moves o) : nextLine (c.moved o) = (nextLine c).moved o := by
  fun_induction nextLine c with
  | case1 c hblank hend =>
    rw [nextLine, h.skip_eq, (h.skip 1).skipLine_eq, if_pos (by exact hblank), if_pos (by exact hend)]
  | case2 c hblank hend ih =>
    rw [nextLine, h.skip_eq, (h.skip 1).skipLine_eq, if_pos (by exact hblank),
      if_neg (by exact hend)]
    exact ih ((h.skip 1).skip _)
  | case3 c hblank => rw [nextLine, h.skip_eq, if_neg (by exact hblank)]

theorem skipLeading_moved (h : c.Moves o) :
    skipLeading (c.moved o) = (skipLeading c).moved o := by
  fun_induction skipLeading c with
  | case1 c hblank ih =>
    have hend : c.skipLine.Moves o := h.skip _
    rw [skipLeading, h.skipLine_eq, hend.skip_eq, if_pos (by exact hblank)]
    exact ih (hend.skip 1)
  | case2 c hblank => rw [skipLeading, h.skipLine_eq, h.skipIndent_eq, if_neg (by exact hblank)]

/-- What a step answers at another place. -/
def movedStep (o : Location) :
    Except LexError (List Token × Layout × Cursor) → Except LexError (List Token × Layout × Cursor) :=
  movedWith o fun r => (r.1.map (Token.moved o), r.2.1, r.2.2.moved o)

theorem newline_moved (h : c.Moves o) (l : Layout) :
    newline l (c.moved o) = movedStep o (newline l c) := by
  have hnext : (nextLine c).Moves o := h.reaches ((c.reaches_skip 1).trans (reaches_nextLine c))
  unfold newline
  dsimp only
  rw [nextLine_moved h, hnext.skipIndent_eq,
    show ((nextLine c).skipIndent.moved o).loc = o.moved (nextLine c).skipIndent.loc from rfl,
    settle_moved, show ((nextLine c).moved o).rest = (nextLine c).rest from rfl]
  split
  · rfl
  · split
    · rfl
    · cases settle _ _ (nextLine c).skipIndent.loc <;> rfl

theorem step_moved (h : c.Moves o) (l : Layout) :
    step l (c.moved o) = movedStep o (step l c) := by
  unfold step
  rw [Cursor.startsWith_moved, newline_moved h, Rule.read_moved h]
  split
  · rfl
  · cases Rule.read l.width c <;> rfl

/-- All that is still to be read is read the same. -/
theorem tokens_moved (h : c.Moves o) (l : Layout) :
    l.tokens (c.moved o) = movedTokens o (l.tokens c) := by
  fun_induction tokens l c with
  | case1 l c hend =>
    rw [tokens, if_pos (by exact hend)]
    exact congrArg Except.ok (finish_moved l c.loc)
  | case2 l c hend e hs =>
    rw [tokens_of_ne (by exact hend), step_moved h, hs]
    rfl
  | case3 l c hend first m d hs e hm ih =>
    have hd : d.Moves o := h.reaches ((reads_step l c).of_ok hs).reaches
    rw [tokens_of_ne (by exact hend), step_moved h, hs]
    change (first.map (Token.moved o) ++ ·) <$> m.tokens (d.moved o) = _
    rw [ih hd, hm]
    rfl
  | case4 l c hend first m d hs more hm ih =>
    have hd : d.Moves o := h.reaches ((reads_step l c).of_ok hs).reaches
    rw [tokens_of_ne (by exact hend), step_moved h, hs]
    change (first.map (Token.moved o) ++ ·) <$> m.tokens (d.moved o) = _
    rw [ih hd, hm]
    exact congrArg Except.ok List.map_append.symm

end Layout

/-! ## Whole texts -/

/-- A part of a source is read as a source of its own would be: the same tokens, or the same failure,
each where its position comes to be when the beginning is at the origin. -/
theorem lexAt_moved {source : String} {origin : Location} (hreturn : '\r' ∉ source.toList)
    (hmark : source.toList.head? ≠ some '\ufeff') (hcolumn : 0 < origin.column) :
    lexAt source origin = movedTokens origin (lex source) := by
  have hnormal : normalizeText source = source := by
    rw [normalizeText, normalize_eq_self hreturn hmark, String.ofList_toList]
  have hstart : (⟨source.toList, .start⟩ : Cursor).Moves origin := ⟨hcolumn, Nat.one_pos⟩
  have horigin : (⟨source.toList, origin⟩ : Cursor) = (⟨source.toList, .start⟩ : Cursor).moved origin :=
    congrArg (Cursor.mk _) (Location.moved_start hcolumn).symm
  rw [lex, hnormal, lexAt, lexAt, horigin, Layout.skipLeading_moved hstart]
  exact Layout.tokens_moved (hstart.reaches (Layout.reaches_skipLeading _)) _

namespace Fragment

def source : String :=
  "b(x='1')\n  | hi"

/-- The first line goes on at the origin, the second one keeps its columns. -/
def tokens : List Token :=
  [⟨.tag "b", ⟨5, 9⟩⟩, ⟨.attributesStart, ⟨5, 10⟩⟩, ⟨.attr "x" (some "'1'") true, ⟨5, 11⟩⟩,
    ⟨.attributesEnd, ⟨5, 17⟩⟩, ⟨.indent 2, ⟨6, 3⟩⟩, ⟨.text "hi", ⟨6, 5⟩⟩, ⟨.outdent, ⟨6, 7⟩⟩,
    ⟨.eos, ⟨6, 7⟩⟩]

end Fragment

theorem lexAt_moved_fragment :
    '\r' ∉ Fragment.source.toList ∧ Fragment.source.toList.head? ≠ some '\ufeff' ∧
      lexAt Fragment.source ⟨5, 9⟩ = .ok Fragment.tokens ∧
      movedTokens ⟨5, 9⟩ (lex Fragment.source) = .ok Fragment.tokens := by
  have hmoved : lexAt Fragment.source ⟨5, 9⟩ = movedTokens ⟨5, 9⟩ (lex Fragment.source) :=
    lexAt_moved (by decide) (by decide) (by decide)
  have htokens : lexAt Fragment.source ⟨5, 9⟩ = .ok Fragment.tokens :=
    eq_ok_of_toOption (by decide +kernel)
  exact ⟨by decide, by decide, htokens, hmoved ▸ htokens⟩

end PugTemplate
