import PugTemplate.Proofs.Lex.Stream

/-!
# Parts of tags

A line for a tag is made of what six of the rules read: a name, ids, classes, lists of attributes,
spreads and computed names. Whatever another rule reads holds a token that is no part of a tag.
-/

namespace PugTemplate

/-- A token of a line for a tag. The words for the mode of a block are left out: with a colon behind
them they are no names of tags. -/
def TokenKind.isTagPart : TokenKind → Bool
  | tag name => name != "append" && name != "prepend"
  | id _ | className _ | attributesStart | attr _ _ _ | attributesEnd | spread _
  | interpolation _ => true
  | _ => false

/-- What is read is not made of parts of a tag. -/
def Reading.IsOther (x : Reading) : Prop :=
  ∀ ⦃ts c⦄, x = .ok (ts, c) → ∃ t ∈ ts, t.kind.isTagPart = false

namespace Reading.IsOther

variable {c : Cursor} {width : Nat}

theorem error {e : LexError} : Reading.IsOther (.error e) :=
  fun _ _ h => nomatch h

theorem refuse {cause : LexCause} {loc : Location} : Reading.IsOther (Rule.refuse cause loc) :=
  error

theorem ok {t : Token} {ts : List Token} (ht : t.kind.isTagPart = false) :
    Reading.IsOther (.ok (t :: ts, c)) := by
  rintro _ _ ⟨⟩
  exact ⟨t, List.mem_cons_self, ht⟩

theorem emit {kind : TokenKind} {loc : Location} (hk : kind.isTagPart = false) :
    Reading.IsOther (Rule.emit kind loc c) :=
  ok hk

theorem restAsText {kind : String → TokenKind} (hk : ∀ s, (kind s).isTagPart = false) :
    Reading.IsOther (Rule.restAsText kind c) := by
  unfold Rule.restAsText
  split
  · exact emit (hk _)
  · exact error

theorem withPipeless {check : Bool} {first : Token} (ht : first.kind.isTagPart = false) :
    Reading.IsOther (Rule.withPipeless check width first c) := by
  unfold Rule.withPipeless
  split
  · exact ok ht
  · exact error

theorem path {first : Token} {missing : LexCause} (ht : first.kind.isTagPart = false) :
    Reading.IsOther (Rule.path first missing c) := by
  unfold Rule.path
  dsimp only
  split
  · exact refuse
  · exact ok ht

theorem filterBody {name : String} {loc : Location} {ts : List Token} :
    Reading.IsOther (Rule.filterBody width (⟨.filter name, loc⟩ :: ts) c) := by
  unfold Rule.filterBody
  split
  · split
    · exact ok rfl
    · exact error
  · exact ok rfl

end Reading.IsOther

namespace Rule

/-- A rule that reads no parts of a tag. -/
def IsOther (r : Rule) : Prop :=
  ∀ width c x, r width c = some x → x.IsOther

theorem isOther_of_map {α : Type} {look : Nat → Cursor → Option α} {f : Nat → Cursor → α → Reading}
    (h : ∀ width c d, (f width c d).IsOther) :
    IsOther fun width c => (look width c).map (f width c) := by
  intro width c x hx
  obtain ⟨d, -, rfl⟩ := Option.map_eq_some_iff.mp hx
  exact h width c d

theorem isOther_of_ite {test : Nat → Cursor → Bool} {f : Nat → Cursor → Reading}
    (h : ∀ width c, (f width c).IsOther) :
    IsOther fun width c => if test width c then some (f width c) else none := by
  intro width c x hx
  dsimp only at hx
  split at hx
  next => exact Option.some.inj hx ▸ h width c
  next => exact nomatch hx

theorem isOther_yieldWord : yieldWord.IsOther :=
  isOther_of_map fun _ _ _ => .emit rfl

theorem isOther_defaultWord : defaultWord.IsOther :=
  isOther_of_map fun _ _ _ => .emit rfl

theorem isOther_doctype : doctype.IsOther :=
  isOther_of_map fun _ _ _ => .emit rfl

theorem isOther_expression (keyword : ExprKeyword) {kind : String → TokenKind}
    (hk : ∀ s, (kind s).isTagPart = false) : (expression keyword kind).IsOther := by
  refine isOther_of_map fun width c d => ?_
  split
  · exact .refuse
  · exact .emit (hk _)

theorem isOther_when : when.IsOther := by
  refine isOther_of_map fun width c d => ?_
  dsimp only
  split
  · exact .error
  · split
    · exact .refuse
    · exact .emit rfl

theorem isOther_otherwise : otherwise.IsOther := by
  refine isOther_of_map fun width c d => ?_
  dsimp only
  split
  · split
    · exact .refuse
    · exact .emit rfl
  · split
    · exact .emit rfl
    · exact .emit rfl

theorem isTagPart_of_eachKind {keyword : ExprKeyword} {body : List Char} {kind : TokenKind}
    (h : eachKind keyword body = .ok kind) : kind.isTagPart = false := by
  unfold eachKind at h
  grind [TokenKind.isTagPart]

theorem isOther_eachWith (keyword : ExprKeyword) : (eachWith keyword).IsOther := by
  refine isOther_of_map fun width c d => ?_
  split
  · exact .refuse
  · split
    next kind hkind => exact .emit (isTagPart_of_eachKind hkind)
    next => exact .refuse

theorem isOther_inherits : inherits.IsOther :=
  isOther_of_map fun _ _ _ => .path rfl

theorem isOther_includes : includes.IsOther := by
  refine isOther_of_map fun width c d => ?_
  split
  · exact .path rfl
  · exact .path rfl

theorem isOther_block : block.IsOther := by
  intro width c x hx
  unfold block at hx
  split at hx
  · exact Option.some.inj hx ▸ .emit rfl
  · obtain ⟨d, -, rfl⟩ := Option.map_eq_some_iff.mp hx
    split
    · exact .emit rfl
    · split
      · exact .emit rfl
      · exact .emit rfl

theorem isOther_mixin : mixin.IsOther := by
  refine isOther_of_map fun width c d => ?_
  dsimp only
  split
  · exact .refuse
  · split
    · split
      · exact .error
      · exact .emit rfl
    · exact .emit rfl

theorem isOther_dot : dot.IsOther :=
  isOther_of_ite fun _ _ => .withPipeless rfl

theorem isOther_slash : slash.IsOther :=
  isOther_of_ite fun _ _ => .emit rfl

theorem isOther_colon : colon.IsOther :=
  isOther_of_ite fun _ _ => .emit rfl

theorem isOther_call : call.IsOther := by
  intro width c x hx
  unfold call at hx
  split at hx
  · split at hx
    · exact Option.some.inj hx ▸ .error
    · dsimp only at hx
      split at hx
      · split at hx
        · exact Option.some.inj hx ▸ .error
        · split at hx
          · exact Option.some.inj hx ▸ .emit rfl
          · exact Option.some.inj hx ▸ .emit rfl
      · exact Option.some.inj hx ▸ .emit rfl
  · exact nomatch hx

theorem isOther_filter : filter.IsOther := by
  intro width c x hx
  unfold filter at hx
  dsimp only at hx
  split at hx
  · split at hx
    · split at hx
      · exact Option.some.inj hx ▸ .error
      · exact Option.some.inj hx ▸ .filterBody
    · exact Option.some.inj hx ▸ .filterBody
  · exact nomatch hx

theorem isOther_codeBlock : codeBlock.IsOther :=
  isOther_of_ite fun _ _ => .withPipeless rfl

theorem isOther_codeWith (flag : String) (buffered escape : Bool) (c : Cursor) :
    (codeWith flag buffered escape c).IsOther := by
  unfold codeWith
  dsimp only
  split
  · exact .refuse
  · exact .emit rfl

theorem isOther_code : code.IsOther := by
  intro width c x hx
  unfold code at hx
  split at hx
  · exact Option.some.inj hx ▸ isOther_codeWith _ _ _ c
  · split at hx
    · exact Option.some.inj hx ▸ isOther_codeWith _ _ _ c
    · split at hx
      · exact Option.some.inj hx ▸ isOther_codeWith _ _ _ c
      · exact nomatch hx

/-- Blanks that end a line are read without a token. -/
theorem isOther_text {width : Nat} {c : Cursor} {x : Reading} (hc : ¬ allBlank c.line)
    (hx : text width c = some x) : x.IsOther := by
  unfold text at hx
  dsimp only at hx
  split at hx
  · exact Option.some.inj hx ▸ .restAsText fun _ => rfl
  · split at hx
    · exact Option.some.inj hx ▸ .restAsText fun _ => rfl
    · exact nomatch hx

theorem isOther_html : html.IsOther :=
  isOther_of_ite fun _ _ => .restAsText fun _ => rfl

theorem isOther_comment : comment.IsOther :=
  isOther_of_ite fun _ _ => .withPipeless rfl

end Rule

end PugTemplate
