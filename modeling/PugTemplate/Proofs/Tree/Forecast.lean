import PugTemplate.Proofs.Tree.Production
import PugTemplate.Proofs.Tree.Stretch

/-!
# Reading the tree of a stream

Every reader takes from a stream what its production opened and leaves a stream behind, so it never
waits in vain for a mark that the lexer sets. All it can report, apart from what text holds, it
reports where some token stands.
-/

namespace PugTemplate

namespace Forecast

variable {S : Forecast}

/-! ## Parts of a node -/

section Parsing

variable {α β : Type} {p : α → Prop} {stop loc : Location}

theorem parsing_failure {e : ParseError} (h : S.fails e) :
    S.parsing.always (.error e : Except ParseError α) p :=
  ⟨fun _ ha => (nomatch ha), fun _ he => Except.error.inj he ▸ h⟩

theorem parsing_error {cause : ParseCause} (hloc : S.Place loc) (h : cause.isOfToken) :
    S.parsing.always (.error ⟨cause, loc⟩ : Except ParseError α) p := by
  obtain ⟨t, ht, rfl⟩ := hloc
  exact parsing_failure (S.reports t ht cause h)

theorem place_placeOf {ts : List Token} (hstop : S.Place stop) (hts : ∀ t ∈ ts, S.knows t) :
    S.Place (placeOf stop ts) := by
  cases ts with
  | nil => exact hstop
  | cons t ts => exact ⟨t, hts t List.mem_cons_self, rfl⟩

theorem parsing_unexpected {ts : List Token} {expected : Expectation} (hstop : S.Place stop)
    (hts : ∀ t ∈ ts, S.knows t) (h : expected.isStructural = false) :
    S.parsing.always (unexpected stop ts expected : Except ParseError α) p := by
  have hplace := place_placeOf hstop hts
  have hcause (found : TokenKind) : (ParseCause.unexpectedToken expected found).isOfToken := by
    rw [ParseCause.isOfToken, h]
    rfl
  unfold unexpected
  split
  · exact parsing_error hplace (hcause .eos)
  · exact parsing_error hplace (hcause .eos)
  · exact parsing_error hplace (hcause _)

theorem parsing_map {x : Except ParseError α} {f : α → β} (hx : S.parsing.always x fun _ => True) :
    S.parsing.always (f <$> x) fun _ => True :=
  S.parsing.bind hx fun _ _ => S.parsing.pure trivial

theorem parsing_atLocation (hloc : S.Place loc) (source : String) (x : Except ExprError α) :
    S.parsing.always (atLocation source loc x) fun _ => True := by
  cases x with
  | ok a => exact S.parsing.pure trivial
  | error e => exact parsing_error hloc rfl

/-- A check that refuses what is wrong in itself. -/
theorem parsing_check {c : Prop} [Decidable c] {a : α} {cause : ParseCause} (hloc : S.Place loc)
    (h : cause.isOfToken) :
    S.parsing.always (if c then pure a else .error ⟨cause, loc⟩) fun _ => True := by
  split
  · exact S.parsing.pure trivial
  · exact parsing_error hloc h

theorem parsing_blockStatements (lines : List (List Char))
    (h : ∀ i line, lines[i]? = some line → allBlank line = false →
      S.Place ⟨loc.line + i, loc.column⟩) :
    S.parsing.always (blockStatements loc lines) fun _ => True := by
  induction lines generalizing loc with
  | nil => exact S.parsing.pure trivial
  | cons line rest ih =>
    have hrest (i : Nat) (l : List Char) (hi : rest[i]? = some l) (hb : allBlank l = false) :
        S.Place ⟨loc.line + 1 + i, loc.column⟩ := by
      rw [Nat.add_right_comm]
      exact h (i + 1) l hi hb
    have hmore (here : List Statement) :
        S.parsing.always
          (blockStatements ⟨loc.line + 1, loc.column⟩ rest >>= fun more => pure (here ++ more))
          fun _ => True :=
      S.parsing.bind (ih hrest) fun _ _ => S.parsing.pure trivial
    unfold blockStatements
    dsimp only
    split
    · exact hmore []
    next hb =>
      have hloc : S.Place loc := h 0 line rfl (by simpa using hb)
      exact S.parsing.bind (parsing_atLocation hloc _ _) fun here _ => hmore here

theorem parsing_paramAt (hloc : S.Place loc) (last : Bool) (part : List Char) :
    S.parsing.always (paramAt loc last part) fun _ => True := by
  unfold paramAt
  dsimp only
  split
  · split
    · exact parsing_error hloc rfl
    · exact parsing_check hloc rfl
  · split
    · exact parsing_check hloc rfl
    · exact S.parsing.bind (parsing_map (parsing_atLocation hloc _ _)) fun _ _ =>
        parsing_check hloc rfl

theorem parsing_paramsAt (hloc : S.Place loc) (source : String) :
    S.parsing.always (paramsAt source loc) fun _ => True := by
  have hparts : ∀ parts, S.parsing.always (paramParts loc parts) fun _ => True := by
    intro parts
    induction parts with
    | nil => exact S.parsing.pure trivial
    | cons part parts ih =>
      exact S.parsing.bind (parsing_paramAt hloc _ _) fun _ _ =>
        S.parsing.bind ih fun _ _ => S.parsing.pure trivial
  unfold paramsAt
  split
  · exact S.parsing.pure trivial
  · exact hparts _

theorem parsing_ofToken (hloc : S.Place loc) (name : String) (source : Option String)
    (escape : Bool) :
    S.parsing.always (Attribute.ofToken name source escape loc) fun _ => True := by
  unfold Attribute.ofToken
  split
  · exact S.parsing.pure trivial
  · exact S.parsing.bind (parsing_atLocation hloc _ _) fun _ _ => S.parsing.pure trivial

theorem parsing_callName (hloc : S.Place loc) (name : String) (computed : Bool) :
    S.parsing.always (callName name computed loc) fun _ => True := by
  unfold callName
  split
  · exact parsing_map (parsing_atLocation hloc _ _)
  · exact S.parsing.pure trivial

theorem parsing_callArguments (hloc : S.Place loc) (args : Option String) :
    S.parsing.always (callArguments args loc) fun _ => True := by
  unfold callArguments
  split
  · exact parsing_atLocation hloc _ _
  · exact S.parsing.pure trivial

theorem parsing_ofCode (hloc : S.Place loc) (source : String) (buffered escape : Bool) :
    S.parsing.always (Node.ofCode source buffered escape loc) fun _ => True := by
  unfold Node.ofCode
  split <;> exact S.parsing.bind (parsing_atLocation hloc _ _) fun _ _ => S.parsing.pure trivial

end Parsing

/-! ## Groups of tokens -/

section Groups

variable {ws : List Nat} {ts : List Token} {stop loc : Location}

/-- A list of attributes is read through its end. -/
theorem parsing_attributesRead {as : List Token} {at_ : Location}
    (ha : ∀ a ∈ as, a.kind.isAttribute) (hknown : ∀ a ∈ as, S.knows a) :
    S.parsing.always (attributesRead stop (as ++ ⟨.attributesEnd, at_⟩ :: ts)) fun r =>
      (as ++ ⟨.attributesEnd, at_⟩ :: ts).drop r.2 = ts := by
  induction as with
  | nil => exact S.parsing.pure rfl
  | cons a as ih =>
    obtain ⟨ha, has⟩ := List.forall_mem_cons.mp ha
    obtain ⟨hk, hks⟩ := List.forall_mem_cons.mp hknown
    obtain ⟨kind, loc⟩ := a
    cases kind with
    | attr name source escape =>
      exact S.parsing.bind (parsing_ofToken ⟨_, hk, rfl⟩ _ _ _) fun _ _ =>
        S.parsing.bind (ih has hks) fun _ hdrop => S.parsing.pure hdrop
    | _ => exact nomatch ha

theorem parsing_attributes (h : S.Stretch ws (⟨.attributesStart, loc⟩ :: ts)) :
    S.parsing.always (attributesRead stop ts) fun r => S.Stretch ws (ts.drop r.2) := by
  have hknown := h.known_tail
  obtain ⟨as, at_, more, rfl, ha, h⟩ := h.of_attributesStart
  have has : ∀ a ∈ as, S.knows a := fun a hm => hknown a (List.mem_append_left _ hm)
  refine S.parsing.mono (parsing_attributesRead ha has) fun r hdrop => ?_
  rwa [hdrop]

/-- Lines of text are joined over line ends. -/
theorem Stretch.run_text (joins : Bool) (h : S.Stretch ws ts) (he : EndsLine ts) :
    S.Stretch ws (ts.drop (textRun joins ts).2) ∧ ∃ more,
      (textRun joins ts).1.toList = joined more ∧ (∀ line ∈ more, Printed line) ∧
        (more ≠ [] → ∃ u, S.knows u ∧ u.kind = .newline) := by
  fun_induction textRun joins ts
  case case1 => exact nomatch he
  case case2 s _ _ _ more k hrun ih =>
    have hnewline : S.knows ⟨.newline, _⟩ := h.known _ List.mem_cons_self
    obtain ⟨hp, -, hrest, h⟩ := (h.of_word rfl).of_print rfl
    obtain ⟨hdrop, more', hmore, hprinted, -⟩ := ih h hrest
    rw [hrun] at hdrop hmore
    refine ⟨hdrop, s.toList :: more', ?_, List.forall_mem_cons.mpr ⟨hp, hprinted⟩,
      fun _ => ⟨_, hnewline, rfl⟩⟩
    simp [hmore, joined]
  case case3 | case4 => exact ⟨h, [], rfl, by simp, fun h => absurd rfl h⟩

/-- Lines of markup are joined over line ends. -/
theorem Stretch.run_html (h : S.Stretch ws ts) (he : EndsLine ts) :
    S.Stretch ws (ts.drop (htmlRun ts).2) ∧
      (∀ line ∈ (htmlRun ts).1.map String.toList, Printed line) ∧
        ((htmlRun ts).1 ≠ [] → ∃ u, S.knows u ∧ u.kind = .newline) := by
  fun_induction htmlRun ts
  case case1 => exact nomatch he
  case case2 s loc' rest more k hrun ih =>
    have hnewline : S.knows ⟨.newline, _⟩ := h.known _ List.mem_cons_self
    obtain ⟨hp, -, hrest, h⟩ := (h.of_word rfl).of_print rfl
    obtain ⟨hdrop, hprinted, -⟩ := ih h hrest
    rw [hrun] at hdrop hprinted
    exact ⟨hdrop, List.forall_mem_cons.mpr ⟨hp, hprinted⟩, fun _ => ⟨_, hnewline, rfl⟩⟩
  case case3 => exact ⟨h, by simp, fun h => absurd rfl h⟩

/-- Lines behind one that is not empty leave a line feed each. -/
theorem toList_joinLines {s : String} (hs : s ≠ "") (lines : List String) :
    (joinLines (s :: lines)).toList = s.toList ++ joined (lines.map String.toList) := by
  have hfold (text : String) (ht : text ≠ "") :
      (lines.foldl (fun text line => if text.isEmpty then line else text ++ "\n" ++ line)
        text).toList = text.toList ++ joined (lines.map String.toList) := by
    induction lines generalizing text with
    | nil => simp [joined]
    | cons line lines ih =>
      have hstep : (if text.isEmpty then line else text ++ "\n" ++ line) =
          text ++ "\n" ++ line := if_neg (by simpa using ht)
      rw [List.foldl_cons, hstep, ih _ (by simp)]
      simp [joined]
  exact hfold s hs

/-- The text that begins here, its lines joined or not. -/
theorem Stretch.prints_text {s : String} (joins : Bool)
    (h : S.Stretch ws (⟨.text s, loc⟩ :: ts)) :
    S.Stretch ws (ts.drop (textRun joins ts).2) ∧
      S.Prints ⟨.text s, loc⟩ (s ++ (textRun joins ts).1) := by
  obtain ⟨hp, -, he, h⟩ := h.of_print rfl
  obtain ⟨hdrop, more, hmore, hprinted, hfeed⟩ := h.run_text joins he
  refine ⟨hdrop, s, more, rfl, ?_, List.forall_mem_cons.mpr ⟨hp, hprinted⟩, hfeed⟩
  rw [String.toList_append, hmore]

/-- The markup that begins here. -/
theorem Stretch.prints_html {s : String} (h : S.Stretch ws (⟨.html s, loc⟩ :: ts)) :
    S.Stretch ws (ts.drop (htmlRun ts).2) ∧
      S.Prints ⟨.html s, loc⟩ (joinLines (s :: (htmlRun ts).1)) := by
  obtain ⟨hp, hne, he, h⟩ := h.of_print rfl
  obtain ⟨hdrop, hprinted, hfeed⟩ := h.run_html he
  refine ⟨hdrop, s, _, rfl, toList_joinLines (fun hs => hne (hs ▸ rfl)) _,
    List.forall_mem_cons.mpr ⟨hp, hprinted⟩, fun hmore => hfeed fun hnil => hmore ?_⟩
  rw [hnil, List.map_nil]

theorem parsing_path {t : Token} (h : S.Stretch ws (t :: ts)) (ht : t.kind.isReference) :
    S.parsing.always (readPath stop ts) fun _ => S.Stretch ws ts.tail := by
  obtain ⟨target, at_, more, rfl, hmore⟩ := h.of_reference ht
  exact S.parsing.pure hmore

theorem parsing_filterText {k : TokenKind} (h : S.Below k ws ts) :
    S.parsing.always (filterText stop ts) fun r => S.Stretch ws (ts.drop r.2) := by
  obtain h | ⟨loc, us, rfl, h⟩ := h
  · unfold filterText
    split
    next => exact S.parsing.pure (h.of_word rfl)
    next => exact absurd h Stretch.not_pipelessStart
    next => exact S.parsing.pure h
  · exact S.parsing.bind (parsing_pipelessBody h) fun _ h => S.parsing.pure h.1

theorem parsing_filter {name : String} (h : S.Stretch ws (⟨.filter name, loc⟩ :: ts)) :
    S.parsing.always (readFilter stop name loc ts) fun r => S.Stretch ws (ts.drop r.2) := by
  have hknown := h.known_tail
  have htext {as : List Attribute} {k : Nat} (h : S.Below (.filter name) ws (ts.drop k)) :
      S.parsing.always (filterText stop (ts.drop k) >>= fun t =>
        pure ([Node.filter loc name as t.1], k + t.2))
        fun r => S.Stretch ws (ts.drop r.2) := by
    refine S.parsing.bind (parsing_filterText h) fun r h => S.parsing.pure ?_
    rwa [List.drop_drop] at h
  unfold readFilter
  obtain h | ⟨at_, as, at', more, rfl, ha, h⟩ := h.below_filter
  · dsimp only
    split
    next more =>
      obtain h | ⟨_, _, heq, -⟩ := h
      · exact S.parsing.bind (parsing_attributes h) fun r h => htext (k := r.2 + 1) (.inl h)
      · cases heq
    next => exact htext (k := 0) h
  · have has : ∀ a ∈ as, S.knows a := fun a hm => hknown a (by simp [hm])
    refine S.parsing.bind (parsing_attributesRead ha has) fun r hdrop => ?_
    exact htext (k := r.2 + 1) (hdrop.symm ▸ h)

theorem parsing_codeBlock (h : S.Stretch ws (⟨.codeBlock, loc⟩ :: ts)) :
    S.parsing.always (readCodeBlock stop loc ts) fun r => S.Stretch ws (ts.drop r.2) := by
  obtain h | ⟨at_, us, rfl, hblock⟩ := h.below rfl nofun
  · unfold readCodeBlock
    split
    next => exact absurd h Stretch.not_pipelessStart
    next => exact S.parsing.pure h
  · exact S.parsing.bind (parsing_pipelessBody hblock) fun r h =>
      S.parsing.bind (parsing_blockStatements _ fun _ _ => h.2.place) fun _ _ => S.parsing.pure h.1

theorem parsing_comment {text : String} {buffered : Bool}
    (h : S.Stretch ws (⟨.comment text buffered, loc⟩ :: ts)) :
    S.parsing.always (readComment stop text buffered loc ts) fun r =>
      S.Stretch ws (ts.drop r.2) := by
  obtain h | ⟨at_, us, rfl, hblock⟩ := h.below rfl nofun
  · unfold readComment
    split
    next => exact absurd h Stretch.not_pipelessStart
    next => exact S.parsing.pure h
  · exact S.parsing.bind (parsing_pipelessBody hblock) fun _ h => S.parsing.pure h.1

theorem parsing_code {source : String} {buffered escape : Bool}
    (h : S.Stretch ws (⟨.code source buffered escape, loc⟩ :: ts)) :
    S.parsing.always (readCode source buffered escape loc ts) fun r =>
      S.Stretch ws (ts.drop r.2) := by
  refine S.parsing.bind (parsing_ofCode h.place _ _ _) fun n _ => ?_
  split
  · exact parsing_error (h.of_word rfl).place rfl
  · exact S.parsing.pure (h.of_word rfl)

theorem drop_beforeElse (orElseIf : Bool) (h : S.Stretch ws ts) :
    S.Stretch ws (ts.drop (beforeElse orElseIf ts)) := by
  unfold beforeElse
  split
  · exact h.of_word rfl
  · split
    · exact h.of_word rfl
    · exact h
  · exact h

end Groups

/-! ## Heads -/

theorem isOfToken_of_add {head : Head} {a : Attribute} {cause : ParseCause}
    (h : head.add a = .error cause) : cause.isOfToken := by
  unfold Head.add at h
  split at h
  · exact nomatch h
  · split at h
    · cases h
      rfl
    · exact nomatch h

theorem isOfToken_of_addAll {head : Head} {as : List Attribute} {cause : ParseCause}
    (h : head.addAll as = .error cause) : cause.isOfToken := by
  induction as generalizing head with
  | nil => exact nomatch h
  | cons a as ih =>
    unfold Head.addAll at h
    split at h
    · exact ih h
    next hadd =>
      cases h
      exact isOfToken_of_add hadd

/-- A head that opens a tag is not empty. -/
theorem parsing_head {stop : Location} {ws : List Nat} {ts : List Token} (head : Head)
    (h : S.Stretch ws ts) :
    S.parsing.always (Head.read stop head ts) fun r =>
      S.Stretch ws (ts.drop r.2) ∧ (ts.head?.any (·.kind.opensHead) → 0 < r.2) := by
  fun_induction Head.read stop head ts
  case case1 hadd | case3 hadd => exact parsing_error h.place (isOfToken_of_add hadd)
  case case2 ih | case4 ih =>
    exact S.parsing.bind (ih (h.of_word rfl)) fun _ hr =>
      S.parsing.pure ⟨hr.1, fun _ => Nat.succ_pos _⟩
  case case5 ih =>
    refine S.parsing.bind (parsing_attributes h) fun r hr => ?_
    dsimp only
    split
    next hadd => exact parsing_error h.place (isOfToken_of_addAll hadd)
    next =>
      refine S.parsing.bind (ih _ _ hr) fun q hq => S.parsing.pure ⟨?_, fun _ => Nat.succ_pos _⟩
      have hdrop := hq.1
      rw [List.drop_drop, Nat.add_comm] at hdrop
      exact hdrop
  case case6 ih =>
    exact S.parsing.bind (parsing_atLocation h.place _ _) fun e _ =>
      S.parsing.bind (ih e (h.of_word rfl)) fun _ hr =>
        S.parsing.pure ⟨hr.1, fun _ => Nat.succ_pos _⟩
  case case7 ts hid hclass hlist _ =>
    refine S.parsing.pure ⟨h, fun hopens => ?_⟩
    -- a head without a part does not open a tag
    match ts with
    | ⟨.id _, _⟩ :: _ => exact absurd rfl (hid _ _ _)
    | ⟨.className _, _⟩ :: _ => exact absurd rfl (hclass _ _ _)
    | ⟨.attributesStart, _⟩ :: _ => exact absurd rfl (hlist _ _)

/-! ## Nodes -/

/-- A context whose texts are cut as the forecast says; it stops where some token stands. -/
structure Cuts (S : Forecast) (cx : TreeContext) : Prop where
  stop : S.Place cx.stop
  text : ∀ t raw, S.knows t → S.Prints t raw →
    S.parsing.always (cx.segments raw t.loc) fun _ => True

variable {cx : TreeContext}

theorem Cuts.textNode {t : Token} {raw : String} (hcx : S.Cuts cx) (ht : S.knows t)
    (h : S.Prints t raw) : S.parsing.always (cx.textNode raw t.loc) fun _ => True :=
  S.parsing.bind (hcx.text t raw ht h) fun _ _ => S.parsing.pure trivial

theorem Cuts.textBody {ws : List Nat} {ts : List Token} (hcx : S.Cuts cx)
    (h : S.Below .dot ws ts) :
    S.parsing.always (cx.textBody ts) fun r => S.Stretch ws (ts.drop r.2) := by
  obtain h | ⟨at_, us, rfl, hblock⟩ := h
  · unfold TreeContext.textBody
    split
    next => exact absurd h Stretch.not_pipelessStart
    next => exact S.parsing.pure h
  · refine S.parsing.bind (parsing_pipelessBody hblock) fun r hr => ?_
    obtain ⟨t, ht, hloc, hprints⟩ := hr.2.prints
    exact S.parsing.bind (hloc ▸ hcx.textNode ht hprints) fun _ _ => S.parsing.pure hr.1

/-- Each production leaves behind what may be left of the stream, or fails as the forecast says. -/
def productions (S : Forecast) : Productions where
  optionalBlock cx ts := ∀ {ws : List Nat}, S.Cuts cx → S.Stretch ws ts →
    S.parsing.always (readOptionalBlock cx ts) fun r => S.Stretch ws (ts.drop r.2)
  inline cx closable ts := ∀ {ws : List Nat}, S.Cuts cx → S.Stretch ws ts →
    S.parsing.always (readInline cx closable ts) fun r => S.Stretch ws (ts.drop r.2.2)
  branchBody cx ts := ∀ {ws : List Nat}, S.Cuts cx → S.Stretch ws ts →
    S.parsing.always (readBranchBody cx ts) fun r => S.Stretch ws (ts.drop r.2)
  branches cx ts := ∀ {w : Nat} {ws : List Nat}, S.Cuts cx → S.Stretch (w :: ws) ts →
    S.parsing.always (readBranches cx ts) fun r => S.Stretch ws (ts.drop r.2)
  elseBody cx ts := ∀ {ws : List Nat}, S.Cuts cx → S.Stretch ws ts →
    S.parsing.always (readElseBody cx ts) fun r => S.Stretch ws (ts.drop r.2)
  otherwise cx ts := ∀ {ws : List Nat}, S.Cuts cx → S.Stretch ws ts →
    S.parsing.always (readOtherwise cx ts) fun r => S.Stretch ws (ts.drop r.2)
  element cx loc name shown args ts := ∀ {ws : List Nat}, S.Cuts cx → S.Stretch ws ts →
    S.parsing.always (readElement cx loc name shown ts args) fun r =>
      S.Stretch ws (ts.drop r.2) ∧ (ts.head?.any (·.kind.opensHead) → 0 < r.2)
  conditional cx loc negate source ts := ∀ {ws : List Nat}, S.Cuts cx → S.Place loc →
    S.Stretch ws ts → S.parsing.always (readConditional cx loc negate source ts) fun r =>
      S.Stretch ws (ts.drop r.2)
  each cx loc value key source ts := ∀ {ws : List Nat}, S.Cuts cx → S.Place loc →
    S.Stretch ws ts → S.parsing.always (readEach cx loc value key source ts) fun r =>
      S.Stretch ws (ts.drop r.2)
  node cx t rest := ∀ {ws : List Nat}, S.Cuts cx → S.Stretch ws (t :: rest) →
    S.parsing.always (Node.read cx t rest) fun r => S.Stretch ws (rest.drop r.2)
  here cx ts := ∀ {ws : List Nat}, S.Cuts cx → S.Stretch ws ts →
    S.parsing.always (Node.readHere cx ts) fun r => S.Stretch ws (ts.drop r.2)
  items cx ts := ∀ {w : Nat} {ws : List Nat}, S.Cuts cx → S.Stretch (w :: ws) ts →
    S.parsing.always (readItems cx ts) fun r => S.Stretch ws (ts.drop r.2)

section Steps

variable {cx : TreeContext} {loc : Location} {name : NameSource} {shown source value : String}
  {args : Option (List Expr)} {key : Option String} {closable negate : Bool} {t : Token}
  {rest ts : List Token}

theorem parsing_optionalBlock (ih : S.productions.Below ts) :
    S.productions.optionalBlock cx ts := by
  intro ws hcx h
  unfold readOptionalBlock
  split
  next => exact S.parsing.bind (ih.items .tail hcx h.of_indent) fun _ h => S.parsing.pure h
  next => exact S.parsing.pure h

theorem parsing_inline (ih : S.productions.Below ts) :
    S.productions.inline cx closable ts := by
  intro ws hcx h
  unfold readInline
  split
  next =>
    obtain ⟨hdrop, hprints⟩ := h.prints_text false
    exact S.parsing.bind (hcx.textNode (h.known _ List.mem_cons_self) hprints) fun _ _ =>
      S.parsing.pure hdrop
  next =>
    exact S.parsing.bind (parsing_ofCode h.place _ _ _) fun _ _ => S.parsing.pure (h.of_word rfl)
  next => exact S.parsing.bind (ih.here .tail hcx (h.of_word rfl)) fun _ h => S.parsing.pure h
  next =>
    split
    · exact S.parsing.pure (h.of_word rfl)
    · exact parsing_unexpected hcx.stop h.known rfl
  all_goals first | exact S.parsing.pure h | exact parsing_unexpected hcx.stop h.known rfl

theorem parsing_branchBody (ih : S.productions.Below ts) :
    S.productions.branchBody cx ts := by
  intro ws hcx h
  unfold readBranchBody
  split
  next => exact S.parsing.bind (ih.here .tail hcx (h.of_word rfl)) fun _ h => S.parsing.pure h
  next => exact S.parsing.bind (ih.items .tail hcx h.of_indent) fun _ h => S.parsing.pure h
  next => exact S.parsing.pure h

theorem parsing_branches (ih : S.productions.Below ts) :
    S.productions.branches cx ts := by
  intro w ws hcx h
  unfold readBranches
  split
  next => exact S.parsing.pure h.of_outdent
  next =>
    exact S.parsing.bind (ih.branches .tail hcx (h.of_word rfl)) fun _ h => S.parsing.pure h
  next =>
    refine S.parsing.bind (parsing_comment h) fun r hr => ?_
    refine S.parsing.bind (ih.branches (.drop .tail) hcx hr) fun q hq => S.parsing.pure ?_
    rwa [List.drop_drop] at hq
  next =>
    refine S.parsing.bind (parsing_atLocation h.place _ _) fun test _ => ?_
    refine S.parsing.bind (ih.branchBody .tail hcx (h.of_word rfl)) fun r hr => ?_
    refine S.parsing.bind (ih.branches (.drop .tail) hcx hr) fun q hq => S.parsing.pure ?_
    rwa [List.drop_drop] at hq
  next =>
    refine S.parsing.bind (ih.branchBody .tail hcx (h.of_word rfl)) fun r hr => ?_
    refine S.parsing.bind (ih.branches (.drop .tail) hcx hr) fun q hq => S.parsing.pure ?_
    rwa [List.drop_drop] at hq
  next => exact parsing_unexpected hcx.stop h.known rfl

theorem parsing_elseBody (ih : S.productions.Below ts) :
    S.productions.elseBody cx ts := by
  intro ws hcx h
  unfold readElseBody
  split
  next => exact S.parsing.bind (ih.here .tail hcx (h.of_word rfl)) fun _ h => S.parsing.pure h
  next => exact parsing_optionalBlock ih hcx h

theorem parsing_otherwise (ih : S.productions.Below ts) :
    S.productions.otherwise cx ts := by
  intro ws hcx h
  -- a line end in front of a branch is in the same stretch as what stands behind it
  have hskip := drop_beforeElse true h
  unfold readOtherwise
  dsimp only
  split
  next heq =>
    rw [heq] at hskip
    refine S.parsing.bind (parsing_atLocation hskip.place _ _) fun test _ => ?_
    refine S.parsing.bind (ih.optionalBlock (.of_drop heq) hcx (hskip.of_word rfl)) fun r hr => ?_
    refine S.parsing.bind (ih.otherwise (.drop (.of_drop heq)) hcx hr) fun q hq => S.parsing.pure ?_
    rw [List.drop_drop] at hq
    rw [Nat.add_assoc _ r.2]
    exact Stretch.drop_behind heq hq
  next heq =>
    rw [heq] at hskip
    exact parsing_error hskip.place rfl
  next heq =>
    rw [heq] at hskip
    exact S.parsing.bind (ih.elseBody (.of_drop heq) hcx (hskip.of_word rfl)) fun _ hr =>
      S.parsing.pure (Stretch.drop_behind heq hr)
  next => exact S.parsing.pure h

theorem parsing_element (ih : S.productions.Below ts) :
    S.productions.element cx loc name shown args ts := by
  intro ws hcx h
  unfold readElement
  refine S.parsing.bind (parsing_head {} h) ?_
  rintro ⟨head, k⟩ ⟨hk, hpos⟩
  have hplace (j : Nat) : S.Place (placeOf cx.stop (ts.drop j)) :=
    place_placeOf hcx.stop fun t ht => h.known t (List.mem_of_mem_drop ht)
  dsimp only at hk hpos ⊢
  have hend {j m n : Nat} (hj : k ≤ j) (hn : S.Stretch ws ((ts.drop (j + m)).drop n)) :
      S.Stretch ws (ts.drop (j + m + n)) ∧
        (ts.head?.any (·.kind.opensHead) → 0 < j + m + n) := by
    rw [List.drop_drop] at hn
    exact ⟨hn, fun hopens => by have := hpos hopens; omega⟩
  by_cases hdot : (ts.drop k).head?.any fun t => t.kind == .dot
  · -- a block of text may stand behind the dot, and then nothing else stands in its line
    have hbelow : S.Below .dot ws (ts.drop (k + 1)) := by
      rw [← List.tail_drop]
      cases hts : ts.drop k with
      | nil => exact absurd hts hk.ne_nil
      | cons t more =>
        rw [hts] at hk hdot
        have ht : t.kind = .dot := eq_of_beq hdot
        exact ht ▸ hk.below (ht ▸ rfl) (by simp [ht])
    simp only [hdot, if_true]
    have hinline : S.parsing.always (readInline cx args.isNone (ts.drop (k + 1))) fun r =>
        S.Below .dot ws (ts.drop (k + 1 + r.2.2)) := by
      rcases hbelow with hstream | ⟨at_, us, heq, hblock⟩
      · refine S.parsing.mono (parsing_inline (ih.drop _) hcx hstream) fun r hr => .inl ?_
        rwa [List.drop_drop] at hr
      · rw [heq]
        unfold readInline
        exact S.parsing.pure (.inr ⟨at_, us, heq, hblock⟩)
    refine S.parsing.bind hinline ?_
    rintro ⟨inline, selfClosing, m⟩ hm
    refine S.parsing.bind (hcx.textBody hm) ?_
    rintro ⟨below, n⟩ hn
    dsimp only
    split
    · exact parsing_error (hplace _) rfl
    · split <;> exact S.parsing.pure (hend (Nat.le_succ k) hn)
  · simp only [hdot]
    refine S.parsing.bind (parsing_inline (ih.drop _) hcx hk) ?_
    rintro ⟨inline, selfClosing, m⟩ hm
    rw [List.drop_drop] at hm
    refine S.parsing.bind (parsing_optionalBlock (ih.drop _) hcx hm) ?_
    rintro ⟨below, n⟩ hn
    dsimp only
    split
    · exact parsing_error (hplace _) rfl
    · split <;> exact S.parsing.pure (hend (Nat.le_refl k) hn)

theorem parsing_conditional (ih : S.productions.Below ts) :
    S.productions.conditional cx loc negate source ts := by
  intro ws hcx hloc h
  unfold readConditional
  refine S.parsing.bind (parsing_atLocation hloc _ _) fun test _ => ?_
  refine S.parsing.bind (parsing_optionalBlock ih hcx h) fun r hr => ?_
  refine S.parsing.bind (parsing_otherwise (ih.drop _) hcx hr) fun q hq => S.parsing.pure ?_
  rwa [List.drop_drop] at hq

theorem parsing_each (ih : S.productions.Below ts) :
    S.productions.each cx loc value key source ts := by
  intro ws hcx hloc h
  unfold readEach
  refine S.parsing.bind (parsing_atLocation hloc _ _) fun e _ => ?_
  refine S.parsing.bind (parsing_optionalBlock ih hcx h) ?_
  rintro ⟨body, k⟩ hk
  have hskip := drop_beforeElse false hk
  rw [List.drop_drop] at hskip
  dsimp only
  split
  next heq =>
    rw [heq] at hskip
    exact parsing_error hskip.place rfl
  next heq =>
    rw [heq] at hskip
    exact S.parsing.bind (ih.elseBody (.of_drop heq) hcx (hskip.of_word rfl)) fun _ hr =>
      S.parsing.pure (Stretch.drop_behind heq hr)
  next => exact S.parsing.pure hk

theorem parsing_node (ih : S.productions.Below (t :: rest)) :
    S.productions.node cx t rest := by
  intro ws hcx h
  have hplace := h.place
  match t, h with
  | ⟨.tag _, _⟩, h =>
    rw [Node.read]
    exact S.parsing.bind (ih.element .tail hcx (h.of_word rfl)) fun _ hr =>
      S.parsing.pure hr.1
  | ⟨.id _, _⟩, h | ⟨.className _, _⟩, h | ⟨.attributesStart, _⟩, h =>
    rw [Node.read]
    exact S.parsing.bind (parsing_element ih hcx h) fun _ hr =>
      S.parsing.pure (hr.1.drop_pred (hr.2 rfl))
  | ⟨.interpolation _, _⟩, h =>
    rw [Node.read]
    exact S.parsing.bind (parsing_atLocation hplace _ _) fun _ _ =>
      S.parsing.bind (ih.element .tail hcx (h.of_word rfl)) fun _ hr => S.parsing.pure hr.1
  | ⟨.text _, _⟩, h =>
    obtain ⟨hdrop, hprints⟩ := h.prints_text true
    rw [Node.read]
    exact S.parsing.bind (hcx.textNode (h.known _ List.mem_cons_self) hprints) fun _ _ =>
      S.parsing.pure hdrop
  | ⟨.html _, _⟩, h =>
    obtain ⟨hdrop, hprints⟩ := h.prints_html
    rw [Node.read]
    refine S.parsing.bind (hcx.textNode (h.known _ List.mem_cons_self) hprints) fun _ _ => ?_
    refine S.parsing.bind (ih.optionalBlock (.drop .tail) hcx hdrop) fun r hr => S.parsing.pure ?_
    rwa [List.drop_drop] at hr
  | ⟨.comment _ _, _⟩, h =>
    rw [Node.read]
    exact S.parsing.bind (parsing_comment h) fun _ hr => S.parsing.pure hr
  | ⟨.doctype _, _⟩, h | ⟨.yield, _⟩, h =>
    rw [Node.read]
    exact S.parsing.pure (h.of_word rfl)
  | ⟨.code _ _ _, _⟩, h =>
    rw [Node.read]
    exact parsing_code h
  | ⟨.codeBlock, _⟩, h =>
    rw [Node.read]
    exact parsing_codeBlock h
  | ⟨.ifCond _, _⟩, h | ⟨.unlessCond _, _⟩, h =>
    rw [Node.read]
    exact ih.conditional .tail hcx hplace (h.of_word rfl)
  | ⟨.switch _, _⟩, h =>
    rw [Node.read]
    refine S.parsing.bind (parsing_atLocation hplace _ _) fun _ _ => ?_
    have hrest := h.of_word rfl
    split
    · exact S.parsing.bind (ih.branches (.cons .tail) hcx hrest.of_indent) fun _ hr =>
        S.parsing.pure hr
    · exact S.parsing.pure hrest
  | ⟨.each _ _ _, _⟩, h | ⟨.eachOf _ _, _⟩, h =>
    rw [Node.read]
    exact ih.each .tail hcx hplace (h.of_word rfl)
  | ⟨.loop _, _⟩, h =>
    rw [Node.read]
    exact S.parsing.bind (parsing_atLocation hplace _ _) fun _ _ =>
      S.parsing.bind (ih.optionalBlock .tail hcx (h.of_word rfl)) fun _ hr => S.parsing.pure hr
  | ⟨.mixin _ _, _⟩, h =>
    rw [Node.read]
    have hmixin : S.Cuts { cx with inMixin := true } := ⟨hcx.stop, hcx.text⟩
    exact S.parsing.bind (parsing_paramsAt hplace _) fun _ _ =>
      S.parsing.bind (ih.optionalBlock .tail hmixin (h.of_word rfl)) fun _ hr => S.parsing.pure hr
  | ⟨.call _ _ _, _⟩, h =>
    rw [Node.read]
    exact S.parsing.bind (parsing_callName hplace _ _) fun _ _ =>
      S.parsing.bind (parsing_callArguments hplace _) fun _ _ =>
        S.parsing.bind (ih.element .tail hcx (h.of_word rfl)) fun _ hr => S.parsing.pure hr.1
  | ⟨.block _ _, _⟩, h =>
    rw [Node.read]
    exact S.parsing.bind (ih.optionalBlock .tail hcx (h.of_word rfl)) fun _ hr => S.parsing.pure hr
  | ⟨.slot, _⟩, h =>
    rw [Node.read]
    split
    · exact S.parsing.pure (h.of_word rfl)
    · exact parsing_error hplace rfl
  | ⟨.inherits, _⟩, h =>
    rw [Node.read]
    exact S.parsing.bind (parsing_path h rfl) fun _ hpath =>
      S.parsing.pure (List.drop_one ▸ hpath)
  | ⟨.includes _, _⟩, h =>
    rw [Node.read]
    refine S.parsing.bind (parsing_path h rfl) fun _ hpath => ?_
    split
    · exact S.parsing.pure (List.drop_one ▸ hpath)
    · rw [← List.drop_one] at hpath ⊢
      refine S.parsing.bind (ih.optionalBlock (.drop .tail) hcx hpath) fun r hr => S.parsing.pure ?_
      rwa [List.drop_drop, Nat.add_comm] at hr
  | ⟨.filter _, _⟩, h =>
    rw [Node.read]
    exact parsing_filter h
  | ⟨.otherwise _, _⟩, _ | ⟨.elseIf _, _⟩, _ =>
    rw [Node.read]
    exact parsing_error hplace rfl
  | ⟨.attr _ _ _, _⟩, h | ⟨.attributesEnd, _⟩, h | ⟨.spread _, _⟩, h | ⟨.when _, _⟩, h
  | ⟨.defaultCase, _⟩, h | ⟨.path _, _⟩, h | ⟨.indent _, _⟩, h | ⟨.outdent, _⟩, h
  | ⟨.newline, _⟩, h | ⟨.eos, _⟩, h | ⟨.pipelessStart, _⟩, h | ⟨.pipelessEnd, _⟩, h
  | ⟨.slash, _⟩, h | ⟨.colon, _⟩, h | ⟨.dot, _⟩, h =>
    rw [Node.read]
    · exact parsing_unexpected hcx.stop h.known rfl
    all_goals simp

theorem parsing_here (ih : S.productions.Below ts) :
    S.productions.here cx ts := by
  intro ws hcx h
  unfold Node.readHere
  split
  · exact absurd rfl h.ne_nil
  · exact S.parsing.bind (parsing_node ih hcx h) fun _ h => S.parsing.pure h

theorem parsing_items (ih : S.productions.Below ts) :
    S.productions.items cx ts := by
  intro w ws hcx h
  unfold readItems
  split
  next => exact S.parsing.pure h.of_outdent
  next =>
    exact S.parsing.bind (ih.items .tail hcx (h.of_word rfl)) fun _ h => S.parsing.pure h
  next => exact absurd rfl h.ne_nil
  next => exact absurd h Stretch.not_eos
  next t rest _ _ _ =>
    refine S.parsing.bind (parsing_node ih hcx h) fun r hr => ?_
    refine S.parsing.bind (ih.items (.drop .tail) hcx hr) fun q hq => S.parsing.pure ?_
    rwa [List.drop_drop] at hq

end Steps

theorem productions_always : S.productions.Given fun _ => True :=
  Productions.Given.always
    { optionalBlock := parsing_optionalBlock
      inline := parsing_inline
      branchBody := parsing_branchBody
      branches := parsing_branches
      elseBody := parsing_elseBody
      otherwise := parsing_otherwise
      element := parsing_element
      conditional := parsing_conditional
      each := parsing_each
      node := parsing_node
      here := parsing_here
      items := parsing_items }

theorem parsing_document {cx : TreeContext} (hcx : S.Cuts cx) {ts : List Token}
    (h : S.Stretch [] ts) : S.parsing.always (readDocument cx ts) fun _ => True := by
  fun_induction readDocument cx ts
  case case1 | case2 => exact S.parsing.pure trivial
  case case3 ih => exact ih (h.of_word rfl)
  case case4 ih =>
    exact S.parsing.bind (productions_always.node trivial hcx h) fun r hr =>
      S.parsing.bind (ih r.2 hr) fun _ _ => S.parsing.pure trivial

theorem parsing_mapM {α β : Type} {f : α → Except ParseError β} (xs : List α)
    (hf : ∀ x ∈ xs, S.parsing.always (f x) fun _ => True) :
    S.parsing.always (xs.mapM f) fun _ => True :=
  S.parsing.mapM trivial (fun _ _ _ _ => trivial) xs hf

end Forecast

end PugTemplate
