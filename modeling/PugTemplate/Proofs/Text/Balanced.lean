import PugTemplate.Text.Location
import PugTemplate.Proofs.Basic
import PugTemplate.Proofs.Text.Closed

/-!
# Balanced text

The grammar of texts that close what they open: brackets, quoted strings and backtick literals with
holes, in three mutually dependent parts. It does not mention the machine. Each state of the machine
stands for what may still follow (`Remaining`), and the machine reads exactly the grammar. Main
statement: `inside_iff_closesAt`.
-/

namespace PugTemplate

namespace Nesting

/-- The characters that open or close something. -/
def delimiters : List Char :=
  ['(', ')', '[', ']', '\x7b', '\x7d', '\'', '"', '`']

/-- What stands between two marks of a quoted string. -/
inductive QuotedText (mark : Char) : List Char → Prop where
  | nil : QuotedText mark []
  | char {c : Char} {cs : List Char} (hmark : c ≠ mark) (hescape : c ≠ '\\') (hfeed : c ≠ '\n')
      (h : QuotedText mark cs) : QuotedText mark (c :: cs)
  | escaped {c : Char} {cs : List Char} (h : QuotedText mark cs) : QuotedText mark ('\\' :: c :: cs)

mutual

/-- Text outside any literal. -/
inductive BalancedText : List Char → Prop where
  | nil : BalancedText []
  | char {c : Char} {cs : List Char} (hc : c ∉ delimiters) (h : BalancedText cs) :
      BalancedText (c :: cs)
  | bracketed {b : Bracket} {inner cs : List Char} (hinner : BalancedText inner)
      (h : BalancedText cs) : BalancedText (b.opening :: (inner ++ b.closing :: cs))
  | quoted {mark : Char} {inner cs : List Char} (hmark : mark = '\'' ∨ mark = '"')
      (hinner : QuotedText mark inner) (h : BalancedText cs) :
      BalancedText (mark :: (inner ++ mark :: cs))
  | template {inner cs : List Char} (hinner : TemplateText inner) (h : BalancedText cs) :
      BalancedText ('`' :: (inner ++ '`' :: cs))

/-- What stands between two backticks. A curly bracket is a character like any other, but for the
one behind a dollar sign. -/
inductive TemplateText : List Char → Prop where
  | nil : TemplateText []
  | char {c : Char} {cs : List Char} (hend : c ≠ '`') (hescape : c ≠ '\\')
      (hhole : c = '$' → cs.head? ≠ some '{') (h : TemplateText cs) : TemplateText (c :: cs)
  | escaped {c : Char} {cs : List Char} (h : TemplateText cs) : TemplateText ('\\' :: c :: cs)
  | hole {inner cs : List Char} (hinner : BalancedText inner) (h : TemplateText cs) :
      TemplateText ('$' :: '{' :: (inner ++ '}' :: cs))

end

/-- The bracket that closes `b` stands at byte `n`, and the text in front of it is balanced. -/
def ClosesAt (b : Bracket) (text : List Char) (n : Nat) : Prop :=
  ∃ content rest, text = content ++ b.closing :: rest ∧ byteLength content = n ∧
    BalancedText content

/-- What may follow until everything is closed. -/
def Remaining : List Enclosure → List Char → Prop
  | [], cs => BalancedText cs
  | .bracket b :: es, cs =>
    ∃ inner rest, cs = inner ++ b.closing :: rest ∧ BalancedText inner ∧ Remaining es rest
  | .hole :: es, cs =>
    ∃ inner rest, cs = inner ++ '}' :: rest ∧ BalancedText inner ∧ Remaining es rest
  | .quoted mark :: es, cs =>
    ∃ inner rest, cs = inner ++ mark :: rest ∧ QuotedText mark inner ∧ Remaining es rest
  | .template dollar :: es, cs =>
    ∃ inner rest, cs = inner ++ '`' :: rest ∧
      TemplateText (if dollar then '$' :: inner else inner) ∧ Remaining es rest
  | .escape :: es, cs => ∃ c rest, cs = c :: rest ∧ Remaining es rest

/-! ## From the machine to the grammar -/

section

variable {es inner : List Enclosure} {c : Char} {cs : List Char}

/-- Outside literals, a balanced text may stand in front of what follows. -/
theorem Remaining.prepend (front : List Char) (ho : Outside es)
    (hfront : ∀ {cs}, BalancedText cs → BalancedText (front ++ cs)) (h : Remaining es cs) :
    Remaining es (front ++ cs) := by
  match es with
  | [] => exact hfront h
  | .bracket b :: es =>
    obtain ⟨inner, rest, rfl, hinner, hrest⟩ := h
    exact ⟨front ++ inner, rest, (List.append_assoc _ _ _).symm, hfront hinner, hrest⟩
  | .hole :: es =>
    obtain ⟨inner, rest, rfl, hinner, hrest⟩ := h
    exact ⟨front ++ inner, rest, (List.append_assoc _ _ _).symm, hfront hinner, hrest⟩
  | .quoted _ :: es | .template _ :: es | .escape :: es => exact ho.elim

theorem opening_of_ofOpening? {b : Bracket} (h : Bracket.ofOpening? c = some b) :
    b.opening = c := by
  unfold Bracket.ofOpening? at h
  grind [Bracket.opening]

/-- A closing bracket ends the innermost enclosure. -/
theorem Remaining.of_closedBy {e : Enclosure} (hc : e.closedBy c = true) (h : Remaining es cs) :
    Remaining (e :: es) (c :: cs) := by
  match e with
  | .bracket b =>
    obtain rfl : c = b.closing := eq_of_beq hc
    exact ⟨[], cs, rfl, .nil, h⟩
  | .hole =>
    obtain rfl : c = '}' := eq_of_beq hc
    exact ⟨[], cs, rfl, .nil, h⟩
  | .quoted _ | .template _ | .escape => exact nomatch hc

theorem Remaining.of_feedPlain (ho : Outside es) (hc : feedPlain es c = .ok inner)
    (h : Remaining inner cs) : Remaining es (c :: cs) := by
  unfold feedPlain at hc
  split at hc
  next b hb =>
    cases hc
    obtain rfl := opening_of_ofOpening? hb
    obtain ⟨text, rest, rfl, htext, hrest⟩ := h
    simpa using hrest.prepend (b.opening :: (text ++ [b.closing])) ho fun hcs => by
      simpa using BalancedText.bracketed htext hcs
  next hb =>
    split at hc
    next =>
      split at hc
      next e rest =>
        split at hc
        next he =>
          cases hc
          exact h.of_closedBy he
        next => cases hc
      next => cases hc
    next hclose =>
      split at hc
      next hmark =>
        cases hc
        obtain ⟨text, rest, rfl, htext, hrest⟩ := h
        simpa using hrest.prepend (c :: (text ++ [c])) ho fun hcs => by
          simpa using BalancedText.quoted hmark htext hcs
      next hmark =>
        split at hc
        next htick =>
          cases hc
          subst htick
          obtain ⟨text, rest, rfl, htext, hrest⟩ := h
          simpa using hrest.prepend ('`' :: (text ++ ['`'])) ho fun hcs => by
            simpa using BalancedText.template htext hcs
        next htick =>
          cases hc
          refine h.prepend [c] ho (BalancedText.char ?_)
          unfold Bracket.ofOpening? at hb
          simp only [delimiters, List.mem_cons, List.not_mem_nil, or_false]
          grind

theorem Remaining.of_feed_template {dollar : Bool}
    (hc : feed (.template dollar :: es) c = .ok inner) (h : Remaining inner cs) :
    Remaining (.template dollar :: es) (c :: cs) := by
  -- A dollar sign that no curly bracket follows is a character like any other.
  have hdollar {text : List Char} (htext : TemplateText text)
      (hhead : dollar → text.head? ≠ some '{') :
      TemplateText (if dollar then '$' :: text else text) := by
    split
    next hd => exact .char (by decide) (by decide) (fun _ => hhead hd) htext
    next => exact htext
  simp only [feed] at hc
  split at hc
  next hescape =>
    cases hc
    subst hescape
    obtain ⟨x, -, rfl, text, rest, rfl, htext, hrest⟩ := h
    exact ⟨'\\' :: x :: text, rest, rfl, hdollar (.escaped htext) fun _ => by simp, hrest⟩
  next hescape =>
    split at hc
    next hend =>
      cases hc
      subst hend
      exact ⟨[], cs, rfl, hdollar .nil fun _ => by simp, h⟩
    next hend =>
      split at hc
      next hhole =>
        cases hc
        obtain ⟨rfl, rfl⟩ := hhole
        obtain ⟨text, -, rfl, htext, more, rest, rfl, hmore, hrest⟩ := h
        exact ⟨'{' :: (text ++ '}' :: more), rest, by simp, .hole htext hmore, hrest⟩
      next hhole =>
        cases hc
        obtain ⟨text, rest, rfl, htext, hrest⟩ := h
        refine ⟨c :: text, rest, rfl, hdollar ?_ fun hd => ?_, hrest⟩
        · by_cases hsign : c = '$'
          · simpa [hsign] using htext
          · rw [if_neg (by simpa using hsign)] at htext
            exact .char hend hescape (fun heq => absurd heq hsign) htext
        · rintro heq
          exact hhole ⟨Option.some.inj heq, hd⟩

/-- What may follow a step, with the character in front of it, may follow the state before. -/
theorem Remaining.of_feed (hc : feed es c = .ok inner) (h : Remaining inner cs) :
    Remaining es (c :: cs) := by
  match es with
  | .escape :: es =>
    cases hc
    exact ⟨c, cs, rfl, h⟩
  | .quoted mark :: es =>
    simp only [feed] at hc
    split at hc
    next hescape =>
      cases hc
      subst hescape
      obtain ⟨x, -, rfl, text, rest, rfl, htext, hrest⟩ := h
      exact ⟨'\\' :: x :: text, rest, rfl, .escaped htext, hrest⟩
    next hescape =>
      split at hc
      next => cases hc
      next hfeed =>
        split at hc
        next hmark =>
          cases hc
          subst hmark
          exact ⟨[], cs, rfl, .nil, h⟩
        next hmark =>
          cases hc
          obtain ⟨text, rest, rfl, htext, hrest⟩ := h
          exact ⟨c :: text, rest, rfl, .char hmark hescape hfeed htext, hrest⟩
  | .template _ :: es => exact h.of_feed_template hc
  | [] | .bracket _ :: es | .hole :: es => exact h.of_feedPlain trivial hc

/-- A text that the machine reads to the end is one that may follow. -/
theorem remaining_of_foldlM (h : cs.foldlM feed es = .ok []) : Remaining es cs := by
  induction cs generalizing es with
  | nil =>
    cases h
    exact BalancedText.nil
  | cons c cs ih =>
    rw [List.foldlM_cons] at h
    obtain ⟨mid, hc, hcs⟩ := of_bind_eq_ok h
    exact (ih hcs).of_feed hc

end

/-! ## From the grammar to the machine -/

section

variable {es : List Enclosure} {mark : Char} {cs : List Char}

theorem feed_opening (ho : Outside es) (b : Bracket) :
    feed es b.opening = .ok (.bracket b :: es) := by
  rw [feed_of_outside ho]
  cases b <;> rfl

theorem feed_closing (b : Bracket) : feed (.bracket b :: es) b.closing = .ok es := by
  cases b <;> rfl

theorem feed_mark (ho : Outside es) (hmark : mark = '\'' ∨ mark = '"') :
    feed es mark = .ok (.quoted mark :: es) := by
  rw [feed_of_outside ho]
  rcases hmark with rfl | rfl <;> rfl

theorem feed_of_not_mem_delimiters (ho : Outside es) {c : Char} (hc : c ∉ delimiters) :
    feed es c = .ok es := by
  simp only [delimiters, List.mem_cons, List.not_mem_nil, or_false, not_or] at hc
  simp [feed_of_outside ho, feedPlain, Bracket.ofOpening?, hc]

theorem QuotedText.foldlM_feed (h : QuotedText mark cs) :
    cs.foldlM feed (.quoted mark :: es) = .ok (.quoted mark :: es) := by
  induction h with
  | nil => rfl
  | @char c cs hmark hescape hfeed _ ih =>
    have hstep : feed (.quoted mark :: es) c = .ok (.quoted mark :: es) := by
      simp [feed, hmark, hescape, hfeed]
    rw [List.foldlM_cons, hstep]
    exact ih
  | @escaped c cs _ ih => exact ih

mutual

/-- A balanced text leaves open what was open before it. -/
theorem BalancedText.foldlM_feed (es : List Enclosure) (ho : Outside es) :
    ∀ {cs : List Char}, BalancedText cs → cs.foldlM feed es = .ok es
  | _, .nil => rfl
  | _, .char hc h => by
    rw [List.foldlM_cons, feed_of_not_mem_delimiters ho hc]
    exact h.foldlM_feed es ho
  | _, @BalancedText.bracketed b inner cs hinner h => by
    rw [List.foldlM_cons, feed_opening ho]
    change (inner ++ b.closing :: cs).foldlM feed (.bracket b :: es) = _
    rw [List.foldlM_append, hinner.foldlM_feed (.bracket b :: es) trivial]
    change (b.closing :: cs).foldlM feed (.bracket b :: es) = _
    rw [List.foldlM_cons, feed_closing]
    exact h.foldlM_feed es ho
  | _, @BalancedText.quoted mark inner cs hmark hinner h => by
    have hclose : feed (.quoted mark :: es) mark = .ok es := by
      rcases hmark with rfl | rfl <;> rfl
    rw [List.foldlM_cons, feed_mark ho hmark]
    change (inner ++ mark :: cs).foldlM feed (.quoted mark :: es) = _
    rw [List.foldlM_append, hinner.foldlM_feed]
    change (mark :: cs).foldlM feed (.quoted mark :: es) = _
    rw [List.foldlM_cons, hclose]
    exact h.foldlM_feed es ho
  | _, @BalancedText.template inner cs hinner h => by
    have hopen : feed es '`' = .ok (.template false :: es) := feed_of_outside ho '`'
    rw [List.foldlM_cons, hopen]
    change (inner ++ '`' :: cs).foldlM feed (.template false :: es) = _
    obtain ⟨last, hread⟩ := hinner.foldlM_feed es false nofun
    rw [List.foldlM_append, hread]
    exact h.foldlM_feed es ho

/-- A text between backticks leaves a backtick literal open, whether a dollar sign stands in front
of it or not. -/
theorem TemplateText.foldlM_feed (es : List Enclosure) :
    ∀ (dollar : Bool) {cs : List Char}, TemplateText cs → (dollar → cs.head? ≠ some '{') →
      ∃ last, cs.foldlM feed (.template dollar :: es) = .ok (.template last :: es)
  | dollar, _, .nil, _ => ⟨dollar, rfl⟩
  | dollar, _, @TemplateText.char c _ hend hescape hhole h, hhead => by
    have hcurly : ¬ (c = '{' ∧ dollar = true) := fun ⟨hc, hd⟩ => hhead hd (congrArg some hc)
    have hstep : feed (.template dollar :: es) c = .ok (.template (c == '$') :: es) := by
      simp only [feed, if_neg hescape, if_neg hend, if_neg hcurly]
    rw [List.foldlM_cons, hstep]
    exact h.foldlM_feed es _ fun hsign => hhole (eq_of_beq hsign)
  | _, _, .escaped h, _ => h.foldlM_feed es false nofun
  | _, _, @TemplateText.hole inner cs hinner h, _ => by
    change ∃ last, (inner ++ '}' :: cs).foldlM feed (.hole :: .template false :: es) = _
    rw [List.foldlM_append, hinner.foldlM_feed (.hole :: .template false :: es) trivial]
    exact h.foldlM_feed es false nofun

end

end

/-- The machine reads the grammar. -/
theorem balanced_iff_balancedText {cs : List Char} : Balanced cs ↔ BalancedText cs :=
  ⟨fun h => remaining_of_foldlM h, fun h => h.foldlM_feed [] trivial⟩

/-- A bracket closes at a byte just if what stands between is balanced and the byte is its closing
bracket. There is one such byte, or else an error is answered. -/
theorem inside_iff_closesAt (b : Bracket) (text : List Char) :
    (∀ n, (inside b text).map byteLength = .ok n ↔ ClosesAt b text n) ∧
      ((∃! n, ClosesAt b text n) ∨
        (∃ f, inside b text = .error f) ∧ ∀ n, ¬ ClosesAt b text n) := by
  have hiff (n : Nat) : (inside b text).map byteLength = .ok n ↔ ClosesAt b text n := by
    constructor
    · intro h
      cases hcontent : inside b text with
      | error f =>
        rw [hcontent] at h
        cases h
      | ok content =>
      rw [hcontent] at h
      cases h
      obtain ⟨hbalanced, rest, rfl⟩ := inside_eq_ok_iff.mp hcontent
      exact ⟨content, rest, rfl, rfl, balanced_iff_balancedText.mp hbalanced⟩
    · rintro ⟨content, rest, rfl, rfl, hcontent⟩
      rw [inside_eq_ok_iff.mpr ⟨balanced_iff_balancedText.mpr hcontent, rest, rfl⟩]
      rfl
  refine ⟨hiff, ?_⟩
  simp only [← hiff]
  cases inside b text with
  | ok content => exact .inl ⟨byteLength content, rfl, fun n hn => (Except.ok.inj hn).symm⟩
  | error f => exact .inr ⟨⟨f, rfl⟩, fun n => nofun⟩

/-- A bracket in a string closes nothing. -/
example : (inside .square "'f(]' ] ]".toList).map byteLength = .ok 6 := by
  decide

end Nesting

end PugTemplate
