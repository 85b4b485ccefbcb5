import PugTemplate.Proofs.Text.Nesting

/-!
# Ways through a text

`Passes` follows the nesting machine through a text that keeps its commas inside something. Such a
text is a whole wherever it stands: in brackets, in a row of parts between commas, in a hole.
-/

namespace PugTemplate

namespace Nesting

/-- What is open in front of a text and behind it. On the way, no comma stands outside everything. -/
inductive Passes : List Enclosure → List Char → List Enclosure → Prop where
  | nil (open_ : List Enclosure) : Passes open_ [] open_
  | cons {open_ mid inner : List Enclosure} {c : Char} {cs : List Char} (hc : feed open_ c = .ok mid)
      (hcomma : c = ',' → open_ ≠ []) (h : Passes mid cs inner) : Passes open_ (c :: cs) inner

/-- What lies around makes no difference to a character. -/
theorem feed_around {open_ inner around : List Enclosure} {c : Char} (ho : Outside around)
    (h : feed open_ c = .ok inner) : feed (open_ ++ around) c = .ok (inner ++ around) := by
  cases open_ with
  | nil => exact feed_of_nil ho h
  | cons e es =>
    rw [feed_append, h]
    rfl

namespace Passes

variable {open_ mid inner around : List Enclosure} {cs ds rest : List Char}

theorem append (h : Passes open_ cs mid) (h' : Passes mid ds inner) :
    Passes open_ (cs ++ ds) inner := by
  induction h with
  | nil => exact h'
  | cons hc hcomma _ ih => exact .cons hc hcomma (ih h')

/-- Inside something, any character may be a comma. -/
theorem inside {e : Enclosure} {c : Char} (hc : feed (e :: open_) c = .ok mid)
    (h : Passes mid cs inner) : Passes (e :: open_) (c :: cs) inner :=
  .cons hc (fun _ => List.cons_ne_nil e open_) h

/-- The machine reads the text and ends where that says. -/
theorem foldlM_feed (h : Passes open_ cs inner) : cs.foldlM feed open_ = .ok inner := by
  induction h with
  | nil => rfl
  | cons hc _ _ ih =>
    rw [List.foldlM_cons, hc]
    exact ih

theorem framed (ho : Outside around) (h : Passes open_ cs inner) :
    Passes (open_ ++ around) cs (inner ++ around) := by
  induction h with
  | nil => exact .nil _
  | cons hc hcomma _ ih =>
    exact .cons (feed_around ho hc) (fun heq => List.append_ne_nil_of_left_ne_nil (hcomma heq) _) ih

/-! ### In brackets -/

/-- A bracket around a text stays open up to its end. -/
theorem untilClosed {b : Bracket} {content : List Char} (h : Passes open_ cs inner)
    (hrest : untilClosed (inner ++ [.bracket b]) rest = .ok content) :
    untilClosed (open_ ++ [.bracket b]) (cs ++ rest) = .ok (cs ++ content) := by
  induction h with
  | nil => exact hrest
  | @cons open_ mid inner c cs hc _ _ ih =>
    have hfeed : feed (open_ ++ [.bracket b]) c = .ok (mid ++ [.bracket b]) :=
      feed_around trivial hc
    have hcontent := ih hrest
    obtain ⟨e, es, hmid⟩ := List.exists_cons_of_ne_nil
      (List.append_ne_nil_of_right_ne_nil mid (List.cons_ne_nil (Enclosure.bracket b) []))
    rw [hmid] at hfeed hcontent
    rw [List.cons_append, Nesting.untilClosed, hfeed]
    dsimp only
    rw [hcontent]
    rfl

theorem inside_closing (b : Bracket) (h : Passes [] cs []) (rest : List Char) :
    Nesting.inside b (cs ++ b.closing :: rest) = .ok cs := by
  have hclose : Nesting.untilClosed [.bracket b] (b.closing :: rest) = .ok [] := by
    cases b <;> rfl
  have hcontent := h.untilClosed (b := b) hclose
  rwa [List.append_nil] at hcontent

/-- What stands before the bracket that is waited for is passed inside anything else. -/
theorem of_untilClosed (es : List Enclosure) {b : Bracket} {content : List Char} {e : Enclosure}
    {around : List Enclosure} (he : Outside (e :: around))
    (h : Nesting.untilClosed (es ++ [.bracket b]) cs = .ok content) :
    Passes (es ++ e :: around) content (e :: around) := by
  induction cs generalizing es content with
  | nil => cases h
  | cons c cs ih =>
    unfold Nesting.untilClosed at h
    split at h
    next => cases h
    next hf =>
      cases h
      obtain ⟨rfl, -, -⟩ | ⟨es', hes, -⟩ := feed_outermost hf
      · exact .nil _
      · exact absurd hes (by simp)
    next hf =>
      obtain ⟨-, hes, -⟩ | ⟨es', hes, hfeed⟩ := feed_outermost hf
      · cases hes
      rw [hes] at h
      split at h
      next content' hc =>
        cases h
        refine .cons (hfeed (e :: around) he) (fun _ => ?_) (ih es' hc)
        exact List.append_ne_nil_of_right_ne_nil es (List.cons_ne_nil e around)
      next => cases h

end Passes

/-! ## Parts between commas -/

/-- No part ends on the way. -/
theorem Passes.commaParts {open_ inner : List Enclosure} {cs rest p : List Char}
    {ps : List (List Char)} (h : Passes open_ cs inner) (hrest : commaParts inner rest = p :: ps) :
    commaParts open_ (cs ++ rest) = (cs ++ p) :: ps := by
  induction h with
  | nil => exact hrest
  | cons hc hcomma _ ih =>
    rw [List.cons_append, Nesting.commaParts, if_neg fun hand => hcomma hand.1 hand.2, hc]
    dsimp only
    rw [ih hrest]
    rfl

/-! ## Characters that open and close nothing -/

/-- The brackets, the marks of literals and the comma. -/
def loud : List Char :=
  ['(', ')', '[', ']', '\x7b', '\x7d', '\'', '"', '`', ',']

def isQuiet (c : Char) : Bool :=
  c ∉ loud

/-- Of a class of characters without a loud one, every character is quiet. -/
theorem isQuiet_of {p : Char → Bool} (hp : loud.any p = false) {c : Char} (h : p c) :
    isQuiet c :=
  decide_eq_true fun hc => List.any_eq_false.mp hp c hc h

theorem feed_of_isQuiet {open_ : List Enclosure} {c : Char} (ho : Outside open_) (hc : isQuiet c) :
    feed open_ c = .ok open_ := by
  simp only [isQuiet, loud, List.mem_cons, not_or, decide_eq_true_eq, List.not_mem_nil,
    not_false_eq_true, and_true] at hc
  simp [feed_of_outside ho, feedPlain, Bracket.ofOpening?, hc]

theorem passes_of_isQuiet {open_ : List Enclosure} {cs : List Char} (ho : Outside open_)
    (h : ∀ c ∈ cs, isQuiet c) : Passes open_ cs open_ := by
  induction cs with
  | nil => exact .nil open_
  | cons c cs ih =>
    obtain ⟨hc, hcs⟩ := List.forall_mem_cons.mp h
    refine .cons (feed_of_isQuiet ho hc) ?_ (ih hcs)
    rintro rfl
    exact nomatch hc

end Nesting

end PugTemplate
