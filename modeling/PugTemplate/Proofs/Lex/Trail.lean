import PugTemplate.Lex.Keyword
import PugTemplate.Lex.Pipeless
import PugTemplate.Proofs.Text.Marker
import PugTemplate.Proofs.Text.Position

/-!
# Tokens on the way

A cursor moves forward only, and a token is placed where a cursor stands. A reading leaves a trail:
tokens one behind the other, each in front of the text it was read from.
-/

namespace PugTemplate

/-- The texts of which one stands where a token stands; a token that does not show what was read has
only the empty one. -/
def TokenKind.leads : TokenKind → List (List Char)
  | tag name => [name.toList]
  | id name => ['#' :: name.toList]
  | className name => ['.' :: name.toList]
  | text raw | html raw => [raw.toList]
  | attr name _ _ => [name.toList, '\'' :: (name.toList ++ ['\'']), '"' :: (name.toList ++ ['"'])]
  | comment _ _ => [['/', '/']]
  | _ => [[]]

/-- A text begins with what a token says it read. -/
def TokenKind.Begins (k : TokenKind) (cs : List Char) : Prop :=
  ∃ lead ∈ k.leads, lead <+: cs

/-- A token that shows nothing of what was read, nor says that a line ended. -/
def TokenKind.isMute : TokenKind → Bool
  | tag _ | id _ | className _ | text _ | html _ | attr _ _ _ | comment _ _ | newline => false
  | _ => true

theorem TokenKind.begins_of_isMute {k : TokenKind} (hk : k.isMute) (cs : List Char) :
    k.Begins cs := by
  refine ⟨[], ?_, List.nil_prefix⟩
  cases k <;> first | exact List.mem_singleton_self _ | exact nomatch hk

theorem TokenKind.ne_newline_of_isMute {k : TokenKind} (hk : k.isMute) : k ≠ .newline := by
  rintro rfl
  exact nomatch hk

theorem TokenKind.Begins.append {k : TokenKind} {cs : List Char} (h : k.Begins cs)
    (more : List Char) : k.Begins (cs ++ more) := by
  obtain ⟨lead, hlead, hcs⟩ := h
  exact ⟨lead, hlead, hcs.trans (List.prefix_append _ _)⟩

namespace Cursor

/-! ## Moving forward -/

/-- A place behind another, with some text skipped. -/
def Reaches (c d : Cursor) : Prop :=
  ∃ n, d = c.skip n

theorem reaches_skip (c : Cursor) (n : Nat) : c.Reaches (c.skip n) :=
  ⟨n, rfl⟩

theorem Reaches.refl (c : Cursor) : c.Reaches c :=
  ⟨0, c.skip_zero.symm⟩

theorem Reaches.trans {c d e : Cursor} (h : c.Reaches d) (h' : d.Reaches e) : c.Reaches e := by
  obtain ⟨m, rfl⟩ := h
  obtain ⟨n, rfl⟩ := h'
  exact ⟨m + n, c.skip_skip m n⟩

theorem Reaches.skip {c d : Cursor} (h : c.Reaches d) (n : Nat) : c.Reaches (d.skip n) :=
  h.trans (d.reaches_skip n)

theorem Reaches.skipLine {c d : Cursor} (h : c.Reaches d) : c.Reaches d.skipLine :=
  h.skip _

theorem Reaches.skipIndent {c d : Cursor} (h : c.Reaches d) : c.Reaches d.skipIndent :=
  h.skip _

theorem reaches_keyword? {c d : Cursor} {word : String} (h : c.keyword? word = some d) :
    c.Reaches d :=
  ⟨_, (keyword?_eq_skip h).1⟩

theorem reaches_inside {c d : Cursor} {b : Bracket} {content : List Char}
    (h : c.inside b = .ok (content, d)) : c.Reaches d := by
  unfold inside at h
  split at h
  · cases h
    exact c.reaches_skip _
  · exact nomatch h

/-- The end of the text. -/
def last (c : Cursor) : Cursor :=
  ⟨[], c.loc.afterText c.rest⟩

theorem reaches_last (c : Cursor) : c.Reaches c.last :=
  ⟨c.rest.length, by simp [skip, last]⟩

theorem Reaches.last_eq {c d : Cursor} (h : c.Reaches d) : d.last = c.last := by
  obtain ⟨n, rfl⟩ := h
  simp [Cursor.skip, last, ← Location.afterText_append]

theorem Reaches.line_le {c d : Cursor} (h : c.Reaches d) : c.loc.line ≤ d.loc.line := by
  obtain ⟨n, rfl⟩ := h
  exact c.loc.line_le_afterText _

theorem line_lt_skip (c : Cursor) (h : c.rest.head? = some '\n') :
    c.loc.line < (c.skip 1).loc.line := by
  obtain ⟨cs, hcs⟩ := List.head?_eq_some_iff.mp h
  simp [Cursor.skip, hcs, Location.after]

/-- The same place in a text with more at its end. -/
def extend (c : Cursor) (more : List Char) : Cursor :=
  ⟨c.rest ++ more, c.loc⟩

/-- The text in brackets is the text behind the first of them, cut off before the second. -/
theorem extend_of_inside {c d : Cursor} {b : Bracket} {content : List Char}
    (h : c.inside b = .ok (content, d)) :
    ∃ more, (⟨content, c.loc⟩ : Cursor).extend more = c ∧
      ((⟨content, c.loc⟩ : Cursor).last.extend more).Reaches d := by
  unfold inside at h
  split at h
  next hc =>
    cases h
    obtain ⟨rest, hrest⟩ := Nesting.inside_closing hc
    refine ⟨b.closing :: rest, ?_, ?_⟩
    · simp [extend, ← hrest]
    · refine ⟨1, ?_⟩
      rw [← Cursor.skip_skip]
      simp [extend, last, skip, hrest]
  · cases h

theorem Reaches.extend {c d : Cursor} (h : c.Reaches d) (more : List Char) :
    (c.extend more).Reaches (d.extend more) := by
  obtain ⟨n, rfl⟩ := h
  by_cases hn : n ≤ c.rest.length
  · refine ⟨n, ?_⟩
    simp only [Cursor.extend, Cursor.skip, List.drop_append_of_le_length hn,
      List.take_append_of_le_length hn]
  -- a longer skip ends with the text itself
  · have hle : c.rest.length ≤ n := Nat.le_of_not_le hn
    refine ⟨c.rest.length, ?_⟩
    simp [Cursor.extend, Cursor.skip, List.take_of_length_le hle, List.drop_of_length_le hle]

/-! ## Positions ahead -/

/-- The position of some place that can be reached. -/
def Ahead (c : Cursor) (loc : Location) : Prop :=
  ∃ d, c.Reaches d ∧ loc = d.loc

theorem Reaches.ahead {c d : Cursor} (h : c.Reaches d) : c.Ahead d.loc :=
  ⟨d, h, rfl⟩

theorem Reaches.ahead_of {c d : Cursor} {loc : Location} (h : c.Reaches d) (hd : d.Ahead loc) :
    c.Ahead loc := by
  obtain ⟨e, he, rfl⟩ := hd
  exact (h.trans he).ahead

theorem Ahead.extend {c : Cursor} {loc : Location} (h : c.Ahead loc) (more : List Char) :
    (c.extend more).Ahead loc := by
  obtain ⟨d, hd, rfl⟩ := h
  exact ⟨d.extend more, hd.extend more, rfl⟩

theorem ahead_afterText {c : Cursor} {before : List Char} (h : before <+: c.rest) :
    c.Ahead (c.loc.afterText before) := by
  refine ⟨c.skip before.length, c.reaches_skip _, ?_⟩
  rw [skip, ← List.prefix_iff_eq_take.mp h]

theorem ahead_nestingError {c : Cursor} {f : Nesting.Failure} (h : f.before <+: c.rest) :
    c.Ahead (c.nestingError f).loc :=
  ahead_afterText h

theorem ahead_of_inside {c : Cursor} {b : Bracket} {e : LexError} (h : c.inside b = .error e) :
    c.Ahead e.loc := by
  unfold inside at h
  split at h
  · exact nomatch h
  next f hf =>
    cases h
    exact ahead_nestingError (Nesting.inside_before hf)

/-! ## Tokens on the way -/

/-- Tokens that stand in this order on the way from one place to another. A line end is behind a line
feed. -/
inductive Trail : Cursor → List Token → Cursor → Prop where
  | arrive {c d : Cursor} (h : c.Reaches d) : Trail c [] d
  | token {c m d : Cursor} {t : Token} {ts : List Token} (hm : c.Reaches m) (hloc : t.loc = m.loc)
      (hk : t.kind.Begins m.rest) (hn : t.kind = .newline → c.loc.line < m.loc.line)
      (h : Trail m ts d) : Trail c (t :: ts) d

theorem Reaches.trail {c d e : Cursor} {ts : List Token} (h : c.Reaches d) (ht : Trail d ts e) :
    Trail c ts e := by
  cases ht with
  | arrive he => exact .arrive (h.trans he)
  | token hm hloc hk hn ht =>
    exact .token (h.trans hm) hloc hk (fun heq => Nat.lt_of_le_of_lt h.line_le (hn heq)) ht

namespace Trail

variable {c d e : Cursor} {ts us : List Token}

theorem reaches (h : Trail c ts d) : c.Reaches d := by
  induction h with
  | arrive h => exact h
  | token hm _ _ _ _ ih => exact hm.trans ih

/-- Where one of the tokens stands. -/
theorem exists_reaches {t : Token} (h : Trail c ts d) (ht : t ∈ ts) :
    ∃ m, c.Reaches m ∧ t.loc = m.loc ∧ t.kind.Begins m.rest ∧
      (t.kind = .newline → c.loc.line < m.loc.line) := by
  induction h with
  | arrive => exact nomatch ht
  | token hm hloc hk hn _ ih =>
    obtain rfl | ht := List.mem_cons.mp ht
    · exact ⟨_, hm, hloc, hk, hn⟩
    · obtain ⟨m, hthere, hloc, hk, hn⟩ := ih ht
      exact ⟨m, hm.trans hthere, hloc, hk, fun heq => Nat.lt_of_le_of_lt hm.line_le (hn heq)⟩

theorem append (h : Trail c ts d) (h' : Trail d us e) : Trail c (ts ++ us) e := by
  induction h with
  | arrive h => exact h.trail h'
  | token hm hloc hk hn _ ih => exact .token hm hloc hk hn (ih h')

theorem later (h : Trail c ts d) (h' : d.Reaches e) : Trail c ts e := by
  simpa using h.append (.arrive h')

/-- One token where the way begins. -/
theorem cons {kind : TokenKind} (hk : kind.Begins c.rest) (hn : kind ≠ .newline)
    (h : Trail c ts d) : Trail c (⟨kind, c.loc⟩ :: ts) d :=
  .token (.refl c) rfl hk (fun heq => absurd heq hn) h

theorem cons_mute {kind : TokenKind} (hk : kind.isMute) (h : Trail c ts d) :
    Trail c (⟨kind, c.loc⟩ :: ts) d :=
  .cons (kind.begins_of_isMute hk _) (kind.ne_newline_of_isMute hk) h

/-- The end of a line, behind it. -/
theorem newline {m : Cursor} (hm : c.Reaches m) (hl : c.loc.line < m.loc.line) (h : Trail m ts d) :
    Trail c (⟨.newline, m.loc⟩ :: ts) d :=
  .token hm rfl ⟨[], List.mem_singleton_self _, List.nil_prefix⟩ (fun _ => hl) h

theorem extend (h : Trail c ts d) (more : List Char) : Trail (c.extend more) ts (d.extend more) := by
  induction h with
  | arrive h => exact .arrive (h.extend more)
  | token hm hloc hk hn _ ih => exact .token (hm.extend more) hloc (hk.append more) hn ih

end Trail

end Cursor

namespace Cursor

/-- A reading from some place: its answer is as stated, or it fails ahead of that place. -/
def Reads {α : Type} (c : Cursor) (p : α → Prop) : Except LexError α → Prop
  | .ok a => p a
  | .error e => c.Ahead e.loc

namespace Reads

variable {α β : Type} {c d : Cursor} {p : α → Prop} {q : β → Prop}

theorem bind {x : Except LexError α} {f : α → Except LexError β} (hx : c.Reads p x)
    (hf : ∀ a, p a → c.Reads q (f a)) : c.Reads q (x >>= f) := by
  cases x with
  | ok a => exact hf a hx
  | error e => exact hx

theorem of_ok {x : Except LexError α} {a : α} (hx : c.Reads p x) (h : x = .ok a) : p a := by
  rw [h] at hx
  exact hx

theorem of_error {x : Except LexError α} {e : LexError} (hx : c.Reads p x) (h : x = .error e) :
    c.Ahead e.loc := by
  rw [h] at hx
  exact hx

theorem mono {p' : α → Prop} {x : Except LexError α} (hx : c.Reads p x) (hp : ∀ a, p a → p' a) :
    c.Reads p' x := by
  cases x with
  | ok a => exact hp a hx
  | error e => exact hx

/-- What is read further on is read from here. -/
theorem of_reaches {x : Except LexError α} (h : c.Reaches d) (hx : d.Reads p x) : c.Reads p x := by
  cases x with
  | ok a => exact hx
  | error e => exact h.ahead_of hx

end Reads

/-- Markers are looked for in text within one line. -/
theorem reads_checkMarkers {c : Cursor} {text : List Char} (ht : text <+: c.rest)
    (hfeed : '\n' ∉ text) : c.Reads (fun _ => True) (checkMarkers c.loc text) := by
  unfold checkMarkers
  split
  next v offset hb =>
    obtain ⟨before, hbefore, rfl⟩ := Piece.offset_of_firstBroken hb
    have hno : '\n' ∉ before := fun hm => hfeed (hbefore.subset hm)
    show c.Ahead (c.loc.right _)
    rw [Nat.zero_add, ← Location.afterText_of_no_feed hno]
    exact ahead_afterText (hbefore.trans ht)
  next => trivial

/-- What a rule reads: tokens on the way to where it stops. -/
abbrev ReadsOn (c : Cursor) (r : Reading) : Prop :=
  c.Reads (fun r => Trail c r.1 r.2) r

theorem ReadsOn.of_reaches {c d : Cursor} {r : Reading} (h : c.Reaches d) (hr : d.ReadsOn r) :
    c.ReadsOn r :=
  (Reads.of_reaches h hr).mono fun _ ht => h.trail ht

end Cursor

/-! ## Places in the source -/

/-- At a byte offset of a text: the token is placed there, and the text goes on with what the token
says it read. -/
def Token.StandsAt (text : List Char) (t : Token) (offset : Nat) : Prop :=
  ∃ before rest, text = before ++ rest ∧ byteLength before = offset ∧
    t.loc = Location.behind before ∧ t.kind.Begins rest

namespace Cursor

/-- A cursor stands in a text where its position says. -/
def StandsBehind (c : Cursor) (text before : List Char) : Prop :=
  text = before ++ c.rest ∧ c.loc = Location.behind before

variable {c d : Cursor} {text before : List Char}

theorem StandsBehind.reaches (hc : c.StandsBehind text before) (h : c.Reaches d) :
    ∃ more, d.StandsBehind text (before ++ more) := by
  obtain ⟨n, rfl⟩ := h
  obtain ⟨htext, hloc⟩ := hc
  refine ⟨c.rest.take n, ?_, ?_⟩
  · rw [rest_skip, List.append_assoc, List.take_append_drop, htext]
  · rw [← Location.afterText_start, Location.afterText_append, Location.afterText_start, ← hloc]
    rfl

/-- The offsets of tokens on the way never decrease. -/
theorem Trail.offsets {ts : List Token} (h : Trail c ts d) (hc : c.StandsBehind text before) :
    ∃ offsets : List Nat, (byteLength before :: offsets).Pairwise (· ≤ ·) ∧
      List.Forall₂ (Token.StandsAt text) ts offsets := by
  induction h generalizing before with
  | arrive => exact ⟨[], List.pairwise_singleton _ _, .nil⟩
  | token hm hloc hk _ _ ih =>
    obtain ⟨more, hthere⟩ := hc.reaches hm
    obtain ⟨offsets, hsorted, hstand⟩ := ih hthere
    have hle : byteLength before ≤ byteLength (before ++ more) := by
      rw [byteLength_append]
      exact Nat.le_add_right _ _
    refine ⟨byteLength (before ++ more) :: offsets, ?_, .cons ?_ hstand⟩
    · refine List.pairwise_cons.mpr ⟨List.forall_mem_cons.mpr ⟨hle, fun o ho => ?_⟩, hsorted⟩
      exact Nat.le_trans hle ((List.pairwise_cons.mp hsorted).1 o ho)
    · exact ⟨before ++ more, _, hthere.1, rfl, hloc.trans hthere.2, hk⟩

theorem standsBehind_start (text : List Char) : (⟨text, .start⟩ : Cursor).StandsBehind text [] :=
  ⟨rfl, rfl⟩

end Cursor

end PugTemplate
