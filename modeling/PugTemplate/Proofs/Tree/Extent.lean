import Mathlib.Data.List.Chain
import PugTemplate.Proofs.Lex.Sign
import PugTemplate.Proofs.Tree.Part
import PugTemplate.Tree.Segment

/-!
# The length of texts in tags

The reader of the tree puts a text together from tokens in a row. They were read one behind the
other, each line end from a line feed, so the text is no longer than what they were read from. Hence a
text inside a tag is shorter than the text that holds the tag.
-/

namespace PugTemplate

/-- A text that a stream begins with: lines behind pipes or one behind a tag, lines of markup, or
the block below a dot. -/
inductive TextFrom : List Token → String → Prop
  | lines {s : String} (loc : Location) {rest : List Token} (joins : Bool) :
      TextFrom (⟨.text s, loc⟩ :: rest) (s ++ (textRun joins rest).1)
  | markup {s : String} (loc : Location) {rest : List Token} :
      TextFrom (⟨.html s, loc⟩ :: rest) (joinLines (s :: (htmlRun rest).1))
  | block {raw : String} {k : Nat} {ts : List Token} (h : pipelessRun ts = some (raw, k)) :
      TextFrom ts raw

/-! ## Text in a row -/

/-- Between tokens that print something there is another one. -/
def PrintedApart : List Token → Prop :=
  List.IsChain fun t u => t.kind.printed?.isSome → u.kind.printed? = none

theorem PrintedApart.cons {t : Token} {ts : List Token} (ht : t.kind.printed? = none)
    (h : PrintedApart ts) : PrintedApart (t :: ts) :=
  List.isChain_cons.mpr ⟨fun u _ hprinted => by simp [ht] at hprinted, h⟩

theorem PrintedApart.append {first ts : List Token} (hfirst : ∀ t ∈ first, t.kind.printed? = none)
    (h : PrintedApart ts) : PrintedApart (first ++ ts) := by
  induction first with
  | nil => exact h
  | cons t first ih =>
    obtain ⟨ht, hfirst⟩ := List.forall_mem_cons.mp hfirst
    exact .cons ht (ih hfirst)

theorem TextLines.apart {lines ts : List Token} (hl : TextLines lines) (at_ : Location)
    (h : PrintedApart ts) : PrintedApart (lines ++ ⟨.pipelessEnd, at_⟩ :: ts) := by
  induction hl with
  | last s loc => exact List.isChain_cons_cons.mpr ⟨fun _ => rfl, h.cons rfl⟩
  | line s loc at' hl ih => exact List.isChain_cons_cons.mpr ⟨fun _ => rfl, ih.cons rfl⟩

theorem printed?_of_isAttribute {k : TokenKind} (h : k.isAttribute) : k.printed? = none := by
  cases k <;> first | rfl | exact nomatch h

theorem printed?_of_endsLine {k : TokenKind} (h : k.endsLine) : k.printed? = none := by
  cases k <;> first | rfl | exact nomatch h

theorem printed?_of_isReference {k : TokenKind} (h : k.isReference) : k.printed? = none := by
  cases k <;> first | rfl | exact nomatch h

theorem printed?_of_isSilent {k : TokenKind} (h : k.isSilent) : k.printed? = none :=
  Option.isNone_iff_eq_none.mp (Bool.and_eq_true_iff.mp h).2

theorem TokenStream.apart {ws : List Nat} {ts : List Token} (h : TokenStream ws ts) :
    PrintedApart ts := by
  induction h with
  | eos loc => exact List.isChain_singleton _
  | word ht _ ih => exact ih.cons (printed?_of_isSilent ht)
  | print _ _ _ he _ ih =>
    refine List.isChain_cons.mpr ⟨fun u hu _ => printed?_of_endsLine ?_, ih⟩
    rw [EndsLine, Option.mem_def.mp hu] at he
    exact he
  | indent _ _ ih | outdent _ ih => exact ih.cons rfl
  | attributes ha _ ih =>
    exact .cons rfl (.append (fun a h => printed?_of_isAttribute (ha a h)) (ih.cons rfl))
  | textBlock ht hl _ _ ih =>
    exact .cons (printed?_of_isSilent (TokenKind.isSilent_of_opensBlock ht))
      (.cons rfl (hl.apart _ ih))
  | filterBlock ha hl _ ih =>
    refine .cons rfl (.cons rfl (.append (fun a h => printed?_of_isAttribute (ha a h)) ?_))
    exact .cons rfl (.cons rfl (hl.apart _ ih))
  | reference ht _ ih => exact .cons (printed?_of_isReference ht) (ih.cons rfl)

/-! ## Lengths -/

/-- How many characters the text and the line ends take that a stream begins with. -/
def runLength : List Token → Nat
  | ⟨.text s, _⟩ :: ts | ⟨.html s, _⟩ :: ts => s.toList.length + runLength ts
  | ⟨.newline, _⟩ :: ts => runLength ts + 1
  | _ => 0

theorem length_toList_append (s t : String) :
    (s ++ t).toList.length = s.toList.length + t.toList.length := by
  rw [String.toList_append, List.length_append]

theorem length_lineFeed : "\n".toList.length = 1 := rfl

theorem length_textRun_le (joins : Bool) (ts : List Token) :
    (textRun joins ts).1.toList.length ≤ runLength ts := by
  fun_induction textRun joins ts
  case case1 hrun ih | case2 hrun ih =>
    rw [hrun] at ih
    dsimp only at ih
    simp only [runLength, length_toList_append, length_lineFeed]
    omega
  case case3 | case4 => exact Nat.zero_le _

theorem length_pipelessRun_le {ts : List Token} {raw : String} {k : Nat}
    (h : pipelessRun ts = some (raw, k)) : raw.toList.length ≤ runLength ts := by
  fun_induction pipelessRun ts generalizing raw k
  case case1 ih | case2 ih =>
    obtain ⟨⟨more, n⟩, hmore, heq⟩ := Option.map_eq_some_iff.mp h
    cases heq
    have := ih hmore
    simp only [runLength, length_toList_append, length_lineFeed]
    omega
  case case3 =>
    cases h
    exact Nat.zero_le _
  case case4 => cases h

/-- How many characters lines take, each with the line feed in front of it. -/
def linesLength : List String → Nat
  | [] => 0
  | line :: lines => line.toList.length + 1 + linesLength lines

theorem length_joinLines_le (line : String) (lines : List String) :
    (joinLines (line :: lines)).toList.length ≤ line.toList.length + linesLength lines := by
  have hfold (text : String) : (lines.foldl (fun text line =>
      if text.isEmpty then line else text ++ "\n" ++ line) text).toList.length ≤
        text.toList.length + linesLength lines := by
    induction lines generalizing text with
    | nil => exact Nat.le_refl _
    | cons next lines ih =>
      rw [List.foldl_cons]
      refine Nat.le_trans (ih _) ?_
      rw [linesLength]
      split
      next => omega
      next =>
        rw [length_toList_append, length_toList_append, length_lineFeed]
        omega
  exact hfold line

/-- Behind text no markup goes on in the same line. -/
theorem length_htmlRun_le {ts : List Token} (h : PrintedApart ts)
    (hhead : ∀ t ∈ ts.head?, t.kind.printed? = none) :
    linesLength (htmlRun ts).1 ≤ runLength ts := by
  fun_induction htmlRun ts
  case case1 => cases hhead _ rfl
  case case2 rest _ _ hrun ih =>
    obtain ⟨hnext, hrest⟩ := List.isChain_cons.mp (List.isChain_cons.mp h).2
    have hmore := ih hrest fun t ht => hnext t ht rfl
    rw [hrun] at hmore
    dsimp only at hmore
    rw [linesLength, runLength, runLength]
    omega
  case case3 => exact Nat.zero_le _

theorem TextFrom.length_le {ts : List Token} {raw : String} (h : TextFrom ts raw)
    (hts : PrintedApart ts) : raw.toList.length ≤ runLength ts := by
  cases h with
  | @lines s loc rest joins =>
    have := length_textRun_le joins rest
    rw [length_toList_append, runLength]
    exact Nat.add_le_add_left this _
  | markup =>
    obtain ⟨hnext, hrest⟩ := List.isChain_cons.mp hts
    have hlines := length_htmlRun_le hrest fun t ht => hnext t ht rfl
    exact Nat.le_trans (length_joinLines_le _ _) (Nat.add_le_add_left hlines _)
  | block h => exact length_pipelessRun_le h

/-! ## Tokens on the way -/

namespace Cursor

variable {c d : Cursor} {ts : List Token}

/-- A line further down is behind a line feed. -/
theorem length_lt_of_line_lt {n : Nat} {front : List Char} (hfront : front <+: c.rest)
    (hfeed : '\n' ∉ front) (hline : c.loc.line < (c.skip n).loc.line) :
    front.length + (c.skip n).rest.length < c.rest.length := by
  have hskipped : '\n' ∈ c.rest.take n := by
    by_contra hno
    rw [skip, Location.afterText_of_no_feed hno] at hline
    exact absurd hline (Nat.lt_irrefl _)
  have hlength : front.length < (c.rest.take n).length := by
    by_contra hle
    have hshort := List.prefix_of_prefix_length_le (List.take_prefix n c.rest) hfront (by omega)
    exact hfeed (hshort.subset hskipped)
  rw [List.length_take] at hlength
  rw [rest_skip, List.length_drop]
  omega

/-- Text, and the line ends and texts behind it, are no longer than what they were read from. -/
theorem Trail.runLength_le (h : Trail c ts d)
    (hfeed : ∀ t ∈ ts, ∀ s, t.kind.printed? = some s → '\n' ∉ s.toList) (hts : PrintedApart ts)
    {front : List Char} (hfront : front <+: c.rest) (hno : '\n' ∉ front)
    (hnext : front = [] ∨ ∀ t ∈ ts.head?, t.kind.printed? = none) :
    front.length + runLength ts ≤ c.rest.length := by
  induction h generalizing front with
  | arrive => exact hfront.length_le
  | @token c m d t ts hm hloc hk hn h ih =>
    obtain ⟨hprinted, hmore⟩ := List.forall_mem_cons.mp hfeed
    obtain ⟨hapart, hbehind⟩ := List.isChain_cons.mp hts
    obtain ⟨n, rfl⟩ := hm
    have hrest : (c.skip n).rest.length ≤ c.rest.length := by
      rw [rest_skip, List.length_drop]
      omega
    obtain ⟨kind, loc⟩ := t
    cases kind with
    | text s | html s =>
      obtain rfl := hnext.resolve_right fun hhead => nomatch hhead _ rfl
      obtain ⟨lead, hlead, hstart⟩ := hk
      obtain rfl := List.mem_singleton.mp hlead
      have := ih hmore hbehind hstart (hprinted s rfl) (.inr fun u hu => hapart u hu rfl)
      rw [runLength, List.length_nil]
      omega
    | newline =>
      have hlater := length_lt_of_line_lt hfront hno (hn rfl)
      have := ih hmore hbehind List.nil_prefix List.not_mem_nil (.inl rfl)
      rw [List.length_nil] at this
      rw [runLength]
      omega
    | _ => exact hfront.length_le

theorem Trail.of_append {first : List Token} (h : Trail c (first ++ ts) d) :
    ∃ m, c.Reaches m ∧ Trail m ts d := by
  induction first generalizing c with
  | nil => exact ⟨c, .refl c, h⟩
  | cons t first ih =>
    cases h with
    | token hm _ _ _ h =>
      obtain ⟨e, he, hts⟩ := ih h
      exact ⟨e, hm.trans he, hts⟩

end Cursor

/-- A text of a stream is no longer than what the stream was read from. -/
theorem TextFrom.length_le_of_lexAt {source raw : String} {loc : Location} {tokens ts : List Token}
    (hlex : lexAt source loc = .ok tokens) (hts : ts <:+ tokens) (h : TextFrom ts raw) :
    raw.toList.length ≤ source.toList.length := by
  have hapart : PrintedApart tokens := (Layout.stream_tokens Layout.nested_empty hlex).apart
  have hsigned := Layout.signed_tokens hlex
  have hfeed : ∀ t ∈ tokens, ∀ s, t.kind.printed? = some s → '\n' ∉ s.toList := by
    rintro ⟨kind, at_⟩ ht s hs
    obtain hends | ⟨m, -, hsign⟩ := hsigned _ ht
    · exact nomatch (printed?_of_endsLine hends).symm.trans hs
    · cases kind with
      | text | html =>
        cases hs
        exact hsign
      | _ => exact nomatch hs
  obtain ⟨first, rfl⟩ := hts
  obtain ⟨m, ⟨n, rfl⟩, htrail⟩ := ((reads_lexAt source loc).of_ok hlex).of_append
  have hrest : ((⟨source.toList, loc⟩ : Cursor).skip n).rest.length ≤ source.toList.length := by
    rw [Cursor.rest_skip, List.length_drop]
    exact Nat.sub_le _ _
  have hright : PrintedApart ts := (List.isChain_append.mp hapart).2.1
  have hrun := htrail.runLength_le (fun t ht => hfeed t (List.mem_append_right _ ht)) hright
    List.nil_prefix List.not_mem_nil (.inl rfl)
  rw [List.length_nil, Nat.zero_add] at hrun
  exact Nat.le_trans (h.length_le hright) (Nat.le_trans hrun hrest)

/-! ## Tags in text -/

namespace Piece

theorem mem_of_mem_prependLiteral {offset : Nat} {source cs : List Char} {ps : List Piece}
    (h : .tag offset source ∈ prependLiteral cs ps) : .tag offset source ∈ ps := by
  unfold prependLiteral at h
  split at h
  · exact List.mem_cons_of_mem _ ((List.mem_cons.mp h).resolve_left nofun)
  · exact (List.mem_cons.mp h).resolve_left nofun

/-- A tag is shorter than the text that holds it. -/
theorem length_lt_of_tag {start offset : Nat} {cs source : List Char}
    (h : .tag offset source ∈ split start cs) : source.length < cs.length := by
  fun_induction split start cs with
  | case1 => cases h
  | case2 start c cs _ ih =>
    have := ih (mem_of_mem_prependLiteral h)
    rw [List.length_drop] at this
    rw [List.length_cons]
    omega
  | case3 start c cs _ _ ih =>
    have := ih (mem_of_mem_prependLiteral h)
    rw [List.length_cons]
    omega
  | case4 => cases List.mem_singleton.mp h
  | case5 start c cs _ b escape _ content hinside ih =>
    obtain h | h := List.mem_cons.mp h
    · obtain ⟨rest, hrest⟩ := Nesting.inside_closing hinside
      have hlength := congrArg List.length hrest
      rw [List.length_tail, List.length_append, List.length_cons] at hlength
      have hsource : source = content := by
        unfold enclosed at h
        split at h
        · exact (Piece.tag.inj h).2
        · cases h
      rw [hsource, List.length_cons]
      omega
    · have := ih h
      rw [List.length_drop] at this
      rw [List.length_cons]
      omega

end Piece

end PugTemplate
