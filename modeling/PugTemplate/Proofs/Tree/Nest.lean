import PugTemplate.Proofs.Lex.Sign
import PugTemplate.Proofs.Text.Closed
import PugTemplate.Proofs.Tree.Forecast
import PugTemplate.Tree.Segment

/-!
# Streams inside streams

A text of a stream may hold tags, and each of them is a stream again. The texts are those that a
reader of the tree asks for, with lines joined as it joins them; each line of them is closed.
-/

namespace PugTemplate

/-- What is left of a stream somewhere. -/
def LeftOf (kept ts : List Token) : Prop :=
  ts <:+ kept ∧ ∃ ws, TokenStream ws ts

/-- A text of a stream and where it begins: lines behind pipes or one behind a tag, lines of markup,
and the block below a dot. -/
inductive TextOf (kept : List Token) : String → Location → Prop
  | lines {s : String} {loc : Location} {rest : List Token} (joins : Bool)
      (h : LeftOf kept (⟨.text s, loc⟩ :: rest)) : TextOf kept (s ++ (textRun joins rest).1) loc
  | markup {s : String} {loc : Location} {rest : List Token}
      (h : LeftOf kept (⟨.html s, loc⟩ :: rest)) :
      TextOf kept (joinLines (s :: (htmlRun rest).1)) loc
  | block {s raw : String} {k : Nat} {loc dot start : Location} {rest : List Token}
      (h : LeftOf kept (⟨.dot, dot⟩ :: ⟨.pipelessStart, start⟩ :: ⟨.text s, loc⟩ :: rest))
      (hrun : pipelessRun (⟨.text s, loc⟩ :: rest) = some (raw, k)) : TextOf kept raw loc

/-- The stream of a tag in a text. -/
def InTag (raw : String) (loc : Location) (inner : List Token) : Prop :=
  ∃ offset source, .tag offset source ∈ Piece.split 0 raw.toList ∧
    lexAt (String.ofList source) (loc.right (offset + 2)) = .ok inner

/-- The stream of a tag in a text of another stream. -/
def Nests (kept inner : List Token) : Prop :=
  ∃ raw loc, TextOf kept raw loc ∧ InTag raw loc inner

/-- Nothing is known of tokens, and nothing said of failures. -/
def noForecast : Forecast where
  knows _ := True
  fails _ := True
  reports _ _ _ _ := trivial

namespace Forecast.Prints

theorem linesClosed {S : Forecast} {t : Token} {raw : String} (h : S.Prints t raw) :
    LinesClosed raw.toList := by
  obtain ⟨first, more, -, hraw, hlines, -⟩ := h
  exact linesClosed_iff.mpr ⟨_, more, hraw, hlines⟩

end Forecast.Prints

/-- What begins below a dot, if it does not go on in the line. -/
theorem Forecast.Stretch.block_of_dot {S : Forecast} {ws : List Nat} {dot start : Location}
    {us : List Token} (h : S.Stretch ws (⟨.dot, dot⟩ :: ⟨.pipelessStart, start⟩ :: us)) :
    S.Block .dot ws us := by
  obtain hmore | ⟨_, _, heq, hblock⟩ := h.below rfl nofun
  · exact absurd hmore Forecast.Stretch.not_pipelessStart
  · obtain ⟨-, rfl⟩ := List.cons_eq_cons.mp heq
    exact hblock

/-- In each line of a text, the markers are closed. -/
theorem TextOf.linesClosed {kept : List Token} {raw : String} {loc : Location}
    (h : TextOf kept raw loc) : LinesClosed raw.toList := by
  have hstretch {ws : List Nat} {ts : List Token} (h : TokenStream ws ts) :
      noForecast.Stretch ws ts := ⟨h, fun _ _ => trivial⟩
  cases h with
  | lines joins h =>
    obtain ⟨-, ws, hs⟩ := h
    exact ((hstretch hs).prints_text joins).2.linesClosed
  | markup h =>
    obtain ⟨-, ws, hs⟩ := h
    exact (hstretch hs).prints_html.2.linesClosed
  | block h hrun =>
    obtain ⟨-, ws, hs⟩ := h
    obtain ⟨hbody, -⟩ := @Forecast.parsing_pipelessBody noForecast _ _ _ .nowhere
      (hstretch hs).block_of_dot
    obtain ⟨t, -, -, hprints⟩ := (hbody _ (by rw [pipelessBody, hrun]; rfl)).2.prints
    exact hprints.linesClosed

/-- A tag in a text with closed lines stands in one line. -/
theorem InTag.stream {raw : String} {loc : Location} {inner : List Token} (h : InTag raw loc inner)
    (hclosed : LinesClosed raw.toList) :
    TokenStream [] inner ∧ ∀ t ∈ inner, ∀ w, t.kind ≠ .indent w := by
  obtain ⟨offset, source, hpiece, hlex⟩ := h
  obtain ⟨first, more, hraw, hlines⟩ := linesClosed_iff.mp hclosed
  obtain ⟨hfirst, hmore⟩ := List.forall_mem_cons.mp hlines
  rw [hraw] at hpiece
  have hfeed : '\n' ∉ source :=
    (Piece.within_split hfirst hmore (Nat.le_of_eq (Nat.zero_add _)) _ hpiece).2
  refine ⟨Layout.stream_tokens Layout.nested_empty hlex, fun t ht w => ?_⟩
  refine Layout.not_indent_of_noFeed (fun hm => hfeed ?_) hlex w t ht
  obtain ⟨n, hn⟩ := Layout.reaches_skipLeading ⟨(String.ofList source).toList, loc.right (offset + 2)⟩
  rw [hn, String.toList_ofList] at hm
  exact List.mem_of_mem_drop hm

end PugTemplate
