import PugTemplate.Proofs.Lex.Local
import PugTemplate.Proofs.Text.Closed
import PugTemplate.Proofs.Tree.Embedded
import PugTemplate.Template.Basic

/-!
# Text as it is written

A backslash before each marker makes a text plain, and nothing else has to be done: no backslash of
the text itself is taken away, and no marker arises where none was. So the line of such a text is a
template whose page is that text. Main statement: `render_literal`.
-/

namespace PugTemplate

/-! ## Escaped text -/

namespace Piece

/-- A text with a backslash before each marker. -/
def escapeMarkers : List Char → List Char
  | [] => []
  | c :: cs => if (marker? (c :: cs)).isSome then '\\' :: c :: escapeMarkers cs
    else c :: escapeMarkers cs

theorem escapeMarkers_of_marker {c : Char} {cs : List Char} {r : Bracket × Bool}
    (h : marker? (c :: cs) = some r) : escapeMarkers (c :: cs) = '\\' :: c :: escapeMarkers cs := by
  rw [escapeMarkers, h]
  rfl

theorem escapeMarkers_of_none {c : Char} {cs : List Char} (h : marker? (c :: cs) = none) :
    escapeMarkers (c :: cs) = c :: escapeMarkers cs := by
  rw [escapeMarkers, h]
  rfl

/-- No marker is escaped in the middle, so none begins behind a character where none began before. -/
theorem marker?_cons_escapeMarkers {c : Char} {cs : List Char} (h : marker? (c :: cs) = none) :
    marker? (c :: escapeMarkers cs) = none := by
  cases cs with
  | nil => exact h
  | cons d ds =>
    cases hd : marker? (d :: ds) with
    | some r =>
      rw [escapeMarkers_of_marker hd, marker?_cons_cons]
      unfold marker?
      grind
    | none =>
      rw [escapeMarkers_of_none hd, marker?_cons_cons, ← marker?_cons_cons c d ds]
      exact h

/-- No marker begins an escaped text. -/
theorem marker?_escapeMarkers (cs : List Char) : marker? (escapeMarkers cs) = none := by
  cases cs with
  | nil => rfl
  | cons c cs =>
    cases hm : marker? (c :: cs) with
    | some r =>
      rw [escapeMarkers_of_marker hm]
      rfl
    | none =>
      rw [escapeMarkers_of_none hm]
      exact marker?_cons_escapeMarkers hm

theorem prependLiteral_literalPieces {cs : List Char} (hcs : cs ≠ []) (ds : List Char) :
    prependLiteral cs (literalPieces ds) = literalPieces (cs ++ ds) := by
  have hne : cs ++ ds ≠ [] := fun h => hcs (List.append_eq_nil_iff.mp h).1
  unfold literalPieces
  rw [if_neg hne]
  split
  next h =>
    rw [h, List.append_nil]
    rfl
  next => rfl

/-- The second character of a marker is not the first one of another. -/
theorem marker?_of_second {x y : Char} (h : [x, y] ∈ markers) (cs : List Char) :
    marker? (y :: cs) = none := by
  have hmarkers : x = '#' ∧ y = '\x7b' ∨ x = '!' ∧ y = '\x7b' ∨ x = '#' ∧ y = '[' := by
    simpa [markers] using h
  obtain ⟨-, rfl⟩ | ⟨-, rfl⟩ | ⟨-, rfl⟩ := hmarkers
  · rfl
  · rfl
  · rfl

/-- An escaped text is cut into the text that it stands for. -/
theorem split_escapeMarkers (offset : Nat) (cs : List Char) :
    split offset (escapeMarkers cs) = literalPieces cs := by
  match cs with
  | [] => rw [escapeMarkers, split, literalPieces, if_pos rfl]
  | c :: cs =>
    cases hm : marker? (c :: cs) with
    | none =>
      have hslash : ¬ (c = '\\' ∧ (marker? (escapeMarkers cs)).isSome) := by
        rw [marker?_escapeMarkers]
        simp
      rw [escapeMarkers_of_none hm, split, if_neg hslash, marker?_cons_escapeMarkers hm]
      dsimp only
      rw [split_escapeMarkers, prependLiteral_literalPieces (List.cons_ne_nil _ _)]
      rfl
    | some r =>
      obtain ⟨x, y, rest, heq, hxy⟩ := marker?_eq_some hm
      obtain ⟨rfl, rfl⟩ := List.cons_eq_cons.mp heq
      have hslash : '\\' = '\\' ∧ (marker? (c :: y :: escapeMarkers rest)).isSome := by
        rw [marker?_cons_cons, ← marker?_cons_cons c y rest, hm]
        exact ⟨rfl, rfl⟩
      rw [escapeMarkers_of_marker hm, escapeMarkers_of_none (marker?_of_second hxy rest), split,
        if_pos hslash]
      show prependLiteral [c, y] (split (offset + 3) (escapeMarkers rest)) = _
      rw [split_escapeMarkers, prependLiteral_literalPieces (List.cons_ne_nil _ _)]
      rfl
termination_by cs.length

theorem mem_escapeMarkers {c : Char} {cs : List Char} (h : c ∈ escapeMarkers cs) :
    c = '\\' ∨ c ∈ cs := by
  induction cs with
  | nil => exact nomatch h
  | cons d cs ih =>
    rw [escapeMarkers] at h
    split at h <;> grind

end Piece

/-! ## The line of a text -/

/-- A template of one line that stands for a text. -/
def literalLine (s : String) : String :=
  "| " ++ String.ofList (Piece.escapeMarkers s.toList)

theorem toList_literalLine (s : String) :
    (literalLine s).toList = '|' :: ' ' :: Piece.escapeMarkers s.toList := by
  simp [literalLine]

namespace Rule

/-- Text behind a pipe and a space reaches to the end of its line. -/
theorem read_pipe (width : Nat) (loc : Location) {cs : List Char} (hfeed : '\n' ∉ cs)
    (hmarkers : Piece.firstBroken? (Piece.split 0 cs) = none) :
    ∃ at_ stop, read width ⟨'|' :: ' ' :: cs, loc⟩ =
      .ok ([⟨.text (String.ofList cs), at_⟩], ⟨[], stop⟩) := by
  let c : Cursor := ⟨'|' :: ' ' :: cs, loc⟩
  have hread : read width c = restAsText .text (c.skip 2) := by
    rw [← c.skip_skip 1 1]
    exact read_eq_of_before 26 rfl (before_of_head rfl (by decide)) rfl
  have hline : (c.skip 2).line = cs :=
    List.takeWhile_eq_self_iff.mpr fun x hx => decide_eq_true fun h => hfeed (h ▸ hx)
  have hcheck : checkMarkers (c.skip 2).loc cs = .ok () := by
    rw [checkMarkers, hmarkers]
  have hend : (c.skip 2).skipLine.rest = [] := by
    rw [Cursor.skipLine, hline]
    exact List.drop_length
  refine ⟨(c.skip 2).loc, (c.skip 2).skipLine.loc, hread.trans ?_⟩
  rw [restAsText, hline, hcheck, ← hend]
  rfl

end Rule

theorem lex_literalLine {s : String} (hfeed : '\n' ∉ s.toList) (hreturn : '\r' ∉ s.toList) :
    ∃ loc stop, lex (literalLine s) =
      .ok [⟨.text (String.ofList (Piece.escapeMarkers s.toList)), loc⟩, ⟨.eos, stop⟩] := by
  have hescaped {c : Char} (hc : c ≠ '\\') (h : c ∉ s.toList) :
      c ∉ Piece.escapeMarkers s.toList :=
    fun hmem => (Piece.mem_escapeMarkers hmem).elim hc h
  have hnormal : normalize (literalLine s).toList = '|' :: ' ' :: Piece.escapeMarkers s.toList := by
    rw [toList_literalLine, normalize_eq_self]
    · simp [hescaped (c := '\r') (by decide) hreturn]
    · rintro ⟨⟩
  have hmarkers : Piece.firstBroken? (Piece.split 0 (Piece.escapeMarkers s.toList)) = none := by
    rw [Piece.split_escapeMarkers, Piece.literalPieces]
    split <;> rfl
  obtain ⟨loc, stop, hread⟩ := Rule.read_pipe 0 .start (hescaped (by decide) hfeed) hmarkers
  have hleading : Layout.skipLeading ⟨'|' :: ' ' :: Piece.escapeMarkers s.toList, .start⟩ =
      ⟨'|' :: ' ' :: Piece.escapeMarkers s.toList, .start⟩ := by
    rw [Layout.skipLeading, if_neg (by rintro ⟨⟨⟩, -⟩)]
    exact Cursor.skip_zero _
  refine ⟨loc, stop, ?_⟩
  rw [lex, normalizeText, hnormal, lexAt, String.toList_ofList, hleading,
    Layout.tokens_of_ne (List.cons_ne_nil _ _),
    Layout.step_of_read (l := .empty) rfl (by decide) hread]
  show (_ ++ ·) <$> Layout.empty.tokens ⟨[], stop⟩ = _
  rw [Layout.tokens, if_pos rfl]
  rfl

theorem segmentsAt_escapeMarkers (s : String) (loc : Location) :
    segmentsAt (String.ofList (Piece.escapeMarkers s.toList)) loc = .ok (literalSegments s) := by
  rw [segmentsAt, String.toList_ofList, Piece.split_escapeMarkers, mapM_literalPieces]

/-- The node that an escaped text is. -/
def literalNode (loc : Location) (s : String) : Node :=
  .text loc (String.ofList (Piece.escapeMarkers s.toList)) (literalSegments s)

theorem parseSource_literalLine {s : String} (hfeed : '\n' ∉ s.toList)
    (hreturn : '\r' ∉ s.toList) (options : Options) :
    ∃ loc, parseSource options (literalLine s) = .ok [literalNode loc s] := by
  obtain ⟨loc, stop, hlex⟩ := lex_literalLine hfeed hreturn
  have hstrip : (lex (literalLine s)).bind options.comments.strip =
      .ok [⟨.text (String.ofList (Piece.escapeMarkers s.toList)), loc⟩, ⟨.eos, stop⟩] := by
    rw [hlex]
    rfl
  have hparse : parseTokens [⟨.text (String.ofList (Piece.escapeMarkers s.toList)), loc⟩,
      ⟨.eos, stop⟩] = .ok [literalNode loc s] := by
    simp [parseTokens, readTokens, readDocument, Node.read, textRun, TreeContext.textNode,
      segmentsAt_escapeMarkers, literalNode, bind, Except.bind, pure, Except.pure]
  refine ⟨loc, ?_⟩
  rw [parseSource, hstrip]
  dsimp only
  rw [hparse]

/-! ## The page -/

theorem link_literalNode (set : TemplateSet) (options : Options) (path : String) (loc : Location)
    (s : String) : link set options path [literalNode loc s] = .ok ⟨[literalNode loc s], []⟩ := by
  rw [link, Linking.linkTree]
  rfl

theorem render_literalNode (loc : Location) (s : String) (data : Value) (options : Options)
    (filters : Filters) : render ⟨[literalNode loc s], []⟩ data options filters = .ok s := by
  let out : Array Fragment := if s = "" then #[] else #[.fixed s]
  have hout : joinFragments out = s := by
    by_cases hs : s = ""
    · simp [out, hs, joinFragments]
    · simp [out, hs, joinFragments, Fragment.text]
  have hact (page : Page) (exits : Exits 0) :
      page.actAll exits [literalNode loc s] ⟨.page {}, #[]⟩ = .ok () ⟨.page {}, out⟩ := by
    unfold literalNode literalSegments out
    split <;> rfl
  have hpage (page : Page) (left : Nat) :
      page.renderNodes left 0 [literalNode loc s] ⟨.page {}, #[]⟩ = .ok () ⟨.page {}, out⟩ := by
    cases left <;> exact hact page _
  rw [render, renderFragments]
  dsimp only
  rw [hpage]
  exact congrArg Except.ok hout

theorem linkSource_literalLine {s : String} (hfeed : '\n' ∉ s.toList) (hreturn : '\r' ∉ s.toList)
    (set : TemplateSet) (options : Options) (path : String) :
    ∃ linked, Template.linkSource set options path (literalLine s) = .ok linked ∧
      ∀ data filters, render linked data options filters = .ok s := by
  obtain ⟨loc, hparse⟩ := parseSource_literalLine hfeed hreturn options
  refine ⟨⟨[literalNode loc s], []⟩, ?_, fun data filters => render_literalNode loc s data _ filters⟩
  rw [Template.linkSource, hparse]
  dsimp only
  rw [link_literalNode]

/-- A text of one line is the page of its line: whatever it says, with a backslash before each marker
it reads, links and renders to itself, for all data. -/
theorem render_literal {s : String} (hfeed : '\n' ∉ s.toList) (hreturn : '\r' ∉ s.toList)
    (options : Options) :
    (∃ template, Template.ofSource options (literalLine s) = .ok template ∧
      ∀ data, template.render data = .ok s) ∧
    (∀ (set : TemplateSet) filters name, set.fetch? name = some (literalLine s) →
      ∃ template, Template.compile set options filters name = .ok template ∧
        ∀ data, template.render data = .ok s) ∧
    ∀ data, renderSource (literalLine s) data = .ok s := by
  have hsource (options : Options) :
      ∃ template, Template.ofSource options (literalLine s) = .ok template ∧
        ∀ data, template.render data = .ok s := by
    obtain ⟨linked, hlinked, hrender⟩ := linkSource_literalLine hfeed hreturn [] options _
    refine ⟨_, by rw [Template.ofSource, hlinked]; rfl, fun data => ?_⟩
    rw [Template.render]
    dsimp only
    rw [hrender]
  refine ⟨hsource options, fun set filters name hname => ?_, fun data => ?_⟩
  · obtain ⟨linked, hlinked, hrender⟩ := linkSource_literalLine hfeed hreturn set options name
    refine ⟨_, by rw [Template.compile, hname]; dsimp only; rw [hlinked]; rfl, fun data => ?_⟩
    rw [Template.render]
    dsimp only
    rw [hrender]
  · obtain ⟨template, htemplate, hrender⟩ := hsource {}
    rw [renderSource, htemplate]
    exact hrender data

/-- Backslashes of the text itself stand in front of one marker, and one is not closed. -/
theorem render_literal_slashed :
    literalLine "\\#\x7b ##[a] \\!" = "| \\\\#\x7b #\\#[a] \\!" ∧
      renderSource (literalLine "\\#\x7b ##[a] \\!") .null = .ok "\\#\x7b ##[a] \\!" := by
  refine ⟨by decide +kernel, ?_⟩
  exact (render_literal (by decide +kernel) (by decide +kernel) {}).2.2 .null

end PugTemplate
