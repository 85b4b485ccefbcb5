import PugTemplate.Lex.Cursor

/-!
# Texts cut at bytes

A text can be cut at an offset into its UTF-8 encoding, but only in front of a character or at its
end. A reader that counts bytes halts at any other cut, as it halts where the text is refused.
Main statement: `slice_eq_ok_iff`.
-/

namespace PugTemplate

theorem byteLength_nil : byteLength [] = 0 :=
  rfl

theorem byteLength_cons (c : Char) (cs : List Char) :
    byteLength (c :: cs) = c.utf8Size + byteLength cs :=
  rfl

theorem byteLength_snoc (before : List Char) (c : Char) :
    byteLength before + c.utf8Size = byteLength (before ++ [c]) := by
  rw [byteLength_append, byteLength_cons]
  rfl

theorem byteLength_eq_zero {cs : List Char} : byteLength cs = 0 ↔ cs = [] := by
  cases cs with
  | nil => exact ⟨fun _ => rfl, fun _ => rfl⟩
  | cons c cs =>
    have hc := c.utf8Size_pos
    refine ⟨fun h => ?_, nofun⟩
    rw [byteLength_cons] at h
    omega

theorem byteLength_of_isPrefix {xs cs : List Char} (h : xs <+: cs) :
    byteLength xs + byteLength (cs.drop xs.length) = byteLength cs := by
  rw [← byteLength_append, List.prefix_iff_eq_append.mp h]

/-- Why a reader that counts bytes stops before its end. -/
inductive Halt where
  /-- A part was asked for that is not one: its end is in front of its beginning or behind the end
  of the text, or one of the two is inside a character. -/
  | outOfRange
  | refused (e : LexError)
deriving DecidableEq

abbrev Sliced := Except Halt

/-- An offset in front of a character, or at the end of the text. -/
def Boundary (text : List Char) (n : Nat) : Prop :=
  ∃ before, before <+: text ∧ n = byteLength before

/-- A text in two at an offset; none if the offset is inside a character or behind the end. -/
def cut? : List Char → Nat → Option (List Char × List Char)
  | cs, 0 => some ([], cs)
  | [], _ + 1 => none
  | c :: cs, n + 1 =>
    if c.utf8Size ≤ n + 1 then
      (cut? cs (n + 1 - c.utf8Size)).map fun (before, behind) => (c :: before, behind)
    else none

theorem cut?_append (xs ys : List Char) : cut? (xs ++ ys) (byteLength xs) = some (xs, ys) := by
  induction xs with
  | nil =>
    rw [List.nil_append, byteLength_nil, cut?]
  | cons x xs ih =>
    -- the equation for a cut wants the offset as a successor
    obtain ⟨n, hn⟩ := Nat.exists_eq_add_one_of_ne_zero (Nat.ne_of_gt x.utf8Size_pos)
    have hlen : byteLength (x :: xs) = n + byteLength xs + 1 := by
      rw [byteLength_cons, hn]
      omega
    rw [List.cons_append, hlen, cut?, if_pos (by omega),
      show n + byteLength xs + 1 - x.utf8Size = byteLength xs by omega, ih]
    rfl

theorem append_of_cut? {cs before behind : List Char} {n : Nat}
    (h : cut? cs n = some (before, behind)) : cs = before ++ behind ∧ n = byteLength before := by
  fun_induction cut? cs n generalizing before behind with
  | case1 cs =>
    cases h
    exact ⟨rfl, rfl⟩
  | case2 => cases h
  | case3 c cs n hle ih =>
    obtain ⟨⟨xs, ys⟩, hxs, heq⟩ := Option.map_eq_some_iff.mp h
    cases heq
    obtain ⟨rfl, hn⟩ := ih hxs
    refine ⟨rfl, ?_⟩
    rw [byteLength_cons]
    omega
  | case4 => cases h

/-- The part of a text between two offsets. -/
def slice (text : List Char) (start stop : Nat) : Sliced (List Char) :=
  if start ≤ stop then
    match cut? text start with
    | none => .error .outOfRange
    | some (_, behind) =>
      match cut? behind (stop - start) with
      | none => .error .outOfRange
      | some (part, _) => .ok part
  else .error .outOfRange

/-- The part of a text from an offset on. -/
def sliceFrom (text : List Char) (start : Nat) : Sliced (List Char) :=
  slice text start (byteLength text)

/-- The part of a text up to an offset. -/
def sliceTo (text : List Char) (stop : Nat) : Sliced (List Char) :=
  slice text 0 stop

/-- A part of a text is what stands between two boundaries; there is none between other offsets. -/
theorem slice_eq_ok_iff {text part : List Char} {start stop : Nat} :
    slice text start stop = .ok part ↔
      ∃ before behind, text = before ++ part ++ behind ∧ start = byteLength before ∧
        stop = start + byteLength part := by
  constructor
  · intro h
    unfold slice at h
    split at h
    next hle =>
      split at h
      next => cases h
      next before behind hcut =>
        split at h
        next => cases h
        next part' rest hcut' =>
          cases h
          obtain ⟨rfl, hstart⟩ := append_of_cut? hcut
          obtain ⟨rfl, hstop⟩ := append_of_cut? hcut'
          exact ⟨before, rest, (List.append_assoc ..).symm, hstart, by omega⟩
    next => cases h
  · rintro ⟨before, behind, rfl, rfl, rfl⟩
    rw [slice, if_pos (Nat.le_add_right ..), List.append_assoc, cut?_append]
    dsimp only
    rw [Nat.add_sub_cancel_left, cut?_append]

theorem sliceFrom_append (before behind : List Char) :
    sliceFrom (before ++ behind) (byteLength before) = .ok behind := by
  rw [sliceFrom, byteLength_append]
  exact slice_eq_ok_iff.mpr ⟨before, [], by rw [List.append_nil], rfl, rfl⟩

theorem sliceFrom_of_isPrefix {xs cs : List Char} (h : xs <+: cs) :
    sliceFrom cs (byteLength xs) = .ok (cs.drop xs.length) := by
  obtain ⟨ys, rfl⟩ := h
  rw [sliceFrom_append, List.drop_left]

theorem sliceTo_of_isPrefix {xs cs : List Char} (h : xs <+: cs) :
    sliceTo cs (byteLength xs) = .ok xs := by
  obtain ⟨ys, rfl⟩ := h
  exact slice_eq_ok_iff.mpr ⟨[], ys, rfl, rfl, (Nat.zero_add _).symm⟩

theorem lt_byteLength_of_sliceFrom {cs more : List Char} {c : Char} {n : Nat}
    (h : sliceFrom cs n = .ok (c :: more)) : n < byteLength cs := by
  obtain ⟨before, behind, rfl, rfl, -⟩ := slice_eq_ok_iff.mp h
  have hc := c.utf8Size_pos
  simp only [byteLength_append, byteLength_cons]
  omega

/-- The character whose only byte stands at an offset. -/
def byteAt? : List Char → Nat → Option Char
  | [], _ => none
  | c :: cs, n =>
    if n < c.utf8Size then if c.utf8Size = 1 then some c else none
    else byteAt? cs (n - c.utf8Size)

theorem byteAt?_append (before behind : List Char) (n : Nat) :
    byteAt? (before ++ behind) (byteLength before + n) = byteAt? behind n := by
  induction before with
  | nil => rw [List.nil_append, byteLength_nil, Nat.zero_add]
  | cons c before ih =>
    rw [List.cons_append, byteAt?, byteLength_cons, if_neg (by omega),
      show c.utf8Size + byteLength before + n - c.utf8Size = byteLength before + n by omega, ih]

end PugTemplate
