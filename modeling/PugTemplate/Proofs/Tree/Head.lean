import PugTemplate.Proofs.Tree.Construct

/-!
# The attributes of a head

Shorthands, lists and spreads may come in any order, and each attribute is checked when it is added
to those in front of it. What a head ends up with is told by all that its tokens write: of the ids
only the first is kept, everything else is, and no other name but `class` may be written twice.
-/

namespace PugTemplate

/-! ## What tokens write -/

namespace TokenKind

/-- A token of the head of a tag or a call, behind its name. -/
def isOfHead : TokenKind → Bool
  | id _ | className _ | attributesStart | attr _ _ _ | attributesEnd | spread _ => true
  | _ => false

/-- A token that writes an attribute. -/
def isEntry : TokenKind → Bool
  | id _ | className _ | attr _ _ _ => true
  | _ => false

end TokenKind

/-- The attribute that a token writes: a shorthand, or an entry of a list. -/
inductive Token.Writes : Token → Attribute → Prop
  | id (name : String) (loc : Location) : Writes ⟨.id name, loc⟩ (.shorthand "id" name)
  | className (name : String) (loc : Location) :
      Writes ⟨.className name, loc⟩ (.shorthand "class" name)
  | listed {name : String} {source : Option String} {escape : Bool} {loc : Location} {a : Attribute}
      (h : Attribute.ofToken name source escape loc = .ok a) :
      Writes ⟨.attr name source escape, loc⟩ a

/-- The attributes that some tokens write, in their order. -/
inductive Written : List Token → List Attribute → Prop
  | nil : Written [] []
  | entry {t : Token} {ts : List Token} {a : Attribute} {as : List Attribute} (ha : t.Writes a)
      (h : Written ts as) : Written (t :: ts) (a :: as)
  | other {t : Token} {ts : List Token} {as : List Attribute} (ht : t.kind.isEntry = false)
      (h : Written ts as) : Written (t :: ts) as

theorem Written.append {ts us : List Token} {as bs : List Attribute} (h : Written ts as)
    (h' : Written us bs) : Written (ts ++ us) (as ++ bs) := by
  induction h with
  | nil => exact h'
  | entry ha _ ih => exact .entry ha ih
  | other ht _ ih => exact .other ht ih

theorem Token.Writes.isOfHead {t : Token} {a : Attribute} (h : t.Writes a) :
    t.kind.isOfHead := by
  cases h <;> rfl

/-- A name that is written twice is that of ids or of classes. -/
def Once (written : List Attribute) : Prop :=
  ((written.filter fun a => a.name != "class" && a.name != "id").map Attribute.name).Nodup

/-! ## What a head keeps -/

namespace Head

/-- No name but `class` belongs to two attributes. -/
def Distinct (h : Head) : Prop :=
  ((h.attributes.filter (·.name != "class")).map Attribute.name).Nodup

/-- The attributes of a head, told by all that were written. -/
structure Gathers (h : Head) (written : List Attribute) : Prop where
  order : h.attributes.Sublist written
  /-- The first id is kept. -/
  ids : h.attributes.filter (·.name == "id") = (written.filter (·.name == "id")).take 1
  /-- Everything else is. -/
  others : h.attributes.filter (·.name != "id") = written.filter (·.name != "id")
  distinct : h.Distinct

variable {h h' : Head} {a : Attribute} {written : List Attribute}

theorem gathers_empty : Gathers {} [] :=
  ⟨.slnil, rfl, rfl, List.nodup_nil⟩

theorem Gathers.with_spreads (hg : h.Gathers written) (spreads : List Expr) :
    Gathers { h with spreads } written :=
  ⟨hg.order, hg.ids, hg.others, hg.distinct⟩

theorem has_eq_true_iff {name : String} : h.has name ↔ ∃ a ∈ h.attributes, a.name = name := by
  simp [has]

namespace Gathers

theorem once (hg : h.Gathers written) : Once written := by
  rw [Once, ← List.filter_filter, ← hg.others]
  exact hg.distinct.sublist ((List.filter_sublist.filter _).map _)

/-- The ids that are written behind the first one leave no trace. -/
theorem add_id (hg : h.Gathers written) (ha : a.name = "id") (hid : h.has "id") :
    h.Gathers (written ++ [a]) where
  order := hg.order.trans (List.sublist_append_left _ _)
  ids := by
    obtain ⟨b, hb, hname⟩ := has_eq_true_iff.mp hid
    have hfirst : b ∈ (written.filter (·.name == "id")).take 1 := by
      rw [← hg.ids]
      exact List.mem_filter.mpr ⟨hb, beq_iff_eq.mpr hname⟩
    have hpos := List.length_pos_of_mem (List.mem_of_mem_take hfirst)
    rw [hg.ids, List.filter_append, List.take_append_of_le_length hpos]
  others := by
    rw [hg.others, List.filter_append, List.filter_cons_of_neg (by simp [ha]), List.filter_nil,
      List.append_nil]
  distinct := hg.distinct

/-- An attribute is added with a name that is new, if it is no class. -/
theorem add_new (hg : h.Gathers written) (hnew : a.name = "class" ∨ ¬ h.has a.name) :
    Gathers { h with attributes := h.attributes ++ [a] } (written ++ [a]) where
  order := hg.order.append (.refl _)
  ids := by
    dsimp only
    rw [List.filter_append, List.filter_append, hg.ids]
    by_cases hid : a.name = "id"
    · have hnone : written.filter (·.name == "id") = [] := by
        have hno : ¬ h.has "id" := hid ▸ hnew.resolve_left (by simp [hid])
        have hfirst : (written.filter (·.name == "id")).take 1 = [] := by
          rw [← hg.ids, List.filter_eq_nil_iff]
          exact fun b hb hname => hno (has_eq_true_iff.mpr ⟨b, hb, beq_iff_eq.mp hname⟩)
        simpa using hfirst
      rw [hnone, List.filter_cons_of_pos (by simp [hid])]
      rfl
    · rw [List.filter_cons_of_neg (by simp [hid]), List.filter_nil, List.append_nil,
        List.append_nil]
  others := by
    dsimp only
    rw [List.filter_append, List.filter_append, hg.others]
  distinct := by
    rw [Distinct, List.filter_append, List.map_append]
    by_cases hclass : a.name = "class"
    · rw [List.filter_cons_of_neg (by simp [hclass]), List.filter_nil, List.map_nil,
        List.append_nil]
      exact hg.distinct
    · rw [List.filter_cons_of_pos (by simp [hclass])]
      refine List.nodup_append.mpr ⟨hg.distinct, List.pairwise_singleton _ _, ?_⟩
      intro name hmem other hother
      obtain rfl := List.mem_singleton.mp hother
      obtain ⟨b, hb, rfl⟩ := List.mem_map.mp hmem
      exact fun hname => hnew.resolve_left hclass
        (has_eq_true_iff.mpr ⟨b, (List.mem_filter.mp hb).1, hname⟩)

theorem add (hg : h.Gathers written) (hadd : h.add a = .ok h') : h'.Gathers (written ++ [a]) := by
  unfold Head.add at hadd
  split at hadd
  next hid =>
    cases hadd
    exact hg.add_id hid.1 hid.2
  next =>
    split at hadd
    next => exact nomatch hadd
    next hnew =>
      cases hadd
      exact hg.add_new (Decidable.or_iff_not_imp_left.mpr fun hclass hhas => hnew ⟨hclass, hhas⟩)

theorem addAll {as : List Attribute} (hg : h.Gathers written) (hadd : h.addAll as = .ok h') :
    h'.Gathers (written ++ as) := by
  induction as generalizing h written with
  | nil =>
    cases hadd
    rwa [List.append_nil]
  | cons a as ih =>
    unfold Head.addAll at hadd
    split at hadd
    next hone =>
      have hmore := ih (hg.add hone) hadd
      rwa [List.append_assoc] at hmore
    next => exact nomatch hadd

end Gathers

/-! ## Reading -/

/-- So many tokens in front are parts of a head, and write some attributes. -/
def Lists (ts : List Token) (k : Nat) (as : List Attribute) : Prop :=
  Written (ts.take k) as ∧ ∀ t ∈ ts.take k, t.kind.isOfHead

namespace Lists

variable {t : Token} {ts : List Token} {j k : Nat} {as bs : List Attribute}

theorem zero : Lists ts 0 [] :=
  ⟨.nil, fun _ ht => nomatch ht⟩

theorem entry (ha : t.Writes a) (hl : Lists ts k as) : Lists (t :: ts) (k + 1) (a :: as) :=
  ⟨hl.1.entry ha, List.forall_mem_cons.mpr ⟨ha.isOfHead, hl.2⟩⟩

theorem other (ht : t.kind.isEntry = false) (hpart : t.kind.isOfHead) (hl : Lists ts k as) :
    Lists (t :: ts) (k + 1) as :=
  ⟨hl.1.other ht, List.forall_mem_cons.mpr ⟨hpart, hl.2⟩⟩

theorem add (hl : Lists ts j as) (hl' : Lists (ts.drop j) k bs) : Lists ts (j + k) (as ++ bs) := by
  rw [Lists, List.take_add]
  exact ⟨hl.1.append hl'.1, List.forall_mem_append.mpr ⟨hl.2, hl'.2⟩⟩

end Lists

theorem lists_attributesRead {stop : Location} {ts : List Token} :
    reading.always (attributesRead stop ts) fun r => Lists ts r.2 r.1 := by
  fun_induction attributesRead stop ts
  case case1 name source escape loc rest ih =>
    refine reading.bind (p := Token.Writes ⟨.attr name source escape, loc⟩) (fun a ha => .listed ha)
      fun a ha => ?_
    exact reading.bind ih fun _ hl => reading.pure (hl.entry ha)
  case case2 => exact reading.pure (Lists.zero.other rfl rfl)
  case case3 => exact reading_unexpected

/-- A head that gathers what was written before, and so many tokens in front. -/
def GathersBehind (written : List Attribute) (ts : List Token) (k : Nat) (h : Head) : Prop :=
  ∃ as, Lists ts k as ∧ h.Gathers (written ++ as)

theorem GathersBehind.of_drop {ts : List Token} {j k : Nat} {as : List Attribute}
    (hl : Lists ts j as) (hg : GathersBehind (written ++ as) (ts.drop j) k h) :
    GathersBehind written ts (k + j) h := by
  obtain ⟨bs, hl', hg⟩ := hg
  refine ⟨as ++ bs, ?_, by rwa [← List.append_assoc]⟩
  rw [Nat.add_comm]
  exact hl.add hl'

/-- A head gathers what its tokens write. -/
theorem gathers_read {stop : Location} {ts : List Token} (hg : h.Gathers written) :
    reading.always (Head.read stop h ts) fun r => GathersBehind written ts r.2 r.1 := by
  fun_induction Head.read stop h ts generalizing written
  case case1 | case3 => exact reading_error
  case case2 name loc _ _ hadd ih =>
    exact reading.bind (ih (hg.add hadd)) fun r hr =>
      reading.pure (.of_drop (Lists.zero.entry (.id name loc)) hr)
  case case4 name loc _ _ hadd ih =>
    exact reading.bind (ih (hg.add hadd)) fun r hr =>
      reading.pure (.of_drop (Lists.zero.entry (.className name loc)) hr)
  case case5 loc rest ih =>
    refine reading.bind lists_attributesRead fun r hr => ?_
    have hlist : Lists (⟨.attributesStart, loc⟩ :: rest) (r.2 + 1) r.1 := hr.other rfl rfl
    dsimp only
    split
    next => exact reading_error
    next hadd =>
      refine reading.bind (ih r.2 _ (hg.addAll hadd)) fun q hq => reading.pure ?_
      have hall := GathersBehind.of_drop hlist hq
      exact hall
  case case6 source loc rest ih =>
    refine reading.bind (reading_any _) fun e _ => ?_
    refine reading.bind (ih e (hg.with_spreads _)) fun r hr => reading.pure ?_
    have hspread : Lists (⟨.spread source, loc⟩ :: rest) 1 [] := Lists.zero.other rfl rfl
    exact .of_drop hspread (by rwa [List.append_nil])
  case case7 => exact reading.pure ⟨[], .zero, by rwa [List.append_nil]⟩

end Head

end PugTemplate
