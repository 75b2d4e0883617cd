import Zl.Common.Canonical

namespace zl

mutual

/-- The types that a union is a union of, through the unions among its members. -/
def leaves : TypeName → List TypeName
  | .named name args fixedSize => [.named name args fixedSize]
  | .union members => leavesAll members

def leavesAll : List TypeName → List TypeName
  | [] => []
  | t :: ts => leaves t ++ leavesAll ts

end

theorem leavesAll_eq_flatMap (ts : List TypeName) : leavesAll ts = ts.flatMap leaves := by
  induction ts with
  | nil => rfl
  | cons t ts ih => rw [leavesAll, ih, List.flatMap_cons]

/-- No union, unless it is a member of another, is one of types that all denote the same. -/
inductive Apart : TypeName → Prop where
  | named {name : String} {args : List TypeName} {fixedSize : Option Nat}
      (hargs : ∀ t ∈ args, Apart t) : Apart (.named name args fixedSize)
  | union {members : List TypeName} (hleaves : ∀ t ∈ leaves (.union members), Apart t)
      (hdiffer : ∃ s ∈ leaves (.union members), ∃ t ∈ leaves (.union members), ¬ Synonymous s t) :
      Apart (.union members)

theorem Spelled.leaves {t : TypeName} (h : Spelled t) : ∀ l ∈ leaves t, Spelled l := by
  induction h with
  | named hne hchars hsize hargs _ =>
    intro l hl
    obtain rfl := List.mem_singleton.mp hl
    exact .named hne hchars hsize hargs
  | union _ _ ih =>
    intro l hl
    rw [zl.leaves, leavesAll_eq_flatMap] at hl
    obtain ⟨t, ht, hl⟩ := List.mem_flatMap.mp hl
    exact ih t ht l hl

theorem mem_unionMembers_unionOf {members : List TypeName} {m : TypeName} :
    m ∈ unionMembers (unionOf members) ↔ ∃ t ∈ members, m ∈ unionMembers t := by
  by_cases hlength : members.length = 1
  · obtain ⟨t, rfl⟩ := List.length_eq_one_iff.mp hlength
    simp [unionOf]
  · rw [unionOf_eq_gathered hlength, ← List.mem_flatMap]
    exact mem_gathered

theorem mem_unionMembers_settled {t m : TypeName} :
    m ∈ unionMembers (settled t) ↔ ∃ l ∈ leaves t, m = settled l := by
  induction t using TypeName.induction_children with
  | h t ih =>
    cases t with
    | named name args fixedSize =>
      rw [leaves, settled_named]
      simp [unionMembers, settled_named]
    | union members =>
      rw [settled_union, mem_unionMembers_unionOf, leaves, leavesAll_eq_flatMap]
      simp only [List.mem_map, List.mem_flatMap, exists_exists_and_eq_and]
      constructor
      · rintro ⟨t, ht, hm⟩
        obtain ⟨l, hl, rfl⟩ := (ih t ht).mp hm
        exact ⟨l, ⟨t, ht, hl⟩, rfl⟩
      · rintro ⟨l, ⟨t, ht, hl⟩, rfl⟩
        exact ⟨t, ht, (ih t ht).mpr ⟨l, hl, rfl⟩⟩

theorem synonymous_settled (t : TypeName) : Synonymous t (settled t) :=
  (same_standard t).trans (same_reread _ (.inl trivial))

theorem stable_settled {t : TypeName} (h : Spelled t) (hseveral : Several (settled t)) :
    Stable (settled t) := ⟨h.wellFormed, canonical_reread _, hseveral⟩

/-- Types that denote the same settle to one type where every union keeps two members. -/
theorem settled_eq_of_synonymous {s t : TypeName} (hs : Spelled s) (ht : Spelled t)
    (hseveral : Several (settled s)) (hseveral' : Several (settled t)) (h : Synonymous s t) :
    settled s = settled t := by
  have hsettled : Synonymous (settled s) (settled t) :=
    (synonymous_settled s).symm.trans (h.trans (synonymous_settled t))
  exact (stable_settled hs hseveral).eq_of_alternatives (stable_settled ht hseveral') hsettled.alternatives

theorem settled_union_of_several {members : List TypeName} (h : Several (.union members)) :
    settled (.union members) = .union (gathered (members.map settled)) := by
  cases h with
  | union hlength _ => rw [settled_union, unionOf_eq_gathered (by rw [List.length_map]; omega)]

theorem two_le_length {ts : List TypeName} {s t : TypeName} (hs : s ∈ ts) (ht : t ∈ ts) (hne : s ≠ t) :
    2 ≤ ts.length := by
  match ts, hs, ht with
  | [u], hs, ht => exact absurd ((List.mem_singleton.mp hs).trans (List.mem_singleton.mp ht).symm) hne
  | _ :: _ :: _, _, _ => simp

theorem apart_iff_of_leaves {t : TypeName} (hspelled : Spelled t) (hseveral : Several t)
    (h : ∀ l ∈ leaves t, Apart l ↔ Several (settled l)) : Apart t ↔ Several (settled t) := by
  cases t with
  | named name args fixedSize => exact h _ (List.mem_singleton.mpr rfl)
  | union members =>
    have hmem : ∀ m, m ∈ gathered (members.map settled) ↔ ∃ l ∈ leaves (.union members), m = settled l := by
      intro m
      rw [← mem_unionMembers_settled, settled_union_of_several hseveral, unionMembers]
    rw [settled_union_of_several hseveral]
    constructor
    · rintro (_ | ⟨hleaves, s, hs, t, ht, hdiffer⟩)
      have hne : settled s ≠ settled t := by
        intro heq
        exact hdiffer ((synonymous_settled s).trans (heq ▸ (synonymous_settled t).symm))
      refine .union (two_le_length ((hmem _).mpr ⟨s, hs, rfl⟩) ((hmem _).mpr ⟨t, ht, rfl⟩) hne) ?_
      intro m hm
      obtain ⟨l, hl, rfl⟩ := (hmem m).mp hm
      exact (h l hl).mp (hleaves l hl)
    · intro hgathered
      obtain ⟨a, ha, b, hb, hne⟩ := exists_two_members hgathered (isChain_unique _)
      obtain ⟨s, hs, rfl⟩ := (hmem a).mp ha
      obtain ⟨t, ht, rfl⟩ := (hmem b).mp hb
      have hall : ∀ l ∈ leaves (.union members), Several (settled l) := by
        cases hgathered with
        | union _ hgathered => exact fun l hl => hgathered _ ((hmem _).mpr ⟨l, hl, rfl⟩)
      refine .union (fun l hl => (h l hl).mpr (hall l hl)) ⟨s, hs, t, ht, fun hsame => hne ?_⟩
      exact settled_eq_of_synonymous (hspelled.leaves s hs) (hspelled.leaves t ht) (hall s hs) (hall t ht)
        hsame

theorem apart_iff_leaves {t : TypeName} (hspelled : Spelled t) (hseveral : Several t) :
    ∀ l ∈ leaves t, Apart l ↔ Several (settled l) := by
  induction t using TypeName.induction_children with
  | h t ih =>
    cases t with
    | named name args fixedSize =>
      intro l hl
      obtain rfl := List.mem_singleton.mp hl
      have hargs : ∀ t ∈ args, Apart t ↔ Several (settled t) := by
        intro t ht
        cases hspelled with
        | named _ _ _ hspelled =>
          cases hseveral with
          | named hseveral =>
            exact apart_iff_of_leaves (hspelled t ht) (hseveral t ht)
              (ih t ht (hspelled t ht) (hseveral t ht))
      rw [settled_named]
      constructor
      · rintro (hapart | _)
        exact .named (List.forall_mem_map.mpr fun t ht => (hargs t ht).mp (hapart t ht))
      · rintro (hargs' | _)
        exact .named fun t ht => (hargs t ht).mpr (List.forall_mem_map.mp hargs' t ht)
    | union members =>
      intro l hl
      rw [leaves, leavesAll_eq_flatMap] at hl
      obtain ⟨t, ht, hl⟩ := List.mem_flatMap.mp hl
      cases hspelled with
      | union _ hspelled =>
        cases hseveral with
        | union _ hseveral => exact ih t ht (hspelled t ht) (hseveral t ht) l hl

/-- Every union keeps two members exactly if no union is one of types that denote the same. -/
theorem apart_iff {t : TypeName} (hspelled : Spelled t) (hseveral : Several t) :
    Apart t ↔ Several (settled t) :=
  apart_iff_of_leaves hspelled hseveral (apart_iff_leaves hspelled hseveral)

/-- The text spells a type. -/
def Accepted (text : List Char) : Prop := parseTypeName text ≠ invalidType

theorem accepted_iff {text : List Char} : Accepted text ↔ ∃ e, Written text e := by
  constructor
  · intro h
    obtain ⟨e, hwritten, -⟩ := written_of_parseTypeName h
    exact ⟨e, hwritten⟩
  · rintro ⟨e, hwritten⟩ hinvalid
    have hwf := hwritten.spelled.wellFormed
    rw [← hwritten.parseTypeName, hinvalid] at hwf
    rcases hwf with hname | _
    exact absurd (hname.chars '<' (by decide)) (by decide)

/-- The description of the type that the text spells reads back as that type. -/
def RoundTrips (text : List Char) : Prop :=
  typeNamesEqual (parseTypeName (describeTypeName (parseTypeName text))) (parseTypeName text) = true

/-- Two texts spell types that denote the same. -/
def SpellSame (text text' : List Char) : Prop :=
  ∃ e e', Written text e ∧ Written text' e' ∧ Synonymous e e'

/-- No union in the text, unless it is a member of another, is one of types that all denote the
    same. -/
def SpellsApart (text : List Char) : Prop := ∀ e, Written text e → Apart e

theorem Written.roundTrips_iff {text : List Char} {e : TypeName} (h : Written text e) :
    RoundTrips text ↔ Several (settled e) := by
  have hwf := h.spelled.wellFormed
  rw [RoundTrips, h.parseTypeName, parse_describe hwf, typeNamesEqual_iff]
  constructor
  · intro heq
    exact several_of_weight hwf.spelled (congrArg weight heq)
  · exact reread_of_several (canonical_reread _)

theorem Written.spellsApart_iff {text : List Char} {e : TypeName} (h : Written text e) :
    SpellsApart text ↔ Several (settled e) := by
  constructor
  · intro hapart
    exact (apart_iff h.spelled h.several).mp (hapart e h)
  · intro hseveral e' h'
    rw [← h.parseTypeName, h'.parseTypeName] at hseveral
    exact (apart_iff h'.spelled h'.several).mpr hseveral

/-- Type names are canonical exactly where no union is one of types that all denote the same: such
    a union stays one of a single member, which its description does not tell from the member. -/
theorem canonical_iff {text text' : List Char} (h : Accepted text) (h' : Accepted text') :
    (RoundTrips text ∧ RoundTrips text' ∧
        (SpellSame text text' → typeNamesEqual (parseTypeName text) (parseTypeName text') = true)) ↔
      SpellsApart text ∧ SpellsApart text' := by
  obtain ⟨e, hwritten⟩ := accepted_iff.mp h
  obtain ⟨e', hwritten'⟩ := accepted_iff.mp h'
  rw [hwritten.roundTrips_iff, hwritten'.roundTrips_iff, hwritten.spellsApart_iff,
    hwritten'.spellsApart_iff]
  constructor
  · exact fun ⟨hseveral, hseveral', _⟩ => ⟨hseveral, hseveral'⟩
  · rintro ⟨hseveral, hseveral'⟩
    refine ⟨hseveral, hseveral', ?_⟩
    rintro ⟨s, s', hs, hs', hsame⟩
    rw [typeNamesEqual_iff, hs.parseTypeName, hs'.parseTypeName]
    rw [← hwritten.parseTypeName, hs.parseTypeName] at hseveral
    rw [← hwritten'.parseTypeName, hs'.parseTypeName] at hseveral'
    exact settled_eq_of_synonymous hs.spelled hs'.spelled hseveral hseveral' hsame

theorem canonical_iff_int_string : SpellsApart "int|string".toList ∧ SpellsApart "string | (int)".toList := by
  refine (canonical_iff ?_ ?_).mp ⟨?_, ?_, ?_⟩
  · rw [Accepted]; decide +kernel
  · rw [Accepted]; decide +kernel
  · rw [RoundTrips]; decide +kernel
  · rw [RoundTrips]; decide +kernel
  · intro _; decide +kernel

/-- A union of equal members is not that member. -/
theorem union_of_one_remains :
    Accepted "int|int".toList ∧ ¬ RoundTrips "int|int".toList ∧ SpellSame "int|int".toList "int".toList ∧
      typeNamesEqual (parseTypeName "int|int".toList) (parseTypeName "int".toList) = false := by
  have hword : ∀ rest, NameText "int" ("int".toList ++ rest) rest := fun rest => by
    refine ⟨.refl _, ?_, List.all_eq_true.mp ?_⟩ <;> decide +kernel
  have hint : ∀ rest, Reads .closed (.named "int" [] none) ("int".toList ++ rest) rest := fun rest =>
    .named (hword rest) .none .noArguments
  refine ⟨by rw [Accepted]; decide +kernel, by rw [RoundTrips]; decide +kernel, ?_, by decide +kernel⟩
  refine ⟨.union [.named "int" [] none, .named "int" [] none], .named "int" [] none,
    ⟨[], .union (.more (hint ('|' :: "int".toList)) (token_self '|' _) (.last (.closed (hint [])))), .refl _⟩,
    ⟨[], .union (.last (.closed (hint []))), .refl _⟩, ?_⟩
  refine (Restated.members fun t => ?_).same.trans (Restated.single trivial).same
  simp

end zl
