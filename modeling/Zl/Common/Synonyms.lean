import Zl.Common.ReadBack

namespace zl

/-- One restatement of a type, at any place in it: another spelling of a name, the members of a
    union in another order or another number of times, a union among the members spliced into
    them, or, where collapsing is allowed, the union of one member as that member. -/
inductive Restated (collapse : Prop) : TypeName → TypeName → Prop where
  | name {name name' : String} {args : List TypeName} {fixedSize : Option Nat}
      (h : canonicalName name = canonicalName name') :
      Restated collapse (.named name args fixedSize) (.named name' args fixedSize)
  | members {members members' : List TypeName} (h : ∀ t, t ∈ members ↔ t ∈ members') :
      Restated collapse (.union members) (.union members')
  | splice {before inner after : List TypeName} :
      Restated collapse (.union (before ++ .union inner :: after)) (.union (before ++ inner ++ after))
  | single {t : TypeName} (h : collapse) : Restated collapse (.union [t]) t
  | argument {name : String} {fixedSize : Option Nat} {before after : List TypeName} {t t' : TypeName}
      (h : Restated collapse t t') :
      Restated collapse (.named name (before ++ t :: after) fixedSize)
        (.named name (before ++ t' :: after) fixedSize)
  | member {before after : List TypeName} {t t' : TypeName} (h : Restated collapse t t') :
      Restated collapse (.union (before ++ t :: after)) (.union (before ++ t' :: after))

/-- Restating a type any number of times, either way. -/
def Same (collapse : Prop) : TypeName → TypeName → Prop := Relation.EqvGen (Restated collapse)

/-- Two types denote the same up to the spelling of names and the order, number and nesting of
    union members; a union whose members are all the same is that member. -/
def Synonymous (t t' : TypeName) : Prop := Same True t t'

section
variable {collapse : Prop} {t t' t'' : TypeName}

theorem Same.refl (t : TypeName) : Same collapse t t := Relation.EqvGen.refl t

theorem Same.symm (h : Same collapse t t') : Same collapse t' t := Relation.EqvGen.symm t t' h

theorem Same.trans (h : Same collapse t t') (h' : Same collapse t' t'') : Same collapse t t'' :=
  Relation.EqvGen.trans t t' t'' h h'

theorem Restated.same (h : Restated collapse t t') : Same collapse t t' := Relation.EqvGen.rel t t' h

theorem Same.lift {f : TypeName → TypeName} {collapse' : Prop}
    (hf : ∀ {t t' : TypeName}, Restated collapse t t' → Same collapse' (f t) (f t'))
    (h : Same collapse t t') : Same collapse' (f t) (f t') := by
  induction h with
  | rel t t' h => exact hf h
  | refl t => exact .refl _
  | symm t t' _ ih => exact ih.symm
  | trans t t' t'' _ _ ih ih' => exact ih.trans ih'

theorem Same.argument {name : String} {fixedSize : Option Nat} (before after : List TypeName)
    (h : Same collapse t t') : Same collapse (.named name (before ++ t :: after) fixedSize)
      (.named name (before ++ t' :: after) fixedSize) :=
  h.lift fun h => (Restated.argument h).same

theorem Same.member (before after : List TypeName) (h : Same collapse t t') :
    Same collapse (.union (before ++ t :: after)) (.union (before ++ t' :: after)) :=
  h.lift fun h => (Restated.member h).same

theorem same_parts (build : List TypeName → TypeName) (hbuild : ∀ {t t' : TypeName} before after,
      Same collapse t t' → Same collapse (build (before ++ t :: after)) (build (before ++ t' :: after)))
    {f g : TypeName → TypeName} {ts : List TypeName} (h : ∀ t ∈ ts, Same collapse (f t) (g t))
    (before : List TypeName) :
    Same collapse (build (before ++ ts.map f)) (build (before ++ ts.map g)) := by
  induction ts generalizing before with
  | nil => exact .refl _
  | cons t ts ih =>
    obtain ⟨ht, h⟩ := List.forall_mem_cons.mp h
    have hothers := ih h (before ++ [g t])
    rw [List.append_assoc, List.append_assoc] at hothers
    exact (hbuild before (ts.map f) ht).trans hothers

theorem Same.arguments {name : String} {fixedSize : Option Nat} {f g : TypeName → TypeName}
    {args : List TypeName} (h : ∀ t ∈ args, Same collapse (f t) (g t)) :
    Same collapse (.named name (args.map f) fixedSize) (.named name (args.map g) fixedSize) :=
  same_parts (fun args => .named name args fixedSize) (fun before after => .argument before after) h []

theorem Same.union {f g : TypeName → TypeName} {members : List TypeName}
    (h : ∀ t ∈ members, Same collapse (f t) (g t)) :
    Same collapse (.union (members.map f)) (.union (members.map g)) :=
  same_parts .union (fun before after => .member before after) h []

theorem canonicalName_canonicalName (name : String) :
    canonicalName (canonicalName name) = canonicalName name := by
  by_cases hdouble : name = "float" ∨ name = "decimal"
  · have hname : canonicalName name = "double" := if_pos hdouble
    rw [hname]
    rfl
  · by_cases hnil : name = "null"
    · have hname : canonicalName name = "nil" := (if_neg hdouble).trans (if_pos hnil)
      rw [hname]
      rfl
    · have hname : canonicalName name = name := (if_neg hdouble).trans (if_neg hnil)
      rw [hname, hname]

theorem same_standard (t : TypeName) : Same collapse t (standard t) := by
  induction t using TypeName.induction_children with
  | h t ih =>
    cases t with
    | named name args fixedSize =>
      have hargs : Same collapse (.named name (args.map id) fixedSize)
          (.named name (args.map standard) fixedSize) := .arguments ih
      rw [List.map_id] at hargs
      rw [standard, standardAll_eq_map]
      exact hargs.trans (Restated.name (canonicalName_canonicalName name).symm).same
    | union members =>
      have hmembers : Same collapse (.union (members.map id)) (.union (members.map standard)) := .union ih
      rw [List.map_id] at hmembers
      rwa [standard, standardAll_eq_map]

theorem same_flatMap (before ts : List TypeName) :
    Same collapse (.union (before ++ ts)) (.union (before ++ ts.flatMap unionMembers)) := by
  induction ts generalizing before with
  | nil => exact .refl _
  | cons t ts ih =>
    rw [List.flatMap_cons]
    cases t with
    | named name args fixedSize =>
      have hothers := ih (before ++ [.named name args fixedSize])
      rw [List.append_assoc, List.append_assoc] at hothers
      exact hothers
    | union inner =>
      have hothers := ih (before ++ inner)
      rw [List.append_assoc before inner (ts.flatMap unionMembers)] at hothers
      exact Restated.splice.same.trans hothers

/-- The members of a union, one after the other and each once. -/
def gathered (members : List TypeName) : List TypeName :=
  unique ((members.flatMap unionMembers).insertionSort fun a b =>
    textLe (unionMemberName a) (unionMemberName b))

theorem mem_gathered {members : List TypeName} : t ∈ gathered members ↔ t ∈ members.flatMap unionMembers := by
  rw [gathered, mem_unique, (List.perm_insertionSort _ _).mem_iff]

theorem unionOf_eq_gathered {members : List TypeName} (h : members.length ≠ 1) :
    unionOf members = .union (gathered members) := by
  unfold unionOf
  split
  · exact absurd rfl h
  · rfl

theorem same_unionOf {members : List TypeName} (h : collapse ∨ members.length ≠ 1) :
    Same collapse (.union members) (unionOf members) := by
  by_cases hlength : members.length = 1
  · obtain ⟨t, rfl⟩ := List.length_eq_one_iff.mp hlength
    exact (Restated.single (h.resolve_right (absurd rfl))).same
  · rw [unionOf_eq_gathered hlength]
    exact (same_flatMap [] members).trans (Restated.members fun t => mem_gathered.symm).same

/-- Reading a description back keeps what the type denotes. -/
theorem same_reread (t : TypeName) (h : collapse ∨ Several t) : Same collapse t (reread t) := by
  induction t using TypeName.induction_children with
  | h t ih =>
    cases t with
    | named name args fixedSize =>
      have hargs : ∀ t ∈ args, collapse ∨ Several t := by
        refine fun t ht => h.imp_right fun hseveral => ?_
        cases hseveral with
        | named hargs => exact hargs t ht
      have hsame : Same collapse (.named name (args.map id) fixedSize)
          (.named name (args.map reread) fixedSize) := .arguments fun t ht => ih t ht (hargs t ht)
      rw [List.map_id] at hsame
      rwa [reread, rereadAll_eq_map]
    | union members =>
      have hmembers : ∀ t ∈ members, collapse ∨ Several t := by
        refine fun t ht => h.imp_right fun hseveral => ?_
        cases hseveral with
        | union _ hmembers => exact hmembers t ht
      have hlength : collapse ∨ (members.map reread).length ≠ 1 := by
        refine h.imp_right fun hseveral => ?_
        cases hseveral with
        | union hlength _ =>
          rw [List.length_map]
          omega
      have hsame : Same collapse (.union (members.map id)) (.union (members.map reread)) :=
        .union fun t ht => ih t ht (hmembers t ht)
      rw [List.map_id] at hsame
      rw [reread, rereadAll_eq_map]
      exact hsame.trans (same_unionOf hlength)

end

mutual

/-- The alternatives of a type, each with a number of its own: a named type is one, and a union
    has those of its members. -/
def alternatives : TypeName → Finset Nat
  | .named name args fixedSize =>
    {Encodable.encode ((canonicalName name).toList.map Char.toNat, alternativesAll args, fixedSize)}
  | .union members => (alternativesAll members).foldr (· ∪ ·) ∅

def alternativesAll : List TypeName → List (Finset Nat)
  | [] => []
  | t :: ts => alternatives t :: alternativesAll ts

end

theorem alternativesAll_eq_map (ts : List TypeName) : alternativesAll ts = ts.map alternatives := by
  induction ts with
  | nil => rfl
  | cons t ts ih => rw [alternativesAll, ih, List.map_cons]

theorem mem_alternatives_union {members : List TypeName} {n : Nat} :
    n ∈ alternatives (.union members) ↔ ∃ t ∈ members, n ∈ alternatives t := by
  rw [alternatives, alternativesAll_eq_map]
  induction members with
  | nil => simp
  | cons t ts ih => simp [ih]

theorem Same.alternatives {collapse : Prop} {t t' : TypeName} (h : Same collapse t t') :
    alternatives t = alternatives t' := by
  induction h with
  | refl t => rfl
  | symm t t' _ ih => exact ih.symm
  | trans t t' t'' _ _ ih ih' => exact ih.trans ih'
  | rel t t' h =>
    induction h with
    | name h => rw [zl.alternatives, zl.alternatives, h]
    | members h =>
      ext n
      simp only [mem_alternatives_union, h]
    | splice =>
      ext n
      simp only [mem_alternatives_union, List.mem_append, List.mem_cons, or_and_right, exists_or,
        exists_eq_left, or_assoc]
    | single =>
      ext n
      simp only [mem_alternatives_union, List.mem_singleton, exists_eq_left]
    | argument _ ih =>
      simp only [zl.alternatives, alternativesAll_eq_map, List.map_append, List.map_cons, ih]
    | member _ ih =>
      ext n
      simp only [mem_alternatives_union, List.mem_append, List.mem_cons, or_and_right, exists_or,
        exists_eq_left, ih]

end zl
