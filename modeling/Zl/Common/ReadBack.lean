import Zl.Common.GrammarParses

namespace zl

mutual

/-- A type with the unions among the members of a union flattened, as its description spells it. -/
def flat : TypeName → TypeName
  | .named name args fixedSize => .named name (flatAll args) fixedSize
  | .union members => asWritten ((flatAll members).flatMap unionMembers)

def flatAll : List TypeName → List TypeName
  | [] => []
  | t :: ts => flat t :: flatAll ts

end

theorem flatAll_eq_map (ts : List TypeName) : flatAll ts = ts.map flat := by
  induction ts with
  | nil => rfl
  | cons t ts ih => rw [flatAll, ih, List.map_cons]

/-- The types that descriptions spell: unions may stand in unions. -/
inductive Spelled : TypeName → Prop where
  | named {name : String} {args : List TypeName} {fixedSize : Option Nat} (hne : name.toList ≠ [])
      (hchars : ∀ c ∈ name.toList, isNameChar c = true)
      (hsize : ∀ size, fixedSize = some size → name = "array" ∧ size < 2 ^ 64)
      (hargs : ∀ t ∈ args, Spelled t) : Spelled (.named name args fixedSize)
  | union {members : List TypeName} (hne : members ≠ []) (hmembers : ∀ t ∈ members, Spelled t) :
      Spelled (.union members)

theorem unionMembers_asWritten {ts : List TypeName} (h : ∀ t ∈ ts, isNamed t) :
    unionMembers (asWritten ts) = ts := by
  unfold asWritten
  split
  · next t =>
    cases t with
    | named name args fixedSize => rfl
    | union members => exact absurd (h _ List.mem_cons_self) id
  · rfl

theorem isNamed_of_mem_flat (t : TypeName) : ∀ m ∈ unionMembers (flat t), isNamed m := by
  induction t using TypeName.induction_children with
  | h t ih =>
    cases t with
    | named name args fixedSize =>
      intro m hm
      obtain rfl := List.mem_singleton.mp hm
      trivial
    | union members =>
      have hall : ∀ m ∈ (flatAll members).flatMap unionMembers, isNamed m := by
        intro m hm
        rw [flatAll_eq_map, List.flatMap_map] at hm
        obtain ⟨t, ht, hm⟩ := List.mem_flatMap.mp hm
        exact ih t ht m hm
      rw [flat, unionMembers_asWritten hall]
      exact hall

section
variable {rest rest' : List Char}
variable {args : List TypeName} {name : String}

theorem token_self (c : Char) (rest : List Char) : Token c (c :: rest) rest := Space.refl _

theorem sizeText_describeSize {fixedSize : Option Nat}
    (hsize : ∀ size, fixedSize = some size → name = "array" ∧ size < 2 ^ 64) (rest : List Char) :
    SizeText name fixedSize (describeSize name fixedSize ++ rest) rest := by
  cases fixedSize with
  | none => exact .none
  | some size =>
    obtain ⟨hname, hsmall⟩ := hsize size rfl
    have hdigits : ∀ c ∈ size.repr.toList, c.isDigit = true := by
      intro c hc
      rw [Nat.toList_repr] at hc
      exact Nat.isDigit_of_mem_toDigits (by omega) (by omega) hc
    have hne : size.repr.toList ≠ [] := by
      rw [Nat.toList_repr]
      exact Nat.toDigits_ne_nil
    have hvalue : Nat.ofDigitChars 10 size.repr.toList 0 = size := by
      rw [Nat.toList_repr, Nat.ofDigitChars_ten_toDigits]
    rw [describeSize, if_pos hname, List.append_assoc]
    have hreads := SizeText.size hname (token_self '[' (size.repr.toList ++ ']' :: rest)) hne hdigits
      (token_self ']' rest) (by rwa [hvalue])
    rw [hvalue] at hreads
    exact hreads

/-- How the grammar reads the description of a type, by itself and among the members of a union. -/
structure Described (t : TypeName) : Prop where
  primary {rest : List Char} : isNamed t → Reads .primary (flat t) (describeTypeName t ++ rest) rest
  closed {rest : List Char} : isNamed t → isFunction t = false →
    Reads .closed (flat t) (describeTypeName t ++ rest) rest
  union {rest : List Char} : Reads .union (flat t) (describeTypeName t ++ rest) rest
  last {rest : List Char} : Reads .members (unionMembers (flat t)) (unionMemberName t ++ rest) rest
  more {ts : List TypeName} {rest rest' : List Char} : Reads .members ts rest rest' →
    Reads .members (unionMembers (flat t) ++ ts) (unionMemberName t ++ '|' :: rest) rest'

theorem reads_listed {close : Char} {ts : List TypeName} (h : ∀ t ∈ ts, Described t) (hne : ts ≠ []) :
    Reads (.listed close) (ts.map flat) (separated ',' (ts.map describeTypeName) ++ close :: rest) rest := by
  induction ts with
  | nil => exact absurd rfl hne
  | cons t ts ih =>
    obtain ⟨ht, h⟩ := List.forall_mem_cons.mp h
    cases ts with
    | nil => exact .listedLast ht.union (token_self close rest)
    | cons t' ts' =>
      have hmore := ih h (List.cons_ne_nil _ _)
      rw [List.map_cons, List.map_cons, List.map_cons, separated, List.append_assoc, List.cons_append]
      · exact .listedMore ht.union (token_self ',' _) hmore
      · nofun

theorem reads_members {ts : List TypeName} (h : ∀ t ∈ ts, Described t) (hne : ts ≠ []) :
    Reads .members (ts.flatMap fun t => unionMembers (flat t))
      (separated '|' (ts.map unionMemberName) ++ rest) rest := by
  induction ts with
  | nil => exact absurd rfl hne
  | cons t ts ih =>
    obtain ⟨ht, h⟩ := List.forall_mem_cons.mp h
    cases ts with
    | nil =>
      rw [List.flatMap_cons, List.flatMap_nil, List.append_nil]
      exact ht.last
    | cons t' ts' =>
      have hmore := ih h (List.cons_ne_nil _ _)
      rw [List.flatMap_cons, List.map_cons, List.map_cons, separated, List.append_assoc, List.cons_append]
      · exact ht.more hmore
      · nofun

theorem reads_members_more {ts more : List TypeName} (h : ∀ t ∈ ts, Described t) (hne : ts ≠ [])
    (hmore : Reads .members more rest rest') :
    Reads .members ((ts.flatMap fun t => unionMembers (flat t)) ++ more)
      (separated '|' (ts.map unionMemberName) ++ '|' :: rest) rest' := by
  induction ts with
  | nil => exact absurd rfl hne
  | cons t ts ih =>
    obtain ⟨ht, h⟩ := List.forall_mem_cons.mp h
    cases ts with
    | nil =>
      rw [List.flatMap_cons, List.flatMap_nil, List.append_nil]
      exact ht.more hmore
    | cons t' ts' =>
      have hothers := ih h (List.cons_ne_nil _ _)
      rw [List.flatMap_cons, List.map_cons, List.map_cons, separated, List.append_assoc, List.append_assoc,
        List.cons_append]
      · exact ht.more hothers
      · nofun

theorem reads_arguments (h : ∀ t ∈ args, Described t) (hname : name ≠ "func" ∨ args = []) :
    Reads .arguments (args.map flat) (describeArguments name (args.map describeTypeName) ++ rest) rest := by
  unfold describeArguments
  cases args with
  | nil => exact .noArguments
  | cons t ts =>
    have hfunc : name ≠ "func" := hname.resolve_right (List.cons_ne_nil _ _)
    have hempty : ((t :: ts).map describeTypeName).isEmpty = false := rfl
    rw [hempty, if_neg Bool.false_ne_true, if_neg hfunc, List.append_assoc]
    exact .arguments (token_self '<' _) (reads_listed h (List.cons_ne_nil _ _))

theorem reads_function (h : ∀ t ∈ args, Described t) (hne : args ≠ []) :
    Reads .function (args.map flat) (describeArguments "func" (args.map describeTypeName) ++ rest) rest := by
  obtain ⟨params, result, rfl⟩ : ∃ params result, args = params ++ [result] :=
    ⟨_, _, (List.dropLast_append_getLast hne).symm⟩
  have hempty : ((params ++ [result]).map describeTypeName).isEmpty = false := by simp
  have htext : describeArguments "func" ((params ++ [result]).map describeTypeName) ++ rest =
      '(' :: (separated ',' (params.map describeTypeName) ++ ')' :: ':' ::
        (describeTypeName result ++ rest)) := by
    unfold describeArguments
    rw [hempty, if_neg Bool.false_ne_true, if_pos rfl, List.map_append, List.map_singleton,
      List.dropLast_concat, List.getLastD_concat]
    simp
  have hparams : Reads (.listed ')') (params.map flat) (separated ',' (params.map describeTypeName) ++
      ')' :: ':' :: (describeTypeName result ++ rest)) (':' :: (describeTypeName result ++ rest)) := by
    by_cases hnil : params = []
    · rw [hnil]
      exact .listedNone (token_self ')' _)
    · exact reads_listed (fun t ht => h t (List.mem_append_left _ ht)) hnil
  rw [htext, List.map_append, List.map_singleton]
  exact .signature (token_self '(' _) hparams (token_self ':' _)
    (h result (List.mem_append_right _ List.mem_cons_self)).union

/-- A type that stands by itself among members stands in parentheses or is no function type. -/
theorem closed_member {t : TypeName} (hunion : ∀ {rest : List Char},
      Reads .union (flat t) (describeTypeName t ++ rest) rest)
    (hclosed : isFunction t = false → ∀ {rest : List Char},
      Reads .closed (flat t) (describeTypeName t ++ rest) rest) :
    Reads .closed (flat t) (unionMemberName t ++ rest) rest := by
  unfold unionMemberName grouped
  split
  · rw [List.append_assoc]
    exact .group (token_self '(' _) hunion (token_self ')' rest)
  · next hfunction => exact hclosed (Bool.eq_false_iff.mpr hfunction)

theorem described_named {fixedSize : Option Nat} (h : ∀ t ∈ args, Described t)
    (hne : name.toList ≠ []) (hchars : ∀ c ∈ name.toList, isNameChar c = true)
    (hsize : ∀ size, fixedSize = some size → name = "array" ∧ size < 2 ^ 64) :
    Described (.named name args fixedSize) := by
  have hflat : flat (.named name args fixedSize) = .named name (args.map flat) fixedSize := by
    rw [flat, flatAll_eq_map]
  have htext : ∀ rest, describeTypeName (.named name args fixedSize) ++ rest =
      name.toList ++ (describeSize name fixedSize ++
        (describeArguments name (args.map describeTypeName) ++ rest)) := by
    intro rest
    rw [describeTypeName, describeAll_eq_map, List.append_assoc, List.append_assoc]
  have hclosed : isFunction (.named name args fixedSize) = false → ∀ {rest : List Char},
      Reads .closed (flat (.named name args fixedSize))
        (describeTypeName (.named name args fixedSize) ++ rest) rest := by
    intro hfunction rest
    have hname : name ≠ "func" ∨ args = [] := by
      rw [isFunction, Bool.and_eq_false_iff, decide_eq_false_iff_not, Bool.not_eq_false',
        List.isEmpty_iff] at hfunction
      exact hfunction
    rw [hflat, htext]
    exact .named ⟨.refl _, hne, hchars⟩ (sizeText_describeSize hsize _) (reads_arguments h hname)
  have hprimary : ∀ {rest : List Char}, Reads .primary (flat (.named name args fixedSize))
      (describeTypeName (.named name args fixedSize) ++ rest) rest := by
    intro rest
    cases hfunction : isFunction (.named name args fixedSize) with
    | false => exact .closed (hclosed hfunction)
    | true =>
      rw [isFunction, Bool.and_eq_true, decide_eq_true_iff, Bool.not_eq_true',
        List.isEmpty_eq_false_iff] at hfunction
      obtain ⟨rfl, hargs⟩ := hfunction
      cases fixedSize with
      | some size => exact absurd (hsize size rfl).1 (by decide)
      | none =>
        rw [hflat, htext]
        exact .function ⟨.refl _, hne, hchars⟩ (reads_function h hargs)
  have hunion : ∀ {rest : List Char}, Reads .union (flat (.named name args fixedSize))
      (describeTypeName (.named name args fixedSize) ++ rest) rest := .union (.last hprimary)
  have hmember : ∀ {rest : List Char}, Reads .closed (flat (.named name args fixedSize))
      (unionMemberName (.named name args fixedSize) ++ rest) rest := closed_member hunion hclosed
  refine ⟨fun _ => hprimary, fun _ hfunction => hclosed hfunction, hunion, ?_, fun hmore => ?_⟩
  · rw [hflat] at hmember ⊢
    exact .last (.closed hmember)
  · rw [hflat] at hmember ⊢
    exact .more hmember (token_self '|' _) hmore

theorem described (t : TypeName) : Spelled t → Described t := by
  induction t using TypeName.induction_children with
  | h t ih =>
    intro hspelled
    cases hspelled with
    | named hne hchars hsize hargs =>
      exact described_named (fun t ht => ih t ht (hargs t ht)) hne hchars hsize
    | @union members hne hmembers =>
      have hall : ∀ t ∈ members, Described t := fun t ht => ih t ht (hmembers t ht)
      have hflat : flat (.union members) = asWritten (members.flatMap fun t => unionMembers (flat t)) := by
        rw [flat, flatAll_eq_map, List.flatMap_map]
      have hnamed : ∀ m ∈ members.flatMap fun t => unionMembers (flat t), isNamed m := by
        intro m hm
        obtain ⟨t, -, hm⟩ := List.mem_flatMap.mp hm
        exact isNamed_of_mem_flat t m hm
      have htext : describeTypeName (.union members) = separated '|' (members.map unionMemberName) := by
        rw [describeTypeName, describeMembers_eq_map]
      have hmember : unionMemberName (.union members) = separated '|' (members.map unionMemberName) := by
        rw [unionMemberName, grouped, isFunction, htext]
        rfl
      refine ⟨nofun, nofun, ?_, ?_, fun hmore => ?_⟩
      · rw [hflat, htext]
        exact .union (reads_members hall hne)
      · rw [hflat, unionMembers_asWritten hnamed, hmember]
        exact reads_members hall hne
      · rw [hflat, unionMembers_asWritten hnamed, hmember]
        exact reads_members_more hall hne hmore

end

theorem written_describe {t : TypeName} (h : Spelled t) : Written (describeTypeName t) (flat t) := by
  have hreads := @Described.union _ (described t h) []
  rw [List.append_nil] at hreads
  exact ⟨[], hreads, .refl _⟩

theorem WellFormed.spelled {t : TypeName} (h : WellFormed t) : Spelled t := by
  induction h with
  | named hname hsize _ ih => exact .named hname.ne_nil hname.chars hsize ih
  | union hne _ _ ih => exact .union hne ih

theorem standard_of_wellFormed {t : TypeName} (h : WellFormed t) : standard t = t := by
  induction h with
  | named hname _ _ ih =>
    rw [standard, hname.canonical, standardAll_eq_map, List.map_congr_left ih, List.map_id']
  | union _ _ _ ih => rw [standard, standardAll_eq_map, List.map_congr_left ih, List.map_id']

theorem standard_asWritten (ts : List TypeName) :
    standard (asWritten ts) = asWritten (ts.map standard) := by
  unfold asWritten
  split
  · rfl
  · next hlength =>
    rw [standard, standardAll_eq_map]
    split
    · next t heq =>
      obtain ⟨t', rfl⟩ := List.length_eq_one_iff.mp (by simpa using congrArg List.length heq)
      exact absurd rfl (hlength t')
    · rfl

theorem unionMembers_standard (t : TypeName) :
    unionMembers (standard t) = (unionMembers t).map standard := by
  cases t with
  | named name args fixedSize => rfl
  | union members =>
    rw [standard, standardAll_eq_map]
    rfl

theorem standard_flat (t : TypeName) : standard (flat t) = flat (standard t) := by
  induction t using TypeName.induction_children with
  | h t ih =>
    cases t with
    | named name args fixedSize =>
      rw [flat, standard, standard, flat, flatAll_eq_map, flatAll_eq_map, standardAll_eq_map,
        standardAll_eq_map, List.map_map, List.map_map, TypeName.named.injEq]
      exact ⟨rfl, List.map_congr_left ih, rfl⟩
    | union members =>
      rw [flat, standard_asWritten, standard, flat, flatAll_eq_map, flatAll_eq_map, standardAll_eq_map,
        List.flatMap_map, List.flatMap_map, List.flatMap_map, List.map_flatMap]
      have hmembers : ∀ t ∈ members,
          (unionMembers (flat t)).map standard = unionMembers (flat (standard t)) := by
        intro t ht
        rw [← unionMembers_standard, ih t ht]
      rw [List.flatMap_congr hmembers]

theorem reread_asWritten (ts : List TypeName) : reread (asWritten ts) = unionOf (ts.map reread) := by
  unfold asWritten
  split
  · rfl
  · rw [reread, rereadAll_eq_map]

theorem reread_flat {t : TypeName} (h : WellFormed t) : reread (flat t) = reread t := by
  induction h with
  | named _ _ _ ih =>
    rw [flat, reread, reread, flatAll_eq_map, rereadAll_eq_map, rereadAll_eq_map, List.map_map,
      TypeName.named.injEq]
    exact ⟨rfl, List.map_congr_left ih, rfl⟩
  | @union members _ _ hnamed ih =>
    have hmembers : ∀ m ∈ members, unionMembers (flat m) = [flat m] := by
      intro m hm
      have hm := hnamed m hm
      cases m with
      | named name args fixedSize => rfl
      | union members => exact hm.elim
    rw [flat, flatAll_eq_map, List.flatMap_map, List.flatMap_congr hmembers, ← List.map_eq_flatMap,
      reread_asWritten, reread, rereadAll_eq_map, List.map_map]
    exact congrArg unionOf (List.map_congr_left ih)

theorem parse_describe_spelled {t : TypeName} (h : Spelled t) :
    parseTypeName (describeTypeName t) = settled (flat t) :=
  (written_describe h).parseTypeName

theorem parse_describe {t : TypeName} (hwf : WellFormed t) :
    parseTypeName (describeTypeName t) = reread t := by
  rw [parse_describe_spelled hwf.spelled, settled, standard_flat, standard_of_wellFormed hwf,
    reread_flat hwf]

theorem mem_uniqueFrom {kept t : TypeName} {ts : List TypeName} :
    t ∈ uniqueFrom kept ts ↔ t = kept ∨ t ∈ ts := by
  induction ts generalizing kept with
  | nil => simp [uniqueFrom]
  | cons s ts ih =>
    rw [uniqueFrom]
    split
    · next heq =>
      rw [typeNamesEqual_iff] at heq
      subst heq
      rw [ih, List.mem_cons, or_self_left]
    · rw [List.mem_cons, ih, List.mem_cons]

theorem mem_unique {t : TypeName} {ts : List TypeName} : t ∈ unique ts ↔ t ∈ ts := by
  cases ts with
  | nil => exact Iff.rfl
  | cons s ts => rw [unique, mem_uniqueFrom, List.mem_cons]

theorem mem_sortedMembers {t : TypeName} {members : List TypeName} :
    t ∈ unique ((members.flatMap unionMembers).insertionSort fun a b =>
      textLe (unionMemberName a) (unionMemberName b)) ↔ ∃ m ∈ members, t ∈ unionMembers m := by
  rw [mem_unique, (List.perm_insertionSort _ _).mem_iff, List.mem_flatMap]

theorem WellFormed.unionMembers {t : TypeName} (h : WellFormed t) :
    unionMembers t ≠ [] ∧ ∀ m ∈ unionMembers t, WellFormed m ∧ isNamed m := by
  cases h with
  | named hname hsize hargs =>
    refine ⟨List.cons_ne_nil _ _, fun m hm => ?_⟩
    obtain rfl := List.mem_singleton.mp hm
    exact ⟨.named hname hsize hargs, trivial⟩
  | union hne hmembers hnamed => exact ⟨hne, fun m hm => ⟨hmembers m hm, hnamed m hm⟩⟩

theorem wellFormed_unionOf {first : TypeName} {members : List TypeName}
    (h : ∀ t ∈ first :: members, WellFormed t) :
    WellFormed (unionOf (first :: members)) := by
  cases members with
  | nil => exact h first List.mem_cons_self
  | cons second members =>
    refine .union ?_ (fun t ht => ?_) (fun t ht => ?_)
    · obtain ⟨hne, -⟩ := (h first List.mem_cons_self).unionMembers
      obtain ⟨m, hm⟩ := List.exists_mem_of_ne_nil _ hne
      exact List.ne_nil_of_mem (mem_sortedMembers.mpr ⟨first, List.mem_cons_self, hm⟩)
    · obtain ⟨m, hm, htm⟩ := mem_sortedMembers.mp ht
      exact ((h m hm).unionMembers.2 t htm).1
    · obtain ⟨m, hm, htm⟩ := mem_sortedMembers.mp ht
      exact ((h m hm).unionMembers.2 t htm).2

theorem validName_canonicalName {chars : List Char} (hne : chars ≠ [])
    (h : ∀ c ∈ chars, isNameChar c = true) :
    ValidName (canonicalName (String.ofList chars)) := by
  unfold canonicalName
  split
  · exact ⟨by decide, List.all_eq_true.mp rfl, by decide⟩
  split
  · exact ⟨by decide, List.all_eq_true.mp rfl, by decide⟩
  · next hdouble hnil =>
    refine ⟨by rwa [String.toList_ofList], by rwa [String.toList_ofList], ?_⟩
    rw [canonicalName, if_neg hdouble, if_neg hnil]

/-- The types in which every union has two members at least. -/
inductive Several : TypeName → Prop where
  | named {name : String} {args : List TypeName} {fixedSize : Option Nat}
      (hargs : ∀ t ∈ args, Several t) : Several (.named name args fixedSize)
  | union {members : List TypeName} (hlength : 2 ≤ members.length)
      (hmembers : ∀ t ∈ members, Several t) : Several (.union members)

/-- What the grammar says of the types of a part. -/
def Part.All (P : TypeName → Prop) : (part : Part) → part.Result → Prop
  | .union, t | .primary, t | .closed, t => P t
  | .members, ts | .function, ts | .arguments, ts | .listed _, ts => ∀ t ∈ ts, P t

theorem spelled_asWritten {ts : List TypeName} (hne : ts ≠ []) (h : ∀ t ∈ ts, Spelled t) :
    Spelled (asWritten ts) := by
  unfold asWritten
  split
  · exact h _ List.mem_cons_self
  · exact .union hne h

theorem several_asWritten {ts : List TypeName} (hne : ts ≠ []) (h : ∀ t ∈ ts, Several t) :
    Several (asWritten ts) := by
  unfold asWritten
  split
  · exact h _ List.mem_cons_self
  · next hlength =>
    refine .union ?_ h
    match ts, hne, hlength with
    | [t], _, hlength => exact absurd rfl (hlength t)
    | _ :: _ :: _, _, _ => simp

theorem SizeText.fits {name : String} {size : Option Nat} {text rest : List Char}
    (h : SizeText name size text rest) : ∀ n, size = some n → name = "array" ∧ n < 2 ^ 64 := by
  cases h with
  | none => nofun
  | size hname _ _ _ _ hfits =>
    rintro n hn
    obtain rfl := Option.some.inj hn
    exact ⟨hname, hfits⟩

section
variable {part : Part} {result : part.Result} {text rest : List Char}

theorem Reads.members_ne_nil {ts : List TypeName} (h : Reads .members ts text rest) : ts ≠ [] := by
  cases h <;> exact List.cons_ne_nil _ _

theorem Reads.spelled (h : Reads part result text rest) :
    part.All (fun t => Spelled t ∧ Several t) result := by
  induction h with
  | union h ih =>
    exact ⟨spelled_asWritten h.members_ne_nil fun t ht => (ih t ht).1,
      several_asWritten h.members_ne_nil fun t ht => (ih t ht).2⟩
  | last _ ih => exact List.forall_mem_singleton.mpr ih
  | more _ _ _ ih ihmore => exact List.forall_mem_cons.mpr ⟨ih, ihmore⟩
  | closed _ ih => exact ih
  | function hname _ ih =>
    exact ⟨.named hname.ne_nil hname.chars nofun fun t ht => (ih t ht).1, .named fun t ht => (ih t ht).2⟩
  | group _ _ _ ih => exact ih
  | named hname hsize _ ih =>
    exact ⟨.named hname.ne_nil hname.chars hsize.fits fun t ht => (ih t ht).1,
      .named fun t ht => (ih t ht).2⟩
  | signature _ _ _ _ ihparams ih =>
    exact List.forall_mem_append.mpr ⟨ihparams, List.forall_mem_singleton.mpr ih⟩
  | noArguments => nofun
  | emptyArguments => nofun
  | arguments _ _ ih => exact ih
  | listedNone => nofun
  | listedLast _ _ ih => exact List.forall_mem_singleton.mpr ih
  | listedMore _ _ _ ih ihmore => exact List.forall_mem_cons.mpr ⟨ih, ihmore⟩

end

theorem Written.spelled {text : List Char} {e : TypeName} (h : Written text e) : Spelled e := by
  obtain ⟨rest, hreads, -⟩ := h
  exact hreads.spelled.1

theorem Written.several {text : List Char} {e : TypeName} (h : Written text e) : Several e := by
  obtain ⟨rest, hreads, -⟩ := h
  exact hreads.spelled.2

theorem canonicalName_eq_array_iff {name : String} : canonicalName name = "array" ↔ name = "array" :=
  ⟨canonicalName_eq_array, fun h => by rw [h, canonicalName_array]⟩

theorem Spelled.wellFormed {t : TypeName} (h : Spelled t) : WellFormed (settled t) := by
  induction h with
  | @named name args fixedSize hne hchars hsize _ ih =>
    have hname := validName_canonicalName hne hchars
    rw [String.ofList_toList] at hname
    rw [settled_named]
    refine .named hname (fun size hsome => ?_) (List.forall_mem_map.mpr ih)
    exact ⟨canonicalName_eq_array_iff.mpr (hsize size hsome).1, (hsize size hsome).2⟩
  | @union members hne _ ih =>
    rw [settled_union]
    obtain ⟨first, others, rfl⟩ := List.exists_cons_of_ne_nil hne
    exact wellFormed_unionOf (List.forall_mem_map.mpr ih)

theorem wellFormed_parseTypeName (text : List Char) :
    WellFormed (parseTypeName text) ∨ parseTypeName text = invalidType := by
  by_cases haccepted : parseTypeName text = invalidType
  · exact .inr haccepted
  · obtain ⟨e, hwritten, heq⟩ := written_of_parseTypeName haccepted
    rw [heq]
    exact .inl hwritten.spelled.wellFormed

end zl
