import Zl.Common.Synonyms

namespace zl

theorem textLe_cons {c d : Char} {cs ds : List Char} :
    textLe (c :: cs) (d :: ds) = true ↔ c.toNat < d.toNat ∨ c = d ∧ textLe cs ds = true := by
  rw [textLe, Bool.or_eq_true, Bool.and_eq_true, decide_eq_true_iff, decide_eq_true_iff]
  rfl

theorem textLe_total (s t : List Char) : textLe s t = true ∨ textLe t s = true := by
  induction s generalizing t with
  | nil => exact .inl rfl
  | cons c cs ih =>
    cases t with
    | nil => exact .inr rfl
    | cons d ds =>
      rw [textLe_cons, textLe_cons]
      rcases lt_trichotomy c.toNat d.toNat with hlt | heq | hgt
      · exact .inl (.inl hlt)
      · have hchar : c = d := Char.ext (UInt32.toNat_inj.mp heq)
        exact (ih ds).imp (fun h => .inr ⟨hchar, h⟩) fun h => .inr ⟨hchar.symm, h⟩
      · exact .inr (.inl hgt)

theorem textLe_trans {s t u : List Char} (h : textLe s t = true) (h' : textLe t u = true) :
    textLe s u = true := by
  induction s generalizing t u with
  | nil => rfl
  | cons c cs ih =>
    cases t with
    | nil => nomatch h
    | cons d ds =>
      cases u with
      | nil => nomatch h'
      | cons e es =>
        rw [textLe_cons] at h h' ⊢
        rcases h with hlt | ⟨rfl, h⟩
        · rcases h' with hlt' | ⟨rfl, h'⟩
          · exact .inl (hlt.trans hlt')
          · exact .inl hlt
        · exact h'.imp_right fun h' => ⟨h'.1, ih h h'.2⟩

theorem textLe_antisymm {s t : List Char} (h : textLe s t = true) (h' : textLe t s = true) : s = t := by
  induction s generalizing t with
  | nil =>
    cases t with
    | nil => rfl
    | cons d ds => nomatch h'
  | cons c cs ih =>
    cases t with
    | nil => nomatch h
    | cons d ds =>
      rw [textLe_cons] at h h'
      rcases h with hlt | ⟨rfl, h⟩
      · rcases h' with hlt' | ⟨rfl, -⟩ <;> omega
      · rcases h' with hlt' | ⟨-, h'⟩
        · omega
        · rw [ih h h']

theorem uniqueFrom_cons (kept : TypeName) (ts : List TypeName) :
    ∃ others, uniqueFrom kept ts = kept :: others ∧ others.Sublist ts := by
  induction ts generalizing kept with
  | nil => exact ⟨[], rfl, .slnil⟩
  | cons t ts ih =>
    rw [uniqueFrom]
    split
    · obtain ⟨others, heq, hsublist⟩ := ih kept
      exact ⟨others, heq, hsublist.cons t⟩
    · obtain ⟨others, heq, hsublist⟩ := ih t
      exact ⟨uniqueFrom t ts, rfl, heq ▸ hsublist.cons_cons t⟩

theorem unique_sublist (ts : List TypeName) : (unique ts).Sublist ts := by
  cases ts with
  | nil => exact .slnil
  | cons t ts =>
    obtain ⟨others, heq, hsublist⟩ := uniqueFrom_cons t ts
    rw [unique, heq]
    exact hsublist.cons_cons t

theorem isChain_uniqueFrom (kept : TypeName) (ts : List TypeName) :
    (uniqueFrom kept ts).IsChain (· ≠ ·) := by
  induction ts generalizing kept with
  | nil => exact .singleton kept
  | cons t ts ih =>
    rw [uniqueFrom]
    split
    · exact ih kept
    · next hne =>
      obtain ⟨others, heq, -⟩ := uniqueFrom_cons t ts
      have hchain := ih t
      rw [heq] at hchain ⊢
      exact .cons_cons (fun h => hne ((typeNamesEqual_iff _ _).mpr h)) hchain

theorem isChain_unique (ts : List TypeName) : (unique ts).IsChain (· ≠ ·) := by
  cases ts with
  | nil => exact .nil
  | cons t ts => exact isChain_uniqueFrom t ts

theorem unique_of_isChain {ts : List TypeName} (h : ts.IsChain (· ≠ ·)) : unique ts = ts := by
  induction ts with
  | nil => rfl
  | cons t ts ih =>
    cases ts with
    | nil => rfl
    | cons t' ts =>
      cases h with
      | cons_cons hne h =>
        rw [unique, uniqueFrom, if_neg fun heq => hne ((typeNamesEqual_iff _ _).mp heq)]
        exact congrArg (t :: ·) (ih h)

theorem pairwise_gathered (members : List TypeName) : (gathered members).Pairwise fun a b =>
    textLe (unionMemberName a) (unionMemberName b) = true := by
  have : Std.Total fun a b : TypeName => textLe (unionMemberName a) (unionMemberName b) = true :=
    ⟨fun a b => textLe_total _ _⟩
  have : IsTrans TypeName fun a b => textLe (unionMemberName a) (unionMemberName b) = true :=
    ⟨fun a b c => textLe_trans⟩
  exact (List.pairwise_insertionSort _ _).sublist (unique_sublist _)

/-- The types that parsing gives: the members of a union are named types, in the order of their
    names and none next to itself. -/
inductive Canonical : TypeName → Prop where
  | named {name : String} {args : List TypeName} {fixedSize : Option Nat}
      (hargs : ∀ t ∈ args, Canonical t) : Canonical (.named name args fixedSize)
  | union {members : List TypeName} (hnamed : ∀ t ∈ members, isNamed t)
      (hmembers : ∀ t ∈ members, Canonical t)
      (hsorted : members.Pairwise fun a b => textLe (unionMemberName a) (unionMemberName b) = true)
      (hchain : members.IsChain (· ≠ ·)) : Canonical (.union members)

theorem Canonical.unionMembers {t : TypeName} (h : Canonical t) :
    ∀ m ∈ unionMembers t, Canonical m ∧ isNamed m := by
  intro m hm
  cases h with
  | named hargs =>
    obtain rfl := List.mem_singleton.mp hm
    exact ⟨.named hargs, trivial⟩
  | union hnamed hmembers hsorted hchain => exact ⟨hmembers m hm, hnamed m hm⟩

theorem canonical_unionOf {members : List TypeName} (h : ∀ t ∈ members, Canonical t) :
    Canonical (unionOf members) := by
  by_cases hlength : members.length = 1
  · obtain ⟨t, rfl⟩ := List.length_eq_one_iff.mp hlength
    exact h t List.mem_cons_self
  · rw [unionOf_eq_gathered hlength]
    have hmem : ∀ t ∈ gathered members, Canonical t ∧ isNamed t := by
      intro t ht
      obtain ⟨m, hm, ht⟩ := List.mem_flatMap.mp (mem_gathered.mp ht)
      exact (h m hm).unionMembers t ht
    exact .union (fun t ht => (hmem t ht).2) (fun t ht => (hmem t ht).1) (pairwise_gathered members)
      (isChain_unique _)

theorem canonical_reread (t : TypeName) : Canonical (reread t) := by
  induction t using TypeName.induction_children with
  | h t ih =>
    cases t with
    | named name args fixedSize =>
      rw [reread, rereadAll_eq_map]
      exact .named (List.forall_mem_map.mpr ih)
    | union members =>
      rw [reread, rereadAll_eq_map]
      exact canonical_unionOf (List.forall_mem_map.mpr ih)

theorem flatMap_unionMembers {members : List TypeName} (h : ∀ t ∈ members, isNamed t) :
    members.flatMap unionMembers = members := by
  have hmembers : ∀ t ∈ members, unionMembers t = [t] := by
    intro t ht
    have hnamed := h t ht
    cases t with
    | named name args fixedSize => rfl
    | union members => exact hnamed.elim
  rw [List.flatMap_congr hmembers, List.flatMap_singleton']

theorem gathered_of_canonical {members : List TypeName} (h : Canonical (.union members)) :
    gathered members = members := by
  cases h with
  | union hnamed hmembers hsorted hchain =>
    rw [gathered, flatMap_unionMembers hnamed, hsorted.insertionSort_eq, unique_of_isChain hchain]

/-- A type that parsing gives reads back as it is where every union has two members at least. -/
theorem reread_of_several {t : TypeName} (hcanonical : Canonical t) (hseveral : Several t) :
    reread t = t := by
  induction hseveral with
  | named _ ih =>
    cases hcanonical with
    | named hargs =>
      rw [reread, rereadAll_eq_map, List.map_congr_left fun t ht => ih t ht (hargs t ht), List.map_id']
  | union hlength _ ih =>
    have hgathered := gathered_of_canonical hcanonical
    cases hcanonical with
    | union hnamed hmembers hsorted hchain =>
      rw [reread, rereadAll_eq_map, List.map_congr_left fun t ht => ih t ht (hmembers t ht), List.map_id',
        unionOf_eq_gathered (by omega), hgathered]

mutual

/-- The number of types and unions in a type. -/
def weight : TypeName → Nat
  | .named _ args _ => 1 + weightAll args
  | .union members => 1 + weightAll members

def weightAll : List TypeName → Nat
  | [] => 0
  | t :: ts => weight t + weightAll ts

end

theorem weightAll_eq_sum (ts : List TypeName) : weightAll ts = (ts.map weight).sum := by
  induction ts with
  | nil => rfl
  | cons t ts ih => rw [weightAll, ih, List.map_cons, List.sum_cons]

theorem weight_unionMembers (t : TypeName) : ((unionMembers t).map weight).sum ≤ weight t := by
  cases t with
  | named name args fixedSize => simp [unionMembers]
  | union members =>
    rw [weight, weightAll_eq_sum, unionMembers]
    exact Nat.le_add_left _ _

theorem weight_flatMap (ts : List TypeName) :
    ((ts.flatMap unionMembers).map weight).sum ≤ (ts.map weight).sum := by
  induction ts with
  | nil => exact le_rfl
  | cons t ts ih =>
    rw [List.flatMap_cons, List.map_append, List.sum_append, List.map_cons, List.sum_cons]
    exact Nat.add_le_add (weight_unionMembers t) ih

theorem weight_gathered (ts : List TypeName) : ((gathered ts).map weight).sum ≤ (ts.map weight).sum := by
  refine le_trans ?_ (weight_flatMap ts)
  rw [← ((List.perm_insertionSort (fun a b => textLe (unionMemberName a) (unionMemberName b) = true)
    (ts.flatMap unionMembers)).map weight).sum_eq]
  exact ((unique_sublist _).map weight).sum_le_sum fun _ _ => Nat.zero_le _

theorem weight_unionOf (ts : List TypeName) : weight (unionOf ts) ≤ 1 + (ts.map weight).sum := by
  by_cases hlength : ts.length = 1
  · obtain ⟨t, rfl⟩ := List.length_eq_one_iff.mp hlength
    change weight t ≤ _
    simp
  · rw [unionOf_eq_gathered hlength, weight, weightAll_eq_sum]
    exact Nat.add_le_add_left (weight_gathered ts) 1

theorem sum_map_le {f g : TypeName → Nat} {ts : List TypeName} (hle : ∀ t ∈ ts, f t ≤ g t) :
    (ts.map f).sum ≤ (ts.map g).sum ∧ ((ts.map f).sum = (ts.map g).sum → ∀ t ∈ ts, f t = g t) := by
  induction ts with
  | nil => exact ⟨le_rfl, fun _ => List.forall_mem_nil _⟩
  | cons t ts ih =>
    obtain ⟨ht, hts⟩ := List.forall_mem_cons.mp hle
    obtain ⟨hsum, heq⟩ := ih hts
    simp only [List.map_cons, List.sum_cons, List.forall_mem_cons]
    exact ⟨by omega, fun h => ⟨by omega, heq (by omega)⟩⟩

theorem weight_reread (t : TypeName) : weight (reread t) ≤ weight t := by
  induction t using TypeName.induction_children with
  | h t ih =>
    cases t with
    | named name args fixedSize =>
      have hsum : (args.map (weight ∘ reread)).sum ≤ (args.map weight).sum := (sum_map_le ih).1
      rw [reread, rereadAll_eq_map, weight, weight, weightAll_eq_sum, weightAll_eq_sum, List.map_map]
      exact Nat.add_le_add_left hsum 1
    | union members =>
      have hsum : (members.map (weight ∘ reread)).sum ≤ (members.map weight).sum := (sum_map_le ih).1
      have hunion := weight_unionOf (members.map reread)
      rw [List.map_map] at hunion
      rw [reread, rereadAll_eq_map, weight, weightAll_eq_sum]
      exact hunion.trans (Nat.add_le_add_left hsum 1)

theorem several_of_weight {t : TypeName} (h : Spelled t) (hweight : weight (reread t) = weight t) :
    Several t := by
  induction h with
  | @named name args fixedSize _ _ _ _ ih =>
    rw [reread, rereadAll_eq_map, weight, weight, weightAll_eq_sum, weightAll_eq_sum, List.map_map] at hweight
    have heq : ∀ t ∈ args, weight (reread t) = weight t :=
      (sum_map_le fun t _ => weight_reread t).2 (Nat.add_left_cancel hweight)
    exact .named fun t ht => ih t ht (heq t ht)
  | @union members hne _ ih =>
    have hsum : (members.map (weight ∘ reread)).sum ≤ (members.map weight).sum ∧
        ((members.map (weight ∘ reread)).sum = (members.map weight).sum →
          ∀ t ∈ members, weight (reread t) = weight t) := sum_map_le fun t _ => weight_reread t
    have hunion := weight_unionOf (members.map reread)
    rw [reread, rereadAll_eq_map, weight, weightAll_eq_sum] at hweight
    rw [List.map_map] at hunion
    have heq := hsum.2 (le_antisymm hsum.1 (by omega))
    refine .union ?_ fun t ht => ih t ht (heq t ht)
    rcases members with _ | ⟨t, _ | ⟨t', rest⟩⟩
    · exact absurd rfl hne
    · have hle := weight_reread t
      change weight (reread t) = 1 + (weight t + 0) at hweight
      omega
    · simp

/-- A type that parsing gives in which every union has two members at least. -/
structure Stable (t : TypeName) : Prop where
  wellFormed : WellFormed t
  canonical : Canonical t
  several : Several t

theorem Stable.reread {t : TypeName} (h : Stable t) : reread t = t :=
  reread_of_several h.canonical h.several

theorem Stable.argument {name : String} {args : List TypeName} {fixedSize : Option Nat}
    (h : Stable (.named name args fixedSize)) {t : TypeName} (ht : t ∈ args) : Stable t := by
  obtain ⟨⟨_, _, hwf⟩, ⟨hcanonical⟩, ⟨hseveral⟩⟩ := h
  exact ⟨hwf t ht, hcanonical t ht, hseveral t ht⟩

theorem Stable.member {members : List TypeName} (h : Stable (.union members)) {t : TypeName}
    (ht : t ∈ members) : Stable t ∧ isNamed t := by
  obtain ⟨hwf, hcanonical, hseveral⟩ := h
  cases hwf with
  | union _ hwf hnamed =>
    cases hcanonical with
    | union _ hcanonical _ _ =>
      cases hseveral with
      | union _ hseveral => exact ⟨⟨hwf t ht, hcanonical t ht, hseveral t ht⟩, hnamed t ht⟩

theorem parse_unionMemberName {t : TypeName} (hwf : WellFormed t) (hnamed : isNamed t) :
    parseTypeName (unionMemberName t) = reread t := by
  have hflat : asWritten (unionMembers (flat t)) = flat t := by
    cases t with
    | named name args fixedSize => rfl
    | union members => exact hnamed.elim
  have hreads := Reads.union (@Described.last _ (described t hwf.spelled) [])
  rw [List.append_nil, hflat] at hreads
  have hwritten : Written (unionMemberName t) (flat t) := ⟨[], hreads, .refl _⟩
  rw [hwritten.parseTypeName, settled, standard_flat, standard_of_wellFormed hwf, reread_flat hwf]

theorem Stable.eq_of_unionMemberName {t t' : TypeName} (h : Stable t) (h' : Stable t')
    (hnamed : isNamed t) (hnamed' : isNamed t') (heq : unionMemberName t = unionMemberName t') :
    t = t' := by
  rw [← h.reread, ← h'.reread, ← parse_unionMemberName h.wellFormed hnamed,
    ← parse_unionMemberName h'.wellFormed hnamed', heq]

theorem exists_alternative {t : TypeName} (h : isNamed t) : ∃ n, alternatives t = {n} := by
  cases t with
  | named name args fixedSize => exact ⟨_, rfl⟩
  | union members => exact h.elim

theorem alternatives_eq_of_mem {t t' : TypeName} {n : Nat} (h : isNamed t) (h' : isNamed t')
    (hn : n ∈ alternatives t) (hn' : n ∈ alternatives t') : alternatives t = alternatives t' := by
  obtain ⟨m, hm⟩ := exists_alternative h
  obtain ⟨m', hm'⟩ := exists_alternative h'
  rw [hm, Finset.mem_singleton] at hn
  rw [hm', Finset.mem_singleton] at hn'
  rw [hm, hm', ← hn, ← hn']

theorem eq_of_map_alternatives {ts ts' : List TypeName}
    (ih : ∀ t ∈ ts, ∀ t' ∈ ts', alternatives t = alternatives t' → t = t')
    (h : ts.map alternatives = ts'.map alternatives) : ts = ts' := by
  induction ts generalizing ts' with
  | nil => exact (List.map_eq_nil_iff.mp h.symm).symm
  | cons t ts ihts =>
    cases ts' with
    | nil => nomatch h
    | cons t' ts' =>
      obtain ⟨hhead, htail⟩ := List.cons.inj h
      rw [ih t List.mem_cons_self t' List.mem_cons_self hhead, ihts (fun s hs s' hs' =>
        ih s (List.mem_cons_of_mem _ hs) s' (List.mem_cons_of_mem _ hs')) htail]

theorem named_eq {name name' : String} {args args' : List TypeName} {fixedSize fixedSize' : Option Nat}
    (ih : ∀ t ∈ args, ∀ t' ∈ args', alternatives t = alternatives t' → t = t')
    (h : Stable (.named name args fixedSize)) (h' : Stable (.named name' args' fixedSize'))
    (heq : alternatives (.named name args fixedSize) = alternatives (.named name' args' fixedSize')) :
    TypeName.named name args fixedSize = .named name' args' fixedSize' := by
  rw [alternatives, alternatives, Finset.singleton_inj] at heq
  have heq := Encodable.encode_injective heq
  rw [Prod.mk.injEq, Prod.mk.injEq, alternativesAll_eq_map, alternativesAll_eq_map] at heq
  obtain ⟨hname, hargs, hsize⟩ := heq
  obtain ⟨⟨hvalid, _, _⟩, -, -⟩ := h
  obtain ⟨⟨hvalid', _, _⟩, -, -⟩ := h'
  rw [hvalid.canonical, hvalid'.canonical] at hname
  have hchars : Function.Injective Char.toNat := fun c d h => Char.ext (UInt32.toNat_inj.mp h)
  have hname := String.toList_inj.mp (List.map_injective_iff.mpr hchars hname)
  rw [hname, eq_of_map_alternatives ih hargs, hsize]

theorem exists_two_members {members : List TypeName} (hseveral : Several (.union members))
    (hchain : members.IsChain (· ≠ ·)) : ∃ s ∈ members, ∃ t ∈ members, s ≠ t := by
  cases hseveral with
  | union hlength _ =>
    match members, hlength, hchain with
    | s :: t :: _, _, .cons_cons hne _ =>
      exact ⟨s, List.mem_cons_self, t, List.mem_cons_of_mem _ List.mem_cons_self, hne⟩

theorem union_ne_named {members : List TypeName} {t : TypeName} (h : Stable (.union members))
    (hnamed : isNamed t) (ih : ∀ m ∈ members, alternatives m = alternatives t → m = t) :
    alternatives (.union members) ≠ alternatives t := by
  intro heq
  have hall : ∀ m ∈ members, m = t := by
    intro m hm
    obtain ⟨-, hm_named⟩ := h.member hm
    obtain ⟨n, hn⟩ := exists_alternative hm_named
    have hmem : n ∈ alternatives m := by rw [hn, Finset.mem_singleton]
    have hmem' : n ∈ alternatives t := heq ▸ mem_alternatives_union.mpr ⟨m, hm, hmem⟩
    exact ih m hm (alternatives_eq_of_mem hm_named hnamed hmem hmem')
  obtain ⟨-, hcanonical, hseveral⟩ := h
  cases hcanonical with
  | union _ _ _ hchain =>
    obtain ⟨s, hs, t', ht', hne⟩ := exists_two_members hseveral hchain
    exact hne ((hall s hs).trans (hall t' ht').symm)

theorem members_subset {members members' : List TypeName} (h : Stable (.union members))
    (h' : Stable (.union members'))
    (ih : ∀ m ∈ members, ∀ m' ∈ members', alternatives m = alternatives m' → m = m')
    (heq : alternatives (.union members) = alternatives (.union members')) : members ⊆ members' := by
  intro m hm
  obtain ⟨-, hm_named⟩ := h.member hm
  obtain ⟨n, hn⟩ := exists_alternative hm_named
  have hmem : n ∈ alternatives m := by rw [hn, Finset.mem_singleton]
  obtain ⟨m', hm', hmem'⟩ := mem_alternatives_union.mp (heq ▸ mem_alternatives_union.mpr ⟨m, hm, hmem⟩)
  rw [ih m hm m' hm' (alternatives_eq_of_mem hm_named (h'.member hm').2 hmem hmem')]
  exact hm'

theorem Stable.nodup {members : List TypeName} (h : Stable (.union members)) : members.Nodup := by
  have hmember := fun t (ht : t ∈ members) => h.member ht
  obtain ⟨-, hcanonical, -⟩ := h
  cases hcanonical with
  | union _ _ hsorted hchain =>
    clear * - hmember hsorted hchain
    induction members with
    | nil => exact .nil
    | cons t ts ih =>
      obtain ⟨hle, hsorted⟩ := List.pairwise_cons.mp hsorted
      have hnodup := ih (fun s hs => hmember s (List.mem_cons_of_mem _ hs)) hsorted hchain.of_cons
      refine List.nodup_cons.mpr ⟨fun hmem => ?_, hnodup⟩
      -- a later equal member comes after the next one and before it, so that the two are the same
      match ts, hle, hsorted, hchain, hmem with
      | s :: ts, hle, hsorted, .cons_cons hne _, hmem =>
        have hts := List.mem_cons_of_mem t (@List.mem_cons_self _ s ts)
        obtain ⟨hs, hs_named⟩ := hmember s hts
        obtain ⟨ht, ht_named⟩ := hmember t List.mem_cons_self
        rcases List.mem_cons.mp hmem with heq | hmem
        · exact hne heq
        · have hge := (List.pairwise_cons.mp hsorted).1 t hmem
          exact hne (ht.eq_of_unionMemberName hs ht_named hs_named
            (textLe_antisymm (hle s List.mem_cons_self) hge))

theorem Stable.eq_of_alternatives {t t' : TypeName} (h : Stable t) (h' : Stable t')
    (heq : alternatives t = alternatives t') : t = t' := by
  induction t using TypeName.induction_children generalizing t' with
  | h t ih =>
    cases t with
    | named name args fixedSize =>
      have ih_args : ∀ t ∈ args, ∀ {t' : TypeName}, Stable t' → alternatives t = alternatives t' → t = t' :=
        fun t ht t' ht' heq => ih t ht (h.argument ht) ht' heq
      cases t' with
      | named name' args' fixedSize' =>
        exact named_eq (fun t ht t' ht' => ih_args t ht (h'.argument ht')) h h' heq
      | union members' =>
        refine absurd heq.symm (union_ne_named h' trivial fun m' hm' heq => ?_)
        obtain ⟨hm', hm'_named⟩ := h'.member hm'
        cases m' with
        | named name' args' fixedSize' =>
          exact (named_eq (fun t ht t' ht' => ih_args t ht (hm'.argument ht')) h hm' heq.symm).symm
        | union inner => exact hm'_named.elim
    | union members =>
      have ih_members : ∀ m ∈ members, ∀ {t' : TypeName}, Stable t' → alternatives m = alternatives t' →
          m = t' := fun m hm t' ht' heq => ih m hm (h.member hm).1 ht' heq
      cases t' with
      | named name' args' fixedSize' =>
        exact absurd heq (union_ne_named h trivial fun m hm heq => ih_members m hm h' heq)
      | union members' =>
        have hsub := members_subset h h' (fun m hm m' hm' => ih_members m hm (h'.member hm').1) heq
        have hsub' := members_subset h' h
          (fun m' hm' m hm heq => (ih_members m hm (h'.member hm').1 heq.symm).symm) heq.symm
        have hperm : members.Perm members' := (List.perm_ext_iff_of_nodup h.nodup h'.nodup).mpr
          fun t => ⟨fun ht => hsub ht, fun ht => hsub' ht⟩
        obtain ⟨-, hcanonical, -⟩ := id h
        obtain ⟨-, hcanonical', -⟩ := id h'
        cases hcanonical with
        | union _ _ hsorted _ =>
          cases hcanonical' with
          | union _ _ hsorted' _ =>
            rw [hperm.eq_of_pairwise (fun a b ha hb hle hge => ?_) hsorted hsorted']
            exact (h.member ha).1.eq_of_unionMemberName (h'.member hb).1 (h.member ha).2 (h'.member hb).2
              (textLe_antisymm hle hge)

end zl
