import Mathlib.Data.List.Dedup
import Mathlib.Data.List.Induction
import Zl.Mir.Function

namespace zl.mir

/-- What a type says, with its parts in place of their ids. The sentinel id says nothing. -/
inductive TypeTree where
  | none
  | node (kind : TypeKind) (name : String) (arguments : List TypeTree) (fixedSize : Option Int)
      (parameterTypes : List TypeTree) (returnType : TypeTree) (isAsync hasSignature : Bool)

namespace TypeTree

/-- The arguments of a type as a list, or the members of a union in any order and number. -/
def Lists (kind : TypeKind) (arguments listed : List TypeTree) : Prop :=
  if kind = .Union then ∀ a, a ∈ arguments ↔ a ∈ listed else arguments = listed

theorem Lists.refl (kind : TypeKind) (arguments : List TypeTree) : Lists kind arguments arguments := by
  unfold Lists
  split
  · exact fun _ => Iff.rfl
  · rfl

/-- Two types are equal when their parts are, where a union is the set of its members, a union
    with one member is that member, and a function type has no name. -/
inductive Same : TypeTree → TypeTree → Prop
  | none : Same .none .none
  | node {kind : TypeKind} {name name' : String} {left right : List TypeTree}
      {fixedSize : Option Int} {result result' : TypeTree} {isAsync hasSignature : Bool}
      {arguments parameters : List (TypeTree × TypeTree)}
      (hname : kind ≠ .Function → name = name')
      (hleft : Lists kind left (arguments.map Prod.fst))
      (hright : Lists kind right (arguments.map Prod.snd))
      (harguments : ∀ p ∈ arguments, Same p.1 p.2) (hparameters : ∀ p ∈ parameters, Same p.1 p.2)
      (hresult : Same result result') :
      Same (node kind name left fixedSize (parameters.map Prod.fst) result isAsync hasSignature)
        (node kind name' right fixedSize (parameters.map Prod.snd) result' isAsync hasSignature)
  | single {name : String} {arguments : List TypeTree} {fixedSize : Option Int}
      {parameters : List TypeTree} {result : TypeTree} {isAsync hasSignature : Bool} {t : TypeTree}
      (hsome : arguments ≠ []) (hall : ∀ a ∈ arguments, Same a t) :
      Same (node .Union name arguments fixedSize parameters result isAsync hasSignature) t
  | only {name : String} {arguments : List TypeTree} {fixedSize : Option Int}
      {parameters : List TypeTree} {result : TypeTree} {isAsync hasSignature : Bool} {t : TypeTree}
      (hsome : arguments ≠ []) (hall : ∀ a ∈ arguments, Same t a) :
      Same t (node .Union name arguments fixedSize parameters result isAsync hasSignature)

/-- A list as the pairs of its elements with themselves. -/
def diagonal (l : List TypeTree) : List (TypeTree × TypeTree) := l.map fun a => (a, a)

@[simp] theorem diagonal_fst (l : List TypeTree) : (diagonal l).map Prod.fst = l := by
  simp [diagonal, Function.comp_def]

@[simp] theorem diagonal_snd (l : List TypeTree) : (diagonal l).map Prod.snd = l := by
  simp [diagonal, Function.comp_def]

theorem same_of_mem_diagonal {l : List TypeTree} (h : ∀ a ∈ l, Same a a) :
    ∀ p ∈ diagonal l, Same p.1 p.2 := by
  intro p hp
  obtain ⟨a, ha, rfl⟩ := List.mem_map.mp hp
  exact h a ha

/-- Types that differ in the name of a function or in how a union lists its members are equal
    once the parts are equal to themselves. -/
theorem Same.of_lists {kind : TypeKind} {name name' : String} {left right parameters : List TypeTree}
    {fixedSize : Option Int} {result : TypeTree} {isAsync hasSignature : Bool}
    (hname : kind ≠ .Function → name = name') (hlists : Lists kind left right)
    (hright : ∀ a ∈ right, Same a a) (hparameters : ∀ a ∈ parameters, Same a a)
    (hresult : Same result result) :
    Same (.node kind name left fixedSize parameters result isAsync hasSignature)
      (.node kind name' right fixedSize parameters result isAsync hasSignature) := by
  have hsame := @Same.node kind name name' left right fixedSize result result isAsync hasSignature
    (diagonal right) (diagonal parameters) hname (by simpa using hlists)
    (by simpa using Lists.refl kind right) (same_of_mem_diagonal hright)
    (same_of_mem_diagonal hparameters) hresult
  simpa only [diagonal_fst, diagonal_snd] using hsame

theorem Same.refl : ∀ t : TypeTree, Same t t
  | .none => .none
  | .node kind _ arguments _ parameters result _ _ =>
    .of_lists (fun _ => rfl) (.refl kind arguments) (fun a _ => Same.refl a) (fun a _ => Same.refl a)
      (Same.refl result)
termination_by t => sizeOf t
decreasing_by
  all_goals rw [TypeTree.node.sizeOf_spec]
  · have hlt := List.sizeOf_lt_of_mem ‹a ∈ arguments›
    omega
  · have hlt := List.sizeOf_lt_of_mem ‹a ∈ parameters›
    omega
  · omega

theorem swapped_fst (l : List (TypeTree × TypeTree)) :
    (l.map Prod.swap).map Prod.fst = l.map Prod.snd := by
  simp [Function.comp_def]

theorem swapped_snd (l : List (TypeTree × TypeTree)) :
    (l.map Prod.swap).map Prod.snd = l.map Prod.fst := by
  simp [Function.comp_def]

theorem Same.symm {s t : TypeTree} (h : Same s t) : Same t s := by
  induction h with
  | none => exact .none
  | @node _ _ _ _ _ _ _ _ _ _ arguments parameters hname hleft hright _ _ _ iharguments
      ihparameters ihresult =>
    rw [← swapped_fst parameters, ← swapped_snd parameters]
    refine @Same.node _ _ _ _ _ _ _ _ _ _ (arguments.map Prod.swap) (parameters.map Prod.swap)
      (fun hkind => (hname hkind).symm) (by rwa [swapped_fst]) (by rwa [swapped_snd]) ?_ ?_ ihresult
    · intro p hp
      obtain ⟨q, hq, rfl⟩ := List.mem_map.mp hp
      exact iharguments q hq
    · intro p hp
      obtain ⟨q, hq, rfl⟩ := List.mem_map.mp hp
      exact ihparameters q hq
  | single hsome _ ih => exact .only hsome ih
  | only hsome _ ih => exact .single hsome ih

mutual

/-- The type with the members of a nested union in place of the nested union. -/
def flatten : TypeTree → TypeTree
  | .none => .none
  | .node kind name arguments fixedSize parameters result isAsync hasSignature =>
    .node kind name (if kind = .Union then flattenMembers arguments else flattenAll arguments)
      fixedSize (flattenAll parameters) (flatten result) isAsync hasSignature

def flattenAll : List TypeTree → List TypeTree
  | [] => []
  | t :: rest => flatten t :: flattenAll rest

/-- The members that a union has once its own unions are flattened. -/
def flattenMembers : List TypeTree → List TypeTree
  | [] => []
  | t :: rest =>
    (match flatten t with
      | .node .Union _ members _ _ _ _ _ => members
      | flat => [flat]) ++ flattenMembers rest

end

end TypeTree

structure FunctionSignature where
  parameterTypes : List TypeId := []
  returnType : TypeId := 0
  isAsync : Bool := false
  hasSignature : Bool := true
  deriving DecidableEq, Repr

/-- A type as the arena stores it. -/
structure InternedType extends MirType where
  fixedSize : Option Int := none
  signature : FunctionSignature := {}
  deriving DecidableEq, Repr

namespace InternedType

/-- The ids that a type mentions. -/
def ids (type : InternedType) : List TypeId :=
  type.arguments ++ type.signature.parameterTypes ++ [type.signature.returnType]

def meaning (child : TypeId → TypeTree) (type : InternedType) : TypeTree :=
  .node type.kind type.name (type.arguments.map child) type.fixedSize
    (type.signature.parameterTypes.map child) (child type.signature.returnType)
    type.signature.isAsync type.signature.hasSignature

theorem meaning_congr {child child' : TypeId → TypeTree} {type : InternedType}
    (h : ∀ id ∈ type.ids, child id = child' id) : type.meaning child = type.meaning child' := by
  have harguments : type.arguments.map child = type.arguments.map child' :=
    List.map_congr_left fun id hid => h id (by simp [ids, hid])
  have hparameters : type.signature.parameterTypes.map child =
      type.signature.parameterTypes.map child' :=
    List.map_congr_left fun id hid => h id (by simp [ids, hid])
  have hresult := h type.signature.returnType (by simp [ids])
  simp only [meaning, harguments, hparameters, hresult]

/-- A union's members sorted, each once (`std::unique` on the sorted list). -/
def sortMembers (type : InternedType) : InternedType :=
  if type.kind = .Union then
    { type with arguments := (type.arguments.insertionSort (· ≤ ·)).dedup }
  else type

/-- The member of a union that is left with one. -/
def onlyMember (type : InternedType) : Option TypeId :=
  if type.kind = .Union then
    match type.arguments with
    | [member] => some member
    | _ => none
  else none

def clearName (type : InternedType) : InternedType :=
  if type.kind = .Function then { type with name := "" } else type

end InternedType

/-- The types of a module, under the ids of their places, and the index from a type to its id. -/
structure TypeArena where
  types : List InternedType
  index : List (InternedType × TypeId)
  deriving Repr

namespace TypeArena

/-- A new arena: the sentinel, which the index does not know, then the primitive types. -/
def initial : TypeArena :=
  let primitives : List TypeKind := [.Void, .Nil, .Bool, .Int, .Double, .String, .Unknown]
  primitives.foldl
    (fun arena kind =>
      let type : InternedType := { kind }
      { types := arena.types ++ [type], index := arena.index ++ [(type, arena.types.length)] })
    { types := [{}], index := [] }

def find (arena : TypeArena) (id : TypeId) : Option InternedType :=
  if id = kNoType then none else arena.types[id]?

def intern (arena : TypeArena) (type : InternedType) : TypeId × TypeArena :=
  let type := type.sortMembers
  match type.onlyMember with
  | some member => (member, arena)
  | none =>
    let type := type.clearName
    match arena.index.lookup type with
    | some existing => (existing, arena)
    | none =>
      let id := arena.types.length
      (id, { types := arena.types ++ [type], index := arena.index ++ [(type, id)] })

/-- The ids that a sequence of calls returns, and the arena it leaves. -/
def internAll (arena : TypeArena) : List InternedType → List TypeId × TypeArena
  | [] => ([], arena)
  | type :: rest =>
    let (id, arena) := arena.intern type
    let (ids, arena) := arena.internAll rest
    (id :: ids, arena)

/-- Each call mentions only ids the arena has given out before it, or none. -/
def Scoped (arena : TypeArena) : List InternedType → Prop
  | [] => True
  | type :: rest => (∀ id ∈ type.ids, id < arena.types.length) ∧ (arena.intern type).2.Scoped rest

instance decidableScoped : ∀ (arena : TypeArena) (calls : List InternedType),
    Decidable (arena.Scoped calls)
  | _, [] => .isTrue trivial
  | arena, type :: rest =>
    have := decidableScoped (arena.intern type).2 rest
    inferInstanceAs (Decidable ((∀ id ∈ type.ids, id < arena.types.length) ∧ _))

def child (meanings : List TypeTree) (id : TypeId) : TypeTree :=
  if id = kNoType then .none else meanings[id]?.getD .none

/-- What the types stand for, each built from those before it. -/
def meanings (types : List InternedType) : List TypeTree :=
  types.foldl (fun done type => done ++ [type.meaning (child done)]) []

/-- What an id stands for. -/
def expand (arena : TypeArena) : TypeId → TypeTree := child (meanings arena.types)

end TypeArena

namespace InternedType

/-- What the arena stores of a type: nothing that interning would still change. -/
structure Canonical (type : InternedType) : Prop where
  sorted : type.sortMembers = type
  several : type.onlyMember = none
  unnamed : type.clearName = type

variable {type : InternedType}

@[simp] theorem sortMembers_kind : type.sortMembers.kind = type.kind := by
  unfold sortMembers
  split <;> rfl

@[simp] theorem clearName_kind : type.clearName.kind = type.kind := by
  unfold clearName
  split <;> rfl

theorem sortMembers_of_ne (h : type.kind ≠ .Union) : type.sortMembers = type := if_neg h

theorem sortMembers_of_eq (h : type.kind = .Union) :
    type.sortMembers = { type with arguments := (type.arguments.insertionSort (· ≤ ·)).dedup } :=
  if_pos h

theorem clearName_of_ne (h : type.kind ≠ .Function) : type.clearName = type := if_neg h

theorem onlyMember_of_ne (h : type.kind ≠ .Union) : type.onlyMember = none := if_neg h

theorem onlyMember_eq_some {member : TypeId} :
    type.onlyMember = some member ↔ type.kind = .Union ∧ type.arguments = [member] := by
  unfold onlyMember
  split
  · split <;> simp_all
  · simp_all

@[simp] theorem onlyMember_clearName : type.clearName.onlyMember = type.onlyMember := by
  by_cases h : type.kind = .Function
  · rw [onlyMember_of_ne (by simp [h]), onlyMember_of_ne (by simp [h])]
  · rw [clearName_of_ne h]

theorem mem_sortMembers {id : TypeId} : id ∈ type.sortMembers.arguments ↔ id ∈ type.arguments := by
  unfold sortMembers
  split <;> simp

@[simp] theorem clearName_arguments : type.clearName.arguments = type.arguments := by
  unfold clearName
  split <;> rfl

@[simp] theorem sortMembers_signature : type.sortMembers.signature = type.signature := by
  unfold sortMembers
  split <;> rfl

@[simp] theorem clearName_signature : type.clearName.signature = type.signature := by
  unfold clearName
  split <;> rfl

@[simp] theorem sortMembers_fixedSize : type.sortMembers.fixedSize = type.fixedSize := by
  unfold sortMembers
  split <;> rfl

@[simp] theorem clearName_fixedSize : type.clearName.fixedSize = type.fixedSize := by
  unfold clearName
  split <;> rfl

@[simp] theorem sortMembers_name : type.sortMembers.name = type.name := by
  unfold sortMembers
  split <;> rfl

theorem mem_ids_canonical {id : TypeId} : id ∈ type.sortMembers.clearName.ids ↔ id ∈ type.ids := by
  simp only [ids, clearName_arguments, clearName_signature, sortMembers_signature, List.mem_append,
    mem_sortMembers]

theorem sortMembers_idem : type.sortMembers.sortMembers = type.sortMembers := by
  by_cases h : type.kind = .Union
  · have hsorted := ((List.pairwise_insertionSort (· ≤ ·) type.arguments).sublist
      (List.dedup_sublist _)).insertionSort_eq
    rw [sortMembers_of_eq (by simpa using h), sortMembers_of_eq h]
    simp only [hsorted, List.dedup_idem]
  · rw [sortMembers_of_ne (by simpa using h)]

theorem canonical_sortMembers (h : type.sortMembers.onlyMember = none) :
    type.sortMembers.clearName.Canonical := by
  refine ⟨?_, by simpa using h, ?_⟩
  · by_cases hkind : type.kind = .Function
    · exact sortMembers_of_ne (by simp [hkind])
    · rw [clearName_of_ne (by simpa using hkind), sortMembers_idem]
  · by_cases hkind : type.kind = .Function
    · simp [clearName, hkind]
    · rw [clearName_of_ne (by simpa using hkind), clearName_of_ne (by simpa using hkind)]

theorem sortMembers_arguments {members : List TypeId} (hkind : type.kind = .Union)
    (hmem : ∀ id, id ∈ type.arguments ↔ id ∈ members) :
    type.sortMembers.arguments = (members.insertionSort (· ≤ ·)).dedup := by
  have hset : ∀ l : List TypeId, ((l.insertionSort (· ≤ ·)).dedup).Pairwise (· < ·) := by
    intro l
    have hle := (List.pairwise_insertionSort (· ≤ ·) l).sublist (List.dedup_sublist _)
    exact (hle.and (List.nodup_dedup _)).imp fun h => lt_of_le_of_ne h.1 h.2
  rw [sortMembers_of_eq hkind]
  refine List.Perm.eq_of_pairwise' (hset type.arguments) (hset members) ?_
  rw [List.perm_ext_iff_of_nodup (List.nodup_dedup _) (List.nodup_dedup _)]
  intro id
  simpa using hmem id

theorem onlyMember_sortMembers {member : TypeId} : type.sortMembers.onlyMember = some member ↔
    type.kind = .Union ∧ type.arguments ≠ [] ∧ ∀ id ∈ type.arguments, id = member := by
  rw [onlyMember_eq_some, sortMembers_kind]
  refine and_congr_right fun hkind => ⟨?_, ?_⟩
  · intro hone
    have hmem : ∀ id, id ∈ type.arguments ↔ id = member := by
      intro id
      rw [← mem_sortMembers, hone, List.mem_singleton]
    exact ⟨List.ne_nil_of_mem ((hmem member).mpr rfl), fun id => (hmem id).mp⟩
  · rintro ⟨hsome, hall⟩
    have hmem : ∀ id, id ∈ type.arguments ↔ id ∈ [member] := by
      intro id
      rw [List.mem_singleton]
      refine ⟨hall id, ?_⟩
      rintro rfl
      obtain ⟨other, hother⟩ := List.exists_mem_of_ne_nil _ hsome
      rwa [← hall other hother]
    rw [sortMembers_arguments hkind hmem]
    simp

/-- Types that agree but for the order and number of a union's members and for the name of a
    function are stored as one type. -/
theorem canonical_congr {other : InternedType} (hkind : type.kind = other.kind)
    (hname : type.kind ≠ .Function → type.name = other.name)
    (hsize : type.fixedSize = other.fixedSize) (hsignature : type.signature = other.signature)
    (hlist : type.kind ≠ .Union → type.arguments = other.arguments)
    (hset : type.kind = .Union → ∀ id, id ∈ type.arguments ↔ id ∈ other.arguments) :
    type.sortMembers.clearName = other.sortMembers.clearName := by
  obtain ⟨⟨kind, name, arguments⟩, size, signature⟩ := type
  obtain ⟨⟨kind', name', arguments'⟩, size', signature'⟩ := other
  simp only at hkind hname hsize hsignature hlist hset
  subst hkind hsize hsignature
  by_cases hunion : kind = .Union
  · subst hunion
    obtain rfl := hname (by decide)
    have harguments :=
      @sortMembers_arguments ⟨⟨.Union, name, arguments⟩, size, signature⟩ _ rfl (hset rfl)
    rw [clearName_of_ne (by simp), clearName_of_ne (by simp)]
    simp only [sortMembers, if_pos] at harguments ⊢
    rw [harguments]
  · obtain rfl := hlist hunion
    rw [sortMembers_of_ne hunion, sortMembers_of_ne hunion]
    by_cases hfunction : kind = .Function
    · simp [clearName, hfunction]
    · obtain rfl := hname hfunction
      rfl

theorem same_of_canonical {other : InternedType} (child : TypeId → TypeTree)
    (h : type.sortMembers.clearName = other.sortMembers.clearName) :
    TypeTree.Same (type.meaning child) (other.meaning child) := by
  have hkind : type.kind = other.kind := by simpa using congrArg (fun t => t.kind) h
  have hsize : type.fixedSize = other.fixedSize := by simpa using congrArg (·.fixedSize) h
  have hsignature : type.signature = other.signature := by simpa using congrArg (·.signature) h
  have harguments : type.sortMembers.arguments = other.sortMembers.arguments := by
    simpa using congrArg (fun t => t.arguments) h
  unfold meaning
  rw [← hkind, ← hsize, ← hsignature]
  refine .of_lists ?_ ?_ (fun a _ => .refl a) (fun a _ => .refl a) (.refl _)
  · intro hfunction
    rw [clearName_of_ne (by simpa using hfunction),
      clearName_of_ne (by simpa [← hkind] using hfunction)] at h
    simpa using congrArg (fun t => t.name) h
  · unfold TypeTree.Lists
    split
    · have hmem : ∀ id, id ∈ type.arguments ↔ id ∈ other.arguments := by
        intro id
        rw [← mem_sortMembers, harguments, mem_sortMembers]
      simp [hmem]
    next hunion =>
      rw [sortMembers_of_ne hunion, sortMembers_of_ne (by simpa [← hkind] using hunion)] at harguments
      rw [harguments]

end InternedType

namespace TypeArena

open InternedType

theorem meanings_concat (types : List InternedType) (type : InternedType) :
    meanings (types ++ [type]) = meanings types ++ [type.meaning (child (meanings types))] := by
  simp [meanings]

@[simp] theorem length_meanings (types : List InternedType) : (meanings types).length = types.length := by
  induction types using List.reverseRecOn with
  | nil => rfl
  | append_singleton types type ih => simp [meanings_concat, ih]

theorem child_append {ms : List TypeTree} {id : TypeId} (h : id < ms.length) (more : List TypeTree) :
    child (ms ++ more) id = child ms id := by
  simp only [child, List.getElem?_append_left h]

theorem child_meanings_append {types : List InternedType} {id : TypeId} (h : id < types.length)
    (more : List InternedType) : child (meanings (types ++ more)) id = child (meanings types) id := by
  induction more using List.reverseRecOn with
  | nil => rw [List.append_nil]
  | append_singleton more type ih =>
    rw [← List.append_assoc, meanings_concat, child_append, ih]
    rw [length_meanings, List.length_append]
    exact Nat.lt_add_right _ h

/-- The invariant of an arena: a type mentions ids before its own, nothing in it is left to
    canonicalise, and the index knows each type by its id. -/
structure WellFormed (arena : TypeArena) : Prop where
  nonempty : 0 < arena.types.length
  ordered : ∀ id type, arena.find id = some type → ∀ c ∈ type.ids, c < id
  canonical : ∀ id type, arena.find id = some type → type.Canonical
  indexed : ∀ type id, arena.index.lookup type = some id ↔ arena.find id = some type

variable {arena : TypeArena} {type : InternedType} {id : TypeId}

theorem find_eq_some : arena.find id = some type ↔ id ≠ kNoType ∧ arena.types[id]? = some type := by
  unfold find
  split <;> simp_all

theorem lt_of_find (h : arena.find id = some type) : id < arena.types.length :=
  (List.getElem?_eq_some_iff.mp (find_eq_some.mp h).2).1

theorem find_append (h : arena.find id = some type) {later : TypeArena}
    (hlater : arena.types <+: later.types) : later.find id = some type := by
  obtain ⟨hne, hget⟩ := find_eq_some.mp h
  obtain ⟨more, hmore⟩ := hlater
  refine find_eq_some.mpr ⟨hne, ?_⟩
  rw [← hmore, List.getElem?_append_left (lt_of_find h), hget]

theorem find_of_pos (hpos : id ≠ kNoType) (hlt : id < arena.types.length) :
    ∃ type, arena.find id = some type :=
  ⟨arena.types[id], find_eq_some.mpr ⟨hpos, List.getElem?_eq_getElem hlt⟩⟩

theorem expand_of_find (hwf : arena.WellFormed) (h : arena.find id = some type) :
    arena.expand id = type.meaning arena.expand := by
  obtain ⟨hne, hget⟩ := find_eq_some.mp h
  obtain ⟨front, back, hsplit, hlength⟩ : ∃ front back,
      arena.types = front ++ [type] ++ back ∧ front.length = id := by
    obtain ⟨hlt, hget⟩ := List.getElem?_eq_some_iff.mp hget
    refine ⟨arena.types.take id, arena.types.drop (id + 1), ?_, ?_⟩
    · rw [← hget, List.append_assoc, List.singleton_append, List.getElem_cons_drop,
        List.take_append_drop]
    · rw [List.length_take, min_eq_left (le_of_lt hlt)]
  have hchild : ∀ c < id, arena.expand c = child (meanings front) c := by
    intro c hc
    rw [expand, hsplit, List.append_assoc, child_meanings_append (by rwa [hlength])]
  have hself : arena.expand id = type.meaning (child (meanings front)) := by
    rw [expand, hsplit, child_meanings_append (by simp [hlength]), meanings_concat, child, if_neg hne,
      ← hlength, ← length_meanings, List.getElem?_concat_length, Option.getD_some]
  rw [hself]
  exact meaning_congr fun c hc => (hchild c (hwf.ordered id type h c hc)).symm

theorem WellFormed.find_inj (hwf : arena.WellFormed) {other : TypeId}
    (h : arena.find id = some type) (hother : arena.find other = some type) : id = other := by
  have hlookup := (hwf.indexed type id).mpr h
  rw [(hwf.indexed type other).mpr hother] at hlookup
  exact (Option.some.inj hlookup).symm

/-- The id that an arena has for a type. -/
def Resolves (arena : TypeArena) (type : InternedType) (id : TypeId) : Prop :=
  type.sortMembers.onlyMember = some id ∨
    type.sortMembers.onlyMember = none ∧ arena.find id = some type.sortMembers.clearName

theorem Resolves.unique (hwf : arena.WellFormed) {other : TypeId} (h : arena.Resolves type id)
    (hother : arena.Resolves type other) : id = other := by
  rcases h with h | ⟨hnone, h⟩ <;> rcases hother with hother | ⟨hnone', hother⟩
  · exact Option.some.inj (h.symm.trans hother)
  · rw [h] at hnone'
    cases hnone'
  · rw [hother] at hnone
    cases hnone
  · exact hwf.find_inj h hother

theorem resolves_of_find (hwf : arena.WellFormed) (h : arena.find id = some type) :
    arena.Resolves type id := by
  have hcanonical := hwf.canonical id type h
  refine .inr ⟨by rw [hcanonical.sorted, hcanonical.several], ?_⟩
  rw [hcanonical.sorted, hcanonical.unnamed, h]

theorem Resolves.append (h : arena.Resolves type id) {later : TypeArena}
    (hlater : arena.types <+: later.types) : later.Resolves type id := by
  rcases h with h | ⟨hnone, h⟩
  · exact .inl h
  · exact .inr ⟨hnone, find_append h hlater⟩

/-- The arena with a type that it did not have. -/
def add (arena : TypeArena) (type : InternedType) : TypeArena :=
  { types := arena.types ++ [type], index := arena.index ++ [(type, arena.types.length)] }

theorem find_add {found : InternedType} (hpos : 0 < arena.types.length) :
    (arena.add type).find id = some found ↔
      arena.find id = some found ∨ id = arena.types.length ∧ found = type := by
  simp only [find_eq_some, add, List.getElem?_append]
  split
  next hlt => simp [Nat.ne_of_lt hlt]
  next hge =>
    have hnone : arena.types[id]? = none := List.getElem?_eq_none (Nat.le_of_not_lt hge)
    rw [hnone]
    rcases Nat.eq_or_lt_of_le (Nat.le_of_not_lt hge) with heq | hlt
    · simp [← heq, Nat.ne_of_gt hpos, eq_comm]
    · rw [List.getElem?_eq_none (by simp; omega)]
      simp [Nat.ne_of_gt hlt]

theorem WellFormed.add (hwf : arena.WellFormed) (hscope : ∀ c ∈ type.ids, c < arena.types.length)
    (hcanonical : type.Canonical) (hnew : arena.index.lookup type = none) :
    (arena.add type).WellFormed := by
  refine ⟨by simp [TypeArena.add], ?_, ?_, ?_⟩
  · intro id found h
    rcases (find_add hwf.nonempty).mp h with h | ⟨rfl, rfl⟩
    · exact hwf.ordered id found h
    · exact hscope
  · intro id found h
    rcases (find_add hwf.nonempty).mp h with h | ⟨-, rfl⟩
    · exact hwf.canonical id found h
    · exact hcanonical
  · intro found id
    rw [find_add hwf.nonempty, ← hwf.indexed]
    change (arena.index ++ [(type, arena.types.length)]).lookup found = some id ↔ _
    rw [List.lookup_append]
    by_cases hfound : found = type
    · subst hfound
      simp [hnew, eq_comm]
    · have hbeq : (found == type) = false := beq_false_of_ne hfound
      simp only [List.lookup_cons, hbeq, List.lookup_nil, Option.or_none, hfound, and_false, or_false]

theorem WellFormed.add_primitive (hwf : arena.WellFormed) (kind : TypeKind) (hkind : kind ≠ .Union)
    (hnew : arena.index.lookup { kind } = none) : (arena.add { kind }).WellFormed := by
  refine hwf.add ?_ ⟨sortMembers_of_ne hkind, onlyMember_of_ne hkind, ?_⟩ hnew
  · intro c hc
    obtain rfl : c = 0 := by simpa [ids] using hc
    exact hwf.nonempty
  · unfold clearName
    split <;> rfl

theorem initial_wellFormed : initial.WellFormed := by
  have hbase : WellFormed { types := [{}], index := [] } := by
    have hnone : ∀ id, find { types := [{}], index := [] } id = none := by
      intro id
      cases id <;> rfl
    refine ⟨by decide, ?_, ?_, ?_⟩
    · intro id type h
      rw [hnone] at h
      cases h
    · intro id type h
      rw [hnone] at h
      cases h
    · simp [hnone]
  have hvoid := hbase.add_primitive .Void (by decide) (by decide)
  have hnil := hvoid.add_primitive .Nil (by decide) (by decide)
  have hbool := hnil.add_primitive .Bool (by decide) (by decide)
  have hint := hbool.add_primitive .Int (by decide) (by decide)
  have hdouble := hint.add_primitive .Double (by decide) (by decide)
  have hstring := hdouble.add_primitive .String (by decide) (by decide)
  exact hstring.add_primitive .Unknown (by decide) (by decide)

/-- What a call can do: the one member of a union comes back, or the id of a type that the arena
    has, or the type is added. -/
theorem intern_cases (hwf : arena.WellFormed) :
    (∃ member, type.sortMembers.onlyMember = some member ∧ arena.intern type = (member, arena)) ∨
    (∃ id, type.sortMembers.onlyMember = none ∧ arena.find id = some type.sortMembers.clearName ∧
      arena.intern type = (id, arena)) ∨
    (type.sortMembers.onlyMember = none ∧ arena.index.lookup type.sortMembers.clearName = none ∧
      arena.intern type = (arena.types.length, arena.add type.sortMembers.clearName)) := by
  cases honly : type.sortMembers.onlyMember with
  | some member => exact .inl ⟨member, rfl, by simp only [intern, honly]⟩
  | none =>
    cases hlookup : arena.index.lookup type.sortMembers.clearName with
    | some id =>
      have hfind := (hwf.indexed _ _).mp hlookup
      exact .inr (.inl ⟨id, rfl, hfind, by simp only [intern, honly, hlookup]⟩)
    | none => exact .inr (.inr ⟨rfl, rfl, by simp only [intern, honly, hlookup, add]⟩)

/-- What a call keeps and gives: the invariant, the types there were, and the type's id. -/
theorem intern_spec (hwf : arena.WellFormed) (hscope : ∀ c ∈ type.ids, c < arena.types.length) :
    (arena.intern type).2.WellFormed ∧ arena.types <+: (arena.intern type).2.types ∧
      (arena.intern type).2.Resolves type (arena.intern type).1 := by
  obtain ⟨member, honly, hintern⟩ | ⟨id, honly, hfind, hintern⟩ | ⟨honly, hnew, hintern⟩ :=
    @intern_cases arena type hwf
  · rw [hintern]
    exact ⟨hwf, List.prefix_refl _, .inl honly⟩
  · rw [hintern]
    exact ⟨hwf, List.prefix_refl _, .inr ⟨honly, hfind⟩⟩
  · rw [hintern]
    refine ⟨hwf.add ?_ (canonical_sortMembers honly) hnew, List.prefix_append _ _, .inr ⟨honly, ?_⟩⟩
    · exact fun c hc => hscope c (mem_ids_canonical.mp hc)
    · exact (find_add hwf.nonempty).mpr (.inr ⟨rfl, rfl⟩)

/-- What the arena has an id for: nothing under the sentinel, and a type of known ids under its id. -/
def Denotes (arena : TypeArena) (t : TypeTree) (id : TypeId) : Prop :=
  t = .none ∧ id = kNoType ∨
    ∃ type : InternedType, t = type.meaning arena.expand ∧
      (∀ c ∈ type.ids, c < arena.types.length) ∧ arena.Resolves type id

theorem denotes_expand (hwf : arena.WellFormed) (h : id < arena.types.length) :
    arena.Denotes (arena.expand id) id := by
  by_cases hzero : id = kNoType
  · subst hzero
    exact .inl ⟨rfl, rfl⟩
  · obtain ⟨type, htype⟩ := find_of_pos hzero h
    refine .inr ⟨type, expand_of_find hwf htype, ?_, resolves_of_find hwf htype⟩
    exact fun c hc => Nat.lt_trans (hwf.ordered id type htype c hc) h

theorem Denotes.node {kind : TypeKind} {name : String} {arguments parameters : List TypeTree}
    {fixedSize : Option Int} {result : TypeTree} {isAsync hasSignature : Bool} (h : arena.Denotes
      (.node kind name arguments fixedSize parameters result isAsync hasSignature) id) :
    ∃ type : InternedType, type.kind = kind ∧ type.name = name ∧
      type.arguments.map arena.expand = arguments ∧ type.fixedSize = fixedSize ∧
      type.signature.parameterTypes.map arena.expand = parameters ∧
      arena.expand type.signature.returnType = result ∧ type.signature.isAsync = isAsync ∧
      type.signature.hasSignature = hasSignature ∧ (∀ c ∈ type.ids, c < arena.types.length) ∧
      arena.Resolves type id := by
  obtain ⟨h, -⟩ | ⟨type, h, hscope, hresolves⟩ := h
  · cases h
  · injection h with hkind hname harguments hsize hparameters hresult hasync hsignature
    exact ⟨type, hkind.symm, hname.symm, harguments.symm, hsize.symm, hparameters.symm, hresult.symm,
      hasync.symm, hsignature.symm, hscope, hresolves⟩

/-- TypeTree.Lists of ids are equal when what they stand for is paired up and pairs have one id. -/
theorem ids_eq_of_pairs (hwf : arena.WellFormed) {pairs : List (TypeTree × TypeTree)}
    (hpairs : ∀ p ∈ pairs, ∀ i j, arena.Denotes p.1 i → arena.Denotes p.2 j → i = j)
    {xs ys : List TypeId} (hxs : ∀ c ∈ xs, c < arena.types.length)
    (hys : ∀ c ∈ ys, c < arena.types.length) (hfst : xs.map arena.expand = pairs.map Prod.fst)
    (hsnd : ys.map arena.expand = pairs.map Prod.snd) : xs = ys := by
  induction pairs generalizing xs ys with
  | nil =>
    rw [List.map_nil, List.map_eq_nil_iff] at hfst hsnd
    rw [hfst, hsnd]
  | cons p pairs ih =>
    obtain ⟨x, xs, rfl, hx, hfst⟩ := List.map_eq_cons_iff.mp hfst
    obtain ⟨y, ys, rfl, hy, hsnd⟩ := List.map_eq_cons_iff.mp hsnd
    have hhead : x = y := by
      refine hpairs p List.mem_cons_self x y ?_ ?_
      · rw [← hx]
        exact denotes_expand hwf (hxs x List.mem_cons_self)
      · rw [← hy]
        exact denotes_expand hwf (hys y List.mem_cons_self)
    rw [hhead, ih (fun q hq => hpairs q (List.mem_cons_of_mem _ hq))
      (fun c hc => hxs c (List.mem_cons_of_mem _ hc)) (fun c hc => hys c (List.mem_cons_of_mem _ hc))
      hfst hsnd]

theorem ids_subset_of_pairs (hwf : arena.WellFormed) {pairs : List (TypeTree × TypeTree)}
    (hpairs : ∀ p ∈ pairs, ∀ i j, arena.Denotes p.1 i → arena.Denotes p.2 j → i = j)
    {xs ys : List TypeId} (hxs : ∀ c ∈ xs, c < arena.types.length) (hys : ∀ c ∈ ys, c < arena.types.length)
    (hfst : ∀ a, a ∈ xs.map arena.expand ↔ a ∈ pairs.map Prod.fst)
    (hsnd : ∀ a, a ∈ ys.map arena.expand ↔ a ∈ pairs.map Prod.snd) : ∀ x ∈ xs, x ∈ ys := by
  intro x hx
  obtain ⟨p, hp, hpx⟩ := List.mem_map.mp ((hfst _).mp (List.mem_map_of_mem hx))
  obtain ⟨y, hy, hpy⟩ := List.mem_map.mp ((hsnd _).mpr (List.mem_map_of_mem hp))
  have heq : x = y := by
    refine hpairs p hp x y ?_ ?_
    · rw [hpx]
      exact denotes_expand hwf (hxs x hx)
    · rw [← hpy]
      exact denotes_expand hwf (hys y hy)
  rwa [heq]

theorem resolves_congr {other : InternedType}
    (h : type.sortMembers.clearName = other.sortMembers.clearName) :
    arena.Resolves type id ↔ arena.Resolves other id := by
  unfold Resolves
  rw [← onlyMember_clearName, ← @onlyMember_clearName other.sortMembers, h]

theorem resolves_single (hwf : arena.WellFormed) {member : TypeId}
    (hresolves : arena.Resolves type id) (hkind : type.kind = .Union) (hsome : type.arguments ≠ [])
    (hall : ∀ c ∈ type.arguments, c = member) : id = member :=
  hresolves.unique hwf (.inl (onlyMember_sortMembers.mpr ⟨hkind, hsome, hall⟩))

theorem mem_ids_of_argument {c : TypeId} (h : c ∈ type.arguments) : c ∈ type.ids := by
  simp [ids, h]

/-- Equal types have one id: by induction on why they are equal. -/
theorem id_eq_of_same (hwf : arena.WellFormed) {s t : TypeTree} (h : TypeTree.Same s t) :
    ∀ i j, arena.Denotes s i → arena.Denotes t j → i = j := by
  induction h with
  | none =>
    rintro i j (⟨-, rfl⟩ | ⟨type, h, -⟩) (⟨-, rfl⟩ | ⟨other, hother, -⟩)
    · rfl
    · cases hother
    · cases h
    · cases h
  | @node _ _ _ _ _ _ _ _ _ _ pairs _ hname hleft hright _ _ _ iharguments ihparameters ihresult =>
    intro i j hi hj
    obtain ⟨type, rfl, rfl, rfl, rfl, hparameters, rfl, rfl, rfl, hscope, hresolves⟩ := hi.node
    obtain ⟨other, hkind, rfl, rfl, hsize, hparameters', rfl, hasync, hsignature, hscope',
      hresolves'⟩ := hj.node
    have hresult : type.signature.returnType = other.signature.returnType :=
      ihresult _ _ (denotes_expand hwf (hscope _ (by simp [ids])))
        (denotes_expand hwf (hscope' _ (by simp [ids])))
    have hparameterTypes := ids_eq_of_pairs hwf ihparameters
      (fun c hc => hscope c (by simp [ids, hc])) (fun c hc => hscope' c (by simp [ids, hc]))
      hparameters hparameters'
    have hsig : type.signature = other.signature := by
      cases hone : type.signature
      cases htwo : other.signature
      simp_all
    have hargs := fun c (hc : c ∈ type.arguments) => hscope c (mem_ids_of_argument hc)
    have hargs' := fun c (hc : c ∈ other.arguments) => hscope' c (mem_ids_of_argument hc)
    have hcanonical : type.sortMembers.clearName = other.sortMembers.clearName := by
      refine canonical_congr hkind.symm hname hsize.symm hsig ?_ ?_
      · intro hunion
        rw [TypeTree.Lists, if_neg hunion] at hleft hright
        exact ids_eq_of_pairs hwf iharguments hargs hargs' hleft hright
      · intro hunion id
        rw [TypeTree.Lists, if_pos hunion] at hleft hright
        refine ⟨ids_subset_of_pairs hwf iharguments hargs hargs' hleft hright id, ?_⟩
        have hswapped : ∀ p ∈ pairs.map Prod.swap, ∀ i j, arena.Denotes p.1 i →
            arena.Denotes p.2 j → i = j := by
          intro p hp i j hi hj
          obtain ⟨q, hq, rfl⟩ := List.mem_map.mp hp
          exact (iharguments q hq j i hj hi).symm
        refine ids_subset_of_pairs hwf hswapped hargs' hargs ?_ ?_ id
        · rwa [TypeTree.swapped_fst]
        · rwa [TypeTree.swapped_snd]
    exact hresolves.unique hwf ((resolves_congr hcanonical).mpr hresolves')
  | single hsome _ ih =>
    intro i j hi hj
    obtain ⟨type, hkind, -, rfl, -, -, -, -, -, hscope, hresolves⟩ := hi.node
    refine resolves_single hwf hresolves hkind (by simpa using hsome) fun c hc => ?_
    exact ih _ (List.mem_map_of_mem hc) c j (denotes_expand hwf (hscope c (mem_ids_of_argument hc))) hj
  | only hsome _ ih =>
    intro i j hi hj
    obtain ⟨type, hkind, -, rfl, -, -, -, -, -, hscope, hresolves⟩ := hj.node
    refine (resolves_single hwf hresolves hkind (by simpa using hsome) fun c hc => ?_).symm
    exact (ih _ (List.mem_map_of_mem hc) i c hi
      (denotes_expand hwf (hscope c (mem_ids_of_argument hc)))).symm

theorem Resolves.cases (h : arena.Resolves type id) :
    type.kind = .Union ∧ type.arguments ≠ [] ∧ (∀ c ∈ type.arguments, c = id) ∨
      arena.find id = some type.sortMembers.clearName := by
  rcases h with h | ⟨-, h⟩
  · exact .inl (onlyMember_sortMembers.mp h)
  · exact .inr h

theorem same_of_members {t : TypeTree} (hkind : type.kind = .Union) (hsome : type.arguments ≠ [])
    (hall : ∀ c ∈ type.arguments, c = id) (h : TypeTree.Same (arena.expand id) t) :
    TypeTree.Same (type.meaning arena.expand) t := by
  unfold meaning
  rw [hkind]
  refine .single (by simpa using hsome) fun a ha => ?_
  obtain ⟨c, hc, rfl⟩ := List.mem_map.mp ha
  rwa [hall c hc]

theorem same_expand (hwf : arena.WellFormed) (h : arena.Resolves type id) :
    TypeTree.Same (type.meaning arena.expand) (arena.expand id) := by
  obtain ⟨hkind, hsome, hall⟩ | hfind := h.cases
  · exact same_of_members hkind hsome hall (.refl _)
  · have hcanonical := hwf.canonical id _ hfind
    rw [expand_of_find hwf hfind]
    refine same_of_canonical _ ?_
    rw [hcanonical.sorted, hcanonical.unnamed]

/-- Types of one id are equal. -/
theorem same_of_resolves (hwf : arena.WellFormed) {other : InternedType} (h : arena.Resolves type id)
    (hother : arena.Resolves other id) :
    TypeTree.Same (type.meaning arena.expand) (other.meaning arena.expand) := by
  obtain ⟨hkind, hsome, hall⟩ | hfind := h.cases
  · exact same_of_members hkind hsome hall (same_expand hwf hother).symm
  · obtain ⟨hkind, hsome, hall⟩ | hfind' := hother.cases
    · exact (same_of_members hkind hsome hall (same_expand hwf h).symm).symm
    · exact same_of_canonical _ (Option.some.inj (hfind.symm.trans hfind'))

/-- What a sequence of calls keeps and gives. -/
theorem internAll_spec {calls : List InternedType} (hwf : arena.WellFormed) (hscope : arena.Scoped calls) :
    (arena.internAll calls).2.WellFormed ∧ arena.types <+: (arena.internAll calls).2.types ∧
      ∀ (k : Nat) (type : InternedType), calls[k]? = some type →
        (∀ c ∈ type.ids, c < (arena.internAll calls).2.types.length) ∧
          ∃ id, (arena.internAll calls).1[k]? = some id ∧
            (arena.internAll calls).2.Resolves type id := by
  induction calls generalizing arena with
  | nil => exact ⟨hwf, List.prefix_refl _, by simp⟩
  | cons call rest ih =>
    obtain ⟨hcall, hrest⟩ := hscope
    obtain ⟨hwf', hprefix, hresolves⟩ := intern_spec hwf hcall
    obtain ⟨hfinal, hlater, hall⟩ := ih hwf' hrest
    have hgrown := hprefix.trans hlater
    refine ⟨hfinal, hgrown, fun k type hk => ?_⟩
    cases k with
    | zero =>
      obtain rfl : call = type := by simpa using hk
      refine ⟨fun c hc => Nat.lt_of_lt_of_le (hcall c hc) hgrown.length_le, _, rfl, ?_⟩
      exact hresolves.append hlater
    | succ k => exact hall k type (by simpa using hk)

theorem internAll_append (before after : List InternedType) :
    (arena.internAll (before ++ after)).2 = ((arena.internAll before).2.internAll after).2 := by
  induction before generalizing arena with
  | nil => rfl
  | cons call rest ih => exact ih

theorem scoped_append {before after : List InternedType} :
    arena.Scoped (before ++ after) ↔
      arena.Scoped before ∧ (arena.internAll before).2.Scoped after := by
  induction before generalizing arena with
  | nil => simp [Scoped, internAll]
  | cons call rest ih =>
    simp only [List.cons_append, Scoped, ih, and_assoc]
    rfl

/-- Interning is canonical: two calls return one id exactly when their types are equal, an id stands
    for the type it was returned for, and no later call changes what an id stands for. -/
theorem intern_canonical (calls : List InternedType) (hscope : initial.Scoped calls) :
    (∀ (k l : Nat) (type other : InternedType), calls[k]? = some type → calls[l]? = some other →
      ((initial.internAll calls).1[k]? = (initial.internAll calls).1[l]? ↔
        TypeTree.Same (type.meaning (initial.internAll calls).2.expand)
          (other.meaning (initial.internAll calls).2.expand))) ∧
    (∀ (k : Nat) (type : InternedType) (id : TypeId), calls[k]? = some type →
      (initial.internAll calls).1[k]? = some id →
        TypeTree.Same (type.meaning (initial.internAll calls).2.expand)
          ((initial.internAll calls).2.expand id)) ∧
    ∀ before after, calls = before ++ after → ∀ id < (initial.internAll before).2.types.length,
      (initial.internAll calls).2.find id = (initial.internAll before).2.find id ∧
        (initial.internAll calls).2.expand id = (initial.internAll before).2.expand id := by
  obtain ⟨hwf, -, hcalls⟩ := internAll_spec initial_wellFormed hscope
  refine ⟨?_, ?_, ?_⟩
  · intro k l type other hk hl
    obtain ⟨hids, i, hi, hresolves⟩ := hcalls k type hk
    obtain ⟨hids', j, hj, hresolves'⟩ := hcalls l other hl
    rw [hi, hj, Option.some.injEq]
    constructor
    · rintro rfl
      exact same_of_resolves hwf hresolves hresolves'
    · intro hsame
      exact id_eq_of_same hwf hsame i j (.inr ⟨type, rfl, hids, hresolves⟩)
        (.inr ⟨other, rfl, hids', hresolves'⟩)
  · intro k type id hk hid
    obtain ⟨-, i, hi, hresolves⟩ := hcalls k type hk
    obtain rfl : i = id := Option.some.inj (hi.symm.trans hid)
    exact same_expand hwf hresolves
  · rintro before after rfl id hid
    rw [scoped_append] at hscope
    obtain ⟨hbefore, -, -⟩ := internAll_spec initial_wellFormed hscope.1
    obtain ⟨-, hlater, -⟩ := internAll_spec hbefore hscope.2
    rw [internAll_append]
    constructor
    · by_cases hzero : id = kNoType
      · simp [find, hzero]
      · obtain ⟨type, htype⟩ := find_of_pos hzero hid
        rw [htype, find_append htype hlater]
    · obtain ⟨more, hmore⟩ := hlater
      unfold expand
      rw [← hmore, child_meanings_append hid]

/-- `int|string` in one order with a member twice, in the other order, and alone in a union. -/
def reordered : List InternedType :=
  [{ kind := .Union, arguments := [6, 4, 6] }, { kind := .Union, arguments := [4, 6] },
    { kind := .Union, arguments := [8] }]

theorem intern_canonical_reordered :
    TypeTree.Same (InternedType.meaning (initial.internAll reordered).2.expand
        { kind := .Union, arguments := [6, 4, 6] })
      (InternedType.meaning (initial.internAll reordered).2.expand
        { kind := .Union, arguments := [8] }) :=
  ((intern_canonical reordered (by decide)).1 0 2 _ _ rfl rfl).mp (by decide)

/-- Canonicity with nested unions flattened. -/
def FlatCanonical (calls : List InternedType) : Prop :=
  ∀ (k l : Nat) (type other : InternedType), calls[k]? = some type → calls[l]? = some other →
    ((initial.internAll calls).1[k]? = (initial.internAll calls).1[l]? ↔
      TypeTree.Same (type.meaning (initial.internAll calls).2.expand).flatten
        (other.meaning (initial.internAll calls).2.expand).flatten)

/-- `int|null`, the union of that with `string`, and `null|int|string`. -/
def nested : List InternedType :=
  [{ kind := .Union, arguments := [4, 2] }, { kind := .Union, arguments := [8, 6] },
    { kind := .Union, arguments := [2, 4, 6] }]

theorem nested_not_flatCanonical : initial.Scoped nested ∧ ¬FlatCanonical nested := by
  refine ⟨by decide, fun h => ?_⟩
  have hids := (h 1 2 _ _ rfl rfl).mpr (.refl _)
  exact absurd hids (by decide)

end TypeArena

end zl.mir
