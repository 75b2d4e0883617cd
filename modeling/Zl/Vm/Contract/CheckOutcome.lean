import Zl.Vm.Contract.Planned

namespace zl.vm.contract

/-- A value a boundary checks, with the name of the type it asks for. -/
structure BoundaryCheck (R O : Type) where
  value : Value R O
  typeName : List Char
  mode : Mode

section
variable {R O : Type} [DecidableEq R] (chunk : Chunk O) (valuesEqual : Value R O → Value R O → Bool)

/-- The checks of one transaction, with what each found. -/
def runChecks (heap : Heap R O) (fuel : Nat) (plan : Plan R) :
    List (BoundaryCheck R O) → Option (List Bool × Plan R)
  | [] => some ([], plan)
  | boundary :: checks => do
    let (found, plan) ← check chunk heap fuel plan boundary.value boundary.typeName boundary.mode
    let (others, plan) ← runChecks heap fuel plan checks
    some (found :: others, plan)

/-- A boundary that fails is abandoned before its commit. -/
def checkBoundary (heap : Heap R O) (fuel : Nat) (checks : List (BoundaryCheck R O)) (commits : Bool) :
    Option (Heap R O) :=
  (runChecks chunk heap fuel [] checks).map fun (_, plan) => if commits then commit heap plan else heap

def setContents (heap : Heap R O) (r : R) (contents : Contents R O) : Heap R O :=
  Function.update heap r { heap r with contents }

/-- A write that its guard refuses leaves the heap as it is. -/
def afterGuard (heap : Heap R O) (r : R) (contents : Contents R O) : Verdict R → Option (Heap R O)
  | .outOfFuel => none
  | .mismatch => some heap
  | .matched plan => some (commit (setContents heap r contents) plan)

def guardedListWrite (heap : Heap R O) (fuel : Nat) (list : R) (inserted : Option (Value R O))
    (items : List (Value R O)) : Option (Heap R O) :=
  afterGuard heap list (.list items) (listWrite chunk heap fuel [] list inserted items.length)

/-- What is done to a list. `push` also stands for `Queue.enqueue` and `Stack.push`, and `pop`
    for `Stack.pop`. -/
inductive ListEdit (R O : Type) where
  | push (value : Value R O)
  | pop
  | dequeue
  | set (index : Nat) (value : Value R O)
  | setAdd (value : Value R O)
  | setRemove (value : Value R O)

def collPush (heap : Heap R O) (fuel : Nat) (list : R) (items : List (Value R O)) (value : Value R O) :
    Option (Heap R O) :=
  guardedListWrite chunk heap fuel list (some value) (items ++ [value])

def collPop (heap : Heap R O) (fuel : Nat) (list : R) (items : List (Value R O)) : Option (Heap R O) :=
  if items.isEmpty then some heap else guardedListWrite chunk heap fuel list none items.dropLast

def queueDequeue (heap : Heap R O) (fuel : Nat) (list : R) (items : List (Value R O)) :
    Option (Heap R O) :=
  if items.isEmpty then some heap else guardedListWrite chunk heap fuel list none items.tail

def collSet (heap : Heap R O) (fuel : Nat) (list : R) (items : List (Value R O)) (index : Nat)
    (value : Value R O) : Option (Heap R O) :=
  if index < items.length then guardedListWrite chunk heap fuel list (some value) (items.set index value)
  else some heap

/-- Adding checks the element first and, if it is new, also that the set may grow. -/
def collSetAdd (heap : Heap R O) (fuel : Nat) (set : R) (items : List (Value R O)) (value : Value R O) :
    Option (Heap R O) :=
  match listWrite chunk heap fuel [] set (some value) items.length with
  | .matched plan =>
    if items.any fun item => valuesEqual item value then some (commit heap plan)
    else afterGuard heap set (.list (items ++ [value]))
      (listWrite chunk heap fuel plan set none (items.length + 1))
  | .mismatch => some heap
  | .outOfFuel => none

def collSetRemove (heap : Heap R O) (fuel : Nat) (set : R) (items : List (Value R O))
    (value : Value R O) :
    Option (Heap R O) :=
  if items.any fun item => valuesEqual item value then
    guardedListWrite chunk heap fuel set none (items.eraseP fun item => valuesEqual item value)
  else some heap

def editList (heap : Heap R O) (fuel : Nat) (list : R) (items : List (Value R O)) :
    ListEdit R O → Option (Heap R O)
  | .push value => collPush chunk heap fuel list items value
  | .pop => collPop chunk heap fuel list items
  | .dequeue => queueDequeue chunk heap fuel list items
  | .set index value => collSet chunk heap fuel list items index value
  | .setAdd value => collSetAdd chunk valuesEqual heap fuel list items value
  | .setRemove value => collSetRemove chunk valuesEqual heap fuel list items value

/-- The value of an entry is replaced in place; the entry of a new key is appended. -/
def setEntry (key value : Value R O) : List (Value R O × Value R O) → List (Value R O × Value R O)
  | [] => [(key, value)]
  | entry :: entries =>
    if valuesEqual entry.1 key then (entry.1, value) :: entries else entry :: setEntry key value entries

def collMapSet (heap : Heap R O) (fuel : Nat) (map : R) (entries : List (Value R O × Value R O))
    (key value : Value R O) : Option (Heap R O) :=
  afterGuard heap map (.map (setEntry valuesEqual key value entries))
    (mapWrite chunk heap fuel [] map key value)

/-- Removing an entry needs no check. -/
def collMapRemove (heap : Heap R O) (map : R) (entries : List (Value R O × Value R O)) (key : Value R O) :
    Heap R O :=
  setContents heap map (.map (entries.eraseP fun entry => valuesEqual entry.1 key))

end

/-- A type as some text spells it. -/
def Spelled (t : TypeName) : Prop := WellFormed t ∨ t = invalidType

theorem parse_describe_of_spelled {t : TypeName} (h : Spelled t) :
    parseTypeName (describeTypeName t) = reread t := by
  rcases h with hwf | rfl
  · exact parse_describe hwf
  · decide +kernel

theorem spelled_parseTypeName (text : List Char) : Spelled (parseTypeName text) :=
  wellFormed_parseTypeName text

/-- A pattern check only looks at the kind of its value. -/
def foundBy {R O : Type} (mode : Mode) (value : Value R O) (type : TypeName) :
    List (Value R O × TypeName) :=
  match mode with
  | .assignment => [(value, type)]
  | .pattern => []

section
variable {R O : Type} {chunk : Chunk O}

theorem exists_firstMatch {matchesMember : TypeName → Verdict R} {members : List TypeName} {plan : Plan R}
    (h : firstMatch matchesMember members = .matched plan) :
    ∃ member ∈ members, matchesMember member = .matched plan := by
  induction members with
  | nil => nomatch h
  | cons member members ih =>
    rw [firstMatch] at h
    split at h
    · obtain ⟨m, hm, hmatches⟩ := ih h
      exact ⟨m, List.mem_cons_of_mem _ hm, hmatches⟩
    · exact ⟨member, List.mem_cons_self, h⟩

theorem accepted_of_leaf {observe : R → List Char → Bool} {value : Value R O} {name : String}
    {args : List TypeName} {fixedSize : Option Nat} (hspelled : Spelled (.named name args fixedSize))
    (hleaf : isContainerName name = false ∨ isNil value = true)
    (h : leafMatches chunk observe value (.named name args fixedSize) .assignment = true) :
    Accepted chunk value (.named name args fixedSize) := by
  refine ⟨1, fun observe' => ?_⟩
  rw [leafMatches, runtimeAssignableToType, parse_describe_of_spelled hspelled] at h
  rw [Function.iterate_one, ← h]
  refine runtimeAssignableToNamed_observe chunk observe' value observe
    (hleaf.imp_right fun hnil r heq => ?_) ..
  rw [heq] at hnil
  nomatch hnil

end

section
variable {R O : Type} [DecidableEq R] {chunk : Chunk O} {heap : Heap R O}
variable {value : Value R O} {fuel : Nat} {typeName : List Char} {mode : Mode}

/-- A check that matches keeps every contract of the plan and finds its value assignable. -/
theorem matchesType_outcome {opened : R → NativeContainerType → Prop} {plan plan' : Plan R}
    {type : TypeName} (hspelled : Spelled type) (hplanned : Planned chunk heap opened (proposed heap plan))
    (h : matchesType chunk heap fuel plan value type mode = .matched plan') :
    Outcome chunk heap opened plan plan' (foundBy mode value type) := by
  induction fuel generalizing opened plan plan' value type mode with
  | zero => nomatch h
  | succ fuel ih =>
    cases type with
    | union members =>
      obtain ⟨hmembers, hmatch⟩ : (∀ m ∈ members, WellFormed m) ∧ _ := by
        rcases hspelled with hwf | hinvalid
        · cases hwf with
          | union _ hmembers _ => exact ⟨hmembers, exists_firstMatch h⟩
        · nomatch hinvalid
      obtain ⟨m, hm, hmatch⟩ := hmatch
      have houtcome := ih (.inl (hmembers m hm)) hplanned hmatch
      cases mode with
      | pattern => exact houtcome
      | assignment =>
        refine ⟨houtcome.planned, houtcome.narrowed, List.forall_mem_singleton.mpr ?_⟩
        exact .member hm (houtcome.assignable _ List.mem_cons_self)
    | named name args fixedSize =>
      rw [matchesType] at h
      split at h
      · next hcontainer =>
        rw [Bool.and_eq_true] at hcontainer
        have hwf : WellFormed (.named name args fixedSize) := by
          rcases hspelled with hwf | hinvalid
          · exact hwf
          · obtain ⟨rfl, -, -⟩ := TypeName.named.inj hinvalid
            nomatch hcontainer.2
        have hitem : FindsAssignable chunk heap fun plan value type =>
            matchesType chunk heap fuel plan value type .assignment :=
          fun opened plan plan' value type hwf hplanned h => ih (.inl hwf) hplanned h
        have houtcome := container_outcome hitem hcontainer.2 hwf hplanned h
        cases mode with
        | pattern => exact ⟨houtcome.planned, houtcome.narrowed, nofun⟩
        | assignment => exact houtcome
      · next hleaf =>
        split at h
        · next haccepts =>
          obtain rfl := Verdict.matched.inj h
          refine ⟨hplanned, fun _ => .refl _, ?_⟩
          cases mode with
          | pattern => nofun
          | assignment =>
            refine List.forall_mem_singleton.mpr (.leaf (accepted_of_leaf hspelled ?_ haccepts))
            rw [Bool.and_eq_true, not_and_or, Bool.not_eq_true', Bool.not_eq_true,
              Bool.not_eq_false] at hleaf
            exact hleaf.symm
        · nomatch h

theorem check_failed {plan plan' : Plan R}
    (h : check chunk heap fuel plan value typeName mode = some (false, plan')) : plan' = plan := by
  unfold check at h
  split at h
  · nomatch h
  · exact (Prod.mk.inj (Option.some.inj h)).2.symm
  · nomatch h

variable {opened : R → NativeContainerType → Prop} {plan plan' : Plan R}

theorem check_outcome {found : Bool} (hplanned : Planned chunk heap opened (proposed heap plan))
    (h : check chunk heap fuel plan value typeName mode = some (found, plan')) :
    Outcome chunk heap opened plan plan' [] := by
  cases found with
  | false =>
    rw [check_failed h]
    exact .refl hplanned
  | true =>
    unfold check at h
    split at h
    · next hmatches =>
      obtain rfl := (Prod.mk.inj (Option.some.inj h)).2
      have houtcome := matchesType_outcome (spelled_parseTypeName typeName) hplanned hmatches
      exact ⟨houtcome.planned, houtcome.narrowed, List.forall_mem_nil _⟩
    · cases h
    · cases h

theorem matchesType_of_require (h : require chunk heap fuel plan value typeName = .matched plan') :
    matchesType chunk heap fuel plan value (parseTypeName typeName) .assignment = .matched plan' := by
  unfold require check at h
  split at h
  · next hcheck =>
    obtain rfl := Verdict.matched.inj h
    split at hcheck
    · next hmatches =>
      obtain ⟨-, rfl⟩ := Prod.mk.inj (Option.some.inj hcheck)
      exact hmatches
    · cases (Prod.mk.inj (Option.some.inj hcheck)).1
    · cases hcheck
  · cases h
  · cases h

theorem require_outcome {type : TypeName} (hwf : WellFormed type)
    (hplanned : Planned chunk heap opened (proposed heap plan))
    (h : require chunk heap fuel plan value (describeTypeName type) = .matched plan') :
    Outcome chunk heap opened plan plan' [(value, type)] := by
  have houtcome := matchesType_outcome (spelled_parseTypeName _) hplanned (matchesType_of_require h)
  rw [parse_describe hwf] at houtcome
  refine ⟨houtcome.planned, houtcome.narrowed, List.forall_mem_singleton.mpr ?_⟩
  exact .of_reread hwf (houtcome.assignable _ List.mem_cons_self)

end

end zl.vm.contract
