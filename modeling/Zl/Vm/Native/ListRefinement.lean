import Zl.Program.Loops
import Zl.Vm.Json.Encode
import Zl.Vm.Native.Collections
import Zl.Vm.Ordering

open zl.collections zl.program zl.transition zl.vm.gc zl.vm.json

namespace zl.vm.native.collections

/-- What a native throws: the class the program can catch it by, and the message. -/
structure Fault where
  className : String := "RuntimeError"
  message : String
  deriving DecidableEq, Repr

inductive Operation where
  | collPush (v : gc.Value)
  | collPop
  | collGet (index : gc.Value)
  | collSet (index v : gc.Value)
  | collLength
  | queueEnqueue (v : gc.Value)
  | queueDequeue
  | queuePeek
  | queueIsEmpty
  | queueSize
  | stackPush (v : gc.Value)
  | stackPop
  | stackPeek
  | stackIsEmpty
  | stackSize
  | collSetAdd (v : gc.Value)
  | collSetHas (v : gc.Value)
  | collSetRemove (v : gc.Value)
  | collSetItems
  -- the instruction, not a native
  | getIndex (index : gc.Value)

/-- A call, with what `listWrite` has against an item to be written and the size to be reached, and how
    `valuesEqual` compares, at that moment. It may throw, for values that are nested too deep. -/
structure Call where
  operation : Operation
  listWrite : Option gc.Value → Nat → Option Fault := fun _ _ => none
  valuesEqual : gc.Value → gc.Value → Except Fault Bool := fun v w => .ok (v = w)

/-- `collSetItems` makes a new list. -/
inductive Reply where
  | value (v : gc.Value)
  | newList (items : List gc.Value)
  deriving DecidableEq

def Reply.nil : Reply := .value .nil
def Reply.bool (held : Bool) : Reply := .value (.bool held)
def Reply.size (n : Nat) : Reply := .value (.int (Int64.ofNat n))

def requireIndex (v : gc.Value) (size : Nat) (fnName : String) : Except Fault Nat :=
  match v with
  | .int i =>
    if i.toInt < 0 ∨ size ≤ i.toInt.toNat then
      .error ⟨"IndexError",
        fnName ++ ": index " ++ toString i.toInt ++ " out of bounds (size " ++ toString size ++ ")"⟩
    else .ok i.toInt.toNat
  | _ => .error { message := "expected a whole number, got a decimal or non-number" }

/-- The checks of the instruction. -/
def indexOperand (v : gc.Value) (size : Nat) : Except Fault Nat :=
  match v with
  | .int i =>
    if i.toInt < 0 ∨ size ≤ i.toInt.toNat then .error { message := "VM: list index out of bounds" }
    else .ok i.toInt.toNat
  | _ => .error { message := "VM: list index must be an int" }

namespace Call
variable (call : Call)

/-- Go on if the contract of the list allows the write. -/
def allowed {A : Type} (inserted : Option gc.Value) (resultingSize : Nat) (done : A) : Except Fault A :=
  match call.listWrite inserted resultingSize with
  | some fault => .error fault
  | none => .ok done

/-- An operation that takes an item away, unless there is none. -/
def taken {L : Type} (size : Nat) (message : String) : Option (gc.Value × L) → Except Fault (Reply × L)
  | none => .error { message := message }
  | some (v, rest) => call.allowed none (size - 1) (.value v, rest)

/-- The place of the first item that is equal, unless a comparison before it throws. -/
def placeOf (items : List gc.Value) (v : gc.Value) : Except Fault (Option Nat) :=
  firstPlace (call.valuesEqual · v) items

section
variable (list : ListBox)

def peeked (message : String) (v : gc.Value) : Except Fault (Reply × ListBox) :=
  if listLogicalSize list = 0 then .error { message := message } else .ok (.value v, list)

def apply : Except Fault (Reply × ListBox) :=
  match call.operation with
  | .collPush v => call.allowed (some v) (listLogicalSize list + 1) (.nil, collPush list v)
  | .collPop =>
    call.taken (listLogicalSize list) "Collection.pop: cannot pop from an empty list" (collPop list)
  | .collGet index => do
    let i ← requireIndex index (listLogicalSize list) "Collection.get"
    return (.value (list.items.getD (list.frontIndex + i) .nil), list)
  | .collSet index v => do
    let i ← requireIndex index (listLogicalSize list) "Collection.set"
    call.allowed (some v) (listLogicalSize list) (.nil, (collSet list i v).getD list)
  | .collLength => .ok (.size (listLogicalSize list), list)
  | .queueEnqueue v => call.allowed (some v) (listLogicalSize list + 1) (.nil, queueEnqueue list v)
  | .queueDequeue =>
    call.taken (listLogicalSize list) "Queue.dequeue: cannot dequeue from an empty queue" (queueDequeue list)
  | .queuePeek => peeked list "Queue.peek: cannot peek an empty queue" (list.items.getD list.frontIndex .nil)
  | .queueIsEmpty => .ok (.bool (listLogicalSize list == 0), list)
  | .queueSize => .ok (.size (listLogicalSize list), list)
  | .stackPush v => call.allowed (some v) (listLogicalSize list + 1) (.nil, stackPush list v)
  | .stackPop => call.taken (listLogicalSize list) "Stack.pop: cannot pop from an empty stack" (collPop list)
  | .stackPeek => peeked list "Stack.peek: cannot peek an empty stack" (list.items.getLastD .nil)
  | .stackIsEmpty => .ok (.bool (listLogicalSize list == 0), list)
  | .stackSize => .ok (.size (listLogicalSize list), list)
  | .collSetAdd v => do
    call.allowed (some v) (listLogicalSize list) ()
    match ← call.placeOf (logicalItems list) v with
    | some _ => return (.nil, list)
    | none => call.allowed none (listLogicalSize list + 1) (.nil, pushBack list v)
  | .collSetHas v => do return (.bool (← call.placeOf (logicalItems list) v).isSome, list)
  | .collSetRemove v => do
    match ← call.placeOf (logicalItems list) v with
    | some i => call.allowed none (listLogicalSize list - 1) (.nil, collSetErase list i)
    | none => return (.nil, list)
  | .collSetItems => .ok (.newList (logicalItems list), list)
  | .getIndex index => do
    let i ← indexOperand index (listLogicalSize list)
    return (.value (list.items.getD (list.frontIndex + i) .nil), list)

/-- The list after the call. One that throws changes nothing. -/
def next : ListBox :=
  match call.apply list with
  | .ok (_, list) => list
  | .error _ => list

end

/-- The same operation on a list of items. -/
def onItems (items : List gc.Value) : Except Fault (Reply × List gc.Value) :=
  match call.operation with
  | .collPush v | .queueEnqueue v | .stackPush v =>
    call.allowed (some v) (items.length + 1) (.nil, items ++ [v])
  | .collPop => call.taken items.length "Collection.pop: cannot pop from an empty list"
      (items.getLast?.map fun v => (v, items.dropLast))
  | .stackPop => call.taken items.length "Stack.pop: cannot pop from an empty stack"
      (items.getLast?.map fun v => (v, items.dropLast))
  | .queueDequeue => call.taken items.length "Queue.dequeue: cannot dequeue from an empty queue"
      (items.head?.map fun v => (v, items.tail))
  | .collGet index => do
    let i ← requireIndex index items.length "Collection.get"
    return (.value (items.getD i .nil), items)
  | .getIndex index => do
    let i ← indexOperand index items.length
    return (.value (items.getD i .nil), items)
  | .collSet index v => do
    let i ← requireIndex index items.length "Collection.set"
    call.allowed (some v) items.length (.nil, items.set i v)
  | .collLength | .queueSize | .stackSize => .ok (.size items.length, items)
  | .queueIsEmpty | .stackIsEmpty => .ok (.bool items.isEmpty, items)
  | .queuePeek =>
    match items.head? with
    | none => .error { message := "Queue.peek: cannot peek an empty queue" }
    | some v => .ok (.value v, items)
  | .stackPeek =>
    match items.getLast? with
    | none => .error { message := "Stack.peek: cannot peek an empty stack" }
    | some v => .ok (.value v, items)
  | .collSetAdd v => do
    call.allowed (some v) items.length ()
    match ← call.placeOf items v with
    | some _ => return (.nil, items)
    | none => call.allowed none (items.length + 1) (.nil, items ++ [v])
  | .collSetHas v => do return (.bool (← call.placeOf items v).isSome, items)
  | .collSetRemove v => do
    match ← call.placeOf items v with
    | some i => call.allowed none (items.length - 1) (.nil, items.eraseIdx i)
    | none => return (.nil, items)
  | .collSetItems => .ok (.newList items, items)

end Call

def isTruthy (list : ListBox) : Bool := !list.items.isEmpty

def formatItems (formatItem : gc.Value → json.Bytes) : List gc.Value → json.Bytes
  | [] => []
  | [v] => formatItem v
  | v :: rest => formatItem v ++ comma :: 0x20 :: formatItems formatItem rest

def formatList (formatItem : gc.Value → json.Bytes) (list : ListBox) : json.Bytes :=
  openBracket :: (formatItems formatItem list.items ++ [closeBracket])

def encodeList (encode : gc.Value → Except String json.Bytes) (list : ListBox) :
    Except String json.Bytes := do
  let texts ← json.separated encode list.items
  return openBracket :: (texts ++ [closeBracket])

/-- A list that nothing was taken from. -/
def ofItems (items : List gc.Value) : ListBox := { items := items }

/-- The list is what it holds, to every operation and to every observer. -/
structure Faithful (list : ListBox) : Prop where
  frontIndex_le : list.frontIndex ≤ list.items.length
  operations : ∀ call : Call,
    (call.apply list).map (fun done => (done.1, logicalItems done.2)) = call.onItems (logicalItems list)
  truthy : isTruthy list = isTruthy (ofItems (logicalItems list))
  printed : ∀ formatItem, formatList formatItem list = formatList formatItem (ofItems (logicalItems list))
  encoded : ∀ encode, encodeList encode list = encodeList encode (ofItems (logicalItems list))

/-- The condition on a call: nothing is dequeued while the list holds more than two items. -/
def TakesFromFew (list : ListBox) (call : Call) : Prop :=
  call.operation = .queueDequeue → call.listWrite none (listLogicalSize list - 1) = none →
    listLogicalSize list ≤ 2

/-- A new list. -/
def New (list : ListBox) : Prop := list.items = [] ∧ list.frontIndex = 0

abbrev CallRun : ListBox → List (ListBox × Call) → Prop :=
  Run New fun list call list' => list' = call.next list

section
variable {list : ListBox} {call : Call}
variable {v : gc.Value} {i : Nat} {size : Nat}

@[simp]
theorem Call.map_allowed {A B : Type} (f : A → B) (inserted : Option gc.Value) (size : Nat) (done : A) :
    (call.allowed inserted size done).map f = call.allowed inserted size (f done) := by
  unfold Call.allowed
  split <;> rfl

theorem Call.map_taken {L M : Type} (f : L → M) (size : Nat) (message : String)
    (found : Option (gc.Value × L)) :
    (call.taken size message found).map (fun done => (done.1, f done.2)) =
      call.taken size message (found.map fun p => (p.1, f p.2)) := by
  cases found with
  | none => rfl
  | some p => exact Call.map_allowed _ _ _ _

theorem items_eq_nil_iff : logicalItems list = [] ↔ listLogicalSize list = 0 := by
  rw [← length_logicalItems, List.length_eq_zero_iff]

theorem map_collPop : (collPop list).map (fun p => (p.1, logicalItems p.2)) =
    (logicalItems list).getLast?.map fun v => (v, (logicalItems list).dropLast) := by
  cases hpop : collPop list with
  | none =>
    have hsize : listLogicalSize list = 0 := by
      by_contra hne
      rw [collPop, dif_neg hne] at hpop
      cases hpop
    rw [items_eq_nil_iff.mpr hsize]
    rfl
  | some p =>
    rw [logicalItems_collPop hpop]
    simp

theorem map_queueDequeue : (queueDequeue list).map (fun p => (p.1, logicalItems p.2)) =
    (logicalItems list).head?.map fun v => (v, (logicalItems list).tail) := by
  cases hdequeue : queueDequeue list with
  | none =>
    have hsize : listLogicalSize list = 0 := by
      by_contra hne
      rw [queueDequeue, dif_neg hne] at hdequeue
      cases hdequeue
    rw [items_eq_nil_iff.mpr hsize]
    rfl
  | some p =>
    rw [logicalItems_queueDequeue hdequeue]
    rfl

theorem getD_logicalItems (i : Nat) :
    list.items.getD (list.frontIndex + i) .nil = (logicalItems list).getD i .nil := by
  simp [logicalItems, List.getD_eq_getElem?_getD]

theorem logicalItems_collSet (hi : i < listLogicalSize list) (v : gc.Value) :
    logicalItems ((collSet list i v).getD list) = (logicalItems list).set i v := by
  rw [collSet, if_pos hi]
  simp [logicalItems, List.drop_set]

theorem logicalItems_collSetErase (hi : i < listLogicalSize list) :
    logicalItems (collSetErase list i) = (logicalItems list).eraseIdx i := by
  have hlength : (list.items.take list.frontIndex).length = list.frontIndex :=
    List.length_take_of_le list.frontIndex_le
  have herase : list.items.eraseIdx (list.frontIndex + i) =
      list.items.take list.frontIndex ++ (logicalItems list).eraseIdx i := by
    have hle : (list.items.take list.frontIndex).length ≤ list.frontIndex + i := by omega
    have hat := List.eraseIdx_append_of_length_le hle (logicalItems list)
    rw [logicalItems, List.take_append_drop, hlength, Nat.add_sub_cancel_left] at hat
    exact hat
  rw [collSetErase, dif_pos hi]
  exact (congrArg (List.drop list.frontIndex) herase).trans (List.drop_left' hlength)

theorem Call.placeOf_lt {items : List gc.Value} (h : call.placeOf items v = .ok (some i)) :
    i < items.length := by
  unfold Call.placeOf at h
  rcases firstPlace_cases (call.valuesEqual · v) items with ⟨-, hnone⟩ | ⟨a, x, b, rfl, -, hfound⟩
  · rw [hnone] at h
    cases h
  · rcases hfound with ⟨-, hplace⟩ | ⟨e, -, hraised⟩
    · rw [hplace] at h
      cases h
      simp
    · rw [hraised] at h
      cases h

theorem requireIndex_lt {fnName : String} (h : requireIndex v size fnName = .ok i) : i < size := by
  unfold requireIndex at h
  split at h
  · split at h
    · cases h
    · cases h
      omega
  · cases h

/-- A call does to the items what it does to the list. -/
theorem apply_refines (list : ListBox) (call : Call) :
    (call.apply list).map (fun done => (done.1, logicalItems done.2)) = call.onItems (logicalItems list) := by
  have hempty : (listLogicalSize list == 0) = (logicalItems list).isEmpty := by
    rw [← length_logicalItems]
    cases logicalItems list <;> rfl
  have hnil : listLogicalSize list = 0 ↔ logicalItems list = [] := items_eq_nil_iff.symm
  obtain ⟨operation, listWrite, valuesEqual⟩ := call
  unfold Call.apply Call.onItems
  rw [length_logicalItems]
  cases operation with
  | collPush v => simp [logicalItems_collPush]
  | queueEnqueue v => simp [queueEnqueue, logicalItems_pushBack]
  | stackPush v => simp [logicalItems_stackPush]
  | collPop =>
    dsimp only
    rw [Call.map_taken, map_collPop]
  | stackPop =>
    dsimp only
    rw [Call.map_taken, map_collPop]
  | queueDequeue =>
    dsimp only
    rw [Call.map_taken, map_queueDequeue]
  | collGet index =>
    dsimp only
    cases requireIndex index (listLogicalSize list) "Collection.get" with
    | error fault => rfl
    | ok i =>
      simp only [bind, Except.bind, getD_logicalItems]
      rfl
  | getIndex index =>
    dsimp only
    cases indexOperand index (listLogicalSize list) with
    | error fault => rfl
    | ok i =>
      simp only [bind, Except.bind, getD_logicalItems]
      rfl
  | collSet index v =>
    dsimp only
    cases hindex : requireIndex index (listLogicalSize list) "Collection.set" with
    | error fault => rfl
    | ok i =>
      simp only [bind, Except.bind, Call.map_allowed, logicalItems_collSet (requireIndex_lt hindex)]
  | collLength | queueSize | stackSize => rfl
  | queueIsEmpty | stackIsEmpty =>
    dsimp only
    rw [hempty]
    rfl
  | queuePeek =>
    dsimp only
    unfold Call.peeked
    cases hitems : logicalItems list with
    | nil =>
      rw [if_pos (hnil.mpr hitems)]
      rfl
    | cons v rest =>
      have hfront := @getD_logicalItems list 0
      rw [hitems, Nat.add_zero] at hfront
      rw [if_neg (by rw [hnil, hitems]; exact List.cons_ne_nil v rest), hfront]
      simp [Except.map, hitems]
  | stackPeek =>
    dsimp only
    unfold Call.peeked
    cases hlast : (logicalItems list).getLast? with
    | none =>
      rw [if_pos (hnil.mpr (List.getLast?_eq_none_iff.mp hlast))]
      rfl
    | some v =>
      have hne : logicalItems list ≠ [] := by
        rintro heq
        simp [heq] at hlast
      have hback : list.items.getLastD .nil = v := by
        rw [List.getLastD_eq_getLast?]
        rw [logicalItems, List.getLast?_drop] at hlast
        split at hlast
        · cases hlast
        · rw [hlast]
          rfl
      rw [if_neg (by rwa [hnil]), hback]
      rfl
  | collSetAdd v =>
    dsimp only
    cases Call.allowed ⟨.collSetAdd v, listWrite, valuesEqual⟩ (some v) (listLogicalSize list) () with
    | error fault => rfl
    | ok _ =>
      simp only [bind, Except.bind]
      cases Call.placeOf ⟨.collSetAdd v, listWrite, valuesEqual⟩ (logicalItems list) v with
      | error fault => rfl
      | ok place =>
        cases place with
        | some i => rfl
        | none =>
          refine (Call.map_allowed _ _ _ _).trans ?_
          rw [logicalItems_pushBack]
  | collSetHas v =>
    dsimp only
    cases Call.placeOf ⟨.collSetHas v, listWrite, valuesEqual⟩ (logicalItems list) v <;> rfl
  | collSetRemove v =>
    dsimp only
    cases hplace : Call.placeOf ⟨.collSetRemove v, listWrite, valuesEqual⟩ (logicalItems list) v with
    | error fault => rfl
    | ok place =>
      cases place with
      | none => rfl
      | some i =>
        have hi := Call.placeOf_lt hplace
        rw [length_logicalItems] at hi
        refine (Call.map_allowed _ _ _ _).trans ?_
        rw [logicalItems_collSetErase hi]
        rfl
  | collSetItems => rfl

/-- What a call may do to the list. -/
inductive Effect (list : ListBox) (call : Call) : ListBox → Prop
  | unchanged : Effect list call list
  | collPush (v : gc.Value) : Effect list call (collections.collPush list v)
  | collPop {v : gc.Value} {list' : ListBox} (hpop : collections.collPop list = some (v, list')) :
    Effect list call list'
  | collSet (i : Nat) (v : gc.Value) : Effect list call ((collections.collSet list i v).getD list)
  | queueEnqueue (v : gc.Value) : Effect list call (collections.queueEnqueue list v)
  | queueDequeue (hoperation : call.operation = .queueDequeue)
      (hallowed : call.listWrite none (listLogicalSize list - 1) = none) {v : gc.Value} {list' : ListBox}
      (hdequeue : collections.queueDequeue list = some (v, list')) : Effect list call list'
  | stackPush (v : gc.Value) : Effect list call (collections.stackPush list v)
  | collSetErase (i : Nat) : Effect list call (collections.collSetErase list i)

theorem Call.allowed_eq_ok {A : Type} {inserted : Option gc.Value} {done done' : A}
    (h : call.allowed inserted size done = .ok done') :
    call.listWrite inserted size = none ∧ done' = done := by
  unfold Call.allowed at h
  split at h
  · cases h
  · next hnone =>
    cases h
    exact ⟨hnone, rfl⟩

theorem Call.taken_eq_ok {L : Type} {message : String} {found : Option (gc.Value × L)}
    {done : Reply × L} (h : call.taken size message found = .ok done) :
    call.listWrite none (size - 1) = none ∧ ∃ v, found = some (v, done.2) := by
  cases found with
  | none => cases h
  | some p =>
    obtain ⟨hnone, rfl⟩ := Call.allowed_eq_ok h
    exact ⟨hnone, p.1, rfl⟩

theorem Call.peeked_eq_ok {message : String} {done : Reply × ListBox}
    (h : Call.peeked list message v = .ok done) : done.2 = list := by
  unfold Call.peeked at h
  split at h
  · cases h
  · cases h
    rfl

theorem Call.apply_effect {done : Reply × ListBox} (h : call.apply list = .ok done) :
    Effect list call done.2 := by
  have hsame : done.2 = list → Effect list call done.2 := fun heq => heq ▸ .unchanged
  unfold Call.apply at h
  split at h
  · obtain ⟨-, rfl⟩ := Call.allowed_eq_ok h
    exact .collPush _
  · obtain ⟨-, v, hpop⟩ := Call.taken_eq_ok h
    exact .collPop hpop
  · obtain ⟨i, -, h⟩ := bind_eq_ok.mp h
    cases h
    exact .unchanged
  · obtain ⟨i, -, h⟩ := bind_eq_ok.mp h
    obtain ⟨-, rfl⟩ := Call.allowed_eq_ok h
    exact .collSet i _
  · cases h
    exact .unchanged
  · obtain ⟨-, rfl⟩ := Call.allowed_eq_ok h
    exact .queueEnqueue _
  · next hoperation =>
    obtain ⟨hallowed, v, hdequeue⟩ := Call.taken_eq_ok h
    exact .queueDequeue hoperation hallowed hdequeue
  · exact hsame (Call.peeked_eq_ok h)
  · cases h
    exact .unchanged
  · cases h
    exact .unchanged
  · obtain ⟨-, rfl⟩ := Call.allowed_eq_ok h
    exact .stackPush _
  · obtain ⟨-, v, hpop⟩ := Call.taken_eq_ok h
    exact .collPop hpop
  · exact hsame (Call.peeked_eq_ok h)
  · cases h
    exact .unchanged
  · cases h
    exact .unchanged
  · obtain ⟨_, -, h⟩ := bind_eq_ok.mp h
    obtain ⟨place, -, h⟩ := bind_eq_ok.mp h
    split at h
    · cases h
      exact .unchanged
    · obtain ⟨-, rfl⟩ := Call.allowed_eq_ok h
      exact .queueEnqueue _
  · obtain ⟨place, -, h⟩ := bind_eq_ok.mp h
    cases h
    exact .unchanged
  · obtain ⟨place, -, h⟩ := bind_eq_ok.mp h
    split at h
    · obtain ⟨-, rfl⟩ := Call.allowed_eq_ok h
      exact .collSetErase _
    · cases h
      exact .unchanged
  · cases h
    exact .unchanged
  · obtain ⟨i, -, h⟩ := bind_eq_ok.mp h
    cases h
    exact .unchanged

theorem Call.next_effect (list : ListBox) (call : Call) : Effect list call (call.next list) := by
  unfold Call.next
  split
  · next hdone => exact Call.apply_effect hdone
  · exact .unchanged

theorem frontIndex_collSet (h : list.frontIndex = 0) (i : Nat) (v : gc.Value) :
    ((collSet list i v).getD list).frontIndex = 0 := by
  rw [collSet]
  split <;> exact h

/-- A list without a consumed prefix gets one only if something is taken from more than two items. -/
theorem frontIndex_next (h : list.frontIndex = 0) (hfew : TakesFromFew list call) :
    (call.next list).frontIndex = 0 := by
  have heffect := call.next_effect list
  generalize call.next list = list' at heffect
  cases heffect with
  | unchanged => exact h
  | collPush v =>
    rw [collPush, if_neg (not_not.mpr h)]
    exact h
  | collPop hpop =>
    rw [collPop] at hpop
    split at hpop
    · cases hpop
    · cases hpop
      exact frontIndex_normalizeListFront h
  | collSet i v => exact frontIndex_collSet h i v
  | queueEnqueue v => exact h
  | queueDequeue hoperation hallowed hdequeue =>
    have hsize := hfew hoperation hallowed
    rw [listLogicalSize, h, Nat.zero_min, Nat.sub_zero] at hsize
    rw [queueDequeue] at hdequeue
    split at hdequeue
    · cases hdequeue
    · cases hdequeue
      have hlength : (takeFront list ‹_›).items.length ≤ 2 := by simpa [takeFront] using hsize
      have hfront : (takeFront list ‹_›).frontIndex = 1 := congrArg (· + 1) h
      unfold normalizeListFront
      rw [if_neg (by omega)]
      split
      · rfl
      · rw [if_pos (by omega)]
        rfl
  | stackPush v => exact frontIndex_normalizeListFront h
  | collSetErase i =>
    rw [collSetErase]
    split <;> exact h

theorem frontIndex_next_dequeue (h : list.frontIndex = 0) (hfew : ¬ TakesFromFew list call) :
    (call.next list).frontIndex = 1 ∧ 2 < (call.next list).items.length := by
  unfold TakesFromFew at hfew
  simp only [not_forall, Nat.not_le] at hfew
  obtain ⟨hoperation, hallowed, hsize⟩ := hfew
  have hdone : call.apply list = .ok (.value (list.items.getD list.frontIndex .nil),
      normalizeListFront (takeFront list (by omega))) := by
    unfold Call.apply
    rw [hoperation]
    dsimp only
    rw [queueDequeue, dif_neg (by omega)]
    unfold Call.taken Call.allowed
    dsimp only
    rw [hallowed]
  rw [listLogicalSize, h, Nat.zero_min, Nat.sub_zero] at hsize
  have hlength : (takeFront list (by rw [listLogicalSize, h]; omega)).items.length = list.items.length :=
    List.length_set
  have hfront : (takeFront list (by rw [listLogicalSize, h]; omega)).frontIndex = 1 := congrArg (· + 1) h
  unfold Call.next
  rw [hdone]
  dsimp only
  unfold normalizeListFront
  rw [if_neg (by omega), if_neg (by omega), if_neg (by omega), hlength]
  exact ⟨hfront, hsize⟩

theorem length_formatItems (items : List gc.Value) :
    (formatItems (fun _ => []) items).length = 2 * (items.length - 1) := by
  induction items with
  | nil => rfl
  | cons v rest ih =>
    cases rest with
    | nil => rfl
    | cons w rest =>
      simp only [formatItems, List.nil_append, List.length_cons] at ih ⊢
      omega

theorem faithful_of_frontIndex (h : list.frontIndex = 0) : Faithful list := by
  have hitems : (ofItems (logicalItems list)).items = list.items := by
    change list.items.drop list.frontIndex = list.items
    rw [h, List.drop_zero]
  refine ⟨list.frontIndex_le, apply_refines list, ?_, fun formatItem => ?_, fun encode => ?_⟩
  · rw [isTruthy, isTruthy, hitems]
  · rw [formatList, formatList, hitems]
  · rw [encodeList, encodeList, hitems]

theorem not_faithful_of_frontIndex (h : list.frontIndex = 1) (hlength : 2 < list.items.length) :
    ¬ Faithful list := by
  intro hfaithful
  have hprinted := congrArg List.length (hfaithful.printed fun _ => [])
  have hlogical : (ofItems (logicalItems list)).items.length = list.items.length - 1 := by
    change (list.items.drop list.frontIndex).length = _
    rw [h, List.length_drop]
  simp only [formatList, List.length_cons, List.length_append, length_formatItems, hlogical] at hprinted
  omega

end

/-- Over any run of calls on a new list, the list is always what it holds, to operations and observers
    alike, exactly if nothing is ever dequeued while it holds more than two items. -/
theorem faithful_iff {list : ListBox} {past : List (ListBox × Call)} (hrun : CallRun list past) :
    (Faithful list ∧ ∀ p ∈ past, Faithful p.1) ↔ ∀ p ∈ past, TakesFromFew p.1 p.2 := by
  refine hrun.good_iff (fun list => list.frontIndex = 0) Faithful TakesFromFew (fun _ hnew => hnew.2)
    (fun _ h => faithful_of_frontIndex h) ?_ ?_
  · rintro list call _ h hfew rfl
    exact frontIndex_next h hfew
  · rintro list call _ h hfew rfl
    obtain ⟨hfront, hlength⟩ := frontIndex_next_dequeue h hfew
    exact not_faithful_of_frontIndex hfront hlength

theorem exists_run {list : ListBox} {past : List (ListBox × Call)} (hrun : CallRun list past)
    (calls : List Call) :
    ∃ past, CallRun (calls.foldl (fun list call => call.next list) list) past := by
  induction calls generalizing list past with
  | nil => exact ⟨past, hrun⟩
  | cons call calls ih => exact ih (.step hrun rfl)

/-- Three items are added and one is taken. -/
def threeThenDequeue : List Call :=
  [{ operation := .queueEnqueue (.int 1) }, { operation := .queueEnqueue (.int 2) },
    { operation := .queueEnqueue (.int 3) }, { operation := .queueDequeue }]

def afterThree : ListBox := threeThenDequeue.foldl (fun list call => call.next list)
    { frontIndex_le := front_le_nil }

theorem afterThree_run : ∃ past, CallRun afterThree past := by
  have hnew : CallRun {} [] := .start ⟨rfl, rfl⟩
  exact exists_run hnew threeThenDequeue

/-- The list holds two items, and three are printed. -/
theorem dequeued_item_visible :
    (∃ past, CallRun afterThree past) ∧ logicalItems afterThree = [.int 2, .int 3] ∧
    ¬ Faithful afterThree :=
  ⟨afterThree_run, rfl, not_faithful_of_frontIndex rfl (by decide)⟩

theorem faithful_iff_afterThree : ∃ past, CallRun afterThree past ∧
    ((Faithful afterThree ∧ ∀ p ∈ past, Faithful p.1) ↔ ∀ p ∈ past, TakesFromFew p.1 p.2) := by
  obtain ⟨past, hrun⟩ := afterThree_run
  exact ⟨past, hrun, faithful_iff hrun⟩

/-- The other two are removed as from a set: the list is empty and counts as true. -/
def afterRemovals : ListBox :=
  [.collSetRemove (.int 2), .collSetRemove (.int 3)].foldl
    (fun list operation => Call.next { operation := operation } list) afterThree

example : logicalItems afterRemovals = [] ∧ isTruthy afterRemovals = true := by decide

end zl.vm.native.collections
