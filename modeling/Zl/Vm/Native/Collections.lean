import Mathlib
import Zl.Vm.Gc.Heap

open zl.vm.gc

namespace zl.vm.native.collections

/-- What a value leaves behind when it is moved out. -/
def movedFrom : gc.Value → gc.Value
  | .string _ => .string []
  | .task _ => .task none
  | .thread _ => .thread none
  | v => v

section
variable (list : ListBox)

def listLogicalSize : Nat := list.items.length - min list.frontIndex list.items.length

/-- What the list holds. The items before `frontIndex` are gone. -/
def logicalItems : List gc.Value := list.items.drop list.frontIndex

/-- The list without its consumed prefix. -/
def compacted : ListBox :=
  { list with items := logicalItems list, frontIndex := 0, frontIndex_le := Nat.zero_le _ }

theorem front_le_nil : 0 ≤ ([] : List gc.Value).length := Nat.le_refl _

def normalizeListFront : ListBox :=
  if list.frontIndex = 0 then list
  else if list.items.length ≤ list.frontIndex then
    { list with items := [], frontIndex := 0, frontIndex_le := front_le_nil }
  else if list.items.length ≤ list.frontIndex * 2 then compacted list
  else list

/-- An item at the end. -/
def pushBack (v : gc.Value) : ListBox :=
  { list with
    items := list.items ++ [v]
    frontIndex_le := by
      have hle := list.frontIndex_le
      rw [List.length_append]
      omega }

def collPush (v : gc.Value) : ListBox := pushBack (if list.frontIndex ≠ 0 then compacted list else list) v

def popBack (hsize : listLogicalSize list ≠ 0) : ListBox :=
  { list with
    items := list.items.dropLast
    frontIndex_le := by
      rw [listLogicalSize] at hsize
      rw [List.length_dropLast]
      omega }

/-- `collPop`, and `stackPop` as well. -/
def collPop : Option (gc.Value × ListBox) :=
  if hsize : listLogicalSize list = 0 then none
  else some (list.items.getLastD .nil, normalizeListFront (popBack list hsize))

def collSet (index : Nat) (v : gc.Value) : Option ListBox :=
  if index < listLogicalSize list then
    some { list with
      items := list.items.set (list.frontIndex + index) v
      frontIndex_le := by rw [List.length_set]; exact list.frontIndex_le }
  else none

def queueEnqueue (v : gc.Value) : ListBox := pushBack list v

def takeFront (hsize : listLogicalSize list ≠ 0) : ListBox :=
  { list with
    items := list.items.set list.frontIndex (movedFrom (list.items.getD list.frontIndex .nil))
    frontIndex := list.frontIndex + 1
    frontIndex_le := by
      rw [listLogicalSize] at hsize
      rw [List.length_set]
      omega }

def queueDequeue : Option (gc.Value × ListBox) :=
  if hsize : listLogicalSize list = 0 then none
  else some (list.items.getD list.frontIndex .nil, normalizeListFront (takeFront list hsize))

def stackPush (v : gc.Value) : ListBox := pushBack (normalizeListFront list) v

/-- The list without the item at this place of what it holds, as `collSetRemove` leaves it. -/
def collSetErase (i : Nat) : ListBox :=
  if hi : i < listLogicalSize list then
    { list with
      items := list.items.eraseIdx (list.frontIndex + i)
      frontIndex_le := by
        rw [listLogicalSize] at hi
        rw [List.length_eraseIdx_of_lt (by omega)]
        omega }
  else list

end

section
variable {list : ListBox}

theorem length_logicalItems : (logicalItems list).length = listLogicalSize list := by
  have hle := list.frontIndex_le
  rw [logicalItems, List.length_drop, listLogicalSize, Nat.min_eq_left hle]

theorem logicalItems_compacted : logicalItems (compacted list) = logicalItems list := List.drop_zero

theorem logicalItems_normalizeListFront : logicalItems (normalizeListFront list) = logicalItems list := by
  rw [normalizeListFront]
  split
  · rfl
  · split
    · next hall => exact (List.drop_eq_nil_of_le hall).symm
    · split
      · exact logicalItems_compacted
      · rfl

theorem logicalItems_pushBack {v : gc.Value} :
    logicalItems (pushBack list v) = logicalItems list ++ [v] :=
  List.drop_append_of_le_length list.frontIndex_le

theorem logicalItems_collPush {v : gc.Value} :
    logicalItems (collPush list v) = logicalItems list ++ [v] := by
  rw [collPush, logicalItems_pushBack]
  split
  · rw [logicalItems_compacted]
  · rfl

theorem logicalItems_stackPush {v : gc.Value} :
    logicalItems (stackPush list v) = logicalItems list ++ [v] := by
  rw [stackPush, logicalItems_pushBack, logicalItems_normalizeListFront]

theorem logicalItems_collPop {v : gc.Value} {list' : ListBox} (h : collPop list = some (v, list')) :
    logicalItems list = logicalItems list' ++ [v] := by
  rw [collPop] at h
  split at h
  · nomatch h
  · next hsize =>
    cases h
    have hne : list.items ≠ [] := fun heq => hsize (by rw [listLogicalSize, heq]; exact Nat.zero_sub _)
    have hle : list.frontIndex ≤ list.items.dropLast.length := (popBack list hsize).frontIndex_le
    rw [logicalItems_normalizeListFront, List.getLastD_eq_getLast?, List.getLast?_eq_some_getLast hne]
    exact (congrArg (List.drop list.frontIndex) (List.dropLast_concat_getLast hne).symm).trans
      (List.drop_append_of_le_length hle)

theorem logicalItems_queueDequeue {v : gc.Value} {list' : ListBox}
    (h : queueDequeue list = some (v, list')) :
    logicalItems list = v :: logicalItems list' := by
  rw [queueDequeue] at h
  split at h
  · nomatch h
  · next hsize =>
    cases h
    have hlt : list.frontIndex < list.items.length := by
      rw [listLogicalSize] at hsize
      omega
    rw [logicalItems_normalizeListFront, logicalItems, List.drop_eq_getElem_cons hlt,
      List.getD_eq_getElem?_getD, List.getElem?_eq_getElem hlt]
    exact congrArg _ (List.drop_set_of_lt (Nat.lt_succ_self _)).symm

/-- The lists that the operations make of an empty one. `collSetAdd` adds as `queueEnqueue` does. -/
inductive Reached : ListBox → Prop
  | new : Reached {}
  | push {list : ListBox} (v : gc.Value) (h : Reached list) : Reached (collPush list v)
  | pop {list list' : ListBox} {v : gc.Value} (h : Reached list)
      (hpop : collPop list = some (v, list')) : Reached list'
  | set {list list' : ListBox} {index : Nat} {v : gc.Value} (h : Reached list)
      (hset : collSet list index v = some list') : Reached list'
  | enqueue {list : ListBox} (v : gc.Value) (h : Reached list) : Reached (queueEnqueue list v)
  | dequeue {list list' : ListBox} {v : gc.Value} (h : Reached list)
      (hdequeue : queueDequeue list = some (v, list')) : Reached list'
  | stackPush {list : ListBox} (v : gc.Value) (h : Reached list) : Reached (stackPush list v)
  | setRemove {list : ListBox} (i : Nat) (h : Reached list) : Reached (collSetErase list i)

theorem frontIndex_normalizeListFront (h : list.frontIndex = 0) :
    (normalizeListFront list).frontIndex = 0 := by
  rw [normalizeListFront, if_pos h]
  exact h

end

end zl.vm.native.collections
