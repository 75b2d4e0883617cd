import Zl.Vm.RuntimeType
import Zl.Vm.Task.TaskState
import Zl.Vm.Statics.OnceProtocol
import Zl.Graph.Marking

open zl.graph zl.vm.task zl.vm.statics

namespace zl.vm.gc

abbrev Address := Nat

/-- The kinds of boxes the collector owns. -/
inductive Kind where
  | list | map | object | closure
  deriving DecidableEq, Repr

/-- A box. No two boxes have one address, and handles are typed. -/
structure BoxId where
  kind : Kind
  address : Address
  deriving DecidableEq, Repr

/-- A value. A double is its bit pattern, a string its bytes. The handles of the four kinds of boxes
    are one constructor, the resources of native code another. A handle may be null. -/
inductive Value where
  | nil
  | int (held : Int64)
  | double (bits : Nat)
  | string (held : List UInt8)
  | bool (held : Bool)
  | box (kind : Kind) (handle : Option Address)
  | task (handle : Option Address)
  | thread (handle : Option Address)
  | native (resource : Address)
  deriving DecidableEq

instance : Inhabited Value := ⟨.nil⟩

/-- A list. What is before `frontIndex` was taken from a queue. -/
structure ListBox where
  storageType : Option Address := none
  items : List Value := []
  frontIndex : Nat := 0
  frontIndex_le : frontIndex ≤ items.length := by simp

structure MapBox where
  storageType : Option Address := none
  entries : List (Value × Value) := []
  stringKeyIndex : List (List UInt8 × Nat) := []
  stringKeyIndexValid : Bool := false

structure PendingSend where
  value : Value
  task : Option Address

structure ChannelState where
  items : List Value := []
  pendingSends : List PendingSend := []
  pendingReceives : List (Option Address) := []
  capacity : Nat := 1

/-- An object. No slot is beyond the layout of its class, and no field that has a slot is an extra one. -/
structure ObjectBox extends ObjectFields Value where
  genericTypeName : String := ""
  mutexState : Option Address := none
  rwLockState : Option Address := none
  atomicState : Option Address := none
  atomicBoolState : Option Address := none
  atomicDoubleState : Option Address := none
  atomicRefMutex : Option Address := none
  sharedValueMutex : Option Address := none
  atomicRefState : Option Value := none
  semaphoreState : Option Address := none
  conditionState : Option Address := none
  channelState : Option ChannelState := none
  className : String := ""
  fields_le : fields.length ≤ (runtimeType.map RuntimeTypeInfo.instanceFieldCount).getD 0 := by simp
  extra_undeclared : ∀ name ∈ extraFields, toObjectFields.objectFieldSlot name = none := by simp

structure ClosureBox where
  functionName : String := ""
  paramNames : List String := []
  parameterTypeNames : List String := []
  returnTypeName : String := ""
  isAsync : Bool := false
  isNative : Bool := false
  entryAddress : Nat := 0
  functionIndex : Nat := 0
  chunk : Option Address := none
  captured : List (String × Value) := []
  typeBindings : List (String × String) := []

abbrev Box : Kind → Type
  | .list => ListBox
  | .map => MapBox
  | .object => ObjectBox
  | .closure => ClosureBox

/-- A box as the allocator makes it. -/
def Box.fresh : (kind : Kind) → Box kind
  | .list => ({} : ListBox)
  | .map => ({} : MapBox)
  | .object => ({} : ObjectBox)
  | .closure => ({} : ClosureBox)

/-- The failure of a task or of a static field keeps the exception object. -/
structure StoredException where
  managed : Option Address := none

abbrev Task := RuntimeTaskState Address Value StoredException

abbrev StaticField := StaticFieldState Address Value StoredException

/-- The program of a closure. What it holds beside these refers to no value. -/
structure Chunk where
  constants : List Value := []
  staticStorage : Option Address := none

/-- What the handles lead to: the boxes, and tasks, programs and static storages. -/
structure Heap where
  boxes : AList (fun id : BoxId => Box id.kind) := ∅
  tasks : AList (fun _ : Address => Task) := ∅
  programs : AList (fun _ : Address => Chunk) := ∅
  statics : AList (fun _ : Address => List (String × Option StaticField)) := ∅

section
variable (box : ObjectBox)

/-- What `objectFieldForEach` visits, with the names. -/
def namedFields : List (String × Value) :=
  ((box.runtimeType.map RuntimeTypeInfo.instanceFieldNames).getD []).zip box.fields ++
    box.extraFields.entries.map fun field => (field.1, field.2)

/-- The values that the object holds, those of its declared fields first. -/
def objectFieldForEach : List Value :=
  let count := match box.runtimeType with
    | some type => min box.fields.length type.instanceFieldCount
    | none => 0
  box.fields.take count ++ box.extraFields.entries.map Sigma.snd

theorem objectFieldForEach_eq :
    objectFieldForEach box = box.fields ++ box.extraFields.entries.map Sigma.snd := by
  have hle := box.fields_le
  rw [objectFieldForEach]
  cases htype : box.runtimeType with
  | none =>
    rw [htype] at hle
    rw [List.eq_nil_of_length_eq_zero (Nat.le_zero.mp hle), List.take_nil]
  | some type =>
    rw [htype] at hle
    exact congrArg (· ++ _) (List.take_of_length_le (Nat.le_min.mpr ⟨Nat.le_refl _, hle⟩))

end

/-- How deep a traversal of values may go. -/
def kMaxValueNestingDepth : Nat := 500

section
variable (heap : Heap)

/-- What a handle leads to. -/
def boxAt (id : BoxId) : Box id.kind := (heap.boxes.lookup id).getD (Box.fresh id.kind)

def listAt (a : Address) : ListBox := boxAt heap ⟨.list, a⟩

def mapAt (a : Address) : MapBox := boxAt heap ⟨.map, a⟩

def objectAt (a : Address) : ObjectBox := boxAt heap ⟨.object, a⟩

end

def StoredException.appendGCRoots (failure : StoredException) : List Value :=
  match failure.managed with
  | some a => [.box .object (some a)]
  | none => []

def taskGCRoots (task : Task) : List Value :=
  task.result.toList ++ task.operationRoots ++ (task.error.map StoredException.appendGCRoots).getD []

def channelChildren (channel : ChannelState) : List Value :=
  channel.items ++
    channel.pendingSends.flatMap (fun pending =>
    pending.value :: (pending.task.map fun t => Value.task (some t)).toList) ++
    channel.pendingReceives.flatMap fun task => (task.map fun t => Value.task (some t)).toList

/-- The values and the programs that a box holds, as the collector goes through them. -/
def boxChildren : (kind : Kind) → Box kind → List Value × List Address
  | .list, box => (ListBox.items box, [])
  | .map, box => ((MapBox.entries box).flatMap fun entry => [entry.1, entry.2], [])
  | .object, box =>
    (objectFieldForEach box ++ (ObjectBox.atomicRefState box).toList ++
      ((ObjectBox.channelState box).map channelChildren).getD [], [])
  | .closure, box => ((ClosureBox.captured box).map Prod.snd, (ClosureBox.chunk box).toList)

def appendValueChildren (heap : Heap) : Value → List Value × List Address
  | .box kind (some a) => ((heap.boxes.lookup ⟨kind, a⟩).map (boxChildren kind)).getD ([], [])
  | .task (some a) => (((heap.tasks.lookup a).map taskGCRoots).getD [], [])
  | _ => ([], [])

def resetListBox (box : ListBox) : ListBox :=
  { box with storageType := none, items := [], frontIndex := 0, frontIndex_le := Nat.zero_le _ }

def resetMapBox (box : MapBox) : MapBox :=
  { box with storageType := none, entries := [], stringKeyIndexValid := false, stringKeyIndex := [] }

def resetObjectBox (_ : ObjectBox) : ObjectBox where
  genericTypeName := ""
  mutexState := none
  rwLockState := none
  atomicState := none
  atomicBoolState := none
  atomicDoubleState := none
  atomicRefMutex := none
  sharedValueMutex := none
  atomicRefState := none
  semaphoreState := none
  conditionState := none
  channelState := none
  className := ""
  runtimeType := none
  fields := []
  extraFields := ∅

def resetClosureBox (box : ClosureBox) : ClosureBox :=
  { box with
    functionName := "", paramNames := [], parameterTypeNames := [], returnTypeName := "", isAsync := false
    isNative := false, entryAddress := 0, functionIndex := 0, chunk := none, captured := []
    typeBindings := [] }

def resetBox : (kind : Kind) → Box kind → Box kind
  | .list, box => resetListBox box
  | .map, box => resetMapBox box
  | .object, box => resetObjectBox box
  | .closure, box => resetClosureBox box

/-- A reset box cannot be told from one that the allocator has just made. -/
theorem resetBox_eq_fresh (kind : Kind) (box : Box kind) : resetBox kind box = Box.fresh kind := by
  cases kind <;> rfl

end zl.vm.gc
