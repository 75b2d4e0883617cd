import Mathlib

namespace zl.vm.native

inductive ZlNativeTypeTag where
  | I64 | F64 | BOOL | HANDLE | BUFFER_VIEW | STRUCT_VIEW | CALLBACK
  | other (code : Nat)
  deriving DecidableEq, Repr

inductive ZlNativeOwnershipTag where
  | NONE | BORROWED | OWNED | CONSUMED
  | other (code : Nat)
  deriving DecidableEq, Repr

/-- The words of the union: the first one is the scalar, the handle, the callback or the
    address, the others belong to the views. -/
structure ZlNativeData where
  word : BitVec 64 := 0
  size : BitVec 64 := 0
  alignment : BitVec 64 := 0
  deriving DecidableEq, Repr

structure ZlNativeValue where
  tag : ZlNativeTypeTag := .other 0
  data : ZlNativeData := {}
  deriving DecidableEq, Repr

/-- A value as the boundary sees it. A view carries whether its owner is alive, a value of
    any other kind never crosses. -/
inductive Value (V : Type) where
  | int (held : Int)
  | double (bits : BitVec 64)
  | bool (held : Bool)
  | handle (id : Nat)
  | bufferView (data size : Nat) (alive : Bool)
  | structView (data size alignment : Nat) (alive : Bool)
  | callback (id : Nat)
  | other (held : V)

/-- The owners of the native resources by handle. What was consumed, newest first, is
    recorded only. -/
structure NativeResourceRegistry (Owner : Type) where
  owners : Nat → Option Owner := fun _ => none
  nextId : Nat := 1
  consumed : List Nat := []

namespace NativeResourceRegistry
variable {Owner : Type} (r : NativeResourceRegistry Owner)

/-- Handles are numbered by 64 bits and never 0; `emplace` leaves an entry that exists. -/
def insert (owner : Owner) : NativeResourceRegistry Owner :=
  let id := if r.nextId = 0 then 1 else r.nextId
  { r with
    owners := if (r.owners id).isSome then r.owners else Function.update r.owners id (some owner),
    nextId := (id + 1) % 2 ^ 64 }

def contains (id : Nat) : Bool := id != 0 && (r.owners id).isSome

def consume (id : Nat) : Except String (NativeResourceRegistry Owner) :=
  match r.owners id with
  | none => .error "invalid native handle"
  | some _ => .ok { r with owners := Function.update r.owners id none, consumed := id :: r.consumed }

end NativeResourceRegistry

/-- What a native function does in one call: the resources it registers, its status, the
    result it stores and the text it leaves in the error buffer. -/
structure NativeReply (Owner : Type) where
  adopted : List Owner := []
  status : Int := 0
  result : ZlNativeValue := {}
  errorMessage : String := ""

/-- An export descriptor. The tables hold an entry for each of the `arity` parameters. -/
structure ZlNativeExport (Owner : Type) where
  name : Option String := none
  arity : Nat := 0
  parameterTypes : Option (Nat → ZlNativeTypeTag) := none
  returnType : ZlNativeTypeTag := .other 0
  invoke : Option (List ZlNativeValue → NativeReply Owner) := none
  parameterOwnership : Option (Nat → ZlNativeOwnershipTag) := none
  returnOwnership : ZlNativeOwnershipTag := .NONE

/-- A boundary error is a `NativeError` object, any other error has only its text. -/
inductive Error where
  | nativeError (message stackTrace : String)
  | runtimeError (message : String)
  deriving DecidableEq, Repr

/-- What the boundary looks at besides the registry: the names on the call stack, when a
    state is given, and which callbacks are registered. -/
structure CallSite where
  callStackNames : Option (List String) := none
  callbacks : Nat → Bool := fun _ => false

section
variable {V Owner : Type}

def stackTrace (site : CallSite) : String :=
  let trace := "\n".intercalate ((site.callStackNames.getD []).map ("at " ++ ·))
  if trace = "" then "at <native>" else trace

def throwBoundaryError {A : Type} (site : CallSite) (message : String) : Except Error A :=
  .error (.nativeError message (stackTrace site))

namespace ZlNativeExport
variable (e : ZlNativeExport Owner)

def nameOr : String := e.name.getD "<unnamed>"

def ownershipAt (i : Nat) : ZlNativeOwnershipTag := (e.parameterOwnership.getD fun _ => .NONE) i

end ZlNativeExport

def Value.matchesTag (site : CallSite) : Value V → ZlNativeTypeTag → Bool
  | .int _, .I64 => true
  | .double _, .F64 => true
  | .bool _, .BOOL => true
  | .handle id, .HANDLE => id != 0
  | .bufferView data size alive, .BUFFER_VIEW => (data != 0 || size == 0) && alive
  | .structView data size _ alive, .STRUCT_VIEW => (data != 0 || size == 0) && alive
  | .callback id, .CALLBACK => id != 0 && site.callbacks id
  | _, _ => false

def Value.pack (tag : ZlNativeTypeTag) : Value V → ZlNativeValue
  | .int held => { tag, data := { word := BitVec.ofInt 64 held } }
  | .double bits => { tag, data := { word := bits } }
  | .bool held => { tag, data := { word := if held then 1 else 0 } }
  | .handle id => { tag, data := { word := BitVec.ofNat 64 id } }
  | .bufferView data size _ => { tag, data := { word := BitVec.ofNat 64 data, size := BitVec.ofNat 64 size } }
  | .structView data size alignment _ =>
    { tag,
      data :=
        { word := BitVec.ofNat 64 data, size := BitVec.ofNat 64 size,
          alignment := BitVec.ofNat 64 alignment } }
  | .callback id => { tag, data := { word := BitVec.ofNat 64 id } }
  | .other _ => { tag }

def unpackNativeHandle (value : ZlNativeValue) : Except String (Value V) :=
  if value.tag ≠ .HANDLE ∨ value.data.word = 0 then .error "invalid native handle transport value"
  else .ok (.handle value.data.word.toNat)

def unpackNativeCallback (value : ZlNativeValue) : Except String (Value V) :=
  if value.tag ≠ .CALLBACK ∨ value.data.word = 0 then .error "invalid native callback transport value"
  else .ok (.callback value.data.word.toNat)

def unpack (value : ZlNativeValue) (expected : ZlNativeTypeTag) : Except String (Value V) :=
  if value.tag ≠ expected then .error "native export returned an unexpected primitive type"
  else
    match expected with
    | .I64 => .ok (.int value.data.word.toInt)
    | .F64 => .ok (.double value.data.word)
    | .BOOL => .ok (.bool (value.data.word.setWidth 8 != 0))
    | .HANDLE => unpackNativeHandle value
    | .BUFFER_VIEW =>
      .error "native buffer views may only be borrowed into a call; they cannot be returned yet"
    | .STRUCT_VIEW =>
      .error "native struct views may only be borrowed into a call; they cannot be returned yet"
    | .CALLBACK => unpackNativeCallback value
    | .other _ => .error "native export returned an unsupported primitive type"

variable (e : ZlNativeExport Owner) (site : CallSite)

def checkMetadata (args : List (Value V)) : Except Error Unit :=
  if e.invoke.isNone then
    throwBoundaryError site ("native export '" ++ e.nameOr ++ "' has no invoke entry point")
  else if args.length ≠ e.arity then
    throwBoundaryError site ("native export '" ++ e.nameOr ++ "' expected " ++ toString e.arity ++
      " arguments")
  else if 0 < e.arity ∧ e.parameterTypes.isNone then
    throwBoundaryError site ("native export '" ++ e.nameOr ++ "' has no parameter type metadata")
  else .ok ()

/-- The ownership a parameter declares must be one its type can have. -/
def checkOwnership (tag : ZlNativeTypeTag) (ownership : ZlNativeOwnershipTag) : Except Error Unit :=
  if ownership = .NONE then .ok ()
  else if tag ≠ .HANDLE ∧ tag ≠ .BUFFER_VIEW ∧ tag ≠ .STRUCT_VIEW then
    throwBoundaryError site
      ("native export '" ++ e.nameOr ++ " declares ownership metadata for a non-resource value")
  else if (tag = .BUFFER_VIEW ∨ tag = .STRUCT_VIEW) ∧ ownership ≠ .BORROWED then
    throwBoundaryError site "native buffer views may only use BORROWED ownership"
  else .ok ()

def checkOwnerships : Except Error Unit :=
  match e.parameterTypes, e.parameterOwnership with
  | some types, some ownership =>
    (List.range e.arity).forM fun i => checkOwnership e site (types i) (ownership i)
  | _, _ => .ok ()

/-- Whether a handle of this type and ownership changes hands. -/
def transfers (tag : ZlNativeTypeTag) (ownership : ZlNativeOwnershipTag) : Bool :=
  (ownership == .OWNED || ownership == .CONSUMED) && tag == .HANDLE

def Value.isRegistered (r : NativeResourceRegistry Owner) : Value V → Bool
  | .handle id => r.contains id
  | _ => false

/-- One round of the loop over the arguments: the caller must own what it gives away. -/
def packArgument (r : NativeResourceRegistry Owner) (arg : Value V) (i : Nat) :
    Except Error ZlNativeValue :=
  match e.parameterTypes with
  | none =>
    throwBoundaryError site
      ("native export '" ++ e.nameOr ++ " received an argument with the wrong primitive type")
  | some types =>
    if arg.matchesTag site (types i) = false then
      throwBoundaryError site
        ("native export '" ++ e.nameOr ++ " received an argument with the wrong primitive type")
    else if transfers (types i) (e.ownershipAt i) ∧ arg.isRegistered r = false then
      throwBoundaryError site ("native export '" ++ e.nameOr ++
        "' received an invalid owned native handle")
    else .ok (arg.pack (types i))

def checkReturnOwnership : Except Error Unit :=
  if e.returnOwnership ≠ .NONE ∧ (e.returnType ≠ .HANDLE ∨ e.returnOwnership ≠ .OWNED) then
    throwBoundaryError site ("native export '" ++ e.nameOr ++
      " has unsupported return ownership metadata")
  else .ok ()

/-- All that happens before the native function runs, and what it is given. -/
def packArguments (r : NativeResourceRegistry Owner) (args : List (Value V)) :
    Except Error (List ZlNativeValue) := do
  checkMetadata e site args
  checkOwnerships e site
  let packed ← args.zipIdx.mapM fun a => packArgument e site r a.1 a.2
  checkReturnOwnership e site
  return packed

/-- The handle that the argument of a parameter gives away. -/
def transferredHandle (args : List (Value V)) (i : Nat) : Option Nat :=
  match e.parameterTypes, args[i]? with
  | some types, some (.handle id) => if transfers (types i) (e.ownershipAt i) then some id else none
  | _, _ => none

/-- The loop that consumes what was given away. It leaves the registry as it is when the
    registry no longer knows a handle. -/
def consumeArguments (args : List (Value V)) :
    List Nat → NativeResourceRegistry Owner → Except Error Unit × NativeResourceRegistry Owner
  | [], r => (.ok (), r)
  | i :: rest, r =>
    match transferredHandle e args i with
    | none => consumeArguments args rest r
    | some id =>
      match r.consume id with
      | .error message => (.error (.runtimeError message), r)
      | .ok r' => consumeArguments args rest r'

/-- The result, checked against the registry as the call and the transfers left it. -/
def unpackResult (r : NativeResourceRegistry Owner) (result : ZlNativeValue) : Except Error (Value V) :=
  if (e.returnType = .HANDLE ∧ e.returnOwnership = .OWNED) ∧
      (result.tag ≠ .HANDLE ∨ result.data.word = 0 ∨ r.contains result.data.word.toNat = false) then
    throwBoundaryError site "native export returned an unregistered owned native handle"
  else
    match unpack result e.returnType with
    | .ok value => .ok value
    | .error message => throwBoundaryError site message

/-- What follows the call of the native function. -/
def finishCall (args : List (Value V)) (reply : NativeReply Owner) (r : NativeResourceRegistry Owner) :
    Except Error (Value V) × NativeResourceRegistry Owner :=
  if reply.status ≠ 0 then
    (throwBoundaryError site (if reply.errorMessage ≠
      "" then reply.errorMessage else "native export failed"), r)
  else
    match consumeArguments e args (List.range e.arity) r with
    | (.error error, r') => (.error error, r')
    | (.ok _, r') => (unpackResult e site r' reply.result, r')

def invokeNativeExport (args : List (Value V)) (r : NativeResourceRegistry Owner) :
    Except Error (Value V) × NativeResourceRegistry Owner :=
  match packArguments e site r args, e.invoke with
  | .ok packed, some invoke =>
    let reply := invoke packed
    finishCall e site args reply (reply.adopted.foldl (·.insert ·) r)
  | .ok _, none => (throwBoundaryError site
      ("native export '" ++ e.nameOr ++ "' has no invoke entry point"), r)
  | .error error, _ => (.error error, r)

end

end zl.vm.native
