import Zl.Collections.Basic
import Zl.Fixpoint.Worklist
import Zl.Ir.Function

open zl.collections zl.fixpoint

namespace zl.ir

/-- The instructions whose results are locals, each under an identifier of its own. -/
def Instruction.definesLocal (ins : Instruction) : Bool :=
  ins.opcode = .defineLocal ∨ ins.opcode = .borrowLocal ∨ ins.opcode = .moveLocal ∧ ins.result ≠ 0

/-- A map as the set of its entries, one for each key. -/
abbrev Entries (V : Type) := Finset (ValueId × V)

namespace Entries
variable {V : Type} [DecidableEq V] (m : Entries V)

def keys : Finset ValueId := m.image Prod.fst

def erase (k : ValueId) : Entries V := m.filter (·.1 ≠ k)

def assign (k : ValueId) (v : V) : Entries V := insert (k, v) (m.erase k)

/-- What looking a key up leaves behind: a missing one gets the default. -/
def index (k : ValueId) (default : V) : Entries V := if k ∈ m.keys then m else m.assign k default

end Entries

structure FlowState where
  live : Finset ValueId := ∅
  values : Finset ValueId := ∅
  moved : Finset ValueId := ∅
  borrowSources : Entries ValueId := ∅
  ownership : Entries OwnershipKind := ∅
  deriving DecidableEq

/-- Borrows of both inputs. One with two different owners has the owner 0. -/
def mergeBorrows (a b : Entries ValueId) : Entries ValueId :=
  a.image (fun e => if ∃ e' ∈ b, e'.1 = e.1 ∧ e'.2 ≠ e.2 then (e.1, 0) else e) ∪
    b.filter fun e => e.1 ∉ a.keys

def joinWith (out input : FlowState) : FlowState where
  live := out.live ∩ input.live
  values := out.values ∩ input.values
  moved := out.moved ∪ input.moved
  borrowSources := mergeBorrows out.borrowSources input.borrowSources
  ownership := out.ownership.filter fun e => e ∈ input.ownership ∧ e.1 ∈ out.live ∩ input.live

def joinStates : List FlowState → FlowState
  | [] => {}
  | first :: rest => rest.foldl joinWith first

/-- A check that fails with a message. -/
def require (c : Prop) [Decidable c] (message : String) : Except String Unit :=
  if c then .ok () else .error message

namespace FlowState
variable (s : FlowState)

def requireLive (v : ValueId) (op : String) : Except String Unit :=
  require (v ≠ 0 ∧ v ∈ s.live) (op ++ " references a local that is not live on this path")

def requireNotMoved (v : ValueId) (op : String) : Except String Unit :=
  require (v ∉ s.moved) (op ++ " uses a moved local")

/-- A local is there, with the ownership it was declared with. -/
def define (v : ValueId) (kind : OwnershipKind) : FlowState :=
  { s with live := insert v s.live, values := insert v s.values, ownership := s.ownership.assign v kind }

def remove (v : ValueId) : FlowState :=
  { s with live := s.live.erase v, values := s.values.erase v, ownership := s.ownership.erase v }

/-- The borrows that a dropped local leaves behind. -/
def afterDrop (v : ValueId) : Entries ValueId :=
  if (v, .borrow) ∈ s.ownership then s.borrowSources.erase v
  else s.borrowSources.filter fun e => e.2 ≠ v ∧ e.2 ≠ 0

def defineLocal (ins : Instruction) : Except String FlowState := do
  require (ins.result ≠ 0) "DefineLocal requires a destination"
  require (ins.result ∉ s.live ∧ ins.result ∉ s.ownership.keys)
    "local is defined more than once on the same path"
  return s.define ins.result ins.ownership

/-- The checks of the value that is assigned, if there is one. -/
def assignValue (ins : Instruction) : Except String FlowState := do
  require (ins.operand0 ∈ s.values ∨ ins.operand0 ∈ s.live)
    "AssignLocal references a value that is not available on this path"
  require (ins.operand0 ∈ s.live → ins.operand0 ∉ s.moved) "AssignLocal uses a moved local"
  if (ins.operand0, .borrow) ∈ s.ownership then
    let ownership := s.ownership.index ins.result .gc
    require ((ins.result, .borrow) ∈ ownership) "borrowed value assigned to non-borrow local"
    return { s with ownership }
  else return s

def assignLocal (ins : Instruction) : Except String FlowState := do
  s.requireLive ins.result "AssignLocal"
  s.requireNotMoved ins.result "AssignLocal"
  if ins.operand0 = 0 then return s else s.assignValue ins

def moveLocal (ins : Instruction) : Except String FlowState := do
  s.requireLive ins.operand0 "MoveLocal"
  s.requireNotMoved ins.operand0 "MoveLocal"
  require ((ins.operand0, .owned) ∈ s.ownership) "MoveLocal requires an owned source"
  require (∀ e ∈ s.borrowSources, e.2 ≠ ins.operand0 ∧ e.2 ≠ 0)
    "MoveLocal cannot move an actively borrowed owner"
  let s := { s with moved := insert ins.operand0 s.moved }
  return if ins.result = 0 then s else s.define ins.result .owned

def borrowLocal (ins : Instruction) : Except String FlowState := do
  s.requireLive ins.operand0 "BorrowLocal"
  s.requireNotMoved ins.operand0 "BorrowLocal"
  require (ins.result ≠ 0) "BorrowLocal requires a destination"
  require (ins.result ∉ s.live ∧ ins.result ∉ s.ownership.keys)
    "BorrowLocal destination is already live"
  return { s.define ins.result .borrow with
    borrowSources := s.borrowSources.assign ins.result ins.operand0 }

def endBorrow (ins : Instruction) : Except String FlowState := do
  s.requireLive ins.operand0 "EndBorrow"
  require ((ins.operand0, .borrow) ∈ s.ownership) "EndBorrow requires a borrow local"
  return { s.remove ins.operand0 with borrowSources := s.borrowSources.erase ins.operand0 }

def dropLocal (ins : Instruction) : Except String FlowState := do
  s.requireLive ins.operand0 "DropLocal"
  return { s.remove ins.operand0 with
    borrowSources := s.afterDrop ins.operand0
    moved := s.moved.erase ins.operand0 }

/-- `Const`, `Unary` and `Binary`. -/
def produce (ins : Instruction) : Except String FlowState := do
  require (ins.result ≠ 0) "value-producing instruction requires a result"
  return { s with values := insert ins.result s.values }

def call (ins : Instruction) : Except String FlowState := do
  require (ins.result ≠ 0) "Call requires a result"
  require (ins.symbol ≠ "") "Call requires a target symbol"
  require (∀ arg ∈ ins.operands, arg ≠ 0 ∧ arg ∈ s.values) "Call references an unavailable argument value"
  return { s with values := insert ins.result s.values }

def loadLocal (ins : Instruction) : Except String FlowState := do
  s.requireLive ins.operand0 "LoadLocal"
  s.requireNotMoved ins.operand0 "LoadLocal"
  require (ins.result ≠ 0) "LoadLocal requires a result"
  return { s with values := insert ins.result s.values }

def returnValue (ins : Instruction) : Except String FlowState :=
  if ins.operand0 = 0 then .ok s
  else if ins.operand0 ∈ s.live then do
    s.requireNotMoved ins.operand0 "Return"
    let ownership := s.ownership.index ins.operand0 .gc
    require ((ins.operand0, .borrow) ∉ ownership) "Return cannot return a borrowed local"
    return { s with ownership }
  else do
    require (ins.operand0 ∈ s.values) "Return references a value that is not live on this path"
    return s

def step (ins : Instruction) : Except String FlowState :=
  match ins.opcode with
  | .defineLocal => s.defineLocal ins
  | .assignLocal => s.assignLocal ins
  | .moveLocal => s.moveLocal ins
  | .borrowLocal => s.borrowLocal ins
  | .endBorrow => s.endBorrow ins
  | .dropLocal => s.dropLocal ins
  | .const | .unary | .binary => s.produce ins
  | .call => s.call ins
  | .loadLocal => s.loadLocal ins
  | .return => s.returnValue ins
  | .nop | .storeLocal | .jump | .branch | .throw => .ok s

end FlowState

/-- The instructions of a block in order. -/
def transfer : List Instruction → FlowState → Except String FlowState
  | [], s => .ok s
  | ins :: rest, s => s.step ins >>= transfer rest

namespace Function
variable (f : Function)

def code : List Instruction := f.blocks.flatMap (·.instructions)

def index (id : BlockId) : Option Nat := f.blocks.findIdx? (·.id = id)

def successors (b : Nat) : List Nat :=
  match f.blocks[b]? with
  | none => []
  | some block => block.successors.filterMap f.index

def preds (b : Nat) : List Nat :=
  (List.range f.blocks.length).flatMap fun p => (f.successors p).filterMap fun s =>
    if s = b then some p else none

/-- The input of a block. Nothing flows into the first block but its parameters, which it
    defines itself. -/
def input (out : Nat → Option FlowState) (b : Nat) : Option FlowState :=
  if b = 0 then some {}
  else
    match (f.preds b).filterMap out with
    | [] => none
    | incoming => some (joinStates incoming)

def transferBlock (b : Nat) (s : FlowState) : Except String FlowState :=
  match f.blocks[b]? with
  | none => .ok s
  | some block => transfer block.instructions s

/-- What is checked before the flow. -/
def checkShape : Except String Unit := do
  require (f.blocks ≠ []) ("IR function '" ++ f.name ++ "' has no basic blocks")
  require (f.blocks.map (·.id)).Nodup "duplicate IR block id"
  require (∀ block ∈ f.blocks, ∀ id ∈ block.successors, f.index id ≠ none) "invalid IR block successor"
  require ((f.code.filter (·.definesLocal)).map (·.result)).Nodup "duplicate IR value definition"

/-- At most `fuel` blocks are taken from the queue. -/
def verify (fuel : Nat) : Option (Except String Unit) :=
  match f.checkShape with
  | .error message => some (.error message)
  | .ok () =>
    (worklist f.input f.transferBlock f.successors fuel (fun _ => none) [0]).map fun r =>
      r.map fun _ => ()

end Function

def verifyFunctions (fuel : Nat) : List Function → Option (Except String Unit)
  | [] => some (.ok ())
  | f :: rest =>
    match f.verify fuel with
    | some (.ok ()) => verifyFunctions fuel rest
    | other => other

def verify (fuel : Nat) (m : Module) : Option (Except String Unit) := verifyFunctions fuel m.functions

end zl.ir
