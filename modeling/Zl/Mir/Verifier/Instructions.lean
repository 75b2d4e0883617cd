import Zl.Mir.Verifier.Operands

open zl.mir.ControlFlowGraph

namespace zl.mir.Verifier

section
variable (rules : TypeRules) (m : Module) (f : Function)

/-- The members a test outcome leaves: the only one kept, or the declared type when more than one
    is. -/
def keptMember (declaredId testedId : TypeId) (isYes : Bool) : List TypeId → TypeId → TypeId
  | [], kept => kept
  | member :: members, kept =>
    if rules.assignable member testedId == isYes then
      if kept ≠ kNoType then declaredId else keptMember declaredId testedId isYes members member
    else keptMember declaredId testedId isYes members kept

def refineUnionToTestedMember (declaredId testedId : TypeId) (isYes : Bool) : TypeId :=
  match rules.find declaredId, rules.find testedId with
  | some declared, some _ =>
    if declared.kind ≠ .Union then declaredId
    else keptMember rules declaredId testedId isYes declared.arguments kNoType
  | _, _ => declaredId

/-- Follow a chain of single predecessors back to the branch on a type test of the operand. -/
def refinedTypeFrom (operand : Operand) : Nat → BlockId → TypeId
  | 0, _ => operand.type
  | steps + 1, current =>
    match predecessors f current with
    | [pred] =>
      match blockAt f pred with
      | none => operand.type
      | some predBlock =>
        let term := predBlock.terminator
        match term.kind with
        | .Jump => refinedTypeFrom operand steps pred
        | .Branch =>
          if term.target = term.elseBlock then operand.type
          else if term.target ≠ current ∧ term.elseBlock ≠ current then operand.type
          else if term.value.kind ≠ .Temp then operand.type
          else
            match definition f term.value.index with
            | none => operand.type
            | some place =>
              if place.block.id ≠ pred then operand.type
              else
                match predBlock.instructions[place.index]? with
                | none => operand.type
                | some test =>
                  match test.opcode, test.operands with
                  | .TypeTest, subject :: _ =>
                    if subject.kind ≠ operand.kind ∨ subject.index ≠ operand.index then operand.type
                    else
                      refineUnionToTestedMember rules operand.type test.testedType
                        (term.target == current)
                  | _, _ => operand.type
        | _ => operand.type
    | _ => operand.type

/-- The type of an operand in a block, narrowed by the match arm the block is in. -/
def refinedTypeAt (block : BlockId) (operand : Operand) : TypeId :=
  match operand.kind with
  | .Temp | .Param | .BlockParam =>
    match rules.find operand.type with
    | some declared =>
      if declared.kind = .Union then refinedTypeFrom rules f operand 128 block else operand.type
    | none => operand.type
  | .None | .Const | .Static => operand.type

/-- The rules for an instruction that addresses a slot. -/
def checkSlotRules (b : BasicBlock) (instruction : Instruction) (index : Nat) (slot : Slot) :
    List Diagnostic :=
  let name := opcodeName instruction.opcode
  let slotName := "slot " ++ toString instruction.slot ++ " ('" ++ slot.name ++ "')"
  let storage := ownershipName slot.ownership
  let error := fun (bad : Bool) message => errorIf bad message b.id (some index)
  let produces := error (instruction.resultType != slot.type)
    (name ++ " from " ++ slotName ++ " of type " ++ rules.render slot.type ++ " produces " ++
      rules.render instruction.resultType)
  match instruction.opcode with
  | .Drop =>
    error (slot.ownership != .OWNED)
      ("drop of " ++ slotName ++ " whose storage is '" ++ storage ++
        "'; only owned storage has a lifetime to end")
  | .Load => produces
  | .Store =>
    error (!slot.isMutable) ("store to immutable " ++ slotName) ++
      match instruction.operands with
      | [] => []
      | value :: _ =>
        if value.isNone then []
        else
          let valueType := refinedTypeAt rules f b.id value
          error (!rules.assignable valueType slot.type)
            ("store of " ++ rules.render valueType ++ " into " ++ slotName ++ " of type " ++
              rules.render slot.type) ++
          requireRefined rules value slot.type ("store into " ++ slotName) b.id (some index)
  | .Move =>
    error (slot.ownership != .OWNED)
      ("move from " ++ slotName ++ " whose storage is '" ++ storage ++
        "'; only an owned slot can be moved") ++ produces
  | .Borrow =>
    error (slot.ownership != .BORROW)
      ("borrow into " ++ slotName ++ " whose storage is '" ++ storage ++
        "'; the destination must be a borrow slot") ++
      match instruction.operands with
      | [] => []
      | owner :: _ =>
        if owner.isNone then []
        else
          error ((rules.find owner.type).any fun type => !isReferenceKind type.kind)
            ("borrow of " ++ rules.render owner.type ++ ", which is not a reference type")
  | .EndBorrow =>
    error (slot.ownership != .BORROW)
      ("end_borrow of " ++ slotName ++ " whose storage is '" ++ storage ++ "'")
  | _ => []

/-- Whether an instruction has as many operands as its opcode takes. -/
def operandCountOk (instruction : Instruction) : Bool :=
  let shape := opcodeShape instruction.opcode
  if shape.variadicOperands then decide (shape.operandCount ≤ instruction.operands.length)
  else instruction.operands.length == shape.operandCount

/-- The type of a result is recorded before the operands of its own instruction are looked at. A
    placeholder and an instruction with a wrong operand count record nothing. -/
def recordResult (tempTypes : TempId → Option TypeId) (instruction : Instruction) :
    TempId → Option TypeId :=
  if instruction.opcode ≠ .Nop ∧ operandCountOk instruction = true ∧ instruction.result ≠ kNoTemp then
    Function.update tempTypes instruction.result (some instruction.resultType)
  else tempTypes

/-- Presence and type of the result against the shape of the opcode. -/
def checkResult (b : BasicBlock) (instruction : Instruction) (index : Nat) : List Diagnostic :=
  let shape := opcodeShape instruction.opcode
  let name := opcodeName instruction.opcode
  let present := instruction.result != kNoTemp
  errorIf (present && !shape.producesResult)
    (name ++ " does not produce a value but defines temp %" ++ toString instruction.result)
    b.id (some index) ++
  errorIf (!present && shape.producesResult && !shape.optionalResult)
    (name ++ " produces a value but defines no temp") b.id (some index) ++
  if present then validType rules instruction.resultType (name ++ " result") b.id (some index)
  else
    errorIf (instruction.resultType != kNoType)
      (name ++ " defines no temp but records result type " ++
        rules.render instruction.resultType) b.id (some index)

/-- What an instruction addresses: a slot for the opcodes that take one, a slot or a value for a
    drop, and values for the others. -/
def checkAddressed (b : BasicBlock) (instruction : Instruction) (index : Nat) : List Diagnostic :=
  let name := opcodeName instruction.opcode
  let error := fun message => errorIf true message b.id (some index)
  let slotRules :=
    match f.slot instruction.slot with
    | none => error (name ++ " refers to unknown slot " ++ toString instruction.slot)
    | some slot => checkSlotRules rules f b instruction index slot
  if instruction.opcode = .Drop then
    if instruction.slot ≠ kNoSlot ∧ instruction.operands ≠ [] then
      error "drop names both a slot and a value; the two spellings are exclusive"
    else if instruction.slot ≠ kNoSlot then slotRules
    else if instruction.operands = [] then
      error "drop names no storage: it needs a slot or a value operand"
    else rules.valueRules f b instruction index
  else if opcodeUsesSlot instruction.opcode then slotRules
  else
    errorIf (instruction.slot != kNoSlot)
      (name ++ " does not take a slot but names slot " ++ toString instruction.slot)
      b.id (some index) ++
    rules.valueRules f b instruction index

def checkInstruction (tempTypes : TempId → Option TypeId) (b : BasicBlock)
    (instruction : Instruction) (index : Nat) : List Diagnostic :=
  let shape := opcodeShape instruction.opcode
  let name := opcodeName instruction.opcode
  let given := toString instruction.operands.length
  if instruction.opcode = .Nop then
    errorIf (instruction.result != kNoTemp) (name ++ " must not define a result") b.id (some index)
  else if operandCountOk instruction = false then
    errorIf true
      (name ++ (if shape.variadicOperands then " requires at least " else " requires ") ++
        toString shape.operandCount ++ " operand(s) but has " ++ given) b.id (some index)
  else
    checkResult rules b instruction index ++
      instruction.operands.zipIdx.flatMap (fun operand =>
        checkOperand rules m f tempTypes operand.1 (name ++ " operand " ++ toString operand.2) b.id
          (some index)) ++
      checkAddressed rules f b instruction index

/-- The instructions in listing order, each checked against the types recorded so far. -/
def checkFrom (tempTypes : TempId → Option TypeId) : List Position → List Diagnostic
  | [] => []
  | place :: places =>
    let recorded := recordResult tempTypes place.instruction
    checkInstruction rules m f recorded place.block place.instruction place.index ++
      checkFrom recorded places

def checkInstructions : List Diagnostic := checkFrom rules m f (fun _ => none) (positions f)

/-- A temp may be used where its definition comes first in the block, or dominates the block. -/
def checkUseDominatesDef (operand : Operand) (what : String) (block : BlockId)
    (index : Option Nat) : List Diagnostic :=
  if operand.kind ≠ .Temp then []
  else
    match definition f operand.index with
    | none => []
    | some place =>
      if place.block.id = block then
        errorIf (index.any fun i => decide (place.index ≥ i))
          (what ++ " uses temp %" ++ toString operand.index ++ " before it is defined") block index
      else
        errorIf (!dominates f place.block.id block)
          (what ++ " uses temp %" ++ toString operand.index ++ " defined in block b" ++
            toString place.block.id ++ ", which does not dominate block b" ++ toString block)
          block index

/-- The uses of one block: its instructions, its terminator, and its edge arguments. -/
def checkBlockDominance (b : BasicBlock) : List Diagnostic :=
  let t := b.terminator
  b.instructions.zipIdx.flatMap (fun instruction =>
    instruction.1.operands.zipIdx.flatMap fun operand =>
      checkUseDominatesDef f operand.1
        (opcodeName instruction.1.opcode ++ " operand " ++ toString operand.2) b.id
        (some instruction.2)) ++
    (if t.value.isNone then []
      else checkUseDominatesDef f t.value (terminatorKindName t.kind ++ " value") b.id none) ++
    t.edgeArguments.zipIdx.flatMap fun edge =>
      edge.1.zipIdx.flatMap fun argument =>
        checkUseDominatesDef f argument.1
          ("block-parameter argument " ++ toString argument.2 ++ " of successor " ++ toString edge.2)
          b.id none

def checkDominance : List Diagnostic := f.blocks.flatMap (checkBlockDominance f)

end

variable (rules : TypeRules) (f : Function)

/-- The rules for the parameter at a position of the signature. -/
def checkParameter (parameter : Parameter) (i : Nat) : List Diagnostic :=
  let what := "parameter " ++ toString i ++ " ('" ++ parameter.name ++ "')"
  errorIf (parameter.name == "") (what ++ " has no name") kNoBlock none ++
    errorIf ((f.parameters.take i).any (·.name == parameter.name))
      (what ++ " duplicates an earlier parameter name") kNoBlock none ++
    match rules.find parameter.type with
    | none => validType rules parameter.type what kNoBlock none
    | some type =>
      validType rules parameter.type what kNoBlock none ++
      errorIf (type.kind == .Void) (what ++ " cannot have type void") kNoBlock none ++
      errorIf (type.kind == .Nil) (what ++ " cannot have type nil") kNoBlock none ++
      errorIf (parameter.ownership == .BORROW && isTaskType type)
        (what ++ " borrows a Task; borrow is not supported for task handles") kNoBlock none ++
      checkTypeParamScope rules f ("parameter " ++ toString i) kNoBlock none (parameter.type + 1)
        parameter.type

/-- The rules for the slot at a position of the slot table. -/
def checkSlot (slot : Slot) (i : Nat) : List Diagnostic :=
  let what := "slot " ++ toString (i + 1) ++ " ('" ++ slot.name ++ "')"
  match rules.find slot.type with
  | none => validType rules slot.type what kNoBlock none
  | some type =>
    validType rules slot.type what kNoBlock none ++
    errorIf (type.kind == .Void) (what ++ " cannot have type void") kNoBlock none ++
    errorIf (slot.ownership == .BORROW && !slot.isMutable)
      (what ++ " is a borrow but is marked immutable") kNoBlock none ++
    errorIf (slot.ownership != .GC && !isReferenceKind type.kind)
      (what ++ " has storage '" ++ ownershipName slot.ownership ++ "' but its type " ++
        rules.render slot.type ++ " is not a reference type") kNoBlock none ++
    errorIf (slot.ownership == .BORROW && isTaskType type)
      (what ++ " borrows a Task; borrow is not supported for task handles") kNoBlock none ++
    checkTypeParamScope rules f what kNoBlock none (slot.type + 1) slot.type

/-- The checks of the return type, which everything after it depends on. -/
def checkReturnType (type : MirType) : List Diagnostic :=
  errorIf (type.kind == .Nil)
    "return type cannot be nil; use void for a function with no result" kNoBlock none ++
  errorIf (f.isAsync && type.kind == .Task)
    "async function return type must be the task payload, not Task<...>" kNoBlock none

/-- The entry block is the first one. -/
def checkEntry : List Diagnostic :=
  let first := (f.blocks.head?.map (·.id)).getD kNoBlock
  if f.entryBlock = kNoBlock then errorIf true "function has no entry block" kNoBlock none
  else
    errorIf (first != f.entryBlock)
      ("entry block b" ++ toString f.entryBlock ++ " is not the function's first block (b" ++
        toString first ++ ")") kNoBlock none

def checkSignature : List Diagnostic :=
  let nameErrors := errorIf (f.name == "") "function has no name" kNoBlock none
  if f.blocks = [] then
    nameErrors ++ errorIf true "function has no basic blocks" kNoBlock none
  else
    nameErrors ++ checkEntry f ++ validType rules f.returnType "return type" kNoBlock none ++
      match rules.find f.returnType with
      | none => []
      | some type =>
        checkReturnType f type ++
        f.parameters.zipIdx.flatMap (fun p => checkParameter rules f p.1 p.2) ++
        errorIf (f.isGenericTemplate && f.typeParameters.isEmpty && f.methodTypeParameters.isEmpty)
          "function is marked as a generic template but declares no type parameters" kNoBlock none ++
        f.captures.flatMap (fun capture =>
          validType rules capture.type ("capture '" ++ capture.name ++ "'") kNoBlock none) ++
        f.slots.zipIdx.flatMap fun s => checkSlot rules f s.1 s.2

end zl.mir.Verifier
