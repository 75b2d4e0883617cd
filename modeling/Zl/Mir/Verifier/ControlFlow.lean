import Zl.Mir.Verifier.Operands

open zl.mir.ControlFlowGraph

namespace zl.mir.Verifier

section
variable (rules : TypeRules) (m : Module) (f : Function)

/-- The phases before the instructions run with an empty table of temp types. -/
def noTempTypes : TempId → Option TypeId := fun _ => none

/-- The value of a return terminator against the declared return type. -/
def checkReturnValue (b : BasicBlock) : List Diagnostic :=
  let t := b.terminator
  let block := "block b" ++ toString b.id
  if (rules.find f.returnType).any (·.kind == .Void) then
    errorIf (!t.value.isNone) (block ++ " returns a value from a void function") b.id none
  else if t.value.isNone then
    errorIf true (block ++ " returns no value from a function returning " ++
      rules.render f.returnType) b.id none
  else
    let operandErrors := checkOperand rules m f noTempTypes t.value "return value" b.id none
    if operandErrors ≠ [] then operandErrors
    else
      errorIf (!rules.assignable t.value.type f.returnType)
        (block ++ " returns " ++ rules.render t.value.type ++ " but the function returns " ++
          rules.render f.returnType) b.id none ++
      requireRefined rules t.value f.returnType "return" b.id none

/-- The subject of a branch or a switch: it must be there, resolve, and have one kind of type. -/
def checkSubject (b : BasicBlock) (missing what must : String) (kind : TypeKind) : List Diagnostic :=
  let t := b.terminator
  if t.value.isNone then errorIf true missing b.id none
  else
    let operandErrors := checkOperand rules m f noTempTypes t.value what b.id none
    if operandErrors ≠ [] then operandErrors
    else
      errorIf (!(rules.find t.value.type).any (·.kind == kind))
        (what ++ " of block b" ++ toString b.id ++ " has type " ++ rules.render t.value.type ++
          " but must be " ++ must) b.id none

/-- Each case value of a switch may occur once. -/
def checkCaseValues (b : BasicBlock) : List Diagnostic :=
  b.terminator.cases.zipIdx.flatMap fun entry =>
    errorIf ((b.terminator.cases.take entry.2).any (·.value == entry.1.value))
      ("switch terminator of block b" ++ toString b.id ++ " has duplicate case value " ++
        toString entry.1.value) b.id none

def checkTerminator (b : BasicBlock) : List Diagnostic :=
  let t := b.terminator
  let id := toString b.id
  match t.kind with
  | .None =>
    errorIf true ("block b" ++ id ++
      " has no terminator; every block must end in exactly one") b.id none
  | .Return =>
    errorIf (t.target != kNoBlock || t.elseBlock != kNoBlock || !t.cases.isEmpty)
      ("return terminator of block b" ++ id ++ " carries branch targets") b.id none ++
    checkReturnValue rules m f b
  | .Jump =>
    errorIf (t.target == kNoBlock) ("jump terminator of block b" ++ id ++ " has no target") b.id none ++
    errorIf (t.elseBlock != kNoBlock || !t.cases.isEmpty || !t.value.isNone)
      ("jump terminator of block b" ++ id ++ " carries unused operands") b.id none
  | .Branch =>
    errorIf (t.target == kNoBlock || t.elseBlock == kNoBlock)
      ("branch terminator of block b" ++ id ++ " requires both a then and an else target")
      b.id none ++
    errorIf (!t.cases.isEmpty)
      ("branch terminator of block b" ++ id ++ " carries switch cases") b.id none ++
    checkSubject rules m f b ("branch terminator of block b" ++ id ++ " has no condition")
      "branch condition" "bool" .Bool
  | .Switch =>
    errorIf t.cases.isEmpty ("switch terminator of block b" ++ id ++ " has no cases") b.id none ++
    errorIf (t.target == kNoBlock)
      ("switch terminator of block b" ++ id ++ " has no default target") b.id none ++
    errorIf (t.elseBlock != kNoBlock)
      ("switch terminator of block b" ++ id ++ " carries an else target") b.id none ++
    checkCaseValues b ++
    checkSubject rules m f b ("switch terminator of block b" ++ id ++ " has no subject")
      "switch subject" "int" .Int
  | .Throw =>
    if t.value.isNone then
      errorIf true ("throw terminator of block b" ++ id ++ " has no value") b.id none
    else
      errorIf (t.target != kNoBlock || t.elseBlock != kNoBlock || !t.cases.isEmpty)
        ("throw terminator of block b" ++ id ++ " carries branch targets") b.id none ++
      checkOperand rules m f noTempTypes t.value "thrown value" b.id none
  | .Unreachable =>
    errorIf (!t.value.isNone || t.target != kNoBlock || t.elseBlock != kNoBlock || !t.cases.isEmpty)
      ("unreachable terminator of block b" ++ id ++ " carries operands") b.id none

/-- A handler names an existing block, and a slot exactly when that block binds a value. -/
def checkHandler (b : BasicBlock) (handler : ExceptionHandler) : List Diagnostic :=
  let block := "block b" ++ toString b.id
  if handler.block = kNoBlock then
    errorIf true (block ++ " has an exception handler with no target") b.id none
  else if isValid f handler.block = false then
    errorIf true (block ++ " names exception handler block b" ++ toString handler.block ++
      ", which does not exist") b.id none
  else
    errorIf (handler.catchType != kNoType && (rules.find handler.catchType).isNone)
      (block ++ " has an exception handler with unknown catch type id " ++
        toString handler.catchType) b.id none ++
    match (f.block handler.block).map (·.kind) with
    | none => []
    | some .Normal =>
      errorIf (handler.catchSlot != 0)
        ("exception handler names catch slot " ++ toString handler.catchSlot ++
          " but its target block b" ++ toString handler.block ++
          " is neither a catch nor a cleanup block") b.id none
    | some _ =>
      if handler.catchSlot = 0 then
        errorIf true ("exception handler for handler block b" ++ toString handler.block ++
          " does not name a slot for the caught value") b.id none
      else
        errorIf (f.slot handler.catchSlot).isNone
          ("exception handler for handler block b" ++ toString handler.block ++
            " names unknown catch slot " ++ toString handler.catchSlot) b.id none

/-- Whether a block listed earlier carries the id of the block at this position. -/
def seenBefore (b : BasicBlock) (i : Nat) : Bool := (f.blocks.take i).any (·.id == b.id)

/-- The checks of the block at a position: dense ids, handlers, successors and terminator. -/
def checkBlock (b : BasicBlock) (i : Nat) : List Diagnostic :=
  if seenBefore f b i then errorIf true ("duplicate block id b" ++ toString b.id) kNoBlock none
  else
    errorIf (b.id != i + 1)
      ("block at position " ++ toString i ++ " has id b" ++ toString b.id ++
        "; block ids must be 1-based and match their position") kNoBlock none ++
    errorIf (b.instructions.isEmpty && b.terminator.kind == .None)
      ("block b" ++ toString b.id ++ " is empty and has no terminator") b.id none ++
    b.exceptionHandlers.flatMap (checkHandler rules f b) ++
    b.terminator.successors.flatMap (fun successor =>
      errorIf (!isValid f successor)
        ("terminator of block b" ++ toString b.id ++ " refers to block b" ++ toString successor ++
          ", which does not exist") b.id none) ++
    checkTerminator rules m f b

/-- A catch block is entered along exception edges only, and by at least one. -/
def checkCatchBlock (b : BasicBlock) : List Diagnostic :=
  let unwindTargets :=
    (f.blocks.zipIdx.filter fun p => !seenBefore f p.1 p.2).flatMap fun p => handlerTargets f p.1
  if b.kind ≠ .Catch then []
  else
    errorIf (!(predecessors f b.id).isEmpty)
      ("catch block b" ++ toString b.id ++ " is reachable by normal control flow; a catch block " ++
        "must only be entered along an exception edge") b.id none ++
    errorIf (!unwindTargets.contains b.id)
      ("catch block b" ++ toString b.id ++ " is not the target of any exception handler") b.id none

/-- A block that no edge at all reaches is dead. -/
def checkReachable (b : BasicBlock) : List Diagnostic :=
  errorIf (!isReachable f b.id && !(reachableWithUnwind f).contains b.id)
    ("block b" ++ toString b.id ++ " is unreachable from the entry block") b.id none

end

section
variable (rules : TypeRules) (m : Module) (f : Function)

/-- The block that declared a parameter with this id before a place in the listing. -/
def definedIn (b : BasicBlock) (i a : Nat) (id : BlockParamId) : Option BlockId :=
  let earlier := (f.blocks.take i).flatMap (fun c => c.parameters.map fun p => (c.id, p.id)) ++
    (b.parameters.take a).map fun p => (b.id, p.id)
  (earlier.find? (·.2 == id)).map (·.1)

/-- A block parameter has a proper id, one definition and a type that has values. -/
def checkBlockParameter (b : BasicBlock) (i : Nat) (parameter : BlockParameter) (a : Nat) :
    List Diagnostic :=
  let what := "block parameter ^" ++ toString parameter.id ++ " ('" ++ parameter.name ++ "')"
  if parameter.id = kNoBlockParam then
    errorIf true ("block b" ++ toString b.id ++
      " declares a block parameter with id 0; ids are 1-based") b.id none
  else
    match definedIn f b i a parameter.id with
    | some first =>
      errorIf true (what ++ " is defined by both block b" ++ toString first ++ " and block b" ++
        toString b.id ++ "; a value has one definition") b.id none
    | none =>
      match rules.find parameter.type with
      | none => validType rules parameter.type what b.id none
      | some type =>
        validType rules parameter.type what b.id none ++
        errorIf (type.kind == .Void) (what ++ " cannot have type void") b.id none ++
        checkTypeParamScope rules f what b.id none (parameter.type + 1) parameter.type

/-- The parameters a block declares. The entry declares none. -/
def checkDeclaredParameters (b : BasicBlock) (i : Nat) : List Diagnostic :=
  b.parameters.zipIdx.flatMap (fun p => checkBlockParameter rules f b i p.1 p.2) ++
    errorIf (b.id == f.entryBlock && !b.parameters.isEmpty)
      ("entry block b" ++ toString b.id ++
        " declares block parameters; nothing can supply them on entry") b.id none

/-- One argument of an edge against the parameter it is for. -/
def checkEdgeArgument (b : BasicBlock) (edge : String) (argument : Operand)
    (parameter : BlockParameter) (a : Nat) : List Diagnostic :=
  let what := edge ++ " argument " ++ toString a ++ " for ^" ++ toString parameter.id ++ " ('" ++
    parameter.name ++ "')"
  let operandErrors := checkOperand rules m f noTempTypes argument what b.id none
  if operandErrors ≠ [] then operandErrors
  else
    errorIf (!rules.assignable argument.type parameter.type)
      (what ++ " is " ++ rules.render argument.type ++ " but the parameter is " ++
        rules.render parameter.type) b.id none ++
    requireRefined rules argument parameter.type what b.id none

/-- The argument list of one edge: complete, and each argument good for its parameter. -/
def checkEdge (b : BasicBlock) (successor : BlockId) (i : Nat) : List Diagnostic :=
  let parameters := ((f.block successor).map (·.parameters)).getD []
  let edge := "block b" ++ toString b.id ++ " -> b" ++ toString successor
  match b.terminator.edgeArguments[i]? with
  | none =>
    errorIf (!parameters.isEmpty)
      (edge ++ " supplies no arguments but block b" ++ toString successor ++ " has " ++
        toString parameters.length ++ " block parameter(s)") b.id none
  | some arguments =>
    if arguments.length ≠ parameters.length then
      errorIf true (edge ++ " supplies " ++ toString arguments.length ++
        " block-parameter argument(s) but block b" ++ toString successor ++ " has " ++
        toString parameters.length) b.id none
    else
      (arguments.zip parameters).zipIdx.flatMap fun p =>
        checkEdgeArgument rules m f b edge p.1.1 p.1.2 p.2

/-- The edge arguments a terminator carries, one list for each successor at most. -/
def checkEdgeArguments (b : BasicBlock) : List Diagnostic :=
  let t := b.terminator
  if t.successors = [] then
    errorIf (!t.edgeArguments.isEmpty)
      ("block b" ++ toString b.id ++ " has a " ++ terminatorKindName t.kind ++
        " terminator that carries block-parameter arguments but transfers nowhere") b.id none
  else
    t.successors.zipIdx.flatMap (fun s => checkEdge rules m f b s.1 s.2) ++
      errorIf (decide (t.edgeArguments.length > t.successors.length))
        ("block b" ++ toString b.id ++ " supplies arguments for " ++
          toString t.edgeArguments.length ++ " successors but has " ++
          toString t.successors.length) b.id none

/-- Every normal predecessor hands the parameters of a block their values. -/
def checkSuppliers (b : BasicBlock) : List Diagnostic :=
  if b.parameters = [] then []
  else
    (predecessors f b.id).flatMap fun pred =>
      match f.block pred with
      | none => []
      | some predecessor =>
        let t := predecessor.terminator
        errorIf (decide (t.successors.findIdx (· == b.id) ≥ t.edgeArguments.length))
          ("block b" ++ toString pred ++ " reaches block b" ++ toString b.id ++
            " without supplying its " ++ toString b.parameters.length ++ " block parameter(s)")
          pred none

def checkBlockParameters : List Diagnostic :=
  f.blocks.zipIdx.flatMap (fun b => checkDeclaredParameters rules f b.1 b.2) ++
    f.blocks.flatMap (checkEdgeArguments rules m f) ++ f.blocks.flatMap (checkSuppliers f)

/-- The stored edge list must be exactly what the terminators and handlers imply. -/
def checkEdgesConsistency : List Diagnostic :=
  errorIf (f.rebuildEdges.edges != f.edges)
    "control-flow edge list does not match the block terminators; call Function::rebuildEdges()"
    kNoBlock none

def checkControlFlow (unreachableBlocksAreErrors : Bool) : List Diagnostic :=
  f.blocks.zipIdx.flatMap (fun b => checkBlock rules m f b.1 b.2) ++
    f.blocks.flatMap (checkCatchBlock f) ++
    errorIf (!(predecessors f f.entryBlock).isEmpty)
      ("entry block b" ++ toString f.entryBlock ++ " has predecessors") f.entryBlock none ++
    (if unreachableBlocksAreErrors then f.blocks.flatMap (checkReachable f) else []) ++
    checkBlockParameters rules m f ++ checkEdgesConsistency f

end

end zl.mir.Verifier
