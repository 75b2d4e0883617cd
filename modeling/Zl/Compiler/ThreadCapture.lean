import Zl.Parser.Ast

open zl.parser

namespace zl.compiler

/-- The sets of names are lists, of which only the members count. -/
structure LambdaCaptureRefs where
  names : List String := []
  assignedNames : List String := []
  usesThis : Bool := false
  deriving DecidableEq, Repr

def LambdaCaptureRefs.merge (a b : LambdaCaptureRefs) : LambdaCaptureRefs :=
  ⟨a.names ++ b.names, a.assignedNames ++ b.assignedNames, a.usesThis || b.usesThis⟩

instance : Append LambdaCaptureRefs := ⟨LambdaCaptureRefs.merge⟩

mutual

def collectPatternBindings : Pattern → List String
  | ⟨_, _, _, _, _, _, bindingName, fields, elements, mapEntries, _, _, _⟩ =>
    (if bindingName = "" then [] else [bindingName]) ++ collectFieldBindings fields ++
      collectElementBindings elements ++ collectEntryBindings mapEntries

def collectFieldBindings : List (DataFieldPattern Pattern) → List String
  | [] => []
  | ⟨_, pattern, _⟩ :: fields => collectPatternBindings pattern ++ collectFieldBindings fields

def collectElementBindings : List Pattern → List String
  | [] => []
  | pattern :: elements => collectPatternBindings pattern ++ collectElementBindings elements

def collectEntryBindings : List (MapEntryPattern Pattern) → List String
  | [] => []
  | ⟨key, value, _⟩ :: entries =>
    collectPatternBindings key ++ collectPatternBindings value ++ collectEntryBindings entries

end

/-- A name that is not bound, as a reference to the outside. -/
def outer (bound : List String) (name : String) : List String := if name ∈ bound then [] else [name]

/-- The name that a statement of a block declares for the statements after it. -/
def declaredName : AstNode → List String
  | .VarDecl _ _ _ _ name _ => [name]
  | _ => []

mutual

def collectRefs (bound : List String) : AstNode → LambdaCaptureRefs
  | .Identifier _ name => { names := outer bound name }
  | .ThisExpr _ => { names := ["this"], usesThis := true }
  | .UnaryExpr _ _ operand => collectRefs bound operand
  | .AwaitExpr _ operand => collectRefs bound operand
  | .BinaryExpr _ _ left right => collectRefs bound left ++ collectRefs bound right
  | .CallExpr _ namespaceName calleeName _ arguments =>
    { names := if namespaceName = "" ∧ calleeName ≠ "" then outer bound calleeName else [] } ++
      collectAll bound arguments
  | .AssignExpr _ name value =>
    { names := outer bound name, assignedNames := outer bound name } ++ collectRefs bound value
  | .MoveExpr _ name => { names := outer bound name }
  | .FieldAccessExpr _ object _ => collectRefs bound object
  | .IndexAccessExpr _ object index => collectRefs bound object ++ collectRefs bound index
  | .FieldAssignExpr _ object _ value => collectRefs bound object ++ collectRefs bound value
  | .MethodCallExpr _ object _ _ arguments => collectRefs bound object ++ collectAll bound arguments
  | .NewExpr _ _ _ arguments => collectAll bound arguments
  | .CollectionLiteral _ _ _ elements entries => collectAll bound elements ++ collectEntries bound entries
  | .BlockStmt statements => collectBlock bound statements
  | .VarDecl _ _ _ _ _ initializer => collectOptional bound initializer
  | .LogStmt _ argument => collectRefs bound argument
  | .LogExpr _ argument => collectRefs bound argument
  | .IfStmt _ branches elseBody => collectBranches bound branches ++ collectOptional bound elseBody
  | .ReturnStmt _ value => collectOptional bound value
  | .ForStmt _ varName start stop step body =>
    collectRefs bound start ++ collectRefs bound stop ++ collectRefs bound step ++
      collectRefs (varName :: bound) body
  | .WhileStmt _ condition body => collectRefs bound condition ++ collectRefs bound body
  | .RepeatStmt _ body condition => collectRefs bound body ++ collectRefs bound condition
  | .TryStmt _ tryBlock catches finallyBlock =>
    collectRefs bound tryBlock ++ collectCatches bound catches ++ collectOptional bound finallyBlock
  | .ThrowStmt _ value => collectRefs bound value
  | .ExprStmt expression => collectRefs bound expression
  -- The receiver is not recorded for a call of a method of the parent.
  | .SuperCallExpr _ arguments => collectAll bound arguments
  | .SuperMethodCallExpr _ _ _ arguments => collectAll bound arguments
  | .DataLiteralExpr _ _ fields => collectFields bound fields
  | .DataUpdateExpr _ base fields => collectRefs bound base ++ collectFields bound fields
  | .LambdaExpr _ params _ _ body _ =>
    let captured := collectRefs (params.map (·.name) ++ bound) body
    { names := captured.names, usesThis := captured.usesThis }
  | .MatchExpr _ subject arms => collectRefs bound subject ++ collectArms bound arms
  | .Literal _ _ _ | .BreakStmt _ | .ContinueStmt _ => {}

def collectAll (bound : List String) : List AstNode → LambdaCaptureRefs
  | [] => {}
  | node :: nodes => collectRefs bound node ++ collectAll bound nodes

def collectOptional (bound : List String) : Option AstNode → LambdaCaptureRefs
  | none => {}
  | some node => collectRefs bound node

def collectEntries (bound : List String) : List (AstNode × AstNode) → LambdaCaptureRefs
  | [] => {}
  | (key, value) :: entries =>
    collectRefs bound key ++ collectRefs bound value ++ collectEntries bound entries

def collectFields (bound : List String) : List (String × AstNode) → LambdaCaptureRefs
  | [] => {}
  | (_, value) :: fields => collectRefs bound value ++ collectFields bound fields

def collectBranches (bound : List String) : List (Branch AstNode) → LambdaCaptureRefs
  | [] => {}
  | ⟨condition, body⟩ :: branches =>
    collectRefs bound condition ++ collectRefs bound body ++ collectBranches bound branches

def collectCatches (bound : List String) : List (CatchClause AstNode) → LambdaCaptureRefs
  | [] => {}
  | ⟨varName, _, block, _⟩ :: catches => collectRefs (varName :: bound) block ++ collectCatches bound catches

def collectArms (bound : List String) : List (Arm AstNode) → LambdaCaptureRefs
  | [] => {}
  | ⟨pattern, guard, result, _⟩ :: arms =>
    let armBound := collectPatternBindings pattern ++ bound
    collectOptional armBound guard ++ collectRefs armBound result ++ collectArms bound arms

def collectBlock (bound : List String) : List AstNode → LambdaCaptureRefs
  | [] => {}
  | statement :: statements =>
    collectRefs bound statement ++ collectBlock (declaredName statement ++ bound) statements

end

def collectLambdaCaptureRefs (body : AstNode) (params : List String) : LambdaCaptureRefs :=
  collectRefs params body

inductive Use where
  | read | write | move | call
  deriving DecidableEq, Repr

/-- The variable that a node itself uses. -/
def uses : AstNode → List (Use × String)
  | .Identifier _ name => [(.read, name)]
  | .AssignExpr _ name _ => [(.write, name)]
  | .MoveExpr _ name => [(.move, name)]
  | .CallExpr _ namespaceName calleeName _ _ =>
    if namespaceName = "" ∧ calleeName ≠ "" then [(.call, calleeName)] else []
  | _ => []

def isThis : AstNode → Bool
  | .ThisExpr _ => true
  | _ => false

/-- Whether a node needs the receiver: `this`, or a call of a constructor or a method of the parent
    on it. -/
def needsReceiver : AstNode → Bool
  | .ThisExpr _ | .SuperCallExpr _ _ | .SuperMethodCallExpr _ _ _ _ => true
  | _ => false

def isLambda : AstNode → Bool
  | .LambdaExpr _ _ _ _ _ _ => true
  | _ => false

/-- The variables of a pattern. The name `_` is a placeholder, which declares none. -/
def patternVariables (pattern : Pattern) : List String :=
  (collectPatternBindings pattern).filter (· ≠ "_")

def scopedStatements (declared : List String) : List AstNode → List (List String × AstNode)
  | [] => []
  | statement :: statements =>
    (declared, statement) :: scopedStatements (declaredName statement ++ declared) statements

def scopedArm (binds : Pattern → List String) (arm : Arm AstNode) : List (List String × AstNode) :=
  (arm.guard.toList ++ [arm.result]).map (binds arm.pattern, ·)

/-- The nodes in a node, each with the names that are declared between the two: a declaration for
    the statements after it in its block, a loop variable for the body, a caught exception for its
    block, the variables of a pattern for its arm and the parameters for the body of a lambda. -/
def scopedChildren (binds : Pattern → List String) : AstNode → List (List String × AstNode)
  | .Literal _ _ _ | .Identifier _ _ | .MoveExpr _ _ | .ThisExpr _ | .BreakStmt _ | .ContinueStmt _ => []
  | .UnaryExpr _ _ node | .AwaitExpr _ node | .AssignExpr _ _ node | .FieldAccessExpr _ node _
  | .LogExpr _ node | .LogStmt _ node | .ThrowStmt _ node | .ExprStmt node => [([], node)]
  | .BinaryExpr _ _ left right => [([], left), ([], right)]
  | .IndexAccessExpr _ object index => [([], object), ([], index)]
  | .FieldAssignExpr _ object _ value => [([], object), ([], value)]
  | .CallExpr _ _ _ _ arguments | .NewExpr _ _ _ arguments | .SuperCallExpr _ arguments
  | .SuperMethodCallExpr _ _ _ arguments => arguments.map ([], ·)
  | .MethodCallExpr _ object _ _ arguments => ([], object) :: arguments.map ([], ·)
  | .CollectionLiteral _ _ _ elements entries =>
    elements.map ([], ·) ++ entries.flatMap fun entry => [([], entry.1), ([], entry.2)]
  | .DataLiteralExpr _ _ fields => fields.map fun field => ([], field.2)
  | .DataUpdateExpr _ base fields => ([], base) :: fields.map fun field => ([], field.2)
  | .LambdaExpr _ params _ _ body _ => [(params.map (·.name), body)]
  | .MatchExpr _ subject arms => ([], subject) :: arms.flatMap (scopedArm binds)
  | .BlockStmt statements => scopedStatements [] statements
  | .VarDecl _ _ _ _ _ initializer => initializer.toList.map ([], ·)
  | .ReturnStmt _ value => value.toList.map ([], ·)
  | .IfStmt _ branches elseBody =>
    (branches.flatMap fun branch => [([], branch.condition), ([], branch.body)]) ++
      elseBody.toList.map ([], ·)
  | .ForStmt _ varName start stop step body => [([], start), ([], stop), ([], step), ([varName], body)]
  | .WhileStmt _ condition body => [([], condition), ([], body)]
  | .RepeatStmt _ body condition => [([], body), ([], condition)]
  | .TryStmt _ tryBlock catches finallyBlock =>
    ([], tryBlock) :: catches.map (fun clause => ([clause.varName], clause.block)) ++
      finallyBlock.toList.map ([], ·)

namespace LambdaCaptureRefs

@[simp] theorem names_append (a b : LambdaCaptureRefs) : (a ++ b).names = a.names ++ b.names := rfl

@[simp] theorem assignedNames_append (a b : LambdaCaptureRefs) :
    (a ++ b).assignedNames = a.assignedNames ++ b.assignedNames := rfl

@[simp] theorem usesThis_append (a b : LambdaCaptureRefs) :
    (a ++ b).usesThis = (a.usesThis || b.usesThis) := rfl

theorem append_assoc (a b c : LambdaCaptureRefs) : a ++ b ++ c = a ++ (b ++ c) := by
  show LambdaCaptureRefs.mk _ _ _ = LambdaCaptureRefs.mk _ _ _
  simp [Bool.or_assoc]

@[simp] theorem append_empty (a : LambdaCaptureRefs) : a ++ ({} : LambdaCaptureRefs) = a := by
  show LambdaCaptureRefs.mk _ _ _ = a
  simp

@[simp] theorem empty_append (a : LambdaCaptureRefs) : ({} : LambdaCaptureRefs) ++ a = a := rfl

end LambdaCaptureRefs

def mergeAll (refs : List LambdaCaptureRefs) : LambdaCaptureRefs := refs.foldr (· ++ ·) {}

@[simp] theorem mergeAll_nil : mergeAll [] = {} := rfl

@[simp] theorem mergeAll_cons (r : LambdaCaptureRefs) (refs : List LambdaCaptureRefs) :
    mergeAll (r :: refs) = r ++ mergeAll refs := rfl

@[simp] theorem mergeAll_append (refs refs' : List LambdaCaptureRefs) :
    mergeAll (refs ++ refs') = mergeAll refs ++ mergeAll refs' := by
  induction refs with
  | nil => rfl
  | cons r refs ih => simp [ih, LambdaCaptureRefs.append_assoc]

section
variable {refs : List LambdaCaptureRefs} {x : String}

theorem mem_names_mergeAll : x ∈ (mergeAll refs).names ↔ ∃ r ∈ refs, x ∈ r.names := by
  induction refs with
  | nil => simp
  | cons r refs ih => simp [ih]

theorem mem_assignedNames_mergeAll : x ∈ (mergeAll refs).assignedNames ↔ ∃ r ∈ refs, x ∈ r.assignedNames := by
  induction refs with
  | nil => simp
  | cons r refs ih => simp [ih]

theorem usesThis_mergeAll : (mergeAll refs).usesThis = true ↔ ∃ r ∈ refs, r.usesThis = true := by
  induction refs with
  | nil => simp
  | cons r refs ih => simp [ih]

end

/-- What the walk records of the nodes in a node. -/
def collectScoped (bound : List String) (parts : List (List String × AstNode)) : LambdaCaptureRefs :=
  mergeAll (parts.map fun c => collectRefs (c.1 ++ bound) c.2)

section
variable (bound : List String)

@[simp] theorem collectScoped_nil : collectScoped bound [] = {} := rfl

@[simp] theorem collectScoped_cons (c : List String × AstNode) (parts : List (List String × AstNode)) :
    collectScoped bound (c :: parts) = collectRefs (c.1 ++ bound) c.2 ++ collectScoped bound parts := rfl

@[simp] theorem collectScoped_append (parts parts' : List (List String × AstNode)) :
    collectScoped bound (parts ++ parts') = collectScoped bound parts ++ collectScoped bound parts' := by
  simp [collectScoped]

theorem collectAll_eq (nodes : List AstNode) :
    collectAll bound nodes = collectScoped bound (nodes.map ([], ·)) := by
  induction nodes with
  | nil => rfl
  | cons node nodes ih => simp [collectAll, ih]

theorem collectOptional_eq (node : Option AstNode) :
    collectOptional bound node = collectScoped bound (node.toList.map ([], ·)) := by
  cases node <;> simp [collectOptional]

theorem collectEntries_eq (entries : List (AstNode × AstNode)) : collectEntries bound entries =
    collectScoped bound (entries.flatMap fun entry => [([], entry.1), ([], entry.2)]) := by
  induction entries with
  | nil => rfl
  | cons entry entries ih => simp [collectEntries, ih, LambdaCaptureRefs.append_assoc]

theorem collectFields_eq (fields : List (String × AstNode)) :
    collectFields bound fields = collectScoped bound (fields.map fun field => ([], field.2)) := by
  induction fields with
  | nil => rfl
  | cons field fields ih => simp [collectFields, ih]

theorem collectBranches_eq (branches : List (Branch AstNode)) : collectBranches bound branches =
    collectScoped bound (branches.flatMap fun branch => [([], branch.condition), ([], branch.body)]) := by
  induction branches with
  | nil => rfl
  | cons branch branches ih => simp [collectBranches, ih, LambdaCaptureRefs.append_assoc]

theorem collectCatches_eq (catches : List (CatchClause AstNode)) : collectCatches bound catches =
    collectScoped bound (catches.map fun clause => ([clause.varName], clause.block)) := by
  induction catches with
  | nil => rfl
  | cons clause catches ih => simp [collectCatches, ih]

theorem collectArms_eq (arms : List (Arm AstNode)) :
    collectArms bound arms = collectScoped bound (arms.flatMap (scopedArm collectPatternBindings)) := by
  induction arms with
  | nil => rfl
  | cons arm arms ih =>
    obtain ⟨pattern, guard, result, line⟩ := arm
    cases guard <;>
      simp [collectArms, ih, scopedArm, collectOptional, LambdaCaptureRefs.append_assoc]

theorem collectBlock_eq (declared : List String) (statements : List AstNode) :
    collectBlock (declared ++ bound) statements =
      collectScoped bound (scopedStatements declared statements) := by
  induction statements generalizing declared with
  | nil => rfl
  | cons statement statements ih =>
    rw [collectBlock, scopedStatements, collectScoped_cons, ← List.append_assoc, ih]

end

/-- What the walk records of a node before it turns to the nodes in it. -/
def ownRefs (bound : List String) (node : AstNode) : LambdaCaptureRefs where
  names := ((uses node).filter (·.2 ∉ bound)).map (·.2) ++ if isThis node then ["this"] else []
  assignedNames := ((uses node).filter fun use => use.1 = .write ∧ use.2 ∉ bound).map (·.2)
  usesThis := isThis node

theorem map_filter_use (bound : List String) (use : Use) (name : String) :
    (([(use, name)] : List (Use × String)).filter (·.2 ∉ bound)).map (·.2) = outer bound name := by
  by_cases h : name ∈ bound <;> simp [outer, h]

theorem map_filter_write (bound : List String) (name : String) :
    (([(Use.write, name)] : List (Use × String)).filter fun use => use.1 = .write ∧ use.2 ∉ bound).map (·.2) =
      outer bound name := by
  by_cases h : name ∈ bound <;> simp [outer, h]

theorem collectRefs_eq {bound : List String} {node : AstNode} (hlambda : isLambda node = false) :
    collectRefs bound node =
      ownRefs bound node ++ collectScoped bound (scopedChildren collectPatternBindings node) := by
  cases node with
  | LambdaExpr => exact nomatch hlambda
  | BlockStmt statements => exact collectBlock_eq bound [] statements
  | Identifier line name => simp [collectRefs, scopedChildren, ownRefs, uses, isThis,
    ← map_filter_use bound .read]
  | MoveExpr line name => simp [collectRefs, scopedChildren, ownRefs, uses, isThis,
    ← map_filter_use bound .move]
  | AssignExpr line name value =>
    simp only [collectRefs, scopedChildren, ownRefs, uses, isThis, map_filter_use, map_filter_write]
    simp
  | CallExpr line namespaceName calleeName typeArgs arguments =>
    by_cases h : namespaceName = "" ∧ calleeName ≠ ""
    · simp only [collectRefs, scopedChildren, ownRefs, uses, isThis, if_pos h, map_filter_use, collectAll_eq]
      simp
    · simp [collectRefs, scopedChildren, ownRefs, uses, isThis, if_neg h, collectAll_eq]
  | _ =>
    simp [collectRefs, scopedChildren, ownRefs, uses, isThis, collectAll_eq, collectOptional_eq,
      collectEntries_eq, collectFields_eq, collectBranches_eq, collectCatches_eq, collectArms_eq,
      LambdaCaptureRefs.append_assoc]

section
variable {binds : Pattern → List String} {c : List String × AstNode}

theorem mem_scopedStatements {declared : List String} {statements : List AstNode}
    (hc : c ∈ scopedStatements declared statements) : c.2 ∈ statements := by
  induction statements generalizing declared with
  | nil => nomatch hc
  | cons statement statements ih =>
    rcases List.mem_cons.mp hc with rfl | hc
    · exact List.mem_cons_self
    · exact List.mem_cons_of_mem _ (ih hc)

theorem sizeOf_nodes {nodes : List AstNode} (hc : c ∈ nodes.map (([], ·) : AstNode → List String × AstNode)) :
    sizeOf c.2 < sizeOf nodes := by
  obtain ⟨node, hnode, rfl⟩ := List.mem_map.mp hc
  exact List.sizeOf_lt_of_mem hnode

theorem sizeOf_optional {node : Option AstNode}
    (hc : c ∈ node.toList.map (([], ·) : AstNode → List String × AstNode)) : sizeOf c.2 < sizeOf node := by
  cases node with
  | none => nomatch hc
  | some node =>
    obtain rfl := List.mem_singleton.mp hc
    simp

theorem sizeOf_entries {entries : List (AstNode × AstNode)}
    (hc : c ∈ entries.flatMap fun entry => [(([] : List String), entry.1), ([], entry.2)]) :
    sizeOf c.2 < sizeOf entries := by
  obtain ⟨⟨key, value⟩, hentry, hc⟩ := List.mem_flatMap.mp hc
  have hsize := List.sizeOf_lt_of_mem hentry
  simp only [Prod.mk.sizeOf_spec] at hsize
  simp only [List.mem_cons, List.not_mem_nil, or_false] at hc
  rcases hc with rfl | rfl <;> dsimp only <;> omega

theorem sizeOf_fields {fields : List (String × AstNode)}
    (hc : c ∈ fields.map fun field => (([] : List String), field.2)) : sizeOf c.2 < sizeOf fields := by
  obtain ⟨⟨name, value⟩, hfield, rfl⟩ := List.mem_map.mp hc
  have hsize := List.sizeOf_lt_of_mem hfield
  simp only [Prod.mk.sizeOf_spec] at hsize
  dsimp only
  omega

theorem sizeOf_branches {branches : List (Branch AstNode)}
    (hc : c ∈ branches.flatMap fun branch => [(([] : List String), branch.condition), ([], branch.body)]) :
    sizeOf c.2 < sizeOf branches := by
  obtain ⟨⟨condition, body⟩, hbranch, hc⟩ := List.mem_flatMap.mp hc
  have hsize := List.sizeOf_lt_of_mem hbranch
  simp only [Branch.mk.sizeOf_spec] at hsize
  simp only [List.mem_cons, List.not_mem_nil, or_false] at hc
  rcases hc with rfl | rfl <;> dsimp only <;> omega

theorem sizeOf_catches {catches : List (CatchClause AstNode)}
    (hc : c ∈ catches.map fun clause => ([clause.varName], clause.block)) : sizeOf c.2 < sizeOf catches := by
  obtain ⟨⟨varName, type, block, line⟩, hclause, rfl⟩ := List.mem_map.mp hc
  have hsize := List.sizeOf_lt_of_mem hclause
  simp only [CatchClause.mk.sizeOf_spec] at hsize
  dsimp only
  omega

theorem sizeOf_arms {arms : List (Arm AstNode)} (hc : c ∈ arms.flatMap (scopedArm binds)) :
    sizeOf c.2 < sizeOf arms := by
  obtain ⟨⟨pattern, guard, result, line⟩, harm, hc⟩ := List.mem_flatMap.mp hc
  have hsize := List.sizeOf_lt_of_mem harm
  simp only [Arm.mk.sizeOf_spec] at hsize
  simp only [scopedArm, List.map_append, List.mem_append, List.map_cons, List.map_nil,
    List.mem_singleton] at hc
  rcases hc with hc | rfl
  · obtain ⟨guard, hguard, rfl⟩ := List.mem_map.mp hc
    obtain rfl := Option.mem_toList.mp hguard
    simp only [Option.some.sizeOf_spec] at hsize
    dsimp only
    omega
  · dsimp only
    omega

theorem sizeOf_scopedChildren {node : AstNode} (hc : c ∈ scopedChildren binds node) :
    sizeOf c.2 < sizeOf node := by
  cases node with
  | Literal | Identifier | MoveExpr | ThisExpr | BreakStmt | ContinueStmt => exact absurd hc List.not_mem_nil
  | CallExpr | NewExpr | SuperCallExpr | SuperMethodCallExpr =>
    have hsize := sizeOf_nodes hc
    simp
    omega
  | BlockStmt =>
    have hsize := List.sizeOf_lt_of_mem (mem_scopedStatements hc)
    simp
    omega
  | VarDecl | ReturnStmt =>
    have hsize := sizeOf_optional hc
    simp
    omega
  | DataLiteralExpr =>
    have hsize := sizeOf_fields hc
    simp
    omega
  | MethodCallExpr =>
    rcases List.mem_cons.mp hc with rfl | hc
    · simp
      omega
    · have hsize := sizeOf_nodes hc
      simp
      omega
  | DataUpdateExpr =>
    rcases List.mem_cons.mp hc with rfl | hc
    · simp
      omega
    · have hsize := sizeOf_fields hc
      simp
      omega
  | MatchExpr =>
    rcases List.mem_cons.mp hc with rfl | hc
    · simp
      omega
    · have hsize := sizeOf_arms hc
      simp
      omega
  | CollectionLiteral =>
    rcases List.mem_append.mp hc with hc | hc
    · have hsize := sizeOf_nodes hc
      simp
      omega
    · have hsize := sizeOf_entries hc
      simp
      omega
  | IfStmt =>
    rcases List.mem_append.mp hc with hc | hc
    · have hsize := sizeOf_branches hc
      simp
      omega
    · have hsize := sizeOf_optional hc
      simp
      omega
  | TryStmt =>
    rcases List.mem_append.mp hc with hc | hc
    · rcases List.mem_cons.mp hc with rfl | hc
      · simp
        omega
      · have hsize := sizeOf_catches hc
        simp
        omega
    · have hsize := sizeOf_optional hc
      simp
      omega
  | _ =>
    simp only [scopedChildren, List.mem_cons, List.not_mem_nil, or_false] at hc
    first
    | subst hc; simp; done
    | rcases hc with rfl | rfl <;> simp <;> omega
    | rcases hc with rfl | rfl | rfl | rfl <;> simp <;> omega

end

theorem scoped_induction {P : AstNode → Prop}
    (h : ∀ node, (∀ c ∈ scopedChildren collectPatternBindings node, P c.2) → P node)
    (node : AstNode) : P node :=
  h node fun c _hc => scoped_induction h c.2
termination_by sizeOf node
decreasing_by exact sizeOf_scopedChildren _hc

/-- A use of a variable somewhere in a node, with the names that are declared in the node where the
    use stands, and whether it stands in a lambda. -/
inductive Occurs (binds : Pattern → List String) : AstNode → Use → String → List String → Bool → Prop where
  | here {node use x} (h : (use, x) ∈ uses node) : Occurs binds node use x [] false
  | inside {node use x inner inLambda} {c : List String × AstNode} (hc : c ∈ scopedChildren binds node)
      (h : Occurs binds c.2 use x inner inLambda) :
      Occurs binds node use x (inner ++ c.1) (isLambda node || inLambda)

/-- Some use of the variable refers to a binding outside. -/
def Free (binds : Pattern → List String) (params : List String) (node : AstNode) (x : String) : Prop :=
  ∃ use inner inLambda, Occurs binds node use x inner inLambda ∧ x ∉ inner ++ params

/-- The node itself, and not a lambda in it, assigns to an outside binding. -/
def Assigned (binds : Pattern → List String) (params : List String) (node : AstNode) (x : String) : Prop :=
  ∃ inner, Occurs binds node .write x inner false ∧ x ∉ inner ++ params

/-- Some node in a node, also in a lambda, satisfies a test. -/
inductive Contains (test : AstNode → Bool) : AstNode → Prop where
  | here {node} (h : test node = true) : Contains test node
  | inside {node} {c : List String × AstNode} (hc : c ∈ scopedChildren patternVariables node)
      (h : Contains test c.2) : Contains test node

section
variable {binds : Pattern → List String} {params : List String} {node : AstNode} {x : String}
variable {parts : List (List String × AstNode)} {binds' : Pattern → List String}

theorem free_iff : Free binds params node x ↔ (∃ use, (use, x) ∈ uses node ∧ x ∉ params) ∨
    ∃ c ∈ scopedChildren binds node, Free binds (c.1 ++ params) c.2 x := by
  constructor
  · rintro ⟨use, inner, inLambda, hoccurs, hx⟩
    cases hoccurs with
    | here h => exact .inl ⟨use, h, hx⟩
    | inside hc h => exact .inr ⟨_, hc, use, _, _, h, by simpa using hx⟩
  · rintro (⟨use, h, hx⟩ | ⟨c, hc, use, inner, inLambda, h, hx⟩)
    · exact ⟨use, [], false, .here h, hx⟩
    · exact ⟨use, _, _, .inside hc h, by simpa using hx⟩

theorem assigned_of_occurs {inner : List String} {inLambda : Bool}
    (hoccurs : Occurs binds node .write x inner inLambda) (hflag : inLambda = false)
    (hx : x ∉ inner ++ params) :
    ((Use.write, x) ∈ uses node ∧ x ∉ params) ∨
      isLambda node = false ∧ ∃ c ∈ scopedChildren binds node, Assigned binds (c.1 ++ params) c.2 x := by
  cases hoccurs with
  | here h => exact .inl ⟨h, hx⟩
  | inside hc h =>
    obtain ⟨hnode, hchild⟩ := Bool.or_eq_false_iff.mp hflag
    rw [hchild] at h
    exact .inr ⟨hnode, _, hc, _, h, by simpa using hx⟩

theorem assigned_iff : Assigned binds params node x ↔ ((Use.write, x) ∈ uses node ∧ x ∉ params) ∨
    isLambda node = false ∧ ∃ c ∈ scopedChildren binds node, Assigned binds (c.1 ++ params) c.2 x := by
  constructor
  · rintro ⟨inner, hoccurs, hx⟩
    exact assigned_of_occurs hoccurs rfl hx
  · rintro (⟨h, hx⟩ | ⟨hnode, c, hc, inner, h, hx⟩)
    · exact ⟨[], .here h, hx⟩
    · have hinside := Occurs.inside hc h
      rw [hnode, Bool.false_or] at hinside
      exact ⟨_, hinside, by simpa using hx⟩

theorem contains_iff {test : AstNode → Bool} : Contains test node ↔ test node = true ∨
    ∃ c ∈ scopedChildren patternVariables node, Contains test c.2 := by
  constructor
  · rintro (h | ⟨hc, h⟩)
    · exact .inl h
    · exact .inr ⟨_, hc, h⟩
  · rintro (h | ⟨c, hc, h⟩)
    · exact .here h
    · exact .inside hc h

theorem mem_names_ownRefs : x ∈ (ownRefs params node).names ↔
    (∃ use, (use, x) ∈ uses node ∧ x ∉ params) ∨ x = "this" ∧ isThis node = true := by
  by_cases h : isThis node = true <;> simp [ownRefs, h]

theorem mem_assignedNames_ownRefs :
    x ∈ (ownRefs params node).assignedNames ↔ (Use.write, x) ∈ uses node ∧ x ∉ params := by
  simp [ownRefs]

theorem mem_names_collectScoped :
    x ∈ (collectScoped params parts).names ↔ ∃ c ∈ parts, x ∈ (collectRefs (c.1 ++ params) c.2).names := by
  simp only [collectScoped, mem_names_mergeAll, List.mem_map]
  exact ⟨fun ⟨_, ⟨c, hc, hr⟩, hx⟩ => ⟨c, hc, hr ▸ hx⟩, fun ⟨c, hc, hx⟩ => ⟨_, ⟨c, hc, rfl⟩, hx⟩⟩

theorem mem_assignedNames_collectScoped :
    x ∈ (collectScoped params parts).assignedNames ↔
      ∃ c ∈ parts, x ∈ (collectRefs (c.1 ++ params) c.2).assignedNames := by
  simp only [collectScoped, mem_assignedNames_mergeAll, List.mem_map]
  exact ⟨fun ⟨_, ⟨c, hc, hr⟩, hx⟩ => ⟨c, hc, hr ▸ hx⟩, fun ⟨c, hc, hx⟩ => ⟨_, ⟨c, hc, rfl⟩, hx⟩⟩

theorem usesThis_collectScoped :
    (collectScoped params parts).usesThis = true ↔
      ∃ c ∈ parts, (collectRefs (c.1 ++ params) c.2).usesThis = true := by
  simp only [collectScoped, usesThis_mergeAll, List.mem_map]
  exact ⟨fun ⟨_, ⟨c, hc, hr⟩, hx⟩ => ⟨c, hc, hr ▸ hx⟩, fun ⟨c, hc, hx⟩ => ⟨_, ⟨c, hc, rfl⟩, hx⟩⟩

/-- A lambda hands on the names and the receiver of its body, but not what the body assigns. -/
theorem collectRefs_lambda (hlambda : isLambda node = true) :
    (collectRefs params node).names =
      (ownRefs params node ++ collectScoped params (scopedChildren collectPatternBindings node)).names ∧
    (collectRefs params node).assignedNames = [] ∧
    (collectRefs params node).usesThis =
      (ownRefs params node ++ collectScoped params
        (scopedChildren collectPatternBindings node)).usesThis := by
  cases node with
  | LambdaExpr line lambdaParams isAsync hasExprBody body declared =>
    simp [collectRefs, ownRefs, uses, isThis, scopedChildren]
  | _ => exact nomatch hlambda

theorem mem_names_collectRefs : x ∈ (collectRefs params node).names ↔
    (∃ use, (use, x) ∈ uses node ∧ x ∉ params) ∨ (x = "this" ∧ isThis node = true) ∨
      ∃ c ∈ scopedChildren collectPatternBindings node, x ∈ (collectRefs (c.1 ++ params) c.2).names := by
  have heq : (collectRefs params node).names =
      (ownRefs params node ++ collectScoped params (scopedChildren collectPatternBindings node)).names := by
    cases hlambda : isLambda node
    · rw [collectRefs_eq hlambda]
    · exact (collectRefs_lambda hlambda).1
  rw [heq, LambdaCaptureRefs.names_append, List.mem_append, mem_names_ownRefs,
    mem_names_collectScoped, or_assoc]

theorem usesThis_collectRefs : (collectRefs params node).usesThis = true ↔ isThis node = true ∨
    ∃ c ∈ scopedChildren collectPatternBindings node, (collectRefs (c.1 ++ params) c.2).usesThis = true := by
  have heq : (collectRefs params node).usesThis =
      (ownRefs params node ++ collectScoped params
        (scopedChildren collectPatternBindings node)).usesThis := by
    cases hlambda : isLambda node
    · rw [collectRefs_eq hlambda]
    · exact (collectRefs_lambda hlambda).2.2
  rw [heq, LambdaCaptureRefs.usesThis_append, Bool.or_eq_true, usesThis_collectScoped]
  rfl

theorem mem_assignedNames_collectRefs : x ∈ (collectRefs params node).assignedNames ↔
    ((Use.write, x) ∈ uses node ∧ x ∉ params) ∨ isLambda node = false ∧
      ∃ c ∈ scopedChildren collectPatternBindings node,
        x ∈ (collectRefs (c.1 ++ params) c.2).assignedNames := by
  cases hlambda : isLambda node
  · rw [collectRefs_eq hlambda, LambdaCaptureRefs.assignedNames_append, List.mem_append,
      mem_assignedNames_ownRefs, mem_assignedNames_collectScoped]
    simp
  · rw [(collectRefs_lambda hlambda).2.1]
    cases node with
    | LambdaExpr => simp [uses]
    | _ => exact nomatch hlambda

theorem scopedArm_binds (binds' : Pattern → List String) {arm : Arm AstNode} {c : List String × AstNode}
    (hc : c ∈ scopedArm binds arm) :
    c.1 = binds arm.pattern ∧ (binds' arm.pattern, c.2) ∈ scopedArm binds' arm := by
  obtain ⟨child, hchild, rfl⟩ := List.mem_map.mp hc
  exact ⟨rfl, List.mem_map.mpr ⟨child, hchild, rfl⟩⟩

/-- With other variables for the patterns the nodes in a node are the same, and what is declared
    between differs in an arm only. -/
theorem scopedChildren_binds (binds' : Pattern → List String) {c : List String × AstNode}
    (hc : c ∈ scopedChildren binds node) : ∃ declared, (declared, c.2) ∈ scopedChildren binds' node ∧
      (declared = c.1 ∨ ∃ pattern, c.1 = binds pattern ∧ declared = binds' pattern) := by
  cases node with
  | MatchExpr line subject arms =>
    rcases List.mem_cons.mp hc with rfl | hc
    · exact ⟨[], List.mem_cons_self, .inl rfl⟩
    · obtain ⟨arm, harm, hc⟩ := List.mem_flatMap.mp hc
      obtain ⟨hnames, hc'⟩ := scopedArm_binds binds' hc
      refine ⟨_, List.mem_cons_of_mem _ (List.mem_flatMap.mpr ⟨arm, harm, hc'⟩), .inr ⟨_, hnames, rfl⟩⟩
  | _ => exact ⟨c.1, hc, .inl rfl⟩

/-- A use as it stands with other variables for the patterns, where these do not declare a name that
    the first do not. -/
theorem Occurs.rebind {use : Use} {inner : List String} {inLambda : Bool} {y : String}
    (hy : ∀ pattern, y ∈ binds' pattern → y ∈ binds pattern) (h : Occurs binds node use x inner inLambda) :
    ∃ inner', Occurs binds' node use x inner' inLambda ∧ (y ∈ inner' → y ∈ inner) := by
  induction h with
  | here h => exact ⟨[], .here h, id⟩
  | inside hc _ ih =>
    obtain ⟨inner', hoccurs, hinner⟩ := ih
    obtain ⟨declared, hc', hdeclared⟩ := scopedChildren_binds binds' hc
    refine ⟨_, .inside hc' hoccurs, fun hmem => ?_⟩
    rw [List.mem_append] at hmem ⊢
    refine hmem.imp hinner fun hmem => ?_
    rcases hdeclared with rfl | ⟨pattern, hnames, rfl⟩
    · exact hmem
    · exact hnames ▸ hy pattern hmem

theorem Free.rebind (hx : ∀ pattern, x ∈ binds' pattern → x ∈ binds pattern)
    (h : Free binds params node x) : Free binds' params node x := by
  obtain ⟨use, inner, inLambda, hoccurs, hout⟩ := h
  obtain ⟨inner', hoccurs', hinner⟩ := hoccurs.rebind hx
  refine ⟨use, inner', inLambda, hoccurs', fun hmem => hout ?_⟩
  rw [List.mem_append] at hmem ⊢
  exact hmem.imp_left hinner

theorem Assigned.rebind (hx : ∀ pattern, x ∈ binds' pattern → x ∈ binds pattern)
    (h : Assigned binds params node x) :
    Assigned binds' params node x := by
  obtain ⟨inner, hoccurs, hout⟩ := h
  obtain ⟨inner', hoccurs', hinner⟩ := hoccurs.rebind hx
  refine ⟨inner', hoccurs', fun hmem => hout ?_⟩
  rw [List.mem_append] at hmem ⊢
  exact hmem.imp_left hinner

theorem contains_children {test : AstNode → Bool} (binds : Pattern → List String) :
    (∃ c ∈ scopedChildren binds node, Contains test c.2) ↔
      ∃ c ∈ scopedChildren patternVariables node, Contains test c.2 := by
  constructor
  · rintro ⟨c, hc, h⟩
    obtain ⟨_, hc', -⟩ := scopedChildren_binds patternVariables hc
    exact ⟨_, hc', h⟩
  · rintro ⟨c, hc, h⟩
    obtain ⟨_, hc', -⟩ := scopedChildren_binds binds hc
    exact ⟨_, hc', h⟩

end

/-- The walk records the names that refer to the outside where `_` counts as a variable of a pattern,
    and `this` where it is written out. -/
theorem mem_names_iff (node : AstNode) (params : List String) (x : String) :
    x ∈ (collectRefs params node).names ↔
      Free collectPatternBindings params node x ∨ x = "this" ∧ Contains isThis node := by
  induction node using scoped_induction generalizing params with
  | h node ih =>
    have hchildren : (∃ c ∈ scopedChildren collectPatternBindings node,
        x ∈ (collectRefs (c.1 ++ params) c.2).names) ↔
        (∃ c ∈ scopedChildren collectPatternBindings node,
          Free collectPatternBindings (c.1 ++ params) c.2 x) ∨
          x = "this" ∧ ∃ c ∈ scopedChildren collectPatternBindings node, Contains isThis c.2 := by
      constructor
      · rintro ⟨c, hc, hx⟩
        exact ((ih c hc _).mp hx).imp (fun h => ⟨c, hc, h⟩) fun h => ⟨h.1, c, hc, h.2⟩
      · rintro (⟨c, hc, h⟩ | ⟨hx, c, hc, h⟩)
        · exact ⟨c, hc, (ih c hc _).mpr (.inl h)⟩
        · exact ⟨c, hc, (ih c hc _).mpr (.inr ⟨hx, h⟩)⟩
    rw [mem_names_collectRefs, hchildren, free_iff, contains_iff, contains_children, and_or_left, or_assoc]
    exact or_congr_right or_left_comm

theorem usesThis_iff (node : AstNode) (params : List String) :
    (collectRefs params node).usesThis = true ↔ Contains isThis node := by
  induction node using scoped_induction generalizing params with
  | h node ih =>
    rw [usesThis_collectRefs, contains_iff, ← contains_children collectPatternBindings]
    exact or_congr_right (exists_congr fun c => and_congr_right fun hc => ih c hc _)

theorem mem_assignedNames_iff (node : AstNode) (params : List String) (x : String) :
    x ∈ (collectRefs params node).assignedNames ↔ Assigned collectPatternBindings params node x := by
  induction node using scoped_induction generalizing params with
  | h node ih =>
    rw [mem_assignedNames_collectRefs, assigned_iff]
    exact or_congr_right (and_congr_right fun _ => exists_congr fun c => and_congr_right fun hc => ih c hc _)

/-- An evaluation of a node looks up a variable where some are in scope. The variables of the scope
    are those declared so far; making a closure looks up what the closure captures. -/
inductive LooksUp : AstNode → List String → String → List String → Prop where
  | variable {node use x scope} (h : (use, x) ∈ uses node) : LooksUp node scope x scope
  | receiver {node scope} (h : needsReceiver node = true) : LooksUp node scope "this" scope
  | closure {line params isAsync hasExprBody body declared x scope}
      (h : x ∈ (collectLambdaCaptureRefs body (params.map (·.name))).names) :
      LooksUp (.LambdaExpr line params isAsync hasExprBody body declared) scope x scope
  | inside {node x scope now} {c : List String × AstNode} (hlambda : isLambda node = false)
      (hc : c ∈ scopedChildren patternVariables node) (h : LooksUp c.2 (c.1 ++ scope) x now) :
      LooksUp node scope x now

/-- The captures of a lambda with this body and these parameters are what its uses require. -/
structure CapturesExactly (body : AstNode) (params : List String) : Prop where
  names : ∀ x, x ∈ (collectLambdaCaptureRefs body params).names ↔
    Free patternVariables params body x ∨ x = "this" ∧ Contains needsReceiver body
  receiver : (collectLambdaCaptureRefs body params).usesThis = true ↔ Contains needsReceiver body
  assigned : ∀ x, x ∈ (collectLambdaCaptureRefs body params).assignedNames ↔
    Assigned patternVariables params body x
  evaluation : ∀ x now, LooksUp body params x now → x ∈ now ∨ x ∈ (collectLambdaCaptureRefs body params).names

/-- Where the receiver is needed, `this` is written out; and where an outside `_` is used, or assigned,
    it is also where no pattern has that name. -/
structure WrittenOut (body : AstNode) (params : List String) : Prop where
  receiver : Contains needsReceiver body → Contains isThis body
  blank : Free patternVariables params body "_" → Free collectPatternBindings params body "_"
  blankAssigned : Assigned patternVariables params body "_" → Assigned collectPatternBindings params body "_"

section
variable {body node : AstNode} {params : List String} {x : String}

theorem mem_patternVariables {pattern : Pattern} :
    x ∈ patternVariables pattern ↔ x ∈ collectPatternBindings pattern ∧ x ≠ "_" := by
  simp [patternVariables]

theorem needsReceiver_of_isThis (h : isThis node = true) : needsReceiver node = true := by
  cases node with
  | ThisExpr => rfl
  | _ => exact nomatch h

theorem Contains.mono {test test' : AstNode → Bool} (htest : ∀ node, test node = true → test' node = true)
    (h : Contains test node) : Contains test' node := by
  induction h with
  | here h => exact .here (htest _ h)
  | inside hc _ ih => exact .inside hc ih

theorem free_patternVariables (h : Free collectPatternBindings params node x) :
    Free patternVariables params node x :=
  h.rebind fun _ hx => (mem_patternVariables.mp hx).1

theorem WrittenOut.free_iff (h : WrittenOut body params) :
    Free collectPatternBindings params body x ↔ Free patternVariables params body x := by
  refine ⟨free_patternVariables, fun hfree => ?_⟩
  by_cases hx : x = "_"
  · subst hx
    exact h.blank hfree
  · exact hfree.rebind fun _ hmem => mem_patternVariables.mpr ⟨hmem, hx⟩

theorem WrittenOut.assigned_iff (h : WrittenOut body params) :
    Assigned collectPatternBindings params body x ↔ Assigned patternVariables params body x := by
  refine ⟨fun hassigned => hassigned.rebind fun _ hx => (mem_patternVariables.mp hx).1, fun hassigned => ?_⟩
  by_cases hx : x = "_"
  · subst hx
    exact h.blankAssigned hassigned
  · exact hassigned.rebind fun _ hmem => mem_patternVariables.mpr ⟨hmem, hx⟩

theorem WrittenOut.contains_iff (h : WrittenOut body params) :
    Contains isThis body ↔ Contains needsReceiver body :=
  ⟨Contains.mono fun _ => needsReceiver_of_isThis, h.receiver⟩

theorem LooksUp.free {scope now : List String} (h : LooksUp node scope x now) (hx : x ∉ now) :
    Free patternVariables scope node x ∨ x = "this" ∧ Contains needsReceiver node := by
  induction h with
  | «variable» huse => exact .inl (zl.compiler.free_iff.mpr (.inl ⟨_, huse, hx⟩))
  | receiver h => exact .inr ⟨rfl, .here h⟩
  | closure h =>
    rcases (mem_names_iff _ _ _).mp h with hfree | ⟨hthis, hcontains⟩
    · obtain ⟨use, inner, inLambda, hoccurs, hout⟩ := free_patternVariables hfree
      refine .inl ⟨use, _, _, .inside List.mem_cons_self hoccurs, ?_⟩
      simp only [List.mem_append, not_or] at hout ⊢
      exact ⟨hout, hx⟩
    · exact .inr ⟨hthis, .inside List.mem_cons_self (hcontains.mono fun _ => needsReceiver_of_isThis)⟩
  | inside hlambda hc _ ih =>
    exact (ih hx).imp (fun hfree => zl.compiler.free_iff.mpr (.inr ⟨_, hc, hfree⟩)) fun h =>
      ⟨h.1, .inside hc h.2⟩

theorem WrittenOut.capturesExactly (h : WrittenOut body params) : CapturesExactly body params := by
  have hnames : ∀ x, x ∈ (collectLambdaCaptureRefs body params).names ↔
      Free patternVariables params body x ∨ x = "this" ∧ Contains needsReceiver body := by
    intro x
    rw [collectLambdaCaptureRefs, mem_names_iff, h.free_iff, h.contains_iff]
  refine ⟨hnames, ?_, ?_, ?_⟩
  · rw [collectLambdaCaptureRefs, usesThis_iff, h.contains_iff]
  · intro x
    rw [collectLambdaCaptureRefs, mem_assignedNames_iff, h.assigned_iff]
  · intro x now hlooks
    by_cases hx : x ∈ now
    · exact .inl hx
    · exact .inr ((hnames x).mpr (hlooks.free hx))

theorem CapturesExactly.writtenOut (h : CapturesExactly body params) : WrittenOut body params where
  receiver hneeds := (usesThis_iff body params).mp (h.receiver.mpr hneeds)
  blank hfree := by
    have hmem := (h.names "_").mpr (.inl hfree)
    rw [collectLambdaCaptureRefs, mem_names_iff] at hmem
    exact hmem.resolve_right fun hthis => absurd hthis.1 (by decide)
  blankAssigned hassigned := by
    have hmem := (h.assigned "_").mpr hassigned
    rwa [collectLambdaCaptureRefs, mem_assignedNames_iff] at hmem

end

/-- A lambda captures exactly the outside names that its body uses, and the receiver if it needs it, when
    the receiver is written out and no outside `_` is used where a pattern has that name. Otherwise one
    of them is missing. -/
theorem captures_exact_iff (body : AstNode) (params : List String) :
    CapturesExactly body params ↔ WrittenOut body params :=
  ⟨CapturesExactly.writtenOut, WrittenOut.capturesExactly⟩

/-- A lambda that calls a method of the parent does not capture the receiver, and one that uses an
    outside `_` where a pattern has that name does not capture it. -/
theorem captures_inexact :
    ¬ CapturesExactly (.SuperMethodCallExpr 1 "greet" [] []) [] ∧
    ¬ CapturesExactly (.MatchExpr 1 (.Identifier 1 "box")
      [⟨{ kind := .Type, typePattern := { name := "Box" }, bindingName := "_" }, none,
        .Identifier 2 "_", 2⟩]) [] := by
  constructor
  · intro h
    have hneeds := h.receiver.mpr (.here rfl)
    exact nomatch hneeds
  · intro h
    have hmem := (h.names "_").mpr (.inl ⟨.read, _, _, .inside
      (c := (patternVariables { kind := .Type, typePattern := { name := "Box" }, bindingName := "_" },
        .Identifier 2 "_"))
      (by simp [scopedChildren, scopedArm]) (.here (by simp [uses])), by decide⟩)
    exact absurd hmem (by decide)

end zl.compiler
