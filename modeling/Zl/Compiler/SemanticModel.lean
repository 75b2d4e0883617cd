import Mathlib.Data.List.Basic

namespace zl.compiler

inductive ZlType where
  | INT | DOUBLE | STRING | BOOL | VOID_TYPE | NIL | LIST | MAP | SET | ARRAY | OBJECT | FUNCTION | TASK
  | UNKNOWN | UNION
  deriving DecidableEq, Repr

def zlTypeName : ZlType → String
  | .INT => "int"
  | .DOUBLE => "double"
  | .STRING => "string"
  | .BOOL => "bool"
  | .VOID_TYPE => "void"
  | .NIL => "nil"
  | .LIST => "list"
  | .MAP => "map"
  | .SET => "set"
  | .ARRAY => "array"
  | .OBJECT => "object"
  | .FUNCTION => "func"
  | .TASK => "Task"
  | .UNKNOWN => "unknown"
  | .UNION => "union"

/-- A method as the checker knows it: each parameter has a kind, for some kinds the name of the
    class or of the instantiated type, and whether it is one of the type parameters in scope. -/
structure ClassMethodInfo where
  paramTypes : List ZlType
  paramClassNames : List String
  paramIsGeneric : List Bool
  isStatic : Bool := false
  deriving DecidableEq, Repr

namespace ClassMethodInfo

def paramType (method : ClassMethodInfo) (i : Nat) : ZlType := method.paramTypes.getD i .UNKNOWN

/-- The class name of a parameter, empty where there is none. -/
def paramClass (method : ClassMethodInfo) (i : Nat) : String := method.paramClassNames.getD i ""

end ClassMethodInfo

def paramSignature (method : ClassMethodInfo) (i : Nat) : String :=
  if method.paramIsGeneric.getD i false then "<generic:" ++ method.paramClassNames.getD i "?" ++ ">"
  else if method.paramType i = .OBJECT ∧ method.paramClass i ≠ "" then "object:" ++ method.paramClass i
  else zlTypeName (method.paramType i)

/-- `TypeChecker::methodParamSignature`, and `methodParamSignatureKey` of the semantic model. -/
def methodParamSignature (method : ClassMethodInfo) : String :=
  "(" ++ ",".intercalate ((List.range method.paramTypes.length).map (paramSignature method)) ++ ")"

/-- The text of a `TypeCheckError`. -/
def typeError (message : String) (line : Nat) : String := s!"type error (line {line}): " ++ message

end zl.compiler
