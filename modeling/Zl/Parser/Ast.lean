import Zl.Ir.Function
import Zl.Lexer.Lexer

open zl.lexer (TokenType)

namespace zl.parser

/-- A type as it is written. A union has members and no name; a function type has parameters and a
    result, unless it is written as a bare `func`. -/
structure TypeAnnotation where
  name : String := ""
  fixedSize : Option Nat := none
  typeArgs : List TypeAnnotation := []
  unionOf : List TypeAnnotation := []
  functionParamTypes : List TypeAnnotation := []
  functionReturnType : Option TypeAnnotation := none
  functionHasSignature : Bool := false
  line : Nat := 0

structure Param where
  name : String := ""
  type : TypeAnnotation := {}
  ownership : ir.OwnershipKind := .gc

inductive PatternKind where
  | Literal | EnumMember | Wildcard | Type | Variable | Data | List | Map
  deriving DecidableEq, Repr

structure DataFieldPattern (Pattern : Type) where
  fieldName : String := ""
  pattern : Pattern
  line : Nat

structure MapEntryPattern (Pattern : Type) where
  key : Pattern
  value : Pattern
  line : Nat

structure Pattern where
  kind : PatternKind := .Wildcard
  raw : String := ""
  literalType : TokenType := .UNKNOWN
  enumTypeName : String := ""
  enumMemberName : String := ""
  typePattern : TypeAnnotation := {}
  bindingName : String := ""
  fields : List (DataFieldPattern Pattern) := []
  elements : List Pattern := []
  mapEntries : List (MapEntryPattern Pattern) := []
  containerKind : String := ""
  positional : Bool := false
  line : Nat := 0

/-- An arm of a match: the parts of its pattern, an optional guard and a result. -/
structure Arm (Node : Type) where
  pattern : Pattern
  guard : Option Node
  result : Node
  line : Nat

structure CatchClause (Node : Type) where
  varName : String
  type : Option TypeAnnotation
  block : Node
  line : Nat

structure Branch (Node : Type) where
  condition : Node
  body : Node

/-- The nodes of statements and expressions. -/
inductive AstNode where
  | Literal (line : Nat) (literalType : TokenType) (raw : String)
  | Identifier (line : Nat) (name : String)
  | UnaryExpr (line : Nat) (op : TokenType) (operand : AstNode)
  | AwaitExpr (line : Nat) (operand : AstNode)
  | BinaryExpr (line : Nat) (op : TokenType) (left right : AstNode)
  | CallExpr (line : Nat) (namespaceName calleeName : String) (typeArgs : List TypeAnnotation)
      (arguments : List AstNode)
  | AssignExpr (line : Nat) (name : String) (value : AstNode)
  | MoveExpr (line : Nat) (name : String)
  | CollectionLiteral (line : Nat) (isMap bracketSyntax : Bool) (elements : List AstNode)
      (entries : List (AstNode × AstNode))
  | NewExpr (line : Nat) (className : String) (typeArgs : List TypeAnnotation) (arguments : List AstNode)
  | FieldAccessExpr (line : Nat) (object : AstNode) (fieldName : String)
  | IndexAccessExpr (line : Nat) (object index : AstNode)
  | FieldAssignExpr (line : Nat) (object : AstNode) (fieldName : String) (value : AstNode)
  | MethodCallExpr (line : Nat) (object : AstNode) (methodName : String) (typeArgs : List TypeAnnotation)
      (arguments : List AstNode)
  | ThisExpr (line : Nat)
  | SuperCallExpr (line : Nat) (arguments : List AstNode)
  | SuperMethodCallExpr (line : Nat) (methodName : String) (typeArgs : List TypeAnnotation)
      (arguments : List AstNode)
  | DataLiteralExpr (line : Nat) (typeName : String) (fields : List (String × AstNode))
  | DataUpdateExpr (line : Nat) (base : AstNode) (fields : List (String × AstNode))
  | LambdaExpr (line : Nat) (params : List Param) (isAsync hasExprBody : Bool) (body : AstNode)
      (declaredReturnType : Option TypeAnnotation)
  | MatchExpr (line : Nat) (subject : AstNode) (arms : List (Arm AstNode))
  | LogExpr (line : Nat) (argument : AstNode)
  | BlockStmt (statements : List AstNode)
  | VarDecl (line : Nat) (isConst : Bool) (type : Option TypeAnnotation) (ownership : ir.OwnershipKind)
      (name : String) (initializer : Option AstNode)
  | LogStmt (line : Nat) (argument : AstNode)
  | IfStmt (line : Nat) (branches : List (Branch AstNode)) (elseBody : Option AstNode)
  | ReturnStmt (line : Nat) (value : Option AstNode)
  | ForStmt (line : Nat) (varName : String) (start stop step body : AstNode)
  | WhileStmt (line : Nat) (condition body : AstNode)
  | RepeatStmt (line : Nat) (body condition : AstNode)
  | BreakStmt (line : Nat)
  | ContinueStmt (line : Nat)
  | TryStmt (line : Nat) (tryBlock : AstNode) (catches : List (CatchClause AstNode))
      (finallyBlock : Option AstNode)
  | ThrowStmt (line : Nat) (value : AstNode)
  | ExprStmt (expression : AstNode)

end zl.parser
