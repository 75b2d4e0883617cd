import Mathlib.Data.List.Basic

namespace zl.lexer

inductive TokenType where
  | INT_LITERAL | DECIMAL_LITERAL | FLOAT_LITERAL | STRING_LITERAL | REGEX_LITERAL | BOOL_LITERAL | IDENTIFIER
  | KW_VAR | KW_LET | KW_DATA | KW_ENUM | KW_IMPORT | KW_FUNC | KW_ASYNC | KW_AWAIT | KW_OPERATOR | KW_RETURN
  | KW_CLASS | KW_STATIC | KW_PUBLIC | KW_PRIVATE | KW_PROTECTED | KW_NEW | KW_THIS | KW_EXTENDS | KW_WITH
  | KW_IMPLEMENTS | KW_INTERFACE | KW_SUPER | KW_VOID | KW_ARRAY | KW_LIST | KW_SET | KW_MAP | KW_GC
  | KW_OWNED
  | KW_BORROW | KW_SHARED | KW_MOVE | KW_IF | KW_ELSE | KW_ELSEIF | KW_FOR | KW_IN | KW_STEP | KW_REPEAT
  | KW_WHILE | KW_BREAK | KW_CONTINUE | KW_TRY | KW_CATCH | KW_THROW | KW_FINALLY | KW_MATCH | KW_TRUE
  | KW_FALSE
  | KW_NULL | KW_LOG
  | LBRACE | RBRACE | LPAREN | RPAREN | LBRACKET | RBRACKET | SEMICOLON | COLON | COMMA | DOT | DOT_DOT | AT
  | PLUS | MINUS | STAR | SLASH | PERCENT | POW | BIT_AND | BIT_OR | BIT_XOR | BIT_NOT | SHL | SHR | USHR
  | ASSIGN | FAT_ARROW | EQ | NEQ | LT | GT | LTE | GTE | AND | OR | NOT
  | END_OF_FILE | UNKNOWN
  deriving DecidableEq, Repr

/-- A token with the line and the column where it starts. -/
structure Token where
  type : TokenType := .UNKNOWN
  lexeme : String := ""
  line : Nat := 1
  column : Nat := 1
  deriving DecidableEq, Repr

def keywords : List (String × TokenType) :=
  [("var", .KW_VAR), ("let", .KW_LET), ("data", .KW_DATA), ("enum", .KW_ENUM), ("import", .KW_IMPORT),
   ("func", .KW_FUNC), ("async", .KW_ASYNC), ("await", .KW_AWAIT), ("operator", .KW_OPERATOR),
   ("return", .KW_RETURN), ("class", .KW_CLASS), ("static", .KW_STATIC), ("public", .KW_PUBLIC),
   ("private", .KW_PRIVATE), ("protected", .KW_PROTECTED), ("new", .KW_NEW), ("this", .KW_THIS),
   ("extends", .KW_EXTENDS), ("with", .KW_WITH), ("implements", .KW_IMPLEMENTS),
   ("interface", .KW_INTERFACE), ("super", .KW_SUPER), ("void", .KW_VOID), ("array", .KW_ARRAY),
   ("list", .KW_LIST), ("set", .KW_SET), ("map", .KW_MAP), ("gc", .KW_GC), ("owned", .KW_OWNED),
   ("borrow", .KW_BORROW), ("shared", .KW_SHARED), ("move", .KW_MOVE), ("if", .KW_IF), ("else", .KW_ELSE),
   ("elif", .KW_ELSEIF), ("for", .KW_FOR), ("in", .KW_IN), ("step", .KW_STEP), ("repeat", .KW_REPEAT),
   ("while", .KW_WHILE), ("break", .KW_BREAK), ("continue", .KW_CONTINUE), ("try", .KW_TRY),
   ("catch", .KW_CATCH), ("throw", .KW_THROW), ("finally", .KW_FINALLY), ("match", .KW_MATCH),
   ("true", .KW_TRUE), ("false", .KW_FALSE), ("null", .KW_NULL), ("log", .KW_LOG)]

/-- The text ahead and where it stands. A character is a byte of the source. -/
structure Cursor where
  rest : List Char
  pos : Nat := 0
  line : Nat := 1
  column : Nat := 1
  deriving DecidableEq, Repr

def Cursor.advance : Cursor → Cursor
  | ⟨[], pos, line, column⟩ => ⟨[], pos, line, column⟩
  | ⟨c :: rest, pos, line, column⟩ =>
    if c = '\n' then ⟨rest, pos + 1, line + 1, 1⟩ else ⟨rest, pos + 1, line, column + 1⟩

def Cursor.advanceBy (cursor : Cursor) : Nat → Cursor
  | 0 => cursor
  | n + 1 => cursor.advance.advanceBy n

def isWhitespace (c : Char) : Bool := c = ' ' || c = '\t' || c = '\r' || c = '\n'

/-- The number of characters of whitespace and comments ahead, from within a comment or not. -/
def skipWhitespaceAndComments (inComment : Bool) : List Char → Nat
  | [] => 0
  | c :: rest =>
    if isWhitespace c && (!inComment || c = '\n') then skipWhitespaceAndComments false rest + 1
    else if inComment || c = '/' && rest.head? = some '/' then skipWhitespaceAndComments true rest + 1
    else 0

/-- A token without its place, and the number of characters that it takes. -/
structure Scan where
  type : TokenType
  lexeme : List Char
  length : Nat
  deriving DecidableEq, Repr

def makeToken (type : TokenType) (lexeme : List Char) : Scan := ⟨type, lexeme, lexeme.length⟩

def scanNumber (text : List Char) : Scan :=
  match text with
  | '.' :: rest => makeToken .FLOAT_LITERAL ('.' :: rest.takeWhile Char.isDigit)
  | _ =>
    let whole := text.takeWhile Char.isDigit
    match text.dropWhile Char.isDigit with
    | '.' :: rest =>
      if rest.head?.any Char.isDigit then
        makeToken .FLOAT_LITERAL (whole ++ '.' :: rest.takeWhile Char.isDigit)
      else makeToken .INT_LITERAL whole
    | _ => makeToken .INT_LITERAL whole

def unescape : Char → Char
  | 'n' => '\n'
  | 't' => '\t'
  | 'r' => '\r'
  | '0' => '\x00'
  | c => c

/-- What a string literal stands for and the number of its characters, after the opening quote. -/
def scanStringBody : List Char → Option (List Char × Nat)
  | [] => none
  | '"' :: _ => some ([], 1)
  | '\\' :: escaped :: rest => (scanStringBody rest).map fun (text, n) =>
      (unescape escaped :: text, n + 2)
  | c :: rest => (scanStringBody rest).map fun (text, n) => (c :: text, n + 1)

def scanString (rest : List Char) : Except String Scan :=
  match scanStringBody rest with
  | some (text, n) => .ok ⟨.STRING_LITERAL, text, n + 1⟩
  | none => .error "Unterminated string literal"

/-- A pattern and the number of its characters, after the opening `#`. Whitespace and comments are
    not part of the pattern. -/
def scanRegexBody (inComment : Bool) : List Char → Option (List Char × Nat)
  | [] => none
  | c :: rest =>
    if inComment && c ≠ '\n' then (scanRegexBody true rest).map fun (pattern, n) => (pattern, n + 1)
    else if c = '#' then some ([], 1)
    else if c = '\\' then
      match rest with
      | [] => none
      | escaped :: rest => (scanRegexBody false rest).map fun (pattern, n) =>
          (c :: escaped :: pattern, n + 2)
    else if c = '/' && rest.head? = some '/' then
      (scanRegexBody true rest).map fun (pattern, n) => (pattern, n + 1)
    else if isWhitespace c then (scanRegexBody false rest).map fun (pattern, n) => (pattern, n + 1)
    else (scanRegexBody false rest).map fun (pattern, n) => (c :: pattern, n + 1)

def scanRegexLiteral (rest : List Char) : Except String Scan :=
  match scanRegexBody false rest with
  | some (pattern, n) => .ok ⟨.REGEX_LITERAL, pattern, n + 1⟩
  | none => .error "Unterminated regex literal"

def isWordStart (c : Char) : Bool := c.isAlpha || c = '_'

def isWordChar (c : Char) : Bool := c.isAlphanum || c = '_'

def wordType (text : List Char) : TokenType := (keywords.lookup (String.ofList text)).getD .IDENTIFIER

def scanIdentifierOrKeyword (text : List Char) : Scan :=
  let word := text.takeWhile isWordChar
  makeToken (wordType word) word

def scanSymbol (c : Char) (rest : List Char) : Scan :=
  match c with
  | '(' => makeToken .LPAREN ['(']
  | ')' => makeToken .RPAREN [')']
  | '{' => makeToken .LBRACE ['{']
  | '}' => makeToken .RBRACE ['}']
  | ',' => makeToken .COMMA [',']
  | '+' => makeToken .PLUS ['+']
  | '-' => makeToken .MINUS ['-']
  | '*' => makeToken .STAR ['*']
  | '/' => makeToken .SLASH ['/']
  | '%' => makeToken .PERCENT ['%']
  | '^' => if rest.head? = some '^' then makeToken .POW ['^', '^'] else makeToken .BIT_XOR ['^']
  | '[' => makeToken .LBRACKET ['[']
  | ']' => makeToken .RBRACKET [']']
  | ';' => makeToken .SEMICOLON [';']
  | ':' => makeToken .COLON [':']
  | '@' => makeToken .AT ['@']
  | '&' => if rest.head? = some '&' then makeToken .AND ['&', '&'] else makeToken .BIT_AND ['&']
  | '|' => if rest.head? = some '|' then makeToken .OR ['|', '|'] else makeToken .BIT_OR ['|']
  | '~' => makeToken .BIT_NOT ['~']
  | '.' => if rest.head? = some '.' then makeToken .DOT_DOT ['.', '.'] else makeToken .DOT ['.']
  | '=' =>
    if rest.head? = some '=' then makeToken .EQ ['=', '=']
    else if rest.head? = some '>' then makeToken .FAT_ARROW ['=', '>']
    else makeToken .ASSIGN ['=']
  | '!' => if rest.head? = some '=' then makeToken .NEQ ['!', '='] else makeToken .NOT ['!']
  | '<' =>
    if rest.head? = some '<' then makeToken .SHL ['<', '<']
    else if rest.head? = some '=' then makeToken .LTE ['<', '=']
    else makeToken .LT ['<']
  | '>' =>
    if rest.head? = some '>' then
      if rest.tail.head? = some '>' then makeToken .USHR ['>', '>', '>'] else makeToken .SHR ['>', '>']
    else if rest.head? = some '=' then makeToken .GTE ['>', '=']
    else makeToken .GT ['>']
  | _ => makeToken .UNKNOWN [c]

/-- One round of `Lexer::tokenize`, past the whitespace and the comments. -/
def scanToken (c : Char) (rest : List Char) : Except String Scan :=
  if c.isDigit || c = '.' && rest.head?.any Char.isDigit then .ok (scanNumber (c :: rest))
  else if isWordStart c then .ok (scanIdentifierOrKeyword (c :: rest))
  else if c = '"' then scanString rest
  else if c = '#' then scanRegexLiteral rest
  else .ok (scanSymbol c rest)

/-- A token and where it starts. -/
structure Scanned where
  start : Cursor
  scan : Scan

def Scanned.token (t : Scanned) : Token :=
  ⟨t.scan.type, String.ofList t.scan.lexeme, t.start.line, t.start.column⟩

/-- The loop of `Lexer::tokenize`: the tokens, and where the text ends. Every round takes a character
    at least, so that one more than there are in the text is fuel enough. -/
def scanTokens : Nat → Cursor → Except String (List Scanned × Cursor)
  | 0, _ => .error "out of fuel"
  | fuel + 1, cursor =>
    let start := cursor.advanceBy (skipWhitespaceAndComments false cursor.rest)
    match start.rest with
    | [] => .ok ([], start)
    | c :: rest => do
      let scan ← scanToken c rest
      let (scanned, stop) ← scanTokens fuel (start.advanceBy scan.length)
      .ok (⟨start, scan⟩ :: scanned, stop)

def tokenize (source : List Char) : Except String (List Token) := do
  let (scanned, stop) ← scanTokens (source.length + 1) ⟨source, 0, 1, 1⟩
  .ok (scanned.map Scanned.token ++ [⟨.END_OF_FILE, "", stop.line, stop.column⟩])

end zl.lexer
