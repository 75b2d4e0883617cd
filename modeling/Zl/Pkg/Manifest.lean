import Mathlib.Data.List.DropRight
import Mathlib.Data.List.Infix
import Mathlib.Data.List.Nodup

namespace zl.pkg

abbrev Bytes := List UInt8

abbrev Path := Bytes

def slash : UInt8 := '/'.toUInt8

def quoteMark : UInt8 := '"'.toUInt8

def backslash : UInt8 := '\\'.toUInt8

def newline : UInt8 := 10

def equalsSign : UInt8 := '='.toUInt8

def hashSign : UInt8 := '#'.toUInt8

def openBracket : UInt8 := '['.toUInt8

def closeBracket : UInt8 := ']'.toUInt8

/-- The ASCII text of some characters. -/
def ascii (cs : List Char) : Bytes := cs.map Char.toUInt8

/-- `operator/` of paths: an absolute one replaces what is before it. -/
def Path.join (p q : Path) : Path :=
  if q.head? = some slash ∨ p = [] then q
  else if p.getLast? = some slash then p ++ q
  else p ++ slash :: q

def Path.parentPath (p : Path) : Path :=
  let dir := p.rdropWhile (· ≠ slash)
  match dir.rdropWhile (· = slash) with
  | [] => dir.take 1
  | parent => parent

def isBlank (c : UInt8) : Bool := c = 32 || c = 9 || c = 13 || c = 10

def trim (s : Bytes) : Bytes := (s.dropWhile isBlank).rdropWhile isBlank

/-- The pieces between the separators. -/
def splitOn (separator : UInt8) : Bytes → List Bytes
  | [] => [[]]
  | c :: s =>
    if c = separator then [] :: splitOn separator s
    else
      match splitOn separator s with
      | [] => [[c]]
      | piece :: pieces => (c :: piece) :: pieces

/-- Both sides of the first occurrence. -/
def cut (separator : UInt8) (s : Bytes) : Option (Bytes × Bytes) :=
  match s.dropWhile (· ≠ separator) with
  | [] => none
  | _ :: rest => some (s.takeWhile (· ≠ separator), rest)

/-- A comment starts outside of quotes. -/
def stripComment : Bool → Bytes → Bytes
  | _, [] => []
  | inQuotes, c :: s =>
    if c = quoteMark then c :: stripComment (!inQuotes) s
    else if c = hashSign ∧ ¬ inQuotes then []
    else c :: stripComment inQuotes s

inductive ManifestError where
  | cannotOpen
  | atLine (line : Nat) (message : String) (subject : Bytes)
  | missing (field : String)
  | invalidName (name : Bytes)

/-- What is between the quotes. -/
def manifestUnquote (line : Nat) (s : Bytes) : Except ManifestError Bytes :=
  let t := trim s
  if t.length < 2 ∨ t.head? ≠ some quoteMark ∨ t.getLast? ≠ some quoteMark then
    .error (.atLine line "expected a quoted string" t)
  else .ok (t.drop 1).dropLast

/-- The fields of an inline table, the last of a name first. -/
def parseInlineTable (line : Nat) (body : Bytes) : Except ManifestError (List (Bytes × Bytes)) :=
  (splitOn ','.toUInt8 body).foldlM (fun fields piece =>
    let piece := trim piece
    if piece = [] then .ok fields
    else
      match cut equalsSign piece with
      | none => .error (.atLine line "malformed inline table entry" piece)
      | some (key, value) => do
        let value ← manifestUnquote line value
        return (trim key, value) :: fields) []

def isAlnum (c : UInt8) : Bool :=
  ('a'.toUInt8 ≤ c && c ≤ 'z'.toUInt8) || ('A'.toUInt8 ≤ c && c ≤ 'Z'.toUInt8) ||
    ('0'.toUInt8 ≤ c && c ≤ '9'.toUInt8)

def isValidPackageName (name : Bytes) : Bool :=
  name ≠ [] && name.length ≤ 100 && name.head? ≠ some '.'.toUInt8 && name.head? ≠ some '-'.toUInt8 &&
    name.all (fun c => isAlnum c || c = '.'.toUInt8 || c = '_'.toUInt8 || c = '-'.toUInt8) &&
    !decide (ascii ['.', '.'] <:+: name)

inductive DependencyKind where
  | git | path
  deriving DecidableEq, Repr

/-- A declared dependency. Without a `ref` or a `version` these are empty. -/
structure Dependency where
  name : Bytes
  kind : DependencyKind
  source : Bytes
  ref : Bytes := []
  version : Bytes := []
  deriving DecidableEq

/-- The dependencies of a manifest have different names. -/
structure Manifest where
  name : Bytes
  version : Bytes
  dependencies : List Dependency
  manifestDir : Path
  names_nodup : (dependencies.map Dependency.name).Nodup
  names_valid : ∀ d ∈ dependencies, isValidPackageName d.name = true

/-- The inline table of a dependency. -/
def dependencyFields (line : Nat) (key value : Bytes) : Except ManifestError (List (Bytes × Bytes)) :=
  if value.head? ≠ some '\x7b'.toUInt8 ∨ value.getLast? ≠ some '\x7d'.toUInt8 then
    .error (.atLine line "must be an inline table" key)
  else parseInlineTable line (value.drop 1).dropLast

/-- A dependency is given by a path or by a git source. -/
def declared (line : Nat) (key : Bytes) (fields : List (Bytes × Bytes)) :
    Except ManifestError { d : Dependency // d.name = key } :=
  let version := (fields.lookup (ascii ['v', 'e', 'r', 's', 'i', 'o', 'n'])).getD []
  let ref := (fields.lookup (ascii ['r', 'e', 'f'])).getD []
  match fields.lookup (ascii ['p', 'a', 't', 'h']), fields.lookup (ascii ['g', 'i', 't']) with
  | some _, some _ => .error (.atLine line "cannot have both 'path' and 'git'" key)
  | some path, none => .ok ⟨{ name := key, kind := .path, source := path, version := version }, rfl⟩
  | none, some url => .ok ⟨{ name := key, kind := .git, source := url, ref := ref, version := version }, rfl⟩
  | none, none => .error (.atLine line "needs either 'path' or 'git'" key)

inductive Section where
  | before | package | dependencies
  deriving DecidableEq

/-- What was read so far. -/
structure ManifestReader where
  current : Section := .before
  name : Option Bytes := none
  version : Option Bytes := none
  dependencies : List Dependency := []
  names_nodup : (dependencies.map Dependency.name).Nodup := by exact List.nodup_nil
  names_valid : ∀ d ∈ dependencies, isValidPackageName d.name = true := by exact nofun

/-- A dependency of a new, valid name. -/
def ManifestReader.declare (reader : ManifestReader) (d : Dependency)
    (hvalid : isValidPackageName d.name = true)
    (hnew : d.name ∉ reader.dependencies.map Dependency.name) : ManifestReader :=
  { reader with
    dependencies := reader.dependencies ++ [d]
    names_nodup := by
      rw [List.map_append]
      exact List.nodup_append.mpr ⟨reader.names_nodup, List.nodup_singleton _,
        fun name hname name' hname' => by
        rw [List.mem_singleton.mp hname']
        exact fun heq => hnew (heq ▸ hname)⟩
    names_valid := fun d' hd' => (List.mem_append.mp hd').elim (reader.names_valid d') fun hd' =>
      List.mem_singleton.mp hd' ▸ hvalid }

def readSection (line : Nat) (name : Bytes) : Except ManifestError Section :=
  if name = ascii ['p', 'a', 'c', 'k', 'a', 'g', 'e'] then .ok .package
  else if name = ascii ['d', 'e', 'p', 'e', 'n', 'd', 'e', 'n', 'c', 'i', 'e', 's'] then .ok .dependencies
  else .error (.atLine line "unknown section" name)

def readManifestLine (line : Nat) (text : Bytes) (reader : ManifestReader) :
    Except ManifestError ManifestReader :=
  let text := trim (stripComment false text)
  if text = [] then .ok reader
  else if text.head? = some openBracket ∧ text.getLast? = some closeBracket then do
    let s ← readSection line (trim (text.drop 1).dropLast)
    return { reader with current := s }
  else
    match cut equalsSign text with
    | none => .error (.atLine line "expected 'key = value'" text)
    | some (key, value) =>
      let key := trim key
      let value := trim value
      if key = [] then .error (.atLine line "empty key before '='" text)
      else
        match reader.current with
        | .before => .error (.atLine line "appears before any section" key)
        | .package => do
          let v ← manifestUnquote line value
          if key = ascii ['n', 'a', 'm', 'e'] then return { reader with name := some v }
          else if key = ascii ['v', 'e', 'r', 's', 'i', 'o',
            'n'] then return { reader with version := some v }
          else return reader
        | .dependencies => do
          let fields ← dependencyFields line key value
          if hvalid : isValidPackageName key = true then
            if hnew : key ∉ reader.dependencies.map Dependency.name then
              let ⟨d, hd⟩ ← declared line key fields
              return reader.declare d (hd ▸ hvalid) (hd ▸ hnew)
            else throw (.atLine line "duplicate dependency" key)
          else throw (.atLine line "dependency name is invalid" key)

def readManifestLines : Nat → List Bytes → ManifestReader → Except ManifestError ManifestReader
  | _, [], reader => .ok reader
  | line, text :: texts, reader => do
    let reader ← readManifestLine line text reader
    readManifestLines (line + 1) texts reader

/-- What the operating system tells. -/
structure FileSystem where
  read : Path → Option Bytes
  exists' : Path → Bool
  /-- `std::filesystem::weakly_canonical`, unless it sets the error code. -/
  weaklyCanonical : Path → Option Path
  absolute : Path → Path

def loadManifest (fs : FileSystem) (manifestPath : Path) : Except ManifestError Manifest :=
  match fs.read manifestPath with
  | none => .error .cannotOpen
  | some file => do
    let reader ← readManifestLines 1 (splitOn newline file) {}
    match reader.name, reader.version with
    | none, _ => throw (.missing "name")
    | some _, none => throw (.missing "version")
    | some name, some version =>
      if isValidPackageName name then
        return {
          name := name, version := version, dependencies := reader.dependencies
          manifestDir := (fs.absolute manifestPath).parentPath
          names_nodup := reader.names_nodup, names_valid := reader.names_valid }
      else throw (.invalidName name)

end zl.pkg
