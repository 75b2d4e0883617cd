import Mathlib

namespace zl

/-- A type as its name spells it: a union has members, and any other type a name, arguments and,
    for an array, a fixed size. The last argument of a function type is its result. -/
inductive TypeName where
  | named (name : String) (args : List TypeName) (fixedSize : Option Nat)
  | union (members : List TypeName)
  deriving Repr

mutual

def typeNamesEqual : TypeName → TypeName → Bool
  | .union members, .union members' => typeNamesEqualAll members members'
  | .named name args fixedSize, .named name' args' fixedSize' =>
    name = name' && fixedSize = fixedSize' && typeNamesEqualAll args args'
  | _, _ => false

def typeNamesEqualAll : List TypeName → List TypeName → Bool
  | [], [] => true
  | a :: as, b :: bs => typeNamesEqual a b && typeNamesEqualAll as bs
  | _, _ => false

end

mutual

theorem typeNamesEqual_iff : ∀ a b : TypeName, typeNamesEqual a b = true ↔ a = b
  | .union members, .union members' => by
    rw [typeNamesEqual, typeNamesEqualAll_iff members members', TypeName.union.injEq]
  | .named name args fixedSize, .named name' args' fixedSize' => by
    rw [typeNamesEqual, Bool.and_eq_true, Bool.and_eq_true, decide_eq_true_iff, decide_eq_true_iff,
      typeNamesEqualAll_iff args args', TypeName.named.injEq]
    tauto
  | .union _, .named _ _ _ => by simp [typeNamesEqual]
  | .named _ _ _, .union _ => by simp [typeNamesEqual]

theorem typeNamesEqualAll_iff : ∀ as bs : List TypeName, typeNamesEqualAll as bs = true ↔ as = bs
  | [], [] => by simp [typeNamesEqualAll]
  | a :: as, b :: bs => by
    rw [typeNamesEqualAll, Bool.and_eq_true, typeNamesEqual_iff a b, typeNamesEqualAll_iff as bs,
      List.cons.injEq]
  | [], _ :: _ => by simp [typeNamesEqualAll]
  | _ :: _, [] => by simp [typeNamesEqualAll]

end

instance : DecidableEq TypeName := fun a b => decidable_of_iff _ (typeNamesEqual_iff a b)

/-- Texts with a separator between them. -/
def separated (separator : Char) : List (List Char) → List Char
  | [] => []
  | [text] => text
  | text :: texts => text ++ separator :: separated separator texts

def isFunction : TypeName → Bool
  | .named name args _ => name = "func" && !args.isEmpty
  | .union _ => false

/-- A function type among the members of a union stands in parentheses. -/
def grouped (spec : TypeName) (text : List Char) : List Char :=
  if isFunction spec then '(' :: text ++ [')'] else text

def describeSize (name : String) : Option Nat → List Char
  | some size => if name = "array" then '[' :: size.repr.toList ++ [']'] else []
  | none => []

def describeArguments (name : String) (args : List (List Char)) : List Char :=
  if args.isEmpty then []
  else if name = "func" then '(' :: separated ',' args.dropLast ++ [')', ':'] ++ args.getLastD []
  else '<' :: separated ',' args ++ ['>']

mutual

def describeTypeName : TypeName → List Char
  | .union members => separated '|' (describeMembers members)
  | .named name args fixedSize =>
    name.toList ++ describeSize name fixedSize ++ describeArguments name (describeAll args)

def describeAll : List TypeName → List (List Char)
  | [] => []
  | t :: ts => describeTypeName t :: describeAll ts

def describeMembers : List TypeName → List (List Char)
  | [] => []
  | t :: ts => grouped t (describeTypeName t) :: describeMembers ts

end

def unionMemberName (spec : TypeName) : List Char := grouped spec (describeTypeName spec)

theorem describeAll_eq_map (ts : List TypeName) : describeAll ts = ts.map describeTypeName := by
  induction ts with
  | nil => rfl
  | cons t ts ih => rw [describeAll, ih, List.map_cons]

theorem describeMembers_eq_map (ts : List TypeName) : describeMembers ts = ts.map unionMemberName := by
  induction ts with
  | nil => rfl
  | cons t ts ih => rw [describeMembers, ih, List.map_cons, unionMemberName]

def uniqueFrom (kept : TypeName) : List TypeName → List TypeName
  | [] => [kept]
  | t :: ts => if typeNamesEqual kept t then uniqueFrom kept ts else kept :: uniqueFrom t ts

/-- Dropping every element that equals the one kept before it. -/
def unique : List TypeName → List TypeName
  | [] => []
  | t :: ts => uniqueFrom t ts

def unionMembers : TypeName → List TypeName
  | .union members => members
  | t => [t]

/-- Whether a text comes before another or is the same, character by character. -/
def textLe : List Char → List Char → Bool
  | [], _ => true
  | _ :: _, [] => false
  | c :: cs, d :: ds => c.val < d.val || c = d && textLe cs ds

/-- What the members between bars stand for: one member for itself, and several for the union
    of theirs, in the order of their names and each once. -/
def unionOf : List TypeName → TypeName
  | [t] => t
  | members =>
    .union (unique ((members.flatMap unionMembers).insertionSort fun a b =>
      textLe (unionMemberName a) (unionMemberName b)))

def isSpace (c : Char) : Bool := c ∈ [' ', '\t', '\n', '\u000b', '\u000c', '\r']

def skipWhitespace (text : List Char) : List Char := text.dropWhile isSpace

def consume (c : Char) (text : List Char) : Option (List Char) :=
  match skipWhitespace text with
  | [] => none
  | d :: rest => if d = c then some rest else none

def isNameChar (c : Char) : Bool := c.isAlphanum || c = '_' || c = '.'

def canonicalName (name : String) : String :=
  if name = "float" ∨ name = "decimal" then "double" else if name = "null" then "nil" else name

/-- The size of an array, in brackets; a size has to fit 64 bits. -/
def parseSize (text : List Char) : Option (Option Nat × List Char) :=
  match consume '[' text with
  | none => some (none, text)
  | some rest =>
    let digits := rest.takeWhile Char.isDigit
    if digits.isEmpty then none
    else do
      let rest ← consume ']' (rest.dropWhile Char.isDigit)
      let size := Nat.ofDigitChars 10 digits 0
      if size < 2 ^ 64 then some (some size, skipWhitespace rest) else none

def parseFixedSize (name : String) (text : List Char) : Option (Option Nat × List Char) :=
  if name = "array" then parseSize text else some (none, text)

-- an invalid part makes the whole text invalid, so that parsing stops there; every call consumes
-- text or is one of four nested ones, and the fuel is four times the length of the text
mutual

def parseUnion : Nat → List Char → Option (TypeName × List Char)
  | 0, _ => none
  | fuel + 1, text => do
    let (first, rest) ← parsePrimary fuel text
    let (members, rest) ← parseMembers fuel rest
    some (unionOf (first :: members), rest)

def parseMembers : Nat → List Char → Option (List TypeName × List Char)
  | 0, _ => none
  | fuel + 1, text =>
    match consume '|' text with
    | none => some ([], skipWhitespace text)
    | some rest => do
      let (member, rest) ← parsePrimary fuel rest
      let (members, rest) ← parseMembers fuel rest
      some (member :: members, rest)

def parsePrimary : Nat → List Char → Option (TypeName × List Char)
  | 0, _ => none
  | fuel + 1, text =>
    match consume '(' text with
    | some rest => do
      let (group, rest) ← parseUnion fuel rest
      let rest ← consume ')' rest
      some (group, rest)
    | none =>
      let text := skipWhitespace text
      let name := text.takeWhile isNameChar
      if name.isEmpty then none
      else do
        let (fixedSize, rest) ←
          parseFixedSize (canonicalName (String.ofList name)) (skipWhitespace (text.dropWhile isNameChar))
        let (args, rest) ← parseTypeArguments fuel (canonicalName (String.ofList name)) rest
        some (.named (canonicalName (String.ofList name)) args fixedSize, rest)

def parseTypeArguments : Nat → String → List Char → Option (List TypeName × List Char)
  | 0, _, _ => none
  | fuel + 1, name, text =>
    match consume '<' text with
    | some rest =>
      match consume '>' rest with
      | some rest => some ([], rest)
      | none => parseArguments fuel rest
    | none =>
      if name = "func" then
        match consume '(' text with
        | some rest => do
          let (args, rest) ← parseParameters fuel rest
          let rest ← consume ':' rest
          let (result, rest) ← parseUnion fuel rest
          some (args ++ [result], rest)
        | none => some ([], text)
      else some ([], text)

def parseArguments : Nat → List Char → Option (List TypeName × List Char)
  | 0, _ => none
  | fuel + 1, text => do
    let (arg, rest) ← parseUnion fuel text
    match consume '>' rest with
    | some rest => some ([arg], rest)
    | none => do
      let rest ← consume ',' rest
      let (args, rest) ← parseArguments fuel rest
      some (arg :: args, rest)

def parseParameters : Nat → List Char → Option (List TypeName × List Char)
  | 0, _ => none
  | fuel + 1, text =>
    match consume ')' text with
    | some rest => some ([], rest)
    | none => do
      let (arg, rest) ← parseUnion fuel text
      match consume ')' rest with
      | some rest => some ([arg], rest)
      | none => do
        let rest ← consume ',' rest
        let (args, rest) ← parseParameters fuel rest
        some (arg :: args, rest)

end

def invalidType : TypeName := .named "<invalid>" [] none

def parseTypeName (text : List Char) : TypeName :=
  match parseUnion (4 * text.length + 4) text with
  | some (result, rest) => if skipWhitespace rest = [] then result else invalidType
  | none => invalidType

mutual

/-- What a type becomes when its name is printed and read back. -/
def reread : TypeName → TypeName
  | .named name args fixedSize => .named name (rereadAll args) fixedSize
  | .union members => unionOf (rereadAll members)

def rereadAll : List TypeName → List TypeName
  | [] => []
  | t :: ts => reread t :: rereadAll ts

end

theorem rereadAll_eq_map (ts : List TypeName) : rereadAll ts = ts.map reread := by
  induction ts with
  | nil => rfl
  | cons t ts ih => rw [rereadAll, ih, List.map_cons]

def isNamed : TypeName → Prop
  | .named _ _ _ => True
  | .union _ => False

structure ValidName (name : String) : Prop where
  ne_nil : name.toList ≠ []
  chars : ∀ c ∈ name.toList, isNameChar c = true
  canonical : canonicalName name = name

/-- The types that names spell. -/
inductive WellFormed : TypeName → Prop where
  | named {name : String} {args : List TypeName} {fixedSize : Option Nat} (hname : ValidName name)
      (hsize : ∀ size, fixedSize = some size → name = "array" ∧ size < 2 ^ 64)
      (hargs : ∀ t ∈ args, WellFormed t) : WellFormed (.named name args fixedSize)
  | union {members : List TypeName} (hne : members ≠ []) (hmembers : ∀ t ∈ members, WellFormed t)
      (hnamed : ∀ t ∈ members, isNamed t) : WellFormed (.union members)

def children : TypeName → List TypeName
  | .named _ args _ => args
  | .union members => members

mutual

/-- Induction from the parts of a type to the type. -/
theorem TypeName.induction_children {P : TypeName → Prop} (h : ∀ t, (∀ s ∈ children t, P s) → P t) :
    ∀ t, P t
  | .named _ args _ => h _ (TypeName.induction_children_all h args)
  | .union members => h _ (TypeName.induction_children_all h members)

theorem TypeName.induction_children_all {P : TypeName → Prop} (h : ∀ t, (∀ s ∈ children t, P s) → P t) :
    ∀ ts : List TypeName, ∀ t ∈ ts, P t
  | [] => nofun
  | t :: ts => List.forall_mem_cons.mpr
    ⟨TypeName.induction_children h t, TypeName.induction_children_all h ts⟩

end

/-- The text ends or goes on with one of some characters. -/
def ContinuesIn (chars : List Char) (rest : List Char) : Prop := ∀ c ∈ rest.head?, c ∈ chars

/-- What may follow a type inside another one. -/
def Stops (rest : List Char) : Prop := ContinuesIn [',', '>', ')'] rest

/-- What may follow a member of a union. -/
def Delimits (rest : List Char) : Prop := ContinuesIn ['|', ',', '>', ')'] rest

theorem Stops.delimits {rest : List Char} (h : Stops rest) : Delimits rest :=
  fun c hc => List.mem_cons_of_mem _ (h c hc)

theorem skipWhitespace_of_head {text : List Char} (h : ∀ c ∈ text.head?, isSpace c = false) :
    skipWhitespace text = text := by
  cases text with
  | nil => rfl
  | cons c rest =>
    rw [skipWhitespace, List.dropWhile_cons, h c rfl]
    rfl

theorem consume_self {c : Char} (hc : isSpace c = false) (rest : List Char) :
    consume c (c :: rest) = some rest := by
  rw [consume, skipWhitespace_of_head fun d hd => by rwa [← Option.some.inj hd]]
  exact if_pos rfl

theorem consume_of_head {c : Char} {text : List Char} (h : ∀ d ∈ text.head?, isSpace d = false ∧ d ≠ c) :
    consume c text = none := by
  rw [consume, skipWhitespace_of_head fun d hd => (h d hd).1]
  cases text with
  | nil => rfl
  | cons d rest => exact if_neg (h d rfl).2

theorem not_isSpace_of_all {chars : List Char} (hchars : chars.all (!isSpace ·) = true) {d : Char}
    (hd : d ∈ chars) : isSpace d = false := by
  simpa using List.all_eq_true.mp hchars d hd

theorem consume_of_continuesIn {c : Char} {chars rest : List Char} (hchars : chars.all (!isSpace ·) = true)
    (hc : c ∉ chars) (h : ContinuesIn chars rest) : consume c rest = none :=
  consume_of_head fun d hd => ⟨not_isSpace_of_all hchars (h d hd), fun heq => hc (heq ▸ h d hd)⟩

theorem not_isSpace_of_isNameChar {c : Char} (h : isNameChar c = true) : isSpace c = false := by
  rw [Bool.eq_false_iff]
  intro hspace
  simp only [isSpace, List.mem_cons, List.not_mem_nil, or_false, decide_eq_true_eq] at hspace
  rcases hspace with rfl | rfl | rfl | rfl | rfl | rfl <;> exact absurd h (by decide)

end zl
