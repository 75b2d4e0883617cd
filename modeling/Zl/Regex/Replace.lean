import Zl.Regex.Matcher

namespace zl.regex

mutual

/-- The named captures of a node with their indices. An outer one comes first, and the first
    one of a name is the one that counts. -/
def captureNameMap : Node → List (Bytes × Nat)
  | .namedGroup captureIndex captureName child =>
    if captureName = [] then captureNameMap child
    else (captureName, captureIndex) :: captureNameMap child
  | .sequence children | .alternation children => captureNameMapAll children
  | .group _ child | .atomicGroup child | .quantifier _ _ _ child | .lookahead child
  | .negativeLookahead child | .lookbehind child | .negativeLookbehind child => captureNameMap child
  | .literal _ | .escape _ | .characterClass _ | .any | .backreference _ _ | .anchorStart
  | .anchorEnd => []

def captureNameMapAll : List Node → List (Bytes × Nat)
  | [] => []
  | child :: rest => captureNameMap child ++ captureNameMapAll rest

end

/-- A value of the type `int`, whose overflow is undefined. -/
def int (value : Int) : Option Int :=
  if -2147483648 ≤ value ∧ value ≤ 2147483647 then some value else none

/-- `num = num * 10 + c - '0'`, from left to right. -/
def appendDigit (num : Int) (c : UInt8) : Option Int := do
  let tens ← int (num * 10)
  let sum ← int (tens + c.toNat)
  int (sum - 48)

section
variable (m : MatchResult) (names : List (Bytes × Nat))

/-- The capture of an index below their number; beyond it the reference is copied as it is.
    To read at a negative index is undefined. -/
def groupOr (num : Int) (reference : Bytes) : Option Bytes :=
  if num < m.groups.length then
    if num < 0 then none else m.groups[num.toNat]?
  else some reference

/-- What stands for a name in braces. -/
def expandName (name : Bytes) : Option Bytes :=
  let reference := [code '$', code '\x7b'] ++ name ++ [code '\x7d']
  match names.lookup name with
  | none => some reference
  | some i => groupOr m i reference

/-- What stands for a run of digits. -/
def expandNumber (digits : Bytes) : Option Bytes := do
  let num ← digits.foldlM appendDigit 0
  groupOr m num (code '$' :: digits)

/-- The replacement of one match, or nothing where what the source does is undefined. An
    unterminated brace is copied as it is. -/
def expand (replacement : Bytes) : Option Bytes :=
  match replacement with
  | [] => some []
  | c :: rest =>
    if c = code '$' ∧ rest.head? = some (code '\x7b') ∧ code '\x7d' ∈ rest.tail then do
      let name := rest.tail.takeWhile (· != code '\x7d')
      let expansion ← expandName m names name
      let tail ← expand (rest.tail.drop (name.length + 1))
      return expansion ++ tail
    else if c = code '$' ∧ rest.head?.any isDigit then do
      let digits := rest.takeWhile isDigit
      let expansion ← expandNumber m digits
      let tail ← expand (rest.drop digits.length)
      return expansion ++ tail
    else do
      let tail ← expand rest
      return c :: tail
termination_by replacement.length
decreasing_by all_goals simp [List.length_drop]

end

/-- What a replacement is made of. -/
inductive Piece where
  | byte (c : UInt8)
  | named (name : Bytes)
  | numbered (digits : Bytes)
  deriving DecidableEq, Repr

namespace Piece

/-- The text of a piece in the replacement. -/
def source : Piece → Bytes
  | byte c => [c]
  | named name => [code '$', code '\x7b'] ++ name ++ [code '\x7d']
  | numbered digits => code '$' :: digits

end Piece

/-- The number that decimal digits stand for. -/
def decimal (digits : Bytes) : Nat := digits.foldl (fun value c => value * 10 + (c.toNat - 48)) 0

namespace Piece

/-- What a piece stands for: a capture that exists, else itself. -/
def expansion (groups : List Bytes) (names : List (Bytes × Nat)) (piece : Piece) : Bytes :=
  match piece with
  | byte c => [c]
  | named name => ((names.lookup name).bind (groups[·]?)).getD piece.source
  | numbered digits => groups[decimal digits]?.getD piece.source

end Piece

/-- The pieces of a replacement from left to right. A reference takes as many digits as
    there are. -/
def pieces (replacement : Bytes) : List Piece :=
  match replacement with
  | [] => []
  | c :: rest =>
    if c = code '$' ∧ rest.head? = some (code '\x7b') ∧ code '\x7d' ∈ rest.tail then
      let name := rest.tail.takeWhile (· != code '\x7d')
      .named name :: pieces (rest.tail.drop (name.length + 1))
    else if c = code '$' ∧ rest.head?.any isDigit then
      let digits := rest.takeWhile isDigit
      .numbered digits :: pieces (rest.drop digits.length)
    else .byte c :: pieces rest
termination_by replacement.length
decreasing_by all_goals simp [List.length_drop]

/-- The largest number of a reference that the source can compute: it adds the byte of the
    last digit before it subtracts the one of zero. -/
def kMaxReference : Nat := 2147483647 - 48

section
variable {m : MatchResult} {names : List (Bytes × Nat)}

theorem int_eq_some {value result : Int} :
    int value = some result ↔ result = value ∧ -2147483648 ≤ value ∧ value ≤ 2147483647 := by
  unfold int
  split
  · next hfits => simp [hfits, eq_comm]
  · next hfits => simp [hfits]

theorem isDigit_iff {c : UInt8} : isDigit c = true ↔ 48 ≤ c.toNat ∧ c.toNat ≤ 57 := by
  simp [isDigit, UInt8.le_iff_toNat_le]

/-- A digit is appended when the byte it adds leaves the sum an `int`. -/
theorem appendDigit_natCast {num : Nat} {c : UInt8} (hdigit : isDigit c = true) :
    appendDigit num c =
      if num * 10 + (c.toNat - 48) ≤ kMaxReference then some ↑(num * 10 + (c.toNat - 48)) else none := by
  obtain ⟨hlow, hhigh⟩ := isDigit_iff.mp hdigit
  have hvalue : (num : Int) * 10 + c.toNat - 48 = ↑(num * 10 + (c.toNat - 48)) := by omega
  unfold appendDigit
  by_cases hfits : num * 10 + (c.toNat - 48) ≤ kMaxReference
  · have hbound := hfits
    unfold kMaxReference at hbound
    have htens : int (num * 10) = some ((num : Int) * 10) := int_eq_some.mpr ⟨rfl, by omega, by omega⟩
    have hsum : int ((num : Int) * 10 + c.toNat) = some ((num : Int) * 10 + c.toNat) :=
      int_eq_some.mpr ⟨rfl, by omega, by omega⟩
    have hnum : int ((num : Int) * 10 + c.toNat - 48) = some ↑(num * 10 + (c.toNat - 48)) :=
      int_eq_some.mpr ⟨hvalue.symm, by omega, by omega⟩
    simp only [htens, hsum, hnum, if_pos hfits, Option.bind_eq_bind, Option.bind_some]
  · rw [if_neg hfits, ← Option.not_isSome_iff_eq_none, Option.isSome_iff_exists]
    unfold kMaxReference at hfits
    rintro ⟨result, hresult⟩
    obtain ⟨tens, htens, hresult⟩ := Option.bind_eq_some_iff.mp hresult
    obtain ⟨sum, hsum, -⟩ := Option.bind_eq_some_iff.mp hresult
    obtain ⟨rfl, -, -⟩ := int_eq_some.mp htens
    obtain ⟨-, -, hle⟩ := int_eq_some.mp hsum
    omega

/-- The value behind some digits, by induction on the digits that are still to come: it only
    grows. -/
theorem le_foldl_decimal (digits : Bytes) (num : Nat) :
    num ≤ digits.foldl (fun value c => value * 10 + (c.toNat - 48)) num := by
  induction digits generalizing num with
  | nil => simp
  | cons c rest ih =>
    have hrest := ih (num * 10 + (c.toNat - 48))
    simp only [List.foldl_cons]
    omega

theorem foldlM_appendDigit {digits : Bytes} (hdigits : ∀ c ∈ digits, isDigit c = true) {num : Nat}
    (hnum : num ≤ kMaxReference) :
    digits.foldlM appendDigit (num : Int) =
      if digits.foldl (fun value c => value * 10 + (c.toNat - 48)) num ≤ kMaxReference then
        some ↑(digits.foldl (fun value c => value * 10 + (c.toNat - 48)) num)
      else none := by
  induction digits generalizing num with
  | nil => simp [hnum]
  | cons c rest ih =>
    obtain ⟨hc, hrest⟩ := List.forall_mem_cons.mp hdigits
    rw [List.foldlM_cons, List.foldl_cons, appendDigit_natCast hc]
    split
    · next hfits => exact ih hrest hfits
    · next hbig =>
      have hgrows := le_foldl_decimal rest (num * 10 + (c.toNat - 48))
      rw [if_neg (by omega)]
      rfl

theorem groupOr_natCast (num : Nat) (reference : Bytes) :
    groupOr m num reference = some (m.groups[num]?.getD reference) := by
  unfold groupOr
  by_cases hnum : num < m.groups.length
  · simp [hnum]
  · simp [hnum]

theorem expandName_eq (name : Bytes) :
    expandName m names name = some ((Piece.named name).expansion m.groups names) := by
  unfold expandName
  rw [Piece.expansion]
  cases names.lookup name with
  | none => rfl
  | some i => exact groupOr_natCast i _

theorem expandNumber_eq (names : List (Bytes × Nat)) {digits : Bytes}
    (hdigits : ∀ c ∈ digits, isDigit c = true) :
    expandNumber m digits =
      if decimal digits ≤ kMaxReference then some ((Piece.numbered digits).expansion m.groups names)
      else none := by
  have hnum := @foldlM_appendDigit digits hdigits 0 (Nat.zero_le _)
  unfold expandNumber
  change (digits.foldlM appendDigit ((0 : Nat) : Int)).bind _ = _
  rw [hnum, ← decimal, Piece.expansion]
  split
  · exact groupOr_natCast _ _
  · rfl

theorem takeWhile_append_drop_length (test : UInt8 → Bool) (l : Bytes) :
    l.takeWhile test ++ l.drop (l.takeWhile test).length = l :=
  List.prefix_iff_eq_append.mp (List.takeWhile_prefix test)

theorem takeWhile_append_cons_drop {c : UInt8} {l : Bytes} (hmem : c ∈ l) :
    l.takeWhile (· != c) ++ c :: l.drop ((l.takeWhile (· != c)).length + 1) = l := by
  induction l with
  | nil => simp at hmem
  | cons first rest ih =>
    by_cases hfirst : first = c
    · simp [hfirst]
    · have hrest := ih ((List.mem_cons.mp hmem).resolve_left (Ne.symm hfirst))
      simpa [hfirst] using hrest

theorem flatMap_source_pieces (replacement : Bytes) :
    (pieces replacement).flatMap Piece.source = replacement := by
  fun_induction pieces replacement with
  | case1 => rfl
  | case2 c rest hname name ih =>
    obtain ⟨rfl, hopen, hclose⟩ := hname
    have hsplit : name ++ code '\x7d' :: rest.tail.drop (name.length + 1) = rest.tail :=
      takeWhile_append_cons_drop hclose
    rw [List.flatMap_cons, ih, Piece.source, List.append_assoc, List.append_assoc, List.singleton_append,
      hsplit]
    exact congrArg _ (List.eq_cons_of_mem_head? hopen).symm
  | case3 c rest hname hnumber digits ih =>
    rw [List.flatMap_cons, ih, hnumber.1, Piece.source, List.cons_append]
    exact congrArg _ (takeWhile_append_drop_length isDigit rest)
  | case4 c rest hname hnumber ih =>
    rw [List.flatMap_cons, ih]
    rfl

end

namespace Piece

/-- The source computes the number of a reference. -/
def Computable : Piece → Prop
  | numbered digits => decimal digits ≤ kMaxReference
  | byte _ | named _ => True

instance : DecidablePred Computable
  | numbered _ => inferInstanceAs (Decidable (_ ≤ _))
  | byte _ | named _ => inferInstanceAs (Decidable True)

@[simp]
theorem computable_byte (c : UInt8) : (byte c).Computable ↔ True := Iff.rfl

@[simp]
theorem computable_named (name : Bytes) : (named name).Computable ↔ True := Iff.rfl

@[simp]
theorem computable_numbered (digits : Bytes) :
    (numbered digits).Computable ↔ decimal digits ≤ kMaxReference := Iff.rfl

end Piece

/-- The loop takes one piece after the other. -/
theorem expand_eq (m : MatchResult) (names : List (Bytes × Nat)) (replacement : Bytes) :
    expand m names replacement =
      if ∀ piece ∈ pieces replacement, piece.Computable then
        some ((pieces replacement).flatMap (Piece.expansion m.groups names))
      else none := by
  fun_induction pieces replacement with
  | case1 => simp [expand]
  | case2 c rest hname name ih =>
    have hstep : expand m names (c :: rest) = (expand m names (rest.tail.drop (name.length + 1))).map
        ((Piece.named name).expansion m.groups names ++ ·) := by
      rw [expand, if_pos hname]
      simp [expandName_eq, name, Option.map_eq_bind]
    rw [hstep, ih]
    simp
  | case3 c rest hname hnumber digits ih =>
    have hdigits : ∀ c ∈ digits, isDigit c = true :=
      fun c hc => List.all_eq_true.mp List.all_takeWhile c hc
    have hstep : expand m names (c :: rest) = (expandNumber m digits).bind fun expansion =>
        (expand m names (rest.drop digits.length)).map (expansion ++ ·) := by
      rw [expand, if_neg hname, if_pos hnumber]
      simp [digits, Option.map_eq_bind]
    rw [hstep, expandNumber_eq names hdigits, ih]
    by_cases hfits : decimal digits ≤ kMaxReference
    · by_cases hall : ∀ piece ∈ pieces (rest.drop digits.length), piece.Computable
      · simp [hfits, if_pos hall]
      · simp [hfits, if_neg hall]
    · simp [hfits]
  | case4 c rest hname hnumber ih =>
    rw [expand, if_neg hname, if_neg hnumber, ih]
    by_cases hall : ∀ piece ∈ pieces rest, piece.Computable
    · simp [if_pos hall, Piece.expansion]
    · simp [if_neg hall]

/-- A replacement is cut into pieces, and expanded with each reference replaced by the capture
    it names or else copied, exactly when no reference in it has a number that is too large to
    be computed. -/
theorem expand_exact_iff (m : MatchResult) (names : List (Bytes × Nat)) (replacement : Bytes) :
    (pieces replacement).flatMap Piece.source = replacement ∧
    (expand m names replacement = some ((pieces replacement).flatMap (Piece.expansion m.groups names)) ↔
      ∀ digits, .numbered digits ∈ pieces replacement → decimal digits ≤ kMaxReference) := by
  refine ⟨flatMap_source_pieces replacement, ?_⟩
  rw [expand_eq]
  constructor
  · intro hexpand digits hmem
    split at hexpand
    · next hall => exact hall _ hmem
    · nomatch hexpand
  · intro hfits
    refine if_pos fun piece hmem => ?_
    cases piece with
    | byte c => trivial
    | named name => trivial
    | numbered digits => exact hfits digits hmem

/-- The number of `$99999999999` overflows, whatever was matched. -/
theorem longReference_not_expanded : ∃ replacement, replacement = "$99999999999".toList.map code ∧
    ∀ m names, expand m names replacement = none ∧
      (pieces replacement).flatMap (Piece.expansion m.groups names) =
        m.groups[99999999999]?.getD replacement := by
  refine ⟨_, rfl, fun m names => ?_⟩
  have hpieces : pieces ("$99999999999".toList.map code) = [.numbered ("99999999999".toList.map code)] := by
    have hdigits : ("99999999999".toList.map code).takeWhile isDigit = "99999999999".toList.map code := by
      decide
    change pieces (code '$' :: "99999999999".toList.map code) = _
    rw [pieces, if_neg (by decide), if_pos (by decide), hdigits]
    simp only [List.drop_length]
    rw [pieces]
  have hvalue : decimal ("99999999999".toList.map code) = 99999999999 := by decide
  rw [expand_eq, hpieces]
  refine ⟨if_neg fun hall => ?_, ?_⟩
  · have hfits := hall _ List.mem_cons_self
    rw [Piece.computable_numbered, hvalue] at hfits
    exact absurd hfits (by decide)
  · rw [List.flatMap_singleton, Piece.expansion, hvalue]
    rfl

end zl.regex
