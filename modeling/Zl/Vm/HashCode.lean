import Zl.Vm.DeepRecords

open zl.collections zl.ieee zl.vm.gc

namespace zl.vm.value

/-- What `std::hash` gives for the types that are hashed. Pointers to boxes have a type. -/
structure Hashes where
  string : List UInt8 → UInt64
  bool : Bool → UInt64
  int64 : Int64 → UInt64
  double : Binary64 → UInt64
  uint64 : Nat → UInt64
  box : Kind → Option Address → UInt64
  pointer : Option Address → UInt64
  data : Nat → UInt64

def hashCombineValue (seed value : UInt64) : UInt64 :=
  seed ^^^ (value + 0x9e3779b97f4a7c15 + (seed <<< (6 : UInt64)) + (seed >>> (2 : UInt64)))

def hashNestingError : VmError := .runtime "structural hash nesting exceeds the maximum depth of 500"

/-- `data` of a view, which is only there while the owner lives. What is no view has none. -/
def viewData : NativeValue → Except VmError Nat
  | .bufferView data _ valid =>
    if valid then .ok data else .error
      (.runtime "native buffer borrow is not valid or owner is destroyed")
  | .structView data _ _ valid =>
    if valid then .ok data else .error (.runtime "native struct view is not valid or owner is destroyed")
  | .handle _ | .callback _ => .ok 0

/-- The fields in the order in which the class declares them, where static ones have no slot. -/
def hashedFields (box : ObjectBox) : List (String × gc.Value) :=
  match box.runtimeType with
  | none => []
  | some type => type.fields.filterMap fun field =>
    if field.isStatic then none else (box.objectFieldLookup field.name).map (field.name, ·)

section
variable (hashes : Hashes) (memory : Memory)

def hashName (name : String) : UInt64 := hashes.string name.toByteArray.data.toList

def hashInteger (held : Int64) : UInt64 := hashCombineValue 0x13 (hashes.int64 held)

/-- A double that is an integer is hashed like it. -/
def hashDouble (held : Binary64) : UInt64 :=
  let minExactInt := Binary64.ofInt (-2 ^ 63)
  let maxExactIntExclusive := Binary64.ofInt (2 ^ 63)
  if held.isNaN then 0x14
  else if held.beq (.ofInt 0) then hashInteger hashes 0
  else if minExactInt.le held && held.lt maxExactIntExclusive &&
    held.floor.beq held then hashInteger hashes (truncated held)
  else hashCombineValue 0x14 (hashes.double held)

def hashNative (a : NativeValue) : Except VmError UInt64 := do
  let data := hashes.data (← viewData a)
  match a with
  | .handle id => return hashCombineValue 0x1c (hashes.uint64 id)
  | .bufferView _ size _ => return hashCombineValue 0x1d (hashCombineValue data (hashes.uint64 size))
  | .structView _ size alignment _ =>
    return hashCombineValue 0x1e (hashCombineValue data
      (hashCombineValue (hashes.uint64 size) (hashes.uint64 alignment)))
  | .callback id => return hashCombineValue 0x1f (hashes.uint64 id)

/-- The hash of what is no record. -/
def hashPlain : gc.Value → Except VmError UInt64
  | .nil => .ok 0x11
  | .bool held => .ok (hashCombineValue 0x12 (hashes.bool held))
  | .int held => .ok (hashInteger hashes held)
  | .double bits => .ok (hashDouble hashes (.ofBits bits))
  | .string held => .ok (hashCombineValue 0x15 (hashes.string held))
  | .box .list handle => .ok (hashCombineValue 0x16 (hashes.box .list handle))
  | .box .map handle => .ok (hashCombineValue 0x17 (hashes.box .map handle))
  | .box .object handle => .ok (hashCombineValue 0x18 (hashes.box .object handle))
  | .box .closure handle => .ok (hashCombineValue 0x19 (hashes.box .closure handle))
  | .task handle => .ok (hashCombineValue 0x1a (hashes.pointer handle))
  | .thread handle => .ok (hashCombineValue 0x1b (hashes.pointer handle))
  | .native a => hashNative hashes (memory.natives a)

/-- The hash of a value, with the records that were hashed before. -/
def valueHashImpl (recordHash : Address → List Address → Except VmError (UInt64 × List Address))
    (v : gc.Value) (seen : List Address) :
    Except VmError (UInt64 × List Address) :=
  match v with
  | .box .object (some a) =>
    if isRecord (objectAt memory.heap a) then (recordHash a seen).map fun (hash, seen) =>
      (hashCombineValue 0x18 hash, seen)
    else (hashPlain hashes memory v).map (·, seen)
  | v => (hashPlain hashes memory v).map (·, seen)

def hashFields (recordHash : Address → List Address → Except VmError (UInt64 × List Address)) :
    List (String × gc.Value) → UInt64 → List Address → Except VmError (UInt64 × List Address)
  | [], seed, seen => .ok (seed, seen)
  | (name, value) :: fields, seed, seen => do
    let (hash, seen) ← valueHashImpl hashes memory recordHash value seen
    hashFields recordHash fields (hashCombineValue
      (hashCombineValue seed (hashName hashes name)) hash) seen

/-- The hash of a record, where its fields may still be followed `room` deep. A record met again is
    hashed by its address. -/
def recordHash : Nat → Address → List Address → Except VmError (UInt64 × List Address)
  | 0, a, seen => if a ∈ seen then .ok (hashes.box .object (some a), seen) else .error hashNestingError
  | room + 1, a, seen =>
    if a ∈ seen then .ok (hashes.box .object (some a), seen)
    else
      let box := objectAt memory.heap a
      hashFields hashes memory (recordHash room) (hashedFields box) (hashName hashes box.className)
        (a :: seen)

def valueHashCode (v : gc.Value) : Except VmError Int64 :=
  (valueHashImpl hashes memory (recordHash hashes memory maximumRoom) v []).map fun (hash, _) =>
    (hash &&& 0x7fffffffffffffff).toInt64

end

/-- What hashing meets in a value: a record again, or its fields in their order. -/
inductive Met where
  | plain
  | again (record : Address)
  | first (fields : List (String × Met))

section
variable (memory : Memory)

def viewMet : gc.Value → Except VmError Met
  | .native a => (viewData (memory.natives a)).map fun _ => .plain
  | _ => .ok .plain

def valueMet (recordMet : Address → List Address → Except VmError (Met × List Address))
    (v : gc.Value) (seen : List Address) :
    Except VmError (Met × List Address) :=
  match v with
  | .box .object (some a) => if isRecord (objectAt memory.heap a) then recordMet a seen else .ok
      (.plain, seen)
  | v => (viewMet memory v).map (·, seen)

def fieldsMet (recordMet : Address → List Address → Except VmError (Met × List Address)) :
    List (String × gc.Value) → List Address → Except VmError (List (String × Met) × List Address)
  | [], seen => .ok ([], seen)
  | (name, value) :: fields, seen => do
    let (met, seen) ← valueMet memory recordMet value seen
    let (rest, seen) ← fieldsMet recordMet fields seen
    return ((name, met) :: rest, seen)

def recordMet : Nat → Address → List Address → Except VmError (Met × List Address)
  | 0, a, seen => if a ∈ seen then .ok (.again a, seen) else .error hashNestingError
  | room + 1, a, seen =>
    if a ∈ seen then .ok (.again a, seen)
    else (fieldsMet memory (recordMet room) (hashedFields (objectAt memory.heap a)) (a :: seen)).map
      fun (fields, seen) => (.first fields, seen)

def metBy (v : gc.Value) : Except VmError Met :=
  (valueMet memory (recordMet memory maximumRoom) v []).map Prod.fst

end

section
variable {hashes : Hashes} {memory : Memory} {v w : gc.Value} {d d' : Binary64}

theorem hashDouble_integral {n : Int} (hnan : d.isNaN = false) (hexact : d.exact = n * unit)
    (hlow : -2 ^ 63 ≤ n) (hhigh : n < 2 ^ 63) :
    hashDouble hashes d = hashInteger hashes (.ofInt n) := by
  have hmin : (Binary64.ofInt (-2 ^ 63)).exact = -2 ^ 63 * unit :=
    Binary64.exact_ofInt_of_eq (q := 1) (r := 63) (by omega) (by omega) rfl
  have hmax : (Binary64.ofInt (2 ^ 63)).exact = 2 ^ 63 * unit :=
    Binary64.exact_ofInt_of_eq (q := 1) (r := 63) (by omega) (by omega) rfl
  have hunit := unit_pos'
  unfold hashDouble
  simp only [hnan, Bool.false_eq_true, if_false]
  by_cases hzero : n = 0
  · have hbeq : d.beq (.ofInt 0) = true :=
      Binary64.beq_iff.mpr ⟨hnan, Binary64.isNaN_ofInt
      _, by rw [hexact, hzero, Binary64.exact_ofInt_zero, Int.zero_mul]⟩
    rw [if_pos hbeq, hzero]
    rfl
  · have hbeq : ¬d.beq (.ofInt 0) = true := by
      rw [Binary64.beq_iff, hexact, Binary64.exact_ofInt_zero]
      exact fun h => hzero ((Int.mul_eq_zero.mp h.2.2).resolve_right hunit.ne')
    have hfinite : d.isFinite = true := Binary64.isFinite_of_bounds (by
      rw [hexact, Int.natAbs_mul]
      exact Nat.mul_lt_mul_of_pos_right (by omega) unit_pos)
    have hle : (Binary64.ofInt (-2 ^ 63)).le d = true := by
      rw [Binary64.le_iff, hexact, hmin]
      exact ⟨Binary64.isNaN_ofInt _, hnan, Int.mul_le_mul_of_nonneg_right hlow hunit.le⟩
    have hlt : d.lt (Binary64.ofInt (2 ^ 63)) = true := by
      rw [Binary64.lt_iff, hexact, hmax]
      exact ⟨hnan, Binary64.isNaN_ofInt _, Int.mul_lt_mul_of_pos_right hhigh hunit⟩
    have hfloor : d.floor.beq d = true := by
      rw [Binary64.beq_iff, Binary64.exact_floor hfinite, hexact, Int.mul_ediv_cancel _ hunit.ne']
      exact ⟨Binary64.isNaN_floor hnan, hnan, rfl⟩
    have htruncated : truncated d = .ofInt n :=
      Int64.toInt_inj.mp ((toInt_truncated hexact hlow hhigh).trans
        (Int64.toInt_ofInt_of_le hlow hhigh).symm)
    rw [if_neg hbeq, hle, hlt, hfloor, htruncated]
    rfl

/-- Doubles that are one number are hashed alike, also the two zeros. -/
theorem hashDouble_congr (hnan : d.isNaN = false) (hnan' : d'.isNaN = false) (h : d.exact = d'.exact) :
    hashDouble hashes d = hashDouble hashes d' := by
  by_cases hzero : d.exact = 0
  · rw [hashDouble_integral (n := 0) hnan (by rw [hzero, Int.zero_mul]) (by omega) (by omega),
      hashDouble_integral (n := 0) hnan' (by rw [← h, hzero, Int.zero_mul]) (by omega) (by omega)]
  · have hsign : d.signbit = d'.signbit := by
      cases hd : d.signbit <;> cases hd' : d'.signbit
      · rfl
      · have := Binary64.exact_nonneg hd
        have := Binary64.exact_nonpos hd'
        omega
      · have := Binary64.exact_nonpos hd
        have := Binary64.exact_nonneg hd'
        omega
      · rfl
    have hmagnitude : d.magnitude = d'.magnitude :=
      units_inj.mp (by rw [← Binary64.natAbs_exact, ← Binary64.natAbs_exact, h])
    rw [Binary64.ext_code hsign hmagnitude]

theorem hashPlain_numeric (hv : isNumericValue v = true) (hw : isNumericValue w = true)
    (hnan : isNaNValue v = false) (hnan' : isNaNValue w = false) (h : exactUnits v = exactUnits w) :
    hashPlain hashes memory v = hashPlain hashes memory w := by
  have hinteger {n : Int64} {d : Binary64} (hnan : d.isNaN = false) (h : n.toInt * unit = d.exact) :
      hashInteger hashes n = hashDouble hashes d := by
    rw [hashDouble_integral hnan h.symm n.le_toInt n.toInt_lt, Int64.ofInt_toInt]
  cases v with
  | int n =>
    cases w with
    | int m =>
      rw [Int64.toInt_inj.mp (Int.eq_of_mul_eq_mul_right unit_pos'.ne' h)]
    | double bits => exact congrArg Except.ok (hinteger hnan' h)
    | _ => nomatch hw
  | double bits =>
    cases w with
    | int m => exact congrArg Except.ok (hinteger hnan h.symm).symm
    | double bits' => exact congrArg Except.ok (hashDouble_congr hnan hnan' h)
    | _ => nomatch hw
  | _ => nomatch hv

theorem hashNative_congr {a b : NativeValue} {x y : Nat} (ha : viewData a = .ok x) (hb : viewData b = .ok y)
    (h : nativeValuesEqual a b = .ok true) : hashNative hashes a = hashNative hashes b := by
  cases a <;> cases b <;> simp_all [nativeValuesEqual, hashNative, viewData, ite_eq_iff]

/-- Equal values that are no records are hashed alike, where their views can be looked at. -/
theorem hashPlain_congr {m m' : Met} (h : plainValuesEqual memory v w = .ok true)
    (hv : viewMet memory v = .ok m)
    (hw : viewMet memory w = .ok m') : hashPlain hashes memory v = hashPlain hashes memory w := by
  rcases plainValuesEqual_eq_true_iff.mp h with ⟨hnumeric, hnumeric', hnan, hnan', heq⟩ | ⟨r, r',
    rfl, rfl, heq⟩ | ⟨-, -, rfl⟩
  · exact hashPlain_numeric hnumeric hnumeric' hnan hnan' heq
  · unfold viewMet at hv hw
    cases hdata : viewData (memory.natives r) with
    | error e => simp [hdata, Except.map] at hv
    | ok x =>
      cases hdata' : viewData (memory.natives r') with
      | error e => simp [hdata', Except.map] at hw
      | ok y => exact hashNative_congr hdata hdata' heq
  · rfl

end

section
variable {hashes : Hashes} {memory : Memory} {v w : gc.Value} {p q : Address}
  {S : Address × Address → Prop}
  {visit : Address → List Address → Except VmError (UInt64 × List Address)}
  {visitMet : Address → List Address → Except VmError (Met × List Address)}

/-- An outcome without its result: the error, or the records seen. -/
def outcome {A : Type} (x : Except VmError (A × List Address)) : Except VmError (List Address) :=
  x.map Prod.snd

theorem outcome_map {A B : Type} (f : A → B) (x : Except VmError (A × List Address)) :
    outcome (x.map fun (a, seen) => (f a, seen)) = outcome x := by
  cases x with
  | error e => rfl
  | ok a => rfl

theorem outcome_plain (v : gc.Value) (seen : List Address) :
    outcome ((hashPlain hashes memory v).map (·, seen)) = outcome ((viewMet memory v).map (·, seen)) := by
  have hnative (a : NativeValue) : ((hashNative hashes a).map fun _ => seen) =
      (viewData a).map fun _ => seen := by
    cases a <;> simp only [hashNative, viewData] <;> first | rfl | (split <;> rfl)
  cases v with
  | native r =>
    have hcomp {A : Type} (x : Except VmError A) : outcome (x.map (·, seen)) = x.map fun _ => seen := by
      cases x <;> rfl
    rw [hcomp, hcomp, hashPlain, hnative, viewMet]
    cases viewData (memory.natives r) <;> rfl
  | box kind handle => cases kind <;> rfl
  | _ => rfl

theorem outcome_value (hvisit : ∀ p seen, outcome (visit p seen) = outcome (visitMet p seen))
    (v : gc.Value) (seen : List Address) :
    outcome (valueHashImpl hashes memory visit v seen) = outcome (valueMet memory visitMet v seen) := by
  unfold valueHashImpl valueMet
  split
  next a =>
    split
    · rw [outcome_map, hvisit]
    · rfl
  next => exact outcome_plain v seen

theorem outcome_fields (hvisit : ∀ p seen, outcome (visit p seen) = outcome (visitMet p seen))
    (fields : List (String × gc.Value)) (seed : UInt64) (seen : List Address) :
    outcome (hashFields hashes memory visit fields seed seen) =
      outcome (fieldsMet memory visitMet fields seen) := by
  induction fields generalizing seed seen with
  | nil => rfl
  | cons field fields ih =>
    obtain ⟨name, value⟩ := field
    have hvalue := @outcome_value hashes memory _ _ hvisit value seen
    rw [hashFields, fieldsMet]
    cases hmet : valueMet memory visitMet value seen with
    | error e =>
      cases hhash : valueHashImpl hashes memory visit value seen with
      | error e' =>
        rw [hmet, hhash] at hvalue
        cases hvalue
        rfl
      | ok result =>
        rw [hmet, hhash] at hvalue
        nomatch hvalue
    | ok met =>
      cases hhash : valueHashImpl hashes memory visit value seen with
      | error e' =>
        rw [hmet, hhash] at hvalue
        nomatch hvalue
      | ok result =>
        rw [hmet, hhash] at hvalue
        have hseen : result.2 = met.2 := Except.ok.inj hvalue
        change outcome (hashFields hashes memory visit fields _ result.2) =
          outcome (do
            let (rest, seen) ← fieldsMet memory visitMet fields met.2
            return ((name, met.1) :: rest, seen))
        rw [ih, hseen]
        cases fieldsMet memory visitMet fields met.2 <;> rfl

theorem outcome_record (room : Nat) (p : Address) (seen : List Address) :
    outcome (recordHash hashes memory room p seen) = outcome (recordMet memory room p seen) := by
  induction room generalizing p seen with
  | zero =>
    rw [recordHash, recordMet]
    split <;> rfl
  | succ room ih =>
    rw [recordHash, recordMet]
    split
    · rfl
    · rw [outcome_map]
      exact outcome_fields ih _ _ _

/-- Two records that are taken for equal. -/
def RecordsSame (memory : Memory) (S : Address × Address → Prop) (p q : Address) : Prop :=
  p = q ∨ sameClass (objectAt memory.heap p) (objectAt memory.heap q) = true ∧ S (p, q)

/-- A value that is hashed by its fields. -/
def isRecordValue (memory : Memory) : gc.Value → Bool
  | .box .object (some a) => isRecord (objectAt memory.heap a)
  | _ => false

theorem valueHashImpl_plain (h : isRecordValue memory v = false) (seen : List Address) :
    valueHashImpl hashes memory visit v seen = (hashPlain hashes memory v).map (·, seen) := by
  unfold isRecordValue at h
  split at h
  next a => rw [valueHashImpl, if_neg (by simp [h])]
  next hnot =>
    unfold valueHashImpl
    split
    next a => exact absurd rfl (hnot a)
    next => rfl

theorem valueMet_plain (h : isRecordValue memory v = false) (seen : List Address) :
    valueMet memory visitMet v seen = (viewMet memory v).map (·, seen) := by
  unfold isRecordValue at h
  split at h
  next a =>
    rw [valueMet, if_neg (by simp [h])]
    rfl
  next hnot =>
    unfold valueMet
    split
    next a => exact absurd rfl (hnot a)
    next => rfl

theorem valueHashImpl_record (h : isRecord (objectAt memory.heap p) = true) (seen : List Address) :
    valueHashImpl hashes memory visit (.box .object (some p)) seen =
      (visit p seen).map (fun (hash, seen) => (hashCombineValue 0x18 hash, seen)) := by
  rw [valueHashImpl, if_pos h]

theorem valueMet_record (h : isRecord (objectAt memory.heap p) = true) (seen : List Address) :
    valueMet memory visitMet (.box .object (some p)) seen = visitMet p seen := by
  rw [valueMet, if_pos h]

theorem same_cases (h : v = w ∨ ValuesSame memory S v w) :
    (isRecordValue memory v = false ∧ isRecordValue memory w = false ∧
      (v = w ∨ plainValuesEqual memory v w = .ok true)) ∨ ∃ p q, v = .box .object (some p) ∧
      w = .box .object (some q) ∧ isRecord (objectAt memory.heap p) = true ∧
      isRecord (objectAt memory.heap q) = true ∧ RecordsSame memory S p q := by
  have hself (v : gc.Value) : (isRecordValue memory v = false ∧ isRecordValue memory v = false ∧
      (v = v ∨ plainValuesEqual memory v v = .ok true)) ∨ ∃ p q, v = .box .object (some p) ∧
      v = .box .object (some q) ∧ isRecord (objectAt memory.heap p) = true ∧
      isRecord (objectAt memory.heap q) = true ∧ RecordsSame memory S p q := by
    cases hrecord : isRecordValue memory v with
    | false => exact .inl ⟨rfl, rfl, .inl rfl⟩
    | true =>
      unfold isRecordValue at hrecord
      split at hrecord
      next a => exact .inr ⟨a, a, rfl, rfl, hrecord, hrecord, .inl rfl⟩
      next => cases hrecord
  rcases h with rfl | ⟨x, y, rfl, rfl, rfl | ⟨p, q, rfl, rfl, hclass, hpair⟩⟩ | ⟨hnot, hequal⟩
  · exact hself v
  · exact hself _
  · obtain ⟨hp, hq, -⟩ := sameClass_iff.mp hclass
    exact .inr ⟨p, q, rfl, rfl, hp, hq, .inr ⟨hclass, hpair⟩⟩
  · rcases plainValuesEqual_eq_true_iff.mp hequal with ⟨hv, hw, -⟩ | ⟨r, r', rfl, rfl, -⟩ | ⟨-, -, rfl⟩
    · refine .inl ⟨?_, ?_, .inr hequal⟩
      · cases v <;> first | rfl | cases hv
      · cases w <;> first | rfl | cases hw
    · exact .inl ⟨rfl, rfl, .inr hequal⟩
    · exact hself v

/-- Where records that are the same and meet the same are hashed alike, so are values. -/
theorem value_congr (hrecord : ∀ p q m s s' t t', RecordsSame memory S p q → visitMet p s = .ok (m, t) →
      visitMet q s' = .ok (m, t') → (visit p s).map Prod.fst = (visit q s').map Prod.fst)
    (v w : gc.Value) (m : Met) (s s' t t' : List Address) (hsame : v = w ∨ ValuesSame memory S v w)
    (hv : valueMet memory visitMet v s = .ok (m, t)) (hw : valueMet memory visitMet w s' = .ok (m, t')) :
    (valueHashImpl hashes memory visit v s).map Prod.fst =
      (valueHashImpl hashes memory visit w s').map Prod.fst := by
  rcases same_cases hsame with ⟨hplain, hplain', hequal⟩ | ⟨p, q, rfl, rfl, hp, hq, hpq⟩
  · have hfst {A : Type} (x : Except VmError A) (seen : List Address) :
        (x.map (·, seen)).map Prod.fst = x := by
      cases x <;> rfl
    have hviewed {v : gc.Value} {s t : List Address}
        (h : (viewMet memory v).map (·, s) = .ok (m, t)) : ∃ m, viewMet memory v = .ok m := by
      cases hview : viewMet memory v with
      | error e =>
        rw [hview] at h
        nomatch h
      | ok met => exact ⟨met, rfl⟩
    rw [valueMet_plain hplain] at hv
    rw [valueMet_plain hplain'] at hw
    rw [valueHashImpl_plain hplain, valueHashImpl_plain hplain', hfst, hfst]
    obtain ⟨m₁, hv⟩ := hviewed hv
    obtain ⟨m₂, hw⟩ := hviewed hw
    rcases hequal with rfl | hequal
    · rfl
    · exact hashPlain_congr hequal hv hw
  · have hfst (x : Except VmError (UInt64 × List Address)) :
        (x.map fun (hash, seen) => (hashCombineValue 0x18 hash, seen)).map Prod.fst =
          (x.map Prod.fst).map (hashCombineValue 0x18) := by
      cases x <;> rfl
    rw [valueMet_record hp] at hv
    rw [valueMet_record hq] at hw
    rw [valueHashImpl_record hp, valueHashImpl_record hq, hfst, hfst, hrecord p q m s s' t t' hpq hv hw]

theorem exists_ok_of_outcome {A B : Type} {x : Except VmError (A × List Address)}
    {y : Except VmError (B × List Address)}
    (h : outcome x = outcome y) {b : B} {t : List Address} (hy : y = .ok (b, t)) : ∃ a,
      x = .ok (a, t) := by
  subst hy
  cases x with
  | error e => nomatch h
  | ok result => exact ⟨result.1, congrArg Except.ok (Prod.ext rfl (Except.ok.inj h))⟩

theorem fields_congr (hvisit : ∀ p seen, outcome (visit p seen) = outcome (visitMet p seen))
    (hvalue : ∀ v w m s s' t t', v = w ∨ ValuesSame memory S v w →
      valueMet memory visitMet v s = .ok (m, t) → valueMet memory visitMet w s' = .ok (m, t') →
      (valueHashImpl hashes memory visit v s).map Prod.fst =
      (valueHashImpl hashes memory visit w s').map Prod.fst)
    {fields fields' : List (String × gc.Value)}
    (hsame : ∀ name v w, (name, v) ∈ fields → (name, w) ∈ fields' → v = w ∨ ValuesSame memory S v w)
    {ms : List (String × Met)} {seed : UInt64} {s s' t t' : List Address}
    (h : fieldsMet memory visitMet fields s = .ok (ms, t))
    (h' : fieldsMet memory visitMet fields' s' = .ok (ms, t')) :
    (hashFields hashes memory visit fields seed s).map Prod.fst =
      (hashFields hashes memory visit fields' seed s').map Prod.fst := by
  induction fields generalizing fields' ms seed s s' with
  | nil =>
    cases h
    cases fields' with
    | nil => rfl
    | cons field fields' =>
      obtain ⟨⟨m, t₁⟩, -, h'⟩ := bind_eq_ok.mp h'
      obtain ⟨⟨rest, t₂⟩, -, h'⟩ := bind_eq_ok.mp h'
      nomatch h'
  | cons field fields ih =>
    obtain ⟨name, v⟩ := field
    obtain ⟨⟨m, t₁⟩, hv, h⟩ := bind_eq_ok.mp h
    obtain ⟨⟨rest, t₂⟩, hrest, h⟩ := bind_eq_ok.mp h
    cases Except.ok.inj h
    cases fields' with
    | nil => nomatch h'
    | cons field' fields' =>
      obtain ⟨name', w⟩ := field'
      obtain ⟨⟨m', t₁'⟩, hw, h'⟩ := bind_eq_ok.mp h'
      obtain ⟨⟨rest', t₂'⟩, hrest', h'⟩ := bind_eq_ok.mp h'
      cases Except.ok.inj h'
      obtain ⟨x, hx⟩ := exists_ok_of_outcome (@outcome_value hashes memory _ _ hvisit v s) hv
      obtain ⟨y, hy⟩ := exists_ok_of_outcome (@outcome_value hashes memory _ _ hvisit w s') hw
      have hxy := hvalue v w _ s s' _ _ (hsame name v w List.mem_cons_self List.mem_cons_self) hv hw
      rw [hx, hy] at hxy
      have hxy : x = y := Except.ok.inj hxy
      rw [hashFields, hashFields, hx, hy, hxy]
      exact ih (fun name v w hv hw =>
        hsame name v w (List.mem_cons_of_mem _ hv) (List.mem_cons_of_mem _ hw)) hrest hrest'

theorem mem_instanceFieldNames {type : RuntimeTypeInfo} {field : RuntimeFieldInfo}
    (hfield : field ∈ type.fields)
    (hstatic : field.isStatic = false) : field.name ∈ type.instanceFieldNames := by
  have hfold : ∀ (fields : List RuntimeFieldInfo) (names : List String), field.name ∈ names ∨
      field ∈ fields → field.name ∈ fields.foldl (fun names field => if field.isStatic ∨
      field.name ∈ names then names else names ++ [field.name]) names := by
    intro fields
    induction fields with
    | nil => exact fun names h => h.resolve_right nofun
    | cons other fields ih =>
      intro names h
      refine ih _ ?_
      beta_reduce
      rcases h with h | h
      · split
        · exact .inl h
        · exact .inl (List.mem_append_left _ h)
      · rcases List.mem_cons.mp h with rfl | h
        · split
          next hor => exact .inl (hor.resolve_left (by simp [hstatic]))
          next => exact .inl (List.mem_append_right _ List.mem_cons_self)
        · exact .inr h
  exact hfold type.fields [] (.inr hfield)

theorem mem_hashedFields {box : ObjectBox} {name : String} (h : (name, v) ∈ hashedFields box) :
    box.objectFieldLookup name = some v ∧ (name, v) ∈ namedFields box := by
  unfold hashedFields at h
  split at h
  · nomatch h
  next type htype =>
    obtain ⟨field, hfield, h⟩ := List.mem_filterMap.mp h
    obtain ⟨hstatic, h⟩ := Option.ite_none_left_eq_some.mp h
    obtain ⟨value, hlookup, h⟩ := Option.map_eq_some_iff.mp h
    cases h
    refine ⟨hlookup, ?_⟩
    have hdeclared : field.name ∈ declaredNames box := by
      rw [declaredNames, htype]
      exact mem_instanceFieldNames hfield (Bool.eq_false_iff.mpr hstatic)
    unfold ObjectFields.objectFieldLookup at hlookup
    split at hlookup
    next slot hslot =>
      rw [namedFields_eq]
      refine List.mem_append_left _ (List.mem_iff_getElem?.mpr ⟨slot, ?_⟩)
      rw [List.getElem?_zip_eq_some]
      exact ⟨objectFieldSlot_eq_some_iff.mp hslot, hlookup⟩
    next hslot => exact absurd hdeclared (objectFieldSlot_eq_none_iff.mp hslot)

/-- Records that are the same and meet the same are hashed alike. -/
theorem record_congr (hS : Bisimulation memory S) (room : Nat) : ∀ p q m s s' t t',
    RecordsSame memory S p q → recordMet memory room p s = .ok (m, t) →
    recordMet memory room q s' = .ok (m, t') →
    (recordHash hashes memory room p s).map Prod.fst =
    (recordHash hashes memory room q s').map Prod.fst := by
  induction room with
  | zero =>
    intro p q m s s' t t' hpq hp hq
    rw [recordMet] at hp hq
    rw [recordHash, recordHash]
    by_cases hmem : p ∈ s
    · rw [if_pos hmem] at hp ⊢
      by_cases hmem' : q ∈ s'
      · rw [if_pos hmem'] at hq ⊢
        cases hp
        cases hq
        rfl
      · rw [if_neg hmem'] at hq
        nomatch hq
    · rw [if_neg hmem] at hp
      nomatch hp
  | succ room ih =>
    intro p q m s s' t t' hpq hp hq
    rw [recordMet] at hp hq
    rw [recordHash, recordHash]
    have hmap {x : Except VmError (List (String × Met) × List Address)} {m : Met} {t : List Address}
        (h : x.map (fun (fields, seen) => (Met.first fields, seen)) = .ok (m, t)) : ∃ ms,
          x = .ok (ms, t) ∧ m = .first ms := by
      cases x with
      | error e => nomatch h
      | ok result =>
        cases h
        exact ⟨result.1, rfl, rfl⟩
    by_cases hmem : p ∈ s
    · rw [if_pos hmem] at hp
      cases hp
      by_cases hmem' : q ∈ s'
      · rw [if_pos hmem'] at hq
        cases hq
        rw [if_pos hmem, if_pos hmem']
        rfl
      · rw [if_neg hmem'] at hq
        obtain ⟨ms, -, hms⟩ := hmap hq
        nomatch hms
    · rw [if_neg hmem] at hp
      obtain ⟨ms, hfields, rfl⟩ := hmap hp
      by_cases hmem' : q ∈ s'
      · rw [if_pos hmem'] at hq
        nomatch hq
      · rw [if_neg hmem'] at hq
        obtain ⟨ms', hfields', hms⟩ := hmap hq
        cases hms
        rw [if_neg hmem, if_neg hmem']
        have hclass : (objectAt memory.heap p).className = (objectAt memory.heap q).className := by
          rcases hpq with rfl | ⟨hclass, -⟩
          · rfl
          · exact (sameClass_iff.mp hclass).2.2
        dsimp only
        rw [hclass]
        refine fields_congr (outcome_record room) (value_congr ih)
          (fun name v w hv hw => ?_) hfields hfields'
        obtain ⟨hlookup, hnamed⟩ := mem_hashedFields hv
        obtain ⟨hlookup', -⟩ := mem_hashedFields hw
        rcases hpq with rfl | ⟨-, hpair⟩
        · exact .inl (Option.some.inj (hlookup.symm.trans hlookup'))
        · obtain ⟨u, hu, hsame⟩ := hS.fields p q hpair (name, v) hnamed
          exact .inr (Option.some.inj (hu.symm.trans hlookup') ▸ hsame)

/-- Values that are the same have one hash, if hashing meets the same records again, and fields in
    the same order. -/
theorem valueHashCode_congr (hashes : Hashes) (memory : Memory) (v w : gc.Value)
    (hequal : valuesEqual memory v w = .ok true) (hmet : metBy memory v = metBy memory w) :
    valueHashCode hashes memory v = valueHashCode hashes memory w := by
  obtain ⟨S, hS, hsame⟩ := same_iff.mp (same_of_valuesEqual hequal)
  have houtcome (v : gc.Value) :=
    @outcome_value hashes memory _ _ (@outcome_record hashes memory maximumRoom) v []
  unfold valueHashCode metBy at *
  have hfst (x : Except VmError (UInt64 × List Address)) :
      (x.map fun (hash, _) => (hash &&& 0x7fffffffffffffff).toInt64) =
      (x.map Prod.fst).map fun hash => (hash &&& 0x7fffffffffffffff).toInt64 := by
    cases x <;> rfl
  rw [hfst, hfst]
  congr 1
  cases hv : valueMet memory (recordMet memory maximumRoom) v [] with
  | error e =>
    have hw : valueMet memory (recordMet memory maximumRoom) w [] = .error e := by
      rw [hv] at hmet
      cases hw : valueMet memory (recordMet memory maximumRoom) w [] with
      | error e' =>
        rw [hw] at hmet
        exact congrArg Except.error (Except.error.inj hmet).symm
      | ok result =>
        rw [hw] at hmet
        nomatch hmet
    have herror {x : Except VmError (UInt64 × List Address)} (h : outcome x = .error e) :
        x = .error e := by
      cases x with
      | error e' => exact congrArg Except.error (Except.error.inj h)
      | ok result => nomatch h
    rw [herror ((houtcome v).trans (by rw [hv]; rfl)), herror ((houtcome w).trans (by rw [hw]; rfl))]
  | ok result =>
    cases hw : valueMet memory (recordMet memory maximumRoom) w [] with
    | error e =>
      rw [hv, hw] at hmet
      nomatch hmet
    | ok result' =>
      rw [hv, hw] at hmet
      have hm : result.1 = result'.1 := Except.ok.inj hmet
      exact value_congr (record_congr hS maximumRoom) v w result.1 [] [] result.2 result'.2
        (.inr hsame) hv (hm ▸ hw)

end

/-- `std::hash` of the GNU library for a string of less than eight bytes. -/
def shortHash (bytes : List UInt8) : UInt64 :=
  let mul : UInt64 := 0xc6a4a7935bd1e995
  let shiftMix (v : UInt64) := v ^^^ (v >>> (47 : UInt64))
  let start := 0xc70f6907 ^^^ (UInt64.ofNat bytes.length * mul)
  let data := bytes.foldr (fun byte data => (data <<< (8 : UInt64)) + byte.toUInt64) 0
  let hash := if bytes.isEmpty then start else (start ^^^ data) * mul
  shiftMix (shiftMix hash * mul)

/-- Boxes that lie one after the other. -/
def boxPointer (handle : Option Address) : UInt64 :=
  (handle.map fun a => 0x7f0000000000 + UInt64.ofNat (256 * a)).getD 0

def standardHashes : Hashes where
  string := shortHash
  bool held := if held then 1 else 0
  int64 := Int64.toUInt64
  double held := UInt64.ofNat held.toBits
  uint64 := UInt64.ofNat
  box _ := boxPointer
  pointer := boxPointer
  data := UInt64.ofNat

def pairRecord (x y : Address) : ObjectBox where
  className := "Pair"
  runtimeType := some { name := "Pair", isDataType := true, fields := [{ name := "x" }, { name := "y" }] }
  fields := [.box .object (some x), .box .object (some y)]
  fields_le := Nat.le_refl 2

def leafRecord : ObjectBox where
  className := "Leaf"
  runtimeType := some { name := "Leaf", isDataType := true, fields := [{ name := "n" }] }
  fields := [.int 7]
  fields_le := Nat.le_refl 1

/-- A pair of one leaf at 0, and one of two leaves at 2. -/
def sharedMemory : Memory where
  heap :=
      { boxes := tabulate 5 fun a =>
          if a = 0 then pairRecord 1 1 else if a = 2 then pairRecord 3 4 else leafRecord }
  natives _ := .handle 1

theorem valueHashCode_congr_leaf :
    valueHashCode standardHashes sharedMemory (.box .object (some 3)) =
      valueHashCode standardHashes sharedMemory (.box .object (some 4)) :=
  valueHashCode_congr standardHashes sharedMemory _ _ (by decide +kernel) rfl

/-- The pairs are equal and are not hashed alike. -/
theorem sharedLeaf_hashed_apart : ¬∀ hashes memory v w, valuesEqual memory v w = .ok true →
    valueHashCode hashes memory v = valueHashCode hashes memory w := by
  intro h
  have hsame :=
    h standardHashes sharedMemory (.box .object (some 0)) (.box .object (some 2)) (by decide +kernel)
  exact absurd hsame (by decide +kernel)

end zl.vm.value
