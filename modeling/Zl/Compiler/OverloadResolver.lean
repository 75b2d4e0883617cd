import Mathlib.Data.List.Perm.Basic
import Zl.Compiler.SemanticModel

namespace zl.compiler

/-- A method and the class that declares it. -/
abbrev Candidate := String × ClassMethodInfo

/-- `TypeChecker::isAssignable`, of two kinds and their class names. -/
abbrev Assignable := ZlType → ZlType → String → String → Bool

/-- The kinds whose class names an exact match compares. -/
def needsIdentity : ZlType → Bool
  | .OBJECT | .LIST | .MAP | .SET | .ARRAY | .UNION | .TASK => true
  | _ => false

/-- A call: the kinds of the arguments, and their class names as far as they are known. -/
structure Arguments where
  argTypes : List ZlType
  argClassNames : List String

namespace Arguments
variable (args : Arguments) (checker : Assignable)

def argType (i : Nat) : ZlType := args.argTypes.getD i .UNKNOWN

def argClass (i : Nat) : String := args.argClassNames.getD i ""

def exactAt (method : ClassMethodInfo) (i : Nat) : Bool :=
  args.argType i = method.paramType i &&
    !(args.argClass i ≠ "" && method.paramClass i ≠ "" && needsIdentity (args.argType i) &&
      args.argClass i ≠ method.paramClass i)

def assignableAt (method : ClassMethodInfo) (i : Nat) : Bool :=
  checker (args.argType i) (method.paramType i) (args.argClass i) (method.paramClass i)

def allExact (c : Candidate) : Bool := (List.range args.argTypes.length).all (args.exactAt c.2)

def allAssignable (c : Candidate) : Bool :=
  (List.range args.argTypes.length).all (args.assignableAt checker c.2)

end Arguments

section
variable (checker : Assignable)

/-- Both parameters are objects of known classes. -/
def bothNamed (candidate other : ClassMethodInfo) (i : Nat) : Bool :=
  candidate.paramType i = .OBJECT && other.paramType i = .OBJECT && candidate.paramClass i ≠ "" &&
    other.paramClass i ≠ ""

def atLeastAsSpecificAt (candidate other : ClassMethodInfo) (i : Nat) : Bool :=
  if bothNamed candidate other i then
    checker .OBJECT .OBJECT (other.paramClass i) (candidate.paramClass i)
  else candidate.paramType i = other.paramType i

def strictlyMoreSpecificAt (candidate other : ClassMethodInfo) (i : Nat) : Bool :=
  bothNamed candidate other i && candidate.paramClass i ≠ other.paramClass i &&
    checker .OBJECT .OBJECT (other.paramClass i) (candidate.paramClass i)

/-- Whether a candidate is dominated by another. None is by itself, so that the loop of the
    source, which leaves out the candidate itself, comes to the same. -/
def dominatedBy (candidate other : Candidate) : Bool :=
  candidate.2.paramTypes.length = other.2.paramTypes.length &&
    (List.range candidate.2.paramTypes.length).all (atLeastAsSpecificAt checker candidate.2 other.2) &&
    (List.range candidate.2.paramTypes.length).any (strictlyMoreSpecificAt checker candidate.2 other.2)

def describeCandidates (candidates : List Candidate) (methodName : String) : String :=
  String.join (candidates.map fun c => "\n  - " ++ c.1 ++ "." ++ methodName ++ methodParamSignature c.2)

def arityMatches (candidates : List Candidate) (args : Arguments) : List Candidate :=
  candidates.filter fun c => c.2.paramTypes.length = args.argTypes.length

def exactMatches (candidates : List Candidate) (args : Arguments) : List Candidate :=
  (arityMatches candidates args).filter args.allExact

def wideningMatches (candidates : List Candidate) (args : Arguments) : List Candidate :=
  (arityMatches candidates args).filter (args.allAssignable checker)

def maximalMatches (candidates : List Candidate) (args : Arguments) : List Candidate :=
  (wideningMatches checker candidates args).filter fun candidate =>
    !(wideningMatches checker candidates args).any (dominatedBy checker candidate)

/-- `OverloadResolver::resolve`. The owner is the first part of the candidate. -/
def resolve (candidates : List Candidate) (args : Arguments) (methodName : String) (line : Nat) :
    Except String Candidate :=
  let fail (reason : String) : Except String Candidate :=
    .error (typeError (reason ++ describeCandidates candidates methodName) line)
  if (arityMatches candidates args).isEmpty then
    fail s!"no overload of '{methodName}' takes {args.argTypes.length} argument(s); candidates are:"
  else match exactMatches candidates args with
    | [c] => .ok c
    | _ :: _ :: _ => fail s!"ambiguous call to '{methodName}' - multiple overloads match exactly:"
    | [] => match wideningMatches checker candidates args with
      | [c] => .ok c
      | [] => fail s!"no overload of '{methodName}' matches the given argument types; candidates are:"
      | _ :: _ :: _ => match maximalMatches checker candidates args with
        | [c] => .ok c
        | _ =>
          fail s!"ambiguous call to '{methodName}' - multiple overloads match after widening conversions:"

end

/-- One element of the list has the property and no other. -/
def Only {A : Type} (p : A → Prop) (l : List A) (a : A) : Prop :=
  ∃ front back, l = front ++ a :: back ∧ p a ∧ ∀ b ∈ front ++ back, ¬ p b

/-- The candidate takes as many arguments, each of the kind of its parameter, and of the same class
    where the kind is compared by name and both names are known. -/
structure Exact (args : Arguments) (c : Candidate) : Prop where
  arity : c.2.paramTypes.length = args.argTypes.length
  types : ∀ i < args.argTypes.length, args.argType i = c.2.paramType i
  names : ∀ i < args.argTypes.length, needsIdentity (args.argType i) = true → args.argClass i ≠ "" →
    c.2.paramClass i ≠ "" → args.argClass i = c.2.paramClass i

section
variable (checker : Assignable)

structure Applicable (args : Arguments) (c : Candidate) : Prop where
  arity : c.2.paramTypes.length = args.argTypes.length
  assignable : ∀ i < args.argTypes.length,
    checker (args.argType i) (c.2.paramType i) (args.argClass i) (c.2.paramClass i) = true

/-- At each position the parameters are of one kind, and where both are objects of known classes
    the first is assignable to the second. -/
structure AtLeastAsSpecific (e d : ClassMethodInfo) : Prop where
  arity : d.paramTypes.length = e.paramTypes.length
  types : ∀ i < d.paramTypes.length, d.paramType i = e.paramType i
  named : ∀ i < d.paramTypes.length, bothNamed d e i = true →
    checker .OBJECT .OBJECT (e.paramClass i) (d.paramClass i) = true

/-- At least as specific, and of another class at some position. -/
structure MoreSpecific (e d : ClassMethodInfo) : Prop extends AtLeastAsSpecific checker e d where
  differs : ∃ i < d.paramTypes.length, bothNamed d e i = true ∧ d.paramClass i ≠ e.paramClass i

/-- Applicable, and no other that is applicable is more specific. -/
structure MostSpecific (args : Arguments) (candidates : List Candidate) (c : Candidate) : Prop extends
    Applicable checker args c where
  maximal : ∀ e ∈ candidates, Applicable checker args e → ¬ MoreSpecific checker e.2 c.2

structure IsPreorder : Prop where
  refl : ∀ type name, checker type type name name = true
  trans : ∀ {r s t a b c}, checker r s a b = true → checker s t b c = true → checker r t a c = true

end

theorem filter_eq_singleton_iff {A : Type} {p : A → Bool} {l : List A} {a : A} :
    l.filter p = [a] ↔ Only (p · = true) l a := by
  simp only [Only, List.filter_eq_cons_iff, List.filter_eq_nil_iff, List.mem_append, or_imp, forall_and]
  exact ⟨fun ⟨front, back, hl, hfront, ha, hback⟩ => ⟨front, back, hl, ha, hfront, hback⟩,
    fun ⟨front, back, hl, ha, hfront, hback⟩ => ⟨front, back, hl, hfront, ha, hback⟩⟩

section
variable {A : Type} {p q : A → Prop} {l : List A} {a : A}

theorem Only.mem (h : Only p l a) : a ∈ l := by
  obtain ⟨front, back, rfl, -⟩ := h
  simp

theorem Only.holds (h : Only p l a) : p a := by
  obtain ⟨_, _, -, ha, -⟩ := h
  exact ha

theorem only_congr (hpq : ∀ b ∈ l, p b ↔ q b) : Only p l a ↔ Only q l a := by
  unfold Only
  refine exists_congr fun front => exists_congr fun back => and_congr_right fun hl => ?_
  subst hl
  refine and_congr (hpq a (by simp)) (forall_congr' fun b => forall_congr' fun hb => ?_)
  refine not_congr (hpq b ?_)
  simp only [List.mem_append, List.mem_cons] at hb ⊢
  tauto

/-- Two lists of the same elements are both empty, the same single element, or have at least two. -/
theorem perm_cases {l l' : List A} (h : l.Perm l') :
    (l = [] ∧ l' = []) ∨ (∃ a, l = [a] ∧ l' = [a]) ∨
      ∃ a b rest a' b' rest', l = a :: b :: rest ∧ l' = a' :: b' :: rest' := by
  match l, l' with
  | [], l' => exact .inl ⟨rfl, h.nil_eq.symm⟩
  | [a], l' => exact .inr (.inl ⟨a, rfl, List.perm_singleton.mp h.symm⟩)
  | _ :: _ :: _, [] => nomatch h.length_eq
  | _ :: _ :: _, [_] => simp at h
  | a :: b :: rest, a' :: b' :: rest' => exact .inr (.inr ⟨a, b, rest, a', b', rest', rfl, rfl⟩)

end

theorem exactAt_iff {args : Arguments} {method : ClassMethodInfo} {i : Nat} :
    args.exactAt method i = true ↔ args.argType i = method.paramType i ∧
      (needsIdentity (args.argType i) = true → args.argClass i ≠ "" → method.paramClass i ≠ "" →
        args.argClass i = method.paramClass i) := by
  simp only [Arguments.exactAt, Bool.and_eq_true, decide_eq_true_eq, Bool.not_eq_true',
    Bool.and_eq_false_iff, decide_eq_false_iff_not, not_not]
  refine and_congr_right fun _ => ?_
  cases needsIdentity (args.argType i)
  · simp
  · tauto

theorem allExact_iff {args : Arguments} {c : Candidate}
    (harity : c.2.paramTypes.length = args.argTypes.length) :
    args.allExact c = true ↔ Exact args c := by
  simp only [Arguments.allExact, List.all_eq_true, List.mem_range, exactAt_iff]
  exact ⟨fun h => ⟨harity, fun i hi => (h i hi).1, fun i hi => (h i hi).2⟩,
    fun h i hi => ⟨h.types i hi, h.names i hi⟩⟩

section
variable {checker : Assignable} {args : Arguments} {c d e : Candidate}

theorem allAssignable_iff (harity : c.2.paramTypes.length = args.argTypes.length) :
    args.allAssignable checker c = true ↔ Applicable checker args c := by
  simp only [Arguments.allAssignable, List.all_eq_true, List.mem_range, Arguments.assignableAt]
  exact ⟨fun h => ⟨harity, h⟩, fun h => h.assignable⟩

theorem atLeastAsSpecific_iff {e d : ClassMethodInfo} :
    AtLeastAsSpecific checker e d ↔ d.paramTypes.length = e.paramTypes.length ∧
      ∀ i < d.paramTypes.length, atLeastAsSpecificAt checker d e i = true := by
  constructor
  · intro h
    refine ⟨h.arity, fun i hi => ?_⟩
    unfold atLeastAsSpecificAt
    split
    case isTrue hnamed => exact h.named i hi hnamed
    case isFalse => simpa using h.types i hi
  · rintro ⟨harity, h⟩
    refine ⟨harity, fun i hi => ?_, fun i hi hnamed => ?_⟩
    · have hat := h i hi
      unfold atLeastAsSpecificAt at hat
      split at hat
      case isTrue hnamed =>
        simp only [bothNamed, Bool.and_eq_true, decide_eq_true_eq] at hnamed
        rw [hnamed.1.1.1, hnamed.1.1.2]
      case isFalse => simpa using hat
    · simpa [atLeastAsSpecificAt, hnamed] using h i hi

theorem dominatedBy_iff : dominatedBy checker d e = true ↔ MoreSpecific checker e.2 d.2 := by
  simp only [dominatedBy, Bool.and_eq_true, decide_eq_true_eq, List.all_eq_true, List.any_eq_true,
    List.mem_range, strictlyMoreSpecificAt]
  constructor
  · rintro ⟨⟨harity, hall⟩, i, hi, ⟨hnamed, hne⟩, -⟩
    exact ⟨atLeastAsSpecific_iff.mpr ⟨harity, hall⟩, i, hi, hnamed, hne⟩
  · rintro ⟨hleast, i, hi, hnamed, hne⟩
    exact ⟨atLeastAsSpecific_iff.mp hleast, i, hi, ⟨hnamed, hne⟩, hleast.named i hi hnamed⟩

theorem MoreSpecific.irrefl (d : ClassMethodInfo) : ¬ MoreSpecific checker d d := by
  rintro ⟨-, i, -, -, hne⟩
  exact hne rfl

variable {candidates candidates' : List Candidate} {methodName : String} {line : Nat}

theorem mem_arityMatches : c ∈ arityMatches candidates args ↔
    c ∈ candidates ∧ c.2.paramTypes.length = args.argTypes.length := by
  simp [arityMatches]

theorem exactMatches_eq_nil_iff : exactMatches candidates args = [] ↔ ∀ e ∈ candidates, ¬ Exact args e := by
  simp only [exactMatches, List.filter_eq_nil_iff, mem_arityMatches]
  constructor
  · intro h e he hexact
    exact h e ⟨he, hexact.arity⟩ ((allExact_iff hexact.arity).mpr hexact)
  · rintro h e ⟨he, harity⟩ hexact
    exact h e he ((allExact_iff harity).mp hexact)

theorem exactMatches_eq_singleton_iff :
    exactMatches candidates args = [c] ↔ Only (Exact args) candidates c := by
  simp only [exactMatches, arityMatches, List.filter_filter, filter_eq_singleton_iff]
  refine only_congr fun e _ => ?_
  simp only [Bool.and_eq_true, decide_eq_true_eq]
  exact ⟨fun h => (allExact_iff h.2).mp h.1, fun h => ⟨(allExact_iff h.arity).mpr h, h.arity⟩⟩

theorem mem_wideningMatches : c ∈ wideningMatches checker candidates args ↔
    c ∈ candidates ∧ Applicable checker args c := by
  simp only [wideningMatches, List.mem_filter, mem_arityMatches, and_assoc]
  refine and_congr_right fun _ => ?_
  exact ⟨fun h => (allAssignable_iff h.1).mp h.2, fun h => ⟨h.arity, (allAssignable_iff h.arity).mpr h⟩⟩

theorem filter_wideningMatches_eq_singleton_iff {p : Candidate → Bool} :
    (wideningMatches checker candidates args).filter p = [c] ↔
      Only (fun e => Applicable checker args e ∧ p e = true) candidates c := by
  simp only [wideningMatches, arityMatches, List.filter_filter, filter_eq_singleton_iff]
  refine only_congr fun e _ => ?_
  simp only [Bool.and_eq_true, decide_eq_true_eq]
  constructor
  · rintro ⟨hp, hassign, harity⟩
    exact ⟨(allAssignable_iff harity).mp hassign, hp⟩
  · rintro ⟨h, hp⟩
    exact ⟨hp, (allAssignable_iff h.arity).mpr h, h.arity⟩

theorem undominated_iff : (!(wideningMatches checker candidates args).any (dominatedBy checker d)) = true ↔
    ∀ e ∈ candidates, Applicable checker args e → ¬ MoreSpecific checker e.2 d.2 := by
  simp only [Bool.not_eq_true', List.any_eq_false, mem_wideningMatches, and_imp, dominatedBy_iff]

theorem maximalMatches_eq_singleton_iff : maximalMatches checker candidates args = [c] ↔
    Only (MostSpecific checker args candidates) candidates c := by
  rw [maximalMatches, filter_wideningMatches_eq_singleton_iff]
  refine only_congr fun e _ => ?_
  rw [undominated_iff]
  exact ⟨fun h => ⟨h.1, h.2⟩, fun h => ⟨h.toApplicable, h.maximal⟩⟩

theorem maximalMatches_of_singleton (h : wideningMatches checker candidates args = [c]) :
    maximalMatches checker candidates args = [c] := by
  have hself : dominatedBy checker c c = false :=
    Bool.eq_false_iff.mpr fun hdom => MoreSpecific.irrefl c.2 (dominatedBy_iff.mp hdom)
  simp [maximalMatches, h, hself]

theorem resolve_eq_ok_iff : resolve checker candidates args methodName line = .ok c ↔
    Only (Exact args) candidates c ∨
      (∀ e ∈ candidates, ¬ Exact args e) ∧ Only (MostSpecific checker args candidates) candidates c := by
  rw [← exactMatches_eq_singleton_iff, ← exactMatches_eq_nil_iff, ← maximalMatches_eq_singleton_iff]
  unfold resolve
  split
  case isTrue hempty =>
    simp only [List.isEmpty_iff] at hempty
    simp [exactMatches, maximalMatches, wideningMatches, hempty]
  case isFalse =>
    split
    case h_1 e hexact => simp [hexact]
    case h_2 hexact => simp [hexact]
    case h_3 hexact =>
      split
      case h_1 e hwidening => simp [hexact, maximalMatches_of_singleton hwidening]
      case h_2 hwidening => simp [hexact, maximalMatches, hwidening]
      case h_3 hwidening =>
        split
        case h_1 e hmaximal => simp [hexact, hmaximal]
        case h_2 hmaximal =>
          simp only [hexact, true_and, reduceCtorEq, false_or, false_iff]
          exact hmaximal c

/-- The argument suits the parameter, or is of its kind where an exact match does not compare the
    names: a kind that is not compared by name, or a name that is not known. -/
def SuitsAt (checker : Assignable) (args : Arguments) (c : Candidate) (i : Nat) : Prop :=
  checker (args.argType i) (c.2.paramType i) (args.argClass i) (c.2.paramClass i) = true ∨
    args.argType i = c.2.paramType i ∧
      (needsIdentity (args.argType i) = false ∨ args.argClass i = "" ∨ c.2.paramClass i = "")

theorem Exact.suitsAt (hchecker : IsPreorder checker) (h : Exact args c) {i : Nat}
    (hi : i < args.argTypes.length) : SuitsAt checker args c i := by
  by_cases hnames : args.argClass i = c.2.paramClass i
  · left
    rw [h.types i hi, hnames]
    exact hchecker.refl _ _
  · right
    refine ⟨h.types i hi, ?_⟩
    cases hkind : needsIdentity (args.argType i)
    · exact .inl rfl
    · by_contra hknown
      simp only [not_or] at hknown
      exact hnames (h.names i hi hkind hknown.2.1 hknown.2.2)

theorem chosen_suits (hchecker : IsPreorder checker)
    (h : resolve checker candidates args methodName line = .ok c) :
    c ∈ candidates ∧ c.2.paramTypes.length = args.argTypes.length ∧
      ∀ i < args.argTypes.length, SuitsAt checker args c i := by
  rcases resolve_eq_ok_iff.mp h with hexact | ⟨-, hmost⟩
  · exact ⟨hexact.mem, hexact.holds.arity, fun i hi => hexact.holds.suitsAt hchecker hi⟩
  · exact ⟨hmost.mem, hmost.holds.arity, fun i hi => .inl (hmost.holds.assignable i hi)⟩

theorem exactMatches_perm (h : candidates.Perm candidates') :
    (exactMatches candidates args).Perm (exactMatches candidates' args) :=
  (h.filter _).filter _

theorem wideningMatches_perm (h : candidates.Perm candidates') :
    (wideningMatches checker candidates args).Perm (wideningMatches checker candidates' args) :=
  (h.filter _).filter _

theorem maximalMatches_perm (h : candidates.Perm candidates') :
    (maximalMatches checker candidates args).Perm (maximalMatches checker candidates' args) := by
  have htest : ∀ d, (!(wideningMatches checker candidates args).any (dominatedBy checker d)) =
      !(wideningMatches checker candidates' args).any (dominatedBy checker d) := by
    intro d
    rw [Bool.eq_iff_iff, undominated_iff, undominated_iff]
    simp only [h.mem_iff]
  unfold maximalMatches
  simp only [htest]
  exact (wideningMatches_perm h).filter _

/-- The same candidate, or errors for the same reason, each of which lists the candidates in its own
    order. -/
def SameOutcome (candidates candidates' : List Candidate) (methodName : String) (line : Nat)
    (outcome outcome' : Except String Candidate) : Prop :=
  (∃ c, outcome = .ok c ∧ outcome' = .ok c) ∨
    ∃ reason, outcome = .error (typeError (reason ++ describeCandidates candidates methodName) line) ∧
      outcome' = .error (typeError (reason ++ describeCandidates candidates' methodName) line)

theorem resolve_perm (h : candidates.Perm candidates') :
    SameOutcome candidates candidates' methodName line (resolve checker candidates args methodName line)
      (resolve checker candidates' args methodName line) := by
  have harity : (arityMatches candidates args).isEmpty = (arityMatches candidates' args).isEmpty :=
    List.Perm.isEmpty_eq (h.filter _)
  unfold resolve
  rw [← harity]
  split
  case isTrue => exact .inr ⟨_, rfl, rfl⟩
  case isFalse =>
    have hexact : (exactMatches candidates args).Perm (exactMatches candidates' args) :=
      exactMatches_perm h
    have hwidening : (wideningMatches checker candidates args).Perm
        (wideningMatches checker candidates' args) := wideningMatches_perm h
    have hmaximal : (maximalMatches checker candidates args).Perm
        (maximalMatches checker candidates' args) := maximalMatches_perm h
    obtain ⟨he, he'⟩ | ⟨c, he, he'⟩ | ⟨_, _, _, _, _, _, he, he'⟩ := perm_cases hexact
    · obtain ⟨hw, hw'⟩ | ⟨c, hw, hw'⟩ | ⟨_, _, _, _, _, _, hw, hw'⟩ := perm_cases hwidening
      · simp only [he, he', hw, hw']
        exact .inr ⟨_, rfl, rfl⟩
      · simp only [he, he', hw, hw']
        exact .inl ⟨c, rfl, rfl⟩
      · simp only [he, he', hw, hw']
        obtain ⟨hm, hm'⟩ | ⟨c, hm, hm'⟩ | ⟨_, _, _, _, _, _, hm, hm'⟩ := perm_cases hmaximal
        · simp only [hm, hm']
          exact .inr ⟨_, rfl, rfl⟩
        · simp only [hm, hm']
          exact .inl ⟨c, rfl, rfl⟩
        · simp only [hm, hm']
          exact .inr ⟨_, rfl, rfl⟩
    · simp only [he, he']
      exact .inl ⟨c, rfl, rfl⟩
    · simp only [he, he']
      exact .inr ⟨_, rfl, rfl⟩

/-- The only exact match is chosen, or else the only applicable candidate than which no other is more
    specific. Every argument suits the parameter of the chosen candidate, and the order of the list
    decides nothing but how an error lists the candidates. -/
theorem resolve_picks_best (hchecker : IsPreorder checker) (candidates : List Candidate) (args : Arguments)
    (methodName : String) (line : Nat) :
    (∀ c, resolve checker candidates args methodName line = .ok c ↔
      Only (Exact args) candidates c ∨
        (∀ e ∈ candidates, ¬ Exact args e) ∧ Only (MostSpecific checker args candidates) candidates c) ∧
    (∀ c, resolve checker candidates args methodName line = .ok c →
      c ∈ candidates ∧ c.2.paramTypes.length = args.argTypes.length ∧
        ∀ i < args.argTypes.length, SuitsAt checker args c i) ∧
    ∀ candidates', candidates.Perm candidates' →
      SameOutcome candidates candidates' methodName line
        (resolve checker candidates args methodName line)
        (resolve checker candidates' args methodName line) :=
  ⟨fun _ => resolve_eq_ok_iff, fun _ => chosen_suits hchecker, fun _ => resolve_perm⟩

end

/-- Assignability where `Child` derives from `Base` and there are no other classes. -/
def sampleAssignable : Assignable := fun source target a b =>
  source = target && a = b || source = .INT && target = .DOUBLE ||
    source = .OBJECT && target = .OBJECT && a = "Child" && b = "Base"

theorem sampleAssignable_isPreorder : IsPreorder sampleAssignable where
  refl type name := by simp [sampleAssignable]
  trans := by
    intro r s t a b c hrs hst
    simp only [sampleAssignable, Bool.or_eq_true, Bool.and_eq_true, decide_eq_true_eq] at hrs hst ⊢
    grind

def sampleMethod (paramTypes : List ZlType) (paramClassNames : List String) : Candidate :=
  ("Store", ⟨paramTypes, paramClassNames, [], false⟩)

/-- Overloads that take a `Base` and a `Child`, called with a `Child`. -/
theorem resolve_picks_best_sample :
    let candidates := [sampleMethod [.OBJECT] ["Base"], sampleMethod [.OBJECT] ["Child"]]
    let call (name : String) : Arguments := ⟨[.OBJECT], [name]⟩
    IsPreorder sampleAssignable ∧
      resolve sampleAssignable candidates (call "Child") "put" 3 = .ok (sampleMethod [.OBJECT] ["Child"]) ∧
      Only (Exact (call "Child")) candidates (sampleMethod [.OBJECT] ["Child"]) := by
  intro candidates call
  have hresolve : resolve sampleAssignable candidates (call "Child") "put" 3 =
      .ok (sampleMethod [.OBJECT] ["Child"]) := rfl
  refine ⟨sampleAssignable_isPreorder, hresolve, ?_⟩
  obtain ⟨hpicks, -, -⟩ := resolve_picks_best sampleAssignable_isPreorder candidates (call "Child") "put" 3
  refine ((hpicks _).mp hresolve).resolve_right ?_
  rintro ⟨hnone, -⟩
  refine hnone (sampleMethod [.OBJECT] ["Child"]) (by simp [candidates]) ⟨rfl, ?_, ?_⟩
  · decide
  · decide

/-- A function argument whose signature is not that of the parameter is an exact match, since an
    exact match does not compare signatures; and an overload more specific in one position is not
    preferred where another position takes a number of another kind. -/
theorem resolve_departs :
    IsPreorder sampleAssignable ∧
    (let handler := sampleMethod [.FUNCTION] ["func(int):int"]
     let call : Arguments := ⟨[.FUNCTION], ["func(string):int"]⟩
     resolve sampleAssignable [handler] call "on" 1 = .ok handler ∧
      ¬ Applicable sampleAssignable call handler) ∧
    (let whole := sampleMethod [.INT, .OBJECT] ["", "Base"]
     let wide := sampleMethod [.DOUBLE, .OBJECT] ["", "Base"]
     let call : Arguments := ⟨[.INT, .OBJECT], ["", "Child"]⟩
     Applicable sampleAssignable call whole ∧ Applicable sampleAssignable call wide ∧
       (∀ i < 2, sampleAssignable (whole.2.paramType i) (wide.2.paramType i) (whole.2.paramClass i)
         (wide.2.paramClass i) = true) ∧
       sampleAssignable (wide.2.paramType 0) (whole.2.paramType 0) (wide.2.paramClass 0)
         (whole.2.paramClass 0) = false ∧
       ∃ message, resolve sampleAssignable [whole, wide] call "take" 1 = .error message) := by
  refine ⟨sampleAssignable_isPreorder, ⟨rfl, ?_⟩, ⟨rfl, by decide⟩, ⟨rfl, by decide⟩, by decide,
    by decide, _, rfl⟩
  intro happ
  exact absurd (happ.assignable 0 (by decide)) (by decide)

end zl.compiler
