import Zl.Mir.ConstantSoundness
import Zl.Mir.DominanceFrontier
import Zl.Mir.Verifier.DefinitionSoundness

open Relation zl.graph zl.vm zl.vm.value zl.mir.ControlFlowGraph zl.mir.interpreter

namespace zl.mir.Verifier

section
variable (f : Function) (operand : Operand)

/-- A test of the operand's type. -/
structure TestOf (test : Instruction) : Prop where
  opcode : test.opcode = .TypeTest
  subject : ∃ subject rest, test.operands = subject :: rest ∧ subject.kind = operand.kind ∧
    subject.index = operand.index

/-- A block whose end branches on a test that it made of the operand. -/
structure BranchesOn (p : BasicBlock) (test : Instruction) : Prop where
  mem : p ∈ f.blocks
  kind : p.terminator.kind = .Branch
  arms : p.terminator.target ≠ p.terminator.elseBlock
  value : p.terminator.value.kind = .Temp
  place : ∃ index, definition f p.terminator.value.index = some ⟨p, index, test⟩
  tested : TestOf operand test

/-- At most one member of the declared union stands on this side of the test. -/
def Narrows (rules : TypeRules) (test : Instruction) (yes : Bool) : Prop :=
  ∃ declared, rules.find operand.type = some declared ∧ declared.kind = .Union ∧
    ∀ member ∈ declared.arguments, ∀ other ∈ declared.arguments,
      rules.assignable member test.testedType = yes → rules.assignable other test.testedType = yes →
        member ≠ kNoType → other ≠ kNoType → member = other

/-- The blocks of an arm of a test: the target of the branch, and what jumps alone lead to. Each of
    them has one normal edge. -/
inductive ArmOf (p : BasicBlock) (test : Instruction) (yes : Bool) : BlockId → Prop
  | arm {current : BlockId} (hbranch : BranchesOn f operand p test)
      (hedge : predecessors f current = [p.id])
      (hcurrent : (if yes then p.terminator.target else p.terminator.elseBlock) = current) :
        ArmOf p test yes current
  | jump {b : BasicBlock} {current : BlockId} (hb : b ∈ f.blocks) (hkind : b.terminator.kind = .Jump)
      (hedge : predecessors f current = [b.id]) (hearlier : ArmOf p test yes b.id) :
        ArmOf p test yes current

end

section
variable {rules : TypeRules} {m : Module} {f : Function} {operand : Operand} {p : BasicBlock}
  {test : Instruction} {yes : Bool}

/-- A type other than the declared one is the type of an arm. -/
theorem refinedTypeFrom_arm (hids : f.DistinctIds) {steps : Nat} {current : BlockId} {refined : TypeId}
    (h : refinedTypeFrom rules f operand steps current = refined) (hne : operand.type ≠ refined) :
    ∃ p test yes, ArmOf f operand p test yes current ∧
      refineUnionToTestedMember rules operand.type test.testedType yes = refined := by
  induction steps generalizing current with
  | zero => exact absurd h hne
  | succ steps ih =>
    rw [refinedTypeFrom] at h
    split at h
    case h_2 => exact absurd h hne
    next pred hedge =>
    split at h
    · exact absurd h hne
    next b hb =>
    obtain ⟨hmem, rfl⟩ := blockAt_mem hb
    dsimp only at h
    split at h
    case h_3 => exact absurd h hne
    next hkind =>
      obtain ⟨p, test, yes, harm, hrefined⟩ := ih h
      exact ⟨p, test, yes, .jump hmem hkind hedge harm, hrefined⟩
    next hkind =>
    split at h
    · exact absurd h hne
    next harms =>
    split at h
    · exact absurd h hne
    next htarget =>
    split at h
    · exact absurd h hne
    next hvalue =>
    split at h
    · exact absurd h hne
    next place hplace =>
    split at h
    · exact absurd h hne
    next hblock =>
    split at h
    · exact absurd h hne
    next test htest =>
    split at h
    case h_2 => exact absurd h hne
    next subject rest hop hoperands =>
    split at h
    · exact absurd h hne
    next hsubject =>
    rw [not_or, not_not, not_not] at hsubject
    refine ⟨b, test, b.terminator.target == current,
      .arm ⟨hmem, hkind, harms, not_not.mp hvalue, ?_, hop, subject, rest, hoperands, hsubject⟩
      hedge ?_, h⟩
    · obtain ⟨hplaced, -, -⟩ := definition_mem hplace
      obtain ⟨hplaced, hinstruction⟩ := mem_positions.mp hplaced
      obtain rfl := hids.eq hplaced hmem (not_not.mp hblock)
      obtain rfl := Option.some.inj (hinstruction.symm.trans htest)
      exact ⟨place.index, hplace⟩
    · by_cases heq : b.terminator.target = current
      · rw [if_pos (beq_iff_eq.mpr heq)]
        exact heq
      · rw [if_neg (mt beq_iff_eq.mp heq)]
        by_contra helse
        exact htarget ⟨heq, helse⟩

/-- A member other than the declared type is the only one on its side. -/
theorem keptMember_spec {declaredId testedId kept : TypeId} {members : List TypeId}
    (hne : declaredId ≠ keptMember rules declaredId testedId yes members kept) :
    (kept ≠ kNoType → keptMember rules declaredId testedId yes members kept = kept) ∧
      ∀ member ∈ members, rules.assignable member testedId = yes → member ≠ kNoType →
        keptMember rules declaredId testedId yes members kept = member := by
  induction members generalizing kept with
  | nil => exact ⟨fun _ => rfl, fun member hmem => nomatch hmem⟩
  | cons first members ih =>
    rw [keptMember] at hne ⊢
    split at hne
    next hfirst =>
      rw [if_pos hfirst]
      split at hne
      · exact absurd rfl hne
      next hkept =>
        rw [if_neg hkept]
        obtain ⟨hhead, htail⟩ := ih hne
        refine ⟨fun hsome => absurd hsome hkept, fun member hmem hside hsome => ?_⟩
        cases hmem with
        | head => exact hhead hsome
        | tail _ hmem => exact htail member hmem hside hsome
    next hfirst =>
      rw [if_neg hfirst]
      obtain ⟨hhead, htail⟩ := ih hne
      refine ⟨hhead, fun member hmem hside hsome => ?_⟩
      cases hmem with
      | head => exact absurd (beq_iff_eq.mpr hside) hfirst
      | tail _ hmem => exact htail member hmem hside hsome

theorem refinedTypeAt_arm (hids : f.DistinctIds) {block : BlockId}
    (hne : refinedTypeAt rules f block operand ≠ operand.type) :
    ∃ p test yes declared, ArmOf f operand p test yes block ∧ Narrows operand rules test yes ∧
      rules.find operand.type = some declared ∧ ∀ member ∈ declared.arguments,
        rules.assignable member test.testedType = yes → member ≠ kNoType →
          refinedTypeAt rules f block operand = member := by
  obtain ⟨refined, hrefined⟩ : ∃ refined, refinedTypeAt rules f block operand = refined := ⟨_, rfl⟩
  rw [hrefined] at hne ⊢
  have hfrom : refinedTypeFrom rules f operand 128 block = refined := by
    unfold refinedTypeAt at hrefined
    split at hrefined
    case h_4 | h_5 | h_6 => exact absurd hrefined.symm hne
    all_goals
      split at hrefined
      · split at hrefined
        · exact hrefined
        · exact absurd hrefined.symm hne
      · exact absurd hrefined.symm hne
  obtain ⟨p, test, yes, harm, hmember⟩ := refinedTypeFrom_arm hids hfrom hne.symm
  unfold refineUnionToTestedMember at hmember
  split at hmember
  case h_2 => exact absurd hmember.symm hne
  next declared tested hdeclared htested =>
  split at hmember
  · exact absurd hmember.symm hne
  next hunion =>
    have honly := hmember ▸ (keptMember_spec (hmember ▸ hne.symm)).2
    refine ⟨p, test, yes, declared, harm, ⟨declared, hdeclared, not_not.mp hunion, ?_⟩, hdeclared, honly⟩
    intro member hmem other hother hside hside' hsome hsome'
    exact (honly member hmem hside hsome).symm.trans (honly other hother hside' hsome')

namespace ArmOf

theorem branches {current : BlockId} (harm : ArmOf f operand p test yes current) :
    BranchesOn f operand p test := by
  induction harm with
  | arm hbranch => exact hbranch
  | jump _ _ _ _ ih => exact ih

/-- On every path along normal edges the test comes before its arms. -/
theorem dominates (h : Accepted rules m f) {current : BlockId} (harm : ArmOf f operand p test yes current) :
    Dominates (fun a b => b ∈ successors f a) f.entryBlock p.id current := by
  have hlast {current pred : BlockId} (hedge : predecessors f current = [pred])
      (havoids : Avoids (fun a b => b ∈ successors f a) f.entryBlock p.id current) :
      Avoids (fun a b => b ∈ successors f a) f.entryBlock p.id pred := by
    obtain ⟨hroot, hpath⟩ := havoids
    cases hpath with
    | refl => nomatch hedge.symm.trans h.entry
    | tail hpath hstep =>
      have hmem := (mem_predecessors h.distinctIds).mpr hstep.1
      rw [hedge] at hmem
      exact List.mem_singleton.mp hmem ▸ ⟨hroot, hpath⟩
  induction harm with
  | arm _ hedge => exact fun havoids => (hlast hedge havoids).ne rfl
  | jump _ _ hedge _ ih => exact fun havoids => ih (hlast hedge havoids)

theorem not_dominates (h : Accepted rules m f) {d : BasicBlock} (hd : d ∈ f.blocks)
    (harm : ArmOf f operand p test yes d.id) (hacyclic : ¬ArmOf f operand p test yes p.id) : d.id ≠ p.id ∧
      ControlFlowGraph.dominates f d.id p.id = false := by
  have hne : d.id ≠ p.id := fun heq => hacyclic (heq ▸ harm)
  refine ⟨hne, Bool.eq_false_iff.mpr fun hdom => hne ?_⟩
  obtain ⟨entry, hmem, hid, -⟩ := h.entry_eq
  have hvalid := hid ▸ isValid_of_mem hmem
  obtain ⟨rest, idom, htable⟩ := exists_dominatorTable h.distinctIds h.entry_ne hvalid
  have hreach := htable.reachable_of_climbs h.entry_ne hvalid (h.id_ne hd) hne hdom
  rw [isReachable, decide_eq_true_iff, mem_reachable h.entry_ne] at hreach
  exact (dominates_sound h.distinctIds (h.id_ne hd) hdom).antisymm hreach (harm.dominates h)

theorem not_defines (h : Accepted rules m f) {d : BasicBlock} (hd : d ∈ f.blocks)
    (harm : ArmOf f operand p test yes d.id)
    (hacyclic : ¬ArmOf f operand p test yes p.id) {id : ValueId} (hid : valueOf operand = some id) :
    (∀ i ∈ d.instructions, id ∉ resultValues i) ∧ id ∉ parameterValues d := by
  obtain ⟨hne, hfalse⟩ := harm.not_dominates h hd hacyclic
  obtain ⟨hp, -, -, -, ⟨index, hplace⟩, hop, subject, rest, hoperands, hkind, hindex⟩ := harm.branches
  obtain ⟨hplaced, -, -⟩ := definition_mem hplace
  obtain ⟨-, hget⟩ := mem_positions.mp hplaced
  have hused : subject ∈ operandsAt p index := by
    rw [operandsAt, hget]
    dsimp only
    rw [hoperands]
    exact List.mem_cons_self
  constructor
  · intro i hi hdefines
    obtain ⟨hsome, rfl⟩ := mem_resultValues.mp hdefines
    obtain ⟨htemp, hresult⟩ := valueOf_eq_temp.mp hid
    obtain ⟨k, hk⟩ := List.mem_iff_getElem?.mp hi
    have hplace : (⟨d, k, i⟩ : Position) ∈ positions f := mem_positions.mpr ⟨hd, hk⟩
    have hdefinition := definition_eq h.definitions hplace hsome
    rw [← hresult, ← hindex] at hdefinition
    rcases h.temp_dominates hp hused (hkind.trans htemp) hdefinition with ⟨heq, -⟩ | ⟨-, hdom⟩
    · exact hne heq
    · exact Bool.false_ne_true (hfalse.symm.trans hdom)
  · intro hdeclared
    obtain ⟨parameter, hparameter, rfl⟩ := List.mem_map.mp hdeclared
    obtain ⟨hblockParam, hresult⟩ := valueOf_eq_blockParam.mp hid
    have hsubject : subject ∈ test.operands := hoperands ▸ List.mem_cons_self
    obtain ⟨types, what, hok⟩ := h.operand_ok hplaced (by rw [hop]; decide) hsubject
    obtain ⟨owner, howner, hdom⟩ :=
      checkOperand_blockParam (hkind.trans hblockParam) ⟨p, h.block_eq hp⟩ hok
    rw [hindex, hresult, h.blockOfParameter_eq hd hparameter] at howner
    obtain rfl := Option.some.inj howner
    rcases hdom with heq | hdom
    · exact hne heq
    · exact Bool.false_ne_true (hfalse.symm.trans hdom)

end ArmOf

end

section
variable {W : Type}

/-- What is known of the values of a type: no value is of no type, and a value that a body holds keeps
    its types and passes the tests it passed. -/
structure TypeLaws (runtime : Runtime W) (HasType : W → TypeId → gc.Value → Prop)
    (run : Nat → Configuration W) : Prop where
  none_of_noType : ∀ world v, ¬HasType world kNoType v
  keeps : ∀ n frame world next world', run n = .running frame world →
    run (n + 1) = .running next world' → ∀ id type, HasType world type (frame.values id) →
    HasType world' type (frame.values id)
  answers : ∀ n frame world next world', run n = .running frame world →
    run (n + 1) = .running next world' →
    ∀ id type, (runtime.matchType world' type (frame.values id)).1 =
    (runtime.matchType world type (frame.values id)).1

section
variable (rules : TypeRules) (runtime : Runtime W) (module : Module) (f : Function) (operand : Operand)
  (HasType : W → TypeId → gc.Value → Prop)

/-- A type that semantic analysis resolved. One that it did not counts as assignable to and from all. -/
def Resolved (id : TypeId) : Prop :=
  ∃ type, rules.find id = some type ∧ type.kind ≠ .Unknown ∧ type.kind ≠ .TypeParam

/-- What is known of the types of a tested operand: a value passes the tests against what its types are
    assignable to, a value of a union is of one of its members, and where a block ends that branches on
    the test the operand is of its declared type. -/
structure UnionLaws (run : Nat → Configuration W) : Prop where
  assignable : ∀ world source target v, Resolved rules source → Resolved rules target →
    rules.assignable source target = true → HasType world source v →
    (runtime.matchType world target v).1 = true
  member : ∀ world type declared v, rules.find type = some declared → declared.kind = .Union →
    HasType world type v → ∃ member ∈ declared.arguments, HasType world member v
  typed : ∀ n frame world p test, run n = .running frame world → frame.rest = [] →
    BranchesOn f operand p test → frame.block = p.id →
    HasType world operand.type (operandValue runtime module frame.values world operand)

/-- An exception leaves a block, in front of its end or by a throw. -/
def Unwinds (frame next : Frame) : Prop :=
  match frame.rest with
  | _ :: rest => ¬(next.block = frame.block ∧ next.rest = rest)
  | [] => ∀ b, f.block frame.block = some b → b.terminator.kind = .Throw

/-- The verifier tells the members of the union apart as the test does. On the yes arm the value
    is of no member that is not assignable to the tested type; the no arm is of a test between
    resolved types. -/
def Separated (test : Instruction) (yes : Bool) (world : W) (v : gc.Value) : Prop :=
  ∀ declared, rules.find operand.type = some declared → ∀ member ∈ declared.arguments,
    rules.assignable member test.testedType ≠ yes →
      if yes then ¬HasType world member v else Resolved rules member ∧ Resolved rules test.testedType

/-- A step on which a narrowed type can rely: no exception enters a narrowing arm of a test of the
    operand, and a branch that enters one finds the members of the union separated. -/
def ReliableStep : Configuration W → Configuration W → Prop
  | .running frame world, .running next _ => ∀ p test yes, ArmOf f operand p test yes next.block →
      Narrows operand rules test yes → ¬Unwinds f frame next ∧
        (frame.rest = [] → frame.block = p.id → Separated rules operand HasType test yes world
          (operandValue runtime module frame.values world operand))
  | _, _ => True

/-- Where the type of the operand is narrowed, its value is of the narrowed type. -/
def NarrowedAt : Configuration W → Prop
  | .running frame world => refinedTypeAt rules f frame.block operand ≠ operand.type →
      HasType world (refinedTypeAt rules f frame.block operand)
      (operandValue runtime module frame.values world operand)
  | _ => True

/-- What a state keeps of the tests of a value: the outcomes of those that the current block made,
    and, in a narrowing arm, a member on its side. An arm that leads back to its test is not
    entered. -/
structure TestsHold (id : ValueId) (frame : Frame) (world : W) (b : BasicBlock) : Prop where
  standing : Standing f frame b
  outcome : ∀ done test, done ++ frame.rest = b.instructions → test ∈ done → TestOf operand test →
    test.result ≠ kNoTemp → frame.values (.temp test.result) = .bool
    (runtime.matchType world test.testedType (frame.values id)).1
  acyclic : ∀ p test yes, ArmOf f operand p test yes frame.block → Narrows operand rules test yes →
    ¬ArmOf f operand p test yes p.id
  member : ∀ p test yes, ArmOf f operand p test yes frame.block → Narrows operand rules test yes →
    ∀ declared, rules.find operand.type = some declared → ∃ member ∈ declared.arguments,
    HasType world member (frame.values id) ∧ rules.assignable member test.testedType = yes

end

section
variable {rules : TypeRules} {runtime : Runtime W} {module : Module} {f : Function} {operand : Operand}
  {HasType : W → TypeId → gc.Value → Prop} {id : ValueId} {frame next : Frame} {world world' : W}
  {b : BasicBlock} {test : Instruction} {yes : Bool}

theorem operandValue_of_valueOf {values : ValueId → gc.Value} (hid : valueOf operand = some id) :
    operandValue runtime module values world operand = values id := by
  have hkind : operand.kind ≠ .Const := by
    intro hkind
    rw [valueOf, hkind] at hid
    cases hid
  rw [operandValue, constantOperand, if_neg hkind, hid]

/-- A test answers what its operand is. -/
theorem execute_typeTest {test : Instruction} (htest : TestOf operand test)
    (hid : valueOf operand = some id) :
    execute runtime module f frame world test =
      .running (frame.define test.result
        (.bool (runtime.matchType world test.testedType (frame.values id)).1))
        (runtime.matchType world test.testedType (frame.values id)).2 := by
  obtain ⟨hop, subject, rest, hoperands, hkind, hindex⟩ := htest
  have hsubject : valueOf subject = some id := by
    rw [← hid, valueOf, valueOf, hkind, hindex]
  unfold execute
  dsimp only
  rw [hop, hoperands, List.map_cons, List.headD_cons, operandValue_of_valueOf hsubject]

theorem TestOf.not_defines (h : Accepted rules module f) (hb : b ∈ f.blocks) {test i : Instruction}
    (htest : TestOf operand test)
    (hid : valueOf operand = some id) {k j : Nat} (hk : b.instructions[k]? = some test)
    (hj : b.instructions[j]? = some i) (hle : k ≤ j) :
    id ∉ resultValues i := by
  intro hdefines
  obtain ⟨hsome, rfl⟩ := mem_resultValues.mp hdefines
  obtain ⟨htemp, hresult⟩ := valueOf_eq_temp.mp hid
  obtain ⟨-, subject, rest, hoperands, hkind, hindex⟩ := htest
  have hused : subject ∈ operandsAt b k := by
    rw [operandsAt, hk]
    dsimp only
    rw [hoperands]
    exact List.mem_cons_self
  have hplace : (⟨b, j, i⟩ : Position) ∈ positions f := mem_positions.mpr ⟨hb, hj⟩
  have hdefinition := definition_eq h.definitions hplace hsome
  rw [← hresult, ← hindex] at hdefinition
  rcases h.temp_dominates hb hused (hkind.trans htemp) hdefinition with ⟨-, hbefore⟩ | ⟨hne, -⟩
  · obtain ⟨hlt, -⟩ := List.getElem?_eq_some_iff.mp hk
    exact absurd (hbefore hlt) (Nat.not_lt.mpr hle)
  · exact hne rfl

theorem Accepted.result_position (h : Accepted rules module f) (hb : b ∈ f.blocks)
    {i i' : Instruction} {k j : Nat} (hk : b.instructions[k]? = some i) (hj : b.instructions[j]? = some i')
    (hsome : i.result ≠ kNoTemp) (heq : i.result = i'.result) :
    k = j := by
  have hplace : (⟨b, k, i⟩ : Position) ∈ positions f := mem_positions.mpr ⟨hb, hk⟩
  have hplace' : (⟨b, j, i'⟩ : Position) ∈ positions f := mem_positions.mpr ⟨hb, hj⟩
  have hfirst := definition_eq h.definitions hplace hsome
  have hsecond := definition_eq h.definitions hplace' (heq ▸ hsome)
  dsimp only at hfirst hsecond
  rw [heq, hsecond] at hfirst
  exact (congrArg Position.index (Option.some.inj hfirst)).symm

/-- Where a branch enters a narrowing arm, the operand is of a member on its side. -/
theorem UnionLaws.exists_member {run : Nat → Configuration W}
    (hlaws : UnionLaws rules runtime module f operand HasType run)
    (hnarrows : Narrows operand rules test yes) {declared : MirType}
    (hdeclared : rules.find operand.type = some declared) {v : gc.Value}
    (htyped : HasType world operand.type v) (hseparated : Separated rules operand HasType test yes world v)
    (hyes : (runtime.matchType world test.testedType v).1 = yes) :
    ∃ member ∈ declared.arguments, HasType world member v ∧
      rules.assignable member test.testedType = yes := by
  obtain ⟨declared', hdeclared', hunion, -⟩ := hnarrows
  obtain rfl := Option.some.inj (hdeclared'.symm.trans hdeclared)
  obtain ⟨member, hmember, htype⟩ := hlaws.member world operand.type declared' v hdeclared hunion htyped
  refine ⟨member, hmember, htype, ?_⟩
  by_contra hside
  have hdropped := hseparated declared' hdeclared member hmember hside
  cases yes with
  | true => exact hdropped htype
  | false =>
    obtain ⟨hsource, htarget⟩ := hdropped
    have hpasses := hlaws.assignable world member test.testedType v hsource htarget
      (Bool.eq_true_of_not_eq_false hside) htype
    exact Bool.false_ne_true (hyes.symm.trans hpasses)

namespace TestsHold

variable {run : Nat → Configuration W} (h : Accepted rules module f) (hid : valueOf operand = some id)
  (hkeeps : ∀ type, HasType world type (frame.values id) → HasType world' type (frame.values id))
  (hanswers : ∀ type, (runtime.matchType world' type (frame.values id)).1 =
    (runtime.matchType world type (frame.values id)).1)
  (hold : TestsHold rules runtime f operand HasType id frame world b)
include h hid hkeeps hanswers hold

theorem completes {i : Instruction} {rest : List Instruction}
    (hstep : step runtime module f (.running frame world) = .running next world')
    (hrest : frame.rest = i :: rest) (hblock : next.block = frame.block) (hnext : next.rest = rest)
    (hvalues : ∀ other ∉ resultValues i, next.values other = frame.values other) :
    TestsHold rules runtime f operand HasType id next world' b := by
  obtain ⟨hmem, hname, -⟩ := blockAt_of_block h.distinctIds hold.standing.block
  obtain ⟨earlier, hearlier⟩ := hold.standing.rest
  rw [hrest] at hearlier
  have hi : b.instructions[earlier.length]? = some i := by
    rw [← hearlier, List.getElem?_append_right (Nat.le_refl _), Nat.sub_self]
    rfl
  refine ⟨⟨hblock ▸ hold.standing.block, ?_⟩, fun done test hdone htest htests hsome => ?_,
    fun p test yes harm hnarrows => ?_, fun p test yes harm hnarrows declared hdeclared => ?_⟩
  · rw [hnext, ← hearlier]
    exact (List.suffix_cons _ _).trans (List.suffix_append _ _)
  · have hdone : done = earlier ++ [i] := by
      rw [hnext, ← hearlier] at hdone
      exact List.append_cancel_right (hdone.trans (List.append_cons earlier i rest))
    rw [hdone] at htest
    rcases List.mem_append.mp htest with htest | htest
    · obtain ⟨k, hk⟩ := List.mem_iff_getElem?.mp htest
      obtain ⟨hlt, -⟩ := List.getElem?_eq_some_iff.mp hk
      have hk : b.instructions[k]? = some test := by
        rw [← hearlier, List.getElem?_append_left hlt]
        exact hk
      have hresult : .temp test.result ∉ resultValues i := fun hmem' =>
        absurd (h.result_position hmem hk hi hsome (ValueId.temp.inj (mem_resultValues.mp hmem').2))
          (Nat.ne_of_lt hlt)
      rw [hvalues _ hresult, hvalues id (htests.not_defines h hmem hid hk hi (Nat.le_of_lt hlt)),
        hanswers]
      exact hold.outcome earlier test (hrest ▸ hearlier) htest htests hsome
    · obtain rfl := List.mem_singleton.mp htest
      rw [hvalues id (htests.not_defines h hmem hid hi hi (Nat.le_refl _)), hanswers]
      rw [step, hrest] at hstep
      dsimp only at hstep
      rw [execute_typeTest htests hid] at hstep
      cases hstep
      exact define_result hsome _
  · exact hold.acyclic p test yes (hblock ▸ harm) hnarrows
  · rw [hblock] at harm
    have harm' : ArmOf f operand p test yes b.id := hname ▸ harm
    obtain ⟨hresult, -⟩ := harm'.not_defines h hmem (hold.acyclic p test yes harm hnarrows) hid
    obtain ⟨member, hmember, htype, hside⟩ := hold.member p test yes harm hnarrows declared hdeclared
    rw [hvalues id (hresult i (List.mem_of_getElem? hi))]
    exact ⟨member, hmember, hkeeps member htype, hside⟩

omit hanswers in
theorem enters (hlaws : UnionLaws rules runtime module f operand HasType run) {n : Nat}
    (hrun : run n = .running frame world) (hreliable : ReliableStep rules runtime module f operand HasType
      (.running frame world) (.running next world'))
    {c : BasicBlock} (hrest : frame.rest = [])
    (hkind : b.terminator.kind ∈ [TerminatorKind.Jump, .Branch, .Switch])
    (hc : f.block (takenEdge runtime module frame world b.terminator).1 = some c)
    (hnext : next = { frame with
      block := (takenEdge runtime module frame world b.terminator).1
      rest := c.instructions
      values := bindParameters frame.values c.parameters
        ((b.terminator.argumentsFor (takenEdge runtime module frame world b.terminator).2).map
          (operandValue runtime module frame.values world)) }) :
    TestsHold rules runtime f operand HasType id next world' c := by
  obtain ⟨hmem, hname, -⟩ := blockAt_of_block h.distinctIds hold.standing.block
  have hblock : next.block = (takenEdge runtime module frame world b.terminator).1 := by rw [hnext]
  have hlist : next.rest = c.instructions := by rw [hnext]
  rw [← hblock] at hc
  obtain ⟨hcmem, hcname, -⟩ := blockAt_of_block h.distinctIds hc
  have hpred : b.id ∈ predecessors f next.block := by
    have hedge := ConstantAnalysis.selected_successor (h.terminator_ok hmem) hkind
      (hblock ▸ (Function.block_eq_some hc).1)
    have hsucc :=
      (mem_successors_of_block h.distinctIds hmem (List.mem_of_getElem? hedge) (hblock ▸ hc)).2
    exact mem_predecessors_of_mem_successors (hcname ▸ hsucc)
  have hacyclic (p : BasicBlock) (test : Instruction) (yes : Bool)
    (harm : ArmOf f operand p test yes next.block) (hnarrows : Narrows operand rules test yes) :
      ¬ArmOf f operand p test yes p.id := by
    cases harm with
    | arm hbranch hedge hcurrent =>
      obtain heq : b.id = p.id := List.mem_singleton.mp (hedge ▸ hpred)
      intro hagain
      exact hold.acyclic p test yes (hname ▸ heq ▸ hagain) hnarrows hagain
    | @jump b' _ hb' hjump hedge hearlier =>
      obtain heq : b.id = b'.id := List.mem_singleton.mp (hedge ▸ hpred)
      exact hold.acyclic p test yes (hname ▸ heq ▸ hearlier) hnarrows
  refine ⟨⟨hc, hlist ▸ List.suffix_rfl⟩, fun done test hdone htest _ _ => ?_, hacyclic,
    fun p test yes harm hnarrows declared hdeclared => ?_⟩
  · rw [hlist] at hdone
    rw [List.append_left_eq_self.mp hdone] at htest
    nomatch htest
  · have harm' : ArmOf f operand p test yes c.id := hcname ▸ harm
    obtain ⟨-, hparameter⟩ := harm'.not_defines h hcmem (hacyclic p test yes harm hnarrows) hid
    have hsame : next.values id = frame.values id := by
      rw [hnext]
      exact bindParameters_of_notMem fun parameter hmem' heq =>
        hparameter (List.mem_map.mpr ⟨parameter, hmem', heq⟩)
    have hstay (hmember : ∃ member ∈ declared.arguments, HasType world member (frame.values id) ∧
        rules.assignable member test.testedType = yes) :
        ∃ member ∈ declared.arguments, HasType world' member (next.values id) ∧
          rules.assignable member test.testedType = yes := by
      obtain ⟨member, hmember, htype, hside⟩ := hmember
      exact ⟨member, hmember, hsame ▸ hkeeps member htype, hside⟩
    have hseparated := (hreliable p test yes harm hnarrows).2 hrest
    rw [operandValue_of_valueOf hid] at hseparated
    cases harm with
    | @jump b' _ hb' hjump hedge hearlier =>
      obtain heq : b.id = b'.id := List.mem_singleton.mp (hedge ▸ hpred)
      exact hstay (hold.member p test yes (hname ▸ heq ▸ hearlier) hnarrows declared hdeclared)
    | arm hbranch hedge hcurrent =>
      obtain heq : b.id = p.id := List.mem_singleton.mp (hedge ▸ hpred)
      obtain rfl := h.distinctIds.eq hmem hbranch.mem heq
      obtain ⟨index, hplace⟩ := hbranch.place
      obtain ⟨hplaced, hresult, hsome⟩ := definition_mem hplace
      obtain ⟨-, hget⟩ := mem_positions.mp hplaced
      dsimp only at hresult hget
      -- The branch follows the outcome that the test left in its temp.
      have houtcome := hold.outcome b.instructions test (by rw [hrest, List.append_nil])
        (List.mem_of_getElem? hget) hbranch.tested
        (hresult ▸ hsome)
      have hvalue : operandValue runtime module frame.values world b.terminator.value = _ :=
        (operandValue_of_valueOf (valueOf_eq_temp.mpr ⟨hbranch.value, hresult.symm⟩)).trans houtcome
      have htaken : (if (runtime.matchType world test.testedType
        (frame.values id)).1 then b.terminator.target
          else b.terminator.elseBlock) = next.block := by
        rw [hblock, takenEdge, hvalue]
        unfold selected
        rw [hbranch.kind]
        cases (runtime.matchType world test.testedType (frame.values id)).1 <;> rfl
      have hyes : (runtime.matchType world test.testedType (frame.values id)).1 = yes := by
        rw [← htaken] at hcurrent
        cases hmatched : (runtime.matchType world test.testedType (frame.values id)).1 <;>
          cases yes <;> rw [hmatched] at hcurrent
        · exact absurd hcurrent hbranch.arms
        · exact absurd hcurrent hbranch.arms.symm
      have htyped := hlaws.typed n frame world b test hrun hrest hbranch hname.symm
      rw [operandValue_of_valueOf hid] at htyped
      exact hstay (hlaws.exists_member hnarrows hdeclared htyped (hseparated hname.symm) hyes)

end TestsHold

/-- A block that an exception enters is no narrowing arm of a test. -/
theorem testsHold_of_notMem {c : BasicBlock} (hc : f.block next.block = some c)
    (hnext : next.rest = c.instructions)
    (hnot : ∀ p test yes, Narrows operand rules test yes → ¬ArmOf f operand p test yes next.block) :
    TestsHold rules runtime f operand HasType id next world' c := by
  refine ⟨⟨hc, hnext ▸ List.suffix_rfl⟩, fun done test hdone htest _ _ => ?_,
    fun p test yes harm hnarrows => (hnot p test yes hnarrows harm).elim,
    fun p test yes harm hnarrows => (hnot p test yes hnarrows harm).elim⟩
  rw [hnext] at hdone
  rw [List.append_left_eq_self.mp hdone] at htest
  nomatch htest

/-- One more step on which a narrowed type can rely. -/
theorem TestsHold.step {run : Nat → Configuration W} (h : Accepted rules module f)
    (hid : valueOf operand = some id)
    (hkeeps : ∀ type, HasType world type (frame.values id) → HasType world' type (frame.values id))
    (hanswers : ∀ type, (runtime.matchType world' type (frame.values id)).1 =
      (runtime.matchType world type (frame.values id)).1)
    (hlaws : UnionLaws rules runtime module f operand HasType run) {n : Nat}
    (hrun : run n = .running frame world)
    (hreliable : ReliableStep rules runtime module f operand HasType (.running frame world)
      (.running next world'))
    (hold : TestsHold rules runtime f operand HasType id frame world b)
    (hstep : step runtime module f (.running frame world) = .running next world') :
    ∃ c, TestsHold rules runtime f operand HasType id next world' c := by
  cases step_moves hold.standing.block hstep with
  | completes hrest hblock hnext hvalues =>
      exact ⟨b, hold.completes h hid hkeeps hanswers hstep hrest hblock hnext hvalues⟩
  | @enters c hrest hkind hc hnext =>
    exact ⟨c, hold.enters h hid hkeeps hlaws hrun hreliable hrest hkind hc hnext⟩
  | @unwinds c hleaves hc hnext hvalues =>
    refine ⟨c, testsHold_of_notMem hc hnext fun p test yes hnarrows harm =>
      (hreliable p test yes harm hnarrows).1 ?_⟩
    unfold Unwinds
    split
    next i rest hrest =>
      rintro ⟨hblock, hbehind⟩
      exact hold.standing.not_begun hrest (hblock ▸ hc) (hbehind.symm.trans hnext)
    next hrest =>
      intro b' hb'
      obtain rfl := Option.some.inj (hold.standing.block.symm.trans hb')
      exact hleaves.resolve_left fun hne => hne hrest

theorem testsHold_start (h : Accepted rules module f) {arguments : ParamId → gc.Value}
    {slots : SlotId → Option gc.Value}
    (hstart : start f arguments slots world = .running frame world') : ∃ b,
      TestsHold rules runtime f operand HasType id frame world' b := by
  unfold start at hstart
  split at hstart
  · nomatch hstart
  next b hb =>
    cases hstart
    refine ⟨b, testsHold_of_notMem hb rfl fun p test yes _ harm => ?_⟩
    cases harm with
    | arm _ hedge => nomatch hedge.symm.trans h.entry
    | jump _ _ hedge => nomatch hedge.symm.trans h.entry

end

/-- The types of a dog that is an animal, and of a cat that is an animal and a pet. -/
def animalTypes : TypeRules where
  find
    | 5 => some { kind := .Union, arguments := [6, 7] }
    | 6 => some { kind := .Object, name := "Dog" }
    | 7 => some { kind := .Object, name := "Pet" }
    | 8 => some { kind := .Object, name := "Animal" }
    | id => exampleTypes.find id
  isNullable := exampleTypes.isNullable
  assignable source target := source == target || (source, target) == (6, 8) || (source, target) ==
    (6, 5) || (source, target) == (7, 5)
  render
    | 5 => "Dog|Pet"
    | 6 => "Dog"
    | 7 => "Pet"
    | 8 => "Animal"
    | id => exampleTypes.render id
  valueRules := exampleTypes.valueRules

def dog : gc.Value := .box .object (some 1)

def cat : gc.Value := .box .object (some 2)

/-- The types of the two objects. -/
def animalTypesOf (v : gc.Value) : List TypeId :=
  if v = dog then [5, 6, 8] else if v = cat then [5, 7, 8] else []

def animalRuntime : Runtime Unit where
  library := foldLibrary
  memory _ := foldMemory
  static _ _ := .nil
  matchType world type v := (decide (type ∈ animalTypesOf v), world)
  effect _ _ _ world := { result := .ok .nil, world }
  dispatch _ _ _ := none
  caught _ world := (.nil, world)

def IsAnimal (_ : Unit) (type : TypeId) (v : gc.Value) : Prop := type ∈ animalTypesOf v

instance (world : Unit) (type : TypeId) (v : gc.Value) : Decidable (IsAnimal world type v) :=
  inferInstanceAs (Decidable (_ ∈ _))

theorem animalLaws (run : Nat → Configuration Unit) : TypeLaws animalRuntime IsAnimal run where
  none_of_noType _ v h := by
    unfold IsAnimal animalTypesOf at h
    split at h
    · simp [kNoType] at h
    · split at h <;> simp [kNoType] at h
  keeps _ _ _ _ _ _ _ _ _ h := h
  answers _ _ _ _ _ _ _ _ _ := rfl

theorem isAnimal_of_assignable {world : Unit} {source target : TypeId} {v : gc.Value}
    (h : animalTypes.assignable source target = true)
    (hv : IsAnimal world source v) : IsAnimal world target v := by
  have hassignable : source = target ∨ (source = 6 ∧ target = 8 ∨ source = 6 ∧ target = 5) ∨
      source = 7 ∧ target = 5 := by
    simpa [animalTypes, or_assoc] using h
  unfold IsAnimal animalTypesOf at hv ⊢
  rcases hassignable with rfl | (⟨rfl, rfl⟩ | ⟨rfl, rfl⟩) | ⟨rfl, rfl⟩
  · exact hv
  all_goals split_ifs at hv ⊢ <;> simp_all

theorem isAnimal_member {world : Unit} {type : TypeId} {declared : MirType} {v : gc.Value}
    (h : animalTypes.find type = some declared)
    (hunion : declared.kind = .Union) (hv : IsAnimal world type v) : ∃ member ∈ declared.arguments,
      IsAnimal world member v := by
  have honly : declared = { kind := .Union, arguments := [6, 7] } ∧ type = 5 := by
    simp only [animalTypes, exampleTypes] at h
    split at h
    case h_5 => split at h <;> cases h <;> nomatch hunion
    all_goals cases h
    · exact ⟨rfl, rfl⟩
    all_goals nomatch hunion
  obtain ⟨rfl, rfl⟩ := honly
  unfold IsAnimal animalTypesOf at hv ⊢
  split_ifs at hv ⊢ <;> simp_all

/-- A value of the union is tested, and stored as a dog where the test succeeds. -/
def storeDog : Function := Function.rebuildEdges {
  name := "storeDog"
  parameters := [{ name := "pet", type := 5 }]
  returnType := 4
  slots := [{ name := "dog", type := 6 }]
  entryBlock := 1
  blocks := [
    { id := 1
      instructions :=
        [{ opcode := .TypeTest, result := 1, resultType := 1, operands := [.param 0 5], testedType := 8 }]
      terminator := { kind := .Branch, value := .temp 1 1, target := 2, elseBlock := 3 } },
    { id := 2
      instructions := [{ opcode := .Store, operands := [.param 0 5], slot := 1 }]
      terminator := { kind := .Return } },
    { id := 3, terminator := { kind := .Return } }] }

/-- The test succeeds, and control gets to the store. -/
theorem storeDog_run {v : gc.Value} (hv : 8 ∈ animalTypesOf v) : ∃ tested stored : Frame,
    (step animalRuntime {} storeDog)^[1] (start storeDog (fun _ => v) (fun _ => none) ()) =
    .running tested () ∧ (step animalRuntime {} storeDog)^[2]
    (start storeDog (fun _ => v) (fun _ => none) ()) = .running stored () ∧ tested.block = 1 ∧
    tested.rest = [] ∧ stored.block = 2 ∧ tested.values (.param 0) = v ∧
    stored.values (.param 0) = v := by
  let frame : Frame := ⟨1, [], startValues fun _ => v, fun _ => none⟩
  have htested : (step animalRuntime {} storeDog)^[1] (start storeDog (fun _ => v) (fun _ => none) ()) =
      .running (frame.define 1 (.bool (decide (8 ∈ animalTypesOf v)))) () := rfl
  rw [decide_eq_true hv] at htested
  have hstored := (Function.iterate_succ_apply' (step animalRuntime {} storeDog) 1
    (start storeDog (fun _ => v) (fun _ => none) ())).trans
    (congrArg _ htested)
  exact ⟨_, _, htested, hstored, rfl, rfl, rfl, rfl, rfl⟩

theorem storeDog_parameter {v : gc.Value} (n : Nat) : ∀ frame world,
    (step animalRuntime {} storeDog)^[n] (start storeDog (fun _ => v) (fun _ => none) ()) =
      .running frame world → (∃ b, Standing storeDog frame b) ∧ frame.values (.param 0) = v := by
  induction n with
  | zero =>
    intro frame world hrun
    cases hrun
    exact ⟨⟨_, rfl, List.suffix_rfl⟩, rfl⟩
  | succ n ih =>
    intro next world' hrun
    rw [Function.iterate_succ_apply'] at hrun
    cases hat : (step animalRuntime {} storeDog)^[n] (start storeDog (fun _ => v) (fun _ => none) ()) with
    | returned | raised | stuck =>
      rw [hat] at hrun
      simp [step] at hrun
    | running frame world =>
      rw [hat] at hrun
      obtain ⟨⟨b, hstanding⟩, hvalue⟩ := ih frame world hat
      have hmoves := step_moves hstanding.block hrun
      refine ⟨hmoves.standing hstanding, hvalue ▸ ?_⟩
      cases hmoves with
      | completes _ _ _ hvalues => exact hvalues _ (by simp [resultValues])
      | enters _ _ _ hnext =>
        rw [hnext]
        exact bindParameters_of_notMem (by simp)
      | unwinds _ _ _ hvalues => rw [hvalues]

theorem storeDog_laws : UnionLaws animalTypes animalRuntime {} storeDog (.param 0 5) IsAnimal fun n =>
    (step animalRuntime {} storeDog)^[n] (start storeDog (fun _ => dog) (fun _ => none) ()) where
  assignable _ _ _ _ _ _ hassignable hv := decide_eq_true (isAnimal_of_assignable hassignable hv)
  member _ _ _ _ hdeclared hunion hv := isAnimal_member hdeclared hunion hv
  typed n frame world p test hrun _ _ _ := by
    have hvalue : operandValue animalRuntime {} frame.values world (.param 0 5) = dog :=
      (storeDog_parameter n frame world hrun).2
    rw [hvalue]
    exact (by decide : IsAnimal () 5 dog)

theorem storeDog_arm {p : BasicBlock} {test : Instruction} {yes : Bool}
    (harm : ArmOf storeDog (.param 0 5) p test yes 2) : test.testedType = 8 ∧ yes = true := by
  have hfirst : ∀ b ∈ storeDog.blocks, b.id = 1 → b.terminator.kind = .Branch ∧
    b.terminator.value.index = 1 ∧ b.terminator.elseBlock ≠ 2 := by decide
  have hedge : predecessors storeDog 2 = [1] := by decide
  cases harm with
  | arm hbranch hpred hcurrent =>
    obtain ⟨index, hplace⟩ := hbranch.place
    have hid := List.singleton_inj.mp (hpred.symm.trans hedge)
    obtain ⟨-, hindex, helse⟩ := hfirst p hbranch.mem hid
    have htested : (definition storeDog 1).map (·.instruction.testedType) = some 8 := by decide
    rw [hindex] at hplace
    rw [hplace] at htested
    refine ⟨Option.some.inj htested, ?_⟩
    by_contra hno
    rw [if_neg hno] at hcurrent
    exact helse hcurrent
  | @jump b _ hb hkind hpred =>
    have hid := List.singleton_inj.mp (hpred.symm.trans hedge)
    nomatch hkind.symm.trans (hfirst b hb hid).1

end

end zl.mir.Verifier
