import Zl.Ir.FlowState

open zl.collections

namespace zl.ir

namespace Entries
variable {V : Type} {m m' : Entries V} {e : ValueId × V} {k : ValueId} {v : V}

theorem mem_keys : k ∈ m.keys ↔ ∃ v, (k, v) ∈ m := by
  simp [keys]

theorem mem_erase : e ∈ m.erase k ↔ e ∈ m ∧ e.1 ≠ k := Finset.mem_filter

theorem erase_subset_erase (h : m ⊆ m') : m.erase k ⊆ m'.erase k := by
  intro e he
  rw [mem_erase] at he ⊢
  exact ⟨h he.1, he.2⟩

variable [DecidableEq V]

theorem mem_assign : e ∈ m.assign k v ↔ e = (k, v) ∨ e ∈ m ∧ e.1 ≠ k := by
  rw [assign, Finset.mem_insert, mem_erase]

theorem index_of_mem {default : V} (hk : k ∈ m.keys) : m.index k default = m := if_pos hk

theorem assign_subset_assign (h : m ⊆ m') : m.assign k v ⊆ m'.assign k v :=
  Finset.insert_subset_insert _ (erase_subset_erase h)

end Entries

/-- The ownership of the local that the instruction defines. -/
def Instruction.definedKind (ins : Instruction) : OwnershipKind :=
  match ins.opcode with
  | .defineLocal => ins.ownership
  | .borrowLocal => .borrow
  | _ => .owned

/-- A local that the instruction loads, borrows, moves or assigns to. -/
def Instruction.uses (ins : Instruction) (v : ValueId) : Prop :=
  match ins.opcode with
  | .assignLocal => ins.result = v
  | .loadLocal | .borrowLocal | .moveLocal => ins.operand0 = v
  | _ => False

theorem require_eq_ok {c : Prop} [Decidable c] {message : String} :
    require c message = .ok () ↔ c := by
  by_cases h : c <;> simp [require, h]

theorem require_bind_eq_ok {A : Type} {c : Prop} [Decidable c] {message : String}
    {next : Unit → Except String A} {r : A} : (require c message >>= next) = .ok r ↔
      c ∧ next () = .ok r := by
  rw [bind_eq_ok]
  constructor
  · rintro ⟨⟨⟩, hc, h⟩
    exact ⟨require_eq_ok.mp hc, h⟩
  · rintro ⟨hc, h⟩
    exact ⟨(), require_eq_ok.mpr hc, h⟩

namespace FlowState

/-- What an instruction does to a state that it is accepted in. -/
def effect (s : FlowState) (ins : Instruction) : FlowState :=
  match ins.opcode with
  | .defineLocal => s.define ins.result ins.ownership
  | .moveLocal =>
    let s := { s with moved := insert ins.operand0 s.moved }
    if ins.result = 0 then s else s.define ins.result .owned
  | .borrowLocal =>
    { s.define ins.result .borrow with borrowSources := s.borrowSources.assign ins.result ins.operand0 }
  | .endBorrow => { s.remove ins.operand0 with borrowSources := s.borrowSources.erase ins.operand0 }
  | .dropLocal =>
    { s.remove ins.operand0 with
      borrowSources := s.afterDrop ins.operand0
      moved := s.moved.erase ins.operand0 }
  | .const | .unary | .binary | .call | .loadLocal => { s with values := insert ins.result s.values }
  | _ => s

/-- What is checked of an instruction that is accepted. -/
structure Accepted (s : FlowState) (ins : Instruction) : Prop where
  used : ∀ v, ins.uses v → v ≠ 0 ∧ v ∈ s.live ∧ v ∉ s.moved
  ended : ins.opcode = .endBorrow ∨ ins.opcode = .dropLocal → ins.operand0 ∈ s.live
  named : ins.definesLocal = true → ins.result ≠ 0
  unborrowed : ins.opcode = .moveLocal → ∀ e ∈ s.borrowSources, e.2 ≠ ins.operand0

section
variable {s s' : FlowState} {ins : Instruction} {v : ValueId} {op : String}

theorem usable_eq_ok {A : Type} {next : Except String A} {r : A} :
    (do s.requireLive v op; s.requireNotMoved v op; next) = .ok r ↔
      (v ≠ 0 ∧ v ∈ s.live ∧ v ∉ s.moved) ∧ next = .ok r := by
  rw [requireLive, requireNotMoved, require_bind_eq_ok, require_bind_eq_ok]
  tauto

theorem assignLocal_eq_ok (howned : ∀ v ∈ s.live, v ∈ s.ownership.keys) (h : s.assignLocal ins = .ok s') :
    (ins.result ≠ 0 ∧ ins.result ∈ s.live ∧ ins.result ∉ s.moved) ∧ s' = s := by
  obtain ⟨husable, h⟩ := usable_eq_ok.mp h
  refine ⟨husable, ?_⟩
  split at h
  · exact (Except.ok.inj h).symm
  · obtain ⟨-, h⟩ := require_bind_eq_ok.mp h
    obtain ⟨-, h⟩ := require_bind_eq_ok.mp h
    rw [Entries.index_of_mem (howned _ husable.2.1)] at h
    split at h
    · exact (Except.ok.inj (require_bind_eq_ok.mp h).2).symm
    · exact (Except.ok.inj h).symm

theorem returnValue_eq_ok (howned : ∀ v ∈ s.live, v ∈ s.ownership.keys)
    (h : s.returnValue ins = .ok s') : s' = s := by
  rw [returnValue] at h
  split at h
  · exact (Except.ok.inj h).symm
  · split at h
    · next hlive =>
      rw [requireNotMoved, Entries.index_of_mem (howned _ hlive)] at h
      obtain ⟨-, h⟩ := require_bind_eq_ok.mp h
      exact (Except.ok.inj (require_bind_eq_ok.mp h).2).symm
    · exact (Except.ok.inj (require_bind_eq_ok.mp h).2).symm

/-- The inversion of one instruction. Where the ownership of each live local is on record,
    looking one up adds no entry. -/
theorem step_eq_ok (howned : ∀ v ∈ s.live, v ∈ s.ownership.keys) (h : s.step ins = .ok s') :
    s.Accepted ins ∧ s' = s.effect ins := by
  rw [step] at h
  cases hop : ins.opcode with
  | defineLocal =>
    rw [hop] at h
    obtain ⟨hresult, h⟩ := require_bind_eq_ok.mp h
    obtain ⟨-, h⟩ := require_bind_eq_ok.mp h
    refine ⟨?_, by rw [effect, hop]; exact (Except.ok.inj h).symm⟩
    constructor <;> simp [Instruction.uses, Instruction.definesLocal, hop, hresult]
  | assignLocal =>
    rw [hop] at h
    obtain ⟨husable, hs'⟩ := assignLocal_eq_ok howned h
    refine ⟨?_, by rw [effect, hop]; exact hs'⟩
    constructor <;> simp [Instruction.uses, Instruction.definesLocal, hop, husable]
  | moveLocal =>
    rw [hop] at h
    obtain ⟨husable, h⟩ := usable_eq_ok.mp h
    obtain ⟨-, h⟩ := require_bind_eq_ok.mp h
    obtain ⟨hfree, h⟩ := require_bind_eq_ok.mp h
    refine ⟨?_, by rw [effect, hop]; exact (Except.ok.inj h).symm⟩
    constructor
    case unborrowed => exact fun _ e he => (hfree e he).1
    all_goals simp [Instruction.uses, Instruction.definesLocal, hop, husable]
  | borrowLocal =>
    rw [hop] at h
    obtain ⟨husable, h⟩ := usable_eq_ok.mp h
    obtain ⟨hresult, h⟩ := require_bind_eq_ok.mp h
    obtain ⟨-, h⟩ := require_bind_eq_ok.mp h
    refine ⟨?_, by rw [effect, hop]; exact (Except.ok.inj h).symm⟩
    constructor <;> simp [Instruction.uses, Instruction.definesLocal, hop, husable, hresult]
  | endBorrow =>
    rw [hop] at h
    obtain ⟨hlive, h⟩ := require_bind_eq_ok.mp h
    obtain ⟨-, h⟩ := require_bind_eq_ok.mp h
    refine ⟨?_, by rw [effect, hop]; exact (Except.ok.inj h).symm⟩
    constructor <;> simp [Instruction.uses, Instruction.definesLocal, hop, hlive]
  | dropLocal =>
    rw [hop] at h
    obtain ⟨hlive, h⟩ := require_bind_eq_ok.mp h
    refine ⟨?_, by rw [effect, hop]; exact (Except.ok.inj h).symm⟩
    constructor <;> simp [Instruction.uses, Instruction.definesLocal, hop, hlive]
  | loadLocal =>
    rw [hop] at h
    obtain ⟨husable, h⟩ := usable_eq_ok.mp h
    obtain ⟨-, h⟩ := require_bind_eq_ok.mp h
    refine ⟨?_, by rw [effect, hop]; exact (Except.ok.inj h).symm⟩
    constructor <;> simp [Instruction.uses, Instruction.definesLocal, hop, husable]
  | call =>
    rw [hop] at h
    obtain ⟨-, h⟩ := require_bind_eq_ok.mp h
    obtain ⟨-, h⟩ := require_bind_eq_ok.mp h
    obtain ⟨-, h⟩ := require_bind_eq_ok.mp h
    refine ⟨?_, by rw [effect, hop]; exact (Except.ok.inj h).symm⟩
    constructor <;> simp [Instruction.uses, Instruction.definesLocal, hop]
  | const | unary | binary =>
    rw [hop] at h
    obtain ⟨-, h⟩ := require_bind_eq_ok.mp h
    refine ⟨?_, by rw [effect, hop]; exact (Except.ok.inj h).symm⟩
    constructor <;> simp [Instruction.uses, Instruction.definesLocal, hop]
  | «return» =>
    rw [hop] at h
    refine ⟨?_, by rw [effect, hop]; exact returnValue_eq_ok howned h⟩
    constructor <;> simp [Instruction.uses, Instruction.definesLocal, hop]
  | nop | storeLocal | jump | branch | throw =>
    rw [hop] at h
    refine ⟨?_, by rw [effect, hop]; exact (Except.ok.inj h).symm⟩
    constructor <;> simp [Instruction.uses, Instruction.definesLocal, hop]

end

/-- Later states know less of what is there, and more of what was moved and borrowed. -/
instance : PartialOrder FlowState where
  le s t := (t.live ⊆ s.live ∧ t.values ⊆ s.values ∧ t.ownership ⊆ s.ownership) ∧
    s.moved ⊆ t.moved ∧ s.borrowSources ⊆ t.borrowSources
  le_refl s := by simp
  le_trans s t u hst htu := by
    refine ⟨⟨?_, ?_, ?_⟩, ?_, ?_⟩
    · exact htu.1.1.trans hst.1.1
    · exact htu.1.2.1.trans hst.1.2.1
    · exact htu.1.2.2.trans hst.1.2.2
    · exact hst.2.1.trans htu.2.1
    · exact hst.2.2.trans htu.2.2
  le_antisymm s t hst hts := by
    cases s
    cases t
    simp only [FlowState.mk.injEq]
    refine ⟨?_, ?_, ?_, ?_, ?_⟩
    · exact hts.1.1.antisymm hst.1.1
    · exact hts.1.2.1.antisymm hst.1.2.1
    · exact hst.2.1.antisymm hts.2.1
    · exact hst.2.2.antisymm hts.2.2
    · exact hts.1.2.2.antisymm hst.1.2.2

theorem le_def {s t : FlowState} : s ≤ t ↔
    (t.live ⊆ s.live ∧ t.values ⊆ s.values ∧ t.ownership ⊆ s.ownership) ∧
      s.moved ⊆ t.moved ∧ s.borrowSources ⊆ t.borrowSources := Iff.rfl

/-- What holds of a state that the instructions of a function lead to. -/
structure Valid (code : List Instruction) (s : FlowState) : Prop where
  owned : ∀ v, v ∈ s.live ↔ v ∈ s.ownership.keys
  values : ∀ v ∈ s.values, ∃ ins ∈ code, ins.result = v
  moved : ∀ v ∈ s.moved, ∃ ins ∈ code, ins.operand0 = v
  ownership : ∀ e ∈ s.ownership,
    ∃ ins ∈ code, ins.definesLocal = true ∧ ins.result = e.1 ∧ ins.definedKind = e.2
  borrowSources : ∀ e ∈ s.borrowSources,
    ∃ ins ∈ code, ins.opcode = .borrowLocal ∧ ins.result = e.1 ∧ ins.operand0 = e.2

/-- No two instructions define the same local. -/
def Unambiguous (code : List Instruction) : Prop :=
  ∀ ins ∈ code, ∀ ins' ∈ code, ins.definesLocal = true → ins'.definesLocal = true →
    ins.result = ins'.result → ins = ins'

section
variable {code : List Instruction} {s t : FlowState} {ins : Instruction} {v : ValueId}
  {kind kind' : OwnershipKind}

theorem Valid.kind_unique (h : Unambiguous code) (hs : Valid code s) (ht : Valid code t)
    (hkind : (v, kind) ∈ s.ownership) (hkind' : (v, kind') ∈ t.ownership) : kind = kind' := by
  obtain ⟨ins, hins, hdef, hresult, rfl⟩ := hs.ownership _ hkind
  obtain ⟨ins', hins', hdef', hresult', rfl⟩ := ht.ownership _ hkind'
  rw [h ins hins ins' hins' hdef hdef' (hresult.trans hresult'.symm)]

theorem Valid.source_unique (h : Unambiguous code) (hs : Valid code s) (ht : Valid code t)
    {b x x' : ValueId} (hx : (b, x) ∈ s.borrowSources) (hx' : (b, x') ∈ t.borrowSources) : x = x' := by
  obtain ⟨ins, hins, hop, hresult, rfl⟩ := hs.borrowSources _ hx
  obtain ⟨ins', hins', hop', hresult', rfl⟩ := ht.borrowSources _ hx'
  have hdef : ins.definesLocal = true := by simp [Instruction.definesLocal, hop]
  have hdef' : ins'.definesLocal = true := by simp [Instruction.definesLocal, hop']
  rw [h ins hins ins' hins' hdef hdef' (hresult.trans hresult'.symm)]

theorem Valid.empty : Valid code {} := by
  constructor <;> simp [Entries.keys]

theorem Valid.define (hs : Valid code s) (hins : ins ∈ code) (hdef : ins.definesLocal = true)
    (hkind : ins.definedKind = kind) : Valid code (s.define ins.result kind) := by
  constructor
  case owned =>
    intro v
    simp only [FlowState.define, Finset.mem_insert, hs.owned, Entries.mem_keys, Entries.mem_assign,
      Prod.mk.injEq]
    by_cases hv : v = ins.result
    · simp [hv]
    · simp [hv]
  case values =>
    intro v hv
    obtain rfl | hv := Finset.mem_insert.mp hv
    · exact ⟨ins, hins, rfl⟩
    · exact hs.values v hv
  case ownership =>
    intro e he
    obtain rfl | ⟨he, -⟩ := Entries.mem_assign.mp he
    · exact ⟨ins, hins, hdef, rfl, hkind⟩
    · exact hs.ownership e he
  case moved => exact hs.moved
  case borrowSources => exact hs.borrowSources

theorem Valid.remove (hs : Valid code s) (v : ValueId) : Valid code (s.remove v) := by
  constructor
  case owned =>
    intro v'
    simp only [FlowState.remove, Finset.mem_erase, hs.owned, Entries.mem_keys, Entries.mem_erase]
    tauto
  case values => exact fun v' hv => hs.values v' (Finset.mem_of_mem_erase hv)
  case ownership => exact fun e he => hs.ownership e (Entries.mem_erase.mp he).1
  case moved => exact hs.moved
  case borrowSources => exact hs.borrowSources

theorem afterDrop_subset : s.afterDrop v ⊆ s.borrowSources := by
  rw [afterDrop]
  split
  · exact Finset.filter_subset _ _
  · exact Finset.filter_subset _ _

theorem Valid.of_borrowSources (hs : Valid code s) {borrows : Entries ValueId}
    (h : borrows ⊆ s.borrowSources) :
    Valid code { s with borrowSources := borrows } :=
  ⟨hs.owned, hs.values, hs.moved, hs.ownership, fun e he => hs.borrowSources e (h he)⟩

theorem Valid.effect (hs : Valid code s) (hins : ins ∈ code) : Valid code (s.effect ins) := by
  have hvalues : Valid code { s with values := insert ins.result s.values } := by
    refine ⟨hs.owned, fun v hv => ?_, hs.moved, hs.ownership, hs.borrowSources⟩
    obtain rfl | hv := Finset.mem_insert.mp hv
    · exact ⟨ins, hins, rfl⟩
    · exact hs.values v hv
  have hmoved : Valid code { s with moved := insert ins.operand0 s.moved } := by
    refine ⟨hs.owned, hs.values, fun v hv => ?_, hs.ownership, hs.borrowSources⟩
    obtain rfl | hv := Finset.mem_insert.mp hv
    · exact ⟨ins, hins, rfl⟩
    · exact hs.moved v hv
  rw [FlowState.effect]
  cases hop : ins.opcode with
  | defineLocal =>
    exact hs.define hins (by simp [Instruction.definesLocal, hop])
      (by simp [Instruction.definedKind, hop])
  | moveLocal =>
    dsimp only
    by_cases hresult : ins.result = 0
    · rw [if_pos hresult]
      exact hmoved
    · rw [if_neg hresult]
      exact hmoved.define hins (by simp [Instruction.definesLocal, hop, hresult])
        (by simp [Instruction.definedKind, hop])
  | borrowLocal =>
    have hdefined : Valid code (s.define ins.result .borrow) :=
      hs.define hins (by simp [Instruction.definesLocal, hop]) (by simp [Instruction.definedKind, hop])
    refine ⟨hdefined.owned, hdefined.values, hdefined.moved, hdefined.ownership, fun e he => ?_⟩
    obtain rfl | ⟨he, -⟩ := Entries.mem_assign.mp he
    · exact ⟨ins, hins, hop, rfl, rfl⟩
    · exact hs.borrowSources e he
  | endBorrow => exact (hs.remove ins.operand0).of_borrowSources (Finset.filter_subset _ _)
  | dropLocal =>
    have hremoved := hs.remove ins.operand0
    exact ⟨hremoved.owned, hremoved.values, fun v hv => hs.moved v (Finset.mem_of_mem_erase hv),
      hremoved.ownership, fun e he => hs.borrowSources e (afterDrop_subset he)⟩
  | const | unary | binary | call | loadLocal => exact hvalues
  | _ => exact hs

theorem define_mono (h : s ≤ t) : s.define v kind ≤ t.define v kind := by
  obtain ⟨⟨hlive, hvalues, hownership⟩, hmoved, hborrows⟩ := h
  refine ⟨⟨?_, ?_, ?_⟩, hmoved, hborrows⟩
  · exact Finset.insert_subset_insert v hlive
  · exact Finset.insert_subset_insert v hvalues
  · exact Entries.assign_subset_assign hownership

theorem remove_mono (h : s ≤ t) : s.remove v ≤ t.remove v := by
  obtain ⟨⟨hlive, hvalues, hownership⟩, hmoved, hborrows⟩ := h
  refine ⟨⟨?_, ?_, ?_⟩, hmoved, hborrows⟩
  · exact Finset.erase_subset_erase v hlive
  · exact Finset.erase_subset_erase v hvalues
  · exact Entries.erase_subset_erase hownership

theorem afterDrop_mono (hcode : Unambiguous code) (hs : Valid code s) (ht : Valid code t) (h : s ≤ t)
    (hlive : v ∈ t.live) : s.afterDrop v ⊆ t.afterDrop v := by
  obtain ⟨kind, hkind⟩ := Entries.mem_keys.mp ((ht.owned v).mp hlive)
  have hsame : (v, OwnershipKind.borrow) ∈ s.ownership ↔ (v, OwnershipKind.borrow) ∈ t.ownership := by
    refine ⟨fun hborrow => ?_, fun hborrow => h.1.2.2 hborrow⟩
    obtain rfl := hs.kind_unique hcode ht hborrow hkind
    exact hkind
  rw [afterDrop, afterDrop]
  by_cases hborrow : (v, OwnershipKind.borrow) ∈ t.ownership
  · rw [if_pos (hsame.mpr hborrow), if_pos hborrow]
    exact Entries.erase_subset_erase h.2.2
  · rw [if_neg (mt hsame.mp hborrow), if_neg hborrow]
    exact Finset.filter_subset_filter _ h.2.2

/-- Each instruction takes things away and adds things, whatever was there. -/
theorem effect_mono (hcode : Unambiguous code) (hs : Valid code s) (ht : Valid code t) (h : s ≤ t)
    (haccepted : t.Accepted ins) : s.effect ins ≤ t.effect ins := by
  rw [FlowState.effect, FlowState.effect]
  cases hop : ins.opcode with
  | defineLocal => exact define_mono h
  | moveLocal =>
    have hmoved : { s with moved := insert ins.operand0 s.moved } ≤
        { t with moved := insert ins.operand0 t.moved } :=
      ⟨h.1, Finset.insert_subset_insert _ h.2.1, h.2.2⟩
    dsimp only
    by_cases hresult : ins.result = 0
    · rw [if_pos hresult, if_pos hresult]
      exact hmoved
    · rw [if_neg hresult, if_neg hresult]
      exact define_mono hmoved
  | borrowLocal =>
    have hdefined : s.define ins.result .borrow ≤ t.define ins.result .borrow := define_mono h
    exact ⟨hdefined.1, hdefined.2.1, Entries.assign_subset_assign h.2.2⟩
  | endBorrow =>
    have hremoved : s.remove ins.operand0 ≤ t.remove ins.operand0 := remove_mono h
    exact ⟨hremoved.1, hremoved.2.1, Entries.erase_subset_erase h.2.2⟩
  | dropLocal =>
    have hremoved : s.remove ins.operand0 ≤ t.remove ins.operand0 := remove_mono h
    refine ⟨hremoved.1, Finset.erase_subset_erase _ h.2.1, ?_⟩
    exact afterDrop_mono hcode hs ht h (haccepted.ended (.inr hop))
  | const | unary | binary | call | loadLocal =>
    exact ⟨⟨h.1.1, Finset.insert_subset_insert _ h.1.2.1, h.1.2.2⟩, h.2⟩
  | _ => exact h

end

section
variable {code : List Instruction} {block : List Instruction} {s t s' t' : FlowState}

theorem transfer_valid (hs : Valid code s) (hblock : ∀ ins ∈ block, ins ∈ code)
    (h : transfer block s = .ok s') : Valid code s' := by
  induction block generalizing s with
  | nil =>
    obtain rfl := Except.ok.inj h
    exact hs
  | cons ins rest ih =>
    obtain ⟨next, hstep, hrest⟩ := bind_eq_ok.mp h
    obtain ⟨-, rfl⟩ := step_eq_ok (fun v hv => (hs.owned v).mp hv) hstep
    exact ih (hs.effect (hblock ins List.mem_cons_self))
      (fun other hother => hblock other (List.mem_cons_of_mem _ hother)) hrest

/-- A block is monotone as far as it is accepted. -/
theorem transfer_mono (hcode : Unambiguous code) (hs : Valid code s) (ht : Valid code t) (hle : s ≤ t)
    (hblock : ∀ ins ∈ block, ins ∈ code) (h : transfer block s = .ok s')
    (h' : transfer block t = .ok t') : s' ≤ t' := by
  induction block generalizing s t with
  | nil =>
    obtain rfl := Except.ok.inj h
    obtain rfl := Except.ok.inj h'
    exact hle
  | cons ins rest ih =>
    obtain ⟨next, hstep, hrest⟩ := bind_eq_ok.mp h
    obtain ⟨next', hstep', hrest'⟩ := bind_eq_ok.mp h'
    obtain ⟨-, rfl⟩ := step_eq_ok (fun v hv => (hs.owned v).mp hv) hstep
    obtain ⟨haccepted, rfl⟩ := step_eq_ok (fun v hv => (ht.owned v).mp hv) hstep'
    have hins := hblock ins List.mem_cons_self
    exact ih (hs.effect hins) (ht.effect hins) (effect_mono hcode hs ht hle haccepted)
      (fun other hother => hblock other (List.mem_cons_of_mem _ hother)) hrest hrest'

end

theorem mergeBorrows_eq_union {a b : Entries ValueId}
    (hagree : ∀ e ∈ a, ∀ e' ∈ b, e'.1 = e.1 → e'.2 = e.2) : mergeBorrows a b = a ∪ b := by
  have himage : a.image (fun e => if ∃ e' ∈ b, e'.1 = e.1 ∧ e'.2 ≠ e.2 then (e.1, 0) else e) = a := by
    have hid : ∀ e ∈ a, (if ∃ e' ∈ b, e'.1 = e.1 ∧ e'.2 ≠ e.2 then (e.1, 0) else e) = e := by
      intro e he
      rw [if_neg]
      rintro ⟨e', he', hkey, hne⟩
      exact hne (hagree e he e' he' hkey)
    rw [Finset.image_congr hid, Finset.image_id']
  rw [mergeBorrows, himage]
  ext e
  simp only [Finset.mem_union, Finset.mem_filter, Entries.mem_keys]
  constructor
  · exact Or.imp_right And.left
  · rintro (he | he)
    · exact .inl he
    · by_cases hkey : ∃ v, (e.1, v) ∈ a
      · obtain ⟨v, hv⟩ := hkey
        have hsame : e.2 = v := hagree _ hv e he rfl
        exact .inl (by rw [← hsame] at hv; exact hv)
      · exact .inr ⟨he, hkey⟩

section
variable {code : List Instruction} {a b t : FlowState}

theorem joinWith_borrowSources (hcode : Unambiguous code) (ha : Valid code a) (hb : Valid code b) :
    (joinWith a b).borrowSources = a.borrowSources ∪ b.borrowSources :=
  mergeBorrows_eq_union fun e he e' he' hkey =>
    hb.source_unique hcode ha (b := e.1) (by rw [← hkey]; exact he') he

theorem mem_joinWith_ownership (ha : Valid code a) (hb : Valid code b) {e : ValueId × OwnershipKind} :
    e ∈ (joinWith a b).ownership ↔ e ∈ a.ownership ∧ e ∈ b.ownership := by
  rw [joinWith, Finset.mem_filter, Finset.mem_inter, ha.owned, hb.owned, Entries.mem_keys,
    Entries.mem_keys]
  constructor
  · exact fun h => ⟨h.1, h.2.1⟩
  · exact fun h => ⟨h.1, h.2, ⟨e.2, h.1⟩, ⟨e.2, h.2⟩⟩

theorem Valid.joinWith (hcode : Unambiguous code) (ha : Valid code a) (hb : Valid code b) :
    Valid code (joinWith a b) := by
  constructor
  case owned =>
    intro v
    simp only [Entries.mem_keys, mem_joinWith_ownership ha hb]
    rw [ir.joinWith, Finset.mem_inter, ha.owned, hb.owned, Entries.mem_keys, Entries.mem_keys]
    constructor
    · rintro ⟨⟨kind, hkind⟩, kind', hkind'⟩
      obtain rfl := ha.kind_unique hcode hb hkind hkind'
      exact ⟨kind, hkind, hkind'⟩
    · rintro ⟨kind, hkind, hkind'⟩
      exact ⟨⟨kind, hkind⟩, kind, hkind'⟩
  case values => exact fun v hv => ha.values v (Finset.mem_of_mem_inter_left hv)
  case moved => exact fun v hv => (Finset.mem_union.mp hv).elim (ha.moved v) (hb.moved v)
  case ownership => exact fun e he => ha.ownership e ((mem_joinWith_ownership ha hb).mp he).1
  case borrowSources =>
    intro e he
    rw [joinWith_borrowSources hcode ha hb] at he
    exact (Finset.mem_union.mp he).elim (ha.borrowSources e) (hb.borrowSources e)

theorem joinWith_le_iff (hcode : Unambiguous code) (ha : Valid code a) (hb : Valid code b) :
    joinWith a b ≤ t ↔ a ≤ t ∧ b ≤ t := by
  simp only [le_def, joinWith_borrowSources hcode ha hb, Finset.union_subset_iff]
  have hownership : t.ownership ⊆ (joinWith a b).ownership ↔
      t.ownership ⊆ a.ownership ∧ t.ownership ⊆ b.ownership := by
    simp only [Finset.subset_iff, mem_joinWith_ownership ha hb]
    exact ⟨fun h => ⟨fun e he => (h he).1, fun e he => (h he).2⟩, fun h e he => ⟨h.1 he, h.2 he⟩⟩
  rw [hownership]
  simp only [joinWith, Finset.subset_inter_iff, Finset.union_subset_iff]
  tauto

variable {inputs : List FlowState}

theorem foldl_joinWith (hcode : Unambiguous code) (ha : Valid code a)
    (hinputs : ∀ s ∈ inputs, Valid code s) :
    Valid code (inputs.foldl joinWith a) ∧
      ∀ t, inputs.foldl joinWith a ≤ t ↔ a ≤ t ∧ ∀ s ∈ inputs, s ≤ t := by
  induction inputs generalizing a with
  | nil => exact ⟨ha, fun t => by simp⟩
  | cons s rest ih =>
    have hs := hinputs s List.mem_cons_self
    obtain ⟨hvalid, hle⟩ :=
      ih (ha.joinWith hcode hs) fun s' hs' => hinputs s' (List.mem_cons_of_mem _ hs')
    refine ⟨hvalid, fun t => ?_⟩
    rw [List.foldl_cons, hle, joinWith_le_iff hcode ha hs]
    simp only [List.forall_mem_cons]
    tauto

/-- The join of states of the same function is their least upper bound. -/
theorem joinStates_spec (hcode : Unambiguous code) (hne : inputs ≠ [])
    (hinputs : ∀ s ∈ inputs, Valid code s) :
    Valid code (joinStates inputs) ∧ ∀ t, joinStates inputs ≤ t ↔ ∀ s ∈ inputs, s ≤ t := by
  cases inputs with
  | nil => exact absurd rfl hne
  | cons s rest =>
    obtain ⟨hvalid, hle⟩ := foldl_joinWith hcode (hinputs s List.mem_cons_self)
      fun s' hs' => hinputs s' (List.mem_cons_of_mem _ hs')
    refine ⟨hvalid, fun t => ?_⟩
    rw [joinStates, hle, List.forall_mem_cons]

end

section
variable (code : List Instruction) (s : FlowState)

def results : Finset ValueId := (code.map (·.result)).toFinset

def operands : Finset ValueId := (code.map (·.operand0)).toFinset

def kinds : Finset (ValueId × OwnershipKind) :=
  (code.map fun ins => (ins.result, ins.definedKind)).toFinset

def sources : Finset (ValueId × ValueId) := (code.map fun ins => (ins.result, ins.operand0)).toFinset

/-- How much has been lost and gained on the way to a state. -/
def rank : Nat :=
  (results code \ s.live).card + (results code \ s.values).card + (kinds code \ s.ownership).card +
    s.moved.card + s.borrowSources.card

def height : Nat :=
  2 * (results code).card + (kinds code).card + (operands code).card + (sources code).card

end

section
variable {code : List Instruction} {s t : FlowState}

theorem mem_image_code {A : Type} [DecidableEq A] {g : Instruction → A} {a : A}
    (h : ∃ ins ∈ code, g ins = a) : a ∈ (code.map g).toFinset := by
  simpa using h

theorem Valid.live_subset (hs : Valid code s) : s.live ⊆ results code := by
  intro v hv
  obtain ⟨kind, hkind⟩ := Entries.mem_keys.mp ((hs.owned v).mp hv)
  obtain ⟨ins, hins, -, hresult, -⟩ := hs.ownership _ hkind
  exact mem_image_code ⟨ins, hins, hresult⟩

theorem Valid.values_subset (hs : Valid code s) : s.values ⊆ results code :=
  fun v hv => mem_image_code (hs.values v hv)

theorem Valid.moved_subset (hs : Valid code s) : s.moved ⊆ operands code :=
  fun v hv => mem_image_code (hs.moved v hv)

theorem Valid.ownership_subset (hs : Valid code s) : s.ownership ⊆ kinds code := by
  intro e he
  obtain ⟨ins, hins, -, hresult, hkind⟩ := hs.ownership e he
  exact mem_image_code ⟨ins, hins, by rw [hresult, hkind]⟩

theorem Valid.borrowSources_subset (hs : Valid code s) : s.borrowSources ⊆ sources code := by
  intro e he
  obtain ⟨ins, hins, -, hresult, hsource⟩ := hs.borrowSources e he
  exact mem_image_code ⟨ins, hins, by rw [hresult, hsource]⟩

theorem rank_le (hs : Valid code s) : rank code s ≤ height code := by
  have hlive : (results code \ s.live).card ≤ (results code).card :=
    Finset.card_le_card Finset.sdiff_subset
  have hvalues : (results code \ s.values).card ≤ (results code).card :=
    Finset.card_le_card Finset.sdiff_subset
  have hownership : (kinds code \ s.ownership).card ≤ (kinds code).card :=
    Finset.card_le_card Finset.sdiff_subset
  have hmoved := Finset.card_le_card hs.moved_subset
  have hborrows := Finset.card_le_card hs.borrowSources_subset
  simp only [rank, height]
  omega

/-- A set that only shrinks within a bound stays the same when its complement does not grow. -/
theorem subset_of_card_sdiff_le {A : Type} [DecidableEq A] {bound a b : Finset A} (ha : a ⊆ bound)
    (hle : b ⊆ a) (hcard : (bound \ b).card ≤ (bound \ a).card) : a ⊆ b := by
  have hsame : bound \ a = bound \ b :=
    Finset.eq_of_subset_of_card_le (Finset.sdiff_subset_sdiff (Finset.Subset.refl _) hle) hcard
  intro v hv
  by_contra hnot
  have hmem : v ∈ bound \ a := by
    rw [hsame]
    exact Finset.mem_sdiff.mpr ⟨ha hv, hnot⟩
  exact (Finset.mem_sdiff.mp hmem).2 hv

theorem rank_lt (hs : Valid code s) (hlt : s < t) : rank code s < rank code t := by
  obtain ⟨hle, hnot⟩ := lt_iff_le_not_ge.mp hlt
  obtain ⟨⟨hlive, hvalues, hownership⟩, hmoved, hborrows⟩ := hle
  have hsub {A : Type} [DecidableEq A] (bound : Finset A) {a b : Finset A} (h : b ⊆ a) :
      (bound \ a).card ≤ (bound \ b).card :=
    Finset.card_le_card (Finset.sdiff_subset_sdiff (Finset.Subset.refl _) h)
  have h₁ := hsub (results code) hlive
  have h₂ := hsub (results code) hvalues
  have h₃ := hsub (kinds code) hownership
  have h₄ := Finset.card_le_card hmoved
  have h₅ := Finset.card_le_card hborrows
  by_contra hrank
  simp only [rank] at hrank
  refine hnot ⟨⟨?_, ?_, ?_⟩, ?_, ?_⟩
  · exact subset_of_card_sdiff_le hs.live_subset hlive (by omega)
  · exact subset_of_card_sdiff_le hs.values_subset hvalues (by omega)
  · exact subset_of_card_sdiff_le hs.ownership_subset hownership (by omega)
  · exact (Finset.eq_of_subset_of_card_le hmoved (by omega)).symm.subset
  · exact (Finset.eq_of_subset_of_card_le hborrows (by omega)).symm.subset

end

end FlowState

end zl.ir
