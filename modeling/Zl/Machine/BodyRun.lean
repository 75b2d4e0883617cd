import Zl.Machine.Compiled

namespace zl.machine

/-- An int value, unless the arithmetic has overflowed. -/
def checked (v : Int) : Option Int := if -2 ^ 63 ≤ v ∧ v < 2 ^ 63 then some v else none

/-- The values and the locals of a function, and how many parameters are bound. -/
structure Scope where
  values : ir.ValueId → Option Int := fun _ => none
  bound : Nat := 0

def Scope.set (s : Scope) (id : ir.ValueId) (v : Option Int) : Scope :=
  { s with values := Function.update s.values id v }

@[simp]
theorem Scope.values_set_self (s : Scope) (id : ir.ValueId) (v : Option Int) :
    (s.set id v).values id = v :=
  Function.update_self _ _ _

theorem Scope.values_set_of_ne (s : Scope) {id id' : ir.ValueId} (hne : id' ≠ id) (v : Option Int) :
    (s.set id v).values id' = s.values id' :=
  Function.update_of_ne hne _ _

def evaluateBinary (symbol : String) (a b : Int) : Option Int :=
  if symbol = toString TokenType.plus then checked (a + b)
  else if symbol = toString TokenType.minus then checked (a - b)
  else if symbol = toString TokenType.star then checked (a * b)
  else none

/-- What an instruction that does not return does to the values. The definitions of locals bind
    the parameters first, in their order. -/
def evaluateInstruction (arguments : List Int) (s : Scope) (ins : ir.Instruction) : Option Scope :=
  match ins.opcode with
  | .const => (parseInt64 ins.symbol).map fun v : Int => s.set ins.result (some v)
  | .defineLocal =>
    match arguments[s.bound]? with
    | some a => some { s.set ins.result (some a) with bound := s.bound + 1 }
    | none =>
      if ins.operand0 = 0 then some (s.set ins.result none)
      else (s.values ins.operand0).map fun v : Int => s.set ins.result (some v)
  | .loadLocal | .assignLocal => (s.values ins.operand0).map fun v : Int => s.set ins.result (some v)
  | .unary =>
    if ins.symbol = toString TokenType.minus then do
      let a ← s.values ins.operand0
      let v ← checked (-a)
      some (s.set ins.result (some v))
    else none
  | .binary => do
    let a ← s.values ins.operand0
    let b ← s.values ins.operand1
    let v ← evaluateBinary ins.symbol a b
    some (s.set ins.result (some v))
  | .nop => some s
  | _ => none

/-- The value that a block returns, when it returns one and nothing overflows before. -/
def evaluate (arguments : List Int) : Scope → List ir.Instruction → Option Int
  | _, [] => none
  | s, ins :: rest =>
    if ins.opcode = .return then if ins.operand0 = 0 then none else s.values ins.operand0
    else (evaluateInstruction arguments s ins).bind fun s' => evaluate arguments s' rest

def evaluateFunction (fn : ir.Function) (arguments : List Int) : Option Int :=
  match fn.blocks with
  | [block] => evaluate arguments {} block.instructions
  | _ => none

/-- A parameter's register as its local is defined, and whether arithmetic has been done before. -/
structure ParameterStore where
  register : Nat
  afterBinary : Bool

/-- The parameters that are moved from their registers into the frame. -/
def parameterStores (platform : Platform) (parameters : Nat) :
    Nat → Bool → List ir.Instruction → List ParameterStore
  | _, _, [] => []
  | k, afterBinary, ins :: rest =>
    match ins.opcode with
    | .defineLocal =>
      if k < parameters then
        ⟨platform.argRegs.getD k 0, afterBinary⟩ :: parameterStores platform parameters
          (k + 1) afterBinary rest
      else parameterStores platform parameters k afterBinary rest
    | .binary => parameterStores platform parameters k true rest
    | _ => parameterStores platform parameters k afterBinary rest

def storesOf (platform : Platform) (fn : ir.Function) : List ParameterStore :=
  parameterStores platform fn.parameterTypes.length 0 false (fn.blocks.flatMap (·.instructions))

section
variable {arguments : List Int} {s s' : Scope} {ins : ir.Instruction}

theorem evaluate_append_return {front : List ir.Instruction} {last : ir.Instruction} {v : Int}
    (hfront : ∀ ins ∈ front, ins.opcode ≠ .return) (hlast : last.opcode = .return)
    (h : evaluate arguments s (front ++ [last]) = some v) :
    ∃ s', front.foldlM (evaluateInstruction arguments) s = some s' ∧ last.operand0 ≠ 0 ∧
      s'.values last.operand0 = some v := by
  induction front generalizing s with
  | nil =>
    rw [List.nil_append, evaluate, if_pos hlast] at h
    split at h
    · nomatch h
    · next hoperand => exact ⟨s, rfl, hoperand, h⟩
  | cons ins front ih =>
    rw [List.cons_append, evaluate, if_neg (hfront ins List.mem_cons_self), Option.bind_eq_some_iff] at h
    obtain ⟨s1, hs1, h⟩ := h
    obtain ⟨s', hs', hvalue⟩ := ih (fun ins hins => hfront ins (List.mem_cons_of_mem _ hins)) h
    refine ⟨s', ?_, hvalue⟩
    rw [List.foldlM_cons, hs1]
    exact hs'

theorem parameterStores_append_return {platform : Platform} {parameters k : Nat} {afterBinary : Bool}
    {front : List ir.Instruction} {last : ir.Instruction} (hlast : last.opcode = .return) :
    parameterStores platform parameters k afterBinary (front ++ [last]) =
      parameterStores platform parameters k afterBinary front := by
  induction front generalizing k afterBinary with
  | nil => simp only [List.nil_append, parameterStores, hlast]
  | cons ins front ih => simp only [List.cons_append, parameterStores, ih]

end

open x64 Memory

/-- What rbp holds while the function runs. -/
def frameBase (entry : Machine) : Address := entry.registers rsp - 8

/-- Eight bytes from an address on lie between the lowest cell and the return address. -/
def InFrame (frameSize : Nat) (entry : Machine) (a : Address) : Prop :=
  (a - (frameBase entry - BitVec.ofNat 64 frameSize)).toNat ≤ frameSize + 8

/-- The machine while it runs the body of a function, beside the values of the function. -/
structure Simulates (slots : Slots) (frameSize : Nat) (entry : Machine) (s : Scope) (m : Machine) :
    Prop where
  rbp : m.registers rbp = frameBase entry
  rsp : m.registers rsp = frameBase entry - BitVec.ofNat 64 frameSize
  saved : m.memory.read64 (frameBase entry) = entry.registers x64.rbp
  returnAddress : m.memory.read64 (entry.registers x64.rsp) =
    entry.memory.read64 (entry.registers x64.rsp)
  accesses : ∀ a ∈ m.accesses, InFrame frameSize entry a
  values : ∀ {id : ir.ValueId} {v : Int} {off : Byte}, s.values id = some v → slots.lookup id = some off →
    m.memory.read64 (frameBase entry + off.signExtend 64) = BitVec.ofInt 64 v

section
variable {slots : Slots} {frameSize : Nat} {entry m : Machine} {s : Scope}
variable {id : ir.ValueId} {off : Byte}

theorem inFrame_cell (hlayout : Layout slots frameSize) (hoff : slots.lookup id = some off)
    (entry : Machine) :
    InFrame frameSize entry (frameBase entry + off.signExtend 64) := by
  obtain ⟨index, hindex, hsize, rfl⟩ := hlayout.cell hoff
  have hframe := hlayout.frameSize_le
  rw [signExtend_cellOffset hindex]
  unfold InFrame
  bv_omega

theorem apart_cells (hlayout : Layout slots frameSize) {id id' : ir.ValueId} {off off' : Byte}
    (hoff : slots.lookup id = some off) (hoff' : slots.lookup id' = some off') (hne : id ≠ id')
    (base : Address) : Memory.Apart (base + off.signExtend 64) (base + off'.signExtend 64) := by
  obtain ⟨i, hi, -, rfl⟩ := hlayout.cell hoff
  obtain ⟨j, hj, -, rfl⟩ := hlayout.cell hoff'
  have hij : i ≠ j := fun heq => hne (hlayout.injective hoff (heq ▸ hoff'))
  rw [signExtend_cellOffset hi, signExtend_cellOffset hj]
  constructor <;> bv_omega

theorem apart_saved (hlayout : Layout slots frameSize) (hoff : slots.lookup id = some off)
    (base : Address) : Memory.Apart base (base + off.signExtend 64) := by
  obtain ⟨i, hi, -, rfl⟩ := hlayout.cell hoff
  rw [signExtend_cellOffset hi]
  constructor <;> bv_omega

theorem apart_returnAddress (hlayout : Layout slots frameSize) (hoff : slots.lookup id = some off)
    (entry : Machine) :
    Memory.Apart (entry.registers rsp) (frameBase entry + off.signExtend 64) := by
  obtain ⟨i, hi, -, rfl⟩ := hlayout.cell hoff
  unfold frameBase
  rw [signExtend_cellOffset hi]
  constructor <;> bv_omega

namespace Simulates

theorem setRegister (h : Simulates slots frameSize entry s m) {r : Register} (hrsp : r ≠ x64.rsp)
    (hrbp : r ≠ x64.rbp) (v : Word) : Simulates slots frameSize entry s (m.setRegister r v) where
  rbp := (Function.update_of_ne hrbp.symm _ _).trans h.rbp
  rsp := (Function.update_of_ne hrsp.symm _ _).trans h.rsp
  saved := h.saved
  returnAddress := h.returnAddress
  accesses := h.accesses
  values := h.values

theorem access (h : Simulates slots frameSize entry s m) {a : Address} (ha : InFrame frameSize entry a) :
    Simulates slots frameSize entry s (m.access a) where
  rbp := h.rbp
  rsp := h.rsp
  saved := h.saved
  returnAddress := h.returnAddress
  accesses := List.forall_mem_cons.mpr ⟨ha, h.accesses⟩
  values := h.values

theorem load (h : Simulates slots frameSize entry s m) (hlayout : Layout slots frameSize)
    {id : ir.ValueId} {off : Byte} (hoff : slots.lookup id = some off) {r : Register}
    (hrsp : r ≠ x64.rsp) (hrbp : r ≠ x64.rbp) :
    Simulates slots frameSize entry s (m.effect (.load r (frameCell off))) := by
  refine setRegister ?_ hrsp hrbp _
  change Simulates slots frameSize entry s (m.access (m.registers x64.rbp + off.signExtend 64))
  rw [h.rbp]
  exact h.access (inFrame_cell hlayout hoff entry)

theorem load_value (h : Simulates slots frameSize entry s m) {id : ir.ValueId} {v : Int} {off : Byte}
    (hv : s.values id = some v) (hoff : slots.lookup id = some off) (r : Register) :
    (m.effect (.load r (frameCell off))).registers r = BitVec.ofInt 64 v := by
  refine (Machine.registers_setRegister_self _ _ _).trans ?_
  change m.memory.read64 (m.registers x64.rbp + off.signExtend 64) = _
  rw [h.rbp]
  exact h.values hv hoff

theorem store (h : Simulates slots frameSize entry s m) (hlayout : Layout slots frameSize)
    {id : ir.ValueId} {off : Byte} (hoff : slots.lookup id = some off) {r : Register} {v : Int}
    (hv : m.registers r = BitVec.ofInt 64 v) :
    Simulates slots frameSize entry (s.set id (some v)) (m.effect (.store (frameCell off) r)) where
  rbp := h.rbp
  rsp := h.rsp
  saved := by
    change (m.memory.write64 (m.registers x64.rbp + off.signExtend 64) _).read64 _ = _
    rw [h.rbp, read64_write64_of_apart _ _ (apart_saved hlayout hoff _)]
    exact h.saved
  returnAddress := by
    change (m.memory.write64 (m.registers x64.rbp + off.signExtend 64) _).read64 _ = _
    rw [h.rbp, read64_write64_of_apart _ _ (apart_returnAddress hlayout hoff entry)]
    exact h.returnAddress
  accesses := by
    change ∀ a ∈ (m.registers x64.rbp + off.signExtend 64) :: m.accesses, InFrame frameSize entry a
    rw [h.rbp]
    exact List.forall_mem_cons.mpr ⟨inFrame_cell hlayout hoff entry, h.accesses⟩
  values := by
    intro id' v' off' hv' hoff'
    change (m.memory.write64 (m.registers x64.rbp + off.signExtend 64) (m.registers r)).read64 _ = _
    rw [h.rbp]
    by_cases heq : id' = id
    · subst heq
      obtain rfl := Option.some.inj (hoff'.symm.trans hoff)
      rw [Scope.values_set_self] at hv'
      rw [read64_write64_same, hv, Option.some.inj hv']
    · rw [read64_write64_of_apart _ _ (apart_cells hlayout hoff' hoff heq _)]
      refine h.values ?_ hoff'
      rwa [Scope.values_set_of_ne _ heq] at hv'

theorem forget (h : Simulates slots frameSize entry s m) (id : ir.ValueId) :
    Simulates slots frameSize entry (s.set id none) m :=
  { h with
    values := fun {id' v off} hv hoff => by
      by_cases heq : id' = id
      · subst heq
        rw [Scope.values_set_self] at hv
        nomatch hv
      · rw [Scope.values_set_of_ne _ heq] at hv
        exact h.values hv hoff }

theorem bound (h : Simulates slots frameSize entry s m) (k : Nat) :
    Simulates slots frameSize entry { s with bound := k } m := { h with }

end Simulates

end

open x64

section
variable {platform : Platform} {fn : ir.Function} {slots : Slots} {frameSize k k' : Nat}
  {entry m : Machine} {s s' : Scope} {ins : ir.Instruction} {body : List Instruction}
  {arguments : List Int}
variable {front : List ir.Instruction} {bound : Nat} {afterBinary : Bool}

/-- Nothing but the two scratch registers is written, and the second one by arithmetic only. -/
theorem registers_selected (hselected : Selected platform fn slots k ins body k') {r : Register}
    (hrax : r ≠ rax) (hrcx : r = rcx → ins.opcode ≠ .binary) :
    (m.run body).registers r = m.registers r := by
  cases hselected with
  | const _ _ _ => exact Function.update_of_ne hrax _ _
  | parameter _ _ _ _ => rfl
  | copy _ _ _ => exact Function.update_of_ne hrax _ _
  | undefined _ _ _ => rfl
  | unary _ _ _ _ => exact (Function.update_of_ne hrax _ _).trans (Function.update_of_ne hrax _ _)
  | binary hopcode hoperation _ _ _ =>
    have hrcx : r ≠ rcx := fun heq => hrcx heq hopcode
    have hloads {v w : Word} :
        Function.update (Function.update m.registers rax v) rcx w r = m.registers r :=
      (Function.update_of_ne hrcx _ _).trans (Function.update_of_ne hrax _ _)
    cases hoperation with
    | plus _ => exact (Function.update_of_ne hrax _ _).trans hloads
    | minus _ => exact (Function.update_of_ne hrax _ _).trans hloads
    | star _ => exact (Function.update_of_ne hrax _ _).trans hloads
  | nop _ => rfl

theorem checked_eq_some {a v : Int} (h : checked a = some v) : v = a := by
  unfold checked at h
  split at h
  · exact (Option.some.inj h).symm
  · nomatch h

namespace Simulates

/-- The arithmetic of the machine agrees with the values where these do not overflow. -/
theorem operation {symbol : String} {operation : Instruction} (hoperation : Operation symbol operation)
    (h : Simulates slots frameSize entry s m) {a b v : Int} (ha : m.registers x64.rax = BitVec.ofInt 64 a)
    (hb : m.registers rcx = BitVec.ofInt 64 b) (hv : evaluateBinary symbol a b = some v) :
    Simulates slots frameSize entry s (m.effect operation) ∧
      (m.effect operation).registers x64.rax = BitVec.ofInt 64 v := by
  unfold evaluateBinary at hv
  cases hoperation with
  | plus hsymbol =>
    rw [if_pos hsymbol] at hv
    refine ⟨h.setRegister (by decide) (by decide) _, ?_⟩
    change Function.update m.registers x64.rax (m.registers x64.rax + m.registers rcx) x64.rax = _
    rw [Function.update_self, ha, hb, checked_eq_some hv, BitVec.ofInt_add]
  | minus hsymbol =>
    rw [hsymbol, if_neg (by decide), if_pos rfl] at hv
    refine ⟨h.setRegister (by decide) (by decide) _, ?_⟩
    change Function.update m.registers x64.rax (m.registers x64.rax - m.registers rcx) x64.rax = _
    rw [Function.update_self, ha, hb, checked_eq_some hv, Int.sub_eq_add_neg, BitVec.ofInt_add,
      BitVec.ofInt_neg, BitVec.sub_eq_add_neg]
  | star hsymbol =>
    rw [hsymbol, if_neg (by decide), if_neg (by decide), if_pos rfl] at hv
    refine ⟨h.setRegister (by decide) (by decide) _, ?_⟩
    change Function.update m.registers x64.rax (m.registers x64.rax * m.registers rcx) x64.rax = _
    rw [Function.update_self, ha, hb, checked_eq_some hv, BitVec.ofInt_mul]

/-- One instruction: a parameter has to be in the register that its store names. -/
theorem selected (h : Simulates slots frameSize entry s m) (hlayout : Layout slots frameSize)
    (hselected : Selected platform fn slots s.bound ins body k')
    (hlength : arguments.length = fn.parameterTypes.length)
    (hparameter : ∀ {reg : Nat} {a : Int}, ins.opcode = .defineLocal →
      platform.argRegs[s.bound]? = some reg → arguments[s.bound]? = some a →
      reg < 8 ∧ m.registers (extended false reg) = BitVec.ofInt 64 a)
    (heval : evaluateInstruction arguments s ins = some s') :
    Simulates slots frameSize entry s' (m.run body) ∧ s'.bound = k' := by
  unfold evaluateInstruction at heval
  cases hselected with
  | const hopcode hparse hresult =>
    rw [hopcode, hparse] at heval
    obtain rfl := Option.some.inj heval
    exact ⟨(h.setRegister (by decide) (by decide) _).store hlayout hresult
      (Machine.registers_setRegister_self _ _ _), rfl⟩
  | parameter hopcode hk hreg hresult =>
    rw [hopcode] at heval
    obtain ⟨a, ha⟩ : ∃ a, arguments[s.bound]? = some a :=
      ⟨_, List.getElem?_eq_getElem (hlength.symm ▸ hk)⟩
    rw [ha] at heval
    obtain rfl := Option.some.inj heval
    obtain ⟨hlow, hvalue⟩ := hparameter hopcode hreg ha
    refine ⟨?_, rfl⟩
    rw [Machine.run_cons, encodedCell_of_lt _ hlow]
    exact (h.store hlayout hresult hvalue).bound _
  | copy hopcode hsource hresult =>
    have hcopy : (s.values ins.operand0).map (fun v => s.set ins.result (some v)) = some s' := by
      rcases hopcode with hopcode | hopcode | ⟨hopcode, hk, hoperand⟩
      · rwa [hopcode] at heval
      · rwa [hopcode] at heval
      · rw [hopcode, List.getElem?_eq_none (hlength.symm ▸ hk)] at heval
        exact (if_neg hoperand).symm.trans heval
    rw [Option.map_eq_some_iff] at hcopy
    obtain ⟨v, hv, rfl⟩ := hcopy
    exact ⟨(h.load hlayout hsource (by decide) (by decide)).store hlayout hresult
      (h.load_value hv hsource _), rfl⟩
  | undefined hopcode hk hsource =>
    rw [hopcode, List.getElem?_eq_none (hlength.symm ▸ hk)] at heval
    obtain rfl := Option.some.inj ((if_pos hsource).symm.trans heval)
    exact ⟨h.forget _, rfl⟩
  | unary hopcode hsymbol hsource hresult =>
    rw [hopcode] at heval
    replace heval := (if_pos hsymbol).symm.trans heval
    simp only [Option.bind_eq_bind, Option.bind_eq_some_iff] at heval
    obtain ⟨a, ha, v, hv, heval⟩ := heval
    obtain rfl := Option.some.inj heval
    have hload := h.load hlayout hsource (r := rax) (by decide) (by decide)
    have hrax := h.load_value ha hsource rax
    refine ⟨(hload.setRegister (by decide) (by decide) _).store hlayout hresult ?_, rfl⟩
    refine (Machine.registers_setRegister_self _ _ _).trans ?_
    rw [checked_eq_some hv, BitVec.ofInt_neg, ← hrax]
    rfl
  | @binary _ left right _ _ hopcode hoperation hleft hright hresult =>
    rw [hopcode] at heval
    simp only [Option.bind_eq_bind, Option.bind_eq_some_iff] at heval
    obtain ⟨a, ha, b, hb, v, hv, heval⟩ := heval
    obtain rfl := Option.some.inj heval
    have hload := h.load hlayout hleft (r := rax) (by decide) (by decide)
    have hloads := hload.load hlayout hright (r := rcx) (by decide) (by decide)
    have hrax := (Machine.registers_load_of_ne _ (by decide : rax ≠ rcx) (frameCell right)).trans
      (h.load_value ha hleft rax)
    obtain ⟨hoperated, hvalue⟩ := hloads.operation hoperation hrax (hload.load_value hb hright rcx) hv
    exact ⟨hoperated.store hlayout hresult hvalue, rfl⟩
  | nop hopcode =>
    rw [hopcode] at heval
    obtain rfl := Option.some.inj heval
    exact ⟨h, rfl⟩

end Simulates

theorem ret_notMem_selected (hselected : Selected platform fn slots k ins body k') : .ret ∉ body := by
  cases hselected with
  | binary _ hoperation _ _ _ => cases hoperation <;> simp
  | _ => simp

/-- What one instruction adds to the stores: arithmetic is behind those of the rest from the
    first binary instruction on. -/
theorem parameterStores_cons (hselected : Selected platform fn slots k ins body k')
    (rest : List ir.Instruction) (afterBinary : Bool) :
    parameterStores platform fn.parameterTypes.length k afterBinary (ins :: rest) =
      (if ins.opcode = .defineLocal ∧ k < fn.parameterTypes.length then
        [⟨platform.argRegs.getD k 0, afterBinary⟩] else []) ++
      parameterStores platform fn.parameterTypes.length k'
        (afterBinary || ins.opcode = .binary) rest := by
  rw [parameterStores]
  cases hselected with
  | const hopcode _ _ | unary hopcode _ _ _ | nop hopcode | binary hopcode _ _ _ _ => simp [hopcode]
  | parameter hopcode hk _ _ => simp [hopcode, hk]
  | copy hopcode _ _ =>
    rcases hopcode with hopcode | hopcode | ⟨hopcode, hk, -⟩
    · simp [hopcode]
    · simp [hopcode]
    · simp [hopcode, Nat.not_lt.mpr hk]
  | undefined hopcode hk _ => simp [hopcode, Nat.not_lt.mpr hk]

/-- The parameters that are not bound yet are in their registers, but one that arithmetic may
    have replaced. -/
def InRegisters (platform : Platform) (arguments : List Int) (afterBinary : Bool) (m : Machine) : Prop :=
  ∀ {k reg : Nat} {a : Int}, platform.argRegs[k]? = some reg → arguments[k]? = some a → reg < 8 →
    (reg = 1 → afterBinary = false) → m.registers (extended false reg) = BitVec.ofInt 64 a

theorem extended_argRegs_ne_rax {reg : Nat} (hlow : reg < 8) (hreg : platform.argRegs[k]? = some reg) :
    extended false reg ≠ rax := by
  have hmem := List.mem_of_getElem? hreg
  interval_cases reg
  · cases platform <;> simp [Platform.argRegs] at hmem
  all_goals decide

theorem eq_one_of_extended {reg : Nat} (hlow : reg < 8) (h : extended false reg = rcx) : reg = 1 := by
  interval_cases reg <;> first | rfl | exact absurd h (by decide)

theorem InRegisters.selected (h : InRegisters platform arguments afterBinary m)
    (hselected : Selected platform fn slots k ins body k') :
    InRegisters platform arguments (afterBinary || ins.opcode = .binary) (m.run body) := by
  intro j reg a hreg ha hlow hrcx
  rw [registers_selected hselected (extended_argRegs_ne_rax hlow hreg)]
  · exact h hreg ha hlow fun hone => (Bool.or_eq_false_iff.mp (hrcx hone)).1
  · intro heq hopcode
    have hclean := hrcx (eq_one_of_extended hlow heq)
    rw [hopcode] at hclean
    simp at hclean

/-- The body, when every parameter it stores is in a low register that is still intact. -/
theorem Simulates.selectedAll (h : Simulates slots frameSize entry s m) (hlayout : Layout slots frameSize)
    (hselected : SelectedAll platform fn slots s.bound front body bound)
    (hlength : arguments.length = fn.parameterTypes.length)
    (hregisters : InRegisters platform arguments afterBinary m)
    (hstores : ∀ p ∈ parameterStores platform fn.parameterTypes.length s.bound afterBinary front,
      p.register < 8 ∧ (p.register = 1 → p.afterBinary = false))
    (heval : front.foldlM (evaluateInstruction arguments) s = some s') :
    Simulates slots frameSize entry s' (m.run body) := by
  induction front generalizing s m body afterBinary with
  | nil =>
    cases hselected
    obtain rfl := Option.some.inj heval
    exact h
  | cons ins rest ih =>
    cases hselected with
    | cons hins hrest =>
      rw [List.foldlM_cons] at heval
      obtain ⟨s1, hs1, heval⟩ := Option.bind_eq_some_iff.mp heval
      have hparameter {reg : Nat} {a : Int} (hopcode : ins.opcode = .defineLocal)
          (hreg : platform.argRegs[s.bound]? = some reg) (ha : arguments[s.bound]? = some a) :
          reg < 8 ∧ m.registers (extended false reg) = BitVec.ofInt 64 a := by
        have hk := (List.getElem?_eq_some_iff.mp ha).1
        obtain ⟨hlow, hintact⟩ := hstores ⟨reg, afterBinary⟩ (by
          rw [parameterStores_cons hins, if_pos ⟨hopcode, hlength ▸ hk⟩, List.getD_eq_getElem?_getD, hreg]
          exact List.mem_append_left _ List.mem_cons_self)
        exact ⟨hlow, hregisters hreg ha hlow hintact⟩
      obtain ⟨h1, hbound⟩ := h.selected hlayout hins hlength hparameter hs1
      subst hbound
      rw [Machine.run_append]
      refine ih h1 hrest (hregisters.selected hins) (fun p hp => hstores p ?_) heval
      rw [parameterStores_cons hins]
      exact List.mem_append_right _ hp

theorem ret_notMem_selectedAll (hselected : SelectedAll platform fn slots k front body bound) :
    .ret ∉ body := by
  induction hselected with
  | nil => nofun
  | cons hins _ ih =>
    rw [List.mem_append]
    exact fun h => h.elim (ret_notMem_selected hins) ih

theorem registers_selectedAll (hselected : SelectedAll platform fn slots k front body bound)
    {r : Register} (hrax : r ≠ rax) (hrcx : r ≠ rcx) :
    (m.run body).registers r = m.registers r := by
  induction hselected generalizing m with
  | nil => rfl
  | cons hins _ ih =>
    rw [Machine.run_append, ih, registers_selected hins hrax (absurd · hrcx)]

/-- A stored parameter is stored by one of the instructions selected, at r13 where its register
    is a high one. -/
theorem exists_store_of_mem {p : ParameterStore}
    (hselected : SelectedAll platform fn slots k front body bound)
    (hp : p ∈ parameterStores platform fn.parameterTypes.length k afterBinary front) :
    ∃ front' bound' before off after,
      body = before ++ .store (encodedCell off p.register) (extended false p.register) :: after ∧
        SelectedAll platform fn slots k front' before bound' := by
  induction hselected generalizing afterBinary with
  | nil => nomatch hp
  | @cons k k' _ ins rest body body' hins hrest ih =>
    rw [parameterStores_cons hins, List.mem_append] at hp
    rcases hp with hp | hp
    · split at hp
      · next hparameter =>
        obtain ⟨hopcode, hk⟩ := hparameter
        obtain rfl := List.mem_singleton.mp hp
        cases hins with
        | @parameter reg _ off _ _ hreg _ =>
          refine ⟨[], k, [], off, body', ?_, .nil⟩
          dsimp only
          rw [List.getD_eq_getElem?_getD, hreg]
          rfl
        | copy hopcode' _ _ =>
          rcases hopcode' with hopcode' | hopcode' | ⟨-, hk', -⟩
          · exact absurd (hopcode.symm.trans hopcode') (by simp)
          · exact absurd (hopcode.symm.trans hopcode') (by simp)
          · exact absurd hk (Nat.not_lt.mpr hk')
        | undefined _ hk' _ => exact absurd hk (Nat.not_lt.mpr hk')
        | const hopcode' _ _ | unary hopcode' _ _ _ | nop hopcode' | binary hopcode' _ _ _ _ =>
          exact absurd (hopcode.symm.trans hopcode') (by simp)
      · nomatch hp
    · obtain ⟨front', bound', before, off, after, rfl, hbefore⟩ := ih hp
      exact ⟨ins :: front', bound', body ++ before, off, after, by rw [List.append_assoc],
        .cons hins hbefore⟩

end

end zl.machine
