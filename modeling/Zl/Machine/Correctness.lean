import Zl.Machine.BodyRun

namespace zl.machine

open x64 Memory

/-- The machine as a function is called: its arguments are in the registers of the platform. -/
structure Entry (platform : Platform) (arguments : List Int) (entry : Machine) : Prop where
  arguments {k reg : Nat} {a : Int} : platform.argRegs[k]? = some reg → arguments[k]? = some a →
    entry.registers (Fin.ofNat 16 reg) = BitVec.ofInt 64 a
  accesses : entry.accesses = []

/-- Executed from its first byte, the code returns a value to its caller, with the frame registers
    as they were, and touches its own frame only. -/
def ReturnsInFrame (code : List Byte) (frameSize : Nat) (v : Int) (entry : Machine) : Prop :=
  ∃ fuel m, execute code fuel 0 entry = some (m, entry.memory.read64 (entry.registers rsp)) ∧
    m.registers rax = BitVec.ofInt 64 v ∧ m.registers rsp = entry.registers rsp + 8 ∧
    m.registers rbp = entry.registers rbp ∧ ∀ a ∈ m.accesses, InFrame frameSize entry a

section
variable {platform : Platform} {fn : ir.Function} {slots : Slots} {code : List Byte} {frameSize : Nat}
  {entry m : Machine} {arguments : List Int} {v : Int}

theorem inFrame_saved (hsize : frameSize ≤ 128) (entry : Machine) :
    InFrame frameSize entry (frameBase entry) := by
  unfold InFrame
  bv_omega

theorem inFrame_returnAddress (hsize : frameSize ≤ 128) (entry : Machine) :
    InFrame frameSize entry (entry.registers rsp) := by
  unfold InFrame frameBase
  bv_omega

theorem adjustRsp_run (op : ArithmeticOp) (n : Nat) (m : Machine) :
    m.run (adjustRsp op n) =
      m.setRegister rsp (op.apply (m.registers rsp) (BitVec.ofNat 64 n)) := by
  unfold adjustRsp
  split
  · next hn =>
    subst hn
    have hzero : op.apply (m.registers rsp) (BitVec.ofNat 64 0) = m.registers rsp := by
      cases op with
      | add => exact BitVec.add_zero _
      | sub => exact BitVec.sub_zero _
    rw [hzero, Machine.setRegister, Function.update_eq_self]
    rfl
  · rfl

def prologue (frameSize : Nat) : List Instruction :=
  [.push rbp, .store (.register rbp) rsp] ++ adjustRsp .sub frameSize

/-- The prologue sets the frame up, and leaves every other register alone. -/
theorem simulates_prologue (hsize : frameSize ≤ 128) (hentry : entry.accesses = []) :
    Simulates slots frameSize entry {} (entry.run (prologue frameSize)) := by
  rw [prologue, Machine.run_append, adjustRsp_run]
  exact {
    rbp := rfl
    rsp := rfl
    saved := read64_write64_same _ _ _
    returnAddress := by
      refine read64_write64_of_apart _ _ ?_
      constructor <;> bv_omega
    accesses := by
      change ∀ a ∈ frameBase entry :: entry.accesses, InFrame frameSize entry a
      rw [hentry]
      exact List.forall_mem_singleton.mpr (inFrame_saved hsize entry)
    values := fun hv _ => nomatch hv }

theorem registers_prologue {r : Register} (hrsp : r ≠ rsp) (hrbp : r ≠ rbp) :
    (entry.run (prologue frameSize)).registers r = entry.registers r := by
  rw [prologue, Machine.run_append, adjustRsp_run]
  refine (Machine.registers_setRegister_of_ne _ hrsp _).trans ?_
  exact (Function.update_of_ne hrbp _ _).trans (Function.update_of_ne hrsp _ _)

def epilogue (frameSize : Nat) : List Instruction := adjustRsp .add frameSize ++ [.pop rbp]

/-- The epilogue takes the frame down and returns to the caller. -/
theorem epilogue_run {s : Scope} (h : Simulates slots frameSize entry s m) (hsize : frameSize ≤ 128) :
    let last := m.run (epilogue frameSize)
    last.registers rax = m.registers rax ∧ last.registers rsp = entry.registers rsp ∧
      last.registers rbp = entry.registers rbp ∧
      last.memory.read64 (last.registers rsp) = entry.memory.read64 (entry.registers rsp) ∧
      ∀ a ∈ last.accesses, InFrame frameSize entry a := by
  have hbase : m.registers rsp + BitVec.ofNat 64 frameSize = frameBase entry := by
    rw [h.rsp]
    bv_omega
  have hrsp : frameBase entry + 8 = entry.registers rsp := by
    unfold frameBase
    bv_omega
  rw [epilogue, Machine.run_append, adjustRsp_run, ArithmeticOp.apply, hbase]
  refine ⟨rfl, hrsp, h.saved, ?_, ?_⟩
  · change m.memory.read64 (frameBase entry + 8) = _
    rw [hrsp]
    exact h.returnAddress
  · change ∀ a ∈ frameBase entry :: m.accesses, InFrame frameSize entry a
    exact List.forall_mem_cons.mpr ⟨inFrame_saved hsize entry, h.accesses⟩

/-- The machine instructions of a whole function but its return. -/
def Compiled.instructions (c : Compiled platform fn code frameSize) : List Instruction :=
  prologue frameSize ++ c.body ++ c.value ++ epilogue frameSize

theorem Compiled.execute_eq (c : Compiled platform fn code frameSize) (entry : Machine) :
    execute code (c.instructions.length + 1) 0 entry =
      some ((entry.run c.instructions).effect .ret,
        (entry.run c.instructions).memory.read64 ((entry.run c.instructions).registers rsp)) := by
  have hassembles : Assembles code (c.instructions ++ [.ret]) := by
    have h := c.assembles
    simp only [instructions, prologue, epilogue, List.append_assoc] at h ⊢
    exact h
  have hret : .ret ∉ c.instructions := by
    simp only [instructions, prologue, epilogue, List.mem_append, not_or]
    refine ⟨⟨⟨⟨by simp, ret_notMem_adjustRsp _ _⟩, ret_notMem_selectedAll c.selected⟩,
      c.selectedResult.ret_notMem⟩, ret_notMem_adjustRsp _ _, by simp⟩
  exact hassembles.execute_eq hret [] entry

theorem Compiled.storesOf_eq (c : Compiled platform fn code frameSize) :
    storesOf platform fn = parameterStores platform fn.parameterTypes.length 0 false c.front := by
  rw [storesOf, c.blocks_eq, List.flatMap_singleton, c.instructions_eq,
    parameterStores_append_return c.selectedResult.opcode_eq]

theorem argRegs_ne (platform : Platform) : ∀ reg ∈ platform.argRegs,
    Fin.ofNat 16 reg ≠ rsp ∧ Fin.ofNat 16 reg ≠ rbp ∧ Fin.ofNat 16 reg ≠ (13 : Register) := by
  cases platform <;> decide

theorem Entry.inRegisters (hentry : Entry platform arguments entry) :
    InRegisters platform arguments false (entry.run (prologue frameSize)) := by
  intro k reg a hreg ha hlow _
  have hmem := List.mem_of_getElem? hreg
  have hextended : extended false reg = Fin.ofNat 16 reg := by interval_cases reg <;> rfl
  obtain ⟨hrsp, hrbp, -⟩ := argRegs_ne platform reg hmem
  rw [← hentry.arguments hreg ha, hextended]
  exact registers_prologue hrsp hrbp

theorem returned (hsize : frameSize ≤ 128) (hrax : m.registers rax = BitVec.ofInt 64 v)
    (hrsp : m.registers rsp = entry.registers rsp) (hrbp : m.registers rbp = entry.registers rbp)
    (haccesses : ∀ a ∈ m.accesses, InFrame frameSize entry a) :
    (m.effect .ret).registers rax = BitVec.ofInt 64 v ∧
      (m.effect .ret).registers rsp = entry.registers rsp + 8 ∧
      (m.effect .ret).registers rbp = entry.registers rbp ∧
      ∀ a ∈ (m.effect .ret).accesses, InFrame frameSize entry a := by
  refine ⟨hrax, congrArg (· + 8) hrsp, hrbp, List.forall_mem_cons.mpr ⟨?_, haccesses⟩⟩
  rw [hrsp]
  exact inFrame_returnAddress hsize entry

/-- With its stored parameters in low registers that arithmetic leaves alone, an accepted function
    returns the value it evaluates to. -/
theorem Compiled.returnsInFrame (c : Compiled platform fn code frameSize)
    (hlength : arguments.length = fn.parameterTypes.length)
    (hstores : ∀ p ∈ storesOf platform fn, p.register < 8 ∧ (p.register = 1 → p.afterBinary = false))
    (heval : evaluateFunction fn arguments = some v) (hentry : Entry platform arguments entry) :
    ReturnsInFrame code frameSize v entry := by
  rw [c.storesOf_eq] at hstores
  rw [evaluateFunction, c.blocks_eq] at heval
  dsimp only at heval
  rw [c.instructions_eq] at heval
  obtain ⟨s, hfold, hoperand, hvalue⟩ := evaluate_append_return
    (opcode_ne_return_of_selectedAll c.selected) c.selectedResult.opcode_eq heval
  have hsize := c.layout.frameSize_le
  have hbody := (simulates_prologue hsize hentry.accesses).selectedAll c.layout c.selected hlength
    hentry.inRegisters hstores hfold
  obtain ⟨off, hoff, hload⟩ := c.selectedResult.of_operand hoperand
  have hinstructions : entry.run c.instructions =
      ((((entry.run (prologue frameSize)).run c.body).effect (.load rax (frameCell off))).run
        (epilogue frameSize)) := by
    rw [instructions, hload, Machine.run_append, Machine.run_append, Machine.run_append, Machine.run_cons,
      Machine.run_nil]
  have hrax := hbody.load_value hvalue hoff rax
  obtain ⟨hlast, hrsp, hrbp, hreturn, haccesses⟩ :=
    epilogue_run (hbody.load c.layout hoff (r := rax) (by decide) (by decide)) hsize
  have hexecute := c.execute_eq entry
  rw [hinstructions, hreturn] at hexecute
  exact ⟨_, _, hexecute, returned hsize (hlast.trans hrax) hrsp hrbp haccesses⟩

/-- A machine at the call with a chosen value in r13. -/
def entryWith (platform : Platform) (arguments : List Int) (r13 : Word) : Machine where
  registers r :=
    if r.val = 13 then r13 else BitVec.ofInt 64 (arguments.getD (platform.argRegs.idxOf r.val) 0)
  memory := fun _ => 0
  accesses := []

theorem frameBase_entryWith (platform : Platform) (arguments : List Int) (r13 r13' : Word) :
    frameBase (entryWith platform arguments r13) = frameBase (entryWith platform arguments r13') := by
  unfold frameBase entryWith
  dsimp only
  rw [if_neg (by decide), if_neg (by decide)]

theorem idxOf_argRegs {k reg : Nat} (h : platform.argRegs[k]? = some reg) :
    platform.argRegs.idxOf reg = k := by
  have hnodup : platform.argRegs.Nodup := by cases platform <;> decide
  obtain ⟨hk, rfl⟩ := List.getElem?_eq_some_iff.mp h
  exact hnodup.idxOf_getElem k hk

theorem entry_entryWith (platform : Platform) (arguments : List Int) (r13 : Word) :
    Entry platform arguments (entryWith platform arguments r13) where
  arguments := by
    intro k reg a hreg ha
    obtain ⟨-, -, hne⟩ := argRegs_ne platform reg (List.mem_of_getElem? hreg)
    have hval : (Fin.ofNat 16 reg).val = reg := Nat.mod_eq_of_lt (argRegs_lt hreg)
    have hne' : ¬(Fin.ofNat 16 reg).val = 13 := fun heq => hne (Fin.ext heq)
    dsimp only [entryWith]
    rw [if_neg hne', hval, idxOf_argRegs hreg, List.getD_eq_getElem?_getD, ha]
    rfl
  accesses := rfl

/-- A parameter stored from a high register is written through r13, which may point anywhere. -/
theorem Compiled.not_returnsInFrame (c : Compiled platform fn code frameSize) {p : ParameterStore}
    (hp : p ∈ storesOf platform fn) (hhigh : 8 ≤ p.register) (arguments : List Int) (v : Int) :
    ∃ entry, Entry platform arguments entry ∧ ¬ ReturnsInFrame code frameSize v entry := by
  rw [c.storesOf_eq] at hp
  obtain ⟨front, bound, before, off, after, hbody, hbefore⟩ := exists_store_of_mem c.selected hp
  let base : Address := frameBase (entryWith platform arguments 0)
  let entry := entryWith platform arguments (base + 4096 - off.signExtend 64)
  refine ⟨entry, entry_entryWith _ _ _, ?_⟩
  rintro ⟨fuel, m, hexecute, -, -, -, haccesses⟩
  have hsize := c.layout.frameSize_le
  have hcell : encodedCell off p.register = .memory 13 (off.signExtend 64) := by
    rw [encodedCell, decide_eq_true hhigh]
    rfl
  -- r13 reaches the store as the caller left it, so that the store lands past the frame
  have hr13 : ((entry.run (prologue frameSize)).run before).registers 13 =
      base + 4096 - off.signExtend 64 := by
    rw [registers_selectedAll hbefore (by decide) (by decide), registers_prologue (by decide) (by decide)]
    rfl
  have hmem : base + 4096 ∈ (entry.run c.instructions).accesses := by
    have hsplit : c.instructions = prologue frameSize ++ before ++
        (.store (encodedCell off p.register) (extended false p.register) ::
          (after ++ c.value ++ epilogue frameSize)) := by
      rw [instructions, hbody]
      simp only [List.append_assoc, List.cons_append]
    rw [hsplit, Machine.run_append, Machine.run_append, Machine.run_cons]
    refine Machine.accesses_run _ _ ?_
    rw [hcell]
    change _ ∈ (((entry.run (prologue frameSize)).run before).registers 13 + off.signExtend 64) :: _
    rw [hr13, BitVec.sub_add_cancel]
    exact List.mem_cons_self
  have hm : m = (entry.run c.instructions).effect .ret :=
    (Prod.mk.inj (execute_unique hexecute (c.execute_eq entry))).1
  have hframe := haccesses (base + 4096) (by
    rw [hm]
    exact Machine.accesses_effect _ _ hmem)
  unfold InFrame at hframe
  rw [frameBase_entryWith _ _ _ 0] at hframe
  change (base + 4096 - (base - BitVec.ofNat 64 frameSize)).toNat ≤ frameSize + 8 at hframe
  generalize base = base at hframe
  bv_omega

end

open x64

section
variable {platform : Platform} {order : IterationOrder}

/-- The code of a function that was accepted. -/
def CodeOf (platform : Platform) (order : IterationOrder) (fn : ir.Function) (code : FunctionCode) :
    Prop :=
  emit platform order fn = .ok (code.bytes, code.stackSize)

theorem emitFunctions_functions {out : CompileResult} {fns : List ir.Function} (hout : out.success = false)
    (h : (emitFunctions platform order out fns).success = true) :
    ∃ codes, (emitFunctions platform order out fns).functions = out.functions ++ codes ∧
      List.Forall₂ (CodeOf platform order) fns codes := by
  induction fns generalizing out with
  | nil => exact ⟨[], (List.append_nil _).symm, .nil⟩
  | cons fn fns ih =>
    unfold emitFunctions at h ⊢
    cases hemit : emit platform order fn with
    | error error =>
      rw [hemit] at h
      exact absurd (hout.symm.trans h) Bool.false_ne_true
    | ok emitted =>
      obtain ⟨bytes, stackSize⟩ := emitted
      let code : FunctionCode := ⟨fn.name, bytes, stackSize, fn.parameterTypes.length⟩
      rw [hemit] at h
      obtain ⟨codes, hcodes, hall⟩ := @ih { out with functions := out.functions ++ [code] } hout h
      exact ⟨code :: codes, hcodes.trans (List.append_assoc _ _ _), .cons hemit hall⟩

/-- Every function of an accepted module has its code. -/
theorem emitX64_functions {module : ir.Module} {i : Nat} {fn : ir.Function}
    (haccepted : (emitX64 platform order module).success = true) (hfn : module.functions[i]? = some fn) :
    ∃ code, (emitX64 platform order module).functions[i]? = some code ∧
      CodeOf platform order fn code := by
  obtain ⟨codes, hcodes, hall⟩ := emitFunctions_functions rfl haccepted
  obtain ⟨hi, rfl⟩ := List.getElem?_eq_some_iff.mp hfn
  have hi' : i < codes.length := hall.length_eq ▸ hi
  refine ⟨codes[i], ?_, (List.forall₂_iff_get.mp hall).2 i hi hi'⟩
  rw [emitX64, hcodes]
  exact List.getElem?_eq_getElem hi'

/-- The code of an accepted function returns the value of the function from every machine it can
    be called on when no parameter it stores comes in a high register and arithmetic does not
    come before the parameter in rcx. From a high register it goes wrong on some machine. -/
theorem emitX64_returns {module : ir.Module} {i : Nat} {fn : ir.Function} {arguments : List Int} {v : Int}
    (haccepted : (emitX64 platform order module).success = true) (hfn : module.functions[i]? = some fn)
    (hlength : arguments.length = fn.parameterTypes.length)
    (heval : evaluateFunction fn arguments = some v) :
    ∃ code, (emitX64 platform order module).functions[i]? = some code ∧
      ((∀ p ∈ storesOf platform fn, p.register = 1 → p.afterBinary = false) →
        ((∀ entry, Entry platform arguments entry → ReturnsInFrame code.bytes code.stackSize v entry) ↔
          ∀ p ∈ storesOf platform fn, p.register < 8)) ∧
      ((∀ entry, Entry platform arguments entry → ReturnsInFrame code.bytes code.stackSize v entry) →
        ∀ p ∈ storesOf platform fn, p.register < 8) := by
  obtain ⟨code, hcode, hemit⟩ := emitX64_functions haccepted hfn
  obtain ⟨compiled⟩ := emit_ok hemit
  have hlow (hreturns : ∀ entry, Entry platform arguments entry →
      ReturnsInFrame code.bytes code.stackSize v entry) : ∀ p ∈ storesOf platform fn, p.register < 8 := by
    intro p hp
    by_contra hhigh
    obtain ⟨entry, hentry, hnot⟩ := compiled.not_returnsInFrame hp (Nat.not_lt.mp hhigh) arguments v
    exact hnot (hreturns entry hentry)
  refine ⟨code, hcode, fun hintact => ⟨hlow, fun hregisters entry hentry => ?_⟩, hlow⟩
  exact compiled.returnsInFrame hlength (fun p hp => ⟨hregisters p hp, hintact p hp⟩) heval hentry

end

/-- Visiting a set from its smallest element on. -/
def ascending : IterationOrder where
  visit ids := (List.range (ids.sup id + 1)).filter (· ∈ ids)
  nodup ids := List.nodup_range.filter _
  mem_visit ids value := by
    rw [List.mem_filter, List.mem_range, decide_eq_true_iff]
    exact and_iff_right_of_imp fun hmem => Nat.lt_succ_of_le (Finset.le_sup (f := id) hmem)

/-- `return a * b - a` -/
def scaled : ir.Function where
  name := "scaled"
  returnType := "int"
  parameterTypes := ["int", "int"]
  blocks := [{ instructions := [
    { opcode := .defineLocal, result := 1 },
    { opcode := .defineLocal, result := 2 },
    { opcode := .binary, result := 3, operand0 := 1, operand1 := 2, symbol := toString TokenType.star },
    { opcode := .binary, result := 4, operand0 := 3, operand1 := 1, symbol := toString TokenType.minus },
    { opcode := .return, operand0 := 4 }] }]

theorem scaled_returns : ∃ code, (emitX64 .systemV ascending ⟨[scaled]⟩).functions[0]? = some code ∧
    ∀ entry, Entry .systemV [6, 7] entry → ReturnsInFrame code.bytes code.stackSize 36 entry := by
  obtain ⟨code, hcode, hreturns, -⟩ := @emitX64_returns .systemV ascending ⟨[scaled]⟩ 0 scaled [6, 7] 36
    (by decide +kernel) rfl rfl (by decide +kernel)
  exact ⟨code, hcode, (hreturns (by decide +kernel)).mpr (by decide +kernel)⟩

/-- A function that returns the fifth of its five parameters. -/
def fifthParameter : ir.Function where
  name := "fifthParameter"
  returnType := "int"
  parameterTypes := ["int", "int", "int", "int", "int"]
  blocks := [{ instructions := [
    { opcode := .defineLocal, result := 1 },
    { opcode := .defineLocal, result := 2 },
    { opcode := .defineLocal, result := 3 },
    { opcode := .defineLocal, result := 4 },
    { opcode := .defineLocal, result := 5 },
    { opcode := .return, operand0 := 5 }] }]

/-- The fifth argument comes in r8, and is stored through r13 instead. -/
theorem fifthParameter_escapes :
    (emitX64 .systemV ascending ⟨[fifthParameter]⟩).success = true ∧
      evaluateFunction fifthParameter [1, 2, 3, 4, 5] = some 5 ∧
      ∃ code, (emitX64 .systemV ascending ⟨[fifthParameter]⟩).functions[0]? = some code ∧
        ∃ entry, Entry .systemV [1, 2, 3, 4, 5] entry ∧
          ¬ ReturnsInFrame code.bytes code.stackSize 5 entry := by
  have haccepted : (emitX64 .systemV ascending ⟨[fifthParameter]⟩).success = true := by decide +kernel
  refine ⟨haccepted, by decide +kernel, ?_⟩
  obtain ⟨code, hcode, hemit⟩ := emitX64_functions (i := 0) haccepted rfl
  obtain ⟨compiled⟩ := emit_ok hemit
  have hp : (⟨8, false⟩ : ParameterStore) ∈ storesOf .systemV fifthParameter := by
    rw [show storesOf .systemV fifthParameter =
      [⟨7, false⟩, ⟨6, false⟩, ⟨2, false⟩, ⟨1, false⟩, ⟨8, false⟩] from rfl]
    simp
  exact ⟨code, hcode, compiled.not_returnsInFrame hp (Nat.le_refl 8) _ _⟩

end zl.machine
