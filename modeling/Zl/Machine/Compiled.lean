import Mathlib
import Zl.Machine.FnEmitter

namespace zl.machine

open x64

section
variable (platform : Platform) (fn : ir.Function) (slots : Slots)

/-- The machine operation of a binary instruction, on rax and rcx. -/
inductive Operation : String → Instruction → Prop where
  | plus {symbol : String} (hsymbol : symbol = toString TokenType.plus) :
      Operation symbol (.arithmetic .add (.register rax) rcx)
  | minus {symbol : String} (hsymbol : symbol = toString TokenType.minus) :
      Operation symbol (.arithmetic .sub (.register rax) rcx)
  | star {symbol : String} (hsymbol : symbol = toString TokenType.star) :
      Operation symbol (.multiply rax (.register rcx))

/-- The machine instructions that an instruction before the return is emitted as, from the
    number of parameters bound before it to the number bound after it. -/
inductive Selected : Nat → ir.Instruction → List Instruction → Nat → Prop where
  | const {k : Nat} {ins : ir.Instruction} {value : Int} {off : Byte} (hopcode : ins.opcode = .const)
      (hparse : parseInt64 ins.symbol = some value) (hresult : slots.lookup ins.result = some off) :
      Selected k ins [.loadImmediate rax (BitVec.ofInt 64 value), .store (frameCell off) rax] k
  | parameter {k reg : Nat} {ins : ir.Instruction} {off : Byte} (hopcode : ins.opcode = .defineLocal)
      (hk : k < fn.parameterTypes.length) (hreg : platform.argRegs[k]? = some reg)
      (hresult : slots.lookup ins.result = some off) :
      Selected k ins [.store (encodedCell off reg) (extended false reg)] (k + 1)
  | copy {k : Nat} {ins : ir.Instruction} {source off : Byte}
      (hopcode : ins.opcode = .loadLocal ∨ ins.opcode = .assignLocal ∨
        ins.opcode = .defineLocal ∧ fn.parameterTypes.length ≤ k ∧ ins.operand0 ≠ 0)
      (hsource : slots.lookup ins.operand0 = some source) (hresult : slots.lookup ins.result = some off) :
      Selected k ins [.load rax (frameCell source), .store (frameCell off) rax] k
  | undefined {k : Nat} {ins : ir.Instruction} (hopcode : ins.opcode = .defineLocal)
      (hk : fn.parameterTypes.length ≤ k) (hsource : ins.operand0 = 0) : Selected k ins [] k
  | unary {k : Nat} {ins : ir.Instruction} {source off : Byte} (hopcode : ins.opcode = .unary)
      (hsymbol : ins.symbol = toString TokenType.minus)
      (hsource : slots.lookup ins.operand0 = some source) (hresult : slots.lookup ins.result = some off) :
      Selected k ins
        [.load rax (frameCell source), .negate (.register rax), .store (frameCell off) rax] k
  | binary {k : Nat} {ins : ir.Instruction} {left right off : Byte} {operation : Instruction}
      (hopcode : ins.opcode = .binary) (hoperation : Operation ins.symbol operation)
      (hleft : slots.lookup ins.operand0 = some left) (hright : slots.lookup ins.operand1 = some right)
      (hresult : slots.lookup ins.result = some off) :
      Selected k ins
        [.load rax (frameCell left), .load rcx (frameCell right), operation, .store (frameCell off) rax] k
  | nop {k : Nat} {ins : ir.Instruction} (hopcode : ins.opcode = .nop) : Selected k ins [] k

end

section
variable {platform : Platform} {fn : ir.Function} {slots : Slots}

theorem slot_ok {id : ir.ValueId} {off : Byte} (h : slot fn slots id = .ok off) :
    slots.lookup id = some off := by
  unfold slot at h
  split at h
  · nomatch h
  · next hlookup => rwa [Except.ok.inj h] at hlookup

theorem bind_ok {ε α β : Type} {x : Except ε α} {f : α → Except ε β} {b : β}
    (h : x.bind f = .ok b) : ∃ a, x = .ok a ∧ f a = .ok b := by
  cases x with
  | error e => nomatch h
  | ok a => exact ⟨a, rfl, h⟩

theorem argRegs_lt {k reg : Nat} (h : platform.argRegs[k]? = some reg) : reg < 16 := by
  have hmem := List.mem_of_getElem? h
  cases platform with
  | win32 => simp only [Platform.argRegs, List.mem_cons, List.not_mem_nil, or_false] at hmem; omega
  | systemV => simp only [Platform.argRegs, List.mem_cons, List.not_mem_nil, or_false] at hmem; omega

theorem emitLoad_ok {id : ir.ValueId} {reg : Nat} {bytes : List Byte} (hreg : reg < 8)
    (h : emitLoad fn slots id reg = .ok bytes) :
    ∃ off, slots.lookup id = some off ∧
      Assembles bytes [.load (extended false reg) (frameCell off)] := by
  obtain ⟨off, hslot, hbytes⟩ := bind_ok h
  refine ⟨off, slot_ok hslot, ?_⟩
  rw [← Except.ok.inj hbytes, ← encodedCell_of_lt off hreg]
  exact assembles_movR64Frame8 off (by omega)

theorem emitStore_ok {id : ir.ValueId} {bytes : List Byte} (h : emitStore fn slots id 0 = .ok bytes) :
    ∃ off, slots.lookup id = some off ∧ Assembles bytes [.store (frameCell off) rax] := by
  obtain ⟨off, hslot, hbytes⟩ := bind_ok h
  refine ⟨off, slot_ok hslot, ?_⟩
  rw [← Except.ok.inj hbytes, ← encodedCell_of_lt off (show 0 < 8 by omega)]
  exact assembles_movFrame8R64 off (by omega)

theorem binaryOperation_ok {symbol : String} {bytes : List Byte}
    (h : binaryOperation fn symbol = .ok bytes) :
    ∃ i, Operation symbol i ∧ Assembles bytes [i] := by
  unfold binaryOperation at h
  split at h
  · next hsymbol =>
    rw [← Except.ok.inj h]
    exact ⟨_, .plus hsymbol, assembles_addRaxRcx⟩
  split at h
  · next hsymbol =>
    rw [← Except.ok.inj h]
    exact ⟨_, .minus hsymbol, assembles_subRaxRcx⟩
  split at h
  · next hsymbol =>
    rw [← Except.ok.inj h]
    exact ⟨_, .star hsymbol, assembles_imulRaxRcx⟩
  · nomatch h

theorem emitBinary_ok {k : Nat} {ins : ir.Instruction} {bytes : List Byte} (hopcode : ins.opcode = .binary)
    (h : emitBinary fn slots ins = .ok bytes) :
    ∃ body, Selected platform fn slots k ins body k ∧ Assembles bytes body := by
  obtain ⟨left, hleft, h⟩ := bind_ok h
  obtain ⟨right, hright, h⟩ := bind_ok h
  obtain ⟨operation, hoperation, h⟩ := bind_ok h
  obtain ⟨store, hstore, h⟩ := bind_ok h
  obtain ⟨leftOff, hleftOff, hleft⟩ := emitLoad_ok (by omega) hleft
  obtain ⟨rightOff, hrightOff, hright⟩ := emitLoad_ok (by omega) hright
  obtain ⟨off, hoff, hstore⟩ := emitStore_ok hstore
  obtain ⟨i, hi, hassembles⟩ := binaryOperation_ok hoperation
  refine ⟨_, .binary hopcode hi hleftOff hrightOff hoff, ?_⟩
  rw [← Except.ok.inj h]
  exact ((hleft.append hright).append hassembles).append hstore

/-- What one instruction before the return adds to the code. -/
structure Adds (platform : Platform) (fn : ir.Function) (slots : Slots) (e : Emitted)
    (ins : ir.Instruction)
    (e' : Emitted) (body : List Instruction) : Prop where
  selected : Selected platform fn slots e.parameterIndex ins body e'.parameterIndex
  code : ∃ bytes, e'.code = e.code ++ bytes ∧ Assembles bytes body
  terminated : e'.terminated = e.terminated

theorem emitCopy_ok {e e' : Emitted} {ins : ir.Instruction}
    (hopcode : ins.opcode = .loadLocal ∨ ins.opcode = .assignLocal ∨
      ins.opcode = .defineLocal ∧ fn.parameterTypes.length ≤ e.parameterIndex ∧ ins.operand0 ≠ 0)
    (h : emitCopy fn slots e ins = .ok e') : ∃ body, Adds platform fn slots e ins e' body := by
  obtain ⟨load, hload, h⟩ := bind_ok h
  obtain ⟨store, hstore, h⟩ := bind_ok h
  obtain ⟨source, hsource, hload⟩ := emitLoad_ok (by omega) hload
  obtain ⟨off, hoff, hstore⟩ := emitStore_ok hstore
  obtain rfl := Except.ok.inj h
  exact ⟨_, .copy hopcode hsource hoff, ⟨_, rfl, hload.append hstore⟩, rfl⟩

theorem emitDefine_ok {e e' : Emitted} {ins : ir.Instruction} (hopcode : ins.opcode = .defineLocal)
    (h : emitDefine platform fn slots e ins = .ok e') : ∃ body, Adds platform fn slots e ins e' body := by
  unfold emitDefine at h
  split at h
  · cases h
  split at h
  · next hk =>
    split at h
    · cases h
    · next reg hreg =>
      obtain ⟨off, hoff, h⟩ := bind_ok h
      obtain rfl := Except.ok.inj h
      exact ⟨_, .parameter hopcode hk hreg (slot_ok hoff),
        ⟨_, rfl, assembles_movFrame8R64 off (argRegs_lt hreg)⟩, rfl⟩
  · next hk =>
    split at h
    · next hsource => exact emitCopy_ok (.inr (.inr ⟨hopcode, Nat.not_lt.mp hk, hsource⟩)) h
    · next hsource =>
      obtain rfl := Except.ok.inj h
      exact ⟨_, .undefined hopcode (Nat.not_lt.mp hk) (not_not.mp hsource),
        ⟨_, (List.append_nil _).symm, .nil⟩, rfl⟩

/-- Every instruction but a return is emitted as machine instructions selected for it. -/
theorem emitInstruction_ok {frameSize : Nat} {e e' : Emitted} {ins : ir.Instruction}
    (hopcode : ins.opcode ≠ .return) (h : emitInstruction platform fn slots frameSize e ins = .ok e') :
    e.terminated = false ∧ ∃ body, Adds platform fn slots e ins e' body := by
  unfold emitInstruction at h
  split at h
  · nomatch h
  next hterminated =>
  refine ⟨Bool.eq_false_iff.mpr hterminated, ?_⟩
  split at h
  · next hconst =>
    split at h
    · nomatch h
    · next value hparse =>
      obtain ⟨store, hstore, h⟩ := bind_ok h
      obtain ⟨off, hoff, hstore⟩ := emitStore_ok hstore
      obtain rfl := Except.ok.inj h
      exact ⟨_, .const hconst hparse hoff, ⟨_, rfl, (assembles_movR64Imm64 _).append hstore⟩, rfl⟩
  · next hdefine => exact emitDefine_ok hdefine h
  · next hload => exact emitCopy_ok (.inl hload) h
  · next hassign => exact emitCopy_ok (.inr (.inl hassign)) h
  · next hunary =>
    split at h
    · nomatch h
    · next hsymbol =>
      obtain ⟨load, hload, h⟩ := bind_ok h
      obtain ⟨store, hstore, h⟩ := bind_ok h
      obtain ⟨source, hsource, hload⟩ := emitLoad_ok (by omega) hload
      obtain ⟨off, hoff, hstore⟩ := emitStore_ok hstore
      obtain rfl := Except.ok.inj h
      exact ⟨_, .unary hunary (not_not.mp hsymbol) hsource hoff,
        ⟨_, rfl, (hload.append assembles_negRax).append hstore⟩, rfl⟩
  · next hbinary =>
    obtain ⟨bytes, hbytes, h⟩ := bind_ok h
    obtain ⟨body, hselected, hassembles⟩ := emitBinary_ok hbinary hbytes
    obtain rfl := Except.ok.inj h
    exact ⟨body, hselected, ⟨bytes, rfl, hassembles⟩, rfl⟩
  · next hreturn => exact absurd hreturn hopcode
  · next hnop =>
    obtain rfl := Except.ok.inj h
    exact ⟨_, .nop hnop, ⟨_, (List.append_nil _).symm, .nil⟩, rfl⟩
  · nomatch h

end

open x64

/-- The displacement of the cell with an index. -/
def cellOffset (index : Nat) : Byte := BitVec.ofInt 8 (-(8 * (index + 1) : Nat))

theorem signExtend_cellOffset {index : Nat} (hindex : index < 15) :
    (cellOffset index).signExtend 64 = -BitVec.ofNat 64 (8 * (index + 1)) := by
  interval_cases index <;> rfl

theorem cellOffset_inj {i j : Nat} (hi : i < 15) (hj : j < 15) (h : cellOffset i = cellOffset j) :
    i = j := by
  have hsigned := congrArg (BitVec.signExtend 64) h
  rw [signExtend_cellOffset hi, signExtend_cellOffset hj, BitVec.neg_inj] at hsigned
  have htoNat := congrArg BitVec.toNat hsigned
  rw [BitVec.toNat_ofNat, BitVec.toNat_ofNat, Nat.mod_eq_of_lt (by omega),
    Nat.mod_eq_of_lt (by omega)] at htoNat
  omega

/-- Distinct values have distinct cells, and the frame holds them. -/
structure Layout (slots : Slots) (frameSize : Nat) : Prop where
  cell {id : ir.ValueId} {off : Byte} :
    slots.lookup id = some off → ∃ index, index < 15 ∧ 8 * (index + 1) ≤ frameSize ∧
      off = cellOffset index
  injective {id id' : ir.ValueId} {off : Byte} :
    slots.lookup id = some off → slots.lookup id' = some off → id = id'
  frameSize_le : frameSize ≤ 128

section
variable {fn : ir.Function}

theorem assignSlots_ok {i count : Nat} {ids : List ir.ValueId} {slots : Slots} (hi : i ≤ 15)
    (h : assignSlots fn i ids = .ok (slots, count)) :
    i ≤ count ∧ count ≤ 15 ∧ ∀ {id : ir.ValueId} {off : Byte}, slots.lookup id = some off →
      ∃ j, i + j < count ∧ ids[j]? = some id ∧ off = cellOffset (i + j) := by
  induction ids generalizing i slots with
  | nil =>
    obtain ⟨rfl, rfl⟩ := Prod.mk.inj (Except.ok.inj h)
    exact ⟨Nat.le_refl i, hi, fun hlookup => nomatch hlookup⟩
  | cons id ids ih =>
    unfold assignSlots at h
    dsimp only at h
    split at h
    · nomatch h
    next hsmall =>
    obtain ⟨⟨slots', count'⟩, hrest, h⟩ := bind_ok h
    obtain ⟨rfl, rfl⟩ := Prod.mk.inj (Except.ok.inj h)
    obtain ⟨hle, hcount, hcells⟩ := ih (by omega) hrest
    refine ⟨by omega, hcount, fun {id' off} hlookup => ?_⟩
    rw [List.lookup_cons] at hlookup
    split at hlookup
    · next heq =>
      refine ⟨0, by omega, ?_, (Option.some.inj hlookup).symm⟩
      rw [List.getElem?_cons_zero, eq_of_beq heq]
    · obtain ⟨j, hj, hid, hoff⟩ := hcells hlookup
      refine ⟨j + 1, by omega, ?_, ?_⟩
      · rwa [List.getElem?_cons_succ]
      · rw [hoff, Nat.add_assoc, Nat.add_comm 1 j]

theorem collectSlots_ok {order : IterationOrder} {slots : Slots} {frameSize : Nat}
    (h : collectSlots order fn = .ok (slots, frameSize)) : Layout slots frameSize := by
  obtain ⟨⟨slots', count⟩, hassign, h⟩ := bind_ok h
  obtain ⟨rfl, rfl⟩ := Prod.mk.inj (Except.ok.inj h)
  obtain ⟨-, hcount, hcells⟩ := assignSlots_ok (Nat.zero_le 15) hassign
  refine ⟨fun hlookup => ?_, fun hlookup hlookup' => ?_, by omega⟩
  · obtain ⟨j, hj, -, hoff⟩ := hcells hlookup
    exact ⟨0 + j, by omega, by omega, hoff⟩
  · obtain ⟨j, hj, hid, hoff⟩ := hcells hlookup
    obtain ⟨j', hj', hid', hoff'⟩ := hcells hlookup'
    have heq : 0 + j = 0 + j' := cellOffset_inj (by omega) (by omega) (hoff.symm.trans hoff')
    rw [Nat.add_left_cancel heq, hid'] at hid
    exact (Option.some.inj hid).symm

end

section
variable (platform : Platform) (fn : ir.Function) (slots : Slots)

/-- The machine instructions selected for some instructions, one after another. -/
inductive SelectedAll : Nat → List ir.Instruction → List Instruction → Nat → Prop where
  | nil {k : Nat} : SelectedAll k [] [] k
  | cons {k k' k'' : Nat} {ins : ir.Instruction} {rest : List ir.Instruction}
      {body body' : List Instruction}
      (hins : Selected platform fn slots k ins body k') (hrest : SelectedAll k' rest body' k'') :
      SelectedAll k (ins :: rest) (body ++ body') k''

/-- How the value of a return reaches rax. -/
inductive SelectedResult : ir.Instruction → List Instruction → Prop where
  | none {ins : ir.Instruction} (hopcode : ins.opcode = .return) (hvalue : ins.operand0 = 0) :
      SelectedResult ins []
  | value {ins : ir.Instruction} {off : Byte} (hopcode : ins.opcode = .return)
      (hvalue : slots.lookup ins.operand0 = some off) : SelectedResult ins [.load rax (frameCell off)]

end

section
variable {platform : Platform} {fn : ir.Function} {slots : Slots} {frameSize : Nat}

theorem SelectedResult.opcode_eq {ins : ir.Instruction} {value : List Instruction}
    (h : SelectedResult slots ins value) : ins.opcode = .return := by
  cases h with
  | none hopcode _ => exact hopcode
  | value hopcode _ => exact hopcode

theorem SelectedResult.ret_notMem {ins : ir.Instruction} {value : List Instruction}
    (h : SelectedResult slots ins value) : .ret ∉ value := by
  cases h <;> simp

theorem SelectedResult.of_operand {ins : ir.Instruction} {value : List Instruction}
    (h : SelectedResult slots ins value) (hoperand : ins.operand0 ≠ 0) :
    ∃ off, slots.lookup ins.operand0 = some off ∧ value = [.load rax (frameCell off)] := by
  cases h with
  | none _ hvalue => exact absurd hvalue hoperand
  | value _ hvalue => exact ⟨_, hvalue, rfl⟩

theorem opcode_ne_return_of_selected {k k' : Nat} {ins : ir.Instruction} {body : List Instruction}
    (h : Selected platform fn slots k ins body k') : ins.opcode ≠ .return := by
  cases h with
  | copy hopcode _ _ => rcases hopcode with hopcode | hopcode | ⟨hopcode, -⟩ <;> simp [hopcode]
  | const hopcode _ _ | parameter hopcode _ _ _ | undefined hopcode _ _ | unary hopcode _ _ _
  | binary hopcode _ _ _ _ | nop hopcode => simp [hopcode]

theorem opcode_ne_return_of_selectedAll {k k' : Nat} {front : List ir.Instruction} {body : List Instruction}
    (h : SelectedAll platform fn slots k front body k') : ∀ ins ∈ front, ins.opcode ≠ .return := by
  induction h with
  | nil => nofun
  | cons hins _ ih => exact List.forall_mem_cons.mpr ⟨opcode_ne_return_of_selected hins, ih⟩

theorem emitReturn_ok {e e' : Emitted} {ins : ir.Instruction} (hframe : frameSize < 2 ^ 31)
    (hopcode : ins.opcode = .return) (h : emitInstruction platform fn slots frameSize e ins = .ok e') :
    e.terminated = false ∧ ∃ value bytes, SelectedResult slots ins value ∧ e'.code = e.code ++ bytes ∧
      Assembles bytes (value ++ adjustRsp .add frameSize ++ [.pop rbp] ++ [.ret]) := by
  unfold emitInstruction at h
  rw [hopcode] at h
  split at h
  · nomatch h
  next hterminated =>
  obtain ⟨load, hload, h⟩ := bind_ok h
  obtain rfl := Except.ok.inj h
  refine ⟨Bool.eq_false_iff.mpr hterminated, ?_⟩
  unfold emitResult at hload
  split at hload
  · obtain ⟨off, hoff, hassembles⟩ := emitLoad_ok (by omega) hload
    exact ⟨_, _, .value hopcode hoff, rfl,
      ((hassembles.append (assembles_addRsp hframe)).append assembles_popRbp).append assembles_ret⟩
  · next hvalue =>
    rw [← Except.ok.inj hload]
    exact ⟨_, _, .none hopcode (not_not.mp hvalue), rfl,
      ((Assembles.nil.append (assembles_addRsp hframe)).append assembles_popRbp).append assembles_ret⟩

theorem foldlM_terminated {e e' : Emitted} {instructions : List ir.Instruction} (he : e.terminated = true)
    (h : instructions.foldlM (emitInstruction platform fn slots frameSize) e = .ok e') :
    instructions = [] := by
  cases instructions with
  | nil => rfl
  | cons ins rest =>
    rw [List.foldlM_cons] at h
    obtain ⟨e'', hins, -⟩ := bind_ok h
    rw [emitInstruction, if_pos he] at hins
    nomatch hins

/-- An accepted block ends in its only return. -/
theorem foldlM_ok {e e' : Emitted} {instructions : List ir.Instruction} (hframe : frameSize < 2 ^ 31)
    (he : e.terminated = false) (he' : e'.terminated = true)
    (h : instructions.foldlM (emitInstruction platform fn slots frameSize) e = .ok e') :
    ∃ front last body value k bytes, instructions = front ++ [last] ∧
      SelectedAll platform fn slots e.parameterIndex front body k ∧ SelectedResult slots last value ∧
      e'.code = e.code ++ bytes ∧
      Assembles bytes (body ++ (value ++ adjustRsp .add frameSize ++ [.pop rbp] ++ [.ret])) := by
  induction instructions generalizing e with
  | nil =>
    obtain rfl := Except.ok.inj h
    exact absurd he' (by rw [he]; exact Bool.false_ne_true)
  | cons ins rest ih =>
    rw [List.foldlM_cons] at h
    obtain ⟨e'', hins, h⟩ := bind_ok h
    by_cases hopcode : ins.opcode = .return
    · obtain ⟨-, value, bytes, hvalue, hcode, hassembles⟩ := emitReturn_ok hframe hopcode hins
      have hterminated : e''.terminated = true := by
        unfold emitInstruction at hins
        rw [hopcode, he] at hins
        obtain ⟨load, -, hins⟩ := bind_ok hins
        rw [← Except.ok.inj hins]
      obtain rfl := foldlM_terminated hterminated h
      obtain rfl := Except.ok.inj h
      exact ⟨[], ins, [], value, _, bytes, rfl, .nil, hvalue, hcode, hassembles⟩
    · obtain ⟨-, body, hadds⟩ := emitInstruction_ok hopcode hins
      obtain ⟨bytes, hcode, hassembles⟩ := hadds.code
      obtain ⟨front, last, body', value, k, bytes', rfl, hfront, hlast, hcode', hassembles'⟩ :=
        ih (hadds.terminated.trans he) h
      refine ⟨ins :: front, last, body ++ body', value, k, bytes ++ bytes', rfl,
        .cons hadds.selected hfront, hlast, ?_, ?_⟩
      · rw [hcode', hcode, List.append_assoc]
      · rw [List.append_assoc]
        exact hassembles.append hassembles'

/-- What an accepted function is emitted as. -/
structure Compiled (platform : Platform) (fn : ir.Function) (code : List Byte) (frameSize : Nat) where
  slots : Slots
  layout : Layout slots frameSize
  block : ir.BasicBlock
  blocks_eq : fn.blocks = [block]
  front : List ir.Instruction
  last : ir.Instruction
  instructions_eq : block.instructions = front ++ [last]
  body : List Instruction
  bound : Nat
  selected : SelectedAll platform fn slots 0 front body bound
  value : List Instruction
  selectedResult : SelectedResult slots last value
  assembles : Assembles code
    ([.push rbp, .store (.register rbp) rsp] ++ adjustRsp .sub frameSize ++
      (body ++ (value ++ adjustRsp .add frameSize ++ [.pop rbp] ++ [.ret])))

theorem emit_ok {order : IterationOrder} {code : List Byte}
    (h : emit platform order fn = .ok (code, frameSize)) :
    Nonempty (Compiled platform fn code frameSize) := by
  obtain ⟨-, -, h⟩ := bind_ok h
  obtain ⟨⟨slots, frameSize'⟩, hslots, h⟩ := bind_ok h
  dsimp only at h
  split at h
  · next block hblocks =>
    obtain ⟨e, hfold, h⟩ := bind_ok h
    split at h
    · nomatch h
    next hterminated =>
    obtain ⟨rfl, rfl⟩ := Prod.mk.inj (Except.ok.inj h)
    have hlayout := collectSlots_ok hslots
    have hframe : frameSize' < 2 ^ 31 := Nat.lt_of_le_of_lt hlayout.frameSize_le (by omega)
    obtain ⟨front, last, body, value, k, bytes, hinstructions, hbody, hvalue, hcode, hassembles⟩ :=
      foldlM_ok hframe rfl (not_not.mp hterminated) hfold
    refine ⟨slots, hlayout, block, hblocks, front, last, hinstructions, body, k, hbody, value, hvalue, ?_⟩
    rw [hcode]
    exact ((assembles_pushRbp.append assembles_movRbpRsp).append (assembles_subRsp hframe)).append
      hassembles
  · nomatch h

end

end zl.machine
