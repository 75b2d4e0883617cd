import Mathlib.Tactic.Ring

namespace zl.x64

abbrev Word := BitVec 64

abbrev Address := BitVec 64

/-- A byte at every address. -/
abbrev Memory := Address → BitVec 8

namespace Memory

/-- The number that some bytes from an address on stand for, the lowest first. -/
def loadBytes (m : Memory) : Nat → Address → Nat
  | 0, _ => 0
  | n + 1, a => (m a).toNat + 256 * loadBytes m n (a + 1)

def read64 (m : Memory) (a : Address) : Word := BitVec.ofNat 64 (m.loadBytes 8 a)

def write64 (m : Memory) (a : Address) (v : Word) : Memory := fun x =>
  if (x - a).toNat < 8 then BitVec.ofNat 8 (v.toNat / 256 ^ (x - a).toNat) else m x

/-- Eight bytes from `a` on and eight from `b` on have none in common. -/
def Apart (a b : Address) : Prop := 8 ≤ (a - b).toNat ∧ 8 ≤ (b - a).toNat

theorem write64_of_outside (m : Memory) {a x : Address} (v : Word) (hx : 8 ≤ (x - a).toNat) :
    m.write64 a v x = m x := if_neg (Nat.not_lt.mpr hx)

theorem toNat_add_ofNat_sub (a : Address) {k : Nat} (hk : k < 8) :
    (a + BitVec.ofNat 64 k - a).toNat = k := by
  rw [BitVec.add_comm, BitVec.add_sub_cancel, BitVec.toNat_ofNat]
  exact Nat.mod_eq_of_lt (by omega)

theorem loadBytes_eq {m : Memory} {n : Nat} {a : Address} {v : Nat}
    (h : ∀ k, k < n → (m (a + BitVec.ofNat 64 k)).toNat = v / 256 ^ k % 256) :
    m.loadBytes n a = v % 256 ^ n := by
  induction n generalizing a v with
  | zero => rw [loadBytes, Nat.pow_zero, Nat.mod_one]
  | succ n ih =>
    have hfirst : (m a).toNat = v % 256 := by
      have := h 0 (Nat.succ_pos n)
      rwa [show BitVec.ofNat 64 0 = 0#64 from rfl, BitVec.add_zero, Nat.pow_zero, Nat.div_one] at this
    have hrest : m.loadBytes n (a + 1) = v / 256 % 256 ^ n := by
      refine ih fun k hk => ?_
      have hk' := h (k + 1) (Nat.succ_lt_succ hk)
      have haddr : a + BitVec.ofNat 64 (k + 1) = a + 1 + BitVec.ofNat 64 k := by
        rw [BitVec.ofNat_add]
        bv_omega
      rw [haddr, Nat.pow_succ', ← Nat.div_div_eq_div_mul] at hk'
      exact hk'
    rw [loadBytes, hfirst, hrest, Nat.pow_succ', Nat.mod_mul]

theorem read64_write64_same (m : Memory) (a : Address) (v : Word) : (m.write64 a v).read64 a = v := by
  have hload : (m.write64 a v).loadBytes 8 a = v.toNat % 256 ^ 8 := by
    refine loadBytes_eq fun k hk => ?_
    unfold write64
    rw [toNat_add_ofNat_sub a hk, if_pos hk, BitVec.toNat_ofNat]
  rw [read64, hload, Nat.mod_eq_of_lt (show v.toNat < 256 ^ 8 from v.isLt), BitVec.ofNat_toNat,
    BitVec.setWidth_eq]

theorem loadBytes_congr {m m' : Memory} {n : Nat} {a : Address}
    (h : ∀ k, k < n → m (a + BitVec.ofNat 64 k) = m' (a + BitVec.ofNat 64 k)) :
    m.loadBytes n a = m'.loadBytes n a := by
  induction n generalizing a with
  | zero => rfl
  | succ n ih =>
    have hfirst : m a = m' a := by
      have := h 0 (Nat.succ_pos n)
      rwa [show BitVec.ofNat 64 0 = 0#64 from rfl, BitVec.add_zero] at this
    have hrest : m.loadBytes n (a + 1) = m'.loadBytes n (a + 1) := by
      refine ih fun k hk => ?_
      have hk' := h (k + 1) (Nat.succ_lt_succ hk)
      have haddr : a + BitVec.ofNat 64 (k + 1) = a + 1 + BitVec.ofNat 64 k := by
        rw [BitVec.ofNat_add]
        bv_omega
      rwa [haddr] at hk'
    rw [loadBytes, loadBytes, hfirst, hrest]

theorem read64_write64_of_apart (m : Memory) {a b : Address} (v : Word) (hapart : Apart a b) :
    (m.write64 b v).read64 a = m.read64 a := by
  unfold read64
  rw [loadBytes_congr fun k hk => write64_of_outside m v ?_]
  obtain ⟨hab, hba⟩ := hapart
  have hk' : (BitVec.ofNat 64 k).toNat = k := by
    rw [BitVec.toNat_ofNat]
    exact Nat.mod_eq_of_lt (by omega)
  bv_omega

end Memory

abbrev Byte := BitVec 8

/-- A general-purpose register, by its number: rax is 0, rcx 1, rsp 4, rbp 5, r8 8. -/
abbrev Register := Fin 16

def rax : Register := 0
def rcx : Register := 1
def rsp : Register := 4
def rbp : Register := 5

/-- What the r/m field of a ModRM byte names. -/
inductive Place where
  | register (r : Register)
  | memory (base : Register) (displacement : Word)
  deriving DecidableEq

inductive ArithmeticOp where
  | add
  | sub
  deriving DecidableEq

/-- The 64-bit forms of the instructions; none of them reads a flag. -/
inductive Instruction where
  | push (r : Register)
  | pop (r : Register)
  | ret
  | store (target : Place) (source : Register)
  | load (target : Register) (source : Place)
  | loadImmediate (target : Register) (value : Word)
  | arithmetic (op : ArithmeticOp) (target : Place) (source : Register)
  | arithmeticImmediate (op : ArithmeticOp) (target : Place) (value : Word)
  | multiply (target : Register) (source : Place)
  | negate (target : Place)
  deriving DecidableEq

/-- The number that bytes stand for, the lowest first. -/
def littleEndian : List Byte → Nat
  | [] => 0
  | b :: rest => b.toNat + 256 * littleEndian rest

/-- The lowest `n` bytes of a number, the lowest first. -/
def lowBytes (n v : Nat) : List Byte := (List.range n).map fun i => BitVec.ofNat 8 (v >>> (i * 8))

theorem lowBytes_succ (n v : Nat) : lowBytes (n + 1) v = BitVec.ofNat 8 v :: lowBytes n (v / 256) := by
  unfold lowBytes
  rw [List.range_succ_eq_map, List.map_cons, List.map_map]
  refine congrArg₂ List.cons (by rw [Nat.zero_mul, Nat.shiftRight_zero])
    (List.map_congr_left fun i _ => ?_)
  rw [Function.comp_apply, Nat.shiftRight_eq_div_pow, Nat.shiftRight_eq_div_pow, Nat.div_div_eq_div_mul,
    Nat.succ_mul, Nat.pow_add, Nat.mul_comm (2 ^ (i * 8))]

theorem length_lowBytes (n v : Nat) : (lowBytes n v).length = n := by
  rw [lowBytes, List.length_map, List.length_range]

theorem littleEndian_lowBytes (n v : Nat) : littleEndian (lowBytes n v) = v % 256 ^ n := by
  induction n generalizing v with
  | zero => rw [Nat.pow_zero, Nat.mod_one]; rfl
  | succ n ih =>
    rw [lowBytes_succ, littleEndian, ih, BitVec.toNat_ofNat]
    calc v % 256 + 256 * (v / 256 % 256 ^ n) = v % (256 * 256 ^ n) := Nat.mod_mul.symm
      _ = v % 256 ^ (n + 1) := by rw [Nat.pow_succ']

/-- A register number of three bits with the fourth bit from the REX prefix. -/
def extended (high : Bool) (low : Nat) : Register := Fin.ofNat 16 (low % 8 + if high then 8 else 0)

/-- The r/m operand of a ModRM byte without an index byte, and the length of its displacement. -/
def decodePlace (high : Bool) (modrm : Byte) (rest : List Byte) : Option (Place × Nat) :=
  let base := modrm.toNat % 8
  match modrm.toNat / 64 with
  | 0 => if base = 4 ∨ base = 5 then none else some (.memory (extended high base) 0, 0)
  | 1 =>
    if base = 4 then none
    else rest.head?.map fun disp => (.memory (extended high base) (disp.signExtend 64), 1)
  | 2 =>
    if base = 4 ∨ rest.length < 4 then none
    else
      some (.memory (extended high base)
        ((BitVec.ofNat 32 (littleEndian (rest.take 4))).signExtend 64), 4)
  | _ => some (.register (extended high base), 0)

/-- What stands after the prefix REX.W, of which `r` and `b` extend the register fields; the
    second component is the length. -/
def decodeWide (r b : Bool) : List Byte → Option (Instruction × Nat)
  | 0x0f :: 0xaf :: modrm :: rest =>
    (decodePlace b modrm rest).map fun (place, n) =>
      (.multiply (extended r (modrm.toNat / 8)) place, n + 3)
  | opcode :: modrm :: rest =>
    if opcode.toNat / 8 = 0xb8 / 8 then
      if (modrm :: rest).length < 8 then none
      else
        some (.loadImmediate (extended b opcode.toNat)
          (BitVec.ofNat 64 (littleEndian ((modrm :: rest).take 8))), 9)
    else do
      let (place, n) ← decodePlace b modrm rest
      let reg := modrm.toNat / 8
      match opcode, reg % 8 with
      | 0x89, _ => some (.store place (extended r reg), n + 2)
      | 0x8b, _ => some (.load (extended r reg) place, n + 2)
      | 0x01, _ => some (.arithmetic .add place (extended r reg), n + 2)
      | 0x29, _ => some (.arithmetic .sub place (extended r reg), n + 2)
      | 0xf7, 3 => some (.negate place, n + 2)
      | 0x83, 0 => (rest.drop n).head?.map fun v =>
          (.arithmeticImmediate .add place (v.signExtend 64), n + 3)
      | 0x83, 5 => (rest.drop n).head?.map fun v =>
          (.arithmeticImmediate .sub place (v.signExtend 64), n + 3)
      | 0x81, 0 => (immediate32 (rest.drop n)).map fun v => (.arithmeticImmediate .add place v, n + 6)
      | 0x81, 5 => (immediate32 (rest.drop n)).map fun v => (.arithmeticImmediate .sub place v, n + 6)
      | _, _ => none
  | _ => none
where
  immediate32 (bytes : List Byte) : Option Word :=
    if bytes.length < 4 then none
    else some ((BitVec.ofNat 32 (littleEndian (bytes.take 4))).signExtend 64)

/-- The instruction that bytes start with, and its length. -/
def decode : List Byte → Option (Instruction × Nat)
  | [] => none
  | first :: rest =>
    if first = 0xc3 then some (.ret, 1)
    else if first.toNat / 8 = 0x50 / 8 then some (.push (extended false first.toNat), 1)
    else if first.toNat / 8 = 0x58 / 8 then some (.pop (extended false first.toNat), 1)
    else if first.toNat / 8 = 0x48 / 8 then
      (decodeWide (first.getLsbD 2) (first.getLsbD 0) rest).map fun (i, n) => (i, n + 1)
    else none

/-- The registers, the memory and every address an instruction has read or written eight bytes
    at, the last first. -/
structure Machine where
  registers : Register → Word
  memory : Memory
  accesses : List Address

def ArithmeticOp.apply : ArithmeticOp → Word → Word → Word
  | .add, a, b => a + b
  | .sub, a, b => a - b

namespace Machine

def setRegister (m : Machine) (r : Register) (v : Word) : Machine :=
  { m with registers := Function.update m.registers r v }

@[simp]
theorem registers_setRegister_self (m : Machine) (r : Register) (v : Word) :
    (m.setRegister r v).registers r = v := Function.update_self _ _ _

theorem registers_setRegister_of_ne (m : Machine) {r r' : Register} (hne : r' ≠ r) (v : Word) :
    (m.setRegister r v).registers r' = m.registers r' := Function.update_of_ne hne _ _

def access (m : Machine) (a : Address) : Machine := { m with accesses := a :: m.accesses }

def valueAt (m : Machine) : Place → Word
  | .register r => m.registers r
  | .memory base displacement => m.memory.read64 (m.registers base + displacement)

/-- The machine once a place has been read. -/
def afterRead (m : Machine) : Place → Machine
  | .register _ => m
  | .memory base displacement => m.access (m.registers base + displacement)

def assign (m : Machine) : Place → Word → Machine
  | .register r, v => m.setRegister r v
  | .memory base displacement, v =>
    let a := m.registers base + displacement
    { m.access a with memory := m.memory.write64 a v }

/-- What an instruction does, the program counter apart. -/
def effect (m : Machine) : Instruction → Machine
  | .push r =>
    let a := m.registers rsp - 8
    { m.access a with
      registers := Function.update m.registers rsp a
      memory := m.memory.write64 a (m.registers r) }
  | .pop r =>
    let a := m.registers rsp
    ((m.access a).setRegister rsp (a + 8)).setRegister r (m.memory.read64 a)
  | .ret => (m.access (m.registers rsp)).setRegister rsp (m.registers rsp + 8)
  | .store target source => m.assign target (m.registers source)
  | .load target source => (m.afterRead source).setRegister target (m.valueAt source)
  | .loadImmediate target value => m.setRegister target value
  | .arithmetic op target source => m.assign target (op.apply (m.valueAt target) (m.registers source))
  | .arithmeticImmediate op target value => m.assign target (op.apply (m.valueAt target) value)
  | .multiply target source =>
    (m.afterRead source).setRegister target (m.registers target * m.valueAt source)
  | .negate target => m.assign target (-m.valueAt target)

theorem registers_load_of_ne (m : Machine) {target r : Register} (hne : r ≠ target) (source : Place) :
    (m.effect (.load target source)).registers r = m.registers r := by
  refine (registers_setRegister_of_ne _ hne _).trans ?_
  cases source with
  | register _ => rfl
  | memory _ _ => rfl

/-- What a straight line of instructions does. -/
def run (m : Machine) (body : List Instruction) : Machine := body.foldl effect m

@[simp]
theorem run_nil (m : Machine) : m.run [] = m := rfl

@[simp]
theorem run_cons (m : Machine) (i : Instruction) (body : List Instruction) :
    m.run (i :: body) = (m.effect i).run body := rfl

theorem run_append (m : Machine) (body body' : List Instruction) :
    m.run (body ++ body') = (m.run body).run body' := List.foldl_append

theorem accesses_assign (m : Machine) (p : Place) (v : Word) : m.accesses ⊆ (m.assign p v).accesses := by
  cases p with
  | register r => exact fun _ => id
  | memory base displacement => exact List.subset_cons_self _ _

theorem accesses_afterRead (m : Machine) (p : Place) : m.accesses ⊆ (m.afterRead p).accesses := by
  cases p with
  | register r => exact fun _ => id
  | memory base displacement => exact List.subset_cons_self _ _

theorem accesses_effect (m : Machine) (i : Instruction) : m.accesses ⊆ (m.effect i).accesses := by
  cases i with
  | push r => exact List.subset_cons_self _ _
  | pop r => exact List.subset_cons_self _ _
  | ret => exact List.subset_cons_self _ _
  | store target source => exact accesses_assign _ _ _
  | load target source => exact accesses_afterRead _ _
  | loadImmediate target value => exact fun _ => id
  | arithmetic op target source => exact accesses_assign _ _ _
  | arithmeticImmediate op target value => exact accesses_assign _ _ _
  | multiply target source => exact accesses_afterRead _ _
  | negate target => exact accesses_assign _ _ _

theorem accesses_run (m : Machine) (body : List Instruction) : m.accesses ⊆ (m.run body).accesses := by
  induction body generalizing m with
  | nil => exact fun _ => id
  | cons i body ih => exact List.Subset.trans (accesses_effect m i) (ih _)

end Machine

/-- Executing code from an offset until a return: the machine it leaves behind and the address
    it returns to. -/
def execute (code : List Byte) : Nat → Nat → Machine → Option (Machine × Address)
  | 0, _, _ => none
  | fuel + 1, rip, m =>
    match decode (code.drop rip) with
    | none => none
    | some (.ret, _) => some (m.effect .ret, m.memory.read64 (m.registers rsp))
    | some (i, length) => execute code fuel (rip + length) (m.effect i)

theorem execute_succ_of_decode {code : List Byte} {rip length : Nat} {i : Instruction}
    (hdecode : decode (code.drop rip) = some (i, length)) (hret : i ≠ .ret) (fuel : Nat) (m : Machine) :
    execute code (fuel + 1) rip m = execute code fuel (rip + length) (m.effect i) := by
  rw [execute, hdecode]
  cases i with
  | ret => exact absurd rfl hret
  | _ => rfl

theorem execute_of_le {code : List Byte} {fuel fuel' rip : Nat} {m : Machine} {r : Machine × Address}
    (hle : fuel ≤ fuel') (h : execute code fuel rip m = some r) : execute code fuel' rip m = some r := by
  induction fuel generalizing fuel' rip m with
  | zero => rw [execute] at h; nomatch h
  | succ fuel ih =>
    obtain ⟨fuel', rfl⟩ := Nat.exists_eq_succ_of_ne_zero (Nat.ne_zero_of_lt hle)
    have hle := Nat.le_of_succ_le_succ hle
    cases hdecode : decode (code.drop rip) with
    | none => rw [execute, hdecode] at h; nomatch h
    | some decoded =>
      obtain ⟨i, length⟩ := decoded
      by_cases hret : i = .ret
      · subst hret
        rw [execute, hdecode] at h ⊢
        exact h
      · rw [execute_succ_of_decode hdecode hret] at h ⊢
        exact ih hle h

theorem execute_unique {code : List Byte} {fuel fuel' rip : Nat} {m : Machine} {r r' : Machine × Address}
    (h : execute code fuel rip m = some r) (h' : execute code fuel' rip m = some r') : r = r' := by
  have hmax := execute_of_le (Nat.le_max_left fuel fuel') h
  have hmax' := execute_of_le (Nat.le_max_right fuel fuel') h'
  exact Option.some.inj (hmax.symm.trans hmax')

/-- Bytes that are the encodings of instructions, one after another. -/
inductive Assembles : List Byte → List Instruction → Prop where
  | nil : Assembles [] []
  | cons {bytes code : List Byte} {i : Instruction} {body : List Instruction}
      (hdecode : ∀ rest, decode (bytes ++ rest) = some (i, bytes.length)) (hbody : Assembles code body) :
      Assembles (bytes ++ code) (i :: body)

namespace Assembles

theorem single {bytes : List Byte} {i : Instruction}
    (hdecode : ∀ rest, decode (bytes ++ rest) = some (i, bytes.length)) : Assembles bytes [i] := by
  have h := cons hdecode nil
  rwa [List.append_nil] at h

theorem append {code code' : List Byte} {body body' : List Instruction}
    (h : Assembles code body) (h' : Assembles code' body') :
    Assembles (code ++ code') (body ++ body') := by
  induction h with
  | nil => exact h'
  | cons hdecode _ ih =>
    rw [List.append_assoc]
    exact cons hdecode ih

/-- Executing assembled instructions that end in a return runs them in their order. -/
theorem execute_eq {code : List Byte} {body : List Instruction}
    (h : Assembles code (body ++ [.ret])) (hbody : .ret ∉ body) (before : List Byte) (m : Machine) :
    execute (before ++ code) (body.length + 1) before.length m =
      some ((m.run body).effect .ret, (m.run body).memory.read64 ((m.run body).registers rsp)) := by
  induction body generalizing code before m with
  | nil =>
    cases h with
    | cons hdecode hrest =>
      rw [execute, List.drop_left, hdecode]
      rfl
  | cons i body ih =>
    rw [List.mem_cons, not_or] at hbody
    obtain ⟨hi, hbody⟩ := hbody
    cases h with
    | @cons bytes code _ _ hdecode hrest =>
      have hdrop : decode ((before ++ (bytes ++ code)).drop before.length) = some (i, bytes.length) := by
        rw [List.drop_left]
        exact hdecode code
      rw [List.length_cons, execute_succ_of_decode hdrop (Ne.symm hi), ← List.append_assoc,
        ← List.length_append]
      exact ih hrest hbody (before ++ bytes) (m.effect i)

end Assembles

end zl.x64
