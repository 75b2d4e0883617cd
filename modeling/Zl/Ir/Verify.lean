import Zl.Ir.FlowOrder
import Zl.Transition.Run

open zl.collections zl.fixpoint zl.transition

namespace zl.ir

namespace Instruction

def defines (ins : Instruction) (v : ValueId) : Prop := ins.definesLocal = true ∧ ins.result = v

def ends (ins : Instruction) (v : ValueId) : Prop :=
  (ins.opcode = .endBorrow ∨ ins.opcode = .dropLocal) ∧ ins.operand0 = v

def drops (ins : Instruction) (v : ValueId) : Prop := ins.opcode = .dropLocal ∧ ins.operand0 = v

def moves (ins : Instruction) (v : ValueId) : Prop := ins.opcode = .moveLocal ∧ ins.operand0 = v

def borrows (ins : Instruction) (b x : ValueId) : Prop :=
  ins.opcode = .borrowLocal ∧ ins.result = b ∧ ins.operand0 = x

end Instruction

/-- The local was defined on the path, newest instruction first, and has not ended since. -/
def Live (v : ValueId) : List Instruction → Prop
  | [] => False
  | ins :: history => ins.defines v ∨ Live v history ∧ ¬ ins.ends v

/-- The local was moved on the path, and not defined again since. -/
def Moved (v : ValueId) : List Instruction → Prop
  | [] => False
  | ins :: history => ins.moves v ∨ Moved v history ∧ ¬ ins.defines v

/-- A borrow taken from the owner that has not ended, and neither of the two is a new local under the
    old identifier. The owner is the local that the `BorrowLocal` names: an assignment of the borrow to
    another local, and a borrow of the borrow, have owners of their own or none. -/
def ActiveBorrow (b x : ValueId) : List Instruction → Prop
  | [] => False
  | ins :: history => ins.borrows b x ∨
      ActiveBorrow b x history ∧ ¬ ins.ends b ∧ ¬ ins.defines b ∧ ¬ ins.defines x

/-- The owner that the borrow was taken from, the local that its `BorrowLocal` names, was dropped or
    moved under it. -/
def OwnerGone (b : ValueId) : List Instruction → Prop
  | [] => False
  | ins :: history =>
    ((∃ x, ActiveBorrow b x history ∧ (ins.drops x ∨ ins.moves x)) ∨ OwnerGone b history) ∧
      ¬ ins.defines b

/-- What the flow verifier is for: an instruction behind a path uses no local that is moved,
    loads what is there, moves no owner under a borrow and loads no borrow without its owner. -/
structure Safe (history : List Instruction) (ins : Instruction) : Prop where
  unmoved : ∀ v, ins.uses v → ¬ Moved v history
  live : ins.opcode = .loadLocal → Live ins.operand0 history
  unborrowed : ins.opcode = .moveLocal → ∀ b, ¬ ActiveBorrow b ins.operand0 history
  owned : ins.opcode = .loadLocal → ¬ OwnerGone ins.operand0 history

/-- A state that knows enough of a path. -/
structure Tracks (s : FlowState) (history : List Instruction) : Prop where
  named : ∀ v ∈ s.live, v ≠ 0
  live : ∀ v ∈ s.live, Live v history
  moved : ∀ v ∈ s.live, Moved v history → v ∈ s.moved
  borrowed : ∀ x ∈ s.live, ∀ b, ActiveBorrow b x history → (b, x) ∈ s.borrowSources

section
variable {s t : FlowState} {history : List Instruction} {ins : Instruction} {v b x : ValueId}

theorem live_effect (h : v ∈ (s.effect ins).live) : ins.defines v ∨ v ∈ s.live ∧ ¬ ins.ends v := by
  rw [FlowState.effect] at h
  cases hop : ins.opcode with
  | defineLocal | borrowLocal =>
    rw [hop] at h
    obtain rfl | h := Finset.mem_insert.mp h
    · exact .inl ⟨by simp [Instruction.definesLocal, hop], rfl⟩
    · exact .inr ⟨h, by simp [Instruction.ends, hop]⟩
  | moveLocal =>
    rw [hop] at h
    dsimp only at h
    split at h
    · exact .inr ⟨h, by simp [Instruction.ends, hop]⟩
    · next hresult =>
      obtain rfl | h := Finset.mem_insert.mp h
      · exact .inl ⟨by simp [Instruction.definesLocal, hop, hresult], rfl⟩
      · exact .inr ⟨h, by simp [Instruction.ends, hop]⟩
  | endBorrow | dropLocal =>
    rw [hop] at h
    obtain ⟨hne, h⟩ := Finset.mem_erase.mp h
    exact .inr ⟨h, fun hends => hne hends.2.symm⟩
  | _ =>
    rw [hop] at h
    exact .inr ⟨h, by simp [Instruction.ends, hop]⟩

theorem moved_effect (h : v ∈ (s.effect ins).live) (hmoved : ins.moves v ∨ v ∈ s.moved) :
    v ∈ (s.effect ins).moved := by
  rw [FlowState.effect] at h ⊢
  cases hop : ins.opcode with
  | moveLocal =>
    dsimp only
    have hmem : v ∈ insert ins.operand0 s.moved := by
      obtain hmoves | hmoved := hmoved
      · exact hmoves.2 ▸ Finset.mem_insert_self _ _
      · exact Finset.mem_insert_of_mem hmoved
    split <;> exact hmem
  | dropLocal =>
    rw [hop] at h
    obtain hmoves | hmoved := hmoved
    · simp [Instruction.moves, hop] at hmoves
    · exact Finset.mem_erase.mpr ⟨(Finset.mem_erase.mp h).1, hmoved⟩
  | _ => exact hmoved.resolve_left (by simp [Instruction.moves, hop])

theorem borrowed_effect (h : x ∈ (s.effect ins).live) (hx : x ≠ 0)
    (hborrow : ins.borrows b x ∨ (b, x) ∈ s.borrowSources ∧ ¬ ins.ends b ∧ ¬ ins.defines b) :
    (b, x) ∈ (s.effect ins).borrowSources := by
  rw [FlowState.effect] at h ⊢
  cases hop : ins.opcode with
  | borrowLocal =>
    refine Entries.mem_assign.mpr ?_
    obtain ⟨-, rfl, rfl⟩ | ⟨hmem, -, hdefines⟩ := hborrow
    · exact .inl rfl
    · refine .inr ⟨hmem, fun hb => hdefines ⟨by simp [Instruction.definesLocal, hop], hb.symm⟩⟩
  | endBorrow =>
    obtain hborrows | ⟨hmem, hends, -⟩ := hborrow
    · simp [Instruction.borrows, hop] at hborrows
    · exact Entries.mem_erase.mpr ⟨hmem, fun hb => hends ⟨.inl hop, hb.symm⟩⟩
  | dropLocal =>
    rw [hop] at h
    obtain hborrows | ⟨hmem, hends, -⟩ := hborrow
    · simp [Instruction.borrows, hop] at hborrows
    · change (b, x) ∈ s.afterDrop ins.operand0
      rw [FlowState.afterDrop]
      split
      · exact Entries.mem_erase.mpr ⟨hmem, fun hb => hends ⟨.inr hop, hb.symm⟩⟩
      · exact Finset.mem_filter.mpr ⟨hmem, (Finset.mem_erase.mp h).1, hx⟩
  | moveLocal =>
    obtain hborrows | ⟨hmem, -, -⟩ := hborrow
    · simp [Instruction.borrows, hop] at hborrows
    · dsimp only
      split <;> exact hmem
  | _ =>
    obtain hborrows | ⟨hmem, -, -⟩ := hborrow
    · simp [Instruction.borrows, hop] at hborrows
    · exact hmem

theorem Tracks.start : Tracks {} history := by
  constructor <;> simp

theorem Tracks.mono (h : Tracks s history) (hle : s ≤ t) : Tracks t history where
  named v hv := h.named v (hle.1.1 hv)
  live v hv := h.live v (hle.1.1 hv)
  moved v hv hmoved := hle.2.1 (h.moved v (hle.1.1 hv) hmoved)
  borrowed x hx b hb := hle.2.2 (h.borrowed x (hle.1.1 hx) b hb)

theorem Tracks.effect (h : Tracks s history) (haccepted : s.Accepted ins) :
    Tracks (s.effect ins) (ins :: history) := by
  have hnamed (v : ValueId) (hv : v ∈ (s.effect ins).live) : v ≠ 0 := by
    obtain ⟨hdef, rfl⟩ | ⟨hv, -⟩ := live_effect hv
    · exact haccepted.named hdef
    · exact h.named v hv
  constructor
  case named => exact hnamed
  case live =>
    intro v hv
    exact (live_effect hv).imp_right fun hlive => ⟨h.live v hlive.1, hlive.2⟩
  case moved =>
    intro v hv hmoved
    refine moved_effect hv (hmoved.imp_right fun hbefore => ?_)
    exact h.moved v ((live_effect hv).resolve_left hbefore.2).1 hbefore.1
  case borrowed =>
    intro x hx b hb
    refine borrowed_effect hx (hnamed x hx) (hb.imp_right fun ⟨hactive, hends, hdefines, howner⟩ => ?_)
    exact ⟨h.borrowed x ((live_effect hx).resolve_left howner).1 b hactive, hends, hdefines⟩

theorem not_ownerGone (h : Tracks s history) (haccepted : s.Accepted ins)
    (hkeeps : ∀ x b, ins.drops x → ¬ ActiveBorrow b x history)
    (hbefore : ∀ b, ¬ OwnerGone b history) (b : ValueId) : ¬ OwnerGone b (ins :: history) := by
  rintro ⟨⟨x, hactive, hdrops | hmoves⟩ | hgone, -⟩
  · exact hkeeps x b hdrops hactive
  · obtain ⟨hop, rfl⟩ := hmoves
    obtain ⟨-, hlive, -⟩ := haccepted.used ins.operand0 (by simp [Instruction.uses, hop])
    exact haccepted.unborrowed hop _ (h.borrowed _ hlive b hactive) rfl
  · exact hbefore b hgone

theorem Tracks.safe (h : Tracks s history) (haccepted : s.Accepted ins)
    (howned : ∀ b, ¬ OwnerGone b history) : Safe history ins where
  unmoved v huses hmoved := by
    obtain ⟨-, hlive, hnot⟩ := haccepted.used v huses
    exact hnot (h.moved v hlive hmoved)
  live hop := by
    obtain ⟨-, hlive, -⟩ := haccepted.used ins.operand0 (by simp [Instruction.uses, hop])
    exact h.live _ hlive
  unborrowed hop b hactive := by
    obtain ⟨-, hlive, -⟩ := haccepted.used ins.operand0 (by simp [Instruction.uses, hop])
    exact haccepted.unborrowed hop _ (h.borrowed _ hlive b hactive) rfl
  owned _ := howned _

end

/-- Where a path stands: what is left of a block, and what was executed so far. -/
structure Point where
  block : Nat
  rest : List Instruction
  history : List Instruction

inductive Action where
  | execute (ins : Instruction)
  | jump (target : Nat)

namespace Function
variable (f : Function)

/-- The paths start at the head of the first block. -/
def Start (p : Point) : Prop :=
  ∃ block, f.blocks[0]? = some block ∧ p = ⟨0, block.instructions, []⟩

inductive Step : Point → Action → Point → Prop
  | execute (b : Nat) (ins : Instruction) (rest history : List Instruction) :
      Step ⟨b, ins :: rest, history⟩ (.execute ins) ⟨b, rest, ins :: history⟩
  | jump (b : Nat) (history : List Instruction) {target : Nat} {block : BasicBlock}
      (htarget : target ∈ f.successors b) (hblock : f.blocks[target]? = some block) :
      Step ⟨b, [], history⟩ (.jump target) ⟨target, block.instructions, history⟩

end Function

/-- The step of a path does not drop a local while a borrow taken from it is active. -/
def KeepsOwners (p : Point) (a : Action) : Prop :=
  ∀ ins x b, a = .execute ins → ins.drops x → ¬ ActiveBorrow b x p.history

theorem keepsOwners_of_ne {p : Point} {ins : Instruction} (h : ins.opcode ≠ .dropLocal) :
    KeepsOwners p (.execute ins) := by
  rintro ins' x b heq ⟨hdrops, -⟩
  cases heq
  exact (h hdrops).elim

section
variable {f : Function} {out : Nat → Option FlowState} {a b : Nat} {i : FlowState}

theorem checkShape_eq_ok (h : f.checkShape = .ok ()) :
    f.blocks ≠ [] ∧ FlowState.Unambiguous f.code := by
  obtain ⟨hne, h⟩ := require_bind_eq_ok.mp h
  obtain ⟨-, h⟩ := require_bind_eq_ok.mp h
  obtain ⟨-, h⟩ := require_bind_eq_ok.mp h
  refine ⟨hne, fun ins hins ins' hins' hdef hdef' hsame => ?_⟩
  exact List.inj_on_of_nodup_map (require_eq_ok.mp h) (List.mem_filter.mpr ⟨hins, hdef⟩)
    (List.mem_filter.mpr ⟨hins', hdef'⟩) hsame

theorem mem_preds : a ∈ f.preds b ↔ a < f.blocks.length ∧ b ∈ f.successors a := by
  rw [Function.preds, List.mem_flatMap]
  constructor
  · rintro ⟨p, hp, hmem⟩
    obtain ⟨s, hs, hsome⟩ := List.mem_filterMap.mp hmem
    split at hsome
    · next heq =>
      obtain rfl := Option.some.inj hsome
      exact ⟨List.mem_range.mp hp, heq ▸ hs⟩
    · cases hsome
  · rintro ⟨hlt, hmem⟩
    exact ⟨a, List.mem_range.mpr hlt, List.mem_filterMap.mpr ⟨b, hmem, if_pos rfl⟩⟩

theorem lt_of_mem_successors (h : b ∈ f.successors a) : a < f.blocks.length ∧ b < f.blocks.length := by
  rw [Function.successors] at h
  split at h
  · nomatch h
  · next block hblock =>
    obtain ⟨id, -, hid⟩ := List.mem_filterMap.mp h
    obtain ⟨hlt, -⟩ := List.findIdx?_eq_some_iff_getElem.mp hid
    exact ⟨(List.getElem?_eq_some_iff.mp hblock).1, hlt⟩

theorem input_eq_some (hb : b ≠ 0) : f.input out b = some i ↔
    (f.preds b).filterMap out ≠ [] ∧ joinStates ((f.preds b).filterMap out) = i := by
  rw [Function.input, if_neg hb]
  cases (f.preds b).filterMap out with
  | nil => simp
  | cons s rest => simp

theorem input_local (o : Option FlowState) (hb : b ∉ f.successors a) :
    f.input (Function.update out a o) b = f.input out b := by
  have hsame : (f.preds b).filterMap (Function.update out a o) = (f.preds b).filterMap out := by
    refine List.filterMap_congr fun p hp => Function.update_of_ne ?_ _ _
    rintro rfl
    exact hb (mem_preds.mp hp).2
  rw [Function.input, Function.input, hsame]

theorem mem_code_of_block {block : BasicBlock} (hblock : f.blocks[b]? = some block) {ins : Instruction}
    (hins : ins ∈ block.instructions) : ins ∈ f.code :=
  List.mem_flatMap.mpr ⟨block, List.mem_of_getElem? hblock, hins⟩

theorem transferBlock_valid {s o : FlowState} (hs : FlowState.Valid f.code s)
    (h : f.transferBlock b s = .ok o) : FlowState.Valid f.code o := by
  rw [Function.transferBlock] at h
  split at h
  · obtain rfl := Except.ok.inj h
    exact hs
  · next block hblock =>
    exact FlowState.transfer_valid hs (fun ins hins => mem_code_of_block hblock hins) h

variable (hcode : FlowState.Unambiguous f.code)
include hcode

theorem incoming_le (hvalid : ∀ b o, out b = some o → FlowState.Valid f.code o) (hb : b ≠ 0)
    (hinput : f.input out b = some i) :
    FlowState.Valid f.code i ∧ ∀ t, i ≤ t ↔ ∀ a ∈ f.preds b, ∀ o, out a = some o → o ≤ t := by
  obtain ⟨hne, rfl⟩ := (input_eq_some hb).mp hinput
  obtain ⟨hjoin, hle⟩ := FlowState.joinStates_spec hcode hne fun s hs => by
    obtain ⟨a, -, ha⟩ := List.mem_filterMap.mp hs
    exact hvalid a s ha
  refine ⟨hjoin, fun t => ?_⟩
  rw [hle]
  constructor
  · exact fun h a ha o ho => h o (List.mem_filterMap.mpr ⟨a, ha, ho⟩)
  · intro h s hs
    obtain ⟨a, ha, ho⟩ := List.mem_filterMap.mp hs
    exact h a ha s ho

/-- The flow of a function climbs to a bounded height. -/
theorem climbing : Climbing f.input f.transferBlock (FlowState.Valid f.code) (FlowState.Valid f.code)
    (FlowState.rank f.code) (FlowState.height f.code) := by
  constructor
  case gather_mono =>
    intro out out' b hvalid hvalid' hle i hi
    by_cases hb : b = 0
    · subst hb
      exact ⟨i, hi, le_refl i⟩
    · obtain ⟨-, hleast⟩ := incoming_le hcode hvalid hb hi
      obtain ⟨hne, -⟩ := (input_eq_some hb).mp hi
      obtain ⟨s, hs⟩ := List.exists_mem_of_ne_nil _ hne
      obtain ⟨a, ha, hsome⟩ := List.mem_filterMap.mp hs
      obtain ⟨s', hs', -⟩ := hle a s hsome
      have hne' : (f.preds b).filterMap out' ≠ [] :=
        List.ne_nil_of_mem (List.mem_filterMap.mpr ⟨a, ha, hs'⟩)
      have hi' : f.input out' b = some _ := (input_eq_some hb).mpr ⟨hne', rfl⟩
      obtain ⟨-, hleast'⟩ := incoming_le hcode hvalid' hb hi'
      refine ⟨_, hi', (hleast _).mpr fun a ha o ho => ?_⟩
      obtain ⟨o', ho', hoo'⟩ := hle a o ho
      exact le_trans hoo' ((hleast' _).mp (le_refl _) a ha o' ho')
  case gather_small =>
    intro out b i hvalid hi
    by_cases hb : b = 0
    · subst hb
      obtain rfl := Option.some.inj hi
      exact FlowState.Valid.empty
    · exact (incoming_le hcode hvalid hb hi).1
  case transfer_mono =>
    intro b s t s' t' hs ht hle h h'
    rw [Function.transferBlock] at h h'
    split at h
    · next hblock =>
      rw [hblock] at h'
      obtain rfl := Except.ok.inj h
      obtain rfl := Except.ok.inj h'
      exact hle
    · next block hblock =>
      rw [hblock] at h'
      exact FlowState.transfer_mono hcode hs ht hle (fun ins hins => mem_code_of_block hblock hins) h h'
  case transfer_small => exact fun b s o hs h => transferBlock_valid hs h
  case rank_lt => exact fun s t hs _ hlt => FlowState.rank_lt hs hlt
  case rank_le => exact fun s hs => FlowState.rank_le hs

/-- The worklist terminates, whatever the graph. -/
theorem worklist_ends : ∃ fuel r,
    worklist f.input f.transferBlock f.successors fuel (fun _ => none) [0] = some r := by
  refine worklist_terminates (climbing hcode) (0 :: List.range f.blocks.length) ?_ [0] ?_ ⟨nofun, nofun⟩
  · intro a _ b hb
    exact List.mem_cons_of_mem 0 (List.mem_range.mpr (lt_of_mem_successors hb).2)
  · intro a ha
    rw [List.mem_singleton.mp ha]
    exact List.mem_cons_self

/-- A state on record that has the path behind it, and is accepted until the end of its block. -/
structure OnRecord (f : Function) (out : Nat → Option FlowState) (p : Point) : Prop where
  code : ∀ ins ∈ p.rest, ins ∈ f.code
  owners : ∀ b, ¬ OwnerGone b p.history
  state : ∃ s o, FlowState.Valid f.code s ∧ Tracks s p.history ∧ transfer p.rest s = .ok o ∧
    out p.block = some o

end

section
variable {f : Function} {out : Nat → Option FlowState} {p p' : Point} {a : Action}

theorem OnRecord.head (h : OnRecord f out p) {ins : Instruction} {rest : List Instruction}
    (hrest : p.rest = ins :: rest) : ∃ s o, FlowState.Valid f.code s ∧ Tracks s p.history ∧
      s.Accepted ins ∧ transfer rest (s.effect ins) = .ok o ∧ out p.block = some o := by
  obtain ⟨s, o, hvalid, htracks, htransfer, ho⟩ := h.state
  rw [hrest] at htransfer
  obtain ⟨s', hstep, htransfer⟩ := bind_eq_ok.mp htransfer
  obtain ⟨haccepted, rfl⟩ := FlowState.step_eq_ok (fun v hv => (hvalid.owned v).mp hv) hstep
  exact ⟨s, o, hvalid, htracks, haccepted, htransfer, ho⟩

theorem OnRecord.start (hsettled : ∀ b, Settled f.input f.transferBlock out b) (h : f.Start p) :
    OnRecord f out p := by
  obtain ⟨block, hblock, rfl⟩ := h
  obtain ⟨o, htransfer, ho⟩ := hsettled 0 {} rfl
  rw [Function.transferBlock, hblock] at htransfer
  exact ⟨fun ins hins => mem_code_of_block hblock hins, fun _ => not_false,
    {}, o, FlowState.Valid.empty, .start, htransfer, ho⟩

theorem OnRecord.step (hcode : FlowState.Unambiguous f.code)
    (hvalid : ∀ b o, out b = some o → FlowState.Valid f.code o)
    (hsettled : ∀ b, Settled f.input f.transferBlock out b) (h : OnRecord f out p)
    (hkeeps : KeepsOwners p a) (hstep : f.Step p a p') : OnRecord f out p' := by
  cases hstep with
  | execute b ins rest history =>
    obtain ⟨s, o, hs, htracks, haccepted, htransfer, ho⟩ := h.head rfl
    refine ⟨fun other hother => h.code other (List.mem_cons_of_mem _ hother), ?_, ?_⟩
    · exact not_ownerGone htracks haccepted (fun x b hdrops => hkeeps ins x b rfl hdrops) h.owners
    · exact ⟨_, o, hs.effect (h.code ins List.mem_cons_self), htracks.effect haccepted, htransfer, ho⟩
  | @jump b history target block htarget hblock =>
    obtain ⟨s, o, hs, htracks, htransfer, ho⟩ := h.state
    obtain rfl := Except.ok.inj htransfer
    refine ⟨fun ins hins => mem_code_of_block hblock hins, h.owners, ?_⟩
    have hentry : ∃ i, f.input out target = some i ∧ FlowState.Valid f.code i ∧ Tracks i history := by
      by_cases hfirst : target = 0
      · subst hfirst
        exact ⟨{}, rfl, FlowState.Valid.empty, .start⟩
      · have hpred : b ∈ f.preds target := mem_preds.mpr ⟨(lt_of_mem_successors htarget).1, htarget⟩
        have hi : f.input out target = some _ := (input_eq_some hfirst).mpr
          ⟨List.ne_nil_of_mem (List.mem_filterMap.mpr ⟨b, hpred, ho⟩), rfl⟩
        obtain ⟨hjoin, hleast⟩ := incoming_le hcode hvalid hfirst hi
        exact ⟨_, hi, hjoin, htracks.mono ((hleast _).mp (le_refl _) b hpred s ho)⟩
    obtain ⟨i, hi, hivalid, hitracks⟩ := hentry
    obtain ⟨o', htransfer', ho'⟩ := hsettled target i hi
    rw [Function.transferBlock, hblock] at htransfer'
    exact ⟨i, o', hivalid, hitracks, htransfer', ho'⟩

theorem verify_eq_ok {fuel : Nat} (h : f.verify fuel = some (.ok ())) :
    FlowState.Unambiguous f.code ∧ ∃ out, (∀ b o, out b = some o → FlowState.Valid f.code o) ∧
      ∀ b, Settled f.input f.transferBlock out b := by
  rw [Function.verify] at h
  split at h
  · nomatch h
  · next hshape =>
    obtain ⟨-, hcode⟩ := checkShape_eq_ok hshape
    obtain ⟨r, hend, hr⟩ := Option.map_eq_some_iff.mp h
    cases r with
    | error message => nomatch hr
    | ok out =>
      refine ⟨hcode, out, ?_, ?_⟩
      · refine worklist_invariant (FlowState.Valid f.code) (fun out b i o hvalid hi ho => ?_)
          (fun b x hx => by cases hx) hend
        exact transferBlock_valid ((climbing hcode).gather_small out b i hvalid hi) ho
      · refine worklist_settled (fun out a o b hb => input_local o hb) hend fun b => ?_
        by_cases hb : b = 0
        · exact .inl (List.mem_singleton.mpr hb)
        · refine .inr fun i hi => ?_
          obtain ⟨hne, -⟩ := (input_eq_some hb).mp hi
          simp at hne

/-- Every path through an accepted function is on record. -/
theorem onRecord_of_run {fuel : Nat} (h : f.verify fuel = some (.ok ())) {past : List (Point × Action)}
    (hrun : Run f.Start f.Step p past) (hkeeps : ∀ s ∈ past, KeepsOwners s.1 s.2) :
    ∃ out, OnRecord f out p := by
  obtain ⟨hcode, out, hvalid, hsettled⟩ := verify_eq_ok h
  refine ⟨out, hrun.invariant (OnRecord f out) KeepsOwners (fun p hp => .start hsettled hp) ?_ hkeeps⟩
  exact fun p a p' hp hkeeps hstep => hp.step hcode hvalid hsettled hkeeps hstep

theorem verify_add {fuel : Nat} {r : Except String Unit} (h : f.verify fuel = some r) (more : Nat) :
    f.verify (fuel + more) = some r := by
  rw [Function.verify] at h ⊢
  split at h
  · exact h
  · obtain ⟨out, hend, rfl⟩ := Option.map_eq_some_iff.mp h
    rw [worklist_add hend more, Option.map_some]

theorem verify_ends (f : Function) : ∃ fuel r, f.verify fuel = some r := by
  cases hshape : f.checkShape with
  | error message => exact ⟨0, .error message, by rw [Function.verify, hshape]⟩
  | ok checked =>
    obtain ⟨-, hcode⟩ := checkShape_eq_ok hshape
    obtain ⟨fuel, r, hr⟩ := worklist_ends hcode
    exact ⟨fuel, _, by rw [Function.verify, hshape]; dsimp only; rw [hr, Option.map_some]⟩

end

section
variable {functions : List Function} {fuel : Nat}

theorem verifyFunctions_add {r : Except String Unit} (h : verifyFunctions fuel functions = some r)
    (more : Nat) : verifyFunctions (fuel + more) functions = some r := by
  induction functions with
  | nil => exact h
  | cons f rest ih =>
    rw [verifyFunctions] at h ⊢
    cases hf : f.verify fuel with
    | none =>
      rw [hf] at h
      nomatch h
    | some checked =>
      rw [hf] at h
      rw [verify_add hf more]
      cases checked with
      | error message => exact h
      | ok done => exact ih h

theorem verifyFunctions_ends : ∃ fuel r, verifyFunctions fuel functions = some r := by
  induction functions with
  | nil => exact ⟨0, .ok (), rfl⟩
  | cons f rest ih =>
    obtain ⟨fuel, r, hr⟩ := ih
    obtain ⟨fuel', r', hr'⟩ := verify_ends f
    cases r' with
    | error message =>
      exact ⟨fuel', .error message, by rw [verifyFunctions, hr']⟩
    | ok done =>
      refine ⟨fuel + fuel', r, ?_⟩
      rw [verifyFunctions, Nat.add_comm, verify_add hr' fuel]
      dsimp only
      rw [Nat.add_comm, verifyFunctions_add hr fuel']

theorem verifyFunctions_eq_ok (h : verifyFunctions fuel functions = some (.ok ())) {f : Function}
    (hf : f ∈ functions) : f.verify fuel = some (.ok ()) := by
  induction functions with
  | nil => nomatch hf
  | cons first rest ih =>
    rw [verifyFunctions] at h
    split at h
    · next hfirst =>
      obtain rfl | hf := List.mem_cons.mp hf
      · exact hfirst
      · exact ih h hf
    · next hne => exact (hne h).elim

end

/-- The verifier answers on every module. Along each path of a function that it accepts, as
    long as the path drops no local under an active borrow, every instruction is safe. -/
theorem verify_sound (m : Module) : (∃ fuel r, verify fuel m = some r) ∧
    ∀ fuel, verify fuel m = some (.ok ()) → ∀ f ∈ m.functions, ∀ p past,
      Run f.Start f.Step p past → (∀ s ∈ past, KeepsOwners s.1 s.2) →
        ∀ ins rest, p.rest = ins :: rest → Safe p.history ins := by
  refine ⟨verifyFunctions_ends, fun fuel hok f hf p past hrun hkeeps ins rest hrest => ?_⟩
  obtain ⟨out, hrecord⟩ := onRecord_of_run (verifyFunctions_eq_ok hok hf) hrun hkeeps
  obtain ⟨s, o, -, htracks, haccepted, -, -⟩ := hrecord.head hrest
  exact htracks.safe haccepted hrecord.owners

/-- A borrow is loaded behind a block that takes and returns it before its owner moves. -/
theorem verify_sound_returned :
    Safe [{ opcode := .endBorrow, operand0 := 2 }, { opcode := .borrowLocal, result := 2, operand0 := 1 },
        { opcode := .defineLocal, result := 1, ownership := .owned }]
      { opcode := .moveLocal, result := 3, operand0 := 1 } := by
  let f : Function :=
    { name := "returned", returnType := "void", parameterTypes := [], blocks := [{ instructions :=
        [{ opcode := .defineLocal, result := 1, ownership := .owned },
          { opcode := .borrowLocal, result := 2, operand0 := 1 }, { opcode := .endBorrow, operand0 := 2 },
          { opcode := .moveLocal, result := 3, operand0 := 1 }] }] }
  have h₀ : Run f.Start f.Step _ [] := .start ⟨_, rfl, rfl⟩
  have h₁ := ((h₀.step (.execute ..)).step (.execute ..)).step (.execute ..)
  refine (verify_sound ⟨[f]⟩).2 2 (by decide +kernel) f List.mem_cons_self _ _ h₁ ?_ _ [] rfl
  simp only [List.forall_mem_cons, List.not_mem_nil, false_implies, implies_true, and_true]
  exact ⟨keepsOwners_of_ne nofun, keepsOwners_of_ne nofun, keepsOwners_of_ne nofun⟩

/-- A local is borrowed and dropped, and the borrow is loaded. -/
def droppedOwner : Function where
  name := "droppedOwner"
  returnType := "void"
  parameterTypes := []
  blocks := [{ instructions :=
    [{ opcode := .defineLocal, result := 1, ownership := .owned },
      { opcode := .borrowLocal, result := 2, operand0 := 1 }, { opcode := .dropLocal, operand0 := 1 },
      { opcode := .loadLocal, result := 3, operand0 := 2 }] }]

theorem droppedOwner_accepted : ¬ ∀ (m : Module) (fuel : Nat), verify fuel m = some (.ok ()) →
    ∀ f ∈ m.functions, ∀ p past, Run f.Start f.Step p past →
      ∀ ins rest, p.rest = ins :: rest → Safe p.history ins := by
  intro h
  have h₀ : Run droppedOwner.Start droppedOwner.Step _ [] := .start ⟨_, rfl, rfl⟩
  have h₁ := ((h₀.step (.execute ..)).step (.execute ..)).step (.execute ..)
  have hsafe := h ⟨[droppedOwner]⟩ 2 (by decide +kernel) droppedOwner List.mem_cons_self _ _ h₁ _ [] rfl
  refine hsafe.owned rfl ⟨.inl ⟨1, ?_, ?_⟩, ?_⟩
  · exact .inl ⟨rfl, rfl, rfl⟩
  · exact .inl ⟨rfl, rfl⟩
  · simp [Instruction.defines, Instruction.definesLocal]

end zl.ir
