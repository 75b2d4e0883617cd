import Zl.Graph.Shortcut
import Zl.Mir.Simplify.Branches

open Relation zl.graph zl.transition

namespace zl.mir.BranchSimplificationPass

section
variable (module : Module) (f : Function)

/-- Where a terminator jumps, or will jump once it is decided. -/
def jumpTarget (t : Terminator) : Option BlockId :=
  if t.kind = .Jump then some t.target else (decided module t).map (·.target)

def jumpOf (id : BlockId) : Option BlockId := (f.block id).bind fun b => jumpTarget module b.terminator

def Passes (id : BlockId) : Prop := ∃ b, f.block id = some b ∧ isEmptyBlock b = true

/-- The terminators that are no jumps, and the blocks on the ways of the jumps. -/
noncomputable def remaining : Nat :=
  f.blocks.countP (fun b => b.terminator.kind ≠ .Jump) +
    (ways (Passes f) (jumpOf module f) (f.blocks.map (·.id)).toFinset).card

end

/-- The ids of the blocks are ids, and differ. -/
structure Named (f : Function) : Prop where
  ids : f.DistinctIds
  ne : ∀ b ∈ f.blocks, b.id ≠ kNoBlock

section
variable {module : Module} {f g : Function} {index : Nat} {b c skipped onward : BasicBlock}
  {simplified : Terminator}

theorem Named.block (h : Named f) (hb : b ∈ f.blocks) : f.block b.id = some b := by
  rw [Function.block, if_neg (h.ne b hb)]
  cases hfind : f.blocks.find? (·.id == b.id) with
  | none => simpa using List.find?_eq_none.mp hfind b hb
  | some c =>
    have hid : c.id = b.id := by simpa using List.find?_some hfind
    rw [h.ids.eq (List.mem_of_find?_eq_some hfind) hb hid]

theorem Named.withTerminator (h : Named f) (b : BasicBlock) (simplified : Terminator) :
    Named { f with blocks := f.blocks.map (withTerminator b simplified) } where
  ids := by
    unfold Function.DistinctIds
    rw [ids_withTerminator]
    exact h.ids
  ne c hc := by
    have hid : c.id ∈ f.blocks.map (·.id) :=
      ids_withTerminator (f := f) b simplified ▸ List.mem_map_of_mem hc
    obtain ⟨c', hc', heq⟩ := List.mem_map.mp hid
    exact heq ▸ h.ne c' hc'

theorem passes_withTerminator (b : BasicBlock) (simplified : Terminator) :
    Passes { f with blocks := f.blocks.map (withTerminator b simplified) } = Passes f := by
  have hempty (c : BasicBlock) :
      isEmptyBlock (BranchSimplificationPass.withTerminator b simplified c) = isEmptyBlock c := by
    unfold BranchSimplificationPass.withTerminator
    split <;> rfl
  funext id
  unfold Passes
  rw [block_withTerminator]
  cases f.block id with
  | none => simp
  | some c => simp [hempty]

theorem jumpOf_withTerminator (hnamed : Named f) (hb : b ∈ f.blocks) (hjump : simplified.kind = .Jump) :
    jumpOf module { f with blocks := f.blocks.map (withTerminator b simplified) } =
      Function.update (jumpOf module f) b.id (some simplified.target) := by
  funext id
  unfold jumpOf
  rw [block_withTerminator]
  by_cases heq : id = b.id
  · subst heq
    rw [hnamed.block hb, Function.update_self]
    simp [withTerminator, jumpTarget, hjump]
  · rw [Function.update_of_ne heq]
    cases hc : f.block id with
    | none => rfl
    | some c =>
      obtain ⟨-, -, hname⟩ := Function.block_eq_some hc
      rw [Option.map_some, withTerminator, if_neg fun h => heq (hname.symm.trans h)]

variable (module) in
theorem Threads.shortcut (h : Threads f b skipped onward) (hnamed : Named f) (hb : b ∈ f.blocks) :
    Shortcut (Passes f) (jumpOf module f) b.id skipped.id onward.id := by
  obtain ⟨-, hmem, hname⟩ := Function.block_eq_some h.target
  obtain ⟨-, -, hname'⟩ := Function.block_eq_some h.onwards
  refine ⟨⟨skipped, hnamed.block hmem, h.empty⟩, ?_, ?_, h.target_ne, h.onward_ne, h.end_ne⟩
  · rw [jumpOf, hnamed.block hb, Option.bind_some, jumpTarget, if_pos h.kind, hname]
  · rw [jumpOf, hnamed.block hmem, Option.bind_some, jumpTarget, if_pos h.jumps, hname']

/-- A decision leaves one terminator less that is no jump. -/
theorem countP_withTerminator (hb : b ∈ f.blocks) (hkind : b.terminator.kind ≠ .Jump)
    (hjump : simplified.kind = .Jump) :
    (f.blocks.map (withTerminator b simplified)).countP (fun b => b.terminator.kind ≠ .Jump) <
      f.blocks.countP (fun b => b.terminator.kind ≠ .Jump) := by
  have hle (l : List BasicBlock) : (l.map (withTerminator b simplified)).countP
      (fun b => b.terminator.kind ≠ .Jump) ≤ l.countP (fun b => b.terminator.kind ≠ .Jump) := by
    rw [List.countP_map]
    refine List.countP_mono_left fun c _ hc => ?_
    dsimp only [Function.comp] at hc
    unfold withTerminator at hc
    split at hc
    · simp [hjump] at hc
    · exact hc
  obtain ⟨before, behind, hsplit⟩ := List.append_of_mem hb
  have hold : (b :: behind).countP (fun b => decide (b.terminator.kind ≠ .Jump)) = _ :=
    List.countP_cons_of_pos (decide_eq_true hkind)
  have hnew : ((b :: behind).map (withTerminator b simplified)).countP
      (fun b => decide (b.terminator.kind ≠ .Jump)) = _ :=
    List.countP_cons_of_neg (by simp [withTerminator, hjump])
  have hbefore := hle before
  have hbehind := hle behind
  rw [hsplit, List.map_append, List.countP_append, List.countP_append, hold, hnew]
  omega

theorem countP_of_jump (hids : f.DistinctIds) (hb : b ∈ f.blocks)
    (hkind : b.terminator.kind = .Jump) (hjump : simplified.kind = .Jump) :
    (f.blocks.map (withTerminator b simplified)).countP (fun b => b.terminator.kind ≠ .Jump) =
      f.blocks.countP (fun b => b.terminator.kind ≠ .Jump) := by
  rw [List.countP_map]
  refine List.countP_congr fun c hc => ?_
  dsimp only [Function.comp]
  unfold withTerminator
  split
  next heq =>
    obtain rfl := hids.eq hc hb heq
    simp [hkind, hjump]
  · rfl

theorem simplifyBlock_spins (hnamed : Named f) (h : simplifyBlock module f index = some g) :
    Named g ∧ (Spins (Passes g) (jumpOf module g) ↔ Spins (Passes f) (jumpOf module f)) ∧
      (¬Spins (Passes f) (jumpOf module f) → remaining module g < remaining module f) := by
  obtain ⟨b, simplified, hget, hsimplified, rfl⟩ := simplifyBlock_eq_some hnamed.ids h
  have hb := List.mem_of_getElem? hget
  have hjump := simplifyTerminator_jumps hsimplified
  have hids : ({ f with blocks := f.blocks.map (withTerminator b simplified) }
      : Function).blocks.map (·.id) = f.blocks.map (·.id) :=
    ids_withTerminator b simplified
  refine ⟨hnamed.withTerminator b simplified, ?_⟩
  unfold remaining
  rw [hids, passes_withTerminator, jumpOf_withTerminator hnamed hb hjump]
  unfold simplifyTerminator at hsimplified
  split at hsimplified
  next hkind =>
    obtain ⟨target, htarget, rfl⟩ := Option.map_eq_some_iff.mp hsimplified
    obtain ⟨skipped, onward, hthreads, rfl⟩ := (threaded_eq_some hnamed.ids hget hkind).mp htarget
    have hshortcut := hthreads.shortcut module hnamed hb
    refine ⟨hshortcut.spins_update_iff, fun hspins => ?_⟩
    have hmem (c : BasicBlock) (hc : c ∈ f.blocks) : c.id ∈ (f.blocks.map (·.id)).toFinset :=
      List.mem_toFinset.mpr (List.mem_map_of_mem hc)
    exact Nat.add_lt_add_of_le_of_lt (countP_of_jump hnamed.ids hb hkind hjump).le
      (hshortcut.card_ways_update hspins (hmem b hb)
        (hmem skipped (Function.block_eq_some hthreads.target).2.1))
  next hkind =>
    have hdecided : jumpOf module f b.id = some simplified.target := by
      rw [jumpOf, hnamed.block hb, Option.bind_some, jumpTarget, if_neg hkind, hsimplified]
      rfl
    rw [← hdecided, Function.update_eq_self]
    exact ⟨Iff.rfl, fun _ => Nat.add_lt_add_right (countP_withTerminator hb hkind hjump) _⟩

variable (module) in
theorem simplifyBlocks_spins (indices : List Nat) (hnamed : Named f) :
    Named (simplifyBlocks module indices f).1 ∧
      (Spins (Passes (simplifyBlocks module indices f).1)
        (jumpOf module (simplifyBlocks module indices f).1) ↔ Spins (Passes f) (jumpOf module f)) ∧
        (¬Spins (Passes f) (jumpOf module f) →
        remaining module (simplifyBlocks module indices f).1 ≤ remaining module f ∧
        ((simplifyBlocks module indices f).2 ≠ 0 →
        remaining module (simplifyBlocks module indices f).1 < remaining module f)) := by
  induction indices generalizing f with
  | nil => exact ⟨hnamed, Iff.rfl, fun _ => ⟨Nat.le_refl _, fun hne => absurd rfl hne⟩⟩
  | cons index indices ih =>
    rw [simplifyBlocks]
    cases h : simplifyBlock module f index with
    | none => exact ih hnamed
    | some g =>
      obtain ⟨hnamed', hspins, hless⟩ := simplifyBlock_spins hnamed h
      obtain ⟨hnamed'', hspins', hless'⟩ := ih hnamed'
      refine ⟨hnamed'', hspins'.trans hspins, fun hnot => ?_⟩
      have hlt := Nat.lt_of_le_of_lt (hless' (mt hspins.mp hnot)).1 (hless hnot)
      exact ⟨Nat.le_of_lt hlt, fun _ => hlt⟩

theorem simplifyBlock_eq_none {indices : List Nat} (h : (simplifyBlocks module indices f).2 = 0)
    {index : Nat} (hmem : index ∈ indices) :
    simplifyBlock module f index = none := by
  induction indices with
  | nil => cases hmem
  | cons first indices ih =>
    rw [simplifyBlocks] at h
    cases hfirst : simplifyBlock module f first with
    | some g =>
      rw [hfirst] at h
      cases h
    | none =>
      rw [hfirst] at h
      rcases List.mem_cons.mp hmem with rfl | hmem
      · exact hfirst
      · exact ih h hmem

theorem exists_simplifyBlock (hnamed : Named f) (hspins : Spins (Passes f) (jumpOf module f)) :
    ∃ index < f.blocks.length, simplifyBlock module f index ≠ none := by
  by_contra hnot
  have hall (index : Nat) (hlt : index < f.blocks.length) : simplifyBlock module f index = none := by
    by_contra hne
    exact hnot ⟨index, hlt, hne⟩
  have hnone (b : BasicBlock) (index : Nat) (hb : f.blocks[index]? = some b) :
      simplifyTerminator module f index b.terminator = none := by
    have hindex := hall index (List.getElem?_eq_some_iff.mp hb).1
    rw [simplifyBlock, hb] at hindex
    cases h : simplifyTerminator module f index b.terminator with
    | none => rfl
    | some simplified =>
      rw [Option.bind_eq_bind, Option.bind_some, h] at hindex
      nomatch hindex
  have hjumps (id target : BlockId) (hid : jumpOf module f id = some target) : ∃ b, ∃ index : Nat,
      f.block id = some b ∧ f.blocks[index]? = some b ∧ b.terminator.kind = .Jump ∧
      b.terminator.target = target := by
    obtain ⟨b, hb, htarget⟩ := Option.bind_eq_some_iff.mp hid
    obtain ⟨index, hindex⟩ := List.mem_iff_getElem?.mp (Function.block_eq_some hb).2.1
    have hundecided := hnone b index hindex
    unfold simplifyTerminator at hundecided
    unfold jumpTarget at htarget
    by_cases hkind : b.terminator.kind = .Jump
    · rw [if_pos hkind] at htarget
      exact ⟨b, index, hb, hindex, hkind, Option.some.inj htarget⟩
    · rw [if_neg hkind] at hundecided htarget
      rw [hundecided] at htarget
      nomatch htarget
  obtain ⟨a, t, ha, hcycle, hloop, hback⟩ := hspins
  obtain ⟨w, ⟨skipped, hskipped, hempty⟩, ht, hreturn⟩ := exists_hop_of_cycle hcycle
  obtain ⟨w', ⟨onward, honward, hempty'⟩, -⟩ :=
    exists_hop_of_cycle (cycle_of_path hcycle (.single ⟨⟨skipped, hskipped, hempty⟩, ht⟩))
  obtain ⟨b, index, hb, hindex, hkind, htarget⟩ := hjumps a t ha
  obtain ⟨skipped', -, hskipped', -, hkind', htarget'⟩ := hjumps t w ht
  obtain rfl := Option.some.inj (hskipped.symm.trans hskipped')
  have hthreads : Threads f b skipped onward := by
    have hids := (Function.block_eq_some hb).2.2
    have hids' := (Function.block_eq_some hskipped).2.2
    have hids'' := (Function.block_eq_some honward).2.2
    refine ⟨hkind, htarget ▸ hskipped, ?_, hempty, hkind', htarget' ▸ honward, ?_, ?_, ?_⟩
    · rw [hids, hids']
      rintro rfl
      exact hloop ha
    · rw [hids', hids'']
      rintro rfl
      exact hloop ht
    · rw [hids, hids'']
      rintro rfl
      exact hback ht
    · unfold isEmptyBlock at hempty'
      simp only [Bool.and_eq_true, List.isEmpty_iff] at hempty'
      exact hempty'.1.1.2
  have hthreaded := (threaded_eq_some hnamed.ids hindex hkind).mpr ⟨skipped, onward, hthreads, rfl⟩
  have hsimplified := hnone b index hindex
  rw [simplifyTerminator, if_pos hkind, hthreaded] at hsimplified
  nomatch hsimplified

variable (module) in
theorem runOnFunction_spins (hnamed : Named f) :
    Named (runOnFunction module f).1 ∧
      (Spins (Passes (runOnFunction module f).1) (jumpOf module (runOnFunction module f).1) ↔
        Spins (Passes f) (jumpOf module f)) ∧
        (¬Spins (Passes f) (jumpOf module f) →
        remaining module (runOnFunction module f).1 ≤ remaining module f ∧
        ((runOnFunction module f).2 ≠ 0 →
        remaining module (runOnFunction module f).1 < remaining module f)) := by
  unfold runOnFunction
  dsimp only
  split
  · exact ⟨hnamed, Iff.rfl, fun _ => ⟨Nat.le_refl _, fun hne => absurd rfl hne⟩⟩
  · obtain ⟨⟨hids, hne⟩, hspins, hless⟩ := simplifyBlocks_spins module (List.range f.blocks.length) hnamed
    exact ⟨⟨hids, hne⟩, hspins, hless⟩

theorem runOnFunction_of_spins (hnamed : Named f) (hspins : Spins (Passes f) (jumpOf module f)) :
    (runOnFunction module f).2 ≠ 0 := by
  intro hzero
  have hcount : (simplifyBlocks module (List.range f.blocks.length) f).2 = 0 := by
    unfold runOnFunction at hzero
    dsimp only at hzero
    split at hzero
    next hcount => exact hcount
    next => exact hzero
  obtain ⟨index, hlt, hne⟩ := exists_simplifyBlock hnamed hspins
  exact hne (simplifyBlock_eq_none hcount (List.mem_range.mpr hlt))

theorem runOnFunction_of_zero (h : (runOnFunction module f).2 = 0) : (runOnFunction module f).1 = f := by
  unfold runOnFunction at h ⊢
  dsimp only at h ⊢
  split
  · rfl
  next hne =>
    rw [if_neg hne] at h
    exact absurd h hne

variable (module) in
theorem named_iterate (hnamed : Named f) (n : Nat) :
    Named ((fun g => (runOnFunction module g).1)^[n] f) ∧
      (Spins (Passes ((fun g => (runOnFunction module g).1)^[n] f))
        (jumpOf module ((fun g => (runOnFunction module g).1)^[n] f)) ↔
        Spins (Passes f) (jumpOf module f)) := by
  induction n with
  | zero => exact ⟨hnamed, Iff.rfl⟩
  | succ n ih =>
    rw [Function.iterate_succ_apply']
    obtain ⟨hnamed', hspins, -⟩ := runOnFunction_spins module ih.1
    exact ⟨hnamed', hspins.trans ih.2⟩

/-- A jump that spins is rewritten for ever. -/
theorem rewrites_of_spins (hnamed : Named f) (hspins : Spins (Passes f) (jumpOf module f)) (n : Nat) :
    (runOnFunction module ((fun g => (runOnFunction module g).1)^[n] f)).2 ≠ 0 := by
  obtain ⟨hnamed', hiff⟩ := named_iterate module hnamed n
  exact runOnFunction_of_spins hnamed' (hiff.mpr hspins)

theorem named_of_accepted {rules : TypeRules} (h : Verifier.Accepted rules module f) : Named f :=
  ⟨h.distinctIds, fun _ => h.id_ne⟩

end

/-- On a verified function the pass comes to an end, with nothing left to rewrite, exactly if no
    jump leads into a cycle of empty blocks other than the loop of its target or a cycle of the
    two. -/
theorem fixpoint_iff (rules : TypeRules) (options : Verifier.VerifierOptions) (module : Module)
    (f : Function) (hok : Verifier.verifyFunction rules module f options = []) :
    (∃ n, ∀ k ≥ n, (runOnFunction module ((fun g => (runOnFunction module g).1)^[k] f)).2 = 0 ∧
      (fun g => (runOnFunction module g).1)^[k] f = (fun g => (runOnFunction module g).1)^[n] f) ↔
      ¬Spins (Passes f) (jumpOf module f) := by
  have hnamed := named_of_accepted (Verifier.accepted_of_verifyFunction hok)
  constructor
  · rintro ⟨n, hfix⟩ hspins
    exact rewrites_of_spins hnamed hspins n (hfix n (Nat.le_refl n)).1
  · intro hnot
    have hless (n : Nat) := (runOnFunction_spins module (named_iterate module hnamed n).1).2.2
      (mt (named_iterate module hnamed n).2.mp hnot)
    obtain ⟨n, hn⟩ :=
      finitely_often_of_descent (fun n => remaining module ((fun g => (runOnFunction module g).1)^[n] f))
      (fun n => (runOnFunction module ((fun g => (runOnFunction module g).1)^[n] f)).2 ≠ 0)
      (fun n => by
        rw [Function.iterate_succ_apply']
        exact (hless n).1)
      (fun n hne => by
        rw [Function.iterate_succ_apply']
        exact (hless n).2 hne)
    have hzero (k : Nat) (hk : n ≤ k) :
      (runOnFunction module ((fun g => (runOnFunction module g).1)^[k] f)).2 = 0 := not_not.mp (hn k hk)
    refine ⟨n, fun k hk => ⟨hzero k hk, ?_⟩⟩
    induction k, hk using Nat.le_induction with
    | base => rfl
    | succ k hk ih =>
      rw [Function.iterate_succ_apply']
      exact (runOnFunction_of_zero (hzero k hk)).trans ih

def emptyJump (id target : BlockId) : BasicBlock := { id, terminator := { kind := .Jump, target } }

def chain : Function := Function.rebuildEdges {
  name := "chain"
  returnType := 4
  entryBlock := 1
  blocks := [emptyJump 1 2, emptyJump 2 3, { id := 3, terminator := { kind := .Return } }] }

def cycleOfTwo : Function := Function.rebuildEdges {
  name := "cycleOfTwo"
  returnType := 4
  entryBlock := 1
  blocks := [emptyJump 1 2, emptyJump 2 3, emptyJump 3 2] }

theorem fixpoint_iff_chain : ∃ n, ∀ k ≥ n,
    (runOnFunction {} ((fun g => (runOnFunction {} g).1)^[k] chain)).2 = 0 ∧
    (fun g => (runOnFunction {} g).1)^[k] chain = (fun g => (runOnFunction {} g).1)^[n] chain := by
  refine (fixpoint_iff Verifier.exampleTypes {} {} chain (by decide +kernel)).mpr ?_
  rintro ⟨a, t, -, hcycle, -, -⟩
  have hforward : ∀ b ∈ chain.blocks, (jumpTarget {} b.terminator).all (b.id < ·) = true := by decide
  have hhop {x y : BlockId} (hhop : Hop (Passes chain) (jumpOf {} chain) x y) : x < y := by
    obtain ⟨b, hb, htarget⟩ := Option.bind_eq_some_iff.mp hhop.2
    obtain ⟨-, hmem, rfl⟩ := Function.block_eq_some hb
    simpa [htarget] using hforward b hmem
  have hless {x y : BlockId} (hpath : TransGen (Hop (Passes chain) (jumpOf {} chain)) x y) : x < y := by
    induction hpath with
    | single hone => exact hhop hone
    | tail _ hlast ih => exact ih.trans (hhop hlast)
  exact Nat.lt_irrefl t (hless hcycle)

/-- A jump into a cycle of two empty blocks goes to the one and to the other in turn. -/
theorem cycle_has_no_fixpoint :
    ¬∀ (rules : TypeRules) (options : Verifier.VerifierOptions) (module : Module) (f : Function),
    Verifier.verifyFunction rules module f options = [] →
    ∃ n, ∀ k ≥ n, (runOnFunction module ((fun g => (runOnFunction module g).1)^[k] f)).2 = 0 ∧
    (fun g => (runOnFunction module g).1)^[k] f = (fun g => (runOnFunction module g).1)^[n] f := by
  intro h
  have hok : Verifier.verifyFunction Verifier.exampleTypes {} cycleOfTwo {} = [] := by decide +kernel
  obtain ⟨n, hfix⟩ := h Verifier.exampleTypes {} {} cycleOfTwo hok
  have hhop (a b : BlockId) (hpasses : (cycleOfTwo.block a).any isEmptyBlock = true)
    (hjump : jumpOf {} cycleOfTwo a = some b) :
      Hop (Passes cycleOfTwo) (jumpOf {} cycleOfTwo) a b :=
        ⟨by simpa [Option.any_eq_true, Passes] using hpasses, hjump⟩
  have hspins : Spins (Passes cycleOfTwo) (jumpOf {} cycleOfTwo) :=
    ⟨1, 2, by decide, .tail (.single (hhop 2 3 (by decide) (by decide))) (hhop 3 2 (by decide) (by decide)),
      by decide, by decide⟩
  exact rewrites_of_spins (named_of_accepted (Verifier.accepted_of_verifyFunction hok)) hspins n
    (hfix n (Nat.le_refl n)).1

end zl.mir.BranchSimplificationPass
