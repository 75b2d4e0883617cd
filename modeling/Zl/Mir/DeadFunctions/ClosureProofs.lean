import Zl.Mir.DeadFunctions.ReachableFunctions
import Zl.Mir.Verifier.OperandTypes
import Zl.Mir.Verifier.UniqueDefinitions

open zl.vm zl.mir.interpreter

namespace zl.mir

section
variable {W : Type}

/-- A frame holds a value. -/
def interpreter.Frame.Holds (frame : Frame) (v : gc.Value) : Prop :=
  (∃ id, frame.values id = v) ∨ ∃ slot, frame.slots slot = some v

def interpreter.Configuration.slot : Configuration W → SlotId → Option gc.Value
  | .running frame _, slot => frame.slots slot
  | _, _ => none

/-- What is next stores to a slot. -/
def interpreter.Configuration.Stores (slot : SlotId) : Configuration W → Prop
  | .running frame _ => ∃ i ∈ frame.rest.head?, i.opcode = .Store ∧ i.slot = slot
  | _ => False

/-- The slot has been as a store left it. -/
def StoredLast (run : Nat → Configuration W) (n : Nat) (slot : SlotId) : Prop :=
  ∃ m < n, (run m).Stores slot ∧ ∀ k, m < k → k ≤ n → (run k).slot slot = (run (m + 1)).slot slot

/-- A proof that a value is one closure goes through the temp. -/
def Function.Followed (f : Function) (temp : TempId) : Prop :=
  ∃ fuel visitedSlots operand body, operand.index = temp ∧
    f.proveTemp fuel visitedSlots operand = some body

/-- A step on which a proof can rely: a load that the proof follows reads what a store left, and a
    store that it follows stores a value that was defined before. -/
def Function.ReliableStep (f : Function) (run : Nat → Configuration W) (n : Nat) : Prop :=
  match run n with
  | .running frame _ => ∀ i ∈ frame.rest.head?,
      (i.opcode = .Load → f.Followed i.result → StoredLast run n i.slot) ∧
      (i.opcode = .Store → ∀ operand ∈ i.operands.head?, f.Followed operand.index →
      .temp operand.index ∈ definedAfter f run n)
  | _ => True

/-- What a world knows of closures: the body of a new one, and no other body later for a value that
    is still held. -/
structure ClosureLaws (runtime : Runtime W) (bodyOf : W → gc.Value → Option FunctionId)
    (run : Nat → Configuration W) : Prop where
  makes : ∀ i arguments slot world v, i.opcode = .MakeClosure →
    (runtime.effect i arguments slot world).result = .ok v →
    bodyOf (runtime.effect i arguments slot world).world v = some i.target.function
  keeps : ∀ n frame world next world', run n = .running frame world → run (n + 1) = .running next world' →
    ∀ v body, frame.Holds v → bodyOf world v = some body → bodyOf world' v = some body

/-- The values that are proved to be a closure are closures of that body. -/
def Function.Pinned (f : Function) (bodyOf : W → gc.Value → Option FunctionId)
    (defs : List ValueId) : Configuration W → Prop
  | .running frame world => ∀ fuel visitedSlots operand body,
      f.proveTemp fuel visitedSlots operand = some body → .temp operand.index ∈ defs →
      bodyOf world (frame.values (.temp operand.index)) = some body
  | _ => True

section
variable {rules : TypeRules} {runtime : Runtime W} {module : Module} {f : Function}
  {bodyOf : W → gc.Value → Option FunctionId}
  {frame next : Frame} {world world' : W} {i : Instruction} {rest : List Instruction} {v : gc.Value}
  {body : FunctionId}
variable {run : Nat → Configuration W}

theorem definition_eq_of_accepted (hok : Verifier.Accepted rules module f) (hi : i ∈ f.instructions)
    (hresult : i.result ≠ kNoTemp) :
    f.definition i.result = some i := by
  rw [Function.definition, if_neg hresult]
  cases hfind : f.instructions.reverse.find? (·.result = i.result) with
  | none =>
    have hnone := List.find?_eq_none.mp hfind i (List.mem_reverse.mpr hi)
    simp at hnone
  | some j =>
    have hj : j ∈ f.instructions := List.mem_reverse.mp (List.mem_of_find?_eq_some hfind)
    have hsame : j.result = i.result := by simpa using List.find?_some hfind
    have hlisted := hok.definition_listed hj (hsame ▸ hresult)
    rw [hsame, hok.definition_listed hi hresult] at hlisted
    exact hlisted.symm

/-- What a proof goes through: the closure that defines a temp, or the one store to the slot that it
    is loaded from. -/
theorem proveTemp_cases {fuel : Nat} {visitedSlots : List SlotId} {operand : Operand}
    (h : f.proveTemp fuel visitedSlots operand = some body) :
    operand.kind = .Temp ∧ ∃ i, f.definition operand.index = some i ∧
      (i.opcode = .MakeClosure ∧ i.target.function = body ∨ i.opcode = .Load ∧ ∃ store source fuel',
      f.storesTo i.slot = [store] ∧ store.operands.head? = some source ∧
      f.proveTemp fuel' (i.slot :: visitedSlots) source = some body) := by
  cases fuel with
  | zero => nomatch h
  | succ fuel =>
    rw [Function.proveTemp] at h
    split at h
    · nomatch h
    next hkind =>
      refine ⟨not_not.mp hkind, ?_⟩
      split at h
      · nomatch h
      next i hi =>
        refine ⟨i, hi, ?_⟩
        split at h
        next hop =>
          split at h
          · nomatch h
          · exact .inl ⟨hop, Option.some.inj h⟩
        next hop =>
          split at h
          · nomatch h
          · split at h
            next store hstores =>
              obtain ⟨source, hsource, h⟩ := Option.bind_eq_some_iff.mp h
              exact .inr ⟨hop, store, source, fuel, hstores, hsource, h⟩
            next => nomatch h
        next => nomatch h

theorem execute_load (hop : i.opcode = .Load) (hslot : frame.slots i.slot = some v) :
    execute runtime module f frame world i = .running (frame.define i.result v) world := by
  unfold execute
  dsimp only
  rw [hop]
  dsimp only
  rw [hslot]

theorem execute_store (hop : i.opcode = .Store) : execute runtime module f frame world i =
    .running (frame.setSlot i.slot
      (i.operands.map (operandValue runtime module frame.values world)).head?) world := by
  unfold execute
  dsimp only
  rw [hop]

theorem execute_makeClosure (hop : i.opcode = .MakeClosure) : execute runtime module f frame world i =
    let outcome :=
  runtime.effect i (i.operands.map (operandValue runtime module frame.values world)) none world
    match outcome.result with
    | .ok v => .running (frame.define i.result v) outcome.world
    | .error thrown => raise runtime f frame thrown outcome.world := by
  have hoperator (values : List gc.Value) :
      executeOperator runtime.library (runtime.memory world) .MakeClosure values = none := by
    unfold executeOperator
    split <;> rfl
  unfold execute
  dsimp only
  rw [hop]
  dsimp only
  rw [hoperator]
  rfl

theorem operandValue_temp {operand : Operand} (hkind : operand.kind = .Temp) :
    operandValue runtime module frame.values world operand = frame.values (.temp operand.index) := by
  rw [operandValue, constantOperand, if_neg (by rw [hkind]; decide), valueOf, hkind]

/-- What a slot holds is the closure that was stored, as long as nothing else is put there. -/
theorem stored_closure (hlaws : ClosureLaws runtime bodyOf run) {m n : Nat} {slot : SlotId} (hm : m < n)
    (hstored : ∃ frame world, run (m + 1) = .running frame world ∧ frame.slots slot = some v ∧
      bodyOf world v = some body)
    (hsince : ∀ k, m < k → k ≤ n → (run k).slot slot = (run (m + 1)).slot slot) :
    ∃ frame world, run n = .running frame world ∧ frame.slots slot = some v ∧
      bodyOf world v = some body := by
  have hheld : (run (m + 1)).slot slot = some v := by
    obtain ⟨frame, world, hrun, hslot, -⟩ := hstored
    rw [hrun]
    exact hslot
  induction n, hm using Nat.le_induction with
  | base => exact hstored
  | succ n hle ih =>
    obtain ⟨frame, world, hrun, hslot, hbody⟩ := ih fun k hlt hk => hsince k hlt (Nat.le_succ_of_le hk)
    have hnext := (hsince (n + 1) (Nat.lt_succ_of_lt hle) (Nat.le_refl _)).trans hheld
    cases hrun' : run (n + 1) with
    | running next world' =>
      rw [hrun'] at hnext
      exact ⟨next, world', rfl, hnext,
        hlaws.keeps n frame world next world' hrun hrun' v body (.inr ⟨slot, hslot⟩) hbody⟩
    | returned | raised | stuck =>
      rw [hrun'] at hnext
      nomatch hnext

/-- The slot that a proof follows holds the closure. -/
theorem loaded_closure (hlaws : ClosureLaws runtime bodyOf run)
    (hrun : ∀ k, run (k + 1) = step runtime module f (run k)) (hplaced : ∀ k, Placed f (run k))
    {n : Nat} (hreliable : ∀ m < n, f.ReliableStep run m)
    (hpinned : ∀ m < n, f.Pinned bodyOf (definedAfter f run m) (run m)) {slot : SlotId}
    (hlast : StoredLast run n slot) {store : Instruction} {source : Operand}
    (hstores : f.storesTo slot = [store]) (hsource : store.operands.head? = some source)
    {fuel : Nat} {visitedSlots : List SlotId} (hproof : f.proveTemp fuel visitedSlots source = some body) :
    ∃ frame world v, run n = .running frame world ∧ frame.slots slot = some v ∧
      bodyOf world v = some body := by
  obtain ⟨m, hm, hnow, hsince⟩ := hlast
  have hsafe := hreliable m hm
  have hheld := hpinned m hm
  have hplace := hplaced m
  have hstep := hrun m
  cases hat : run m with
  | running frame world =>
    rw [Function.ReliableStep, hat] at hsafe
    rw [hat] at hnow hheld hplace hstep
    obtain ⟨b, hb⟩ := hplace
    obtain ⟨i, hi, hop, rfl⟩ := hnow
    obtain ⟨rest, hrest⟩ : ∃ rest, frame.rest = i :: rest := List.head?_eq_some_iff.mp hi
    have hlisted : i ∈ f.storesTo i.slot := by
      refine List.mem_filter.mpr ⟨List.mem_flatMap.mpr ⟨b, (Function.block_eq_some hb.block).2.1,
        hb.rest.mem ?_⟩, ?_⟩
      · rw [hrest]
        exact List.mem_cons_self
      · exact decide_eq_true ⟨hop, rfl⟩
    rw [hstores] at hlisted
    obtain rfl := List.mem_singleton.mp hlisted
    have hdefined := (hsafe i hi).2 hop source hsource ⟨fuel, visitedSlots, source, body, rfl, hproof⟩
    have hbody := hheld fuel visitedSlots source body hproof hdefined
    have hkind := (proveTemp_cases hproof).1
    rw [step, hrest] at hstep
    dsimp only at hstep
    rw [execute_store hop, List.head?_map, hsource, Option.map_some, operandValue_temp hkind] at hstep
    obtain ⟨frame', world', hrun', hslot, hbody'⟩ := stored_closure hlaws hm
      ⟨_, world, hstep, Function.update_self .., hbody⟩ hsince
    exact ⟨frame', world', _, hrun', hslot, hbody'⟩
  | returned | raised | stuck =>
    rw [hat] at hnow
    exact hnow.elim

theorem pinned_step (hok : Verifier.Accepted rules module f) (hlaws : ClosureLaws runtime bodyOf run)
    (hrun : ∀ k, run (k + 1) = step runtime module f (run k)) (hplaced : ∀ k, Placed f (run k))
    {n : Nat} (hreliable : ∀ m < n + 1, f.ReliableStep run m)
    (hpinned : ∀ m < n + 1, f.Pinned bodyOf (definedAfter f run m) (run m)) :
    f.Pinned bodyOf (definedAfter f run (n + 1)) (run (n + 1)) := by
  have hsafe := hreliable n n.lt_succ_self
  have hheld := hpinned n n.lt_succ_self
  have hplace := hplaced n
  have hstep := hrun n
  rw [definedAfter]
  cases hat : run n with
  | returned | raised | stuck =>
    rw [hat] at hstep
    rw [hstep]
    trivial
  | running frame world =>
    cases hnext : run (n + 1) with
    | returned | raised | stuck => trivial
    | running next world' =>
      rw [Function.ReliableStep, hat] at hsafe
      rw [hat] at hheld hplace hstep
      rw [hnext] at hstep
      obtain ⟨b, hb⟩ := hplace
      intro fuel visitedSlots operand body hproof hdefined
      have hkept (hold : .temp operand.index ∈ definedAfter f run n)
          (hsame : next.values (.temp operand.index) = frame.values (.temp operand.index)) :
          bodyOf world' (next.values (.temp operand.index)) = some body := by
        rw [hsame]
        exact hlaws.keeps n frame world next world' hat hnext _ body (.inl ⟨_, rfl⟩)
          (hheld fuel visitedSlots operand body hproof hold)
      cases step_moves hb.block hstep.symm with
      | @completes i rest hrest hblock hbehind hvalues =>
        rw [definedBy_completes hrest hblock hbehind] at hdefined
        by_cases hresult : .temp operand.index ∈ resultValues i
        · obtain ⟨hsome, hindex⟩ := mem_resultValues.mp hresult
          have hindex := ValueId.temp.inj hindex
          have hi : i ∈ f.instructions :=
            List.mem_flatMap.mpr ⟨b, (Function.block_eq_some hb.block).2.1,
              hb.rest.mem (hrest ▸ List.mem_cons_self)⟩
          obtain ⟨-, j, hj, hcase⟩ := proveTemp_cases hproof
          rw [hindex, definition_eq_of_accepted hok hi hsome] at hj
          obtain rfl := Option.some.inj hj
          rw [step, hrest] at hstep
          dsimp only at hstep
          rw [hindex]
          rcases hcase with ⟨hop, htarget⟩ | ⟨hop, store, source, fuel', hstores, hsource, hproof'⟩
          · rw [execute_makeClosure hop] at hstep
            dsimp only at hstep
            split at hstep
            next v hv =>
              cases hstep
              rw [define_result hsome, ← htarget]
              exact hlaws.makes i _ none world v hop hv
            next thrown hthrown =>
              obtain ⟨c, hc, hentered, -⟩ := raise_running hstep.symm
              exact (hb.not_begun hrest (hblock ▸ hc) (hbehind.symm.trans hentered)).elim
          · have hlast :=
              (hsafe i (hrest ▸ rfl)).1 hop ⟨fuel, visitedSlots, operand, body, hindex, hproof⟩
            obtain ⟨frame', world'', v, hat', hslot, hbody⟩ := loaded_closure hlaws hrun hplaced
              (fun m hm => hreliable m (Nat.lt_succ_of_lt hm))
                (fun m hm => hpinned m (Nat.lt_succ_of_lt hm)) hlast hstores hsource hproof'
            cases hat.symm.trans hat'
            rw [execute_load hop (show ({ frame with rest := rest } : Frame).slots i.slot =
              some v from hslot)] at hstep
            cases hstep
            rw [define_result hsome]
            exact hbody
        · exact hkept ((List.mem_append.mp hdefined).resolve_left hresult) (hvalues _ hresult)
      | @enters c hrest hkind hc hentered =>
        have hthrow : b.terminator.kind ≠ .Throw := fun heq => absurd (heq ▸ hkind) (by decide)
        rw [definedBy_enters hb hrest hthrow (by rw [hentered]; exact hc)] at hdefined
        refine hkept ((List.mem_append.mp hdefined).resolve_left fun hparameter => ?_) ?_
        · obtain ⟨parameter, -, heq⟩ := List.mem_map.mp hparameter
          cases heq
        · rw [hentered]
          exact bindParameters_of_notMem fun _ _ heq => by cases heq
      | @unwinds c hleaves hc hentered hvalues =>
        rw [definedBy_unwinds hb hleaves hc hentered, List.nil_append] at hdefined
        exact hkept hdefined (by rw [hvalues])

end

/-- In every run of a verified function on whose steps the proofs can rely, a value with a proof
    is a closure of the proven body whenever it was defined. -/
theorem provenClosureBody_pinned (rules : TypeRules) (options : Verifier.VerifierOptions)
    (runtime : Runtime W) (module : Module) (f : Function)
    (bodyOf : W → gc.Value → Option FunctionId) (arguments : ParamId → gc.Value) (slots : SlotId →
      Option gc.Value) (world : W)
    (hok : Verifier.verifyFunction rules module f options = []) (hlaws : ClosureLaws runtime bodyOf fun k =>
      (step runtime module f)^[k] (start f arguments slots world)) (n : Nat)
    (hreliable : ∀ m < n, f.ReliableStep
      (fun k => (step runtime module f)^[k] (start f arguments slots world)) m)
    (operand : Operand) (body : FunctionId) (hproof : f.provenClosureBody operand = some body)
    (frame : Frame) (current : W)
    (hrun : (step runtime module f)^[n] (start f arguments slots world) = .running frame current)
    (hdefined : .temp operand.index ∈ definedAfter f
      (fun k => (step runtime module f)^[k] (start f arguments slots world)) n) :
    operand.kind = .Temp ∧ bodyOf current (frame.values (.temp operand.index)) = some body := by
  have haccepted := Verifier.accepted_of_verifyFunction hok
  have hpinned (m : Nat) (hm : m ≤ n) : f.Pinned bodyOf
      (definedAfter f (fun k => (step runtime module f)^[k] (start f arguments slots world)) m)
      ((step runtime module f)^[m] (start f arguments slots world)) := by
    induction m using Nat.strong_induction_on with
    | _ m ih =>
      cases m with
      | zero =>
        rw [Function.iterate_zero_apply]
        cases start f arguments slots world with
        | running frame world => exact fun _ _ _ _ _ h => nomatch h
        | returned | raised | stuck => trivial
      | succ m =>
        exact pinned_step haccepted hlaws (fun k => Function.iterate_succ_apply' ..)
          (fun k => placed_run arguments slots world k)
          (fun k hk => hreliable k (Nat.lt_of_lt_of_le hk hm)) fun k hk =>
            ih k hk (Nat.le_of_lt (Nat.lt_of_lt_of_le hk hm))
  have hhere := hpinned n (Nat.le_refl n)
  rw [hrun] at hhere
  exact ⟨(proveTemp_cases hproof).1, hhere _ _ operand body hproof hdefined⟩

end

def closureTypes : TypeRules :=
  { Verifier.exampleTypes with find id := if id = 5 then some { kind := .Function }
    else Verifier.exampleTypes.find id }

/-- The address of a closure tells its body. -/
def closureRuntime : Runtime Unit where
  library := foldLibrary
  memory _ := foldMemory
  static _ _ := .nil
  matchType world _ _ := (false, world)
  effect i _ _ world := { result := .ok (if i.opcode = .MakeClosure then .box .closure
    (some i.target.function) else .nil), world }
  dispatch handlers _ _ := handlers.head?
  caught _ world := (.nil, world)

def closureBody (_ : Unit) : gc.Value → Option FunctionId
  | .box .closure (some id) => some id
  | _ => none

theorem closureLaws (run : Nat → Configuration Unit) : ClosureLaws closureRuntime closureBody run where
  makes i arguments slot world v hop hresult := by
    change Except.ok (if i.opcode = .MakeClosure then _ else _) = _ at hresult
    rw [if_pos hop] at hresult
    cases hresult
    rfl
  keeps _ _ _ _ _ _ _ _ _ _ h := h

def storedClosure : Function := Function.rebuildEdges {
  name := "storedClosure"
  returnType := 5
  slots := [{ name := "g", type := 5 }]
  entryBlock := 1
  blocks := [{
    id := 1
    instructions := [
      { opcode := .MakeClosure, result := 1, resultType := 5, target := { function := 1 } },
      { opcode := .Store, operands := [.temp 1 5], slot := 1 },
      { opcode := .Load, result := 2, resultType := 5, slot := 1 }]
    terminator := { kind := .Return, value := .temp 2 5 } }] }

theorem provenClosureBody_pinned_stored : ∃ frame,
    (step closureRuntime {} storedClosure)^[3]
    (start storedClosure (fun _ => .nil) (fun _ => none) ()) = .running frame () ∧
    closureBody () (frame.values (.temp 2)) = some 1 := by
  refine ⟨_, rfl, (provenClosureBody_pinned closureTypes {} closureRuntime
    {} storedClosure closureBody (fun _ => .nil) (fun _ => none) ()
    (by decide +kernel) (closureLaws _) 3 (fun m hm => ?_) (.temp 2 5) 1 (by decide +kernel) _
      () rfl (by decide +kernel)).2⟩
  match m with
  | 0 =>
    rintro i hi
    cases hi
    exact ⟨(fun hop => nomatch hop), fun hop => nomatch hop⟩
  | 1 =>
    rintro i hi
    cases hi
    refine ⟨(fun hop => nomatch hop), fun _ operand hoperand _ => ?_⟩
    cases hoperand
    decide +kernel
  | 2 =>
    rintro i hi
    cases hi
    refine ⟨fun _ _ => ⟨1, by decide, ⟨_, rfl, rfl, rfl⟩, fun k hlt hk => ?_⟩, fun hop => nomatch hop⟩
    obtain rfl : k = 2 := by omega
    rfl
  | m + 3 => omega

def caughtThenStored : Function := Function.rebuildEdges {
  name := "caughtThenStored"
  parameters := [{ name := "thrown", type := 5 }]
  returnType := 5
  slots := [{ name := "e", type := 5 }]
  entryBlock := 1
  blocks := [
    { id := 1
      terminator := { kind := .Throw, value := .param 0 5 }
      exceptionHandlers := [{ block := 2, catchSlot := 1 }] },
    { id := 2
      kind := .Catch
      instructions := [
        { opcode := .Load, result := 1, resultType := 5, slot := 1 },
        { opcode := .MakeClosure, result := 2, resultType := 5, target := { function := 1 } },
        { opcode := .Store, operands := [.temp 2 5], slot := 1 }]
      terminator := { kind := .Return, value := .temp 1 5 } }] }

/-- The slot that a handler binds has one store behind the load. -/
theorem caughtValue_not_pinned :
    ¬∀ (W : Type) (rules : TypeRules) (options : Verifier.VerifierOptions) (runtime : Runtime W)
    (module : Module)
    (f : Function) (bodyOf : W → gc.Value → Option FunctionId) (arguments : ParamId → gc.Value)
    (slots : SlotId → Option gc.Value) (world : W),
    Verifier.verifyFunction rules module f options = [] →
    ClosureLaws runtime bodyOf (fun k =>
      (step runtime module f)^[k] (start f arguments slots world)) → ∀ n operand body,
      f.provenClosureBody operand = some body → ∀ frame current,
      (step runtime module f)^[n] (start f arguments slots world) = .running frame current →
      .temp operand.index ∈ definedAfter f
      (fun k => (step runtime module f)^[k] (start f arguments slots world)) n →
      operand.kind = .Temp ∧ bodyOf current (frame.values (.temp operand.index)) = some body := by
  intro h
  have hpinned := h Unit closureTypes {} closureRuntime {} caughtThenStored closureBody
    (fun _ => .nil) (fun _ => none) ()
    (by decide +kernel) (closureLaws _) 2 (.temp 1 5) 1 (by decide +kernel) _ () rfl (by decide +kernel)
  nomatch hpinned.2

end zl.mir
