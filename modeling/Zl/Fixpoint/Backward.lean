import Zl.Fixpoint.RoundRobin

namespace zl.fixpoint

section
variable {A B X : Type} (lookup : A → Option B) (next : A → List A)
variable (gen kill : B → X → Prop) (x : X)

/-- An element some path from the vertex generates before anything kills it. -/
inductive LiveFrom : A → Prop
  | gen {a : A} {b : B} (hb : lookup a = some b) (hgen : gen b x) : LiveFrom a
  | pass {a c : A} {b : B} (hb : lookup a = some b) (hkill : ¬ kill b x) (hedge : c ∈ next a)
      (hlive : LiveFrom c) : LiveFrom a

/-- The same along paths of fewer than the given number of edges. -/
def Within : Nat → A → Prop
  | 0, _ => False
  | k + 1, a => ∃ b, lookup a = some b ∧ (gen b x ∨ (¬ kill b x ∧ ∃ c ∈ next a, Within k c))

end

section
variable {A B X : Type} {lookup : A → Option B} {next : A → List A}
variable {gen kill : B → X → Prop} {x : X}
variable {a : A}

theorem Within.succ {k : Nat} (h : Within lookup next gen kill x k a) :
    Within lookup next gen kill x (k + 1) a := by
  induction k generalizing a with
  | zero => cases h
  | succ k ih =>
    obtain ⟨b, hb, hgen | ⟨hkill, c, hedge, hc⟩⟩ := h
    · exact ⟨b, hb, Or.inl hgen⟩
    · exact ⟨b, hb, Or.inr ⟨hkill, c, hedge, ih hc⟩⟩

theorem Within.mono {k l : Nat} (hle : k ≤ l) (h : Within lookup next gen kill x k a) :
    Within lookup next gen kill x l a := by
  induction hle with
  | refl => exact h
  | step _ ih => exact ih.succ

theorem within_of_stable {order : List A} (hclosed : ∀ a ∈ order, ∀ c ∈ next a, c ∈ order) {k : Nat}
    (hstable : ∀ a ∈ order, Within lookup next gen kill x (k + 1) a → Within lookup next gen kill x k a)
    (ha : a ∈ order) (hlive : LiveFrom lookup next gen kill x a) :
    Within lookup next gen kill x k a := by
  induction hlive with
  | gen hb hgen => exact hstable _ ha ⟨_, hb, Or.inl hgen⟩
  | @pass a c b hb hkill hedge _ ih =>
    exact hstable _ ha ⟨b, hb, Or.inr ⟨hkill, c, hedge, ih (hclosed a ha c hedge)⟩⟩

/-- Paths need no more edges than there are vertices: as long as one more edge helps, it helps one
    more vertex. -/
theorem LiveFrom.within [DecidableEq A] {order : List A}
    (hclosed : ∀ a ∈ order, ∀ c ∈ next a, c ∈ order) (ha : a ∈ order)
    (hlive : LiveFrom lookup next gen kill x a) :
    Within lookup next gen kill x order.length a := by
  classical
  let found : Nat → Finset A := fun k =>
    order.toFinset.filter fun a => Within lookup next gen kill x k a
  have hmem : ∀ k a, a ∈ found k ↔ a ∈ order ∧ Within lookup next gen kill x k a := by
    intro k a
    simp [found]
  have hgrows : ∀ k, (∃ j, j < k ∧ ∀ a ∈ order, Within lookup next gen kill x (j + 1) a →
      Within lookup next gen kill x j a) ∨ k ≤ (found k).card := by
    intro k
    induction k with
    | zero => exact Or.inr (Nat.zero_le _)
    | succ k ih =>
      cases ih with
      | inl hstable =>
        obtain ⟨j, hj, hstable⟩ := hstable
        exact Or.inl ⟨j, Nat.lt_succ_of_lt hj, hstable⟩
      | inr hcard =>
        by_cases hstable : ∀ a ∈ order, Within lookup next gen kill x (k + 1) a →
            Within lookup next gen kill x k a
        · exact Or.inl ⟨k, Nat.lt_succ_self k, hstable⟩
        · simp only [not_forall] at hstable
          obtain ⟨a, ha, hlater, hnow⟩ := hstable
          have hsub : found k ⊂ found (k + 1) := by
            refine Finset.ssubset_iff_of_subset (fun b hb => ?_) |>.mpr ⟨a, ?_, ?_⟩
            · rw [hmem] at hb ⊢
              exact ⟨hb.1, hb.2.succ⟩
            · exact (hmem _ _).mpr ⟨ha, hlater⟩
            · exact fun h => hnow ((hmem _ _).mp h).2
          have hlt := Finset.card_lt_card hsub
          exact Or.inr (by omega)
  cases hgrows (order.length + 1) with
  | inl hstable =>
    obtain ⟨j, hj, hstable⟩ := hstable
    exact (within_of_stable hclosed hstable ha hlive).mono (Nat.le_of_lt_succ hj)
  | inr hcard =>
    have hle : (found (order.length + 1)).card ≤ order.length :=
      (Finset.card_filter_le _ _).trans order.toFinset_card_le
    omega

end

/-- Repeat a pass until it changes nothing, and at most `fuel` times. -/
def boundedPasses {S : Type} (pass : S → S × Bool) : Nat → S → S
  | 0, s => s
  | fuel + 1, s =>
    match pass s with
    | (s', true) => boundedPasses pass fuel s'
    | (s', false) => s'

section
variable {A B F : Type} [DecidableEq A] [DecidableEq F] [SemilatticeSup F]
variable (lookup : A → Option B) (next : A → List A) (transfer : B → F → F) (boundary : F)

/-- The fact at the exit of a vertex: what its successors are known to need, joined. -/
def exitFact (input : A → Option F) (a : A) : F :=
  (((next a).filterMap input).foldl mergeFact none).getD boundary

/-- Solve one vertex again, and note whether one of its facts changed. -/
def visitBackward (state : Flow A F F × Bool) (a : A) : Flow A F F × Bool :=
  match lookup a with
  | none => state
  | some b =>
    let output := exitFact next boundary state.1.input a
    let input := transfer b output
    let changed := state.1.input a != some input || state.1.output a != some output
    (⟨Function.update state.1.input a (some input), Function.update state.1.output a (some output)⟩,
      state.2 || changed)

def sweepBackward (order : List A) (flow : Flow A F F) : Flow A F F × Bool :=
  order.reverse.foldl (visitBackward lookup next transfer boundary) (flow, false)

/-- Sweep over the vertices from the last to the first, at most `fuel` times. -/
def solveBackward (order : List A) (fuel : Nat) : Flow A F F :=
  boundedPasses (sweepBackward lookup next transfer boundary order) fuel ⟨fun _ => none, fun _ => none⟩

end

/-- Facts are sets of elements that a join unites, and a vertex generates some elements and lets
    the others through unless it kills them. -/
structure GenKill {B F X : Type} [SemilatticeSup F] (transfer : B → F → F) (boundary : F)
    (has : F → X → Prop) (gen kill : B → X → Prop) : Prop where
  boundary : ∀ x, ¬ has boundary x
  join : ∀ i j x, has (i ⊔ j) x ↔ has i x ∨ has j x
  transfer : ∀ b o x, has (transfer b o) x ↔ gen b x ∨ (has o x ∧ ¬ kill b x)

section
variable {A B F X : Type} [DecidableEq A] [DecidableEq F] [SemilatticeSup F]
variable {lookup : A → Option B} {next : A → List A} {transfer : B → F → F} {boundary : F}
variable {has : F → X → Prop} {gen kill : B → X → Prop} {order : List A}
variable {flow : Flow A F F} {k : Nat} {a : A}

omit [DecidableEq F] [DecidableEq A] in
theorem foldl_mergeFact_has (hjoin : ∀ (i j : F) x, has (i ⊔ j) x ↔ has i x ∨ has j x)
    (incoming : List F) (seed : Option F) (x : X) :
    (∃ i, incoming.foldl mergeFact seed = some i ∧ has i x) ↔
      (∃ i, seed = some i ∧ has i x) ∨ ∃ i ∈ incoming, has i x := by
  induction incoming generalizing seed with
  | nil => simp
  | cons first incoming ih =>
    rw [List.foldl_cons, ih, List.exists_mem_cons_iff]
    cases seed with
    | none => simp [mergeFact]
    | some i => simp [mergeFact, hjoin, or_assoc]

omit [DecidableEq A] [DecidableEq F] in
theorem exitFact_has (h : GenKill transfer boundary has gen kill) (input : A → Option F) (a : A)
    (x : X) : has (exitFact next boundary input a) x ↔
      ∃ c ∈ next a, ∃ i, input c = some i ∧ has i x := by
  have hfold := foldl_mergeFact_has h.join ((next a).filterMap input) none x
  simp only [reduceCtorEq, false_and, exists_false, false_or, List.mem_filterMap] at hfold
  unfold exitFact
  constructor
  · intro hexit
    cases hmerged : ((next a).filterMap input).foldl mergeFact none with
    | none =>
      rw [hmerged] at hexit
      exact absurd hexit (h.boundary x)
    | some i =>
      rw [hmerged] at hexit
      obtain ⟨j, ⟨c, hc, hj⟩, hx⟩ := hfold.mp ⟨i, hmerged, hexit⟩
      exact ⟨c, hc, j, hj, hx⟩
  · rintro ⟨c, hc, i, hi, hx⟩
    obtain ⟨j, hj, hx⟩ := hfold.mpr ⟨i, ⟨c, hc, hi⟩, hx⟩
    rw [hj]
    exact hx

theorem visitBackward_of_lookup {changed : Bool} {b : B} (hb : lookup a = some b) :
    visitBackward lookup next transfer boundary (flow, changed) a =
      (⟨Function.update flow.input a (some (transfer b (exitFact next boundary flow.input a))),
        Function.update flow.output a (some (exitFact next boundary flow.input a))⟩,
        changed ||
          (flow.input a != some (transfer b (exitFact next boundary flow.input a)) ||
            flow.output a != some (exitFact next boundary flow.input a))) := by
  unfold visitBackward
  rw [hb]

variable (lookup next has gen kill) in
/-- What the facts of a flow say is true, and only vertices of the order have facts. -/
structure SoundFlow (order : List A) (flow : Flow A F F) : Prop where
  input : ∀ a i, flow.input a = some i → ∀ x, has i x → LiveFrom lookup next gen kill x a
  output : ∀ a o, flow.output a = some o → a ∈ order ∧
    ∀ x, has o x → ∃ c ∈ next a, LiveFrom lookup next gen kill x c

theorem SoundFlow.visit (h : GenKill transfer boundary has gen kill)
    (hsound : SoundFlow lookup next has gen kill order flow) (changed : Bool) (ha : a ∈ order) :
    SoundFlow lookup next has gen kill order
      (visitBackward lookup next transfer boundary (flow, changed) a).1 := by
  cases hb : lookup a with
  | none =>
    unfold visitBackward
    rw [hb]
    exact hsound
  | some b =>
    rw [visitBackward_of_lookup hb]
    have hexit : ∀ x, has (exitFact next boundary flow.input a) x →
        ∃ c ∈ next a, LiveFrom lookup next gen kill x c := by
      intro x hx
      obtain ⟨c, hc, i, hi, hx⟩ := (exitFact_has h flow.input a x).mp hx
      exact ⟨c, hc, hsound.input c i hi x hx⟩
    constructor
    · intro v i hi x hx
      dsimp only at hi
      by_cases hva : v = a
      · subst hva
        rw [Function.update_self, Option.some.injEq] at hi
        rw [← hi, h.transfer] at hx
        cases hx with
        | inl hgen => exact .gen hb hgen
        | inr hpass =>
          obtain ⟨c, hc, hlive⟩ := hexit x hpass.1
          exact .pass hb hpass.2 hc hlive
      · rw [Function.update_of_ne hva] at hi
        exact hsound.input v i hi x hx
    · intro v o ho
      dsimp only at ho
      by_cases hva : v = a
      · subst hva
        rw [Function.update_self, Option.some.injEq] at ho
        exact ⟨ha, ho ▸ hexit⟩
      · rw [Function.update_of_ne hva] at ho
        exact hsound.output v o ho

variable (lookup next has gen kill) in
/-- The entry fact of a vertex holds what paths of fewer than `k` edges make live. -/
def Covers (k : Nat) (flow : Flow A F F) (a : A) : Prop :=
  ∀ x, Within lookup next gen kill x k a → ∃ i, flow.input a = some i ∧ has i x

variable (lookup next has gen kill) in
/-- A vertex was solved from successors that cover paths of fewer than `k` edges. -/
def SolvedWithin (k : Nat) (flow : Flow A F F) (a : A) : Prop :=
  ∃ i o, flow.input a = some i ∧ flow.output a = some o ∧
    (∀ x, Within lookup next gen kill x (k + 1) a → has i x) ∧
    ∀ x, (∃ c ∈ next a, Within lookup next gen kill x k c) → has o x

omit [DecidableEq A] [DecidableEq F] [SemilatticeSup F] in
theorem SolvedWithin.covers (h : SolvedWithin lookup next has gen kill k flow a) :
    Covers lookup next has gen kill (k + 1) flow a := by
  obtain ⟨i, o, hi, -, hinput, -⟩ := h
  exact fun x hx => ⟨i, hi, hinput x hx⟩

/-- Solving a vertex again looks one edge further. -/
theorem Covers.visit (h : GenKill transfer boundary has gen kill)
    (hclosed : ∀ a ∈ order, ∀ c ∈ next a, c ∈ order)
    (hcovers : ∀ a ∈ order, Covers lookup next has gen kill k flow a) (changed : Bool)
    (ha : a ∈ order) {b : B} (hb : lookup a = some b) :
    SolvedWithin lookup next has gen kill k
        (visitBackward lookup next transfer boundary (flow, changed) a).1 a ∧
      ∀ v, v ≠ a →
        (visitBackward lookup next transfer boundary (flow, changed) a).1.input v = flow.input v ∧
        (visitBackward lookup next transfer boundary (flow, changed) a).1.output v = flow.output v := by
  rw [visitBackward_of_lookup hb]
  refine ⟨⟨_, _, Function.update_self .., Function.update_self .., fun x hx => ?_, fun x hx => ?_⟩,
    fun v hv => ⟨Function.update_of_ne hv .., Function.update_of_ne hv ..⟩⟩
  · obtain ⟨b', hb', hlive⟩ := hx
    rw [hb, Option.some.injEq] at hb'
    subst hb'
    rw [h.transfer]
    refine hlive.imp_right fun hpass => ⟨?_, hpass.1⟩
    obtain ⟨c, hc, hwithin⟩ := hpass.2
    obtain ⟨i, hi, hx⟩ := hcovers c (hclosed a ha c hc) x hwithin
    exact (exitFact_has h flow.input a x).mpr ⟨c, hc, i, hi, hx⟩
  · obtain ⟨c, hc, hwithin⟩ := hx
    obtain ⟨i, hi, hx⟩ := hcovers c (hclosed a ha c hc) x hwithin
    exact (exitFact_has h flow.input a x).mpr ⟨c, hc, i, hi, hx⟩

/-- A run of visits solves every vertex it visits. -/
theorem foldl_visitBackward (h : GenKill transfer boundary has gen kill)
    (hclosed : ∀ a ∈ order, ∀ c ∈ next a, c ∈ order) (hlookup : ∀ a ∈ order, ∃ b, lookup a = some b)
    (todo : List A) (htodo : ∀ a ∈ todo, a ∈ order) (hsound : SoundFlow lookup next has gen kill order flow)
    (hcovers : ∀ a ∈ order, Covers lookup next has gen kill k flow a) (changed : Bool)
    {solved : List A} (hsolved : ∀ a ∈ solved, SolvedWithin lookup next has gen kill k flow a) :
    SoundFlow lookup next has gen kill order
        (todo.foldl (visitBackward lookup next transfer boundary) (flow, changed)).1 ∧
      ∀ a, a ∈ solved ∨ a ∈ todo → SolvedWithin lookup next has gen kill k
        (todo.foldl (visitBackward lookup next transfer boundary) (flow, changed)).1 a := by
  induction todo generalizing flow changed solved with
  | nil => exact ⟨hsound, fun a ha => hsolved a (ha.resolve_right List.not_mem_nil)⟩
  | cons a todo ih =>
    have ha := htodo a List.mem_cons_self
    obtain ⟨b, hb⟩ := hlookup a ha
    obtain ⟨hdone, hkept⟩ := Covers.visit h hclosed hcovers changed ha hb
    have hsound' := hsound.visit h changed ha
    rw [List.foldl_cons]
    generalize visitBackward lookup next transfer boundary (flow, changed) a = state at *
    obtain ⟨flow', changed'⟩ := state
    have hcovers' : ∀ v ∈ order, Covers lookup next has gen kill k flow' v := by
      intro v hv x hx
      by_cases hva : v = a
      · subst hva
        exact hdone.covers x hx.succ
      · rw [(hkept v hva).1]
        exact hcovers v hv x hx
    have hsolved' : ∀ v ∈ a :: solved, SolvedWithin lookup next has gen kill k flow' v := by
      intro v hv
      by_cases hva : v = a
      · exact hva ▸ hdone
      · unfold SolvedWithin
        rw [(hkept v hva).1, (hkept v hva).2]
        exact hsolved v ((List.mem_cons.mp hv).resolve_left hva)
    obtain ⟨hlast, hall⟩ :=
      ih (fun v hv => htodo v (List.mem_cons_of_mem _ hv)) hsound' hcovers' changed' hsolved'
    refine ⟨hlast, fun v hv => hall v ?_⟩
    rw [List.mem_cons] at hv ⊢
    tauto

omit [DecidableEq F] [SemilatticeSup F] in
theorem update_flow_eq {i o : F} (hi : flow.input a = some i) (ho : flow.output a = some o) :
    (⟨Function.update flow.input a (some i), Function.update flow.output a (some o)⟩ : Flow A F F) =
      flow := by
  rw [← hi, ← ho, Function.update_eq_self, Function.update_eq_self]

theorem foldl_visitBackward_unchanged (todo : List A) {flow r : Flow A F F} {changed : Bool}
    (hend : todo.foldl (visitBackward lookup next transfer boundary) (flow, changed) = (r, false)) :
    changed = false ∧ r = flow := by
  induction todo generalizing flow changed with
  | nil =>
    cases hend
    exact ⟨rfl, rfl⟩
  | cons a todo ih =>
    rw [List.foldl_cons] at hend
    cases hb : lookup a with
    | none =>
      unfold visitBackward at hend
      rw [hb] at hend
      exact ih hend
    | some b =>
      rw [visitBackward_of_lookup hb] at hend
      obtain ⟨hflag, hr⟩ := ih hend
      simp only [Bool.or_eq_false_iff, bne_eq_false_iff_eq] at hflag
      obtain ⟨hchanged, hinput, houtput⟩ := hflag
      exact ⟨hchanged, hr.trans (update_flow_eq hinput houtput)⟩

variable (lookup next has gen kill) in
/-- What the passes so far have established. -/
structure PassedWithin (order : List A) (k : Nat) (flow : Flow A F F) : Prop where
  sound : SoundFlow lookup next has gen kill order flow
  covers : ∀ a ∈ order, Covers lookup next has gen kill k flow a

/-- One more pass looks one edge further. -/
theorem PassedWithin.sweep (h : GenKill transfer boundary has gen kill)
    (hclosed : ∀ a ∈ order, ∀ c ∈ next a, c ∈ order) (hlookup : ∀ a ∈ order, ∃ b, lookup a = some b)
    (hpassed : PassedWithin lookup next has gen kill order k flow) :
    PassedWithin lookup next has gen kill order (k + 1)
        (sweepBackward lookup next transfer boundary order flow).1 ∧
      ∀ a ∈ order, SolvedWithin lookup next has gen kill k
        (sweepBackward lookup next transfer boundary order flow).1 a := by
  obtain ⟨hsound, hsolved⟩ := foldl_visitBackward h hclosed hlookup order.reverse
    (fun a ha => List.mem_reverse.mp ha) hpassed.sound hpassed.covers false
    (fun a (ha : a ∈ []) => absurd ha List.not_mem_nil)
  have hall : ∀ a ∈ order, SolvedWithin lookup next has gen kill k
      (sweepBackward lookup next transfer boundary order flow).1 a :=
    fun a ha => hsolved a (Or.inr (List.mem_reverse.mpr ha))
  exact ⟨⟨hsound, fun a ha => (hall a ha).covers⟩, hall⟩

/-- The loop solves every vertex as far as it has passes. A pass that changes nothing stands for
    any number of passes. -/
theorem boundedPasses_spec (h : GenKill transfer boundary has gen kill)
    (hclosed : ∀ a ∈ order, ∀ c ∈ next a, c ∈ order) (hlookup : ∀ a ∈ order, ∃ b, lookup a = some b)
    (fuel : Nat) (hpassed : PassedWithin lookup next has gen kill order k flow) :
    SoundFlow lookup next has gen kill order
        (boundedPasses (sweepBackward lookup next transfer boundary order) (fuel + 1) flow) ∧
      ∀ a ∈ order, SolvedWithin lookup next has gen kill (k + fuel)
        (boundedPasses (sweepBackward lookup next transfer boundary order) (fuel + 1) flow) a := by
  induction fuel generalizing k flow with
  | zero =>
    obtain ⟨hlater, hsolved⟩ := hpassed.sweep h hclosed hlookup
    rw [boundedPasses]
    cases hstep : sweepBackward lookup next transfer boundary order flow with
    | mk flow' changed =>
      rw [hstep] at hlater hsolved
      cases changed with
      | true => exact ⟨hlater.sound, hsolved⟩
      | false => exact ⟨hlater.sound, hsolved⟩
  | succ fuel ih =>
    obtain ⟨hlater, hsolved⟩ := hpassed.sweep h hclosed hlookup
    rw [boundedPasses]
    cases hstep : sweepBackward lookup next transfer boundary order flow with
    | mk flow' changed =>
      rw [hstep] at hlater hsolved
      cases changed with
      | true =>
        have hrest := ih hlater
        rw [show k + (fuel + 1) = k + 1 + fuel by omega]
        exact hrest
      | false =>
        obtain ⟨-, rfl⟩ := foldl_visitBackward_unchanged order.reverse hstep
        -- The pass repeats itself, so it establishes every later stage as well.
        have hstages : ∀ n, PassedWithin lookup next has gen kill order (k + n) flow' := by
          intro n
          induction n with
          | zero => exact hpassed
          | succ n ih =>
            have hnext := (ih.sweep h hclosed hlookup).1
            rw [hstep] at hnext
            exact hnext
        have hlast := ((hstages (fuel + 1)).sweep h hclosed hlookup).2
        rw [hstep] at hlast
        exact ⟨hpassed.sound, hlast⟩

/-- With more passes than there are vertices the exit facts are exact: the vertices of the
    order have one, and it holds what is live from a successor. -/
theorem solveBackward_spec (h : GenKill transfer boundary has gen kill)
    (hclosed : ∀ a ∈ order, ∀ c ∈ next a, c ∈ order) (hlookup : ∀ a ∈ order, ∃ b, lookup a = some b)
    {fuel : Nat} (hfuel : order.length < fuel) (a : A) :
    (∀ o, (solveBackward lookup next transfer boundary order fuel).output a = some o → a ∈ order ∧
        ∀ x, has o x → ∃ c ∈ next a, LiveFrom lookup next gen kill x c) ∧
      (a ∈ order → ∃ o, (solveBackward lookup next transfer boundary order fuel).output a = some o ∧
        ∀ x, (∃ c ∈ next a, LiveFrom lookup next gen kill x c) → has o x) := by
  obtain ⟨n, rfl⟩ := Nat.exists_eq_add_of_lt hfuel
  have hstart : PassedWithin lookup next has gen kill order 0
      (⟨fun _ => none, fun _ => none⟩ : Flow A F F) := by
    refine ⟨⟨?_, ?_⟩, ?_⟩
    · intro _ _ hi
      cases hi
    · intro _ _ ho
      cases ho
    · intro _ _ _ hx
      cases hx
  obtain ⟨hsound, hsolved⟩ := boundedPasses_spec h hclosed hlookup (order.length + n) hstart
  refine ⟨fun o ho => hsound.output a o ho, fun ha => ?_⟩
  obtain ⟨i, o, -, ho, -, houtput⟩ := hsolved a ha
  refine ⟨o, ho, ?_⟩
  rintro x ⟨c, hc, hlive⟩
  have hwithin := hlive.within hclosed (hclosed a ha c hc)
  exact houtput x ⟨c, hc, hwithin.mono (by omega)⟩

end

end zl.fixpoint
