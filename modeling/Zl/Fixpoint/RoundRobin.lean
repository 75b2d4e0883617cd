import Mathlib

namespace zl.fixpoint

/-- Repeat a pass until it changes nothing, at most `fuel` times. -/
def whileChanged {S : Type} (pass : S → S × Bool) : Nat → S → Option S
  | 0, _ => none
  | fuel + 1, s =>
    match pass s with
    | (s', true) => whileChanged pass fuel s'
    | (s', false) => some s'

section
variable {S : Type} {pass : S → S × Bool} (inv : S → Prop)

/-- The state the loop ends with is what a pass that changed nothing left behind. -/
theorem whileChanged_result (hpass : ∀ s, inv s → inv (pass s).1) {fuel : Nat} {s r : S}
    (hs : inv s) (hend : whileChanged pass fuel s = some r) : ∃ s', inv s' ∧ pass s' = (r, false) := by
  induction fuel generalizing s with
  | zero => cases hend
  | succ fuel ih =>
    rw [whileChanged] at hend
    split at hend
    next s' hstep =>
      have hs' : inv s' := by simpa [hstep] using hpass s hs
      exact ih hs' hend
    next s' hstep =>
      cases hend
      exact ⟨s, hs, hstep⟩

/-- A measure that every changing pass decreases bounds the number of passes. -/
theorem whileChanged_isSome (measure : S → Nat) (hpass : ∀ s, inv s → inv (pass s).1)
    (hdecrease : ∀ s, inv s → (pass s).2 = true → measure (pass s).1 < measure s) {fuel : Nat} {s : S}
    (hs : inv s) (hfuel : measure s < fuel) : ∃ r, whileChanged pass fuel s = some r := by
  induction fuel generalizing s with
  | zero => omega
  | succ fuel ih =>
    rw [whileChanged]
    split
    next s' hstep =>
      have hs' : inv s' := by simpa [hstep] using hpass s hs
      have hlt : measure s' < measure s := by simpa [hstep] using hdecrease s hs
      exact ih hs' (by omega)
    next s' hstep => exact ⟨s', rfl⟩

end

/-- A pointwise smaller cost that saves `saved` at one of the summands. -/
theorem sum_map_add_le {A : Type} {bound : List A} {cost cost' : A → Nat} {v : A} {saved : Nat}
    (hv : v ∈ bound) (hle : ∀ w, cost' w ≤ cost w) (hsaved : cost' v + saved ≤ cost v) :
    (bound.map cost').sum + saved ≤ (bound.map cost).sum := by
  induction bound with
  | nil => cases hv
  | cons w bound ih =>
    simp only [List.map_cons, List.sum_cons]
    have hw := hle w
    by_cases heq : v = w
    · subst heq
      have hrest : (bound.map cost').sum ≤ (bound.map cost).sum :=
        List.sum_le_sum fun u _ => hle u
      omega
    · have hrest := ih ((List.mem_cons.mp hv).resolve_left heq)
      omega

/-- The facts at the entry and at the exit of each vertex, as far as they are known. -/
structure Flow (A I O : Type) where
  input : A → Option I
  output : A → Option O

/-- The fact known less about comes first, and no fact at all before every other. -/
def OptionLe {O : Type} [LE O] (o o' : Option O) : Prop := ∀ x, o = some x → ∃ y, o' = some y ∧ x ≤ y

section
variable {A I O : Type} [DecidableEq A] [DecidableEq O]
variable (gather : (A → Option O) → A → Option I) (transfer : A → I → O)

/-- Solve one vertex again from what its neighbours are known to hand it, and note whether its
    exit fact changed. A vertex that nothing reaches yet is left alone. -/
def visitVertex (state : Flow A I O × Bool) (a : A) : Flow A I O × Bool :=
  match gather state.1.output a with
  | none => state
  | some i =>
    let input := Function.update state.1.input a (some i)
    if state.1.output a = some (transfer a i) then (⟨input, state.1.output⟩, state.2)
    else (⟨input, Function.update state.1.output a (some (transfer a i))⟩, true)

def sweepFlow (order : List A) (flow : Flow A I O) : Flow A I O × Bool :=
  order.foldl (visitVertex gather transfer) (flow, false)

/-- Sweep over the vertices in order until no exit fact changes. -/
def solveFlow (order : List A) (fuel : Nat) : Option (Flow A I O) :=
  whileChanged (sweepFlow gather transfer order) fuel ⟨fun _ => none, fun _ => none⟩

/-- A monotone problem whose exit facts keep a property under which they only rise a bounded
    number of times. -/
structure Ascending [Preorder I] [PartialOrder O] (small : O → Prop) (rank : O → Nat)
    (height : Nat) : Prop where
  gather_mono : ∀ out out' a, (∀ b, OptionLe (out b) (out' b)) →
    OptionLe (gather out a) (gather out' a)
  transfer_mono : ∀ a i i', i ≤ i' → transfer a i ≤ transfer a i'
  small_transfer : ∀ out a i, (∀ b o, out b = some o → small o) → gather out a = some i →
    small (transfer a i)
  rank_lt : ∀ o o', small o → small o' → o < o' → rank o < rank o'
  rank_le : ∀ o, small o → rank o ≤ height

/-- What every sweep keeps: exit facts are small, and at most what solving the vertex again would
    give. -/
structure Rising [LE O] (small : O → Prop) (order : List A) (out : A → Option O) : Prop where
  small : ∀ a o, out a = some o → small o
  mem : ∀ a o, out a = some o → a ∈ order
  post : ∀ a o, out a = some o → ∃ i, gather out a = some i ∧ o ≤ transfer a i

/-- How often the exit fact of a vertex may still change. -/
def deficit (rank : O → Nat) (height : Nat) : Option O → Nat
  | none => height + 1
  | some o => height - rank o

/-- A solution: the facts of every vertex that something reaches are consistent. -/
structure Solved (order : List A) (flow : Flow A I O) : Prop where
  step : ∀ a ∈ order, ∀ i, gather flow.output a = some i →
    flow.input a = some i ∧ flow.output a = some (transfer a i)
  support : ∀ a o, flow.output a = some o → a ∈ order ∧ ∃ i, gather flow.output a = some i

variable {gather transfer}

section
variable [Preorder I] [PartialOrder O] {small : O → Prop} {rank : O → Nat} {height : Nat}
variable {order : List A}

omit [DecidableEq A] [DecidableEq O] in
theorem deficit_lt (h : Ascending gather transfer small rank height) {before : Option O} {o : O}
    (hsmall : small o) (hbefore : ∀ x, before = some x → small x ∧ x ≤ o) (hne : before ≠ some o) :
    deficit rank height (some o) < deficit rank height before := by
  have hle := h.rank_le o hsmall
  cases before with
  | none =>
    simp only [deficit]
    omega
  | some x =>
    obtain ⟨hx, hxo⟩ := hbefore x rfl
    have hlt : x < o := lt_of_le_of_ne hxo fun heq => hne (by rw [heq])
    have hrank := h.rank_lt x o hx hsmall hlt
    simp only [deficit]
    omega

/-- Solving one vertex again keeps the invariant. Either no exit fact changes, or the one of this
    vertex rises. -/
theorem visitVertex_spec (h : Ascending gather transfer small rank height) {flow : Flow A I O}
    (hrise : Rising gather transfer small order flow.output) {a : A} (ha : a ∈ order) (changed : Bool) :
    Rising gather transfer small order (visitVertex gather transfer (flow, changed) a).1.output ∧
      (((visitVertex gather transfer (flow, changed) a).1.output = flow.output ∧
          (visitVertex gather transfer (flow, changed) a).2 = changed) ∨
        ((order.map fun b => deficit rank height
            ((visitVertex gather transfer (flow, changed) a).1.output b)).sum <
          (order.map fun b => deficit rank height (flow.output b)).sum)) := by
  unfold visitVertex
  cases hgather : gather flow.output a with
  | none => exact ⟨hrise, Or.inl ⟨rfl, rfl⟩⟩
  | some i =>
    simp only
    by_cases hsame : flow.output a = some (transfer a i)
    · rw [if_pos hsame]
      exact ⟨hrise, Or.inl ⟨rfl, rfl⟩⟩
    · rw [if_neg hsame]
      simp only
      have hsmall : small (transfer a i) := h.small_transfer _ a i hrise.small hgather
      have hbefore : ∀ x, flow.output a = some x → small x ∧ x ≤ transfer a i := by
        intro x hx
        obtain ⟨j, hj, hle⟩ := hrise.post a x hx
        rw [hgather] at hj
        cases hj
        exact ⟨hrise.small a x hx, hle⟩
      have hup : ∀ b, OptionLe (flow.output b)
          (Function.update flow.output a (some (transfer a i)) b) := by
        intro b x hx
        by_cases hba : b = a
        · subst hba
          exact ⟨transfer b i, Function.update_self .., (hbefore x hx).2⟩
        · exact ⟨x, by rw [Function.update_of_ne hba, hx], le_refl x⟩
      refine ⟨⟨?_, ?_, ?_⟩, Or.inr ?_⟩
      · intro b o ho
        by_cases hba : b = a
        · rw [hba, Function.update_self] at ho
          cases ho
          exact hsmall
        · rw [Function.update_of_ne hba] at ho
          exact hrise.small b o ho
      · intro b o ho
        by_cases hba : b = a
        · rwa [hba]
        · rw [Function.update_of_ne hba] at ho
          exact hrise.mem b o ho
      · intro b o ho
        by_cases hba : b = a
        · subst hba
          rw [Function.update_self] at ho
          cases ho
          obtain ⟨i', hi', hle⟩ := h.gather_mono _ _ b hup i hgather
          exact ⟨i', hi', h.transfer_mono b i i' hle⟩
        · rw [Function.update_of_ne hba] at ho
          obtain ⟨j, hj, hle⟩ := hrise.post b o ho
          obtain ⟨j', hj', hjle⟩ := h.gather_mono _ _ b hup j hj
          exact ⟨j', hj', le_trans hle (h.transfer_mono b j j' hjle)⟩
      · have hlt := deficit_lt h hsmall hbefore hsame
        have hle : ∀ b, deficit rank height
            (Function.update flow.output a (some (transfer a i)) b) ≤
              deficit rank height (flow.output b) := by
          intro b
          by_cases hba : b = a
          · rw [hba, Function.update_self]
            exact Nat.le_of_lt hlt
          · rw [Function.update_of_ne hba]
        have hsaved : deficit rank height
            (Function.update flow.output a (some (transfer a i)) a) + 1 ≤
              deficit rank height (flow.output a) := by
          rw [Function.update_self]
          exact hlt
        exact sum_map_add_le ha hle hsaved

theorem foldl_visitVertex (h : Ascending gather transfer small rank height) (todo : List A)
    (htodo : ∀ a ∈ todo, a ∈ order) {flow : Flow A I O}
    (hrise : Rising gather transfer small order flow.output) (changed : Bool) :
    Rising gather transfer small order
        (todo.foldl (visitVertex gather transfer) (flow, changed)).1.output ∧
      (((todo.foldl (visitVertex gather transfer) (flow, changed)).1.output = flow.output ∧
          (todo.foldl (visitVertex gather transfer) (flow, changed)).2 = changed) ∨
        ((order.map fun b => deficit rank height
            ((todo.foldl (visitVertex gather transfer) (flow, changed)).1.output b)).sum <
          (order.map fun b => deficit rank height (flow.output b)).sum)) := by
  induction todo generalizing flow changed with
  | nil => exact ⟨hrise, Or.inl ⟨rfl, rfl⟩⟩
  | cons a todo ih =>
    obtain ⟨hrise', hstep⟩ := visitVertex_spec h hrise (htodo a List.mem_cons_self) changed
    rw [List.foldl_cons]
    generalize visitVertex gather transfer (flow, changed) a = state at hrise' hstep ⊢
    obtain ⟨flow', changed'⟩ := state
    obtain ⟨hlast, hrest⟩ := ih (fun b hb => htodo b (List.mem_cons_of_mem _ hb)) hrise' changed'
    refine ⟨hlast, ?_⟩
    cases hstep with
    | inl hsame =>
      obtain ⟨houtput, rfl⟩ := hsame
      rw [← houtput]
      exact hrest
    | inr hlt =>
      cases hrest with
      | inl hsame =>
        refine Or.inr ?_
        rw [hsame.1]
        exact hlt
      | inr hlt' => exact Or.inr (Nat.lt_trans hlt' hlt)

omit [Preorder I] [PartialOrder O] in
/-- A sweep that reports no change found every vertex it could solve consistent. -/
theorem foldl_visitVertex_unchanged (todo : List A) {flow r : Flow A I O} {changed : Bool}
    (hend : todo.foldl (visitVertex gather transfer) (flow, changed) = (r, false)) :
    changed = false ∧ r.output = flow.output ∧
      (∀ a, a ∉ todo → r.input a = flow.input a) ∧
      ∀ a ∈ todo, ∀ i, gather flow.output a = some i →
        r.input a = some i ∧ flow.output a = some (transfer a i) := by
  induction todo generalizing flow changed with
  | nil =>
    cases hend
    exact ⟨rfl, rfl, fun _ _ => rfl, fun a ha => by cases ha⟩
  | cons a todo ih =>
    rw [List.foldl_cons] at hend
    unfold visitVertex at hend
    cases hgather : gather flow.output a with
    | none =>
      rw [hgather] at hend
      obtain ⟨hchanged, houtput, hother, hall⟩ := ih hend
      refine ⟨hchanged, houtput, fun b hb => hother b fun hmem => hb (List.mem_cons_of_mem _ hmem), ?_⟩
      intro b hb i hi
      by_cases hba : b = a
      · rw [hba, hgather] at hi
        cases hi
      · exact hall b ((List.mem_cons.mp hb).resolve_left hba) i hi
    | some i =>
      rw [hgather] at hend
      simp only at hend
      by_cases hsame : flow.output a = some (transfer a i)
      · rw [if_pos hsame] at hend
        obtain ⟨hchanged, houtput, hother, hall⟩ := ih hend
        refine ⟨hchanged, houtput, ?_, ?_⟩
        · intro b hb
          have hba : b ≠ a := fun heq => hb (by rw [heq]; exact List.mem_cons_self)
          rw [hother b fun hmem => hb (List.mem_cons_of_mem _ hmem)]
          exact Function.update_of_ne hba ..
        · intro b hb j hj
          by_cases hmem : b ∈ todo
          · exact hall b hmem j hj
          · have hba : b = a := (List.mem_cons.mp hb).resolve_right hmem
            subst hba
            rw [hgather] at hj
            cases hj
            refine ⟨?_, hsame⟩
            rw [hother b hmem]
            exact Function.update_self ..
      · rw [if_neg hsame] at hend
        obtain ⟨hchanged, -⟩ := ih hend
        cases hchanged

/-- The loop ends, and it ends with a solution. -/
theorem solveFlow_spec (h : Ascending gather transfer small rank height) (order : List A)
    {fuel : Nat} (hfuel : order.length * (height + 1) < fuel) :
    ∃ flow, solveFlow gather transfer order fuel = some flow ∧
      Solved gather transfer order flow := by
  have hpass : ∀ flow : Flow A I O, Rising gather transfer small order flow.output →
      Rising gather transfer small order (sweepFlow gather transfer order flow).1.output :=
    fun flow hrise => (foldl_visitVertex h order (fun _ ha => ha) hrise false).1
  let start : Flow A I O := ⟨fun _ => none, fun _ => none⟩
  have hstart : Rising gather transfer small order start.output := by
    constructor <;> intro _ _ ho <;> cases ho
  have hdecrease : ∀ flow : Flow A I O, Rising gather transfer small order flow.output →
      (sweepFlow gather transfer order flow).2 = true →
      (order.map fun b => deficit rank height
        ((sweepFlow gather transfer order flow).1.output b)).sum <
        (order.map fun b => deficit rank height (flow.output b)).sum := by
    intro flow hrise hchanged
    obtain ⟨-, hstep⟩ := foldl_visitVertex h order (fun _ ha => ha) hrise false
    cases hstep with
    | inl hsame =>
      rw [sweepFlow, hsame.2] at hchanged
      cases hchanged
    | inr hlt => exact hlt
  have hmeasure : (order.map fun b => deficit rank height (start.output b)).sum < fuel := by
    simpa [start, deficit] using hfuel
  obtain ⟨flow, hflow⟩ := whileChanged_isSome
    (fun flow : Flow A I O => Rising gather transfer small order flow.output)
    (fun flow => (order.map fun b => deficit rank height (flow.output b)).sum) hpass hdecrease
    hstart hmeasure
  refine ⟨flow, hflow, ?_⟩
  obtain ⟨last, hrise, hlast⟩ := whileChanged_result
    (fun flow : Flow A I O => Rising gather transfer small order flow.output) hpass hstart hflow
  obtain ⟨-, houtput, -, hall⟩ := foldl_visitVertex_unchanged order hlast
  refine ⟨?_, ?_⟩
  · rw [houtput]
    exact hall
  · intro a o ho
    rw [houtput] at ho ⊢
    obtain ⟨i, hi, -⟩ := hrise.post a o ho
    exact ⟨hrise.mem a o ho, i, hi⟩

end

end

section
variable {I : Type} [SemilatticeSup I]

/-- One more incoming fact: the first one is taken as it is, every other is joined. -/
def mergeFact (found : Option I) (incoming : I) : Option I :=
  match found with
  | none => some incoming
  | some i => some (i ⊔ incoming)

theorem foldl_mergeFact (incoming : List I) (seed : Option I) {i : I}
    (h : incoming.foldl mergeFact seed = some i) :
    (∀ x, seed = some x → x ≤ i) ∧ (∀ x ∈ incoming, x ≤ i) ∧
      ∀ u, (∀ x, seed = some x → x ≤ u) → (∀ x ∈ incoming, x ≤ u) → i ≤ u := by
  induction incoming generalizing seed with
  | nil =>
    rw [List.foldl_nil] at h
    refine ⟨?_, ?_, fun u hu _ => hu i h⟩
    · intro x hx
      rw [hx] at h
      cases h
      exact le_refl _
    · intro x hx
      cases hx
  | cons x incoming ih =>
    obtain ⟨hseed, hall, hleast⟩ := ih _ h
    have hx : x ≤ i := by
      cases seed with
      | none => exact hseed x rfl
      | some s => exact le_trans le_sup_right (hseed (s ⊔ x) rfl)
    refine ⟨?_, ?_, ?_⟩
    · intro s hs
      subst hs
      exact le_trans le_sup_left (hseed (s ⊔ x) rfl)
    · intro y hy
      by_cases hyx : y = x
      · exact hyx ▸ hx
      · exact hall y ((List.mem_cons.mp hy).resolve_left hyx)
    · intro u hu hall'
      refine hleast u ?_ fun y hy => hall' y (List.mem_cons_of_mem _ hy)
      intro y hy
      have hxu := hall' x List.mem_cons_self
      cases seed with
      | none =>
        cases hy
        exact hxu
      | some s =>
        cases hy
        exact sup_le (hu s rfl) hxu

theorem foldl_mergeFact_isSome (incoming : List I) (seed : Option I)
    (h : seed.isSome = true ∨ incoming ≠ []) : ∃ i, incoming.foldl mergeFact seed = some i := by
  induction incoming generalizing seed with
  | nil =>
    have hseed : seed.isSome = true := by simpa using h
    exact Option.isSome_iff_exists.mp hseed
  | cons x incoming ih =>
    refine ih _ (Or.inl ?_)
    cases seed <;> rfl

theorem foldl_mergeFact_mono {incoming incoming' : List I} {seed : Option I}
    (h : ∀ x ∈ incoming, ∃ y ∈ incoming', x ≤ y) :
    OptionLe (incoming.foldl mergeFact seed) (incoming'.foldl mergeFact seed) := by
  intro i hi
  have hsome : seed.isSome = true ∨ incoming' ≠ [] := by
    cases seed with
    | some s => exact Or.inl rfl
    | none =>
      refine Or.inr ?_
      rintro rfl
      cases incoming with
      | nil => cases hi
      | cons x incoming =>
        obtain ⟨y, hy, -⟩ := h x List.mem_cons_self
        cases hy
  obtain ⟨i', hi'⟩ := foldl_mergeFact_isSome incoming' seed hsome
  obtain ⟨-, -, hleast⟩ := foldl_mergeFact incoming seed hi
  obtain ⟨hseed, hall, -⟩ := foldl_mergeFact incoming' seed hi'
  refine ⟨i', hi', hleast i' hseed fun x hx => ?_⟩
  obtain ⟨y, hy, hxy⟩ := h x hx
  exact le_trans hxy (hall y hy)

end

end zl.fixpoint
