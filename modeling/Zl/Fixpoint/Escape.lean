import Zl.Fixpoint.RoundRobin

namespace zl.fixpoint

section
variable {S I : Type} [SemilatticeSup S] (apply : I → S → S) (throws : I → Bool)

/-- One instruction of a block. An instruction that may throw escapes with the state before its
    effect and with the state after it. -/
def escapeStep (state : S × Option S) (instruction : I) : S × Option S :=
  let next := apply instruction state.1
  if throws instruction then (next, mergeFact (mergeFact state.2 state.1) next)
  else (next, state.2)

/-- The state at the end of a block, and the join of the states exceptions escape with. A block
    that nothing escapes from hands on the state at its entry. -/
def escapeTransfer (instructions : List I) (raises : Bool) (input : S) : S × S :=
  let last := instructions.foldl (escapeStep apply throws) (input, none)
  (last.1, (if raises then mergeFact last.2 last.1 else last.2).getD input)

/-- The state before the instruction at an index, from the state at the block's entry. -/
def stateAt (instructions : List I) (input : S) (pc : Nat) : S :=
  (instructions.take pc).foldl (fun state instruction => apply instruction state) input

variable {apply throws}

omit [SemilatticeSup S] in
theorem stateAt_succ {instructions : List I} {input : S} {pc : Nat} {instruction : I}
    (hget : instructions[pc]? = some instruction) :
    stateAt apply instructions input (pc + 1) =
      apply instruction (stateAt apply instructions input pc) := by
  unfold stateAt
  rw [List.take_add_one, hget, List.foldl_append]
  rfl

theorem mergeFact_mono {u v : Option S} (hu : Option.Rel (· ≤ ·) u v) {a b : S} (h : a ≤ b) :
    Option.Rel (· ≤ ·) (mergeFact u a) (mergeFact v b) := by
  cases hu with
  | none => exact .some h
  | some hu => exact .some (sup_le_sup hu h)

variable (throws) in
theorem foldl_escapeStep_mono (hmono : ∀ i a b, a ≤ b → apply i a ≤ apply i b)
    (instructions : List I) {a b : S} {u v : Option S} (h : a ≤ b) (hu : Option.Rel (· ≤ ·) u v) :
    (instructions.foldl (escapeStep apply throws) (a, u)).1 ≤
        (instructions.foldl (escapeStep apply throws) (b, v)).1 ∧
      Option.Rel (· ≤ ·) (instructions.foldl (escapeStep apply throws) (a, u)).2
        (instructions.foldl (escapeStep apply throws) (b, v)).2 := by
  induction instructions generalizing a b u v with
  | nil => exact ⟨h, hu⟩
  | cons instruction instructions ih =>
    rw [List.foldl_cons, List.foldl_cons]
    have hnext := hmono instruction a b h
    by_cases hthrow : throws instruction = true
    · rw [escapeStep, escapeStep, if_pos hthrow, if_pos hthrow]
      exact ih hnext (mergeFact_mono (mergeFact_mono hu h) hnext)
    · rw [escapeStep, escapeStep, if_neg hthrow, if_neg hthrow]
      exact ih hnext hu

theorem escapeTransfer_mono (hmono : ∀ i a b, a ≤ b → apply i a ≤ apply i b) (instructions : List I)
    (raises : Bool) {a b : S} (h : a ≤ b) :
    escapeTransfer apply throws instructions raises a ≤
      escapeTransfer apply throws instructions raises b := by
  obtain ⟨hstate, hunwind⟩ := foldl_escapeStep_mono throws hmono instructions h .none
  refine ⟨hstate, ?_⟩
  have hgetD : ∀ {u v : Option S}, Option.Rel (· ≤ ·) u v → u.getD a ≤ v.getD b := by
    intro u v huv
    cases huv with
    | none => exact h
    | some hle => exact hle
  cases raises with
  | false => exact hgetD hunwind
  | true => exact hgetD (mergeFact_mono hunwind hstate)

section
variable {P : S → Prop} (hsup : ∀ a b, P a → P b → P (a ⊔ b))
include hsup

theorem mergeFact_keeps {u : Option S} {s : S} (hu : ∀ x, u = some x → P x) (hs : P s) :
    ∀ x, mergeFact u s = some x → P x := by
  intro x hx
  cases u with
  | none =>
    cases hx
    exact hs
  | some y =>
    cases hx
    exact hsup y s (hu y rfl) hs

theorem foldl_mergeFact_keeps {incoming : List S} {seed : Option S} (hseed : ∀ x, seed = some x → P x)
    (hincoming : ∀ x ∈ incoming, P x) : ∀ x, incoming.foldl mergeFact seed = some x → P x := by
  induction incoming generalizing seed with
  | nil => exact hseed
  | cons y incoming ih =>
    refine ih ?_ fun x hx => hincoming x (List.mem_cons_of_mem _ hx)
    exact mergeFact_keeps hsup hseed (hincoming y List.mem_cons_self)

/-- A property that the instructions and the join keep holds of the states of a block. -/
theorem escapeTransfer_keeps {instructions : List I} (hstep : ∀ i ∈ instructions, ∀ a, P a →
      P (apply i a))
    (raises : Bool) {input : S} (hinput : P input) :
    P (escapeTransfer apply throws instructions raises input).1 ∧
      P (escapeTransfer apply throws instructions raises input).2 := by
  have hfold : ∀ (a : S) (u : Option S), P a → (∀ x, u = some x → P x) →
      P (instructions.foldl (escapeStep apply throws) (a, u)).1 ∧
        ∀ x, (instructions.foldl (escapeStep apply throws) (a, u)).2 = some x → P x := by
    induction instructions with
    | nil => exact fun a u ha hu => ⟨ha, hu⟩
    | cons instruction instructions ih =>
      intro a u ha hu
      rw [List.foldl_cons]
      have hnext := hstep instruction List.mem_cons_self a ha
      have hrest := ih fun i hi => hstep i (List.mem_cons_of_mem _ hi)
      by_cases hthrow : throws instruction = true
      · rw [escapeStep, if_pos hthrow]
        exact hrest _ _ hnext (mergeFact_keeps hsup (mergeFact_keeps hsup hu ha) hnext)
      · rw [escapeStep, if_neg hthrow]
        exact hrest _ _ hnext hu
  obtain ⟨hstate, hunwind⟩ := hfold input none hinput fun x hx => by cases hx
  have hgetD : ∀ {u : Option S}, (∀ x, u = some x → P x) → P (u.getD input) := by
    intro u hu
    cases u with
    | none => exact hinput
    | some x => exact hu x rfl
  refine ⟨hstate, ?_⟩
  cases raises with
  | false => exact hgetD hunwind
  | true => exact hgetD (mergeFact_keeps hsup hunwind hstate)

end

theorem le_mergeFact (unwind : Option S) (state : S) :
    ∃ u, mergeFact unwind state = some u ∧ state ≤ u ∧ ∀ x, unwind = some x → x ≤ u := by
  cases unwind with
  | none => exact ⟨state, rfl, le_refl _, fun x hx => by cases hx⟩
  | some y =>
    refine ⟨y ⊔ state, rfl, le_sup_right, fun x hx => ?_⟩
    cases hx
    exact le_sup_left

variable (apply throws) in
/-- The states captured in a run: those before and after every instruction that may throw, and
    whatever was captured before. -/
theorem foldl_escapeStep_captures (instructions : List I) (input : S) (unwind : Option S) :
    (instructions.foldl (escapeStep apply throws) (input, unwind)).1 =
        stateAt apply instructions input instructions.length ∧
      (∀ x, unwind = some x →
        ∃ u, (instructions.foldl (escapeStep apply throws) (input, unwind)).2 = some u ∧ x ≤ u) ∧
      ∀ pc instruction, instructions[pc]? = some instruction → throws instruction = true →
        ∃ u, (instructions.foldl (escapeStep apply throws) (input, unwind)).2 = some u ∧
          stateAt apply instructions input pc ≤ u ∧ stateAt apply instructions input (pc + 1) ≤ u := by
  induction instructions generalizing input unwind with
  | nil => exact ⟨rfl, fun x hx => ⟨x, hx, le_refl _⟩, fun pc instruction hget => by cases hget⟩
  | cons first rest ih =>
    rw [List.foldl_cons]
    by_cases hfirst : throws first = true
    · rw [escapeStep, if_pos hfirst]
      obtain ⟨before, hbefore, hstate, hold⟩ := le_mergeFact unwind input
      obtain ⟨after, hafter, hnext, hearlier⟩ := le_mergeFact (some before) (apply first input)
      simp only
      rw [hbefore, hafter]
      obtain ⟨hlast, hkeep, hall⟩ := ih (apply first input) (some after)
      obtain ⟨u, hu, hle⟩ := hkeep after rfl
      have hbeforeLe := (hearlier before rfl).trans hle
      refine ⟨hlast, fun x hx => ⟨u, hu, (hold x hx).trans hbeforeLe⟩, ?_⟩
      intro pc instruction hget hthrow
      cases pc with
      | zero =>
        cases hget
        exact ⟨u, hu, hstate.trans hbeforeLe, hnext.trans hle⟩
      | succ pc => exact hall pc instruction hget hthrow
    · rw [escapeStep, if_neg hfirst]
      obtain ⟨hlast, hkeep, hall⟩ := ih (apply first input) unwind
      refine ⟨hlast, hkeep, ?_⟩
      intro pc instruction hget hthrow
      cases pc with
      | zero =>
        cases hget
        exact absurd hthrow hfirst
      | succ pc => exact hall pc instruction hget hthrow

/-- The second state of a transfer is above every state an exception escapes with. -/
theorem escapeTransfer_captures (instructions : List I) (raises : Bool) (input : S) :
    (escapeTransfer apply throws instructions raises input).1 =
        stateAt apply instructions input instructions.length ∧
      (∀ pc instruction, instructions[pc]? = some instruction → throws instruction = true →
        stateAt apply instructions input pc ≤
            (escapeTransfer apply throws instructions raises input).2 ∧
          stateAt apply instructions input (pc + 1) ≤
            (escapeTransfer apply throws instructions raises input).2) ∧
      (raises = true → stateAt apply instructions input instructions.length ≤
        (escapeTransfer apply throws instructions raises input).2) := by
  obtain ⟨hlast, -, hall⟩ :=
    foldl_escapeStep_captures apply throws instructions input none
  refine ⟨hlast, fun pc instruction hget hthrow => ?_, fun hraises => ?_⟩
  · obtain ⟨u, hu, hbefore, hafter⟩ := hall pc instruction hget hthrow
    unfold escapeTransfer
    simp only [hu]
    cases raises with
    | false => exact ⟨hbefore, hafter⟩
    | true => exact ⟨hbefore.trans le_sup_left, hafter.trans le_sup_left⟩
  · obtain ⟨u, hu, hstate, -⟩ := le_mergeFact
      (instructions.foldl (escapeStep apply throws) (input, none)).2
      (stateAt apply instructions input instructions.length)
    unfold escapeTransfer
    simp only [hraises, if_true, hlast, hu]
    exact hstate

end

end zl.fixpoint
