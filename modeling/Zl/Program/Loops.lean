import Mathlib.Algebra.Order.Ring.Int

namespace zl.program

variable {σ ε α β : Type}

/-- A program over states `σ` that may raise an `ε`: what it ends with when each loop may take so many
    rounds, and nothing when a loop needs more. -/
def Program (σ ε α : Type) : Type := Nat → σ → Option (Except ε α × σ)

/-- What a round of a loop comes to: another round with these locals, or the loop's result. -/
inductive Round (β α : Type) where
  | next (locals : β)
  | leave (result : α)

namespace Program

instance : Monad (Program σ ε) where
  pure a := fun _ s => some (.ok a, s)
  bind p f := fun rounds s =>
    match p rounds s with
    | some (.ok a, s) => f a rounds s
    | some (.error e, s) => some (.error e, s)
    | none => none

theorem bind_apply (p : Program σ ε α) (f : α → Program σ ε β) (rounds : Nat) (s : σ) :
    (p >>= f) rounds s =
      match p rounds s with
      | some (.ok a, s) => f a rounds s
      | some (.error e, s) => some (.error e, s)
      | none => none :=
  rfl

def raise (e : ε) : Program σ ε α := fun _ s => some (.error e, s)

/-- What has an answer, or raises. -/
def answer (r : Except ε α) : Program σ ε α := fun _ s => some (r, s)

/-- A step from the state alone: a write, or code that is given. -/
def step (f : σ → Except ε α × σ) : Program σ ε α := fun _ s => some (f s)

def loopRounds (body : β → Program σ ε (Round β α)) (rounds : Nat) :
    Nat → β → σ → Option (Except ε α × σ)
  | 0, _, _ => none
  | left + 1, locals, s =>
    match body locals rounds s with
    | some (.ok (.next locals), s) => loopRounds body rounds left locals s
    | some (.ok (.leave result), s) => some (.ok result, s)
    | some (.error e, s) => some (.error e, s)
    | none => none

/-- A loop that its body leaves, or an exception. -/
def loop (body : β → Program σ ε (Round β α)) (locals : β) : Program σ ε α :=
  fun rounds s => loopRounds body rounds rounds locals s

def whileRound (condition : β → Program σ ε Bool) (body : β → Program σ ε β) (locals : β) :
    Program σ ε (Round β β) := do
  if ← condition locals then return .next (← body locals) else return .leave locals

def whileLoop (condition : β → Program σ ε Bool) (body : β → Program σ ε β) (locals : β) :
    Program σ ε β :=
  loop (whileRound condition body) locals

def forRounds (body : Int → β → Program σ ε (Round β α)) :
    Nat → Int → β → Program σ ε (Round β α)
  | 0, _, locals => pure (.next locals)
  | left + 1, i, locals => do
    match ← body i locals with
    | .next locals => forRounds body left (i + 1) locals
    | .leave result => return .leave result

/-- `for i in start..stop`, with `stop` read once. The body may return from around the loop. -/
def forRange (start stop : Int) (body : Int → β → Program σ ε (Round β α)) (locals : β) :
    Program σ ε (Round β α) :=
  forRounds body (stop - start).toNat start locals

/-- A `for` loop whose body does not return. -/
def forLoop (start stop : Int) (body : Int → β → Program σ ε β) (locals : β) : Program σ ε β := do
  match ← forRange start stop (fun i locals => do return Round.next (← body i locals)) locals with
  | .next locals => return locals
  | .leave locals => return locals

end Program

/-- The place of the first item with a property, unless an item up to it raises. -/
def firstPlace {X : Type} (p : X → Except ε Bool) : List X → Except ε (Option Nat)
  | [] => .ok none
  | x :: l =>
    match p x with
    | .ok true => .ok (some 0)
    | .ok false => (firstPlace p l).map (·.map (· + 1))
    | .error e => .error e

theorem firstPlace_cases {X : Type} (p : X → Except ε Bool) (l : List X) :
    ((∀ y ∈ l, p y = .ok false) ∧ firstPlace p l = .ok none) ∨
      ∃ a x b, l = a ++ x :: b ∧ (∀ y ∈ a, p y = .ok false) ∧
        (p x = .ok true ∧ firstPlace p l = .ok (some a.length) ∨
          ∃ e, p x = .error e ∧ firstPlace p l = .error e) := by
  induction l with
  | nil => exact .inl ⟨nofun, rfl⟩
  | cons x l ih =>
    rw [firstPlace]
    match hx : p x with
    | .ok true => exact .inr ⟨[], x, l, rfl, nofun, .inl ⟨hx, rfl⟩⟩
    | .error e => exact .inr ⟨[], x, l, rfl, nofun, .inr ⟨e, hx, rfl⟩⟩
    | .ok false =>
      rcases ih with ⟨hnone, hplace⟩ | ⟨a, y, b, rfl, ha, hy⟩
      · exact .inl ⟨List.forall_mem_cons.mpr ⟨hx, hnone⟩, by rw [hplace]; rfl⟩
      · refine .inr ⟨x :: a, y, b, rfl, List.forall_mem_cons.mpr ⟨hx, ha⟩, ?_⟩
        rcases hy with ⟨hy, hplace⟩ | ⟨e, hy, hplace⟩
        · exact .inl ⟨hy, by rw [hplace]; rfl⟩
        · exact .inr ⟨e, hy, by rw [hplace]; rfl⟩

open Program

/-- From a state the program ends with this result and in this state, if its loops may take enough
    rounds. -/
def Ends (p : Program σ ε α) (s : σ) (r : Except ε α) (s' : σ) : Prop :=
  ∃ n, ∀ rounds, n ≤ rounds → p rounds s = some (r, s')

/-- How a loop with these locals ends. -/
def LoopEnds (body : β → Program σ ε (Round β α)) (locals : β) (s : σ) (r : Except ε α) (s' : σ) :
    Prop :=
  ∃ n, ∀ rounds, n ≤ rounds → ∀ left, n ≤ left → loopRounds body rounds left locals s = some (r, s')

section
variable {p : Program σ ε α} {f : α → Program σ ε β} {s s' s'' : σ}

theorem Ends.unique {r r' : Except ε α} (h : Ends p s r s') (h' : Ends p s r' s'') :
    r = r' ∧ s' = s'' := by
  obtain ⟨n, hn⟩ := h
  obtain ⟨m, hm⟩ := h'
  have heq := (hn (max n m) (le_max_left n m)).symm.trans (hm (max n m) (le_max_right n m))
  simpa using heq

theorem ends_pure (a : α) (s : σ) : Ends (pure a : Program σ ε α) s (.ok a) s := ⟨0, fun _ _ => rfl⟩

theorem ends_raise (e : ε) (s : σ) : Ends (raise e : Program σ ε α) s (.error e) s :=
  ⟨0, fun _ _ => rfl⟩

theorem ends_answer (r : Except ε α) (s : σ) : Ends (answer r : Program σ ε α) s r s :=
  ⟨0, fun _ _ => rfl⟩

theorem ends_step (g : σ → Except ε α × σ) (s : σ) : Ends (step g) s (g s).1 (g s).2 :=
  ⟨0, fun _ _ => rfl⟩

theorem ends_step_of_eq {g : σ → Except ε α × σ} {r : Except ε α} (h : g s = (r, s')) :
    Ends (step g) s r s' := by
  simpa only [h] using ends_step g s

theorem Ends.bind {a : α} {r : Except ε β} (h : Ends p s (.ok a) s') (hf : Ends (f a) s' r s'') :
    Ends (p >>= f) s r s'' := by
  obtain ⟨n, hn⟩ := h
  obtain ⟨m, hm⟩ := hf
  refine ⟨max n m, fun rounds hrounds => ?_⟩
  rw [bind_apply, hn rounds (le_trans (le_max_left n m) hrounds)]
  exact hm rounds (le_trans (le_max_right n m) hrounds)

theorem Ends.bind_error {e : ε} (h : Ends p s (.error e) s') : Ends (p >>= f) s (.error e) s' := by
  obtain ⟨n, hn⟩ := h
  refine ⟨n, fun rounds hrounds => ?_⟩
  rw [bind_apply, hn rounds hrounds]

end

/-- What holds of a result and the state: one thing if it was returned, another if it was raised. -/
def Holds (returned : α → σ → Prop) (raised : ε → σ → Prop) : Except ε α → σ → Prop
  | .ok a, s => returned a s
  | .error e, s => raised e s

/-- From a state the program ends, with a result that these hold of. -/
def Spec (p : Program σ ε α) (s : σ) (returned : α → σ → Prop) (raised : ε → σ → Prop) : Prop :=
  ∃ r s', Ends p s r s' ∧ Holds returned raised r s'

def Round.Holds (next : β → Prop) (leave : α → Prop) : Round β α → Prop
  | .next locals => next locals
  | .leave result => leave result

section
variable {p : Program σ ε α} {f : α → Program σ ε β} {s s' : σ} {returned : α → σ → Prop}
  {raised : ε → σ → Prop}

theorem Ends.spec {a : α} (h : Ends p s (.ok a) s') (hreturned : returned a s') :
    Spec p s returned raised :=
  ⟨_, _, h, hreturned⟩

theorem Ends.spec_error {e : ε} (h : Ends p s (.error e) s') (hraised : raised e s') :
    Spec p s returned raised :=
  ⟨_, _, h, hraised⟩

theorem Spec.bind {returned : β → σ → Prop}
    (h : Spec p s (fun a s' => Spec (f a) s' returned raised) raised) :
    Spec (p >>= f) s returned raised := by
  obtain ⟨r, s', hends, hpost⟩ := h
  cases r with
  | ok a =>
    obtain ⟨r, s'', hf, hpost⟩ := hpost
    exact ⟨r, s'', hends.bind hf, hpost⟩
  | error e => exact ⟨_, _, hends.bind_error, hpost⟩

theorem Ends.spec_bind {a : α} {returned : β → σ → Prop} (h : Ends p s (.ok a) s')
    (hf : Spec (f a) s' returned raised) : Spec (p >>= f) s returned raised :=
  (h.spec hf).bind

theorem Spec.mono {returned' : α → σ → Prop} {raised' : ε → σ → Prop} (h : Spec p s returned raised)
    (hreturned : ∀ a s', returned a s' → returned' a s')
    (hraised : ∀ e s', raised e s' → raised' e s') : Spec p s returned' raised' := by
  obtain ⟨r, s', hends, hpost⟩ := h
  cases r with
  | ok a => exact ⟨_, _, hends, hreturned a s' hpost⟩
  | error e => exact ⟨_, _, hends, hraised e s' hpost⟩

end

section
variable {body : β → Program σ ε (Round β α)} {locals locals' : β} {s s' s'' : σ} {r : Except ε α}

theorem LoopEnds.ends (h : LoopEnds body locals s r s') : Ends (loop body locals) s r s' := by
  obtain ⟨n, hn⟩ := h
  exact ⟨n, fun rounds hrounds => hn rounds hrounds rounds hrounds⟩

theorem LoopEnds.next (hbody : Ends (body locals) s (.ok (.next locals')) s')
    (h : LoopEnds body locals' s' r s'') : LoopEnds body locals s r s'' := by
  obtain ⟨n, hn⟩ := hbody
  obtain ⟨m, hm⟩ := h
  refine ⟨max n m + 1, fun rounds hrounds left hleft => ?_⟩
  obtain ⟨left, rfl⟩ : ∃ k, left = k + 1 := ⟨left - 1, by omega⟩
  rw [loopRounds, hn rounds (by omega)]
  exact hm rounds (by omega) left (by omega)

theorem LoopEnds.leave {result : α} (hbody : Ends (body locals) s (.ok (.leave result)) s') :
    LoopEnds body locals s (.ok result) s' := by
  obtain ⟨n, hn⟩ := hbody
  refine ⟨n + 1, fun rounds hrounds left hleft => ?_⟩
  obtain ⟨left, rfl⟩ : ∃ k, left = k + 1 := ⟨left - 1, by omega⟩
  rw [loopRounds, hn rounds (by omega)]

theorem LoopEnds.error {e : ε} (hbody : Ends (body locals) s (.error e) s') :
    LoopEnds body locals s (.error e) s' := by
  obtain ⟨n, hn⟩ := hbody
  refine ⟨n + 1, fun rounds hrounds left hleft => ?_⟩
  obtain ⟨left, rfl⟩ : ∃ k, left = k + 1 := ⟨left - 1, by omega⟩
  rw [loopRounds, hn rounds (by omega)]

/-- A loop that goes through these locals and states ends as it does from the last of them. -/
theorem LoopEnds.of_rounds {n : Nat} (locals : Nat → β) (states : Nat → σ)
    (hround : ∀ k < n, Ends (body (locals k)) (states k) (.ok (.next (locals (k + 1)))) (states (k + 1)))
    (hlast : LoopEnds body (locals n) (states n) r s') :
    LoopEnds body (locals 0) (states 0) r s' := by
  induction n generalizing locals states with
  | zero => exact hlast
  | succ n ih =>
    refine .next (hround 0 (Nat.succ_pos n)) ?_
    exact ih (fun k => locals (k + 1)) (fun k => states (k + 1))
      (fun k hk => hround (k + 1) (Nat.succ_lt_succ hk)) hlast

/-- The rule of invariants: rounds that keep the invariant and come down in measure end the loop. -/
theorem spec_loop {returned : α → σ → Prop} {raised : ε → σ → Prop} (invariant : β → σ → Prop)
    (measure : β → σ → Nat) (hbody : ∀ locals s, invariant locals s → Spec (body locals) s
      (fun round s' => round.Holds
        (fun locals' => invariant locals' s' ∧ measure locals' s' < measure locals s)
        (fun result => returned result s')) raised)
    (hstart : invariant locals s) : Spec (loop body locals) s returned raised := by
  have hends : ∀ n locals s, measure locals s = n → invariant locals s →
      ∃ r s', LoopEnds body locals s r s' ∧ Holds returned raised r s' := by
    intro n
    induction n using Nat.strong_induction_on with
    | _ n ih =>
      rintro locals s rfl hinvariant
      obtain ⟨r, s', hends, hpost⟩ := hbody locals s hinvariant
      match r, hends, hpost with
      | .ok (.next locals'), hends, hpost =>
        obtain ⟨r, s'', hloop, hpost⟩ := ih _ hpost.2 locals' s' rfl hpost.1
        exact ⟨r, s'', .next hends hloop, hpost⟩
      | .ok (.leave result), hends, hpost => exact ⟨_, _, .leave hends, hpost⟩
      | .error e, hends, hpost => exact ⟨_, _, .error hends, hpost⟩
  obtain ⟨r, s', hloop, hpost⟩ := hends _ locals s rfl hstart
  exact ⟨r, s', hloop.ends, hpost⟩

end

section
variable {condition : β → Program σ ε Bool} {body : β → Program σ ε β} {locals locals' : β}
  {s s' s'' : σ}

/-- A round of a `while` loop that goes on. -/
theorem ends_whileRound (hcondition : Ends (condition locals) s (.ok true) s')
    (hbody : Ends (body locals) s' (.ok locals') s'') :
    Ends (whileRound condition body locals) s (.ok (.next locals')) s'' :=
  hcondition.bind (hbody.bind (ends_pure (Round.next _) _))

/-- How a `while` loop with these locals ends. -/
abbrev WhileEnds (condition : β → Program σ ε Bool) (body : β → Program σ ε β) :
    β → σ → Except ε β → σ → Prop :=
  LoopEnds (whileRound condition body)

theorem WhileEnds.next {r : Except ε β} {t : σ} (hcondition : Ends (condition locals) s (.ok true) s')
    (hbody : Ends (body locals) s' (.ok locals') s'')
    (h : WhileEnds condition body locals' s'' r t) : WhileEnds condition body locals s r t :=
  LoopEnds.next (ends_whileRound hcondition hbody) h

theorem WhileEnds.leave (hcondition : Ends (condition locals) s (.ok false) s') :
    WhileEnds condition body locals s (.ok locals) s' :=
  LoopEnds.leave (hcondition.bind (ends_pure (Round.leave _) _))

theorem WhileEnds.condition_error {e : ε} (hcondition : Ends (condition locals) s (.error e) s') :
    WhileEnds condition body locals s (.error e) s' :=
  LoopEnds.error hcondition.bind_error

theorem WhileEnds.body_error {e : ε} (hcondition : Ends (condition locals) s (.ok true) s')
    (hbody : Ends (body locals) s' (.error e) s'') :
    WhileEnds condition body locals s (.error e) s'' :=
  LoopEnds.error (hcondition.bind hbody.bind_error)

end

/-- The rule of invariants for a `while` loop. -/
theorem spec_whileLoop {condition : β → Program σ ε Bool} {body : β → Program σ ε β} {b : β} {s : σ}
    {returned : β → σ → Prop} {raised : ε → σ → Prop} (invariant : β → σ → Prop) (measure : β → σ → Nat)
    (hround : ∀ b s, invariant b s → Spec (condition b) s
      (fun more s' =>
        (more = true → Spec (body b) s'
          (fun b' s'' => invariant b' s'' ∧ measure b' s'' < measure b s) raised) ∧
        (more = false → returned b s')) raised)
    (hstart : invariant b s) : Spec (whileLoop condition body b) s returned raised := by
  refine spec_loop invariant measure (fun b s h => ?_) hstart
  refine ((hround b s h).mono (fun more s' hmore => ?_) fun _ _ h => h).bind
  cases more with
  | true =>
    refine ((hmore.1 rfl).mono (fun b' s'' h' => ?_) fun _ _ h => h).bind
    exact (ends_pure (Round.next b') _).spec h'
  | false => exact (ends_pure (Round.leave b) _).spec (hmore.2 rfl)

section
variable {body : Int → β → Program σ ε (Round β α)} {s' : σ} {start : Int}
variable {stop : Int} {n : Nat}

/-- A `for` loop that goes through these locals and states ends as it does from the last of them. -/
theorem ends_forRounds_add {n m : Nat} (locals : Nat → β) (states : Nat → σ) {r : Except ε (Round β α)}
    (hround : ∀ k < n, Ends (body (start + k) (locals k)) (states k) (.ok (.next (locals (k + 1))))
      (states (k + 1)))
    (hrest : Ends (forRounds body m (start + n) (locals n)) (states n) r s') :
    Ends (forRounds body (n + m) start (locals 0)) (states 0) r s' := by
  induction n generalizing locals states start with
  | zero => simpa using hrest
  | succ n ih =>
    rw [Nat.succ_add, forRounds]
    have hfirst := hround 0 (Nat.succ_pos n)
    rw [Nat.cast_zero, add_zero] at hfirst
    refine hfirst.bind ?_
    refine ih (fun k => locals (k + 1)) (fun k => states (k + 1)) ?_ ?_
    · intro k hk
      have hk := hround (k + 1) (Nat.succ_lt_succ hk)
      rwa [Nat.cast_succ, add_comm (k : Int) 1, ← add_assoc] at hk
    · rwa [Nat.cast_succ, add_comm (n : Int) 1, ← add_assoc] at hrest

/-- A `for` loop in which no round leaves. -/
theorem ends_forRange (hstop : (stop - start).toNat = n) (locals : Nat → β) (states : Nat → σ)
    (hround : ∀ k < n, Ends (body (start + k) (locals k)) (states k) (.ok (.next (locals (k + 1))))
      (states (k + 1))) :
    Ends (forRange start stop body (locals 0)) (states 0) (.ok (.next (locals n))) (states n) := by
  rw [forRange, hstop]
  have hrest : Ends (forRounds body 0 (start + n) (locals n)) (states n) (.ok (.next (locals n)))
      (states n) := ends_pure _ _
  exact ends_forRounds_add locals states hround hrest

/-- A `for` loop that a round leaves. -/
theorem ends_forRange_leave (hn : n < (stop - start).toNat) (locals : Nat → β) (states : Nat → σ)
    {result : α}
    (hround : ∀ k < n, Ends (body (start + k) (locals k)) (states k) (.ok (.next (locals (k + 1))))
      (states (k + 1)))
    (hlast : Ends (body (start + n) (locals n)) (states n) (.ok (.leave result)) s') :
    Ends (forRange start stop body (locals 0)) (states 0) (.ok (.leave result)) s' := by
  obtain ⟨m, hm⟩ : ∃ m, (stop - start).toNat = n + (m + 1) :=
    ⟨(stop - start).toNat - n - 1, by omega⟩
  rw [forRange, hm]
  exact ends_forRounds_add locals states hround (hlast.bind (ends_pure _ _))

/-- A `for` loop in which a round raises. -/
theorem ends_forRange_error (hn : n < (stop - start).toNat) (locals : Nat → β) (states : Nat → σ) {e : ε}
    (hround : ∀ k < n, Ends (body (start + k) (locals k)) (states k) (.ok (.next (locals (k + 1))))
      (states (k + 1)))
    (hlast : Ends (body (start + n) (locals n)) (states n) (.error e) s') :
    Ends (forRange start stop body (locals 0)) (states 0) (.error e) s' := by
  obtain ⟨m, hm⟩ : ∃ m, (stop - start).toNat = n + (m + 1) :=
    ⟨(stop - start).toNat - n - 1, by omega⟩
  rw [forRange, hm]
  exact ends_forRounds_add locals states hround hlast.bind_error

/-- A `for` loop without a return, as it goes through these locals and states. -/
theorem ends_forLoop {body : Int → β → Program σ ε β} (hstop : (stop - start).toNat = n)
    (locals : Nat → β) (states : Nat → σ)
    (hround : ∀ k < n, Ends (body (start + k) (locals k)) (states k) (.ok (locals (k + 1)))
      (states (k + 1))) :
    Ends (forLoop start stop body (locals 0)) (states 0) (.ok (locals n)) (states n) :=
  (ends_forRange hstop locals states fun k hk => (hround k hk).bind (ends_pure (Round.next _) _)).bind
    (ends_pure _ _)

/-- The rule of invariants for a `for` loop. -/
theorem spec_forLoop {body : Int → β → Program σ ε β} {s : σ} {b : β} {raised : ε → σ → Prop}
    (hstop : (stop - start).toNat = n) (invariant : Nat → β → σ → Prop)
    (hbody : ∀ (k : Nat) (b : β) (s : σ), k < n → invariant k b s →
      Spec (body (start + k) b) s (invariant (k + 1)) raised)
    (hstart : invariant 0 b s) : Spec (forLoop start stop body b) s (invariant n) raised := by
  have hrounds : ∀ (left k : Nat) (b : β) (s : σ), k + left = n → invariant k b s →
      Spec (forRounds (fun i locals => do return Round.next (← body i locals)) left (start + k) b) s
        (fun round s' => round.Holds (invariant n · s') fun _ : β => False) raised := by
    intro left
    induction left with
    | zero =>
      rintro k b s rfl h
      exact (ends_pure _ _).spec h
    | succ left ih =>
      intro k b s hk h
      rw [forRounds]
      refine ((hbody k b s (by omega) h).mono (fun b' s' h' => ?_) fun _ _ h' => h').bind.bind
      refine (ends_pure (Round.next b') _).spec ?_
      have hrest := ih (k + 1) b' s' (by omega) h'
      rwa [Nat.cast_succ, ← add_assoc] at hrest
  have hall := hrounds n 0 b s (Nat.zero_add n) hstart
  rw [Nat.cast_zero, add_zero] at hall
  unfold forLoop forRange
  rw [hstop]
  refine (hall.mono (fun round s' h => ?_) fun _ _ h => h).bind
  cases round with
  | next b' => exact (ends_pure _ _).spec h
  | leave b' => exact h.elim

theorem ends_if (r : Except ε Bool) (s : σ) (yes no : α) :
    Ends (do if ← answer r then return yes else return no : Program σ ε α) s
      (r.map fun b => if b then yes else no) s := by
  match r with
  | .error e => exact (ends_answer _ _).bind_error
  | .ok true => exact (ends_answer _ _).bind (ends_pure yes s)
  | .ok false => exact (ends_answer _ _).bind (ends_pure no s)

theorem ends_unless (r : Except ε Bool) (s : σ) (yes no : α) :
    Ends (do if !(← answer r) then return yes else return no : Program σ ε α) s
      ((r.map not).map fun b => if b then yes else no) s := by
  match r with
  | .error e => exact (ends_answer _ _).bind_error
  | .ok true => exact (ends_answer _ _).bind (ends_pure no s)
  | .ok false => exact (ends_answer _ _).bind (ends_pure yes s)

/-- A search through a list, which changes nothing: the loop leaves at the first item with a property. -/
theorem ends_search {X R : Type} {s : σ} (l : List X) (p : X → Except ε Bool) (found : Nat → α)
    (body : Int → Unit → Program σ ε (Round Unit α)) (result : Option Nat → R)
    {rest : Round Unit α → Program σ ε R} (hbody : ∀ (k : Nat) (x : X), l[k]? = some x →
      Ends (body k ()) s ((p x).map fun yes => if yes then .leave (found k) else .next ()) s)
    (hfound : ∀ k, Ends (rest (.leave (found k))) s (.ok (result (some k))) s)
    (hnone : Ends (rest (.next ())) s (.ok (result none)) s) :
    Ends (forRange 0 (l.length : Int) body () >>= rest) s ((firstPlace p l).map result) s := by
  have hpass : ∀ (k : Nat) (x : X), l[k]? = some x → p x = .ok false →
      Ends (body (0 + k) ()) s (.ok (.next ())) s := by
    intro k x hx hp
    have hround := hbody k x hx
    rw [hp] at hround
    simpa [Except.map] using hround
  rcases firstPlace_cases p l with ⟨hall, hplace⟩ | ⟨a, x, b, rfl, ha, hx⟩
  · rw [hplace]
    refine Ends.bind (ends_forRange (n := l.length) (by omega) (fun _ => ()) (fun _ => s) ?_) hnone
    exact fun k hk => hpass k l[k] (List.getElem?_eq_getElem hk) (hall _ (List.getElem_mem hk))
  · have hlt : a.length < (((a ++ x :: b).length : Int) - 0).toNat := by simp
    have hbefore : ∀ k < a.length, Ends (body (0 + k) ()) s (.ok (.next ())) s := fun k hk =>
      hpass k a[k] (by rw [List.getElem?_append_left hk, List.getElem?_eq_getElem hk])
        (ha _ (List.getElem_mem hk))
    have hround := hbody a.length x (by simp)
    rcases hx with ⟨hx, hplace⟩ | ⟨e, hx, hplace⟩
    · rw [hx] at hround
      rw [hplace]
      exact (ends_forRange_leave hlt (fun _ => ()) (fun _ => s) hbefore
        (by simpa [Except.map] using hround)).bind (hfound a.length)
    · rw [hx] at hround
      rw [hplace]
      exact (ends_forRange_error hlt (fun _ => ()) (fun _ => s) hbefore
        (by simpa [Except.map] using hround)).bind_error

end

end zl.program
