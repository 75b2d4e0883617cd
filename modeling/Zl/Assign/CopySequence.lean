import Mathlib.Data.Set.Basic

namespace zl.assign

/-- What a copy reads: a variable or a constant. -/
inductive Source (N V : Type) where
  | var (name : N)
  | const (value : V)
  deriving DecidableEq, Repr

namespace Source

section
variable {N V : Type}

def eval (env : N → V) : Source N V → V
  | var name => env name
  | const value => value

/-- The source a source stands for where every variable has a source of its own. -/
def subst (σ : N → Source N V) : Source N V → Source N V
  | var name => σ name
  | const value => const value

theorem eval_subst (env : N → V) (σ : N → Source N V) (source : Source N V) :
    (source.subst σ).eval env = source.eval fun name => (σ name).eval env := by
  cases source with
  | var name => rfl
  | const value => rfl

/-- Two sources that agree in every environment over plentiful values are the same. -/
theorem eq_of_eval_eq [DecidableEq N] {allowed : N → Set V}
    (hplenty : ∀ name, ∃ v ∈ allowed name, ∃ w ∈ allowed name, v ≠ w) {s t : Source N V}
    (heval : ∀ env : N → V, (∀ name, env name ∈ allowed name) → s.eval env = t.eval env) : s = t := by
  choose first hfirst second hsecond hne using hplenty
  -- Every value can be missed by the environment at any one variable.
  have hmiss : ∀ name v, ∃ env : N → V, (∀ other, env other ∈ allowed other) ∧ env name ≠ v ∧
      ∀ other, other ≠ name → env other = first other := by
    intro name v
    by_cases heq : first name = v
    · refine ⟨Function.update first name (second name), fun other => ?_, ?_, fun other hother => ?_⟩
      · by_cases hother : other = name
        · subst hother
          simpa using hsecond other
        · simpa [Function.update_of_ne hother] using hfirst other
      · rw [Function.update_self, ← heq]
        exact (hne name).symm
      · exact Function.update_of_ne hother _ _
    · exact ⟨first, hfirst, heq, fun _ _ => rfl⟩
  cases s with
  | var m =>
    cases t with
    | var n =>
      by_contra hdiffer
      have hmn : n ≠ m := fun h => hdiffer (h ▸ rfl)
      obtain ⟨env, hallowed, hmissed, hother⟩ := hmiss m (first n)
      have hsame : env m = env n := heval env hallowed
      exact hmissed (hsame.trans (hother n hmn))
    | const w =>
      obtain ⟨env, hallowed, hmissed, -⟩ := hmiss m w
      exact absurd (heval env hallowed) hmissed
  | const v =>
    cases t with
    | var n =>
      obtain ⟨env, hallowed, hmissed, -⟩ := hmiss n v
      exact absurd (heval env hallowed).symm hmissed
    | const w => exact congrArg const (heval first hfirst)

end

end Source

section
variable {N V : Type} [DecidableEq N]

/-- The environment after copies that run one after the other. -/
def runCopies : List (N × Source N V) → (N → V) → N → V
  | [], env => env
  | (name, source) :: copies, env => runCopies copies (Function.update env name (source.eval env))

/-- What each variable holds after the copies, in terms of what it held before. -/
def traceCopies : List (N × Source N V) → (N → Source N V) → N → Source N V
  | [], σ => σ
  | (name, source) :: copies, σ => traceCopies copies (Function.update σ name (source.subst σ))

/-- What each variable holds after the copies, in terms of the start. -/
def traced (copies : List (N × Source N V)) : N → Source N V := traceCopies copies .var

theorem runCopies_trace (copies : List (N × Source N V)) (σ : N → Source N V) (env : N → V) :
    runCopies copies (fun name => (σ name).eval env) =
      fun name => (traceCopies copies σ name).eval env := by
  induction copies generalizing σ with
  | nil => rfl
  | cons copy copies ih =>
    obtain ⟨target, source⟩ := copy
    rw [runCopies, traceCopies, ← ih, ← Source.eval_subst]
    congr 1
    funext name
    by_cases hname : name = target
    · subst hname
      simp
    · simp [Function.update_of_ne hname]

/-- Tracing predicts the run: each variable ends up with the value its traced source had at the
    start. -/
theorem runCopies_eq (copies : List (N × Source N V)) (env : N → V) (name : N) :
    runCopies copies env name = (traced copies name).eval env :=
  congrFun (runCopies_trace copies .var env) name

theorem runCopies_append (first second : List (N × Source N V)) (env : N → V) :
    runCopies (first ++ second) env = runCopies second (runCopies first env) := by
  induction first generalizing env with
  | nil => rfl
  | cons copy first ih => exact ih _

theorem traceCopies_of_notMem {copies : List (N × Source N V)} {name : N}
    (hname : name ∉ copies.map Prod.fst) (σ : N → Source N V) :
    traceCopies copies σ name = σ name := by
  induction copies generalizing σ with
  | nil => rfl
  | cons copy copies ih =>
    obtain ⟨hne, hrest⟩ : name ≠ copy.1 ∧ name ∉ copies.map Prod.fst := by simpa using hname
    rw [traceCopies, ih hrest, Function.update_of_ne hne]

theorem traced_of_notMem {copies : List (N × Source N V)} {name : N}
    (hname : name ∉ copies.map Prod.fst) : traced copies name = .var name :=
  traceCopies_of_notMem hname .var

end

end zl.assign
