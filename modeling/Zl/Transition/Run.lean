import Mathlib.Data.List.Basic
import Mathlib.Data.Nat.Find
import Mathlib.Order.WellFounded

namespace zl.transition

/-- A finite run of a labelled transition system, with the steps it took listed newest first. Each
    entry holds the state before the step and its label. -/
inductive Run {S A : Type} (init : S → Prop) (step : S → A → S → Prop) : S → List (S × A) → Prop
  | start {s : S} (hinit : init s) : Run init step s []
  | step {s s' : S} {a : A} {past : List (S × A)} (hrun : Run init step s past)
      (hstep : step s a s') : Run init step s' ((s, a) :: past)

section
variable {S A : Type} {init : S → Prop} {step : S → A → S → Prop}
variable {past : List (S × A)} {s : S}

/-- Whatever a step preserves under a condition on the step holds at the end of every run whose
    steps all meet that condition. -/
theorem Run.invariant (inv : S → Prop) (ok : S → A → Prop) (hinit : ∀ s, init s → inv s)
    (hstep : ∀ s a s', inv s → ok s a → step s a s' → inv s') (hrun : Run init step s past)
    (hok : ∀ p ∈ past, ok p.1 p.2) : inv s := by
  induction hrun with
  | start h => exact hinit _ h
  | step _ hs ih =>
    refine hstep _ _ _ (ih fun p hp => hok p (List.mem_cons_of_mem _ hp)) ?_ hs
    exact hok _ List.mem_cons_self

/-- A run whose steps all meet a condition is one of another system when, from the invariant
    states, that system takes the same steps under a renaming of states and labels. -/
theorem Run.map {S' A' : Type} {init' : S' → Prop} {step' : S' → A' → S' → Prop} (f : S → S') (g : A → A')
    (inv : S → Prop) (ok : S → A → Prop) (hinit : ∀ s, init s → inv s)
    (hkeep : ∀ s a s', inv s → ok s a → step s a s' → inv s') (hstart : ∀ s, init s → init' (f s))
    (hsame : ∀ s a s', inv s → ok s a → step s a s' → step' (f s) (g a) (f s'))
    {s : S} {past : List (S × A)} (hrun : Run init step s past) (hok : ∀ p ∈ past, ok p.1 p.2) :
    Run init' step' (f s) (past.map fun p => (f p.1, g p.2)) := by
  induction hrun with
  | start h => exact .start (hstart _ h)
  | @step s s' a past hrun hs ih =>
    have hpast : ∀ p ∈ past, ok p.1 p.2 := fun p hp => hok p (List.mem_cons_of_mem _ hp)
    have hinv : inv s := hrun.invariant inv ok hinit hkeep hpast
    exact .step (ih hpast) (hsame _ _ _ hinv (hok _ List.mem_cons_self) hs)

/-- An invariant of every step, whatever its label, holds at the end of every run. -/
theorem Run.invariant_of_all (inv : S → Prop) (hinit : ∀ s, init s → inv s)
    (hstep : ∀ s a s', inv s → step s a s' → inv s') (hrun : Run init step s past) : inv s :=
  hrun.invariant inv (fun _ _ => True) hinit (fun s a s' h _ => hstep s a s' h) fun _ _ => trivial

/-- A property that no step takes away, once it holds, is never lost on the run. -/
theorem Run.stable (inv : S → Prop) (ok : S → A → Prop) (P : S → Prop) (hinit : ∀ s, init s → inv s)
    (hstep : ∀ s a s', inv s → ok s a → step s a s' → inv s' ∧ (P s → P s'))
    (hrun : Run init step s past) (hok : ∀ p ∈ past, ok p.1 p.2) :
    (s :: past.map Prod.fst).Pairwise fun later earlier => P earlier → P later := by
  induction hrun with
  | start _ => exact List.pairwise_singleton _ _
  | @step s s' a past hrun hs ih =>
    have hpast : ∀ p ∈ past, ok p.1 p.2 := fun p hp => hok p (List.mem_cons_of_mem _ hp)
    have hinv : inv s :=
      hrun.invariant inv ok hinit (fun s a s' h ha hs => (hstep s a s' h ha hs).1) hpast
    have hkept : P s → P s' := (hstep _ _ _ hinv (hok _ List.mem_cons_self) hs).2
    have hpairs := ih hpast
    refine List.pairwise_cons.mpr ⟨fun earlier hearlier hP => hkept ?_, hpairs⟩
    rcases List.mem_cons.mp hearlier with rfl | hearlier
    · exact hP
    · exact (List.pairwise_cons.mp hpairs).1 earlier hearlier hP

/-- When a step from an invariant state leads to a good state exactly if it meets a condition, the
    whole run stays good exactly if all of its steps meet it. -/
theorem Run.good_iff (inv good : S → Prop) (ok : S → A → Prop) (hinit : ∀ s, init s → inv s)
    (hgood : ∀ s, inv s → good s) (hkeep : ∀ s a s', inv s → ok s a → step s a s' → inv s')
    (hbreak : ∀ s a s', inv s → ¬ ok s a → step s a s' → ¬ good s') (hrun : Run init step s past) :
    (good s ∧ ∀ p ∈ past, good p.1) ↔ ∀ p ∈ past, ok p.1 p.2 := by
  constructor
  · induction hrun with
    | start _ => simp
    | @step s s' a past hrun hs ih =>
      rintro ⟨hgood', hpast⟩
      have hok : ∀ p ∈ past, ok p.1 p.2 :=
        ih ⟨hpast _ List.mem_cons_self, fun p hp => hpast p (List.mem_cons_of_mem _ hp)⟩
      have hinv : inv s := hrun.invariant inv ok hinit hkeep hok
      intro p hp
      rcases List.mem_cons.mp hp with rfl | hp
      · by_contra hnot
        exact hbreak _ _ _ hinv hnot hs hgood'
      · exact hok p hp
  · intro hok
    refine ⟨hgood _ (hrun.invariant inv ok hinit hkeep hok), ?_⟩
    induction hrun with
    | start _ => simp
    | @step s s' a past hrun hs ih =>
      have hok' : ∀ p ∈ past, ok p.1 p.2 := fun p hp => hok p (List.mem_cons_of_mem _ hp)
      intro p hp
      rcases List.mem_cons.mp hp with rfl | hp
      · exact hgood _ (hrun.invariant inv ok hinit hkeep hok')
      · exact ih hok' p hp

end

/-- Every event of a history, newest first, is justified by what came before it. -/
def Justified {A : Type} (allowed : A → List A → Prop) : List A → Prop
  | [] => True
  | a :: before => allowed a before ∧ Justified allowed before

section
variable {A : Type} {allowed : A → List A → Prop}

theorem Justified.of_suffix {history later : List A} (h : Justified allowed later)
    (hsuffix : history <:+ later) :
    Justified allowed history := by
  obtain ⟨newer, rfl⟩ := hsuffix
  induction newer with
  | nil => exact h
  | cons a newer ih => exact ih h.2

end

/-- A measure that never rises, and falls at every marked index of a sequence, is marked
    only finitely often. -/
theorem finitely_often_of_descent {A : Type} [Preorder A] [WellFoundedLT A] (measure : Nat → A)
    (marked : Nat → Prop) (hle : ∀ n, measure (n + 1) ≤ measure n)
    (hlt : ∀ n, marked n → measure (n + 1) < measure n) : ∃ N, ∀ n, N ≤ n → ¬ marked n := by
  have hmono (m k : Nat) : measure (m + k) ≤ measure m := by
    induction k with
    | zero => exact le_refl _
    | succ k ih => exact le_trans (hle (m + k)) ih
  have hfrom (a : A) : ∀ m, measure m = a → ∃ N, ∀ n, N ≤ n → ¬ marked n := by
    induction a using WellFoundedLT.induction with
    | ind a ih =>
      intro m hm
      by_cases hmarked : ∃ k, marked (m + k)
      · obtain ⟨k, hk⟩ := hmarked
        have hbelow : measure (m + k + 1) < a := hm ▸ lt_of_lt_of_le (hlt (m + k) hk) (hmono m k)
        exact ih _ hbelow (m + k + 1) rfl
      · refine ⟨m, fun n hn hmarked' => hmarked ⟨n - m, ?_⟩⟩
        rwa [Nat.add_sub_cancel' hn]
  exact hfrom _ 0 rfl

section
variable {S T : Type} {step : S → S} {step' : T → T} {R : S → T → Prop} {ok : S → Prop}
  {measure : S → Nat} {s : S} {t : T}

/-- A step of the first system is one of the second, or none of it while a measure falls. -/
def Stutters (step : S → S) (step' : T → T) (R : S → T → Prop) (ok : S → Prop) (measure : S → Nat) :
    Prop :=
  ∀ s t, R s t → ok s → R (step s) (step' t) ∨ R (step s) t ∧ measure (step s) < measure s

/-- Every state of a run of the first system is related to one of the second. -/
theorem Stutters.forward (h : Stutters step step' R ok measure) (hR : R s t) {n : Nat}
    (hok : ∀ m < n, ok (step^[m] s)) :
    ∃ m ≤ n, R (step^[n] s) (step'^[m] t) := by
  induction n with
  | zero => exact ⟨0, Nat.le_refl 0, hR⟩
  | succ n ih =>
    obtain ⟨m, hm, hrelated⟩ := ih fun k hk => hok k (Nat.lt_succ_of_lt hk)
    rw [Function.iterate_succ_apply']
    rcases h _ _ hrelated (hok n n.lt_succ_self) with hboth | ⟨hone, -⟩
    · exact ⟨m + 1, Nat.succ_le_succ hm, by rwa [Function.iterate_succ_apply']⟩
    · exact ⟨m, Nat.le_succ_of_le hm, hone⟩

/-- The first system cannot stay behind for ever. -/
theorem Stutters.catchUp (h : Stutters step step' R ok measure) (hR : R s t) (hok : ∀ n, ok (step^[n] s)) :
    ∃ n, R (step^[n + 1] s) (step' t) := by
  obtain ⟨bound, hbound⟩ : ∃ bound, measure s ≤ bound := ⟨measure s, Nat.le_refl _⟩
  induction bound generalizing s with
  | zero =>
    rcases h s t hR (hok 0) with hboth | ⟨-, hlt⟩
    · exact ⟨0, hboth⟩
    · omega
  | succ bound ih =>
    rcases h s t hR (hok 0) with hboth | ⟨hone, hlt⟩
    · exact ⟨0, hboth⟩
    · obtain ⟨n, hn⟩ := ih hone (fun n => hok (n + 1)) (by omega)
      exact ⟨n + 1, hn⟩

/-- Every state of a run of the second system is related to one of the first. -/
theorem Stutters.backward (h : Stutters step step' R ok measure) (hR : R s t)
    (hok : ∀ n, ok (step^[n] s)) (m : Nat) :
    ∃ n ≥ m, R (step^[n] s) (step'^[m] t) := by
  induction m with
  | zero => exact ⟨0, Nat.le_refl 0, hR⟩
  | succ m ih =>
    obtain ⟨n, hn, hrelated⟩ := ih
    obtain ⟨k, hk⟩ := h.catchUp hrelated fun k => by
      rw [← Function.iterate_add_apply]
      exact hok (k + n)
    refine ⟨k + 1 + n, by omega, ?_⟩
    rw [Function.iterate_add_apply, Function.iterate_succ_apply' step']
    exact hk

end

section
variable {S : Type} {run run' run'' : Nat → S} {idle idle' : S → Prop}

/-- A run that leaves out idle states of another run, and nothing else. -/
def Skips (run run' : Nat → S) (idle : S → Prop) : Prop :=
  ∃ place : Nat → Nat, StrictMono place ∧ place 0 = 0 ∧ (∀ n, run' n = run (place n)) ∧
    ∀ n k, place n < k → k < place (n + 1) → idle (run k)

theorem Skips.refl (run : Nat → S) (idle : S → Prop) : Skips run run idle :=
  ⟨id, strictMono_id, rfl, fun _ => rfl, fun _ _ hlt hgt => absurd hgt (Nat.not_lt.mpr hlt)⟩

theorem Skips.trans (h : Skips run run' idle) (h' : Skips run' run'' idle') (hidle : ∀ s, idle' s →
      idle s) : Skips run run'' idle := by
  obtain ⟨place, hmono, hzero, hsame, hbetween⟩ := h
  obtain ⟨place', hmono', hzero', hsame', hbetween'⟩ := h'
  refine ⟨place ∘ place', hmono.comp hmono', (congrArg place hzero').trans hzero, fun n =>
    (hsame' n).trans (hsame _), fun n k hlt hgt => ?_⟩
  -- The state lies at a state of the middle run, or between two of them.
  obtain ⟨m, hm, hle, hnext⟩ : ∃ m, place' n ≤ m ∧ place m ≤ k ∧ k < place (m + 1) := by
    have hexists : ∃ m, k < place m := ⟨place' (n + 1), hgt⟩
    obtain ⟨m, hfound, hfirst⟩ : ∃ m, k < place m ∧ ∀ j < m, ¬k < place j :=
      ⟨Nat.find hexists, Nat.find_spec hexists, fun j hj => Nat.find_min hexists hj⟩
    have hpos : place' n < m := hmono.lt_iff_lt.mp (hlt.trans hfound)
    obtain ⟨m, rfl⟩ := Nat.exists_eq_succ_of_ne_zero (Nat.ne_zero_of_lt hpos)
    exact ⟨m, Nat.lt_succ_iff.mp hpos, Nat.not_lt.mp (hfirst m m.lt_succ_self), hfound⟩
  by_cases heq : k = place m
  · subst heq
    rw [← hsame]
    exact hidle _ (hbetween' n m (hmono.lt_iff_lt.mp hlt) (hmono.lt_iff_lt.mp hgt))
  · exact hbetween m k (lt_of_le_of_ne hle (Ne.symm heq)) hnext

theorem skips_of_steps {step step' : S → S} {s : S}
    (h : ∀ n, ∃ k, step' (step^[n] s) = step^[n + k + 1] s ∧ ∀ j, n < j → j < n + k + 1 →
      idle (step^[j] s)) : Skips (fun n => step^[n] s) (fun n => step'^[n] s) idle := by
  choose more hstep hbetween using h
  let place (n : Nat) : Nat := (fun m => m + more m + 1)^[n] 0
  have hnext (n : Nat) : place (n + 1) = place n + more (place n) + 1 := Function.iterate_succ_apply' ..
  refine ⟨place, strictMono_nat_of_lt_succ
    fun n => by rw [hnext]; omega, rfl, fun n => ?_, fun n k hlt hgt => ?_⟩
  · induction n with
    | zero => rfl
    | succ n ih =>
      dsimp only at ih ⊢
      rw [Function.iterate_succ_apply', ih, hstep, hnext]
  · rw [hnext] at hgt
    exact hbetween (place n) k hlt hgt

end

end zl.transition
