import Mathlib.Logic.Function.Iterate

namespace zl.graph

section
variable {S : Type} {step : S → S} {inside : S → Prop} {s t u : S}

/-- The first state outside of a region that the run from a state comes to. -/
inductive FirstExit (step : S → S) (inside : S → Prop) : S → S → Prop
  | out {s : S} (hout : ¬inside s) : FirstExit step inside s s
  | stay {s t : S} (hin : inside s) (hnext : FirstExit step inside (step s) t) : FirstExit step inside s t

namespace FirstExit

theorem of_inside (h : FirstExit step inside s t) (hs : inside s) :
    FirstExit step inside (step s) t := by
  cases h with
  | out hout => exact absurd hs hout
  | stay _ hnext => exact hnext

theorem unique (h : FirstExit step inside s t) (h' : FirstExit step inside s u) : t = u := by
  induction h with
  | out hout =>
    cases h' with
    | out => rfl
    | stay hin _ => exact absurd hin hout
  | stay hin _ ih =>
    cases h' with
    | out hout => exact absurd hin hout
    | stay _ hnext => exact ih hnext

/-- A run leaves a region by a step from a state inside, which has whatever the steps inside keep. -/
theorem exists_last {P : S → Prop} (h : FirstExit step inside s t) (hs : inside s) (hP : P s)
    (hkeeps : ∀ s, inside s → inside (step s) → P s → P (step s)) :
    ∃ last, inside last ∧ P last ∧ step last = t := by
  induction h with
  | out hout => exact absurd hs hout
  | @stay s t hin hnext ih =>
    by_cases hstep : inside (step s)
    · exact ih hstep (hkeeps s hin hstep hP)
    · cases hnext with
      | out => exact ⟨s, hin, hP, rfl⟩
      | stay hin' _ => exact absurd hin' hstep

end FirstExit

end

end zl.graph
