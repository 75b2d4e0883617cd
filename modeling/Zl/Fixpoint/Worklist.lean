import Zl.Fixpoint.RoundRobin

namespace zl.fixpoint

section
variable {A I O E : Type} [DecidableEq A] [DecidableEq O]
variable (gather : (A → Option O) → A → Option I) (transfer : A → I → Except E O)
variable (successors : A → List A)

/-- Solve the vertices of a queue, and queue what follows a vertex whose exit fact changed.
    A vertex may refuse what it is handed. -/
def worklist : Nat → (A → Option O) → List A → Option (Except E (A → Option O))
  | 0, _, _ => none
  | _ + 1, out, [] => some (.ok out)
  | fuel + 1, out, a :: work =>
    match gather out a with
    | none => worklist fuel out work
    | some i =>
      match transfer a i with
      | .error e => some (.error e)
      | .ok o =>
        if out a = some o then worklist fuel out work
        else worklist fuel (Function.update out a (some o)) (work ++ successors a)

/-- A vertex that something reaches has the exit fact that solving it again gives. -/
def Settled (out : A → Option O) (a : A) : Prop :=
  ∀ i, gather out a = some i → ∃ o, transfer a i = .ok o ∧ out a = some o

variable {gather transfer successors}

/-- A queue that holds every unsettled vertex ends with none. -/
theorem worklist_settled
    (hlocal : ∀ out a o b, b ∉ successors a → gather (Function.update out a o) b = gather out b)
    {fuel : Nat} {out r : A → Option O} {work : List A}
    (hend : worklist gather transfer successors fuel out work = some (.ok r))
    (hwork : ∀ a, a ∈ work ∨ Settled gather transfer out a) (a : A) :
    Settled gather transfer r a := by
  induction fuel generalizing out work with
  | zero => nomatch hend
  | succ fuel ih =>
    cases work with
    | nil =>
      obtain rfl := Except.ok.inj (Option.some.inj hend)
      exact (hwork a).resolve_left List.not_mem_nil
    | cons first work =>
      rw [worklist] at hend
      cases hgather : gather out first with
      | none =>
        rw [hgather] at hend
        refine ih hend fun b => ?_
        by_cases hb : b = first
        · refine .inr fun i hi => ?_
          rw [hb, hgather] at hi
          nomatch hi
        · exact (hwork b).imp_left fun hmem => (List.mem_cons.mp hmem).resolve_left hb
      | some i =>
        rw [hgather] at hend
        dsimp only at hend
        cases htransfer : transfer first i with
        | error e =>
          rw [htransfer] at hend
          nomatch hend
        | ok o =>
          rw [htransfer] at hend
          dsimp only at hend
          by_cases hsame : out first = some o
          · rw [if_pos hsame] at hend
            refine ih hend fun b => ?_
            by_cases hb : b = first
            · refine .inr fun j hj => ⟨o, ?_, hb ▸ hsame⟩
              rw [hb, hgather] at hj
              rw [hb, ← Option.some.inj hj, htransfer]
            · exact (hwork b).imp_left fun hmem => (List.mem_cons.mp hmem).resolve_left hb
          · rw [if_neg hsame] at hend
            refine ih hend fun b => ?_
            by_cases hnext : b ∈ successors first
            · exact .inl (List.mem_append_right work hnext)
            · have hkept := hlocal out first (some o) b hnext
              by_cases hb : b = first
              · subst hb
                refine .inr fun j hj => ⟨o, ?_, Function.update_self _ _ _⟩
                rw [hkept, hgather] at hj
                rw [← Option.some.inj hj, htransfer]
              · refine (hwork b).imp (fun hmem => ?_) fun hsettled j hj => ?_
                · exact List.mem_append_left _ ((List.mem_cons.mp hmem).resolve_left hb)
                · rw [hkept] at hj
                  rw [Function.update_of_ne hb]
                  exact hsettled j hj

/-- What every exit fact has that is worked out from such facts, the answer has. -/
theorem worklist_invariant (P : O → Prop)
    (hstep : ∀ out a i o, (∀ b x, out b = some x → P x) → gather out a = some i →
      transfer a i = .ok o → P o)
    {fuel : Nat} {out r : A → Option O} {work : List A} (hout : ∀ b x, out b = some x → P x)
    (hend : worklist gather transfer successors fuel out work = some (.ok r)) :
    ∀ b x, r b = some x → P x := by
  induction fuel generalizing out work with
  | zero => nomatch hend
  | succ fuel ih =>
    cases work with
    | nil =>
      obtain rfl := Except.ok.inj (Option.some.inj hend)
      exact hout
    | cons a work =>
      rw [worklist] at hend
      split at hend
      · exact ih hout hend
      · next i hgather =>
        split at hend
        · nomatch hend
        · next o htransfer =>
          split at hend
          · exact ih hout hend
          · refine ih (fun b x hx => ?_) hend
            by_cases hb : b = a
            · rw [hb, Function.update_self] at hx
              obtain rfl := Option.some.inj hx
              exact hstep out a i o hout hgather htransfer
            · rw [Function.update_of_ne hb] at hx
              exact hout b x hx

/-- More fuel does not change an answer. -/
theorem worklist_add {fuel : Nat} {out : A → Option O} {work : List A} {r : Except E (A → Option O)}
    (hend : worklist gather transfer successors fuel out work = some r) (more : Nat) :
    worklist gather transfer successors (fuel + more) out work = some r := by
  induction fuel generalizing out work with
  | zero => nomatch hend
  | succ fuel ih =>
    rw [Nat.succ_add]
    cases work with
    | nil => exact hend
    | cons a work =>
      rw [worklist] at hend ⊢
      split at hend
      · exact ih hend
      · split at hend
        · exact hend
        · split at hend
          · next hsame =>
            rw [if_pos hsame]
            exact ih hend
          · next hsame =>
            rw [if_neg hsame]
            exact ih hend

/-- A monotone problem with exit facts that rise only a bounded number of times, as far as
    the vertices accept what they are handed. -/
structure Climbing [Preorder I] [PartialOrder O] (gather : (A → Option O) → A → Option I)
    (transfer : A → I → Except E O) (smallIn : I → Prop) (small : O → Prop) (rank : O → Nat)
    (height : Nat) : Prop where
  gather_mono : ∀ out out' a, (∀ b o, out b = some o → small o) →
    (∀ b o, out' b = some o → small o) →
    (∀ b, OptionLe (out b) (out' b)) → OptionLe (gather out a) (gather out' a)
  gather_small : ∀ out a i, (∀ b o, out b = some o → small o) →
    gather out a = some i → smallIn i
  transfer_mono : ∀ a i i' o o', smallIn i → smallIn i' → i ≤ i' → transfer a i = .ok o →
    transfer a i' = .ok o' → o ≤ o'
  transfer_small : ∀ a i o, smallIn i → transfer a i = .ok o → small o
  rank_lt : ∀ o o', small o → small o' → o < o' → rank o < rank o'
  rank_le : ∀ o, small o → rank o ≤ height

/-- What every round keeps: an exit fact came from an entry fact that has only risen since. -/
structure Risen [LE I] (gather : (A → Option O) → A → Option I) (transfer : A → I → Except E O)
    (smallIn : I → Prop) (small : O → Prop) (out : A → Option O) : Prop where
  small : ∀ a o, out a = some o → small o
  post : ∀ a o, out a = some o →
    ∃ i₀ i, smallIn i₀ ∧ transfer a i₀ = .ok o ∧ gather out a = some i ∧ i₀ ≤ i

section
variable [Preorder I] [PartialOrder O] {smallIn : I → Prop} {small : O → Prop} {rank : O → Nat}
  {height : Nat} {out : A → Option O} {a : A} {i : I} {o : O}

omit [DecidableEq A] [DecidableEq O] in
theorem Risen.le (h : Climbing gather transfer smallIn small rank height)
    (hrisen : Risen gather transfer smallIn small out) (hgather : gather out a = some i)
    (htransfer : transfer a i = .ok o) {x : O} (hx : out a = some x) : x ≤ o := by
  obtain ⟨i₀, i', hsmall, hx₀, hi', hle⟩ := hrisen.post a x hx
  rw [hgather] at hi'
  obtain rfl := Option.some.inj hi'
  have hin := h.gather_small out a i hrisen.small hgather
  exact h.transfer_mono a i₀ i x o hsmall hin hle hx₀ htransfer

omit [DecidableEq O] in
theorem Risen.update (h : Climbing gather transfer smallIn small rank height)
    (hrisen : Risen gather transfer smallIn small out) (hgather : gather out a = some i)
    (htransfer : transfer a i = .ok o) :
    Risen gather transfer smallIn small (Function.update out a (some o)) := by
  have hin : smallIn i := h.gather_small out a i hrisen.small hgather
  have hsmall : ∀ b x, Function.update out a (some o) b = some x → small x := by
    intro b x hx
    by_cases hb : b = a
    · rw [hb, Function.update_self] at hx
      obtain rfl := Option.some.inj hx
      exact h.transfer_small a i o hin htransfer
    · rw [Function.update_of_ne hb] at hx
      exact hrisen.small b x hx
  have hup : ∀ b, OptionLe (out b) (Function.update out a (some o) b) := by
    intro b x hx
    by_cases hb : b = a
    · subst hb
      exact ⟨o, Function.update_self _ _ _, hrisen.le h hgather htransfer hx⟩
    · exact ⟨x, by rw [Function.update_of_ne hb, hx], le_refl x⟩
  refine ⟨hsmall, fun b x hx => ?_⟩
  have hrise (j : I) (hj : gather out b = some j) :
      ∃ j', gather (Function.update out a (some o)) b = some j' ∧ j ≤ j' :=
    h.gather_mono _ _ b hrisen.small hsmall hup j hj
  by_cases hb : b = a
  · subst hb
    rw [Function.update_self] at hx
    obtain rfl := Option.some.inj hx
    obtain ⟨j', hj', hle⟩ := hrise i hgather
    exact ⟨i, j', hin, htransfer, hj', hle⟩
  · rw [Function.update_of_ne hb] at hx
    obtain ⟨i₀, j, hi₀, hx₀, hj, hle⟩ := hrisen.post b x hx
    obtain ⟨j', hj', hle'⟩ := hrise j hj
    exact ⟨i₀, j', hi₀, hx₀, hj', le_trans hle hle'⟩

omit [DecidableEq A] [DecidableEq O] in
theorem Climbing.deficit_lt (h : Climbing gather transfer smallIn small rank height)
    {before : Option O} (hsmall : small o) (hbefore : ∀ x, before = some x → small x ∧ x ≤ o)
    (hne : before ≠ some o) : deficit rank height (some o) < deficit rank height before := by
  have hle := h.rank_le o hsmall
  cases before with
  | none =>
    simp only [deficit]
    omega
  | some x =>
    obtain ⟨hx, hxo⟩ := hbefore x rfl
    have hlt : x < o := lt_of_le_of_ne hxo fun heq => hne (by rw [heq])
    have hrank := h.rank_lt x o hx hsmall hlt
    simp only [deficit]
    omega

/-- The queue runs empty: an exit fact that changes comes closer to its height, and a vertex whose
    fact does not leaves the queue for good. -/
theorem worklist_terminates (h : Climbing gather transfer smallIn small rank height) (order : List A)
    (hsuccessors : ∀ a ∈ order, ∀ b ∈ successors a, b ∈ order) (work : List A)
    (hwork : ∀ a ∈ work, a ∈ order) (hrisen : Risen gather transfer smallIn small out) :
    ∃ fuel r, worklist gather transfer successors fuel out work = some r := by
  induction hn : (order.map fun b => deficit rank height (out b)).sum using Nat.strong_induction_on
    generalizing out work with
  | _ n ih =>
    induction work with
    | nil => exact ⟨1, .ok out, rfl⟩
    | cons a work ihWork =>
      have hrest := ihWork fun b hb => hwork b (List.mem_cons_of_mem _ hb)
      have hskip (hstep : ∀ fuel, worklist gather transfer successors (fuel + 1) out (a :: work) =
          worklist gather transfer successors fuel out work) :
          ∃ fuel r, worklist gather transfer successors fuel out (a :: work) = some r := by
        obtain ⟨fuel, r, hr⟩ := hrest
        exact ⟨fuel + 1, r, by rw [hstep, hr]⟩
      cases hgather : gather out a with
      | none => exact hskip fun fuel => by rw [worklist, hgather]
      | some i =>
        cases htransfer : transfer a i with
        | error e => exact ⟨1, .error e, by rw [worklist, hgather]; dsimp only; rw [htransfer]⟩
        | ok o =>
          by_cases hsame : out a = some o
          · refine hskip fun fuel => ?_
            rw [worklist, hgather]
            dsimp only
            rw [htransfer]
            dsimp only
            rw [if_pos hsame]
          · have ha : a ∈ order := hwork a List.mem_cons_self
            have hin := h.gather_small out a i hrisen.small hgather
            have hfewer := h.deficit_lt (h.transfer_small a i o hin htransfer)
              (fun x hx => ⟨hrisen.small a x hx, hrisen.le h hgather htransfer hx⟩) hsame
            have hle (b : A) : deficit rank height (Function.update out a (some o) b) ≤
                deficit rank height (out b) := by
              by_cases hb : b = a
              · rw [hb, Function.update_self]
                exact Nat.le_of_lt hfewer
              · rw [Function.update_of_ne hb]
            have hsaved : deficit rank height (Function.update out a (some o) a) + 1 ≤
                deficit rank height (out a) := by
              rw [Function.update_self]
              exact hfewer
            have hsum := sum_map_add_le ha hle hsaved
            obtain ⟨fuel, r, hr⟩ := ih _ (by omega) (work ++ successors a)
              (fun b hb => (List.mem_append.mp hb).elim
                (fun hmem => hwork b (List.mem_cons_of_mem _ hmem)) (hsuccessors a ha b))
              (hrisen.update h hgather htransfer) rfl
            refine ⟨fuel + 1, r, ?_⟩
            rw [worklist, hgather]
            dsimp only
            rw [htransfer]
            dsimp only
            rw [if_neg hsame, hr]

end

end

end zl.fixpoint
