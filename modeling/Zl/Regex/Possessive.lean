import Zl.Regex.Moves

open Relation

namespace zl.regex

/-- Where both computations return, they return the same. -/
def Agrees {A : Type} (c c' : Budgeted A) : Prop :=
  ∀ steps out steps', c steps = .ok (out, steps') → Returns c' (· = out)

section
variable {A B : Type} {c c' : Budgeted A}

theorem agrees_pure (a : A) : Agrees (pure a) (pure a) := by
  intro steps out steps' hrun
  cases hrun
  exact returns_pure rfl

theorem agrees_budgetExceeded (what : String) : Agrees c (budgetExceeded what) :=
  fun _ _ _ _ => returns_budgetExceeded what

theorem budgetExceeded_agrees (what : String) : Agrees (budgetExceeded what) c :=
  fun _ _ _ hrun => nomatch hrun

/-- A run of a sequence is a run of its first part and one of the rest. -/
theorem bind_ok {f : A → Budgeted B} {steps steps' : Nat} {b : B} (h : (c >>= f) steps = .ok (b, steps')) :
    ∃ a between, c steps = .ok (a, between) ∧ f a between = .ok (b, steps') := by
  change (c steps >>= fun r => f r.1 r.2) = _ at h
  cases hfirst : c steps with
  | error e =>
    rw [hfirst] at h
    cases h
  | ok r =>
    rw [hfirst] at h
    exact ⟨r.1, r.2, rfl, h⟩

theorem agrees_bind {f f' : A → Budgeted B} (hc : Agrees c c') (hf : ∀ a, Agrees (f a) (f' a)) :
    Agrees (c >>= f) (c' >>= f') := by
  intro steps out steps' hrun
  obtain ⟨a, between, hfirst, hrest⟩ := bind_ok hrun
  refine returns_bind (hc steps a between hfirst) fun a' ha' => ?_
  subst ha'
  exact hf _ between out steps' hrest

theorem agrees_collect {run run' : A → Budgeted (List State)} (h : ∀ a, Agrees (run a) (run' a))
    (l : List A) :
    Agrees (collect run l) (collect run' l) := by
  induction l with
  | nil => exact agrees_pure []
  | cons a rest ih => exact agrees_bind (h a) fun _ => agrees_bind ih fun _ => agrees_pure _

theorem agrees_matchSequence {run run' : Node → State → Budgeted (List State)}
    (h : ∀ n st, Agrees (run n st) (run' n st)) (children : List Node) (st : State) :
    Agrees (matchSequence run children st) (matchSequence run' children st) := by
  induction children generalizing st with
  | nil => exact agrees_pure [st]
  | cons child rest ih => exact agrees_bind (h child st) fun heads => agrees_collect ih heads

theorem agrees_possess {run run' : State → Budgeted (List State)}
    (h : ∀ st, Agrees (run st) (run' st)) (maximum : Option Nat) (fuel : Nat) (st : State) (count : Nat) :
    Agrees (possess run maximum fuel st count) (possess run' maximum fuel st count) := by
  induction fuel generalizing st count with
  | zero => exact budgetExceeded_agrees _
  | succ fuel ih =>
    unfold possess
    split
    · exact agrees_pure _
    · refine agrees_bind (h st) fun next => ?_
      split
      · exact agrees_pure _
      · split
        · exact agrees_pure _
        · exact ih _ _

theorem agrees_matchLookbehind {run run' : State → Budgeted (List State)}
    (h : ∀ st, Agrees (run st) (run' st)) (child : Node) (st : State) :
    Agrees (matchLookbehind run child st) (matchLookbehind run' child st) := by
  unfold matchLookbehind
  split
  · exact agrees_pure _
  · exact agrees_bind (h _) fun _ => agrees_pure _

end

section
variable {tables : UnicodeTables} {text : Bytes}

/-- What a match returns does not depend on the depth that is left, nor on the steps that were used. -/
theorem matchNode_agrees (depth depth' : Nat) :
    (∀ n st, Agrees (matchNode tables text depth n st) (matchNode tables text depth' n st)) ∧
      ∀ child bounds greedy possessive st count,
      Agrees (repeatNode tables text depth child bounds greedy possessive st count)
        (repeatNode tables text depth' child bounds greedy possessive st count) := by
  have hstep : Agrees buyStep buyStep := fun _ _ _ _ _ _ _ _ => rfl
  induction depth generalizing depth' with
  | zero =>
    refine ⟨fun n st => ?_, fun child bounds greedy possessive st count => ?_⟩
    · rw [matchNode]
      intro steps out steps' hrun
      obtain ⟨-, between, -, hrest⟩ := bind_ok hrun
      nomatch hrest
    · rw [repeatNode]
      exact budgetExceeded_agrees _
  | succ depth ih =>
    cases depth' with
    | zero =>
      refine ⟨fun n st => ?_, fun child bounds greedy possessive st count => ?_⟩
      · rw [matchNode.eq_def tables text 0]
        exact fun _ _ _ _ => returns_buyStep (returns_budgetExceeded _)
      · rw [repeatNode.eq_def tables text 0]
        exact agrees_budgetExceeded _
    | succ depth' =>
      obtain ⟨hnode, hrepeat⟩ := ih depth'
      refine ⟨fun n st => ?_, fun child bounds greedy possessive st count => ?_⟩
      · rw [matchNode.eq_def tables text (depth + 1), matchNode.eq_def tables text (depth' + 1)]
        refine agrees_bind hstep fun _ => ?_
        cases n with
        | sequence children => exact agrees_matchSequence hnode children st
        | alternation children => exact agrees_collect (fun child => hnode child st) children
        | group i child => exact agrees_bind (hnode child _) fun _ => agrees_pure _
        | namedGroup i captureName child => exact agrees_bind (hnode child _) fun _ => agrees_pure _
        | atomicGroup child => exact agrees_bind (hnode child st) fun _ => agrees_pure _
        | quantifier bounds greedy possessive child => exact hrepeat child bounds greedy possessive st 0
        | lookahead child => exact agrees_bind (hnode child st) fun _ => agrees_pure _
        | negativeLookahead child => exact agrees_bind (hnode child st) fun _ => agrees_pure _
        | lookbehind child =>
          exact agrees_bind (agrees_matchLookbehind (hnode child) child st) fun _ => agrees_pure _
        | negativeLookbehind child =>
          exact agrees_bind (agrees_matchLookbehind (hnode child) child st) fun _ => agrees_pure _
        | literal | escape | characterClass | any | anchorStart | anchorEnd | backreference =>
            exact agrees_pure _
      · rw [repeatNode.eq_def tables text (depth + 1), repeatNode.eq_def tables text (depth' + 1)]
        dsimp only
        split
        · exact agrees_bind (agrees_possess (hnode child) _ _ _ _) fun _ => agrees_pure _
        · split
          · exact agrees_pure _
          · exact agrees_bind (hnode child st) fun _ =>
              agrees_bind (agrees_collect (fun ns => hrepeat _ _ _ _ ns _) _) fun _ => agrees_pure _

theorem forward_matchNode (depth : Nat) :
    (∀ n st, Returns (matchNode tables text depth n st) fun out => ∀ s ∈ out, st.pos ≤ s.pos) ∧
      ∀ child bounds greedy possessive st count,
      Returns (repeatNode tables text depth child bounds greedy possessive st count)
        fun out => ∀ s ∈ out, st.pos ≤ s.pos :=
  forward_moves.returns_matchNode depth

end

section
variable (tables : UnicodeTables) (text : Bytes)

/-- A match of a node returns these states. -/
def Finds (n : Node) (st : State) (out : List State) : Prop :=
  ∃ depth steps steps', matchNode tables text depth n st steps = .ok (out, steps')

/-- The states that the matches of a node return, as far as they do. -/
noncomputable def found (n : Node) (st : State) : List State := Classical.epsilon (Finds tables text n st)

end

section
variable {tables : UnicodeTables} {text : Bytes} {n child : Node} {st : State}

theorem Finds.unique {out out' : List State} (h : Finds tables text n st out)
    (h' : Finds tables text n st out') : out' = out := by
  obtain ⟨depth, steps, between, hrun⟩ := h
  obtain ⟨depth', steps', between', hrun'⟩ := h'
  exact (matchNode_agrees depth depth').1 n st steps out between hrun steps' out' between' hrun'

theorem returns_found (depth : Nat) (n : Node) (st : State) :
    Returns (matchNode tables text depth n st) (· = found tables text n st) := by
  intro steps out steps' hrun
  have hfinds : Finds tables text n st out := ⟨depth, steps, steps', hrun⟩
  exact (Classical.epsilon_spec ⟨out, hfinds⟩).unique hfinds

end

section
variable (next : State → List State) (bounds : Bounds) (possessive : Bool)

/-- One more iteration. -/
def Iteration (before after : Nat × State) : Prop :=
  after.1 = before.1 + 1 ∧ limitReached bounds.maximum before.1 = false ∧
    after.2 ∈ choices possessive (next before.2) ∧ after.2.pos ≠ before.2.pos

/-- No iteration is possible that consumes, or none is allowed. -/
def Exhausted (count : Nat) (t : State) : Prop :=
  limitReached bounds.maximum count = true ∨ ∀ s ∈ next t, s.pos = t.pos

/-- The first matches of the iterations lead through the minimum of iterations as far as any go,
    or no matches lead through the minimum. -/
def FirstMatchesSuffice (st : State) : Prop :=
  (∃ count t, Iterates next bounds true st count t ∧ bounds.minimum ≤ count ∧
    Exhausted next bounds count t) ∨ ∀ s, ¬Iterates next bounds false st bounds.minimum s

end

section
variable {next : State → List State} {bounds : Bounds} {possessive : Bool} {st : State}

theorem iterates_iff {count : Nat} {t : State} :
    Iterates next bounds possessive st count t ↔
      ReflTransGen (Iteration next bounds possessive) (0, st) (count, t) := by
  constructor
  · intro h
    induction h with
    | start => exact .refl
    | step _ hlimit hmem hpos ih => exact ih.tail ⟨rfl, hlimit, hmem, hpos⟩
  · intro h
    generalize hend : (count, t) = reached at h
    induction h generalizing count t with
    | refl =>
      cases hend
      exact .start
    | @tail before after _ hstep ih =>
      cases hend
      obtain ⟨hcount, hlimit, hmem, hpos⟩ := hstep
      dsimp only at hcount hmem hpos
      rw [hcount]
      exact .step (ih rfl) hlimit hmem hpos

theorem Iterates.through {count fewer : Nat} {t : State}
    (h : Iterates next bounds possessive st count t) (hle : fewer ≤ count) :
    ∃ s, Iterates next bounds possessive st fewer s := by
  induction h with
  | start => exact ⟨st, Nat.le_zero.mp hle ▸ .start⟩
  | step hiterates hlimit hmem hpos ih =>
    rcases Nat.le_succ_iff.mp hle with hle | rfl
    · exact ih hle
    · exact ⟨_, hiterates.step hlimit hmem hpos⟩

/-- A path of iterations starts with one, or is none. -/
theorem minimum_reached_iff {count : Nat} {t : State} (hlimit : limitReached bounds.maximum count = false) :
    (∃ r, ReflTransGen (Iteration next bounds false) (count, t) r ∧ bounds.minimum ≤ r.1) ↔
      bounds.minimum ≤ count ∨ ∃ s ∈ (next t).filter (·.pos ≠ t.pos),
        ∃ r, ReflTransGen (Iteration next bounds false) (count + 1, s) r ∧ bounds.minimum ≤ r.1 := by
  constructor
  · rintro ⟨r, hpath, hr⟩
    rcases hpath.cases_head with rfl | ⟨⟨c, s⟩, ⟨hc, -, hmem, hpos⟩, hrest⟩
    · exact .inl hr
    · cases hc
      exact .inr ⟨s, List.mem_filter.mpr ⟨hmem, decide_eq_true hpos⟩, r, hrest, hr⟩
  · rintro (hcount | ⟨s, hs, r, hpath, hr⟩)
    · exact ⟨_, .refl, hcount⟩
    · obtain ⟨hmem, hpos⟩ := List.mem_filter.mp hs
      exact ⟨r, .head ⟨rfl, hlimit, hmem, of_decide_eq_true hpos⟩ hpath, hr⟩

end

section
variable {tables : UnicodeTables} {text : Bytes} {child : Node} {bounds : Bounds}

theorem returns_collect_nil {A : Type} {run : A → Budgeted (List State)} {l : List A} {P : A → Prop}
    (h : ∀ a ∈ l, Returns (run a) fun out => out = [] ↔ ¬P a) : Returns (collect run l) fun out =>
      out = [] ↔ ∀ a ∈ l, ¬P a := by
  induction l with
  | nil => exact returns_pure (iff_of_true rfl nofun)
  | cons a rest ih =>
    refine returns_bind (h a List.mem_cons_self) fun out hout => ?_
    refine returns_bind (ih fun b hb => h b (List.mem_cons_of_mem a hb)) fun tail htail => returns_pure ?_
    rw [List.append_eq_nil_iff, hout, htail, List.forall_mem_cons]

theorem returns_and {A : Type} {c : Budgeted A} {P Q : A → Prop} (h : Returns c P)
    (h' : Returns c Q) : Returns c fun a => P a ∧ Q a :=
  fun steps out steps' hrun => ⟨h steps out steps' hrun, h' steps out steps' hrun⟩

theorem take_one_append {l l' : List State} (h : l ≠ []) : (l ++ l').take 1 = l.take 1 :=
  List.take_append_of_le_length (List.length_pos_iff.mpr h)

theorem returns_collect_first {A : Type} {run : A → Budgeted (List State)} {a : A} {rest : List A}
    (P : List State → Prop) (h : Returns (run a) fun out => out ≠ [] ∧ P (out.take 1)) :
    Returns (collect run (a :: rest)) fun out => out ≠ [] ∧ P (out.take 1) := by
  refine returns_bind h fun out ⟨hne, hfirst⟩ =>
    returns_bind (fun _ _ _ _ => trivial) fun tail (_ : True) => returns_pure ?_
  rw [take_one_append hne]
  exact ⟨List.append_ne_nil_of_left_ne_nil hne tail, hfirst⟩

/-- A greedy quantifier returns something where some matches lead through the minimum of iterations. -/
theorem returns_greedy_nil (depth : Nat) (t : State) (count : Nat) :
    Returns (repeatNode tables text depth child bounds true false t count) fun out => out = [] ↔
      ¬∃ r, ReflTransGen (Iteration (found tables text child) bounds false) (count, t) r ∧
      bounds.minimum ≤ r.1 := by
  induction depth generalizing t count with
  | zero =>
    rw [repeatNode]
    exact returns_budgetExceeded _
  | succ depth ih =>
    rw [repeatNode.eq_def]
    simp only [Bool.false_eq_true, if_false, if_true]
    split
    next hlimit =>
      have hmin := minimum_le_of_limitReached hlimit
      rw [if_pos hmin]
      exact returns_pure (iff_of_false (by intro h; cases h) fun h => h ⟨_, .refl, hmin⟩)
    next hlimit =>
      rw [minimum_reached_iff (Bool.eq_false_iff.mpr hlimit)]
      refine returns_bind (returns_found depth child t) fun out hout => ?_
      subst hout
      refine returns_bind (returns_collect_nil fun s hs => ih s (count + 1)) fun more hmore =>
        returns_pure ?_
      rw [List.append_eq_nil_iff, hmore, not_or, and_comm]
      refine and_congr ?_ ?_
      · split <;> simp_all
      · simp

/-- The loop of a possessive quantifier goes through first matches, until none is allowed or the
    first one does not consume. -/
theorem returns_possess_end (depth fuel : Nat) (t : State) (count : Nat) :
    Returns (possess (matchNode tables text depth child) bounds.maximum fuel t count) fun r =>
      ReflTransGen (Iteration (found tables text child) bounds true) (count, t) (r.2, r.1) ∧
        (limitReached bounds.maximum r.2 = true ∨ ∀ s ∈ (found tables text child r.1).head?,
          s.pos = r.1.pos) := by
  induction fuel generalizing t count with
  | zero => exact returns_budgetExceeded _
  | succ fuel ih =>
    unfold possess
    split
    next hlimit => exact returns_pure ⟨.refl, .inl hlimit⟩
    next hlimit =>
      refine returns_bind (returns_found depth child t) fun next hnext => ?_
      split
      next => exact returns_pure ⟨.refl, .inr fun s hs => by rw [← hnext] at hs; nomatch hs⟩
      next chosen rest =>
        have hhead : (found tables text child t).head? = some chosen := by rw [← hnext]; rfl
        split
        next hsame =>
          exact returns_pure ⟨.refl, .inr fun s hs => by rw [hhead] at hs; exact Option.some.inj hs ▸ hsame⟩
        next hmoved =>
          intro steps out steps' hrun
          obtain ⟨hpath, hstops⟩ := ih chosen (count + 1) steps out steps' hrun
          have hmem : chosen ∈ choices true (found tables text child t) := by
            rw [← hnext]
            exact List.mem_cons_self
          exact ⟨.head ⟨rfl, Bool.eq_false_iff.mpr hlimit, hmem, hmoved⟩ hpath, hstops⟩

theorem reaches_of_possessive {p q : Nat × State} {next : State → List State}
    (h : ReflTransGen (Iteration next bounds true) p q) :
    ReflTransGen (Iteration next bounds false) p q :=
  ReflTransGen.mono (fun _ _ ⟨hcount, hlimit, hmem, hpos⟩ =>
    ⟨hcount, hlimit, mem_of_mem_choices hmem, hpos⟩) _ _ h

/-- Where first matches lead through the minimum of iterations, a greedy quantifier prefers the
    state they lead to exactly if no other match goes on from there. -/
theorem returns_greedy_first {k count : Nat} {t u : State}
    (hpath : ReflTransGen (Iteration (found tables text child) bounds true) (count, t) (k, u))
    (hk : bounds.minimum ≤ k) (depth : Nat) :
    Returns (repeatNode tables text depth child bounds true false t count) fun out =>
      out.take 1 = [u] ↔ Exhausted (found tables text child) bounds k u := by
  generalize hstart : (count, t) = start at hpath
  induction hpath using ReflTransGen.head_induction_on generalizing count t depth with
  | refl =>
    cases hstart
    cases depth with
    | zero =>
      rw [repeatNode]
      exact returns_budgetExceeded _
    | succ depth =>
      rw [repeatNode.eq_def]
      simp only [Bool.false_eq_true, if_false, if_true, ge_iff_le, if_pos hk]
      split
      next hlimit => exact returns_pure (iff_of_true rfl (.inl hlimit))
      next hlimit =>
        refine returns_bind (returns_and (returns_found depth child u)
          ((forward_matchNode depth).1 child u)) fun out hout => ?_
        obtain ⟨rfl, hforward⟩ := hout
        cases hmoving : (found tables text child u).filter (·.pos ≠ u.pos) with
        | nil =>
          refine returns_bind (returns_pure (P := (· = [])) rfl) fun more hmore =>
            returns_pure (iff_of_true (by rw [hmore]; rfl) (.inr ?_))
          intro s hs
          have hnot := List.filter_eq_nil_iff.mp hmoving s hs
          simpa using hnot
        | cons s rest =>
          obtain ⟨hmem, hmoved⟩ := List.mem_filter.mp
            (hmoving ▸ List.mem_cons_self : s ∈ (found tables text child u).filter (·.pos ≠ u.pos))
          have hmoved : s.pos ≠ u.pos := of_decide_eq_true hmoved
          have hfirst : Returns (repeatNode tables text depth child bounds true false s (k + 1))
              fun out => out ≠ [] ∧ out.take 1 ≠ [u] := by
            intro steps out steps' hrun
            have hnil := returns_greedy_nil depth s (k + 1) steps out steps' hrun
            refine ⟨fun hempty => hnil.mp hempty ⟨_, .refl, Nat.le_succ_of_le hk⟩, fun hu => ?_⟩
            have hmem' : u ∈ out := List.mem_of_mem_take (hu ▸ List.mem_cons_self : u ∈ out.take 1)
            have hback :=
              (forward_matchNode depth).2 child bounds true false s (k + 1) steps out steps' hrun u hmem'
            exact hmoved (Nat.le_antisymm hback (hforward s hmem))
          refine returns_bind (returns_collect_first (· ≠ [u]) hfirst) fun more hmore =>
            returns_pure (iff_of_false ?_ ?_)
          · rw [take_one_append hmore.1]
            exact hmore.2
          · rintro (hmax | hall)
            · exact hlimit hmax
            · exact hmoved (hall s hmem)
  | @head before after hstep hrest ih =>
    cases hstart
    cases depth with
    | zero =>
      rw [repeatNode]
      exact returns_budgetExceeded _
    | succ depth =>
      obtain ⟨c, s⟩ := after
      obtain ⟨hc, hlimit, hmem, hmoved⟩ := hstep
      cases hc
      rw [repeatNode.eq_def]
      simp only [Bool.false_eq_true, if_false, if_true, hlimit]
      refine returns_bind (returns_found depth child t) fun out hout => ?_
      subst hout
      obtain ⟨rest, hmoving⟩ : ∃ rest, (found tables text child t).filter (·.pos ≠ t.pos) =
          s :: rest := by
        rw [choices, if_pos rfl] at hmem
        cases hfound : found tables text child t with
        | nil =>
          rw [hfound] at hmem
          cases hmem
        | cons first others =>
          rw [hfound] at hmem
          obtain rfl := List.mem_singleton.mp hmem
          exact ⟨_, List.filter_cons_of_pos (decide_eq_true hmoved)⟩
      rw [hmoving]
      have hfirst : Returns (repeatNode tables text depth child bounds true false s (count + 1))
        fun out =>
          out ≠ [] ∧ (out.take 1 = [u] ↔ Exhausted (found tables text child) bounds k u) := by
        intro steps out steps' hrun
        refine ⟨fun hempty => ?_, ih depth rfl steps out steps' hrun⟩
        exact (returns_greedy_nil depth s (count + 1) steps out steps' hrun).mp hempty
          ⟨_, reaches_of_possessive hrest, hk⟩
      refine returns_bind (returns_collect_first (· = [u] ↔ _) hfirst) fun more hmore =>
        returns_pure ?_
      rw [take_one_append hmore.1]
      exact hmore.2

end

section
variable {next : State → List State} {bounds : Bounds} {st : State} {k : Nat} {u : State}
  {p q : Nat × State}

theorem iteration_rightUnique : Relator.RightUnique (Iteration next bounds true) := by
  rintro p q q' ⟨hcount, -, hmem, -⟩ ⟨hcount', -, hmem', -⟩
  rw [choices, if_pos rfl] at hmem hmem'
  cases hnext : next p.2 with
  | nil =>
    rw [hnext] at hmem
    nomatch hmem
  | cons first others =>
    rw [hnext] at hmem hmem'
    exact Prod.ext (hcount.trans hcount'.symm)
      ((List.mem_singleton.mp hmem).trans (List.mem_singleton.mp hmem').symm)

theorem not_iteration_of_stops (hstops : limitReached bounds.maximum k = true ∨
      ∀ s ∈ (next u).head?, s.pos = u.pos) :
    ¬Iteration next bounds true (k, u) q := by
  rintro ⟨-, hlimit, hmem, hmoved⟩
  rcases hstops with hmax | hhead
  · exact nomatch hmax.symm.trans hlimit
  · rw [choices, if_pos rfl] at hmem
    cases hnext : next u with
    | nil =>
      rw [hnext] at hmem
      nomatch hmem
    | cons first others =>
      rw [hnext] at hmem hhead
      obtain rfl := List.mem_singleton.mp hmem
      exact hmoved (hhead _ rfl)

theorem Exhausted.stops (h : Exhausted next bounds k u) : limitReached bounds.maximum k = true ∨
    ∀ s ∈ (next u).head?, s.pos = u.pos :=
  h.imp_right fun hall s hs => hall s (List.mem_of_mem_head? hs)

theorem chains_stop_alike (hp : ReflTransGen (Iteration next bounds true) (0, st) p)
    (hq : ReflTransGen (Iteration next bounds true) (0, st) q)
    (hpstops : ∀ r, ¬Iteration next bounds true p r)
    (hqstops : ∀ r, ¬Iteration next bounds true q r) : p = q := by
  rcases ReflTransGen.total_of_right_unique iteration_rightUnique hp hq with hpath | hpath
  · rcases hpath.cases_head with heq | ⟨r, hstep, -⟩
    · exact heq
    · exact absurd hstep (hpstops r)
  · rcases hpath.cases_head with heq | ⟨r, hstep, -⟩
    · exact heq.symm
    · exact absurd hstep (hqstops r)

theorem minimum_iterated_iff :
    (∃ r, ReflTransGen (Iteration next bounds false) (0, st) r ∧ bounds.minimum ≤ r.1) ↔
    ∃ s, Iterates next bounds false st bounds.minimum s := by
  constructor
  · rintro ⟨⟨k, u⟩, hpath, hk⟩
    exact (iterates_iff.mpr hpath).through hk
  · rintro ⟨s, hs⟩
    exact ⟨_, iterates_iff.mp hs, Nat.le_refl _⟩

end

section
variable {tables : UnicodeTables} {text : Bytes} {child : Node} {bounds : Bounds} {st : State}

theorem returns_possessive (depth : Nat) (greedy : Bool) :
    Returns (matchNode tables text depth (.quantifier bounds greedy true child) st) fun out =>
      ∃ k u, ReflTransGen (Iteration (found tables text child) bounds true) (0, st) (k, u) ∧
        (limitReached bounds.maximum k = true ∨ ∀ s ∈ (found tables text child u).head?, s.pos = u.pos) ∧
        out = if bounds.minimum ≤ k then [u] else [] := by
  rw [matchNode.eq_def]
  cases depth with
  | zero => exact returns_buyStep (returns_budgetExceeded _)
  | succ depth =>
    refine returns_buyStep ?_
    dsimp only
    rw [repeatNode.eq_def]
    cases depth with
    | zero => exact returns_budgetExceeded _
    | succ depth => exact returns_bind (returns_possess_end depth _ st 0) fun r hr =>
        returns_pure ⟨_, _, hr.1, hr.2, rfl⟩

theorem returns_atomicGroup {P : List State → Prop} (h : ∀ depth,
      Returns (repeatNode tables text depth child bounds true false st 0) fun out => P (out.take 1))
    (depth : Nat) : Returns (matchNode tables text depth
      (.atomicGroup (.quantifier bounds true false child)) st) P := by
  rw [matchNode.eq_def]
  cases depth with
  | zero => exact returns_buyStep (returns_budgetExceeded _)
  | succ depth =>
    refine returns_buyStep ?_
    dsimp only
    rw [matchNode.eq_def]
    refine returns_bind (Q := fun out => P (out.take 1)) ?_ fun out hout => returns_pure hout
    cases depth with
    | zero => exact returns_buyStep (returns_budgetExceeded _)
    | succ depth => exact returns_buyStep (h depth)

end

/-- A possessive quantifier leads to the states of an atomic group around the greedy one, exactly if
    its first matches suffice. -/
theorem possessive_eq_atomic_iff (tables : UnicodeTables) (text : Bytes) (child : Node)
    (bounds : Bounds) (greedy : Bool) (st : State) (out out' : List State) (hpossessive : Finds tables text
      (.quantifier bounds greedy true child) st out)
    (hatomic : Finds tables text (.atomicGroup (.quantifier bounds true false child)) st out') :
    out = out' ↔ FirstMatchesSuffice (found tables text child) bounds st := by
  obtain ⟨depth, steps, steps', hrun⟩ := hpossessive
  obtain ⟨depth', between, between', hrun'⟩ := hatomic
  obtain ⟨k, u, hpath, hstops, rfl⟩ := returns_possessive depth greedy steps out steps' hrun
  by_cases hk : bounds.minimum ≤ k
  · have hfirst : out' = [u] ↔ Exhausted (found tables text child) bounds k u :=
      returns_atomicGroup (P := (· = [u] ↔ Exhausted (found tables text child) bounds k u))
        (returns_greedy_first hpath hk) depth' between out' between' hrun'
    rw [if_pos hk, eq_comm, hfirst]
    constructor
    · exact fun hexhausted => .inl ⟨k, u, iterates_iff.mpr hpath, hk, hexhausted⟩
    · rintro (⟨count, t, hiterates, -, hexhausted⟩ | hnone)
      · have hsame :=
          chains_stop_alike hpath (iterates_iff.mp hiterates) (fun r => not_iteration_of_stops hstops)
          fun r => not_iteration_of_stops hexhausted.stops
        cases hsame
        exact hexhausted
      · obtain ⟨s, hs⟩ := (iterates_iff.mpr (reaches_of_possessive hpath)).through hk
        exact absurd hs (hnone s)
  · have hnil : out' = [] ↔ ¬∃ s,
        Iterates (found tables text child) bounds false st bounds.minimum s := by
      rw [← minimum_iterated_iff]
      refine returns_atomicGroup (P := fun first => first = [] ↔ _)
        (fun depth => ?_) depth' between out' between' hrun'
      intro steps out steps' hrun
      have htake : out.take 1 = [] ↔ out = [] := by cases out <;> simp
      exact htake.trans (returns_greedy_nil depth st 0 steps out steps' hrun)
    rw [if_neg hk, eq_comm, hnil]
    constructor
    · exact fun hnone => .inr fun s hs => hnone ⟨s, hs⟩
    · rintro (⟨count, t, hiterates, hcount, hexhausted⟩ | hnone)
      · have hsame :=
          chains_stop_alike hpath (iterates_iff.mp hiterates) (fun r => not_iteration_of_stops hstops)
          fun r => not_iteration_of_stops hexhausted.stops
        cases hsame
        exact absurd hcount hk
      · exact fun ⟨s, hs⟩ => hnone s hs

/-- `a{1,}` on the text `aa`. -/
theorem possessive_eq_atomic_iff_letters : [(⟨2, makeCaps 0⟩ : State)] = [⟨2, makeCaps 0⟩] ↔
    FirstMatchesSuffice (found asciiTables [97, 97] (.literal ⟨[97], 97, by decide⟩))
    ⟨1, none, nofun⟩ ⟨0, makeCaps 0⟩ :=
  possessive_eq_atomic_iff asciiTables [97, 97] (.literal ⟨[97], 97, by decide⟩)
    ⟨1, none, nofun⟩ true ⟨0, makeCaps 0⟩ _ _
    ⟨20, 0, _, rfl⟩ ⟨20, 0, _, rfl⟩

/-- On the text `aba`, two iterations of `a|ab` need the second arm first. -/
theorem possessive_misses_atomic : ¬∀ tables text child bounds greedy st out out',
    Finds tables text (.quantifier bounds greedy true child) st out →
    Finds tables text (.atomicGroup (.quantifier bounds true false child)) st out' → out = out' := by
  intro h
  have hsame := h asciiTables [97, 98, 97] (.alternation [.literal ⟨[97], 97, by decide⟩,
    .sequence [.literal ⟨[97], 97, by decide⟩, .literal ⟨[98], 98, by decide⟩]])
    ⟨2, some 2, by decide⟩ true ⟨0, makeCaps 0⟩
    [] [⟨3, makeCaps 0⟩] ⟨20, 0, _, rfl⟩ ⟨20, 0, _, rfl⟩
  nomatch hsame

end zl.regex
