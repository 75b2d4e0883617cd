import Mathlib.Data.List.Nodup
import Mathlib.Data.List.Perm.Subperm

open Relation

namespace zl.graph

section
variable {A : Type} [DecidableEq A]

/-- Enqueue a vertex unless it was seen before. The state is the work queue, its front first, and
    the vertices seen so far. -/
def visit (state : List A × List A) (v : A) : List A × List A :=
  if v ∈ state.2 then state else (state.1 ++ [v], state.2 ++ [v])

/-- Breadth-first search, cut off after `fuel` vertices taken from the queue. -/
def breadthFirst (next : A → List A) : Nat → List A × List A → List A
  | 0, state => state.2
  | _ + 1, ([], seen) => seen
  | fuel + 1, (current :: work, seen) => breadthFirst next fuel ((next current).foldl visit (work, seen))

/-- The vertices found anew by scanning `vertices`. -/
theorem foldl_visit (vertices work seen : List A) (hseen : seen.Nodup) :
    ∃ fresh, vertices.foldl visit (work, seen) = (work ++ fresh, seen ++ fresh) ∧
      (seen ++ fresh).Nodup ∧ (∀ v ∈ fresh, v ∈ vertices) ∧ ∀ v ∈ vertices, v ∈ seen ++ fresh := by
  induction vertices generalizing work seen with
  | nil => exact ⟨[], by simp, by simpa using hseen, by simp, by simp⟩
  | cons v vertices ih =>
    rw [List.foldl_cons]
    by_cases hv : v ∈ seen
    · obtain ⟨fresh, hfold, hnodup, hsub, hall⟩ := ih work seen hseen
      refine ⟨fresh, by rw [visit, if_pos hv, hfold], hnodup, ?_, ?_⟩
      · exact fun w hw => List.mem_cons_of_mem _ (hsub w hw)
      · intro w hw
        rcases List.mem_cons.mp hw with rfl | hw
        · exact List.mem_append_left _ hv
        · exact hall w hw
    · have hseen' : (seen ++ [v]).Nodup :=
        List.nodup_append.mpr ⟨hseen, List.nodup_singleton v, by
          intro a ha b hb
          rw [List.mem_singleton.mp hb]
          rintro rfl
          exact hv ha⟩
      obtain ⟨fresh, hfold, hnodup, hsub, hall⟩ := ih (work ++ [v]) (seen ++ [v]) hseen'
      refine ⟨v :: fresh, ?_, by simpa using hnodup, ?_, ?_⟩
      · rw [visit, if_neg hv, hfold]
        simp
      · intro w hw
        rcases List.mem_cons.mp hw with rfl | hw
        · exact List.mem_cons_self
        · exact List.mem_cons_of_mem _ (hsub w hw)
      · intro w hw
        rcases List.mem_cons.mp hw with rfl | hw
        · simp
        · simpa using hall w hw

/-- What the search keeps: nothing is queued or seen twice, everything seen is reached from the
    start, and all successors of what left the queue are seen. -/
structure SearchInvariant (next : A → List A) (start work seen : List A) : Prop where
  nodup : seen.Nodup
  work_seen : ∀ v ∈ work, v ∈ seen
  start_seen : ∀ v ∈ start, v ∈ seen
  sound : ∀ v ∈ seen, ∃ s ∈ start, ReflTransGen (fun a b => b ∈ next a) s v
  closed : ∀ v ∈ seen, v ∈ work ∨ ∀ w ∈ next v, w ∈ seen

/-- What a vertex that leaves the work leads to: its successors that are new are seen and wait, wherever
    they are put. -/
structure Scanned (successors work seen work' seen' fresh : List A) : Prop where
  work : work'.Perm (fresh ++ work)
  seen : seen'.Perm (fresh ++ seen)
  nodup : seen'.Nodup
  fresh : ∀ v ∈ fresh, v ∈ successors
  all : ∀ v ∈ successors, v ∈ seen'

omit [DecidableEq A] in
theorem SearchInvariant.step {next : A → List A} {start work seen work' seen' fresh : List A}
    {current : A} (hinv : SearchInvariant next start (current :: work) seen)
    (h : Scanned (next current) work seen work' seen' fresh) :
    SearchInvariant next start work' seen' := by
  have hwork (v : A) : v ∈ work' ↔ v ∈ fresh ∨ v ∈ work := by rw [h.work.mem_iff, List.mem_append]
  have hseen (v : A) : v ∈ seen' ↔ v ∈ fresh ∨ v ∈ seen := by rw [h.seen.mem_iff, List.mem_append]
  refine ⟨h.nodup, fun v hv => ?_, fun v hv => ?_, fun v hv => ?_, fun v hv => ?_⟩
  · exact (hseen v).mpr (((hwork v).mp hv).imp_right fun hv =>
      hinv.work_seen v (List.mem_cons_of_mem _ hv))
  · exact (hseen v).mpr (.inr (hinv.start_seen v hv))
  · rcases (hseen v).mp hv with hv | hv
    · obtain ⟨s, hs, hpath⟩ := hinv.sound current (hinv.work_seen current List.mem_cons_self)
      exact ⟨s, hs, hpath.tail (h.fresh v hv)⟩
    · exact hinv.sound v hv
  · rcases (hseen v).mp hv with hv | hv
    · exact .inl ((hwork v).mpr (.inl hv))
    · rcases hinv.closed v hv with hwaits | hnext
      · rcases List.mem_cons.mp hwaits with rfl | hwaits
        · exact .inr h.all
        · exact .inl ((hwork v).mpr (.inr hwaits))
      · exact .inr fun w hw => (hseen w).mpr (.inr (hnext w hw))

omit [DecidableEq A] in
/-- Once the queue is empty, the vertices seen are those reached from the start. -/
theorem SearchInvariant.mem_iff {next : A → List A} {start seen : List A}
    (hinv : SearchInvariant next start [] seen) {v : A} :
    v ∈ seen ↔ ∃ s ∈ start, ReflTransGen (fun a b => b ∈ next a) s v := by
  refine ⟨hinv.sound v, ?_⟩
  rintro ⟨s, hs, hpath⟩
  induction hpath with
  | refl => exact hinv.start_seen s hs
  | tail _ hedge ih =>
    rcases hinv.closed _ ih with hwork | hnext
    · cases hwork
    · exact hnext _ hedge

omit [DecidableEq A] in
theorem SearchInvariant.length_seen_le {next : A → List A} {start work seen bound : List A}
    (hinv : SearchInvariant next start work seen)
    (hbound : ∀ s ∈ start, ∀ v, ReflTransGen (fun a b => b ∈ next a) s v → v ∈ bound) :
    seen.length ≤ bound.length := by
  refine (List.subperm_of_subset hinv.nodup fun v hv => ?_).length_le
  obtain ⟨s, hs, hpath⟩ := hinv.sound v hv
  exact hbound s hs v hpath

omit [DecidableEq A] in
/-- A search with fuel for every vertex of a bound on what is reachable finds exactly the vertices
    reached from the start: each leaves the work only once. -/
theorem mem_search_iff {next : A → List A} {search : Nat → List A × List A → List A}
    (hzero : ∀ state, search 0 state = state.2) (hempty : ∀ fuel seen, search (fuel + 1) ([], seen) = seen)
    (hstep : ∀ fuel current work seen, seen.Nodup →
      ∃ work' seen' fresh, search (fuel + 1) (current :: work, seen) = search fuel (work', seen') ∧
        Scanned (next current) work seen work' seen' fresh)
    {start bound : List A} (hstart : start.Nodup)
    (hbound : ∀ s ∈ start, ∀ v, ReflTransGen (fun a b => b ∈ next a) s v → v ∈ bound)
    {fuel : Nat} (hfuel : bound.length ≤ fuel) {v : A} :
    v ∈ search fuel (start, start) ↔ ∃ s ∈ start, ReflTransGen (fun a b => b ∈ next a) s v := by
  have hrun : ∀ (fuel : Nat) (work seen : List A), SearchInvariant next start work seen →
      bound.length + work.length ≤ fuel + seen.length →
      (v ∈ search fuel (work, seen) ↔ ∃ s ∈ start, ReflTransGen (fun a b => b ∈ next a) s v) := by
    intro fuel
    induction fuel with
    | zero =>
      intro work seen hinv hmeasure
      have hle := hinv.length_seen_le hbound
      have hwork : work = [] := List.eq_nil_of_length_eq_zero (by omega)
      subst hwork
      rw [hzero]
      exact hinv.mem_iff
    | succ fuel ih =>
      intro work seen hinv hmeasure
      cases work with
      | nil =>
        rw [hempty]
        exact hinv.mem_iff
      | cons current work =>
        obtain ⟨work', seen', fresh, hsearch, hscanned⟩ := hstep fuel current work seen hinv.nodup
        rw [hsearch]
        refine ih _ _ (hinv.step hscanned) ?_
        have hwork := hscanned.work.length_eq
        have hseen := hscanned.seen.length_eq
        simp only [List.length_append, List.length_cons] at hmeasure hwork hseen
        omega
  refine hrun fuel start start ⟨hstart, fun _ h => h, fun _ h => h, ?_, fun _ h => Or.inl h⟩ ?_
  · exact fun v hv => ⟨v, hv, .refl⟩
  · omega

theorem nodup_breadthFirst {next : A → List A} {fuel : Nat} {work seen : List A}
    (hseen : seen.Nodup) : (breadthFirst next fuel (work, seen)).Nodup := by
  induction fuel generalizing work seen with
  | zero => exact hseen
  | succ fuel ih =>
    cases work with
    | nil => exact hseen
    | cons current work =>
      obtain ⟨fresh, hfold, hnodup, -, -⟩ := foldl_visit (next current) work seen hseen
      rw [breadthFirst, hfold]
      exact ih hnodup

theorem mem_breadthFirst_iff {next : A → List A} {start bound : List A} (hstart : start.Nodup)
    (hbound : ∀ s ∈ start, ∀ v, ReflTransGen (fun a b => b ∈ next a) s v → v ∈ bound)
    {fuel : Nat} (hfuel : bound.length ≤ fuel) {v : A} :
    v ∈ breadthFirst next fuel (start, start) ↔
      ∃ s ∈ start, ReflTransGen (fun a b => b ∈ next a) s v := by
  refine mem_search_iff (fun _ => rfl) (fun _ _ => rfl) (fun fuel current work seen hseen => ?_)
    hstart hbound hfuel
  obtain ⟨fresh, hfold, hnodup, hsub, hall⟩ := foldl_visit (next current) work seen hseen
  refine ⟨work ++ fresh, seen ++ fresh, fresh, by rw [breadthFirst, hfold], ?_⟩
  exact ⟨List.perm_append_comm, List.perm_append_comm, hnodup, hsub, hall⟩

end

section
variable {A : Type} [DecidableEq A]

/-- Push a vertex unless it was seen before. The state is the work stack, its top first, and
    the vertices seen so far. -/
def push (state : List A × List A) (v : A) : List A × List A :=
  if v ∈ state.2 then state else (v :: state.1, v :: state.2)

/-- Search from a stack of work, cut off after `fuel` vertices taken from it. -/
def stackSearch (next : A → List A) : Nat → List A × List A → List A
  | 0, state => state.2
  | _ + 1, ([], seen) => seen
  | fuel + 1, (current :: work, seen) => stackSearch next fuel ((next current).foldl push (work, seen))

theorem foldl_push_reverse (vertices work seen : List A) :
    vertices.foldl push (work.reverse, seen.reverse) =
      ((vertices.foldl visit (work, seen)).1.reverse, (vertices.foldl visit (work, seen)).2.reverse) := by
  induction vertices generalizing work seen with
  | nil => rfl
  | cons v vertices ih =>
    rw [List.foldl_cons, List.foldl_cons, push, visit]
    simp only [List.mem_reverse]
    split_ifs with hv
    · exact ih work seen
    · rw [← ih, List.reverse_append, List.reverse_append]
      rfl

/-- The vertices found anew by scanning `vertices`. -/
theorem foldl_push (vertices work seen : List A) (hseen : seen.Nodup) :
    ∃ fresh, vertices.foldl push (work, seen) = (fresh ++ work, fresh ++ seen) ∧
      (fresh ++ seen).Nodup ∧ (∀ v ∈ fresh, v ∈ vertices) ∧ ∀ v ∈ vertices, v ∈ fresh ++ seen := by
  obtain ⟨fresh, hfold, hnodup, hsub, hall⟩ :=
    foldl_visit vertices work.reverse seen.reverse (List.nodup_reverse.mpr hseen)
  have hpush := foldl_push_reverse vertices work.reverse seen.reverse
  rw [hfold] at hpush
  simp only [List.reverse_reverse, List.reverse_append] at hpush
  have hreversed : fresh.reverse ++ seen = (seen.reverse ++ fresh).reverse := by simp
  refine ⟨fresh.reverse, hpush, ?_, fun v hv => hsub v (List.mem_reverse.mp hv), fun v hv => ?_⟩
  · rw [hreversed]
    exact List.nodup_reverse.mpr hnodup
  · rw [hreversed]
    exact List.mem_reverse.mpr (hall v hv)

theorem mem_stackSearch_iff {next : A → List A} {start bound : List A} (hstart : start.Nodup)
    (hbound : ∀ s ∈ start, ∀ v, ReflTransGen (fun a b => b ∈ next a) s v → v ∈ bound)
    {fuel : Nat} (hfuel : bound.length ≤ fuel) {v : A} :
    v ∈ stackSearch next fuel (start, start) ↔
      ∃ s ∈ start, ReflTransGen (fun a b => b ∈ next a) s v := by
  refine mem_search_iff (fun _ => rfl) (fun _ _ => rfl) (fun fuel current work seen hseen => ?_)
    hstart hbound hfuel
  obtain ⟨fresh, hfold, hnodup, hsub, hall⟩ := foldl_push (next current) work seen hseen
  exact ⟨fresh ++ work, fresh ++ seen, fresh, by rw [stackSearch, hfold], .refl _, .refl _, hnodup,
    hsub, hall⟩

end

end zl.graph
