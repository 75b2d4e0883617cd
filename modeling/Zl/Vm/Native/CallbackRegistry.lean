import Mathlib
import Zl.Transition.Run

open zl.transition

namespace zl.vm.native

/-- The state behind a callback. Every lease is an object of its own, so that the counter of the
    leases in flight has room for all of them. -/
structure NativeCallbackLifetime where
  active : Nat := 0
  closed : Bool := false

namespace NativeCallbackLifetime

def tryAcquire (t : NativeCallbackLifetime) : Option NativeCallbackLifetime :=
  if t.closed then none else some { t with active := t.active + 1 }

def release (t : NativeCallbackLifetime) : NativeCallbackLifetime :=
  if t.active = 0 then t else { t with active := t.active - 1 }

/-- What `close` does before it waits. -/
def shut (t : NativeCallbackLifetime) : NativeCallbackLifetime := { t with closed := true }

theorem tryAcquire_eq_some {t t' : NativeCallbackLifetime} (h : t.tryAcquire = some t') :
    t.closed = false ∧ t'.closed = false ∧ t'.active = t.active + 1 := by
  rw [tryAcquire] at h
  split at h
  · nomatch h
  · next hopen =>
    obtain rfl := Option.some.inj h
    simpa using hopen

@[simp] theorem release_closed (t : NativeCallbackLifetime) : t.release.closed = t.closed := by
  rw [release]
  split <;> rfl

@[simp] theorem release_active (t : NativeCallbackLifetime) : t.release.active = t.active - 1 := by
  rw [release]
  split
  · omega
  · rfl

@[simp] theorem shut_closed (t : NativeCallbackLifetime) : t.shut.closed = true := rfl

@[simp] theorem shut_active (t : NativeCallbackLifetime) : t.shut.active = t.active := rfl

end NativeCallbackLifetime

/-- The lifetimes are numbered in the order in which they were made. A registered callback
    is known by its own. -/
abbrev LifetimeId := Nat

abbrev NativeCallbackRef := UInt64

structure Entry (F : Type) where
  invoke : F
  lifetime : LifetimeId

/-- The registry with the lifetimes it has shared out. -/
structure NativeCallbackRegistry (F : Type) where
  entries : NativeCallbackRef → Option (Entry F) := fun _ => none
  nextId : UInt64 := 1
  lifetimes : LifetimeId → NativeCallbackLifetime := fun _ => {}
  made : LifetimeId := 0

/-- What `invoke` hands to its caller: what the callback returned, -1 with the text of an
    exception, or an exception of another type, which passes through. -/
inductive Answer where
  | returned (code : Int)
  | failed (message : String)
  | rethrown
  deriving DecidableEq, Repr

/-- Where a call stands between two sections that hold a lock. -/
inductive Phase (F : Type) where
  | invoking (ref : NativeCallbackRef)
  | found (e : Entry F)
  | executing (e : Entry F)
  | answering (e : Entry F) (answer : Answer)
  | completed (e : Entry F) (answer : Answer)
  | refused (message : String)
  | closing (ref : NativeCallbackRef)
  | marking (ref : NativeCallbackRef) (l : LifetimeId)
  | draining (ref : NativeCallbackRef) (l : LifetimeId)
  | erasing (ref : NativeCallbackRef) (l : LifetimeId)
  | closed (ref : NativeCallbackRef) (l : LifetimeId)
  | threw (message : String)

namespace NativeCallbackRegistry
variable {F : Type} (r : NativeCallbackRegistry F)

def setLifetime (l : LifetimeId) (t : NativeCallbackLifetime) : NativeCallbackRegistry F :=
  { r with lifetimes := Function.update r.lifetimes l t }

/-- A new lifetime, and an entry for it. An identifier that is taken keeps its entry. -/
def insert (invoke : Option F) : NativeCallbackRegistry F × Except String NativeCallbackRef :=
  match invoke with
  | none => (r, .error "cannot register an empty native callback")
  | some f =>
    let id := if r.nextId = 0 then r.nextId + 1 else r.nextId
    ({ entries := Function.update r.entries id (some ((r.entries id).getD ⟨f, r.made⟩))
       nextId := id + 1
       lifetimes := Function.update r.lifetimes r.made {}
       made := r.made + 1 }, .ok id)

def erase (ref : NativeCallbackRef) : NativeCallbackRegistry F :=
  { r with entries := Function.update r.entries ref none }

/-- The next section of a call. A callback that executes holds no lock, and a close that
    waits runs again only when the last lease is released. -/
def advance : Phase F → Option (NativeCallbackRegistry F × Phase F)
  | .invoking ref =>
    match r.entries ref with
    | none => some (r, .refused "invalid native callback")
    | some e => some (r, .found e)
  | .found e =>
    match (r.lifetimes e.lifetime).tryAcquire with
    | none => some (r, .refused "native callback lifetime is closed")
    | some t => some (r.setLifetime e.lifetime t, .executing e)
  | .answering e answer =>
    some (r.setLifetime e.lifetime (r.lifetimes e.lifetime).release, .completed e answer)
  | .closing ref =>
    match r.entries ref with
    | none => some (r, .threw "invalid native callback")
    | some e => some (r, .marking ref e.lifetime)
  | .marking ref l =>
    if (r.lifetimes l).active = 0 then some (r.setLifetime l (r.lifetimes l).shut, .erasing ref l)
    else some (r.setLifetime l (r.lifetimes l).shut, .draining ref l)
  | .draining ref l => if (r.lifetimes l).active = 0 then some (r, .erasing ref l) else none
  | .erasing ref l => some (r.erase ref, .closed ref l)
  | .executing _ | .completed _ _ | .refused _ | .closed _ _ | .threw _ => none

@[simp] theorem setLifetime_entries (l : LifetimeId) (t : NativeCallbackLifetime) :
    (r.setLifetime l t).entries = r.entries := rfl

@[simp] theorem setLifetime_made (l : LifetimeId) (t : NativeCallbackLifetime) :
    (r.setLifetime l t).made = r.made := rfl

theorem setLifetime_lifetimes (l l' : LifetimeId) (t : NativeCallbackLifetime) :
    (r.setLifetime l t).lifetimes l' = if l' = l then t else r.lifetimes l' :=
  Function.update_apply _ _ _ _

theorem erase_entries_eq_some {ref ref' : NativeCallbackRef} {e : Entry F}
    (h : (r.erase ref).entries ref' = some e) : r.entries ref' = some e := by
  by_cases hsame : ref' = ref
  · subst hsame
    simp [erase] at h
  · simpa [erase, Function.update_of_ne hsame] using h

theorem insert_entries_eq_some {f : F} {ref : NativeCallbackRef} {e : Entry F}
    (h : (r.insert (some f)).1.entries ref = some e) :
    r.entries ref = some e ∨ e = ⟨f, r.made⟩ := by
  simp only [insert, Function.update_apply] at h
  generalize (if r.nextId = 0 then r.nextId + 1 else r.nextId) = id at h
  by_cases hid : ref = id
  · subst hid
    rw [if_pos rfl] at h
    cases hfound : r.entries ref with
    | none => simpa [hfound, eq_comm] using h
    | some old => exact .inl (by simpa [hfound] using h)
  · rw [if_neg hid] at h
    exact .inl h

@[simp] theorem insert_made (f : F) : (r.insert (some f)).1.made = r.made + 1 := rfl

theorem insert_lifetimes (f : F) (l : LifetimeId) :
    (r.insert (some f)).1.lifetimes l = if l = r.made then {} else r.lifetimes l :=
  Function.update_apply _ _ _ _

end NativeCallbackRegistry

/-- The registry with the calls that were ever made, from whichever threads. -/
structure World (F : Type) where
  registry : NativeCallbackRegistry F := {}
  calls : List (Phase F) := []

/-- A call starts, takes its next section, or its callback returns or throws. -/
inductive Action (F : Type) where
  | insert (invoke : Option F)
  | invoke (ref : NativeCallbackRef)
  | close (ref : NativeCallbackRef)
  | advance (c : Nat)
  | finish (c : Nat) (answer : Answer)

namespace World
variable {F : Type}

def next (w : World F) : Action F → Option (World F)
  | .insert invoke => some { w with registry := (w.registry.insert invoke).1 }
  | .invoke ref => some { w with calls := w.calls ++ [.invoking ref] }
  | .close ref => some { w with calls := w.calls ++ [.closing ref] }
  | .advance c =>
    match w.calls[c]? with
    | none => none
    | some p => (w.registry.advance p).map fun o => { registry := o.1, calls := w.calls.set c o.2 }
  | .finish c answer =>
    match w.calls[c]? with
    | some (.executing e) => some { w with calls := w.calls.set c (.answering e answer) }
    | _ => none

def Initial (w : World F) : Prop := w = {}

def Step (w : World F) (a : Action F) (w' : World F) : Prop := w.next a = some w'

end World

namespace Phase
variable {F : Type}

/-- The lifetime a call has its own pointer to. -/
def lifetime : Phase F → Option LifetimeId
  | .found e | .executing e | .answering e _ => some e.lifetime
  | .marking _ l | .draining _ l | .erasing _ l | .closed _ l => some l
  | _ => none

/-- An invocation with a lease of the lifetime, from before the callback runs until after it. -/
def holds (l : LifetimeId) : Phase F → Bool
  | .executing e | .answering e _ => decide (e.lifetime = l)
  | _ => false

/-- A close that has shut the lifetime. -/
def hasShut (l : LifetimeId) : Phase F → Prop
  | .draining _ l' | .erasing _ l' | .closed _ l' => l' = l
  | _ => False

/-- A close that has seen the last lease go. -/
def hasDrained (l : LifetimeId) : Phase F → Prop
  | .erasing _ l' | .closed _ l' => l' = l
  | _ => False

/-- An invocation that has acquired its lease. -/
def acquired (e : Entry F) : Phase F → Prop
  | .executing e' | .answering e' _ | .completed e' _ => e' = e
  | _ => False

theorem hasShut_of_hasDrained {l : LifetimeId} {p : Phase F} (h : p.hasDrained l) : p.hasShut l := by
  cases p <;> first | exact h | exact h.elim

theorem holds_of_hasDrained {l l' : LifetimeId} {p : Phase F} (h : p.hasDrained l) :
    p.holds l' = false := by
  cases p <;> first | rfl | exact h.elim

theorem lifetime_of_holds {l : LifetimeId} {p : Phase F} (h : p.holds l = true) :
    p.lifetime = some l := by
  cases p <;> simp_all [holds, lifetime]

theorem lifetime_of_hasShut {l : LifetimeId} {p : Phase F} (h : p.hasShut l) : p.lifetime = some l := by
  cases p <;> simp_all [hasShut, lifetime]

end Phase

section
variable {F : Type} {r r' : NativeCallbackRegistry F} {p p' : Phase F}

/-- What a section of one call can do to the registry and to the phase of the call. -/
structure Moved (r : NativeCallbackRegistry F) (p : Phase F) (r' : NativeCallbackRegistry F)
    (p' : Phase F) : Prop where
  entries : ∀ ref e, r'.entries ref = some e → r.entries ref = some e
  made : r'.made = r.made
  lifetime : ∀ l, p'.lifetime = some l →
    p.lifetime = some l ∨ ∃ ref e, r.entries ref = some e ∧ e.lifetime = l
  active : ∀ l, (r'.lifetimes l).active =
    (r.lifetimes l).active - (if p.holds l then 1 else 0) + (if p'.holds l then 1 else 0)
  stays : ∀ l, (r.lifetimes l).closed = true → (r'.lifetimes l).closed = true
  refuses : ∀ l, (r.lifetimes l).closed = true → p'.holds l = true → p.holds l = true
  shuts : ∀ l, p'.hasShut l → p.hasShut l ∨ (r'.lifetimes l).closed = true
  drains : ∀ l, p'.hasDrained l → p.hasDrained l ∨ (r.lifetimes l).active = 0
  acquired : ∀ e, p.acquired e → p'.acquired e
  unfinished : ∀ ref l, p ≠ .closed ref l

open NativeCallbackRegistry

attribute [local simp] Phase.lifetime Phase.holds Phase.hasShut Phase.hasDrained Phase.acquired

theorem Moved.acquire {e : Entry F} {t : NativeCallbackLifetime}
    (h : (r.lifetimes e.lifetime).tryAcquire = some t) :
    Moved r (.found e) (r.setLifetime e.lifetime t) (.executing e) := by
  obtain ⟨hopen, hopen', hactive⟩ := NativeCallbackLifetime.tryAcquire_eq_some h
  constructor
  case active =>
    intro l
    by_cases hl : l = e.lifetime
    · subst hl
      simp [setLifetime_lifetimes, hactive]
    · simp [setLifetime_lifetimes, hl, Ne.symm hl]
  case stays =>
    intro l hclosed
    by_cases hl : l = e.lifetime
    · rw [hl, hopen] at hclosed
      cases hclosed
    · simpa [setLifetime_lifetimes, hl] using hclosed
  case refuses =>
    intro l hclosed hholds
    simp only [Phase.holds, decide_eq_true_eq] at hholds
    rw [← hholds, hopen] at hclosed
    cases hclosed
  all_goals simp

theorem Moved.release (e : Entry F) (answer : Answer) :
    Moved r (.answering e answer) (r.setLifetime e.lifetime (r.lifetimes e.lifetime).release)
      (.completed e answer) := by
  constructor
  case active =>
    intro l
    by_cases hl : l = e.lifetime
    · subst hl
      simp [setLifetime_lifetimes]
    · simp [setLifetime_lifetimes, hl, Ne.symm hl]
  case stays =>
    intro l hclosed
    by_cases hl : l = e.lifetime
    · subst hl
      simpa [setLifetime_lifetimes] using hclosed
    · simpa [setLifetime_lifetimes, hl] using hclosed
  all_goals simp

theorem Moved.shut (ref : NativeCallbackRef) (l : LifetimeId)
    (hp : p' = .draining ref l ∨ p' = .erasing ref l ∧ (r.lifetimes l).active = 0) :
    Moved r (.marking ref l) (r.setLifetime l (r.lifetimes l).shut) p' := by
  have hsame (l' : LifetimeId) : ((r.setLifetime l (r.lifetimes l).shut).lifetimes l').active =
      (r.lifetimes l').active := by
    by_cases hl : l' = l
    · subst hl
      simp [setLifetime_lifetimes]
    · simp [setLifetime_lifetimes, hl]
  have hclosed (l' : LifetimeId) : ((r.setLifetime l (r.lifetimes l).shut).lifetimes l').closed = true ↔
      l = l' ∨ (r.lifetimes l').closed = true := by
    by_cases hl : l' = l
    · subst hl
      simp [setLifetime_lifetimes]
    · simp [setLifetime_lifetimes, hl, Ne.symm hl]
  obtain rfl | ⟨rfl, hidle⟩ := hp
  · constructor <;> simp_all
  · constructor <;> simp_all

theorem Moved.advance (h : r.advance p = some (r', p')) : Moved r p r' p' := by
  cases p with
  | invoking ref =>
    rw [NativeCallbackRegistry.advance] at h
    split at h
    · obtain ⟨rfl, rfl⟩ := Prod.mk.inj (Option.some.inj h)
      constructor <;> simp
    · next e he =>
      obtain ⟨rfl, rfl⟩ := Prod.mk.inj (Option.some.inj h)
      constructor <;> simp
      exact ⟨ref, e, he, rfl⟩
  | found e =>
    rw [NativeCallbackRegistry.advance] at h
    split at h
    · obtain ⟨rfl, rfl⟩ := Prod.mk.inj (Option.some.inj h)
      constructor <;> simp
    · next t ht =>
      obtain ⟨rfl, rfl⟩ := Prod.mk.inj (Option.some.inj h)
      exact .acquire ht
  | answering e answer =>
    obtain ⟨rfl, rfl⟩ := Prod.mk.inj (Option.some.inj h)
    exact .release e answer
  | closing ref =>
    rw [NativeCallbackRegistry.advance] at h
    split at h
    · obtain ⟨rfl, rfl⟩ := Prod.mk.inj (Option.some.inj h)
      constructor <;> simp
    · next e he =>
      obtain ⟨rfl, rfl⟩ := Prod.mk.inj (Option.some.inj h)
      constructor <;> simp
      exact ⟨ref, e, he, rfl⟩
  | marking ref l =>
    rw [NativeCallbackRegistry.advance] at h
    split at h
    · next hidle =>
      obtain ⟨rfl, rfl⟩ := Prod.mk.inj (Option.some.inj h)
      exact .shut ref l (.inr ⟨rfl, hidle⟩)
    · obtain ⟨rfl, rfl⟩ := Prod.mk.inj (Option.some.inj h)
      exact .shut ref l (.inl rfl)
  | draining ref l =>
    rw [NativeCallbackRegistry.advance] at h
    split at h
    · next hidle =>
      obtain ⟨rfl, rfl⟩ := Prod.mk.inj (Option.some.inj h)
      constructor <;> simp_all
    · nomatch h
  | erasing ref l =>
    obtain ⟨rfl, rfl⟩ := Prod.mk.inj (Option.some.inj h)
    constructor
    case entries => exact fun _ _ => erase_entries_eq_some r
    all_goals simp [erase]
  | _ => nomatch h

theorem Moved.finish (e : Entry F) (answer : Answer) (hheld : 0 < (r.lifetimes e.lifetime).active) :
    Moved r (.executing e) r (.answering e answer) := by
  constructor
  case active =>
    intro l
    by_cases hl : e.lifetime = l
    · subst hl
      simp only [Phase.holds, decide_true, if_true]
      omega
    · simp [hl]
  all_goals simp

end

open Phase NativeCallbackRegistry

/-- What holds of the registry and the calls between any two sections. -/
structure Consistent {F : Type} (w : World F) : Prop where
  entries : ∀ ref e, w.registry.entries ref = some e → e.lifetime < w.registry.made
  lifetime : ∀ p ∈ w.calls, ∀ l, p.lifetime = some l → l < w.registry.made
  counted : ∀ l, (w.registry.lifetimes l).active = w.calls.countP (·.holds l)
  shut : ∀ p ∈ w.calls, ∀ l, p.hasShut l → (w.registry.lifetimes l).closed = true
  drained : ∀ p ∈ w.calls, ∀ l, p.hasDrained l → (w.registry.lifetimes l).active = 0

/-- A lifetime that is closed, and of which no lease is left. -/
def Settled {F : Type} (l : LifetimeId) (w : World F) : Prop :=
  (w.registry.lifetimes l).closed = true ∧ ∀ p ∈ w.calls, p.holds l = false

section
variable {F : Type} {w w' : World F} {p p' : Phase F} {r' : NativeCallbackRegistry F}
  {c : Nat} {l : LifetimeId}

theorem Consistent.initial : Consistent ({} : World F) := by
  constructor <;> simp

theorem Consistent.settled (h : Consistent w) (hclosed : (w.registry.lifetimes l).closed = true)
    (hidle : (w.registry.lifetimes l).active = 0) : Settled l w := by
  refine ⟨hclosed, fun p hp => ?_⟩
  rw [h.counted, List.countP_eq_zero] at hidle
  simpa using hidle p hp

theorem Consistent.active_pos (h : Consistent w) (hc : w.calls[c]? = some p) (hholds : p.holds l = true) :
    0 < (w.registry.lifetimes l).active := by
  rw [h.counted, List.countP_pos_iff]
  exact ⟨p, List.mem_of_getElem? hc, hholds⟩

theorem Consistent.start (h : Consistent w) (hp : p.lifetime = none) :
    Consistent { w with calls := w.calls ++ [p] } := by
  have hholds (l : LifetimeId) : p.holds l = false := by
    cases hh : p.holds l with
    | false => rfl
    | true => simp [lifetime_of_holds hh] at hp
  have hshut (l : LifetimeId) (hs : p.hasShut l) : False := by simp [lifetime_of_hasShut hs] at hp
  constructor
  case entries => exact h.entries
  case counted =>
    intro l
    simp [h.counted, hholds]
  all_goals
    intro q hq l hl
    obtain hq | rfl := (List.mem_append.mp hq).imp_right List.mem_singleton.mp
  · exact h.lifetime q hq l hl
  · simp [hp] at hl
  · exact h.shut q hq l hl
  · exact (hshut l hl).elim
  · exact h.drained q hq l hl
  · exact (hshut l (Phase.hasShut_of_hasDrained hl)).elim

theorem Consistent.insert (h : Consistent w) (invoke : Option F) :
    Consistent { w with registry := (w.registry.insert invoke).1 } := by
  cases invoke with
  | none => exact h
  | some f =>
    have hold {q : Phase F} (hq : q ∈ w.calls) {l : LifetimeId} (hl : q.lifetime = some l) :
        (w.registry.insert (some f)).1.lifetimes l = w.registry.lifetimes l := by
      rw [insert_lifetimes, if_neg (Nat.ne_of_lt (h.lifetime q hq l hl))]
    constructor
    case entries =>
      intro ref e he
      obtain he | rfl := insert_entries_eq_some _ he
      · exact Nat.lt_succ_of_lt (h.entries ref e he)
      · exact Nat.lt_succ_self _
    case lifetime =>
      intro q hq l hl
      exact Nat.lt_succ_of_lt (h.lifetime q hq l hl)
    case counted =>
      intro l
      rw [insert_lifetimes]
      split
      · next hnew =>
        symm
        apply List.countP_eq_zero.mpr
        intro q hq hholds
        exact Nat.ne_of_lt (h.lifetime q hq l (lifetime_of_holds hholds)) hnew
      · exact h.counted l
    case shut =>
      intro q hq l hl
      rw [hold hq (lifetime_of_hasShut hl)]
      exact h.shut q hq l hl
    case drained =>
      intro q hq l hl
      rw [hold hq (lifetime_of_hasShut (Phase.hasShut_of_hasDrained hl))]
      exact h.drained q hq l hl

theorem Consistent.move (h : Consistent w) (hc : w.calls[c]? = some p) (hmoved : Moved w.registry p r' p') :
    Consistent { registry := r', calls := w.calls.set c p' } := by
  have hp : p ∈ w.calls := List.mem_of_getElem? hc
  obtain ⟨hlt, hget⟩ := List.getElem?_eq_some_iff.mp hc
  -- a lifetime that is closed and idle stays idle: nobody gets a lease of it
  have hidle (l : LifetimeId) (hclosed : (w.registry.lifetimes l).closed = true)
      (hzero : (w.registry.lifetimes l).active = 0) : (r'.lifetimes l).active = 0 := by
    rw [hmoved.active, hzero]
    have hfree := (h.settled hclosed hzero).2 p hp
    have hrefused : p'.holds l = false := by
      cases hh : p'.holds l with
      | false => rfl
      | true => rw [hmoved.refuses l hclosed hh] at hfree; nomatch hfree
    simp [hrefused]
  constructor
  case entries =>
    intro ref e he
    rw [hmoved.made]
    exact h.entries ref e (hmoved.entries ref e he)
  case counted =>
    intro l
    change (r'.lifetimes l).active = _
    rw [hmoved.active, h.counted, List.countP_set hlt, hget]
  all_goals
    intro q hq l hl
    obtain hq | rfl := List.mem_or_eq_of_mem_set hq
  · rw [hmoved.made]
    exact h.lifetime q hq l hl
  · rw [hmoved.made]
    obtain hl | ⟨ref, e, he, rfl⟩ := hmoved.lifetime l hl
    · exact h.lifetime p hp l hl
    · exact h.entries ref e he
  · exact hmoved.stays l (h.shut q hq l hl)
  · obtain hl | hl := hmoved.shuts l hl
    · exact hmoved.stays l (h.shut p hp l hl)
    · exact hl
  · exact hidle l (h.shut q hq l (Phase.hasShut_of_hasDrained hl)) (h.drained q hq l hl)
  · change (r'.lifetimes l).active = 0
    have hzero : (w.registry.lifetimes l).active = 0 :=
      (hmoved.drains l hl).elim (h.drained p hp l) id
    rw [hmoved.active, hzero]
    simp [holds_of_hasDrained hl]

/-- All that a step can do. -/
theorem Consistent.step_cases (h : Consistent w) {a : Action F} (hstep : World.Step w a w') :
    (∃ invoke, w' = { w with registry := (w.registry.insert invoke).1 }) ∨
    (∃ p, p.lifetime = none ∧ w' = { w with calls := w.calls ++ [p] }) ∨
    ∃ c p r' p', w.calls[c]? = some p ∧ Moved w.registry p r' p' ∧
      w' = { registry := r', calls := w.calls.set c p' } := by
  cases a with
  | insert invoke => exact .inl ⟨invoke, (Option.some.inj hstep).symm⟩
  | invoke ref => exact .inr (.inl ⟨.invoking ref, rfl, (Option.some.inj hstep).symm⟩)
  | close ref => exact .inr (.inl ⟨.closing ref, rfl, (Option.some.inj hstep).symm⟩)
  | advance c =>
    rw [World.Step, World.next] at hstep
    split at hstep
    · nomatch hstep
    · next p hc =>
      obtain ⟨⟨r', p'⟩, hadvance, rfl⟩ := Option.map_eq_some_iff.mp hstep
      exact .inr (.inr ⟨c, p, r', p', hc, .advance hadvance, rfl⟩)
  | finish c answer =>
    rw [World.Step, World.next] at hstep
    split at hstep
    · next e hc =>
      have hheld := h.active_pos hc (l := e.lifetime) (by simp [holds])
      exact .inr (.inr ⟨c, _, _, _, hc, .finish e answer hheld, (Option.some.inj hstep).symm⟩)
    · nomatch hstep

theorem Consistent.step (h : Consistent w) {a : Action F} (hstep : World.Step w a w') :
    Consistent w' := by
  obtain ⟨invoke, rfl⟩ | ⟨p, hp, rfl⟩ | ⟨c, p, r', p', hc, hmoved, rfl⟩ := h.step_cases hstep
  · exact h.insert invoke
  · exact h.start hp
  · exact h.move hc hmoved

/-- What a section of one call keeps of a phase, every step keeps of the phases of all. -/
theorem Consistent.step_keeps (h : Consistent w) {a : Action F} (hstep : World.Step w a w')
    (keep : Phase F → Prop) (hkeep : ∀ r p r' p', Moved r p r' p' → keep p → keep p')
    (hc : ∃ p, w.calls[c]? = some p ∧ keep p) : ∃ p, w'.calls[c]? = some p ∧ keep p := by
  obtain ⟨p, hc, hp⟩ := hc
  obtain ⟨hlt, -⟩ := List.getElem?_eq_some_iff.mp hc
  obtain ⟨invoke, rfl⟩ | ⟨q, -, rfl⟩ | ⟨d, q, r', q', hd, hmoved, rfl⟩ := h.step_cases hstep
  · exact ⟨p, hc, hp⟩
  · exact ⟨p, by rw [List.getElem?_append_left hlt, hc], hp⟩
  · by_cases hsame : d = c
    · subst hsame
      obtain rfl : q = p := Option.some.inj (hd.symm.trans hc)
      exact ⟨q', by simp [hlt], hkeep _ _ _ _ hmoved hp⟩
    · exact ⟨p, by simpa [List.getElem?_set_ne hsame] using hc, hp⟩

variable {past : List (World F × Action F)}

theorem Consistent.run (hrun : Run World.Initial World.Step w past) : Consistent w :=
  hrun.invariant_of_all Consistent (fun _ hw => by rw [show _ = _ from hw]; exact .initial)
    fun _ _ _ h hstep => h.step hstep

theorem run_keeps (hrun : Run World.Initial World.Step w past) {earlier : World F}
    (hearlier : earlier ∈ w :: past.map Prod.fst) (keep : Phase F → Prop)
    (hkeep : ∀ r p r' p', Moved r p r' p' → keep p → keep p')
    (hc : ∃ p, earlier.calls[c]? = some p ∧ keep p) : ∃ p, w.calls[c]? = some p ∧ keep p := by
  have hpairs := hrun.stable Consistent (fun _ _ => True)
    (fun w => ∃ p, w.calls[c]? = some p ∧ keep p)
    (fun _ hw => by rw [show _ = _ from hw]; exact .initial)
    (fun _ _ _ h _ hstep => ⟨h.step hstep, h.step_keeps hstep keep hkeep⟩) (fun _ _ => trivial)
  obtain rfl | hpast := List.mem_cons.mp hearlier
  · exact hc
  · exact (List.pairwise_cons.mp hpairs).1 earlier hpast hc

/-- In whatever order the sections of the calls are taken: from when a close of a callback
    has returned on, no invocation of the callback executes, and each that ever got a lease
    of it has completed. -/
theorem closed_callbacks_never_run (hrun : Run World.Initial World.Step w past) {closed : World F}
    (hclosed : closed ∈ w :: past.map Prod.fst) {k : Nat} {ref : NativeCallbackRef} {l : LifetimeId}
    (hreturned : closed.calls[k]? = some (.closed ref l)) :
    (∀ (c : Nat) (p : Phase F), w.calls[c]? = some p → p.holds l = false) ∧
      ∀ earlier ∈ w :: past.map Prod.fst, ∀ (c : Nat) (e : Entry F),
        earlier.calls[c]? = some (.executing e) →
        e.lifetime = l → ∃ answer, w.calls[c]? = some (.completed e answer) := by
  have h : Consistent w := .run hrun
  obtain ⟨p, hp, rfl⟩ := run_keeps hrun hclosed (· = .closed ref l)
    (fun r p r' p' hmoved hp => (hmoved.unfinished ref l hp).elim) ⟨_, hreturned, rfl⟩
  have hmem := List.mem_of_getElem? hp
  have hidle := (h.settled (h.shut _ hmem l rfl) (h.drained _ hmem l rfl)).2
  have hnone (c : Nat) (p : Phase F) (hc : w.calls[c]? = some p) : p.holds l = false :=
    hidle p (List.mem_of_getElem? hc)
  refine ⟨hnone, ?_⟩
  rintro earlier hearlier c e hexecuting rfl
  obtain ⟨p, hc, hacquired⟩ := run_keeps hrun hearlier (Phase.acquired e)
    (fun r p r' p' hmoved hp => hmoved.acquired e hp) ⟨_, hexecuting, rfl⟩
  have hreleased := hnone c p hc
  cases p with
  | executing e' => simp_all [holds, acquired]
  | answering e' answer => simp_all [holds, acquired]
  | completed e' answer =>
    obtain rfl : e' = e := hacquired
    exact ⟨answer, hc⟩
  | _ => exact hacquired.elim

private theorem run_section (hrun : Run World.Initial World.Step w past) (a : Action F)
    (hnext : w.next a = some w') : Run World.Initial World.Step w' ((w, a) :: past) :=
  hrun.step hnext

/-- The call is looked up before the close, and runs while the close waits. -/
theorem closed_callbacks_never_run_waiting : ∃ w : World Nat,
    w.calls = [.completed ⟨7, 0⟩ (.returned 3), .closed 1 0] ∧
      ∀ (c : Nat) (p : Phase Nat), w.calls[c]? = some p → p.holds 0 = false := by
  have h₀ : Run World.Initial World.Step ({} : World Nat) [] := .start rfl
  have h₁ := run_section h₀ (.insert (some 7)) rfl
  have h₂ := run_section h₁ (.invoke 1) rfl
  have h₃ := run_section h₂ (.close 1) rfl
  have h₄ := run_section h₃ (.advance 0) rfl
  have h₅ := run_section h₄ (.advance 1) rfl
  have h₆ := run_section h₅ (.advance 0) rfl
  have h₇ := run_section h₆ (.advance 1) rfl
  have h₈ := run_section h₇ (.finish 0 (.returned 3)) rfl
  have h₉ := run_section h₈ (.advance 0) rfl
  have h₁₀ := run_section h₉ (.advance 1) rfl
  have h₁₁ := run_section h₁₀ (.advance 1) rfl
  refine ⟨_, ?_, (closed_callbacks_never_run h₁₁ List.mem_cons_self (k := 1) rfl).1⟩
  rfl

end

end zl.vm.native
