import Mathlib.Data.List.Flatten
import Mathlib.Data.List.Forall2
import Mathlib.Data.List.Induction
import Mathlib.Data.List.Pairwise

namespace zl.collections

theorem bind_eq_ok {E A B : Type} {x : Except E A} {f : A → Except E B} {b : B} :
    x >>= f = .ok b ↔ ∃ a, x = .ok a ∧ f a = .ok b := by
  cases x with
  | error e => exact ⟨nofun, fun ⟨_, h, _⟩ => nomatch h⟩
  | ok a => exact ⟨fun h => ⟨a, rfl, h⟩, fun ⟨_, h, hf⟩ => Except.ok.inj h ▸ hf⟩

namespace association

section
variable {E K V : Type} (equal : K → K → Except E Bool)

/-- The position of the first entry whose key equals a key. The comparison may fail. -/
def findFirst : List (K × V) → K → Except E (Option Nat)
  | [], _ => .ok none
  | entry :: entries, key => do
    if ← equal entry.1 key then return some 0
    else return (← findFirst entries key).map (· + 1)

/-- Every key differs from the keys in front of it. -/
def Distinct (entries : List (K × V)) : Prop :=
  (entries.map Prod.fst).Pairwise fun a b => equal a b = .ok false

def setAt (entries : List (K × V)) (pos : Nat) (value : V) : List (K × V) :=
  entries.modify pos fun entry => (entry.1, value)

end

section
variable {E K V : Type} {equal : K → K → Except E Bool} {entries : List (K × V)} {key : K}
  {value : V} {pos : Nat}

theorem findFirst_of_test {test : K → Bool}
    (h : ∀ entry ∈ entries, equal entry.1 key = .ok (test entry.1)) :
    findFirst equal entries key = .ok ((entries.map Prod.fst).findIdx? test) := by
  induction entries with
  | nil => rfl
  | cons entry entries ih =>
    rw [findFirst, h entry List.mem_cons_self, ih fun e he => h e (List.mem_cons_of_mem _ he),
      List.map_cons, List.findIdx?_cons]
    cases test entry.1 <;> rfl

theorem findFirst_eq_none_iff : findFirst equal entries key = .ok none ↔ ∀ entry ∈ entries,
    equal entry.1 key = .ok false := by
  induction entries with
  | nil => exact iff_of_true rfl nofun
  | cons entry entries ih =>
    rw [findFirst, List.forall_mem_cons, ← ih, bind_eq_ok]
    constructor
    · rintro ⟨holds, hequal, h⟩
      cases holds with
      | true => nomatch h
      | false =>
        obtain ⟨found, hfound, h⟩ := bind_eq_ok.mp h
        refine ⟨hequal, hfound.trans (congrArg Except.ok ?_)⟩
        exact Option.map_eq_none_iff.mp (Except.ok.inj h)
    · rintro ⟨hequal, hfound⟩
      exact ⟨false, hequal, bind_eq_ok.mpr ⟨none, hfound, rfl⟩⟩

@[simp]
theorem keys_setAt : (setAt entries pos value).map Prod.fst = entries.map Prod.fst := by
  refine List.ext_getElem? fun i => ?_
  rw [List.getElem?_map, List.getElem?_map, setAt, List.getElem?_modify]
  cases entries[i]? with
  | none => rfl
  | some entry =>
    simp only [Option.map_some]
    split <;> rfl

theorem Distinct.eraseIdx (h : Distinct equal entries) : Distinct equal (entries.eraseIdx pos) :=
  h.sublist ((List.eraseIdx_sublist _ _).map _)

theorem Distinct.append (h : Distinct equal entries) (hnone : findFirst equal entries key = .ok none) :
    Distinct equal (entries ++ [(key, value)]) := by
  rw [Distinct, List.map_append, List.pairwise_append]
  refine ⟨h, List.pairwise_singleton _ _, fun a ha b hb => ?_⟩
  obtain ⟨entry, hentry, rfl⟩ := List.mem_map.mp ha
  rw [List.mem_singleton.mp hb]
  exact findFirst_eq_none_iff.mp hnone entry hentry

end

end association

section
variable {A : Type} {test : A → Bool} {front rest : List A}

theorem takeWhile_front (hfront : ∀ a ∈ front, test a = true) (hrest : ∀ a ∈ rest.head?, test a = false) :
    (front ++ rest).takeWhile test = front := by
  rw [List.takeWhile_append_of_pos hfront]
  cases rest with
  | nil => rw [List.takeWhile_nil, List.append_nil]
  | cons a rest => rw [List.takeWhile_cons_of_neg (by rw [hrest a rfl]; exact Bool.false_ne_true),
      List.append_nil]

theorem dropWhile_front (hfront : ∀ a ∈ front, test a = true) (hrest : ∀ a ∈ rest.head?, test a = false) :
    (front ++ rest).dropWhile test = rest := by
  rw [List.dropWhile_append_of_pos hfront]
  cases rest with
  | nil => rfl
  | cons a rest => rw [List.dropWhile_cons_of_neg (by rw [hrest a rfl]; exact Bool.false_ne_true)]

end

section
variable {A : Type} (level : A → Nat)

/-- A stack, top first, whose entries were pushed at levels that never decrease towards the
    top. -/
def Levelled (stack : List A) : Prop :=
  stack.Pairwise fun upper lower => level lower ≤ level upper

/-- Every entry was pushed at a level no larger than `bound`. -/
def LevelsAtMost (bound : Nat) (stack : List A) : Prop :=
  ∀ entry ∈ stack, level entry ≤ bound

variable {level}

theorem Levelled.push {stack : List A} {entry : A} (hstack : Levelled level stack)
    (hbound : LevelsAtMost level (level entry) stack) : Levelled level (entry :: stack) :=
  List.pairwise_cons.mpr ⟨hbound, hstack⟩

theorem Levelled.of_cons {stack : List A} {entry : A} (hstack : Levelled level (entry :: stack)) :
    Levelled level stack ∧ LevelsAtMost level (level entry) stack :=
  ⟨(List.pairwise_cons.mp hstack).2, (List.pairwise_cons.mp hstack).1⟩

theorem Levelled.sublist {stack rest : List A} (hstack : Levelled level stack)
    (hsub : rest.Sublist stack) : Levelled level rest :=
  List.Pairwise.sublist hsub hstack

theorem LevelsAtMost.mono {stack : List A} {bound bound' : Nat}
    (hstack : LevelsAtMost level bound stack) (hle : bound ≤ bound') :
    LevelsAtMost level bound' stack :=
  fun entry hentry => Nat.le_trans (hstack entry hentry) hle

theorem LevelsAtMost.sublist {stack rest : List A} {bound : Nat}
    (hstack : LevelsAtMost level bound stack) (hsub : rest.Sublist stack) :
    LevelsAtMost level bound rest :=
  fun entry hentry => hstack entry (hsub.subset hentry)

/-- Popping the entries above a level leaves none above it, because the entries below the first
    survivor lie at least as deep. -/
theorem Levelled.dropWhile_levelsAtMost {stack : List A} (hstack : Levelled level stack) (bound : Nat) :
    LevelsAtMost level bound (stack.dropWhile fun entry => decide (bound < level entry)) := by
  induction stack with
  | nil => intro entry hentry; cases hentry
  | cons top rest ih =>
    obtain ⟨hrest, htop⟩ := hstack.of_cons
    by_cases hlt : bound < level top
    · rw [List.dropWhile_cons_of_pos (by simpa using hlt)]
      exact ih hrest
    · rw [List.dropWhile_cons_of_neg (by simpa using hlt)]
      intro entry hentry
      rcases List.mem_cons.mp hentry with rfl | hentry
      · exact Nat.le_of_not_lt hlt
      · exact Nat.le_trans (htop entry hentry) (Nat.le_of_not_lt hlt)

end

end zl.collections
