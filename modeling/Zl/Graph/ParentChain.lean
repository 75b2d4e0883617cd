import Mathlib.Data.List.Nodup
import Mathlib.Data.List.Perm.Subperm

namespace zl.graph

section
variable {A B : Type}

/-- A node and what lies above it, at most `limit` of them. -/
def chain (parent : A → Option A) : Nat → A → List A
  | 0, _ => []
  | limit + 1, a => a :: (parent a).elim [] (chain parent limit)

/-- The node `n` steps above. -/
def ancestor (parent : A → Option A) : Nat → A → Option A
  | 0, a => some a
  | n + 1, a => (parent a).bind (ancestor parent n)

/-- What the nearest node on the way up declares, or nothing when none of them does. -/
inductive Nearest (parent : A → Option A) (declared : A → Option B) : A → Option B → Prop
  | own {a : A} {b : B} (h : declared a = some b) : Nearest parent declared a (some b)
  | inherited {a a' : A} {r : Option B} (hnone : declared a = none) (hparent : parent a = some a')
      (h : Nearest parent declared a' r) : Nearest parent declared a r
  | absent {a : A} (hnone : declared a = none) (hroot : parent a = none) : Nearest parent declared a none

/-- No node is above itself. -/
def Acyclic (parent : A → Option A) : Prop := ∀ a, ¬ Relation.TransGen (fun a b => parent a = some b) a a

variable {parent : A → Option A} {declared : A → Option B} {limit : Nat} {a : A}

theorem getElem?_chain {n : Nat} (a : A) (hn : n < limit) :
    (chain parent limit a)[n]? = ancestor parent n a := by
  induction n generalizing limit a with
  | zero =>
    obtain ⟨limit, rfl⟩ := Nat.exists_eq_add_of_lt hn
    rw [Nat.zero_add]
    rfl
  | succ n ih =>
    obtain ⟨limit, rfl⟩ : ∃ k, limit = k + 1 := ⟨limit - 1, by omega⟩
    rw [chain, List.getElem?_cons_succ, ancestor]
    cases parent a with
    | none => rfl
    | some a' => exact ih a' (by omega)

theorem length_chain_le (limit : Nat) (a : A) : (chain parent limit a).length ≤ limit := by
  induction limit generalizing a with
  | zero => exact Nat.le_refl 0
  | succ limit ih =>
    rw [chain, List.length_cons]
    cases parent a with
    | none => exact Nat.succ_le_succ (Nat.zero_le _)
    | some a' => exact Nat.succ_le_succ (ih a')

theorem mem_chain_iff {b : A} :
    b ∈ chain parent limit a ↔ ∃ n, n < limit ∧ ancestor parent n a = some b := by
  rw [List.mem_iff_getElem?]
  constructor
  · rintro ⟨n, hn⟩
    have hlt : n < limit :=
      Nat.lt_of_lt_of_le (List.getElem?_eq_some_iff.mp hn).1 (length_chain_le limit a)
    exact ⟨n, hlt, (getElem?_chain a hlt).symm.trans hn⟩
  · rintro ⟨n, hlt, hn⟩
    exact ⟨n, (getElem?_chain a hlt).trans hn⟩

theorem transGen_of_ancestor {n : Nat} {b : A} (h : ancestor parent (n + 1) a = some b) :
    Relation.TransGen (fun a b => parent a = some b) a b := by
  induction n generalizing a with
  | zero =>
    obtain ⟨a', ha', h⟩ := Option.bind_eq_some_iff.mp h
    cases h
    exact .single ha'
  | succ n ih =>
    obtain ⟨a', ha', h⟩ := Option.bind_eq_some_iff.mp h
    exact .head ha' (ih h)

theorem nodup_chain (hacyclic : Acyclic parent) (limit : Nat) (a : A) : (chain parent limit a).Nodup := by
  induction limit generalizing a with
  | zero => exact List.nodup_nil
  | succ limit ih =>
    rw [chain]
    cases hparent : parent a with
    | none => exact List.nodup_singleton a
    | some a' =>
      refine List.nodup_cons.mpr ⟨fun hmem => ?_, ih a'⟩
      obtain ⟨n, -, hn⟩ := mem_chain_iff.mp hmem
      refine hacyclic a (transGen_of_ancestor (n := n) ?_)
      rw [ancestor, hparent]
      exact hn

theorem ancestor_succ (n : Nat) (a : A) :
    ancestor parent (n + 1) a = (ancestor parent n a).bind parent := by
  induction n generalizing a with
  | zero =>
    rw [ancestor, ancestor, Option.bind_some]
    cases parent a with
    | none => rfl
    | some a' => rfl
  | succ n ih =>
    rw [ancestor, ancestor]
    cases parent a with
    | none => rfl
    | some a' => exact ih a'

/-- Above every node there is a root, when finitely many nodes have a parent. -/
theorem exists_root (hacyclic : Acyclic parent) {nodes : List A}
    (hnodes : ∀ a b, parent a = some b → a ∈ nodes) (a : A) : ∃ n, ancestor parent n a = none := by
  by_contra hno
  have hsome (n : Nat) : ∃ b, ancestor parent n a = some b :=
    Option.ne_none_iff_exists'.mp fun h => hno ⟨n, h⟩
  have hsubset : chain parent (nodes.length + 1) a ⊆ nodes := by
    intro b hb
    obtain ⟨n, -, hn⟩ := mem_chain_iff.mp hb
    obtain ⟨c, hc⟩ := hsome (n + 1)
    rw [ancestor_succ, hn] at hc
    exact hnodes b c hc
  have hle := ((nodup_chain hacyclic (nodes.length + 1) a).subperm hsubset).length_le
  obtain ⟨b, hb⟩ := hsome nodes.length
  have hlast : (chain parent (nodes.length + 1) a)[nodes.length]? = some b :=
    (getElem?_chain a (Nat.lt_succ_self _)).trans hb
  have hlt := (List.getElem?_eq_some_iff.mp hlast).1
  omega

theorem Nearest.unique {r r' : Option B} (h : Nearest parent declared a r)
    (h' : Nearest parent declared a r') :
    r = r' := by
  induction h with
  | own hown =>
    cases h' with
    | own hown' => exact hown.symm.trans hown'
    | inherited hnone => cases hown.symm.trans hnone
    | absent hnone => cases hown.symm.trans hnone
  | inherited hnone hparent _ ih =>
    cases h' with
    | own hown => cases hnone.symm.trans hown
    | inherited _ hparent' h' => exact ih (Option.some.inj (hparent'.symm.trans hparent) ▸ h')
    | absent _ hroot => cases hparent.symm.trans hroot
  | absent hnone hroot =>
    cases h' with
    | own hown => cases hnone.symm.trans hown
    | inherited _ hparent => cases hroot.symm.trans hparent
    | absent => rfl

theorem Nearest.of_findSome? {b : B} (h : (chain parent limit a).findSome? declared = some b) :
    Nearest parent declared a (some b) := by
  induction limit generalizing a with
  | zero => cases h
  | succ limit ih =>
    rw [chain, List.findSome?_cons] at h
    cases hown : declared a with
    | some b' =>
      rw [hown] at h
      cases h
      exact .own hown
    | none =>
      rw [hown] at h
      cases hparent : parent a with
      | none =>
        rw [hparent] at h
        cases h
      | some a' =>
        rw [hparent] at h
        exact .inherited hown hparent (ih h)

theorem Nearest.none_iff (hacyclic : Acyclic parent) {nodes : List A}
    (hnodes : ∀ a b, parent a = some b → a ∈ nodes) :
    Nearest parent declared a none ↔ ∀ n b, ancestor parent n a = some b → declared b = none := by
  constructor
  · intro h
    generalize hr : (none : Option B) = r at h
    induction h with
    | own h => cases hr
    | inherited hnone hparent h ih =>
      intro n b hn
      cases n with
      | zero =>
        cases hn
        cases hr
        exact hnone
      | succ n =>
        rw [ancestor, hparent] at hn
        exact ih hr n b hn
    | absent hnone hroot =>
      intro n b hn
      cases n with
      | zero =>
        cases hn
        exact hnone
      | succ n =>
        rw [ancestor, hroot] at hn
        cases hn
  · intro h
    obtain ⟨n, hroot⟩ := exists_root hacyclic hnodes a
    induction n generalizing a with
    | zero => cases hroot
    | succ n ih =>
      have hown : declared a = none := h 0 a rfl
      cases hparent : parent a with
      | none => exact .absent hown hparent
      | some a' =>
        rw [ancestor, hparent] at hroot
        refine .inherited hown hparent (ih (fun k b hk => h (k + 1) b ?_) hroot)
        rw [ancestor, hparent]
        exact hk

/-- A walk of bounded length finds what the nearest declaring node declares, unless all that
    declare are beyond its end. -/
theorem nearest_findSome?_iff (hacyclic : Acyclic parent) {nodes : List A}
    (hnodes : ∀ a b, parent a = some b → a ∈ nodes) :
    Nearest parent declared a ((chain parent limit a).findSome? declared) ↔
      ((∃ n b, ancestor parent n a = some b ∧ (declared b).isSome) →
        ∃ n b, n < limit ∧ ancestor parent n a = some b ∧ (declared b).isSome) := by
  cases hfind : (chain parent limit a).findSome? declared with
  | some b =>
    obtain ⟨c, hmem, hc⟩ := List.exists_of_findSome?_eq_some hfind
    obtain ⟨n, hlt, hn⟩ := mem_chain_iff.mp hmem
    exact iff_of_true (.of_findSome? hfind) fun _ => ⟨n, c, hlt, hn, Option.isSome_iff_exists.mpr ⟨b, hc⟩⟩
  | none =>
    rw [Nearest.none_iff hacyclic hnodes]
    have hnear (n : Nat) (b : A) (hlt : n < limit) (hn : ancestor parent n a = some b) :
        declared b = none :=
      List.findSome?_eq_none_iff.mp hfind b (mem_chain_iff.mpr ⟨n, hlt, hn⟩)
    constructor
    · rintro h ⟨n, b, hn, hb⟩
      rw [h n b hn] at hb
      cases hb
    · intro h n b hn
      by_contra hne
      obtain ⟨n', b', hlt, hn', hb'⟩ := h ⟨n, b, hn, Option.isSome_iff_ne_none.mpr hne⟩
      rw [hnear n' b' hlt hn'] at hb'
      cases hb'

end

end zl.graph
