import Mathlib.Logic.Relation
import Mathlib.Logic.Function.Iterate

open Relation

namespace zl.graph

section
variable {A : Type} {edge : A → A → Prop} {root : A}

/-- A path from the root to `v` that never visits `d`. -/
def Avoids (edge : A → A → Prop) (root d v : A) : Prop :=
  root ≠ d ∧ ReflTransGen (fun a b => edge a b ∧ b ≠ d) root v

/-- Every path from the root to `v` visits `d`. -/
def Dominates (edge : A → A → Prop) (root d v : A) : Prop := ¬ Avoids edge root d v

theorem Avoids.reachable {d v : A} (h : Avoids edge root d v) : ReflTransGen edge root v :=
  h.2.lift id fun _ _ hedge => hedge.1

theorem Avoids.ne {d v : A} (h : Avoids edge root d v) : v ≠ d := by
  obtain ⟨hroot, hpath⟩ := h
  cases hpath with
  | refl => exact hroot
  | tail _ hedge => exact hedge.2

theorem Avoids.tail {d v w : A} (h : Avoids edge root d v) (hedge : edge v w) (hw : w ≠ d) :
    Avoids edge root d w :=
  ⟨h.1, h.2.tail ⟨hedge, hw⟩⟩

/-- Two reachable vertices that dominate one another are one. -/
theorem Dominates.antisymm {d v : A} (hreach : ReflTransGen edge root v) (hdv : Dominates edge root d v)
    (hvd : Dominates edge root v d) : d = v := by
  by_contra hne
  have hd : root ≠ d := by
    rintro rfl
    exact hvd ⟨hne, .refl⟩
  have hv : root ≠ v := by
    rintro rfl
    exact hdv ⟨Ne.symm hne, .refl⟩
  -- A path meets neither of them before the other one.
  have hneither (w : A) (hpath : ReflTransGen edge root w) : Avoids edge root d w ∧
      Avoids edge root v w := by
    induction hpath with
    | refl => exact ⟨⟨hd, .refl⟩, hv, .refl⟩
    | @tail w x _ hedge ih =>
      have hxd : x ≠ d := by
        rintro rfl
        exact hvd (ih.2.tail hedge hne)
      have hxv : x ≠ v := by
        rintro rfl
        exact hdv (ih.1.tail hedge (Ne.symm hne))
      exact ⟨ih.1.tail hedge hxd, ih.2.tail hedge hxv⟩
  exact (hneither v hreach).2.ne rfl

/-- `a` lies on the chain that leads from `b` upwards. -/
def Above (up : A → A) (b a : A) : Prop := ∃ k, up^[k] b = a

theorem Above.refl (up : A → A) (b : A) : Above up b b := ⟨0, rfl⟩

theorem Above.step {up : A → A} {b a : A} (h : Above up (up b) a) : Above up b a := by
  obtain ⟨k, hk⟩ := h
  exact ⟨k + 1, hk⟩

theorem Above.trans {up : A → A} {c b a : A} (hcb : Above up c b) (hba : Above up b a) :
    Above up c a := by
  obtain ⟨k, rfl⟩ := hcb
  obtain ⟨l, rfl⟩ := hba
  exact ⟨l + k, Function.iterate_add_apply up l k c⟩

theorem Above.up {up : A → A} {b a : A} (h : Above up b a) (hne : b ≠ a) : Above up (up b) a := by
  obtain ⟨k, hk⟩ := h
  cases k with
  | zero => exact absurd hk hne
  | succ k => exact ⟨k, hk⟩

/-- A fixed point of the dominator equations is sound: when the parent of every vertex lies on the
    chains of all its reachable predecessors, a path that avoids `a` only visits vertices whose
    chains avoid `a` as well. -/
theorem dominates_of_above {up : A → A} (hroot : up root = root)
    (hedge : ∀ v w, edge v w → ReflTransGen edge root v → w ≠ root → Above up v (up w))
    {a b : A} (habove : Above up b a) : Dominates edge root a b := by
  have hchain : ∀ v, Avoids edge root a v → ¬ Above up v a := by
    rintro v ⟨hne, hpath⟩
    induction hpath with
    | refl =>
      rintro ⟨k, hk⟩
      rw [Function.iterate_fixed hroot] at hk
      exact hne hk
    | @tail v w hpath hstep ih =>
      intro hw
      by_cases hwroot : w = root
      · obtain ⟨k, hk⟩ := hw
        rw [hwroot, Function.iterate_fixed hroot] at hk
        exact hne hk
      · have hreach : ReflTransGen edge root v := Avoids.reachable ⟨hne, hpath⟩
        exact ih ((hedge v w hstep.1 hreach hwroot).trans (hw.up hstep.2))
  exact fun havoids => hchain b havoids habove

end

section
variable {A : Type} [DecidableEq A]

/-- The inner loop of `intersect`: climb until the number is at most `limit`. -/
def walkUp (up : A → A) (number : A → Nat) (limit : Nat) : Nat → A → A
  | 0, a => a
  | fuel + 1, a => if number a > limit then walkUp up number limit fuel (up a) else a

/-- Climb from two vertices in turn until they meet, cut off after `fuel` rounds. A climb takes
    fewer steps than the number it starts at. -/
def intersect (up : A → A) (number : A → Nat) : Nat → A → A → A
  | 0, a, _ => a
  | fuel + 1, a, b =>
    if a = b then a
    else
      let a := walkUp up number (number b) (number a) a
      let b := walkUp up number (number a) (number b) b
      intersect up number fuel a b

/-- A run of the inner loop. -/
inductive WalksUp (up : A → A) (number : A → Nat) (limit : Nat) : A → A → Prop
  | stop {a : A} (h : ¬number a > limit) : WalksUp up number limit a a
  | climb {a r : A} (h : number a > limit) (hrest : WalksUp up number limit (up a) r) :
      WalksUp up number limit a r

/-- A run of `intersect` that ends: both vertices climb until they meet. -/
inductive Intersects (up : A → A) (number : A → Nat) : A → A → A → Prop
  | met {a : A} : Intersects up number a a a
  | round {a b a' b' r : A} (hne : a ≠ b) (ha : WalksUp up number (number b) a a')
      (hb : WalksUp up number (number a') b b')
      (hrest : Intersects up number a' b' r) : Intersects up number a b r

/-- Vertices in the domain of a forest whose parents carry smaller numbers, up to the root with
    number zero. -/
structure Climbs (up : A → A) (number : A → Nat) (root : A) (dom : A → Prop) : Prop where
  up_root : up root = root
  number_root : number root = 0
  dom_up : ∀ x, dom x → dom (up x)
  lt : ∀ x, dom x → x ≠ root → number (up x) < number x
  inj : ∀ x y, dom x → dom y → number x = number y → x = y

namespace Climbs

variable {up : A → A} {number : A → Nat} {root : A} {dom : A → Prop}

omit [DecidableEq A] in
theorem dom_above (h : Climbs up number root dom) {a b : A} (ha : dom a) (hab : Above up a b) :
    dom b := by
  obtain ⟨k, rfl⟩ := hab
  induction k generalizing a with
  | zero => exact ha
  | succ k ih => exact ih (h.dom_up a ha)

omit [DecidableEq A] in
theorem number_up_le (h : Climbs up number root dom) {a : A} (ha : dom a) :
    number (up a) ≤ number a := by
  by_cases hroot : a = root
  · exact Nat.le_of_eq (by rw [hroot, h.up_root])
  · exact Nat.le_of_lt (h.lt a ha hroot)

omit [DecidableEq A] in
theorem number_above_le (h : Climbs up number root dom) {a b : A} (ha : dom a)
    (hab : Above up a b) : number b ≤ number a := by
  obtain ⟨k, rfl⟩ := hab
  induction k generalizing a with
  | zero => exact Nat.le_refl _
  | succ k ih => exact Nat.le_trans (ih (h.dom_up a ha)) (h.number_up_le ha)

omit [DecidableEq A] in
theorem number_above_lt (h : Climbs up number root dom) {a b : A} (ha : dom a)
    (hab : Above up a b) (hne : a ≠ b) : number b < number a := by
  refine Nat.lt_of_le_of_ne (h.number_above_le ha hab) fun heq => hne ?_
  exact (h.inj b a (h.dom_above ha hab) ha heq).symm

omit [DecidableEq A] in
/-- A climb stops at the first vertex of the chain within the limit, so it passes none of the
    vertices that lie within it. -/
theorem walkUp_spec (h : Climbs up number root dom) (limit : Nat) {fuel : Nat} {a : A} (ha : dom a)
    (hfuel : number a ≤ fuel) :
    Above up a (walkUp up number limit fuel a) ∧ number (walkUp up number limit fuel a) ≤ limit ∧
      ∀ u, Above up a u → number u ≤ limit → Above up (walkUp up number limit fuel a) u := by
  induction fuel generalizing a with
  | zero => exact ⟨.refl up a, Nat.le_trans hfuel (Nat.zero_le _), fun u hu _ => hu⟩
  | succ fuel ih =>
    unfold walkUp
    split
    · next hgt =>
      have hroot : a ≠ root := by
        rintro rfl
        rw [h.number_root] at hgt
        exact Nat.not_lt_zero _ hgt
      have hlt := h.lt a ha hroot
      obtain ⟨habove, hlimit, hall⟩ := ih (h.dom_up a ha) (by omega)
      refine ⟨habove.step, hlimit, fun u hu hle => hall u (hu.up ?_) hle⟩
      rintro rfl
      omega
    · next hle => exact ⟨.refl up a, Nat.le_of_not_lt hle, fun u hu _ => hu⟩

/-- Two climbing vertices meet at their lowest common ancestor. -/
theorem intersect_spec (h : Climbs up number root dom) {fuel : Nat} {a b : A} (ha : dom a)
    (hb : dom b) (hfuel : number a + number b < fuel) :
    Above up a (intersect up number fuel a b) ∧ Above up b (intersect up number fuel a b) ∧
      ∀ u, Above up a u → Above up b u → Above up (intersect up number fuel a b) u := by
  induction fuel generalizing a b with
  | zero => omega
  | succ fuel ih =>
    unfold intersect
    by_cases hab : a = b
    · rw [if_pos hab]
      exact ⟨.refl up a, hab ▸ .refl up b, fun u hu _ => hu⟩
    · rw [if_neg hab]
      obtain ⟨ha₁, ha₂, ha₃⟩ := h.walkUp_spec (number b) ha (Nat.le_refl _)
      generalize walkUp up number (number b) (number a) a = a' at ha₁ ha₂ ha₃
      obtain ⟨hb₁, hb₂, hb₃⟩ := h.walkUp_spec (number a') hb (Nat.le_refl _)
      simp only
      generalize walkUp up number (number a') (number b) b = b' at hb₁ hb₂ hb₃
      have hle := h.number_above_le ha ha₁
      have hmeasure : number a' + number b' < number a + number b := by
        rcases Nat.lt_trichotomy (number a) (number b) with hlt | heq | hgt
        · omega
        · exact absurd (h.inj a b ha hb heq) hab
        · omega
      obtain ⟨hra, hrb, hall⟩ := ih (h.dom_above ha ha₁) (h.dom_above hb hb₁) (by omega)
      refine ⟨ha₁.trans hra, hb₁.trans hrb, fun u hua hub => ?_⟩
      have hua' := ha₃ u hua (h.number_above_le hb hub)
      exact hall u hua' (hb₃ u hub (h.number_above_le (h.dom_above ha ha₁) hua'))

omit [DecidableEq A] in
/-- The inner loop ends, since the root has the smallest number. -/
theorem walksUp (h : Climbs up number root dom) (limit : Nat) {fuel : Nat} {a : A} (ha : dom a)
    (hfuel : number a ≤ fuel) :
    WalksUp up number limit a (walkUp up number limit fuel a) := by
  induction fuel generalizing a with
  | zero => exact .stop (by omega)
  | succ fuel ih =>
    unfold walkUp
    split
    next hgt =>
      have hroot : a ≠ root := by
        rintro rfl
        rw [h.number_root] at hgt
        exact Nat.not_lt_zero _ hgt
      have hlt := h.lt a ha hroot
      exact .climb hgt (ih (h.dom_up a ha) (by omega))
    next hle => exact .stop hle

/-- The outer loop ends, since each round climbs. -/
theorem intersects (h : Climbs up number root dom) {fuel : Nat} {a b : A} (ha : dom a) (hb : dom b)
    (hfuel : number a + number b < fuel) : Intersects up number a b (intersect up number fuel a b) := by
  induction fuel generalizing a b with
  | zero => omega
  | succ fuel ih =>
    unfold intersect
    by_cases hab : a = b
    · rw [if_pos hab, ← hab]
      exact .met
    · rw [if_neg hab]
      obtain ⟨ha₁, hlimit, -⟩ := h.walkUp_spec (number b) ha (Nat.le_refl _)
      have hwalka := h.walksUp (number b) ha (Nat.le_refl _)
      generalize walkUp up number (number b) (number a) a = a' at ha₁ hlimit hwalka
      obtain ⟨hb₁, hlimit', -⟩ := h.walkUp_spec (number a') hb (Nat.le_refl _)
      have hwalkb := h.walksUp (number a') hb (Nat.le_refl _)
      simp only
      generalize walkUp up number (number a') (number b) b = b' at hb₁ hlimit' hwalkb
      have hle := h.number_above_le ha ha₁
      have hmeasure : number a' + number b' < number a + number b := by
        rcases Nat.lt_trichotomy (number a) (number b) with hlt | heq | hgt
        · omega
        · exact absurd (h.inj a b ha hb heq) hab
        · omega
      exact .round hab hwalka hwalkb (ih (h.dom_above ha ha₁) (h.dom_above hb hb₁) (by omega))

end Climbs

end

end zl.graph
