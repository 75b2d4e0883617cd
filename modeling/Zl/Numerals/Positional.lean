import Mathlib.Data.Nat.Digits.Lemmas

namespace zl.numerals

variable {b d : Nat} {l l' : List Nat}

/-- The value of a row of digits, the most significant one first. -/
def positional (b : Nat) (digits : List Nat) : Nat :=
  Nat.ofDigits b digits.reverse

@[simp]
theorem positional_nil : positional b [] = 0 := rfl

@[simp]
theorem positional_singleton : positional b [d] = d := by
  simp [positional]

theorem positional_append : positional b (l ++ l') = positional b l * b ^ l'.length + positional b l' := by
  rw [positional, List.reverse_append, Nat.ofDigits_append, List.length_reverse]
  simp only [positional]
  rw [Nat.mul_comm (b ^ _), Nat.add_comm]

theorem positional_cons : positional b (d :: l) = d * b ^ l.length + positional b l := by
  rw [show d :: l = [d] ++ l from rfl, positional_append, positional_singleton]

theorem positional_concat : positional b (l ++ [d]) = positional b l * b + d := by
  rw [positional_append]
  simp

theorem positional_inj (hb : 1 < b) (hlength : l.length = l'.length) (hl : ∀ d ∈ l, d < b)
    (hl' : ∀ d ∈ l', d < b) (h : positional b l = positional b l') : l = l' := by
  apply List.reverse_injective
  exact Nat.ofDigits_inj_of_len_eq hb (by simpa using hlength) (by simpa using hl)
    (by simpa using hl') h

end zl.numerals
