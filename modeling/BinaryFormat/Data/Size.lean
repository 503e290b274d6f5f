/-!
# Sizes

Sizes and positions are words of 64 bits.  Their sums, products and differences
are not checked: what is over a word is cut off.
-/

namespace BinaryFormat.Size

def add (a b : Nat) : Nat := (a + b) % Nat.pow 2 64

def mul (a b : Nat) : Nat := a * b % Nat.pow 2 64

/-- How far `b` lies before `a`; a distance backwards wraps around. -/
def sub (a b : Nat) : Nat := if b ≤ a then a - b else Nat.pow 2 64 + a - b

theorem add_of_le {a b : Nat} (fits : a + b ≤ Nat.pow 2 64 - 1) : add a b = a + b :=
  Nat.mod_eq_of_lt (Nat.lt_of_le_pred (by decide) fits)

theorem mul_of_le {a b : Nat} (fits : a * b ≤ Nat.pow 2 64 - 1) : mul a b = a * b :=
  Nat.mod_eq_of_lt (Nat.lt_of_le_pred (by decide) fits)

theorem sub_of_le {a b : Nat} (onward : b ≤ a) : sub a b = a - b := if_pos onward

@[simp] theorem add_sub_cancel_left (a n : Nat) : sub (a + n) a = n := by
  rw [sub_of_le (Nat.le_add_right a n), Nat.add_sub_cancel_left]

theorem le_add_of_sub_eq {a b n : Nat} (distance : sub a b = n) : a ≤ b + n := by
  rcases Nat.le_total b a with onward | backward
  · rw [sub_of_le onward] at distance
    omega
  · omega

/-- Both positions may be moved by the same distance. -/
theorem sub_add_right (a b n : Nat) : sub (a + n) (b + n) = sub a b := by
  unfold sub
  by_cases onward : b ≤ a
  · rw [if_pos onward, if_pos (Nat.add_le_add_right onward n), Nat.add_sub_add_right]
  · rw [if_neg onward, if_neg fun h => onward (Nat.le_of_add_le_add_right h), ← Nat.add_assoc,
      Nat.add_sub_add_right]

end BinaryFormat.Size
