import Mathlib

/-!
# Three chained digits

A number is written with three digits in base `n`, each added to the one before it, and read back
with the differences. The reader computes modulo `m`, and accepts a result only if it has the first
digit as its remainder.
-/

namespace ChainedTriple

variable {n m w a b c : Nat}

def encode (n w : Nat) : Nat × Nat × Nat :=
  let a := w % n
  let b := (w / n + a) % n
  (a, b, (w / n / n + b) % n)

def total (n a b c : Nat) : Nat := a + n * ((n - a + b) % n) + n * n * ((n - b + c) % n)

/-- The number of three digits, or `none` if it is found to be wrapped. -/
def decode (n m a b c : Nat) : Option Nat :=
  let w := total n a b c % m
  if w % n = a then some w else none

theorem sub_add_mod (ha : a ≤ n) (q : Nat) : (n - a + (q + a) % n) % n = q % n := by
  rw [Nat.add_mod_mod, show n - a + (q + a) = q + n by omega, Nat.add_mod_right]

theorem decode_encode (hn : 0 < n) (hw : w < m) (hm : m ≤ n ^ 3) :
    decode n m (encode n w).1 (encode n w).2.1 (encode n w).2.2 = some w := by
  have hhigh : w / n / n < n := by
    rw [Nat.div_div_eq_div_mul]
    refine Nat.div_lt_of_lt_mul (hw.trans_le (hm.trans_eq ?_))
    ring
  have htotal : total n (encode n w).1 (encode n w).2.1 (encode n w).2.2 = w := by
    simp only [encode, total]
    rw [sub_add_mod (Nat.mod_lt _ hn).le, sub_add_mod (Nat.mod_lt _ hn).le, Nat.mod_eq_of_lt hhigh]
    calc w % n + n * (w / n % n) + n * n * (w / n / n)
        = w % n + n * (w / n % n + n * (w / n / n)) := by ring
      _ = w := by rw [Nat.mod_add_div, Nat.mod_add_div]
  rw [decode, htotal, Nat.mod_eq_of_lt hw]
  exact if_pos rfl

end ChainedTriple
