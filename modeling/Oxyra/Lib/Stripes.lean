import Mathlib

/-!
# Stripes

The numbers are cut into blocks of `size`, and the blocks are dealt out to `stripes` stripes in
turn. `nextInStripe` is the least number of a stripe from a given one on.
-/

namespace Stripes

variable {size stripes r h x : Nat}

def stripeOf (size stripes x : Nat) : Nat := x / size % stripes

/-- The start of the block of stripe `r` in a cycle. -/
def blockStart (size stripes cycle r : Nat) : Nat :=
  cycle * (size * stripes) + r * size

/-- From `h` on: `h` itself if it lies in the stripe, otherwise the start of the stripe's block in
this cycle or the next. -/
def nextInStripe (size stripes r h : Nat) : Nat :=
  if stripeOf size stripes h = r then h
  else blockStart size stripes (h / size / stripes + if stripeOf size stripes h < r then 0 else 1) r

theorem blockStart_eq (cycle : Nat) :
    blockStart size stripes cycle r = (cycle * stripes + r) * size := by
  unfold blockStart
  ring

theorem stripeOf_blockStart (hsize : 0 < size) (hr : r < stripes) (cycle : Nat) :
    stripeOf size stripes (blockStart size stripes cycle r) = r := by
  rw [stripeOf, blockStart_eq, Nat.mul_div_cancel _ hsize, Nat.mul_comm cycle,
    Nat.mul_add_mod, Nat.mod_eq_of_lt hr]

theorem blockStart_le (hx : stripeOf size stripes x = r) :
    blockStart size stripes (x / size / stripes) r ≤ x := by
  rw [blockStart_eq, ← hx, stripeOf, Nat.div_add_mod' (x / size) stripes]
  exact Nat.div_mul_le_self x size

theorem blockStart_mono {c d : Nat} (h : c ≤ d) :
    blockStart size stripes c r ≤ blockStart size stripes d r :=
  Nat.add_le_add_right (Nat.mul_le_mul_right _ h) _

theorem lt_of_div_lt {b : Nat} (hsize : 0 < size) (h : x / size < b) : x < b * size :=
  (Nat.div_lt_iff_lt_mul hsize).mp h

/-- **The next number of a stripe is the least one.** -/
theorem isLeast_nextInStripe (hsize : 0 < size) (hr : r < stripes) :
    IsLeast {x | h ≤ x ∧ stripeOf size stripes x = r} (nextInStripe size stripes r h) := by
  have hq := Nat.div_add_mod' (h / size) stripes
  unfold nextInStripe
  by_cases hin : stripeOf size stripes h = r
  · rw [if_pos hin]
    exact ⟨⟨Nat.le_refl h, hin⟩, fun x hx => hx.1⟩
  · rw [if_neg hin]
    have hmod : h / size % stripes < stripes := Nat.mod_lt _ (by omega)
    by_cases hlt : stripeOf size stripes h < r
    · -- the stripe's block is still to come in this cycle
      rw [if_pos hlt, Nat.add_zero]
      refine ⟨⟨?_, stripeOf_blockStart hsize hr _⟩, fun x hx => ?_⟩
      · rw [blockStart_eq]
        refine (lt_of_div_lt hsize ?_).le
        unfold stripeOf at hlt
        omega
      · refine (blockStart_mono ?_).trans (blockStart_le hx.2)
        exact Nat.div_le_div_right (Nat.div_le_div_right hx.1)
    · rw [if_neg hlt]
      refine ⟨⟨?_, stripeOf_blockStart hsize hr _⟩, fun x hx => ?_⟩
      · rw [blockStart_eq]
        refine (lt_of_div_lt hsize ?_).le
        rw [Nat.add_mul, Nat.one_mul]
        omega
      · -- in this cycle the stripe's block has passed
        refine (blockStart_mono ?_).trans (blockStart_le hx.2)
        by_contra hsame
        have hle : h / size ≤ x / size := Nat.div_le_div_right hx.1
        have hcycle : h / size / stripes ≤ x / size / stripes := Nat.div_le_div_right hle
        have heq : x / size / stripes = h / size / stripes := by omega
        have hxq := Nat.div_add_mod' (x / size) stripes
        have hxr : x / size % stripes = r := hx.2
        unfold stripeOf at hin hlt
        rw [heq, hxr] at hxq
        omega

theorem stripeOf_of_lt_next (hsize : 0 < size) (hle : h ≤ x) (hlt : x < (h / size + 1) * size) :
    stripeOf size stripes x = stripeOf size stripes h := by
  have hdiv : x / size = h / size := by
    refine le_antisymm ?_ (Nat.div_le_div_right hle)
    exact Nat.lt_succ_iff.mp ((Nat.div_lt_iff_lt_mul hsize).mpr hlt)
  rw [stripeOf, hdiv, stripeOf]

theorem stripeOf_next (hsize : 0 < size) (hr : stripeOf size stripes h = r) (hmany : 1 < stripes) :
    stripeOf size stripes ((h / size + 1) * size) = (r + 1) % stripes := by
  rw [stripeOf, Nat.mul_div_cancel _ hsize, Nat.add_mod, ← hr, stripeOf, Nat.mod_eq_of_lt hmany]

theorem succ_mod_ne (hr : r < stripes) (hmany : 1 < stripes) : (r + 1) % stripes ≠ r := by
  rcases Nat.lt_or_ge (r + 1) stripes with hin | hout
  · rw [Nat.mod_eq_of_lt hin]
    omega
  · rw [show r + 1 = stripes by omega, Nat.mod_self]
    omega

theorem nextInStripe_succ (hsize : 0 < size) (hr : stripeOf size stripes h = r)
    (hmany : 1 < stripes) :
    nextInStripe size stripes ((r + 1) % stripes) h = (h / size + 1) * size := by
  have hlt : r < stripes := hr ▸ Nat.mod_lt _ (by omega)
  refine (isLeast_nextInStripe hsize (Nat.mod_lt _ (by omega))).unique
    ⟨⟨(lt_of_div_lt hsize (Nat.lt_succ_self _)).le, stripeOf_next hsize hr hmany⟩, fun x hx => ?_⟩
  by_contra hbefore
  refine succ_mod_ne hlt hmany (hx.2.symm.trans ?_)
  rw [stripeOf_of_lt_next hsize hx.1 (Nat.lt_of_not_le hbefore), hr]

end Stripes
