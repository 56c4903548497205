import Mathlib.Algebra.BigOperators.Ring.List
import Mathlib.Algebra.CharZero.Defs
import Mathlib.Tactic.FieldSimp
import Mathlib.Tactic.LinearCombination
import Mathlib.Tactic.Ring

/-!
Means and co-moments of two quantities over a list of samples, and how one more sample updates them.
The second moment of a quantity is its co-moment with itself.
-/

namespace Moments

variable {K α : Type*} [Field K] (f g : α → K)

def mean (l : List α) : K := (l.map f).sum / l.length

/-- The deviations of two quantities from their means, multiplied and added up. -/
def comoment (l : List α) : K := (l.map fun s => (f s - mean f l) * (g s - mean g l)).sum

variable {f g} {l : List α} {s : α}

theorem sum_deviations (l : List α) (p q : K) :
    (l.map fun s => (f s - p) * (g s - q)).sum =
      (l.map fun s => f s * g s).sum - p * (l.map g).sum - q * (l.map f).sum + l.length * (p * q) := by
  induction l with
  | nil => simp
  | cons s l ih =>
      simp only [List.map_cons, List.sum_cons, List.length_cons, ih]
      push_cast
      ring

section CharZero

variable [CharZero K]

theorem length_mul_mean (f : α → K) (l : List α) : l.length * mean f l = (l.map f).sum := by
  cases l with
  | nil => simp
  | cons s l =>
      have hlength : ((s :: l).length : K) ≠ 0 := Nat.cast_ne_zero.mpr (Nat.succ_ne_zero _)
      rw [mean, mul_div_cancel₀ _ hlength]

/-- One more sample moves the mean by its deviation over the number of samples. -/
theorem mean_concat (f : α → K) (l : List α) (s : α) :
    mean f (l ++ [s]) = mean f l + (f s - mean f l) / (l ++ [s]).length := by
  have hlength : ((l ++ [s]).length : K) ≠ 0 := by
    rw [List.length_append]
    exact Nat.cast_ne_zero.mpr (Nat.succ_ne_zero _)
  have hsum := length_mul_mean f l
  rw [mean, div_eq_iff hlength, add_mul, div_mul_cancel₀ _ hlength, List.map_append, List.sum_append,
    ← hsum, List.length_append]
  simp only [List.map_cons, List.map_nil, List.sum_singleton, List.length_singleton]
  push_cast
  ring

/-- The co-moment is the sum of the products less the product of the means, once for each sample. -/
theorem comoment_eq (f g : α → K) (l : List α) :
    comoment f g l = (l.map fun s => f s * g s).sum - l.length * (mean f l * mean g l) := by
  rw [comoment, sum_deviations, ← length_mul_mean f, ← length_mul_mean g]
  ring

/-- One more sample adds its deviation from the old mean times its deviation from the new one. -/
theorem comoment_concat (f g : α → K) (l : List α) (s : α) :
    comoment f g (l ++ [s]) =
      comoment f g l + (f s - mean f l) * (g s - mean g (l ++ [s])) := by
  have hf := length_mul_mean f (l ++ [s])
  have hg := length_mul_mean g (l ++ [s])
  have hf' := length_mul_mean f l
  have hg' := length_mul_mean g l
  simp only [List.map_append, List.sum_append, List.map_cons, List.map_nil, List.sum_singleton,
    List.length_append, List.length_singleton] at hf hg
  push_cast at hf hg
  rw [comoment_eq, comoment_eq]
  simp only [List.map_append, List.sum_append, List.map_cons, List.map_nil, List.sum_singleton,
    List.length_append, List.length_singleton]
  push_cast
  -- the sums of the longer list are those of the shorter one and the sample
  linear_combination mean g (l ++ [s]) * (hf' - hf) + mean f l * (hg' - hg)

end CharZero

end Moments
