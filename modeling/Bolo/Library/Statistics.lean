import Mathlib.Algebra.BigOperators.Group.List.Basic
import Mathlib.Algebra.Order.Field.Basic
import Mathlib.Data.List.Sort
import Mathlib.Data.Rat.Cast.Order
import Mathlib.Tactic.FieldSimp
import Mathlib.Tactic.LinearCombination
import Mathlib.Tactic.Ring

/-!
# Mean, variance and median of a list

The two-pass definitions of the mean and the variance, and how they change when one value is
appended: the one-pass recurrences follow from the sum of squares. The median may be read off
any sorted list of the values.
-/
namespace Library

variable {K : Type} [Field K]

def mean (xs : List K) : K := xs.sum / xs.length

/-- The population variance. -/
def variance (xs : List K) : K := (xs.map fun x => (x - mean xs) ^ 2).sum / xs.length

theorem mean_perm {xs ys : List K} (h : xs.Perm ys) : mean xs = mean ys := by
  rw [mean, mean, h.sum_eq, h.length_eq]

theorem variance_perm {xs ys : List K} (h : xs.Perm ys) : variance xs = variance ys := by
  rw [variance, variance, mean_perm h, (h.map _).sum_eq, h.length_eq]

/-- Squared distances from any centre, by the sum and the sum of squares. -/
theorem sum_sq_sub (xs : List K) (c : K) :
    (xs.map fun x => (x - c) ^ 2).sum =
      (xs.map (· ^ 2)).sum - 2 * c * xs.sum + xs.length * c ^ 2 := by
  induction xs with
  | nil => simp
  | cons x xs ih =>
    simp only [List.map_cons, List.sum_cons, List.length_cons, ih]
    push_cast
    ring

variable [CharZero K]

theorem length_mul_mean (xs : List K) : xs.length * mean xs = xs.sum := by
  cases xs with
  | nil => simp
  | cons x xs =>
    have hlen : (((x :: xs).length : Nat) : K) ≠ 0 := Nat.cast_ne_zero.mpr (by simp)
    rw [mean, mul_div_cancel₀ _ hlen]

theorem length_mul_variance (xs : List K) :
    xs.length * variance xs = (xs.map (· ^ 2)).sum - xs.sum * mean xs := by
  cases xs with
  | nil => simp
  | cons x xs =>
    have hlen : (((x :: xs).length : Nat) : K) ≠ 0 := Nat.cast_ne_zero.mpr (by simp)
    rw [variance, mul_div_cancel₀ _ hlen, sum_sq_sub, ← length_mul_mean (x :: xs)]
    ring

/-- Appending a value moves the mean by its share of the distance. -/
theorem mean_concat (xs : List K) (v : K) :
    mean (xs ++ [v]) = mean xs + (v - mean xs) / (xs.length + 1) := by
  have hlen : (xs.length : K) + 1 ≠ 0 := by exact_mod_cast Nat.succ_ne_zero xs.length
  have hsum := length_mul_mean xs
  rw [mean, List.sum_append, List.length_append, ← hsum]
  field_simp
  simp
  ring

/-- The recurrence for the variance multiplies the distances from the old and the new mean. -/
theorem variance_concat (xs : List K) (v : K) :
    variance (xs ++ [v]) =
      (xs.length * variance xs + (v - mean xs) * (v - mean (xs ++ [v]))) / (xs.length + 1) := by
  have hlen : (xs.length : K) + 1 ≠ 0 := by exact_mod_cast Nat.succ_ne_zero xs.length
  have hlength : (((xs ++ [v]).length : Nat) : K) = xs.length + 1 := by simp
  have hnew := length_mul_variance (xs ++ [v])
  have hmean := length_mul_mean (xs ++ [v])
  have hsum := length_mul_mean xs
  rw [hlength] at hnew hmean
  rw [eq_div_iff hlen, mul_comm, hnew, length_mul_variance, ← hmean, ← hsum]
  have hstep : ((xs.length : K) + 1) * mean (xs ++ [v]) = xs.length * mean xs + v := by
    rw [hmean, hsum, List.sum_append]
    simp
  simp only [List.map_append, List.sum_append, List.map_cons, List.map_nil, List.sum_cons,
    List.sum_nil, add_zero]
  linear_combination -(mean (xs ++ [v]) + mean xs) * hstep

section Median

variable [LinearOrder K]

/-- The middle one of the values in order, or the mean of the two in the middle. It is 0 if
there are no values. -/
def medianOf (xs : List K) : K :=
  let s := xs.insertionSort (· ≤ ·)
  let mid := xs.length / 2
  if xs.length % 2 = 0 then (s.getD (mid - 1) 0 + s.getD mid 0) / 2 else s.getD mid 0

omit [CharZero K] in
theorem medianOf_eq_of_sorted {s xs : List K} (hperm : s.Perm xs)
    (hsorted : s.Pairwise (· ≤ ·)) :
    medianOf xs = if xs.length % 2 = 0
      then (s.getD (xs.length / 2 - 1) 0 + s.getD (xs.length / 2) 0) / 2
      else s.getD (xs.length / 2) 0 := by
  have hsort : xs.insertionSort (· ≤ ·) = s :=
    ((xs.perm_insertionSort _).trans hperm.symm).eq_of_pairwise'
      (xs.pairwise_insertionSort _) hsorted
  rw [medianOf, hsort]

end Median

end Library
